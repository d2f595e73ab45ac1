import TwoPhaseCommit.AtomicCommit
import TwoPhaseCommit.ResultMerge

/-! What the coordinator tells a client of a transaction agrees with what the databases of its
cohorts did. -/
namespace TwoPhaseCommit.System
open Coordinator (CommitContext CommitAtomicTransactionRequest Replies SubTransaction Answer Merge
  Merged Blank Progress TransactionMetadata TransactionResponse submissionRpcs messages addresses
  opsAt newAnswers committedReply)
open AdapterChain.Blockchain (VotingDecision)

def AbortKnown (id : String) (s : State) : Prop :=
  (id, .abort) ∈ s.decisions ∨ ∃ a reason, (a, id, some (.abortedResponse reason)) ∈ s.results

def AllGiven (id : String) (s : State) (answers : List Answer) : Prop :=
  ∀ p ∈ answers, (p.1, id, some (.committedResponse p.2)) ∈ s.results

/-- What the coordinator may have of a transaction that was sent to subs, or not sent yet. -/
inductive Account (id : String) (s : State) (subs : List SubTransaction) :
    Option TransactionMetadata × TransactionResponse → Prop
  | idle {m : Option TransactionMetadata} (hsubs : subs = []) (hblank : Blank (m.getD {}))
      (hresponded : (m.getD {}).cohortsAlreadyResponded = []) : Account id s subs (m, {})
  | asking {sub : SubTransaction} {m : TransactionMetadata}
      {r : Coordinator.GetTransactionResultResponse} (hsubs : subs = [sub])
      (hm : m.singleCohortNamespace = some sub.namespace_)
      (hr : r = none ∨ r = some .pendingResponse) : Account id s subs (some m, ⟨false, r⟩)
  | answered {sub : SubTransaction} {m : Option TransactionMetadata}
      {c : TwoPhaseCommit.CommittedResponse} (hsubs : subs = [sub])
      (hc : AllGiven id s [(sub.address, c)]) :
      Account id s subs (m, ⟨true, some (.committedResponse ⟨true, c⟩)⟩)
  | merging {g : Merge} {record : Option TransactionMetadata × TransactionResponse}
      (hmany : 1 < subs.length) (hg : Merged (subs.map SubTransaction.namespace_) g record)
      (hgiven : AllGiven id s g.answers) (hdecided : g.decided → (id, .commit) ∈ s.decisions) :
      Account id s subs record
  | aborted {m : Option TransactionMetadata} {r : Coordinator.AbortedResponse}
      (h : AbortKnown id s) : Account id s subs (m, ⟨true, some (.abortedResponse r)⟩)

section Account
variable {id : String} {s s' : State} {subs : List SubTransaction}
  {record : Option TransactionMetadata × TransactionResponse} {replies : Replies}

theorem AbortKnown.mono (h : AbortKnown id s) (hd : s.decisions ⊆ s'.decisions)
    (hr : s.results ⊆ s'.results) : AbortKnown id s' :=
  h.imp (fun h => hd h) fun ⟨a, reason, h⟩ => ⟨a, reason, hr h⟩

theorem Account.mono (h : Account id s subs record) (hd : s.decisions ⊆ s'.decisions)
    (hr : s.results ⊆ s'.results) : Account id s' subs record := by
  cases h with
  | idle hsubs hblank hresponded => exact .idle hsubs hblank hresponded
  | asking hsubs hm hr' => exact .asking hsubs hm hr'
  | answered hsubs hc => exact .answered hsubs fun p hp => hr (hc p hp)
  | merging hmany hg hgiven hdecided =>
    exact .merging hmany hg (fun p hp => hr (hgiven p hp)) fun h => hd (hdecided h)
  | aborted h => exact .aborted (h.mono hd hr)

theorem committedReply_eq_some {reply : Coordinator.CohortReply}
    {c : TwoPhaseCommit.CommittedResponse} (h : committedReply reply = some c) :
    reply.1.isOk ∧ reply.2 = some (.committedResponse c) := by
  unfold committedReply at h
  split at h
  · next hok hr =>
    rw [hok, hr]
    exact ⟨rfl, congrArg _ (congrArg _ (Option.some.inj h))⟩
  · cases h

theorem Given.newAnswers (hg : Given s id replies) {cohorts : List Namespace}
    (hasked : asked (s.coordinator.metadata id) = cohorts) (answered : List String) :
    AllGiven id s (Coordinator.newAnswers replies.transactionResult answered cohorts 0) := by
  rintro ⟨a, c⟩ hp
  obtain ⟨_, j, hj, hreply⟩ := Gather.mem_round.mp hp
  rw [List.getElem?_map, Option.map_eq_some_iff] at hj
  obtain ⟨n, hn, rfl⟩ := hj
  rw [Nat.zero_add] at hreply
  obtain ⟨hok, hresult⟩ := committedReply_eq_some hreply
  have hmem := hg.result j n (by rwa [hasked]) hok
  rwa [hresult] at hmem

theorem record_eq {k : Coordinator.State} {m : Option TransactionMetadata}
    {r : TransactionResponse} (h : k.record id = (m, r)) :
    k.metadataByTransaction id = m ∧ k.responseByTransaction id = r := Prod.mk.inj h

theorem Account.poll_idle (hg : Given s id replies) (huncommitted : (id, .commit) ∉ s.decisions)
    {m : Option TransactionMetadata} (hblank : Blank (m.getD {}))
    (hresponded : (m.getD {}).cohortsAlreadyResponded = [])
    (hrecord : s.coordinator.record id = (m, {})) :
    Account id s [] ((Coordinator.getTransactionResult replies id s.coordinator).state.record id) := by
  obtain ⟨hm, hr⟩ := record_eq hrecord
  have hincomplete : (s.coordinator.responseByTransaction id).complete = false := by rw [hr]
  cases m with
  | none =>
    rw [Coordinator.getTransactionResult_notFound hincomplete hm, hrecord]
    exact .idle rfl hblank hresponded
  | some m =>
    rw [Coordinator.getTransactionResult_multi hincomplete hm hblank.single]
    have hknown : Coordinator.knownDecision m replies = replies.votingDecision :=
      if_pos hblank.undecided
    rw [hknown]
    cases hd : replies.votingDecision with
    | error status =>
      dsimp only
      rw [hrecord]
      exact .idle rfl hblank hresponded
    | ok d =>
      have hpending (hd : d = .pending ∨ d = .unknown) : Account id s []
          ((s.coordinator.setMetadata id { m with decision := d }).record id) := by
        have hset : (s.coordinator.setMetadata id { m with decision := d }).record id =
            (some { m with decision := d }, {}) := by simp [Coordinator.State.record, hr]
        rw [hset]
        exact .idle rfl ⟨hblank.cohorts, hblank.single, hd⟩ hresponded
      cases d with
      | unknown => exact hpending (.inr rfl)
      | pending => exact hpending (.inl rfl)
      | commit => exact absurd (hg.decision _ hd) huncommitted
      | abort =>
        change Account id s [] (Coordinator.State.record (Coordinator.cleanUpTransactionMetadata id
          (Coordinator.State.setResponse _ id _)) id)
        rw [Coordinator.record_finished]
        exact .aborted (.inl (hg.decision _ hd))

theorem Account.poll_asking (hg : Given s id replies) {sub : SubTransaction}
    {m : TransactionMetadata} {r : Coordinator.GetTransactionResultResponse}
    (hm : m.singleCohortNamespace = some sub.namespace_)
    (hr : r = none ∨ r = some .pendingResponse)
    (hrecord : s.coordinator.record id = (some m, ⟨false, r⟩)) :
    Account id s [sub]
      ((Coordinator.getTransactionResult replies id s.coordinator).state.record id) := by
  obtain ⟨hsome, hresponse⟩ := record_eq hrecord
  have hincomplete : (s.coordinator.responseByTransaction id).complete = false := by rw [hresponse]
  have hasked : asked (s.coordinator.metadata id) = [sub.namespace_] := by
    rw [Coordinator.State.metadata_of_some hsome, asked, hm]
  have hgiven (hok : (replies.transactionResult 0).1.isOk) :
      (sub.address, id, (replies.transactionResult 0).2) ∈ s.results :=
    hg.result 0 sub.namespace_ (by rw [hasked]; rfl) hok
  rw [Coordinator.getTransactionResult_single hincomplete hsome hm]
  obtain ⟨hst, _⟩ | ⟨_, hok, hcases⟩ := Coordinator.updateResponseForSingleCohortTransaction_cases
    id sub.namespace_ (replies.transactionResult 0) s.coordinator
  · dsimp only
    rw [hst, hrecord]
    exact .asking rfl hm hr
  · dsimp only
    rw [hresponse] at hcases
    have hreply := hgiven hok
    obtain ⟨reason, hresult, hnew⟩ | ⟨c, hresult, hnew⟩ | hnew := hcases
    · rw [hnew]
      rw [hresult] at hreply
      exact .aborted (.inr ⟨_, reason, hreply⟩)
    · rw [hresult] at hreply
      have hadd : Coordinator.addGetResponses r c = ⟨false, c⟩ := by
        obtain rfl | rfl := hr <;> rfl
      rw [hnew, hadd]
      refine .answered rfl fun p hp => ?_
      rwa [List.mem_singleton.mp hp]
    · rw [hnew, hsome]
      exact .asking rfl hm (.inr rfl)

theorem Account.poll_merging (hg : Given s id replies)
    (hconsistent : (id, .commit) ∈ s.decisions → (id, .abort) ∉ s.decisions)
    (hmany : 1 < subs.length) (hnodup : (subs.map SubTransaction.address).Nodup) {g : Merge}
    (hm : Merged (subs.map SubTransaction.namespace_) g (s.coordinator.record id))
    (hgiven : AllGiven id s g.answers) (hdecided : g.decided → (id, .commit) ∈ s.decisions) :
    Account id s subs
      ((Coordinator.getTransactionResult replies id s.coordinator).state.record id) := by
  have hne : subs.map SubTransaction.namespace_ ≠ [] := by
    rw [Ne, List.map_eq_nil_iff, ← List.length_eq_zero_iff]
    omega
  have hnodup' : ((subs.map SubTransaction.namespace_).map Namespace.address).Nodup := by
    rw [List.map_map]
    exact hnodup
  have hresponse : s.coordinator.responseByTransaction id = _ := hm.response
  by_cases hall : g.AllAnswered (subs.map SubTransaction.namespace_)
  · rw [decide_eq_true hall] at hresponse
    rw [Coordinator.getTransactionResult_complete (by rw [hresponse])]
    exact .merging hmany hm hgiven hdecided
  obtain ⟨m, hsome, hc⟩ := hm.collects hall
  have hsome' : s.coordinator.metadataByTransaction id = some m := hsome
  by_cases habort : replies.votingDecision = .ok .abort
  · have hread := hg.decision _ habort
    have hundecided : m.decision = .pending ∨ m.decision = .unknown := by
      have hdecision := hc.decision
      split_ifs at hdecision with hd
      · exact absurd hread (hconsistent (hdecided hd))
      · exact hdecision
    rw [decide_eq_false hall] at hresponse
    rw [Coordinator.getTransactionResult_multi (by rw [hresponse]) hsome' hc.many]
    have hknown : Coordinator.knownDecision m replies = .ok .abort := by
      rw [Coordinator.knownDecision, if_pos hundecided, habort]
    rw [hknown]
    change Account id s subs (Coordinator.State.record (Coordinator.cleanUpTransactionMetadata id
      (Coordinator.State.setResponse _ id _)) id)
    rw [Coordinator.record_finished]
    exact .aborted (.inl hread)
  · have hasked : asked (s.coordinator.metadata id) = subs.map SubTransaction.namespace_ := by
      rw [Coordinator.State.metadata_of_some hsome', asked, hc.many, hc.cohorts]
    refine .merging hmany (hm.poll hne hnodup' replies habort).1 ?_ ?_
    · rw [Merge.poll]
      split_ifs
      · exact fun p hp => (List.mem_append.mp hp).elim (hgiven p) (hg.newAnswers hasked _ p)
      · exact hgiven
    · rw [Merge.poll]
      split_ifs with hd
      · intro _
        obtain hd | hd := Bool.or_eq_true_iff.mp hd
        · exact hdecided hd
        · refine hg.decision _ ?_
          unfold Replies.commits at hd
          split at hd
          · assumption
          · cases hd
      · exact hdecided

theorem Account.poll (h : Account id s subs (s.coordinator.record id)) (hg : Given s id replies)
    (huncommitted : subs = [] → (id, .commit) ∉ s.decisions)
    (hconsistent : (id, .commit) ∈ s.decisions → (id, .abort) ∉ s.decisions)
    (hnodup : (subs.map SubTransaction.address).Nodup) :
    Account id s subs
      ((Coordinator.getTransactionResult replies id s.coordinator).state.record id) := by
  generalize hrecord : s.coordinator.record id = record at h
  have hstays (hc : record.2.complete = true) :
      (Coordinator.getTransactionResult replies id s.coordinator).state.record id = record := by
    rw [← hrecord] at hc ⊢
    rw [Coordinator.getTransactionResult_complete hc]
  cases h with
  | idle hsubs hblank hresponded =>
    subst hsubs
    exact .poll_idle hg (huncommitted rfl) hblank hresponded hrecord
  | asking hsubs hm hr =>
    subst hsubs
    exact .poll_asking hg hm hr hrecord
  | answered hsubs hc =>
    rw [hstays rfl]
    exact .answered hsubs hc
  | merging hmany hm hgiven hdecided =>
    rw [← hrecord] at hm
    exact .poll_merging hg hconsistent hmany hnodup hm hgiven hdecided
  | aborted h =>
    rw [hstays rfl]
    exact .aborted h

theorem Account.of_dropped {k k' : Coordinator.State} (hrecord : k.record id = (none, {}))
    (hk : k' = k ∨ ∃ config, k' = k.setMetadata id { k.metadata id with config := config }) :
    Account id s [] (k'.record id) := by
  obtain ⟨hm, hr⟩ := record_eq hrecord
  obtain rfl | ⟨config, rfl⟩ := hk
  · rw [hrecord]
    exact .idle rfl ⟨rfl, rfl, .inr rfl⟩ rfl
  · have hnew : (k.setMetadata id { k.metadata id with config := config }).record id =
        (some { config := config }, {}) := by
      simp [Coordinator.State.record, Coordinator.State.metadata, hm, hr]
    rw [hnew]
    exact .idle rfl ⟨rfl, rfl, .inr rfl⟩ rfl

theorem Account.of_sent {k : Coordinator.State} (hrecord : k.record id = (none, {}))
    (hne : subs ≠ []) (config : TransactionConfig) :
    Account id s subs ((k.setMetadata id
      ({ k.metadata id with config := config }.sent subs)).record id) := by
  obtain ⟨hm, hr⟩ := record_eq hrecord
  have hnew : (k.setMetadata id ({ k.metadata id with config := config }.sent subs)).record id =
      (some (({ config := config } : TransactionMetadata).sent subs), ⟨false, none⟩) := by
    simp [Coordinator.State.record, Coordinator.State.metadata, hm, hr]
  rw [hnew]
  obtain ⟨sub, rest, rfl⟩ := List.exists_cons_of_ne_nil hne
  cases rest with
  | nil => exact .asking rfl rfl (.inl rfl)
  | cons sub' rest =>
    have hmany : 1 < (sub :: sub' :: rest).length := by simp
    exact .merging hmany (Coordinator.merged_sent ⟨rfl, rfl, .inr rfl⟩ rfl hmany)
      (List.forall_mem_nil _) (fun hf => by cases hf)

def Accounted (id : String) (s : State) : Stage → Prop
  | .unsubmitted => s.coordinator.record id = (none, {})
  | .dropped => Account id s [] (s.coordinator.record id)
  | .sent _ subs => Account id s subs (s.coordinator.record id)

theorem Accounted.keep {stage : Stage} (h : Accounted id s stage)
    (hrecord : s'.coordinator.record id = s.coordinator.record id)
    (hd : s.decisions ⊆ s'.decisions) (hr : s.results ⊆ s'.results) : Accounted id s' stage := by
  cases stage with
  | unsubmitted => exact hrecord.trans h
  | dropped =>
    rw [Accounted, hrecord]
    exact Account.mono h hd hr
  | sent config subs =>
    rw [Accounted, hrecord]
    exact Account.mono h hd hr

section Run
variable {P : Parties} {xs : List Action} {stage : Stage}

theorem Accounted.poll (h : Accounted id s stage) (hinv : StageInv P id xs s stage)
    (hg : Given s id replies) :
    Accounted id { s with coordinator :=
      (Coordinator.getTransactionResult replies id s.coordinator).state } stage := by
  cases stage with
  | unsubmitted =>
    obtain ⟨hm, hr⟩ := record_eq h
    have hincomplete : (s.coordinator.responseByTransaction id).complete = false := by rw [hr]
    rw [Accounted, Coordinator.getTransactionResult_notFound hincomplete hm]
    exact h
  | dropped =>
    have huncommitted : (id, .commit) ∉ s.decisions := DroppedInv.uncommitted hinv
    exact (Account.poll h hg (fun _ => huncommitted) (fun hc => absurd hc huncommitted)
      List.nodup_nil).mono subset_rfl subset_rfl
  | sent config subs =>
    have hsent : SentInv P id config subs xs s := hinv
    exact (Account.poll h hg (fun hnil => absurd hnil hsent.nonempty) hsent.reads.consistent
      hsent.nodup).mono subset_rfl subset_rfl

theorem Accounted.step (h : Accounted id s stage) (hrun : Run P xs s)
    (hinv : StageInv P id xs s stage) {x : Action} (hs : Step P s x s') (hx : ¬Submits P id x) :
    Accounted id s' stage := by
  cases hs with
  | commitAtomicTransaction context request hsmall ho hc =>
    subst ho
    have hu := (submitted_of_step (records_run hrun).wellFormed hsmall hc).untouched hx
    refine h.keep ?_ subset_rfl subset_rfl
    exact Prod.ext hu.metadata (congrFun hu.response id)
  | @getTransactionResult u replies hg ho =>
    subst ho
    by_cases hu : id = u
    · subst hu
      exact h.poll hinv hg
    · exact h.keep (Coordinator.record_getTransactionResult hu s.coordinator replies) subset_rfl
        subset_rfl
  | getVotingDecision hd => exact h.keep rfl (Set.subset_insert _ _) subset_rfl
  | cohortResult a u hr => exact h.keep rfl subset_rfl (Set.subset_insert _ _)
  | _ => exact h.keep rfl subset_rfl subset_rfl

/-- At every point of a run the coordinator's record of a transaction fits its stage. -/
theorem accounted_run (h : Run P xs s) (honce : SubmittedOnce P id xs) :
    ∃ stage, StageInv P id xs s stage ∧ Accounted id s stage := by
  induction h with
  | nil => exact ⟨.unsubmitted, UnsubmittedInv.initial P id, rfl⟩
  | @snoc xs s s' x hrun hs ih =>
    obtain ⟨stage, hinv, haccount⟩ := ih honce.init
    by_cases hx : Submits P id x
    · obtain rfl := honce.unsubmitted hinv hx
      obtain ⟨hdropped, hk⟩ | ⟨config, subs, hk, hsent⟩ :=
        UnsubmittedInv.submitted hinv hrun hs hx
      · exact ⟨.dropped, hdropped, .of_dropped haccount hk⟩
      · refine ⟨.sent config subs, hsent, ?_⟩
        rw [Accounted, hk]
        exact .of_sent haccount hsent.nonempty config
    · exact ⟨stage, hinv.step hrun hs hx, haccount.step hrun hinv hs hx⟩

theorem progress_at (h : Run P xs s) (id : String) : Progress (s.coordinator.record id) := by
  refine Runs.Run.invariant (I := fun _ s => Progress (s.coordinator.record id))
    (Coordinator.progress_initial id) ?_ h
  intro xs s x s' _ hp hs
  cases hs with
  | commitAtomicTransaction context request hsmall ho hc =>
    subst ho
    exact hp.commit
  | @getTransactionResult u replies hg ho =>
    subst ho
    by_cases hu : id = u
    · subst hu
      exact hp.poll.progress
    · dsimp only
      rwa [Coordinator.record_getTransactionResult hu]
  | _ => exact hp

end Run

theorem Account.committed (h : Account id s subs record)
    (hnodup : (subs.map SubTransaction.address).Nodup) {c : Coordinator.CommittedResponse}
    (hr : record.2.response = some (.committedResponse c)) (hc : c.complete = true) :
    subs ≠ [] ∧ ∃ answers : List Answer,
      (answers.map Prod.fst).Perm (subs.map SubTransaction.address) ∧
      c.response.getResponses = answers.flatMap (fun p => p.2.getResponses) ∧
      AllGiven id s answers := by
  cases h with
  | idle hsubs hblank hresponded => cases hr
  | asking hsubs hm hr' => obtain rfl | rfl := hr' <;> cases hr
  | @answered sub m c' hsubs hc' =>
    obtain rfl : _ = c := Coordinator.ResultStatus.committedResponse.inj (Option.some.inj hr)
    subst hsubs
    exact ⟨List.cons_ne_nil _ _, [(sub.address, c')], .refl _, by simp, hc'⟩
  | @merging g _ hmany hg hgiven hdecided =>
    have hresponse : g.response (subs.map SubTransaction.namespace_) =
        some (.committedResponse c) := by
      rw [← hr, hg.response]
    unfold Merge.response at hresponse
    split_ifs at hresponse
    obtain rfl : _ = c := Coordinator.ResultStatus.committedResponse.inj (Option.some.inj hresponse)
    have hall : g.AllAnswered (subs.map SubTransaction.namespace_) := of_decide_eq_true hc
    have hmap : (subs.map SubTransaction.namespace_).map Namespace.address =
        subs.map SubTransaction.address := List.map_map
    refine ⟨?_, g.answers, ?_, rfl, hgiven⟩
    · rintro rfl
      cases hmany
    · refine (List.perm_ext_iff_of_nodup hg.distinct hnodup).mpr fun a => ⟨?_, ?_⟩
      · intro ha
        rw [← hmap]
        exact hg.known a ha
      · intro ha
        obtain ⟨sub, hsub, rfl⟩ := List.mem_map.mp ha
        exact hall sub.namespace_ (List.mem_map_of_mem hsub)
  | aborted h => cases hr

theorem Account.abortKnown (h : Account id s subs record) {r : Coordinator.AbortedResponse}
    (hr : record.2.response = some (.abortedResponse r)) : AbortKnown id s := by
  cases h with
  | idle hsubs hblank hresponded => cases hr
  | asking hsubs hm hr' => obtain rfl | rfl := hr' <;> cases hr
  | answered hsubs hc => cases hr
  | @merging g _ hmany hg hgiven hdecided =>
    rw [hg.response] at hr
    unfold Merge.response at hr
    split_ifs at hr
    cases Option.some.inj hr
  | aborted h => exact h

end Account

/-- A cohort has committed ops in its database, which read the values rs. -/
def Executed (P : Parties) (id : String) (xs : List Action) (a : String) (ops : List Operation)
    (rs : List GetResponse) : Prop :=
  ∃ before after s s', xs = before ++ .cohort a id (.commit none) :: after ∧ Run P before s ∧
    Step P s (.cohort a id (.commit none)) s' ∧
    Database.execute (P.adapters a).access (s.cohorts a).store ops = .ok ((s'.cohorts a).store, rs)

section Run
variable {P : Parties} {id a : String} {xs : List Action} {s : State}

theorem executed_of_answered (h : Run P xs s) (hx : .cohort a id (.commit none) ∈ xs)
    {rs : List GetResponse} (hr : Cohort.Answered (s.cohorts a) id rs) :
    ∃ request, (a, request) ∈ s.prepares ∧ request.transactionId = id ∧
      Executed P id xs a request.transaction.ops rs := by
  obtain ⟨before, after, rfl⟩ := List.append_of_mem hx
  obtain ⟨m, m', hm, hs, hafter⟩ := h.at
  have hs' := hs
  cases hs with
  | @cohort _ _ _ k hk hreceived =>
    have hcohort : ((({ m with votes := m.votes ∪ ballots id (.commit none) } : State).setCohort a
        k).cohorts a) = k := Function.update_self ..
    have hrest := cohort_steps hafter a
    rw [hcohort] at hrest
    cases hk with
    | @commit _ request metadata ht =>
      obtain ⟨hstory, hid, _⟩ := story_at hm ht
      have hview : Database.View (P.adapters a).access (m.cohorts a).store
          request.transaction.ops metadata := (Cohort.isolated_run (cohort_run hm a)).views id _ ht
      have hread : metadata.response.committed.getResponses = rs := by
        refine Cohort.Answered.unique (Cohort.Answered.run ?_ hrest) hr
        exact ⟨_, Cohort.State.threads_set .., rfl, rfl⟩
      obtain ⟨action, hmem, hreq⟩ := List.exists_of_findSome?_eq_some hstory.started
      refine ⟨request, ?_, hid, before, after, m, _, rfl, hm, hs', ?_⟩
      · cases action with
        | start request' =>
          obtain rfl := Option.some.inj hreq
          rw [Cohort.mem_actionsOf, mem_actionsAt] at hmem
          exact (records_run h).starts a id _ (List.mem_append_left _ hmem)
        | _ => cases hreq
      · rw [hcohort, ← hread]
        exact hview.execute

theorem result_at (h : Run P xs s) {r : Cohort.GetTransactionResultResponse}
    (hr : (a, id, r) ∈ s.results) :
    ∃ before after m, xs = before ++ after ∧ Run P before m ∧ Runs.Run (Step P) m after s ∧
      Cohort.getTransactionResult (m.cohorts a) id = r := by
  induction h with
  | nil => cases hr
  | @snoc xs s s' x hrun hs ih =>
    have hold (hr : (a, id, r) ∈ s.results) :
        ∃ before after m, xs ++ [x] = before ++ after ∧ Run P before m ∧
          Runs.Run (Step P) m after s' ∧ Cohort.getTransactionResult (m.cohorts a) id = r := by
      obtain ⟨before, after, m, rfl, hm, hafter, hgiven⟩ := ih hr
      exact ⟨before, after ++ [x], m, List.append_assoc .., hm, hafter.snoc hs, hgiven⟩
    cases hs with
    | cohortResult a' id' hgiven =>
      obtain hnew | hr := hr
      · obtain ⟨rfl, rfl, rfl⟩ : a = a' ∧ id = id' ∧ r = _ := by simpa using hnew
        exact ⟨xs, [_], s, rfl, hrun, .single (.cohortResult a id hgiven), hgiven.symm⟩
      · exact hold hr
    | _ => exact hold hr

theorem committed_result (h : Run P xs s) {c : TwoPhaseCommit.CommittedResponse}
    (hr : (a, id, some (.committedResponse c)) ∈ s.results) :
    .cohort a id (.commit none) ∈ xs ∧ Cohort.Answered (s.cohorts a) id c.getResponses := by
  obtain ⟨before, after, m, rfl, hm, hafter, hgiven⟩ := result_at h hr
  obtain ⟨hcommitted, hanswered⟩ := Cohort.committed_of_result (cohort_run hm a) hgiven
  rw [Cohort.mem_commitOrder, Cohort.mem_endings_committed, Cohort.mem_actionsOf,
    mem_actionsAt] at hcommitted
  exact ⟨List.mem_append_left _ hcommitted, hanswered.run (cohort_steps hafter a)⟩

theorem aborted_result (h : Run P xs s) {reason : AbortReason}
    (hr : (a, id, some (.abortedResponse reason)) ∈ s.results) : .cohort a id .abort ∈ xs := by
  obtain ⟨before, after, m, rfl, hm, hafter, hgiven⟩ := result_at h hr
  have habort := Cohort.aborted_of_result (cohort_run hm a) hgiven
  rw [mem_actionsAt] at habort
  exact List.mem_append_left _ habort

theorem decisions_mono {m m' : State} {ys : List Action} (h : Runs.Run (Step P) m ys m') :
    m.decisions ⊆ m'.decisions := by
  refine Runs.Run.invariant (I := fun _ s => m.decisions ⊆ s.decisions) subset_rfl ?_ h
  intro ys s x s' _ hi hs
  cases hs with
  | getVotingDecision hd => exact hi.trans (Set.subset_insert _ _)
  | _ => exact hi

theorem not_committed_of_read (h : Run P xs s) (honce : SubmittedOnce P id xs)
    (hread : (id, .abort) ∈ s.decisions) : .cohort a id (.commit none) ∉ xs := by
  intro hx
  obtain ⟨stage, hinv⟩ := stage_run h honce
  obtain ⟨t, ht, hended, hcommitted⟩ := ended_at h rfl hx
  obtain ⟨config, subs, hsent, m, hm, rfl, hreq⟩ := sent_of_thread h hinv ht
  have hmay : Cohort.MayCommit (Cohort.actionsOf id (actionsAt m.1.address xs)) m.2 := by
    obtain ⟨_, hmay, _⟩ | ⟨haborted, _⟩ := hended
    · rwa [← hreq]
    · cases hcommitted.symm.trans haborted
  obtain hone | hcommit := alone_or_read h hm hmay
  · have hmany := (hsent.reads.abort hread).1
    omega
  · exact hsent.reads.consistent hcommit hread

theorem messages_of_submission (h : Run P xs s) {context : CommitContext}
    {request : CommitAtomicTransactionRequest} {rpcs : List Coordinator.Rpc}
    (hx : .commitAtomicTransaction context request rpcs ∈ xs) (hne : messages rpcs ≠ []) :
    ((messages rpcs).map fun m => m.1.address).Perm (addresses request.transaction.ops) ∧
      ∀ m ∈ messages rpcs, m.2.transaction.ops = opsAt m.1.address request.transaction.ops := by
  obtain ⟨before, after, rfl⟩ := List.append_of_mem hx
  obtain ⟨m, m', hm, hs, _⟩ := h.at
  cases hs with
  | @commitAtomicTransaction contract context request hsmall o ho hc =>
    have hsub : Submitted P m context request o.rpcs o.state contract := by
      subst ho
      exact submitted_of_step (records_run hm).wellFormed hsmall hc
    generalize o.rpcs = rpcs at hsub hne ⊢
    generalize o.state = k at hsub
    cases hsub with
    | unchanged => exact absurd rfl hne
    | dropped hid => exact absurd rfl hne
    | refused hsub hb => exact absurd rfl hne
    | @sent u config subs C hsub hb hone hmany =>
      refine ⟨?_, ?_⟩
      · rw [Coordinator.map_messages u config subs (fun m => m.1.address) SubTransaction.address
          fun _ _ _ => rfl]
        exact hsub.addresses_perm
      · intro n hn
        obtain ⟨sub, hmem, i, _, rfl⟩ := Coordinator.mem_messages hn
        exact hsub.ops_eq hmem

/-- What an answer that was given after ys says of a transaction in the run xs. -/
structure Truthful (P : Parties) (id : String) (ys xs : List Action)
    (answer : Coordinator.GetTransactionResultResponse) : Prop where
  committed : ∀ c, answer = some (.committedResponse c) → c.complete = true →
    ∃ context request rpcs, .commitAtomicTransaction context request rpcs ∈ ys ∧
      Submits P id (.commitAtomicTransaction context request rpcs) ∧
      ∃ answers : List Answer,
        (answers.map Prod.fst).Perm (addresses request.transaction.ops) ∧
        c.response.getResponses = answers.flatMap (fun p => p.2.getResponses) ∧
        ∀ p ∈ answers, Executed P id ys p.1 (opsAt p.1 request.transaction.ops) p.2.getResponses
  aborted : ∀ r, answer = some (.abortedResponse r) → ∀ a, .cohort a id (.commit none) ∉ xs

theorem SentInv.executed {config : TransactionConfig} {subs : List SubTransaction}
    (hsent : SentInv P id config subs xs s) (h : Run P xs s) {answers : List Answer}
    (hperm : (answers.map Prod.fst).Perm (subs.map SubTransaction.address))
    (hgiven : AllGiven id s answers) :
    ∃ context request rpcs, .commitAtomicTransaction context request rpcs ∈ xs ∧
      Submits P id (.commitAtomicTransaction context request rpcs) ∧
      (answers.map Prod.fst).Perm (addresses request.transaction.ops) ∧
      ∀ p ∈ answers, Executed P id xs p.1 (opsAt p.1 request.transaction.ops) p.2.getResponses := by
  obtain ⟨context, request, hx, hsub⟩ := hsent.submitted
  have hmap := Coordinator.map_messages id config subs (fun m => m.1.address)
    SubTransaction.address fun _ _ _ => rfl
  have hne : messages (submissionRpcs id config subs true) ≠ [] := by
    intro hnil
    rw [hnil] at hmap
    exact hsent.nonempty (List.map_eq_nil_iff.mp hmap.symm)
  obtain ⟨haddressed, hcontents⟩ := messages_of_submission h hx hne
  rw [hmap] at haddressed
  refine ⟨context, request, _, hx, hsub, hperm.trans haddressed, ?_⟩
  intro p hp
  obtain ⟨hcommitted, hanswered⟩ := committed_result h (hgiven p hp)
  obtain ⟨r, hr, hid, hexecuted⟩ := executed_of_answered h hcommitted hanswered
  obtain ⟨m, hm, ha, rfl⟩ := hsent.requests _ _ hr hid
  rwa [hcontents m hm, ← ha] at hexecuted

/-- The answers that a client gets agree with what the databases did, whatever the order of the
steps of all parties. -/
theorem answer_truthful {ys zs : List Action} {answer : Coordinator.GetTransactionResultResponse}
    (h : Run P (ys ++ .getTransactionResult id answer :: zs) s)
    (honce : SubmittedOnce P id (ys ++ .getTransactionResult id answer :: zs)) :
    Truthful P id ys (ys ++ .getTransactionResult id answer :: zs) answer := by
  have honce' : SubmittedOnce P id ys := (List.pairwise_append.mp honce).1
  obtain ⟨m, m', hm, hs, hafter⟩ := h.at
  obtain ⟨stage, hinv, haccount⟩ := accounted_run hm honce'
  cases hs with
  | @getTransactionResult _ replies hg o ho =>
    have hnew := haccount.poll hinv hg
    have hpolled : Coordinator.Polled m.coordinator id
        (Coordinator.getTransactionResult replies id m.coordinator) := (progress_at hm id).poll
    rw [← ho] at hnew hpolled
    have hstored (hfinal : Coordinator.Final o.response) :=
      hpolled.answer.resolve_right fun hw => hw.2.1 hfinal
    refine ⟨?_, ?_⟩
    · intro c hanswer hc
      have hresponse := (hstored (by rw [hanswer]; exact hc)).symm.trans hanswer
      cases stage with
      | unsubmitted =>
        obtain ⟨_, hnone⟩ := record_eq hnew
        rw [hnone] at hresponse
        cases hresponse
      | dropped =>
        exact absurd rfl (Account.committed hnew List.nodup_nil hresponse hc).1
      | sent config subs =>
        have hsent : SentInv P id config subs ys m := hinv
        obtain ⟨_, answers, hperm, hvalues, hgiven⟩ :=
          Account.committed hnew hsent.nodup hresponse hc
        obtain ⟨context, request, rpcs, hx, hsub, hperm', hexecuted⟩ :=
          hsent.executed hm hperm hgiven
        exact ⟨context, request, rpcs, hx, hsub, answers, hperm', hvalues, hexecuted⟩
    · intro r hanswer a
      have hresponse := (hstored (by rw [hanswer]; trivial)).symm.trans hanswer
      have hknown : AbortKnown id { m with coordinator := o.state } := by
        cases stage with
        | unsubmitted =>
          obtain ⟨_, hnone⟩ := record_eq hnew
          rw [hnone] at hresponse
          cases hresponse
        | dropped => exact Account.abortKnown hnew hresponse
        | sent config subs => exact Account.abortKnown hnew hresponse
      obtain hread | ⟨b, reason, hresult⟩ := hknown
      · have hmono := decisions_mono hafter
        exact not_committed_of_read h honce (hmono hread)
      · intro hx
        exact cohorts_agree h honce hx (List.mem_append_left _ (aborted_result hm hresult))

end Run

def putGet : CommitAtomicTransactionRequest :=
  ⟨"id", ⟨[putAt "cohort:50052", ⟨⟨"", "cohort:50052"⟩, some (.get ⟨"k"⟩)⟩]⟩, ⟨none⟩⟩

def putGetFor : Cohort.PrepareTransactionRequest :=
  ⟨Coordinator.localId, putGet.transaction, ⟨some ⟨110, 0⟩⟩, some (.onlyCohort true)⟩

def putGetRead : TwoPhaseCommit.CommittedResponse := ⟨[⟨⟨"", "cohort:50052"⟩, ⟨"k"⟩, ⟨some 5⟩⟩]⟩

def putGetActions : List Action :=
  .commitAtomicTransaction Coordinator.localContext putGet
      [.prepareTransaction ⟨"", "cohort:50052"⟩ putGetFor] ::
    [.start putGetFor, .lock true, .begin none, .operate none, .operate none, .endOperations,
      .commit none, .unlock, .finish].map (.cohort "cohort:50052" Coordinator.localId) ++
    [.cohortResult "cohort:50052" Coordinator.localId (some (.committedResponse putGetRead))]

def putGetReplies : Replies :=
  ⟨.error ⟨.unavailable, ""⟩, fun _ => (.okStatus, some (.committedResponse putGetRead))⟩

theorem putGet_given {s : State}
    (hasked : asked (s.coordinator.metadata Coordinator.localId) = [⟨"", "cohort:50052"⟩])
    (hr : ("cohort:50052", Coordinator.localId, some (.committedResponse putGetRead)) ∈ s.results) :
    Given s Coordinator.localId putGetReplies where
  decision d hd := by cases hd
  result i n hn _ := by
    rw [hasked] at hn
    obtain rfl := List.mem_singleton.mp (List.mem_of_getElem? hn)
    exact hr

theorem putGet_run : ∃ s, Run localParties (putGetActions ++
    [.getTransactionResult Coordinator.localId (some (.committedResponse ⟨true, putGetRead⟩))]) s := by
  refine ⟨_, .cons (.commitAtomicTransaction Coordinator.localContext putGet (by decide) rfl rfl)
    (.cons (.cohort _ _ (.start putGetFor Cohort.keyOrders rfl rfl)
      (.inr ⟨(⟨"", "cohort:50052"⟩, putGetFor), .head _, rfl⟩))
    (.cons (.cohort _ _ (.lock true rfl rfl) trivial)
    (.cons (.cohort _ _ (.begin rfl) trivial)
    (.cons (.cohort _ _ (.operate rfl (noFault _)) trivial)
    (.cons (.cohort _ _ (.operate rfl (noFault _)) trivial)
    (.cons (.cohort _ _ (.endOperations rfl) trivial)
    (.cons (.cohort _ _ (.commit rfl) trivial)
    (.cons (.cohort _ _ (.unlock rfl) trivial)
    (.cons (.cohort _ _ (.finish rfl) trivial)
    (.cons (.cohortResult _ _ rfl)
    (.single (.getTransactionResult putGetReplies (putGet_given rfl (Set.mem_insert _ _)) rfl))))))))))))⟩

/-- A transaction that has committed at its only cohort before its client asks. -/
theorem answer_truthful_put_get : Truthful localParties Coordinator.localId putGetActions
    (putGetActions ++
      [.getTransactionResult Coordinator.localId (some (.committedResponse ⟨true, putGetRead⟩))])
    (some (.committedResponse ⟨true, putGetRead⟩)) := by
  obtain ⟨s, h⟩ := putGet_run
  exact answer_truthful h (submittedOnce_of_tail (by simp [Submits, putGetActions]))

end TwoPhaseCommit.System
