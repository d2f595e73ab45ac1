import TwoPhaseCommit.SystemCompletion

/-! Every transaction that was sent to several cohorts can be brought to a final answer, from
wherever a run has come to. -/
namespace TwoPhaseCommit.Coordinator

theorem Merge.poll_allAnswered {g : Merge} {cohorts : List Namespace} {replies : Replies}
    (hcommits : replies.commits = true)
    (h : ∀ (i : ℕ) (n : Namespace), cohorts[i]? = some n →
      ∃ c, committedReply (replies.transactionResult i) = some c) :
    (g.poll cohorts replies).AllAnswered cohorts := by
  rw [Merge.poll, if_pos (by rw [hcommits, Bool.or_true])]
  intro n hn
  change n.address ∈ (g.answers ++ _).map Prod.fst
  rw [List.map_append, List.mem_append]
  by_cases hold : n.address ∈ g.answered
  · exact .inl hold
  · obtain ⟨i, hi⟩ := List.mem_iff_getElem?.mp hn
    obtain ⟨c, hc⟩ := h i n hi
    refine .inr (List.mem_map.mpr ⟨(n.address, c), Gather.mem_round.mpr ⟨hold, i, ?_, ?_⟩, rfl⟩)
    · rw [List.getElem?_map, hi]
      rfl
    · rw [Nat.zero_add]
      exact hc

end TwoPhaseCommit.Coordinator

namespace TwoPhaseCommit.System
open Coordinator (SubTransaction Replies Merge Merged messages submissionRpcs committedReply)
open Cohort (IsFinished)
open AdapterChain.Blockchain (VotingDecision)

/-- The transaction was aborted, or here are all its results. -/
def Resolved (answer : Coordinator.GetTransactionResultResponse) : Prop :=
  (∃ r, answer = some (.abortedResponse r)) ∨
    ∃ c, answer = some (.committedResponse c) ∧ c.complete = true

section Poll
variable {id : String} {s : State} {subs : List SubTransaction} {replies : Replies}

theorem Account.resolved (h : Account id s subs (s.coordinator.record id))
    (hmany : 1 < subs.length) (hnodup : (subs.map SubTransaction.address).Nodup)
    (hconsistent : (id, .commit) ∈ s.decisions → (id, .abort) ∉ s.decisions)
    (hgiven : ∀ d, replies.votingDecision = .ok d → (id, d) ∈ s.decisions)
    (hd : replies.votingDecision = .ok .abort ∨ replies.votingDecision = .ok .commit ∧
      ∀ (i : ℕ) (n : Namespace), (asked (s.coordinator.metadata id))[i]? = some n →
        n ∈ subs.map SubTransaction.namespace_ →
        ∃ c, committedReply (replies.transactionResult i) = some c) :
    Resolved (Coordinator.getTransactionResult replies id s.coordinator).response := by
  generalize hrecord : s.coordinator.record id = record at h
  have hstored : s.coordinator.responseByTransaction id = record.2 := by rw [← hrecord]; rfl
  cases h with
  | idle hsubs => simp [hsubs] at hmany
  | asking hsubs => simp [hsubs] at hmany
  | answered hsubs => simp [hsubs] at hmany
  | @aborted m r hknown =>
    rw [Coordinator.getTransactionResult_complete (by rw [hstored]), hstored]
    exact .inl ⟨r, rfl⟩
  | @merging g _ _ hm hanswers hdecided =>
    have hne : subs.map SubTransaction.namespace_ ≠ [] := by
      rw [Ne, List.map_eq_nil_iff, ← List.length_eq_zero_iff]
      omega
    have hnodup' : ((subs.map SubTransaction.namespace_).map Namespace.address).Nodup := by
      rw [List.map_map]
      exact hnodup
    have hall_resolved {g' : Merge} (hall : g'.AllAnswered (subs.map SubTransaction.namespace_)) :
        Resolved (g'.response (subs.map SubTransaction.namespace_)) := by
      rw [Merge.response, if_neg (Merge.allAnswered_nonempty hne hall)]
      exact .inr ⟨_, rfl, decide_eq_true hall⟩
    rw [hm.response] at hstored
    by_cases hall : g.AllAnswered (subs.map SubTransaction.namespace_)
    · rw [decide_eq_true hall] at hstored
      rw [Coordinator.getTransactionResult_complete (by rw [hstored]), hstored]
      exact hall_resolved hall
    rw [decide_eq_false hall] at hstored
    rw [← hrecord] at hm
    obtain ⟨m, hsome, hc⟩ := hm.collects hall
    obtain habort | ⟨hcommit, hreplies⟩ := hd
    · have hundecided : m.decision = .pending ∨ m.decision = .unknown := by
        have hdecision := hc.decision
        split_ifs at hdecision with hdec
        · exact absurd (hgiven _ habort) (hconsistent (hdecided hdec))
        · exact hdecision
      rw [Coordinator.getTransactionResult_multi (by rw [hstored]) hsome hc.many,
        Coordinator.knownDecision, if_pos hundecided, habort]
      have hfinished := Coordinator.record_finished
        (s.coordinator.setMetadata id { m with decision := .abort }) id
      exact .inl ⟨_, congrArg (fun r => r.2.response) (hfinished _)⟩
    · have hasked : asked (s.coordinator.metadata id) = subs.map SubTransaction.namespace_ := by
        rw [Coordinator.State.metadata_of_some hsome, asked, hc.many, hc.cohorts]
      have hcommits : replies.commits = true := by rw [Replies.commits, hcommit]
      obtain ⟨hmerged, _, hanswer⟩ := hm.poll hne hnodup' replies (by rw [hcommit]; simp)
      have hallNew : (g.poll (subs.map SubTransaction.namespace_) replies).AllAnswered _ :=
        Merge.poll_allAnswered hcommits fun i n hi =>
          hreplies i n (hasked ▸ hi) (List.mem_of_getElem? hi)
      have hdecidedNew : (g.poll (subs.map SubTransaction.namespace_) replies).decided := by
        rw [Merge.poll, if_pos (by rw [hcommits, Bool.or_true])]
      rw [(hanswer hdecidedNew).2]
      have hresponse : Coordinator.State.responseByTransaction _ id = _ := hmerged.response
      rw [hresponse]
      exact hall_resolved hallNew

end Poll

section Ask
variable {P : Parties} {id : String} {s : State} {cohorts : List Namespace}

def askActions (id : String) (s : State) (cohorts : List Namespace) : List Action :=
  cohorts.map fun n =>
    .cohortResult n.address id (Cohort.getTransactionResult (s.cohorts n.address) id)

theorem ask_run (P : Parties) (id : String) (s : State) (cohorts : List Namespace) :
    ∃ results, Runs.Run (Step P) s (askActions id s cohorts) { s with results := results } ∧
      s.results ⊆ results ∧ ∀ n ∈ cohorts,
        (n.address, id, Cohort.getTransactionResult (s.cohorts n.address) id) ∈ results := by
  induction cohorts generalizing s with
  | nil => exact ⟨s.results, .nil, subset_rfl, List.forall_mem_nil _⟩
  | cons n cohorts ih =>
    let reply := Cohort.getTransactionResult (s.cohorts n.address) id
    obtain ⟨results, hrun, hsub, hall⟩ :=
      ih { s with results := insert (n.address, id, reply) s.results }
    refine ⟨results, .cons (.cohortResult n.address id rfl) hrun,
      (Set.subset_insert _ _).trans hsub, ?_⟩
    intro n' hn'
    obtain rfl | hn' := List.mem_cons.mp hn'
    · exact hsub (Set.mem_insert _ _)
    · exact hall n' hn'

def repliesAt (id : String) (s : State) (d : VotingDecision) (cohorts : List Namespace) : Replies :=
  ⟨.ok d, fun i =>
    match (asked (s.coordinator.metadata id))[i]? with
    | some n =>
      if n ∈ cohorts then (.okStatus, Cohort.getTransactionResult (s.cohorts n.address) id)
      else (⟨.unavailable, ""⟩, none)
    | none => (⟨.unavailable, ""⟩, none)⟩

theorem given_repliesAt {d : VotingDecision} (hd : (id, d) ∈ s.decisions)
    (hr : ∀ n ∈ cohorts,
      (n.address, id, Cohort.getTransactionResult (s.cohorts n.address) id) ∈ s.results) :
    Given s id (repliesAt id s d cohorts) where
  decision d' hd' := by
    obtain rfl := Except.ok.inj hd'
    exact hd
  result i n hn hok := by
    rw [repliesAt] at hok ⊢
    simp only [hn] at hok ⊢
    split_ifs at hok ⊢ with hmem
    · exact hr n hmem
    · cases hok

end Ask

section Run
variable {P : Parties} {id : String} {xs : List Action} {s s' : State}

theorem prepares_mono {ys : List Action} (h : Runs.Run (Step P) s ys s') :
    s.prepares ⊆ s'.prepares := by
  refine Runs.Run.invariant (I := fun _ m => s.prepares ⊆ m.prepares) subset_rfl ?_ h
  intro ys m x m' _ hi hs
  cases hs with
  | commitAtomicTransaction context request hsmall ho hc => exact hi.trans Set.subset_union_left
  | _ => exact hi

theorem prepares_of_message (h : Run P xs s) {context : Coordinator.CommitContext}
    {request : Coordinator.CommitAtomicTransactionRequest} {rpcs : List Coordinator.Rpc}
    (hx : .commitAtomicTransaction context request rpcs ∈ xs)
    (hsub : Submits P id (.commitAtomicTransaction context request rpcs))
    {n : Namespace × Cohort.PrepareTransactionRequest} (hn : n ∈ messages rpcs) :
    (n.1.address, n.2) ∈ s.prepares ∧ n.2.transactionId = id := by
  obtain ⟨ys, zs, rfl⟩ := List.append_of_mem hx
  obtain ⟨m, m', hm, hs, hafter⟩ := h.at
  cases hs with
  | @commitAtomicTransaction contract context request hsmall o ho hc =>
    refine ⟨prepares_mono hafter (.inr ⟨n, hn, rfl⟩), ?_⟩
    have hsubmitted : Submitted P m context request o.rpcs o.state contract := by
      subst ho
      exact submitted_of_step (records_run hm).wellFormed hsmall hc
    generalize o.rpcs = rpcs at hsubmitted hn
    generalize o.state = k at hsubmitted
    cases hsubmitted with
    | unchanged => cases hn
    | dropped hid => cases hn
    | refused hsub' hb => cases hn
    | sent hsub' hb hone hmany =>
      rw [transactionId_of_mem_messages hn]
      exact Except.ok.inj (hsub'.id_eq.symm.trans hsub)

theorem sent_of_messages (h : Run P xs s) (honce : SubmittedOnce P id xs)
    {context : Coordinator.CommitContext} {request : Coordinator.CommitAtomicTransactionRequest}
    {rpcs : List Coordinator.Rpc} (hx : .commitAtomicTransaction context request rpcs ∈ xs)
    (hsub : Submits P id (.commitAtomicTransaction context request rpcs))
    (hne : messages rpcs ≠ []) :
    ∃ config subs, rpcs = submissionRpcs id config subs true ∧ SentInv P id config subs xs s ∧
      Account id s subs (s.coordinator.record id) := by
  obtain ⟨n, hn⟩ := List.exists_mem_of_ne_nil _ hne
  obtain ⟨hr, hid⟩ := prepares_of_message h hx hsub hn
  obtain ⟨stage, hinv, haccount⟩ := accounted_run h honce
  cases stage with
  | unsubmitted => exact absurd hid (UnsubmittedInv.unsent hinv _ _ hr)
  | dropped => exact absurd hid (DroppedInv.unsent hinv _ _ hr)
  | sent config subs =>
    have hsent : SentInv P id config subs xs s := hinv
    obtain ⟨context', request', hx', hsub'⟩ := hsent.submitted
    obtain ⟨_, _, hrpcs⟩ := Action.commitAtomicTransaction.inj (honce.eq hx hx' hsub hsub')
    exact ⟨config, subs, hrpcs, hsent, haccount⟩

theorem SentInv.run {config : TransactionConfig} {subs : List SubTransaction}
    (hs : SentInv P id config subs xs s) (haccount : Account id s subs (s.coordinator.record id))
    (h : Run P xs s) {ys : List Action} (hys : Runs.Run (Step P) s ys s')
    (hno : ∀ y ∈ ys, ¬Submits P id y) :
    SentInv P id config subs (xs ++ ys) s' ∧ Account id s' subs (s'.coordinator.record id) := by
  induction hys with
  | nil =>
    rw [List.append_nil]
    exact ⟨hs, haccount⟩
  | @snoc ys m m' y hrun hstep ih =>
    obtain ⟨hs', haccount'⟩ := ih fun z hz => hno z (List.mem_append_left _ hz)
    have hy := hno y (List.mem_append_right _ (List.mem_singleton_self y))
    have hinv : StageInv P id (xs ++ ys) m (.sent config subs) := hs'
    have haccounted : Accounted id m (.sent config subs) := haccount'
    rw [← List.append_assoc]
    exact ⟨hs'.step (h.append hrun) hstep hy, haccounted.step (h.append hrun) hinv hstep hy⟩

/-- Steps that need no other transaction, no other vote and no further message to a cohort. -/
def Concludes (id : String) : Action → Prop
  | .tick _ => True
  | .getVotingDecision u _ => u = id
  | .cohort _ u action => u = id ∧ action.finishes
  | .cohortResult _ u _ => u = id
  | _ => False

theorem Concludes.not_submits {x : Action} (h : Concludes id x) : ¬Submits P id x := by
  cases x with
  | commitAtomicTransaction context request rpcs => cases h
  | _ => exact fun hsub => hsub

/-- Where COMMIT was read the cohorts can finish and say so. -/
theorem SentInv.results_run {config : TransactionConfig} {subs : List SubTransaction}
    (hs : SentInv P id config subs xs s) (haccount : Account id s subs (s.coordinator.record id))
    (h : Run P xs s) (hread : (id, .commit) ∈ s.decisions) :
    ∃ ys s', Runs.Run (Step P) s ys s' ∧ (∀ y ∈ ys, Concludes id y) ∧
      s'.decisions = s.decisions ∧ ∀ n ∈ subs.map SubTransaction.namespace_,
        (n.address, id, Cohort.getTransactionResult (s'.cohorts n.address) id) ∈ s'.results ∧
        ∃ c, Cohort.getTransactionResult (s'.cohorts n.address) id =
          some (.committedResponse c) := by
  have hmessage : ∀ sub ∈ subs, ∃ m ∈ messages (submissionRpcs id config subs true),
      m.1.address = sub.address := by
    intro sub hsub
    have hmap := Coordinator.map_messages id config subs (fun m => m.1.address)
      SubTransaction.address fun _ _ _ => rfl
    exact List.mem_map.mp (hmap ▸ List.mem_map_of_mem hsub)
  obtain ⟨ys, m, hfinishes, hreturned⟩ := finish_cohorts (P := P) (s := s)
    (subs.map fun sub => (sub.address, id)) (by
      intro p hp
      obtain ⟨sub, hsub, rfl⟩ := List.mem_map.mp hp
      obtain ⟨n, hn, hnsub⟩ := hmessage sub hsub
      exact ⟨hread, hnsub ▸ hs.settling h hread hn⟩)
  have hconcludes : ∀ y ∈ ys, Concludes id y := by
    intro y hy
    obtain ⟨p, hp, action, rfl, hf⟩ := hfinishes.steps y hy
    obtain ⟨sub, _, rfl⟩ := List.mem_map.mp hp
    exact ⟨rfl, hf⟩
  have hread' : (id, .commit) ∈ m.decisions := hfinishes.decisions ▸ hread
  obtain ⟨hs', _⟩ := hs.run haccount h hfinishes.run fun y hy => (hconcludes y hy).not_submits
  obtain ⟨results, hask, _, hall⟩ := ask_run P id m (subs.map SubTransaction.namespace_)
  refine ⟨ys ++ askActions id m (subs.map SubTransaction.namespace_), _, hfinishes.run.append hask,
    ?_, hfinishes.decisions, fun n hn => ⟨hall n hn, ?_⟩⟩
  · intro y hy
    obtain hy | hy := List.mem_append.mp hy
    · exact hconcludes y hy
    · obtain ⟨n, _, rfl⟩ := List.mem_map.mp hy
      rfl
  · obtain ⟨sub, hsub, rfl⟩ := List.mem_map.mp hn
    exact (hs'.committed_of_returned (h.append hfinishes.run) hread'
      (hreturned _ (List.mem_map_of_mem hsub))).2

/-- From wherever a run has come to, a transaction that was sent to several cohorts can be brought
to a final answer for its client: time has to pass, the chain has to be asked, and where it says
COMMIT the cohorts have to finish. -/
theorem resolvable (h : Run P xs s) (honce : SubmittedOnce P id xs)
    {context : Coordinator.CommitContext} {request : Coordinator.CommitAtomicTransactionRequest}
    {rpcs : List Coordinator.Rpc} (hx : .commitAtomicTransaction context request rpcs ∈ xs)
    (hsub : Submits P id (.commitAtomicTransaction context request rpcs))
    (hmany : 1 < (messages rpcs).length) :
    ∃ ys answer s', Runs.Run (Step P) s (ys ++ [.getTransactionResult id answer]) s' ∧
      (∀ y ∈ ys, Concludes id y) ∧ Resolved answer := by
  obtain ⟨config, subs, rfl, hs, haccount⟩ := sent_of_messages h honce hx hsub
    (List.length_pos_iff.mp (Nat.zero_lt_of_lt hmany))
  have hlength : (messages (submissionRpcs id config subs true)).length = subs.length := by
    rw [Coordinator.messages_submissionRpcs, List.length_map, List.length_zipIdx]
  rw [hlength] at hmany
  have hpos : 0 < (s.contract.transactionConfigs id).cohorts := by
    rw [hs.opened hmany]
    exact Nat.zero_lt_of_lt hmany
  obtain ⟨d, hdecision, hd⟩ := decided_of_deadline (records_run h).wellFormed hpos
    (le_max_right s.now _)
  let now := max s.now (s.contract.transactionConfigs id).voteTimeoutTime
  let asked : State := { s with now := now, decisions := insert (id, d) s.decisions }
  let start : List Action := [.tick now, .getVotingDecision id d]
  have hstart : Runs.Run (Step P) s start asked :=
    .cons (.tick now (le_max_left _ _)) (.single (.getVotingDecision hdecision))
  have hconcludes : ∀ y ∈ start, Concludes id y := by
    intro y hy
    obtain rfl | hy := List.mem_cons.mp hy
    · trivial
    · rw [List.mem_singleton.mp hy]
      rfl
  have hread : (id, d) ∈ asked.decisions := Set.mem_insert _ _
  obtain ⟨hs', haccount'⟩ :=
    hs.run haccount h hstart fun y hy => (hconcludes y hy).not_submits
  obtain rfl | rfl := hd
  · obtain ⟨ys, m, hrun, hys, hdecisions, hresults⟩ :=
      hs'.results_run haccount' (h.append hstart) hread
    obtain ⟨hs'', haccount''⟩ := hs'.run haccount' (h.append hstart) hrun
      fun y hy => (hys y hy).not_submits
    have hg : Given m id (repliesAt id m .commit (subs.map SubTransaction.namespace_)) :=
      given_repliesAt (hdecisions ▸ hread) fun n hn => (hresults n hn).1
    refine ⟨start ++ ys, _, _, (hstart.append hrun).snoc (.getTransactionResult _ hg rfl), ?_,
      haccount''.resolved hmany hs''.nodup hs''.reads.consistent hg.decision (.inr ⟨rfl, ?_⟩)⟩
    · intro y hy
      exact (List.mem_append.mp hy).elim (hconcludes y) (hys y)
    · intro i n hn hmem
      obtain ⟨c, hc⟩ := (hresults n hmem).2
      refine ⟨c, ?_⟩
      simp only [repliesAt, hn, if_pos hmem, hc]
      rfl
  · have hg : Given asked id (repliesAt id asked .abort []) :=
      given_repliesAt hread (List.forall_mem_nil _)
    exact ⟨start, _, _, hstart.snoc (.getTransactionResult _ hg rfl), hconcludes,
      haccount'.resolved hmany hs'.nodup hs'.reads.consistent hg.decision (.inl rfl)⟩

end Run

/-- The first of two cohorts has voted; nobody has decided anything. -/
theorem resolvable_prepared : ∃ s ys answer s', Run localParties preparedActions s ∧
    Runs.Run (Step localParties) s
      (ys ++ [.getTransactionResult Coordinator.localId answer]) s' ∧
    (∀ y ∈ ys, Concludes Coordinator.localId y) ∧ Resolved answer := by
  obtain ⟨s, h, _⟩ := prepared_run
  have hsubmit : Coordinator.getTransactionId localParties.server.sha256 twoPuts.clientTransactionId
      Coordinator.localContext.peer = .ok Coordinator.localId := by decide
  obtain ⟨ys, answer, s', hrest⟩ := resolvable h
    (submittedOnce_of_tail (by simp [Submits, preparedActions, prepareActions])) (.head _)
    hsubmit (by decide)
  exact ⟨s, ys, answer, s', h, hrest⟩

end TwoPhaseCommit.System
