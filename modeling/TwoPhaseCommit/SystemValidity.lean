import TwoPhaseCommit.SystemAnswers

/-! When the COMMIT ballots of all cohorts of a transaction are accepted, nobody aborts it and no
client is told that it was. -/
namespace TwoPhaseCommit.System
open Coordinator (SubTransaction messages submissionRpcs)
open BallotTable (ballotOf)
open AdapterChain (ballotInt)
open AdapterChain.Blockchain (Ballot)

theorem index_of_vote {C C' : Contract.State} {now : ℕ} {id : String} {i : ℕ} {ballot : Ballot}
    (h : AdapterChain.vote now id i ballot C = some C') :
    i < (C.transactionConfigs id).cohorts := by
  rw [AdapterChain.vote, Contract.vote] at h
  split_ifs at h with hreq
  exact hreq.2.1

def Cast (C : Contract.State) (id : String) (k : UInt32) (b : Ballot) : Prop :=
  k.toNat < (C.transactionConfigs id).cohorts ∧ ballotOf C id k.toNat = ballotInt b

section Run
variable {P : Parties} {id a : String} {xs : List Action} {s : State}

theorem sent_of_accepted (h : Run P xs s) (honce : SubmittedOnce P id xs) {now : ℕ} {k : UInt32}
    {b : Ballot} (hx : .vote now id k b ∈ xs) : ∃ config subs, SentInv P id config subs xs s := by
  obtain ⟨stage, hinv⟩ := stage_run h honce
  obtain ⟨a, t, ht, _⟩ := voter h ((records_run h).accepted now id k b hx)
  obtain ⟨config, subs, hsent, _⟩ := sent_of_thread h hinv ht
  exact ⟨config, subs, hsent⟩

theorem Cast.vote {C C' : Contract.State} {now : ℕ} {u : String} {i k : UInt32} {b b' : Ballot}
    (h : Cast C id k b) (he : VoteEffect C C' now u i.toNat (ballotInt b'))
    (hsame : id = u → k = i → b = b') : Cast C' id k b := by
  refine ⟨by rw [he.configs]; exact h.1, ?_⟩
  rw [he.ballots id k.toNat h.1]
  split_ifs with hki
  · rw [hsame hki.1 (UInt32.toNat_inj.mp hki.2)]
  · exact h.2

/-- Every vote that was accepted stands on the chain from then on. -/
theorem cast_run (h : Run P xs s) (honce : SubmittedOnce P id xs) {now : ℕ} {k : UInt32}
    {b : Ballot} (hx : .vote now id k b ∈ xs) : Cast s.contract id k b := by
  induction h with
  | nil => cases hx
  | @snoc xs s s' x hrun hs ih =>
    have hrecords := records_run hrun
    have honce' := honce.init
    cases hs with
    | @commitAtomicTransaction contract context request hsmall o ho hc =>
      subst ho
      have hold : .vote now id k b ∈ xs := by simpa using hx
      obtain ⟨config, subs, hsent⟩ := sent_of_accepted hrun honce' hold
      have hother : Coordinator.getTransactionId P.server.sha256 request.clientTransactionId
          context.peer ≠ .ok id := by
        intro hsub
        obtain ⟨_, _, hy, hsub'⟩ := hsent.submitted
        exact (List.pairwise_append.mp honce).2.2 _ hy _ (List.mem_singleton_self _) ⟨hsub', hsub⟩
      have hu := (submitted_of_step hrecords.wellFormed hsmall hc).untouched hother
      obtain ⟨hk, hb⟩ := ih honce' hold
      exact ⟨by rw [hu.config]; exact hk, by rw [hu.ballots]; exact hb⟩
    | @lateStart contract u abortTime n hl hc =>
      have hold : .vote now id k b ∈ xs := by simpa using hx
      obtain ⟨config, subs, hsent⟩ := sent_of_accepted hrun honce' hold
      have hne : id ≠ u := fun he => hsent.noLate abortTime n (he ▸ hl)
      obtain ⟨hconfig, hballots⟩ := (start_effect hrecords.wellFormed hc).others id hne
      obtain ⟨hk, hb⟩ := ih honce' hold
      exact ⟨by rw [hconfig]; exact hk, by rw [hballots]; exact hb⟩
    | @vote contract u i b' hv hc =>
      have he := vote_effect hrecords.wellFormed hc
      have hi := index_of_vote hc
      obtain hold | hnew := List.mem_append.mp hx
      · refine (ih honce' hold).vote he ?_
        rintro rfl rfl
        obtain ⟨config, subs, hsent⟩ := sent_of_accepted hrun honce' hold
        exact ballot_unique hrun hsent (hrecords.accepted now id k b hold) hv
      · obtain ⟨rfl, rfl, rfl, rfl⟩ : now = s.now ∧ id = u ∧ k = i ∧ b = b' := by
          simpa using hnew
        refine ⟨by rw [he.configs]; exact hi, ?_⟩
        rw [he.ballots id k.toNat hi, if_pos ⟨rfl, rfl⟩]
    | tick now' hnow => exact ih honce' (by simpa using hx)
    | getTransactionResult replies hg ho => exact ih honce' (by simpa using hx)
    | cohort a' u hk hr => exact ih honce' (by simpa using hx)
    | rejectedVote hv hc => exact ih honce' (by simpa using hx)
    | getVotingDecision hd => exact ih honce' (by simpa using hx)
    | cohortResult a' u hr => exact ih honce' (by simpa using hx)

/-- The COMMIT ballots of all cohorts that were sent a request were accepted. -/
def AllAccepted (id : String) (rpcs : List Coordinator.Rpc) (xs : List Action) : Prop :=
  ∀ m ∈ messages rpcs, ∃ now, .vote now id m.2.cohortIndex .commit ∈ xs

theorem SentInv.not_abort {config : TransactionConfig} {subs : List SubTransaction}
    (hs : SentInv P id config subs xs s) (h : Run P xs s) (honce : SubmittedOnce P id xs)
    (hall : AllAccepted id (submissionRpcs id config subs true) xs) :
    (id, .abort) ∉ s.decisions := by
  intro hread
  obtain ⟨_, hballots⟩ := hs.reads.abort hread
  have hcommit (i : ℕ) (hi : i < subs.length) : ballotOf s.contract id i = .commit := by
    have hsub : subs[i]? = some subs[i] := List.getElem?_eq_getElem hi
    have hmem : Coordinator.message id config subs.length subs[i] i ∈
        messages (submissionRpcs id config subs true) := by
      rw [Coordinator.messages_submissionRpcs]
      exact List.mem_map.mpr ⟨(subs[i], i), List.mem_zipIdx_iff_getElem?.mpr hsub, rfl⟩
    obtain ⟨now, hx⟩ := hall _ hmem
    rw [← cohortIndex_message hsub hs.small]
    exact (cast_run h honce hx).2
  obtain ⟨i, hi, hb⟩ | ⟨_, i, hi, hb⟩ := hballots
  · cases (hcommit i hi).symm.trans hb
  · exact hb (hcommit i hi)

theorem abort_of_answer (h : Run P xs s) (honce : SubmittedOnce P id xs)
    {answer : Coordinator.GetTransactionResultResponse} {r : Coordinator.AbortedResponse}
    (hx : .getTransactionResult id answer ∈ xs) (hanswer : answer = some (.abortedResponse r)) :
    (id, .abort) ∈ s.decisions ∨ ∃ a, .cohort a id .abort ∈ xs := by
  obtain ⟨ys, zs, rfl⟩ := List.append_of_mem hx
  obtain ⟨m, m', hm, hs, hafter⟩ := h.at
  obtain ⟨stage, hinv, haccount⟩ := accounted_run hm (List.pairwise_append.mp honce).1
  cases hs with
  | @getTransactionResult _ replies hg o ho =>
    have hnew := haccount.poll hinv hg
    have hpolled : Coordinator.Polled m.coordinator id
        (Coordinator.getTransactionResult replies id m.coordinator) := (progress_at hm id).poll
    rw [← ho] at hnew hpolled
    have hfinal : Coordinator.Final o.response := by
      rw [hanswer]
      trivial
    have hresponse := (hpolled.answer.resolve_right fun hw => hw.2.1 hfinal).symm.trans hanswer
    have hknown : AbortKnown id { m with coordinator := o.state } := by
      cases stage with
      | unsubmitted =>
        obtain ⟨_, hnone⟩ := record_eq hnew
        rw [hnone] at hresponse
        cases hresponse
      | dropped => exact Account.abortKnown hnew hresponse
      | sent config subs => exact Account.abortKnown hnew hresponse
    obtain hread | ⟨a, reason, hresult⟩ := hknown
    · exact .inl (decisions_mono hafter hread)
    · exact .inr ⟨a, List.mem_append_left _ (aborted_result hm hresult)⟩

theorem decision_of_read (h : Run P xs s) {d : AdapterChain.Blockchain.VotingDecision}
    (hx : .getVotingDecision id d ∈ xs) : (id, d) ∈ s.decisions := by
  obtain ⟨ys, zs, rfl⟩ := List.append_of_mem hx
  obtain ⟨m, m', _, hs, hafter⟩ := h.at
  cases hs with
  | getVotingDecision hd => exact decisions_mono hafter (Set.mem_insert _ _)

theorem SentInv.not_mayAbort {config : TransactionConfig} {subs : List SubTransaction}
    (hs : SentInv P id config subs xs s) (h : Run P xs s) (honce : SubmittedOnce P id xs)
    (hall : AllAccepted id (submissionRpcs id config subs true) xs)
    {m : Namespace × Cohort.PrepareTransactionRequest}
    (hm : m ∈ messages (submissionRpcs id config subs true)) :
    ¬Cohort.MayAbort (Cohort.actionsOf id (actionsAt a xs)) m.2 := by
  rintro (hvote | ⟨_, hread⟩)
  · have habort : (id, m.2.cohortIndex, .abort) ∈ s.votes := by
      refine ((records_run h).votes id _ _).mpr ⟨a, ?_⟩
      rw [← mem_actionsAt, ← Cohort.mem_actionsOf, ← Cohort.mem_votes, hvote]
      exact List.mem_singleton_self _
    obtain ⟨now, hx⟩ := hall m hm
    cases ballot_unique h hs ((records_run h).accepted now id _ _ hx) habort
  · rw [Cohort.mem_actionsOf, mem_actionsAt] at hread
    exact hs.not_abort h honce hall ((records_run h).reads a id _ hread)

theorem SentInv.no_abort {config : TransactionConfig} {subs : List SubTransaction}
    (hs : SentInv P id config subs xs s) (h : Run P xs s) (honce : SubmittedOnce P id xs)
    (hall : AllAccepted id (submissionRpcs id config subs true) xs) :
    .cohort a id .abort ∉ xs := by
  intro hx
  obtain ⟨t, ht, hended, haborted⟩ := ended_at h rfl hx
  obtain ⟨_, hid, hreq⟩ := story_at h ht
  obtain ⟨m, hm, _, hmt⟩ := hs.requests a t.request hreq hid
  obtain ⟨hno, _⟩ | ⟨_, hmay, _⟩ := hended
  · cases haborted.symm.trans hno
  · rw [hmt] at hmay
    exact hs.not_mayAbort h honce hall hm hmay

/-- Nobody has aborted the transaction, read that it is to be aborted or told its client so. -/
structure NeverAborted (id : String) (xs : List Action) : Prop where
  cohort : ∀ a, .cohort a id .abort ∉ xs
  decision : .getVotingDecision id .abort ∉ xs
  answer : ∀ r, .getTransactionResult id (some (.abortedResponse r)) ∉ xs

/-- A transaction whose COMMIT ballots were all accepted is not aborted, by whatever order of
steps: not where its deadline passes, nor where messages are lost. -/
theorem never_aborted (h : Run P xs s) (honce : SubmittedOnce P id xs)
    {context : Coordinator.CommitContext} {request : Coordinator.CommitAtomicTransactionRequest}
    {rpcs : List Coordinator.Rpc} (hx : .commitAtomicTransaction context request rpcs ∈ xs)
    (hsub : Submits P id (.commitAtomicTransaction context request rpcs)) (hne : messages rpcs ≠ [])
    (hall : AllAccepted id rpcs xs) : NeverAborted id xs := by
  obtain ⟨m, hm⟩ := List.exists_mem_of_ne_nil _ hne
  obtain ⟨now, hvote⟩ := hall m hm
  obtain ⟨config, subs, hsent⟩ := sent_of_accepted h honce hvote
  obtain ⟨context', request', hx', hsub'⟩ := hsent.submitted
  obtain ⟨_, _, rfl⟩ := Action.commitAtomicTransaction.inj (honce.eq hx hx' hsub hsub')
  have hread : (id, .abort) ∉ s.decisions := hsent.not_abort h honce hall
  refine ⟨fun a => hsent.no_abort h honce hall, fun hd => hread (decision_of_read h hd), ?_⟩
  intro r hr
  obtain hd | ⟨a, ha⟩ := abort_of_answer h honce hr rfl
  · exact hread hd
  · exact hsent.no_abort h honce hall ha

end Run

/-- Both cohorts' votes were accepted; one of them has not asked for the decision. -/
theorem never_aborted_two_puts : NeverAborted Coordinator.localId twoPutsActions := by
  obtain ⟨s, h⟩ := twoPuts_run
  have hsubmit : Coordinator.getTransactionId localParties.server.sha256 twoPuts.clientTransactionId
      Coordinator.localContext.peer = .ok Coordinator.localId := by decide
  refine never_aborted h (submittedOnce_of_tail (by simp [Submits, twoPutsActions, prepareActions]))
    (List.mem_append_left _ (List.mem_append_left _ (List.mem_append_left _ (.head _))))
    hsubmit (by decide) ?_
  intro m hm
  obtain rfl | hm := List.mem_cons.mp hm
  · exact ⟨0, by simp [twoPutsActions, prepareActions]⟩
  · obtain rfl := List.mem_singleton.mp hm
    exact ⟨0, by simp [twoPutsActions, prepareActions]⟩

end TwoPhaseCommit.System
