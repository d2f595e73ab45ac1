import TwoPhaseCommit.CohortWork
import TwoPhaseCommit.SystemResolution

/-! Every run comes to an end by itself: the cohorts take a bounded number of steps, and where
nobody has anything left to do but to repeat a call, every transaction is resolved. -/
namespace TwoPhaseCommit.System
open Coordinator (SubTransaction Replies messages submissionRpcs committedReply localId)
open Cohort (Call Hung IsFinished started stepCount stepsOf remaining)
open AdapterChain.Blockchain (VotingDecision)

/-- Nothing is left to do but to make a call again or to read a decision once more, where the
threads that are in a Vote or a Commit go on only if that call completes. -/
structure Quiescent (P : Parties) (completes : String → String → Call → Prop) (s : State) :
    Prop where
  cohorts : ∀ a id action s', Step P s (.cohort a id action) s' →
    (∀ call, action.call = some call → completes a id call) → action.retries
  decisions : ∀ id d s', Step P s (.getVotingDecision id d) s' → d = .commit ∨ d = .abort →
    (id, d) ∈ s.decisions

/-- Every voting has had its time. -/
def Overdue (s : State) : Prop :=
  ∀ id, 0 < (s.contract.transactionConfigs id).cohorts →
    (s.contract.transactionConfigs id).voteTimeoutTime ≤ s.now

section Single
variable {id : String} {s : State} {replies : Replies}

end Single

section Run
variable {P : Parties} {completes : String → String → Call → Prop} {xs : List Action} {s : State}
  {a id : String}

theorem Quiescent.read (hq : Quiescent P completes s) (h : Run P xs s) (hoverdue : Overdue s)
    (hpos : 0 < (s.contract.transactionConfigs id).cohorts) :
    ∃ d, AdapterChain.getVotingDecision s.now id s.contract = some d ∧
      (d = .commit ∨ d = .abort) ∧ (id, d) ∈ s.decisions := by
  obtain ⟨d, hdecision, hd⟩ :=
    decided_of_deadline (records_run h).wellFormed hpos (hoverdue id hpos)
  exact ⟨d, hdecision, hd, hq.decisions id d _ (.getVotingDecision hdecision) hd⟩

/-- No thread of a cohort has anything left to do. -/
theorem Quiescent.remaining_eq_zero (hq : Quiescent P completes s) (h : Run P xs s)
    (honce : ∀ id, SubmittedOnce P id xs) (hoverdue : Overdue s)
    (hc : (P.adapters a).supportsConcurrentWrites = false)
    (hgranted : Cohort.Granted (actionsAt a xs)) (hhung : ¬Hung (completes a) (s.cohorts a))
    {t : Cohort.Thread} (ht : (s.cohorts a).threads id = some t) : remaining t = 0 := by
  by_contra hne
  obtain ⟨u, t', ht', hpos, hfree⟩ := Cohort.exists_unblocked hc
    (Cohort.holdings_run (cohort_run h a) hgranted) ht (Nat.pos_of_ne_zero hne)
  -- The decision, if the thread waits for one.
  have hread : ∃ d, (d = .commit ∨ d = .abort) ∧ (t'.phase = .waiting → (u, d) ∈ s.decisions) := by
    by_cases hwaiting : t'.phase = .waiting
    · obtain ⟨request, m, phase⟩ := t'
      obtain rfl : phase = .waiting := hwaiting
      obtain ⟨d, _, hd, hmem⟩ := hq.read h hoverdue (opened_of_waiting h (honce u) ht')
      exact ⟨d, hd, fun _ => hmem⟩
    · exact ⟨.commit, .inl rfl, fun hw => absurd hw hwaiting⟩
  obtain ⟨d, hd, hmem⟩ := hread
  obtain ⟨action, k, hk, hsucceeds⟩ := Cohort.exists_step (c := P.adapters a) ht' hpos hfree hd
  have hreceived : Received s a u action := by
    cases action with
    | start request => exact hsucceeds.elim
    | poll reply =>
      obtain rfl : reply = some d := hsucceeds
      obtain ⟨request, m, hw⟩ := Cohort.waiting_of_poll hk
      obtain rfl := Option.some.inj (ht'.symm.trans hw)
      exact hmem rfl
    | _ => trivial
  have hcompletes : ∀ call, action.call = some call → completes a u call := by
    intro call hcall
    by_contra hnever
    exact hhung ⟨u, t', call, ht', hk.call_eq ht' hcall, hnever⟩
  have hretries := hq.cohorts a u action _ (.cohort a u hk hreceived) hcompletes
  rw [hsucceeds.retries hd] at hretries
  cases hretries

theorem Quiescent.finished (hq : Quiescent P completes s) (h : Run P xs s)
    (honce : ∀ id, SubmittedOnce P id xs) (hoverdue : Overdue s)
    (hc : ∀ a, (P.adapters a).supportsConcurrentWrites = false)
    (hgranted : ∀ a, Cohort.Granted (actionsAt a xs)) (hhung : ¬Hung (completes a) (s.cohorts a))
    {request : Cohort.PrepareTransactionRequest} (hr : (a, request) ∈ s.prepares) :
    IsFinished (s.cohorts a) request.transactionId ∧
      Cohort.Final (Cohort.getTransactionResult (s.cohorts a) request.transactionId) := by
  cases ht : (s.cohorts a).threads request.transactionId with
  | none =>
    have hstart := Step.cohort (P := P) (s := s) a request.transactionId
      (.start request Cohort.keyOrders rfl ht) hr
    cases hq.cohorts _ _ _ _ hstart fun _ hcall => by cases hcall
  | some t =>
    have hdone := hq.remaining_eq_zero h honce hoverdue (hc a) (hgranted a) hhung ht
    refine ⟨⟨t, ht, ?_⟩, Cohort.final_of_remaining (cohort_run h a) ht hdone⟩
    obtain ⟨request, m, phase⟩ := t
    cases phase with
    | finished => rfl
    | _ => simp [remaining] at hdone

end Run

end TwoPhaseCommit.System
