import TwoPhaseCommit.AtomicCommit
import TwoPhaseCommit.CohortHoldings

/-! Progress: a cohort that has voted comes to its end without any other party but the chain. -/
namespace TwoPhaseCommit.Cohort
open Locks
open AdapterChain.Blockchain (VotingDecision)

def endingOf : VotingDecision → Action
  | .commit => .commit none
  | _ => .abort

/-- The answer after a decision. -/
def Settles (d : VotingDecision) (m : Metadata) (r : GetTransactionResultResponse) : Prop :=
  match d with
  | .commit => r = some (.committedResponse m.response.committed)
  | _ => ∃ reason, r = some (.abortedResponse reason)

def releaseActions (n : ℕ) : List Action := List.replicate n .unlock ++ [.finish]

/-- What a thread does once it can read the decision. -/
def settleActions (d : VotingDecision) (m : Metadata) : List Action :=
  .poll (some d) :: endingOf d :: releaseActions (heldLocks m).length

structure Finished (s : State) (id : String) (response : GetTransactionResultResponse) : Prop where
  thread : ∃ t, s.threads id = some t ∧ t.phase = .finished
  answer : s.finalResponses id = some response
  unlocked : ∀ r, ¬Held s.mutexes id r

section Settle
variable {c : Adapter} {s : State} {id : String} {request : PrepareTransactionRequest} {m : Metadata}

theorem release_run {todo : List LockRequest}
    (ht : s.threads id = some ⟨request, m, .releasing todo⟩) :
    ∃ s', Runs.Run (Step c) s ((releaseActions todo.length).map (id, ·)) s' ∧
      s'.threads id = some ⟨request, m, .finished⟩ ∧ s'.finalResponses id = some m.response ∧
      s'.mutexes = todo.foldl (fun T r => T.release r id) s.mutexes := by
  induction todo generalizing s with
  | nil =>
    exact ⟨_, .single (.finish ht), State.threads_set ..,
      by simp [State.set, State.setFinalResponse], rfl⟩
  | cons r todo ih =>
    obtain ⟨s', hrun, hthread, hfinal, hmutexes⟩ :=
      ih (s := { s with mutexes := s.mutexes.release r id }.set id ⟨request, m, .releasing todo⟩)
        (State.threads_set ..)
    exact ⟨s', .cons (.unlock ht) hrun, hthread, hfinal, hmutexes⟩

theorem settle_run (hs : HoldsOnly Sound c s) (ht : s.threads id = some ⟨request, m, .waiting⟩)
    {d : VotingDecision} (hd : d = .commit ∨ d = .abort) :
    ∃ s' response, Runs.Run (Step c) s ((settleActions d m).map (id, ·)) s' ∧
      Settles d m response ∧ Finished s' id response := by
  have hfree (q : LockRequest) :
      ¬Held ((heldLocks m).foldl (fun T r => T.release r id) s.mutexes) id q :=
    not_held_releaseAll hs.single (hs.locks id _ ht).owned
      (fun q hq => hs.owed_of_held ht (.inr rfl) hq) q
  obtain rfl | rfl := hd
  · obtain ⟨s', hrun, hthread, hfinal, hmutexes⟩ := release_run (c := c) (m := committedMetadata m)
      (s := { (s.set id ⟨request, m, .committing⟩) with
        store := Database.commitStore s.store m }.set id
          ⟨request, committedMetadata m, .releasing (heldLocks m)⟩) (State.threads_set ..)
    refine ⟨s', _, .cons (.pollCommit ht) (.cons (.commit (State.threads_set ..)) hrun), rfl,
      ⟨_, hthread, rfl⟩, hfinal, fun q => ?_⟩
    rw [hmutexes]
    exact hfree q
  · obtain ⟨s', hrun, hthread, hfinal, hmutexes⟩ :=
      release_run (c := c) (m := abortDb m .unspecified)
        (s := (s.set id ⟨request, m, .aborting none .unspecified⟩).set id
          ⟨request, abortDb m .unspecified, .releasing (heldLocks m)⟩) (State.threads_set ..)
    refine ⟨s', _, .cons (.pollAbort .unspecified ht) (.cons (.abort (State.threads_set ..)) hrun),
      ⟨_, rfl⟩, ⟨_, hthread, rfl⟩, hfinal, fun q => ?_⟩
    rw [hmutexes]
    exact hfree q

end Settle

end TwoPhaseCommit.Cohort

namespace TwoPhaseCommit.System
open BallotTable (WellFormed)
open AdapterChain.Blockchain (VotingDecision)

theorem State.setCohort_setCohort (s : State) (a : String) (k k' : Cohort.State) :
    (s.setCohort a k).setCohort a k' = s.setCohort a k' := by
  simp [State.setCohort]

theorem State.cohorts_setCohort (s : State) (a : String) (k : Cohort.State) :
    (s.setCohort a k).cohorts a = k := Function.update_self ..

theorem cohort_lift {P : Parties} {s : State} {a id : String} {actions : List Cohort.Action}
    {k : Cohort.State}
    (h : Runs.Run (Cohort.Step (P.adapters a)) (s.cohorts a) (actions.map (id, ·)) k)
    (hquiet : ∀ action ∈ actions, Received s a id action ∧ ballots id action = ∅) :
    Runs.Run (Step P) s (actions.map (.cohort a id)) (s.setCohort a k) := by
  induction actions generalizing s with
  | nil =>
    rw [h.of_nil, State.setCohort, Function.update_eq_self]
    exact .nil
  | cons action actions ih =>
    obtain ⟨m, hs, hrest⟩ := h.uncons
    have hstep : Step P s (.cohort a id action) (s.setCohort a m) := by
      obtain ⟨hreceived, hballots⟩ := hquiet action List.mem_cons_self
      have hone := Step.cohort (P := P) a id hs hreceived
      rwa [hballots, Set.union_empty] at hone
    have hquiet' : ∀ action ∈ actions,
        Received (s.setCohort a m) a id action ∧ ballots id action = ∅ := by
      intro action' hmem
      obtain ⟨hreceived, hballots⟩ := hquiet action' (List.mem_cons_of_mem action hmem)
      refine ⟨?_, hballots⟩
      cases action' with
      | poll reply => cases reply <;> exact hreceived
      | _ => exact hreceived
    have hrun := ih (s := s.setCohort a m) (by rwa [State.cohorts_setCohort]) hquiet'
    rw [State.setCohort_setCohort] at hrun
    exact .cons hstep hrun

theorem received_settleActions {s : State} {a id : String} {d : VotingDecision}
    {m : Cohort.Metadata} (hd : (id, d) ∈ s.decisions) {action : Cohort.Action}
    (h : action ∈ Cohort.settleActions d m) : Received s a id action ∧ ballots id action = ∅ := by
  obtain rfl | h := List.mem_cons.mp h
  · exact ⟨hd, rfl⟩
  obtain rfl | h := List.mem_cons.mp h
  · cases d <;> exact ⟨trivial, rfl⟩
  obtain h | h := List.mem_append.mp h
  · rw [List.eq_of_mem_replicate h]
    exact ⟨trivial, rfl⟩
  · rw [List.mem_singleton.mp h]
    exact ⟨trivial, rfl⟩

theorem decided_of_deadline {C : Contract.State} (hC : WellFormed C) {now : ℕ} {id : String}
    (hpos : 0 < (C.transactionConfigs id).cohorts)
    (hnow : (C.transactionConfigs id).voteTimeoutTime ≤ now) :
    ∃ d, AdapterChain.getVotingDecision now id C = some d ∧ (d = .commit ∨ d = .abort) := by
  have hd : AdapterChain.getVotingDecision now id C =
      some (AdapterChain.callerDecision now (BallotTable.entryOf C id)) := by
    rw [AdapterChain.getVotingDecision, AdapterChain.adapterGetVotingDecision_eq,
      BallotTable.votingDecision_eq hC.mock, if_pos hpos, Option.map_some, Option.map_some,
      AdapterChain.decodeOption_decision]
  refine ⟨_, hd, ?_⟩
  have hpending := AdapterChain.callerDecision_ne_pending (e := BallotTable.entryOf C id) hnow
  have hunknown := AdapterChain.callerDecision_ne_unknown now (BallotTable.entryOf C id)
  cases he : AdapterChain.callerDecision now (BallotTable.entryOf C id) with
  | unknown => exact absurd he hunknown
  | pending => exact absurd he hpending
  | commit => exact .inl rfl
  | abort => exact .inr rfl

section Run
variable {P : Parties} {id a : String} {xs : List Action} {s : State}

theorem opened_of_waiting (h : Run P xs s) (honce : SubmittedOnce P id xs)
    {request : Cohort.PrepareTransactionRequest} {m : Cohort.Metadata}
    (ht : (s.cohorts a).threads id = some ⟨request, m, .waiting⟩) :
    0 < (s.contract.transactionConfigs id).cohorts := by
  obtain ⟨stage, hinv⟩ := stage_run h honce
  obtain ⟨config, subs, hsent, n, hn, rfl, hreq⟩ := sent_of_thread h hinv ht
  have hmany : 1 < subs.length := by
    have hpromised : Cohort.Promised _ request := (story_at h ht).1.phase.2
    have hpos := List.length_pos_iff.mpr hsent.nonempty
    have hno : subs.length ≠ 1 := by
      intro hone
      have honly := (onlyCohort_message hn).mpr hone
      rw [← hreq] at honly
      exact Bool.false_ne_true (hpromised.many.symm.trans honly)
    omega
  rw [hsent.opened hmany]
  exact hmany.le

/-- From wherever a run has come to, a cohort whose COMMIT vote has returned ends its transaction and
gives back its locks in a number of steps of its own, once time has passed and the chain was asked:
neither the coordinator nor another cohort has to do anything. -/
theorem waiting_ends (h : Run P xs s) (honce : SubmittedOnce P id xs)
    {request : Cohort.PrepareTransactionRequest} {m : Cohort.Metadata}
    (ht : (s.cohorts a).threads id = some ⟨request, m, .waiting⟩) :
    ∃ now d response s', (d = .commit ∨ d = .abort) ∧
      Runs.Run (Step P) s (.tick now :: .getVotingDecision id d ::
        (Cohort.settleActions d m).map (.cohort a id)) s' ∧
      Cohort.Settles d m response ∧ Cohort.Finished (s'.cohorts a) id response := by
  obtain ⟨d, hdecision, hd⟩ := decided_of_deadline (records_run h).wellFormed
    (opened_of_waiting h honce ht) (le_max_right s.now _)
  obtain ⟨k, response, hrun, hsettles, hfinished⟩ :=
    Cohort.settle_run (Cohort.holdsOnly_run (cohort_run h a)) ht hd
  let now := max s.now (s.contract.transactionConfigs id).voteTimeoutTime
  let asked : State := { s with now := now, decisions := insert (id, d) s.decisions }
  have hasked : (id, d) ∈ asked.decisions := Set.mem_insert _ _
  have hlift : Runs.Run (Step P) asked ((Cohort.settleActions d m).map (.cohort a id))
      (asked.setCohort a k) :=
    cohort_lift hrun fun _ hmem => received_settleActions hasked hmem
  refine ⟨now, d, response, _, hd, .cons (.tick now (le_max_left _ _))
    (.cons (.getVotingDecision hdecision) hlift), hsettles, ?_⟩
  rwa [State.cohorts_setCohort]

end Run

def preparedActions : List Action :=
  .commitAtomicTransaction Coordinator.localContext twoPuts [.startVoting Coordinator.localId 110 2,
      .prepareTransaction ⟨"", "cohort:50052"⟩ (putFor 0 "cohort:50052"),
      .prepareTransaction ⟨"", "cohort:50053"⟩ (putFor 1 "cohort:50053")] ::
    prepareActions 0 "cohort:50052"

theorem prepared_run : ∃ s, Run localParties preparedActions s ∧
    ∃ m, (s.cohorts "cohort:50052").threads Coordinator.localId =
      some ⟨putFor 0 "cohort:50052", m, .waiting⟩ := by
  refine ⟨_, .cons (.commitAtomicTransaction Coordinator.localContext twoPuts (by decide) rfl rfl)
    (.cons (.cohort _ _ (.start (putFor 0 "cohort:50052") Cohort.keyOrders rfl rfl)
      (.inr ⟨(⟨"", "cohort:50052"⟩, putFor 0 "cohort:50052"), .head _, rfl⟩))
    (.cons (.cohort _ _ (.lock true rfl rfl) trivial)
    (.cons (.cohort _ _ (.begin rfl) trivial)
    (.cons (.cohort _ _ (.operate rfl (noFault _)) trivial)
    (.cons (.cohort _ _ (.endOperations rfl) trivial)
    (.cons (.cohort _ _ (.persistResponse true rfl) trivial)
    (.cons (.cohort _ _ (.persistRequest true rfl) trivial)
    (.cons (.cohort _ _ (.vote rfl) trivial)
    (.single (.vote (.inr rfl) rfl)))))))))), _, rfl⟩

/-- The first of two cohorts has voted; the second one never gets its request. -/
theorem waiting_ends_prepared : ∃ s m now d response s',
    (s.cohorts "cohort:50052").threads Coordinator.localId =
      some ⟨putFor 0 "cohort:50052", m, .waiting⟩ ∧ (d = .commit ∨ d = .abort) ∧
    Runs.Run (Step localParties) s (.tick now :: .getVotingDecision Coordinator.localId d ::
      (Cohort.settleActions d m).map (.cohort "cohort:50052" Coordinator.localId)) s' ∧
    Cohort.Settles d m response ∧
    Cohort.Finished (s'.cohorts "cohort:50052") Coordinator.localId response := by
  obtain ⟨s, hrun, m, ht⟩ := prepared_run
  obtain ⟨now, d, response, s', hends⟩ := waiting_ends hrun
    (submittedOnce_of_tail (by simp [Submits, preparedActions, prepareActions])) ht
  exact ⟨s, m, now, d, response, s', ht, hends⟩

end TwoPhaseCommit.System
