import TwoPhaseCommit.Client
import TwoPhaseCommit.OneCopy
import TwoPhaseCommit.SystemValidity

/-! A client that waits for each answer before it sends the next transaction, as `CommitSync` does,
finds its transactions in the global order as it sent them. -/
namespace TwoPhaseCommit.System
open Runs (Before)

/-- The transaction has an answer with which the client stops asking, one that says something. -/
def Told (id : String) (ys : List Action) : Prop :=
  ∃ r, .getTransactionResult id (some r) ∈ ys ∧
    Client.tryGetTransactionResults .okStatus (some r) = true

/-- The client was told of a transaction before it sent a later one. -/
def Follows (P : Parties) (xs : List Action) (id u : String) : Prop :=
  ∃ ys zs, xs = ys ++ zs ∧ Told id ys ∧ ∀ y ∈ ys, ¬Submits P u y

section Run
variable {P : Parties} {xs : List Action} {s : State} {id u : String}

theorem final_of_told {ys : List Action} (h : Told id ys) :
    (∃ r, .getTransactionResult id (some (.abortedResponse r)) ∈ ys) ∨
      ∃ c, .getTransactionResult id (some (.committedResponse c)) ∈ ys ∧ c.complete = true := by
  obtain ⟨r, hmem, hfinal⟩ := h
  cases r with
  | pendingResponse => cases hfinal
  | abortedResponse r => exact .inl ⟨r, hmem⟩
  | committedResponse c =>
    refine .inr ⟨c, hmem, ?_⟩
    simpa [Client.tryGetTransactionResults, Client.hasPendingResponse, Client.hasCommittedResponse,
      Coordinator.mutableCommittedResponse] using hfinal

theorem not_committed_of_answer (h : Run P xs s) (honce : SubmittedOnce P id xs)
    {r : Coordinator.AbortedResponse}
    (hx : .getTransactionResult id (some (.abortedResponse r)) ∈ xs) : id ∉ globalOrder xs := by
  intro hmem
  obtain ⟨a, ha⟩ := mem_globalOrder.mp hmem
  obtain hread | ⟨b, hb⟩ := abort_of_answer h honce hx rfl
  · exact not_committed_of_read h honce hread ha
  · exact cohorts_agree h honce ha hb

theorem Follows.before (h : Run P xs s) (honce : ∀ id, SubmittedOnce P id xs)
    (hf : Follows P xs id u) (hid : id ∈ globalOrder xs) (hu : u ∈ globalOrder xs) :
    Before (globalOrder xs) id u := by
  obtain ⟨ys, zs, rfl, htold, hlater⟩ := hf
  obtain ⟨r, hr⟩ | ⟨c, hc, hcomplete⟩ := final_of_told htold
  · exact absurd hid (not_committed_of_answer h (honce id) (List.mem_append_left zs hr))
  · exact before_of_answer h honce hc hcomplete hlater hu

/-- The transactions of a client that waits for each answer were run in the order it sent them, as
far as they are committed. -/
theorem session_order (h : Run P xs s) (honce : ∀ id, SubmittedOnce P id xs) {ids : List String}
    (hsession : ids.Pairwise (Follows P xs)) :
    (ids.filter (· ∈ globalOrder xs)).Sublist (globalOrder xs) := by
  have hmem {v : String} (hv : v ∈ ids.filter (· ∈ globalOrder xs)) : v ∈ globalOrder xs :=
    of_decide_eq_true (List.mem_filter.mp hv).2
  refine Runs.sublist_of_before (nodup_globalOrder xs) (fun v hv => hmem hv) ?_
  refine (hsession.sublist List.filter_sublist).imp_of_mem fun hid hu hf => ?_
  exact hf.before h honce (hmem hid) (hmem hu)

end Run

def answeredActions : List Action :=
  putGetActions ++
    [.getTransactionResult Coordinator.localId (some (.committedResponse ⟨true, putGetRead⟩))]

theorem twoIds_run : ∃ s, Run twoIds (answeredActions ++ secondActions) s := by
  refine ⟨_, .cons (.commitAtomicTransaction Coordinator.localContext putGet (by decide) rfl rfl)
    (.cons (.cohort _ _ (.start putGetFor Cohort.keyOrders rfl rfl)
      (.inr ⟨(⟨"", "cohort:50052"⟩, putGetFor), .head _, rfl⟩))
    (.cons (.cohort _ _ (.lock true rfl rfl) trivial)
    (.cons (.cohort _ _ (.begin rfl) trivial)
    (.cons (.cohort _ _ (.operate rfl (noFault _)) trivial)
    (.cons (.cohort _ _ (.operate rfl (noFault _)) trivial)
    (.cons (.cohort _ _ (.endOperations rfl) trivial)
    (.cons (.cohort _ _ (.commit rfl) trivial)
    (.cons (.cohort _ _ (.unlock rfl) trivial)
    (.cons (.cohort _ _ (.finish rfl) trivial)
    (.cons (.cohortResult _ _ rfl)
    (.cons (.getTransactionResult putGetReplies (putGet_given rfl (Set.mem_insert _ _)) rfl)
    (.cons (.commitAtomicTransaction Coordinator.localContext secondPut (by decide) rfl rfl)
    (.cons (.cohort _ _ (.start secondPutFor Cohort.keyOrders rfl rfl)
      (.inr ⟨(⟨"", "cohort:50052"⟩, secondPutFor), .head _, rfl⟩))
    (.cons (.cohort _ _ (.lock true rfl rfl) trivial)
    (.cons (.cohort _ _ (.begin rfl) trivial)
    (.cons (.cohort _ _ (.operate rfl (noFault _)) trivial)
    (.cons (.cohort _ _ (.endOperations rfl) trivial)
    (.single (.cohort _ _ (.commit rfl) trivial)))))))))))))))))))⟩

theorem twoIds_once (id : String) : SubmittedOnce twoIds id (answeredActions ++ secondActions) := by
  have hfirst : Coordinator.getTransactionId twoIds.server.sha256 putGet.clientTransactionId
      Coordinator.localContext.peer = .ok Coordinator.localId := by decide
  have hsecond : Coordinator.getTransactionId twoIds.server.sha256 secondPut.clientTransactionId
      Coordinator.localContext.peer = .ok secondId := by decide
  have hne : Coordinator.localId ≠ secondId := by decide
  have hboth : Coordinator.localId = id → secondId ≠ id := fun he he' => hne (he.trans he'.symm)
  simpa [SubmittedOnce, answeredActions, putGetActions, secondActions, Submits, hfirst, hsecond]
    using hboth

/-- The second transaction was sent once the first was answered. -/
theorem session_order_two_ids :
    ([Coordinator.localId, secondId].filter
      (· ∈ globalOrder (answeredActions ++ secondActions))).Sublist
      (globalOrder (answeredActions ++ secondActions)) := by
  obtain ⟨s, h⟩ := twoIds_run
  have hother : Coordinator.getTransactionId twoIds.server.sha256 putGet.clientTransactionId
      Coordinator.localContext.peer ≠ .ok secondId := by decide
  have htold : Told Coordinator.localId answeredActions :=
    ⟨_, List.mem_append_right _ (List.mem_singleton_self _), rfl⟩
  refine session_order h twoIds_once (List.pairwise_pair.mpr ⟨_, _, rfl, htold, ?_⟩)
  simpa [answeredActions, putGetActions, Submits] using hother

end TwoPhaseCommit.System
