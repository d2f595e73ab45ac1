import TwoPhaseCommit.ResultMerge

/-! What the client makes of the coordinator's answers. -/
namespace TwoPhaseCommit.Client
open Coordinator
open AdapterChain.Blockchain (VotingDecision)

def hasPendingResponse (r : GetTransactionResultResponse) : Bool :=
  match r with
  | some .pendingResponse => true
  | _ => false

def hasCommittedResponse (r : GetTransactionResultResponse) : Bool :=
  match r with
  | some (.committedResponse _) => true
  | _ => false

def hasAbortedResponse (r : GetTransactionResultResponse) : Bool :=
  match r with
  | some (.abortedResponse _) => true
  | _ => false

/-- Whether the client takes the coordinator's reply for the final response. -/
def tryGetTransactionResults (getStatus : Status) (response : GetTransactionResultResponse) :
    Bool :=
  if !getStatus.isOk then false
  else if hasPendingResponse response then false
  else if hasCommittedResponse response && !(mutableCommittedResponse response).complete then false
  else true

/-- Exactly one case of the response is set when the status is OK, and the client takes only an
aborted or a complete committed response for final. -/
structure Unmistaken (o : Outcome GetTransactionResultResponse) : Prop where
  set : o.status.isOk → [hasPendingResponse o.response, hasCommittedResponse o.response,
    hasAbortedResponse o.response].count true = 1
  final : tryGetTransactionResults o.status o.response → hasAbortedResponse o.response ∨
    hasCommittedResponse o.response ∧ (mutableCommittedResponse o.response).complete

/-- The decision COMMIT is known, and none of the cohorts has committed in an earlier call or
says so in this one. -/
structure NoneCommitted (replies : Replies) (id : String) (s : State) (m : TransactionMetadata) :
    Prop where
  incomplete : (s.responseByTransaction id).complete = false
  metadata : s.metadataByTransaction id = some m
  many : m.singleCohortNamespace = none
  decision : m.decision = .commit ∨
    (m.decision = .pending ∨ m.decision = .unknown) ∧ replies.votingDecision = .ok .commit
  cohorts : m.cohortNamespaces ≠ []
  before : m.cohortsAlreadyResponded = []
  now : ∀ i < m.cohortNamespaces.length, committedReply (replies.transactionResult i) = none

theorem unmistaken_iff (o : Outcome GetTransactionResultResponse) :
    Unmistaken o ↔ (o.status.isOk → o.response ≠ none) := by
  obtain ⟨state, rpcs, status, response⟩ := o
  constructor
  · rintro ⟨hset, _⟩ hok rfl
    cases hset hok
  · intro h
    dsimp only at h
    cases hok : status.isOk with
    | false =>
      refine ⟨fun h => by simp [hok] at h, fun h => ?_⟩
      simp [tryGetTransactionResults, hok] at h
    | true =>
      cases response with
      | none => exact absurd rfl (h hok)
      | some r =>
        cases r with
        | pendingResponse =>
          refine ⟨fun _ => rfl, fun h => ?_⟩
          simp [tryGetTransactionResults, hasPendingResponse] at h
        | abortedResponse a => exact ⟨fun _ => rfl, fun _ => .inl rfl⟩
        | committedResponse c =>
          refine ⟨fun _ => rfl, fun h => .inr ⟨rfl, ?_⟩⟩
          simpa [tryGetTransactionResults, hok, hasPendingResponse, hasCommittedResponse] using h

variable {replies : Replies} {id : String} {s : State} {m : TransactionMetadata}

theorem NoneCommitted.knownDecision (h : NoneCommitted replies id s m) :
    Coordinator.knownDecision m replies = .ok .commit := by
  unfold Coordinator.knownDecision
  obtain hd | ⟨hd, hr⟩ := h.decision
  · rw [if_neg (by simp [hd]), hd]
  · rw [if_pos hd, hr]

theorem decision_of_knownDecision (h : Coordinator.knownDecision m replies = .ok .commit) :
    m.decision = .commit ∨
      (m.decision = .pending ∨ m.decision = .unknown) ∧ replies.votingDecision = .ok .commit := by
  unfold Coordinator.knownDecision at h
  split_ifs at h with hd
  · exact .inr ⟨hd, h⟩
  · cases hm : m.decision with
    | commit => exact .inl rfl
    | _ => simp [hm] at h

theorem response_of_commit (h : Waiting m (s.responseByTransaction id) ∨
      Collecting m (s.responseByTransaction id))
    (hm : s.metadataByTransaction id = some m) (hs : m.singleCohortNamespace = none)
    (hk : Coordinator.knownDecision m replies = .ok .commit) :
    (respondToDecision id replies.transactionResult .commit
        (s.setMetadata id { m with decision := .commit })).response = none ↔
      NoneCommitted replies id s m := by
  have hmeta : (s.setMetadata id { m with decision := .commit }).metadata id =
      { m with decision := .commit } := by simp
  have hnoted : CohortsNoted m := h.elim (·.noted) (·.noted)
  have hincomplete : (s.responseByTransaction id).complete = false :=
    h.elim (·.incomplete) (·.incomplete)
  obtain ⟨_, _, hanswer, hrecord⟩ := respondToDecision_commit id replies.transactionResult
    (by rw [hmeta]; exact hnoted.distinct)
  rw [hmeta] at hrecord
  rw [hanswer]
  change (State.record _ id).2.response = none ↔ _
  rw [hrecord]
  dsimp only
  constructor
  · intro hnone
    split_ifs at hnone with hall
    · cases hnone
    · rw [addAnswers_eq] at hnone
      split_ifs at hnone with hnew
      have hwait := h.resolve_right fun hc => by
        obtain ⟨c, hr, _⟩ := hc.response
        cases hr.symm.trans hnone
      refine ⟨hincomplete, hm, hs, decision_of_knownDecision hk, ?_, hwait.responded, ?_⟩
      · intro hnil
        refine hall ?_
        intro n hn
        rw [hnil] at hn
        cases hn
      · intro i hi
        have hround := Gather.round_eq_nil_iff.mp hnew i (by simpa using hi)
        rw [hwait.responded, Nat.zero_add] at hround
        exact hround List.not_mem_nil
  · intro hno
    have hnew : newAnswers replies.transactionResult m.cohortsAlreadyResponded
        m.cohortNamespaces 0 = [] := by
      refine Gather.round_eq_nil_iff.mpr ?_
      intro j hj _
      rw [Nat.zero_add]
      exact hno.now j (by simpa using hj)
    obtain ⟨n, rest, hcohorts⟩ := List.exists_cons_of_ne_nil hno.cohorts
    have hnotAll : ¬∀ n ∈ m.cohortNamespaces,
        n.address ∈ ([] : List String) ++ ([] : List Answer).map Prod.fst := by
      intro hall
      cases hall n (by rw [hcohorts]; exact List.mem_cons_self)
    rw [hnew, hno.before, if_neg hnotAll]
    have hwait := h.resolve_right fun hc => hc.responded hno.before
    obtain hr | ⟨_, hsingle⟩ := hwait.response
    · exact hr
    · rw [hs] at hsingle
      cases hsingle

theorem answered_single (hc : (s.responseByTransaction id).complete = false)
    (hm : s.metadataByTransaction id = some m) {n : Namespace}
    (hs : m.singleCohortNamespace = some n)
    (hok : (getTransactionResult replies id s).status.isOk) :
    (getTransactionResult replies id s).response ≠ none := by
  rw [getTransactionResult_single hc hm hs] at hok ⊢
  dsimp only at hok ⊢
  rw [if_pos hok]
  change (State.record _ id).2.response ≠ none
  obtain ⟨_, hfail⟩ | ⟨_, _, hrecord⟩ :=
    updateResponseForSingleCohortTransaction_cases id n (replies.transactionResult 0) s
  · cases hfail.symm.trans hok
  · obtain ⟨_, _, hrecord⟩ | ⟨_, _, hrecord⟩ | hrecord := hrecord <;> rw [hrecord] <;> simp

theorem answered_multi (h : Waiting m (s.responseByTransaction id) ∨
      Collecting m (s.responseByTransaction id))
    (hm : s.metadataByTransaction id = some m) (hs : m.singleCohortNamespace = none)
    (hreplies : ∀ status, replies.votingDecision = .error status → status.isOk = false) :
    ((getTransactionResult replies id s).status.isOk →
        (getTransactionResult replies id s).response ≠ none) ↔
      ∀ m', ¬NoneCommitted replies id s m' := by
  rw [getTransactionResult_multi (h.elim (·.incomplete) (·.incomplete)) hm hs]
  have hunknown {r : Except Status VotingDecision} (hk : knownDecision m replies = r)
      (hr : r ≠ .ok .commit) : ∀ m', ¬NoneCommitted replies id s m' := by
    intro m' hm'
    cases hm.symm.trans hm'.metadata
    exact hr (hk.symm.trans hm'.knownDecision)
  cases hk : knownDecision m replies with
  | error status =>
    refine iff_of_true (fun hok => ?_) (hunknown hk (by simp))
    have herror : replies.votingDecision = .error status := by
      unfold knownDecision at hk
      split_ifs at hk
      exact hk
    cases (hreplies status herror).symm.trans hok
  | ok d =>
    cases d with
    | unknown => exact iff_of_true (fun _ => by simp [respondToDecision]) (hunknown hk (by simp))
    | pending => exact iff_of_true (fun _ => by simp [respondToDecision]) (hunknown hk (by simp))
    | abort =>
      refine iff_of_true (fun _ => ?_) (hunknown hk (by simp))
      change (State.record (cleanUpTransactionMetadata id (State.setResponse _ id _)) id).2.response
        ≠ none
      rw [record_finished]
      simp
    | commit =>
      have hiff := response_of_commit h hm hs hk
      constructor
      · intro hset m' hm'
        cases hm.symm.trans hm'.metadata
        exact hset rfl (hiff.mpr hm')
      · intro hno _ hnone
        exact hno m (hiff.mp hnone)

/-- In every state the coordinator can reach, the client is told what the transaction has come to
and takes only a final response for final, exactly when it is not the case that COMMIT is decided
and none of the cohorts has been heard to have committed. A StatusOr without a value has an
error for its status. -/
theorem unmistaken_iff_not_noneCommitted (server : Server) (calls : List Call) (replies : Replies)
    (id : String)
    (hreplies : ∀ status, replies.votingDecision = .error status → status.isOk = false) :
    let s := (run server calls).1
    Unmistaken (getTransactionResult replies id s) ↔ ∀ m, ¬NoneCommitted replies id s m := by
  intro s
  rw [unmistaken_iff]
  obtain ⟨hc, hf⟩ | h := progress_run server calls id
  · have hc' : (s.responseByTransaction id).complete = true := hc
    refine iff_of_true ?_ fun m hm => by cases hm.incomplete.symm.trans hc'
    rw [getTransactionResult_complete hc']
    intro _ hr
    have hf' : Final (s.responseByTransaction id).response := hf
    dsimp only at hr
    rw [hr] at hf'
    exact hf'
  · have hincomplete : (s.responseByTransaction id).complete = false :=
      h.elim (·.incomplete) (·.incomplete)
    cases hm : s.metadataByTransaction id with
    | none =>
      refine iff_of_true ?_ fun m hm' => by cases hm.symm.trans hm'.metadata
      rw [getTransactionResult_notFound hincomplete hm]
      intro hok
      cases hok
    | some m =>
      rw [State.metadata_eq, State.metadata_of_some hm] at h
      cases hs : m.singleCohortNamespace with
      | some n =>
        refine iff_of_true (answered_single hincomplete hm hs) ?_
        intro m' hm'
        cases hm.symm.trans hm'.metadata
        cases hs.symm.trans hm'.many
      | none => exact answered_multi h hm hs hreplies

def unreachableCohorts : Replies := ⟨.ok .commit, fun _ => (⟨.unavailable, ""⟩, none)⟩

/-- A client that asks for the result of two increments before the first of the cohorts answers
takes an empty response for the final one. -/
theorem mistaken_for_final :
    let o := getTransactionResult unreachableCohorts localId
      (run localServer [.commitAtomicTransaction localContext twoIncrements]).1
    tryGetTransactionResults o.status o.response = true ∧ ¬Unmistaken o := by
  refine ⟨by decide, fun h => ?_⟩
  have hset := h.set (by decide)
  revert hset
  decide

/-- The client is not mistaken when one of the two cohorts answers. -/
theorem unmistaken_one_answer :
    let replies : Replies := ⟨.ok .commit, fun i =>
      (if i = 0 then .okStatus else ⟨.unavailable, ""⟩, some (.committedResponse {}))⟩
    let s := (run localServer [.commitAtomicTransaction localContext twoIncrements]).1
    Unmistaken (getTransactionResult replies localId s) := by
  intro replies s
  refine (unmistaken_iff_not_noneCommitted localServer
    [.commitAtomicTransaction localContext twoIncrements] replies localId (by simp [replies])).mpr ?_
  intro m hm
  have hpos : 0 < m.cohortNamespaces.length := List.length_pos_iff.mpr hm.cohorts
  cases hm.now 0 hpos

end TwoPhaseCommit.Client
