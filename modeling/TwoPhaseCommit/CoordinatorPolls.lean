import TwoPhaseCommit.Lib.Gather
import TwoPhaseCommit.CoordinatorRuns

/-! What one GetTransactionResult call does to the records of its transaction: which cohorts it
asks, what it adds to the response and what it answers. -/
namespace TwoPhaseCommit.Coordinator
open AdapterChain.Blockchain (VotingDecision)

def committedReply (reply : CohortReply) : Option TwoPhaseCommit.CommittedResponse :=
  match reply.1.isOk, reply.2 with
  | true, some (.committedResponse r) => some r
  | _, _ => none

abbrev Answer := String × TwoPhaseCommit.CommittedResponse

/-- The answers to one poll, from the cohorts from index i on that are not in answered. -/
def newAnswers (reply : ℕ → CohortReply) (answered : List String) (cohorts : List Namespace)
    (i : ℕ) : List Answer :=
  Gather.round (fun j => committedReply (reply j)) answered (cohorts.map Namespace.address) i

def asked (id : String) (answered : List String) (cohorts : List Namespace) : List Rpc :=
  (cohorts.filter fun n => n.address ∉ answered).map fun n => .getTransactionResult n id

def addAnswers (r : GetTransactionResultResponse) (answers : List Answer) :
    GetTransactionResultResponse :=
  answers.foldl (fun r a => some (.committedResponse (addGetResponses r a.2))) r

theorem asked_congr {id : String} {answered answered' : List String} {cohorts : List Namespace}
    (h : ∀ n ∈ cohorts, (n.address ∈ answered' ↔ n.address ∈ answered)) :
    asked id answered' cohorts = asked id answered cohorts := by
  unfold asked
  refine congrArg _ (List.filter_congr ?_)
  intro n hn
  simp only [h n hn]

theorem newAnswers_congr {reply : ℕ → CohortReply} {answered answered' : List String}
    {cohorts : List Namespace} {i : ℕ}
    (h : ∀ n ∈ cohorts, (n.address ∈ answered' ↔ n.address ∈ answered)) :
    newAnswers reply answered' cohorts i = newAnswers reply answered cohorts i := by
  refine Gather.round_congr ?_
  intro a ha
  obtain ⟨n, hn, rfl⟩ := List.mem_map.mp ha
  exact h n hn

theorem collected_add (c : Collected) (n : Namespace) (reply : CohortReply) :
    c.add n reply =
      match committedReply reply with
      | some r => ⟨c.numCommittedResponses + 1, some (.committedResponse (addGetResponses c.response r)),
          n.address :: c.cohortsAlreadyResponded⟩
      | none => c := by
  obtain ⟨status, response⟩ := reply
  unfold Collected.add committedReply
  cases status.isOk with
  | false => rfl
  | true =>
    cases response with
    | none => rfl
    | some r => cases r <;> rfl

theorem collectLoop_eq (id : String) (reply : ℕ → CohortReply) {cohorts : List Namespace} (i : ℕ)
    (c : Collected) (hnodup : (cohorts.map Namespace.address).Nodup) :
    let new := newAnswers reply c.cohortsAlreadyResponded cohorts i
    collectLoop id reply cohorts i c =
      (⟨c.numCommittedResponses + ((cohorts.map Namespace.address).countP
            (fun a => a ∈ c.cohortsAlreadyResponded)) + new.length,
          addAnswers c.response new,
          (new.map Prod.fst).reverse ++ c.cohortsAlreadyResponded⟩,
        asked id c.cohortsAlreadyResponded cohorts) := by
  induction cohorts generalizing i c with
  | nil => rfl
  | cons n rest ih =>
    obtain ⟨hn, hrest⟩ := List.nodup_cons.mp hnodup
    have hother : ∀ a ∈ rest, a.address ≠ n.address := by
      intro a ha he
      exact hn (he ▸ List.mem_map_of_mem ha)
    have hnew (answered : List String) : newAnswers reply answered (n :: rest) i =
        (if n.address ∈ answered then [] else
          ((committedReply (reply i)).map fun r => (n.address, r)).toList) ++
        newAnswers reply answered rest (i + 1) := rfl
    rw [collectLoop, List.map_cons]
    dsimp only
    rw [hnew]
    by_cases hin : n.address ∈ c.cohortsAlreadyResponded
    · rw [if_pos hin, if_pos hin, ih (i + 1) _ hrest, List.nil_append]
      have hask : asked id c.cohortsAlreadyResponded (n :: rest) =
          asked id c.cohortsAlreadyResponded rest := by simp [asked, hin]
      rw [hask, List.countP_cons_of_pos (by simpa using hin)]
      dsimp only
      congr 2
      omega
    · rw [if_neg hin, if_neg hin, ih (i + 1) _ hrest]
      have hask : asked id c.cohortsAlreadyResponded (n :: rest) =
          .getTransactionResult n id :: asked id c.cohortsAlreadyResponded rest := by
        simp [asked, hin]
      rw [hask, List.countP_cons_of_neg (by simpa using hin), collected_add]
      cases hr : committedReply (reply i) with
      | none => rfl
      | some r =>
        dsimp only
        have hsame : ∀ a ∈ rest, (a.address ∈ n.address :: c.cohortsAlreadyResponded ↔
            a.address ∈ c.cohortsAlreadyResponded) := by
          intro a ha
          rw [List.mem_cons, or_iff_right (hother a ha)]
        have hcount : (rest.map Namespace.address).countP
              (fun a => a ∈ n.address :: c.cohortsAlreadyResponded) =
            (rest.map Namespace.address).countP fun a => a ∈ c.cohortsAlreadyResponded := by
          refine List.countP_congr ?_
          intro a ha
          obtain ⟨b, hb, rfl⟩ := List.mem_map.mp ha
          simpa using hsame b hb
        rw [newAnswers_congr hsame, asked_congr hsame, hcount]
        simp only [Option.map_some, Option.toList_some, List.singleton_append, List.length_cons,
          List.map_cons, List.reverse_cons, List.append_assoc, addAnswers, List.foldl_cons]
        congr 2
        omega

/-- The decision that a call works with: the cached one once it is final, else the reply. -/
def knownDecision (m : TransactionMetadata) (replies : Replies) : Except Status VotingDecision :=
  if m.decision = .pending ∨ m.decision = .unknown then replies.votingDecision else .ok m.decision

def decisionRpcs (m : TransactionMetadata) (id : String) : List Rpc :=
  if m.decision = .pending ∨ m.decision = .unknown then [.getVotingDecision id] else []

section Poll
variable {replies : Replies} {id : String} {s : State} {m : TransactionMetadata}

theorem State.metadata_of_some (h : s.metadataByTransaction id = some m) : s.metadata id = m := by
  rw [State.metadata, h]
  rfl

theorem State.setMetadata_self (h : s.metadataByTransaction id = some m) :
    s.setMetadata id m = s := by
  rw [State.setMetadata, ← h, Function.update_eq_self]

theorem getTransactionResult_complete (h : (s.responseByTransaction id).complete = true) :
    getTransactionResult replies id s =
      ⟨s, [], .okStatus, (s.responseByTransaction id).response⟩ := by
  rw [getTransactionResult, if_pos h]

theorem getTransactionResult_notFound (h : (s.responseByTransaction id).complete = false)
    (hm : s.metadataByTransaction id = none) :
    getTransactionResult replies id s = ⟨s, [], ⟨.notFound, "Could not find transaction"⟩, none⟩ := by
  rw [getTransactionResult, if_neg (by simp [h]), hm]

theorem getTransactionResult_single {n : Namespace}
    (h : (s.responseByTransaction id).complete = false) (hm : s.metadataByTransaction id = some m)
    (hs : m.singleCohortNamespace = some n) :
    getTransactionResult replies id s =
      let updated := updateResponseForSingleCohortTransaction id n (replies.transactionResult 0) s
      ⟨updated.1, [.getTransactionResult n id], updated.2,
        if updated.2.isOk then (updated.1.responseByTransaction id).response else none⟩ := by
  rw [getTransactionResult, if_neg (by simp [h]), hm]
  dsimp only
  rw [hs]
  dsimp only
  split_ifs <;> rfl

theorem getTransactionResult_multi (h : (s.responseByTransaction id).complete = false)
    (hm : s.metadataByTransaction id = some m) (hs : m.singleCohortNamespace = none) :
    getTransactionResult replies id s =
      match knownDecision m replies with
      | .error status =>
        ⟨s, decisionRpcs m id, status.withPrefix "Failed to get blockchain decision", none⟩
      | .ok d =>
        let o := respondToDecision id replies.transactionResult d
          (s.setMetadata id { m with decision := d })
        { o with rpcs := decisionRpcs m id ++ o.rpcs } := by
  obtain ⟨config, cohorts, single, flag, decision, responded⟩ := m
  obtain rfl : single = none := hs
  rw [getTransactionResult, if_neg (by simp [h]), hm]
  unfold knownDecision decisionRpcs
  dsimp only
  split_ifs with hd
  · cases replies.votingDecision <;> rfl
  · dsimp only
    rw [State.setMetadata_self hm]
    rfl

end Poll

@[simp] theorem State.response_setResponse_self (s : State) (id : String)
    (r : GetTransactionResultResponse) :
    (s.setResponse id r).responseByTransaction id = ⟨(s.responseByTransaction id).complete, r⟩ := by
  simp [State.setResponse]

@[simp] theorem response_cleanUp_self (s : State) (id : String) :
    (cleanUpTransactionMetadata id s).responseByTransaction id =
      ⟨true, (s.responseByTransaction id).response⟩ := by
  simp [cleanUpTransactionMetadata]

@[simp] theorem metadata_cleanUp_self (s : State) (id : String) :
    (cleanUpTransactionMetadata id s).metadataByTransaction id = none := by
  simp [cleanUpTransactionMetadata]

def State.record (s : State) (id : String) : Option TransactionMetadata × TransactionResponse :=
  (s.metadataByTransaction id, s.responseByTransaction id)

section Frame
variable {id id' : String} (h : id' ≠ id) (s : State)
include h

theorem record_setMetadata (m : TransactionMetadata) :
    (s.setMetadata id m).record id' = s.record id' := by
  simp [State.record, State.setMetadata, h]

theorem record_setResponse (r : GetTransactionResultResponse) :
    (s.setResponse id r).record id' = s.record id' := by
  simp [State.record, State.setResponse, h]

theorem record_cleanUp : (cleanUpTransactionMetadata id s).record id' = s.record id' := by
  simp [State.record, cleanUpTransactionMetadata, h]

theorem record_respondToDecision (reply : ℕ → CohortReply) (d : VotingDecision) :
    (respondToDecision id reply d s).state.record id' = s.record id' := by
  cases d with
  | unknown => rfl
  | pending => rfl
  | abort => exact (record_cleanUp h _).trans (record_setResponse h s _)
  | commit =>
    change (updateCommittedResponseFromCohorts id reply s).1.record id' = _
    rw [updateCommittedResponseFromCohorts]
    split_ifs
    · exact (record_cleanUp h _).trans ((record_setResponse h _ _).trans
        ((record_setMetadata h _ _).trans (record_setResponse h s _)))
    · exact (record_setMetadata h _ _).trans (record_setResponse h s _)

theorem record_singleCohort (n : Namespace) (reply : CohortReply) :
    (updateResponseForSingleCohortTransaction id n reply s).1.record id' = s.record id' := by
  unfold updateResponseForSingleCohortTransaction
  split_ifs
  · split
    · exact (record_cleanUp h _).trans (record_setResponse h s _)
    · exact (record_cleanUp h _).trans (record_setResponse h s _)
    · exact record_setResponse h s _
  · rfl

theorem record_getTransactionResult (replies : Replies) :
    (getTransactionResult replies id s).state.record id' = s.record id' := by
  cases hc : (s.responseByTransaction id).complete with
  | true => rw [getTransactionResult_complete hc]
  | false =>
    cases hm : s.metadataByTransaction id with
    | none => rw [getTransactionResult_notFound hc hm]
    | some m =>
      cases hs : m.singleCohortNamespace with
      | some n =>
        rw [getTransactionResult_single hc hm hs]
        exact record_singleCohort h s n _
      | none =>
        rw [getTransactionResult_multi hc hm hs]
        cases knownDecision m replies with
        | error status => rfl
        | ok d => exact (record_respondToDecision h _ _ d).trans (record_setMetadata h s _)

end Frame

theorem record_collected (s : State) (id : String) (r : GetTransactionResultResponse)
    (m : TransactionMetadata) :
    ((s.setResponse id r).setMetadata id m).record id =
      (some m, ⟨(s.responseByTransaction id).complete, r⟩) := by
  simp [State.record]

theorem record_finished (s : State) (id : String) (r : GetTransactionResultResponse) :
    (cleanUpTransactionMetadata id (s.setResponse id r)).record id = (none, ⟨true, r⟩) := by
  simp [State.record]

theorem updateResponseForSingleCohortTransaction_cases (id : String) (n : Namespace)
    (reply : CohortReply) (s : State) :
    let r := s.responseByTransaction id
    let updated := updateResponseForSingleCohortTransaction id n reply s
    (updated.1 = s ∧ updated.2.isOk = false) ∨
    updated.2 = .okStatus ∧ reply.1.isOk ∧
      ((∃ reason, reply.2 = some (.abortedResponse reason) ∧
          updated.1.record id = (none, ⟨true, some (.abortedResponse
            ⟨reason, (mutableAbortedResponse r.response).namespaces ++ [n]⟩)⟩)) ∨
        (∃ c, reply.2 = some (.committedResponse c) ∧
          updated.1.record id = (none, ⟨true, some (.committedResponse
            { addGetResponses r.response c with complete := true })⟩)) ∨
        updated.1.record id = (s.metadataByTransaction id, ⟨r.complete, some .pendingResponse⟩)) := by
  obtain ⟨status, response⟩ := reply
  intro r updated
  cases hok : status.isOk with
  | false =>
    have hupd : updated = (s, ⟨status.code, "Failed to get cohort results: " ++ status.message⟩) :=
      if_neg (by simp [hok])
    refine .inl ?_
    rw [hupd]
    exact ⟨rfl, hok⟩
  | true =>
    refine .inr ?_
    have hpending (h : updated = (s.setResponse id (some .pendingResponse), .okStatus)) :
        updated.2 = .okStatus ∧ updated.1.record id =
          (s.metadataByTransaction id, ⟨r.complete, some .pendingResponse⟩) := by
      rw [h]
      exact ⟨rfl, by simp [State.record, r]⟩
    cases response with
    | none =>
      obtain ⟨hst, hrecord⟩ := hpending (if_pos hok)
      exact ⟨hst, rfl, .inr (.inr hrecord)⟩
    | some result =>
      cases result with
      | pendingResponse =>
        obtain ⟨hst, hrecord⟩ := hpending (if_pos hok)
        exact ⟨hst, rfl, .inr (.inr hrecord)⟩
      | committedResponse c =>
        have hupd : updated = (cleanUpTransactionMetadata id (s.setResponse id (some
            (.committedResponse { addGetResponses r.response c with complete := true }))),
            .okStatus) := if_pos hok
        rw [hupd]
        exact ⟨rfl, rfl, .inr (.inl ⟨c, rfl, record_finished ..⟩)⟩
      | abortedResponse reason =>
        have hupd : updated = (cleanUpTransactionMetadata id (s.setResponse id (some
            (.abortedResponse ⟨reason, (mutableAbortedResponse r.response).namespaces ++ [n]⟩))),
            .okStatus) := if_pos hok
        rw [hupd]
        exact ⟨rfl, rfl, .inl ⟨reason, rfl, record_finished ..⟩⟩

def allAnswered (r : GetTransactionResultResponse) : GetTransactionResultResponse :=
  some (.committedResponse { mutableCommittedResponse r with complete := true })

theorem respondToDecision_commit (id : String) (reply : ℕ → CohortReply) {s : State}
    (hnodup : ((s.metadata id).cohortNamespaces.map Namespace.address).Nodup) :
    let m := s.metadata id
    let r := s.responseByTransaction id
    let new := newAnswers reply m.cohortsAlreadyResponded m.cohortNamespaces 0
    let o := respondToDecision id reply .commit s
    o.rpcs = asked id m.cohortsAlreadyResponded m.cohortNamespaces ∧ o.status = .okStatus ∧
      o.response = (o.state.responseByTransaction id).response ∧
      o.state.record id =
        if ∀ n ∈ m.cohortNamespaces,
            n.address ∈ m.cohortsAlreadyResponded ++ new.map Prod.fst then
          (none, ⟨true, allAnswered (addAnswers r.response new)⟩)
        else
          (some { m with
              cohortsAlreadyResponded := (new.map Prod.fst).reverse ++ m.cohortsAlreadyResponded },
            ⟨r.complete, addAnswers r.response new⟩) := by
  intro m r new o
  have hloop := collectLoop_eq id reply 0
    ⟨0, r.response, m.cohortsAlreadyResponded⟩ hnodup
  have hupd : (o.state, o.rpcs) = updateCommittedResponseFromCohorts id reply s := rfl
  rw [updateCommittedResponseFromCohorts, hloop] at hupd
  dsimp only at hupd
  have hfull : 0 + (m.cohortNamespaces.map Namespace.address).countP
        (fun a => a ∈ m.cohortsAlreadyResponded) + new.length = m.cohortNamespaces.length ↔
      ∀ n ∈ m.cohortNamespaces, n.address ∈ m.cohortsAlreadyResponded ++ new.map Prod.fst := by
    rw [Nat.zero_add, ← List.length_map Namespace.address]
    exact (Gather.full_iff hnodup).trans List.forall_mem_map
  rw [if_congr hfull rfl rfl] at hupd
  split_ifs at hupd ⊢ with hall
  · obtain ⟨hstate, hrpcs⟩ := Prod.mk.inj hupd
    refine ⟨hrpcs, rfl, rfl, ?_⟩
    rw [hstate]
    exact record_finished ..
  · obtain ⟨hstate, hrpcs⟩ := Prod.mk.inj hupd
    refine ⟨hrpcs, rfl, rfl, ?_⟩
    rw [hstate]
    exact record_collected ..

end TwoPhaseCommit.Coordinator
