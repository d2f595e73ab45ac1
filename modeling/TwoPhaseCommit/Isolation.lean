import TwoPhaseCommit.Lib.Sharding
import TwoPhaseCommit.ContractRuns
import TwoPhaseCommit.CoordinatorPolls
import TwoPhaseCommit.CoordinatorSubmissions

/-! Transactions do not see each other at the coordinator or on the chain: what is answered and
sent for some of them does not depend on the calls for the others. -/
namespace TwoPhaseCommit.Coordinator
open AdapterChain.Blockchain (VotingDecision)

def Handled.call : Handled → Call
  | .commitAtomicTransaction context request _ _ _ => .commitAtomicTransaction context request
  | .getTransactionResult replies transactionId _ _ _ => .getTransactionResult replies transactionId

def Call.transactionId (server : Server) : Call → Option String
  | .commitAtomicTransaction context request =>
    (getTransactionId server.sha256 request.clientTransactionId context.peer).toOption
  | .getTransactionResult _ id => some id

/-- What there is of a transaction; a call without an id has nothing. -/
def State.shard (id : Option String) (s : State) :
    Option (Option TransactionMetadata × TransactionResponse) := id.map s.record

section Own
variable {s s' : State} {id : String}

/-- Two outcomes that a transaction cannot tell apart. -/
structure SameFor {ρ : Type} (id : String) (o o' : Outcome ρ) : Prop where
  record : o.state.record id = o'.state.record id
  rpcs : o.rpcs = o'.rpcs
  status : o.status = o'.status
  response : o.response = o'.response

theorem record_setMetadata_self (m : TransactionMetadata) :
    (s.setMetadata id m).record id = (some m, (s.record id).2) := by
  simp [State.record]

theorem record_setMetadata_congr (h : s.record id = s'.record id) (m : TransactionMetadata) :
    (s.setMetadata id m).record id = (s'.setMetadata id m).record id := by
  rw [record_setMetadata_self, record_setMetadata_self, h]

theorem record_setResponse_congr (h : s.record id = s'.record id) (r : GetTransactionResultResponse) :
    (s.setResponse id r).record id = (s'.setResponse id r).record id := by
  obtain ⟨hm, hr⟩ := Prod.mk.inj h
  simp only [State.record, State.setResponse, Function.update_self, hm, hr]

theorem record_cleanUp_congr (h : s.record id = s'.record id) :
    (cleanUpTransactionMetadata id s).record id = (cleanUpTransactionMetadata id s').record id := by
  obtain ⟨_, hr⟩ := Prod.mk.inj h
  simp only [State.record, cleanUpTransactionMetadata, Function.update_self, hr]

theorem metadata_congr (h : s.record id = s'.record id) : s.metadata id = s'.metadata id := by
  rw [State.metadata, State.metadata, (Prod.mk.inj h).1]

theorem response_congr (h : s.record id = s'.record id) :
    s.responseByTransaction id = s'.responseByTransaction id := (Prod.mk.inj h).2

theorem sendCohortPrepareRequests_congr (h : s.record id = s'.record id)
    (subs : List SubTransaction) :
    (sendCohortPrepareRequests id subs s).1.record id =
        (sendCohortPrepareRequests id subs s').1.record id ∧
      (sendCohortPrepareRequests id subs s).2 = (sendCohortPrepareRequests id subs s').2 := by
  unfold sendCohortPrepareRequests
  rw [metadata_congr h]
  exact ⟨record_setMetadata_congr h _, rfl⟩

theorem commitAtomicTransaction_congr {server : Server} {context : CommitContext}
    {request : CommitAtomicTransactionRequest} (h : s.record id = s'.record id)
    (hid : getTransactionId server.sha256 request.clientTransactionId context.peer = .ok id) :
    SameFor id (commitAtomicTransaction server context request s)
      (commitAtomicTransaction server context request s') := by
  rw [commitAtomicTransaction, commitAtomicTransaction, hid]
  simp only [metadata_congr h]
  have hset := record_setMetadata_congr h (s'.metadata id)
  by_cases hsent : (s'.metadata id).possiblySentToAllCohorts
  · rw [if_pos hsent, if_pos hsent]
    exact ⟨hset, rfl, rfl, rfl⟩
  rw [if_neg hsent, if_neg hsent]
  cases computeFinalConfig request.config context.now server.defaultPresumedAbortDuration with
  | error status => exact ⟨hset, rfl, rfl, rfl⟩
  | ok config =>
    have hconfig := record_setMetadata_congr hset { s'.metadata id with config := config }
    have hsend := sendCohortPrepareRequests_congr hconfig
      (splitClientTransaction context.order request.transaction server.sortCohortRequests)
    dsimp only
    split_ifs
    · exact ⟨hconfig, rfl, rfl, rfl⟩
    · exact ⟨hsend.1, congrArg (List.cons _) hsend.2, rfl, rfl⟩
    · exact ⟨hconfig, rfl, rfl, rfl⟩
    · exact ⟨hsend.1, hsend.2, rfl, rfl⟩

theorem respondToDecision_congr (h : s.record id = s'.record id) (reply : ℕ → CohortReply)
    (d : VotingDecision) :
    SameFor id (respondToDecision id reply d s) (respondToDecision id reply d s') := by
  cases d with
  | unknown => exact ⟨h, rfl, rfl, rfl⟩
  | pending => exact ⟨h, rfl, rfl, rfl⟩
  | abort =>
    have habort : (updateAbortedResponseFromCohorts id s).record id =
        (updateAbortedResponseFromCohorts id s').record id := by
      rw [updateAbortedResponseFromCohorts, updateAbortedResponseFromCohorts, response_congr h]
      exact record_cleanUp_congr (record_setResponse_congr h _)
    exact ⟨habort, rfl, rfl, congrArg (fun r => r.2.response) habort⟩
  | commit =>
    have hcommit : (updateCommittedResponseFromCohorts id reply s).1.record id =
          (updateCommittedResponseFromCohorts id reply s').1.record id ∧
        (updateCommittedResponseFromCohorts id reply s).2 =
          (updateCommittedResponseFromCohorts id reply s').2 := by
      rw [updateCommittedResponseFromCohorts, updateCommittedResponseFromCohorts, metadata_congr h,
        response_congr h]
      dsimp only
      split_ifs
      · exact ⟨record_cleanUp_congr (record_setResponse_congr
          (record_setMetadata_congr (record_setResponse_congr h _) _) _), rfl⟩
      · exact ⟨record_setMetadata_congr (record_setResponse_congr h _) _, rfl⟩
    exact ⟨hcommit.1, hcommit.2, rfl, congrArg (fun r => r.2.response) hcommit.1⟩

theorem updateResponseForSingleCohortTransaction_congr (h : s.record id = s'.record id)
    (n : Namespace) (reply : CohortReply) :
    (updateResponseForSingleCohortTransaction id n reply s).1.record id =
        (updateResponseForSingleCohortTransaction id n reply s').1.record id ∧
      (updateResponseForSingleCohortTransaction id n reply s).2 =
        (updateResponseForSingleCohortTransaction id n reply s').2 := by
  unfold updateResponseForSingleCohortTransaction
  rw [response_congr h]
  split_ifs
  · split
    · exact ⟨record_cleanUp_congr (record_setResponse_congr h _), rfl⟩
    · exact ⟨record_cleanUp_congr (record_setResponse_congr h _), rfl⟩
    · exact ⟨record_setResponse_congr h _, rfl⟩
  · exact ⟨h, rfl⟩

theorem getTransactionResult_congr (h : s.record id = s'.record id) (replies : Replies) :
    SameFor id (getTransactionResult replies id s) (getTransactionResult replies id s') := by
  obtain ⟨hmeta, hresp⟩ := Prod.mk.inj h
  cases hc : (s'.responseByTransaction id).complete with
  | true =>
    rw [getTransactionResult_complete (hresp ▸ hc), getTransactionResult_complete hc, hresp]
    exact ⟨h, rfl, rfl, rfl⟩
  | false =>
    have hc' : (s.responseByTransaction id).complete = false := hresp ▸ hc
    cases hm : s'.metadataByTransaction id with
    | none =>
      rw [getTransactionResult_notFound hc' (hmeta.trans hm), getTransactionResult_notFound hc hm]
      exact ⟨h, rfl, rfl, rfl⟩
    | some m =>
      cases hs : m.singleCohortNamespace with
      | some n =>
        rw [getTransactionResult_single hc' (hmeta.trans hm) hs, getTransactionResult_single hc hm hs]
        obtain ⟨hrecord, hstatus⟩ :=
          updateResponseForSingleCohortTransaction_congr h n (replies.transactionResult 0)
        refine ⟨hrecord, rfl, hstatus, ?_⟩
        dsimp only
        rw [hstatus, response_congr hrecord]
      | none =>
        rw [getTransactionResult_multi hc' (hmeta.trans hm) hs, getTransactionResult_multi hc hm hs]
        cases knownDecision m replies with
        | error status => exact ⟨h, rfl, rfl, rfl⟩
        | ok d =>
          obtain ⟨hrecord, hrpcs, hstatus, hresponse⟩ := respondToDecision_congr
            (record_setMetadata_congr h { m with decision := d }) replies.transactionResult d
          exact ⟨hrecord, congrArg (decisionRpcs m id ++ ·) hrpcs, hstatus, hresponse⟩

end Own

theorem record_commitAtomicTransaction {server : Server} {context : CommitContext}
    {request : CommitAtomicTransactionRequest} {s : State} {id : String}
    (hid : getTransactionId server.sha256 request.clientTransactionId context.peer ≠ .ok id) :
    (commitAtomicTransaction server context request s).state.record id = s.record id := by
  rw [commitAtomicTransaction]
  cases hu : getTransactionId server.sha256 request.clientTransactionId context.peer with
  | error status => rfl
  | ok u =>
    have hne : id ≠ u := fun he => hid (he ▸ hu)
    have hset := record_setMetadata hne s (s.metadata u)
    dsimp only
    by_cases hsent : (s.metadata u).possiblySentToAllCohorts
    · rw [if_pos hsent]
      exact hset
    rw [if_neg hsent]
    cases computeFinalConfig request.config context.now server.defaultPresumedAbortDuration with
    | error status => exact hset
    | ok config =>
      have hconfig := (record_setMetadata hne (s.setMetadata u (s.metadata u))
        { s.metadata u with config := config }).trans hset
      dsimp only
      split_ifs
      · exact hconfig
      · exact (record_setMetadata hne _ _).trans hconfig
      · exact hconfig
      · exact (record_setMetadata hne _ _).trans hconfig

theorem sharded (server : Server) :
    Sharding.Sharded (fun s c => Call.serve server c s) (Call.transactionId server)
      State.shard where
  frame s c k hk := by
    cases k with
    | none => rfl
    | some id =>
      have hrecord : (Call.serve server c s).1.record id = s.record id := by
        cases c with
        | commitAtomicTransaction context request =>
          refine record_commitAtomicTransaction fun hid => hk ?_
          simp only [Call.transactionId, hid]
          rfl
        | getTransactionResult replies u =>
          exact record_getTransactionResult (fun he => hk (congrArg some he)) s replies
      exact congrArg some hrecord
  own s s' c h := by
    cases c with
    | commitAtomicTransaction context request =>
      cases hid : getTransactionId server.sha256 request.clientTransactionId context.peer with
      | error status =>
        have hnone : Call.transactionId server (.commitAtomicTransaction context request) = none := by
          rw [Call.transactionId, hid]
          rfl
        rw [hnone]
        refine ⟨rfl, ?_⟩
        simp only [Call.serve, commitAtomicTransaction, hid]
      | ok id =>
        have hsome : Call.transactionId server (.commitAtomicTransaction context request) =
            some id := by
          rw [Call.transactionId, hid]
          rfl
        rw [hsome] at h ⊢
        obtain ⟨hrecord, hrpcs, hstatus, hresponse⟩ :=
          commitAtomicTransaction_congr (Option.some.inj h) hid
        refine ⟨congrArg some hrecord, ?_⟩
        simp only [Call.serve, hrpcs, hstatus, hresponse]
    | getTransactionResult replies id =>
      obtain ⟨hrecord, hrpcs, hstatus, hresponse⟩ :=
        getTransactionResult_congr (Option.some.inj h) replies
      refine ⟨congrArg some hrecord, ?_⟩
      simp only [Call.serve, hrpcs, hstatus, hresponse]

theorem served_eq (server : Server) (s : State) (calls : List Call) :
    served server s calls = (Sharding.final (fun s c => Call.serve server c s) s calls,
      (Sharding.outputs (fun s c => Call.serve server c s) s calls).map Prod.snd) := by
  have hfold (l : List Handled) : calls.foldl (serve server) (s, l) =
      (Sharding.final (fun s c => Call.serve server c s) s calls,
        l ++ (Sharding.outputs (fun s c => Call.serve server c s) s calls).map Prod.snd) := by
    induction calls generalizing s l with
    | nil => simp [Sharding.final, Sharding.outputs]
    | cons c calls ih => simp [serve, ih, Sharding.final, Sharding.outputs]
  exact hfold []

theorem call_of_mem_outputs {server : Server} {s : State} {calls : List Call} {p : Call × Handled}
    (h : p ∈ Sharding.outputs (fun s c => Call.serve server c s) s calls) : p.2.call = p.1 := by
  induction calls generalizing s with
  | nil => cases h
  | cons c calls ih =>
    obtain rfl | h := List.mem_cons.mp h
    · cases c <;> rfl
    · exact ih h

/-- What the coordinator knows, sends and answers of some transactions, in any run, is what it would
without the calls for all others. So several coordinators can share the transactions out. -/
theorem coordinator_isolated (server : Server) (calls : List Call) (ids : String → Bool) :
    let own := calls.filter fun c => (c.transactionId server).any ids
    (∀ id, ids id →
      (served server initial calls).1.record id = (served server initial own).1.record id) ∧
      (served server initial calls).2.filter (fun h => (h.call.transactionId server).any ids) =
        (served server initial own).2 := by
  intro own
  obtain ⟨hfinal, houts⟩ := (sharded server).isolated (p := Option.any ids) (s := initial)
    (fun _ _ => rfl) calls
  rw [served_eq, served_eq]
  refine ⟨fun id hid => Option.some.inj (hfinal (some id) hid), ?_⟩
  rw [List.filter_map, ← houts]
  congr 1
  refine List.filter_congr fun p hp => ?_
  rw [Function.comp_apply, call_of_mem_outputs hp]

end TwoPhaseCommit.Coordinator

namespace TwoPhaseCommit.ContractRuns
open Contract

def callFor : Call → String
  | .startVoting t _ _ | .vote t _ _ | .getVotingDecision t => t

def serve (s : State) (tx : ℕ × Call) : State × Bool × Option String :=
  (step s tx, (tx.2.apply tx.1 s).isSome,
    match tx.2 with
    | .getVotingDecision t => getVotingDecision tx.1 t s
    | _ => none)

def slot (t : String) (s : State) : Contract.TransactionConfig × ℕ × ℕ :=
  (s.transactionConfigs t, s.transactionStates t, s.mockNow)

theorem votingDecision_congr {s s' : State} {t : String} (h : slot t s = slot t s') (now : ℕ) :
    votingDecision now t s = votingDecision now t s' := by
  simp only [slot, Prod.mk.injEq] at h
  obtain ⟨hconfig, hstate, hmock⟩ := h
  rw [votingDecision, votingDecision, getNow, getNow, hconfig, hstate, hmock]

theorem sharded : Sharding.Sharded serve (fun tx => callFor tx.2) slot where
  frame s tx t ht := by
    obtain ⟨now, c⟩ := tx
    cases c with
    | startVoting u n timeout =>
      have hu : t ≠ u := ht
      simp only [serve, step, Call.apply, startVoting]
      split_ifs
      · simp [slot, Function.update_of_ne hu]
      · rfl
    | vote u i b =>
      have hu : t ≠ u := ht
      simp only [serve, step, Call.apply, vote]
      split_ifs
      · simp [slot, Function.update_of_ne hu]
      · rfl
    | getVotingDecision u =>
      simp only [serve, step, Call.apply]
      cases getVotingDecision now u s <;> rfl
  own s s' tx h := by
    obtain ⟨now, c⟩ := tx
    have hslot := h
    simp only [slot, Prod.mk.injEq] at h
    obtain ⟨hconfig, hstate, hmock⟩ := h
    have hnow : getNow s now = getNow s' now := by rw [getNow, getNow, hmock]
    cases c with
    | startVoting u n timeout =>
      simp only [serve, step, Call.apply, startVoting, hnow]
      by_cases hreq : 0 < n ∧ n ≤ 120 ∧ getNow s' now < timeout
      · rw [if_pos hreq, if_pos hreq]
        exact ⟨by simp [callFor, slot, hmock], rfl⟩
      · rw [if_neg hreq, if_neg hreq]
        exact ⟨hslot, rfl⟩
    | vote u i b =>
      simp only [callFor] at hconfig hstate
      simp only [serve, step, Call.apply, vote, hnow, hconfig, hstate]
      by_cases hreq : getNow s' now < (s'.transactionConfigs u).voteTimeoutTime ∧
          i < (s'.transactionConfigs u).cohorts ∧ b ≠ .unknown
      · rw [if_pos hreq, if_pos hreq]
        exact ⟨by simp [callFor, slot, hmock, hconfig], rfl⟩
      · rw [if_neg hreq, if_neg hreq]
        exact ⟨hslot, rfl⟩
    | getVotingDecision u =>
      have hdecision : getVotingDecision now u s = getVotingDecision now u s' := by
        rw [getVotingDecision, getVotingDecision, votingDecision_congr (t := u) hslot]
      simp only [serve, step, Call.apply, hdecision]
      cases getVotingDecision now u s' with
      | none => exact ⟨hslot, rfl⟩
      | some d => exact ⟨hslot, rfl⟩

/-- What the contract stores, accepts and decides of some transactions, in any run, is what it would
without the calls for all others. -/
theorem contract_isolated (txs : List (ℕ × Call)) (ids : String → Bool) :
    let own := txs.filter fun tx => ids (callFor tx.2)
    (∀ t, ids t → slot t (run deployed txs) = slot t (run deployed own)) ∧
      (Sharding.outputs serve deployed txs).filter (fun p => ids (callFor p.1.2)) =
        Sharding.outputs serve deployed own := by
  intro own
  exact sharded.isolated (s := deployed) (fun _ _ => rfl) txs

end TwoPhaseCommit.ContractRuns
