import Mathlib.Data.List.Dedup
import TwoPhaseCommit.CoordinatorRuns

/-! The messages of a transaction that is sent for the first time, and the vote they lead to. -/
namespace TwoPhaseCommit.Coordinator
open Grouping
open Contract (State.transactionConfigs)
open ContractRuns (accepted isStart lastVote)

def addresses (ops : List Operation) : List String := (ops.map Operation.address).dedup

def Rpc.message : Rpc → Option (Namespace × Cohort.PrepareTransactionRequest)
  | .prepareTransaction n request => some (n, request)
  | _ => none

def messages (rpcs : List Rpc) : List (Namespace × Cohort.PrepareTransactionRequest) :=
  rpcs.filterMap Rpc.message

/-- COMMIT is reached on the chain, once startVoting has been accepted, exactly when each cohort
that is sent a request votes COMMIT last under the index in its request. -/
def UnanimousVote (id : String) (abortTime : ℤ) (n : ℕ)
    (ms : List (Namespace × Cohort.PrepareTransactionRequest)) : Prop :=
  ∀ s s' now, BallotTable.WellFormed s →
    AdapterChain.startVoting now id abortTime (UInt32.ofNat n) s = some s' →
    ∀ txs, (∀ tx ∈ accepted s' txs, ¬isStart id tx) → ∀ now',
      AdapterChain.getVotingDecision now' id (Contract.run s' txs) = some .commit ↔
        ∀ m ∈ ms, lastVote id m.2.cohortIndex.toNat (accepted s' txs) = some .commit

/-- The calls of one submission agree with each other, with its response and with the vote. -/
structure ConsistentMessages (ops : List Operation) (response : CommitAtomicTransactionResponse)
    (blockchainStatus : Status) (rpcs : List Rpc) (metadata : TransactionMetadata) : Prop where
  addressed : ((messages rpcs).map fun m => m.1.address).Perm (addresses ops)
  contents : ∀ m ∈ messages rpcs, m.2.transaction.ops = opsAt m.1.address ops
  identified : ∀ m ∈ messages rpcs,
    m.2.transactionId = response.globalTransactionId ∧ m.2.config = response.config
  single : (addresses ops).length = 1 → (∀ rpc ∈ rpcs, rpc.started = none) ∧
    ∀ m ∈ messages rpcs, m.2.participantInfo = some (.onlyCohort true)
  voting : 1 < (addresses ops).length → blockchainStatus.isOk ∧ ∃ sends,
    rpcs = .startVoting response.globalTransactionId
      (Clock.ofTimestamp response.config.presumedAbortTime / Clock.ticksPerSecond)
      (addresses ops).length :: sends ∧ ∀ rpc ∈ sends, rpc.started = none
  indices : 1 < (addresses ops).length →
    ((messages rpcs).map fun m => m.2.cohortIndex.toNat) = List.range (addresses ops).length ∧
    ∀ m ∈ messages rpcs, m.2.participantInfo = some (.cohortIndex m.2.cohortIndex)
  unanimous : 1 < (addresses ops).length → UnanimousVote response.globalTransactionId
    (Clock.ofTimestamp response.config.presumedAbortTime / Clock.ticksPerSecond)
    (addresses ops).length (messages rpcs)
  recorded : metadata.cohortNamespaces = (messages rpcs).map Prod.fst

theorem addresses_split_perm (order : IterationOrder (String × SubTransaction))
    (txn : Transaction) (sort : Bool) :
    ((splitClientTransaction order txn sort).map SubTransaction.address).Perm
      (addresses txn.ops) := by
  refine (List.perm_ext_iff_of_nodup (nodup_addresses order txn sort) (List.nodup_dedup _)).mpr ?_
  intro a
  rw [mem_addresses_split, List.mem_dedup, List.mem_map]

def message (id : String) (config : TransactionConfig) (n : ℕ) (sub : SubTransaction) (i : ℕ) :
    Namespace × Cohort.PrepareTransactionRequest :=
  (sub.namespace_, ⟨id, sub.transaction, config,
    some (if n = 1 then .onlyCohort true else .cohortIndex (UInt32.ofNat i))⟩)

theorem messages_submissionRpcs (id : String) (config : TransactionConfig)
    (subs : List SubTransaction) :
    messages (submissionRpcs id config subs true) =
      subs.zipIdx.map fun p => message id config subs.length p.1 p.2 := by
  have hf : (Rpc.message ∘ fun p : SubTransaction × ℕ =>
      prepareRequest id config subs.length p.1 p.2) =
        some ∘ fun p => message id config subs.length p.1 p.2 := rfl
  have hstart : (if 1 < subs.length then [startVoting id config.presumedAbortTime subs.length]
      else []).filterMap Rpc.message = [] := by
    split_ifs <;> rfl
  rw [messages, submissionRpcs, List.filterMap_append, hstart, List.nil_append, if_pos rfl,
    prepareRequests, List.filterMap_map, hf, List.filterMap_eq_map]

theorem map_messages {β : Type} (id : String) (config : TransactionConfig)
    (subs : List SubTransaction) (f : Namespace × Cohort.PrepareTransactionRequest → β)
    (g : SubTransaction → β) (h : ∀ n sub i, f (message id config n sub i) = g sub) :
    (messages (submissionRpcs id config subs true)).map f = subs.map g := by
  rw [messages_submissionRpcs, List.map_map]
  have hfg : (f ∘ fun p : SubTransaction × ℕ => message id config subs.length p.1 p.2) =
      g ∘ Prod.fst := by
    funext p
    exact h subs.length p.1 p.2
  rw [hfg, ← List.map_map, List.zipIdx_map_fst]

theorem mem_messages {id : String} {config : TransactionConfig} {subs : List SubTransaction}
    {m : Namespace × Cohort.PrepareTransactionRequest}
    (h : m ∈ messages (submissionRpcs id config subs true)) :
    ∃ sub ∈ subs, ∃ i < subs.length, m = message id config subs.length sub i := by
  rw [messages_submissionRpcs] at h
  obtain ⟨⟨sub, i⟩, hp, rfl⟩ := List.mem_map.mp h
  have hi := List.snd_lt_of_mem_zipIdx hp
  exact ⟨sub, List.fst_mem_of_mem_zipIdx hp, i, by simpa using hi, rfl⟩

theorem indices_messages (id : String) (config : TransactionConfig) {subs : List SubTransaction}
    (hmany : 1 < subs.length) (hsmall : subs.length < 2 ^ 31) :
    (messages (submissionRpcs id config subs true)).map (fun m => m.2.cohortIndex.toNat) =
      List.range subs.length := by
  have hone : subs.length ≠ 1 := by omega
  have hidx : ∀ p ∈ subs.zipIdx,
      (message id config subs.length p.1 p.2).2.cohortIndex.toNat = p.2 := by
    intro p hp
    have hi : p.2 < subs.length := by simpa using List.snd_lt_of_mem_zipIdx hp
    simp only [message, if_neg hone, Cohort.PrepareTransactionRequest.cohortIndex]
    exact UInt32.toNat_ofNat_of_lt' (by simp only [UInt32.size]; omega)
  rw [messages_submissionRpcs, List.map_map, List.range_eq_range', ← List.zipIdx_map_snd]
  exact List.map_congr_left hidx

theorem computeFinalConfig_ok {clientConfig config : TransactionConfig} {now d : ℤ}
    (h : computeFinalConfig clientConfig now d = .ok config) :
    ∃ t, now ≤ t ∧ config = ⟨some (Clock.toTimespec t)⟩ := by
  unfold computeFinalConfig at h
  dsimp only at h
  split_ifs at h with hpast
  exact ⟨_, not_lt.mp hpast, (Except.ok.inj h).symm⟩

section Submission
variable {server : Server} {context : CommitContext} {request : CommitAtomicTransactionRequest}
  {s : State} {id : String} {config : TransactionConfig} {subs : List SubTransaction}

theorem Submission.addresses_perm (h : Submission server context request s id config subs) :
    (subs.map SubTransaction.address).Perm (addresses request.transaction.ops) := by
  rw [h.subs_eq]
  exact addresses_split_perm _ _ _

theorem Submission.length_eq (h : Submission server context request s id config subs) :
    subs.length = (addresses request.transaction.ops).length := by
  rw [← List.length_map SubTransaction.address]
  exact h.addresses_perm.length_eq

theorem Submission.ops_eq (h : Submission server context request s id config subs)
    {sub : SubTransaction} (hsub : sub ∈ subs) :
    sub.transaction.ops = opsAt sub.address request.transaction.ops := by
  rw [h.subs_eq] at hsub
  exact (ops_of_mem_split hsub).1

theorem Submission.abortTime_eq (h : Submission server context request s id config subs) :
    Clock.toTimeT (Clock.ofTimestamp config.presumedAbortTime) =
      Clock.ofTimestamp config.presumedAbortTime / Clock.ticksPerSecond := by
  obtain ⟨t, _, hconfig⟩ := computeFinalConfig_ok h.config_eq
  rw [hconfig, Clock.toTimeT_toTimespec, Clock.floor_toTimespec]

end Submission

theorem length_addresses_le (ops : List Operation) : (addresses ops).length ≤ ops.length := by
  rw [← List.length_map Operation.address]
  exact (List.dedup_sublist _).length_le

theorem getTransactionId_error {sha256 : String → Option (Vector UInt8 32)}
    {clientTransactionId clientAddress : String} {status : Status}
    (h : getTransactionId sha256 clientTransactionId clientAddress = .error status) :
    status.code = .unknown := by
  unfold getTransactionId at h
  split at h
  · rw [← Except.error.inj h]
  · cases h

theorem getVotingDecision_commit_iff (now : ℕ) (id : String) (s : Contract.State) :
    AdapterChain.getVotingDecision now id s = some .commit ↔
      ∃ d, Contract.votingDecision now id s = some d ∧ d.option = .commit := by
  rw [AdapterChain.getVotingDecision, AdapterChain.adapterGetVotingDecision_eq]
  cases Contract.votingDecision now id s with
  | none => simp
  | some d =>
    obtain ⟨option, reason⟩ := d
    cases option <;> simp [AdapterChain.decodeOption]

theorem unanimousVote (id : String) (config : TransactionConfig) {subs : List SubTransaction}
    (abortTime : ℤ) (hmany : 1 < subs.length) (hsmall : subs.length < 2 ^ 31) :
    UnanimousVote id abortTime subs.length (messages (submissionRpcs id config subs true)) := by
  intro s s' now hs hstart txs hno now'
  have hn : (UInt32.ofNat subs.length).toNat = subs.length :=
    UInt32.toNat_ofNat_of_lt' (by simp only [UInt32.size]; omega)
  unfold AdapterChain.startVoting at hstart
  rw [hn] at hstart
  split_ifs at hstart
  rw [getVotingDecision_commit_iff, ContractRuns.commit_iff_lastVotes hs hstart hno now']
  have hrange := indices_messages id config hmany hsmall
  constructor
  · intro h m hm
    refine h m.2.cohortIndex.toNat (List.mem_range.mp ?_)
    rw [← hrange]
    exact List.mem_map_of_mem hm
  · intro h i hi
    rw [← List.mem_range, ← hrange] at hi
    obtain ⟨m, hm, rfl⟩ := List.mem_map.mp hi
    exact h m hm

theorem split_ne_nil (order : IterationOrder (String × SubTransaction)) {txn : Transaction}
    (h : txn.ops ≠ []) (sort : Bool) : splitClientTransaction order txn sort ≠ [] := by
  obtain ⟨op, hop⟩ := List.exists_mem_of_ne_nil txn.ops h
  intro hnil
  have ha := (mem_addresses_split order txn sort op.address).mpr ⟨op, hop, rfl⟩
  rw [hnil] at ha
  cases ha

theorem submission_of_ok {server : Server} {context : CommitContext}
    {request : CommitAtomicTransactionRequest} {s : State} (hops : request.transaction.ops ≠ [])
    (hok : (commitAtomicTransaction server context request s).status.isOk)
    (hunsent : (s.metadata (commitAtomicTransaction server context request
      s).response.globalTransactionId).possiblySentToAllCohorts = false) :
    ∃ id config subs, Submission server context request s id config subs := by
  cases hid : getTransactionId server.sha256 request.clientTransactionId context.peer with
  | error status =>
    have hcode := getTransactionId_error hid
    simp [commitAtomicTransaction, hid, Status.isOk, Status.withPrefix, hcode] at hok
  | ok id =>
    cases hsend : toSend server context request s with
    | some sent => exact ⟨sent.1, sent.2.1, sent.2.2, toSend_eq_some_iff.mp hsend⟩
    | none =>
      obtain ⟨_, hresponse, ⟨hsent, _⟩ | ⟨_, hfail, _⟩ | ⟨_, _, hnil, _⟩⟩ :=
        commit_none_cases hid hsend
      · rw [hresponse, hsent] at hunsent
        cases hunsent
      · rw [hfail] at hok
        cases hok
      · exact absurd hnil (split_ne_nil _ hops _)

/-- The messages of an accepted transaction that is sent for the first time are consistent with
each other, with the answer to the client and with the vote. -/
theorem first_submission_consistent (server : Server) (calls : List Call)
    (context : CommitContext) (request : CommitAtomicTransactionRequest)
    (hops : request.transaction.ops ≠ [])
    (hsmall : (addresses request.transaction.ops).length < 2 ^ 31)
    (hok : (commitAtomicTransaction server context request (run server calls).1).status.isOk)
    (hfirst : ∀ a, ((commitAtomicTransaction server context request
      (run server calls).1).response.globalTransactionId, a) ∉ prepared (run server calls).2) :
    let o := commitAtomicTransaction server context request (run server calls).1
    ConsistentMessages request.transaction.ops o.response context.blockchainStatus o.rpcs
      (o.state.metadata o.response.globalTransactionId) := by
  intro o
  have hunsent (id : String) (h : ∀ a, (id, a) ∉ prepared (run server calls).2) :
      ((run server calls).1.metadata id).possiblySentToAllCohorts = false := by
    rw [← Bool.not_eq_true]
    intro hf
    obtain ⟨a, ha⟩ := (recorded_run server calls id).sent hf
    exact h a ha
  obtain ⟨id, config, subs, hsub⟩ := submission_of_ok hops hok (hunsent _ hfirst)
  obtain ⟨hresp, ⟨_, hb, _, hcode, _⟩ | ⟨hstatus, hrpcs, _, hst⟩⟩ := hsub.outcome
  · have hne : o.status.isOk = false := by
      rw [Status.isOk, hcode]
      exact hb
    rw [hne] at hok
    cases hok
  have hmsgs : o.rpcs = submissionRpcs id config subs true := hrpcs
  have hfresh := ((recorded_run server calls id).unsent hsub.unsent).1
  have hmeta : (o.state.metadata id).cohortNamespaces = subs.map SubTransaction.namespace_ := by
    have hst' : (o.state.metadata id).cohortNamespaces =
        ((run server calls).1.metadata id).cohortNamespaces ++ subs.map SubTransaction.namespace_ := by
      simp only [o, hst, State.metadata_setMetadata_self]
      rfl
    rw [hst', hfresh, List.nil_append]
  have hresp' : o.response = ⟨id, config⟩ := hresp
  rw [hmsgs, hresp']
  rw [← hsub.length_eq] at hsmall
  refine {
    addressed := ?_
    contents := ?_
    identified := ?_
    single := ?_
    voting := ?_
    indices := ?_
    unanimous := ?_
    recorded := ?_ }
  · have hmap := map_messages id config subs (fun m => m.1.address) SubTransaction.address
      fun _ _ _ => rfl
    rw [hmap]
    exact hsub.addresses_perm
  · intro m hm
    obtain ⟨sub, hmem, i, _, rfl⟩ := mem_messages hm
    exact hsub.ops_eq hmem
  · intro m hm
    obtain ⟨sub, _, i, _, rfl⟩ := mem_messages hm
    exact ⟨rfl, rfl⟩
  · intro hone
    rw [← hsub.length_eq] at hone
    refine ⟨?_, ?_⟩
    · intro rpc hrpc
      exact (mem_submissionRpcs hrpc).resolve_right fun h => by omega
    · intro m hm
      obtain ⟨sub, _, i, _, rfl⟩ := mem_messages hm
      simp [message, hone]
  · intro hmany
    rw [← hsub.length_eq] at hmany ⊢
    refine ⟨hstatus hmany, prepareRequests id config subs, ?_, fun rpc => started_prepareRequests⟩
    rw [← hsub.abortTime_eq, submissionRpcs, if_pos hmany, if_pos rfl]
    rfl
  · intro hmany
    rw [← hsub.length_eq] at hmany ⊢
    refine ⟨indices_messages id config hmany hsmall, ?_⟩
    intro m hm
    obtain ⟨sub, _, i, _, rfl⟩ := mem_messages hm
    have hone : subs.length ≠ 1 := by omega
    simp [message, hone, Cohort.PrepareTransactionRequest.cohortIndex]
  · intro hmany
    rw [← hsub.length_eq] at hmany ⊢
    exact unanimousVote id config _ hmany hsmall
  · rw [hmeta]
    exact (map_messages id config subs Prod.fst SubTransaction.namespace_ fun _ _ _ => rfl).symm

/-- Two increments at different cohorts are sent consistently by a coordinator that has just
started. -/
theorem first_submission_consistent_two :
    let o := commitAtomicTransaction localServer localContext
      ⟨"id", ⟨[incrementOp "cohort:50052", incrementOp "cohort:50053"]⟩, ⟨none⟩⟩ initial
    ConsistentMessages [incrementOp "cohort:50052", incrementOp "cohort:50053"] o.response .okStatus
      o.rpcs (o.state.metadata o.response.globalTransactionId) :=
  first_submission_consistent localServer [] localContext
    ⟨"id", ⟨[incrementOp "cohort:50052", incrementOp "cohort:50053"]⟩, ⟨none⟩⟩
    (by decide) (by decide) (by decide) fun _ h => by cases h

end TwoPhaseCommit.Coordinator
