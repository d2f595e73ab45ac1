import TwoPhaseCommit.AdapterChain
import TwoPhaseCommit.Clock
import TwoPhaseCommit.Split

/-! The handlers of the coordinator server. The calls a handler makes to the blockchain and to
the cohorts are listed in order; the replies it gets are arguments. -/
namespace TwoPhaseCommit.Coordinator
open Grouping
open AdapterChain.Blockchain (VotingDecision)

/-- What a coordinator is built with; `sha256` gives none when the library fails. -/
structure Server where
  sha256 : String → Option (Vector UInt8 32)
  defaultPresumedAbortDuration : ℤ
  sortCohortRequests : Bool

structure TransactionMetadata where
  config : TransactionConfig := ⟨none⟩
  cohortNamespaces : List Namespace := []
  singleCohortNamespace : Option Namespace := none
  possiblySentToAllCohorts : Bool := false
  decision : VotingDecision := .unknown
  cohortsAlreadyResponded : List String := []
  deriving DecidableEq

structure TransactionResponse where
  complete : Bool := false
  response : GetTransactionResultResponse := none
  deriving DecidableEq

structure State where
  metadataByTransaction : String → Option TransactionMetadata
  responseByTransaction : String → TransactionResponse

def initial : State := ⟨fun _ => none, fun _ => {}⟩

/-- The metadata of a transaction, made by `operator[]` when there is none. -/
def State.metadata (s : State) (id : String) : TransactionMetadata :=
  (s.metadataByTransaction id).getD {}

def State.setMetadata (s : State) (id : String) (m : TransactionMetadata) : State :=
  { s with metadataByTransaction := Function.update s.metadataByTransaction id (some m) }

def State.setResponse (s : State) (id : String) (r : GetTransactionResultResponse) : State :=
  let entry := { s.responseByTransaction id with response := r }
  { s with responseByTransaction := Function.update s.responseByTransaction id entry }

inductive Rpc where
  | startVoting (transactionId : String) (abortTime : ℤ) (numCohorts : ℕ)
  | prepareTransaction (namespace_ : Namespace) (request : Cohort.PrepareTransactionRequest)
  | getVotingDecision (transactionId : String)
  | getTransactionResult (namespace_ : Namespace) (transactionId : String)
  deriving DecidableEq

structure Outcome (ρ : Type) where
  state : State
  rpcs : List Rpc
  status : Status
  response : ρ

def requiresBlockchain (subTransactions : List SubTransaction) : Bool := 1 < subTransactions.length

def computeFinalConfig (clientConfig : TransactionConfig)
    (currentTime defaultTransactionDuration : ℤ) : Except Status TransactionConfig :=
  let presumedAbortTime :=
    match clientConfig.presumedAbortTime with
    | some ts => Clock.ofTimestamp (some ts)
    | none => Clock.add currentTime defaultTransactionDuration
  if presumedAbortTime < currentTime then
    .error ⟨.invalidArgument, "Presumed abort time is in the past"⟩
  else .ok ⟨some (Clock.toTimespec presumedAbortTime)⟩

def hexByte (b : UInt8) : List Char :=
  [Nat.digitChar (b.toNat / 16), Nat.digitChar (b.toNat % 16)]

def hexDigest (hashValue : Vector UInt8 32) : String :=
  String.ofList (hashValue.toList.flatMap hexByte)

def getTransactionId (sha256 : String → Option (Vector UInt8 32))
    (clientTransactionId clientAddress : String) : Except Status String :=
  match sha256 (clientTransactionId ++ "~" ++ clientAddress) with
  | none => .error ⟨.unknown, "Could not hash client transaction id and address"⟩
  | some hashValue => .ok (hexDigest hashValue)

/-- The sending loop from cohort index i on; the one request message is reused. -/
def prepareLoop (n : ℕ) : List SubTransaction → (i : ℕ) → Cohort.PrepareTransactionRequest →
    TransactionMetadata → TransactionMetadata × List Rpc
  | [], _, _, metadata => (metadata, [])
  | sub :: rest, i, request, metadata =>
    let request :=
      if n ≠ 1 then { request with participantInfo := some (.cohortIndex (UInt32.ofNat i)) }
      else request
    let request := { request with transaction := sub.transaction }
    let metadata :=
      { metadata with cohortNamespaces := metadata.cohortNamespaces ++ [sub.namespace_] }
    let metadata :=
      if i = n - 1 then { metadata with possiblySentToAllCohorts := true } else metadata
    let result := prepareLoop n rest (i + 1) request metadata
    (result.1, .prepareTransaction sub.namespace_ request :: result.2)

def sendCohortPrepareRequests (transactionId : String) (subTransactions : List SubTransaction)
    (s : State) : State × List Rpc :=
  let metadata := s.metadata transactionId
  let request : Cohort.PrepareTransactionRequest := ⟨transactionId, ⟨[]⟩, metadata.config, none⟩
  let result :=
    match subTransactions with
    | [sub] =>
      prepareLoop 1 [sub] 0 { request with participantInfo := some (.onlyCohort true) }
        { metadata with singleCohortNamespace := some sub.namespace_ }
    | _ => prepareLoop subTransactions.length subTransactions 0 request metadata
  (s.setMetadata transactionId result.1, result.2)

def startVoting (transactionId : String) (presumedAbortTime : Option Timestamp)
    (numCohorts : ℕ) : Rpc :=
  .startVoting transactionId (Clock.toTimeT (Clock.ofTimestamp presumedAbortTime)) numCohorts

/-- What a CommitAtomicTransaction call reads besides its request: the client's address, the
time, the order of the hash map in the splitting and the blockchain's reply to StartVoting. -/
structure CommitContext where
  peer : String
  now : ℤ
  order : IterationOrder (String × SubTransaction)
  blockchainStatus : Status

def commitAtomicTransaction (server : Server) (context : CommitContext)
    (request : CommitAtomicTransactionRequest) (s : State) :
    Outcome CommitAtomicTransactionResponse :=
  match getTransactionId server.sha256 request.clientTransactionId context.peer with
  | .error status =>
    ⟨s, [], status.withPrefix "Failed to create transaction id", ⟨"", ⟨none⟩⟩⟩
  | .ok transactionId =>
    let metadata := s.metadata transactionId
    let s := s.setMetadata transactionId metadata
    -- If it was already sent to all the cohorts, don't prepare the transaction again.
    if metadata.possiblySentToAllCohorts then
      ⟨s, [], .okStatus, ⟨transactionId, metadata.config⟩⟩
    else
      match computeFinalConfig request.config context.now server.defaultPresumedAbortDuration with
      | .error status =>
        ⟨s, [], status.withPrefix "Failed to compute config: ", ⟨transactionId, ⟨none⟩⟩⟩
      | .ok config =>
        let s := s.setMetadata transactionId { metadata with config := config }
        let subTransactions :=
          splitClientTransaction context.order request.transaction server.sortCohortRequests
        if subTransactions = [] then ⟨s, [], .okStatus, ⟨transactionId, config⟩⟩
        else if requiresBlockchain subTransactions then
          let call := startVoting transactionId config.presumedAbortTime subTransactions.length
          if context.blockchainStatus.isOk then
            let sent := sendCohortPrepareRequests transactionId subTransactions s
            ⟨sent.1, call :: sent.2, .okStatus, ⟨transactionId, config⟩⟩
          else
            ⟨s, [call],
              context.blockchainStatus.withPrefix "Failed to start voting in blockchain",
              ⟨transactionId, config⟩⟩
        else
          let sent := sendCohortPrepareRequests transactionId subTransactions s
          ⟨sent.1, sent.2, .okStatus, ⟨transactionId, config⟩⟩

def cleanUpTransactionMetadata (transactionId : String) (s : State) : State :=
  let entry := { s.responseByTransaction transactionId with complete := true }
  { responseByTransaction := Function.update s.responseByTransaction transactionId entry
    metadataByTransaction := Function.update s.metadataByTransaction transactionId none }

/-- `mutable_aborted_response()`: another case of the oneof gives way to an empty one. -/
def mutableAbortedResponse (r : GetTransactionResultResponse) : AbortedResponse :=
  match r with
  | some (.abortedResponse a) => a
  | _ => {}

def mutableCommittedResponse (r : GetTransactionResultResponse) : CommittedResponse :=
  match r with
  | some (.committedResponse c) => c
  | _ => {}

def addGetResponses (r : GetTransactionResultResponse) (c : TwoPhaseCommit.CommittedResponse) :
    CommittedResponse :=
  let committed := mutableCommittedResponse r
  { committed with response := ⟨committed.response.getResponses ++ c.getResponses⟩ }

/-- A cohort's reply to GetTransactionResult; the response counts when the status is OK. -/
abbrev CohortReply := Status × Cohort.GetTransactionResultResponse

def updateResponseForSingleCohortTransaction (transactionId : String) (namespace_ : Namespace)
    (reply : CohortReply) (s : State) : State × Status :=
  let response := (s.responseByTransaction transactionId).response
  if reply.1.isOk then
    match reply.2 with
    | some (.abortedResponse reason) =>
      let aborted := mutableAbortedResponse response
      (cleanUpTransactionMetadata transactionId (s.setResponse transactionId (some
        (.abortedResponse ⟨reason, aborted.namespaces ++ [namespace_]⟩))), .okStatus)
    | some (.committedResponse c) =>
      (cleanUpTransactionMetadata transactionId (s.setResponse transactionId (some
        (.committedResponse { addGetResponses response c with complete := true }))), .okStatus)
    | _ => (s.setResponse transactionId (some .pendingResponse), .okStatus)
  else (s, ⟨reply.1.code, "Failed to get cohort results: " ++ reply.1.message⟩)

def updateAbortedResponseFromCohorts (transactionId : String) (s : State) : State :=
  cleanUpTransactionMetadata transactionId (s.setResponse transactionId (some
    (.abortedResponse (mutableAbortedResponse (s.responseByTransaction transactionId).response))))

/-- What the loop over the cohorts of a committed transaction works on. -/
structure Collected where
  numCommittedResponses : ℕ
  response : GetTransactionResultResponse
  cohortsAlreadyResponded : List String

def Collected.add (c : Collected) (namespace_ : Namespace) (reply : CohortReply) : Collected :=
  match reply.1.isOk, reply.2 with
  | true, some (.committedResponse r) =>
    ⟨c.numCommittedResponses + 1, some (.committedResponse (addGetResponses c.response r)),
      namespace_.address :: c.cohortsAlreadyResponded⟩
  | _, _ => c

def collectLoop (transactionId : String) (reply : ℕ → CohortReply) :
    List Namespace → (i : ℕ) → Collected → Collected × List Rpc
  | [], _, c => (c, [])
  | namespace_ :: rest, i, c =>
    if namespace_.address ∈ c.cohortsAlreadyResponded then
      collectLoop transactionId reply rest (i + 1)
        { c with numCommittedResponses := c.numCommittedResponses + 1 }
    else
      let result := collectLoop transactionId reply rest (i + 1) (c.add namespace_ (reply i))
      (result.1, .getTransactionResult namespace_ transactionId :: result.2)

def updateCommittedResponseFromCohorts (transactionId : String) (reply : ℕ → CohortReply)
    (s : State) : State × List Rpc :=
  let metadata := s.metadata transactionId
  let response := (s.responseByTransaction transactionId).response
  let result := collectLoop transactionId reply metadata.cohortNamespaces 0
    ⟨0, response, metadata.cohortsAlreadyResponded⟩
  let s := (s.setResponse transactionId result.1.response).setMetadata transactionId
    { metadata with cohortsAlreadyResponded := result.1.cohortsAlreadyResponded }
  if result.1.numCommittedResponses = metadata.cohortNamespaces.length then
    (cleanUpTransactionMetadata transactionId (s.setResponse transactionId (some (.committedResponse
      { mutableCommittedResponse result.1.response with complete := true }))), result.2)
  else (s, result.2)

/-- The replies a GetTransactionResult call may get: the blockchain's and, by its position
among the transaction's cohorts, each cohort's. -/
structure Replies where
  votingDecision : Except Status VotingDecision
  transactionResult : ℕ → CohortReply

def respondToDecision (transactionId : String) (reply : ℕ → CohortReply)
    (decision : VotingDecision) (s : State) : Outcome GetTransactionResultResponse :=
  match decision with
  | .unknown | .pending => ⟨s, [], .okStatus, some .pendingResponse⟩
  | .abort =>
    let s := updateAbortedResponseFromCohorts transactionId s
    ⟨s, [], .okStatus, (s.responseByTransaction transactionId).response⟩
  | .commit =>
    let updated := updateCommittedResponseFromCohorts transactionId reply s
    ⟨updated.1, updated.2, .okStatus, (updated.1.responseByTransaction transactionId).response⟩

def getTransactionResult (replies : Replies) (transactionId : String) (s : State) :
    Outcome GetTransactionResultResponse :=
  if (s.responseByTransaction transactionId).complete then
    ⟨s, [], .okStatus, (s.responseByTransaction transactionId).response⟩
  else
    match s.metadataByTransaction transactionId with
    | none => ⟨s, [], ⟨.notFound, "Could not find transaction"⟩, none⟩
    | some metadata =>
      match metadata.singleCohortNamespace with
      | some namespace_ =>
        let call := Rpc.getTransactionResult namespace_ transactionId
        let updated := updateResponseForSingleCohortTransaction transactionId namespace_
          (replies.transactionResult 0) s
        if updated.2.isOk then
          ⟨updated.1, [call], updated.2, (updated.1.responseByTransaction transactionId).response⟩
        else ⟨updated.1, [call], updated.2, none⟩
      | none =>
        if metadata.decision = .pending ∨ metadata.decision = .unknown then
          let call := Rpc.getVotingDecision transactionId
          match replies.votingDecision with
          | .error status =>
            ⟨s, [call], status.withPrefix "Failed to get blockchain decision", none⟩
          | .ok decision =>
            let o := respondToDecision transactionId replies.transactionResult decision
              (s.setMetadata transactionId { metadata with decision := decision })
            { o with rpcs := call :: o.rpcs }
        else
          respondToDecision transactionId replies.transactionResult metadata.decision s

@[simp] theorem State.metadata_setMetadata (s : State) (id : String) (m : TransactionMetadata) :
    (s.setMetadata id m).metadataByTransaction = Function.update s.metadataByTransaction id (some m) :=
  rfl

@[simp] theorem State.response_setMetadata (s : State) (id : String) (m : TransactionMetadata) :
    (s.setMetadata id m).responseByTransaction = s.responseByTransaction := rfl

@[simp] theorem State.metadata_setResponse (s : State) (id : String)
    (r : GetTransactionResultResponse) :
    (s.setResponse id r).metadataByTransaction = s.metadataByTransaction := rfl

@[simp] theorem State.setMetadata_setMetadata (s : State) (id : String)
    (m m' : TransactionMetadata) : (s.setMetadata id m).setMetadata id m' = s.setMetadata id m' := by
  simp [State.setMetadata]

@[simp] theorem State.metadata_setMetadata_self (s : State) (id : String)
    (m : TransactionMetadata) : (s.setMetadata id m).metadata id = m := by
  simp [State.metadata]

def prepareRequest (id : String) (config : TransactionConfig) (n : ℕ) (sub : SubTransaction)
    (i : ℕ) : Rpc :=
  .prepareTransaction sub.namespace_ ⟨id, sub.transaction, config,
    some (if n = 1 then .onlyCohort true else .cohortIndex (UInt32.ofNat i))⟩

def prepareRequests (id : String) (config : TransactionConfig) (subs : List SubTransaction) :
    List Rpc :=
  subs.zipIdx.map fun p => prepareRequest id config subs.length p.1 p.2

def TransactionMetadata.sent (m : TransactionMetadata) (subs : List SubTransaction) :
    TransactionMetadata :=
  { m with
    cohortNamespaces := m.cohortNamespaces ++ subs.map SubTransaction.namespace_
    singleCohortNamespace :=
      match subs with
      | [sub] => some sub.namespace_
      | _ => m.singleCohortNamespace
    possiblySentToAllCohorts := true }

theorem prepareLoop_eq (n : ℕ) (subs : List SubTransaction) (i : ℕ) (hi : i + subs.length = n)
    (hsubs : subs ≠ []) (request : Cohort.PrepareTransactionRequest) (m : TransactionMetadata) :
    prepareLoop n subs i request m =
      ({ m with
          cohortNamespaces := m.cohortNamespaces ++ subs.map SubTransaction.namespace_
          possiblySentToAllCohorts := true },
        (subs.zipIdx i).map fun p => .prepareTransaction p.1.namespace_
          { request with
            transaction := p.1.transaction
            participantInfo := if n ≠ 1 then some (.cohortIndex (UInt32.ofNat p.2))
              else request.participantInfo }) := by
  induction subs generalizing i request m with
  | nil => exact absurd rfl hsubs
  | cons sub rest ih =>
    rw [List.length_cons] at hi
    rw [prepareLoop]
    cases rest with
    | nil =>
      have hlast : i = n - 1 := by
        simp only [List.length_nil] at hi
        omega
      by_cases hn : n = 1 <;> simp [prepareLoop, hlast, hn]
    | cons sub' rest =>
      have hlen : 0 < (sub' :: rest).length := by simp
      have hlast : i ≠ n - 1 := by omega
      have hn : n ≠ 1 := by omega
      rw [ih (i + 1) (by omega) (by simp)]
      simp [hlast, hn]

theorem sendCohortPrepareRequests_eq (id : String) {subs : List SubTransaction} (h : subs ≠ [])
    (s : State) :
    sendCohortPrepareRequests id subs s =
      (s.setMetadata id ((s.metadata id).sent subs),
        prepareRequests id (s.metadata id).config subs) := by
  unfold sendCohortPrepareRequests prepareRequests
  change (s.setMetadata id (Prod.fst _), Prod.snd _) = _
  cases subs with
  | nil => exact absurd rfl h
  | cons sub rest =>
    cases rest with
    | nil =>
      simp [prepareLoop_eq, prepareRequest, TransactionMetadata.sent, State.metadata]
    | cons sub' rest =>
      simp [prepareLoop_eq, prepareRequest, TransactionMetadata.sent, State.metadata]

end TwoPhaseCommit.Coordinator
