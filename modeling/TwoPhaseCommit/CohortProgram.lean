import TwoPhaseCommit.CohortDeadlines
import TwoPhaseCommit.Lib.Programs

/-! ProcessTransaction as a program that calls the mutexes, its database adapter, the file system
and the blockchain, each of which may reply anything. -/
namespace TwoPhaseCommit.CohortServer
open Cohort Database Programs Programs.Program
open AdapterChain.Blockchain (Ballot VotingDecision)

inductive Call where
  | lockWhenWithDeadline (r : LockRequest) (deadline : ℤ)
  | begin
  | beginReadOnly
  | get (key : String)
  | put (key : String) (value : Int64)
  | commit
  | abort
  | writeResponse (path : String) (response : CommittedResponse)
  | writeRequest (path : String) (request : PrepareTransactionRequest)
  | vote (transactionId : String) (cohortIndex : UInt32) (ballot : Ballot)
  | getVotingDecision (transactionId : String)
  | unlock (r : LockRequest)

/-- What a call returns. Get sets its output value only when its status is OK. -/
abbrev Reply : Call → Type
  | .lockWhenWithDeadline _ _ => Bool
  | .begin => Status
  | .beginReadOnly => Status
  | .get _ => Status × Int64
  | .put _ _ => Status
  | .commit => Status
  | .abort => Status
  | .writeResponse _ _ => Bool
  | .writeRequest _ _ => Bool
  | .vote _ _ _ => Status
  | .getVotingDecision _ => Except Status VotingDecision
  | .unlock _ => Unit

abbrev Event := Programs.Event Reply

abbrev Process := Program Reply

/-- What a cohort server is built with, and the orders in which it walks the key sets. -/
structure Server where
  supportsConcurrentWrites : Bool
  dbTxnResponseDir : String
  orders : KeyOrders

def Server.locks (server : Server) (ops : List Operation) : List LockRequest :=
  dbLocks ⟨server.supportsConcurrentWrites, .okStatus⟩ server.orders ops

def lockAll (deadline : ℤ) : List LockRequest → Metadata → Process (Status × Metadata)
  | [], m => pure (.okStatus, m)
  | r :: rs, m => do
    let granted ← perform (Call.lockWhenWithDeadline r deadline)
    if granted then lockAll deadline rs (record m r) else pure (lockError r, m)

def acquireDbLocks (server : Server) (transaction : Transaction) (presumedAbortTime : ℤ)
    (m : Metadata) : Process (Status × Metadata) :=
  lockAll presumedAbortTime (server.locks transaction.ops) m

def putInDb (key : String) (value : Int64) (m : Metadata) : Process (Status × Metadata) := do
  let status ← perform (Call.put key value)
  pure (status, m)

def putRelative (p : Put) (found : Status × Int64) (m : Metadata) : Process (Status × Metadata) :=
  if found.1.code = .notFound ∧ (relativeValue p).defaultValue.isSome then
    putInDb p.key (relativeSum p (NumericValue.int64 (relativeValue p).defaultValue)) m
  else if found.1.isOk = false then pure (found.1, m)
  else putInDb p.key (relativeSum p found.2) m

def processOperationInDb (op : Operation) (m : Metadata) : Process (Status × Metadata) :=
  match op.type with
  | some (.get g) => do
    let found ← perform (Call.get g.key)
    if found.1.isOk = false then pure (found.1, m)
    else pure (.okStatus, m.addGetResponse ⟨op.namespace_, g, ⟨some found.2⟩⟩)
  | some (.put p) =>
    match p.value with
    | some (.constantValue c) => putInDb p.key c.int64 m
    | _ => do
      let found ← perform (Call.get p.key)
      putRelative p found m
  -- No-op.
  | none => pure (.okStatus, m)

def processOperations : List Operation → Metadata → Process (Status × Metadata)
  | [], m => pure (.okStatus, m)
  | op :: ops, m => do
    let result ← processOperationInDb op m
    if result.1.isOk = false then pure result else processOperations ops result.2

def begin (m : Metadata) : Process Status :=
  if m.writeLockKeys.isEmpty && !m.hasWholeDbWriteLock then perform Call.beginReadOnly
  else perform Call.begin

def processTransactionInDb (server : Server) (transaction : Transaction) (presumedAbortTime : ℤ)
    (m : Metadata) : Process (Status × Metadata) := do
  let locked ← acquireDbLocks server transaction presumedAbortTime m
  if locked.1.isOk = false then pure locked
  else
    let begun ← begin locked.2
    if begun.isOk = false then pure (begun, locked.2)
    else processOperations transaction.ops locked.2

def pollOr (transactionId : String) (again : Process (Option VotingDecision)) :
    Process (Option VotingDecision) := do
  let reply ← perform (Call.getVotingDecision transactionId)
  let decision := decisionOf reply.toOption
  if decision ≠ .pending ∧ decision ≠ .unknown then pure (some decision) else again

/-- Polls until a decision is there; none when the given number of further polls is used up. -/
def waitForBlockchainDecision (transactionId : String) : ℕ → Process (Option VotingDecision)
  | 0 => pollOr transactionId (pure none)
  | polls + 1 => pollOr transactionId (waitForBlockchainDecision transactionId polls)

def unlockAll : List LockRequest → Process Unit
  | [] => pure ()
  | r :: rs => do
    let _ ← perform (Call.unlock r)
    unlockAll rs

/-- The final response of a transaction. -/
def releaseLocksAndDeleteMetadata (m : Metadata) : Process GetTransactionResultResponse := do
  unlockAll (heldLocks m)
  pure m.response

/-- `unset` is what the local abort_reason reads as when it was not assigned. -/
def abortTransaction (unset : AbortReason) (transactionId : String) (cohortIndex : UInt32)
    (abortStatus : Option Status) (m : Metadata) : Process GetTransactionResultResponse :=
  match abortStatus with
  | some status => do
    let _ ← perform (Call.vote transactionId cohortIndex .abort)
    let _ ← perform Call.abort
    releaseLocksAndDeleteMetadata (abortDb m (abortReason status))
  | none => do
    let _ ← perform Call.abort
    releaseLocksAndDeleteMetadata (abortDb m unset)

def commitOr (m : Metadata) (again : Process (Option GetTransactionResultResponse)) :
    Process (Option GetTransactionResultResponse) := do
  let status ← perform Call.commit
  if status.isOk then
    let response ← releaseLocksAndDeleteMetadata (committedMetadata m)
    pure (some response)
  else again

/-- Commit is tried until it succeeds; none when the given number of retries is used up. -/
def commitTransaction (m : Metadata) : ℕ → Process (Option GetTransactionResultResponse)
  | 0 => commitOr m (pure none)
  | retries + 1 => commitOr m (commitTransaction m retries)

def responsePath (server : Server) (transactionId : String) : String :=
  server.dbTxnResponseDir ++ "/response_" ++ transactionId ++ ".binarypb"

def requestPath (server : Server) (transactionId : String) : String :=
  server.dbTxnResponseDir ++ "/request_" ++ transactionId ++ ".binarypb"

def persistTransaction (server : Server) (request : PrepareTransactionRequest) (m : Metadata) :
    Process Status := do
  let responseWritten ← perform
    (Call.writeResponse (responsePath server request.transactionId) m.response.committed)
  if responseWritten = false then pure responseNotWritten
  else
    let requestWritten ← perform (Call.writeRequest (requestPath server request.transactionId) request)
    if requestWritten = false then pure requestNotWritten else pure .okStatus

def followDecision (unset : AbortReason) (retries : ℕ) (request : PrepareTransactionRequest)
    (m : Metadata) : Process (Option GetTransactionResultResponse) := do
  let decision ← waitForBlockchainDecision request.transactionId retries
  match decision with
  | none => pure none
  | some .commit => commitTransaction m retries
  | some _ => do
    let response ← abortTransaction unset request.transactionId request.cohortIndex none m
    pure (some response)

def processTransaction (unset : AbortReason) (retries : ℕ) (server : Server)
    (request : PrepareTransactionRequest) : Process (Option GetTransactionResultResponse) := do
  let inDb ← processTransactionInDb server request.transaction (presumedAbortTime request)
    newMetadata
  if inDb.1.isOk = false then
    let response ← abortTransaction unset request.transactionId request.cohortIndex (some inDb.1)
      inDb.2
    pure (some response)
  else if request.onlyCohort then commitTransaction inDb.2 retries
  else
    let persisted ← persistTransaction server request inDb.2
    if persisted.isOk = false then
      let response ← abortTransaction unset request.transactionId request.cohortIndex
        (some persisted) inDb.2
      pure (some response)
    else
      let _ ← perform (Call.vote request.transactionId request.cohortIndex .commit)
      followDecision unset retries request inDb.2

theorem waitForBlockchainDecision_induction {P : Process (Option VotingDecision) → Prop}
    {id : String} (hstop : P (pure none)) (hround : ∀ again, P again → P (pollOr id again))
    (polls : ℕ) : P (waitForBlockchainDecision id polls) := by
  induction polls with
  | zero => exact hround _ hstop
  | succ polls ih => exact hround _ ih

theorem commitTransaction_induction {P : Process (Option GetTransactionResultResponse) → Prop}
    {m : Metadata} (hstop : P (pure none)) (hround : ∀ again, P again → P (commitOr m again))
    (retries : ℕ) : P (commitTransaction m retries) := by
  induction retries with
  | zero => exact hround _ hstop
  | succ retries ih => exact hround _ ih

section Makes
variable {good : Call → Prop}

theorem makes_lockAll (hlock : ∀ r deadline, good (.lockWhenWithDeadline r deadline))
    (deadline : ℤ) (rs : List LockRequest) (m : Metadata) :
    Makes good (lockAll deadline rs m) := by
  induction rs generalizing m with
  | nil => exact .pure _
  | cons r rs ih =>
    refine .perform (hlock r deadline) fun granted => ?_
    split_ifs
    · exact ih (record m r)
    · exact .pure _

theorem makes_begin (hbegin : good .begin) (hreadOnly : good .beginReadOnly) (m : Metadata) :
    Makes good (begin m) := by
  rw [begin]
  split_ifs
  · exact ⟨hreadOnly, fun _ => trivial⟩
  · exact ⟨hbegin, fun _ => trivial⟩

section Accesses
variable (hget : ∀ key, good (.get key)) (hput : ∀ key value, good (.put key value))
include hget hput

theorem makes_operation (op : Operation) (m : Metadata) :
    Makes good (processOperationInDb op m) := by
  have hwrite (key : String) (value : Int64) (m : Metadata) : Makes good (putInDb key value m) :=
    .perform (hput key value) fun _ => .pure _
  have hrelative (p : Put) (found : Status × Int64) : Makes good (putRelative p found m) := by
    rw [putRelative]
    split_ifs
    · exact hwrite _ _ m
    · exact .pure _
    · exact hwrite _ _ m
  obtain ⟨n, _ | g | ⟨key, _ | c | r⟩⟩ := op
  · exact .pure _
  · refine .perform (hget g.key) fun found => ?_
    split_ifs <;> exact .pure _
  · exact .perform (hget key) fun found => hrelative _ found
  · exact hwrite key c.int64 m
  · exact .perform (hget key) fun found => hrelative _ found

theorem makes_operations (ops : List Operation) (m : Metadata) :
    Makes good (processOperations ops m) := by
  induction ops generalizing m with
  | nil => exact .pure _
  | cons op ops ih =>
    refine (makes_operation hget hput op m).bind fun result => ?_
    split_ifs
    · exact .pure _
    · exact ih result.2

theorem makes_processTransactionInDb (hlock : ∀ r deadline, good (.lockWhenWithDeadline r deadline))
    (hbegin : good .begin) (hreadOnly : good .beginReadOnly) (server : Server)
    (transaction : Transaction) (deadline : ℤ) (m : Metadata) :
    Makes good (processTransactionInDb server transaction deadline m) := by
  refine (makes_lockAll hlock deadline _ m).bind fun locked => ?_
  split_ifs
  · exact .pure _
  · refine (makes_begin hbegin hreadOnly locked.2).bind fun begun => ?_
    split_ifs
    · exact .pure _
    · exact makes_operations hget hput transaction.ops locked.2

end Accesses

theorem makes_persistTransaction (hresponse : ∀ path response, good (.writeResponse path response))
    (hrequest : ∀ path request, good (.writeRequest path request)) (server : Server)
    (request : PrepareTransactionRequest) (m : Metadata) :
    Makes good (persistTransaction server request m) := by
  refine .perform (hresponse _ _) fun responseWritten => ?_
  split_ifs
  · exact .pure _
  · refine .perform (hrequest _ _) fun requestWritten => ?_
    split_ifs <;> exact .pure _

theorem makes_waitForBlockchainDecision {id : String} (hpoll : good (.getVotingDecision id))
    (polls : ℕ) : Makes good (waitForBlockchainDecision id polls) := by
  refine waitForBlockchainDecision_induction (.pure none) (fun again ha => ?_) polls
  refine .perform hpoll fun reply => ?_
  dsimp only
  split_ifs
  · exact .pure _
  · exact ha

section Release
variable (hunlock : ∀ r, good (.unlock r))
include hunlock

theorem makes_unlockAll (rs : List LockRequest) : Makes good (unlockAll rs) := by
  induction rs with
  | nil => exact .pure _
  | cons r rs ih => exact .perform (hunlock r) fun _ => ih

theorem makes_release (m : Metadata) : Makes good (releaseLocksAndDeleteMetadata m) :=
  (makes_unlockAll hunlock _).bind fun _ => .pure _

theorem makes_commitTransaction (hcommit : good .commit) (m : Metadata) (retries : ℕ) :
    Makes good (commitTransaction m retries) := by
  refine commitTransaction_induction (.pure none) (fun again ha => ?_) retries
  refine .perform hcommit fun status => ?_
  split_ifs
  · exact (makes_release hunlock _).bind fun _ => .pure _
  · exact ha

theorem makes_abortTransaction (hvote : ∀ id i ballot, good (.vote id i ballot))
    (habort : good .abort) (unset : AbortReason) (id : String) (i : UInt32)
    (status : Option Status) (m : Metadata) :
    Makes good (abortTransaction unset id i status m) := by
  have hrest (m : Metadata) : Makes good
      (perform Call.abort >>= fun _ => releaseLocksAndDeleteMetadata m) :=
    .perform habort fun _ => makes_release hunlock m
  cases status with
  | none => exact hrest _
  | some status => exact .perform (hvote id i .abort) fun _ => hrest _

end Release

end Makes

end TwoPhaseCommit.CohortServer
