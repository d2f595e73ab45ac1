import TwoPhaseCommit.Lib.Grouping
import TwoPhaseCommit.Lib.Locks
import TwoPhaseCommit.Lib.Runs
import TwoPhaseCommit.AdapterChain
import TwoPhaseCommit.Database

/-! The cohort server: any number of threads, each one run of ProcessTransaction, and the steps
they take in any order. A step is one call that other threads or parties can see: a lock, a
database call, a file, a message. -/
namespace TwoPhaseCommit.Cohort
open Database Grouping Locks
open AdapterChain.Blockchain (Ballot VotingDecision)

inductive LockName where
  | wholeDb
  | key (key : String)
  deriving DecidableEq, Repr

abbrev LockRequest := Locks.Request LockName

/-- The database adapter of a cohort: whether it takes concurrent writes, and what its Get
returns for an absent key. -/
structure Adapter where
  supportsConcurrentWrites : Bool
  absent : Status

def Adapter.access (c : Adapter) : Access String := Access.cohort c.absent

def isPut (op : Operation) : Bool :=
  match op.type with
  | some (.put _) => true
  | _ => false

def isGet (op : Operation) : Bool :=
  match op.type with
  | some (.get _) => true
  | _ => false

def wholeDbLocks (ops : List Operation) : List LockRequest :=
  if ops.any isPut then [⟨.wholeDb, .write⟩]
  else if ops.any isGet then [⟨.wholeDb, .read⟩]
  else []

/-- The sets `readonly_keys` and `write_and_readwrite_keys`. -/
structure KeySets where
  readonlyKeys : List String
  writeKeys : List String

def KeySets.add (sets : KeySets) (op : Operation) : KeySets :=
  match op.type with
  | some (.put p) => ⟨sets.readonlyKeys.erase p.key, sets.writeKeys.insert p.key⟩
  | some (.get g) =>
    if g.key ∈ sets.writeKeys then sets else { sets with readonlyKeys := sets.readonlyKeys.insert g.key }
  | none => sets

def keySets (ops : List Operation) : KeySets := ops.foldl KeySets.add ⟨[], []⟩

structure KeyOrders where
  read : IterationOrder String
  write : IterationOrder String

/-- The locks that AcquireDbLocks takes, in order. -/
def dbLocks (c : Adapter) (orders : KeyOrders) (ops : List Operation) : List LockRequest :=
  if c.supportsConcurrentWrites then
    let sets := keySets ops
    (orders.read.arrange sets.readonlyKeys).map (fun k => ⟨.key k, .read⟩) ++
      (orders.write.arrange sets.writeKeys).map fun k => ⟨.key k, .write⟩
  else wholeDbLocks ops

def lockError (r : LockRequest) : Status :=
  ⟨.deadlineExceeded,
    match r.name, r.mode with
    | .wholeDb, .write =>
      "Could not acquire write lock for the DB before the abort deadline"
    | .wholeDb, .read => "Could not acquire read lock for the DB before the abort deadline"
    | .key k, .read => "Could not acquire read lock for " ++ k ++ " before the abort deadline"
    | .key k, .write => "Could not acquire write lock for " ++ k ++ " before the abort deadline"⟩

abbrev Metadata := Database.TransactionMetadata String

def record (m : Metadata) (r : LockRequest) : Metadata :=
  match r.name, r.mode with
  | .wholeDb, .write => { m with hasWholeDbWriteLock := true }
  | .wholeDb, .read => { m with hasWholeDbReadLock := true }
  | .key k, .read => { m with readLockKeys := m.readLockKeys ++ [k] }
  | .key k, .write => { m with writeLockKeys := m.writeLockKeys ++ [k] }

def wholeDbLock (mode : Locks.Mode) (held : Bool) : List LockRequest :=
  if held then [⟨.wholeDb, mode⟩] else []

/-- The noted locks in the order ReleaseLocksAndDeleteMetadata gives them back. -/
def heldLocks (m : Metadata) : List LockRequest :=
  m.writeLockKeys.map (fun k => ⟨.key k, .write⟩) ++
    m.readLockKeys.map (fun k => ⟨.key k, .read⟩) ++
    wholeDbLock .write m.hasWholeDbWriteLock ++ wholeDbLock .read m.hasWholeDbReadLock

/-- BeginReadOnly when no write lock is held, else Begin. -/
def beginDb (m : Metadata) : Metadata :=
  { m with db := some ⟨m.writeLockKeys.isEmpty && !m.hasWholeDbWriteLock, fun _ => none⟩ }

/-- Where a thread is in ProcessTransaction. -/
inductive Phase where
  | locking (todo : List LockRequest)
  | running (todo : List Operation)
  -- Between the Get and the Put of a relative put.
  | putting (key : String) (value : Int64) (todo : List Operation)
  | persistingResponse
  | persistingRequest
  | voting
  | waiting
  | committing
  -- AbortTransaction with a status votes first.
  | votingAbort (status : Status)
  | aborting (abortStatus : Option Status) (reason : AbortReason)
  | releasing (todo : List LockRequest)
  | finished

structure Thread where
  request : PrepareTransactionRequest
  metadata : Metadata
  phase : Phase

def newMetadata : Metadata := ⟨some .pendingResponse, none, false, false, [], []⟩

def newThread (c : Adapter) (orders : KeyOrders) (request : PrepareTransactionRequest) : Thread :=
  ⟨request, newMetadata, .locking (dbLocks c orders request.transaction.ops)⟩

def readsDb (op : Operation) : Bool :=
  match op.type with
  | some (.get _) => true
  | some (.put p) =>
    match p.value with
    | some (.constantValue _) => false
    | _ => true
  | none => false

/-- A failure of the database itself. A Get reports an absent key only when the key is absent. -/
def Fault (op : Operation) (status : Status) : Prop :=
  status.isOk = false ∧ (readsDb op → status.code ≠ .notFound)

def orFault {α : Type} (fault : Option Status) (r : Except Status α) : Except Status α :=
  match fault with
  | some status => .error status
  | none => r

/-- The first database call of an operation. -/
def operate (acc : Access String) (store : Store String) (fault : Option Status) (op : Operation)
    (rest : List Operation) (m : Metadata) : Metadata × Phase :=
  match op.type with
  | some (.get g) =>
    match orFault fault (dbGet acc store m g.key) with
    | .ok value => (m.addGetResponse ⟨op.namespace_, g, ⟨some value⟩⟩, .running rest)
    | .error status => (m, .votingAbort status)
  | some (.put p) =>
    match p.value with
    | some (.constantValue v) =>
      match orFault fault (dbPut m p.key v.int64) with
      | .ok m' => (m', .running rest)
      | .error status => (m, .votingAbort status)
    | _ =>
      match orFault fault (relativeBase acc store op.namespace_ p m) with
      | .ok value => (m, .putting p.key (relativeSum p value) rest)
      | .error status => (m, .votingAbort status)
  | none => (m, .running rest)

/-- The second database call of a relative put. -/
def finishPut (fault : Option Status) (key : String) (value : Int64) (rest : List Operation)
    (m : Metadata) : Metadata × Phase :=
  match orFault fault (dbPut m key value) with
  | .ok m' => (m', .running rest)
  | .error status => (m, .votingAbort status)

def responseNotWritten : Status := ⟨.internal, "Failed to write transaction responses to disk."⟩

def requestNotWritten : Status := ⟨.internal, "Failed to write transaction request to disk."⟩

def abortReason (status : Status) : AbortReason :=
  match status.code with
  | .deadlineExceeded => .presumedAbortTimestampReached
  | .notFound => .operationForNonExistentValue
  | _ => .unspecified

def abortDb (m : Metadata) (reason : AbortReason) : Metadata :=
  { m with response := some (.abortedResponse reason), db := none }

/-- The response after Commit, also when nothing was read. -/
def committedMetadata (m : Metadata) : Metadata :=
  { m with response := some (.committedResponse m.response.committed), db := none }

/-- What a poll that gets no answer counts as. -/
def decisionOf (reply : Option VotingDecision) : VotingDecision := reply.getD .pending

structure State where
  threads : String → Option Thread
  mutexes : Table LockName String
  store : Store String
  finalResponses : String → Option GetTransactionResultResponse

def initial (store : Store String) : State := ⟨fun _ => none, Table.free, store, fun _ => none⟩

def State.set (s : State) (id : String) (t : Thread) : State :=
  { s with threads := Function.update s.threads id (some t) }

def State.setFinalResponse (s : State) (id : String) (r : GetTransactionResultResponse) : State :=
  { s with finalResponses := Function.update s.finalResponses id (some r) }

def getTransactionResult (s : State) (id : String) : GetTransactionResultResponse :=
  (s.finalResponses id).getD (some .pendingResponse)

inductive Action where
  | start (request : PrepareTransactionRequest)
  | lock (conditionHolds : Bool)
  | begin (fault : Option Status)
  | operate (fault : Option Status)
  | put (fault : Option Status)
  | endOperations
  | persistResponse (written : Bool)
  | persistRequest (written : Bool)
  | vote (cohortIndex : UInt32) (ballot : Ballot)
  | poll (reply : Option VotingDecision)
  | commit (fault : Option Status)
  | abort
  | unlock
  | finish

/-- The steps of the threads. A reason that AbortTransaction leaves unset can be any. -/
inductive Step (c : Adapter) : State → String × Action → State → Prop
  | start {s : State} {id : String} (request : PrepareTransactionRequest) (orders : KeyOrders)
      (hid : request.transactionId = id) (hnew : s.threads id = none) :
      Step c s (id, .start request) (s.set id (newThread c orders request))
  -- The mutex is held after the call whether or not the condition held in time.
  | lock {s : State} {id : String} {request : PrepareTransactionRequest} {m : Metadata}
      {r : LockRequest} {todo : List LockRequest} {mutexes : Table LockName String}
      (conditionHolds : Bool) (ht : s.threads id = some ⟨request, m, .locking (r :: todo)⟩)
      (ha : s.mutexes.acquire r id = some mutexes) :
      Step c s (id, .lock conditionHolds) ({ s with mutexes := mutexes }.set id
        (if conditionHolds then ⟨request, record m r, .locking todo⟩
          else ⟨request, m, .votingAbort (lockError r)⟩))
  | begin {s : State} {id : String} {request : PrepareTransactionRequest} {m : Metadata}
      (ht : s.threads id = some ⟨request, m, .locking []⟩) :
      Step c s (id, .begin none)
        (s.set id ⟨request, beginDb m, .running request.transaction.ops⟩)
  | beginFault {s : State} {id : String} {request : PrepareTransactionRequest} {m : Metadata}
      {status : Status} (ht : s.threads id = some ⟨request, m, .locking []⟩)
      (hf : status.isOk = false) :
      Step c s (id, .begin (some status)) (s.set id ⟨request, m, .votingAbort status⟩)
  | operate {s : State} {id : String} {request : PrepareTransactionRequest} {m : Metadata}
      {op : Operation} {todo : List Operation} {fault : Option Status}
      (ht : s.threads id = some ⟨request, m, .running (op :: todo)⟩)
      (hf : ∀ status, fault = some status → Fault op status) :
      Step c s (id, .operate fault) (s.set id
        ⟨request, (Cohort.operate c.access s.store fault op todo m).1,
          (Cohort.operate c.access s.store fault op todo m).2⟩)
  | put {s : State} {id : String} {request : PrepareTransactionRequest} {m : Metadata}
      {key : String} {value : Int64} {todo : List Operation} {fault : Option Status}
      (ht : s.threads id = some ⟨request, m, .putting key value todo⟩)
      (hf : ∀ status, fault = some status → status.isOk = false) :
      Step c s (id, .put fault) (s.set id
        ⟨request, (finishPut fault key value todo m).1, (finishPut fault key value todo m).2⟩)
  | endOperations {s : State} {id : String} {request : PrepareTransactionRequest} {m : Metadata}
      (ht : s.threads id = some ⟨request, m, .running []⟩) :
      Step c s (id, .endOperations) (s.set id
        ⟨request, m, if request.onlyCohort then .committing else .persistingResponse⟩)
  | persistResponse {s : State} {id : String} {request : PrepareTransactionRequest}
      {m : Metadata} (written : Bool) (ht : s.threads id = some ⟨request, m, .persistingResponse⟩) :
      Step c s (id, .persistResponse written) (s.set id
        ⟨request, m, if written then .persistingRequest else .votingAbort responseNotWritten⟩)
  | persistRequest {s : State} {id : String} {request : PrepareTransactionRequest} {m : Metadata}
      (written : Bool) (ht : s.threads id = some ⟨request, m, .persistingRequest⟩) :
      Step c s (id, .persistRequest written) (s.set id
        ⟨request, m, if written then .voting else .votingAbort requestNotWritten⟩)
  | vote {s : State} {id : String} {request : PrepareTransactionRequest} {m : Metadata}
      (ht : s.threads id = some ⟨request, m, .voting⟩) :
      Step c s (id, .vote request.cohortIndex .commit) (s.set id ⟨request, m, .waiting⟩)
  | pollAgain {s : State} {id : String} {request : PrepareTransactionRequest} {m : Metadata}
      {reply : Option VotingDecision} (ht : s.threads id = some ⟨request, m, .waiting⟩)
      (hd : decisionOf reply = .pending ∨ decisionOf reply = .unknown) :
      Step c s (id, .poll reply) s
  | pollCommit {s : State} {id : String} {request : PrepareTransactionRequest} {m : Metadata}
      (ht : s.threads id = some ⟨request, m, .waiting⟩) :
      Step c s (id, .poll (some .commit)) (s.set id ⟨request, m, .committing⟩)
  | pollAbort {s : State} {id : String} {request : PrepareTransactionRequest} {m : Metadata}
      (reason : AbortReason) (ht : s.threads id = some ⟨request, m, .waiting⟩) :
      Step c s (id, .poll (some .abort)) (s.set id ⟨request, m, .aborting none reason⟩)
  | voteAbort {s : State} {id : String} {request : PrepareTransactionRequest} {m : Metadata}
      {status : Status} (ht : s.threads id = some ⟨request, m, .votingAbort status⟩) :
      Step c s (id, .vote request.cohortIndex .abort)
        (s.set id ⟨request, m, .aborting (some status) (abortReason status)⟩)
  | commitFault {s : State} {id : String} {request : PrepareTransactionRequest} {m : Metadata}
      {status : Status} (ht : s.threads id = some ⟨request, m, .committing⟩)
      (hf : status.isOk = false) : Step c s (id, .commit (some status)) s
  | commit {s : State} {id : String} {request : PrepareTransactionRequest} {m : Metadata}
      (ht : s.threads id = some ⟨request, m, .committing⟩) :
      Step c s (id, .commit none) ({ s with store := commitStore s.store m }.set id
        ⟨request, committedMetadata m, .releasing (heldLocks m)⟩)
  | abort {s : State} {id : String} {request : PrepareTransactionRequest} {m : Metadata}
      {abortStatus : Option Status} {reason : AbortReason}
      (ht : s.threads id = some ⟨request, m, .aborting abortStatus reason⟩) :
      Step c s (id, .abort) (s.set id ⟨request, abortDb m reason, .releasing (heldLocks m)⟩)
  | unlock {s : State} {id : String} {request : PrepareTransactionRequest} {m : Metadata}
      {r : LockRequest} {todo : List LockRequest}
      (ht : s.threads id = some ⟨request, m, .releasing (r :: todo)⟩) :
      Step c s (id, .unlock) ({ s with mutexes := s.mutexes.release r id }.set id
        ⟨request, m, .releasing todo⟩)
  | finish {s : State} {id : String} {request : PrepareTransactionRequest} {m : Metadata}
      (ht : s.threads id = some ⟨request, m, .releasing []⟩) :
      Step c s (id, .finish) ((s.setFinalResponse id m.response).set id ⟨request, m, .finished⟩)

abbrev Run (c : Adapter) (store : Store String) (xs : List (String × Action)) (s : State) : Prop :=
  Runs.Run (Step c) (initial store) xs s

end TwoPhaseCommit.Cohort
