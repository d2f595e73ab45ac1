import TwoPhaseCommit.CohortLocks

/-! The LMDB adapter, a reference map adapter, and ProcessTransaction over any such adapter when
no other transaction is there. LMDB calls that throw are left out. -/
namespace TwoPhaseCommit.Db
open Cohort Database

/-- A call gives its status and the adapter after it. -/
structure DatabaseTransactionAdapter (σ : Type) where
  supportsConcurrentWrites : Bool
  begin : σ → Status × σ
  beginReadOnly : σ → Status × σ
  commit : σ → Status × σ
  abort : σ → Status × σ
  get : σ → String → Except Status Int64
  put : σ → String → Int64 → Status × σ

/-- The committed pairs of the environment and the puts of the open transaction. -/
structure LMDBDatabaseTransactionAdapter where
  env : Store String
  txn : Option (Store String)
  isReadonly : Bool

namespace LMDBDatabaseTransactionAdapter

def alreadyOpen : Status :=
  ⟨.failedPrecondition, "Cannot open another transaction while a transaction hasn't " ++
    "commited or aborted yet."⟩

def nothingToCommit : Status :=
  ⟨.failedPrecondition, "No valid transaction to Commit. Please Begin() first."⟩

def nothingToAbort : Status :=
  ⟨.failedPrecondition, "No valid transaction to Abort. Please Begin() first."⟩

def readOnlyPut : Status :=
  ⟨.failedPrecondition, "Cannot call Put with read only transaction. " ++
    "Please Abort() or Commit() the current transaction and call Begin() instead."⟩

def getFailed : Status := ⟨.internal, "Get failed."⟩

def beginTxn (isReadonly : Bool) (d : LMDBDatabaseTransactionAdapter) :
    Status × LMDBDatabaseTransactionAdapter :=
  match d.txn with
  | some _ => (alreadyOpen, d)
  | none => (.okStatus, ⟨d.env, some fun _ => none, isReadonly⟩)

/-- `dbi.get`: none is MDB_NOTFOUND. -/
def dbiGet (env txn : Store String) (key : String) : Option Int64 := (txn key).or (env key)

def commit (d : LMDBDatabaseTransactionAdapter) : Status × LMDBDatabaseTransactionAdapter :=
  match d.txn with
  | none => (nothingToCommit, d)
  | some txn => (.okStatus, { d with env := dbiGet d.env txn, txn := none })

def abort (d : LMDBDatabaseTransactionAdapter) : Status × LMDBDatabaseTransactionAdapter :=
  match d.txn with
  | none => (nothingToAbort, d)
  | some _ => (.okStatus, { d with txn := none })

def get (d : LMDBDatabaseTransactionAdapter) (key : String) : Except Status Int64 :=
  match d.txn with
  | none => .error noTransaction
  | some txn =>
    match dbiGet d.env txn key with
    | some value => .ok value
    | none => .error getFailed

def put (d : LMDBDatabaseTransactionAdapter) (key : String) (value : Int64) :
    Status × LMDBDatabaseTransactionAdapter :=
  match d.txn with
  | none => (noTransaction, d)
  | some txn =>
    if d.isReadonly then (readOnlyPut, d)
    else (.okStatus, { d with txn := some (Function.update txn key (some value)) })

end LMDBDatabaseTransactionAdapter

def lmdb : DatabaseTransactionAdapter LMDBDatabaseTransactionAdapter where
  supportsConcurrentWrites := false
  begin := LMDBDatabaseTransactionAdapter.beginTxn false
  beginReadOnly := LMDBDatabaseTransactionAdapter.beginTxn true
  commit := LMDBDatabaseTransactionAdapter.commit
  abort := LMDBDatabaseTransactionAdapter.abort
  get := LMDBDatabaseTransactionAdapter.get
  put := LMDBDatabaseTransactionAdapter.put

structure MapAdapter where
  data : Store String
  txn : Option (Store String)

def keyNotFound : Status := ⟨.notFound, "Key could not be found"⟩

def alreadyInTransaction : Status := ⟨.failedPrecondition, "Already in transaction"⟩

def notInTransaction : Status := ⟨.failedPrecondition, "Not in transaction"⟩

def MapAdapter.inTransaction (d : MapAdapter) (call : Store String → MapAdapter) :
    Status × MapAdapter :=
  match d.txn with
  | none => (notInTransaction, d)
  | some txn => (.okStatus, call txn)

def MapAdapter.beginTxn (d : MapAdapter) : Status × MapAdapter :=
  match d.txn with
  | some _ => (alreadyInTransaction, d)
  | none => (.okStatus, ⟨d.data, some fun _ => none⟩)

def MapAdapter.get (d : MapAdapter) (key : String) : Except Status Int64 :=
  match d.txn with
  | none => .error notInTransaction
  | some txn =>
    match (txn key).or (d.data key) with
    | some value => .ok value
    | none => .error keyNotFound

/-- The reference: a map whose Get reports NotFound for an absent key. -/
def referenceMap (supportsConcurrentWrites : Bool) : DatabaseTransactionAdapter MapAdapter where
  supportsConcurrentWrites := supportsConcurrentWrites
  begin := MapAdapter.beginTxn
  beginReadOnly := MapAdapter.beginTxn
  commit d := d.inTransaction fun txn => ⟨fun key => (txn key).or (d.data key), none⟩
  abort d := d.inTransaction fun _ => ⟨d.data, none⟩
  get := MapAdapter.get
  put d key value := d.inTransaction fun txn => ⟨d.data, some (Function.update txn key (some value))⟩

section ProcessTransaction
variable {σ : Type} (a : DatabaseTransactionAdapter σ)

/-- What a transaction changes: the response of its metadata and its database. -/
structure Session (σ : Type) where
  response : GetTransactionResultResponse
  db : σ

def Session.addGetResponse (m : Session σ) (r : GetResponse) : Session σ :=
  { m with response := some (.committedResponse ⟨m.response.committed.getResponses ++ [r]⟩) }

def Session.put (m : Session σ) (key : String) (value : Int64) : Status × Session σ :=
  ((a.put m.db key value).1, { m with db := (a.put m.db key value).2 })

def Session.relativePut (m : Session σ) (p : Put) : Status × Session σ :=
  match a.get m.db p.key with
  | .ok value => m.put a p.key (relativeSum p value)
  | .error status =>
    if status.code = .notFound ∧ (relativeValue p).defaultValue.isSome then
      m.put a p.key (relativeSum p (NumericValue.int64 (relativeValue p).defaultValue))
    else (status, m)

def processOperationInDb (op : Operation) (m : Session σ) : Status × Session σ :=
  match op.type with
  | some (.get g) =>
    match a.get m.db g.key with
    | .ok value => (.okStatus, m.addGetResponse ⟨op.namespace_, g, ⟨some value⟩⟩)
    | .error status => (status, m)
  | some (.put p) =>
    match p.value with
    | some (.constantValue c) => m.put a p.key c.int64
    | _ => m.relativePut a p
  -- No-op.
  | none => (.okStatus, m)

def processOperations : List Operation → Session σ → Status × Session σ
  | [], m => (.okStatus, m)
  | op :: ops, m =>
    if (processOperationInDb a op m).1.isOk then
      processOperations ops (processOperationInDb a op m).2
    else processOperationInDb a op m

/-- Whether the lock notes of a transaction make it begin a read-only one. -/
def beginsReadOnly (m : Metadata) : Bool := m.writeLockKeys.isEmpty && !m.hasWholeDbWriteLock

def lockNotes (orders : KeyOrders) (ops : List Operation) : Metadata :=
  (dbLocks ⟨a.supportsConcurrentWrites, .okStatus⟩ orders ops).foldl record newMetadata

def beginDb (orders : KeyOrders) (ops : List Operation) (db : σ) : Status × σ :=
  if beginsReadOnly (lockNotes a orders ops) then a.beginReadOnly db else a.begin db

def processTransactionInDb (orders : KeyOrders) (ops : List Operation) (m : Session σ) :
    Status × Session σ :=
  if (beginDb a orders ops m.db).1.isOk then
    processOperations a ops { m with db := (beginDb a orders ops m.db).2 }
  else ((beginDb a orders ops m.db).1, { m with db := (beginDb a orders ops m.db).2 })

def abortTransaction (reason : AbortReason) (m : Session σ) : Session σ :=
  ⟨some (.abortedResponse reason), (a.abort m.db).2⟩

/-- Commit is tried again while it fails; none when the given number of retries is used up. -/
def commitTransaction : ℕ → Session σ → Option (Session σ)
  | retries, m =>
    if (a.commit m.db).1.isOk then
      some ⟨some (.committedResponse m.response.committed), (a.commit m.db).2⟩
    else
      match retries with
      | 0 => none
      | retries + 1 => commitTransaction retries { m with db := (a.commit m.db).2 }

/-- What ProcessTransaction meets outside the database. -/
structure Surroundings where
  orders : KeyOrders
  responseWritten : Bool
  requestWritten : Bool
  decidesCommit : Bool
  unsetReason : AbortReason

def processTransaction (w : Surroundings) (retries : ℕ) (request : PrepareTransactionRequest)
    (db : σ) : Option (Session σ) :=
  let r := processTransactionInDb a w.orders request.transaction.ops ⟨some .pendingResponse, db⟩
  if r.1.isOk = false then some (abortTransaction a (abortReason r.1) r.2)
  else if request.onlyCohort then commitTransaction a retries r.2
  else if w.responseWritten = false then
    some (abortTransaction a (abortReason responseNotWritten) r.2)
  else if w.requestWritten = false then
    some (abortTransaction a (abortReason requestNotWritten) r.2)
  else if w.decidesCommit then commitTransaction a retries r.2
  else some (abortTransaction a w.unsetReason r.2)

end ProcessTransaction

/-- What a database shows: its committed pairs and its open transaction. -/
abbrev View (σ : Type) := σ → Store String × Option (OpenTransaction String)

/-- The calls of an adapter do to the view what they should, and Get reports an absent key
with the status absent. -/
structure Lawful {σ : Type} (a : DatabaseTransactionAdapter σ) (absent : Status)
    (view : View σ) : Prop where
  fails : absent.isOk = false
  begin : ∀ d store, view d = (store, none) →
    (a.begin d).1.isOk ∧ view (a.begin d).2 = (store, some ⟨false, fun _ => none⟩)
  beginReadOnly : ∀ d store, view d = (store, none) →
    (a.beginReadOnly d).1.isOk ∧
      ∃ readOnly, view (a.beginReadOnly d).2 = (store, some ⟨readOnly, fun _ => none⟩)
  get : ∀ d store txn, view d = (store, some txn) → ∀ key,
    a.get d key = match txn.read store key with
      | some value => .ok value
      | none => .error absent
  put : ∀ d store writes, view d = (store, some ⟨false, writes⟩) → ∀ key value,
    (a.put d key value).1.isOk ∧
      view (a.put d key value).2 = (store, some ⟨false, Function.update writes key (some value)⟩)
  commit : ∀ d store txn, view d = (store, some txn) →
    (a.commit d).1.isOk ∧ view (a.commit d).2 = (txn.read store, none)
  abort : ∀ d store txn, view d = (store, some txn) → view (a.abort d).2 = (store, none)

def lmdbView : View LMDBDatabaseTransactionAdapter := fun d => (d.env, d.txn.map (⟨d.isReadonly, ·⟩))

def mapView : View MapAdapter := fun d => (d.data, d.txn.map (⟨false, ·⟩))

theorem lmdbView_closed {d : LMDBDatabaseTransactionAdapter} {store : Store String}
    (h : lmdbView d = (store, none)) : d = ⟨store, none, d.isReadonly⟩ := by
  obtain ⟨env, txn, isReadonly⟩ := d
  cases txn with
  | none =>
    cases h
    rfl
  | some txn => simp [lmdbView] at h

theorem lmdbView_open {d : LMDBDatabaseTransactionAdapter} {store : Store String}
    {txn : OpenTransaction String} (h : lmdbView d = (store, some txn)) :
    d = ⟨store, some txn.writes, txn.readOnly⟩ := by
  obtain ⟨env, txn', isReadonly⟩ := d
  cases txn' with
  | none => simp [lmdbView] at h
  | some txn' =>
    cases h
    rfl

theorem lmdb_lawful : Lawful lmdb LMDBDatabaseTransactionAdapter.getFailed lmdbView where
  fails := rfl
  begin d store h := by
    rw [lmdbView_closed h]
    exact ⟨rfl, rfl⟩
  beginReadOnly d store h := by
    rw [lmdbView_closed h]
    exact ⟨rfl, true, rfl⟩
  get d store txn h key := by
    rw [lmdbView_open h]
    rfl
  put d store writes h key value := by
    rw [lmdbView_open h]
    exact ⟨rfl, rfl⟩
  commit d store txn h := by
    rw [lmdbView_open h]
    exact ⟨rfl, rfl⟩
  abort d store txn h := by
    rw [lmdbView_open h]
    rfl

theorem mapView_closed {d : MapAdapter} {store : Store String} (h : mapView d = (store, none)) :
    d = ⟨store, none⟩ := by
  obtain ⟨data, txn⟩ := d
  cases txn with
  | none =>
    cases h
    rfl
  | some txn => simp [mapView] at h

theorem mapView_open {d : MapAdapter} {store : Store String} {txn : OpenTransaction String}
    (h : mapView d = (store, some txn)) : d = ⟨store, some txn.writes⟩ := by
  obtain ⟨data, txn'⟩ := d
  cases txn' with
  | none => simp [mapView] at h
  | some txn' =>
    cases h
    rfl

theorem reference_lawful (supportsConcurrentWrites : Bool) :
    Lawful (referenceMap supportsConcurrentWrites) keyNotFound mapView where
  fails := rfl
  begin d store h := by
    rw [mapView_closed h]
    exact ⟨rfl, rfl⟩
  beginReadOnly d store h := by
    rw [mapView_closed h]
    exact ⟨rfl, false, rfl⟩
  get d store txn h key := by
    rw [mapView_open h]
    rfl
  put d store writes h key value := by
    rw [mapView_open h]
    exact ⟨rfl, rfl⟩
  commit d store txn h := by
    rw [mapView_open h]
    exact ⟨rfl, rfl⟩
  abort d store txn h := by
    rw [mapView_open h]
    rfl

section Lawful
variable {σ : Type} {a : DatabaseTransactionAdapter σ} {absent : Status} {view : View σ}
  {store : Store String} {readOnly : Bool} {m : Session σ} {v : TransactionMetadata String}

/-- The session and the model of a transaction have answered the same and put the same. -/
structure Sees (view : View σ) (store : Store String) (readOnly : Bool) (m : Session σ)
    (v : TransactionMetadata String) : Prop where
  response : m.response = v.response
  db : ∃ r writes, v.db = some ⟨r, writes⟩ ∧ view m.db = (store, some ⟨readOnly, writes⟩)

theorem Sees.get_eq (h : Sees view store readOnly m v) (ha : Lawful a absent view) (key : String) :
    a.get m.db key = dbGet (Access.cohort absent) store v key := by
  obtain ⟨r, writes, hv, hm⟩ := h.db
  rw [ha.get _ _ _ hm, dbGet, hv]
  rfl

theorem eq_absent_of_dbGet (hv : v.db.isSome) {key : String} {status : Status}
    (he : dbGet (Access.cohort absent) store v key = .error status) : status = absent := by
  obtain ⟨txn, htxn⟩ := Option.isSome_iff_exists.mp hv
  rw [dbGet, htxn] at he
  dsimp only at he
  split at he <;> cases he
  rfl

theorem Sees.isOpen (h : Sees view store readOnly m v) : v.db.isSome := by
  obtain ⟨r, writes, hv, hm⟩ := h.db
  rw [hv]
  rfl

theorem Sees.put_ok (h : Sees view store false m v) (ha : Lawful a absent view) (key : String)
    (value : Int64) : ∃ v', dbPut v key value = .ok v' ∧ (m.put a key value).1.isOk ∧
      Sees view store false (m.put a key value).2 v' := by
  obtain ⟨r, writes, hv, hm⟩ := h.db
  obtain ⟨hok, hview⟩ := ha.put _ _ _ hm key value
  refine ⟨{ v with db := some ⟨r, Function.update writes key (some value)⟩ }, ?_, hok,
    h.response, r, _, rfl, hview⟩
  simp only [dbPut, hv]

theorem relativePut_cohort (n : Namespace) (p : Put) :
    relativePut (Access.cohort absent) store n p v =
      match dbGet (Access.cohort absent) store v p.key with
      | .ok value => dbPut v p.key (relativeSum p value)
      | .error status =>
        if status.code = .notFound ∧ (relativeValue p).defaultValue.isSome then
          dbPut v p.key (relativeSum p (NumericValue.int64 (relativeValue p).defaultValue))
        else .error status := by
  have hloc : (Access.cohort absent).locate n p.key = p.key := rfl
  rw [relativePut, relativeBase, hloc]
  cases dbGet (Access.cohort absent) store v p.key with
  | ok value => rfl
  | error status =>
    dsimp only
    split_ifs <;> rfl

theorem Sees.relativePut_cases (h : Sees view store false m v) (ha : Lawful a absent view)
    (n : Namespace) (p : Put) :
    (∃ v', relativePut (Access.cohort absent) store n p v = .ok v' ∧
      (m.relativePut a p).1.isOk ∧ Sees view store false (m.relativePut a p).2 v') ∨
    relativePut (Access.cohort absent) store n p v = .error absent ∧
      m.relativePut a p = (absent, m) := by
  rw [relativePut_cohort, Session.relativePut, h.get_eq ha]
  cases hg : dbGet (Access.cohort absent) store v p.key with
  | ok value => exact .inl (h.put_ok ha p.key (relativeSum p value))
  | error status =>
    obtain rfl := eq_absent_of_dbGet h.isOpen hg
    dsimp only
    split_ifs
    · exact .inl (h.put_ok ha p.key _)
    · exact .inr ⟨rfl, rfl⟩

theorem Sees.operation_cases (h : Sees view store readOnly m v) (ha : Lawful a absent view)
    {op : Operation} (hw : isPut op → readOnly = false) :
    (∃ v', Database.processOperationInDb (Access.cohort absent) store op v = .ok v' ∧
      (processOperationInDb a op m).1.isOk ∧
      Sees view store readOnly (processOperationInDb a op m).2 v') ∨
    Database.processOperationInDb (Access.cohort absent) store op v = .error absent ∧
      processOperationInDb a op m = (absent, m) := by
  obtain ⟨n, type⟩ := op
  have hloc (key : String) : (Access.cohort absent).locate n key = key := rfl
  cases type with
  | none => exact .inl ⟨v, rfl, rfl, h⟩
  | some type =>
    cases type with
    | get g =>
      simp only [Database.processOperationInDb, processOperationInDb, hloc, h.get_eq ha]
      cases hg : dbGet (Access.cohort absent) store v g.key with
      | error status =>
        obtain rfl := eq_absent_of_dbGet h.isOpen hg
        exact .inr ⟨rfl, rfl⟩
      | ok value =>
        refine .inl ⟨_, rfl, rfl, ?_, h.db⟩
        simp [Session.addGetResponse, TransactionMetadata.addGetResponse, h.response]
    | put p =>
      obtain rfl := hw rfl
      simp only [Database.processOperationInDb, processOperationInDb, hloc]
      cases p.value with
      | none => exact h.relativePut_cases ha n p
      | some value =>
        cases value with
        | constantValue c => exact .inl (h.put_ok ha p.key c.int64)
        | relativeValue r => exact h.relativePut_cases ha n p

theorem Sees.operations_cases {ops : List Operation} (h : Sees view store readOnly m v)
    (ha : Lawful a absent view) (hw : ∀ op ∈ ops, isPut op → readOnly = false) :
    (∃ v', Database.processOperations (Access.cohort absent) store ops v = .ok v' ∧
      (processOperations a ops m).1.isOk ∧
      Sees view store readOnly (processOperations a ops m).2 v') ∨
    Database.processOperations (Access.cohort absent) store ops v = .error absent ∧
      (processOperations a ops m).1 = absent ∧
      ∃ v', Sees view store readOnly (processOperations a ops m).2 v' := by
  induction ops generalizing m v with
  | nil => exact .inl ⟨v, rfl, rfl, h⟩
  | cons op ops ih =>
    obtain ⟨v', hv, hok, hs⟩ | ⟨hv, hm⟩ := h.operation_cases ha (hw op List.mem_cons_self)
    · rw [Database.processOperations, hv, processOperations, if_pos hok]
      exact ih hs fun op' hop => hw op' (List.mem_cons_of_mem op hop)
    · rw [Database.processOperations, hv, processOperations, hm, ha.fails]
      exact .inr ⟨rfl, rfl, v, h⟩

theorem beginsReadOnly_record (notes : Metadata) (r : LockRequest) :
    beginsReadOnly (record notes r) = (beginsReadOnly notes && decide (r.mode = .read)) := by
  obtain ⟨name, mode⟩ := r
  cases name with
  | wholeDb => cases mode <;> simp [beginsReadOnly, record]
  | key k => cases mode <;> simp [beginsReadOnly, record]

theorem beginsReadOnly_foldl (rs : List LockRequest) (notes : Metadata) :
    beginsReadOnly (rs.foldl record notes) =
      (beginsReadOnly notes && rs.all fun r => decide (r.mode = .read)) := by
  induction rs generalizing notes with
  | nil => simp
  | cons r rs ih => rw [List.foldl_cons, ih, beginsReadOnly_record, List.all_cons, Bool.and_assoc]

theorem writes_of_isPut {orders : KeyOrders} {ops : List Operation} {op : Operation} (hop : op ∈ ops)
    (hput : isPut op) : beginsReadOnly (lockNotes a orders ops) = false := by
  obtain ⟨n, type⟩ := op
  rcases type with _ | _ | p
  · cases hput
  · cases hput
  · have hmem : ⟨_, .write⟩ ∈ dbLocks ⟨a.supportsConcurrentWrites, .okStatus⟩ orders ops :=
      mem_dbLocks_of_put hop (List.mem_singleton_self p.key)
    rw [lockNotes, beginsReadOnly_foldl, Bool.and_eq_false_iff]
    refine .inr (List.all_eq_false.mpr ⟨_, hmem, ?_⟩)
    simp

theorem Lawful.beginDb (ha : Lawful a absent view) {d : σ} (hd : view d = (store, none))
    (orders : KeyOrders) (ops : List Operation) :
    (Db.beginDb a orders ops d).1.isOk ∧ ∃ readOnly,
      view (Db.beginDb a orders ops d).2 = (store, some ⟨readOnly, fun _ => none⟩) ∧
      ∀ op ∈ ops, isPut op → readOnly = false := by
  unfold Db.beginDb
  split_ifs with hread
  · obtain ⟨hok, readOnly, hview⟩ := ha.beginReadOnly d store hd
    refine ⟨hok, readOnly, hview, ?_⟩
    intro op hop hput
    rw [writes_of_isPut hop hput] at hread
    cases hread
  · obtain ⟨hok, hview⟩ := ha.begin d store hd
    exact ⟨hok, false, hview, fun _ _ _ => rfl⟩

/-- What ProcessTransaction makes of an execution: the final response and the committed pairs. -/
def answer (store : Store String) (result : Except Status (Store String × List GetResponse)) :
    GetTransactionResultResponse × Store String :=
  match result with
  | .ok (store', responses) => (some (.committedResponse ⟨responses⟩), store')
  | .error status => (some (.abortedResponse (abortReason status)), store)

/-- Alone and for an only cohort, ProcessTransaction over a lawful adapter is one execution of
the operations. -/
theorem Lawful.processTransaction (ha : Lawful a absent view) {d : σ} (hd : view d = (store, none))
    (w : Surroundings) (retries : ℕ) {request : PrepareTransactionRequest}
    (hone : request.onlyCohort) :
    ∃ m, Db.processTransaction a w retries request d = some m ∧
      (m.response, (view m.db).1) =
        answer store (execute (Access.cohort absent) store request.transaction.ops) := by
  obtain ⟨hbegin, readOnly, hview, hputs⟩ := ha.beginDb hd w.orders request.transaction.ops
  have hstart : Sees view store readOnly
      ⟨some .pendingResponse, (Db.beginDb a w.orders request.transaction.ops d).2⟩ (begun false) :=
    ⟨rfl, false, _, rfl, hview⟩
  unfold Db.processTransaction processTransactionInDb
  rw [if_pos hbegin]
  dsimp only
  obtain ⟨v, hv, hok, hs⟩ | ⟨hv, hfail, v, hs⟩ := hstart.operations_cases ha hputs
  · obtain ⟨r, writes, hvdb, hm⟩ := hs.db
    obtain ⟨hcommit, hafter⟩ := ha.commit _ _ _ hm
    rw [hok, if_neg (by simp), if_pos hone]
    refine ⟨_, by cases retries <;> rw [commitTransaction, if_pos hcommit], ?_⟩
    rw [hafter, execute, hv, hs.response]
    simp only [Except.map, answer, commitStore, hvdb]
    rfl
  · obtain ⟨r, writes, hvdb, hm⟩ := hs.db
    rw [hfail, ha.fails, if_pos rfl]
    refine ⟨_, rfl, ?_⟩
    rw [execute, hv]
    simp [Except.map, answer, abortTransaction, ha.abort _ _ _ hm]

end Lawful

/-- Every key that an operation gets, or that a relative put starts from, is in the store or was
put by an earlier operation. -/
def KeysPresent (store : Store String) (written : List String) : List Operation → Prop
  | [] => True
  | op :: ops =>
    (readsDb op → ∀ k ∈ operationKeys (Access.cohort .okStatus) op,
      (store k).isSome ∨ k ∈ written) ∧
    KeysPresent store (putKeys (Access.cohort .okStatus) op ++ written) ops

section KeysPresent
variable {store : Store String} {written : List String} {v v' : TransactionMetadata String}
  {absent : Status}

/-- The keys put so far. -/
def Wrote (v : TransactionMetadata String) (written : List String) : Prop :=
  ∃ txn, v.db = some txn ∧ ∀ k, (txn.writes k).isSome ↔ k ∈ written

theorem Wrote.put (h : Wrote v written) {k : String} {value : Int64}
    (hput : dbPut v k value = .ok v') : Wrote v' (k :: written) := by
  obtain ⟨txn, hv, hw⟩ := h
  obtain ⟨txn', hv', rfl⟩ := dbPut_ok hput
  obtain rfl := Option.some.inj (hv.symm.trans hv')
  refine ⟨_, rfl, ?_⟩
  intro j
  by_cases hj : j = k
  · simp [hj]
  · simp [hj, hw]

theorem Wrote.put_ok (h : Wrote v written) (k : String) (value : Int64) :
    ∃ v', dbPut v k value = .ok v' ∧ Wrote v' (k :: written) := by
  obtain ⟨txn, hv, hw⟩ := h
  have hput : dbPut v k value =
      .ok { v with db := some { txn with writes := Function.update txn.writes k value } } := by
    simp only [dbPut, hv]
  exact ⟨_, hput, Wrote.put ⟨txn, hv, hw⟩ hput⟩

theorem Wrote.get_present (h : Wrote v written) {k : String}
    (hk : (store k).isSome ∨ k ∈ written) :
    ∃ value, ∀ absent, dbGet (Access.cohort absent) store v k = .ok value := by
  obtain ⟨txn, hv, hw⟩ := h
  have hread : (txn.read store k).isSome := by
    rw [OpenTransaction.read, Option.isSome_or, Bool.or_eq_true, hw]
    exact hk.symm
  obtain ⟨value, hvalue⟩ := Option.isSome_iff_exists.mp hread
  exact ⟨value, fun absent => by simp only [dbGet, hv, hvalue]⟩

theorem Wrote.get_absent (h : Wrote v written) {k : String}
    (hk : ¬((store k).isSome ∨ k ∈ written)) :
    dbGet (Access.cohort absent) store v k = .error absent := by
  obtain ⟨txn, hv, hw⟩ := h
  have hread : txn.read store k = none := by
    rw [← Option.not_isSome_iff_eq_none, OpenTransaction.read, Option.isSome_or, Bool.or_eq_true,
      hw]
    exact fun hr => hk hr.symm
  simp only [dbGet, hv, hread]
  rfl

theorem Wrote.relativePut_present (h : Wrote v written) {n : Namespace} {p : Put}
    (hk : (store p.key).isSome ∨ p.key ∈ written) :
    ∃ v', (∀ absent, relativePut (Access.cohort absent) store n p v = .ok v') ∧
      Wrote v' (p.key :: written) := by
  obtain ⟨value, hget⟩ := h.get_present hk
  obtain ⟨v', hput, hw⟩ := h.put_ok p.key (relativeSum p value)
  refine ⟨v', ?_, hw⟩
  intro absent
  rw [relativePut_cohort, hget absent]
  exact hput

theorem Wrote.operation_present (h : Wrote v written) {op : Operation}
    (hk : readsDb op → ∀ k ∈ operationKeys (Access.cohort .okStatus) op,
      (store k).isSome ∨ k ∈ written) :
    ∃ v', (∀ absent, Database.processOperationInDb (Access.cohort absent) store op v = .ok v') ∧
      Wrote v' (putKeys (Access.cohort .okStatus) op ++ written) := by
  obtain ⟨n, type⟩ := op
  rcases type with _ | g | p
  · exact ⟨v, fun _ => rfl, h⟩
  · obtain ⟨value, hget⟩ := h.get_present (hk rfl g.key (List.mem_singleton_self _))
    have hloc (absent : Status) : (Access.cohort absent).locate n g.key = g.key := rfl
    refine ⟨v.addGetResponse ⟨n, g, ⟨some value⟩⟩, ?_, h⟩
    intro absent
    simp only [Database.processOperationInDb, hloc, hget absent]
  · obtain ⟨key, value⟩ := p
    rcases value with _ | c | r
    · exact h.relativePut_present (hk rfl key (List.mem_singleton_self _))
    · obtain ⟨v', hput, hw⟩ := h.put_ok key c.int64
      exact ⟨v', fun _ => hput, hw⟩
    · exact h.relativePut_present (hk rfl key (List.mem_singleton_self _))

theorem Wrote.operation_absent (h : Wrote v written) {op : Operation}
    (hcode : absent.code ≠ .notFound) (hr : readsDb op) {k : String}
    (hk : k ∈ operationKeys (Access.cohort .okStatus) op)
    (hno : ¬((store k).isSome ∨ k ∈ written)) :
    Database.processOperationInDb (Access.cohort absent) store op v = .error absent := by
  obtain ⟨n, type⟩ := op
  have hrel (p : Put) (hk : k = p.key) :
      relativePut (Access.cohort absent) store n p v = .error absent := by
    subst hk
    rw [relativePut_cohort, h.get_absent hno]
    exact if_neg fun hc => hcode hc.1
  rcases type with _ | g | p
  · cases hr
  · obtain rfl := List.mem_singleton.mp hk
    have hget : dbGet (Access.cohort absent) store v ((Access.cohort absent).locate n g.key) =
        .error absent := h.get_absent hno
    simp only [Database.processOperationInDb, hget]
  · obtain ⟨key, value⟩ := p
    rcases value with _ | c | r
    · exact hrel _ (List.mem_singleton.mp hk)
    · cases hr
    · exact hrel _ (List.mem_singleton.mp hk)

theorem Wrote.operations_present {ops : List Operation} (h : Wrote v written)
    (hk : KeysPresent store written ops) :
    ∃ v', ∀ absent, Database.processOperations (Access.cohort absent) store ops v = .ok v' := by
  induction ops generalizing v written with
  | nil => exact ⟨v, fun _ => rfl⟩
  | cons op ops ih =>
    obtain ⟨v₁, hop, hw⟩ := h.operation_present hk.1
    obtain ⟨v', hops⟩ := ih hw hk.2
    refine ⟨v', ?_⟩
    intro absent
    rw [Database.processOperations, hop absent]
    exact hops absent

theorem Wrote.operations_absent {ops : List Operation} (h : Wrote v written)
    (hcode : absent.code ≠ .notFound) (hk : ¬KeysPresent store written ops) :
    Database.processOperations (Access.cohort absent) store ops v = .error absent := by
  induction ops generalizing v written with
  | nil => exact absurd trivial hk
  | cons op ops ih =>
    by_cases hop : readsDb op → ∀ k ∈ operationKeys (Access.cohort .okStatus) op,
        (store k).isSome ∨ k ∈ written
    · obtain ⟨v₁, hok, hw⟩ := h.operation_present hop
      rw [Database.processOperations, hok absent]
      exact ih hw fun hrest => hk ⟨hop, hrest⟩
    · obtain ⟨hr, k, hmem, hno⟩ : readsDb op = true ∧
          ∃ k ∈ operationKeys (Access.cohort .okStatus) op,
            ¬((store k).isSome ∨ k ∈ written) := by
        simpa only [Classical.not_imp, not_forall, exists_prop] using hop
      rw [Database.processOperations, h.operation_absent hcode hr hmem hno]

theorem wrote_begun (readOnly : Bool) : Wrote (begun readOnly) [] := ⟨_, rfl, by simp⟩

theorem eq_absent_of_operation (hv : v.db.isSome) {op : Operation} {status : Status}
    (he : Database.processOperationInDb (Access.cohort absent) store op v = .error status) :
    status = absent := by
  obtain ⟨n, type⟩ := op
  have hput (k : String) (value : Int64) : dbPut v k value ≠ .error status := by
    obtain ⟨txn, htxn⟩ := Option.isSome_iff_exists.mp hv
    simp [dbPut, htxn]
  have hrel (p : Put) (he : relativePut (Access.cohort absent) store n p v = .error status) :
      status = absent := by
    rw [relativePut_cohort] at he
    cases hg : dbGet (Access.cohort absent) store v p.key with
    | ok value =>
      rw [hg] at he
      exact absurd he (hput _ _)
    | error status' =>
      rw [hg] at he
      dsimp only at he
      split_ifs at he with hd
      · exact absurd he (hput _ _)
      · cases he
        exact eq_absent_of_dbGet hv hg
  rcases type with _ | g | p
  · cases he
  · cases hg : dbGet (Access.cohort absent) store v ((Access.cohort absent).locate n g.key) with
    | ok value => simp [Database.processOperationInDb, hg] at he
    | error status' =>
      simp only [Database.processOperationInDb, hg, Except.error.injEq] at he
      subst he
      exact eq_absent_of_dbGet hv hg
  · obtain ⟨key, value⟩ := p
    rcases value with _ | c | r
    · exact hrel _ he
    · exact absurd he (hput _ _)
    · exact hrel _ he

theorem eq_absent_of_operations {ops : List Operation} (hv : v.db.isSome) {status : Status}
    (he : Database.processOperations (Access.cohort absent) store ops v = .error status) :
    status = absent := by
  induction ops generalizing v with
  | nil => cases he
  | cons op ops ih =>
    rw [Database.processOperations] at he
    cases hop : Database.processOperationInDb (Access.cohort absent) store op v with
    | error status' =>
      simp only [hop, Except.error.injEq] at he
      subst he
      exact eq_absent_of_operation hv hop
    | ok v₁ =>
      rw [hop] at he
      refine ih ?_ he
      obtain ⟨_, rfl⟩ | ⟨_, _, _, _, rfl⟩ | ⟨_, _, _, hput⟩ := processOperationInDb_ok hop
      · exact hv
      · exact hv
      · obtain ⟨txn, _, rfl⟩ := dbPut_ok hput
        rfl

end KeysPresent

/-- Another status than NotFound for absent keys ends a transaction as NotFound does exactly when
it needs no absent key. -/
theorem answer_eq_iff {store : Store String} {ops : List Operation} {a n : Status}
    (ha : abortReason a ≠ .operationForNonExistentValue) (hn : n.code = .notFound) :
    answer store (execute (Access.cohort a) store ops) =
        answer store (execute (Access.cohort n) store ops) ↔
      KeysPresent store [] ops := by
  constructor
  · intro he
    by_contra hk
    have hcode : a.code ≠ .notFound := fun hc => ha (by simp [abortReason, hc])
    rw [execute, (wrote_begun false).operations_absent hcode hk, execute] at he
    cases hr : Database.processOperations (Access.cohort n) store ops (begun false) with
    | ok v => simp [hr, answer, Except.map] at he
    | error status =>
      obtain rfl := eq_absent_of_operations rfl hr
      refine ha ?_
      simpa [hr, answer, Except.map, abortReason, hn] using he
  · intro hk
    obtain ⟨v, hv⟩ := (wrote_begun false).operations_present hk
    rw [execute, execute, hv, hv]

/-- Over both adapters a request ends, with the same final response and committed pairs. -/
def SameOutcome (supportsConcurrentWrites : Bool) (w : Surroundings) (store : Store String)
    (request : PrepareTransactionRequest) : Prop :=
  ∃ retries l r, processTransaction lmdb w retries request ⟨store, none, false⟩ = some l ∧
    processTransaction (referenceMap supportsConcurrentWrites) w retries request ⟨store, none⟩ =
      some r ∧ l.response = r.response ∧ l.db.env = r.db.data

/-- LMDB reports an absent key as an internal error, so an only cohort's transaction ends over it
as over the reference map exactly when it needs no absent key. -/
theorem lmdb_same_outcome_iff (supportsConcurrentWrites : Bool) (w : Surroundings)
    (store : Store String) (request : PrepareTransactionRequest) (hone : request.onlyCohort) :
    SameOutcome supportsConcurrentWrites w store request ↔
      KeysPresent store [] request.transaction.ops := by
  let d : LMDBDatabaseTransactionAdapter := ⟨store, none, false⟩
  let e : MapAdapter := ⟨store, none⟩
  have hd : lmdbView d = (store, none) := rfl
  have he : mapView e = (store, none) := rfl
  have hl (retries : ℕ) := lmdb_lawful.processTransaction hd w retries hone
  have hr (retries : ℕ) := (reference_lawful supportsConcurrentWrites).processTransaction he w
    retries hone
  have hiff : _ ↔ KeysPresent store [] request.transaction.ops :=
    answer_eq_iff (a := LMDBDatabaseTransactionAdapter.getFailed) (n := keyNotFound) (by decide) rfl
  rw [← hiff]
  constructor
  · intro ⟨retries, l, r, hlm, hrm, hresponse, hstore⟩
    obtain ⟨l', hl', hanswer⟩ := hl retries
    obtain ⟨r', hr', hanswer'⟩ := hr retries
    obtain rfl := Option.some.inj (hlm.symm.trans hl')
    obtain rfl := Option.some.inj (hrm.symm.trans hr')
    rw [← hanswer, ← hanswer']
    exact Prod.ext hresponse hstore
  · intro hsame
    obtain ⟨l, hlm, hanswer⟩ := hl 0
    obtain ⟨r, hrm, hanswer'⟩ := hr 0
    rw [← hanswer, ← hanswer'] at hsame
    exact ⟨0, l, r, hlm, hrm, (Prod.mk.inj hsame).1, (Prod.mk.inj hsame).2⟩

def surroundings : Surroundings := ⟨⟨.insertion _, .insertion _⟩, true, true, true, .unspecified⟩

def onlyRequest (ops : List Operation) : PrepareTransactionRequest :=
  ⟨"t", ⟨ops⟩, ⟨none⟩, some (.onlyCohort true)⟩

def getK : Operation := ⟨⟨"", ""⟩, some (.get ⟨"k"⟩)⟩

def putK : Operation := ⟨⟨"", ""⟩, some (.put ⟨"k", some (.constantValue ⟨some 5⟩)⟩)⟩

theorem lmdb_same_outcome_put_get :
    SameOutcome true surroundings (fun _ => none) (onlyRequest [putK, getK]) := by
  refine (lmdb_same_outcome_iff true surroundings _ (onlyRequest [putK, getK]) rfl).mpr ⟨?_, ?_, trivial⟩
  · intro hr
    cases hr
  · intro _ k hk
    exact .inr hk

/-- A get of an absent key aborts with another reason over LMDB. -/
theorem lmdb_get_absent : (onlyRequest [getK]).onlyCohort ∧
    ¬SameOutcome true surroundings (fun _ => none) (onlyRequest [getK]) := by
  refine ⟨rfl, ?_⟩
  intro ⟨retries, l, r, hl, hr, hresponse, _⟩
  cases hl
  cases hr
  cases hresponse

end TwoPhaseCommit.Db
