import Mathlib.Logic.Function.Basic
import TwoPhaseCommit.Messages

/-! One transaction on a database and ProcessOperationInDb over it. The puts of an open
transaction are its own until Commit. -/
namespace TwoPhaseCommit.Database
open Cohort
variable {κ : Type} [DecidableEq κ]

abbrev Store (κ : Type) := κ → Option Int64

structure OpenTransaction (κ : Type) where
  readOnly : Bool
  writes : κ → Option Int64

/-- The transaction's own last put, otherwise the committed value. -/
def OpenTransaction.read (txn : OpenTransaction κ) (store : Store κ) (k : κ) : Option Int64 :=
  (txn.writes k).or (store k)

structure TransactionMetadata (κ : Type) where
  response : GetTransactionResultResponse
  db : Option (OpenTransaction κ)
  hasWholeDbReadLock : Bool
  hasWholeDbWriteLock : Bool
  readLockKeys : List String
  writeLockKeys : List String

/-- Where a database finds the key of an operation and how its Get reports an absent key. -/
structure Access (κ : Type) where
  locate : Namespace → String → κ
  absent : Status

def Access.cohort (absent : Status) : Access String := ⟨fun _ key => key, absent⟩

def noTransaction : Status :=
  ⟨.failedPrecondition, "No valid transaction available. Please Begin() first."⟩

def dbGet (acc : Access κ) (store : Store κ) (m : TransactionMetadata κ) (k : κ) :
    Except Status Int64 :=
  match m.db with
  | none => .error noTransaction
  | some txn =>
    match txn.read store k with
    | some value => .ok value
    | none => .error acc.absent

def dbPut (m : TransactionMetadata κ) (k : κ) (value : Int64) :
    Except Status (TransactionMetadata κ) :=
  match m.db with
  | none => .error noTransaction
  | some txn => .ok { m with db := some { txn with writes := Function.update txn.writes k value } }

def TransactionMetadata.addGetResponse (m : TransactionMetadata κ) (r : GetResponse) :
    TransactionMetadata κ :=
  { m with response := some (.committedResponse ⟨m.response.committed.getResponses ++ [r]⟩) }

/-- `value().relative_value()`: another case of the oneof reads as an empty RelativeValue. -/
def relativeValue (p : Put) : RelativeValue :=
  match p.value with
  | some (.relativeValue r) => r
  | _ => ⟨none, none⟩

/-- The value a relative put adds to: what Get finds, or the default when the key is absent. -/
def relativeBase (acc : Access κ) (store : Store κ) (n : Namespace) (p : Put)
    (m : TransactionMetadata κ) : Except Status Int64 :=
  match dbGet acc store m (acc.locate n p.key) with
  | .ok value => .ok value
  | .error status =>
    if status.code = .notFound ∧ (relativeValue p).defaultValue.isSome then
      .ok (NumericValue.int64 (relativeValue p).defaultValue)
    else .error status

def relativeSum (p : Put) (value : Int64) : Int64 :=
  value + NumericValue.int64 (relativeValue p).relativeValue

def relativePut (acc : Access κ) (store : Store κ) (n : Namespace) (p : Put)
    (m : TransactionMetadata κ) : Except Status (TransactionMetadata κ) :=
  match relativeBase acc store n p m with
  | .ok value => dbPut m (acc.locate n p.key) (relativeSum p value)
  | .error status => .error status

def processOperationInDb (acc : Access κ) (store : Store κ) (op : Operation)
    (m : TransactionMetadata κ) : Except Status (TransactionMetadata κ) :=
  match op.type with
  | some (.get g) =>
    match dbGet acc store m (acc.locate op.namespace_ g.key) with
    | .ok value => .ok (m.addGetResponse ⟨op.namespace_, g, ⟨some value⟩⟩)
    | .error status => .error status
  | some (.put p) =>
    match p.value with
    | some (.constantValue c) => dbPut m (acc.locate op.namespace_ p.key) c.int64
    | _ => relativePut acc store op.namespace_ p m
  -- No-op.
  | none => .ok m

/-- The operation loop of ProcessTransactionInDb: it stops at the first error. -/
def processOperations (acc : Access κ) (store : Store κ) :
    List Operation → TransactionMetadata κ → Except Status (TransactionMetadata κ)
  | [], m => .ok m
  | op :: ops, m =>
    match processOperationInDb acc store op m with
    | .ok m' => processOperations acc store ops m'
    | .error status => .error status

def begun (readOnly : Bool) : TransactionMetadata κ where
  response := some .pendingResponse
  db := some ⟨readOnly, fun _ => none⟩
  hasWholeDbReadLock := false
  hasWholeDbWriteLock := false
  readLockKeys := []
  writeLockKeys := []

/-- The puts of a transaction over a committed store. -/
def commitStore (store : Store κ) (m : TransactionMetadata κ) : Store κ :=
  match m.db with
  | none => store
  | some txn => txn.read store

/-- Run a whole operation list alone and commit it: the new store and the get responses. -/
def execute (acc : Access κ) (store : Store κ) (ops : List Operation) :
    Except Status (Store κ × List GetResponse) :=
  (processOperations acc store ops (begun false)).map fun m =>
    (commitStore store m, m.response.committed.getResponses)

/-- Run operation lists one after another, each in a transaction of its own. -/
def serialRun (acc : Access κ) : Store κ → List (List Operation) →
    Except Status (Store κ × List (List GetResponse))
  | store, [] => .ok (store, [])
  | store, ops :: rest =>
    match execute acc store ops with
    | .error status => .error status
    | .ok (store', responses) =>
      match serialRun acc store' rest with
      | .error status => .error status
      | .ok (store'', others) => .ok (store'', responses :: others)

def operationKeys (acc : Access κ) (op : Operation) : List κ :=
  match op.type with
  | some (.get g) => [acc.locate op.namespace_ g.key]
  | some (.put p) => [acc.locate op.namespace_ p.key]
  | none => []

def putKeys (acc : Access κ) (op : Operation) : List κ :=
  match op.type with
  | some (.put p) => [acc.locate op.namespace_ p.key]
  | _ => []

omit [DecidableEq κ] in
@[simp] theorem committed_addGetResponse (m : TransactionMetadata κ) (r : GetResponse) :
    (m.addGetResponse r).response.committed.getResponses =
      m.response.committed.getResponses ++ [r] := rfl

theorem dbPut_ok {m m' : TransactionMetadata κ} {k : κ} {value : Int64} (h : dbPut m k value = .ok m') :
    ∃ txn, m.db = some txn ∧
      m' = { m with db := some { txn with writes := Function.update txn.writes k value } } := by
  unfold dbPut at h
  cases hm : m.db with
  | none => simp [hm] at h
  | some txn =>
    simp only [hm, Except.ok.injEq] at h
    exact ⟨txn, rfl, h.symm⟩

theorem relativePut_ok {acc : Access κ} {store : Store κ} {n : Namespace} {p : Put}
    {m m' : TransactionMetadata κ} (h : relativePut acc store n p m = .ok m') :
    ∃ value, relativeBase acc store n p m = .ok value ∧
      dbPut m (acc.locate n p.key) (relativeSum p value) = .ok m' := by
  unfold relativePut at h
  cases hb : relativeBase acc store n p m with
  | error status => simp [hb] at h
  | ok value => exact ⟨value, rfl, by simpa [hb] using h⟩

theorem processOperationInDb_ok {acc : Access κ} {store : Store κ} {op : Operation}
    {m m' : TransactionMetadata κ} (h : processOperationInDb acc store op m = .ok m') :
    (op.type = none ∧ m' = m) ∨
    (∃ g value, op.type = some (.get g) ∧
      dbGet acc store m (acc.locate op.namespace_ g.key) = .ok value ∧
      m' = m.addGetResponse ⟨op.namespace_, g, ⟨some value⟩⟩) ∨
    ∃ p value, op.type = some (.put p) ∧
      dbPut m (acc.locate op.namespace_ p.key) value = .ok m' := by
  unfold processOperationInDb at h
  cases htype : op.type with
  | none =>
    simp only [htype, Except.ok.injEq] at h
    exact .inl ⟨rfl, h.symm⟩
  | some type =>
    simp only [htype] at h
    cases type with
    | get g =>
      cases hget : dbGet acc store m (acc.locate op.namespace_ g.key) with
      | error status => simp [hget] at h
      | ok value =>
        simp only [hget, Except.ok.injEq] at h
        exact .inr (.inl ⟨g, value, rfl, hget, h.symm⟩)
    | put p =>
      cases hv : p.value with
      | none =>
        obtain ⟨value, _, hput⟩ := relativePut_ok (by simpa only [hv] using h)
        exact .inr (.inr ⟨p, _, rfl, hput⟩)
      | some v =>
        cases v with
        | constantValue c => exact .inr (.inr ⟨p, c.int64, rfl, by simpa only [hv] using h⟩)
        | relativeValue r =>
          obtain ⟨value, _, hput⟩ := relativePut_ok (by simpa only [hv] using h)
          exact .inr (.inr ⟨p, _, rfl, hput⟩)

omit [DecidableEq κ] in
theorem dbGet_congr (acc : Access κ) {store store' : Store κ} (m : TransactionMetadata κ) {k : κ}
    (h : store k = store' k) : dbGet acc store m k = dbGet acc store' m k := by
  simp only [dbGet, OpenTransaction.read, h]

omit [DecidableEq κ] in
theorem relativeBase_congr (acc : Access κ) {store store' : Store κ} {n : Namespace} {p : Put}
    (m : TransactionMetadata κ) (h : store (acc.locate n p.key) = store' (acc.locate n p.key)) :
    relativeBase acc store n p m = relativeBase acc store' n p m := by
  rw [relativeBase, relativeBase, dbGet_congr acc m h]

theorem processOperationInDb_congr (acc : Access κ) {store store' : Store κ} (op : Operation)
    (m : TransactionMetadata κ) (h : ∀ k ∈ operationKeys acc op, store k = store' k) :
    processOperationInDb acc store op m = processOperationInDb acc store' op m := by
  obtain ⟨n, type⟩ := op
  cases type with
  | none => rfl
  | some type =>
    cases type with
    | get g =>
      simp only [processOperationInDb, dbGet_congr acc m (h _ (List.mem_singleton_self _))]
    | put p =>
      simp only [processOperationInDb, relativePut,
        relativeBase_congr acc m (h _ (List.mem_singleton_self _))]

theorem processOperations_congr (acc : Access κ) {store store' : Store κ} (ops : List Operation)
    (m : TransactionMetadata κ)
    (h : ∀ op ∈ ops, ∀ k ∈ operationKeys acc op, store k = store' k) :
    processOperations acc store ops m = processOperations acc store' ops m := by
  induction ops generalizing m with
  | nil => rfl
  | cons op ops ih =>
    rw [processOperations, processOperations,
      processOperationInDb_congr acc op m (h op (by simp))]
    cases processOperationInDb acc store' op m with
    | error status => rfl
    | ok m' => exact ih m' fun op' hop' => h op' (by simp [hop'])

theorem processOperations_append (acc : Access κ) (store : Store κ) (ops ops' : List Operation)
    (m : TransactionMetadata κ) :
    processOperations acc store (ops ++ ops') m =
      match processOperations acc store ops m with
      | .ok m' => processOperations acc store ops' m'
      | .error status => .error status := by
  induction ops generalizing m with
  | nil => rfl
  | cons op ops ih =>
    rw [List.cons_append, processOperations, processOperations]
    cases processOperationInDb acc store op m with
    | error status => rfl
    | ok m' => exact ih m'

theorem execute_ok_iff {acc : Access κ} {store : Store κ} {ops : List Operation}
    {result : Store κ × List GetResponse} :
    execute acc store ops = .ok result ↔ ∃ m, processOperations acc store ops (begun false) = .ok m ∧
      result = (commitStore store m, m.response.committed.getResponses) := by
  rw [execute]
  cases processOperations acc store ops (begun false) with
  | error status => simp [Except.map]
  | ok m => simp [Except.map, eq_comm]

theorem serialRun_append {acc : Access κ} {store store' store'' : Store κ}
    {lists : List (List Operation)} {ops : List Operation} {others : List (List GetResponse)}
    {responses : List GetResponse} (h : serialRun acc store lists = .ok (store', others))
    (he : execute acc store' ops = .ok (store'', responses)) :
    serialRun acc store (lists ++ [ops]) = .ok (store'', others ++ [responses]) := by
  induction lists generalizing store others with
  | nil =>
    cases h
    simp [serialRun, he]
  | cons first rest ih =>
    rw [serialRun] at h
    rw [List.cons_append, serialRun]
    cases hf : execute acc store first with
    | error status => simp [hf] at h
    | ok r =>
      simp only [hf] at h ⊢
      cases hr : serialRun acc r.1 rest with
      | error status => simp [hr] at h
      | ok rs =>
        simp only [hr, Except.ok.injEq, Prod.mk.injEq] at h
        obtain ⟨rfl, rfl⟩ := h
        rw [ih hr]
        rfl

inductive Agree {α β : Type} (R : α → β → Prop) : Except Status α → Except Status β → Prop
  | error (status : Status) : Agree R (.error status) (.error status)
  | ok {x : α} {y : β} (h : R x y) : Agree R (.ok x) (.ok y)

structure SameView (v m : TransactionMetadata κ) : Prop where
  response : v.response = m.response
  db : ∃ r r' w, v.db = some ⟨r, w⟩ ∧ m.db = some ⟨r', w⟩

section SameView
variable {acc : Access κ} {store : Store κ} {v m : TransactionMetadata κ}

omit [DecidableEq κ] in
theorem SameView.dbGet (h : SameView v m) (k : κ) : dbGet acc store v k = dbGet acc store m k := by
  obtain ⟨r, r', w, hv, hm⟩ := h.db
  simp only [Database.dbGet, hv, hm, OpenTransaction.read]

omit [DecidableEq κ] in
theorem SameView.relativeBase (h : SameView v m) (n : Namespace) (p : Put) :
    relativeBase acc store n p v = relativeBase acc store n p m := by
  rw [Database.relativeBase, Database.relativeBase, h.dbGet]

theorem SameView.dbPut (h : SameView v m) (k : κ) (value : Int64) :
    Agree SameView (dbPut v k value) (dbPut m k value) := by
  obtain ⟨r, r', w, hv, hm⟩ := h.db
  simp only [Database.dbPut, hv, hm]
  exact .ok ⟨h.response, r, r', _, rfl, rfl⟩

theorem SameView.relativePut (h : SameView v m) (n : Namespace) (p : Put) :
    Agree SameView (relativePut acc store n p v) (relativePut acc store n p m) := by
  rw [Database.relativePut, Database.relativePut, h.relativeBase]
  cases Database.relativeBase acc store n p m with
  | error status => exact .error status
  | ok value => exact h.dbPut _ _

theorem SameView.processOperationInDb (h : SameView v m) (op : Operation) :
    Agree SameView (processOperationInDb acc store op v) (processOperationInDb acc store op m) := by
  unfold Database.processOperationInDb
  cases op.type with
  | none => exact .ok h
  | some type =>
    cases type with
    | get g =>
      dsimp only
      rw [h.dbGet]
      cases Database.dbGet acc store m (acc.locate op.namespace_ g.key) with
      | error status => exact .error status
      | ok value => exact .ok ⟨by simp [TransactionMetadata.addGetResponse, h.response], h.db⟩
    | put p =>
      dsimp only
      cases p.value with
      | none => exact h.relativePut op.namespace_ p
      | some value =>
        cases value with
        | constantValue x => exact h.dbPut _ _
        | relativeValue x => exact h.relativePut op.namespace_ p

/-- m is the open transaction after the operations of done, were they run on store alone. -/
def View (acc : Access κ) (store : Store κ) (done : List Operation)
    (m : TransactionMetadata κ) : Prop :=
  ∃ v, processOperations acc store done (begun false) = .ok v ∧ SameView v m

theorem View.snoc {done : List Operation} {op : Operation} {m' : TransactionMetadata κ}
    (h : View acc store done m) (hop : Database.processOperationInDb acc store op m = .ok m') :
    View acc store (done ++ [op]) m' := by
  obtain ⟨v, hv, hs⟩ := h
  have hagree : Agree SameView (Database.processOperationInDb acc store op v)
      (Database.processOperationInDb acc store op m) := hs.processOperationInDb op
  rw [hop] at hagree
  cases hv' : Database.processOperationInDb acc store op v with
  | error status =>
    rw [hv'] at hagree
    cases hagree
  | ok v' =>
    rw [hv'] at hagree
    cases hagree with
    | ok h' =>
      refine ⟨v', ?_, h'⟩
      rw [processOperations_append, hv]
      simp [processOperations, hv']

theorem View.congr {store' : Store κ} {done : List Operation} (h : View acc store done m)
    (hkeys : ∀ op ∈ done, ∀ k ∈ operationKeys acc op, store k = store' k) :
    View acc store' done m := by
  obtain ⟨v, hv, hs⟩ := h
  exact ⟨v, by rwa [← processOperations_congr acc done (begun false) hkeys], hs⟩

omit [DecidableEq κ] in
theorem SameView.commitStore (h : SameView v m) : commitStore store v = commitStore store m := by
  obtain ⟨r, r', w, hv, hm⟩ := h.db
  simp only [Database.commitStore, hv, hm]
  rfl

theorem View.execute {ops : List Operation} (h : View acc store ops m) :
    execute acc store ops = .ok (Database.commitStore store m, m.response.committed.getResponses) := by
  obtain ⟨v, hv, hs⟩ := h
  exact execute_ok_iff.mpr ⟨v, hv, by rw [hs.commitStore, hs.response]⟩

theorem writes_of_processOperations {done : List Operation} {m m' : TransactionMetadata κ}
    (h : processOperations acc store done m = .ok m') {k : κ} {txn txn' : OpenTransaction κ}
    (hm : m.db = some txn) (hm' : m'.db = some txn') (hk : txn.writes k = none) :
    txn'.writes k = none ∨ ∃ op ∈ done, k ∈ putKeys acc op := by
  induction done generalizing m txn with
  | nil =>
    cases h
    rw [hm, Option.some.injEq] at hm'
    exact .inl (hm' ▸ hk)
  | cons op done ih =>
    rw [processOperations] at h
    cases hop : Database.processOperationInDb acc store op m with
    | error status => simp [hop] at h
    | ok m₁ =>
      simp only [hop] at h
      have htail {txn₁ : OpenTransaction κ} (h₁ : m₁.db = some txn₁) (hk₁ : txn₁.writes k = none) :
          txn'.writes k = none ∨ ∃ op' ∈ op :: done, k ∈ putKeys acc op' := by
        obtain hnone | ⟨op', hmem, hput⟩ := ih h h₁ hk₁
        · exact .inl hnone
        · exact .inr ⟨op', by simp [hmem], hput⟩
      obtain ⟨_, rfl⟩ | ⟨g, value, _, _, rfl⟩ | ⟨p, value, htype, hput⟩ := processOperationInDb_ok hop
      · exact htail hm hk
      · exact htail hm hk
      · obtain ⟨txn₀, h₀, rfl⟩ := dbPut_ok hput
        by_cases hkey : k = acc.locate op.namespace_ p.key
        · exact .inr ⟨op, by simp, by simp [putKeys, htype, hkey]⟩
        · rw [hm, Option.some.injEq] at h₀
          subst h₀
          exact htail rfl ((Function.update_of_ne hkey _ _).trans hk)

theorem View.commitStore_eq {ops : List Operation} (h : View acc store ops m) {k : κ}
    (hk : ∀ op ∈ ops, k ∉ putKeys acc op) : Database.commitStore store m k = store k := by
  obtain ⟨v, hv, hs⟩ := h
  obtain ⟨r, r', w, hvdb, hm⟩ := hs.db
  have hw : w k = none := by
    have hbegun : (begun false : TransactionMetadata κ).db = some ⟨false, fun _ => none⟩ := rfl
    obtain hnone | ⟨op, hop, hput⟩ := writes_of_processOperations (k := k) hv hbegun hvdb rfl
    · exact hnone
    · exact absurd hput (hk op hop)
  simp [Database.commitStore, hm, OpenTransaction.read, hw]

end SameView

end TwoPhaseCommit.Database
