import TwoPhaseCommit.Cohort

/-! Which locks the threads of a cohort hold: those of every key of their operations, from
before Begin until the transaction is committed or aborted in the database. -/
namespace TwoPhaseCommit.Cohort
open Database Grouping Locks

/-- The two key sets of ops: every put key in one, every other read key in the other. -/
structure KeySets.Valid (sets : KeySets) (acc : Access String) (ops : List Operation) : Prop where
  readNodup : sets.readonlyKeys.Nodup
  writeNodup : sets.writeKeys.Nodup
  disjoint : ∀ k ∈ sets.readonlyKeys, k ∉ sets.writeKeys
  puts : ∀ op ∈ ops, ∀ k ∈ putKeys acc op, k ∈ sets.writeKeys
  keys : ∀ op ∈ ops, ∀ k ∈ operationKeys acc op, k ∈ sets.readonlyKeys ∨ k ∈ sets.writeKeys

def PutsKey (ops : List Operation) (k : String) : Prop :=
  ∃ op ∈ ops, ∃ p, op.type = some (.put p) ∧ p.key = k

def GetsKey (ops : List Operation) (k : String) : Prop :=
  ∃ op ∈ ops, ∃ g, op.type = some (.get g) ∧ g.key = k

/-- What the two sets are after the loop has gone over ops. -/
structure KeySets.Exact (sets : KeySets) (ops : List Operation) : Prop where
  readNodup : sets.readonlyKeys.Nodup
  writeNodup : sets.writeKeys.Nodup
  mem_readonlyKeys : ∀ k, k ∈ sets.readonlyKeys ↔ GetsKey ops k ∧ ¬PutsKey ops k
  mem_writeKeys : ∀ k, k ∈ sets.writeKeys ↔ PutsKey ops k

section Snoc
variable {ops : List Operation} {n : Namespace} {g : Get} {p : Put} {k : String}

theorem putsKey_append {ops' : List Operation} :
    PutsKey (ops ++ ops') k ↔ PutsKey ops k ∨ PutsKey ops' k := by
  simp [PutsKey, or_and_right, exists_or]

theorem getsKey_append {ops' : List Operation} :
    GetsKey (ops ++ ops') k ↔ GetsKey ops k ∨ GetsKey ops' k := by
  simp [GetsKey, or_and_right, exists_or]

@[simp] theorem putsKey_put : PutsKey [⟨n, some (.put p)⟩] k ↔ p.key = k := by simp [PutsKey]
@[simp] theorem putsKey_get : ¬PutsKey [⟨n, some (.get g)⟩] k := by simp [PutsKey]
@[simp] theorem putsKey_none : ¬PutsKey [⟨n, none⟩] k := by simp [PutsKey]
@[simp] theorem getsKey_put : ¬GetsKey [⟨n, some (.put p)⟩] k := by simp [GetsKey]
@[simp] theorem getsKey_get : GetsKey [⟨n, some (.get g)⟩] k ↔ g.key = k := by simp [GetsKey]
@[simp] theorem getsKey_none : ¬GetsKey [⟨n, none⟩] k := by simp [GetsKey]

end Snoc

theorem KeySets.Exact.add {sets : KeySets} {ops : List Operation} (h : sets.Exact ops)
    (op : Operation) : (sets.add op).Exact (ops ++ [op]) := by
  obtain ⟨n, _ | g | p⟩ := op
  · refine ⟨h.readNodup, h.writeNodup, fun k => ?_, fun k => ?_⟩
    · change k ∈ sets.readonlyKeys ↔ _
      simpa [putsKey_append, getsKey_append] using h.mem_readonlyKeys k
    · change k ∈ sets.writeKeys ↔ _
      simpa [putsKey_append] using h.mem_writeKeys k
  · by_cases hg : g.key ∈ sets.writeKeys
    · -- the key is put already, so it stays out of the read-only keys
      have hadd : sets.add ⟨n, some (.get g)⟩ = sets := by simp [KeySets.add, hg]
      have hput : PutsKey ops g.key := (h.mem_writeKeys g.key).mp hg
      rw [hadd]
      refine ⟨h.readNodup, h.writeNodup, fun k => ?_, fun k => ?_⟩
      · rw [h.mem_readonlyKeys, putsKey_append, getsKey_append, getsKey_get]
        by_cases hk : g.key = k
        · subst hk
          simp [hput]
        · simp [hk]
      · simpa [putsKey_append] using h.mem_writeKeys k
    · have hadd : sets.add ⟨n, some (.get g)⟩ =
          ⟨sets.readonlyKeys.insert g.key, sets.writeKeys⟩ := by simp [KeySets.add, hg]
      have hput : ¬PutsKey ops g.key := fun hput => hg ((h.mem_writeKeys g.key).mpr hput)
      rw [hadd]
      refine ⟨h.readNodup.insert, h.writeNodup, fun k => ?_, fun k => ?_⟩
      · rw [List.mem_insert_iff, h.mem_readonlyKeys, putsKey_append, getsKey_append, getsKey_get,
          @eq_comm _ k]
        by_cases hk : g.key = k
        · subst hk
          simp [hput]
        · simp [hk]
      · simpa [putsKey_append] using h.mem_writeKeys k
  · refine ⟨h.readNodup.erase p.key, h.writeNodup.insert, fun k => ?_, fun k => ?_⟩
    · change k ∈ sets.readonlyKeys.erase p.key ↔ _
      rw [h.readNodup.mem_erase_iff, h.mem_readonlyKeys, putsKey_append, getsKey_append, putsKey_put]
      simp only [getsKey_put, or_false]
      tauto
    · change k ∈ sets.writeKeys.insert p.key ↔ _
      rw [List.mem_insert_iff, h.mem_writeKeys, putsKey_append, putsKey_put, or_comm, eq_comm]

theorem keySets_exact (ops : List Operation) : (keySets ops).Exact ops := by
  induction ops using List.reverseRecOn with
  | nil =>
    exact ⟨List.nodup_nil, List.nodup_nil, by simp [keySets, GetsKey], by simp [keySets, PutsKey]⟩
  | append_singleton ops op ih =>
    rw [keySets, List.foldl_append]
    exact ih.add op

/-- A key that is read before and after its put is only locked for writing. -/
example : keySets [⟨⟨"", "c"⟩, some (.get ⟨"k"⟩)⟩, ⟨⟨"", "c"⟩, some (.put ⟨"k", none⟩)⟩,
    ⟨⟨"", "c"⟩, some (.get ⟨"k"⟩)⟩, ⟨⟨"", "c"⟩, some (.get ⟨"l"⟩)⟩] = ⟨["l"], ["k"]⟩ := rfl

theorem putsKey_of_mem_putKeys {c : Adapter} {ops : List Operation} {op : Operation}
    (hop : op ∈ ops) {k : String} (hk : k ∈ putKeys c.access op) : PutsKey ops k := by
  obtain ⟨n, _ | g | p⟩ := op
  · cases hk
  · cases hk
  · exact ⟨_, hop, p, rfl, (List.mem_singleton.mp hk).symm⟩

theorem getsKey_or_putsKey {c : Adapter} {ops : List Operation} {op : Operation} (hop : op ∈ ops)
    {k : String} (hk : k ∈ operationKeys c.access op) : GetsKey ops k ∨ PutsKey ops k := by
  obtain ⟨n, _ | g | p⟩ := op
  · cases hk
  · exact .inl ⟨_, hop, g, rfl, (List.mem_singleton.mp hk).symm⟩
  · exact .inr ⟨_, hop, p, rfl, (List.mem_singleton.mp hk).symm⟩

theorem keySets_valid (c : Adapter) (ops : List Operation) : (keySets ops).Valid c.access ops := by
  have h := keySets_exact ops
  refine ⟨h.readNodup, h.writeNodup, ?_, ?_, ?_⟩
  · intro k hr hw
    exact ((h.mem_readonlyKeys k).mp hr).2 ((h.mem_writeKeys k).mp hw)
  · intro op hop k hk
    exact (h.mem_writeKeys k).mpr (putsKey_of_mem_putKeys hop hk)
  · intro op hop k hk
    by_cases hput : PutsKey ops k
    · exact .inr ((h.mem_writeKeys k).mpr hput)
    · exact .inl ((h.mem_readonlyKeys k).mpr ⟨(getsKey_or_putsKey hop hk).resolve_right hput, hput⟩)

def lockFor (c : Adapter) (k : String) : LockName :=
  if c.supportsConcurrentWrites then .key k else .wholeDb

theorem isPut_of_mem_putKeys {K : Type} {acc : Access K} {op : Operation} {k : K}
    (hk : k ∈ putKeys acc op) : isPut op := by
  unfold putKeys at hk
  unfold isPut
  split at hk
  · simp_all
  · cases hk

theorem mem_dbLocks_of_put {c : Adapter} {orders : KeyOrders} {ops : List Operation}
    {op : Operation} (hop : op ∈ ops) {k : String} (hk : k ∈ putKeys c.access op) :
    ⟨lockFor c k, .write⟩ ∈ dbLocks c orders ops := by
  unfold dbLocks lockFor
  split_ifs
  · refine List.mem_append_right _ (List.mem_map.mpr ⟨k, ?_, rfl⟩)
    exact (orders.write.perm _).mem_iff.mpr ((keySets_valid c ops).puts op hop k hk)
  · have hput : ops.any isPut := List.any_eq_true.mpr ⟨op, hop, isPut_of_mem_putKeys hk⟩
    simp [wholeDbLocks, hput]

theorem mem_dbLocks_of_key {c : Adapter} {orders : KeyOrders} {ops : List Operation}
    {op : Operation} (hop : op ∈ ops) {k : String} (hk : k ∈ operationKeys c.access op) :
    ∃ mode, ⟨lockFor c k, mode⟩ ∈ dbLocks c orders ops := by
  unfold dbLocks lockFor
  split_ifs
  · obtain hr | hw := (keySets_valid c ops).keys op hop k hk
    · refine ⟨.read, List.mem_append_left _ (List.mem_map.mpr ⟨k, ?_, rfl⟩)⟩
      exact (orders.read.perm _).mem_iff.mpr hr
    · refine ⟨.write, List.mem_append_right _ (List.mem_map.mpr ⟨k, ?_, rfl⟩)⟩
      exact (orders.write.perm _).mem_iff.mpr hw
  · unfold wholeDbLocks
    split_ifs with hput hget
    · exact ⟨.write, List.mem_singleton_self _⟩
    · exact ⟨.read, List.mem_singleton_self _⟩
    · exfalso
      have hp : isPut op = false := by simpa using fun h => hput (List.any_eq_true.mpr ⟨op, hop, h⟩)
      have hg : isGet op = false := by simpa using fun h => hget (List.any_eq_true.mpr ⟨op, hop, h⟩)
      unfold isPut at hp
      unfold isGet at hg
      unfold operationKeys at hk
      split at hk <;> simp_all

theorem length_dbLocks (c : Adapter) (orders orders' : KeyOrders) (ops : List Operation) :
    (dbLocks c orders ops).length = (dbLocks c orders' ops).length := by
  unfold dbLocks
  split
  · simp only [List.length_append, List.length_map, (orders.read.perm _).length_eq,
      (orders.write.perm _).length_eq, (orders'.read.perm _).length_eq,
      (orders'.write.perm _).length_eq]
  · rfl

theorem dbLocks_nodup (c : Adapter) (orders : KeyOrders) (ops : List Operation) :
    ((dbLocks c orders ops).map Locks.Request.name).Nodup := by
  have hinj : Function.Injective LockName.key := fun _ _ h => LockName.key.inj h
  have hv := keySets_valid c ops
  unfold dbLocks
  split_ifs
  · rw [List.map_append, List.map_map, List.map_map]
    refine List.nodup_append'.mpr ⟨?_, ?_, ?_⟩
    · exact ((orders.read.perm _).nodup_iff.mpr hv.readNodup).map hinj
    · exact ((orders.write.perm _).nodup_iff.mpr hv.writeNodup).map hinj
    · intro name hr hw
      obtain ⟨k, hk, rfl⟩ := List.mem_map.mp hr
      obtain ⟨k', hk', he⟩ := List.mem_map.mp hw
      obtain rfl := hinj he
      exact hv.disjoint k' ((orders.read.perm _).mem_iff.mp hk) ((orders.write.perm _).mem_iff.mp hk')
  · unfold wholeDbLocks
    split_ifs <;> simp

theorem heldLocks_record {m : Metadata} {r : LockRequest}
    (h : r.name ∉ (heldLocks m).map Locks.Request.name) :
    (heldLocks (record m r)).Perm (r :: heldLocks m) := by
  obtain ⟨name, mode⟩ := r
  refine List.perm_iff_count.mpr fun a => ?_
  cases name with
  | key k =>
    cases mode <;>
    · simp only [heldLocks, record, List.map_append, List.map_singleton, List.count_append,
        List.count_cons, List.count_nil]
      omega
  | wholeDb =>
    have hw : m.hasWholeDbWriteLock = false := by
      rw [← Bool.not_eq_true]
      intro hw
      simp [heldLocks, wholeDbLock, hw] at h
    have hr : m.hasWholeDbReadLock = false := by
      rw [← Bool.not_eq_true]
      intro hr
      simp [heldLocks, wholeDbLock, hr] at h
    cases mode <;>
    · simp only [heldLocks, record, wholeDbLock, hw, hr, List.count_append, List.count_cons,
        List.count_nil, if_true, Bool.false_eq_true, if_false]
      omega

/-- The phases in which every lock of the transaction is held. -/
def Phase.covered : Phase → Bool
  | .running _ | .putting _ _ _ | .persistingResponse | .persistingRequest | .voting | .waiting
  | .committing | .aborting none _ => true
  | _ => false

/-- The locks that a thread still has to give back. -/
def owed (t : Thread) : List LockRequest :=
  match t.phase with
  | .releasing todo => todo
  | .finished => []
  | _ => heldLocks t.metadata

def Phase.wanted : Phase → List LockRequest
  | .locking todo => todo
  | _ => []

def Phase.locks : Phase → Bool
  | .locking _ => true
  | _ => false

structure LockInv (c : Adapter) (T : Table LockName String) (id : String) (t : Thread) : Prop where
  id_eq : t.request.transactionId = id
  owned : Owned T id (owed t)
  plan : t.phase.locks ∨ t.phase.covered → ∃ orders,
    (heldLocks t.metadata ++ t.phase.wanted).Perm (dbLocks c orders t.request.transaction.ops)

def Phase.keepsLocks : Phase → Bool
  | .locking _ | .releasing _ | .finished => false
  | _ => true

theorem owed_of_keepsLocks {t : Thread} (h : t.phase.keepsLocks) : owed t = heldLocks t.metadata := by
  unfold owed
  split <;> simp_all [Phase.keepsLocks]

theorem LockInv.advance {c : Adapter} {T : Table LockName String} {id : String}
    {request : PrepareTransactionRequest} {m m' : Metadata} {p p' : Phase}
    (h : LockInv c T id ⟨request, m, p⟩) (hm : heldLocks m' = heldLocks m)
    (howed : owed ⟨request, m, p⟩ = heldLocks m) (hw : p.wanted = []) (hp : p'.keepsLocks)
    (hc : p'.covered → p.locks ∨ p.covered) : LockInv c T id ⟨request, m', p'⟩ where
  id_eq := h.id_eq
  owned := by
    have hk : (⟨request, m', p'⟩ : Thread).phase.keepsLocks := hp
    rw [owed_of_keepsLocks hk]
    change Owned T id (heldLocks m')
    rw [hm, ← howed]
    exact h.owned
  plan hp' := by
    have hlocks : p'.locks = false := by
      unfold Phase.keepsLocks at hp
      unfold Phase.locks
      split at hp <;> simp_all
    have hwanted : p'.wanted = [] := by
      unfold Phase.keepsLocks at hp
      unfold Phase.wanted
      split at hp <;> simp_all
    obtain ⟨orders, hperm⟩ := h.plan (hc (by simpa [hlocks] using hp'))
    refine ⟨orders, ?_⟩
    change (heldLocks m' ++ p'.wanted).Perm _
    rw [hm, hwanted, ← hw]
    exact hperm

theorem orFault_cases {α : Type} (fault : Option Status) (r : Except Status α) :
    (∃ status, (fault = none → r = .error status) ∧ orFault fault r = .error status) ∨
      ∃ a, r = .ok a ∧ orFault fault r = .ok a := by
  cases fault with
  | some status => exact .inl ⟨status, (fun h => by cases h), rfl⟩
  | none =>
    cases r with
    | error status => exact .inl ⟨status, fun _ => rfl, rfl⟩
    | ok a => exact .inr ⟨a, rfl, rfl⟩

theorem operate_relative_cases (c : Adapter) (store : Store String) (fault : Option Status)
    (n : Namespace) (p : Put) (hv : ∀ v, p.value ≠ some (.constantValue v))
    (rest : List Operation) (m : Metadata) :
    (∃ status, (fault = none →
        processOperationInDb c.access store ⟨n, some (.put p)⟩ m = .error status) ∧
      operate c.access store fault ⟨n, some (.put p)⟩ rest m = (m, .votingAbort status)) ∨
    ∃ key value, processOperationInDb c.access store ⟨n, some (.put p)⟩ m = dbPut m key value ∧
      operate c.access store fault ⟨n, some (.put p)⟩ rest m = (m, .putting key value rest) := by
  have hrelative : p.value = none ∨ ∃ r, p.value = some (.relativeValue r) := by
    cases hp : p.value with
    | none => exact .inl rfl
    | some v =>
      cases v with
      | constantValue v => exact absurd hp (hv v)
      | relativeValue r => exact .inr ⟨r, rfl⟩
  have hcases := orFault_cases fault (relativeBase c.access store n p m)
  obtain hp | ⟨r, hp⟩ := hrelative
  all_goals
    obtain ⟨status, hbase, hfault⟩ | ⟨value, hbase, hfault⟩ := hcases
    · refine .inl ⟨status, fun hnone => ?_, ?_⟩
      · simp only [processOperationInDb, hp, relativePut, hbase hnone]
      · simp only [operate, hp, hfault]
    · refine .inr ⟨p.key, relativeSum p value, ?_, ?_⟩
      · simp only [processOperationInDb, hp, relativePut, hbase]
        rfl
      · simp only [operate, hp, hfault]

/-- The first database call of an operation fails, ends the operation, or leaves the put to do. -/
theorem operate_cases (c : Adapter) (store : Store String) (fault : Option Status)
    (op : Operation) (rest : List Operation) (m : Metadata) :
    (∃ status, (fault = none → processOperationInDb c.access store op m = .error status) ∧
      operate c.access store fault op rest m = (m, .votingAbort status)) ∨
    (∃ m', processOperationInDb c.access store op m = .ok m' ∧
      operate c.access store fault op rest m = (m', .running rest)) ∨
    ∃ key value, processOperationInDb c.access store op m = dbPut m key value ∧
      operate c.access store fault op rest m = (m, .putting key value rest) := by
  have hloc (n : Namespace) (key : String) : c.access.locate n key = key := rfl
  obtain ⟨n, _ | g | ⟨key, _ | v | r⟩⟩ := op
  · exact .inr (.inl ⟨m, rfl, rfl⟩)
  · obtain ⟨status, hget, hfault⟩ | ⟨value, hget, hfault⟩ :=
      orFault_cases fault (dbGet c.access store m g.key)
    · refine .inl ⟨status, fun hnone => ?_, ?_⟩
      · simp only [processOperationInDb, hloc, hget hnone]
      · simp only [operate, hfault]
    · refine .inr (.inl ⟨m.addGetResponse ⟨n, g, ⟨some value⟩⟩, ?_, ?_⟩)
      · simp only [processOperationInDb, hloc, hget]
      · simp only [operate, hfault]
  · exact (operate_relative_cases c store fault n _ (by simp) rest m).imp_right .inr
  · obtain ⟨status, hput, hfault⟩ | ⟨m', hput, hfault⟩ :=
      orFault_cases fault (dbPut m key v.int64)
    · refine .inl ⟨status, fun hnone => ?_, ?_⟩
      · simp only [processOperationInDb, hloc, hput hnone]
      · simp only [operate, hfault]
    · refine .inr (.inl ⟨m', ?_, ?_⟩)
      · simp only [processOperationInDb, hloc, hput]
      · simp only [operate, hfault]
  · exact (operate_relative_cases c store fault n _ (by simp) rest m).imp_right .inr

theorem finishPut_cases (fault : Option Status) (key : String) (value : Int64)
    (rest : List Operation) (m : Metadata) :
    (∃ status, finishPut fault key value rest m = (m, .votingAbort status)) ∨
    ∃ m', dbPut m key value = .ok m' ∧ finishPut fault key value rest m = (m', .running rest) := by
  obtain ⟨status, _, hfault⟩ | ⟨m', hput, hfault⟩ := orFault_cases fault (dbPut m key value)
  · exact .inl ⟨status, by simp only [finishPut, hfault]⟩
  · exact .inr ⟨m', hput, by simp only [finishPut, hfault]⟩

theorem heldLocks_of_dbPut {m m' : Metadata} {key : String} {value : Int64}
    (h : dbPut m key value = .ok m') : heldLocks m' = heldLocks m := by
  obtain ⟨txn, _, rfl⟩ := dbPut_ok h
  rfl

theorem heldLocks_of_processOperationInDb {acc : Access String} {store : Store String}
    {op : Operation} {m m' : Metadata} (h : processOperationInDb acc store op m = .ok m') :
    heldLocks m' = heldLocks m := by
  obtain ⟨_, rfl⟩ | ⟨_, _, _, _, rfl⟩ | ⟨_, _, _, hput⟩ := processOperationInDb_ok h
  · rfl
  · rfl
  · exact heldLocks_of_dbPut hput

def AllThreads (P : String → Thread → Prop) (s : State) : Prop :=
  ∀ id t, s.threads id = some t → P id t

theorem allThreads_set {P Q : String → Thread → Prop} {s : State} {id : String} {t : Thread}
    (h : AllThreads P s) (hother : ∀ u t', u ≠ id → P u t' → Q u t') (ht : Q id t) :
    AllThreads Q (s.set id t) := by
  intro u t' hu
  by_cases hid : u = id
  · subst hid
    simp only [State.set, Function.update_self, Option.some.injEq] at hu
    rwa [← hu]
  · simp only [State.set, Function.update_of_ne hid] at hu
    exact hother u t' hid (h u t' hu)

theorem LockInv.fresh {c : Adapter} {T : Table LockName String} {id : String}
    {request : PrepareTransactionRequest} {m : Metadata} {r : LockRequest}
    {todo : List LockRequest} (h : LockInv c T id ⟨request, m, .locking (r :: todo)⟩) :
    r.name ∉ (heldLocks m).map Locks.Request.name := by
  obtain ⟨orders, hperm⟩ := h.plan (.inl rfl)
  have hnodup : ((heldLocks m ++ r :: todo).map Locks.Request.name).Nodup :=
    (hperm.map Locks.Request.name).nodup_iff.mpr (dbLocks_nodup c orders _)
  rw [List.map_append, List.map_cons, List.nodup_append'] at hnodup
  exact fun hr => hnodup.2.2 hr List.mem_cons_self

theorem LockInv.lock {c : Adapter} {T T' : Table LockName String} {id : String}
    {request : PrepareTransactionRequest} {m : Metadata} {r : LockRequest}
    {todo : List LockRequest} (h : LockInv c T id ⟨request, m, .locking (r :: todo)⟩)
    (ha : T.acquire r id = some T') :
    LockInv c T' id ⟨request, record m r, .locking todo⟩ := by
  obtain ⟨orders, hperm⟩ := h.plan (.inl rfl)
  have hrec := heldLocks_record h.fresh
  refine ⟨h.id_eq, (h.owned.cons h.fresh ha).perm hrec, fun _ => ⟨orders, ?_⟩⟩
  exact (hrec.append_right todo).trans (List.perm_middle.symm.trans hperm)

/-- Each thread holds the locks that its phase says it does. -/
theorem lockInv_step {c : Adapter} {s s' : State} {x : String × Action}
    (h : AllThreads (LockInv c s.mutexes) s) (hs : Step c s x s') :
    AllThreads (LockInv c s'.mutexes) s' := by
  have hsame {id : String} {t : Thread} (ht : LockInv c s.mutexes id t) :
      AllThreads (LockInv c s.mutexes) (s.set id t) :=
    allThreads_set h (fun _ _ _ hu => hu) ht
  cases hs with
  | start request orders hid hnew =>
    exact hsame ⟨hid, .nil, fun _ => ⟨orders, List.Perm.refl _⟩⟩
  | lock conditionHolds ht ha =>
    have hl := h _ _ ht
    have hother (u : String) (t' : Thread) (hu : LockInv c s.mutexes u t') :
        LockInv c _ u t' := ⟨hu.id_eq, hu.owned.acquire ha, hu.plan⟩
    refine allThreads_set h (fun u t' _ hu => hother u t' hu) ?_
    cases conditionHolds with
    | false =>
      exact ⟨hl.id_eq, hl.owned.acquire ha, fun hp => by simp [Phase.locks, Phase.covered] at hp⟩
    | true => exact hl.lock ha
  | begin ht => exact hsame ((h _ _ ht).advance rfl rfl rfl rfl fun _ => .inl rfl)
  | beginFault ht hf => exact hsame ((h _ _ ht).advance rfl rfl rfl rfl fun hc => by cases hc)
  | @operate id request m op todo fault ht hf =>
    have hl := h _ _ ht
    obtain ⟨status, _, he⟩ | ⟨m', hop, he⟩ | ⟨key, value, hop, he⟩ :=
      operate_cases c s.store fault op todo m
    · rw [he]
      exact hsame (hl.advance rfl rfl rfl rfl fun hc => by cases hc)
    · rw [he]
      exact hsame (hl.advance (heldLocks_of_processOperationInDb hop) rfl rfl rfl fun _ => .inr rfl)
    · rw [he]
      exact hsame (hl.advance rfl rfl rfl rfl fun _ => .inr rfl)
  | @put id request m key value todo fault ht hf =>
    have hl := h _ _ ht
    obtain ⟨status, he⟩ | ⟨m', hop, he⟩ := finishPut_cases fault key value todo m
    · rw [he]
      exact hsame (hl.advance rfl rfl rfl rfl fun hc => by cases hc)
    · rw [he]
      exact hsame (hl.advance (heldLocks_of_dbPut hop) rfl rfl rfl fun _ => .inr rfl)
  | @endOperations id request m ht =>
    cases request.onlyCohort with
    | false => exact hsame ((h _ _ ht).advance rfl rfl rfl rfl fun _ => .inr rfl)
    | true => exact hsame ((h _ _ ht).advance rfl rfl rfl rfl fun _ => .inr rfl)
  | persistResponse written ht =>
    cases written with
    | false => exact hsame ((h _ _ ht).advance rfl rfl rfl rfl fun hc => by cases hc)
    | true => exact hsame ((h _ _ ht).advance rfl rfl rfl rfl fun _ => .inr rfl)
  | persistRequest written ht =>
    cases written with
    | false => exact hsame ((h _ _ ht).advance rfl rfl rfl rfl fun hc => by cases hc)
    | true => exact hsame ((h _ _ ht).advance rfl rfl rfl rfl fun _ => .inr rfl)
  | vote ht => exact hsame ((h _ _ ht).advance rfl rfl rfl rfl fun _ => .inr rfl)
  | pollAgain ht hd => exact h
  | pollCommit ht => exact hsame ((h _ _ ht).advance rfl rfl rfl rfl fun _ => .inr rfl)
  | pollAbort reason ht => exact hsame ((h _ _ ht).advance rfl rfl rfl rfl fun _ => .inr rfl)
  | voteAbort ht => exact hsame ((h _ _ ht).advance rfl rfl rfl rfl fun hc => by cases hc)
  | commitFault ht hf => exact h
  | commit ht =>
    have hl := h _ _ ht
    refine allThreads_set h (fun u t' _ hu => hu) ⟨hl.id_eq, hl.owned, ?_⟩
    intro hp
    simp [Phase.locks, Phase.covered] at hp
  | abort ht =>
    have hl := h _ _ ht
    refine hsame ⟨hl.id_eq, ?_, fun hp => by simp [Phase.locks, Phase.covered] at hp⟩
    exact hl.owned
  | unlock ht =>
    have hl := h _ _ ht
    have hheld := hl.owned.held _ List.mem_cons_self
    refine allThreads_set h ?_ ⟨hl.id_eq, hl.owned.release_head, ?_⟩
    · intro u t' hne hu
      exact ⟨hu.id_eq, hu.owned.release_other hheld (Ne.symm hne), hu.plan⟩
    · intro hp
      simp [Phase.locks, Phase.covered] at hp
  | finish ht =>
    have hl := h _ _ ht
    refine allThreads_set h (fun u t' _ hu => hu) ⟨hl.id_eq, .nil, ?_⟩
    intro hp
    simp [Phase.locks, Phase.covered] at hp

theorem lockInv_run {c : Adapter} {store : Store String} {xs : List (String × Action)} {s : State}
    (h : Run c store xs s) : AllThreads (LockInv c s.mutexes) s :=
  Runs.Run.invariant (I := fun _ s => AllThreads (LockInv c s.mutexes) s)
    (fun _ _ ht => by cases ht) (fun _ _ _ _ _ hi hs => lockInv_step hi hs) h

/-- A thread in a covered phase holds the lock of every key of its operations, for writing if
it puts the key. -/
structure Covers (c : Adapter) (T : Table LockName String) (id : String)
    (ops : List Operation) : Prop where
  keys : ∀ op ∈ ops, ∀ k ∈ operationKeys c.access op, ∃ mode, Held T id ⟨lockFor c k, mode⟩
  puts : ∀ op ∈ ops, ∀ k ∈ putKeys c.access op, Held T id ⟨lockFor c k, .write⟩

theorem LockInv.covers {c : Adapter} {T : Table LockName String} {id : String} {t : Thread}
    (h : LockInv c T id t) (hc : t.phase.covered) : Covers c T id t.request.transaction.ops := by
  obtain ⟨orders, hperm⟩ := h.plan (.inr hc)
  have hkeeps : t.phase.keepsLocks := by
    unfold Phase.covered at hc
    unfold Phase.keepsLocks
    split at hc <;> simp_all
  have hheld : ∀ r ∈ dbLocks c orders t.request.transaction.ops, Held T id r := by
    intro r hr
    obtain hr | hr := List.mem_append.mp (hperm.mem_iff.mpr hr)
    · exact h.owned.held r (owed_of_keepsLocks hkeeps ▸ hr)
    · unfold Phase.covered at hc
      unfold Phase.wanted at hr
      split at hc <;> simp_all
  refine ⟨?_, ?_⟩
  · intro op hop k hk
    obtain ⟨mode, hm⟩ := mem_dbLocks_of_key hop hk
    exact ⟨mode, hheld _ hm⟩
  · intro op hop k hk
    exact hheld _ (mem_dbLocks_of_put hop hk)

theorem Covers.disjoint {c : Adapter} {T : Table LockName String} {id u : String}
    {ops ops' : List Operation} (h : Covers c T id ops) (hu : Covers c T u ops') (hne : u ≠ id)
    {op op' : Operation} (hop : op ∈ ops) (hop' : op' ∈ ops') {k : String}
    (hk : k ∈ putKeys c.access op) : k ∉ operationKeys c.access op' := by
  intro hk'
  obtain ⟨mode, hm⟩ := hu.keys op' hop' k hk'
  exact hne ((h.puts op hop k hk).exclusive hm).symm

end TwoPhaseCommit.Cohort
