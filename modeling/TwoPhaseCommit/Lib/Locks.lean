import Mathlib.Data.List.Nodup
import Mathlib.Logic.Function.Basic
import Mathlib.Logic.Relation
import Mathlib.Order.Defs.Unbundled

/-! A table of reader/writer mutexes: acquiring, releasing, and who excludes whom. An order on
the locks that everybody keeps to excludes deadlock. -/
namespace Locks
variable {κ ι : Type*}

inductive Mode where
  | read
  | write
  deriving DecidableEq, Repr

/-- A mutex with readers has no writer and the other way round. -/
inductive Mutex (ι : Type*) where
  | shared (readers : List ι)
  | exclusive (writer : ι)

/-- none is a caller that has to wait. -/
def Mutex.acquire (m : Mutex ι) (mode : Mode) (i : ι) : Option (Mutex ι) :=
  match m, mode with
  | .shared readers, .read => some (.shared (i :: readers))
  | .shared [], .write => some (.exclusive i)
  | _, _ => none

def Mutex.release [DecidableEq ι] (m : Mutex ι) (mode : Mode) (i : ι) : Mutex ι :=
  match m, mode with
  | .shared readers, .read => .shared (readers.erase i)
  | .exclusive _, .write => .shared []
  | m, _ => m

def Mutex.HeldBy (m : Mutex ι) (mode : Mode) (i : ι) : Prop :=
  match m, mode with
  | .shared readers, .read => i ∈ readers
  | .exclusive writer, .write => writer = i
  | _, _ => False

structure Request (κ : Type*) where
  name : κ
  mode : Mode
  deriving DecidableEq, Repr

abbrev Table (κ ι : Type*) := κ → Mutex ι

def Table.free : Table κ ι := fun _ => .shared []

def Table.acquire [DecidableEq κ] (T : Table κ ι) (r : Request κ) (i : ι) : Option (Table κ ι) :=
  ((T r.name).acquire r.mode i).map fun m => Function.update T r.name m

def Table.release [DecidableEq κ] [DecidableEq ι] (T : Table κ ι) (r : Request κ) (i : ι) :
    Table κ ι :=
  Function.update T r.name ((T r.name).release r.mode i)

def Held (T : Table κ ι) (i : ι) (r : Request κ) : Prop := (T r.name).HeldBy r.mode i

/-- i holds all of rs, which name different mutexes. -/
structure Owned (T : Table κ ι) (i : ι) (rs : List (Request κ)) : Prop where
  distinct : (rs.map Request.name).Nodup
  held : ∀ r ∈ rs, Held T i r

theorem Mutex.heldBy_of_acquire {m m' : Mutex ι} {mode : Mode} {i : ι}
    (h : m.acquire mode i = some m') : m'.HeldBy mode i := by
  unfold Mutex.acquire at h
  split at h <;> cases h
  · exact List.mem_cons_self
  · rfl

theorem Mutex.heldBy_of_acquire_eq_none {m : Mutex ι} {mode : Mode} {i : ι}
    (h : m.acquire mode i = none) : ∃ j mode', m.HeldBy mode' j := by
  cases m with
  | exclusive writer => exact ⟨writer, .write, rfl⟩
  | shared readers =>
    cases mode with
    | read => cases h
    | write =>
      cases readers with
      | nil => cases h
      | cons j readers => exact ⟨j, .read, List.mem_cons_self⟩

theorem Mutex.HeldBy.acquire {m m' : Mutex ι} {mode mode' : Mode} {i j : ι}
    (h : m.HeldBy mode j) (ha : m.acquire mode' i = some m') : m'.HeldBy mode j := by
  unfold Mutex.acquire at ha
  split at ha <;> cases ha
  · cases mode with
    | read => exact List.mem_cons_of_mem _ h
    | write => exact h
  · cases mode with
    | read => cases h
    | write => cases h

theorem Mutex.HeldBy.release [DecidableEq ι] {m : Mutex ι} {mode mode' : Mode} {i j : ι}
    (h : m.HeldBy mode j) (hi : m.HeldBy mode' i) (hij : i ≠ j) :
    (m.release mode' i).HeldBy mode j := by
  cases m with
  | shared readers =>
    cases mode' with
    | write => exact h
    | read =>
      cases mode with
      | read => exact (List.mem_erase_of_ne (Ne.symm hij)).mpr h
      | write => exact h
  | exclusive writer =>
    cases mode' with
    | read => exact h
    | write =>
      cases mode with
      | read => cases h
      | write => exact absurd (hi.symm.trans h) hij

theorem Mutex.HeldBy.exclusive {m : Mutex ι} {mode : Mode} {i j : ι} (h : m.HeldBy .write i)
    (h' : m.HeldBy mode j) : i = j := by
  cases m with
  | shared readers => cases h
  | exclusive writer =>
    cases mode with
    | read => cases h'
    | write => exact h.symm.trans h'

theorem Mutex.HeldBy.of_acquire {m m' : Mutex ι} {mode mode' : Mode} {i j : ι}
    (h : m'.HeldBy mode j) (ha : m.acquire mode' i = some m') :
    m.HeldBy mode j ∨ j = i ∧ mode = mode' := by
  unfold Mutex.acquire at ha
  split at ha <;> cases ha
  · cases mode with
    | read => exact (List.mem_cons.mp h).symm.imp_right fun hj => ⟨hj, rfl⟩
    | write => cases h
  · cases mode with
    | read => cases h
    | write => exact .inr ⟨h.symm, rfl⟩

theorem Mutex.HeldBy.of_release [DecidableEq ι] {m : Mutex ι} {mode mode' : Mode} {i j : ι}
    (h : (m.release mode' i).HeldBy mode j) : m.HeldBy mode j := by
  cases m with
  | shared readers =>
    cases mode' with
    | write => exact h
    | read =>
      cases mode with
      | read => exact List.mem_of_mem_erase h
      | write => cases h
  | exclusive writer =>
    cases mode' with
    | read => exact h
    | write => cases mode <;> cases h

/-- No reader is counted twice. -/
def Mutex.Single (m : Mutex ι) : Prop :=
  match m with
  | .shared readers => readers.Nodup
  | .exclusive _ => True

theorem Mutex.Single.acquire {m m' : Mutex ι} {mode : Mode} {i : ι} (h : m.Single)
    (hi : ¬m.HeldBy .read i) (ha : m.acquire mode i = some m') : m'.Single := by
  unfold Mutex.acquire at ha
  split at ha <;> cases ha
  · exact List.nodup_cons.mpr ⟨hi, h⟩
  · trivial

theorem Mutex.Single.release [DecidableEq ι] {m : Mutex ι} (h : m.Single) (mode : Mode) (i : ι) :
    (m.release mode i).Single := by
  cases m with
  | shared readers =>
    cases mode with
    | read => exact List.Nodup.erase i h
    | write => exact h
  | exclusive writer =>
    cases mode with
    | read => trivial
    | write => exact List.nodup_nil

theorem Mutex.Single.not_heldBy_release [DecidableEq ι] {m : Mutex ι} {mode mode' : Mode} {i : ι}
    (h : m.Single) (hi : m.HeldBy mode i) : ¬(m.release mode i).HeldBy mode' i := by
  cases m with
  | shared readers =>
    cases mode with
    | write => cases hi
    | read =>
      cases mode' with
      | read => exact List.Nodup.not_mem_erase h
      | write => exact id
  | exclusive writer =>
    cases mode with
    | read => cases hi
    | write =>
      cases mode' with
      | read => exact List.not_mem_nil
      | write => exact id

section Waiting
variable (wants : ι → Option κ) (holds : ι → κ → Prop)

def WaitsFor (i j : ι) : Prop := ∃ k, wants i = some k ∧ holds j k

variable {wants holds} {lt : κ → κ → Prop} [IsStrictOrder κ lt]

theorem lt_of_waits (h : ∀ i k q, holds i k → wants i = some q → lt k q) {i j : ι}
    (hij : Relation.TransGen (WaitsFor wants holds) i j) {q : κ} (hq : wants j = some q) :
    ∃ k, wants i = some k ∧ lt k q := by
  induction hij generalizing q with
  | single hw =>
    obtain ⟨k, hk, hheld⟩ := hw
    exact ⟨k, hk, h _ _ _ hheld hq⟩
  | tail hpath hw ih =>
    obtain ⟨r, hr, hheld⟩ := hw
    obtain ⟨k, hk, hlt⟩ := ih hr
    exact ⟨k, hk, trans_of lt hlt (h _ _ _ hheld hq)⟩

/-- When everyone wants only what comes after all that they hold, nobody waits in a circle. -/
theorem no_wait_cycle (h : ∀ i k q, holds i k → wants i = some q → lt k q) (i : ι) :
    ¬Relation.TransGen (WaitsFor wants holds) i i := by
  intro hcycle
  obtain ⟨j, ⟨q, hq, _⟩, _⟩ := Relation.TransGen.head'_iff.mp hcycle
  obtain ⟨k, hk, hlt⟩ := lt_of_waits h hcycle hq
  obtain rfl := Option.some.inj (hq.symm.trans hk)
  exact irrefl_of lt q hlt

end Waiting

variable [DecidableEq κ] {T T' : Table κ ι} {i j : ι} {r q : Request κ} {rs : List (Request κ)}

theorem held_of_acquire (h : T.acquire r i = some T') : Held T' i r := by
  obtain ⟨m, hm, rfl⟩ := Option.map_eq_some_iff.mp h
  rw [Held, Function.update_self]
  exact Mutex.heldBy_of_acquire hm

theorem held_of_acquire_eq_none (h : T.acquire r i = none) : ∃ j mode, Held T j ⟨r.name, mode⟩ :=
  Mutex.heldBy_of_acquire_eq_none (Option.map_eq_none_iff.mp h)

theorem Held.acquire (h : Held T j q) (ha : T.acquire r i = some T') : Held T' j q := by
  obtain ⟨m, hm, rfl⟩ := Option.map_eq_some_iff.mp ha
  by_cases hn : q.name = r.name
  · rw [Held, hn, Function.update_self]
    rw [Held, hn] at h
    exact h.acquire hm
  · rw [Held, Function.update_of_ne hn]
    exact h

theorem Held.release [DecidableEq ι] (h : Held T j q) (hi : Held T i r)
    (hne : i ≠ j ∨ q.name ≠ r.name) : Held (T.release r i) j q := by
  by_cases hn : q.name = r.name
  · rw [Held, Table.release, hn, Function.update_self]
    rw [Held, hn] at h
    exact h.release hi (hne.resolve_right fun h => h hn)
  · rw [Held, Table.release, Function.update_of_ne hn]
    exact h

omit [DecidableEq κ] in
theorem Held.exclusive {k : κ} {mode : Mode} (h : Held T i ⟨k, .write⟩) (h' : Held T j ⟨k, mode⟩) :
    i = j := Mutex.HeldBy.exclusive h h'

omit [DecidableEq κ] in
theorem Owned.nil : Owned T i [] := ⟨List.nodup_nil, fun _ h => by cases h⟩

theorem Owned.acquire (h : Owned T j rs) (ha : T.acquire r i = some T') : Owned T' j rs :=
  ⟨h.distinct, fun q hq => (h.held q hq).acquire ha⟩

omit [DecidableEq κ] in
theorem Owned.perm {rs' : List (Request κ)} (h : Owned T i rs) (hp : rs'.Perm rs) :
    Owned T i rs' :=
  ⟨(hp.map Request.name).nodup_iff.mpr h.distinct, fun q hq => h.held q (hp.mem_iff.mp hq)⟩

theorem Owned.cons (h : Owned T i rs) (hnew : r.name ∉ rs.map Request.name)
    (ha : T.acquire r i = some T') : Owned T' i (r :: rs) where
  distinct := List.nodup_cons.mpr ⟨hnew, h.distinct⟩
  held q hq := by
    obtain rfl | hq := List.mem_cons.mp hq
    · exact held_of_acquire ha
    · exact (h.held q hq).acquire ha

theorem Owned.release_head [DecidableEq ι] (h : Owned T i (r :: rs)) :
    Owned (T.release r i) i rs := by
  obtain ⟨hr, hrs⟩ := List.nodup_cons.mp h.distinct
  refine ⟨hrs, ?_⟩
  intro q hq
  refine (h.held q (List.mem_cons_of_mem r hq)).release (h.held r List.mem_cons_self) (.inr ?_)
  intro hn
  exact hr (hn ▸ List.mem_map_of_mem hq)

theorem Owned.release_other [DecidableEq ι] (h : Owned T j rs) (hi : Held T i r) (hij : i ≠ j) :
    Owned (T.release r i) j rs :=
  ⟨h.distinct, fun q hq => (h.held q hq).release hi (.inl hij)⟩

theorem Held.of_acquire (h : Held T' j q) (ha : T.acquire r i = some T') :
    Held T j q ∨ j = i ∧ q = r := by
  obtain ⟨m, hm, rfl⟩ := Option.map_eq_some_iff.mp ha
  by_cases hn : q.name = r.name
  · rw [Held, hn, Function.update_self] at h
    rw [Held, hn]
    refine (h.of_acquire hm).imp_right ?_
    intro ⟨hj, hmode⟩
    obtain ⟨qname, qmode⟩ := q
    obtain ⟨rname, rmode⟩ := r
    exact ⟨hj, by rw [Request.mk.injEq]; exact ⟨hn, hmode⟩⟩
  · rw [Held, Function.update_of_ne hn] at h
    exact .inl h

def Table.Single (T : Table κ ι) : Prop := ∀ k, (T k).Single

omit [DecidableEq κ] in
theorem Table.single_free : (Table.free : Table κ ι).Single := fun _ => List.nodup_nil

theorem Table.Single.acquire (h : T.Single) (hi : ¬Held T i ⟨r.name, .read⟩)
    (ha : T.acquire r i = some T') : T'.Single := by
  obtain ⟨m, hm, rfl⟩ := Option.map_eq_some_iff.mp ha
  intro k
  by_cases hn : k = r.name
  · subst hn
    rw [Function.update_self]
    exact (h _).acquire hi hm
  · rw [Function.update_of_ne hn]
    exact h k

theorem Table.Single.release [DecidableEq ι] (h : T.Single) (r : Request κ) (i : ι) :
    (T.release r i).Single := by
  intro k
  by_cases hn : k = r.name
  · subst hn
    rw [Table.release, Function.update_self]
    exact (h _).release r.mode i
  · rw [Table.release, Function.update_of_ne hn]
    exact h k

theorem Held.of_release [DecidableEq ι] (h : Held (T.release r i) j q) (hT : T.Single)
    (hi : Held T i r) : Held T j q ∧ (j = i → q.name ≠ r.name) := by
  by_cases hn : q.name = r.name
  · rw [Held, Table.release, hn, Function.update_self] at h
    refine ⟨by rw [Held, hn]; exact h.of_release, ?_⟩
    intro hj
    subst hj
    exact absurd h ((hT r.name).not_heldBy_release hi)
  · rw [Held, Table.release, Function.update_of_ne hn] at h
    exact ⟨h, fun _ => hn⟩

theorem not_held_releaseAll [DecidableEq ι] {rs : List (Request κ)} (hT : T.Single)
    (howned : Owned T i rs) (hall : ∀ q, Held T i q → q ∈ rs) (q : Request κ) :
    ¬Held (rs.foldl (fun T r => T.release r i) T) i q := by
  induction rs generalizing T with
  | nil => exact fun hq => List.not_mem_nil (hall q hq)
  | cons r rs ih =>
    have hr : Held T i r := howned.held r List.mem_cons_self
    refine ih (hT.release r i) howned.release_head fun q hq => ?_
    obtain ⟨hold, hne⟩ := hq.of_release hT hr
    obtain rfl | hmem := List.mem_cons.mp (hall q hold)
    · exact absurd rfl (hne rfl)
    · exact hmem

end Locks
