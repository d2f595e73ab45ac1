import Mathlib.Data.List.Induction
import Mathlib.Data.List.Nodup

/-! Grouping a list by a key into a map that is filled by lookup-or-insert, and maps
that are then read in an unspecified order. -/
namespace Grouping
variable {α κ ν : Type*} [DecidableEq κ]

/-- Find the entry of k or make one, and replace its value by f of the old value. -/
def upsert (k : κ) (f : Option ν → ν) : List (κ × ν) → List (κ × ν)
  | [] => [(k, f none)]
  | (a, v) :: rest => if a = k then (a, f (some v)) :: rest else (a, v) :: upsert k f rest

def group (key : α → κ) (add : α → Option ν → ν) (items : List α) : List (κ × ν) :=
  items.foldl (fun m x => upsert (key x) (add x) m) []

def total (key : α → κ) (add : α → Option ν → ν) (items : List α) (k : κ) : Option ν :=
  (items.filter fun x => key x = k).foldl (fun acc x => some (add x acc)) none

theorem mem_keys_upsert {k a : κ} {f : Option ν → ν} {l : List (κ × ν)} :
    a ∈ (upsert k f l).map Prod.fst ↔ a = k ∨ a ∈ l.map Prod.fst := by
  induction l with
  | nil => simp [upsert]
  | cons x rest ih =>
    obtain ⟨b, w⟩ := x
    by_cases hb : b = k
    · subst hb
      simp [upsert]
    · rw [upsert, if_neg hb, List.map_cons, List.map_cons, List.mem_cons, List.mem_cons, ih]
      tauto

theorem nodup_upsert {k : κ} {f : Option ν → ν} {l : List (κ × ν)}
    (h : (l.map Prod.fst).Nodup) : ((upsert k f l).map Prod.fst).Nodup := by
  induction l with
  | nil => simp [upsert]
  | cons x rest ih =>
    obtain ⟨b, w⟩ := x
    obtain ⟨hb, hrest⟩ := List.nodup_cons.mp h
    by_cases hbk : b = k
    · rw [upsert, if_pos hbk]
      exact h
    · rw [upsert, if_neg hbk, List.map_cons, List.nodup_cons, mem_keys_upsert]
      exact ⟨not_or.mpr ⟨hbk, hb⟩, ih hrest⟩

theorem mem_upsert_of_ne {k a : κ} {f : Option ν → ν} {v : ν} {l : List (κ × ν)} (hne : a ≠ k) :
    (a, v) ∈ upsert k f l ↔ (a, v) ∈ l := by
  induction l with
  | nil => simp [upsert, hne]
  | cons x rest ih =>
    obtain ⟨b, w⟩ := x
    by_cases hbk : b = k
    · subst hbk
      simp [upsert, hne]
    · rw [upsert, if_neg hbk, List.mem_cons, List.mem_cons, ih]

theorem mem_upsert_old {k : κ} {f : Option ν → ν} {v w : ν} {l : List (κ × ν)}
    (h : (l.map Prod.fst).Nodup) (hw : (k, w) ∈ l) :
    (k, v) ∈ upsert k f l ↔ v = f (some w) := by
  induction l with
  | nil => cases hw
  | cons x rest ih =>
    obtain ⟨b, u⟩ := x
    obtain ⟨hb, hrest⟩ := List.nodup_cons.mp h
    by_cases hbk : b = k
    · subst hbk
      have hnone (y : ν) : (b, y) ∉ rest := fun hy => hb (List.mem_map.mpr ⟨(b, y), hy, rfl⟩)
      have hu : w = u := by simpa [hnone] using hw
      simp [upsert, hnone, hu]
    · have hw' : (k, w) ∈ rest := by
        simpa [Ne.symm hbk] using hw
      rw [upsert, if_neg hbk, List.mem_cons, ih hrest hw']
      simp [Ne.symm hbk]

theorem mem_upsert_new {k : κ} {f : Option ν → ν} {v : ν} {l : List (κ × ν)}
    (h : k ∉ l.map Prod.fst) : (k, v) ∈ upsert k f l ↔ v = f none := by
  induction l with
  | nil => simp [upsert]
  | cons x rest ih =>
    obtain ⟨b, u⟩ := x
    simp only [List.map_cons, List.mem_cons, not_or] at h
    rw [upsert, if_neg (Ne.symm h.1), List.mem_cons, ih h.2]
    simp [h.1]

theorem total_append (key : α → κ) (add : α → Option ν → ν) (items : List α) (x : α) (k : κ) :
    total key add (items ++ [x]) k =
      if key x = k then some (add x (total key add items k)) else total key add items k := by
  simp only [total, List.filter_append, List.foldl_append]
  split_ifs with h <;> simp [h]

theorem group_spec (key : α → κ) (add : α → Option ν → ν) (items : List α) :
    ((group key add items).map Prod.fst).Nodup ∧
      ∀ k v, (k, v) ∈ group key add items ↔ total key add items k = some v := by
  induction items using List.reverseRecOn with
  | nil => simp [group, total]
  | append_singleton items x ih =>
    obtain ⟨hnd, hmem⟩ := ih
    have hstep : group key add (items ++ [x]) = upsert (key x) (add x) (group key add items) := by
      simp [group]
    rw [hstep]
    refine ⟨nodup_upsert hnd, ?_⟩
    intro k v
    rw [total_append]
    by_cases hk : key x = k
    · subst hk
      rw [if_pos rfl, Option.some.injEq]
      cases ht : total key add items (key x) with
      | some w => rw [mem_upsert_old hnd ((hmem _ _).mpr ht), eq_comm]
      | none =>
        have hno : key x ∉ (group key add items).map Prod.fst := by
          intro hk
          obtain ⟨⟨a, w⟩, hw, rfl⟩ := List.mem_map.mp hk
          rw [hmem, ht] at hw
          cases hw
        rw [mem_upsert_new hno, eq_comm]
    · rw [if_neg hk, mem_upsert_of_ne (Ne.symm hk), hmem]

theorem total_isSome (key : α → κ) (add : α → Option ν → ν) (items : List α) (k : κ) :
    (total key add items k).isSome ↔ ∃ x ∈ items, key x = k := by
  induction items using List.reverseRecOn with
  | nil => simp [total]
  | append_singleton items x ih =>
    rw [total_append]
    by_cases hk : key x = k
    · simp [hk]
    · simp [hk, ih]

/-- The order in which a hash map yields its entries: some permutation of them. -/
structure IterationOrder (β : Type*) where
  arrange : List β → List β
  perm : ∀ l, (arrange l).Perm l

def IterationOrder.insertion (β : Type*) : IterationOrder β := ⟨id, fun l => List.Perm.refl l⟩

end Grouping
