import Mathlib.Data.List.Basic

/-! Codes that can be read back: two lists joined at a delimiter that the second of them does not
contain, and lists whose symbols are written one after another in words that end by themselves. -/
namespace Codes
variable {α β : Type*}

theorem eq_nil_of_delimited {d : α} {ys ys' zs : List α} (h : d ∉ ys)
    (he : d :: ys = zs ++ d :: ys') : zs = [] ∧ ys = ys' := by
  cases zs with
  | nil => exact ⟨rfl, (List.cons.inj he).2⟩
  | cons z zs =>
    obtain ⟨-, rfl⟩ := List.cons.inj he
    exact absurd (List.mem_append_right zs List.mem_cons_self) h

theorem join_eq_iff {d : α} {xs xs' ys ys' : List α} (h : d ∉ ys) (h' : d ∉ ys') :
    xs ++ d :: ys = xs' ++ d :: ys' ↔ xs = xs' ∧ ys = ys' := by
  constructor
  · intro he
    obtain ⟨zs, hx, hy⟩ | ⟨zs, hx, hy⟩ := List.append_eq_append_iff.mp he
    · obtain ⟨rfl, hys⟩ := eq_nil_of_delimited h hy
      exact ⟨by rw [hx, List.append_nil], hys⟩
    · obtain ⟨rfl, hys⟩ := eq_nil_of_delimited h' hy
      exact ⟨by rw [hx, List.append_nil], hys.symm⟩
  · rintro ⟨rfl, rfl⟩
    rfl

/-- No word is empty, and where a word ends does not depend on what follows it. -/
structure SelfDelimiting (word : α → List β) : Prop where
  ne_nil : ∀ a, word a ≠ []
  split : ∀ a a' rest rest', word a ++ rest = word a' ++ rest' → a = a' ∧ rest = rest'

variable {word : α → List β}

theorem selfDelimiting_of_length {w : ℕ} (hlen : ∀ a, (word a).length = w + 1)
    (hinj : Function.Injective word) : SelfDelimiting word where
  ne_nil a := by
    intro hnil
    simpa [hnil] using hlen a
  split a a' rest rest' h := by
    obtain ⟨hword, hrest⟩ := List.append_inj h (by rw [hlen, hlen])
    exact ⟨hinj hword, hrest⟩

theorem selfDelimiting_of_read {read : List β → Option (α × List β)}
    (hread : ∀ a rest, read (word a ++ rest) = some (a, rest)) (hnil : read [] = none) :
    SelfDelimiting word where
  ne_nil a := by
    intro he
    have h := hread a []
    rw [he, List.append_nil, hnil] at h
    cases h
  split a a' rest rest' h := by
    have hsome := hread a rest
    rw [h, hread] at hsome
    obtain ⟨ha, hrest⟩ := Prod.mk.inj (Option.some.inj hsome)
    exact ⟨ha.symm, hrest.symm⟩

theorem SelfDelimiting.flatMap_injective (h : SelfDelimiting word) :
    Function.Injective (List.flatMap word) := by
  intro xs
  induction xs with
  | nil =>
    intro ys hys
    cases ys with
    | nil => rfl
    | cons y ys => exact absurd (List.append_eq_nil_iff.mp hys.symm).1 (h.ne_nil y)
  | cons x xs ih =>
    intro ys hys
    cases ys with
    | nil => exact absurd (List.append_eq_nil_iff.mp hys).1 (h.ne_nil x)
    | cons y ys =>
      rw [List.flatMap_cons, List.flatMap_cons] at hys
      obtain ⟨rfl, hrest⟩ := h.split x y _ _ hys
      rw [ih hrest]

end Codes
