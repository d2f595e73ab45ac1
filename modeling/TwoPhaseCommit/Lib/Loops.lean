import Mathlib.Data.List.Basic

/-! Loops that may fail, and two of them that do related things. -/
namespace Loops
variable {α β γ δ : Type*} {R : α → β → Prop}

theorem rel_bind {S : γ → δ → Prop} {x : Option α} {y : Option β} {f : α → Option γ}
    {g : β → Option δ} (h : Option.Rel R x y) (hfg : ∀ a b, R a b → Option.Rel S (f a) (g b)) :
    Option.Rel S (x.bind f) (y.bind g) := by
  cases h with
  | some hab => exact hfg _ _ hab
  | none => exact .none

theorem rel_bind_left {S : γ → β → Prop} {x : Option α} {y : Option β} {f : α → Option γ}
    (h : Option.Rel R x y) (hf : ∀ a b, R a b → Option.Rel S (f a) (some b)) :
    Option.Rel S (x.bind f) y := by
  rw [← Option.bind_fun_some y]
  exact rel_bind h hf

theorem rel_bind_right {S : α → δ → Prop} {x : Option α} {y : Option β} {g : β → Option δ}
    (h : Option.Rel R x y) (hg : ∀ a b, R a b → Option.Rel S (some a) (g b)) :
    Option.Rel S x (y.bind g) := by
  rw [← Option.bind_fun_some x]
  exact rel_bind h hg

theorem foldlM_flatMap (f : β → α → Option β) (items : γ → List α) (l : List γ) (b : β) :
    (l.flatMap items).foldlM f b = l.foldlM (fun b x => (items x).foldlM f b) b := by
  induction l generalizing b with
  | nil => rfl
  | cons x l ih =>
    rw [List.flatMap_cons, List.foldlM_append, List.foldlM_cons]
    exact bind_congr ih

end Loops
