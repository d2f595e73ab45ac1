import Mathlib.Data.List.Basic

/-! Machines whose state is split among keys: each input reads and changes only what its own key
has. -/
namespace Sharding
variable {σ α κ β ο : Type*}

def final (step : σ → α → σ × ο) (s : σ) (xs : List α) : σ := xs.foldl (fun s x => (step s x).1) s

def outputs (step : σ → α → σ × ο) : σ → List α → List (α × ο)
  | _, [] => []
  | s, x :: xs => (x, (step s x).2) :: outputs step (step s x).1 xs

/-- An input leaves what other keys see alone, and what it does depends on what its key sees. -/
structure Sharded (step : σ → α → σ × ο) (key : α → κ) (view : κ → σ → β) : Prop where
  frame : ∀ s x k, k ≠ key x → view k (step s x).1 = view k s
  own : ∀ s s' x, view (key x) s = view (key x) s' →
    view (key x) (step s x).1 = view (key x) (step s' x).1 ∧ (step s x).2 = (step s' x).2

variable {step : σ → α → σ × ο} {key : α → κ} {view : κ → σ → β}

/-- What some keys see, and what is put out for them, is as if there were no inputs for others. -/
theorem Sharded.isolated (h : Sharded step key view) {p : κ → Bool} {s s' : σ}
    (hs : ∀ k, p k → view k s = view k s') (xs : List α) :
    let own := xs.filter fun x => p (key x)
    (∀ k, p k → view k (final step s xs) = view k (final step s' own)) ∧
      (outputs step s xs).filter (fun y => p (key y.1)) = outputs step s' own := by
  induction xs generalizing s s' with
  | nil => exact ⟨hs, rfl⟩
  | cons x xs ih =>
    by_cases hx : p (key x)
    · obtain ⟨hview, hout⟩ := h.own s s' x (hs (key x) hx)
      have hall (k : κ) (hk : p k) : view k (step s x).1 = view k (step s' x).1 := by
        by_cases he : k = key x
        · rw [he]
          exact hview
        · rw [h.frame s x k he, h.frame s' x k he]
          exact hs k hk
      obtain ⟨hfinal, houts⟩ := ih hall
      dsimp only
      rw [List.filter_cons_of_pos (by exact hx), outputs, outputs,
        List.filter_cons_of_pos (by exact hx), houts, hout]
      exact ⟨hfinal, rfl⟩
    · have hall (k : κ) (hk : p k) : view k (step s x).1 = view k s' := by
        have he : k ≠ key x := fun he => hx (he ▸ hk)
        exact (h.frame s x k he).trans (hs k hk)
      obtain ⟨hfinal, houts⟩ := ih hall
      dsimp only
      rw [List.filter_cons_of_neg (by exact hx), outputs,
        List.filter_cons_of_neg (by exact hx)]
      exact ⟨hfinal, houts⟩

end Sharding
