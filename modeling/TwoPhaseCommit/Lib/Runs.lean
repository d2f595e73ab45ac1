import Mathlib.Data.List.Induction

/-! Runs of a system that takes labelled steps: the labels taken in order, what holds of the
state a run reaches, and what holds of each step it takes. -/
namespace Runs
variable {σ α τ β : Type*}

/-- P holds of each input of a deterministic machine in the state that takes it. -/
def Throughout (step : σ → α → σ) (P : σ → α → Prop) (s : σ) : List α → Prop
  | [] => True
  | x :: xs => P s x ∧ Throughout step P (step s x) xs

theorem throughout_append (step : σ → α → σ) (P : σ → α → Prop) (s : σ) (xs ys : List α) :
    Throughout step P s (xs ++ ys) ↔
      Throughout step P s xs ∧ Throughout step P (xs.foldl step s) ys := by
  induction xs generalizing s with
  | nil => simp [Throughout]
  | cons x xs ih => simp [Throughout, ih, and_assoc]

theorem throughout_iff (step : σ → α → σ) (P : σ → α → Prop) (s : σ) (xs : List α) :
    Throughout step P s xs ↔ ∀ ys x zs, xs = ys ++ x :: zs → P (ys.foldl step s) x := by
  constructor
  · intro h ys x zs he
    rw [he, throughout_append] at h
    exact h.2.1
  · intro h
    induction xs generalizing s with
    | nil => trivial
    | cons x xs ih =>
      exact ⟨h [] x xs rfl, ih (step s x) fun ys x' zs he => h (x :: ys) x' zs (by rw [he]; rfl)⟩

/-- The labels of the steps taken from s₀, and the state reached. -/
inductive Run (step : σ → α → σ → Prop) (s₀ : σ) : List α → σ → Prop
  | nil : Run step s₀ [] s₀
  | snoc {xs : List α} {s s' : σ} {x : α} (h : Run step s₀ xs s) (hs : step s x s') :
    Run step s₀ (xs ++ [x]) s'

variable {step : σ → α → σ → Prop} {s₀ s s' : σ} {xs ys : List α}

theorem Run.single {x : α} (h : step s x s') : Run step s [x] s' :=
  (Run.snoc .nil h : Run step s ([] ++ [x]) s')

theorem Run.append (h : Run step s₀ xs s) (h' : Run step s ys s') : Run step s₀ (xs ++ ys) s' := by
  induction h' with
  | nil => rwa [List.append_nil]
  | snoc _ hs ih =>
    rw [← List.append_assoc]
    exact .snoc ih hs

theorem Run.cons {x : α} (hs : step s₀ x s) (h : Run step s xs s') : Run step s₀ (x :: xs) s' :=
  (Run.single hs).append h

theorem Run.split (h : Run step s₀ (xs ++ ys) s) : ∃ m, Run step s₀ xs m ∧ Run step m ys s := by
  induction ys using List.reverseRecOn generalizing s with
  | nil => exact ⟨s, by rwa [List.append_nil] at h, .nil⟩
  | append_singleton ys y ih =>
    rw [← List.append_assoc] at h
    generalize hz : xs ++ ys ++ [y] = zs at h
    cases h with
    | nil => simp at hz
    | snoc h hs =>
      obtain ⟨rfl, hy⟩ := List.append_inj' hz rfl
      obtain rfl := List.singleton_inj.mp hy
      obtain ⟨m, hm, hm'⟩ := ih h
      exact ⟨m, hm, .snoc hm' hs⟩

theorem Run.of_nil (h : Run step s₀ [] s) : s = s₀ := by
  generalize hz : ([] : List α) = zs at h
  cases h with
  | nil => rfl
  | snoc h hs => simp at hz

theorem Run.uncons {x : α} (h : Run step s₀ (x :: xs) s) : ∃ m, step s₀ x m ∧ Run step m xs s := by
  have h' : Run step s₀ ([x] ++ xs) s := h
  obtain ⟨m, hx, hxs⟩ := h'.split
  refine ⟨m, ?_, hxs⟩
  generalize hz : [x] = zs at hx
  cases hx with
  | nil => simp at hz
  | snoc h hs =>
    obtain ⟨rfl, hy⟩ := List.append_inj' ((List.nil_append _).trans hz) rfl
    obtain rfl := List.singleton_inj.mp hy
    rw [h.of_nil] at hs
    exact hs

theorem Run.at {x : α} (h : Run step s₀ (xs ++ x :: ys) s) :
    ∃ m m', Run step s₀ xs m ∧ step m x m' ∧ Run step m' ys s := by
  obtain ⟨m, hm, hm'⟩ := h.split
  obtain ⟨m', hs, h'⟩ := hm'.uncons
  exact ⟨m, m', hm, hs, h'⟩

/-- What holds at the start and is kept by every step holds at the end. -/
theorem Run.invariant {I : List α → σ → Prop} (h0 : I [] s₀)
    (hstep : ∀ xs s x s', Run step s₀ xs s → I xs s → step s x s' → I (xs ++ [x]) s')
    (h : Run step s₀ xs s) : I xs s := by
  induction h with
  | nil => exact h0
  | snoc h hs ih => exact hstep _ _ _ _ h ih hs

/-- A run is one of another system when every step that it takes is. -/
theorem Run.imp {step' : σ → α → σ → Prop} (h : Run step s₀ xs s)
    (hstep : ∀ x ∈ xs, ∀ ys s s', Run step s₀ ys s → step s x s' → step' s x s') :
    Run step' s₀ xs s := by
  induction h with
  | nil => exact .nil
  | @snoc xs _ _ x h hs ih =>
    have hprefix := ih fun y hy => hstep y (List.mem_append_left [x] hy)
    exact .snoc hprefix (hstep x (List.mem_append_right xs (List.mem_singleton_self x)) _ _ _ h hs)

theorem Run.invariant_of_forall {I : σ → Prop} {P : α → Prop} (h0 : I s₀)
    (hstep : ∀ s x s', I s → step s x s' → P x → I s') (h : Run step s₀ xs s)
    (hxs : ∀ x ∈ xs, P x) : I s := by
  induction h with
  | nil => exact h0
  | snoc h hs ih =>
    have hprefix := ih fun x hx => hxs x (List.mem_append_left _ hx)
    exact hstep _ _ _ hprefix hs (hxs _ (List.mem_append_right _ (List.mem_singleton_self _)))

/-- A run of one system seen as a run of another, each step as the steps it stands for. -/
theorem Run.project {step' : τ → β → τ → Prop} {f : σ → τ} {g : α → List β}
    (hstep : ∀ s x s', step s x s' → Run step' (f s) (g x) (f s')) (h : Run step s₀ xs s) :
    Run step' (f s₀) (xs.flatMap g) (f s) := by
  induction h with
  | nil => exact .nil
  | snoc h hs ih =>
    rw [List.flatMap_append, List.flatMap_singleton]
    exact ih.append (hstep _ _ _ hs)

/-- Where every step is matched by steps with the same visible labels, so is every run. P holds of
all beginnings of the run, and R relates what both have come to. -/
theorem Run.simulate {step' : τ → β → τ → Prop} {γ : Type*} {visible : β → Option γ}
    {observed : α → Option γ} {P : List α → Prop} {R : List α → σ → τ → Prop} {t₀ : τ}
    (hP : ∀ xs x, P (xs ++ [x]) → P xs) (h0 : R [] s₀ t₀)
    (hstep : ∀ xs s x s' t, Run step s₀ xs s → step s x s' → P (xs ++ [x]) → R xs s t →
      ∃ ys t', Run step' t ys t' ∧ ys.filterMap visible = (observed x).toList ∧
        R (xs ++ [x]) s' t')
    (h : Run step s₀ xs s) (hxs : P xs) :
    ∃ ys t, Run step' t₀ ys t ∧ ys.filterMap visible = xs.filterMap observed ∧ R xs s t := by
  induction h with
  | nil => exact ⟨[], t₀, .nil, rfl, h0⟩
  | @snoc xs s s' x h hs ih =>
    obtain ⟨ys, t, hrun, hvisible, hR⟩ := ih (hP xs x hxs)
    obtain ⟨zs, t', hrun', hvisible', hR'⟩ := hstep xs s x s' t h hs hxs hR
    refine ⟨ys ++ zs, t', hrun.append hrun', ?_, hR'⟩
    rw [List.filterMap_append, List.filterMap_append, hvisible, hvisible']
    cases hx : observed x <;> simp [hx]

end Runs
