import Mathlib.Data.List.Nodup
import TwoPhaseCommit.Lib.Runs

/-! Runs whose steps are taken in another order: the steps that change places have to commute.
Runs of several systems, one beside the other, as one run. -/
namespace Runs
variable {σ α β ι : Type*}

def Before (xs : List α) (x y : α) : Prop := [x, y].Sublist xs

/-- Two steps, one after the other, can be taken the other way round with the same end. -/
def Commutes (step : σ → α → σ → Prop) (x y : α) : Prop :=
  ∀ s m s', step s x m → step m y s' → ∃ m', step s y m' ∧ step m' x s'

section Before
variable {x y : α} {xs ys : List α}

theorem Before.mem_left (h : Before xs x y) : x ∈ xs := h.subset List.mem_cons_self

theorem Before.mem_right (h : Before xs x y) : y ∈ xs :=
  h.subset (List.mem_cons_of_mem _ List.mem_cons_self)

theorem Before.of_sublist (h : Before ys x y) (hs : ys.Sublist xs) : Before xs x y :=
  List.Sublist.trans h hs

theorem before_append (hx : x ∈ xs) (hy : y ∈ ys) : Before (xs ++ ys) x y :=
  (List.singleton_sublist.mpr hx).append (List.singleton_sublist.mpr hy)

theorem before_cons_iff {z : α} :
    Before (z :: xs) x y ↔ Before xs x y ∨ x = z ∧ y ∈ xs := by
  constructor
  · intro h
    cases h with
    | cons _ h => exact .inl h
    | cons_cons _ h => exact .inr ⟨rfl, List.singleton_sublist.mp h⟩
  · rintro (h | ⟨rfl, hy⟩)
    · exact List.Sublist.cons _ h
    · exact List.Sublist.cons_cons _ (List.singleton_sublist.mpr hy)

theorem Before.asymm (h : Before xs x y) (hnodup : xs.Nodup) : ¬Before xs y x := by
  induction xs with
  | nil => cases h
  | cons z xs ih =>
    obtain ⟨hz, hnodup⟩ := List.nodup_cons.mp hnodup
    intro h'
    obtain hxy | ⟨hx, hy⟩ := before_cons_iff.mp h
    · obtain hyx | ⟨hy, _⟩ := before_cons_iff.mp h'
      · exact ih hxy hnodup hyx
      · exact hz (hy ▸ hxy.mem_right)
    · obtain hyx | ⟨hy', _⟩ := before_cons_iff.mp h'
      · exact hz (hx ▸ hyx.mem_right)
      · exact hz (hy' ▸ hy)

/-- What stands in order two by two stands in order as a whole. -/
theorem sublist_of_before (hnodup : xs.Nodup) (hmem : ∀ y ∈ ys, y ∈ xs)
    (h : ys.Pairwise (Before xs)) : ys.Sublist xs := by
  induction xs generalizing ys with
  | nil => rw [List.eq_nil_iff_forall_not_mem.mpr fun y hy => List.not_mem_nil (hmem y hy)]
  | cons z xs ih =>
    obtain ⟨hz, hnodup'⟩ := List.nodup_cons.mp hnodup
    have hlater {a b : α} (hab : Before (z :: xs) a b) : b ≠ z := by
      obtain hab | ⟨_, hb⟩ := before_cons_iff.mp hab
      · exact fun he => hz (he ▸ hab.mem_right)
      · exact fun he => hz (he ▸ hb)
    have hrest {bs : List α} (hbs : ∀ b ∈ bs, b ∈ z :: xs ∧ b ≠ z)
        (hp : bs.Pairwise (Before (z :: xs))) : bs.Sublist xs := by
      refine ih hnodup' (fun b hb => (List.mem_cons.mp (hbs b hb).1).resolve_left (hbs b hb).2) ?_
      refine hp.imp_of_mem fun ha _ hab => ?_
      exact (before_cons_iff.mp hab).resolve_right fun hhead => (hbs _ ha).2 hhead.1
    cases ys with
    | nil => exact List.nil_sublist _
    | cons y ys =>
      obtain ⟨hy, hys⟩ := List.pairwise_cons.mp h
      have htail : ∀ b ∈ ys, b ∈ z :: xs ∧ b ≠ z := fun b hb =>
        ⟨hmem b (List.mem_cons_of_mem y hb), hlater (hy b hb)⟩
      by_cases hyz : y = z
      · subst hyz
        exact (hrest htail hys).cons_cons y
      · refine (hrest (List.forall_mem_cons.mpr ⟨⟨hmem y List.mem_cons_self, hyz⟩, htail⟩) h).cons z

theorem Before.of_filterMap {f : α → Option β} {b c : β} (h : Before (xs.filterMap f) b c) :
    ∃ as x cs, xs = as ++ x :: cs ∧ f x = some b ∧ c ∈ cs.filterMap f := by
  induction xs with
  | nil => cases h
  | cons z xs ih =>
    have hlater (h : Before (xs.filterMap f) b c) :
        ∃ as x cs, z :: xs = as ++ x :: cs ∧ f x = some b ∧ c ∈ cs.filterMap f := by
      obtain ⟨as, x, cs, rfl, hx, hc⟩ := ih h
      exact ⟨z :: as, x, cs, rfl, hx, hc⟩
    cases hz : f z with
    | none =>
      rw [List.filterMap_cons_none hz] at h
      exact hlater h
    | some b' =>
      rw [List.filterMap_cons_some hz] at h
      obtain h | ⟨rfl, hc⟩ := before_cons_iff.mp h
      · exact hlater h
      · exact ⟨[], z, xs, rfl, hz, hc⟩

end Before

section Reorder
variable {step : σ → α → σ → Prop} {s s' : σ} {x : α} {xs ys : List α}

theorem Run.pull (h : Run step s (ys ++ x :: xs) s') (hc : ∀ y ∈ ys, Commutes step y x) :
    Run step s (x :: (ys ++ xs)) s' := by
  induction ys generalizing s with
  | nil => exact h
  | cons y ys ih =>
    obtain ⟨m, hy, hrest⟩ := h.uncons
    obtain ⟨m', hx, hrest'⟩ := (ih hrest fun z hz => hc z (List.mem_cons_of_mem y hz)).uncons
    obtain ⟨m'', hx', hy'⟩ := hc y List.mem_cons_self s m m' hy hx
    exact .cons hx' (.cons hy' hrest')

/-- The steps of a run can be taken in every order in which only steps that commute have changed
places. -/
theorem Run.reorder (h : Run step s xs s') (hperm : ys.Perm xs) (hnodup : xs.Nodup)
    (hc : ∀ x y, Before xs x y → Before ys y x → Commutes step x y) : Run step s ys s' := by
  induction ys generalizing xs s with
  | nil => rwa [hperm.symm.eq_nil] at h
  | cons y ys ih =>
    obtain ⟨as, bs, rfl⟩ := List.append_of_mem (hperm.mem_iff.mp List.mem_cons_self)
    have hrest : ys.Perm (as ++ bs) := (List.perm_cons y).mp (hperm.trans List.perm_middle)
    have hnodup' : (y :: (as ++ bs)).Nodup := List.perm_middle.nodup_iff.mp hnodup
    obtain ⟨hy, hnodup'⟩ := List.nodup_cons.mp hnodup'
    have hfirst : ∀ x ∈ as, Commutes step x y := fun x hx =>
      hc x y (before_append hx List.mem_cons_self)
        (before_cons_iff.mpr (.inr ⟨rfl, hrest.mem_iff.mpr (List.mem_append_left bs hx)⟩))
    obtain ⟨m, hm, hrun⟩ := (h.pull hfirst).uncons
    refine .cons hm (ih hrun hrest hnodup' fun x z hxz hzx => ?_)
    have hsub : (as ++ bs).Sublist (as ++ y :: bs) :=
      (List.Sublist.refl as).append (List.sublist_cons_self y bs)
    exact hc x z (hxz.of_sublist hsub) (hzx.of_sublist (List.sublist_cons_self y ys))

theorem Run.pad {p : α → Bool} (h : Run step s (xs.filter p) s')
    (hidle : ∀ x ∈ xs, p x = false → ∀ s, step s x s) : Run step s xs s' := by
  induction xs generalizing s with
  | nil => exact h
  | cons x xs ih =>
    have hidle' := fun y hy => hidle y (List.mem_cons_of_mem x hy)
    cases hp : p x with
    | false =>
      rw [List.filter_cons_of_neg (by simp [hp])] at h
      exact .cons (hidle x List.mem_cons_self hp s) (ih h hidle')
    | true =>
      rw [List.filter_cons_of_pos hp] at h
      obtain ⟨m, hx, hrest⟩ := h.uncons
      exact .cons hx (ih hrest hidle')

theorem Run.product {τ : ι → Type*} {step' : (i : ι) → τ i → α → τ i → Prop} {f : (∀ i, τ i) → σ}
    (hstep : ∀ t t' x, (∀ i, step' i (t i) x (t' i)) → step (f t) x (f t')) {t t' : ∀ i, τ i}
    (h : ∀ i, Run (step' i) (t i) xs (t' i)) : Run step (f t) xs (f t') := by
  induction xs generalizing t with
  | nil =>
    have ht : t' = t := funext fun i => (h i).of_nil
    rw [ht]
    exact .nil
  | cons x xs ih =>
    choose m hm hrest using fun i => (h i).uncons
    exact .cons (hstep t m x hm) (ih hrest)

end Reorder

end Runs
