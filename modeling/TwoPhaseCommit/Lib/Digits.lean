import Mathlib.Algebra.BigOperators.Fin
import Mathlib.Tactic

/-! Replacing one digit of a number written in an arbitrary base. A number below
b^n is read as its digit function through Mathlib's `finFunctionFinEquiv`. -/
namespace Digits
variable {b x i j d n : ℕ}

def digit (b x i : ℕ) : ℕ := x / b ^ i % b

def setDigit (b x i d : ℕ) : ℕ := x - digit b x i * b ^ i + d * b ^ i

theorem digit_mul_pow_le : digit b x i * b ^ i ≤ x :=
  (Nat.mul_le_mul_right _ (Nat.mod_le _ _)).trans (Nat.div_mul_le_self _ _)

@[simp] theorem digit_zero : digit b 0 i = 0 := by simp [digit]

theorem digit_symm (a : Fin (b ^ n)) (k : Fin n) :
    (finFunctionFinEquiv.symm a k : ℕ) = digit b a k := rfl

theorem sum_digit (hx : x < b ^ n) : ∑ k : Fin n, digit b x k * b ^ (k : ℕ) = x := by
  have h := finFunctionFinEquiv_apply (finFunctionFinEquiv.symm (⟨x, hx⟩ : Fin (b ^ n)))
  rw [Equiv.apply_symm_apply] at h
  simpa only [digit_symm] using h.symm

theorem setDigit_eq (hx : x < b ^ n) (hi : i < n) (hd : d < b) :
    setDigit b x i d = finFunctionFinEquiv
      (Function.update (finFunctionFinEquiv.symm ⟨x, hx⟩) ⟨i, hi⟩ ⟨d, hd⟩) := by
  let f := finFunctionFinEquiv.symm (⟨x, hx⟩ : Fin (b ^ n))
  have hf : finFunctionFinEquiv f = ⟨x, hx⟩ := Equiv.apply_symm_apply _ _
  have hold : ∑ k, (f k : ℕ) * b ^ (k : ℕ) = x := by
    rw [← finFunctionFinEquiv_apply, hf]
  rw [finFunctionFinEquiv_apply]
  rw [← Finset.add_sum_erase _ _ (Finset.mem_univ (⟨i, hi⟩ : Fin n))] at hold ⊢
  have hrest : ∑ k ∈ Finset.univ.erase (⟨i, hi⟩ : Fin n),
      (Function.update f ⟨i, hi⟩ ⟨d, hd⟩ k : ℕ) * b ^ (k : ℕ) =
      ∑ k ∈ Finset.univ.erase (⟨i, hi⟩ : Fin n), (f k : ℕ) * b ^ (k : ℕ) :=
    Finset.sum_congr rfl fun k hk => by
      rw [Function.update_of_ne (Finset.ne_of_mem_erase hk)]
  have hfi : (f ⟨i, hi⟩ : ℕ) = digit b x i := rfl
  rw [hrest, Function.update_self]
  rw [hfi] at hold
  simp only [setDigit] at *
  omega

theorem setDigit_lt (hx : x < b ^ n) (hi : i < n) (hd : d < b) :
    setDigit b x i d < b ^ n := by
  rw [setDigit_eq hx hi hd]
  exact Fin.isLt _

theorem digit_setDigit (hx : x < b ^ n) (hi : i < n) (hd : d < b) (hj : j < n) :
    digit b (setDigit b x i d) j = if j = i then d else digit b x j := by
  rw [setDigit_eq hx hi hd]
  have h := digit_symm (finFunctionFinEquiv
    (Function.update (finFunctionFinEquiv.symm ⟨x, hx⟩) ⟨i, hi⟩ ⟨d, hd⟩)) ⟨j, hj⟩
  rw [Equiv.symm_apply_apply] at h
  rw [← h]
  by_cases he : j = i
  · subst he
    simp
  · rw [if_neg he, Function.update_of_ne (by simpa [Fin.ext_iff] using he)]
    rfl

end Digits
