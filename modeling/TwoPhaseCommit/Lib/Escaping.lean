import Mathlib.Tactic.SplitIfs
import TwoPhaseCommit.Lib.Codes

/-! Bytes in the escaping of C, and how they are read back. -/
namespace Escaping

def backslash : Char := Char.ofNat 92

/-- A byte in the escaping of C: by its letter, as it is, or by its octal digits. -/
def escapeByte (b : UInt8) : List Char :=
  if b = 10 then [backslash, 'n']
  else if b = 13 then [backslash, 'r']
  else if b = 9 then [backslash, 't']
  else if b = 34 ∨ b = 39 ∨ b = 92 then [backslash, Char.ofNat b.toNat]
  else if 32 ≤ b ∧ b < 127 then [Char.ofNat b.toNat]
  else [backslash, Nat.digitChar (b.toNat / 64), Nat.digitChar (b.toNat % 64 / 8),
    Nat.digitChar (b.toNat % 8)]

def readOctal (first second third : Char) : UInt8 :=
  UInt8.ofNat (64 * (first.toNat - 48) + 8 * (second.toNat - 48) + (third.toNat - 48))

def readEscape : List Char → Option (UInt8 × List Char)
  | [] => none
  | c :: rest =>
    if c = 'n' then some (10, rest)
    else if c = 'r' then some (13, rest)
    else if c = 't' then some (9, rest)
    else
      match c.isDigit, rest with
      | true, d :: e :: rest => some (readOctal c d e, rest)
      | true, _ => none
      | false, _ => some (UInt8.ofNat c.toNat, rest)

def readByte : List Char → Option (UInt8 × List Char)
  | [] => none
  | c :: rest => if c = backslash then readEscape rest else some (UInt8.ofNat c.toNat, rest)

theorem toNat_ofNat_ascii {n : ℕ} (h : n < 128) : (Char.ofNat n).toNat = n := by
  revert n
  decide

theorem digitChar_ne_letter {n : ℕ} (h : n < 10) :
    Nat.digitChar n ≠ 'n' ∧ Nat.digitChar n ≠ 'r' ∧ Nat.digitChar n ≠ 't' := by
  revert n
  decide

theorem readOctal_digits (b : UInt8) : readOctal (Nat.digitChar (b.toNat / 64))
    (Nat.digitChar (b.toNat % 64 / 8)) (Nat.digitChar (b.toNat % 8)) = b := by
  have hb := b.toNat_lt
  have hdigit (n : ℕ) (h : n < 10) := Nat.toNat_digitChar_sub_48_of_lt_ten h
  rw [readOctal, hdigit _ (by omega), hdigit _ (by omega), hdigit _ (by omega)]
  have hsum : 64 * (b.toNat / 64) + 8 * (b.toNat % 64 / 8) + b.toNat % 8 = b.toNat := by omega
  rw [hsum, UInt8.ofNat_toNat]

theorem readByte_escapeByte (b : UInt8) (rest : List Char) :
    readByte (escapeByte b ++ rest) = some (b, rest) := by
  have hb := b.toNat_lt
  unfold escapeByte
  split_ifs with h1 h2 h3 h4 h5
  · subst h1
    rfl
  · subst h2
    rfl
  · subst h3
    rfl
  · obtain rfl | rfl | rfl := h4 <;> rfl
  · have hlow : b.toNat < 127 := h5.2
    have hchar := toNat_ofNat_ascii (show b.toNat < 128 by omega)
    have hne : Char.ofNat b.toNat ≠ backslash := by
      intro he
      have h92 : b.toNat = 92 := by
        rw [← hchar, he]
        rfl
      exact h4 (.inr (.inr (UInt8.toNat_inj.mp h92)))
    rw [List.singleton_append, readByte, if_neg hne, hchar, UInt8.ofNat_toNat]
  · obtain ⟨hn, hr, ht⟩ := digitChar_ne_letter (show b.toNat / 64 < 10 by omega)
    have hdigit : (Nat.digitChar (b.toNat / 64)).isDigit = true := by
      rw [Nat.isDigit_digitChar]
      exact decide_eq_true (by omega)
    change readEscape (Nat.digitChar (b.toNat / 64) :: Nat.digitChar (b.toNat % 64 / 8) ::
      Nat.digitChar (b.toNat % 8) :: rest) = _
    rw [readEscape, if_neg hn, if_neg hr, if_neg ht]
    · exact congrArg (fun b => some (b, rest)) (readOctal_digits b)
    · exact hdigit

def cEscape (bytes : List UInt8) : String := String.ofList (bytes.flatMap escapeByte)

theorem cEscape_injective : Function.Injective cEscape := by
  have hwords := Codes.selfDelimiting_of_read readByte_escapeByte rfl
  exact fun bytes bytes' h => hwords.flatMap_injective (String.ofList_injective h)

end Escaping
