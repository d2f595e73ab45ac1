import Mathlib.Algebra.Ring.Int.Defs
import Mathlib.Order.MinMax
import TwoPhaseCommit.Messages

/-! absl::Time and absl::Duration: a count of quarter nanoseconds, since 1970 or in length,
that saturates at an infinite value at either end. -/
namespace TwoPhaseCommit.Clock

def ticksPerSecond : ℤ := 4000000000

def infiniteFuture : ℤ := 2 ^ 63 * ticksPerSecond

def infinitePast : ℤ := -(2 ^ 63 * ticksPerSecond) - 1

def isInfinite (t : ℤ) : Bool := t ≤ infinitePast ∨ infiniteFuture ≤ t

def add (t d : ℤ) : ℤ :=
  if isInfinite t then t
  else if isInfinite d then d
  else max infinitePast (min infiniteFuture (t + d))

def fromUnixSeconds (seconds : ℤ) : ℤ := seconds * ticksPerSecond

def nanoseconds (nanos : ℤ) : ℤ := 4 * nanos

/-- `ToTimespec`: whole seconds rounded down, and the rest in nanoseconds. -/
def toTimespec (t : ℤ) : Timestamp :=
  if isInfinite t then
    if 0 ≤ t then ⟨2 ^ 63 - 1, 999999999⟩ else ⟨-2 ^ 63, 0⟩
  else ⟨t / ticksPerSecond, t % ticksPerSecond / 4⟩

def toTimeT (t : ℤ) : ℤ := (toTimespec t).seconds

/-- The time of a Timestamp field; an unset field reads as zero. -/
def ofTimestamp (ts : Option Timestamp) : ℤ :=
  add (fromUnixSeconds (ts.elim 0 (·.seconds))) (nanoseconds (ts.elim 0 (·.nanos)))

theorem isInfinite_iff (t : ℤ) :
    isInfinite t = true ↔ t ≤ infinitePast ∨ infiniteFuture ≤ t := decide_eq_true_iff

/-- The time at the instant t, which is infinite where t is out of range. -/
def clamp (t : ℤ) : ℤ := max infinitePast (min infiniteFuture t)

theorem clamp_lt_iff {t now : ℤ} (hpast : infinitePast < now) (hfuture : now ≤ infiniteFuture) :
    clamp t < now ↔ t < now := by
  rw [clamp, max_lt_iff, min_lt_iff]
  constructor
  · rintro ⟨-, h | h⟩
    · omega
    · exact h
  · exact fun h => ⟨hpast, .inr h⟩

theorem add_eq_clamp {t d : ℤ} (ht : ¬isInfinite t) (hd : ¬isInfinite d) :
    add t d = clamp (t + d) := by
  rw [add, if_neg ht, if_neg hd, clamp]

def instantOf (ts : Timestamp) : ℤ := ts.seconds * ticksPerSecond + 4 * ts.nanos

/-- A timestamp with the fields that ToTimespec gives it. -/
structure Normal (ts : Timestamp) : Prop where
  seconds : -2 ^ 63 ≤ ts.seconds ∧ ts.seconds < 2 ^ 63
  nanos : 0 ≤ ts.nanos ∧ ts.nanos < 1000000000

theorem normal_toTimespec (t : ℤ) : Normal (toTimespec t) := by
  rw [toTimespec]
  by_cases ht : isInfinite t
  · rw [if_pos ht]
    split_ifs <;> exact ⟨by simp, by simp⟩
  · rw [if_neg ht]
    simp only [isInfinite_iff, infinitePast, infiniteFuture, ticksPerSecond, not_or, not_le] at ht
    constructor
    · simp only [ticksPerSecond]
      omega
    · simp only [ticksPerSecond]
      omega

theorem ofTimestamp_eq_clamp {ts : Timestamp} (hs : -2 ^ 63 ≤ ts.seconds ∧ ts.seconds < 2 ^ 63)
    (hn : -2 ^ 31 ≤ ts.nanos ∧ ts.nanos < 2 ^ 31) : ofTimestamp (some ts) = clamp (instantOf ts) := by
  refine add_eq_clamp ?_ ?_
  · rw [isInfinite_iff]
    simp only [fromUnixSeconds, infinitePast, infiniteFuture, ticksPerSecond, Option.elim]
    omega
  · rw [isInfinite_iff]
    simp only [nanoseconds, infinitePast, infiniteFuture, ticksPerSecond, Option.elim]
    omega

section Normal
variable {ts : Timestamp}

theorem Normal.finite (h : Normal ts) : ¬isInfinite (instantOf ts) := by
  obtain ⟨⟨hlo, hhi⟩, hn, hn'⟩ := h
  rw [isInfinite_iff]
  simp only [instantOf, infinitePast, infiniteFuture, ticksPerSecond]
  omega

theorem ofTimestamp_of_normal (h : Normal ts) : ofTimestamp (some ts) = instantOf ts := by
  have hfinite := h.finite
  rw [isInfinite_iff, not_or, not_le, not_le] at hfinite
  rw [ofTimestamp_eq_clamp h.seconds (by have := h.nanos; omega), clamp,
    min_eq_right hfinite.2.le, max_eq_right hfinite.1.le]

theorem toTimespec_of_normal (h : Normal ts) : toTimespec (instantOf ts) = ts := by
  have hfinite : isInfinite (instantOf ts) = false := by simpa using h.finite
  obtain ⟨seconds, nanos⟩ := ts
  obtain ⟨_, hn, hn'⟩ := h
  dsimp only at hn hn'
  rw [toTimespec, if_neg (by simp [hfinite])]
  simp only [instantOf, ticksPerSecond, Timestamp.mk.injEq]
  constructor <;> omega

end Normal

theorem floor_toTimespec (t : ℤ) :
    ofTimestamp (some (toTimespec t)) / ticksPerSecond = (toTimespec t).seconds := by
  obtain ⟨_, hn, hn'⟩ := normal_toTimespec t
  rw [ofTimestamp_of_normal (normal_toTimespec t)]
  simp only [instantOf, ticksPerSecond]
  omega

theorem toTimeT_toTimespec (t : ℤ) :
    toTimeT (ofTimestamp (some (toTimespec t))) = (toTimespec t).seconds := by
  have hnormal := normal_toTimespec t
  rw [ofTimestamp_of_normal hnormal, toTimeT, toTimespec_of_normal hnormal]

end TwoPhaseCommit.Clock
