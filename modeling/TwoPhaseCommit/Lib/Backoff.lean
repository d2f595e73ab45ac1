import Mathlib.Algebra.Order.Ring.Int

/-! Asking until an answer is taken, each time after a wait that doubles the distance from an
origin. Times are integers. -/
namespace Backoff
variable {α : Type*}

/-- What becomes of a question: how long it takes, the answer if it is taken, and how much longer
than wanted the asker sleeps if not. -/
structure Round (α : Type*) where
  took : ℕ
  answer : Option α
  overslept : ℕ

/-- The loop from question i on: the times of its questions, and the answer with its time. -/
def poll (world : ℕ → ℤ → Round α) (wake : ℕ → ℤ → ℤ) :
    (fuel i : ℕ) → (now : ℤ) → List ℤ × Option (α × ℤ)
  | 0, _, _ => ([], none)
  | fuel + 1, i, now =>
    let round := world i now
    match round.answer with
    | some a => ([now], some (a, now + round.took))
    | none =>
      let rest := poll world wake fuel (i + 1) (wake i (now + round.took) + round.overslept)
      (now :: rest.1, rest.2)

inductive Ended (world : ℕ → ℤ → Round α) : ℕ → List ℤ → α × ℤ → Prop
  | taken {i : ℕ} {now : ℤ} {a : α} (h : (world i now).answer = some a) :
      Ended world i [now] (a, now + (world i now).took)
  | again {i : ℕ} {now : ℤ} {times : List ℤ} {r : α × ℤ} (h : (world i now).answer = none)
      (ht : Ended world (i + 1) times r) : Ended world i (now :: times) r

/-- From question `first` on a wait reaches twice as far from the origin, or a little less, where
that is before the horizon. -/
def Doubles (wake : ℕ → ℤ → ℤ) (first : ℕ) (origin slack horizon : ℤ) : Prop :=
  ∀ i t, first ≤ i → origin ≤ t → 2 * t - origin ≤ horizon →
    2 * t - origin - slack ≤ wake i t ∧ wake i t ≤ 2 * t - origin

/-- From a time on every answer is taken; questions and delays have their bounds. -/
structure Prompt (world : ℕ → ℤ → Round α) (ready : ℤ) (quick slow late : ℕ) : Prop where
  taken : ∀ i t, ready ≤ t → (world i t).answer.isSome
  quick : ∀ i t, quick ≤ (world i t).took
  slow : ∀ i t, (world i t).took ≤ slow
  late : ∀ i t, (world i t).overslept ≤ late

section Poll
variable {world : ℕ → ℤ → Round α} {wake : ℕ → ℤ → ℤ} {fuel i : ℕ} {now : ℤ}

theorem poll_some {a : α} (h : (world i now).answer = some a) :
    poll world wake (fuel + 1) i now = ([now], some (a, now + (world i now).took)) := by
  simp only [poll, h]

theorem poll_none (h : (world i now).answer = none) :
    let rest :=
      poll world wake fuel (i + 1) (wake i (now + (world i now).took) + (world i now).overslept)
    poll world wake (fuel + 1) i now = (now :: rest.1, rest.2) := by
  simp only [poll, h]

theorem poll_ended {r : α × ℤ} (h : (poll world wake fuel i now).2 = some r) :
    Ended world i (poll world wake fuel i now).1 r := by
  induction fuel generalizing i now with
  | zero => cases h
  | succ fuel ih =>
    cases hr : (world i now).answer with
    | some a =>
      rw [poll_some hr] at h ⊢
      obtain rfl := Option.some.inj h
      exact .taken hr
    | none =>
      rw [poll_none hr] at h ⊢
      exact .again hr (ih h)

theorem poll_of_le {r : α × ℤ} {fuel' : ℕ} (h : (poll world wake fuel i now).2 = some r)
    (hle : fuel ≤ fuel') : poll world wake fuel' i now = poll world wake fuel i now := by
  induction fuel generalizing i now fuel' with
  | zero => cases h
  | succ fuel ih =>
    obtain ⟨fuel', rfl⟩ := Nat.exists_eq_succ_of_ne_zero (Nat.ne_zero_of_lt hle)
    cases hr : (world i now).answer with
    | some a => rw [poll_some hr, poll_some hr]
    | none =>
      rw [poll_none hr] at h
      rw [poll_none hr, poll_none hr, ih h (Nat.le_of_succ_le_succ hle)]

theorem length_poll_le : (poll world wake fuel i now).1.length ≤ fuel := by
  induction fuel generalizing i now with
  | zero => exact le_rfl
  | succ fuel ih =>
    cases hr : (world i now).answer with
    | some a =>
      rw [poll_some hr]
      exact Nat.succ_le_succ (Nat.zero_le fuel)
    | none =>
      rw [poll_none hr]
      exact Nat.succ_le_succ ih

theorem le_of_mem_poll (hwake : ∀ i t, t ≤ wake i t) {t : ℤ}
    (h : t ∈ (poll world wake fuel i now).1) : now ≤ t := by
  induction fuel generalizing i now with
  | zero => cases h
  | succ fuel ih =>
    cases hr : (world i now).answer with
    | some a =>
      rw [poll_some hr, List.mem_singleton] at h
      exact h.ge
    | none =>
      rw [poll_none hr, List.mem_cons] at h
      obtain rfl | h := h
      · exact le_rfl
      · have := ih h
        have := hwake i (now + (world i now).took)
        omega

theorem le_of_mem_tail_poll (hwake : ∀ i t, t ≤ wake i t) {t c : ℤ}
    (hc : ∀ t, c ≤ wake i t) (h : t ∈ (poll world wake fuel i now).1.tail) : c ≤ t := by
  cases fuel with
  | zero => cases h
  | succ fuel =>
    cases hr : (world i now).answer with
    | some a =>
      rw [poll_some hr] at h
      cases h
    | none =>
      rw [poll_none hr] at h
      have := le_of_mem_poll hwake h
      have := hc (now + (world i now).took)
      omega

section Prompt
variable {ready origin slack horizon bound : ℤ} {quick slow late first n : ℕ}

theorem Prompt.lt_ready (hp : Prompt world ready quick slow late)
    (h : (world i now).answer = none) : now < ready := by
  by_contra hready
  have htaken := hp.taken i now (not_lt.mp hready)
  rw [h] at htaken
  cases htaken

theorem Prompt.poll_some (hp : Prompt world ready quick slow late) {a : α}
    (h : (world i now).answer = some a) (hnow : now ≤ bound) :
    ∃ r, (poll world wake (fuel + 1) i now).2 = some r ∧ r.2 ≤ bound + slow := by
  have hslow := hp.slow i now
  rw [Backoff.poll_some h]
  exact ⟨_, rfl, by dsimp only; omega⟩

section Doubles
variable (hp : Prompt world ready quick slow late) (hd : Doubles wake first origin slack horizon)
  (hhorizon : 2 * (ready + slow) - origin ≤ horizon) (hi : first ≤ i)
include hp hd hhorizon hi

/-- Until an answer is taken every question is at least twice as far from the origin as the one
before it, and not much more than twice as far as the time when answers are taken. -/
theorem wake_bounds (horigin : origin ≤ now) (h : (world i now).answer = none) :
    let t := now + (world i now).took
    let next := wake i t + (world i now).overslept
    2 * (t - origin) - slack ≤ next - origin ∧ next ≤ 2 * (ready + slow) - origin + late := by
  have hnow := hp.lt_ready h
  have hslow := hp.slow i now
  have hlate := hp.late i now
  have hdoubles := hd i (now + (world i now).took) hi (by omega) (by omega)
  dsimp only
  omega

theorem answered_of_distance (hslack : 0 ≤ slack) (horigin : origin + slack ≤ now)
    (hn : ready - origin - slack ≤ 2 ^ n * (now - origin - slack)) (hnow : now ≤ bound)
    (hbound : 2 * (ready + slow) - origin + late ≤ bound) :
    ∃ r, (poll world wake (n + 1) i now).2 = some r ∧ r.2 ≤ bound + slow := by
  induction n generalizing i now with
  | zero =>
    obtain ⟨a, ha⟩ := Option.isSome_iff_exists.mp (hp.taken i now (by omega))
    exact hp.poll_some ha hnow
  | succ n ih =>
    cases hr : (world i now).answer with
    | some a => exact hp.poll_some hr hnow
    | none =>
      rw [poll_none hr]
      have hwake := wake_bounds hp hd hhorizon hi (by omega) hr
      dsimp only at hwake
      refine ih (by omega) (by omega) ?_ (by omega)
      calc ready - origin - slack ≤ 2 ^ (n + 1) * (now - origin - slack) := hn
        _ = 2 ^ n * (2 * (now - origin - slack)) := by rw [pow_succ, mul_assoc]
        _ ≤ _ := mul_le_mul_of_nonneg_left (by omega) (pow_nonneg zero_le_two n)

/-- The answer is taken, after not much more than twice the time, and in a number of questions
that only grows with its logarithm. -/
theorem answered (hslack : 0 ≤ slack) (hquick : slack ≤ quick) (horigin : origin ≤ now)
    (hn : ready - origin - slack ≤ 2 ^ (n + 1) * (quick - slack)) (hnow : now ≤ bound)
    (hbound : 2 * (ready + slow) - origin + late ≤ bound) :
    ∃ r, (poll world wake (n + 2) i now).2 = some r ∧ r.2 ≤ bound + slow := by
  cases hr : (world i now).answer with
  | some a => exact hp.poll_some hr hnow
  | none =>
    rw [poll_none hr]
    have hwake := wake_bounds hp hd hhorizon hi horigin hr
    have := hp.quick i now
    dsimp only at hwake
    refine answered_of_distance hp hd hhorizon (by omega) hslack (by omega) ?_ (by omega) hbound
    calc ready - origin - slack ≤ 2 ^ (n + 1) * (quick - slack) := hn
      _ = 2 ^ n * (2 * (quick - slack)) := by rw [pow_succ, mul_assoc]
      _ ≤ _ := mul_le_mul_of_nonneg_left (by omega) (pow_nonneg zero_le_two n)

end Doubles

theorem answered_from (hp : Prompt world ready quick slow late)
    (hd : Doubles wake (i + 1) origin slack horizon)
    (hhorizon : 2 * (ready + slow) - origin ≤ horizon) (hslack : 0 ≤ slack)
    (hquick : slack ≤ quick) (hwake : ∀ t, wake i t = max t origin)
    (hn : ready - origin - slack ≤ 2 ^ (n + 1) * (quick - slack)) :
    ∃ r, (poll world wake (n + 3) i now).2 = some r ∧
      r.2 ≤ max now (max origin (2 * (ready + slow) - origin)) + late + slow := by
  cases hr : (world i now).answer with
  | some a => exact hp.poll_some hr (by omega)
  | none =>
    have hnow := hp.lt_ready hr
    have hslow := hp.slow i now
    have hlate := hp.late i now
    rw [poll_none hr, hwake]
    exact answered hp hd hhorizon le_rfl hslack hquick (by omega) hn (by omega) (by omega)

end Prompt
end Poll
end Backoff
