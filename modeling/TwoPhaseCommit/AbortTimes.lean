import TwoPhaseCommit.CohortDeadlines
import TwoPhaseCommit.CoordinatorRuns

/-! The presumed abort time on its way from the client through the coordinator to the cohorts, the
client and the contract. -/
namespace TwoPhaseCommit.AbortTimes
open Clock
open Coordinator (computeFinalConfig CommitAtomicTransactionResponse)

/-- The time that `Client::GetTransactionResults` waits for. -/
def clientPresumedAbortTime (response : CommitAtomicTransactionResponse) : ℤ :=
  ofTimestamp response.config.presumedAbortTime

/-- `TwoPhaseCommit::StartVoting`, which sends its time as a timestamp. -/
def timeoutTime (abortTime : ℤ) : Timestamp := toTimespec (fromUnixSeconds abortTime)

/-- `CoordinatorServer::StartVoting` with a presumed abort time, down to the contract. -/
def startVoting (now : ℕ) (id : String) (presumedAbortTime : Option Timestamp) (n : UInt32)
    (C : Contract.State) : Option Contract.State :=
  AdapterChain.startVoting now id (timeoutTime (toTimeT (ofTimestamp presumedAbortTime))).seconds n C

def requestedInstant (clientConfig : TransactionConfig) (now duration : ℤ) : ℤ :=
  match clientConfig.presumedAbortTime with
  | some ts => instantOf ts
  | none => now + duration

/-- The last instant that a Timestamp of whole nanoseconds can denote. -/
def lastInstant : ℤ := infiniteFuture - 4

/-- All parties take the config for the same instant, and the contract for its second. -/
structure ReadAs (config : TransactionConfig) (instant : ℤ) : Prop where
  denotes : ∃ ts, config.presumedAbortTime = some ts ∧ 0 ≤ ts.nanos ∧ ts.nanos < 1000000000 ∧
    instantOf ts = instant
  cohort : ∀ request, request.config = config → Cohort.presumedAbortTime request = instant
  client : ∀ response, response.config = config → clientPresumedAbortTime response = instant
  contract : ∀ now id n C C', startVoting now id config.presumedAbortTime n C = some C' →
    ((C'.transactionConfigs id).voteTimeoutTime : ℤ) = instant / ticksPerSecond ∧
    (C'.transactionConfigs id).voteTimeoutTime * ticksPerSecond ≤ instant ∧
    instant < ((C'.transactionConfigs id).voteTimeoutTime + 1) * ticksPerSecond

/-- ComputeFinalConfig fails if the requested instant is past, and else settles on an instant. -/
structure Settles (clientConfig : TransactionConfig) (now duration instant : ℤ) : Prop where
  fails : (∃ status, computeFinalConfig clientConfig now duration = .error status) ↔
    requestedInstant clientConfig now duration < now
  reads : ∀ config, computeFinalConfig clientConfig now duration = .ok config →
    ReadAs config instant
  again : ∀ config, computeFinalConfig clientConfig now duration = .ok config →
    computeFinalConfig config now duration = .ok config

def WholeNanoseconds (t : ℤ) : Prop := ¬isInfinite t ∧ 4 ∣ t

def FieldsFit (clientConfig : TransactionConfig) : Prop :=
  ∀ ts, clientConfig.presumedAbortTime = some ts →
    (-2 ^ 63 ≤ ts.seconds ∧ ts.seconds < 2 ^ 63) ∧ -2 ^ 31 ≤ ts.nanos ∧ ts.nanos < 2 ^ 31

theorem seconds_timeoutTime (t : ℤ) : (timeoutTime (toTimeT t)).seconds = toTimeT t := by
  have hwhole : Normal ⟨toTimeT t, 0⟩ := ⟨(normal_toTimespec t).seconds, by simp⟩
  have htimespec := toTimespec_of_normal hwhole
  rw [instantOf, mul_zero, add_zero] at htimespec
  rw [timeoutTime, fromUnixSeconds, htimespec]

theorem startVoting_eq (now : ℕ) (id : String) (presumedAbortTime : Option Timestamp) (n : UInt32)
    (C : Contract.State) : startVoting now id presumedAbortTime n C =
      AdapterChain.startVoting now id (toTimeT (ofTimestamp presumedAbortTime)) n C := by
  rw [startVoting, seconds_timeoutTime]

section Settles
variable {clientConfig : TransactionConfig} {now duration : ℤ}

theorem readAs_of_normal {ts : Timestamp} (h : Normal ts) : ReadAs ⟨some ts⟩ (instantOf ts) where
  denotes := ⟨ts, rfl, h.nanos.1, h.nanos.2, rfl⟩
  cohort request hr := by rw [Cohort.presumedAbortTime, hr, ofTimestamp_of_normal h]
  client response hr := by rw [clientPresumedAbortTime, hr, ofTimestamp_of_normal h]
  contract now id n C C' hstart := by
    have hseconds : toTimeT (ofTimestamp (some ts)) = ts.seconds := by
      rw [ofTimestamp_of_normal h, toTimeT, toTimespec_of_normal h]
    obtain ⟨hn, hn'⟩ := h.nanos
    have hfloor : instantOf ts / ticksPerSecond = ts.seconds := by
      simp only [instantOf, ticksPerSecond]
      omega
    rw [startVoting_eq, hseconds, AdapterChain.startVoting, Contract.startVoting] at hstart
    split_ifs at hstart with hpos hvalid
    obtain rfl := Option.some.inj hstart
    have htimeout : ((ts.seconds.toNat : ℕ) : ℤ) = ts.seconds := Int.toNat_of_nonneg hpos
    dsimp only
    rw [Function.update_self, htimeout, hfloor]
    refine ⟨rfl, ?_, ?_⟩
    · simp only [instantOf, ticksPerSecond]
      omega
    · simp only [instantOf, ticksPerSecond]
      omega

theorem computeFinalConfig_of_time {t : ℤ}
    (h : clientConfig.presumedAbortTime.elim (add now duration) (fun ts => ofTimestamp (some ts)) =
      t) :
    computeFinalConfig clientConfig now duration =
      if t < now then .error ⟨.invalidArgument, "Presumed abort time is in the past"⟩
      else .ok ⟨some (toTimespec t)⟩ := by
  subst h
  obtain ⟨_ | ts⟩ := clientConfig <;> rfl

theorem computeFinalConfig_of_normal {ts : Timestamp} (h : Normal ts) (hnow : ¬instantOf ts < now) :
    computeFinalConfig ⟨some ts⟩ now duration = .ok ⟨some ts⟩ := by
  calc computeFinalConfig ⟨some ts⟩ now duration
      = if instantOf ts < now then _ else .ok ⟨some (toTimespec (instantOf ts))⟩ :=
        computeFinalConfig_of_time (ofTimestamp_of_normal h)
    _ = .ok ⟨some ts⟩ := by rw [if_neg hnow, toTimespec_of_normal h]

theorem computeFinalConfig_eq (hfit : FieldsFit clientConfig) (hnow : WholeNanoseconds now)
    (hduration : WholeNanoseconds duration) :
    computeFinalConfig clientConfig now duration =
      if clamp (requestedInstant clientConfig now duration) < now then
        .error ⟨.invalidArgument, "Presumed abort time is in the past"⟩
      else .ok ⟨some (toTimespec (clamp (requestedInstant clientConfig now duration)))⟩ := by
  refine computeFinalConfig_of_time ?_
  obtain ⟨_ | ts⟩ := clientConfig
  · exact add_eq_clamp hnow.1 hduration.1
  · obtain ⟨hs, hn⟩ := hfit ts rfl
    exact ofTimestamp_eq_clamp hs hn

theorem whole_requestedInstant (hnow : WholeNanoseconds now) (hduration : WholeNanoseconds duration) :
    4 ∣ requestedInstant clientConfig now duration := by
  obtain ⟨_ | ts⟩ := clientConfig
  · exact dvd_add hnow.2 hduration.2
  · simp only [requestedInstant, instantOf, ticksPerSecond]
    omega

theorem instantOf_toTimespec {t : ℤ} (ht : 4 ∣ t) (hpast : infinitePast < t) :
    instantOf (toTimespec (clamp t)) = min t lastInstant := by
  simp only [infinitePast, ticksPerSecond] at hpast
  rw [toTimespec]
  by_cases hfuture : infiniteFuture ≤ t
  · have hclamp : clamp t = infiniteFuture := by
      rw [clamp, min_eq_left hfuture]
      exact max_eq_right (by simp only [infinitePast, infiniteFuture, ticksPerSecond]; omega)
    have hmin : min t lastInstant = lastInstant :=
      min_eq_right (by simp only [lastInstant]; omega)
    rw [hclamp, hmin]
    rfl
  · have hclamp : clamp t = t := by
      rw [clamp, min_eq_right (by omega)]
      exact max_eq_right (by simp only [infinitePast, ticksPerSecond]; omega)
    have hfinite : ¬isInfinite t := by
      rw [isInfinite_iff]
      simp only [infinitePast, ticksPerSecond]
      omega
    have hmin : min t lastInstant = t := by
      refine min_eq_left ?_
      simp only [infiniteFuture, lastInstant, ticksPerSecond] at hfuture ⊢
      omega
    rw [hclamp, hmin, if_neg hfinite]
    simp only [instantOf, ticksPerSecond]
    omega

/-- All parties agree on the requested instant, or on the last one that can be denoted where that is
earlier. -/
theorem settles (hfit : FieldsFit clientConfig) (hnow : WholeNanoseconds now)
    (hduration : WholeNanoseconds duration) :
    Settles clientConfig now duration
      (min (requestedInstant clientConfig now duration) lastInstant) := by
  have heq := computeFinalConfig_eq hfit hnow hduration
  have hwhole : 4 ∣ requestedInstant clientConfig now duration :=
    whole_requestedInstant hnow hduration
  obtain ⟨hpast, hfuture⟩ : infinitePast < now ∧ now < infiniteFuture := by
    simpa [isInfinite_iff] using hnow.1
  have hlt := clamp_lt_iff hpast hfuture.le (t := requestedInstant clientConfig now duration)
  have hnormal : Normal (toTimespec (clamp (requestedInstant clientConfig now duration))) :=
    normal_toTimespec _
  by_cases hlate : requestedInstant clientConfig now duration < now
  · rw [if_pos (hlt.mpr hlate)] at heq
    refine ⟨by simp [heq, hlate], fun config h => ?_, fun config h => ?_⟩ <;> simp [heq] at h
  · rw [if_neg (hlt.not.mpr hlate)] at heq
    rw [not_lt] at hlate
    have hinstant := instantOf_toTimespec hwhole (hpast.trans_le hlate)
    refine ⟨by simp [heq, hlate], fun config h => ?_, fun config h => ?_⟩
    · obtain rfl := Except.ok.inj (heq.symm.trans h)
      exact hinstant ▸ readAs_of_normal hnormal
    · obtain rfl := Except.ok.inj (heq.symm.trans h)
      have hnow4 := hnow.2
      refine computeFinalConfig_of_normal hnormal ?_
      rw [hinstant, not_lt, le_min_iff]
      refine ⟨hlate, ?_⟩
      simp only [lastInstant, infiniteFuture, ticksPerSecond] at hfuture ⊢
      omega

end Settles

/-- 1.5 s before second 7, asked for at second 5. -/
def unnormalised : TransactionConfig := ⟨some ⟨7, -1500000000⟩⟩

theorem settles_unnormalised :
    Settles unnormalised (5 * ticksPerSecond) (60 * ticksPerSecond)
      (min (requestedInstant unnormalised (5 * ticksPerSecond) (60 * ticksPerSecond)) lastInstant) ∧
    computeFinalConfig unnormalised (5 * ticksPerSecond) (60 * ticksPerSecond) =
      .ok ⟨some ⟨5, 500000000⟩⟩ := by
  refine ⟨settles ?_ ?_ ?_, rfl⟩
  · rintro ts ⟨⟩
    decide
  · exact ⟨by decide, by decide⟩
  · exact ⟨by decide, by decide⟩

def afterRange : TransactionConfig := ⟨some ⟨2 ^ 63 - 1, 2000000000⟩⟩

theorem afterRange_saturates : FieldsFit afterRange ∧ WholeNanoseconds 0 ∧
    ¬Settles afterRange 0 0 (requestedInstant afterRange 0 0) := by
  refine ⟨?_, ⟨by decide, by decide⟩, fun h => ?_⟩
  · rintro ts ⟨⟩
    decide
  · have hok : computeFinalConfig afterRange 0 0 = .ok ⟨some ⟨2 ^ 63 - 1, 999999999⟩⟩ := rfl
    obtain ⟨ts, hts, -, -, hinstant⟩ := (h.reads _ hok).denotes
    obtain rfl := Option.some.inj hts
    exact absurd hinstant (by decide)

end TwoPhaseCommit.AbortTimes
