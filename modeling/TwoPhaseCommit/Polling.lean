import TwoPhaseCommit.AbortTimes
import TwoPhaseCommit.Client
import TwoPhaseCommit.CohortProgram
import TwoPhaseCommit.Lib.Backoff
import TwoPhaseCommit.SystemProgress

/-! The waits for an outcome: the client asks the coordinator, and the cohort the blockchain. The
system clock counts nanoseconds. -/
namespace TwoPhaseCommit.Clock

def toInt64 (x : ℤ) : ℤ := max (-2 ^ 63) (min (2 ^ 63 - 1) x)

def sub (t d : ℤ) : ℤ :=
  if isInfinite t then t
  else if isInfinite d then if 0 ≤ d then infinitePast else infiniteFuture
  else max infinitePast (min infiniteFuture (t - d))

def fromUnixNanos (ns : ℤ) : ℤ := 4 * ns

/-- `ToChronoTime`: rounded down. -/
def toChronoTime (t : ℤ) : ℤ := toInt64 (t / 4)

/-- `ToChronoMicroseconds`: rounded towards zero. -/
def toChronoMicroseconds (d : ℤ) : ℤ := toInt64 (d.tdiv 4000)

theorem toInt64_of_le {x : ℤ} (h : -2 ^ 63 ≤ x) (h' : x < 2 ^ 63) : toInt64 x = x := by
  rw [toInt64, min_eq_right (by omega), max_eq_right h]

theorem finite_fromUnixNanos {ns : ℤ} (h : -2 ^ 64 ≤ ns) (h' : ns ≤ 2 ^ 64) :
    isInfinite (fromUnixNanos ns) = false := by
  rw [← Bool.not_eq_true, isInfinite_iff]
  simp only [fromUnixNanos, infinitePast, infiniteFuture, ticksPerSecond]
  omega

theorem sub_fromUnixNanos {s t : ℤ} (hs : -2 ^ 63 ≤ s) (hst : s ≤ t) (ht : t < 2 ^ 63) :
    sub (fromUnixNanos t) (fromUnixNanos s) = fromUnixNanos (t - s) := by
  rw [sub, finite_fromUnixNanos (by omega) (by omega), finite_fromUnixNanos (by omega) (by omega),
    if_neg Bool.false_ne_true, if_neg Bool.false_ne_true]
  simp only [fromUnixNanos, infinitePast, infiniteFuture, ticksPerSecond]
  omega

theorem add_fromUnixNanos {t d : ℤ} (ht : -2 ^ 63 ≤ t) (ht' : t < 2 ^ 63) (hd : 0 ≤ d)
    (hd' : d ≤ 2 ^ 64) : add (fromUnixNanos t) (fromUnixNanos d) = fromUnixNanos (t + d) := by
  rw [add, finite_fromUnixNanos (by omega) (by omega), finite_fromUnixNanos (by omega) (by omega),
    if_neg Bool.false_ne_true, if_neg Bool.false_ne_true]
  simp only [fromUnixNanos, infinitePast, infiniteFuture, ticksPerSecond]
  omega

theorem toChronoTime_fromUnixNanos {ns : ℤ} (h : -2 ^ 63 ≤ ns) (h' : ns < 2 ^ 63) :
    toChronoTime (fromUnixNanos ns) = ns := by
  rw [toChronoTime, fromUnixNanos, Int.mul_ediv_cancel_left _ (by decide), toInt64_of_le h h']

end TwoPhaseCommit.Clock

namespace TwoPhaseCommit.Polling
open Backoff Clock
open AbortTimes (clientPresumedAbortTime)
open Programs.Program (Steps)
open AdapterChain.Blockchain (VotingDecision)
open Coordinator (CommitAtomicTransactionResponse GetTransactionResultResponse)

def sleepUntil (now target : ℤ) : ℤ := max now target

def sleepFor (now duration : ℤ) : ℤ := now + max 0 duration

/-- A reply, how long it takes to come, and how much longer than wanted the thread then sleeps. -/
structure Timed (ρ : Type) where
  took : ℕ
  reply : ρ
  overslept : ℕ

abbrev Network (ρ : Type) := String → ℕ → ℤ → Timed ρ

def tryGetTransactionResults (coordinator : Network (Status × GetTransactionResultResponse))
    (transactionId : String) (i : ℕ) (now : ℤ) : Round GetTransactionResultResponse :=
  let r := coordinator transactionId i now
  ⟨r.took, if Client.tryGetTransactionResults r.reply.1 r.reply.2 then some r.reply.2 else none,
    r.overslept⟩

/-- When the client wakes up after a question. -/
def clientWake (presumedAbortTime : ℤ) (now : ℤ) : ℤ :=
  let t := fromUnixNanos now
  sleepUntil now (toChronoTime (add t (sub t presumedAbortTime)))

/-- The times at which the client asks, and the final response with its time. -/
def getTransactionResults (coordinator : Network (Status × GetTransactionResultResponse))
    (overslept : ℕ) (prepareResponse : CommitAtomicTransactionResponse) (fuel : ℕ) (now : ℤ) :
    List ℤ × Option (GetTransactionResultResponse × ℤ) :=
  let presumedAbortTime := clientPresumedAbortTime prepareResponse
  poll (tryGetTransactionResults coordinator prepareResponse.globalTransactionId)
    (fun _ => clientWake presumedAbortTime) fuel 0 (sleepUntil now (toChronoTime presumedAbortTime) + overslept)

/-- The end of a round of WaitForBlockchainDecision, if the decision is returned. -/
def decided (blockchain : Network (Except Status VotingDecision)) (transactionId : String) (i : ℕ)
    (now : ℤ) : Round VotingDecision :=
  let r := blockchain transactionId i now
  let decision := Cohort.decisionOf r.reply.toOption
  ⟨r.took, if decision ≠ .pending ∧ decision ≠ .unknown then some decision else none, r.overslept⟩

/-- When the cohort wakes up after question i. Only the first wait is until the presumed abort
time. -/
def cohortWake (presumedAbortTime : ℤ) (i : ℕ) (now : ℤ) : ℤ :=
  if i = 0 then sleepUntil now (toChronoTime presumedAbortTime)
  else sleepFor now (1000 * toChronoMicroseconds (sub (fromUnixNanos now) presumedAbortTime))

/-- The times at which the cohort asks, and the decision with its time. -/
def waitForBlockchainDecision (blockchain : Network (Except Status VotingDecision))
    (transactionId : String) (presumedAbortTime : ℤ) (fuel : ℕ) (now : ℤ) :
    List ℤ × Option (VotingDecision × ℤ) :=
  poll (decided blockchain transactionId) (cohortWake presumedAbortTime) fuel 0 now

theorem doubles_client {abortTime : ℤ} (h : -2 ^ 63 ≤ abortTime) :
    Doubles (fun _ => clientWake (fromUnixNanos abortTime)) 0 abortTime 0 (2 ^ 63 - 1) := by
  intro _ t _ ht hhorizon
  dsimp only
  rw [clientWake, sub_fromUnixNanos h ht (by omega), add_fromUnixNanos (by omega) (by omega) (by omega)
    (by omega), toChronoTime_fromUnixNanos (by omega) (by omega), sleepUntil]
  omega

theorem doubles_cohort {abortTime : ℤ} (h : -2 ^ 63 ≤ abortTime) :
    Doubles (cohortWake (fromUnixNanos abortTime)) 1 abortTime 999 (2 ^ 63 - 1) := by
  intro i t hi ht hhorizon
  have hmicros : (fromUnixNanos (t - abortTime)).tdiv 4000 = (t - abortTime) / 1000 := by
    rw [fromUnixNanos, Int.tdiv_eq_ediv_of_nonneg (by omega)]
    omega
  rw [cohortWake, if_neg (by omega), sub_fromUnixNanos h ht (by omega), toChronoMicroseconds, hmicros,
    toInt64_of_le (by omega) (by omega), sleepFor]
  omega

section Run
variable {abortTime ready now : ℤ} {quick slow late n fuel : ℕ}

/-- The client asks only after the presumed abort time. Once final responses are there it has one
after twice the time and some delays, and asks a number of times logarithmic in that time; it
takes the first final response. -/
theorem results_in_time {coordinator : Network (Status × GetTransactionResultResponse)}
    {prepareResponse : CommitAtomicTransactionResponse} {overslept : ℕ}
    (habort : clientPresumedAbortTime prepareResponse = fromUnixNanos abortTime)
    (hmin : -2 ^ 63 ≤ abortTime) (hmax : abortTime < 2 ^ 63)
    (hprompt : Prompt (tryGetTransactionResults coordinator prepareResponse.globalTransactionId)
      ready quick slow late) (hovers : overslept ≤ late)
    (hhorizon : 2 * (ready + slow) - abortTime < 2 ^ 63)
    (hn : ready - abortTime ≤ 2 ^ (n + 1) * quick) (hfuel : n + 2 ≤ fuel) :
    let polls := getTransactionResults coordinator overslept prepareResponse fuel now
    (∀ t ∈ polls.1, abortTime ≤ t) ∧ polls.1.length ≤ n + 2 ∧ ∃ r, polls.2 = some r ∧
      Ended (tryGetTransactionResults coordinator prepareResponse.globalTransactionId) 0 polls.1 r ∧
      r.2 ≤ max now (max abortTime (2 * (ready + slow) - abortTime)) + late + slow := by
  have hstart : abortTime ≤ sleepUntil now abortTime + overslept := by
    rw [sleepUntil]
    omega
  have hbound : sleepUntil now abortTime + overslept ≤
      max now (max abortTime (2 * (ready + slow) - abortTime)) + late := by
    rw [sleepUntil]
    omega
  obtain ⟨r, hr, hle⟩ := answered hprompt (doubles_client hmin) (by omega) le_rfl le_rfl
    (Int.natCast_nonneg quick) hstart (by simpa using hn) hbound (by omega)
  dsimp only
  rw [getTransactionResults, habort, toChronoTime_fromUnixNanos hmin hmax, poll_of_le hr hfuel]
  refine ⟨fun t ht => hstart.trans (le_of_mem_poll (fun _ t => le_max_left t _) ht),
    length_poll_le, r, hr, poll_ended hr, hle⟩

def steady {ρ : Type} (reply : ℤ → ρ) : Network ρ := fun _ _ now => ⟨100000000, reply now, 1000000⟩

def pendingUntil (ready now : ℤ) : Status × GetTransactionResultResponse :=
  (.okStatus, some (if now < ready then .pendingResponse else .abortedResponse {}))

/-- The response is there seven seconds after the presumed abort time. -/
theorem results_in_time_seven_seconds :
    let coordinator := steady (pendingUntil 17000000000)
    let polls := getTransactionResults coordinator 0 ⟨"t", ⟨some ⟨10, 0⟩⟩⟩ 8 0
    (∀ t ∈ polls.1, 10000000000 ≤ t) ∧ polls.1.length ≤ 8 ∧ ∃ r, polls.2 = some r ∧
      Ended (tryGetTransactionResults coordinator "t") 0 polls.1 r ∧
      r.2 ≤ max 0 (max 10000000000 (2 * (17000000000 + (100000000 : ℕ)) - 10000000000)) +
        (1000000 : ℕ) + (100000000 : ℕ) := by
  have habort : clientPresumedAbortTime ⟨"t", ⟨some ⟨10, 0⟩⟩⟩ = fromUnixNanos 10000000000 := by
    decide
  have hprompt : Prompt (tryGetTransactionResults (steady (pendingUntil 17000000000)) "t")
      17000000000 100000000 100000000 1000000 := by
    refine ⟨fun i t ht => ?_, fun _ _ => le_rfl, fun _ _ => le_rfl, fun _ _ => le_rfl⟩
    simp only [tryGetTransactionResults, steady, pendingUntil, if_neg (not_lt.mpr ht)]
    rfl
  exact results_in_time (n := 6) habort (by decide) (by decide) hprompt (Nat.zero_le _) (by decide)
    (by decide) le_rfl

section Cohort
variable {blockchain : Network (Except Status VotingDecision)} {id : String} {i : ℕ}
  {times : List ℤ} {r : VotingDecision × ℤ}

/-- The last block and the contract at each time, and what a failing query returns. -/
structure Chain where
  now : ℤ → ℕ
  contract : ℤ → Contract.State
  failure : Status

def Chain.getVotingDecision (chain : Chain) (transactionId : String) (t : ℤ) :
    Except Status VotingDecision :=
  match AdapterChain.getVotingDecision (chain.now t) transactionId (chain.contract t) with
  | some decision => .ok decision
  | none => .error chain.failure

def Chain.delayed (chain : Chain) (delays : Network Unit) : Network (Except Status VotingDecision) :=
  fun id i t => ⟨(delays id i t).took, chain.getVotingDecision id t, (delays id i t).overslept⟩

theorem decided_eq_some {d : VotingDecision} (h : (decided blockchain id i now).answer = some d) :
    (blockchain id i now).reply = .ok d ∧ (d = .commit ∨ d = .abort) := by
  obtain ⟨hfinal, he⟩ := Option.ite_none_right_eq_some.mp h
  obtain rfl := Option.some.inj he
  cases hreply : (blockchain id i now).reply with
  | error status =>
    rw [hreply] at hfinal
    exact absurd rfl hfinal.1
  | ok d =>
    rw [hreply] at hfinal
    refine ⟨rfl, ?_⟩
    cases d with
    | commit => exact .inl rfl
    | abort => exact .inr rfl
    | pending => exact absurd rfl hfinal.1
    | unknown => exact absurd rfl hfinal.2

theorem steps_pollOr {again q : CohortServer.Process (Option VotingDecision)}
    {reply : Except Status VotingDecision} {es : List CohortServer.Event}
    (h : Steps (if Cohort.decisionOf reply.toOption ≠ .pending ∧
        Cohort.decisionOf reply.toOption ≠ .unknown then
      pure (some (Cohort.decisionOf reply.toOption)) else again) es q) :
    Steps (CohortServer.pollOr id again) (⟨.getVotingDecision id, reply⟩ :: es) q := by
  rw [CohortServer.pollOr, Programs.Program.perform_bind]
  apply Steps.call
  exact h

theorem decision_of_ended (h : Ended (decided blockchain id) i times r) :
    (r.1 = .commit ∨ r.1 = .abort) ∧ ∃ j, ∃ t ∈ times, (blockchain id j t).reply = .ok r.1 := by
  induction h with
  | @taken i now d h =>
    obtain ⟨hreply, hfinal⟩ := decided_eq_some h
    exact ⟨hfinal, i, now, List.mem_singleton_self now, hreply⟩
  | again h ht ih =>
    obtain ⟨hfinal, j, t, hmem, hreply⟩ := ih
    exact ⟨hfinal, j, t, List.mem_cons_of_mem _ hmem, hreply⟩

theorem steps_of_ended (h : Ended (decided blockchain id) i times r) {retries : ℕ}
    (hretries : times.length ≤ retries + 1) :
    ∃ es : List CohortServer.Event, es.length = times.length ∧
      Steps (CohortServer.waitForBlockchainDecision id retries) es (.ret (some r.1)) := by
  induction h generalizing retries with
  | @taken i now d h =>
    obtain ⟨hreply, hfinal⟩ := decided_eq_some h
    have hret (again : CohortServer.Process (Option VotingDecision)) :
        Steps (CohortServer.pollOr id again)
          [⟨.getVotingDecision id, (blockchain id i now).reply⟩] (.ret (some d)) := by
      refine steps_pollOr ?_
      rw [hreply]
      obtain rfl | rfl := hfinal <;> exact .refl _
    cases retries with
    | zero => exact ⟨_, rfl, hret _⟩
    | succ retries => exact ⟨_, rfl, hret _⟩
  | @again i now times r h ht ih =>
    cases retries with
    | zero =>
      cases ht <;> exact absurd hretries (by simp)
    | succ retries =>
      obtain ⟨es, hlength, hes⟩ := ih (Nat.le_of_succ_le_succ hretries)
      refine ⟨⟨.getVotingDecision id, (blockchain id i now).reply⟩ :: es, congrArg Nat.succ hlength,
        steps_pollOr ?_⟩
      rw [if_neg fun hfinal => by simp [decided, if_pos hfinal] at h]
      exact hes

theorem decision_in_time (hmin : -2 ^ 63 ≤ abortTime) (hmax : abortTime < 2 ^ 63)
    (hprompt : Prompt (decided blockchain id) ready quick slow late) (hquick : 999 ≤ quick)
    (hhorizon : 2 * (ready + slow) - abortTime < 2 ^ 63)
    (hn : ready - abortTime - 999 ≤ 2 ^ (n + 1) * (quick - 999)) (hfuel : n + 3 ≤ fuel) :
    let polls := waitForBlockchainDecision blockchain id (fromUnixNanos abortTime) fuel now
    (∀ t ∈ polls.1.tail, abortTime ≤ t) ∧ polls.1.length ≤ n + 3 ∧ ∃ r, polls.2 = some r ∧
      Ended (decided blockchain id) 0 polls.1 r ∧
      r.2 ≤ max now (max abortTime (2 * (ready + slow) - abortTime)) + late + slow := by
  have hfirst (t : ℤ) : cohortWake (fromUnixNanos abortTime) 0 t = max t abortTime := by
    rw [cohortWake, if_pos rfl, toChronoTime_fromUnixNanos hmin hmax, sleepUntil]
  have hwake (i : ℕ) (t : ℤ) : t ≤ cohortWake (fromUnixNanos abortTime) i t := by
    rw [cohortWake]
    split_ifs
    · exact le_max_left _ _
    · exact le_add_of_nonneg_right (le_max_left _ _)
  obtain ⟨r, hr, hle⟩ := answered_from (i := 0) (n := n) hprompt (doubles_cohort hmin) (by omega)
    (by decide) (by omega) hfirst (by exact hn)
  have hended := poll_ended hr
  dsimp only
  rw [waitForBlockchainDecision, poll_of_le hr hfuel]
  exact ⟨fun t ht => le_of_mem_tail_poll hwake (fun t => hfirst t ▸ le_max_right t abortTime) ht,
    length_poll_le, r, hr, hended, hle⟩

section Chain
variable {chain : Chain} {delays : Network Unit} {request : Cohort.PrepareTransactionRequest}
  {cohorts lag : ℕ}

theorem deadline_le (habort : Cohort.presumedAbortTime request = fromUnixNanos abortTime)
    (hmin : 0 ≤ abortTime) (hmax : abortTime < 2 ^ 63) :
    (System.deadline request.config * 1000000000 : ℤ) ≤ abortTime := by
  have hseconds : toTimeT (fromUnixNanos abortTime) = abortTime / 1000000000 := by
    rw [toTimeT, toTimespec, finite_fromUnixNanos (by omega) (by omega),
      if_neg Bool.false_ne_true]
    simp only [fromUnixNanos, ticksPerSecond]
    omega
  rw [System.deadline, ← Cohort.presumedAbortTime, habort, hseconds]
  omega

/-- A cohort whose vote has returned is not blocked for long: it has the decision of the contract after
twice the lag of the chain and some delays from the presumed abort time on, whatever the other
parties do. It asks before that time only once, and all in all a number of times that is
logarithmic in the lag. -/
theorem unblocked (habort : Cohort.presumedAbortTime request = fromUnixNanos abortTime)
    (hmin : 0 ≤ abortTime) (hreached : ∀ t, ∃ txs, chain.contract t = Contract.run Contract.deployed txs)
    (hopened : ∀ t, abortTime ≤ t → (chain.contract t).transactionConfigs request.transactionId =
      ⟨cohorts, System.deadline request.config⟩) (hcohorts : 0 < cohorts)
    (hlag : ∀ t, t - lag ≤ chain.now t * 1000000000)
    (htook : ∀ i t, quick ≤ (delays request.transactionId i t).took ∧
      (delays request.transactionId i t).took ≤ slow)
    (hlate : ∀ i t, (delays request.transactionId i t).overslept ≤ late) (hquick : 999 ≤ quick)
    (hhorizon : abortTime + 2 * (lag + slow) < 2 ^ 63)
    (hn : (lag : ℤ) - 999 ≤ 2 ^ (n + 1) * (quick - 999)) (hfuel : n + 3 ≤ fuel) :
    let polls := waitForBlockchainDecision (chain.delayed delays) request.transactionId
      (Cohort.presumedAbortTime request) fuel now
    (∀ t ∈ polls.1.tail, abortTime ≤ t) ∧ polls.1.length ≤ n + 3 ∧ ∃ r, polls.2 = some r ∧
      (r.1 = .commit ∨ r.1 = .abort) ∧
      (∃ t ∈ polls.1, chain.getVotingDecision request.transactionId t = .ok r.1) ∧
      r.2 ≤ max now (abortTime + 2 * (lag + slow)) + late + slow ∧
      ∃ es : List CohortServer.Event, es.length = polls.1.length ∧
        Steps (CohortServer.waitForBlockchainDecision request.transactionId (n + 2)) es
          (.ret (some r.1)) := by
  have hprompt : Prompt (decided (chain.delayed delays) request.transactionId) (abortTime + lag)
      quick slow late := by
    refine ⟨fun i t ht => ?_, fun i t => (htook i t).1, fun i t => (htook i t).2, hlate⟩
    have hconfig := hopened t (by omega)
    have hdeadline := deadline_le habort hmin (by omega)
    have hblock := hlag t
    obtain ⟨txs, htxs⟩ := hreached t
    have hpassed : ((chain.contract t).transactionConfigs request.transactionId).voteTimeoutTime ≤
        chain.now t := by
      rw [hconfig]
      dsimp only
      omega
    obtain ⟨d, hd, hfinal⟩ := System.decided_of_deadline
      (htxs ▸ BallotTable.wellFormed_deployed.run txs) (by rw [hconfig]; exact hcohorts) hpassed
    rw [decided, Chain.delayed, Chain.getVotingDecision]
    simp only [hd]
    obtain rfl | rfl := hfinal <;> rfl
  have hrange : -2 ^ 63 ≤ abortTime := by omega
  obtain ⟨htail, hlength, r, hr, hended, hle⟩ := decision_in_time hrange (by omega) hprompt hquick
    (by omega) (by omega) hfuel
  obtain ⟨hfinal, j, t, ht, hreply⟩ := decision_of_ended hended
  rw [habort]
  exact ⟨htail, hlength, r, hr, hfinal, ⟨t, ht, hreply⟩, by omega, steps_of_ended hended hlength⟩

end Chain
end Cohort

def oneVote : Chain where
  now t := (t / 1000000000).toNat
  contract _ := Contract.run Contract.deployed [(1, .startVoting "t" 2 10), (2, .vote "t" 0 .commit)]
  failure := ⟨.internal, ""⟩

/-- The cohort that has voted does not need the other one. -/
theorem unblocked_one_vote :
    let polls := waitForBlockchainDecision (oneVote.delayed (steady fun _ => ())) "t"
      (Cohort.presumedAbortTime ⟨"t", ⟨[]⟩, ⟨some ⟨10, 0⟩⟩, some (.cohortIndex 0)⟩) 6 2500000000
    (∀ t ∈ polls.1.tail, 10000000000 ≤ t) ∧ polls.1.length ≤ 6 ∧ ∃ r, polls.2 = some r ∧
      (r.1 = .commit ∨ r.1 = .abort) ∧
      (∃ t ∈ polls.1, oneVote.getVotingDecision "t" t = .ok r.1) ∧
      r.2 ≤ max 2500000000 (10000000000 + 2 * ((1000000000 : ℕ) + (100000000 : ℕ))) +
        (1000000 : ℕ) + (100000000 : ℕ) ∧
      ∃ es : List CohortServer.Event, es.length = polls.1.length ∧
        Steps (CohortServer.waitForBlockchainDecision "t" 5) es (.ret (some r.1)) := by
  have habort : Cohort.presumedAbortTime ⟨"t", ⟨[]⟩, ⟨some ⟨10, 0⟩⟩, some (.cohortIndex 0)⟩ =
      fromUnixNanos 10000000000 := by decide
  have hlag (t : ℤ) : t - (1000000000 : ℕ) ≤ oneVote.now t * 1000000000 := by
    simp only [oneVote]
    omega
  have htook (i : ℕ) (t : ℤ) : 100000000 ≤ (steady (fun _ => ()) "t" i t).took ∧
      (steady (fun _ => ()) "t" i t).took ≤ 100000000 := ⟨le_rfl, le_rfl⟩
  have hlate (i : ℕ) (t : ℤ) : (steady (fun _ => ()) "t" i t).overslept ≤ 1000000 := le_rfl
  exact unblocked (n := 3) habort (by decide) (fun _ => ⟨_, rfl⟩)
    (fun _ _ => (by decide : (Contract.run Contract.deployed [(1, .startVoting "t" 2 10),
      (2, .vote "t" 0 .commit)]).transactionConfigs "t" = ⟨2, 10⟩)) (by decide) hlag
    htook hlate (by decide) (by decide) (by decide) le_rfl

end Run
end TwoPhaseCommit.Polling
