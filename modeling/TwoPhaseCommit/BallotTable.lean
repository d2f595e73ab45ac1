import TwoPhaseCommit.Contract

/-! The abstract contract: a table of ballots for each started transaction, and the
refinement from the packed storage to it. -/
namespace TwoPhaseCommit.BallotTable
open Contract

/-- What a started transaction means: its deadline and one ballot for each cohort. -/
structure Entry where
  deadline : ℕ
  ballots : List Ballot
  deriving DecidableEq

abbrev Table := String → Option Entry

def startVoting (now : ℕ) (t : String) (cohorts deadline : ℕ) (T : Table) : Option Table :=
  if 0 < cohorts ∧ cohorts ≤ 120 ∧ now < deadline then
    some (Function.update T t (some ⟨deadline, List.replicate cohorts .unknown⟩))
  else none

def vote (now : ℕ) (t : String) (cohortId : ℕ) (ballot : Ballot) (T : Table) : Option Table :=
  (T t).bind fun e =>
    if now < e.deadline ∧ cohortId < e.ballots.length ∧ ballot ≠ .unknown then
      some (Function.update T t (some { e with ballots := e.ballots.set cohortId ballot }))
    else none

def decision (now : ℕ) (e : Entry) : VotingDecision :=
  if .abort ∈ e.ballots then ⟨.abort, "Cohort voted to abort."⟩
  else if ∀ b ∈ e.ballots, b = .commit then
    ⟨.commit, "Sufficient vote collected before timeout."⟩
  else if e.deadline ≤ now then ⟨.abort, "Insufficient vote after timeout."⟩
  else ⟨.pending, "Insufficient vote before timeout."⟩

def apply (now : ℕ) : Call → Table → Option Table
  | .startVoting t cohorts deadline, T => startVoting now t cohorts deadline T
  | .vote t cohortId ballot, T => vote now t cohortId ballot T
  | .getVotingDecision t, T => (T t).map fun _ => T

def step (T : Table) (tx : ℕ × Call) : Table := (apply tx.1 tx.2 T).getD T

def run (T : Table) (txs : List (ℕ × Call)) : Table := txs.foldl step T

/-- The packed storage of one transaction encodes a table entry. -/
structure Encodes (config : TransactionConfig) (encoded : ℕ) (e : Entry) : Prop where
  cohorts : config.cohorts = e.ballots.length
  deadline : config.voteTimeoutTime = e.deadline
  nonempty : 0 < e.ballots.length
  small : e.ballots.length ≤ 120
  bounded : encoded < 3 ^ e.ballots.length
  ballots : ∀ i (h : i < e.ballots.length), getCohortBallot encoded i = e.ballots[i]

/-- The contract's storage refines the table. -/
structure Represents (s : State) (T : Table) : Prop where
  mock : s.mockNow = 0
  absent : ∀ t, T t = none → s.transactionConfigs t = ⟨0, 0⟩ ∧ s.transactionStates t = 0
  started : ∀ t e, T t = some e →
    Encodes (s.transactionConfigs t) (s.transactionStates t) e

theorem three_pow_lt {i : ℕ} (h : i ≤ 120) : 3 ^ i < 2 ^ 256 :=
  (Nat.pow_le_pow_right (by decide) h).trans_lt (by norm_num)

theorem uint256_of_lt {x : ℕ} (h : x < 2 ^ 256) : uint256 x = x := Nat.mod_eq_of_lt h

theorem uint256_pow {i : ℕ} (h : i ≤ 120) : uint256 (ballotBase ^ i) = 3 ^ i :=
  uint256_of_lt (three_pow_lt h)

theorem toUint_getCohortBallot (x : ℕ) {i : ℕ} (h : i ≤ 120) :
    (getCohortBallot x i).toUint = Digits.digit 3 x i := by
  simp only [getCohortBallot, Ballot.toUint_ofUint, uint256_pow h]
  rfl

theorem getCohortBallot_eq_iff (x : ℕ) {i : ℕ} (h : i ≤ 120) (b : Ballot) :
    getCohortBallot x i = b ↔ Digits.digit 3 x i = b.toUint := by
  rw [← toUint_getCohortBallot x h, getCohortBallot, Ballot.ofUint_eq_iff,
    Ballot.toUint_ofUint]

theorem uint256Sub_of_le {x y : ℕ} (hx : x < 2 ^ 256) (hy : y ≤ x) : uint256Sub x y = x - y := by
  unfold uint256Sub uint256
  have h : x + 2 ^ 256 - y = (x - y) + 2 ^ 256 := by omega
  rw [h, Nat.add_mod_right, Nat.mod_eq_of_lt (by omega)]

/-- None of the operations of `getNewCohortBallot` leaves the range of a uint256. -/
structure InRange (encoded i : ℕ) (b : Ballot) : Prop where
  power : ballotBase ^ i < 2 ^ 256
  resetProduct : (getCohortBallot encoded i).toUint * ballotBase ^ i < 2 ^ 256
  subtraction : (getCohortBallot encoded i).toUint * ballotBase ^ i ≤ encoded
  fillProduct : b.toUint * ballotBase ^ i < 2 ^ 256
  addition : encoded - (getCohortBallot encoded i).toUint * ballotBase ^ i +
    b.toUint * ballotBase ^ i < 2 ^ 256

theorem inRange_of_lt {x i n : ℕ} (hx : x < 3 ^ n) (hn : n ≤ 120) (hi : i < n) (b : Ballot) :
    InRange x i b := by
  have hold : Digits.digit 3 x i * 3 ^ i ≤ x := Digits.digit_mul_pow_le
  have hnew : Digits.setDigit 3 x i b.toUint < 3 ^ n := Digits.setDigit_lt hx hi b.toUint_lt
  have hpow := three_pow_lt hn
  have hread := toUint_getCohortBallot x (by omega : i ≤ 120)
  simp only [Digits.setDigit] at hnew
  refine ⟨three_pow_lt (by omega), ?_, ?_, ?_, ?_⟩
  · rw [hread, ballotBase]
    omega
  · rw [hread, ballotBase]
    exact hold
  · rw [ballotBase]
    omega
  · rw [hread, ballotBase]
    omega

theorem InRange.getNewCohortBallot_eq {x i : ℕ} {b : Ballot} (h : InRange x i b)
    (hx : x < 2 ^ 256) : getNewCohortBallot x i b =
      x - (getCohortBallot x i).toUint * ballotBase ^ i + b.toUint * ballotBase ^ i := by
  simp only [getNewCohortBallot]
  rw [uint256_of_lt h.power, uint256_of_lt h.resetProduct, uint256_of_lt h.fillProduct,
    uint256Sub_of_le hx h.subtraction]
  exact uint256_of_lt h.addition

theorem getNewCohortBallot_eq {x i n : ℕ} (hx : x < 3 ^ n) (hn : n ≤ 120) (hi : i < n)
    (b : Ballot) : getNewCohortBallot x i b = Digits.setDigit 3 x i b.toUint := by
  rw [(inRange_of_lt hx hn hi b).getNewCohortBallot_eq (hx.trans (three_pow_lt hn)),
    toUint_getCohortBallot x (by omega)]
  rfl

theorem getNewCohortBallot_lt {x i n : ℕ} (hx : x < 3 ^ n) (hn : n ≤ 120) (hi : i < n)
    (b : Ballot) : getNewCohortBallot x i b < 3 ^ n := by
  rw [getNewCohortBallot_eq hx hn hi]
  exact Digits.setDigit_lt hx hi b.toUint_lt

theorem getCohortBallot_new {x i j n : ℕ} (hx : x < 3 ^ n) (hn : n ≤ 120) (hi : i < n)
    (hj : j < n) (b : Ballot) :
    getCohortBallot (getNewCohortBallot x i b) j = if j = i then b else getCohortBallot x j := by
  rw [getCohortBallot_eq_iff _ (by omega), getNewCohortBallot_eq hx hn hi,
    Digits.digit_setDigit hx hi b.toUint_lt hj]
  split_ifs
  · rfl
  · exact (toUint_getCohortBallot x (by omega)).symm

/-- A vote of cohort i on the encoded ballots, and what is then read for cohort j. -/
structure ExactBallots (encoded i j : ℕ) (b : Ballot) : Prop where
  read : getCohortBallot (getNewCohortBallot encoded i b) j =
    if j = i then b else getCohortBallot encoded j
  inRange : InRange encoded i b
  unwrapped : getNewCohortBallot encoded i b =
    encoded - (getCohortBallot encoded i).toUint * ballotBase ^ i + b.toUint * ballotBase ^ i
  -- What is converted to a Ballot is one, whatever it is read from.
  converted : ∀ x, x / uint256 (ballotBase ^ j) % ballotBase < 3 ∧
    (getCohortBallot x j).toUint = x / ballotBase ^ j % ballotBase
  bounded : ∀ n, i < n → n ≤ 120 → encoded < 3 ^ n → getNewCohortBallot encoded i b < 3 ^ n

/-- Replacing a ballot of at most 120 changes that ballot and no other, without overflow. -/
theorem ballots_exact {encoded i j : ℕ} (h : encoded < 3 ^ 120) (hi : i < 120) (hj : j < 120)
    (b : Ballot) : ExactBallots encoded i j b where
  read := getCohortBallot_new h le_rfl hi hj b
  inRange := inRange_of_lt h le_rfl hi b
  unwrapped := (inRange_of_lt h le_rfl hi b).getNewCohortBallot_eq (h.trans (three_pow_lt le_rfl))
  converted x := ⟨Nat.mod_lt _ (by decide), toUint_getCohortBallot x hj.le⟩
  bounded n hn hsmall hx := getNewCohortBallot_lt hx hsmall hn b

/-- The last of 120 cohorts changes its vote, and every digit is in use. -/
theorem ballots_exact_last :
    ExactBallots (3 ^ 120 - 1) 119 0 .commit ∧ getCohortBallot (3 ^ 120 - 1) 119 = .abort :=
  ⟨ballots_exact (by decide) (by decide) (by decide) .commit, by decide⟩

theorem getCohortBallot_zero {i : ℕ} (h : i ≤ 120) : getCohortBallot 0 i = .unknown := by
  rw [getCohortBallot_eq_iff _ h, Digits.digit_zero]
  rfl

theorem Encodes.fresh {cohorts deadline : ℕ} (h : 0 < cohorts) (hs : cohorts ≤ 120) :
    Encodes ⟨cohorts, deadline⟩ 0 ⟨deadline, List.replicate cohorts .unknown⟩ where
  cohorts := by simp
  deadline := rfl
  nonempty := by simpa using h
  small := by simpa using hs
  bounded := by positivity
  ballots i hi := by
    simp only [List.length_replicate] at hi
    rw [getCohortBallot_zero (by omega), List.getElem_replicate]

theorem Encodes.set {config : TransactionConfig} {encoded i : ℕ} {e : Entry}
    (h : Encodes config encoded e) (hi : i < e.ballots.length) (b : Ballot) :
    Encodes config (getNewCohortBallot encoded i b) { e with ballots := e.ballots.set i b } where
  cohorts := by simpa using h.cohorts
  deadline := h.deadline
  nonempty := by simpa using h.nonempty
  small := by simpa using h.small
  bounded := by simpa using getNewCohortBallot_lt h.bounded h.small hi b
  ballots j hj := by
    simp only [List.length_set] at hj
    rw [getCohortBallot_new h.bounded h.small hi hj, List.getElem_set, h.ballots j hj]
    simp only [eq_comm]

theorem represents_deployed : Represents deployed fun _ => none where
  mock := rfl
  absent _ _ := ⟨rfl, rfl⟩
  started t e h := by simp at h

theorem Represents.set {s s' : State} {T : Table} {t : String} {config : TransactionConfig}
    {encoded : ℕ} {e : Entry} (h : Represents s T) (hm : s'.mockNow = 0)
    (hc : s'.transactionConfigs = Function.update s.transactionConfigs t config)
    (hs : s'.transactionStates = Function.update s.transactionStates t encoded)
    (he : Encodes config encoded e) : Represents s' (Function.update T t (some e)) where
  mock := hm
  absent u hu := by
    by_cases hut : u = t
    · simp [hut] at hu
    · rw [Function.update_of_ne hut] at hu
      simpa [hc, hs, hut] using h.absent u hu
  started u e' hu := by
    by_cases hut : u = t
    · subst hut
      simp only [Function.update_self, Option.some.injEq] at hu
      simpa [hc, hs, ← hu] using he
    · rw [Function.update_of_ne hut] at hu
      simpa [hc, hs, hut] using h.started u e' hu

theorem Represents.startVoting {s : State} {T : Table} (h : Represents s T) (now : ℕ)
    (t : String) (cohorts deadline : ℕ) :
    Option.Rel Represents (Contract.startVoting now t cohorts deadline s)
      (BallotTable.startVoting now t cohorts deadline T) := by
  rw [Contract.startVoting, BallotTable.startVoting, getNow_of_mockNow s now h.mock]
  split_ifs with hreq
  · exact .some (h.set h.mock rfl rfl (Encodes.fresh hreq.1 hreq.2.1))
  · exact .none

theorem Represents.vote {s : State} {T : Table} (h : Represents s T) (now : ℕ)
    (t : String) (cohortId : ℕ) (ballot : Ballot) :
    Option.Rel Represents (Contract.vote now t cohortId ballot s)
      (BallotTable.vote now t cohortId ballot T) := by
  rw [Contract.vote, BallotTable.vote, getNow_of_mockNow s now h.mock]
  cases hT : T t with
  | none =>
    -- Unset storage has deadline zero, so the first require rejects the ballot.
    rw [(h.absent t hT).1, if_neg (by simp)]
    exact .none
  | some e =>
    have he := h.started t e hT
    simp only [Option.bind_some, he.cohorts, he.deadline]
    split_ifs with hreq
    · exact .some (h.set h.mock (Function.update_eq_self t s.transactionConfigs).symm rfl
        (he.set hreq.2.1 ballot))
    · exact .none

theorem countVotes_eq (encoded remaining i votes : ℕ) :
    countVotes encoded remaining i votes =
      let l := (List.range' i remaining).map (getCohortBallot encoded)
      if .abort ∈ l then none else some (votes + l.count .commit) := by
  induction remaining generalizing i votes with
  | zero => simp [countVotes]
  | succ k ih =>
    simp only [countVotes, ih, List.range'_succ, List.map_cons]
    by_cases hm : .abort ∈ (List.range' (i + 1) k).map (getCohortBallot encoded) <;>
      cases getCohortBallot encoded i <;> simp [hm, Nat.add_assoc, Nat.add_comm 1]

def ballotOf (s : State) (t : String) (i : ℕ) : Ballot :=
  getCohortBallot (s.transactionStates t) i

def entryOf (s : State) (t : String) : Entry :=
  ⟨(s.transactionConfigs t).voteTimeoutTime,
    (List.range (s.transactionConfigs t).cohorts).map (ballotOf s t)⟩

theorem votingDecision_eq {s : State} (hm : s.mockNow = 0) (now : ℕ) (t : String) :
    votingDecision now t s =
      if 0 < (s.transactionConfigs t).cohorts then some (decision now (entryOf s t))
      else none := by
  have hlen : (entryOf s t).ballots.length = (s.transactionConfigs t).cohorts := by
    simp [entryOf]
  have hl : (List.range' 0 (s.transactionConfigs t).cohorts).map
      (getCohortBallot (s.transactionStates t)) = (entryOf s t).ballots := by
    rw [← List.range_eq_range']
    rfl
  have hall : (entryOf s t).ballots.length = (entryOf s t).ballots.count .commit ↔
      ∀ b ∈ (entryOf s t).ballots, b = .commit := by
    rw [eq_comm, List.count_eq_length]
    simp only [eq_comm]
  have hd : (s.transactionConfigs t).voteTimeoutTime = (entryOf s t).deadline := rfl
  rw [votingDecision, getNow_of_mockNow s now hm, countVotes_eq, hl]
  simp only [Nat.zero_add, ← hlen, hd, decision]
  by_cases ha : .abort ∈ (entryOf s t).ballots
  · simp [ha]
  · simp only [ha, if_false, hall]
    split_ifs <;> rfl

theorem Encodes.entryOf_eq {s : State} {t : String} {e : Entry}
    (h : Encodes (s.transactionConfigs t) (s.transactionStates t) e) : entryOf s t = e := by
  have hb : (entryOf s t).ballots = e.ballots := by
    apply List.ext_getElem
    · simp [entryOf, h.cohorts]
    · intro i hi hi'
      simp [entryOf, ballotOf, h.ballots i hi']
  obtain ⟨deadline, ballots⟩ := e
  rw [Entry.mk.injEq]
  exact ⟨h.deadline, hb⟩

theorem Represents.votingDecision {s : State} {T : Table} (h : Represents s T) (now : ℕ)
    (t : String) : Contract.votingDecision now t s = (T t).map (decision now) := by
  rw [votingDecision_eq h.mock]
  cases hT : T t with
  | none => simp [h.absent t hT]
  | some e =>
    have he := h.started t e hT
    rw [if_pos (by rw [he.cohorts]; exact he.nonempty), he.entryOf_eq]
    rfl

theorem Represents.apply {s : State} {T : Table} (h : Represents s T) (now : ℕ) (c : Call) :
    Option.Rel Represents (c.apply now s) (BallotTable.apply now c T) := by
  cases c with
  | startVoting t cohorts deadline => exact h.startVoting now t cohorts deadline
  | vote t cohortId ballot => exact h.vote now t cohortId ballot
  | getVotingDecision t =>
    simp only [Call.apply, BallotTable.apply, Contract.getVotingDecision, h.votingDecision]
    cases T t with
    | none => exact .none
    | some e => exact .some h

theorem Represents.step {s : State} {T : Table} (h : Represents s T) (tx : ℕ × Call) :
    Represents (Contract.step s tx) (BallotTable.step T tx) := by
  have ha := h.apply tx.1 tx.2
  rw [Contract.step, BallotTable.step]
  generalize tx.2.apply tx.1 s = o at ha ⊢
  generalize BallotTable.apply tx.1 tx.2 T = o' at ha ⊢
  cases ha with
  | some hr => exact hr
  | none => exact h

theorem Represents.run {s : State} {T : Table} (h : Represents s T) (txs : List (ℕ × Call)) :
    Represents (Contract.run s txs) (BallotTable.run T txs) := by
  induction txs generalizing s T with
  | nil => exact h
  | cons tx txs ih => exact ih (h.step tx)

theorem decision_commit_iff (now : ℕ) (e : Entry) :
    (decision now e).option = .commit ↔ ∀ b ∈ e.ballots, b = .commit := by
  unfold decision
  by_cases ha : .abort ∈ e.ballots
  · have hne : ¬∀ b ∈ e.ballots, b = .commit := fun h => by cases h _ ha
    simp [ha, hne]
  · rw [if_neg ha]
    by_cases hc : ∀ b ∈ e.ballots, b = .commit
    · rw [if_pos hc]
      exact iff_of_true rfl hc
    · rw [if_neg hc]
      refine iff_of_false ?_ hc
      split_ifs <;> simp

theorem decision_abort_iff (now : ℕ) (e : Entry) :
    (decision now e).option = .abort ↔
      .abort ∈ e.ballots ∨ (e.deadline ≤ now ∧ ∃ b ∈ e.ballots, b ≠ .commit) := by
  unfold decision
  by_cases ha : .abort ∈ e.ballots
  · simp [ha]
  · rw [if_neg ha]
    by_cases hc : ∀ b ∈ e.ballots, b = .commit
    · rw [if_pos hc]
      refine iff_of_false (by simp) ?_
      rintro (h | ⟨_, b, hb, hne⟩)
      · exact ha h
      · exact hne (hc b hb)
    · have hex : ∃ b ∈ e.ballots, b ≠ .commit := by simpa using hc
      rw [if_neg hc]
      split_ifs with hd <;> simp [ha, hd, hex]

def WellFormed (s : State) : Prop := ∃ T, Represents s T

theorem wellFormed_deployed : WellFormed deployed := ⟨_, represents_deployed⟩

theorem WellFormed.step {s : State} (h : WellFormed s) (tx : ℕ × Call) :
    WellFormed (Contract.step s tx) :=
  let ⟨_, hr⟩ := h
  ⟨_, hr.step tx⟩

theorem WellFormed.run {s : State} (h : WellFormed s) (txs : List (ℕ × Call)) :
    WellFormed (Contract.run s txs) :=
  let ⟨_, hr⟩ := h
  ⟨_, hr.run txs⟩

theorem WellFormed.mock {s : State} (h : WellFormed s) : s.mockNow = 0 :=
  let ⟨_, hr⟩ := h
  hr.mock

theorem WellFormed.small {s : State} (h : WellFormed s) (t : String) :
    (s.transactionConfigs t).cohorts ≤ 120 := by
  obtain ⟨T, hr⟩ := h
  cases hT : T t with
  | none => simp [hr.absent t hT]
  | some e =>
    rw [(hr.started t e hT).cohorts]
    exact (hr.started t e hT).small

theorem WellFormed.bounded {s : State} (h : WellFormed s) (t : String) :
    s.transactionStates t < 3 ^ (s.transactionConfigs t).cohorts := by
  obtain ⟨T, hr⟩ := h
  cases hT : T t with
  | none => simp [hr.absent t hT]
  | some e =>
    rw [(hr.started t e hT).cohorts]
    exact (hr.started t e hT).bounded

/-- What one transaction can do to the storage of t: nothing, replace one cohort's ballot,
or start t with every ballot unset. -/
theorem step_cases {s : State} (hs : WellFormed s) (tx : ℕ × Call) (t : String) :
    ((Contract.step s tx).transactionConfigs t = s.transactionConfigs t ∧
      ∀ j, ballotOf (Contract.step s tx) t j = ballotOf s t j) ∨
    (∃ i b, tx.2 = .vote t i b ∧ (tx.2.apply tx.1 s).isSome ∧
      tx.1 < (s.transactionConfigs t).voteTimeoutTime ∧
      i < (s.transactionConfigs t).cohorts ∧ b ≠ .unknown ∧
      (Contract.step s tx).transactionConfigs t = s.transactionConfigs t ∧
      ∀ j < (s.transactionConfigs t).cohorts,
        ballotOf (Contract.step s tx) t j = if j = i then b else ballotOf s t j) ∨
    ∃ n d, tx.2 = .startVoting t n d ∧ (tx.2.apply tx.1 s).isSome ∧
      0 < n ∧ n ≤ 120 ∧ tx.1 < d ∧
      (Contract.step s tx).transactionConfigs t = ⟨n, d⟩ ∧
      ∀ j < n, ballotOf (Contract.step s tx) t j = .unknown := by
  obtain ⟨now, c⟩ := tx
  cases c with
  | startVoting u n d =>
    by_cases hreq : 0 < n ∧ n ≤ 120 ∧ now < d
    · simp only [Contract.step, Call.apply, Contract.startVoting, getNow_of_mockNow s now hs.mock,
        if_pos hreq, Option.getD_some]
      by_cases hut : t = u
      · subst hut
        refine .inr (.inr ⟨n, d, rfl, rfl, hreq.1, hreq.2.1, hreq.2.2, by simp, ?_⟩)
        intro j hj
        simp [ballotOf, getCohortBallot_zero (by omega : j ≤ 120)]
      · exact .inl ⟨by simp [hut], by simp [ballotOf, hut]⟩
    · simp [Contract.step, Call.apply, Contract.startVoting, getNow_of_mockNow s now hs.mock, hreq]
  | vote u i b =>
    by_cases hreq : now < (s.transactionConfigs u).voteTimeoutTime ∧
        i < (s.transactionConfigs u).cohorts ∧ b ≠ .unknown
    · simp only [Contract.step, Call.apply, Contract.vote, getNow_of_mockNow s now hs.mock,
        if_pos hreq, Option.getD_some]
      by_cases hut : t = u
      · subst hut
        refine .inr (.inl ⟨i, b, rfl, rfl, hreq.1, hreq.2.1, hreq.2.2, trivial, ?_⟩)
        intro j hj
        simpa [ballotOf] using
          getCohortBallot_new (hs.bounded t) (hs.small t) hreq.2.1 hj b
      · exact .inl ⟨trivial, by simp [ballotOf, hut]⟩
    · simp [Contract.step, Call.apply, Contract.vote, getNow_of_mockNow s now hs.mock, hreq]
  | getVotingDecision u =>
    refine .inl ?_
    cases hd : Contract.getVotingDecision now u s <;> simp [Contract.step, Call.apply, hd]

end TwoPhaseCommit.BallotTable
