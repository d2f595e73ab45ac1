import Mathlib.Logic.Function.Basic
import TwoPhaseCommit.Lib.Digits

/-! The TwoPhaseCommit contract. A uint256 is a number below 2^256 and its unchecked
arithmetic wraps; a function whose `require` fails reverts with `none`. -/
namespace TwoPhaseCommit.Contract

inductive Ballot where
  | unknown
  | commit
  | abort
  deriving DecidableEq, Repr

def Ballot.toUint : Ballot → ℕ
  | .unknown => 0
  | .commit => 1
  | .abort => 2

/-- The checked conversion `Ballot(x)`; the type keeps x in range. -/
def Ballot.ofUint (x : Fin 3) : Ballot :=
  if x = 0 then .unknown else if x = 1 then .commit else .abort

structure TransactionConfig where
  cohorts : ℕ
  voteTimeoutTime : ℕ
  deriving DecidableEq, Repr

structure State where
  transactionStates : String → ℕ
  transactionConfigs : String → TransactionConfig
  mockNow : ℕ

def deployed : State := ⟨fun _ => 0, fun _ => ⟨0, 0⟩, 0⟩

def ballotBase : ℕ := 3

def uint256 (x : ℕ) : ℕ := x % 2 ^ 256

def uint256Sub (x y : ℕ) : ℕ := uint256 (x + 2 ^ 256 - y)

/-- The block's timestamp, unless a test has set a mock time. -/
def getNow (s : State) (now : ℕ) : ℕ := if 0 < s.mockNow then s.mockNow else now

def getCohortBallot (encoded cohortId : ℕ) : Ballot :=
  let encoded := encoded / uint256 (ballotBase ^ cohortId)
  Ballot.ofUint ⟨encoded % ballotBase, Nat.mod_lt _ (by decide)⟩

def getNewCohortBallot (encoded cohortId : ℕ) (ballot : Ballot) : ℕ :=
  let original := getCohortBallot encoded cohortId
  -- Resets the ballot.
  let encoded := uint256Sub encoded
    (uint256 (original.toUint * uint256 (ballotBase ^ cohortId)))
  -- Fills the new ballot.
  uint256 (encoded + uint256 (ballot.toUint * uint256 (ballotBase ^ cohortId)))

def startVoting (now : ℕ) (transactionId : String) (cohorts voteTimeoutTime : ℕ)
    (s : State) : Option State :=
  if 0 < cohorts ∧ cohorts ≤ 120 ∧ getNow s now < voteTimeoutTime then
    some { s with
      transactionConfigs :=
        Function.update s.transactionConfigs transactionId ⟨cohorts, voteTimeoutTime⟩
      transactionStates := Function.update s.transactionStates transactionId 0 }
  else none

def vote (now : ℕ) (transactionId : String) (cohortId : ℕ) (ballot : Ballot)
    (s : State) : Option State :=
  if getNow s now < (s.transactionConfigs transactionId).voteTimeoutTime ∧
      cohortId < (s.transactionConfigs transactionId).cohorts ∧ ballot ≠ .unknown then
    some { s with
      transactionStates := Function.update s.transactionStates transactionId
        (getNewCohortBallot (s.transactionStates transactionId) cohortId ballot) }
  else none

inductive VotingDecisionOption where
  | unknown
  | pending
  | commit
  | abort
  deriving DecidableEq, Repr

structure VotingDecision where
  option : VotingDecisionOption
  reason : String
  deriving DecidableEq, Repr

/-- The counting loop from cohort i on: `none` is its early return on an ABORT ballot. -/
def countVotes (encoded : ℕ) : (remaining i votes : ℕ) → Option ℕ
  | 0, _, votes => some votes
  | remaining + 1, i, votes =>
    let votes := if getCohortBallot encoded i = .commit then votes + 1 else votes
    if getCohortBallot encoded i = .abort then none
    else countVotes encoded remaining (i + 1) votes

def votingDecision (now : ℕ) (transactionId : String) (s : State) : Option VotingDecision :=
  let config := s.transactionConfigs transactionId
  if 0 < config.cohorts then
    match countVotes (s.transactionStates transactionId) config.cohorts 0 0 with
    | none => some ⟨.abort, "Cohort voted to abort."⟩
    | some votes =>
      if config.cohorts = votes then
        some ⟨.commit, "Sufficient vote collected before timeout."⟩
      else if config.voteTimeoutTime ≤ getNow s now then
        some ⟨.abort, "Insufficient vote after timeout."⟩
      else some ⟨.pending, "Insufficient vote before timeout."⟩
  else none

def serializeVotingDecision (d : VotingDecision) : String :=
  (match d.option with
    | .unknown => "?:"
    | .pending => "1:"
    | .commit => "2:"
    | .abort => "3:") ++ d.reason

def getVotingDecision (now : ℕ) (transactionId : String) (s : State) : Option String :=
  (votingDecision now transactionId s).map serializeVotingDecision

inductive Call where
  | startVoting (transactionId : String) (cohorts voteTimeoutTime : ℕ)
  | vote (transactionId : String) (cohortId : ℕ) (ballot : Ballot)
  | getVotingDecision (transactionId : String)
  deriving DecidableEq, Repr

def Call.apply (now : ℕ) : Call → State → Option State
  | .startVoting t cohorts timeout, s => Contract.startVoting now t cohorts timeout s
  | .vote t cohortId ballot, s => Contract.vote now t cohortId ballot s
  | .getVotingDecision t, s => (Contract.getVotingDecision now t s).map fun _ => s

/-- A reverted call leaves the storage as it was. -/
def step (s : State) (tx : ℕ × Call) : State := (tx.2.apply tx.1 s).getD s

def run (s : State) (txs : List (ℕ × Call)) : State := txs.foldl step s

theorem Ballot.toUint_lt (b : Ballot) : b.toUint < 3 := by
  cases b <;> decide

@[simp] theorem Ballot.toUint_ofUint (x : Fin 3) : (Ballot.ofUint x).toUint = x := by
  revert x
  decide

theorem Ballot.ofUint_eq_iff (x : Fin 3) (b : Ballot) :
    Ballot.ofUint x = b ↔ (x : ℕ) = b.toUint := by
  revert x
  cases b <;> decide

@[simp] theorem run_nil (s : State) : run s [] = s := rfl

@[simp] theorem run_append (s : State) (txs txs' : List (ℕ × Call)) :
    run s (txs ++ txs') = run (run s txs) txs' := List.foldl_append

@[simp] theorem run_cons (s : State) (tx : ℕ × Call) (txs : List (ℕ × Call)) :
    run s (tx :: txs) = run (step s tx) txs := rfl

theorem getNow_of_mockNow (s : State) (now : ℕ) (h : s.mockNow = 0) : getNow s now = now := by
  simp [getNow, h]

end TwoPhaseCommit.Contract
