import TwoPhaseCommit.BallotTable
import TwoPhaseCommit.Messages

/-! The chain from the C++ TwoPhaseCommit client through the adapter server and the contract
client to the contract. `none` is a call that gets no reply: the contract client reports a
revert to its log only. -/
namespace TwoPhaseCommit.AdapterChain
open Contract BallotTable

namespace Blockchain

inductive Ballot where
  | unspecified
  | commit
  | abort
  deriving DecidableEq, Repr

inductive VotingDecision where
  | unknown
  | pending
  | commit
  | abort
  deriving DecidableEq, Repr

structure GetVotingDecisionResponse where
  decision : VotingDecision
  reason : String
  deriving DecidableEq, Repr

end Blockchain

/-- `result.charAt(0)` picks the decision, `result.substring(2)` is the reason. -/
def decodeDecision (result : String) : Blockchain.GetVotingDecisionResponse :=
  let decision : Blockchain.VotingDecision :=
    match result.toList.head? with
    | some '1' => .pending
    | some '2' => .commit
    | some '3' => .abort
    | _ => .unknown
  ⟨decision, String.ofList (result.toList.drop 2)⟩

/-- `getVotingDecision` of the adapter server over the contract client. -/
def adapterGetVotingDecision (now : ℕ) (t : String) (s : State) :
    Option Blockchain.GetVotingDecisionResponse :=
  (Contract.getVotingDecision now t s).map decodeDecision

def getVotingDecision (now : ℕ) (t : String) (s : State) : Option Blockchain.VotingDecision :=
  (adapterGetVotingDecision now t s).map (·.decision)

/-- The enum the adapter server converts a ballot's name to. -/
def ballotInt : Blockchain.Ballot → Contract.Ballot
  | .commit => .commit
  | .abort => .abort
  | .unspecified => .unknown

def vote (now : ℕ) (t : String) (participantId : ℕ) (ballot : Blockchain.Ballot) (s : State) :
    Option State :=
  Contract.vote now t participantId (ballotInt ballot) s

/-- `TwoPhaseCommit::StartVoting` down to the contract; a negative time cannot be encoded as
a uint256. -/
def startVoting (now : ℕ) (t : String) (timeoutTime : ℤ) (nParticipants : UInt32) (s : State) :
    Option State :=
  if 0 ≤ timeoutTime then Contract.startVoting now t nParticipants.toNat timeoutTime.toNat s
  else none

def decodeOption : VotingDecisionOption → Blockchain.VotingDecision
  | .unknown => .unknown
  | .pending => .pending
  | .commit => .commit
  | .abort => .abort

theorem decode_serialize (d : Contract.VotingDecision) :
    decodeDecision (serializeVotingDecision d) = ⟨decodeOption d.option, d.reason⟩ := by
  obtain ⟨option, reason⟩ := d
  cases option <;>
    simp [decodeDecision, serializeVotingDecision, decodeOption, String.toList_append]

theorem adapterGetVotingDecision_eq (now : ℕ) (t : String) (s : State) :
    adapterGetVotingDecision now t s =
      (votingDecision now t s).map fun d => ⟨decodeOption d.option, d.reason⟩ := by
  simp only [adapterGetVotingDecision, Contract.getVotingDecision, Option.map_map]
  congr 1
  funext d
  exact decode_serialize d

/-- What a caller of a started transaction is told, as the table has it. -/
def callerDecision (now : ℕ) (e : Entry) : Blockchain.VotingDecision :=
  if .abort ∈ e.ballots then .abort
  else if ∀ b ∈ e.ballots, b = .commit then .commit
  else if e.deadline ≤ now then .abort
  else .pending

theorem decodeOption_decision (now : ℕ) (e : Entry) :
    decodeOption (decision now e).option = callerDecision now e := by
  unfold decision callerDecision
  split_ifs <;> rfl

theorem callerDecision_ne_unknown (now : ℕ) (e : Entry) : callerDecision now e ≠ .unknown := by
  unfold callerDecision
  split_ifs <;> simp

theorem callerDecision_ne_pending {now : ℕ} {e : Entry} (h : e.deadline ≤ now) :
    callerDecision now e ≠ .pending := by
  unfold callerDecision
  split_ifs <;> simp

/-- What the C++ caller and the adapter's reply say about a started transaction. -/
structure ToldDecision (s : State) (t : String) (e : Entry) (now : ℕ) : Prop where
  caller : getVotingDecision now t s = some (callerDecision now e)
  known : callerDecision now e ≠ .unknown
  closed : e.deadline ≤ now → callerDecision now e ≠ .pending
  reason : ∃ d, votingDecision now t s = some d ∧
    adapterGetVotingDecision now t s = some ⟨callerDecision now e, d.reason⟩

/-- The packed contract and everything above it refine the plain ballot table. -/
theorem packed_refines_table (txs : List (ℕ × Call)) :
    let s := Contract.run deployed txs
    let T := BallotTable.run (fun _ => none) txs
    Represents s T ∧
      (∀ now c, Option.Rel Represents (c.apply now s) (BallotTable.apply now c T)) ∧
      (∀ t, s.transactionStates t < 3 ^ (s.transactionConfigs t).cohorts) ∧
      ∀ t e, T t = some e → ∀ now, ToldDecision s t e now := by
  intro s T
  have hr : Represents s T := represents_deployed.run txs
  have hwf : WellFormed s := ⟨T, hr⟩
  refine ⟨hr, hr.apply, hwf.bounded, ?_⟩
  intro t e he now
  have hd : votingDecision now t s = some (decision now e) := by
    rw [hr.votingDecision, he, Option.map_some]
  have ha : adapterGetVotingDecision now t s =
      some ⟨callerDecision now e, (decision now e).reason⟩ := by
    rw [adapterGetVotingDecision_eq, hd, Option.map_some, decodeOption_decision]
  exact {
    caller := by rw [getVotingDecision, ha, Option.map_some]
    known := callerDecision_ne_unknown now e
    closed := callerDecision_ne_pending
    reason := ⟨decision now e, hd, ha⟩ }

end TwoPhaseCommit.AdapterChain
