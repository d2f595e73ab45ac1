import TwoPhaseCommit.CoordinatorRuns

/-! How the outcome of a contract call travels through the callbacks of the contract client and
the adapter server to the C++ callers. -/
namespace TwoPhaseCommit.AdapterChain
open Coordinator (CommitContext Submission commitAtomicTransaction)

/-- web3 rejects the promise of a call that reverts, or gives its callback an error. -/
def settle {α : Type} (outcome : Option α) : Except Unit α :=
  match outcome with
  | some value => .ok value
  | none => .error ()

/-- A negative number has no encoding as an unsigned one. -/
def encodeUint (x : ℤ) : Option ℕ := if 0 ≤ x then some x.toNat else none

namespace ContractClient
variable {ρ : Type}

/-- What a callback does is the list of the replies that it sends. -/
def startVoting (now : ℕ) (s : Contract.State) (transactionId : String) (cohorts : ℕ)
    (voteTimeoutTime : ℤ) (onSuccessCallback : Unit → List ρ) : List ρ :=
  let outcome := (encodeUint voteTimeoutTime).bind fun timeout =>
    Contract.startVoting now transactionId cohorts timeout s
  match settle outcome with
  | .ok _ => onSuccessCallback ()
  -- The error goes to the console only.
  | .error _ => []

def vote (now : ℕ) (s : Contract.State) (transactionId : String) (cohortId : ℤ)
    (ballot : Contract.Ballot) (onSuccessCallback : Unit → List ρ) : List ρ :=
  let outcome := (encodeUint cohortId).bind fun id => Contract.vote now transactionId id ballot s
  match settle outcome with
  | .ok _ => onSuccessCallback ()
  | .error _ => []

def getVotingDecision (now : ℕ) (s : Contract.State) (transactionId : String)
    (onSuccessCallback : String → List ρ) : List ρ :=
  match settle (Contract.getVotingDecision now transactionId s) with
  | .ok result => onSuccessCallback result
  | .error _ => []

end ContractClient

namespace AdapterServer

abbrev Replies (α : Type) := List (Except Status α)

def startVoting (now : ℕ) (s : Contract.State) (transactionId : String) (timeoutSeconds : ℤ)
    (cohorts : UInt32) : Replies Unit :=
  ContractClient.startVoting now s transactionId cohorts.toNat timeoutSeconds fun _ => [.ok ()]

def vote (now : ℕ) (s : Contract.State) (transactionId : String) (cohortId : ℤ)
    (ballot : Blockchain.Ballot) : Replies Unit :=
  ContractClient.vote now s transactionId cohortId (ballotInt ballot) fun _ => [.ok ()]

def getVotingDecision (now : ℕ) (s : Contract.State) (transactionId : String) :
    Replies Blockchain.GetVotingDecisionResponse :=
  ContractClient.getVotingDecision now s transactionId fun result => [.ok (decodeDecision result)]

end AdapterServer

def statusOf {α : Type} (reply : Except Status α) : Status :=
  match reply with
  | .ok _ => .okStatus
  | .error status => status

/-- `FromGrpcStatus`; an OK status has no message. -/
def fromGrpcStatus (status : Status) (text : String) : Status :=
  if status.isOk then .okStatus else ⟨status.code, text ++ status.message⟩

/-- The block time and the contract that the calls of the C++ class TwoPhaseCommit meet. A call
returns once there is a reply; none is a call that does not return. -/
structure Caller where
  now : ℕ
  contract : Contract.State

namespace Caller

def startVoting (b : Caller) (transactionId : String) (timeoutTime : ℤ)
    (nParticipants : UInt32) : Option Status :=
  (AdapterServer.startVoting b.now b.contract transactionId timeoutTime nParticipants).head?.map
    fun reply => fromGrpcStatus (statusOf reply) "Failed to start voting"

def vote (b : Caller) (transactionId : String) (participantId : ℤ)
    (ballot : Blockchain.Ballot) : Option Status :=
  (AdapterServer.vote b.now b.contract transactionId participantId ballot).head?.map
    fun reply => fromGrpcStatus (statusOf reply) "Failed to vote"

def getVotingDecision (b : Caller) (transactionId : String) :
    Option (Except Status Blockchain.VotingDecision) :=
  (AdapterServer.getVotingDecision b.now b.contract transactionId).head?.map fun reply =>
    (reply.map (·.decision)).mapError fun status => fromGrpcStatus status "Failed to vote"

end Caller

inductive Request where
  | startVoting (transactionId : String) (timeoutTime : ℤ) (cohorts : UInt32)
  | vote (transactionId : String) (cohortId : ℤ) (ballot : Blockchain.Ballot)
  | getVotingDecision (transactionId : String)

def Request.replies (b : Caller) : Request → List Status
  | .startVoting t timeout cohorts =>
    (AdapterServer.startVoting b.now b.contract t timeout cohorts).map statusOf
  | .vote t cohortId ballot => (AdapterServer.vote b.now b.contract t cohortId ballot).map statusOf
  | .getVotingDecision t => (AdapterServer.getVotingDecision b.now b.contract t).map statusOf

def Request.Succeeds (b : Caller) : Request → Prop
  | .startVoting t timeout cohorts => ((encodeUint timeout).bind fun timeout =>
      Contract.startVoting b.now t cohorts.toNat timeout b.contract).isSome
  | .vote t cohortId ballot => ((encodeUint cohortId).bind fun id =>
      Contract.vote b.now t id (ballotInt ballot) b.contract).isSome
  | .getVotingDecision t => (Contract.getVotingDecision b.now t b.contract).isSome

/-- What the request has to meet for the contract to accept it. -/
def Request.Required (b : Caller) : Request → Prop
  | .startVoting _ timeout cohorts =>
    0 < cohorts.toNat ∧ cohorts.toNat ≤ 120 ∧ (Contract.getNow b.contract b.now : ℤ) < timeout
  | .vote t cohortId ballot =>
    Contract.getNow b.contract b.now < (b.contract.transactionConfigs t).voteTimeoutTime ∧
      0 ≤ cohortId ∧ cohortId < (b.contract.transactionConfigs t).cohorts ∧ ballot ≠ .unspecified
  | .getVotingDecision t => 0 < (b.contract.transactionConfigs t).cohorts

/-- `value_or(VOTING_DECISION_PENDING)` in WaitForBlockchainDecision. -/
def decisionSeen (reply : Except Status Blockchain.VotingDecision) : Blockchain.VotingDecision :=
  match reply with
  | .ok decision => decision
  | .error _ => .pending

/-- How the caller goes on after its call: a submission returns an error, a vote returns so that
the locks can be released, and an undecided transaction is waited for. -/
def Request.Handled (b : Caller) : Request → Prop
  | .startVoting t timeout cohorts => ∃ status, b.startVoting t timeout cohorts = some status ∧
      ∀ server context request s config subs, context.blockchainStatus = status →
        Submission server context request s t config subs → 1 < subs.length →
        (commitAtomicTransaction server context request s).status.isOk = false
  | .vote t cohortId ballot => (b.vote t cohortId ballot).isSome
  | .getVotingDecision t => (b.getVotingDecision t).map decisionSeen = some .pending

/-- The outcome of the request reaches its caller, also when it is a failure. -/
structure Request.Delivered (b : Caller) (r : Request) : Prop where
  one : (r.replies b).length = 1
  ok : (∃ status ∈ r.replies b, status.isOk) ↔ r.Succeeds b
  error : (∃ status ∈ r.replies b, status.isOk = false) ↔ ¬r.Succeeds b
  handled : ¬r.Succeeds b → r.Handled b

theorem Request.replies_of_succeeds {b : Caller} {r : Request} (h : r.Succeeds b) :
    r.replies b = [.okStatus] := by
  cases r with
  | startVoting t timeout cohorts =>
    obtain ⟨s', hs⟩ := Option.isSome_iff_exists.mp h
    simp only [replies, AdapterServer.startVoting, ContractClient.startVoting, hs]
    rfl
  | vote t cohortId ballot =>
    obtain ⟨s', hs⟩ := Option.isSome_iff_exists.mp h
    simp only [replies, AdapterServer.vote, ContractClient.vote, hs]
    rfl
  | getVotingDecision t =>
    obtain ⟨result, hs⟩ := Option.isSome_iff_exists.mp h
    simp only [replies, AdapterServer.getVotingDecision, ContractClient.getVotingDecision, hs]
    rfl

theorem Request.replies_of_reverts {b : Caller} {r : Request} (h : ¬r.Succeeds b) :
    r.replies b = [] := by
  cases r with
  | startVoting t timeout cohorts =>
    have hs := Option.not_isSome_iff_eq_none.mp h
    simp only [replies, AdapterServer.startVoting, ContractClient.startVoting, hs]
    rfl
  | vote t cohortId ballot =>
    have hs := Option.not_isSome_iff_eq_none.mp h
    simp only [replies, AdapterServer.vote, ContractClient.vote, hs]
    rfl
  | getVotingDecision t =>
    have hs := Option.not_isSome_iff_eq_none.mp h
    simp only [replies, AdapterServer.getVotingDecision, ContractClient.getVotingDecision, hs]
    rfl

theorem encodeUint_of_nonneg {x : ℤ} (h : 0 ≤ x) : encodeUint x = some x.toNat := if_pos h

theorem encodeUint_of_neg {x : ℤ} (h : x < 0) : encodeUint x = none := if_neg (not_le.mpr h)

theorem ballotInt_eq_unknown_iff (ballot : Blockchain.Ballot) :
    ballotInt ballot = .unknown ↔ ballot = .unspecified := by
  cases ballot <;> simp [ballotInt]

theorem Request.succeeds_iff (b : Caller) (r : Request) : r.Succeeds b ↔ r.Required b := by
  cases r with
  | startVoting t timeout cohorts =>
    simp only [Succeeds, Required]
    by_cases hneg : timeout < 0
    · rw [encodeUint_of_neg hneg]
      refine iff_of_false (by simp) ?_
      rintro ⟨_, _, hnow⟩
      omega
    · rw [encodeUint_of_nonneg (not_lt.mp hneg), Option.bind_some, Contract.startVoting]
      split_ifs with hall
      · exact iff_of_true rfl ⟨hall.1, hall.2.1, by omega⟩
      · refine iff_of_false (by simp) ?_
        rintro ⟨hpos, hfew, hnow⟩
        exact hall ⟨hpos, hfew, by omega⟩
  | vote t cohortId ballot =>
    simp only [Succeeds, Required]
    by_cases hneg : cohortId < 0
    · rw [encodeUint_of_neg hneg]
      refine iff_of_false (by simp) ?_
      rintro ⟨_, hpos, _⟩
      omega
    · rw [encodeUint_of_nonneg (not_lt.mp hneg), Option.bind_some, Contract.vote]
      split_ifs with hall
      · refine iff_of_true rfl ⟨hall.1, by omega, by omega, ?_⟩
        exact fun h => hall.2.2 ((ballotInt_eq_unknown_iff ballot).mpr h)
      · refine iff_of_false (by simp) ?_
        rintro ⟨hnow, _, hlt, hballot⟩
        refine hall ⟨hnow, by omega, ?_⟩
        exact fun h => hballot ((ballotInt_eq_unknown_iff ballot).mp h)
  | getVotingDecision t =>
    simp only [Succeeds, Required]
    simp only [Contract.getVotingDecision, Option.isSome_map, Contract.votingDecision]
    by_cases hpos : 0 < (b.contract.transactionConfigs t).cohorts
    · rw [if_pos hpos]
      refine iff_of_true ?_ hpos
      split
      · rfl
      · split_ifs <;> rfl
    · rw [if_neg hpos]
      exact iff_of_false (by simp) hpos

theorem startVoting_returns_iff (b : Caller) (t : String) (timeout : ℤ) (cohorts : UInt32) :
    (b.startVoting t timeout cohorts).isSome ↔
      (AdapterChain.startVoting b.now t timeout cohorts b.contract).isSome := by
  have hbind : AdapterChain.startVoting b.now t timeout cohorts b.contract =
      (encodeUint timeout).bind fun timeout =>
        Contract.startVoting b.now t cohorts.toNat timeout b.contract := by
    unfold AdapterChain.startVoting encodeUint
    split_ifs <;> rfl
  rw [hbind]
  simp only [Caller.startVoting, AdapterServer.startVoting, ContractClient.startVoting]
  cases (encodeUint timeout).bind fun timeout =>
    Contract.startVoting b.now t cohorts.toNat timeout b.contract <;> rfl

theorem vote_returns_iff (b : Caller) (t : String) (cohortId : ℕ) (ballot : Blockchain.Ballot) :
    (b.vote t cohortId ballot).isSome ↔
      (AdapterChain.vote b.now t cohortId ballot b.contract).isSome := by
  have hencode : encodeUint cohortId = some cohortId := encodeUint_of_nonneg (by omega)
  simp only [Caller.vote, AdapterServer.vote, ContractClient.vote, hencode, Option.bind_some,
    AdapterChain.vote]
  cases Contract.vote b.now t cohortId (ballotInt ballot) b.contract <;> rfl

theorem getVotingDecision_eq (b : Caller) (t : String) :
    b.getVotingDecision t =
      (AdapterChain.getVotingDecision b.now t b.contract).map Except.ok := by
  simp only [Caller.getVotingDecision, AdapterServer.getVotingDecision,
    ContractClient.getVotingDecision, AdapterChain.getVotingDecision, adapterGetVotingDecision]
  cases Contract.getVotingDecision b.now t b.contract <;> rfl

/-- A request's outcome reaches its caller exactly when the contract accepts the request. -/
theorem delivered_iff_required (b : Caller) (r : Request) :
    r.Delivered b ↔ r.Required b := by
  rw [← r.succeeds_iff b]
  constructor
  · intro h
    by_contra hrevert
    have hone := h.one
    rw [Request.replies_of_reverts hrevert] at hone
    cases hone
  · intro h
    have hreplies := Request.replies_of_succeeds h
    refine ⟨by rw [hreplies]; rfl, iff_of_true ⟨.okStatus, ?_, rfl⟩ h, ?_, fun hno => absurd h hno⟩
    · rw [hreplies]
      exact List.mem_singleton_self _
    · refine iff_of_false ?_ (not_not_intro h)
      rintro ⟨status, hmem, hfail⟩
      rw [hreplies] at hmem
      obtain rfl := List.mem_singleton.mp hmem
      cases hfail

/-- A cohort that votes ABORT before the voting is started gets no reply. -/
theorem vote_not_delivered :
    ¬(Request.vote Coordinator.localId 0 .abort).Delivered ⟨100, Contract.deployed⟩ := by
  intro h
  cases h.one

end TwoPhaseCommit.AdapterChain
