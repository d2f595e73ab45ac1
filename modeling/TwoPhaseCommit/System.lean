import Mathlib.Data.Set.Insert
import TwoPhaseCommit.CohortPromise
import TwoPhaseCommit.Submission

/-! The whole system: clients that call one coordinator, the contract, one cohort at each
address, and what is on its way between them. A message that was sent may arrive at any later
time or never; what a party asks for may come back as any reply given so far, or fail. -/
namespace TwoPhaseCommit.System
open Coordinator (Server CommitContext CommitAtomicTransactionRequest Rpc Replies messages)
open AdapterChain.Blockchain (Ballot VotingDecision)

structure Parties where
  server : Server
  adapters : String → Cohort.Adapter
  stores : String → Database.Store String

structure State where
  coordinator : Coordinator.State
  contract : Contract.State
  -- The time of the current block.
  now : ℕ
  cohorts : String → Cohort.State
  prepares : Set (String × Cohort.PrepareTransactionRequest)
  votes : Set (String × UInt32 × Ballot)
  -- Calls to StartVoting that were reported to have failed.
  lateStarts : Set (String × ℤ × ℕ)
  decisions : Set (String × VotingDecision)
  results : Set (String × String × Cohort.GetTransactionResultResponse)

def initial (P : Parties) : State where
  coordinator := Coordinator.initial
  contract := Contract.deployed
  now := 0
  cohorts a := Cohort.initial (P.stores a)
  prepares := ∅
  votes := ∅
  lateStarts := ∅
  decisions := ∅
  results := ∅

inductive Action where
  | tick (now : ℕ)
  | commitAtomicTransaction (context : CommitContext) (request : CommitAtomicTransactionRequest)
    (rpcs : List Rpc)
  | getTransactionResult (transactionId : String)
    (answer : Coordinator.GetTransactionResultResponse)
  | lateStart (transactionId : String) (abortTime : ℤ) (numCohorts : ℕ)
  | cohort (address transactionId : String) (action : Cohort.Action)
  | vote (now : ℕ) (transactionId : String) (cohortIndex : UInt32) (ballot : Ballot)
  | rejectedVote (transactionId : String) (cohortIndex : UInt32) (ballot : Ballot)
  | getVotingDecision (transactionId : String) (decision : VotingDecision)
  | cohortResult (address transactionId : String) (response : Cohort.GetTransactionResultResponse)

def startCall : Rpc → Option (String × ℤ × ℕ)
  | .startVoting id abortTime n => some (id, abortTime, n)
  | _ => none

/-- A call to StartVoting that returns OK was accepted by the contract. -/
def reach (now : ℕ) (status : Status) (contract : Contract.State) (rpc : Rpc) :
    Option Contract.State :=
  match startCall rpc with
  | some (id, abortTime, n) =>
    if status.isOk then AdapterChain.startVoting now id abortTime (UInt32.ofNat n) contract
    else some contract
  | none => some contract

def sent (rpcs : List Rpc) : Set (String × Cohort.PrepareTransactionRequest) :=
  {p | ∃ m ∈ messages rpcs, p = (m.1.address, m.2)}

/-- The calls of a handler that may still take effect. -/
def late (status : Status) (rpcs : List Rpc) : Set (String × ℤ × ℕ) :=
  {p | status.isOk = false ∧ ∃ rpc ∈ rpcs, startCall rpc = some p}

/-- The cohorts that GetTransactionResult asks, by position. -/
def asked (m : Coordinator.TransactionMetadata) : List Namespace :=
  match m.singleCohortNamespace with
  | some n => [n]
  | none => m.cohortNamespaces

/-- The replies that a GetTransactionResult handler gets were all given. -/
structure Given (s : State) (id : String) (replies : Replies) : Prop where
  decision : ∀ d, replies.votingDecision = .ok d → (id, d) ∈ s.decisions
  result : ∀ i n, (asked (s.coordinator.metadata id))[i]? = some n →
    (replies.transactionResult i).1.isOk →
    (n.address, id, (replies.transactionResult i).2) ∈ s.results

/-- What a cohort's thread receives was sent: its request, or a decision that it reads. -/
def Received (s : State) (address id : String) : Cohort.Action → Prop
  | .start request => (address, request) ∈ s.prepares
  | .poll (some d) => (id, d) ∈ s.decisions
  | _ => True

def ballots (id : String) : Cohort.Action → Set (String × UInt32 × Ballot)
  | .vote cohortIndex ballot => {(id, cohortIndex, ballot)}
  | _ => ∅

def State.setCohort (s : State) (address : String) (k : Cohort.State) : State :=
  { s with cohorts := Function.update s.cohorts address k }

/-- The steps of all parties. A handler of the coordinator is one step; a cohort gets the
request of a transaction at most once. -/
inductive Step (P : Parties) : State → Action → State → Prop
  | tick {s : State} (now : ℕ) (h : s.now ≤ now) : Step P s (.tick now) { s with now := now }
  -- A repeated field holds fewer than 2^31 elements.
  | commitAtomicTransaction {s : State} {contract : Contract.State} (context : CommitContext)
      (request : CommitAtomicTransactionRequest) (hsmall : request.transaction.ops.length < 2 ^ 31)
      {o : Coordinator.Outcome Coordinator.CommitAtomicTransactionResponse}
      (ho : o = Coordinator.commitAtomicTransaction P.server context request s.coordinator)
      (hc : o.rpcs.foldlM (reach s.now context.blockchainStatus) s.contract = some contract) :
      Step P s (.commitAtomicTransaction context request o.rpcs)
        { s with
          coordinator := o.state
          contract := contract
          prepares := s.prepares ∪ sent o.rpcs
          lateStarts := s.lateStarts ∪ late context.blockchainStatus o.rpcs }
  | getTransactionResult {s : State} {id : String} (replies : Replies)
      (hg : Given s id replies) {o : Coordinator.Outcome Coordinator.GetTransactionResultResponse}
      (ho : o = Coordinator.getTransactionResult replies id s.coordinator) :
      Step P s (.getTransactionResult id o.response) { s with coordinator := o.state }
  | lateStart {s : State} {contract : Contract.State} {id : String} {abortTime : ℤ} {n : ℕ}
      (h : (id, abortTime, n) ∈ s.lateStarts)
      (hc : AdapterChain.startVoting s.now id abortTime (UInt32.ofNat n) s.contract =
        some contract) :
      Step P s (.lateStart id abortTime n) { s with contract := contract }
  | cohort {s : State} (address id : String) {action : Cohort.Action} {k : Cohort.State}
      (hk : Cohort.Step (P.adapters address) (s.cohorts address) (id, action) k)
      (hr : Received s address id action) :
      Step P s (.cohort address id action)
        ({ s with votes := s.votes ∪ ballots id action }.setCohort address k)
  | vote {s : State} {contract : Contract.State} {id : String} {cohortIndex : UInt32}
      {ballot : Ballot} (h : (id, cohortIndex, ballot) ∈ s.votes)
      (hc : AdapterChain.vote s.now id cohortIndex.toNat ballot s.contract = some contract) :
      Step P s (.vote s.now id cohortIndex ballot) { s with contract := contract }
  | rejectedVote {s : State} {id : String} {cohortIndex : UInt32} {ballot : Ballot}
      (h : (id, cohortIndex, ballot) ∈ s.votes)
      (hc : AdapterChain.vote s.now id cohortIndex.toNat ballot s.contract = none) :
      Step P s (.rejectedVote id cohortIndex ballot) s
  | getVotingDecision {s : State} {id : String} {d : VotingDecision}
      (h : AdapterChain.getVotingDecision s.now id s.contract = some d) :
      Step P s (.getVotingDecision id d) { s with decisions := insert (id, d) s.decisions }
  | cohortResult {s : State} (address id : String)
      {r : Cohort.GetTransactionResultResponse}
      (hr : r = Cohort.getTransactionResult (s.cohorts address) id) :
      Step P s (.cohortResult address id r) { s with results := insert (address, id, r) s.results }

abbrev Run (P : Parties) (xs : List Action) (s : State) : Prop :=
  Runs.Run (Step P) (initial P) xs s

def actionsAt (address : String) (xs : List Action) : List (String × Cohort.Action) :=
  xs.flatMap fun x =>
    match x with
    | .cohort a id action => if a = address then [(id, action)] else []
    | _ => []

theorem mem_actionsAt {address : String} {xs : List Action} {id : String} {action : Cohort.Action} :
    (id, action) ∈ actionsAt address xs ↔ .cohort address id action ∈ xs := by
  rw [actionsAt, List.mem_flatMap]
  constructor
  · rintro ⟨x, hx, ha⟩
    cases x with
    | cohort a u b =>
      dsimp only at ha
      split_ifs at ha with hu
      · obtain ⟨rfl, rfl⟩ := Prod.mk.inj (List.mem_singleton.mp ha)
        rwa [hu] at hx
      · cases ha
    | _ => cases ha
  · intro hx
    exact ⟨_, hx, by simp⟩

theorem cohort_steps {P : Parties} {xs : List Action} {s s' : State}
    (h : Runs.Run (Step P) s xs s') (address : String) :
    Runs.Run (Cohort.Step (P.adapters address)) (s.cohorts address) (actionsAt address xs)
      (s'.cohorts address) := by
  refine Runs.Run.project (f := fun s : State => s.cohorts address) ?_ h
  intro s x s' hs
  cases hs with
  | @cohort a id action k hk hr =>
    dsimp only
    split_ifs with ha
    · subst ha
      rw [State.setCohort]
      dsimp only
      rw [Function.update_self]
      exact .single hk
    · have hsame : Function.update s.cohorts a k address = s.cohorts address :=
        Function.update_of_ne (Ne.symm ha) _ _
      rw [State.setCohort]
      dsimp only
      rw [hsame]
      exact .nil
  | _ => exact .nil

theorem cohort_run {P : Parties} {xs : List Action} {s : State} (h : Run P xs s)
    (address : String) :
    Cohort.Run (P.adapters address) (P.stores address) (actionsAt address xs) (s.cohorts address) :=
  cohort_steps h address

end TwoPhaseCommit.System
