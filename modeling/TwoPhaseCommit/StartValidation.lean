import TwoPhaseCommit.Submission

/-! Which of the transactions that the coordinator finds valid the contract starts a vote for. -/
namespace TwoPhaseCommit.Coordinator
open Grouping

/-- What becomes of the StartVoting call of a submission over n cohorts when the contract's time
is now. -/
structure StartOutcome (now : ℕ) (contract : Contract.State) (n : ℕ) (context : CommitContext)
    (o : Outcome CommitAtomicTransactionResponse) (id : String) (abortTime : ℤ) (rest : List Rpc) :
    Prop where
  calls : o.rpcs = .startVoting id abortTime n :: rest
  accepted : (AdapterChain.startVoting now id abortTime (UInt32.ofNat n) contract).isSome ↔ n ≤ 120
  refused : context.blockchainStatus.isOk = false →
    rest = [] ∧ o.status.code = context.blockchainStatus.code

theorem Submission.start_isSome {server : Server} {context : CommitContext}
    {request : CommitAtomicTransactionRequest} {s : State} {id : String}
    {config : TransactionConfig} {subs : List SubTransaction}
    (h : Submission server context request s id config subs)
    (hsmall : request.transaction.ops.length < 2 ^ 31) (now : ℕ) (contract : Contract.State) :
    (AdapterChain.startVoting now id (Clock.toTimeT (Clock.ofTimestamp config.presumedAbortTime))
        (UInt32.ofNat subs.length) contract).isSome ↔
      subs.length ≤ 120 ∧ (Contract.getNow contract now : ℤ) <
        Clock.ofTimestamp config.presumedAbortTime / Clock.ticksPerSecond := by
  have hlength := h.length_eq
  have hle := length_addresses_le request.transaction.ops
  have hpos := List.length_pos_iff.mpr h.nonempty
  have hn : (UInt32.ofNat subs.length).toNat = subs.length :=
    UInt32.toNat_ofNat_of_lt' (by simp only [UInt32.size]; omega)
  rw [h.abortTime_eq, AdapterChain.startVoting, Contract.startVoting, hn]
  split_ifs with habort hall
  · exact iff_of_true rfl ⟨hall.2.1, by omega⟩
  · refine iff_of_false (by simp) ?_
    rintro ⟨hfew, hlater⟩
    exact hall ⟨hpos, hfew, by omega⟩
  · refine iff_of_false (by simp) ?_
    rintro ⟨_, hlater⟩
    omega

/-- A valid transaction over many cohorts that is presumed aborted in a later second than it is
submitted has its vote started exactly when it has at most 120 cohorts; when the vote cannot be
started nothing is prepared and the failure is returned. -/
theorem start_accepted_iff {server : Server} {context : CommitContext}
    {request : CommitAtomicTransactionRequest} {s : State} {id : String}
    {config : TransactionConfig} {subs : List SubTransaction}
    (hsub : Submission server context request s id config subs) (hmany : 1 < subs.length)
    (hsmall : request.transaction.ops.length < 2 ^ 31) {contract : Contract.State} {now : ℕ}
    (hnow : (Contract.getNow contract now : ℤ) = context.now / Clock.ticksPerSecond)
    (hlater : context.now / Clock.ticksPerSecond <
      Clock.ofTimestamp config.presumedAbortTime / Clock.ticksPerSecond) :
    ∃ abortTime rest, StartOutcome now contract (addresses request.transaction.ops).length context
      (commitAtomicTransaction server context request s) id abortTime rest := by
  have hstart := hsub.start_isSome hsmall now contract
  rw [hnow, and_iff_left hlater] at hstart
  rw [← hsub.length_eq]
  obtain ⟨_, ⟨_, hfail, hrpcs, hcode, _⟩ | ⟨hok, hrpcs, _⟩⟩ := hsub.outcome
  · exact ⟨_, [], hrpcs, hstart, fun _ => ⟨rfl, hcode⟩⟩
  · rw [if_pos hmany] at hrpcs
    refine ⟨_, prepareRequests id config subs, hrpcs, hstart, fun hfail => ?_⟩
    cases hfail.symm.trans (hok hmany)

def wideRequest (n : ℕ) : CommitAtomicTransactionRequest :=
  ⟨"id", ⟨(List.range n).map fun i => incrementOp (String.ofList (List.replicate i 'c'))⟩, ⟨none⟩⟩

def earlyRequest : CommitAtomicTransactionRequest :=
  ⟨"id", ⟨[incrementOp "cohort:50052", incrementOp "cohort:50053"]⟩, ⟨some ⟨100, 500000000⟩⟩⟩

def earlyContext : CommitContext := { localContext with now := 100 * Clock.ticksPerSecond + 800000000 }

theorem length_addresses_wideRequest (n : ℕ) :
    (addresses (wideRequest n).transaction.ops).length = n := by
  have hmap : (wideRequest n).transaction.ops.map Operation.address =
      (List.range n).map fun i => String.ofList (List.replicate i 'c') := by
    simp only [wideRequest, List.map_map]
    rfl
  have hinj : Function.Injective fun i => String.ofList (List.replicate i 'c') := by
    intro i j hij
    simpa using congrArg List.length (String.ofList_injective hij)
  rw [addresses, hmap, (List.nodup_range.map hinj).dedup, List.length_map, List.length_range]

theorem wideRequest_submission {n : ℕ} (h : 0 < n) : ∃ config subs,
    Submission localServer localContext (wideRequest n) initial localId config subs := by
  have hne : (wideRequest n).transaction.ops ≠ [] := by simp [wideRequest]; omega
  exact ⟨_, _, rfl, rfl, rfl, rfl, split_ne_nil _ hne _⟩

/-- A valid transaction over 121 cohorts is not accepted by the contract, nor one over two cohorts
whose abort time is in the second it is submitted in. -/
theorem start_refused :
    (∃ abortTime rest, (commitAtomicTransaction localServer localContext (wideRequest 121)
        initial).rpcs = .startVoting localId abortTime 121 :: rest ∧
      AdapterChain.startVoting 100 localId abortTime (UInt32.ofNat 121) Contract.deployed = none) ∧
    ∃ abortTime rest, (commitAtomicTransaction localServer earlyContext earlyRequest
        initial).rpcs = .startVoting localId abortTime 2 :: rest ∧
      AdapterChain.startVoting 100 localId abortTime (UInt32.ofNat 2) Contract.deployed = none := by
  refine ⟨?_, ⟨_, _, rfl, by decide⟩⟩
  obtain ⟨config, subs, hsub⟩ := wideRequest_submission (n := 121) (by decide)
  have hlength : subs.length = 121 := by
    rw [hsub.length_eq, length_addresses_wideRequest]
  have hstart := hsub.start_isSome (by simp [wideRequest]) 100 Contract.deployed
  obtain ⟨_, ⟨_, hfail, _⟩ | ⟨_, hrpcs, _⟩⟩ := hsub.outcome
  · cases hfail
  · rw [hlength] at hrpcs hstart
    refine ⟨_, _, hrpcs, ?_⟩
    rw [← Option.not_isSome_iff_eq_none, hstart]
    omega

/-- Increments at 120 cohorts have their vote started. -/
theorem start_accepted_wide : ∃ abortTime rest, StartOutcome 100 Contract.deployed 120 localContext
    (commitAtomicTransaction localServer localContext (wideRequest 120) initial) localId abortTime
    rest := by
  obtain ⟨config, subs, hsub⟩ := wideRequest_submission (n := 120) (by decide)
  have hlength := hsub.length_eq
  rw [length_addresses_wideRequest] at hlength
  have hconfig : config = ⟨some ⟨110, 0⟩⟩ := (Except.ok.inj hsub.config_eq).symm
  have houtcome : ∃ abortTime rest, StartOutcome 100 Contract.deployed
      (addresses (wideRequest 120).transaction.ops).length localContext
      (commitAtomicTransaction localServer localContext (wideRequest 120) initial) localId abortTime
      rest :=
    start_accepted_iff hsub (by omega) (by simp [wideRequest]) (by decide)
      (by rw [hconfig]; decide)
  rwa [length_addresses_wideRequest] at houtcome

end TwoPhaseCommit.Coordinator
