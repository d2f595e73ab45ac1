import TwoPhaseCommit.System

/-! What a run of the system leaves in its state: every ballot counted, decision given and
message received goes back to the step that made it. -/
namespace TwoPhaseCommit.System
open Coordinator (Server CommitContext CommitAtomicTransactionRequest Rpc SubTransaction Submission
  submissionRpcs startVoting messages)
open BallotTable (WellFormed ballotOf)
open AdapterChain (ballotInt)
open AdapterChain.Blockchain (Ballot VotingDecision)

/-- An accepted vote changes one ballot, before the deadline. -/
structure VoteEffect (C C' : Contract.State) (now : ℕ) (id : String) (i : ℕ)
    (ballot : Contract.Ballot) : Prop where
  wellFormed : WellFormed C'
  configs : ∀ t, C'.transactionConfigs t = C.transactionConfigs t
  inTime : now < (C.transactionConfigs id).voteTimeoutTime
  known : ballot ≠ .unknown
  ballots : ∀ t, ∀ j < (C.transactionConfigs t).cohorts,
    ballotOf C' t j = if t = id ∧ j = i then ballot else ballotOf C t j

/-- An accepted startVoting opens one voting and leaves the others alone. -/
structure StartEffect (C C' : Contract.State) (now : ℕ) (id : String) (n deadline : ℕ) : Prop where
  wellFormed : WellFormed C'
  inTime : now < deadline
  config : C'.transactionConfigs id = ⟨n, deadline⟩
  nonempty : 0 < n
  ballots : ∀ j < n, ballotOf C' id j = .unknown
  others : ∀ t, t ≠ id → C'.transactionConfigs t = C.transactionConfigs t ∧
    ∀ j, ballotOf C' t j = ballotOf C t j

theorem step_of_apply {C C' : Contract.State} {now : ℕ} (call : Contract.Call)
    (h : call.apply now C = some C') : Contract.step C (now, call) = C' := by
  simp [Contract.step, h]

theorem vote_effect {C C' : Contract.State} (hC : WellFormed C) {now : ℕ} {id : String} {i : ℕ}
    {ballot : Ballot} (h : AdapterChain.vote now id i ballot C = some C') :
    VoteEffect C C' now id i (ballotInt ballot) := by
  have hwf := hC.step (now, .vote id i (ballotInt ballot))
  rw [step_of_apply (.vote id i (ballotInt ballot)) h] at hwf
  rw [AdapterChain.vote, Contract.vote, Contract.getNow_of_mockNow C now hC.mock] at h
  split_ifs at h with hreq
  obtain rfl := Option.some.inj h
  refine ⟨hwf, fun _ => rfl, hreq.1, hreq.2.2, ?_⟩
  intro t j hj
  by_cases ht : t = id
  · subst ht
    simpa [ballotOf] using
      BallotTable.getCohortBallot_new (hC.bounded t) (hC.small t) hreq.2.1 hj (ballotInt ballot)
  · simp [ballotOf, ht]

theorem start_effect {C C' : Contract.State} (hC : WellFormed C) {now : ℕ} {id : String}
    {abortTime : ℤ} {n : UInt32} (h : AdapterChain.startVoting now id abortTime n C = some C') :
    StartEffect C C' now id n.toNat abortTime.toNat := by
  unfold AdapterChain.startVoting at h
  split_ifs at h
  have hwf := hC.step (now, .startVoting id n.toNat abortTime.toNat)
  rw [step_of_apply (.startVoting id n.toNat abortTime.toNat) h] at hwf
  rw [Contract.startVoting, Contract.getNow_of_mockNow C now hC.mock] at h
  split_ifs at h with hreq
  obtain rfl := Option.some.inj h
  refine ⟨hwf, hreq.2.2, by simp, hreq.1, ?_, ?_⟩
  · intro j hj
    have hsmall : j ≤ 120 := by omega
    simp [ballotOf, BallotTable.getCohortBallot_zero hsmall]
  · intro t ht
    simp [ballotOf, ht]

theorem decision_effect {C : Contract.State} (hC : WellFormed C) {now : ℕ} {id : String}
    {d : VotingDecision} (h : AdapterChain.getVotingDecision now id C = some d) :
    let config := C.transactionConfigs id
    0 < config.cohorts ∧ (d = .commit → ∀ i < config.cohorts, ballotOf C id i = .commit) ∧
      (d = .abort → (∃ i < config.cohorts, ballotOf C id i = .abort) ∨
        config.voteTimeoutTime ≤ now ∧ ∃ i < config.cohorts, ballotOf C id i ≠ .commit) := by
  intro config
  rw [AdapterChain.getVotingDecision, AdapterChain.adapterGetVotingDecision_eq,
    BallotTable.votingDecision_eq hC.mock] at h
  by_cases hpos : 0 < config.cohorts
  swap
  · simp [config, hpos] at h
  rw [if_pos hpos, Option.map_some, Option.map_some, Option.some.injEq] at h
  have hmem (P : Contract.Ballot → Prop) : (∃ b ∈ (BallotTable.entryOf C id).ballots, P b) ↔
      ∃ i < config.cohorts, P (ballotOf C id i) := by simp [BallotTable.entryOf, config]
  refine ⟨hpos, ?_, ?_⟩
  · rintro rfl i hi
    have hcommit : (BallotTable.decision now (BallotTable.entryOf C id)).option = .commit := by
      revert h
      cases (BallotTable.decision now (BallotTable.entryOf C id)).option <;>
        simp [AdapterChain.decodeOption]
    refine (BallotTable.decision_commit_iff _ _).mp hcommit _ ?_
    exact List.mem_map_of_mem (List.mem_range.mpr hi)
  · rintro rfl
    have habort : (BallotTable.decision now (BallotTable.entryOf C id)).option = .abort := by
      revert h
      cases (BallotTable.decision now (BallotTable.entryOf C id)).option <;>
        simp [AdapterChain.decodeOption]
    obtain ha | ⟨hd, hb⟩ := (BallotTable.decision_abort_iff _ _).mp habort
    · exact .inl ((hmem (· = .abort)).mp ⟨_, ha, rfl⟩)
    · exact .inr ⟨hd, (hmem (· ≠ .commit)).mp hb⟩

def deadline (config : TransactionConfig) : ℕ :=
  (Clock.toTimeT (Clock.ofTimestamp config.presumedAbortTime)).toNat

/-- A CommitAtomicTransaction call with an id. -/
def Submits (P : Parties) (id : String) : Action → Prop
  | .commitAtomicTransaction context request _ =>
    Coordinator.getTransactionId P.server.sha256 request.clientTransactionId context.peer = .ok id
  | _ => False

/-- What a CommitAtomicTransaction step does: nothing is sent, or the voting cannot be started,
or the requests go out, after the start of the voting if there are several. -/
inductive Submitted (P : Parties) (s : State) (context : CommitContext)
    (request : CommitAtomicTransactionRequest) :
    List Rpc → Coordinator.State → Contract.State → Prop
  | unchanged : Submitted P s context request [] s.coordinator s.contract
  | dropped {id : String} {config : TransactionConfig}
      (hid : Coordinator.getTransactionId P.server.sha256 request.clientTransactionId context.peer =
        .ok id) :
      Submitted P s context request [] (s.coordinator.setMetadata id
        { s.coordinator.metadata id with config := config }) s.contract
  | refused {id : String} {config : TransactionConfig} {subs : List SubTransaction}
      (h : Submission P.server context request s.coordinator id config subs)
      (hb : context.blockchainStatus.isOk = false) :
      Submitted P s context request [startVoting id config.presumedAbortTime subs.length]
        (s.coordinator.setMetadata id { s.coordinator.metadata id with config := config })
        s.contract
  | sent {id : String} {config : TransactionConfig} {subs : List SubTransaction}
      {contract : Contract.State}
      (h : Submission P.server context request s.coordinator id config subs)
      (hb : 1 < subs.length → context.blockchainStatus.isOk)
      (hone : subs.length = 1 → contract = s.contract)
      (hmany : 1 < subs.length →
        StartEffect s.contract contract s.now id subs.length (deadline config)) :
      Submitted P s context request (submissionRpcs id config subs true)
        (s.coordinator.setMetadata id
          ({ s.coordinator.metadata id with config := config }.sent subs)) contract

theorem startCall_eq_none {rpc : Rpc} (h : rpc.started = none) : startCall rpc = none := by
  cases rpc <;> simp_all [Rpc.started, startCall]

theorem foldlM_reach {now : ℕ} {status : Status} {rpcs : List Rpc}
    (h : ∀ rpc ∈ rpcs, rpc.started = none) (C : Contract.State) :
    rpcs.foldlM (reach now status) C = some C := by
  induction rpcs with
  | nil => rfl
  | cons rpc rpcs ih =>
    have hrpc : reach now status C rpc = some C := by
      rw [reach, startCall_eq_none (h rpc (by simp))]
    rw [List.foldlM_cons, hrpc]
    exact ih fun r hr => h r (by simp [hr])

theorem subs_length_lt {server : Server} {context : CommitContext}
    {request : CommitAtomicTransactionRequest} {s : Coordinator.State} {id : String}
    {config : TransactionConfig} {subs : List SubTransaction}
    (h : Submission server context request s id config subs)
    (hsmall : request.transaction.ops.length < 2 ^ 31) : subs.length < 2 ^ 31 := by
  have hle := Coordinator.length_addresses_le request.transaction.ops
  rw [← h.length_eq] at hle
  omega

theorem submitted_of_step {P : Parties} {s : State} {context : CommitContext}
    {request : CommitAtomicTransactionRequest} {contract : Contract.State}
    (hC : WellFormed s.contract) (hsmall : request.transaction.ops.length < 2 ^ 31)
    (hc : (Coordinator.commitAtomicTransaction P.server context request
      s.coordinator).rpcs.foldlM (reach s.now context.blockchainStatus) s.contract =
        some contract) :
    let o := Coordinator.commitAtomicTransaction P.server context request s.coordinator
    Submitted P s context request o.rpcs o.state contract := by
  intro o
  cases hsend : Coordinator.toSend P.server context request s.coordinator with
  | none =>
    obtain ⟨hrpcs, hstate⟩ := Coordinator.commit_of_none hsend
    rw [hrpcs] at hc
    obtain rfl : s.contract = contract := Option.some.inj hc
    obtain hst | ⟨id, config, hid, hst⟩ := hstate
    · rw [hrpcs, hst]
      exact .unchanged
    · rw [hrpcs, hst]
      exact .dropped hid
  | some sent =>
    obtain ⟨id, config, subs⟩ := sent
    have h := Coordinator.toSend_eq_some_iff.mp hsend
    have hlen := subs_length_lt h hsmall
    obtain ⟨_, ⟨hmany, hb, hrpcs, _, hst⟩ | ⟨hb, hrpcs, _, hst⟩⟩ := h.outcome
    · rw [hrpcs] at hc ⊢
      rw [hst]
      have hsame : s.contract = contract := by
        simpa [reach, startCall, startVoting, hb] using hc
      rw [← hsame]
      exact .refused h hb
    · have hsubs : o.rpcs = submissionRpcs id config subs true := hrpcs
      rw [hrpcs] at hc
      rw [hsubs, hst]
      have hquiet (C : Contract.State) :
          (Coordinator.prepareRequests id config subs).foldlM
            (reach s.now context.blockchainStatus) C = some C :=
        foldlM_reach (fun _ => Coordinator.started_prepareRequests) C
      refine .sent h hb ?_ ?_
      · intro hone
        rw [if_neg (by omega), List.nil_append, hquiet] at hc
        exact (Option.some.inj hc).symm
      · intro hmany
        have hn : (UInt32.ofNat subs.length).toNat = subs.length :=
          UInt32.toNat_ofNat_of_lt' (by simp only [UInt32.size]; omega)
        rw [if_pos hmany, List.foldlM_append, List.foldlM_cons] at hc
        have hreach : reach s.now context.blockchainStatus s.contract
            (startVoting id config.presumedAbortTime subs.length) = some contract := by
          cases hr : reach s.now context.blockchainStatus s.contract
              (startVoting id config.presumedAbortTime subs.length) with
          | none => simp [hr] at hc
          | some C => simpa [hr, hquiet] using hc
        have hstart : AdapterChain.startVoting s.now id
            (Clock.toTimeT (Clock.ofTimestamp config.presumedAbortTime))
            (UInt32.ofNat subs.length) s.contract = some contract := by
          simpa [reach, startCall, startVoting, hb hmany] using hreach
        have heffect := start_effect hC hstart
        rwa [hn] at heffect

def Counted (xs : List Action) (C : Contract.State) : Prop :=
  ∀ id i, i < (C.transactionConfigs id).cohorts → ballotOf C id i ≠ .unknown →
    ∃ now k b, .vote now id k b ∈ xs ∧ k.toNat = i ∧ ballotInt b = ballotOf C id i ∧
      now < (C.transactionConfigs id).voteTimeoutTime

theorem Counted.snoc {xs : List Action} {C : Contract.State} (h : Counted xs C) (x : Action) :
    Counted (xs ++ [x]) C := by
  intro id i hi hb
  obtain ⟨now, k, b, hx, hrest⟩ := h id i hi hb
  exact ⟨now, k, b, List.mem_append_left _ hx, hrest⟩

theorem Counted.start {xs : List Action} {C C' : Contract.State} {now n deadline : ℕ}
    {id : String} (h : Counted xs C) (he : StartEffect C C' now id n deadline) : Counted xs C' := by
  intro t i hi hb
  by_cases ht : t = id
  · subst ht
    rw [he.config] at hi
    exact absurd (he.ballots i hi) hb
  · obtain ⟨hconfig, hballots⟩ := he.others t ht
    rw [hconfig] at hi ⊢
    rw [hballots i] at hb ⊢
    exact h t i hi hb

theorem Counted.vote {xs : List Action} {C C' : Contract.State} {now : ℕ} {id : String}
    {k : UInt32} {b : Ballot} (h : Counted xs C)
    (he : VoteEffect C C' now id k.toNat (ballotInt b)) :
    Counted (xs ++ [.vote now id k b]) C' := by
  intro t i hi hb
  rw [he.configs t] at hi ⊢
  rw [he.ballots t i hi] at hb ⊢
  split_ifs at hb ⊢ with hti
  · obtain ⟨rfl, rfl⟩ := hti
    exact ⟨now, k, b, by simp, rfl, rfl, he.inTime⟩
  · exact h.snoc _ t i hi hb

/-- The ballots, requests and decisions of a run go back to its steps. -/
structure Records (xs : List Action) (s : State) : Prop where
  wellFormed : WellFormed s.contract
  starts : ∀ a id request, .cohort a id (.start request) ∈ xs → (a, request) ∈ s.prepares
  votes : ∀ id i b, (id, i, b) ∈ s.votes ↔ ∃ a, .cohort a id (.vote i b) ∈ xs
  accepted : ∀ now id i b, .vote now id i b ∈ xs → (id, i, b) ∈ s.votes
  counted : Counted xs s.contract
  reads : ∀ a id d, .cohort a id (.poll (some d)) ∈ xs → (id, d) ∈ s.decisions

theorem Records.grow {xs : List Action} {s s' : State} {x : Action} (h : Records xs s)
    (hC : WellFormed s'.contract) (hcounted : Counted xs s'.contract)
    (hp : s.prepares ⊆ s'.prepares) (hv : s'.votes = s.votes) (hd : s.decisions ⊆ s'.decisions)
    (hx : (∀ a id action, x ≠ .cohort a id action) ∧ ∀ now id i b, x ≠ .vote now id i b) :
    Records (xs ++ [x]) s' where
  wellFormed := hC
  starts a id request hr := by
    obtain hr | hr := List.mem_append.mp hr
    · exact hp (h.starts a id request hr)
    · exact absurd (List.mem_singleton.mp hr).symm (hx.1 a id _)
  votes id i b := by
    rw [hv, h.votes id i b]
    refine exists_congr fun a => ?_
    rw [List.mem_append, List.mem_singleton]
    exact (or_iff_left fun he => hx.1 a id _ he.symm).symm
  accepted now id i b hb := by
    rw [hv]
    obtain hb | hb := List.mem_append.mp hb
    · exact h.accepted now id i b hb
    · exact absurd (List.mem_singleton.mp hb).symm (hx.2 now id i b)
  counted := hcounted.snoc x
  reads a id d hr := by
    obtain hr | hr := List.mem_append.mp hr
    · exact hd (h.reads a id d hr)
    · exact absurd (List.mem_singleton.mp hr).symm (hx.1 a id _)

theorem Submitted.counted {P : Parties} {s : State} {context : CommitContext}
    {request : CommitAtomicTransactionRequest} {rpcs : List Rpc} {k : Coordinator.State}
    {C : Contract.State} {xs : List Action} (h : Submitted P s context request rpcs k C)
    (hwf : WellFormed s.contract) (hc : Counted xs s.contract) : WellFormed C ∧ Counted xs C := by
  cases h with
  | unchanged => exact ⟨hwf, hc⟩
  | dropped hid => exact ⟨hwf, hc⟩
  | refused hsub hb => exact ⟨hwf, hc⟩
  | sent hsub hb hone hmany =>
    have hpos := List.length_pos_iff.mpr hsub.nonempty
    obtain hlen | hlen := (Nat.succ_le_iff.mpr hpos).eq_or_lt
    · rw [hone hlen.symm]
      exact ⟨hwf, hc⟩
    · exact ⟨(hmany hlen).wellFormed, hc.start (hmany hlen)⟩

theorem Records.step {P : Parties} {xs : List Action} {s s' : State} {x : Action}
    (h : Records xs s) (hs : Step P s x s') : Records (xs ++ [x]) s' := by
  cases hs with
  | tick now hnow =>
    exact h.grow h.wellFormed h.counted subset_rfl rfl subset_rfl (by simp)
  | commitAtomicTransaction context request hsmall ho hc =>
    subst ho
    obtain ⟨hwf, hcounted⟩ :=
      (submitted_of_step h.wellFormed hsmall hc).counted h.wellFormed h.counted
    exact h.grow hwf hcounted Set.subset_union_left rfl subset_rfl (by simp)
  | getTransactionResult replies hg ho =>
    exact h.grow h.wellFormed h.counted subset_rfl rfl subset_rfl (by simp)
  | lateStart hl hc =>
    have he := start_effect h.wellFormed hc
    exact h.grow he.wellFormed (h.counted.start he) subset_rfl rfl subset_rfl (by simp)
  | @cohort a id action k hk hr =>
    refine ⟨h.wellFormed, ?_, ?_, ?_, h.counted.snoc _, ?_⟩
    · intro a' u request hx
      obtain hx | hx := List.mem_append.mp hx
      · exact h.starts a' u request hx
      · obtain ⟨rfl, rfl, rfl⟩ : a' = a ∧ u = id ∧ .start request = action := by simpa using hx
        exact hr
    · intro u i b
      constructor
      · rintro (hb | hb)
        · obtain ⟨a', ha⟩ := (h.votes u i b).mp hb
          exact ⟨a', List.mem_append_left _ ha⟩
        · cases action with
          | vote j b' =>
            obtain ⟨rfl, rfl, rfl⟩ : u = id ∧ i = j ∧ b = b' := by simpa [ballots] using hb
            exact ⟨a, by simp⟩
          | _ => cases hb
      · rintro ⟨a', ha⟩
        obtain ha | ha := List.mem_append.mp ha
        · exact .inl ((h.votes u i b).mpr ⟨a', ha⟩)
        · obtain ⟨rfl, rfl, rfl⟩ : a' = a ∧ u = id ∧ .vote i b = action := by simpa using ha
          exact .inr rfl
    · intro now u i b hb
      exact .inl (h.accepted now u i b (by simpa using hb))
    · intro a' u d hx
      obtain hx | hx := List.mem_append.mp hx
      · exact h.reads a' u d hx
      · obtain ⟨rfl, rfl, rfl⟩ : a' = a ∧ u = id ∧ .poll (some d) = action := by simpa using hx
        exact hr
  | @vote contract id i b hv hc =>
    have he := vote_effect h.wellFormed hc
    refine ⟨he.wellFormed, ?_, ?_, ?_, h.counted.vote he, ?_⟩
    · intro a u request hx
      exact h.starts a u request (by simpa using hx)
    · intro u j b'
      rw [h.votes u j b']
      simp
    · intro now u j b' hb
      obtain hb | hb := List.mem_append.mp hb
      · exact h.accepted now u j b' hb
      · obtain ⟨_, rfl, rfl, rfl⟩ : now = s.now ∧ u = id ∧ j = i ∧ b' = b := by
          simpa using hb
        exact hv
    · intro a u d hr
      exact h.reads a u d (by simpa using hr)
  | rejectedVote hv hc =>
    exact h.grow h.wellFormed h.counted subset_rfl rfl subset_rfl (by simp)
  | getVotingDecision hd =>
    exact h.grow h.wellFormed h.counted subset_rfl rfl (Set.subset_insert _ _) (by simp)
  | cohortResult a id hr =>
    exact h.grow h.wellFormed h.counted subset_rfl rfl subset_rfl (by simp)

theorem records_run {P : Parties} {xs : List Action} {s : State} (h : Run P xs s) : Records xs s :=
  Runs.Run.invariant (I := fun xs s => Records xs s)
    ⟨BallotTable.wellFormed_deployed, by simp, by simp [initial], by simp,
      fun id i hi _ => absurd hi (Nat.not_lt_zero i), by simp⟩
    (fun _ _ _ _ _ hi hs => hi.step hs) h

/-- The thread of a transaction at a cohort has its history and a request that was sent to it. -/
theorem story_at {P : Parties} {xs : List Action} {s : State} (h : Run P xs s) {a id : String}
    {t : Cohort.Thread} (ht : (s.cohorts a).threads id = some t) :
    Cohort.Story (Cohort.actionsOf id (actionsAt a xs)) t ∧ t.request.transactionId = id ∧
      (a, t.request) ∈ s.prepares := by
  obtain ⟨hstory, hid, _⟩ := Cohort.story_run (cohort_run h a) ht
  obtain ⟨action, hmem, hreq⟩ := List.exists_of_findSome?_eq_some hstory.started
  refine ⟨hstory, hid, ?_⟩
  cases action with
  | start request =>
    obtain rfl := Option.some.inj hreq
    rw [Cohort.mem_actionsOf, mem_actionsAt] at hmem
    exact (records_run h).starts a id _ hmem
  | _ => cases hreq

theorem thread_at {P : Parties} {xs : List Action} {s : State} (h : Run P xs s) {a id : String}
    {action : Cohort.Action} (hx : .cohort a id action ∈ xs) :
    ∃ t, (s.cohorts a).threads id = some t := by
  refine Cohort.thread_of_action (cohort_run h a) (List.ne_nil_of_mem (a := action) ?_)
  rwa [Cohort.mem_actionsOf, mem_actionsAt]

end TwoPhaseCommit.System
