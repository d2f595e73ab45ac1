import TwoPhaseCommit.SystemRecords

/-! Atomic commit: what is known of one transaction that is submitted once, at every point of a
run, and that its cohorts never disagree. -/
namespace TwoPhaseCommit.System
open Coordinator (CommitContext CommitAtomicTransactionRequest Rpc SubTransaction Submission
  submissionRpcs messages message localId localContext)
open BallotTable (WellFormed ballotOf)
open AdapterChain (ballotInt)
open AdapterChain.Blockchain (Ballot VotingDecision)

/-- At most one CommitAtomicTransaction call of the run has the id. -/
def SubmittedOnce (P : Parties) (id : String) (xs : List Action) : Prop :=
  xs.Pairwise fun x y => ¬(Submits P id x ∧ Submits P id y)

def Unsent (id : String) (s : State) : Prop := ∀ a r, (a, r) ∈ s.prepares → r.transactionId ≠ id

structure UnsubmittedInv (P : Parties) (id : String) (xs : List Action) (s : State) : Prop where
  never : ∀ x ∈ xs, ¬Submits P id x
  unsent : Unsent id s
  noLate : ∀ abortTime n, (id, abortTime, n) ∉ s.lateStarts
  closed : (s.contract.transactionConfigs id).cohorts = 0
  undecided : ∀ d, (id, d) ∉ s.decisions

/-- After a submission of which nothing was sent; its voting may still be started. -/
structure DroppedInv (P : Parties) (id : String) (xs : List Action) (s : State) : Prop where
  submitted : ∃ x ∈ xs, Submits P id x
  unsent : Unsent id s
  uncommitted : (id, .commit) ∉ s.decisions

/-- What a cohort or the coordinator has read stays true of the ballots. -/
structure ReadsHold (id : String) (config : TransactionConfig) (n : ℕ) (s : State) : Prop where
  commit : (id, .commit) ∈ s.decisions → 1 < n ∧ ∀ i < n, ballotOf s.contract id i = .commit
  abort : (id, .abort) ∈ s.decisions → 1 < n ∧ ((∃ i < n, ballotOf s.contract id i = .abort) ∨
    deadline config ≤ s.now ∧ ∃ i < n, ballotOf s.contract id i ≠ .commit)

/-- After a submission whose requests were sent. -/
structure SentInv (P : Parties) (id : String) (config : TransactionConfig)
    (subs : List SubTransaction) (xs : List Action) (s : State) : Prop where
  submitted : ∃ context request,
    .commitAtomicTransaction context request (submissionRpcs id config subs true) ∈ xs ∧
      Submits P id (.commitAtomicTransaction context request (submissionRpcs id config subs true))
  nonempty : subs ≠ []
  nodup : (subs.map SubTransaction.address).Nodup
  small : subs.length < 2 ^ 31
  requests : ∀ a r, (a, r) ∈ s.prepares → r.transactionId = id →
    ∃ m ∈ messages (submissionRpcs id config subs true), a = m.1.address ∧ r = m.2
  noLate : ∀ abortTime n, (id, abortTime, n) ∉ s.lateStarts
  closed : subs.length = 1 → (s.contract.transactionConfigs id).cohorts = 0
  opened : 1 < subs.length →
    s.contract.transactionConfigs id = ⟨subs.length, deadline config⟩
  reads : ReadsHold id config subs.length s

inductive Stage where
  | unsubmitted
  | dropped
  | sent (config : TransactionConfig) (subs : List SubTransaction)

def StageInv (P : Parties) (id : String) (xs : List Action) (s : State) : Stage → Prop
  | .unsubmitted => UnsubmittedInv P id xs s
  | .dropped => DroppedInv P id xs s
  | .sent config subs => SentInv P id config subs xs s

section Messages
variable {id : String} {config : TransactionConfig} {subs : List SubTransaction}
  {m m' : Namespace × Cohort.PrepareTransactionRequest}

theorem getElem?_of_mem_messages (h : m ∈ messages (submissionRpcs id config subs true)) :
    ∃ i sub, subs[i]? = some sub ∧ m = message id config subs.length sub i := by
  rw [Coordinator.messages_submissionRpcs] at h
  obtain ⟨⟨sub, i⟩, hp, rfl⟩ := List.mem_map.mp h
  exact ⟨i, sub, List.mem_zipIdx_iff_getElem?.mp hp, rfl⟩

theorem cohortIndex_message {sub : SubTransaction} {i : ℕ} (hi : subs[i]? = some sub)
    (hsmall : subs.length < 2 ^ 31) :
    (message id config subs.length sub i).2.cohortIndex.toNat = i := by
  have hlt : i < subs.length := (List.getElem?_eq_some_iff.mp hi).1
  by_cases hone : subs.length = 1
  · have hzero : i = 0 := by omega
    simp [message, hone, hzero, Cohort.PrepareTransactionRequest.cohortIndex]
  · simp only [message, if_neg hone, Cohort.PrepareTransactionRequest.cohortIndex]
    exact UInt32.toNat_ofNat_of_lt' (by simp only [UInt32.size]; omega)

theorem message_ext (hsmall : subs.length < 2 ^ 31)
    (h : m ∈ messages (submissionRpcs id config subs true))
    (h' : m' ∈ messages (submissionRpcs id config subs true))
    (he : m.2.cohortIndex = m'.2.cohortIndex) : m = m' := by
  obtain ⟨i, sub, hi, rfl⟩ := getElem?_of_mem_messages h
  obtain ⟨j, sub', hj, rfl⟩ := getElem?_of_mem_messages h'
  have hij : i = j := by
    rw [← @cohortIndex_message id config _ _ _ hi hsmall, he,
      cohortIndex_message hj hsmall]
  subst hij
  rw [Option.some.inj (hi.symm.trans hj)]

theorem transactionId_of_mem_messages (h : m ∈ messages (submissionRpcs id config subs true)) :
    m.2.transactionId = id := by
  obtain ⟨i, sub, _, rfl⟩ := getElem?_of_mem_messages h
  rfl

end Messages

theorem late_sent {status : Status} {id : String} {config : TransactionConfig}
    {subs : List SubTransaction} (hb : 1 < subs.length → status.isOk) :
    late status (submissionRpcs id config subs true) = ∅ := by
  refine Set.eq_empty_iff_forall_notMem.mpr ?_
  rintro p ⟨hfail, rpc, hrpc, hp⟩
  obtain hnone | ⟨hmany, _⟩ := Coordinator.mem_submissionRpcs hrpc
  · rw [startCall_eq_none hnone] at hp
    cases hp
  · rw [hb hmany] at hfail
    cases hfail

structure Untouched (id : String) (s : State) (status : Status) (rpcs : List Rpc)
    (k : Coordinator.State) (C : Contract.State) : Prop where
  sent : ∀ a r, (a, r) ∈ sent rpcs → r.transactionId ≠ id
  late : ∀ abortTime n, (id, abortTime, n) ∉ late status rpcs
  config : C.transactionConfigs id = s.contract.transactionConfigs id
  ballots : ∀ j, ballotOf C id j = ballotOf s.contract id j
  metadata : k.metadataByTransaction id = s.coordinator.metadataByTransaction id
  response : k.responseByTransaction = s.coordinator.responseByTransaction

theorem Submitted.untouched {P : Parties} {s : State} {context : CommitContext}
    {request : CommitAtomicTransactionRequest} {rpcs : List Rpc} {k : Coordinator.State}
    {C : Contract.State} (h : Submitted P s context request rpcs k C) {id : String}
    (hid : Coordinator.getTransactionId P.server.sha256 request.clientTransactionId context.peer ≠
      .ok id) : Untouched id s context.blockchainStatus rpcs k C := by
  have hmeta {id' : String}
      (hid' : Coordinator.getTransactionId P.server.sha256 request.clientTransactionId
        context.peer = .ok id') (m : Coordinator.TransactionMetadata) :
      (s.coordinator.setMetadata id' m).metadataByTransaction id =
        s.coordinator.metadataByTransaction id := by
    have hne : id ≠ id' := fun he => hid (he ▸ hid')
    simp [hne]
  have hnil (r : List Rpc) (hr : messages r = []) (a : String)
      (q : Cohort.PrepareTransactionRequest) (hq : (a, q) ∈ System.sent r) : q.transactionId ≠ id := by
    obtain ⟨m, hm, _⟩ := hq
    rw [hr] at hm
    cases hm
  cases h with
  | unchanged =>
    exact ⟨hnil [] rfl, by simp [System.late], rfl, fun _ => rfl, rfl, rfl⟩
  | dropped hid' =>
    exact ⟨hnil [] rfl, by simp [System.late], rfl, fun _ => rfl, hmeta hid' _, rfl⟩
  | @refused id' config subs hsub hb =>
    refine ⟨hnil [_] rfl, ?_, rfl, fun _ => rfl, hmeta hsub.id_eq _, rfl⟩
    rintro abortTime n ⟨_, rpc, hrpc, hcall⟩
    rw [List.mem_singleton.mp hrpc] at hcall
    obtain ⟨rfl, _⟩ := Prod.mk.inj (Option.some.inj hcall)
    exact hid hsub.id_eq
  | @sent id' config subs C hsub hb hone hmany =>
    have hne : id ≠ id' := fun he => hid (he ▸ hsub.id_eq)
    refine ⟨?_, ?_, ?_, ?_, hmeta hsub.id_eq _, rfl⟩
    · rintro a r ⟨m, hm, hp⟩ hr
      obtain ⟨_, rfl⟩ := Prod.mk.inj hp
      exact hne (hr.symm.trans (transactionId_of_mem_messages hm))
    · intro abortTime n hl
      rw [late_sent hb] at hl
      cases hl
    all_goals
      have hpos := List.length_pos_iff.mpr hsub.nonempty
      obtain hlen | hlen := (Nat.succ_le_iff.mpr hpos).eq_or_lt
    · rw [hone hlen.symm]
    · exact ((hmany hlen).others id hne).1
    · rw [hone hlen.symm]
      exact fun _ => rfl
    · exact ((hmany hlen).others id hne).2

section Run
variable {P : Parties} {id : String} {xs : List Action} {s : State}

/-- Who votes has a thread whose one vote it is, under the index of its request. -/
theorem voter (h : Run P xs s) {i : UInt32} {b : Ballot} (hv : (id, i, b) ∈ s.votes) :
    ∃ a t, (s.cohorts a).threads id = some t ∧ (a, t.request) ∈ s.prepares ∧
      t.request.transactionId = id ∧ t.request.cohortIndex = i ∧
      Cohort.votes (Cohort.actionsOf id (actionsAt a xs)) = [(i, b)] := by
  obtain ⟨a, ha⟩ := ((records_run h).votes id i b).mp hv
  obtain ⟨t, ht⟩ := thread_at h ha
  obtain ⟨hstory, hid, hreq⟩ := story_at h ht
  rw [← mem_actionsAt, ← Cohort.mem_actionsOf, ← Cohort.mem_votes] at ha
  obtain hnil | ⟨b', hone⟩ := hstory.votes_cases
  · rw [hnil] at ha
    cases ha
  · rw [hone, List.mem_singleton] at ha
    obtain ⟨rfl, rfl⟩ := Prod.mk.inj ha
    exact ⟨a, t, ht, hreq, hid, rfl, hone⟩

theorem no_vote (h : Run P xs s) (hu : Unsent id s) (i : UInt32) (b : Ballot) :
    (id, i, b) ∉ s.votes := by
  intro hv
  obtain ⟨a, t, _, hreq, hid, _⟩ := voter h hv
  exact hu a t.request hreq hid

theorem no_thread (h : Run P xs s) (hu : Unsent id s) (a : String) :
    (s.cohorts a).threads id = none := by
  cases ht : (s.cohorts a).threads id with
  | none => rfl
  | some t =>
    obtain ⟨_, hid, hreq⟩ := story_at h ht
    exact absurd hid (hu a t.request hreq)

theorem ballot_unique (h : Run P xs s) {config : TransactionConfig} {subs : List SubTransaction}
    (hs : SentInv P id config subs xs s) {i : UInt32} {b b' : Ballot} (hv : (id, i, b) ∈ s.votes)
    (hv' : (id, i, b') ∈ s.votes) : b = b' := by
  obtain ⟨a, t, _, hreq, hid, hi, hvotes⟩ := voter h hv
  obtain ⟨a', t', _, hreq', hid', hi', hvotes'⟩ := voter h hv'
  obtain ⟨m, hm, rfl, hm'⟩ := hs.requests a t.request hreq hid
  obtain ⟨n, hn, rfl, hn'⟩ := hs.requests a' t'.request hreq' hid'
  have hmn : m = n := message_ext hs.small hm hn (by rw [← hm', ← hn', hi, hi'])
  subst hmn
  rw [hvotes, List.singleton_inj] at hvotes'
  exact (Prod.mk.inj hvotes').2

theorem ballotInt_injective : Function.Injective ballotInt := by
  intro b b' h
  cases b <;> cases b' <;> first | rfl | cases h

theorem vote_of_ballot (h : Run P xs s) {i : ℕ}
    (hi : i < (s.contract.transactionConfigs id).cohorts) {b : Ballot}
    (hb : ballotOf s.contract id i = ballotInt b) (hne : b ≠ .unspecified) :
    ∃ k : UInt32, k.toNat = i ∧ (id, k, b) ∈ s.votes := by
  have hknown : ballotOf s.contract id i ≠ .unknown := by
    rw [hb]
    exact fun he => hne (ballotInt_injective he)
  obtain ⟨now, k, b', hx, hk, hb', _⟩ := (records_run h).counted id i hi hknown
  have hbb : b' = b := ballotInt_injective (hb'.trans hb)
  rw [hbb] at hx
  exact ⟨k, hk, (records_run h).accepted now id k b hx⟩

theorem no_commit (h : Run P xs s) (hu : Unsent id s) :
    AdapterChain.getVotingDecision s.now id s.contract ≠ some .commit := by
  intro hd
  obtain ⟨hpos, hcommit, _⟩ := decision_effect (records_run h).wellFormed hd
  obtain ⟨k, _, hv⟩ := vote_of_ballot h hpos (b := .commit) (hcommit rfl 0 hpos) (by simp)
  exact no_vote h hu k _ hv

theorem UnsubmittedInv.step (hinv : UnsubmittedInv P id xs s) {x : Action}
    {s' : State} (hr : Records xs s) (hs : Step P s x s') (hx : ¬Submits P id x) :
    UnsubmittedInv P id (xs ++ [x]) s' := by
  obtain ⟨hnever, hunsent, hlate, hclosed, hundecided⟩ := hinv
  have hnever' : ∀ y ∈ xs ++ [x], ¬Submits P id y := by
    intro y hy
    obtain hy | hy := List.mem_append.mp hy
    · exact hnever y hy
    · rwa [List.mem_singleton.mp hy]
  cases hs with
  | tick now hnow => exact ⟨hnever', hunsent, hlate, hclosed, hundecided⟩
  | commitAtomicTransaction context request hsmall ho hc =>
    subst ho
    have hu := (submitted_of_step hr.wellFormed hsmall hc).untouched hx
    refine ⟨hnever', ?_, ?_, hu.config ▸ hclosed, hundecided⟩
    · rintro a r (hp | hp)
      · exact hunsent a r hp
      · exact hu.sent a r hp
    · rintro t n (hl | hl)
      · exact hlate t n hl
      · exact hu.late t n hl
  | getTransactionResult replies hg ho => exact ⟨hnever', hunsent, hlate, hclosed, hundecided⟩
  | @lateStart contract id' abortTime n hl hc =>
    have hne : id ≠ id' := fun he => hlate abortTime n (he ▸ hl)
    have he := ((start_effect hr.wellFormed hc).others id hne).1
    exact ⟨hnever', hunsent, hlate, he ▸ hclosed, hundecided⟩
  | cohort a u hk hr' => exact ⟨hnever', hunsent, hlate, hclosed, hundecided⟩
  | vote hv hc =>
    have he := (vote_effect hr.wellFormed hc).configs id
    exact ⟨hnever', hunsent, hlate, he ▸ hclosed, hundecided⟩
  | rejectedVote hv hc => exact ⟨hnever', hunsent, hlate, hclosed, hundecided⟩
  | @getVotingDecision id' d hd =>
    refine ⟨hnever', hunsent, hlate, hclosed, ?_⟩
    rintro d' (he | hold)
    · obtain ⟨rfl, _⟩ := Prod.mk.inj he
      have hpos := (decision_effect hr.wellFormed hd).1
      exact absurd hclosed hpos.ne'
    · exact hundecided d' hold
  | cohortResult a u hr' => exact ⟨hnever', hunsent, hlate, hclosed, hundecided⟩

theorem DroppedInv.step (hinv : DroppedInv P id xs s) {x : Action} {s' : State}
    (hrun : Run P xs s) (hs : Step P s x s') (hx : ¬Submits P id x) :
    DroppedInv P id (xs ++ [x]) s' := by
  obtain ⟨⟨y, hy, hsub⟩, hunsent, hcommit⟩ := hinv
  have hsub' : ∃ z ∈ xs ++ [x], Submits P id z := ⟨y, List.mem_append_left _ hy, hsub⟩
  cases hs with
  | commitAtomicTransaction context request hsmall ho hc =>
    subst ho
    have hu := (submitted_of_step (records_run hrun).wellFormed hsmall hc).untouched hx
    refine ⟨hsub', ?_, hcommit⟩
    rintro a r (hp | hp)
    · exact hunsent a r hp
    · exact hu.sent a r hp
  | @getVotingDecision id' d hd =>
    refine ⟨hsub', hunsent, ?_⟩
    rintro (he | hold)
    · obtain ⟨rfl, rfl⟩ := Prod.mk.inj he
      exact no_commit hrun hunsent hd
    · exact hcommit hold
  | _ => exact ⟨hsub', hunsent, hcommit⟩

section Sent
variable {config : TransactionConfig} {subs : List SubTransaction}

theorem ReadsHold.transfer {n : ℕ} {s' : State} (h : ReadsHold id config n s)
    (hballots : 1 < n → ∀ i < n, ballotOf s'.contract id i = ballotOf s.contract id i)
    (hd : ∀ d, (id, d) ∈ s'.decisions → (id, d) ∈ s.decisions) (hnow : s.now ≤ s'.now) :
    ReadsHold id config n s' where
  commit hc := by
    obtain ⟨hmany, hall⟩ := h.commit (hd _ hc)
    exact ⟨hmany, fun i hi => (hballots hmany i hi).trans (hall i hi)⟩
  abort ha := by
    obtain ⟨hmany, ⟨i, hi, hb⟩ | ⟨hdeadline, i, hi, hb⟩⟩ := h.abort (hd _ ha)
    · exact ⟨hmany, .inl ⟨i, hi, (hballots hmany i hi).trans hb⟩⟩
    · exact ⟨hmany, .inr ⟨hdeadline.trans hnow, i, hi, by rwa [hballots hmany i hi]⟩⟩

theorem ReadsHold.consistent {n : ℕ} (h : ReadsHold id config n s)
    (hc : (id, .commit) ∈ s.decisions) : (id, .abort) ∉ s.decisions := by
  intro ha
  obtain ⟨_, hall⟩ := h.commit hc
  obtain ⟨_, ⟨i, hi, hb⟩ | ⟨_, i, hi, hb⟩⟩ := h.abort ha
  · cases (hall i hi).symm.trans hb
  · exact hb (hall i hi)

theorem SentInv.transfer (h : SentInv P id config subs xs s) (x : Action) {s' : State}
    (hreq : ∀ a r, (a, r) ∈ s'.prepares → r.transactionId = id → (a, r) ∈ s.prepares)
    (hlate : ∀ t n, (id, t, n) ∈ s'.lateStarts → (id, t, n) ∈ s.lateStarts)
    (hconfig : s'.contract.transactionConfigs id = s.contract.transactionConfigs id)
    (hreads : ReadsHold id config subs.length s') : SentInv P id config subs (xs ++ [x]) s' where
  submitted := by
    obtain ⟨context, request, hx, hsub⟩ := h.submitted
    exact ⟨context, request, List.mem_append_left _ hx, hsub⟩
  nonempty := h.nonempty
  nodup := h.nodup
  small := h.small
  requests a r hp hr := h.requests a r (hreq a r hp hr) hr
  noLate t n hl := h.noLate t n (hlate t n hl)
  closed hone := hconfig ▸ h.closed hone
  opened hmany := hconfig ▸ h.opened hmany
  reads := hreads

theorem SentInv.cast (h : SentInv P id config subs xs s) (hrun : Run P xs s) {C : Contract.State}
    {k : UInt32} {b : Ballot} (hv : (id, k, b) ∈ s.votes)
    (he : VoteEffect s.contract C s.now id k.toNat (ballotInt b)) (hmany : 1 < subs.length) {i : ℕ}
    (hi : i < subs.length) (hcast : ballotOf s.contract id i ≠ .unknown) :
    ballotOf C id i = ballotOf s.contract id i := by
  have hi' : i < (s.contract.transactionConfigs id).cohorts := by
    rw [h.opened hmany]
    exact hi
  rw [he.ballots id i hi']
  split_ifs with hik
  · obtain ⟨now, k', b', hx, hk', hb', _⟩ := (records_run hrun).counted id i hi' hcast
    have hkk : k' = k := UInt32.toNat_inj.mp (hk'.trans hik.2)
    rw [hkk] at hx
    rw [← hb', ballot_unique hrun h hv ((records_run hrun).accepted now id k b' hx)]
  · rfl

theorem SentInv.read (h : SentInv P id config subs xs s) (hwf : WellFormed s.contract)
    {d : VotingDecision} (hd : AdapterChain.getVotingDecision s.now id s.contract = some d) :
    1 < subs.length ∧ (d = .commit → ∀ i < subs.length, ballotOf s.contract id i = .commit) ∧
      (d = .abort → (∃ i < subs.length, ballotOf s.contract id i = .abort) ∨
        deadline config ≤ s.now ∧ ∃ i < subs.length, ballotOf s.contract id i ≠ .commit) := by
  have heffect := decision_effect hwf hd
  have hmany : 1 < subs.length := by
    by_contra hone
    have hpos := List.length_pos_iff.mpr h.nonempty
    exact heffect.1.ne' (h.closed (by omega))
  rw [h.opened hmany] at heffect
  exact ⟨hmany, heffect.2⟩

theorem SentInv.step (h : SentInv P id config subs xs s) {x : Action} {s' : State}
    (hrun : Run P xs s) (hs : Step P s x s') (hx : ¬Submits P id x) :
    SentInv P id config subs (xs ++ [x]) s' := by
  have hwf := (records_run hrun).wellFormed
  cases hs with
  | tick now hnow =>
    exact h.transfer _ (fun _ _ hp _ => hp) (fun _ _ hl => hl) rfl
      (h.reads.transfer (fun _ _ _ => rfl) (fun _ hd => hd) hnow)
  | commitAtomicTransaction context request hsmall ho hc =>
    subst ho
    have hu := (submitted_of_step hwf hsmall hc).untouched hx
    refine h.transfer _ ?_ ?_ hu.config
      (h.reads.transfer (fun _ i _ => hu.ballots i) (fun _ hd => hd) le_rfl)
    · rintro a r (hp | hp) hid
      · exact hp
      · exact absurd hid (hu.sent a r hp)
    · rintro t n (hl | hl)
      · exact hl
      · exact absurd hl (hu.late t n)
  | @lateStart contract id' abortTime n hl hc =>
    have hne : id ≠ id' := fun he => h.noLate abortTime n (he ▸ hl)
    obtain ⟨hconfig, hballots⟩ := (start_effect hwf hc).others id hne
    exact h.transfer _ (fun _ _ hp _ => hp) (fun _ _ hl => hl) hconfig
      (h.reads.transfer (fun _ i _ => hballots i) (fun _ hd => hd) le_rfl)
  | @vote contract id' k b hv hc =>
    have he := vote_effect hwf hc
    refine h.transfer _ (fun _ _ hp _ => hp) (fun _ _ hl => hl) (he.configs id) ?_
    by_cases hid : id = id'
    · subst hid
      refine ⟨?_, ?_⟩
      · intro hc
        obtain ⟨hmany, hall⟩ := h.reads.commit hc
        refine ⟨hmany, fun i hi => ?_⟩
        rw [h.cast hrun hv he hmany hi (by simp [hall i hi]), hall i hi]
      · intro ha
        obtain ⟨hmany, ⟨i, hi, hb⟩ | ⟨hdeadline, _⟩⟩ := h.reads.abort ha
        · refine ⟨hmany, .inl ⟨i, hi, ?_⟩⟩
          rw [h.cast hrun hv he hmany hi (by simp [hb]), hb]
        · have hintime := he.inTime
          rw [h.opened hmany] at hintime
          exact absurd hdeadline (not_le.mpr hintime)
    · refine h.reads.transfer (fun hmany i hi => ?_) (fun _ hd => hd) le_rfl
      rw [he.ballots id i (by rw [h.opened hmany]; exact hi), if_neg (fun hne => hid hne.1)]
  | @getVotingDecision id' d hd =>
    refine h.transfer _ (fun _ _ hp _ => hp) (fun _ _ hl => hl) rfl ?_
    by_cases hid : id = id'
    · subst hid
      obtain ⟨hmany, hcommit, habort⟩ := h.read hwf hd
      refine ⟨?_, ?_⟩
      · rintro (he | hold)
        · exact ⟨hmany, hcommit (Prod.mk.inj he).2.symm⟩
        · exact h.reads.commit hold
      · rintro (he | hold)
        · exact ⟨hmany, habort (Prod.mk.inj he).2.symm⟩
        · exact h.reads.abort hold
    · refine h.reads.transfer (fun _ _ _ => rfl) ?_ le_rfl
      rintro d' (he | hold)
      · exact absurd (Prod.mk.inj he).1 hid
      · exact hold
  | _ =>
    exact h.transfer _ (fun _ _ hp _ => hp) (fun _ _ hl => hl) rfl
      (h.reads.transfer (fun _ _ _ => rfl) (fun _ hd => hd) le_rfl)

end Sent

theorem UnsubmittedInv.submit (h : UnsubmittedInv P id xs s) {context : CommitContext}
    {request : CommitAtomicTransactionRequest} {rpcs : List Rpc} {k : Coordinator.State}
    {C : Contract.State} (hsub : Submitted P s context request rpcs k C)
    (hsmall : request.transaction.ops.length < 2 ^ 31)
    (hid : Coordinator.getTransactionId P.server.sha256 request.clientTransactionId context.peer =
      .ok id) (s' : State) (hp : s'.prepares = s.prepares ∪ sent rpcs)
    (hl : s'.lateStarts = s.lateStarts ∪ late context.blockchainStatus rpcs)
    (hC : s'.contract = C) (hd : s'.decisions = s.decisions) :
    (DroppedInv P id (xs ++ [Action.commitAtomicTransaction context request rpcs]) s' ∧
        (k = s.coordinator ∨ ∃ config, k = s.coordinator.setMetadata id
          { s.coordinator.metadata id with config := config })) ∨
      ∃ config subs, k = s.coordinator.setMetadata id
          ({ s.coordinator.metadata id with config := config }.sent subs) ∧
        SentInv P id config subs
          (xs ++ [Action.commitAtomicTransaction context request rpcs]) s' := by
  have hundecided (d : VotingDecision) : (id, d) ∉ s'.decisions := by
    rw [hd]
    exact h.undecided d
  have hdropped (hnil : messages rpcs = []) :
      DroppedInv P id (xs ++ [.commitAtomicTransaction context request rpcs]) s' := by
    refine ⟨⟨_, List.mem_append_right _ (List.mem_singleton_self _), hid⟩, ?_, hundecided _⟩
    intro a r har
    rw [hp] at har
    obtain har | ⟨m, hm, _⟩ := har
    · exact h.unsent a r har
    · rw [hnil] at hm
      cases hm
  cases hsub with
  | unchanged => exact .inl ⟨hdropped rfl, .inl rfl⟩
  | dropped hid' =>
    obtain rfl := Except.ok.inj (hid'.symm.trans hid)
    exact .inl ⟨hdropped rfl, .inr ⟨_, rfl⟩⟩
  | refused hsub hb =>
    obtain rfl := Except.ok.inj (hsub.id_eq.symm.trans hid)
    exact .inl ⟨hdropped rfl, .inr ⟨_, rfl⟩⟩
  | @sent id' config subs C hsub hb hone hmany =>
    obtain rfl : id' = id := Except.ok.inj (hsub.id_eq.symm.trans hid)
    refine .inr ⟨config, subs, rfl, ?_⟩
    exact {
      submitted := ⟨context, request, List.mem_append_right _ (List.mem_singleton_self _), hid⟩
      nonempty := hsub.nonempty
      nodup := hsub.nodup
      small := subs_length_lt hsub hsmall
      requests := by
        intro a r har hr
        rw [hp] at har
        obtain har | ⟨m, hm, he⟩ := har
        · exact absurd hr (h.unsent a r har)
        · exact ⟨m, hm, Prod.mk.inj he⟩
      noLate := by
        intro t n htn
        rw [hl, late_sent hb, Set.union_empty] at htn
        exact h.noLate t n htn
      closed := by
        intro hlen
        rw [hC, hone hlen]
        exact h.closed
      opened := by
        intro hlen
        rw [hC]
        exact (hmany hlen).config
      reads := ⟨fun hc => absurd hc (hundecided _), fun ha => absurd ha (hundecided _)⟩ }

theorem UnsubmittedInv.initial (P : Parties) (id : String) :
    UnsubmittedInv P id [] (initial P) where
  never := by simp
  unsent a r hp := absurd hp (Set.notMem_empty _)
  noLate _ _ := Set.notMem_empty _
  closed := rfl
  undecided _ := Set.notMem_empty _

theorem UnsubmittedInv.submitted (h : UnsubmittedInv P id xs s) (hrun : Run P xs s) {x : Action}
    {s' : State} (hs : Step P s x s') (hx : Submits P id x) :
    (DroppedInv P id (xs ++ [x]) s' ∧
        (s'.coordinator = s.coordinator ∨ ∃ config, s'.coordinator = s.coordinator.setMetadata id
          { s.coordinator.metadata id with config := config })) ∨
      ∃ config subs, s'.coordinator = s.coordinator.setMetadata id
          ({ s.coordinator.metadata id with config := config }.sent subs) ∧
        SentInv P id config subs (xs ++ [x]) s' := by
  cases hs with
  | commitAtomicTransaction context request hsmall ho hc =>
    subst ho
    have hsub := submitted_of_step (records_run hrun).wellFormed hsmall hc
    exact h.submit hsub hsmall hx { s with
      coordinator := _, contract := _, prepares := _, lateStarts := _ } rfl rfl rfl rfl
  | _ => cases hx

theorem StageInv.submitted {stage : Stage} (h : StageInv P id xs s stage)
    (hstage : stage ≠ .unsubmitted) : ∃ x ∈ xs, Submits P id x := by
  cases stage with
  | unsubmitted => exact absurd rfl hstage
  | dropped => exact DroppedInv.submitted h
  | sent config subs =>
    obtain ⟨context, request, hx, hsub⟩ := SentInv.submitted h
    exact ⟨_, hx, hsub⟩

theorem StageInv.step {stage : Stage} (h : StageInv P id xs s stage) {x : Action} {s' : State}
    (hrun : Run P xs s) (hs : Step P s x s') (hx : ¬Submits P id x) :
    StageInv P id (xs ++ [x]) s' stage := by
  cases stage with
  | unsubmitted => exact UnsubmittedInv.step h (records_run hrun) hs hx
  | dropped => exact DroppedInv.step h hrun hs hx
  | sent config subs => exact SentInv.step h hrun hs hx

theorem SubmittedOnce.init {x : Action} (h : SubmittedOnce P id (xs ++ [x])) :
    SubmittedOnce P id xs := (List.pairwise_append.mp h).1

theorem SubmittedOnce.unsubmitted {stage : Stage} {x : Action}
    (h : SubmittedOnce P id (xs ++ [x])) (hinv : StageInv P id xs s stage) (hx : Submits P id x) :
    stage = .unsubmitted := by
  by_contra hstage
  obtain ⟨y, hy, hsub⟩ := hinv.submitted hstage
  exact (List.pairwise_append.mp h).2.2 y hy x (List.mem_singleton_self x) ⟨hsub, hx⟩

/-- A transaction that is submitted once is in one of the stages at every point of a run. -/
theorem stage_run (h : Run P xs s) (honce : SubmittedOnce P id xs) :
    ∃ stage, StageInv P id xs s stage := by
  induction h with
  | nil => exact ⟨.unsubmitted, UnsubmittedInv.initial P id⟩
  | @snoc xs s s' x hrun hs ih =>
    obtain ⟨stage, hinv⟩ := ih honce.init
    by_cases hx : Submits P id x
    · obtain rfl := honce.unsubmitted hinv hx
      obtain ⟨hdropped, _⟩ | ⟨config, subs, _, hsent⟩ := UnsubmittedInv.submitted hinv hrun hs hx
      · exact ⟨.dropped, hdropped⟩
      · exact ⟨.sent config subs, hsent⟩
    · exact ⟨stage, hinv.step hrun hs hx⟩

theorem sent_of_thread (h : Run P xs s) {stage : Stage} (hinv : StageInv P id xs s stage)
    {a : String} {t : Cohort.Thread} (ht : (s.cohorts a).threads id = some t) :
    ∃ config subs, SentInv P id config subs xs s ∧
      ∃ m ∈ messages (submissionRpcs id config subs true), a = m.1.address ∧ t.request = m.2 := by
  have hnone (hu : Unsent id s) : False := by
    cases (no_thread h hu a).symm.trans ht
  obtain ⟨_, hid, hreq⟩ := story_at h ht
  cases stage with
  | unsubmitted => exact (hnone (UnsubmittedInv.unsent hinv)).elim
  | dropped => exact (hnone (DroppedInv.unsent hinv)).elim
  | sent config subs => exact ⟨config, subs, hinv, SentInv.requests hinv a t.request hreq hid⟩

theorem onlyCohort_message {config : TransactionConfig} {subs : List SubTransaction}
    {m : Namespace × Cohort.PrepareTransactionRequest}
    (hm : m ∈ messages (submissionRpcs id config subs true)) :
    m.2.onlyCohort = true ↔ subs.length = 1 := by
  obtain ⟨i, sub, _, rfl⟩ := getElem?_of_mem_messages hm
  by_cases hone : subs.length = 1 <;>
    simp [message, hone, Cohort.PrepareTransactionRequest.onlyCohort]

theorem alone_or_read (h : Run P xs s) {config : TransactionConfig} {subs : List SubTransaction}
    {a : String}
    {m : Namespace × Cohort.PrepareTransactionRequest}
    (hm : m ∈ messages (submissionRpcs id config subs true))
    (hmay : Cohort.MayCommit (Cohort.actionsOf id (actionsAt a xs)) m.2) :
    subs.length = 1 ∨ (id, .commit) ∈ s.decisions := by
  obtain ⟨hone, _⟩ | ⟨_, hread⟩ := hmay
  · exact .inl ((onlyCohort_message hm).mp hone)
  · rw [Cohort.mem_actionsOf, mem_actionsAt] at hread
    exact .inr ((records_run h).reads a id _ hread)

theorem SentInv.not_commit_of_mayAbort {config : TransactionConfig} {subs : List SubTransaction}
    (hs : SentInv P id config subs xs s) (h : Run P xs s) {a : String}
    {m : Namespace × Cohort.PrepareTransactionRequest}
    (hm : m ∈ messages (submissionRpcs id config subs true))
    (hmay : Cohort.MayAbort (Cohort.actionsOf id (actionsAt a xs)) m.2) :
    (id, .commit) ∉ s.decisions := by
  intro hcommit
  obtain ⟨hmany, hall⟩ := hs.reads.commit hcommit
  obtain hvote | ⟨_, hread⟩ := hmay
  · obtain ⟨i, sub, hi, hmi⟩ := getElem?_of_mem_messages hm
    have hindex : m.2.cohortIndex.toNat = i := by
      rw [hmi]
      exact cohortIndex_message hi hs.small
    have hlt : i < subs.length := (List.getElem?_eq_some_iff.mp hi).1
    have habort : (id, m.2.cohortIndex, .abort) ∈ s.votes := by
      refine ((records_run h).votes id _ _).mpr ⟨a, ?_⟩
      rw [← mem_actionsAt, ← Cohort.mem_actionsOf, ← Cohort.mem_votes, hvote]
      exact List.mem_singleton_self _
    obtain ⟨k, hk, hv⟩ := vote_of_ballot h (b := .commit)
      (by rw [hs.opened hmany]; exact hlt) (hall i hlt) (by simp)
    have hkk : k = m.2.cohortIndex := UInt32.toNat_inj.mp (hk.trans hindex.symm)
    subst hkk
    cases ballot_unique h hs hv habort
  · rw [Cohort.mem_actionsOf, mem_actionsAt] at hread
    exact hs.reads.consistent hcommit ((records_run h).reads a id _ hread)

theorem ended_at (h : Run P xs s) {a : String} {action : Cohort.Action} {e : Cohort.Ending}
    (he : action.ending = some e) (hx : .cohort a id action ∈ xs) :
    ∃ t, (s.cohorts a).threads id = some t ∧
      Cohort.Ended (Cohort.actionsOf id (actionsAt a xs)) t.request t.metadata.response ∧
      Cohort.endings (Cohort.actionsOf id (actionsAt a xs)) = [e] := by
  obtain ⟨t, ht⟩ := thread_at h hx
  obtain ⟨hstory, _, _⟩ := story_at h ht
  rw [← mem_actionsAt, ← Cohort.mem_actionsOf] at hx
  have hmem : e ∈ Cohort.endings (Cohort.actionsOf id (actionsAt a xs)) :=
    List.mem_filterMap.mpr ⟨action, hx, he⟩
  have hended : t.phase.ended := by
    by_contra hno
    rw [hstory.endings_eq_nil (by simpa using hno)] at hmem
    cases hmem
  have hend := hstory.ended hended
  refine ⟨t, ht, hend, ?_⟩
  obtain ⟨hone, _⟩ | ⟨hone, _⟩ := hend <;>
  · rw [hone, List.mem_singleton] at hmem
    rw [hone, hmem]

/-- No two cohorts of a transaction end it differently. -/
theorem cohorts_agree (h : Run P xs s) (honce : SubmittedOnce P id xs) {a b : String}
    (hc : .cohort a id (.commit none) ∈ xs) : .cohort b id .abort ∉ xs := by
  intro ha
  obtain ⟨t, ht, hended, hcommitted⟩ := ended_at h rfl hc
  obtain ⟨u, hu, hended', haborted⟩ := ended_at h rfl ha
  have hmayCommit : Cohort.MayCommit (Cohort.actionsOf id (actionsAt a xs)) t.request := by
    obtain ⟨_, hmay, _⟩ | ⟨hno, _⟩ := hended
    · exact hmay
    · cases hcommitted.symm.trans hno
  have hmayAbort : Cohort.MayAbort (Cohort.actionsOf id (actionsAt b xs)) u.request := by
    obtain ⟨hno, _⟩ | ⟨_, hmay, _⟩ := hended'
    · cases haborted.symm.trans hno
    · exact hmay
  obtain ⟨stage, hinv⟩ := stage_run h honce
  obtain ⟨config, subs, hs, m, hm, rfl, hmt⟩ := sent_of_thread h hinv ht
  obtain ⟨_, hid, hreq⟩ := story_at h hu
  obtain ⟨n, hn, rfl, hnu⟩ := hs.requests b u.request hreq hid
  rw [hmt] at hmayCommit
  rw [hnu] at hmayAbort
  obtain hone | hread := alone_or_read h hm hmayCommit
  · obtain ⟨i, sub, hi, hmi⟩ := getElem?_of_mem_messages hm
    obtain ⟨j, sub', hj, hnj⟩ := getElem?_of_mem_messages hn
    have hij : i = j := by
      have hi' := (List.getElem?_eq_some_iff.mp hi).1
      have hj' := (List.getElem?_eq_some_iff.mp hj).1
      omega
    subst hij
    obtain rfl := Option.some.inj (hi.symm.trans hj)
    rw [hmi, ← hnj, haborted] at hcommitted
    cases hcommitted
  · exact hs.not_commit_of_mayAbort h hn hmayAbort hread

theorem start_mem_submissionRpcs {u : String} {config : TransactionConfig}
    {subs : List SubTransaction} {abortTime : ℤ} {n : ℕ}
    (h : .startVoting id abortTime n ∈ submissionRpcs u config subs true) :
    id = u ∧ 1 < subs.length ∧ n = subs.length ∧
      abortTime = Clock.toTimeT (Clock.ofTimestamp config.presumedAbortTime) := by
  obtain h | h := List.mem_append.mp h
  · split_ifs at h with hmany
    · obtain ⟨rfl, rfl, rfl⟩ := Rpc.startVoting.inj (List.mem_singleton.mp h)
      exact ⟨rfl, hmany, rfl, rfl⟩
    · cases h
  · cases Coordinator.started_prepareRequests h

theorem Submitted.id_of_start {context : CommitContext} {request : CommitAtomicTransactionRequest}
    {rpcs : List Rpc} {k : Coordinator.State} {C : Contract.State} {abortTime : ℤ} {n : ℕ}
    (h : Submitted P s context request rpcs k C) (hstart : .startVoting id abortTime n ∈ rpcs) :
    Coordinator.getTransactionId P.server.sha256 request.clientTransactionId context.peer =
      .ok id := by
  cases h with
  | unchanged => cases hstart
  | dropped hid => cases hstart
  | refused hsub hb =>
    obtain ⟨rfl, _⟩ := Rpc.startVoting.inj (List.mem_singleton.mp hstart)
    exact hsub.id_eq
  | sent hsub hb hone hmany =>
    obtain ⟨rfl, _⟩ := start_mem_submissionRpcs hstart
    exact hsub.id_eq

theorem submits_of_start (h : Run P xs s) {context : CommitContext}
    {request : CommitAtomicTransactionRequest} {rpcs : List Rpc} {abortTime : ℤ} {n : ℕ}
    (hx : .commitAtomicTransaction context request rpcs ∈ xs)
    (hstart : .startVoting id abortTime n ∈ rpcs) :
    Submits P id (.commitAtomicTransaction context request rpcs) := by
  obtain ⟨ys, zs, rfl⟩ := List.append_of_mem hx
  obtain ⟨m, m', hrun, hs, _⟩ := h.at
  cases hs with
  | commitAtomicTransaction context request hsmall ho hc =>
    subst ho
    exact (submitted_of_step (records_run hrun).wellFormed hsmall hc).id_of_start hstart

/-- The COMMIT ballots of all the cohorts of a submission were cast, and accepted in time. -/
structure AllVotedCommit (id : String) (rpcs : List Rpc) (abortTime : ℤ) (n : ℕ)
    (ys : List Action) : Prop where
  indices : (messages rpcs).map (fun m => m.2.cohortIndex.toNat) = List.range n
  cast : ∀ m ∈ messages rpcs, .cohort m.1.address id (.vote m.2.cohortIndex .commit) ∈ ys
  accepted : ∀ m ∈ messages rpcs, ∃ now : ℕ, (now : ℤ) < abortTime ∧
    .vote now id m.2.cohortIndex .commit ∈ ys

/-- No cohort of the transaction commits where another aborts, and none commits before all have
voted COMMIT in time. -/
structure AtomicCommit (id : String) (xs : List Action) : Prop where
  agree : ∀ a b, .cohort a id (.commit none) ∈ xs → .cohort b id .abort ∉ xs
  unanimous : ∀ ys a zs, xs = ys ++ .cohort a id (.commit none) :: zs →
    ∀ context request rpcs abortTime n, .commitAtomicTransaction context request rpcs ∈ xs →
      .startVoting id abortTime n ∈ rpcs → AllVotedCommit id rpcs abortTime n ys

theorem SubmittedOnce.eq (h : SubmittedOnce P id xs) {x y : Action} (hx : x ∈ xs) (hy : y ∈ xs)
    (hsx : Submits P id x) (hsy : Submits P id y) : x = y := by
  by_contra hne
  have : Std.Symm fun x y => ¬(Submits P id x ∧ Submits P id y) :=
    ⟨fun _ _ hno hand => hno hand.symm⟩
  exact h.forall hx hy hne ⟨hsx, hsy⟩

/-- A COMMIT that a cohort has read was voted by all, in time. -/
theorem SentInv.allVotedCommit {config : TransactionConfig} {subs : List SubTransaction}
    (hs : SentInv P id config subs xs s) (h : Run P xs s) (hread : (id, .commit) ∈ s.decisions) :
    AllVotedCommit id (submissionRpcs id config subs true)
      (Clock.toTimeT (Clock.ofTimestamp config.presumedAbortTime)) subs.length xs := by
  obtain ⟨hmany, hall⟩ := hs.reads.commit hread
  have hvote {m : Namespace × Cohort.PrepareTransactionRequest}
      (hm : m ∈ messages (submissionRpcs id config subs true)) :
      ∃ now, now < deadline config ∧ .vote now id m.2.cohortIndex .commit ∈ xs := by
    obtain ⟨i, sub, hi, hmi⟩ := getElem?_of_mem_messages hm
    have hindex : m.2.cohortIndex.toNat = i := by
      rw [hmi]
      exact cohortIndex_message hi hs.small
    have hlt : i < subs.length := (List.getElem?_eq_some_iff.mp hi).1
    have hconfig := hs.opened hmany
    obtain ⟨now, k, b, hx, hk, hb, hintime⟩ := (records_run h).counted id i
      (by rw [hconfig]; exact hlt) (by simp [hall i hlt])
    rw [hall i hlt] at hb
    obtain rfl : b = .commit := ballotInt_injective hb
    obtain rfl : k = m.2.cohortIndex := UInt32.toNat_inj.mp (hk.trans hindex.symm)
    rw [hconfig] at hintime
    exact ⟨now, hintime, hx⟩
  refine ⟨Coordinator.indices_messages id config hmany hs.small, ?_, ?_⟩
  · intro m hm
    obtain ⟨now, _, hx⟩ := hvote hm
    obtain ⟨a, t, _, hreq, hid, hindex, hvotes⟩ :=
      voter h ((records_run h).accepted now id _ _ hx)
    obtain ⟨n, hn, rfl, hnt⟩ := hs.requests a t.request hreq hid
    obtain rfl : m = n := message_ext hs.small hm hn (by rw [← hnt, hindex])
    rw [← mem_actionsAt, ← Cohort.mem_actionsOf, ← Cohort.mem_votes, hvotes]
    exact List.mem_singleton_self _
  · intro m hm
    obtain ⟨now, hintime, hx⟩ := hvote hm
    exact ⟨now, Int.lt_toNat.mp hintime, hx⟩

/-- Atomic commit across the cohorts of a transaction that is submitted once, in every order of
the steps of all parties. -/
theorem atomic_commit (h : Run P xs s) (honce : SubmittedOnce P id xs) : AtomicCommit id xs where
  agree a b hc := cohorts_agree h honce hc
  unanimous := by
    rintro ys a zs rfl context request rpcs abortTime n hx hstart
    obtain ⟨m, m', hrun, hs, _⟩ := h.at
    have honce' : SubmittedOnce P id ys := (List.pairwise_append.mp honce).1
    obtain ⟨stage, hinv⟩ := stage_run hrun honce'
    cases hs with
    | cohort a id hk hr =>
      cases hk with
      | commit ht =>
        obtain ⟨config, subs, hsent, m, hm, _, hreq⟩ := sent_of_thread hrun hinv ht
        have hmay := (story_at hrun ht).1.phase.2
        obtain ⟨context', request', hx', hsub'⟩ := hsent.submitted
        have hsame := honce.eq hx (List.mem_append_left _ hx') (submits_of_start h hx hstart) hsub'
        obtain ⟨_, _, rfl⟩ := Action.commitAtomicTransaction.inj hsame
        obtain ⟨_, hmany, rfl, rfl⟩ := start_mem_submissionRpcs hstart
        refine hsent.allVotedCommit hrun ?_
        obtain hone | hread := alone_or_read hrun hm (hreq ▸ hmay)
        · omega
        · exact hread

end Run

def localParties : Parties := ⟨Coordinator.localServer, fun _ => Cohort.localAdapter, fun _ _ => none⟩

def putAt (address : String) : Operation :=
  ⟨⟨"", address⟩, some (.put ⟨"k", some (.constantValue ⟨some 5⟩)⟩)⟩

def twoPuts : CommitAtomicTransactionRequest :=
  ⟨"id", ⟨[putAt "cohort:50052", putAt "cohort:50053"]⟩, ⟨none⟩⟩

def putFor (i : UInt32) (address : String) : Cohort.PrepareTransactionRequest :=
  ⟨localId, ⟨[putAt address]⟩, ⟨some ⟨110, 0⟩⟩, some (.cohortIndex i)⟩

def prepareActions (i : UInt32) (address : String) : List Action :=
  [.cohort address localId (.start (putFor i address)), .cohort address localId (.lock true),
    .cohort address localId (.begin none), .cohort address localId (.operate none),
    .cohort address localId .endOperations, .cohort address localId (.persistResponse true),
    .cohort address localId (.persistRequest true),
    .cohort address localId (.vote (putFor i address).cohortIndex .commit),
    .vote 0 localId (putFor i address).cohortIndex .commit]

def twoPutsActions : List Action :=
  [.commitAtomicTransaction localContext twoPuts [.startVoting localId 110 2,
    .prepareTransaction ⟨"", "cohort:50052"⟩ (putFor 0 "cohort:50052"),
    .prepareTransaction ⟨"", "cohort:50053"⟩ (putFor 1 "cohort:50053")]] ++
  prepareActions 0 "cohort:50052" ++ prepareActions 1 "cohort:50053" ++
  [.getVotingDecision localId .commit, .cohort "cohort:50052" localId (.poll (some .commit)),
    .cohort "cohort:50052" localId (.commit none)]

theorem noFault (op : Operation) (status : Status) (h : none = some status) :
    Cohort.Fault op status := by
  cases h

theorem twoPuts_run : ∃ s, Run localParties twoPutsActions s := by
  refine ⟨_, .cons (.commitAtomicTransaction localContext twoPuts (by decide) rfl rfl)
    (.cons (.cohort _ _ (.start (putFor 0 "cohort:50052") Cohort.keyOrders rfl rfl)
      (.inr ⟨(⟨"", "cohort:50052"⟩, putFor 0 "cohort:50052"), .head _, rfl⟩))
    (.cons (.cohort _ _ (.lock true rfl rfl) trivial)
    (.cons (.cohort _ _ (.begin rfl) trivial)
    (.cons (.cohort _ _ (.operate rfl (noFault _)) trivial)
    (.cons (.cohort _ _ (.endOperations rfl) trivial)
    (.cons (.cohort _ _ (.persistResponse true rfl) trivial)
    (.cons (.cohort _ _ (.persistRequest true rfl) trivial)
    (.cons (.cohort _ _ (.vote rfl) trivial)
    (.cons (.vote (.inr rfl) rfl)
    (.cons (.cohort _ _ (.start (putFor 1 "cohort:50053") Cohort.keyOrders rfl rfl)
      (.inr ⟨(⟨"", "cohort:50053"⟩, putFor 1 "cohort:50053"), .tail _ (.head _), rfl⟩))
    (.cons (.cohort _ _ (.lock true rfl rfl) trivial)
    (.cons (.cohort _ _ (.begin rfl) trivial)
    (.cons (.cohort _ _ (.operate rfl (noFault _)) trivial)
    (.cons (.cohort _ _ (.endOperations rfl) trivial)
    (.cons (.cohort _ _ (.persistResponse true rfl) trivial)
    (.cons (.cohort _ _ (.persistRequest true rfl) trivial)
    (.cons (.cohort _ _ (.vote rfl) trivial)
    (.cons (.vote (.inr rfl) rfl)
    (.cons (.getVotingDecision (by decide))
    (.cons (.cohort _ _ (.pollCommit rfl) (.inl rfl))
    (.cons (.cohort _ _ (.commit rfl) trivial) .nil)))))))))))))))))))))⟩

theorem submittedOnce_of_tail {P : Parties} {id : String} {xs : List Action}
    (h : ∀ x ∈ xs.tail, ¬Submits P id x) : SubmittedOnce P id xs := by
  cases xs with
  | nil => exact .nil
  | cons x xs =>
    refine .cons (fun y hy hxy => h y hy hxy.2) (List.pairwise_of_forall_mem_list ?_)
    exact fun y hy z _ hyz => h y hy hyz.1

/-- The hypotheses of `atomic_commit` hold on a run in which one of two cohorts has committed. -/
theorem atomic_commit_two_puts : AtomicCommit localId twoPutsActions := by
  obtain ⟨s, h⟩ := twoPuts_run
  exact atomic_commit h
    (submittedOnce_of_tail (by simp [Submits, twoPutsActions, prepareActions]))

end TwoPhaseCommit.System
