import TwoPhaseCommit.CoordinatorAnswers

/-! The results of a committed transaction are merged exactly once, however many polls it takes
to get them from its cohorts. -/
namespace TwoPhaseCommit.Coordinator
open AdapterChain.Blockchain (VotingDecision)

/-- What the polls of a transaction have brought so far: whether one was told COMMIT, and the
answers of its cohorts in the order they came. -/
structure Merge where
  decided : Bool := false
  answers : List Answer := []

def Merge.answered (g : Merge) : List String := g.answers.map Prod.fst

def Merge.getResponses (g : Merge) : List GetResponse := g.answers.flatMap fun a => a.2.getResponses

def Replies.commits (replies : Replies) : Bool :=
  match replies.votingDecision with
  | .ok .commit => true
  | _ => false

def Merge.poll (cohorts : List Namespace) (replies : Replies) (g : Merge) : Merge :=
  if g.decided || replies.commits then
    ⟨true, g.answers ++ newAnswers replies.transactionResult g.answered cohorts 0⟩
  else g

def Merge.requests (cohorts : List Namespace) (id : String) (replies : Replies) (g : Merge) :
    List Rpc :=
  if g.decided || replies.commits then asked id g.answered cohorts else []

def Merge.call (cohorts : List Namespace) (id : String) (g : Merge) : Call → Merge
  | .getTransactionResult replies id' => if id' = id then g.poll cohorts replies else g
  | .commitAtomicTransaction _ _ => g

def merge (cohorts : List Namespace) (id : String) (calls : List Call) : Merge :=
  calls.foldl (Merge.call cohorts id) {}

def Merge.AllAnswered (g : Merge) (cohorts : List Namespace) : Prop :=
  ∀ n ∈ cohorts, n.address ∈ g.answered

instance (g : Merge) (cohorts : List Namespace) : Decidable (g.AllAnswered cohorts) :=
  inferInstanceAs (Decidable (∀ n ∈ cohorts, n.address ∈ g.answered))

/-- The response that the answers so far make up. -/
def Merge.response (g : Merge) (cohorts : List Namespace) : GetTransactionResultResponse :=
  if g.answers = [] then none
  else some (.committedResponse ⟨decide (g.AllAnswered cohorts), ⟨g.getResponses⟩⟩)

structure Collects (cohorts : List Namespace) (g : Merge) (m : TransactionMetadata) : Prop where
  sent : m.possiblySentToAllCohorts = true
  many : m.singleCohortNamespace = none
  cohorts : m.cohortNamespaces = cohorts
  responded : ∀ a, a ∈ m.cohortsAlreadyResponded ↔ a ∈ g.answered
  decision : if g.decided then m.decision = .commit
    else m.decision = .pending ∨ m.decision = .unknown

structure Merged (cohorts : List Namespace) (g : Merge)
    (record : Option TransactionMetadata × TransactionResponse) : Prop where
  distinct : g.answered.Nodup
  known : ∀ a ∈ g.answered, a ∈ cohorts.map Namespace.address
  undecided : g.decided = false → g.answers = []
  response : record.2 = ⟨decide (g.AllAnswered cohorts), g.response cohorts⟩
  collects : ¬g.AllAnswered cohorts → ∃ m, record.1 = some m ∧ Collects cohorts g m

section Merged
variable {cohorts : List Namespace} {g : Merge} {s : State} {id : String}

theorem Merge.allAnswered_nonempty (hne : cohorts ≠ []) (h : g.AllAnswered cohorts) :
    g.answers ≠ [] := by
  obtain ⟨n, rest, rfl⟩ := List.exists_cons_of_ne_nil hne
  have hn : n.address ∈ g.answered := h n List.mem_cons_self
  intro hnil
  simp [answered, hnil] at hn

theorem newAnswers_of_allAnswered {reply : ℕ → CohortReply} (h : g.AllAnswered cohorts) :
    newAnswers reply g.answered cohorts 0 = [] := by
  rw [List.eq_nil_iff_forall_not_mem]
  rintro ⟨a, r⟩ ha
  obtain ⟨hno, j, hj, _⟩ := Gather.mem_round.mp ha
  obtain ⟨n, hn, rfl⟩ := List.mem_map.mp (List.mem_of_getElem? hj)
  exact hno (h n hn)

theorem asked_of_allAnswered (h : g.AllAnswered cohorts) : asked id g.answered cohorts = [] := by
  have hnone : cohorts.filter (fun n => n.address ∉ g.answered) = [] := by
    rw [List.filter_eq_nil_iff]
    intro n hn
    simpa using h n hn
  rw [asked, hnone]
  rfl

theorem Merged.poll_of_allAnswered {record : Option TransactionMetadata × TransactionResponse}
    (h : Merged cohorts g record) (hne : cohorts ≠ []) (hall : g.AllAnswered cohorts)
    (replies : Replies) :
    g.poll cohorts replies = g ∧ ∀ id, g.requests cohorts id replies = [] := by
  have hdecided : g.decided = true := by
    rw [← Bool.not_eq_false]
    intro hf
    exact Merge.allAnswered_nonempty hne hall (h.undecided hf)
  obtain ⟨decided, answers⟩ := g
  obtain rfl : decided = true := hdecided
  refine ⟨?_, ?_⟩
  · rw [Merge.poll, if_pos (by simp), newAnswers_of_allAnswered hall, List.append_nil]
  · intro id
    rw [Merge.requests, if_pos (by simp), asked_of_allAnswered hall]

theorem Merged.poll_answered {record : Option TransactionMetadata × TransactionResponse}
    (h : Merged cohorts g record) (hnodup : (cohorts.map Namespace.address).Nodup)
    (reply : ℕ → CohortReply) :
    (g.answered ++ (newAnswers reply g.answered cohorts 0).map Prod.fst).Nodup ∧
      ∀ a ∈ g.answered ++ (newAnswers reply g.answered cohorts 0).map Prod.fst,
        a ∈ cohorts.map Namespace.address := by
  refine ⟨Gather.nodup_append_round h.distinct hnodup, ?_⟩
  intro a ha
  obtain ha | ha := List.mem_append.mp ha
  · exact h.known a ha
  · exact (Gather.mem_asked.mp (Gather.keys_sublist.subset ha)).1

theorem addAnswers_response (hincomplete : ¬g.AllAnswered cohorts) (new : List Answer) :
    addAnswers (g.response cohorts) new =
      if g.answers ++ new = [] then none
      else some (.committedResponse
        ⟨false, ⟨(g.answers ++ new).flatMap fun a => a.2.getResponses⟩⟩) := by
  have hmutable : mutableCommittedResponse (g.response cohorts) = ⟨false, ⟨g.getResponses⟩⟩ := by
    unfold Merge.response Merge.getResponses
    split_ifs with hnil
    · rw [hnil]
      rfl
    · rw [decide_eq_false hincomplete]
      rfl
  rw [addAnswers_eq, gathered, hmutable, List.flatMap_append]
  by_cases hnil : new = []
  · rw [if_pos hnil, hnil, List.append_nil, Merge.response, decide_eq_false hincomplete]
    simp [Merge.getResponses]
  · rw [if_neg hnil, if_neg (by simp [hnil])]
    rfl

theorem knownDecision_of_decided {m : TransactionMetadata} (h : Collects cohorts g m)
    {replies : Replies} (hd : (g.decided || replies.commits) = true) :
    knownDecision m replies = .ok .commit := by
  unfold knownDecision
  have hdecision := h.decision
  split_ifs at hdecision with hg
  · rw [if_neg (by simp [hdecision]), hdecision]
  · rw [if_pos hdecision]
    have hcommits : replies.commits = true := by simpa [hg] using hd
    unfold Replies.commits at hcommits
    split at hcommits
    · assumption
    · cases hcommits

theorem knownDecision_of_undecided {m : TransactionMetadata} (h : Collects cohorts g m)
    {replies : Replies} (hd : (g.decided || replies.commits) = false)
    (hcommit : replies.votingDecision ≠ .ok .abort) :
    ∀ d, knownDecision m replies = .ok d → d = .pending ∨ d = .unknown := by
  obtain ⟨hg, hcommits⟩ := Bool.or_eq_false_iff.mp hd
  have hdecision := h.decision
  rw [if_neg (by simp [hg])] at hdecision
  intro d hk
  rw [knownDecision, if_pos hdecision] at hk
  cases d with
  | unknown => exact .inr rfl
  | pending => exact .inl rfl
  | abort => exact absurd hk hcommit
  | commit => simp [Replies.commits, hk] at hcommits

theorem not_mem_decisionRpcs (m : TransactionMetadata) (id id' : String) (n : Namespace) :
    .getTransactionResult n id' ∉ decisionRpcs m id := by
  unfold decisionRpcs
  split_ifs <;> simp

theorem Merged.poll_decided (h : Merged cohorts g (s.record id)) (hne : cohorts ≠ [])
    (hnodup : (cohorts.map Namespace.address).Nodup) (hall : ¬g.AllAnswered cohorts)
    {m : TransactionMetadata} (hc : Collects cohorts g m) (reply : ℕ → CohortReply) :
    let o := respondToDecision id reply .commit (s.setMetadata id { m with decision := .commit })
    Merged cohorts ⟨true, g.answers ++ newAnswers reply g.answered cohorts 0⟩ (o.state.record id) ∧
      o.rpcs = asked id g.answered cohorts ∧ o.status = .okStatus ∧
      o.response = (o.state.responseByTransaction id).response := by
  obtain ⟨hsent, hmany, rfl, hresponded, _⟩ := hc
  have hmeta : (s.setMetadata id { m with decision := .commit }).metadata id =
      { m with decision := .commit } := by simp
  have hresponse : s.responseByTransaction id = ⟨false, g.response m.cohortNamespaces⟩ := by
    have hr : s.responseByTransaction id = _ := h.response
    rw [hr, decide_eq_false hall]
  have hcongr : ∀ n ∈ m.cohortNamespaces,
      (n.address ∈ m.cohortsAlreadyResponded ↔ n.address ∈ g.answered) :=
    fun n _ => hresponded n.address
  obtain ⟨hrpcs, hok, hanswer, hrecord⟩ := respondToDecision_commit id reply
    (by rw [hmeta]; exact hnodup)
  rw [hmeta, State.response_setMetadata, hresponse] at hrecord
  rw [hmeta] at hrpcs
  dsimp only at hrpcs hrecord
  rw [asked_congr hcongr] at hrpcs
  rw [newAnswers_congr hcongr, addAnswers_response hall] at hrecord
  obtain ⟨hdistinct, hknown⟩ := h.poll_answered hnodup reply
  generalize newAnswers reply g.answered m.cohortNamespaces 0 = new at *
  generalize hg' : (⟨true, g.answers ++ new⟩ : Merge) = g'
  have hanswers : g'.answers = g.answers ++ new := by rw [← hg']
  have hanswered : g'.answered = g.answered ++ new.map Prod.fst := by
    rw [Merge.answered, hanswers, List.map_append]
    rfl
  have hfull : (∀ n ∈ m.cohortNamespaces,
      n.address ∈ m.cohortsAlreadyResponded ++ new.map Prod.fst) ↔
      g'.AllAnswered m.cohortNamespaces := by
    unfold Merge.AllAnswered
    rw [hanswered]
    refine forall₂_congr ?_
    intro n hn
    rw [List.mem_append, List.mem_append, hcongr n hn]
  rw [if_congr hfull rfl rfl, ← hanswers] at hrecord
  refine ⟨⟨hanswered ▸ hdistinct, hanswered ▸ hknown, ?_, ?_, ?_⟩, hrpcs, hok, hanswer⟩
  · intro hf
    rw [← hg'] at hf
    cases hf
  · rw [hrecord]
    split_ifs with hall' hnil hnil
    · exact absurd hnil (Merge.allAnswered_nonempty hne hall')
    · rw [Merge.response, if_neg hnil, decide_eq_true hall']
      rfl
    · rw [Merge.response, if_pos hnil, decide_eq_false hall']
    · rw [Merge.response, if_neg hnil, decide_eq_false hall']
      rfl
  · intro hall'
    rw [hrecord, if_neg hall']
    refine ⟨_, rfl, hsent, hmany, rfl, ?_, ?_⟩
    · intro a
      rw [hanswered, List.mem_append, List.mem_append, List.mem_reverse, hresponded a, or_comm]
    · rw [← hg']
      exact rfl

theorem Merged.poll (h : Merged cohorts g (s.record id)) (hne : cohorts ≠ [])
    (hnodup : (cohorts.map Namespace.address).Nodup) (replies : Replies)
    (hcommit : replies.votingDecision ≠ .ok .abort) :
    let o := getTransactionResult replies id s
    Merged cohorts (g.poll cohorts replies) (o.state.record id) ∧
      (∀ n, .getTransactionResult n id ∈ o.rpcs ↔
        .getTransactionResult n id ∈ g.requests cohorts id replies) ∧
      ((g.poll cohorts replies).decided → o.status = .okStatus ∧
        o.response = (o.state.responseByTransaction id).response) := by
  by_cases hall : g.AllAnswered cohorts
  · obtain ⟨hpoll, hrequests⟩ := h.poll_of_allAnswered hne hall replies
    have hcomplete : (s.responseByTransaction id).complete = true := by
      have hresponse : s.responseByTransaction id = _ := h.response
      rw [hresponse]
      exact decide_eq_true hall
    rw [hpoll, hrequests, getTransactionResult_complete hcomplete]
    exact ⟨h, fun n => Iff.rfl, fun _ => ⟨rfl, rfl⟩⟩
  · obtain ⟨m, hm, hc⟩ := h.collects hall
    have hm' : s.metadataByTransaction id = some m := hm
    have hincomplete : (s.responseByTransaction id).complete = false := by
      have hresponse : s.responseByTransaction id = _ := h.response
      rw [hresponse]
      exact decide_eq_false hall
    rw [getTransactionResult_multi hincomplete hm' hc.many]
    cases hd : g.decided || replies.commits with
    | true =>
      rw [knownDecision_of_decided hc hd, Merge.poll, Merge.requests, if_pos hd, if_pos hd]
      obtain ⟨hmerged, hrpcs, hok, hanswer⟩ :=
        h.poll_decided hne hnodup hall hc replies.transactionResult
      refine ⟨hmerged, ?_, fun _ => ⟨hok, hanswer⟩⟩
      intro n
      dsimp only
      rw [hrpcs, List.mem_append, or_iff_right (not_mem_decisionRpcs m id id n)]
    | false =>
      have hd' : ¬(g.decided || replies.commits) = true := by simp [hd]
      rw [Merge.poll, Merge.requests, if_neg hd', if_neg hd']
      have hundecided := knownDecision_of_undecided hc hd hcommit
      cases hk : knownDecision m replies with
      | error status =>
        refine ⟨h, ?_, fun hdecided => by simp [hdecided] at hd'⟩
        intro n
        exact iff_of_false (not_mem_decisionRpcs m id id n) List.not_mem_nil
      | ok d =>
        have hrecord : (s.setMetadata id { m with decision := d }).record id =
            (some { m with decision := d }, (s.record id).2) := by simp [State.record]
        have hg : g.decided = false := (Bool.or_eq_false_iff.mp hd).1
        have hmerged : Merged cohorts g ((s.setMetadata id { m with decision := d }).record id) := by
          rw [hrecord]
          refine ⟨h.distinct, h.known, h.undecided, h.response, fun _ => ⟨_, rfl, ?_⟩⟩
          refine ⟨hc.sent, hc.many, hc.cohorts, hc.responded, ?_⟩
          rw [if_neg (by simp [hg])]
          exact hundecided d hk
        have hnone : respondToDecision id replies.transactionResult d
            (s.setMetadata id { m with decision := d }) =
            ⟨s.setMetadata id { m with decision := d }, [], .okStatus, some .pendingResponse⟩ := by
          obtain rfl | rfl := hundecided d hk <;> rfl
        dsimp only
        rw [hnone]
        refine ⟨hmerged, ?_, fun hdecided => by simp [hg] at hdecided⟩
        intro n
        rw [List.append_nil]
        exact iff_of_false (not_mem_decisionRpcs m id id n) List.not_mem_nil

theorem Merged.commit {server : Server} {context : CommitContext}
    {request : CommitAtomicTransactionRequest} (h : Merged cohorts g (s.record id)) :
    Merged cohorts g ((commitAtomicTransaction server context request s).state.record id) := by
  obtain hst | ⟨id', config, m, hst, hm⟩ := commit_cases server context request s
  · rwa [hst]
  · rw [hst]
    by_cases hid : id = id'
    · subst hid
      have hrecord : (s.setMetadata id m).record id = (some m, (s.record id).2) := by
        simp [State.record]
      rw [hrecord]
      refine ⟨h.distinct, h.known, h.undecided, h.response, ?_⟩
      intro hall
      obtain ⟨old, hold, hc⟩ := h.collects hall
      have hmeta : s.metadata id = old := State.metadata_of_some hold
      rw [hmeta] at hm
      obtain rfl | ⟨hunsent, _⟩ := hm
      · exact ⟨_, rfl, hc.sent, hc.many, hc.cohorts, hc.responded, hc.decision⟩
      · cases hunsent.symm.trans hc.sent
    · rw [record_setMetadata hid]
      exact h

theorem Merged.call {server : Server} (h : Merged cohorts g (s.record id)) (hne : cohorts ≠ [])
    (hnodup : (cohorts.map Namespace.address).Nodup) {c : Call}
    (hcommit : ∀ replies, c = .getTransactionResult replies id →
      replies.votingDecision ≠ .ok .abort) :
    Merged cohorts (g.call cohorts id c) ((c.handle server s).1.record id) := by
  cases c with
  | commitAtomicTransaction context request => exact h.commit
  | getTransactionResult replies id' =>
    rw [Merge.call]
    by_cases hid : id' = id
    · subst hid
      rw [if_pos rfl]
      exact (h.poll hne hnodup replies (hcommit replies rfl)).1
    · rw [if_neg hid]
      change Merged cohorts g ((getTransactionResult replies id' s).state.record id)
      rw [record_getTransactionResult (Ne.symm hid)]
      exact h

end Merged

theorem asks_own {replies : Replies} {id id' : String} {s : State} {n : Namespace}
    (h : .getTransactionResult n id' ∈ (getTransactionResult replies id s).rpcs) : id' = id := by
  cases hc : (s.responseByTransaction id).complete with
  | true =>
    rw [getTransactionResult_complete hc] at h
    cases h
  | false =>
    cases hm : s.metadataByTransaction id with
    | none =>
      rw [getTransactionResult_notFound hc hm] at h
      cases h
    | some m =>
      cases hs : m.singleCohortNamespace with
      | some n' =>
        rw [getTransactionResult_single hc hm hs] at h
        cases List.mem_singleton.mp h
        rfl
      | none =>
        rw [getTransactionResult_multi hc hm hs] at h
        cases hk : knownDecision m replies with
        | error status =>
          rw [hk] at h
          exact absurd h (not_mem_decisionRpcs m id id' n)
        | ok d =>
          rw [hk] at h
          obtain h | h := List.mem_append.mp h
          · exact absurd h (not_mem_decisionRpcs m id id' n)
          · obtain ⟨n', he⟩ := mem_respondToDecision h
            cases he
            rfl

theorem commit_asks_nothing (server : Server) (context : CommitContext)
    (request : CommitAtomicTransactionRequest) (s : State) (n : Namespace) (id : String) :
    .getTransactionResult n id ∉ (commitAtomicTransaction server context request s).rpcs := by
  intro h
  cases hs : Call.toSend server s (.commitAtomicTransaction context request) with
  | none =>
    rw [(commit_of_none hs).1] at h
    cases h
  | some sent =>
    obtain ⟨id', config, subs⟩ := sent
    obtain ⟨sends, _, hrpcs, _⟩ := sends_of_some hs
    have hmem : .getTransactionResult n id ∈ submissionRpcs id' config subs sends := hrpcs ▸ h
    obtain hmem | hmem := List.mem_append.mp hmem
    · split_ifs at hmem
      · cases List.mem_singleton.mp hmem
      · cases hmem
    · split_ifs at hmem
      · obtain ⟨p, _, he⟩ := List.mem_map.mp hmem
        cases he
      · cases hmem

/-- What the coordinator knows of a transaction sent to cohorts, and does next, after the calls
polls: the response is the merge of the answers so far, complete when all are there, and no
cohort that has answered is asked again. -/
structure MergedOnce (server : Server) (cohorts : List Namespace) (id : String)
    (polls : List Call) (s : State) : Prop where
  distinct : (merge cohorts id polls).answered.Nodup
  known : ∀ a ∈ (merge cohorts id polls).answered, a ∈ cohorts.map Namespace.address
  response : s.responseByTransaction id =
    ⟨decide ((merge cohorts id polls).AllAnswered cohorts), (merge cohorts id polls).response cohorts⟩
  asks : ∀ replies, replies.votingDecision ≠ .ok .abort → ∀ n,
    .getTransactionResult n id ∈ (getTransactionResult replies id s).rpcs ↔
      .getTransactionResult n id ∈ (merge cohorts id polls).requests cohorts id replies
  notAskedAgain : ∀ c : Call, (∀ replies, c = .getTransactionResult replies id →
      replies.votingDecision ≠ .ok .abort) → ∀ n,
    .getTransactionResult n id ∈ (c.handle server s).2 →
      n.address ∉ (merge cohorts id polls).answered
  answer : ∀ replies, replies.votingDecision ≠ .ok .abort →
    ((merge cohorts id polls).poll cohorts replies).decided →
    let o := getTransactionResult replies id s
    o.status = .okStatus ∧ o.response = (o.state.responseByTransaction id).response

theorem Merged.once {server : Server} {cohorts : List Namespace} {id : String} {polls : List Call}
    {s : State} (h : Merged cohorts (merge cohorts id polls) (s.record id)) (hne : cohorts ≠ [])
    (hnodup : (cohorts.map Namespace.address).Nodup) : MergedOnce server cohorts id polls s where
  distinct := h.distinct
  known := h.known
  response := h.response
  asks replies hcommit := (h.poll hne hnodup replies hcommit).2.1
  answer replies hcommit := (h.poll hne hnodup replies hcommit).2.2
  notAskedAgain := by
    intro c hcommit n hn
    cases c with
    | commitAtomicTransaction context request =>
      exact absurd hn (commit_asks_nothing server context request s n id)
    | getTransactionResult replies id' =>
      obtain rfl := asks_own hn
      have hreq := ((h.poll hne hnodup replies (hcommit replies rfl)).2.1 n).mp hn
      unfold Merge.requests at hreq
      split_ifs at hreq
      · obtain ⟨n', hn', he⟩ := List.mem_map.mp hreq
        cases he
        simpa using (List.mem_filter.mp hn').2
      · cases hreq

theorem merged_sent {m : TransactionMetadata} (hblank : Blank m)
    (hresponded : m.cohortsAlreadyResponded = []) {subs : List SubTransaction}
    (hmany : 1 < subs.length) :
    Merged (subs.map SubTransaction.namespace_) {} (some (m.sent subs), ⟨false, none⟩) := by
  have hnotAll : ¬({} : Merge).AllAnswered (subs.map SubTransaction.namespace_) := by
    intro hall
    obtain ⟨sub, rest, rfl⟩ := List.exists_cons_of_length_pos (Nat.zero_lt_of_lt hmany)
    cases hall sub.namespace_ (by simp)
  refine ⟨List.nodup_nil, List.forall_mem_nil _, fun _ => rfl, ?_, ?_⟩
  · rw [decide_eq_false hnotAll]
    rfl
  · intro _
    refine ⟨m.sent subs, rfl, rfl, ?_, ?_, ?_, hblank.undecided⟩
    · cases subs with
      | nil => exact hblank.single
      | cons sub rest =>
        cases rest with
        | nil => simp at hmany
        | cons sub' rest => exact hblank.single
    · simp only [TransactionMetadata.sent, hblank.cohorts, List.nil_append]
    · intro a
      simp only [TransactionMetadata.sent, hresponded]
      exact Iff.rfl

theorem Submission.merged {server : Server} {calls : List Call} {context : CommitContext}
    {request : CommitAtomicTransactionRequest} {id : String} {config : TransactionConfig}
    {subs : List SubTransaction}
    (hsub : Submission server context request (run server calls).1 id config subs)
    (hmany : 1 < subs.length) (hstarted : context.blockchainStatus.isOk)
    (hnew : ((run server calls).1.responseByTransaction id).complete = false) :
    Merged (subs.map SubTransaction.namespace_) {}
      ((run server (calls ++ [.commitAtomicTransaction context request])).1.record id) := by
  have hstate : (run server (calls ++ [.commitAtomicTransaction context request])).1 =
      (commitAtomicTransaction server context request (run server calls).1).state := by
    rw [run_append]
    rfl
  obtain ⟨_, ⟨_, hfail, _⟩ | ⟨_, _, _, hst⟩⟩ := hsub.outcome
  · cases hstarted.symm.trans hfail
  have hwait : Waiting ((run server calls).1.metadata id)
      ((run server calls).1.responseByTransaction id) := by
    obtain h | h | h := progress_run server calls id
    · cases hnew.symm.trans h.1
    · exact h
    · cases hsub.unsent.symm.trans h.sent
  have hblank := hwait.noted.unsent hsub.unsent
  have hnone : (run server calls).1.responseByTransaction id = ⟨false, none⟩ := by
    obtain hr | ⟨_, hs⟩ := hwait.response
    · generalize (run server calls).1.responseByTransaction id = r at hnew hr
      obtain ⟨complete, response⟩ := r
      obtain rfl : complete = false := hnew
      obtain rfl : response = none := hr
      rfl
    · rw [hblank.single] at hs
      cases hs
  rw [hstate, hst]
  generalize hm : ({ (run server calls).1.metadata id with config := config } :
    TransactionMetadata) = m
  have hblank' : Blank m := by
    rw [← hm]
    exact ⟨hblank.cohorts, hblank.single, hblank.undecided⟩
  have hresponded : m.cohortsAlreadyResponded = [] := by
    rw [← hm]
    exact hwait.responded
  have hrecord : ((run server calls).1.setMetadata id (m.sent subs)).record id =
      (some (m.sent subs), ⟨false, none⟩) := by
    simp [State.record, hnone]
  rw [hrecord]
  exact merged_sent hblank' hresponded hmany

/-- Over all the calls after a committed transaction was sent to its cohorts, its response is at
every moment the merge of the answers so far. -/
theorem results_merged_once {server : Server} {calls : List Call} {context : CommitContext}
    {request : CommitAtomicTransactionRequest} {id : String} {config : TransactionConfig}
    {subs : List SubTransaction}
    (hsub : Submission server context request (run server calls).1 id config subs)
    (hmany : 1 < subs.length) (hstarted : context.blockchainStatus.isOk)
    (hnew : ((run server calls).1.responseByTransaction id).complete = false) (polls : List Call)
    (hcommit : ∀ replies, .getTransactionResult replies id ∈ polls →
      replies.votingDecision ≠ .ok .abort) :
    MergedOnce server (subs.map SubTransaction.namespace_) id polls
      (run server (calls ++ .commitAtomicTransaction context request :: polls)).1 := by
  have hne : subs.map SubTransaction.namespace_ ≠ [] := by simp [hsub.nonempty]
  have hnodup : ((subs.map SubTransaction.namespace_).map Namespace.address).Nodup := by
    rw [List.map_map]
    exact hsub.nodup
  refine Merged.once ?_ hne hnodup
  induction polls using List.reverseRecOn with
  | nil => exact hsub.merged hmany hstarted hnew
  | append_singleton polls c ih =>
    have hmerged := ih fun replies h => hcommit replies (by simp [h])
    have hrun : run server (calls ++ .commitAtomicTransaction context request :: (polls ++ [c])) =
        step server (run server (calls ++ .commitAtomicTransaction context request :: polls)) c := by
      rw [← List.cons_append, ← List.append_assoc, run_append]
      rfl
    have hmerge : merge (subs.map SubTransaction.namespace_) id (polls ++ [c]) =
        (merge (subs.map SubTransaction.namespace_) id polls).call
          (subs.map SubTransaction.namespace_) id c := by
      rw [merge, List.foldl_append]
      rfl
    rw [hrun, hmerge]
    refine hmerged.call hne hnodup ?_
    rintro replies rfl
    exact hcommit replies (by simp)

def laterPolls : List Call :=
  [.getTransactionResult ⟨.ok .commit, fun i =>
      (if i = 1 then .okStatus else ⟨.unavailable, ""⟩, some (.committedResponse {}))⟩ localId,
    .getTransactionResult ⟨.ok .commit, fun _ => (.okStatus, some (.committedResponse {}))⟩ localId]

theorem results_merged_once_two :
    MergedOnce localServer [⟨"", "cohort:50052"⟩, ⟨"", "cohort:50053"⟩] localId laterPolls
      (run localServer (.commitAtomicTransaction localContext twoIncrements :: laterPolls)).1 := by
  obtain ⟨config, subs, hsub, hsubs⟩ : ∃ config subs,
      Submission localServer localContext twoIncrements (run localServer []).1 localId config subs ∧
      subs.map SubTransaction.namespace_ = [⟨"", "cohort:50052"⟩, ⟨"", "cohort:50053"⟩] :=
    ⟨_, _, toSend_eq_some_iff.mp rfl, rfl⟩
  have hmany : 1 < subs.length := by
    rw [← List.length_map SubTransaction.namespace_, hsubs]
    decide
  have hmerged := results_merged_once hsub hmany rfl rfl laterPolls ?_
  · rw [hsubs] at hmerged
    exact hmerged
  · intro replies h
    simp only [laterPolls, List.mem_cons, List.not_mem_nil, or_false] at h
    obtain h | h := h <;> cases h <;> simp

end TwoPhaseCommit.Coordinator
