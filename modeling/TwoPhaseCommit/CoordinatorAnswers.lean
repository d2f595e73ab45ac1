import TwoPhaseCommit.CoordinatorPolls

/-! The answers of a coordinator whose handlers run one after another only move forward. -/
namespace TwoPhaseCommit.Coordinator
open AdapterChain.Blockchain (VotingDecision)

def Final (r : GetTransactionResultResponse) : Prop :=
  match r with
  | some (.abortedResponse _) => True
  | some (.committedResponse c) => c.complete = true
  | _ => False

structure Blank (m : TransactionMetadata) : Prop where
  cohorts : m.cohortNamespaces = []
  single : m.singleCohortNamespace = none
  undecided : m.decision = .pending ∨ m.decision = .unknown

structure CohortsNoted (m : TransactionMetadata) : Prop where
  distinct : (m.cohortNamespaces.map Namespace.address).Nodup
  unsent : m.possiblySentToAllCohorts = false → Blank m

structure Waiting (m : TransactionMetadata) (r : TransactionResponse) : Prop where
  incomplete : r.complete = false
  noted : CohortsNoted m
  responded : m.cohortsAlreadyResponded = []
  response : r.response = none ∨ r.response = some .pendingResponse ∧
    m.singleCohortNamespace.isSome

structure Collecting (m : TransactionMetadata) (r : TransactionResponse) : Prop where
  incomplete : r.complete = false
  noted : CohortsNoted m
  sent : m.possiblySentToAllCohorts = true
  many : m.singleCohortNamespace = none
  decision : m.decision = .commit
  responded : m.cohortsAlreadyResponded ≠ []
  response : ∃ c, r.response = some (.committedResponse c) ∧ c.complete = false

/-- How far the coordinator has got with a transaction. -/
def Progress (record : Option TransactionMetadata × TransactionResponse) : Prop :=
  record.2.complete = true ∧ Final record.2.response ∨
    Waiting (record.1.getD {}) record.2 ∨ Collecting (record.1.getD {}) record.2

theorem Progress.complete_of_final {record : Option TransactionMetadata × TransactionResponse}
    (h : Progress record) (hf : Final record.2.response) : record.2.complete = true := by
  obtain h | h | h := h
  · exact h.1
  · obtain hr | ⟨hr, _⟩ := h.response <;> simp [hr, Final] at hf
  · obtain ⟨c, hr, hc⟩ := h.response
    simp [hr, Final, hc] at hf

/-- What a later response may be. -/
structure Forward (r r' : TransactionResponse) : Prop where
  final : r.complete = true → r' = r
  grows : ∀ c, r.response = some (.committedResponse c) → ∃ c',
    r'.response = some (.committedResponse c') ∧
    c.response.getResponses <+: c'.response.getResponses

theorem Forward.refl (r : TransactionResponse) : Forward r r :=
  ⟨fun _ => rfl, fun c hc => ⟨c, hc, List.prefix_refl _⟩⟩

theorem Forward.trans {r r' r'' : TransactionResponse} (h : Forward r r') (h' : Forward r' r'') :
    Forward r r'' where
  final hc := by
    have hr := h.final hc
    rw [h'.final (hr ▸ hc), hr]
  grows c hc := by
    obtain ⟨c', hc', hp⟩ := h.grows c hc
    obtain ⟨c'', hc'', hp'⟩ := h'.grows c' hc'
    exact ⟨c'', hc'', hp.trans hp'⟩

theorem Forward.of_not_committed {r r' : TransactionResponse} (hc : r.complete = false)
    (h : ∀ c, r.response ≠ some (.committedResponse c)) : Forward r r' :=
  ⟨fun h' => by simp [hc] at h', fun c hr => absurd hr (h c)⟩

theorem Waiting.not_committed {m : TransactionMetadata} {r : TransactionResponse} (h : Waiting m r)
    (c : CommittedResponse) : r.response ≠ some (.committedResponse c) := by
  obtain hr | ⟨hr, _⟩ := h.response <;> simp [hr]

theorem Waiting.mutable_incomplete {m : TransactionMetadata} {r : TransactionResponse}
    (h : Waiting m r) : (mutableCommittedResponse r.response).complete = false := by
  obtain hr | ⟨hr, _⟩ := h.response <;> rw [hr] <;> rfl

theorem Collecting.mutable_incomplete {m : TransactionMetadata} {r : TransactionResponse}
    (h : Collecting m r) : (mutableCommittedResponse r.response).complete = false := by
  obtain ⟨c, hr, hc⟩ := h.response
  rw [hr]
  exact hc

def gathered (r : GetTransactionResultResponse) (answers : List Answer) : CommittedResponse :=
  let committed := mutableCommittedResponse r
  { committed with
    response := ⟨committed.response.getResponses ++ answers.flatMap fun a => a.2.getResponses⟩ }

theorem addAnswers_eq (r : GetTransactionResultResponse) (answers : List Answer) :
    addAnswers r answers =
      if answers = [] then r else some (.committedResponse (gathered r answers)) := by
  induction answers generalizing r with
  | nil => rfl
  | cons a rest ih =>
    have hstep : addAnswers r (a :: rest) =
        addAnswers (some (.committedResponse (addGetResponses r a.2))) rest := rfl
    rw [hstep, ih, if_neg (List.cons_ne_nil a rest)]
    cases rest with
    | nil => simp [gathered, addGetResponses]
    | cons b rest => simp [gathered, mutableCommittedResponse, addGetResponses]

theorem mutableCommittedResponse_addAnswers (r : GetTransactionResultResponse)
    (answers : List Answer) :
    mutableCommittedResponse (addAnswers r answers) = gathered r answers := by
  rw [addAnswers_eq]
  split_ifs with h
  · simp [h, gathered]
  · rfl

theorem addAnswers_committed {r : GetTransactionResultResponse} {c : CommittedResponse}
    (h : r = some (.committedResponse c)) (answers : List Answer) :
    addAnswers r answers = some (.committedResponse (gathered r answers)) := by
  rw [addAnswers_eq]
  split_ifs with hnil
  · simp [gathered, hnil, h, mutableCommittedResponse]
  · rfl

theorem prefix_gathered {r : GetTransactionResultResponse} {c : CommittedResponse}
    (h : r = some (.committedResponse c)) (answers : List Answer) :
    c.response.getResponses <+: (gathered r answers).response.getResponses := by
  rw [h]
  exact List.prefix_append _ _

/-- What a poll leaves behind, and how its answer is related to that. -/
structure Polled (s : State) (id : String) (o : Outcome GetTransactionResultResponse) : Prop where
  progress : Progress (o.state.record id)
  forward : Forward (s.responseByTransaction id) (o.state.responseByTransaction id)
  answer : o.response = (o.state.responseByTransaction id).response ∨
    Waiting (s.metadata id) (s.responseByTransaction id) ∧ ¬Final o.response ∧
      ∀ c, o.response ≠ some (.committedResponse c)

section Poll
variable {replies : Replies} {id : String} {s : State} {m : TransactionMetadata}

theorem State.metadata_eq (s : State) (id : String) : (s.record id).1.getD {} = s.metadata id := rfl

theorem polled_single {n : Namespace} (h : Waiting m (s.responseByTransaction id))
    (hm : s.metadataByTransaction id = some m) (hs : m.singleCohortNamespace = some n) :
    Polled s id (getTransactionResult replies id s) := by
  have hforward (r' : TransactionResponse) : Forward (s.responseByTransaction id) r' :=
    .of_not_committed h.incomplete h.not_committed
  rw [getTransactionResult_single h.incomplete hm hs]
  obtain ⟨hst, hfail⟩ | ⟨hok, _, hrecord⟩ :=
    updateResponseForSingleCohortTransaction_cases id n (replies.transactionResult 0) s
  · refine ⟨.inr (.inl ?_), ?_, .inr ⟨?_, ?_⟩⟩
    · dsimp only
      rw [hst, State.metadata_eq, State.metadata_of_some hm]
      exact h
    · dsimp only
      rw [hst]
      exact .refl _
    · rw [State.metadata_of_some hm]
      exact h
    · dsimp only
      rw [if_neg (by simp [hfail])]
      exact ⟨fun hf => hf, fun c hc => by cases hc⟩
  · refine ⟨?_, hforward _, .inl (if_pos (by rw [hok]; rfl))⟩
    dsimp only
    obtain ⟨reason, _, hrecord⟩ | ⟨c, _, hrecord⟩ | hrecord := hrecord
    · rw [hrecord]
      exact .inl ⟨rfl, trivial⟩
    · rw [hrecord]
      exact .inl ⟨rfl, rfl⟩
    · rw [hrecord, hm]
      exact .inr (.inl ⟨h.incomplete, h.noted, h.responded, .inr ⟨rfl, by simp [hs]⟩⟩)

theorem polled_decided (h : Waiting m (s.responseByTransaction id) ∨
      Collecting m (s.responseByTransaction id))
    (hs : m.singleCohortNamespace = none) (hm : s.metadataByTransaction id = some m)
    {d : VotingDecision} (hd : Collecting m (s.responseByTransaction id) → d = .commit) :
    Polled s id (respondToDecision id replies.transactionResult d
      (s.setMetadata id { m with decision := d })) := by
  have hmeta : (s.setMetadata id { m with decision := d }).metadata id = { m with decision := d } := by
    simp
  have hnoted : CohortsNoted m := h.elim (·.noted) (·.noted)
  have hincomplete : (s.responseByTransaction id).complete = false :=
    h.elim (·.incomplete) (·.incomplete)
  have hpending (hp : d = .pending ∨ d = .unknown) :
      Polled s id ⟨s.setMetadata id { m with decision := d }, [], .okStatus, some .pendingResponse⟩ := by
    have hwait := h.resolve_right fun hc => by simp [hd hc] at hp
    have hrecord : (s.setMetadata id { m with decision := d }).record id =
        (some { m with decision := d }, s.responseByTransaction id) := by simp [State.record]
    refine ⟨.inr (.inl ?_), .refl _, .inr ⟨?_, fun hf => hf, fun c hc => by cases hc⟩⟩
    · rw [hrecord]
      refine ⟨hwait.incomplete, ⟨hnoted.distinct, ?_⟩, hwait.responded, hwait.response⟩
      intro hf
      exact ⟨(hnoted.unsent hf).cohorts, (hnoted.unsent hf).single, hp⟩
    · rw [State.metadata_of_some hm]
      exact hwait
  cases d with
  | unknown => exact hpending (.inr rfl)
  | pending => exact hpending (.inl rfl)
  | abort =>
    have hwait := h.resolve_right fun hc => by cases hd hc
    refine ⟨.inl ?_, .of_not_committed hincomplete hwait.not_committed, .inl rfl⟩
    change (State.record (cleanUpTransactionMetadata id (State.setResponse _ id _)) id).2.complete
      = true ∧ Final (State.record (cleanUpTransactionMetadata id (State.setResponse _ id _)) id).2.response
    rw [record_finished]
    exact ⟨rfl, trivial⟩
  | commit =>
    obtain ⟨_, hok, hanswer, hrecord⟩ := respondToDecision_commit id replies.transactionResult
      (by rw [hmeta]; exact hnoted.distinct)
    rw [hmeta] at hrecord
    generalize hnew : newAnswers replies.transactionResult
      ({ m with decision := .commit } : TransactionMetadata).cohortsAlreadyResponded
      ({ m with decision := .commit } : TransactionMetadata).cohortNamespaces 0 = new at hrecord
    refine ⟨?_, ⟨fun hc => by simp [hincomplete] at hc, ?_⟩, .inl hanswer⟩
    · rw [hrecord]
      split_ifs with hall
      · exact .inl ⟨rfl, rfl⟩
      · have hsent : m.possiblySentToAllCohorts = true := by
          rw [← Bool.not_eq_false]
          intro hf
          refine hall ?_
          intro n hn
          have hn' : n ∈ m.cohortNamespaces := hn
          rw [(hnoted.unsent hf).cohorts] at hn'
          cases hn'
        have hnoted' (responded : List String) : CohortsNoted
            { m with decision := .commit, cohortsAlreadyResponded := responded } := by
          refine ⟨hnoted.distinct, ?_⟩
          intro hf
          cases hf.symm.trans hsent
        by_cases hnil : new = []
        · subst hnil
          obtain h | h := h
          · exact .inr (.inl ⟨h.incomplete, hnoted' _, h.responded, h.response⟩)
          · exact .inr (.inr ⟨h.incomplete, hnoted' _, hsent, h.many, rfl, h.responded, h.response⟩)
        · refine .inr (.inr ⟨hincomplete, hnoted' _, hsent, hs, rfl, ?_, ?_⟩)
          · simp [hnil]
          · refine ⟨_, (addAnswers_eq _ new).trans (if_neg hnil), ?_⟩
            exact h.elim (·.mutable_incomplete) (·.mutable_incomplete)
    · intro c hc
      change ∃ c', (State.record _ id).2.response = some (.committedResponse c') ∧ _
      rw [hrecord]
      split_ifs
      · refine ⟨_, rfl, ?_⟩
        rw [mutableCommittedResponse_addAnswers]
        exact prefix_gathered hc new
      · exact ⟨_, addAnswers_committed hc new, prefix_gathered hc new⟩

theorem Progress.poll (h : Progress (s.record id)) :
    Polled s id (getTransactionResult replies id s) := by
  obtain ⟨hc, hf⟩ | h := h
  · have hc' : (s.responseByTransaction id).complete = true := hc
    rw [getTransactionResult_complete hc']
    exact ⟨.inl ⟨hc, hf⟩, .refl _, .inl rfl⟩
  · have hincomplete : (s.responseByTransaction id).complete = false :=
      h.elim (·.incomplete) (·.incomplete)
    cases hm : s.metadataByTransaction id with
    | none =>
      rw [getTransactionResult_notFound hincomplete hm]
      have hwait : Waiting (s.metadata id) (s.responseByTransaction id) := by
        refine h.resolve_right fun hc => ?_
        have hsent := hc.sent
        rw [State.metadata_eq, State.metadata, hm] at hsent
        cases hsent
      exact ⟨.inr h, .refl _, .inr ⟨hwait, fun hf => hf, fun c hc => by cases hc⟩⟩
    | some m =>
      rw [State.metadata_eq, State.metadata_of_some hm] at h
      cases hs : m.singleCohortNamespace with
      | some n =>
        refine polled_single (h.resolve_right fun hc => ?_) hm hs
        cases hs.symm.trans hc.many
      | none =>
        rw [getTransactionResult_multi hincomplete hm hs]
        cases hd : knownDecision m replies with
        | error status =>
          have hwait : Waiting m (s.responseByTransaction id) := by
            refine h.resolve_right fun hc => ?_
            rw [knownDecision, if_neg (by simp [hc.decision])] at hd
            cases hd
          refine ⟨.inr ?_, .refl _, .inr ⟨?_, fun hf => hf, fun c hc => by cases hc⟩⟩
          · rw [State.metadata_eq, State.metadata_of_some hm]
            exact h
          · rw [State.metadata_of_some hm]
            exact hwait
        | ok d =>
          have hcommit (hc : Collecting m (s.responseByTransaction id)) : d = .commit := by
            rw [knownDecision, if_neg (by simp [hc.decision]), hc.decision] at hd
            cases hd
            rfl
          have hpolled : Polled s id (respondToDecision id replies.transactionResult d
              (s.setMetadata id { m with decision := d })) := polled_decided h hs hm hcommit
          exact ⟨hpolled.progress, hpolled.forward, hpolled.answer⟩

end Poll

theorem commit_cases (server : Server) (context : CommitContext)
    (request : CommitAtomicTransactionRequest) (s : State) :
    let s' := (commitAtomicTransaction server context request s).state
    s' = s ∨ ∃ id config m, s' = s.setMetadata id m ∧
      (m = { s.metadata id with config := config } ∨
        (s.metadata id).possiblySentToAllCohorts = false ∧
          ∃ subs, (subs.map SubTransaction.address).Nodup ∧
            m = ({ s.metadata id with config := config } : TransactionMetadata).sent subs) := by
  cases hs : Call.toSend server s (.commitAtomicTransaction context request) with
  | none =>
    obtain ⟨_, hst | ⟨id, config, _, hst⟩⟩ := commit_of_none hs
    · exact .inl hst
    · exact .inr ⟨id, config, _, hst, .inl rfl⟩
  | some sent =>
    obtain ⟨id, config, subs⟩ := sent
    obtain ⟨_, hnodup, hunsent⟩ := Submission.subs_spec hs
    obtain ⟨sends, _, _, hst⟩ := sends_of_some hs
    refine .inr ⟨id, config, _, hst, ?_⟩
    cases sends with
    | false => exact .inl rfl
    | true => exact .inr ⟨hunsent, subs, hnodup, rfl⟩

theorem response_commit (server : Server) (context : CommitContext)
    (request : CommitAtomicTransactionRequest) (s : State) (id : String) :
    (commitAtomicTransaction server context request s).state.responseByTransaction id =
      s.responseByTransaction id := by
  obtain hst | ⟨id', config, m, hst, _⟩ := commit_cases server context request s
  · rw [hst]
  · rw [hst]
    rfl

theorem Progress.commit {server : Server} {context : CommitContext}
    {request : CommitAtomicTransactionRequest} {s : State} {id : String}
    (h : Progress (s.record id)) :
    Progress ((commitAtomicTransaction server context request s).state.record id) := by
  obtain hst | ⟨id', config, m, hst, hm⟩ := commit_cases server context request s
  · rwa [hst]
  · rw [hst]
    by_cases hid : id = id'
    · subst hid
      have hrecord : (s.setMetadata id m).record id = (some m, s.responseByTransaction id) := by
        simp [State.record]
      rw [hrecord]
      obtain rfl | ⟨hunsent, subs, hnodup, rfl⟩ := hm
      · obtain h | h | h := h
        · exact .inl h
        · refine .inr (.inl ⟨h.incomplete, ⟨h.noted.distinct, ?_⟩, h.responded, h.response⟩)
          intro hf
          have hblank := h.noted.unsent hf
          exact ⟨hblank.cohorts, hblank.single, hblank.undecided⟩
        · refine .inr (.inr ⟨h.incomplete, ⟨h.noted.distinct, ?_⟩, h.sent, h.many, h.decision,
            h.responded, h.response⟩)
          intro hf
          cases hf.symm.trans h.sent
      · obtain h | h | h := h
        · exact .inl h
        · have hblank := h.noted.unsent hunsent
          refine .inr (.inl ⟨h.incomplete, ⟨?_, fun hf => by cases hf⟩, h.responded, ?_⟩)
          · have hcohorts : ((s.metadata id).cohortNamespaces ++
                subs.map SubTransaction.namespace_).map Namespace.address =
                subs.map SubTransaction.address := by
              rw [← State.metadata_eq, hblank.cohorts, List.nil_append, List.map_map]
              rfl
            change (((s.metadata id).cohortNamespaces ++
              subs.map SubTransaction.namespace_).map Namespace.address).Nodup
            rw [hcohorts]
            exact hnodup
          · refine h.response.imp_right fun hp => ?_
            rw [hblank.single] at hp
            cases hp.2
        · cases hunsent.symm.trans h.sent
    · rw [record_setMetadata hid]
      exact h

theorem progress_step (server : Server) {s : State} {id : String} (h : Progress (s.record id))
    (c : Call) : Progress ((c.handle server s).1.record id) ∧
      Forward (s.responseByTransaction id) ((c.handle server s).1.responseByTransaction id) := by
  cases c with
  | commitAtomicTransaction context request =>
    refine ⟨h.commit, ?_⟩
    change Forward _ ((commitAtomicTransaction server context request s).state.responseByTransaction id)
    rw [response_commit]
    exact .refl _
  | getTransactionResult replies id' =>
    by_cases hid : id = id'
    · subst hid
      exact ⟨h.poll.progress, h.poll.forward⟩
    · have hrecord := record_getTransactionResult hid s replies
      change Progress ((getTransactionResult replies id' s).state.record id) ∧
        Forward (s.record id).2 ((getTransactionResult replies id' s).state.record id).2
      rw [hrecord]
      exact ⟨h, .refl _⟩

theorem progress_initial (id : String) : Progress (initial.record id) :=
  .inr (.inl ⟨rfl, ⟨List.nodup_nil, fun _ => ⟨rfl, rfl, .inr rfl⟩⟩, rfl, .inl rfl⟩)

theorem run_append (server : Server) (calls later : List Call) :
    run server (calls ++ later) = later.foldl (step server) (run server calls) := by
  rw [run, run, List.foldl_append]

theorem progress_foldl (server : Server) {h : History} {id : String} (hp : Progress (h.1.record id))
    (later : List Call) :
    Progress ((later.foldl (step server) h).1.record id) ∧
      Forward (h.1.responseByTransaction id)
        ((later.foldl (step server) h).1.responseByTransaction id) := by
  induction later using List.reverseRecOn with
  | nil => exact ⟨hp, .refl _⟩
  | append_singleton later c ih =>
    rw [List.foldl_append]
    obtain ⟨hp', hf⟩ := progress_step server ih.1 c
    exact ⟨hp', ih.2.trans hf⟩

theorem progress_run (server : Server) (calls : List Call) (id : String) :
    Progress ((run server calls).1.record id) :=
  (progress_foldl server (h := (initial, [])) (progress_initial id) calls).1

/-- What an answer to a poll leaves open for the answers to later polls of the same transaction. -/
structure AnswersForward (o o' : Outcome GetTransactionResultResponse) : Prop where
  final : Final o.response → o'.status = .okStatus ∧ o'.response = o.response
  grows : ∀ c, o.response = some (.committedResponse c) → ∃ c',
    o'.response = some (.committedResponse c') ∧
    c.response.getResponses <+: c'.response.getResponses

/-- An aborted or complete answer is given for good, and a partial one only grows, whatever
handlers run in between. -/
theorem answers_forward (server : Server) (calls later : List Call) (id : String)
    (replies replies' : Replies) :
    AnswersForward (getTransactionResult replies id (run server calls).1)
      (getTransactionResult replies' id
        (run server (calls ++ .getTransactionResult replies id :: later)).1) := by
  have hpoll : Polled (run server calls).1 id
      (getTransactionResult replies id (run server calls).1) := (progress_run server calls id).poll
  generalize ho : getTransactionResult replies id (run server calls).1 = o at *
  generalize hh : run server (calls ++ .getTransactionResult replies id :: later) = h
  have hforward : Forward (o.state.responseByTransaction id) (h.1.responseByTransaction id) := by
    rw [run_append, List.foldl_cons] at hh
    have hstep : (step server (run server calls) (.getTransactionResult replies id)).1 = o.state := by
      rw [← ho]
      rfl
    rw [← hh, ← hstep]
    exact (progress_foldl server (by rw [hstep]; exact hpoll.progress) later).2
  have hpoll' : Polled h.1 id (getTransactionResult replies' id h.1) := by
    rw [← hh]
    exact (progress_run server _ id).poll
  refine ⟨?_, ?_⟩
  · intro hfinal
    have hstored := hpoll.answer.resolve_right fun hw => hw.2.1 hfinal
    have hcomplete := hpoll.progress.complete_of_final (hstored ▸ hfinal)
    have hsame := hforward.final hcomplete
    rw [getTransactionResult_complete (by rw [hsame]; exact hcomplete), hstored, hsame]
    exact ⟨rfl, rfl⟩
  · intro c hc
    have hstored := hpoll.answer.resolve_right fun hw => hw.2.2 c hc
    obtain ⟨c', hc', hprefix⟩ := hforward.grows c (hstored.symm.trans hc)
    obtain hstored' | ⟨hwait, _⟩ := hpoll'.answer
    · obtain ⟨c'', hc'', hprefix'⟩ := hpoll'.forward.grows c' hc'
      exact ⟨c'', hstored'.trans hc'', hprefix.trans hprefix'⟩
    · exact absurd hc' (hwait.not_committed c')

end TwoPhaseCommit.Coordinator
