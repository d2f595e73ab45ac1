import TwoPhaseCommit.ContractRuns
import TwoPhaseCommit.Coordinator

/-! Runs of the coordinator whose handlers run one after another: how often a transaction's
requests are sent, and that the messages of one submission fit its vote. -/
namespace TwoPhaseCommit.Coordinator
open Grouping
open AdapterChain.Blockchain (VotingDecision)

inductive Call where
  | commitAtomicTransaction (context : CommitContext) (request : CommitAtomicTransactionRequest)
  | getTransactionResult (replies : Replies) (transactionId : String)

def Call.handle (server : Server) : Call → State → State × List Rpc
  | .commitAtomicTransaction context request, s =>
    let o := Coordinator.commitAtomicTransaction server context request s
    (o.state, o.rpcs)
  | .getTransactionResult replies transactionId, s =>
    let o := Coordinator.getTransactionResult replies transactionId s
    (o.state, o.rpcs)

abbrev History := State × List Rpc

def step (server : Server) (h : History) (c : Call) : History :=
  let r := c.handle server h.1
  (r.1, h.2 ++ r.2)

def run (server : Server) (calls : List Call) : History := calls.foldl (step server) (initial, [])

/-- What a CommitAtomicTransaction call has to send: nothing without an id or a valid config,
nor when the requests may be out already or there are no operations. -/
def toSend (server : Server) (context : CommitContext) (request : CommitAtomicTransactionRequest)
    (s : State) : Option (String × TransactionConfig × List SubTransaction) :=
  match getTransactionId server.sha256 request.clientTransactionId context.peer with
  | .error _ => none
  | .ok id =>
    if (s.metadata id).possiblySentToAllCohorts then none
    else
      match computeFinalConfig request.config context.now server.defaultPresumedAbortDuration with
      | .error _ => none
      | .ok config =>
        let subs :=
          splitClientTransaction context.order request.transaction server.sortCohortRequests
        if subs = [] then none else some (id, config, subs)

def Call.toSend (server : Server) (s : State) :
    Call → Option (String × TransactionConfig × List SubTransaction)
  | .commitAtomicTransaction context request => Coordinator.toSend server context request s
  | .getTransactionResult _ _ => none

/-- A CommitAtomicTransaction call that has subs to send for the transaction id. -/
structure Submission (server : Server) (context : CommitContext)
    (request : CommitAtomicTransactionRequest) (s : State) (id : String)
    (config : TransactionConfig) (subs : List SubTransaction) : Prop where
  id_eq : getTransactionId server.sha256 request.clientTransactionId context.peer = .ok id
  unsent : (s.metadata id).possiblySentToAllCohorts = false
  config_eq : computeFinalConfig request.config context.now server.defaultPresumedAbortDuration =
    .ok config
  subs_eq : subs =
    splitClientTransaction context.order request.transaction server.sortCohortRequests
  nonempty : subs ≠ []

theorem Submission.nodup {server : Server} {context : CommitContext}
    {request : CommitAtomicTransactionRequest} {s : State} {id : String}
    {config : TransactionConfig} {subs : List SubTransaction}
    (h : Submission server context request s id config subs) :
    (subs.map SubTransaction.address).Nodup := by
  rw [h.subs_eq]
  exact nodup_addresses _ _ _

theorem toSend_eq_some_iff {server : Server} {context : CommitContext}
    {request : CommitAtomicTransactionRequest} {s : State} {id : String}
    {config : TransactionConfig} {subs : List SubTransaction} :
    toSend server context request s = some (id, config, subs) ↔
      Submission server context request s id config subs := by
  unfold toSend
  constructor
  · intro h
    cases hid : getTransactionId server.sha256 request.clientTransactionId context.peer with
    | error status => simp [hid] at h
    | ok id' =>
      cases hc : computeFinalConfig request.config context.now
          server.defaultPresumedAbortDuration with
      | error status => simp [hid, hc] at h
      | ok config' =>
        simp only [hid, hc, Option.ite_none_left_eq_some, Option.some.injEq, Prod.mk.injEq] at h
        obtain ⟨hunsent, hne, rfl, rfl, rfl⟩ := h
        exact ⟨hid, by simpa using hunsent, hc, rfl, hne⟩
  · rintro ⟨hid, hunsent, hc, rfl, hne⟩
    simp [hid, hunsent, hc, hne]

theorem computeFinalConfig_error {clientConfig : TransactionConfig} {now d : ℤ} {status : Status}
    (h : computeFinalConfig clientConfig now d = .error status) :
    status.code = .invalidArgument := by
  unfold computeFinalConfig at h
  dsimp only at h
  split_ifs at h
  rw [← Except.error.inj h]

theorem toSend_none_cases {server : Server} {context : CommitContext}
    {request : CommitAtomicTransactionRequest} {s : State} {id : String}
    (hid : getTransactionId server.sha256 request.clientTransactionId context.peer = .ok id)
    (h : toSend server context request s = none) :
    (s.metadata id).possiblySentToAllCohorts = true ∨
      ((s.metadata id).possiblySentToAllCohorts = false ∧
        ((∃ status, computeFinalConfig request.config context.now
            server.defaultPresumedAbortDuration = .error status) ∨
          ∃ config, computeFinalConfig request.config context.now
              server.defaultPresumedAbortDuration = .ok config ∧
            splitClientTransaction context.order request.transaction
              server.sortCohortRequests = [])) := by
  unfold toSend at h
  rw [hid] at h
  dsimp only at h
  cases hflag : (s.metadata id).possiblySentToAllCohorts with
  | true => exact .inl rfl
  | false =>
    cases hc : computeFinalConfig request.config context.now
        server.defaultPresumedAbortDuration with
    | error status => exact .inr ⟨rfl, .inl ⟨status, rfl⟩⟩
    | ok config => exact .inr ⟨rfl, .inr ⟨config, rfl, by simpa [hflag, hc] using h⟩⟩

theorem commit_none_cases {server : Server} {context : CommitContext}
    {request : CommitAtomicTransactionRequest} {s : State} {id : String}
    (hid : getTransactionId server.sha256 request.clientTransactionId context.peer = .ok id)
    (h : toSend server context request s = none) :
    let o := commitAtomicTransaction server context request s
    let m := s.metadata id
    o.rpcs = [] ∧ o.response.globalTransactionId = id ∧
      ((m.possiblySentToAllCohorts = true ∧ o.status.isOk ∧ o.state = s.setMetadata id m) ∨
        (m.possiblySentToAllCohorts = false ∧ o.status.isOk = false ∧
          o.state = s.setMetadata id m) ∨
        (m.possiblySentToAllCohorts = false ∧ o.status.isOk ∧
          splitClientTransaction context.order request.transaction
            server.sortCohortRequests = [] ∧
          ∃ config, o.state = s.setMetadata id { m with config := config })) := by
  unfold commitAtomicTransaction
  rw [hid]
  dsimp only
  obtain hsent | ⟨hunsent, ⟨status, hc⟩ | ⟨config, hc, hnil⟩⟩ := toSend_none_cases hid h
  · rw [if_pos hsent]
    exact ⟨rfl, rfl, .inl ⟨hsent, rfl, rfl⟩⟩
  · have hcode := computeFinalConfig_error hc
    rw [if_neg (by simp [hunsent]), hc]
    exact ⟨rfl, rfl, .inr (.inl ⟨hunsent, by simp [Status.isOk, Status.withPrefix, hcode], rfl⟩)⟩
  · rw [if_neg (by simp [hunsent]), hc]
    dsimp only
    rw [if_pos hnil, State.setMetadata_setMetadata]
    exact ⟨rfl, rfl, .inr (.inr ⟨hunsent, rfl, hnil, config, rfl⟩)⟩

theorem commit_of_none {server : Server} {context : CommitContext}
    {request : CommitAtomicTransactionRequest} {s : State}
    (h : toSend server context request s = none) :
    let o := commitAtomicTransaction server context request s
    o.rpcs = [] ∧ (o.state = s ∨ ∃ id config,
      getTransactionId server.sha256 request.clientTransactionId context.peer = .ok id ∧
      o.state = s.setMetadata id { s.metadata id with config := config }) := by
  cases hid : getTransactionId server.sha256 request.clientTransactionId context.peer with
  | error status =>
    unfold commitAtomicTransaction
    rw [hid]
    exact ⟨rfl, .inl rfl⟩
  | ok id =>
    obtain ⟨hrpcs, _, ⟨_, _, hstate⟩ | ⟨_, _, hstate⟩ | ⟨_, _, _, config, hstate⟩⟩ :=
      commit_none_cases hid h
    · exact ⟨hrpcs, .inr ⟨id, _, rfl, hstate⟩⟩
    · exact ⟨hrpcs, .inr ⟨id, _, rfl, hstate⟩⟩
    · exact ⟨hrpcs, .inr ⟨id, config, rfl, hstate⟩⟩

/-- A submission starts the voting when there is more than one cohort; unless that fails, it
sends the prepare requests. -/
theorem Submission.outcome {server : Server} {context : CommitContext}
    {request : CommitAtomicTransactionRequest} {s : State} {id : String}
    {config : TransactionConfig} {subs : List SubTransaction}
    (h : Submission server context request s id config subs) :
    let o := commitAtomicTransaction server context request s
    let call := startVoting id config.presumedAbortTime subs.length
    let m := { s.metadata id with config := config }
    o.response = ⟨id, config⟩ ∧
      ((1 < subs.length ∧ context.blockchainStatus.isOk = false ∧ o.rpcs = [call] ∧
          o.status.code = context.blockchainStatus.code ∧ o.state = s.setMetadata id m) ∨
        ((1 < subs.length → context.blockchainStatus.isOk) ∧
          o.rpcs = (if 1 < subs.length then [call] else []) ++ prepareRequests id config subs ∧
          o.status = .okStatus ∧ o.state = s.setMetadata id (m.sent subs))) := by
  obtain ⟨hid, hunsent, hc, hsubs, hne⟩ := h
  have hunsent' : ¬(s.metadata id).possiblySentToAllCohorts = true := by simp [hunsent]
  have hsend (s' : State) (m : TransactionMetadata) :
      sendCohortPrepareRequests id subs (s'.setMetadata id m) =
        (s'.setMetadata id (m.sent subs), prepareRequests id m.config subs) := by
    rw [sendCohortPrepareRequests_eq id hne, State.metadata_setMetadata_self,
      State.setMetadata_setMetadata]
  unfold commitAtomicTransaction
  rw [hid]
  dsimp only
  rw [if_neg hunsent', hc]
  dsimp only
  rw [← hsubs, if_neg hne, State.setMetadata_setMetadata, hsend]
  by_cases hmany : 1 < subs.length
  · rw [if_pos (by simpa [requiresBlockchain] using hmany)]
    cases hb : context.blockchainStatus.isOk with
    | true =>
      rw [if_pos rfl]
      exact ⟨rfl, .inr ⟨fun _ => rfl, by rw [if_pos hmany]; rfl, rfl, rfl⟩⟩
    | false =>
      rw [if_neg (by simp)]
      exact ⟨rfl, .inl ⟨hmany, rfl, rfl, rfl, rfl⟩⟩
  · rw [if_neg (by simpa [requiresBlockchain] using hmany)]
    exact ⟨rfl, .inr ⟨fun h => absurd h hmany, by rw [if_neg hmany]; rfl, rfl, rfl⟩⟩

def Rpc.prepared : Rpc → Option (String × String)
  | .prepareTransaction n request => some (request.transactionId, n.address)
  | _ => none

def Rpc.started : Rpc → Option String
  | .startVoting id _ _ => some id
  | _ => none

def prepared (rpcs : List Rpc) : List (String × String) := rpcs.filterMap Rpc.prepared

/-- No cohort is sent two prepare requests of one transaction, and the voting of a transaction
is not started after a prepare request of it. -/
structure AtMostOnce (rpcs : List Rpc) : Prop where
  once : (prepared rpcs).Nodup
  noRestart : rpcs.Pairwise fun earlier later =>
    ∀ id a, earlier.prepared = some (id, a) → later.started ≠ some id

@[simp] theorem prepared_append (rpcs rpcs' : List Rpc) :
    prepared (rpcs ++ rpcs') = prepared rpcs ++ prepared rpcs' := List.filterMap_append

theorem prepared_prepareRequests (id : String) (config : TransactionConfig)
    (subs : List SubTransaction) :
    prepared (prepareRequests id config subs) = subs.map fun sub => (id, sub.address) := by
  rw [prepared, prepareRequests, List.filterMap_map]
  have hf : (Rpc.prepared ∘ fun p : SubTransaction × ℕ =>
      prepareRequest id config subs.length p.1 p.2) = some ∘ fun p => (id, p.1.address) := rfl
  rw [hf, List.filterMap_eq_map]
  have hfst : subs = subs.zipIdx.map Prod.fst := by simp
  conv_rhs => rw [hfst, List.map_map]
  rfl

theorem started_prepareRequests {id : String} {config : TransactionConfig}
    {subs : List SubTransaction} {c : Rpc} (h : c ∈ prepareRequests id config subs) :
    c.started = none := by
  obtain ⟨p, _, rfl⟩ := List.mem_map.mp h
  rfl

theorem mem_collectLoop {id : String} {reply : ℕ → CohortReply} {namespaces : List Namespace}
    {i : ℕ} {c : Collected} {rpc : Rpc} (h : rpc ∈ (collectLoop id reply namespaces i c).2) :
    ∃ n ∈ namespaces, rpc = .getTransactionResult n id := by
  induction namespaces generalizing i c with
  | nil => cases h
  | cons n rest ih =>
    rw [collectLoop] at h
    split_ifs at h
    · obtain ⟨n', hn', he⟩ := ih h
      exact ⟨n', by simp [hn'], he⟩
    · obtain rfl | h := List.mem_cons.mp h
      · exact ⟨n, by simp, rfl⟩
      · obtain ⟨n', hn', he⟩ := ih h
        exact ⟨n', by simp [hn'], he⟩

theorem mem_respondToDecision {id : String} {reply : ℕ → CohortReply} {d : VotingDecision}
    {s : State} {rpc : Rpc} (h : rpc ∈ (respondToDecision id reply d s).rpcs) :
    ∃ n, rpc = .getTransactionResult n id := by
  cases d with
  | unknown => cases h
  | pending => cases h
  | abort => cases h
  | commit =>
    have h' : rpc ∈ (updateCommittedResponseFromCohorts id reply s).2 := h
    rw [updateCommittedResponseFromCohorts] at h'
    split_ifs at h'
    · obtain ⟨n, _, he⟩ := mem_collectLoop h'
      exact ⟨n, he⟩
    · obtain ⟨n, _, he⟩ := mem_collectLoop h'
      exact ⟨n, he⟩

theorem mem_getTransactionResult {id : String} {replies : Replies} {s : State} {rpc : Rpc}
    (h : rpc ∈ (getTransactionResult replies id s).rpcs) :
    rpc.prepared = none ∧ rpc.started = none := by
  unfold getTransactionResult at h
  split_ifs at h with hcomplete
  · cases h
  · cases hm : s.metadataByTransaction id with
    | none => simp [hm] at h
    | some m =>
      simp only [hm] at h
      cases hs : m.singleCohortNamespace with
      | some n =>
        simp only [hs] at h
        split_ifs at h <;>
        · rw [List.mem_singleton.mp h]
          exact ⟨rfl, rfl⟩
      | none =>
        simp only [hs] at h
        split_ifs at h
        · cases hd : replies.votingDecision with
          | error status =>
            simp only [hd] at h
            rw [List.mem_singleton.mp h]
            exact ⟨rfl, rfl⟩
          | ok d =>
            simp only [hd] at h
            obtain rfl | h := List.mem_cons.mp h
            · exact ⟨rfl, rfl⟩
            · obtain ⟨n, rfl⟩ := mem_respondToDecision h
              exact ⟨rfl, rfl⟩
        · obtain ⟨n, rfl⟩ := mem_respondToDecision h
          exact ⟨rfl, rfl⟩

structure SameCohorts (m m' : TransactionMetadata) : Prop where
  cohorts : m'.cohortNamespaces = m.cohortNamespaces
  single : m'.singleCohortNamespace = m.singleCohortNamespace
  flag : m'.possiblySentToAllCohorts = m.possiblySentToAllCohorts

/-- What a handler may do to the records of a transaction besides sending: a complete response
stays complete, and the cohorts are forgotten only with a complete response. -/
structure Keeps (s s' : State) (id : String) : Prop where
  complete : (s.responseByTransaction id).complete → (s'.responseByTransaction id).complete
  metadata : SameCohorts (s.metadata id) (s'.metadata id) ∨
    SameCohorts {} (s'.metadata id) ∧ (s'.responseByTransaction id).complete

theorem SameCohorts.trans {m m' m'' : TransactionMetadata} (h : SameCohorts m m')
    (h' : SameCohorts m' m'') : SameCohorts m m'' :=
  ⟨h'.cohorts.trans h.cohorts, h'.single.trans h.single, h'.flag.trans h.flag⟩

theorem Keeps.refl (s : State) (id : String) : Keeps s s id := ⟨fun h => h, .inl ⟨rfl, rfl, rfl⟩⟩

theorem Keeps.trans {s s' s'' : State} {id : String} (h : Keeps s s' id) (h' : Keeps s' s'' id) :
    Keeps s s'' id where
  complete hc := h'.complete (h.complete hc)
  metadata := by
    obtain hs' | hclean := h'.metadata
    · exact h.metadata.imp (·.trans hs') fun hs => ⟨hs.1.trans hs', h'.complete hs.2⟩
    · exact .inr hclean

theorem Keeps.flag {s s' : State} {id : String} (h : Keeps s s' id)
    (hf : (s.metadata id).possiblySentToAllCohorts) :
    (s'.metadata id).possiblySentToAllCohorts ∨ (s'.responseByTransaction id).complete :=
  h.metadata.imp (fun hs => by rwa [hs.flag]) And.right

theorem keeps_setMetadata_of_ne (s : State) {id id' : String} (m : TransactionMetadata)
    (h : id' ≠ id) : Keeps s (s.setMetadata id m) id' := by
  refine ⟨fun hc => hc, .inl ?_⟩
  have hm : (s.setMetadata id m).metadata id' = s.metadata id' := by simp [State.metadata, h]
  rw [hm]
  exact ⟨rfl, rfl, rfl⟩

theorem keeps_setMetadata (s : State) {id : String} {m : TransactionMetadata}
    (h : SameCohorts (s.metadata id) m) (id' : String) : Keeps s (s.setMetadata id m) id' := by
  by_cases hid : id' = id
  · subst hid
    exact ⟨fun hc => hc, .inl (by rwa [State.metadata_setMetadata_self])⟩
  · exact keeps_setMetadata_of_ne s m hid

theorem keeps_setResponse (s : State) (id : String) (r : GetTransactionResultResponse)
    (id' : String) : Keeps s (s.setResponse id r) id' where
  complete hc := by
    by_cases hid : id' = id
    · subst hid
      simpa [State.setResponse] using hc
    · simpa [State.setResponse, hid] using hc
  metadata := .inl ⟨rfl, rfl, rfl⟩

theorem keeps_cleanUp (s : State) (id id' : String) :
    Keeps s (cleanUpTransactionMetadata id s) id' := by
  by_cases hid : id' = id
  · subst hid
    refine ⟨fun _ => by simp [cleanUpTransactionMetadata], .inr ⟨?_, ?_⟩⟩
    · simp only [cleanUpTransactionMetadata, State.metadata, Function.update_self]
      exact ⟨rfl, rfl, rfl⟩
    · simp [cleanUpTransactionMetadata]
  · refine ⟨fun hc => by simpa [cleanUpTransactionMetadata, hid] using hc, .inl ?_⟩
    simp only [cleanUpTransactionMetadata, State.metadata, Function.update_of_ne hid]
    exact ⟨rfl, rfl, rfl⟩

theorem keeps_respondToDecision (id : String) (reply : ℕ → CohortReply) (d : VotingDecision)
    (s : State) (id' : String) : Keeps s (respondToDecision id reply d s).state id' := by
  cases d with
  | unknown => exact .refl s id'
  | pending => exact .refl s id'
  | abort => exact (keeps_setResponse s id _ id').trans (keeps_cleanUp _ id id')
  | commit =>
    change Keeps s (updateCommittedResponseFromCohorts id reply s).1 id'
    rw [updateCommittedResponseFromCohorts]
    have hset (r : GetTransactionResultResponse) (l : List String) :
        Keeps s ((s.setResponse id r).setMetadata id
          { s.metadata id with cohortsAlreadyResponded := l }) id' := by
      refine (keeps_setResponse s id r id').trans (keeps_setMetadata _ ?_ id')
      exact ⟨rfl, rfl, rfl⟩
    split_ifs
    · exact (hset _ _).trans ((keeps_setResponse _ id _ id').trans (keeps_cleanUp _ id id'))
    · exact hset _ _

theorem keeps_getTransactionResult (replies : Replies) (id : String) (s : State) (id' : String) :
    Keeps s (getTransactionResult replies id s).state id' := by
  unfold getTransactionResult
  split_ifs with hcomplete
  · exact .refl s id'
  · cases hm : s.metadataByTransaction id with
    | none => exact .refl s id'
    | some m =>
      have hmeta : s.metadata id = m := by simp [State.metadata, hm]
      dsimp only
      cases hs : m.singleCohortNamespace with
      | some n =>
        have hupd : Keeps s (updateResponseForSingleCohortTransaction id n
            (replies.transactionResult 0) s).1 id' := by
          unfold updateResponseForSingleCohortTransaction
          split_ifs
          · split
            · exact (keeps_setResponse s id _ id').trans (keeps_cleanUp _ id id')
            · exact (keeps_setResponse s id _ id').trans (keeps_cleanUp _ id id')
            · exact keeps_setResponse s id _ id'
          · exact .refl s id'
        dsimp only
        split_ifs
        · exact hupd
        · exact hupd
      | none =>
        dsimp only
        split_ifs
        · cases replies.votingDecision with
          | error status => exact .refl s id'
          | ok d =>
            refine (keeps_setMetadata s ?_ id').trans
              (keeps_respondToDecision id replies.transactionResult d _ id')
            rw [hmeta]
            exact ⟨rfl, hs.symm, rfl⟩
        · exact keeps_respondToDecision id replies.transactionResult m.decision s id'

theorem prepared_eq_nil {rpcs : List Rpc} (h : ∀ rpc ∈ rpcs, rpc.prepared = none) :
    prepared rpcs = [] := List.filterMap_eq_nil_iff.mpr h

theorem quiet_of_none {server : Server} {s : State} {c : Call} (h : c.toSend server s = none) :
    (∀ rpc ∈ (c.handle server s).2, rpc.prepared = none ∧ rpc.started = none) ∧
      ∀ id, Keeps s (c.handle server s).1 id := by
  cases c with
  | getTransactionResult replies id =>
    exact ⟨fun rpc => mem_getTransactionResult, keeps_getTransactionResult replies id s⟩
  | commitAtomicTransaction context request =>
    obtain ⟨hrpcs, hstate⟩ := commit_of_none h
    refine ⟨by simp [Call.handle, hrpcs], ?_⟩
    intro id'
    obtain hst | ⟨id, config, _, hst⟩ := hstate
    · simp only [Call.handle, hst]
      exact .refl s id'
    · simp only [Call.handle, hst]
      refine keeps_setMetadata s ?_ id'
      exact ⟨rfl, rfl, rfl⟩

def submissionRpcs (id : String) (config : TransactionConfig) (subs : List SubTransaction)
    (sends : Bool) : List Rpc :=
  (if 1 < subs.length then [startVoting id config.presumedAbortTime subs.length] else []) ++
    if sends then prepareRequests id config subs else []

theorem prepared_submissionRpcs (id : String) (config : TransactionConfig)
    (subs : List SubTransaction) (sends : Bool) :
    prepared (submissionRpcs id config subs sends) =
      if sends then subs.map fun sub => (id, sub.address) else [] := by
  have hstart : prepared
      (if 1 < subs.length then [startVoting id config.presumedAbortTime subs.length] else []) = [] := by
    split_ifs <;> rfl
  rw [submissionRpcs, prepared_append, hstart, List.nil_append]
  cases sends with
  | true => exact prepared_prepareRequests id config subs
  | false => rfl

theorem sends_of_some {server : Server} {s : State} {c : Call} {id : String}
    {config : TransactionConfig} {subs : List SubTransaction}
    (h : c.toSend server s = some (id, config, subs)) :
    ∃ sends : Bool, (1 < subs.length ∨ sends) ∧
      (c.handle server s).2 = submissionRpcs id config subs sends ∧
      let m := { s.metadata id with config := config }
      (c.handle server s).1 = s.setMetadata id (if sends then m.sent subs else m) := by
  cases c with
  | getTransactionResult replies id => cases h
  | commitAtomicTransaction context request =>
    obtain ⟨_, ⟨hmany, _, hrpcs, _, hst⟩ | ⟨_, hrpcs, _, hst⟩⟩ := (toSend_eq_some_iff.mp h).outcome
    · exact ⟨false, .inl hmany, by simp [Call.handle, hrpcs, submissionRpcs, hmany], hst⟩
    · exact ⟨true, .inr rfl, by simp [Call.handle, hrpcs, submissionRpcs], hst⟩

theorem Submission.subs_spec {server : Server} {c : Call} {s : State} {id : String}
    {config : TransactionConfig} {subs : List SubTransaction}
    (h : c.toSend server s = some (id, config, subs)) :
    subs ≠ [] ∧ (subs.map SubTransaction.address).Nodup ∧
      (s.metadata id).possiblySentToAllCohorts = false := by
  cases c with
  | getTransactionResult replies id => cases h
  | commitAtomicTransaction context request =>
    have hsub := toSend_eq_some_iff.mp h
    exact ⟨hsub.nonempty, hsub.nodup, hsub.unsent⟩

/-- How the records of a transaction tell whether requests of it are out. -/
structure Recorded (h : History) (id : String) : Prop where
  out : ∀ a, (id, a) ∈ prepared h.2 →
    (h.1.metadata id).possiblySentToAllCohorts ∨ (h.1.responseByTransaction id).complete
  sent : (h.1.metadata id).possiblySentToAllCohorts → ∃ a, (id, a) ∈ prepared h.2
  unsent : (h.1.metadata id).possiblySentToAllCohorts = false →
    (h.1.metadata id).cohortNamespaces = [] ∧ (h.1.metadata id).singleCohortNamespace = none

theorem Recorded.keeps {s s' : State} {rpcs new : List Rpc} {id : String}
    (hr : Recorded (s, rpcs) id) (hk : Keeps s s' id) (hnew : ∀ a, (id, a) ∉ prepared new) :
    Recorded (s', rpcs ++ new) id where
  out a ha := by
    rw [prepared_append, List.mem_append] at ha
    have hold := hr.out a (ha.resolve_right (hnew a))
    exact hold.elim hk.flag fun hc => .inr (hk.complete hc)
  sent hf := by
    obtain hs | ⟨hs, _⟩ := hk.metadata
    · obtain ⟨a, ha⟩ := hr.sent (hs.flag.symm.trans hf)
      exact ⟨a, by simp [ha]⟩
    · rw [hs.flag] at hf
      cases hf
  unsent hf := by
    obtain hs | ⟨hs, _⟩ := hk.metadata
    · rw [hs.cohorts, hs.single]
      exact hr.unsent (hs.flag.symm.trans hf)
    · rw [hs.cohorts, hs.single]
      exact ⟨rfl, rfl⟩

theorem recorded_step (server : Server) {h : History} (hr : ∀ id, Recorded h id) (c : Call)
    (id : String) : Recorded (step server h c) id := by
  cases hs : c.toSend server h.1 with
  | none =>
    obtain ⟨hquiet, hk⟩ := quiet_of_none hs
    have hnil := prepared_eq_nil fun rpc hrpc => (hquiet rpc hrpc).1
    exact (hr id).keeps (hk id) fun a => by simp [hnil]
  | some sent =>
    obtain ⟨id', config, subs⟩ := sent
    obtain ⟨hne, _, _⟩ := Submission.subs_spec hs
    obtain ⟨sends, _, hrpcs, hst⟩ := sends_of_some hs
    have hprep := prepared_submissionRpcs id' config subs sends
    by_cases hid : id = id'
    · subst hid
      cases sends with
      | false =>
        refine (hr id).keeps ?_ fun a => by rw [hrpcs, hprep]; simp
        rw [hst]
        refine keeps_setMetadata h.1 ?_ id
        exact ⟨rfl, rfl, rfl⟩
      | true =>
        have hflag : ((step server h c).1.metadata id).possiblySentToAllCohorts = true := by
          simp only [step, hst, if_true, State.metadata_setMetadata_self]
          rfl
        refine ⟨fun _ _ => .inl hflag, fun _ => ?_, fun hf => by simp [hflag] at hf⟩
        obtain ⟨sub, rest, rfl⟩ := List.exists_cons_of_ne_nil hne
        refine ⟨sub.address, ?_⟩
        rw [step, prepared_append, hrpcs, hprep]
        simp
    · refine (hr id).keeps ?_ ?_
      · rw [hst]
        exact keeps_setMetadata_of_ne h.1 _ hid
      · intro a ha
        rw [hrpcs, hprep] at ha
        split_ifs at ha
        · obtain ⟨sub, _, he⟩ := List.mem_map.mp ha
          exact hid (Prod.mk.inj he).1.symm
        · cases ha

theorem recorded_run (server : Server) (calls : List Call) (id : String) :
    Recorded (run server calls) id := by
  induction calls using List.reverseRecOn generalizing id with
  | nil =>
    refine ⟨?_, ?_, fun _ => ⟨rfl, rfl⟩⟩
    · intro a ha
      cases ha
    · intro hf
      cases hf
  | append_singleton calls c ih =>
    rw [run, List.foldl_append]
    exact recorded_step server ih c id

/-- A submission of a transaction that was prepared before, after its result was computed and
its metadata cleaned up; a single cohort that has not been sent a request of it is excepted. -/
def ResentAfterCleanUp (server : Server) (h : History) (c : Call) : Prop :=
  ∃ id config subs, c.toSend server h.1 = some (id, config, subs) ∧
    (h.1.responseByTransaction id).complete ∧ (∃ a, (id, a) ∈ prepared h.2) ∧
    ¬∃ sub, subs = [sub] ∧ (id, sub.address) ∉ prepared h.2

theorem atMostOnce_append {rpcs rpcs' : List Rpc} :
    AtMostOnce (rpcs ++ rpcs') ↔ AtMostOnce rpcs ∧ AtMostOnce rpcs' ∧
      (prepared rpcs).Disjoint (prepared rpcs') ∧
      ∀ earlier ∈ rpcs, ∀ later ∈ rpcs', ∀ id a,
        earlier.prepared = some (id, a) → later.started ≠ some id := by
  constructor
  · rintro ⟨honce, hno⟩
    rw [prepared_append, List.nodup_append'] at honce
    obtain ⟨hno₁, hno₂, hcross⟩ := List.pairwise_append.mp hno
    exact ⟨⟨honce.1, hno₁⟩, ⟨honce.2.1, hno₂⟩, honce.2.2, hcross⟩
  · rintro ⟨⟨ho, hn⟩, ⟨ho', hn'⟩, hdisj, hcross⟩
    exact ⟨by rw [prepared_append, List.nodup_append']; exact ⟨ho, ho', hdisj⟩,
      List.pairwise_append.mpr ⟨hn, hn', hcross⟩⟩

theorem mem_prepared {rpcs : List Rpc} {p : String × String} :
    p ∈ prepared rpcs ↔ ∃ rpc ∈ rpcs, rpc.prepared = some p := List.mem_filterMap

theorem mem_submissionRpcs {id : String} {config : TransactionConfig} {subs : List SubTransaction}
    {sends : Bool} {rpc : Rpc} (h : rpc ∈ submissionRpcs id config subs sends) :
    rpc.started = none ∨ (1 < subs.length ∧ rpc.started = some id) := by
  obtain h | h := List.mem_append.mp h
  · split_ifs at h with hmany
    · rw [List.mem_singleton.mp h]
      exact .inr ⟨hmany, rfl⟩
    · cases h
  · split_ifs at h
    · exact .inl (started_prepareRequests h)
    · cases h

theorem atMostOnce_submission (id : String) (config : TransactionConfig)
    {subs : List SubTransaction} (hnodup : (subs.map SubTransaction.address).Nodup) (sends : Bool) :
    AtMostOnce (submissionRpcs id config subs sends) where
  once := by
    rw [prepared_submissionRpcs]
    split_ifs
    · have hmap : (subs.map fun sub => (id, sub.address)) =
          (subs.map SubTransaction.address).map (Prod.mk id) := by simp
      rw [hmap]
      exact hnodup.map (Prod.mk_right_injective id)
    · exact List.nodup_nil
  noRestart := by
    have hlater : ∀ later ∈ (if sends then prepareRequests id config subs else []),
        later.started = none := by
      intro later hl
      split_ifs at hl
      · exact started_prepareRequests hl
      · cases hl
    refine List.pairwise_append.mpr ⟨by split_ifs <;> simp, ?_, ?_⟩
    · exact List.pairwise_of_forall_mem_list fun _ _ later hl _ _ _ => by simp [hlater later hl]
    · exact fun _ _ later hl _ _ _ => by simp [hlater later hl]

/-- A submission after h keeps the law exactly when nothing of its transaction is out, or when
it is a single request to a cohort that has none. -/
theorem submission_fits {rpcs : List Rpc} (h : AtMostOnce rpcs) {id : String}
    {config : TransactionConfig} {subs : List SubTransaction} (hne : subs ≠ [])
    (hnodup : (subs.map SubTransaction.address).Nodup) {sends : Bool}
    (hsends : 1 < subs.length ∨ sends) :
    AtMostOnce (rpcs ++ submissionRpcs id config subs sends) ↔
      (∀ a, (id, a) ∉ prepared rpcs) ∨ ∃ sub, subs = [sub] ∧ (id, sub.address) ∉ prepared rpcs := by
  rw [atMostOnce_append]
  constructor
  · rintro ⟨_, _, hdisj, hcross⟩
    by_cases hmany : 1 < subs.length
    · refine .inl ?_
      intro a ha
      obtain ⟨rpc, hrpc, hp⟩ := mem_prepared.mp ha
      refine hcross rpc hrpc (startVoting id config.presumedAbortTime subs.length) ?_ id a hp rfl
      simp [submissionRpcs, hmany]
    · have hlen : subs.length = 1 := by
        have := List.length_pos_iff.mpr hne
        omega
      obtain ⟨sub, rfl⟩ := List.length_eq_one_iff.mp hlen
      refine .inr ⟨sub, rfl, ?_⟩
      intro ha
      refine hdisj ha ?_
      rw [prepared_submissionRpcs, if_pos (hsends.resolve_left hmany)]
      simp
  · intro hfits
    have hnew : ∀ sub ∈ subs, (id, sub.address) ∉ prepared rpcs := by
      intro sub hsub
      obtain hnone | ⟨sub', rfl, hno⟩ := hfits
      · exact hnone sub.address
      · rwa [List.mem_singleton.mp hsub]
    refine ⟨h, atMostOnce_submission id config hnodup sends, ?_, ?_⟩
    · intro p hp hp'
      rw [prepared_submissionRpcs] at hp'
      split_ifs at hp'
      · obtain ⟨sub, hsub, rfl⟩ := List.mem_map.mp hp'
        exact hnew sub hsub hp
      · cases hp'
    · intro earlier he later hl id' a hp hst
      obtain hnone | ⟨hmany, hid⟩ := mem_submissionRpcs hl
      · simp [hnone] at hst
      · obtain rfl : id = id' := by simpa [hid] using hst
        obtain hnone | ⟨sub, rfl, _⟩ := hfits
        · exact hnone a (mem_prepared.mpr ⟨earlier, he, hp⟩)
        · simp at hmany

theorem atMostOnce_step (server : Server) {h : History} (hr : ∀ id, Recorded h id)
    (hl : AtMostOnce h.2)
    (c : Call) : AtMostOnce (step server h c).2 ↔ ¬ResentAfterCleanUp server h c := by
  cases hs : c.toSend server h.1 with
  | none =>
    obtain ⟨hquiet, _⟩ := quiet_of_none hs
    have hnil : prepared (c.handle server h.1).2 = [] :=
      prepared_eq_nil fun rpc hrpc => (hquiet rpc hrpc).1
    refine iff_of_true ?_ ?_
    · refine atMostOnce_append.mpr ⟨hl, ⟨by rw [hnil]; exact List.nodup_nil, ?_⟩, ?_, ?_⟩
      · exact List.pairwise_of_forall_mem_list fun _ _ later hlater _ _ _ => by
          simp [(hquiet later hlater).2]
      · simp [hnil]
      · exact fun _ _ later hlater _ _ _ => by simp [(hquiet later hlater).2]
    · rintro ⟨id, config, subs, hsome, _⟩
      rw [hs] at hsome
      cases hsome
  | some sent =>
    obtain ⟨id, config, subs⟩ := sent
    obtain ⟨hne, hnodup, hunsent⟩ := Submission.subs_spec hs
    obtain ⟨sends, hsends, hrpcs, _⟩ := sends_of_some hs
    rw [step, hrpcs, submission_fits hl hne hnodup hsends]
    constructor
    · rintro hfits ⟨id', config', subs', hsome, _, ⟨a, ha⟩, hno⟩
      obtain ⟨rfl, rfl, rfl⟩ : id = id' ∧ config = config' ∧ subs = subs' := by
        simpa [hs] using hsome
      exact hfits.elim (fun hnone => hnone a ha) hno
    · intro hno
      by_contra hfits
      obtain ⟨hex, hnot⟩ := not_or.mp hfits
      obtain ⟨a, ha⟩ : ∃ a, (id, a) ∈ prepared h.2 := by simpa using hex
      have hcomplete := ((hr id).out a ha).resolve_left (by simp [hunsent])
      exact hno ⟨id, config, subs, hs, hcomplete, ⟨a, ha⟩, hnot⟩

/-- Every transaction is sent at most once to each cohort, and its voting never restarts, exactly
in the runs in which no transaction is submitted again after its metadata was cleaned up. -/
theorem atMostOnce_iff (server : Server) (calls : List Call) :
    AtMostOnce (run server calls).2 ↔
      Runs.Throughout (step server) (fun h c => ¬ResentAfterCleanUp server h c) (initial, [])
        calls := by
  induction calls using List.reverseRecOn with
  | nil => exact iff_of_true ⟨List.nodup_nil, .nil⟩ trivial
  | append_singleton calls c ih =>
    have hrun : run server (calls ++ [c]) = step server (run server calls) c := by
      rw [run, List.foldl_append]
      rfl
    rw [Runs.throughout_append, ← ih, hrun]
    change _ ↔ _ ∧ ¬ResentAfterCleanUp server (run server calls) c ∧ True
    rw [and_true]
    constructor
    · intro h
      have hl := (atMostOnce_append.mp h).1
      exact ⟨hl, (atMostOnce_step server (recorded_run server calls) hl c).mp h⟩
    · rintro ⟨hl, hno⟩
      exact (atMostOnce_step server (recorded_run server calls) hl c).mpr hno

def localServer : Server where
  sha256 _ := some ⟨#[23, 158, 122, 141, 247, 144, 30, 40, 137, 254, 130, 192, 61, 172, 2, 91,
    29, 125, 210, 137, 8, 85, 49, 255, 216, 90, 51, 232, 139, 65, 218, 204], rfl⟩
  defaultPresumedAbortDuration := 10 * Clock.ticksPerSecond
  sortCohortRequests := false

def localContext : CommitContext where
  peer := "ipv4:127.0.0.1:50051"
  now := 100 * Clock.ticksPerSecond
  order := .insertion _
  blockchainStatus := .okStatus

def localId : String := "179e7a8df7901e2889fe82c03dac025b1d7dd289085531ffd85a33e88b41dacc"

def incrementOp (address : String) : Operation where
  namespace_ := ⟨"", address⟩
  type := some (.put ⟨"k", some (.relativeValue ⟨some ⟨some 1⟩, none⟩)⟩)

def twoIncrements : CommitAtomicTransactionRequest :=
  ⟨"id", ⟨[incrementOp "cohort:50052", incrementOp "cohort:50053"]⟩, ⟨none⟩⟩

/-- An increment at one cohort is sent again when its client retries after the result. -/
theorem resent_after_clean_up :
    ¬AtMostOnce (run localServer [
      .commitAtomicTransaction localContext ⟨"id", ⟨[incrementOp "cohort:50052"]⟩, ⟨none⟩⟩,
      .getTransactionResult
        ⟨.ok .unknown, fun _ => (.okStatus, some (.committedResponse {}))⟩ localId,
      .commitAtomicTransaction localContext ⟨"id", ⟨[incrementOp "cohort:50052"]⟩, ⟨none⟩⟩]).2 := by
  intro h
  have honce := h.once
  revert honce
  decide

end TwoPhaseCommit.Coordinator
