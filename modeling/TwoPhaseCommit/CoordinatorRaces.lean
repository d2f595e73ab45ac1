import TwoPhaseCommit.CoordinatorRuns

/-! CommitAtomicTransaction calls of one client transaction whose handlers overlap: a handler is
suspended at each call that it makes to the blockchain or a cohort, and runs alone in between. -/
namespace TwoPhaseCommit.Coordinator.Races
open Grouping

/-- Where a handler is suspended: at StartVoting, with the reply it will get, or at the
PrepareTransaction call before cohort index i. -/
inductive Handler where
  | starting (id : String) (subTransactions : List SubTransaction) (reply : Status)
  | preparing (id : String) (n : ℕ) (rest : List SubTransaction) (i : ℕ)
    (request : Cohort.PrepareTransactionRequest)
  | finished
  deriving DecidableEq

abbrev Advance := State × Handler × List Rpc

/-- The request of one round of the sending loop; the message is reused. -/
def roundRequest (n : ℕ) (sub : SubTransaction) (i : ℕ)
    (request : Cohort.PrepareTransactionRequest) : Cohort.PrepareTransactionRequest :=
  let request :=
    if n ≠ 1 then { request with participantInfo := some (.cohortIndex (UInt32.ofNat i)) }
    else request
  { request with transaction := sub.transaction }

def roundMetadata (n : ℕ) (sub : SubTransaction) (i : ℕ) (metadata : TransactionMetadata) :
    TransactionMetadata :=
  let metadata :=
    { metadata with cohortNamespaces := metadata.cohortNamespaces ++ [sub.namespace_] }
  if i = n - 1 then { metadata with possiblySentToAllCohorts := true } else metadata

/-- The sending loop up to its next PrepareTransaction call. -/
def sendNext (id : String) (n : ℕ) (subTransactions : List SubTransaction) (i : ℕ)
    (request : Cohort.PrepareTransactionRequest) (s : State) : Advance :=
  match subTransactions with
  | [] => (s, .finished, [])
  | sub :: rest =>
    (s.setMetadata id (roundMetadata n sub i (s.metadata id)),
      .preparing id n rest (i + 1) (roundRequest n sub i request),
      [.prepareTransaction sub.namespace_ (roundRequest n sub i request)])

/-- SendCohortPrepareRequests up to its first call. The config is the one noted by now. -/
def beginSend (id : String) (subTransactions : List SubTransaction) (s : State) : Advance :=
  let metadata := s.metadata id
  let request : Cohort.PrepareTransactionRequest := ⟨id, ⟨[]⟩, metadata.config, none⟩
  match subTransactions with
  | [sub] =>
    sendNext id 1 [sub] 0 { request with participantInfo := some (.onlyCohort true) }
      (s.setMetadata id { metadata with singleCohortNamespace := some sub.namespace_ })
  | _ => sendNext id subTransactions.length subTransactions 0 request (s.setMetadata id metadata)

/-- CommitAtomicTransaction up to its first call. -/
def beginHandler (server : Server) (context : CommitContext)
    (request : CommitAtomicTransactionRequest) (s : State) : Advance :=
  match getTransactionId server.sha256 request.clientTransactionId context.peer with
  | .error _ => (s, .finished, [])
  | .ok id =>
    let metadata := s.metadata id
    let s := s.setMetadata id metadata
    if metadata.possiblySentToAllCohorts then (s, .finished, [])
    else
      match computeFinalConfig request.config context.now server.defaultPresumedAbortDuration with
      | .error _ => (s, .finished, [])
      | .ok config =>
        let s := s.setMetadata id { metadata with config := config }
        let subTransactions :=
          splitClientTransaction context.order request.transaction server.sortCohortRequests
        if subTransactions = [] then (s, .finished, [])
        else if requiresBlockchain subTransactions then
          (s, .starting id subTransactions context.blockchainStatus,
            [startVoting id config.presumedAbortTime subTransactions.length])
        else beginSend id subTransactions s

/-- What a handler does when its call returns. The replies of the cohorts are ignored. -/
def resume (handler : Handler) (s : State) : Advance :=
  match handler with
  | .starting id subTransactions reply =>
    if reply.isOk then beginSend id subTransactions s else (s, .finished, [])
  | .preparing id n rest i request => sendNext id n rest i request s
  | .finished => (s, .finished, [])

inductive Event where
  | issued (rpc : Rpc)
  -- A StartVoting call has returned OK.
  | votingStarted (id : String)
  deriving DecidableEq

def Handler.returned : Handler → List Event
  | .starting id _ reply => if reply.isOk then [.votingStarted id] else []
  | _ => []

structure World where
  coordinator : State
  handlers : ℕ → Option Handler
  log : List Event

def World.initial : World := ⟨Coordinator.initial, fun _ => none, []⟩

def World.advance (W : World) (k : ℕ) (events : List Event) (a : Advance) : World :=
  ⟨a.1, Function.update W.handlers k (some a.2.1), W.log ++ events ++ a.2.2.map .issued⟩

inductive Label where
  | call (k : ℕ) (context : CommitContext) (request : CommitAtomicTransactionRequest)
  | reply (k : ℕ)

inductive Step (server : Server) (clientTransactionId peer : String) : World → Label → World → Prop
  | call {W : World} {k : ℕ} {context : CommitContext} {request : CommitAtomicTransactionRequest}
      (hnew : W.handlers k = none) (hclient : request.clientTransactionId = clientTransactionId)
      (hpeer : context.peer = peer) :
      Step server clientTransactionId peer W (.call k context request)
        (W.advance k [] (beginHandler server context request W.coordinator))
  | reply {W : World} {k : ℕ} {handler : Handler} (hk : W.handlers k = some handler)
      (hbusy : handler ≠ .finished) :
      Step server clientTransactionId peer W (.reply k)
        (W.advance k handler.returned (resume handler W.coordinator))

def Event.rpc : Event → Option Rpc
  | .issued rpc => some rpc
  | .votingStarted _ => none

def issued (log : List Event) : List Rpc := log.filterMap Event.rpc

structure StartedOnce (id : String) (log : List Event) : Prop where
  once : log.count (.votingStarted id) ≤ 1
  noRestart : log.Pairwise fun e e' => e = .votingStarted id → ∀ rpc, e' = .issued rpc →
    rpc.started ≠ some id

/-- The resubmissions of a transaction have done no harm. -/
structure Harmless (id : String) (W : World) : Prop where
  started : StartedOnce id W.log
  preparedOnce : (prepared (issued W.log)).Nodup
  namespaces : ((W.coordinator.metadata id).cohortNamespaces.map Namespace.address).Nodup

def Handler.Pending : Handler → Prop
  | .starting _ _ reply => reply.isOk
  | .preparing .. => True
  | .finished => False

def World.Quiet (W : World) : Prop := ∀ k handler, W.handlers k = some handler → ¬handler.Pending

/-- A call with requests to send comes only when no suspended handler may still call a cohort. -/
def InTurn (server : Server) (W : World) : Label → Prop
  | .call _ context request => toSend server context request W.coordinator = none ∨ W.Quiet
  | .reply _ => True

def runAlone : ℕ → Advance → State × List Rpc
  | 0, a => (a.1, a.2.2)
  | returns + 1, a =>
    let rest := runAlone returns (resume a.2.1 a.1)
    (rest.1, a.2.2 ++ rest.2)

theorem runAlone_finished (returns : ℕ) (s : State) (rpcs : List Rpc) :
    runAlone returns (s, .finished, rpcs) = (s, rpcs) := by
  induction returns generalizing rpcs with
  | zero => rfl
  | succ returns ih => simp [runAlone, resume, ih]

theorem runAlone_sendNext (id : String) (n : ℕ) (sub : SubTransaction) (rest : List SubTransaction)
    (i : ℕ) (request : Cohort.PrepareTransactionRequest) (s : State) :
    runAlone (sub :: rest).length (sendNext id n (sub :: rest) i request s) =
      (s.setMetadata id (prepareLoop n (sub :: rest) i request (s.metadata id)).1,
        (prepareLoop n (sub :: rest) i request (s.metadata id)).2) := by
  have hround (rest : List SubTransaction) (m : TransactionMetadata) :
      prepareLoop n (sub :: rest) i request m =
        ((prepareLoop n rest (i + 1) (roundRequest n sub i request) (roundMetadata n sub i m)).1,
          .prepareTransaction sub.namespace_ (roundRequest n sub i request) ::
            (prepareLoop n rest (i + 1) (roundRequest n sub i request) (roundMetadata n sub i m)).2) :=
    rfl
  induction rest generalizing sub i request s with
  | nil =>
    rw [List.length_singleton, runAlone, hround]
    simp only [sendNext, resume, runAlone_finished, prepareLoop, List.append_nil]
  | cons sub' rest ih =>
    have hresume : resume (sendNext id n (sub :: sub' :: rest) i request s).2.1
        (sendNext id n (sub :: sub' :: rest) i request s).1 =
        sendNext id n (sub' :: rest) (i + 1) (roundRequest n sub i request)
          (s.setMetadata id (roundMetadata n sub i (s.metadata id))) := rfl
    rw [List.length_cons, runAlone, hresume,
      ih sub' (i + 1) _ _ fun _ _ => rfl, hround, State.metadata_setMetadata_self,
      State.setMetadata_setMetadata]
    rfl

theorem runAlone_beginSend (id : String) {subs : List SubTransaction} (h : subs ≠ []) (s : State) :
    runAlone subs.length (beginSend id subs s) = sendCohortPrepareRequests id subs s := by
  unfold beginSend sendCohortPrepareRequests
  rcases subs with _ | ⟨sub, _ | ⟨sub', rest⟩⟩
  · exact absurd rfl h
  · refine (runAlone_sendNext id 1 sub [] 0 _ _).trans ?_
    rw [State.metadata_setMetadata_self, State.setMetadata_setMetadata]
  · refine (runAlone_sendNext id _ sub (sub' :: rest) 0 _ _).trans ?_
    rw [State.metadata_setMetadata_self, State.setMetadata_setMetadata]

/-- A handler that is not disturbed does what `commitAtomicTransaction` says. -/
theorem runAlone_beginHandler (server : Server) (context : CommitContext)
    (request : CommitAtomicTransactionRequest) (s : State) :
    ∃ returns, runAlone returns (beginHandler server context request s) =
      ((commitAtomicTransaction server context request s).state,
        (commitAtomicTransaction server context request s).rpcs) := by
  unfold beginHandler commitAtomicTransaction
  cases getTransactionId server.sha256 request.clientTransactionId context.peer with
  | error status => exact ⟨0, rfl⟩
  | ok id =>
    dsimp only
    by_cases hflag : (s.metadata id).possiblySentToAllCohorts
    · rw [if_pos hflag, if_pos hflag]
      exact ⟨0, rfl⟩
    · rw [if_neg hflag, if_neg hflag]
      cases computeFinalConfig request.config context.now server.defaultPresumedAbortDuration with
      | error status => exact ⟨0, rfl⟩
      | ok config =>
        dsimp only
        split_ifs with hnil hmany hok
        · exact ⟨0, rfl⟩
        · refine ⟨(splitClientTransaction context.order request.transaction
            server.sortCohortRequests).length + 1, ?_⟩
          rw [runAlone, resume, if_pos hok, runAlone_beginSend id hnil]
          rfl
        · exact ⟨1, by simp [runAlone, resume, hok]⟩
        · exact ⟨_, runAlone_beginSend id hnil _⟩

section Races
variable {server : Server} {client peer id : String} {W W' : World} {k : ℕ} {x : Label}
  {log : List Event}

theorem StartedOnce.of_not_mem (h : .votingStarted id ∉ log) : StartedOnce id log where
  once := by rw [List.count_eq_zero_of_not_mem h]; exact Nat.zero_le 1
  noRestart := List.pairwise_of_forall_mem_list fun e he _ _ hv => absurd (hv ▸ he) h

theorem StartedOnce.issued {rpcs : List Rpc} (h : StartedOnce id log)
    (hrpcs : ∀ rpc ∈ rpcs, rpc.started ≠ some id) :
    StartedOnce id (log ++ rpcs.map .issued) where
  once := by
    have hnone : .votingStarted id ∉ rpcs.map Event.issued := by simp
    rw [List.count_append, List.count_eq_zero_of_not_mem hnone]
    exact h.once
  noRestart := by
    refine List.pairwise_append.mpr ⟨h.noRestart, ?_, ?_⟩
    · refine List.pairwise_of_forall_mem_list fun e he _ _ hv => ?_
      subst hv
      simp at he
    · intro e _ e' he' _ rpc hrpc
      subst hrpc
      exact hrpcs rpc (by simpa using he')

theorem StartedOnce.voting (h : .votingStarted id ∉ log) :
    StartedOnce id (log ++ [.votingStarted id]) where
  once := by
    rw [List.count_append, List.count_eq_zero_of_not_mem h]
    simp
  noRestart := by
    refine List.pairwise_append.mpr ⟨(StartedOnce.of_not_mem h).noRestart, List.pairwise_singleton _ _, ?_⟩
    intro e he _ _ hv
    exact absurd (hv ▸ he) h

def World.Only (W : World) (k : ℕ) : Prop :=
  ∀ u handler, u ≠ k → W.handlers u = some handler → ¬handler.Pending

theorem World.Quiet.only (h : W.Quiet) (k : ℕ) : W.Only k := fun u handler _ hu => h u handler hu

theorem World.Only.advance (h : W.Only k) (events : List Event) (a : Advance) :
    (W.advance k events a).Only k := by
  intro u handler hne hu
  simp only [World.advance, Function.update_of_ne hne] at hu
  exact h u handler hne hu

theorem World.Only.quiet (h : W.Only k) {events : List Event} {a : Advance}
    (ha : ¬a.2.1.Pending) : (W.advance k events a).Quiet := by
  intro u handler hu
  by_cases hne : u = k
  · subst hne
    simp only [World.advance, Function.update_self, Option.some.injEq] at hu
    rwa [← hu]
  · exact h.advance events a u handler hne hu

structure Records (id : String) (m : TransactionMetadata) (log : List Event)
    (sent : List SubTransaction) : Prop where
  namespaces : m.cohortNamespaces = sent.map SubTransaction.namespace_
  prepared : prepared (issued log) = sent.map fun sub => (id, sub.address)

/-- How far the submission of a transaction is. -/
inductive Stage (id : String) (W : World) : Prop
  | unsent (hflag : (W.coordinator.metadata id).possiblySentToAllCohorts = false)
      (hrec : Records id (W.coordinator.metadata id) W.log [])
      (hvoting : .votingStarted id ∉ W.log)
      (hbusy : W.Quiet ∨ ∃ k subs reply, W.Only k ∧
        W.handlers k = some (.starting id subs reply) ∧ reply.isOk ∧ subs ≠ [] ∧
        (subs.map SubTransaction.address).Nodup)
  | sending {k : ℕ} {sent rest : List SubTransaction} {request : Cohort.PrepareTransactionRequest}
      (honly : W.Only k)
      (hk : W.handlers k =
        some (.preparing id (sent.length + rest.length) rest sent.length request))
      (hid : request.transactionId = id)
      (hnodup : ((sent ++ rest).map SubTransaction.address).Nodup)
      (hrec : Records id (W.coordinator.metadata id) W.log sent)
      (hstarted : StartedOnce id W.log)
      (hflag : (W.coordinator.metadata id).possiblySentToAllCohorts = decide (rest = []))
  | sent {subs : List SubTransaction} (hquiet : W.Quiet)
      (hflag : (W.coordinator.metadata id).possiblySentToAllCohorts)
      (hnodup : (subs.map SubTransaction.address).Nodup)
      (hrec : Records id (W.coordinator.metadata id) W.log subs)
      (hstarted : StartedOnce id W.log)

theorem Records.harmless {subs : List SubTransaction}
    (h : Records id (W.coordinator.metadata id) W.log subs)
    (hnodup : (subs.map SubTransaction.address).Nodup) (hstarted : StartedOnce id W.log) :
    Harmless id W where
  started := hstarted
  preparedOnce := by
    have hinj : Function.Injective (Prod.mk id : String → String × String) :=
      fun _ _ he => (Prod.mk.inj he).2
    have hpairs := hnodup.map hinj
    rw [List.map_map] at hpairs
    rw [h.prepared]
    exact hpairs
  namespaces := by
    rw [h.namespaces, List.map_map]
    exact hnodup

theorem Stage.harmless (h : Stage id W) : Harmless id W := by
  cases h with
  | unsent hflag hrec hvoting hbusy => exact hrec.harmless List.nodup_nil (.of_not_mem hvoting)
  | sending honly hk hid hnodup hrec hstarted hflag =>
    rw [List.map_append] at hnodup
    exact hrec.harmless (List.nodup_append'.mp hnodup).1 hstarted
  | sent hquiet hflag hnodup hrec hstarted => exact hrec.harmless hnodup hstarted

theorem beginHandler_of_none {context : CommitContext} {request : CommitAtomicTransactionRequest}
    {s : State} (h : toSend server context request s = none)
    (hid : getTransactionId server.sha256 request.clientTransactionId context.peer = .ok id) :
    ∃ s', beginHandler server context request s = (s', .finished, []) ∧
      SameCohorts (s.metadata id) (s'.metadata id) := by
  have hmeta (m : TransactionMetadata) : (s.setMetadata id m).metadata id = m :=
    State.metadata_setMetadata_self ..
  unfold beginHandler
  rw [hid]
  dsimp only
  obtain hsent | ⟨hunsent, ⟨status, hc⟩ | ⟨config, hc, hnil⟩⟩ := toSend_none_cases hid h
  · rw [if_pos hsent]
    exact ⟨_, rfl, by rw [hmeta]; exact ⟨rfl, rfl, rfl⟩⟩
  · rw [if_neg (by simp [hunsent]), hc]
    exact ⟨_, rfl, by rw [hmeta]; exact ⟨rfl, rfl, rfl⟩⟩
  · rw [if_neg (by simp [hunsent]), hc]
    dsimp only
    rw [if_pos hnil, State.setMetadata_setMetadata]
    exact ⟨_, rfl, by rw [hmeta]; exact ⟨rfl, rfl, rfl⟩⟩

theorem beginHandler_of_submission {context : CommitContext}
    {request : CommitAtomicTransactionRequest} {s : State} {config : TransactionConfig}
    {subs : List SubTransaction} (h : Submission server context request s id config subs) :
    beginHandler server context request s =
      if 1 < subs.length then
        (s.setMetadata id { s.metadata id with config := config },
          .starting id subs context.blockchainStatus,
          [startVoting id config.presumedAbortTime subs.length])
      else beginSend id subs (s.setMetadata id { s.metadata id with config := config }) := by
  obtain ⟨hid, hunsent, hc, hsubs, hne⟩ := h
  have hunsent' : ¬(s.metadata id).possiblySentToAllCohorts = true := by simp [hunsent]
  unfold beginHandler
  rw [hid]
  dsimp only
  rw [if_neg hunsent', hc]
  dsimp only
  rw [← hsubs, if_neg hne, State.setMetadata_setMetadata]
  simp [requiresBlockchain]

theorem roundMetadata_spec (n : ℕ) (sub : SubTransaction) (i : ℕ) (m : TransactionMetadata) :
    (roundMetadata n sub i m).cohortNamespaces = m.cohortNamespaces ++ [sub.namespace_] ∧
      (roundMetadata n sub i m).possiblySentToAllCohorts =
        (m.possiblySentToAllCohorts || decide (i = n - 1)) := by
  unfold roundMetadata
  by_cases hi : i = n - 1 <;> simp [hi]

theorem transactionId_roundRequest (n : ℕ) (sub : SubTransaction) (i : ℕ)
    (request : Cohort.PrepareTransactionRequest) :
    (roundRequest n sub i request).transactionId = request.transactionId := by
  unfold roundRequest
  by_cases hn : n = 1 <;> simp [hn]

theorem Stage.send {sent rest : List SubTransaction} {sub : SubTransaction} {s : State}
    {request : Cohort.PrepareTransactionRequest} {events : List Event} (honly : W.Only k)
    (hid : request.transactionId = id)
    (hnodup : ((sent ++ sub :: rest).map SubTransaction.address).Nodup)
    (hrec : Records id (s.metadata id) (W.log ++ events) sent)
    (hstarted : StartedOnce id (W.log ++ events))
    (hflag : (s.metadata id).possiblySentToAllCohorts = false) :
    Stage id (W.advance k events (sendNext id (sent.length + (sub :: rest).length) (sub :: rest)
      sent.length request s)) := by
  have hsplit : sent ++ sub :: rest = (sent ++ [sub]) ++ rest := by simp
  have hlen : sent.length + (sub :: rest).length = (sent ++ [sub]).length + rest.length := by
    simp only [List.length_append, List.length_cons, List.length_nil]
    omega
  rw [hlen]
  generalize hn : (sent ++ [sub]).length + rest.length = n
  have hlast : decide (sent.length = n - 1) = decide (rest = []) := by
    subst hn
    cases rest with
    | nil => simp
    | cons sub' rest =>
      simp
      omega
  obtain ⟨hns, hfl⟩ := roundMetadata_spec n sub sent.length (s.metadata id)
  let W' := W.advance k events (sendNext id n (sub :: rest) sent.length request s)
  have hk : W'.handlers k = some (.preparing id ((sent ++ [sub]).length + rest.length) rest
      (sent ++ [sub]).length (roundRequest n sub sent.length request)) := by
    rw [hn, List.length_append]
    exact Function.update_self ..
  have hm : W'.coordinator.metadata id = roundMetadata n sub sent.length (s.metadata id) :=
    State.metadata_setMetadata_self ..
  have hlog : W'.log = W.log ++ events ++
      [.issued (.prepareTransaction sub.namespace_ (roundRequest n sub sent.length request))] := rfl
  have hreq := (transactionId_roundRequest n sub sent.length request).trans hid
  refine .sending (honly.advance _ _) hk hreq (by rwa [← hsplit]) ⟨?_, ?_⟩ ?_ ?_
  · rw [hm, hns, hrec.namespaces, List.map_append]
    rfl
  · rw [hlog, issued, List.filterMap_append, prepared_append, ← issued, hrec.prepared,
      List.map_append]
    simp [Event.rpc, prepared, Rpc.prepared, hreq, SubTransaction.address]
  · exact hstarted.issued (by simp [sendNext, Rpc.started])
  · rw [hm, hfl, hflag, hlast, Bool.false_or]

theorem Stage.beginSend {subs : List SubTransaction} {s : State} {events : List Event}
    (honly : W.Only k) (hne : subs ≠ []) (hnodup : (subs.map SubTransaction.address).Nodup)
    (hrec : Records id (s.metadata id) (W.log ++ events) [])
    (hstarted : StartedOnce id (W.log ++ events))
    (hflag : (s.metadata id).possiblySentToAllCohorts = false) :
    Stage id (W.advance k events (Races.beginSend id subs s)) := by
  have hsend {sub : SubTransaction} {rest : List SubTransaction}
      {request : Cohort.PrepareTransactionRequest} {m : TransactionMetadata}
      (hid : request.transactionId = id) (hnodup : ((sub :: rest).map SubTransaction.address).Nodup)
      (hm : m.cohortNamespaces = (s.metadata id).cohortNamespaces)
      (hf : m.possiblySentToAllCohorts = (s.metadata id).possiblySentToAllCohorts) :
      Stage id (W.advance k events
        (sendNext id (sub :: rest).length (sub :: rest) 0 request (s.setMetadata id m))) := by
    have hmeta : (s.setMetadata id m).metadata id = m := State.metadata_setMetadata_self ..
    have hrec' : Records id ((s.setMetadata id m).metadata id) (W.log ++ events) [] :=
      ⟨by rw [hmeta, hm, hrec.namespaces], hrec.prepared⟩
    have hstage := Stage.send honly hid hnodup hrec' hstarted (by rw [hmeta, hf, hflag])
    rwa [List.length_nil, Nat.zero_add] at hstage
  unfold Races.beginSend
  rcases subs with _ | ⟨sub, _ | ⟨sub', rest⟩⟩
  · exact absurd rfl hne
  · exact hsend rfl hnodup rfl rfl
  · exact hsend rfl hnodup rfl rfl

theorem World.Only.finished (h : W.Only k) {u : ℕ} {events : List Event} {a : Advance}
    (ha : ¬a.2.1.Pending) : (W.advance u events a).Only k := by
  intro v handler hne hv
  by_cases hu : v = u
  · subst hu
    simp only [World.advance, Function.update_self, Option.some.injEq] at hv
    rwa [← hv]
  · simp only [World.advance, Function.update_of_ne hu] at hv
    exact h v handler hne hv

theorem World.handlers_advance_of_ne {u : ℕ} (hne : u ≠ k) (events : List Event) (a : Advance) :
    (W.advance k events a).handlers u = W.handlers u := Function.update_of_ne hne ..

theorem Stage.idle (h : Stage id W)
    (hidle : ∀ handler, W.handlers k = some handler → ¬handler.Pending) {s : State}
    (hs : SameCohorts (W.coordinator.metadata id) (s.metadata id)) :
    Stage id (W.advance k [] (s, .finished, [])) := by
  have hne {u : ℕ} {handler : Handler} (hu : W.handlers u = some handler)
      (hpending : handler.Pending) : u ≠ k := by
    rintro rfl
    exact hidle handler hu hpending
  have hlog : (W.advance k [] (s, .finished, [])).log = W.log := by simp [World.advance]
  have hrecords {sent : List SubTransaction}
      (hrec : Records id (W.coordinator.metadata id) W.log sent) :
      Records id (s.metadata id) (W.advance k [] (s, .finished, [])).log sent := by
    rw [hlog]
    exact ⟨hs.cohorts.trans hrec.namespaces, hrec.prepared⟩
  cases h with
  | unsent hflag hrec hvoting hbusy =>
    refine .unsent (hs.flag.trans hflag) (hrecords hrec) (by rwa [hlog]) ?_
    obtain hquiet | ⟨u, subs, reply, honly, hu, hok, hsubs⟩ := hbusy
    · exact .inl ((hquiet.only k).quiet not_false)
    · refine .inr ⟨u, subs, reply, honly.finished not_false, ?_, hok, hsubs⟩
      rwa [World.handlers_advance_of_ne (hne hu hok)]
  | sending honly hu hid hnodup hrec hstarted hflag =>
    refine .sending (honly.finished not_false) ?_ hid hnodup (hrecords hrec) (by rwa [hlog])
      (hs.flag.trans hflag)
    rwa [World.handlers_advance_of_ne (hne hu trivial)]
  | sent hquiet hflag hnodup hrec hstarted =>
    exact .sent ((hquiet.only k).quiet not_false) (hs.flag.trans hflag) hnodup (hrecords hrec)
      (by rwa [hlog])

theorem Stage.submit (h : Stage id W) (hquiet : W.Quiet) {context : CommitContext}
    {request : CommitAtomicTransactionRequest} {config : TransactionConfig}
    {subs : List SubTransaction}
    (hsub : Submission server context request W.coordinator id config subs) :
    Stage id (W.advance k [] (beginHandler server context request W.coordinator)) := by
  cases h with
  | sending honly hk hid hnodup hrec hstarted hflag => exact absurd trivial (hquiet _ _ hk)
  | sent _ hflag hnodup hrec hstarted =>
    rw [hsub.unsent] at hflag
    cases hflag
  | unsent hflag hrec hvoting hbusy =>
    have hnodup := hsub.nodup
    have hmeta : (W.coordinator.setMetadata id
        { W.coordinator.metadata id with config := config }).metadata id =
        { W.coordinator.metadata id with config := config } := State.metadata_setMetadata_self ..
    rw [beginHandler_of_submission hsub]
    split_ifs with hmany
    · refine .unsent ?_ ⟨?_, ?_⟩ ?_ ?_
      · exact (congrArg TransactionMetadata.possiblySentToAllCohorts hmeta).trans hflag
      · exact (congrArg TransactionMetadata.cohortNamespaces hmeta).trans hrec.namespaces
      · simpa [World.advance, issued, Event.rpc, prepared, startVoting, Rpc.prepared]
          using hrec.prepared
      · simpa [World.advance] using hvoting
      · by_cases hok : context.blockchainStatus.isOk
        · exact .inr ⟨k, subs, context.blockchainStatus, (hquiet.only k).advance _ _,
            Function.update_self .., hok, hsub.nonempty, hnodup⟩
        · exact .inl ((hquiet.only k).quiet hok)
    · have hlog : W.log ++ [] = W.log := List.append_nil _
      refine Stage.beginSend (hquiet.only k) hsub.nonempty hnodup ⟨?_, ?_⟩ ?_ ?_
      · exact (congrArg TransactionMetadata.cohortNamespaces hmeta).trans hrec.namespaces
      · rw [hlog, hrec.prepared]
      · rw [hlog]
        exact .of_not_mem hvoting
      · exact (congrArg TransactionMetadata.possiblySentToAllCohorts hmeta).trans hflag

theorem Handler.resume_of_not_pending {handler : Handler} (h : ¬handler.Pending) (s : State) :
    handler.returned = [] ∧ resume handler s = (s, .finished, []) := by
  cases handler with
  | starting id subs reply => exact ⟨if_neg h, if_neg h⟩
  | preparing id n rest i request => exact absurd trivial h
  | finished => exact ⟨rfl, rfl⟩

theorem Stage.reply (h : Stage id W) {handler : Handler} (hk : W.handlers k = some handler) :
    Stage id (W.advance k handler.returned (resume handler W.coordinator)) := by
  by_cases hpending : handler.Pending
  · have heq {u : ℕ} (honly : W.Only u) : k = u := by
      by_contra hne
      exact honly k handler hne hk hpending
    cases h with
    | sent hquiet hflag hnodup hrec hstarted => exact absurd hpending (hquiet k handler hk)
    | unsent hflag hrec hvoting hbusy =>
      obtain hquiet | ⟨u, subs, reply, honly, hu, hok, hne, hnodup⟩ := hbusy
      · exact absurd hpending (hquiet k handler hk)
      · obtain rfl := heq honly
        obtain rfl := Option.some.inj (hu.symm.trans hk)
        simp only [Handler.returned, resume, hok, if_true]
        refine Stage.beginSend honly hne hnodup ⟨hrec.namespaces, ?_⟩ (.voting hvoting) hflag
        have hissued : issued (W.log ++ [.votingStarted id]) = issued W.log := by
          simp [issued, Event.rpc, List.filterMap_cons]
        rw [hissued, hrec.prepared]
    | @sending u sent rest request honly hu hid hnodup hrec hstarted hflag =>
      obtain rfl := heq honly
      obtain rfl := Option.some.inj (hu.symm.trans hk)
      have hlog : W.log ++ [] = W.log := List.append_nil _
      cases rest with
      | nil =>
        have hrec' : Records id (W.coordinator.metadata id) (W.log ++ [] ++ []) sent := by
          rwa [hlog, hlog]
        have hstarted' : StartedOnce id (W.log ++ [] ++ []) := by rwa [hlog, hlog]
        rw [List.append_nil] at hnodup
        exact .sent (honly.quiet not_false) hflag hnodup hrec' hstarted'
      | cons sub rest =>
        have hrec' : Records id (W.coordinator.metadata id) (W.log ++ []) sent := by rwa [hlog]
        have hstarted' : StartedOnce id (W.log ++ []) := by rwa [hlog]
        exact Stage.send honly hid hnodup hrec' hstarted' hflag
  · obtain ⟨hreturned, hresume⟩ := Handler.resume_of_not_pending hpending W.coordinator
    rw [hreturned, hresume]
    refine h.idle (fun handler' hk' => ?_) ⟨rfl, rfl, rfl⟩
    obtain rfl := Option.some.inj (hk.symm.trans hk')
    exact hpending

theorem Stage.step (hid : getTransactionId server.sha256 client peer = .ok id) (h : Stage id W)
    (hs : Step server client peer W x W') (hin : InTurn server W x) : Stage id W' := by
  cases hs with
  | @call k context request hnew hclient hpeer =>
    rw [← hclient, ← hpeer] at hid
    cases hsend : toSend server context request W.coordinator with
    | none =>
      obtain ⟨s, he, hsame⟩ := beginHandler_of_none hsend hid
      rw [he]
      exact h.idle (fun handler hk => by cases hnew.symm.trans hk) hsame
    | some r =>
      obtain ⟨id', config, subs⟩ := r
      have hsub := toSend_eq_some_iff.mp hsend
      obtain rfl : id' = id := Except.ok.inj (hsub.id_eq.symm.trans hid)
      have hquiet : W.Quiet := hin.resolve_left (by rw [hsend]; simp)
      exact h.submit hquiet hsub
  | reply hk hbusy => exact h.reply hk

theorem Stage.initial (id : String) : Stage id .initial :=
  .unsent rfl ⟨rfl, rfl⟩ List.not_mem_nil (.inl fun _ _ h => by cases h)

/-- Resubmissions are harmless when no call with requests to send comes while a handler of the
same transaction is suspended. -/
theorem harmless_in_turn {xs : List Label}
    (hid : getTransactionId server.sha256 client peer = .ok id)
    (h : Runs.Run (fun W x W' => Step server client peer W x W' ∧ InTurn server W x) .initial xs W) :
    Harmless id W := by
  have hstage : Stage id W := Runs.Run.invariant (I := fun _ W => Stage id W) (Stage.initial id)
    (fun _ _ _ _ _ hi hs => hi.step hid hs.1 hs.2) h
  exact hstage.harmless

end Races

def localCall (k : ℕ) : Label := .call k localContext twoIncrements

def localStarting : Handler := .starting localId
  (splitClientTransaction localContext.order twoIncrements.transaction false) .okStatus

/-- A retry that overtakes the StartVoting call of the first submission: the contract takes both
StartVoting calls, and both handlers go on to the cohorts. -/
theorem overlapping_retry : ∃ W,
    Runs.Run (Step localServer "id" localContext.peer) .initial
      [localCall 0, localCall 1, .reply 0, .reply 1] W ∧
    (∃ s, AdapterChain.startVoting 100 localId 110 2 Contract.deployed = some s ∧
      (AdapterChain.startVoting 100 localId 110 2 s).isSome) ∧
    ¬Harmless localId W := by
  have hstart : (beginHandler localServer localContext twoIncrements initial).2.1 =
      localStarting := by decide
  refine ⟨_, .cons (.call rfl rfl rfl) (.cons (.call rfl rfl rfl) (.cons
    (@Step.reply _ _ _ _ _ localStarting ?_ ?_) (.single
    (@Step.reply _ _ _ _ _ localStarting ?_ ?_)))), ⟨_, rfl, rfl⟩, ?_⟩
  · decide
  · decide
  · decide
  · decide
  · intro h
    have honce := h.started.once
    revert honce
    decide

/-- A retry that comes while the last cohort is being asked. -/
theorem harmless_late_retry : ∃ W,
    Runs.Run (fun W x W' => Step localServer "id" localContext.peer W x W' ∧
      InTurn localServer W x) .initial
      [localCall 0, .reply 0, .reply 0, localCall 1, .reply 0] W ∧ Harmless localId W := by
  have hrun : ∃ W, Runs.Run (fun W x W' => Step localServer "id" localContext.peer W x W' ∧
      InTurn localServer W x) .initial
      [localCall 0, .reply 0, .reply 0, localCall 1, .reply 0] W :=
    ⟨_, .cons ⟨.call rfl rfl rfl, .inr fun _ _ h => by cases h⟩
      (.cons ⟨@Step.reply _ _ _ _ _ localStarting (by decide) (by decide), trivial⟩
      (.cons ⟨.reply rfl (by decide), trivial⟩
      (.cons ⟨.call rfl rfl rfl, .inl (by decide)⟩
      (.single ⟨.reply rfl (by decide), trivial⟩))))⟩
  obtain ⟨W, hrun⟩ := hrun
  exact ⟨W, hrun, harmless_in_turn (by decide) hrun⟩

end TwoPhaseCommit.Coordinator.Races
