import TwoPhaseCommit.CoordinatorAnswers
import TwoPhaseCommit.Submission

/-! What later polls see of a submission that is rejected, and of one that is accepted with
nothing to send. -/
namespace TwoPhaseCommit.Coordinator
open Grouping
open AdapterChain.Blockchain (VotingDecision)

inductive Handled where
  | commitAtomicTransaction (context : CommitContext) (request : CommitAtomicTransactionRequest)
    (rpcs : List Rpc) (status : Status) (response : CommitAtomicTransactionResponse)
  | getTransactionResult (replies : Replies) (transactionId : String) (rpcs : List Rpc)
    (status : Status) (response : GetTransactionResultResponse)

def Call.serve (server : Server) : Call → State → State × Handled
  | .commitAtomicTransaction context request, s =>
    let o := Coordinator.commitAtomicTransaction server context request s
    (o.state, .commitAtomicTransaction context request o.rpcs o.status o.response)
  | .getTransactionResult replies transactionId, s =>
    let o := Coordinator.getTransactionResult replies transactionId s
    (o.state, .getTransactionResult replies transactionId o.rpcs o.status o.response)

abbrev Log := State × List Handled

def serve (server : Server) (l : Log) (c : Call) : Log :=
  let r := c.serve server l.1
  (r.1, l.2 ++ [r.2])

def served (server : Server) (s : State) (calls : List Call) : Log :=
  calls.foldl (serve server) (s, [])

def Handled.accepts (id : String) : Handled → Prop
  | .commitAtomicTransaction _ _ _ status response =>
    status.isOk ∧ response.globalTransactionId = id
  | .getTransactionResult .. => False

def Handled.acceptsOps (id : String) : Handled → Prop
  | .commitAtomicTransaction _ request _ status response =>
    (status.isOk ∧ response.globalTransactionId = id) ∧ request.transaction.ops ≠ []
  | .getTransactionResult .. => False

def Handled.starts (id : String) : Handled → Prop
  | .commitAtomicTransaction context _ rpcs _ _ =>
    context.blockchainStatus.isOk ∧ ∃ abortTime n, Rpc.startVoting id abortTime n ∈ rpcs
  | .getTransactionResult .. => False

def Handled.asks (id : String) : Handled → Prop
  | .commitAtomicTransaction .. => False
  | .getTransactionResult _ transactionId rpcs _ _ =>
    transactionId = id ∧ Rpc.getVotingDecision id ∈ rpcs

/-- What becomes of a submission of the transaction id. -/
inductive Handling (server : Server) (context : CommitContext)
    (request : CommitAtomicTransactionRequest) (s : State) (id : String)
    (o : Outcome CommitAtomicTransactionResponse) : Prop
  | again (hsent : (s.metadata id).possiblySentToAllCohorts) (hok : o.status.isOk)
    (hrpcs : o.rpcs = []) (hstate : o.state = s.setMetadata id (s.metadata id))
  | rejected (config : TransactionConfig)
    (hunsent : (s.metadata id).possiblySentToAllCohorts = false) (hfail : o.status.isOk = false)
    (hrpcs : o.rpcs = [] ∨ context.blockchainStatus.isOk = false)
    (hstate : o.state = s.setMetadata id { s.metadata id with config := config })
  | empty (config : TransactionConfig)
    (hunsent : (s.metadata id).possiblySentToAllCohorts = false) (hok : o.status.isOk)
    (hops : request.transaction.ops = []) (hrpcs : o.rpcs = [])
    (hstate : o.state = s.setMetadata id { s.metadata id with config := config })
  | sent (config : TransactionConfig) (subs : List SubTransaction)
    (hsub : Submission server context request s id config subs) (hok : o.status.isOk)
    (hrpcs : o.rpcs = submissionRpcs id config subs true)
    (hstarted : 1 < subs.length → context.blockchainStatus.isOk)
    (hstate : o.state =
      s.setMetadata id (({ s.metadata id with config := config } : TransactionMetadata).sent subs))

theorem commit_handling {server : Server} {context : CommitContext}
    {request : CommitAtomicTransactionRequest} {s : State} {id : String}
    (hid : getTransactionId server.sha256 request.clientTransactionId context.peer = .ok id) :
    let o := commitAtomicTransaction server context request s
    o.response.globalTransactionId = id ∧ Handling server context request s id o := by
  cases hsend : toSend server context request s with
  | some sent =>
    obtain ⟨id', config, subs⟩ := sent
    have hsub := toSend_eq_some_iff.mp hsend
    obtain rfl : id = id' := by
      have h := hsub.id_eq
      rw [hid] at h
      exact Except.ok.inj h
    obtain ⟨hresponse, ⟨hmany, hfail, hrpcs, hcode, hstate⟩ | ⟨hstarted, hrpcs, hok, hstate⟩⟩ :=
      hsub.outcome
    · refine ⟨by rw [hresponse], .rejected config hsub.unsent ?_ (.inr hfail) hstate⟩
      simpa [Status.isOk, hcode] using hfail
    · refine ⟨by rw [hresponse], .sent config subs hsub (by rw [hok]; rfl) ?_ hstarted hstate⟩
      rw [hrpcs, submissionRpcs, if_pos rfl]
  | none =>
    obtain ⟨hrpcs, hresponse, ⟨hsent, hok, hstate⟩ | ⟨hunsent, hfail, hstate⟩ |
      ⟨hunsent, hok, hnil, config, hstate⟩⟩ := commit_none_cases hid hsend
    · exact ⟨hresponse, .again hsent hok hrpcs hstate⟩
    · exact ⟨hresponse, .rejected (s.metadata id).config hunsent hfail (.inl hrpcs) hstate⟩
    · have hops : request.transaction.ops = [] := by
        by_contra hne
        exact split_ne_nil context.order hne server.sortCohortRequests hnil
      exact ⟨hresponse, .empty config hunsent hok hops hrpcs hstate⟩

/-- The coordinator has heard of a transaction. -/
def State.Knows (s : State) (id : String) : Prop :=
  (s.metadataByTransaction id).isSome ∨ (s.responseByTransaction id).complete

/-- After a submission everything goes on as if it had not been made; above all its transaction is
not found until a later submission of it is accepted. -/
structure NoTrace (server : Server) (context : CommitContext)
    (request : CommitAtomicTransactionRequest) (s : State) : Prop where
  same : ∀ calls,
    (served server (commitAtomicTransaction server context request s).state calls).2 =
      (served server s calls).2
  notFound : ∀ id,
    getTransactionId server.sha256 request.clientTransactionId context.peer = .ok id →
      ∀ calls, let l := served server (commitAtomicTransaction server context request s).state calls
        (∀ a ∈ l.2, ¬a.accepts id) → ∀ replies,
          (getTransactionResult replies id l.1).status.code = .notFound ∧
            (getTransactionResult replies id l.1).rpcs = []

theorem asks_of_blank {s : State} {id : String} {m : TransactionMetadata}
    (hincomplete : (s.responseByTransaction id).complete = false)
    (hm : s.metadataByTransaction id = some m) (hblank : Blank m) (replies : Replies) :
    Rpc.getVotingDecision id ∈ (getTransactionResult replies id s).rpcs := by
  rw [getTransactionResult_multi hincomplete hm hblank.single]
  have hasks : decisionRpcs m id = [.getVotingDecision id] := if_pos hblank.undecided
  rw [hasks]
  cases knownDecision m replies with
  | error status => exact List.mem_singleton_self _
  | ok d => exact List.mem_cons_self

theorem asks_after_rejection {server : Server} {context : CommitContext}
    {request : CommitAtomicTransactionRequest} {s : State} {id : String}
    (hid : getTransactionId server.sha256 request.clientTransactionId context.peer = .ok id)
    (hreject : (commitAtomicTransaction server context request s).status.isOk = false)
    (hnew : ¬s.Knows id) (replies : Replies) :
    Rpc.getVotingDecision id ∈ (getTransactionResult replies id
      (commitAtomicTransaction server context request s).state).rpcs := by
  have hnone : s.metadataByTransaction id = none := by simpa using fun h => hnew (.inl h)
  have hincomplete : (s.responseByTransaction id).complete = false := by
    simpa using fun h => hnew (.inr h)
  have hblank : s.metadata id = {} := by rw [State.metadata, hnone]; rfl
  obtain ⟨_, hcase⟩ := commit_handling (s := s) hid
  cases hcase with
  | again hsent hok => rw [hok] at hreject; cases hreject
  | empty config hunsent hok => rw [hok] at hreject; cases hreject
  | sent config subs hsub hok => rw [hok] at hreject; cases hreject
  | rejected config hunsent hfail hrpcs hstate =>
    rw [hstate]
    refine asks_of_blank (s := s.setMetadata id { s.metadata id with config := config }) hincomplete
      (Function.update_self ..) ?_ replies
    rw [hblank]
    exact ⟨rfl, rfl, .inr rfl⟩

/-- A rejected submission of a transaction that was not known leaves no trace only when it was
rejected before its id was computed. -/
theorem noTrace_iff {server : Server} {context : CommitContext}
    {request : CommitAtomicTransactionRequest} {s : State}
    (hreject : (commitAtomicTransaction server context request s).status.isOk = false)
    (hnew : ∀ id,
      getTransactionId server.sha256 request.clientTransactionId context.peer = .ok id →
        ¬s.Knows id) :
    NoTrace server context request s ↔ ∀ id,
      getTransactionId server.sha256 request.clientTransactionId context.peer ≠ .ok id := by
  constructor
  · intro h id hid
    obtain ⟨_, hrpcs⟩ := h.notFound id hid [] (by simp [served]) ⟨.ok .unknown, fun _ => (.okStatus, none)⟩
    have hasks := asks_after_rejection hid hreject (hnew id hid)
      ⟨.ok .unknown, fun _ => (.okStatus, none)⟩
    have hrpcs' : (getTransactionResult ⟨.ok .unknown, fun _ => (.okStatus, none)⟩ id
      (commitAtomicTransaction server context request s).state).rpcs = [] := hrpcs
    rw [hrpcs'] at hasks
    cases hasks
  · intro hno
    have hstate : (commitAtomicTransaction server context request s).state = s := by
      unfold commitAtomicTransaction
      cases hid : getTransactionId server.sha256 request.clientTransactionId context.peer with
      | error status => rfl
      | ok id => exact absurd hid (hno id)
    refine ⟨fun calls => by rw [hstate], fun id hid => absurd hid (hno id)⟩

def pastRequest : CommitAtomicTransactionRequest :=
  ⟨"id", ⟨[incrementOp "cohort:50052"]⟩, ⟨some ⟨1, 0⟩⟩⟩

theorem past_rejected :
    (commitAtomicTransaction localServer localContext pastRequest initial).status.isOk = false := by
  decide

theorem noTrace_past_iff :
    NoTrace localServer localContext pastRequest initial ↔ ∀ id,
      getTransactionId localServer.sha256 pastRequest.clientTransactionId localContext.peer ≠
        .ok id :=
  noTrace_iff past_rejected fun _ _ h => by simp [State.Knows, initial] at h

/-- After the rejection the blockchain is asked about the transaction. -/
theorem past_leaves_trace :
    (commitAtomicTransaction localServer localContext pastRequest initial).status.isOk = false ∧
      ¬initial.Knows localId ∧ ¬NoTrace localServer localContext pastRequest initial := by
  refine ⟨past_rejected, by simp [State.Knows, initial], fun h => ?_⟩
  obtain ⟨_, hrpcs⟩ := h.notFound localId (by decide) [] (by simp [served])
    ⟨.ok .unknown, fun _ => (.okStatus, none)⟩
  revert hrpcs
  decide

section Closed
variable {P : State → Prop} {id : String}
  (hmetadata : ∀ s m, P s → P (s.setMetadata id m)) (hresponse : ∀ s r, P s → P (s.setResponse id r))
  (hclean : ∀ s, P s → P (cleanUpTransactionMetadata id s))
include hmetadata hresponse hclean

theorem kept_by_poll {s : State} (h : P s) (replies : Replies) :
    P (getTransactionResult replies id s).state := by
  have hdecided (reply : ℕ → CohortReply) (d : VotingDecision) {s : State} (h : P s) :
      P (respondToDecision id reply d s).state := by
    cases d with
    | unknown => exact h
    | pending => exact h
    | abort => exact hclean _ (hresponse _ _ h)
    | commit =>
      change P (updateCommittedResponseFromCohorts id reply s).1
      rw [updateCommittedResponseFromCohorts]
      split_ifs
      · exact hclean _ (hresponse _ _ (hmetadata _ _ (hresponse _ _ h)))
      · exact hmetadata _ _ (hresponse _ _ h)
  cases hc : (s.responseByTransaction id).complete with
  | true => rwa [getTransactionResult_complete hc]
  | false =>
    cases hm : s.metadataByTransaction id with
    | none => rwa [getTransactionResult_notFound hc hm]
    | some m =>
      cases hs : m.singleCohortNamespace with
      | some n =>
        rw [getTransactionResult_single hc hm hs]
        change P (updateResponseForSingleCohortTransaction id n (replies.transactionResult 0) s).1
        unfold updateResponseForSingleCohortTransaction
        split_ifs
        · split
          · exact hclean _ (hresponse _ _ h)
          · exact hclean _ (hresponse _ _ h)
          · exact hresponse _ _ h
        · exact h
      | none =>
        rw [getTransactionResult_multi hc hm hs]
        cases knownDecision m replies with
        | error status => exact h
        | ok d => exact hdecided replies.transactionResult d (hmetadata _ _ h)

end Closed

theorem knows_setMetadata {s : State} {id : String} (h : s.Knows id) (id' : String)
    (m : TransactionMetadata) : (s.setMetadata id' m).Knows id := by
  by_cases hid : id = id'
  · subst hid
    exact .inl (by simp)
  · exact h.imp_left fun hm => by simpa [hid] using hm

theorem knows_getTransactionResult {s : State} {id : String} (h : s.Knows id) (replies : Replies)
    (id' : String) : (getTransactionResult replies id' s).state.Knows id := by
  refine kept_by_poll (P := fun s => s.Knows id) ?_ ?_ ?_ h replies
  · exact fun s m hs => knows_setMetadata hs id' m
  · exact fun s r hs => hs.imp_right fun hc => (keeps_setResponse s id' r id).complete hc
  · intro s hs
    by_cases hid : id = id'
    · subst hid
      exact .inr (by simp)
    · have hsame : (s.record id).1.isSome ∨ (s.record id).2.complete := hs
      rwa [← record_cleanUp hid s] at hsame

/-- How the records of a transaction tell what became of its submissions. -/
structure Accounted (l : Log) (id : String) : Prop where
  known : (∃ a ∈ l.2, a.accepts id) → l.1.Knows id
  ops : (∃ a ∈ l.2, a.acceptsOps id) →
    (l.1.metadata id).possiblySentToAllCohorts ∨ (l.1.responseByTransaction id).complete
  sent : (l.1.metadata id).possiblySentToAllCohorts → (∃ a ∈ l.2, a.acceptsOps id) ∧
    ((l.1.metadata id).singleCohortNamespace.isSome ∨ ∃ a ∈ l.2, a.starts id)
  starts : (∃ a ∈ l.2, a.starts id) → ∃ a ∈ l.2, a.acceptsOps id

theorem ops_ne_nil_of_split {order : IterationOrder (String × SubTransaction)} {txn : Transaction}
    {sort : Bool} (h : splitClientTransaction order txn sort ≠ []) : txn.ops ≠ [] := by
  obtain ⟨sub, hsub⟩ := List.exists_mem_of_ne_nil _ h
  obtain ⟨_, op, hop, _⟩ := ops_of_mem_split hsub
  exact List.ne_nil_of_mem hop

structure NoNews (id : String) (a : Handled) : Prop where
  accepts : ¬a.accepts id
  acceptsOps : ¬a.acceptsOps id
  starts : ¬a.starts id

theorem exists_append_iff {as : List Handled} {a : Handled} {p : Handled → Prop} (h : ¬p a) :
    (∃ b ∈ as ++ [a], p b) ↔ ∃ b ∈ as, p b := by
  constructor
  · rintro ⟨b, hb, hp⟩
    rcases List.mem_append.mp hb with hb | hb
    · exact ⟨b, hb, hp⟩
    · rw [List.mem_singleton.mp hb] at hp
      exact absurd hp h
  · rintro ⟨b, hb, hp⟩
    exact ⟨b, List.mem_append_left _ hb, hp⟩

theorem Accounted.keeps {s s' : State} {as : List Handled} {a : Handled} {id : String}
    (h : Accounted (s, as) id) (hk : Keeps s s' id) (hknows : s.Knows id → s'.Knows id)
    (hno : NoNews id a) : Accounted (s', as ++ [a]) id where
  known := by
    rw [exists_append_iff hno.accepts]
    exact fun hex => hknows (h.known hex)
  ops := by
    rw [exists_append_iff hno.acceptsOps]
    exact fun hex => (h.ops hex).elim hk.flag fun hc => .inr (hk.complete hc)
  sent hf := by
    rw [exists_append_iff hno.acceptsOps, exists_append_iff hno.starts]
    obtain hs | ⟨hs, _⟩ := hk.metadata
    · rw [hs.single]
      exact h.sent (hs.flag.symm.trans hf)
    · rw [hs.flag] at hf
      cases hf
  starts := by
    rw [exists_append_iff hno.acceptsOps, exists_append_iff hno.starts]
    exact h.starts

theorem startVoting_mem {id id' : String} {config : TransactionConfig} {subs : List SubTransaction}
    {sends : Bool} {t : ℤ} {n : ℕ}
    (h : Rpc.startVoting id t n ∈ submissionRpcs id' config subs sends) :
    id = id' ∧ 1 < subs.length := by
  rw [submissionRpcs, List.mem_append] at h
  rcases h with h | h
  · split_ifs at h with hmany
    · cases List.mem_singleton.mp h
      exact ⟨rfl, hmany⟩
    · cases h
  · split_ifs at h
    · cases started_prepareRequests h
    · cases h

theorem Accounted.submission {server : Server} {context : CommitContext}
    {request : CommitAtomicTransactionRequest} {s : State} {as : List Handled} {id : String}
    (h : Accounted (s, as) id)
    (hid : getTransactionId server.sha256 request.clientTransactionId context.peer = .ok id) :
    Accounted (serve server (s, as) (.commitAtomicTransaction context request)) id := by
  let o := commitAtomicTransaction server context request s
  let a := Handled.commitAtomicTransaction context request o.rpcs o.status o.response
  change Accounted (o.state, as ++ [a]) id
  have hold {p : Handled → Prop} (hex : ∃ b ∈ as, p b) : ∃ b ∈ as ++ [a], p b := by
    obtain ⟨b, hb, hp⟩ := hex
    exact ⟨b, List.mem_append_left _ hb, hp⟩
  have hquiet (hrpcs : o.rpcs = [] ∨ context.blockchainStatus.isOk = false) : ¬a.starts id := by
    rintro ⟨hok, t, n, hmem⟩
    rcases hrpcs with hnil | hbad
    · rw [hnil] at hmem
      cases hmem
    · cases hbad.symm.trans hok
  have hmetadata (m : TransactionMetadata) : (s.setMetadata id m).metadata id = m := by simp
  have hknown (m : TransactionMetadata) : (s.setMetadata id m).Knows id := .inl (by simp)
  have hkeeps (config : TransactionConfig) :
      Keeps s (s.setMetadata id { s.metadata id with config := config }) id := by
    refine keeps_setMetadata s ?_ id
    exact ⟨rfl, rfl, rfl⟩
  obtain ⟨hresponse, hcase⟩ := commit_handling (s := s) hid
  cases hcase with
  | again hsent hok hrpcs hstate =>
    obtain ⟨hops, hsplit⟩ := h.sent hsent
    rw [hstate]
    refine ⟨fun _ => hknown _, fun _ => .inl ?_, fun _ => ⟨hold hops, ?_⟩, fun _ => hold hops⟩
    · rw [hmetadata]
      exact hsent
    · rw [hmetadata]
      exact hsplit.imp_right hold
  | rejected config hunsent hfail hrpcs hstate =>
    have hno : NoNews id a := by
      refine ⟨fun ha => ?_, fun ha => ?_, hquiet hrpcs⟩
      · cases hfail.symm.trans ha.1
      · cases hfail.symm.trans ha.1.1
    rw [hstate]
    exact h.keeps (hkeeps config) (fun _ => hknown _) hno
  | empty config hunsent hok hops hrpcs hstate =>
    have hnoOps : ¬a.acceptsOps id := fun ha => ha.2 hops
    have hnoStart := hquiet (.inl hrpcs)
    rw [hstate]
    refine ⟨fun _ => hknown _, ?_, fun hf => ?_, ?_⟩
    · rw [exists_append_iff hnoOps]
      exact fun hex => (h.ops hex).elim (hkeeps config).flag .inr
    · rw [hmetadata] at hf
      cases hunsent.symm.trans hf
    · rw [exists_append_iff hnoOps, exists_append_iff hnoStart]
      exact h.starts
  | sent config subs hsub hok hrpcs hstarted hstate =>
    have hops : ∃ b ∈ as ++ [a], b.acceptsOps id := by
      refine ⟨a, by simp, ⟨hok, hresponse⟩, ?_⟩
      exact ops_ne_nil_of_split (hsub.subs_eq ▸ hsub.nonempty)
    rw [hstate]
    refine ⟨fun _ => hknown _, fun _ => .inl (by rw [hmetadata]; rfl), fun _ => ⟨hops, ?_⟩,
      fun _ => hops⟩
    rw [hmetadata]
    by_cases hmany : 1 < subs.length
    · have hmem : startVoting id config.presumedAbortTime subs.length ∈ o.rpcs := by
        rw [hrpcs, submissionRpcs, if_pos hmany]
        exact List.mem_append_left _ (List.mem_singleton_self _)
      exact .inr ⟨a, by simp, hstarted hmany, _, _, hmem⟩
    · obtain ⟨sub, rfl⟩ : ∃ sub, subs = [sub] := by
        refine List.length_eq_one_iff.mp ?_
        have hpos := List.length_pos_iff.mpr hsub.nonempty
        omega
      exact .inl rfl

theorem Handling.other {server : Server} {context : CommitContext}
    {request : CommitAtomicTransactionRequest} {s : State} {id' : String}
    {o : Outcome CommitAtomicTransactionResponse} (h : Handling server context request s id' o) :
    (∃ m, o.state = s.setMetadata id' m) ∧
      ∀ id t n, context.blockchainStatus.isOk → Rpc.startVoting id t n ∈ o.rpcs → id = id' := by
  cases h with
  | again _ _ hrpcs hstate => exact ⟨⟨_, hstate⟩, fun id t n _ hmem => by rw [hrpcs] at hmem; cases hmem⟩
  | rejected config _ _ hrpcs hstate =>
    refine ⟨⟨_, hstate⟩, fun id t n hok hmem => ?_⟩
    rcases hrpcs with hnil | hbad
    · rw [hnil] at hmem
      cases hmem
    · cases hbad.symm.trans hok
  | empty config _ _ _ hrpcs hstate =>
    exact ⟨⟨_, hstate⟩, fun id t n _ hmem => by rw [hrpcs] at hmem; cases hmem⟩
  | sent config subs _ _ hrpcs _ hstate =>
    exact ⟨⟨_, hstate⟩, fun id t n _ hmem => (startVoting_mem (hrpcs ▸ hmem)).1⟩

theorem accounted_serve (server : Server) {l : Log} {id : String} (h : Accounted l id) (c : Call) :
    Accounted (serve server l c) id := by
  obtain ⟨s, as⟩ := l
  cases c with
  | getTransactionResult replies id' =>
    refine h.keeps (keeps_getTransactionResult replies id' s id)
      (fun hs => knows_getTransactionResult hs replies id') ?_
    exact ⟨fun ha => ha, fun ha => ha, fun ha => ha⟩
  | commitAtomicTransaction context request =>
    let o := commitAtomicTransaction server context request s
    let a := Handled.commitAtomicTransaction context request o.rpcs o.status o.response
    change Accounted (o.state, as ++ [a]) id
    cases hid : getTransactionId server.sha256 request.clientTransactionId context.peer with
    | error status =>
      have ho : o = ⟨s, [], status.withPrefix "Failed to create transaction id", ⟨"", ⟨none⟩⟩⟩ := by
        simp only [o, commitAtomicTransaction, hid]
      have hfail : o.status.isOk = false := by
        simp [ho, Status.isOk, Status.withPrefix, getTransactionId_error hid]
      refine h.keeps (by rw [ho]; exact .refl s id) (fun hs => by rwa [ho]) ⟨fun ha => ?_,
        fun ha => ?_, fun ha => ?_⟩
      · cases hfail.symm.trans ha.1
      · cases hfail.symm.trans ha.1.1
      · obtain ⟨_, t, n, hmem⟩ := ha
        rw [ho] at hmem
        cases hmem
    | ok id' =>
      by_cases hne : id = id'
      · subst hne
        exact h.submission hid
      · obtain ⟨hresponse, hcase⟩ := commit_handling (s := s) hid
        obtain ⟨⟨m, hstate⟩, hstarts⟩ := hcase.other
        have hother : ¬o.response.globalTransactionId = id := fun he =>
          hne (he.symm.trans hresponse)
        have hno : NoNews id a := by
          refine ⟨fun ha => hother ha.2, fun ha => hother ha.1.2, fun ha => ?_⟩
          obtain ⟨hok, t, n, hmem⟩ := ha
          exact hne (hstarts id t n hok hmem)
        have hkept : Keeps s o.state id := by
          rw [hstate]
          exact keeps_setMetadata_of_ne s m hne
        exact h.keeps hkept (fun hs => by rw [hstate]; exact knows_setMetadata hs id' m) hno

theorem serve_handle (server : Server) (l : Log) (c : Call) :
    (serve server l c).1 = (c.handle server l.1).1 := by
  cases c <;> rfl

theorem accounted_served (server : Server) (calls : List Call) (id : String) :
    Accounted (served server initial calls) id ∧
      Progress ((served server initial calls).1.record id) := by
  induction calls using List.reverseRecOn with
  | nil =>
    have hnone {p : Handled → Prop} : ¬∃ a ∈ (served server initial []).2, p a := by simp [served]
    have hunsent : ¬((served server initial []).1.metadata id).possiblySentToAllCohorts := by
      simp [served, initial, State.metadata]
    exact ⟨⟨fun h => absurd h hnone, fun h => absurd h hnone, fun h => absurd h hunsent,
      fun h => absurd h hnone⟩, progress_initial id⟩
  | append_singleton calls c ih =>
    rw [served, List.foldl_append]
    refine ⟨accounted_serve server ih.1 c, ?_⟩
    change Progress ((serve server (served server initial calls) c).1.record id)
    rw [serve_handle]
    exact (progress_step server ih.2 c).1

/-- The blockchain is asked about an accepted transaction only when its voting was started. -/
def AsksStarted (before : List Handled) (a : Handled) : Prop :=
  ∀ id, a.asks id → (∃ b ∈ before, b.accepts id) → ∃ b ∈ before, b.starts id

/-- Every accepted transaction can be resolved. -/
def Resolvable (as : List Handled) : Prop :=
  ∀ before a after, as = before ++ a :: after → AsksStarted before a

/-- A poll of an accepted transaction comes after its result is complete or after an accepted
submission that had operations. -/
def PollsSent (l : Log) (c : Call) : Prop :=
  ∀ replies id, c = .getTransactionResult replies id → (∃ a ∈ l.2, a.accepts id) →
    (l.1.responseByTransaction id).complete ∨ ∃ a ∈ l.2, a.acceptsOps id

theorem resolvable_append {as : List Handled} {a : Handled} :
    Resolvable (as ++ [a]) ↔ Resolvable as ∧ AsksStarted as a := by
  constructor
  · intro h
    exact ⟨fun before b after hb => h before b (after ++ [a]) (by simp [hb]), h as a [] rfl⟩
  · rintro ⟨h, ha⟩ before b after hb
    rcases List.eq_nil_or_concat after with rfl | ⟨after, c, rfl⟩
    · obtain ⟨rfl, hba⟩ := List.append_inj' hb rfl
      cases hba
      exact ha
    · rw [List.concat_eq_append, ← List.cons_append, ← List.append_assoc] at hb
      exact h before b after (List.append_inj_left' hb rfl)

theorem Accounted.asks_iff {server : Server} {l : Log} (h : ∀ id, Accounted l id)
    (hprogress : ∀ id, Progress (l.1.record id)) (c : Call) :
    AsksStarted l.2 (c.serve server l.1).2 ↔ PollsSent l c := by
  cases c with
  | commitAtomicTransaction context request =>
    exact iff_of_true (fun _ ha => ha.elim) fun _ _ hc => by cases hc
  | getTransactionResult replies id =>
    constructor
    · rintro hasks replies' id' ⟨⟩ haccepted
      by_contra hno
      rw [not_or, Bool.not_eq_true] at hno
      obtain ⟨hincomplete, hnoOps⟩ := hno
      obtain ⟨m, hm⟩ := Option.isSome_iff_exists.mp
        (((h id).known haccepted).resolve_right (by simp [hincomplete]))
      have hunsent : (l.1.metadata id).possiblySentToAllCohorts = false := by
        simpa using fun hf => hnoOps ((h id).sent hf).1
      have hblank : Blank m := by
        have hnoted : CohortsNoted (l.1.metadata id) := by
          obtain hp | hp | hp := hprogress id
          · cases hincomplete.symm.trans hp.1
          · exact hp.noted
          · exact hp.noted
        rw [State.metadata_of_some hm] at hnoted hunsent
        exact hnoted.unsent hunsent
      have hask := asks_of_blank hincomplete hm hblank replies
      exact hnoOps ((h id).starts (hasks id ⟨rfl, hask⟩ haccepted))
    · rintro hsent id' ⟨rfl, hask⟩ haccepted
      have hask' : Rpc.getVotingDecision id ∈ (getTransactionResult replies id l.1).rpcs := hask
      cases hc : (l.1.responseByTransaction id).complete with
      | true =>
        rw [getTransactionResult_complete hc] at hask'
        cases hask'
      | false =>
        have hops := (hsent replies id rfl haccepted).resolve_left (by simp [hc])
        have hflag := ((h id).ops hops).resolve_right (by simp [hc])
        refine ((h id).sent hflag).2.resolve_left fun hsingle => ?_
        obtain ⟨m, hm⟩ := Option.isSome_iff_exists.mp
          (((h id).known haccepted).resolve_right (by simp [hc]))
        rw [State.metadata_of_some hm] at hsingle
        obtain ⟨n, hn⟩ := Option.isSome_iff_exists.mp hsingle
        rw [getTransactionResult_single hc hm hn] at hask'
        cases List.mem_singleton.mp hask'

/-- Every accepted transaction of a run can be resolved exactly when none is polled, before its
result is complete, for which only empty submissions were accepted. -/
theorem resolvable_iff (server : Server) (calls : List Call) :
    Resolvable (served server initial calls).2 ↔
      Runs.Throughout (serve server) PollsSent (initial, []) calls := by
  induction calls using List.reverseRecOn with
  | nil =>
    refine iff_of_true (fun before a after h => ?_) trivial
    cases before <;> cases h
  | append_singleton calls c ih =>
    have hserved : served server initial (calls ++ [c]) =
        serve server (served server initial calls) c := by
      rw [served, List.foldl_append]
      rfl
    have hstep : AsksStarted (served server initial calls).2
        (c.serve server (served server initial calls).1).2 ↔
        PollsSent (served server initial calls) c :=
      Accounted.asks_iff (fun id => (accounted_served server calls id).1)
        (fun id => (accounted_served server calls id).2) c
    rw [Runs.throughout_append, ← ih, hserved]
    change Resolvable (_ ++ [_]) ↔ _ ∧ PollsSent (served server initial calls) c ∧ True
    rw [and_true, ← hstep, resolvable_append]

def emptyRequest : CommitAtomicTransactionRequest := ⟨"id", ⟨[]⟩, ⟨none⟩⟩

def polledEmpty : List Call :=
  [.commitAtomicTransaction localContext emptyRequest,
    .getTransactionResult ⟨.ok .unknown, fun _ => (.okStatus, none)⟩ localId]

/-- The blockchain is asked about an empty transaction whose voting was never started. -/
theorem empty_not_resolvable : ¬Resolvable (served localServer initial polledEmpty).2 := by
  intro h
  obtain ⟨a, ha, hstarts⟩ := h [_] _ [] rfl localId ⟨rfl, by decide⟩
    ⟨_, List.mem_singleton_self _, by decide, by decide⟩
  rw [List.mem_singleton.mp ha] at hstarts
  obtain ⟨_, _, _, hmem⟩ := hstarts
  cases hmem

end TwoPhaseCommit.Coordinator
