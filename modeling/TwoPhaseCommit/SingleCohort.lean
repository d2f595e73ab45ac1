import TwoPhaseCommit.CoordinatorSubmissions
import TwoPhaseCommit.SystemAnswers

/-! Transactions with a single cohort: what of them reaches the blockchain. -/
namespace TwoPhaseCommit.System
open Coordinator (Server CommitContext CommitAtomicTransactionRequest Rpc SubTransaction Submission
  submissionRpcs Replies messages)
open AdapterChain.Blockchain (Ballot VotingDecision)

/-- The thread of an only cohort that has not failed: it neither votes nor polls. -/
def Unfailed (t : Cohort.Thread) : Prop :=
  t.request.onlyCohort ∧
    match t.phase with
    | .locking _ | .committing | .releasing _ | .finished => True
    | .running _ | .putting _ _ _ => t.metadata.db.isSome
    | _ => False

/-- The steps of the transaction id at its cohorts do not fail: its locks are granted in time and
its database calls succeed. -/
def Succeeds (P : Parties) (id : String) (s : State) : Action → Prop
  | .cohort a u action => u = id →
    match action with
    | .lock conditionHolds => conditionHolds = true
    | .begin fault => fault = none
    | .operate fault => fault = none ∧ ∀ request m op todo,
      (s.cohorts a).threads id = some ⟨request, m, .running (op :: todo)⟩ →
        ∃ m', Database.processOperationInDb (P.adapters a).access (s.cohorts a).store op m = .ok m'
    | .put fault => fault = none
    | _ => True
  | _ => True

section Cohort
open Cohort Database
variable {c : Adapter} {store : Store String} {m : Metadata}

theorem dbPut_isSome (hm : m.db.isSome) (key : String) (value : Int64) :
    ∃ m', dbPut m key value = .ok m' ∧ m'.db.isSome := by
  obtain ⟨txn, htxn⟩ := Option.isSome_iff_exists.mp hm
  exact ⟨_, by simp only [dbPut, htxn]; rfl, rfl⟩

theorem isSome_of_processOperationInDb {op : Operation} {m' : Metadata} (hm : m.db.isSome)
    (hok : Database.processOperationInDb c.access store op m = .ok m') : m'.db.isSome := by
  obtain ⟨_, rfl⟩ | ⟨g, value, _, _, rfl⟩ | ⟨p, value, _, hput⟩ := processOperationInDb_ok hok
  · exact hm
  · exact hm
  · obtain ⟨txn, _, rfl⟩ := dbPut_ok hput
    rfl

theorem operate_ok {op : Operation} {m' : Metadata} (hm : m.db.isSome)
    (hok : Database.processOperationInDb c.access store op m = .ok m') (rest : List Operation) :
    (∃ m₁, operate c.access store none op rest m = (m₁, .running rest) ∧ m₁.db.isSome) ∨
      ∃ key value, operate c.access store none op rest m = (m, .putting key value rest) := by
  obtain ⟨status, herror, _⟩ | ⟨m₁, hm₁, he⟩ | ⟨key, value, _, he⟩ :=
    operate_cases c store none op rest m
  · rw [herror rfl] at hok
    cases hok
  · exact .inl ⟨m₁, he, isSome_of_processOperationInDb hm hm₁⟩
  · exact .inr ⟨key, value, he⟩

theorem Unfailed.step {P : Parties} {s : State} {a id : String} {action : Cohort.Action} {k : Cohort.State}
    {t : Thread} (ht : (s.cohorts a).threads id = some t) (hu : Unfailed t)
    (hs : Cohort.Step (P.adapters a) (s.cohorts a) (id, action) k)
    (hok : Succeeds P id s (.cohort a id action)) :
    (∀ t', k.threads id = some t' → Unfailed t') ∧ (∀ i b, action ≠ .vote i b) ∧
      ∀ reply, action ≠ .poll reply := by
  have hsame {u : Thread} (hthread : (s.cohorts a).threads id = some u) : u = t :=
    Option.some.inj (hthread.symm.trans ht)
  have hset {k' : Cohort.State} {u : Thread} (hu : Unfailed u) :
      ∀ t', (k'.set id u).threads id = some t' → Unfailed t' := by
    intro t' h
    obtain rfl : u = t' := by simpa [Cohort.State.set] using h
    exact hu
  cases hs with
  | start request orders hid hnew =>
    rw [hnew] at ht
    cases ht
  | lock conditionHolds hthread ha =>
    obtain rfl := hsame hthread
    obtain rfl : conditionHolds = true := hok rfl
    exact ⟨hset ⟨hu.1, trivial⟩, by simp, by simp⟩
  | begin hthread =>
    obtain rfl := hsame hthread
    exact ⟨hset ⟨hu.1, rfl⟩, by simp, by simp⟩
  | beginFault hthread hf => cases hok rfl
  | @operate _ request m op todo fault hthread hf =>
    obtain rfl := hsame hthread
    obtain ⟨rfl, hfound⟩ := hok rfl
    obtain ⟨m', hm'⟩ := hfound request m op todo hthread
    refine ⟨hset ⟨hu.1, ?_⟩, by simp, by simp⟩
    obtain ⟨m₁, hop, hm₁⟩ | ⟨key, value, hop⟩ := operate_ok hu.2 hm' todo
    · rw [hop]
      exact hm₁
    · rw [hop]
      exact hu.2
  | @put _ request m key value todo fault hthread hf =>
    obtain rfl := hsame hthread
    obtain rfl : fault = none := hok rfl
    obtain ⟨m₁, hput, hm₁⟩ := dbPut_isSome hu.2 key value
    have hfinish : finishPut none key value todo m = (m₁, .running todo) := by
      simp only [finishPut, hput, orFault]
    refine ⟨hset ⟨hu.1, ?_⟩, by simp, by simp⟩
    rw [hfinish]
    exact hm₁
  | endOperations hthread =>
    obtain rfl := hsame hthread
    refine ⟨hset ⟨hu.1, ?_⟩, by simp, by simp⟩
    rw [if_pos hu.1]
    trivial
  | commitFault hthread hf =>
    obtain rfl := hsame hthread
    refine ⟨fun t' h => ?_, by simp, by simp⟩
    rw [hthread] at h
    obtain rfl := Option.some.inj h
    exact hu
  | commit hthread =>
    obtain rfl := hsame hthread
    exact ⟨hset ⟨hu.1, trivial⟩, by simp, by simp⟩
  | unlock hthread =>
    obtain rfl := hsame hthread
    exact ⟨hset ⟨hu.1, trivial⟩, by simp, by simp⟩
  | finish hthread =>
    obtain rfl := hsame hthread
    exact ⟨hset ⟨hu.1, trivial⟩, by simp, by simp⟩
  | persistResponse written hthread =>
    obtain rfl := hsame hthread
    cases hu.2
  | persistRequest written hthread =>
    obtain rfl := hsame hthread
    cases hu.2
  | vote hthread =>
    obtain rfl := hsame hthread
    cases hu.2
  | pollAgain hthread hd =>
    obtain rfl := hsame hthread
    cases hu.2
  | pollCommit hthread =>
    obtain rfl := hsame hthread
    cases hu.2
  | pollAbort reason hthread =>
    obtain rfl := hsame hthread
    cases hu.2
  | voteAbort hthread =>
    obtain rfl := hsame hthread
    cases hu.2
  | abort hthread =>
    obtain rfl := hsame hthread
    cases hu.2

end Cohort

def OneAddress (request : CommitAtomicTransactionRequest) : Prop :=
  ∃ a, ∀ op ∈ request.transaction.ops, op.address = a

theorem single_of_oneAddress {server : Server} {context : CommitContext}
    {request : CommitAtomicTransactionRequest} {s : Coordinator.State} {id : String}
    {config : TransactionConfig} {subs : List SubTransaction}
    (h : Submission server context request s id config subs) (hone : OneAddress request) :
    ∃ sub, subs = [sub] := by
  obtain ⟨a, ha⟩ := hone
  have haddress : ∀ b ∈ subs.map SubTransaction.address, b = a := by
    intro b hb
    rw [h.subs_eq] at hb
    obtain ⟨op, hop, rfl⟩ := (Coordinator.mem_addresses_split _ _ _ b).mp hb
    exact ha op hop
  have hnodup := h.nodup
  have hle : subs.length ≤ 1 := by
    rw [List.eq_replicate_of_mem haddress] at hnodup
    simpa using List.nodup_replicate.mp hnodup
  have hpos := List.length_pos_iff.mpr h.nonempty
  exact List.length_eq_one_iff.mp (by omega)

/-- A transaction of which only single-cohort requests are out. -/
structure Alone (id : String) (s : State) : Prop where
  single : (s.coordinator.metadata id).possiblySentToAllCohorts →
    (s.coordinator.metadata id).singleCohortNamespace.isSome
  prepares : ∀ a r, (a, r) ∈ s.prepares → r.transactionId = id → r.onlyCohort ∧
    ((s.coordinator.metadata id).possiblySentToAllCohorts ∨
      (s.coordinator.responseByTransaction id).complete)
  threads : ∀ a t, (s.cohorts a).threads id = some t → Unfailed t

theorem Alone.keeps {id : String} {s s' : State} (h : Alone id s)
    (hk : Coordinator.Keeps s.coordinator s'.coordinator id)
    (hprepares : ∀ a r, (a, r) ∈ s'.prepares → r.transactionId = id → (a, r) ∈ s.prepares)
    (hcohorts : s'.cohorts = s.cohorts) : Alone id s' where
  single hf := by
    obtain hs | ⟨hs, _⟩ := hk.metadata
    · rw [hs.single]
      exact h.single (hs.flag.symm.trans hf)
    · rw [hs.flag] at hf
      cases hf
  prepares a r hr hid := by
    obtain ⟨hone, hsent⟩ := h.prepares a r (hprepares a r hr hid) hid
    exact ⟨hone, hsent.elim hk.flag fun hc => .inr (hk.complete hc)⟩
  threads a t ht := h.threads a t (by rwa [hcohorts] at ht)

theorem message_spec {id : String} {config : TransactionConfig} {subs : List SubTransaction}
    {sends : Bool} {m : Namespace × Cohort.PrepareTransactionRequest}
    (hm : m ∈ messages (submissionRpcs id config subs sends)) :
    m.2.transactionId = id ∧ (subs.length = 1 → m.2.onlyCohort) := by
  cases sends with
  | false =>
    rw [messages, submissionRpcs, if_neg (by simp : ¬false = true), List.append_nil] at hm
    split_ifs at hm <;> cases hm
  | true =>
    obtain ⟨sub, _, i, _, rfl⟩ := Coordinator.mem_messages hm
    refine ⟨rfl, fun hone => ?_⟩
    simp [Coordinator.message, hone, Cohort.PrepareTransactionRequest.onlyCohort]

theorem Alone.submit {P : Parties} {id : String} {s s' : State} {context : CommitContext}
    {request : CommitAtomicTransactionRequest} {rpcs : List Rpc}
    (hhandle : (Coordinator.Call.commitAtomicTransaction context request).handle P.server
      s.coordinator = (s'.coordinator, rpcs))
    (hprepares : s'.prepares = s.prepares ∪ sent rpcs) (hcohorts : s'.cohorts = s.cohorts)
    (h : Alone id s)
    (hone : Coordinator.getTransactionId P.server.sha256 request.clientTransactionId context.peer =
      .ok id → OneAddress request) :
    Alone id s' ∧ ∀ t n, Rpc.startVoting id t n ∉ rpcs := by
  cases hsend : Coordinator.toSend P.server context request s.coordinator with
  | none =>
    obtain ⟨hquiet, hkeeps⟩ := Coordinator.quiet_of_none
      (c := .commitAtomicTransaction context request) hsend
    obtain ⟨hrpcs, _⟩ := Coordinator.commit_of_none hsend
    have hnil : rpcs = [] := (congrArg Prod.snd hhandle).symm.trans hrpcs
    rw [hhandle] at hkeeps
    rw [hnil] at hprepares ⊢
    refine ⟨h.keeps (hkeeps id) ?_ hcohorts, by simp⟩
    intro a r hr _
    rw [hprepares] at hr
    rcases hr with hr | ⟨m, hm, _⟩
    · exact hr
    · cases hm
  | some sent =>
    obtain ⟨id', config, subs⟩ := sent
    have hsub := Coordinator.toSend_eq_some_iff.mp hsend
    obtain ⟨sends, hsends, hrpcs, hstate⟩ := Coordinator.sends_of_some
      (c := .commitAtomicTransaction context request) hsend
    rw [hhandle] at hrpcs hstate
    dsimp only at hrpcs hstate
    subst hrpcs
    by_cases hid : id = id'
    · subst hid
      obtain ⟨sub, rfl⟩ := single_of_oneAddress hsub (hone hsub.id_eq)
      obtain rfl : sends = true := hsends.resolve_left (by simp)
      rw [if_pos rfl] at hstate
      refine ⟨⟨fun _ => ?_, ?_, fun a t ht => h.threads a t (by rwa [hcohorts] at ht)⟩, ?_⟩
      · rw [hstate, Coordinator.State.metadata_setMetadata_self]
        rfl
      · intro a r hr hrid
        rw [hprepares] at hr
        rw [hstate, Coordinator.State.metadata_setMetadata_self]
        rcases hr with hr | ⟨m, hm, hmr⟩
        · exact ⟨(h.prepares a r hr hrid).1, .inl rfl⟩
        · obtain rfl := (Prod.mk.inj hmr).2
          exact ⟨(message_spec hm).2 rfl, .inl rfl⟩
      · exact fun t n hstart => absurd (Coordinator.startVoting_mem hstart).2 (by simp)
    · have hkeeps := Coordinator.keeps_setMetadata_of_ne s.coordinator
        (if sends then ({ s.coordinator.metadata id' with config := config } :
          Coordinator.TransactionMetadata).sent subs
          else { s.coordinator.metadata id' with config := config }) hid
      rw [← hstate] at hkeeps
      refine ⟨h.keeps hkeeps ?_ hcohorts,
        fun t n hstart => hid (Coordinator.startVoting_mem hstart).1⟩
      intro a r hr hrid
      rw [hprepares] at hr
      rcases hr with hr | ⟨m, hm, hmr⟩
      · exact hr
      · obtain rfl := (Prod.mk.inj hmr).2
        exact absurd ((message_spec hm).1.symm.trans hrid) (Ne.symm hid)

def NotAsked (id : String) : Action → Prop
  | .commitAtomicTransaction _ _ rpcs => ∀ t n, Rpc.startVoting id t n ∉ rpcs
  | .cohort _ u action => u = id → (∀ i b, action ≠ .vote i b) ∧ ∀ reply, action ≠ .poll reply
  | _ => True

def Single (P : Parties) (id : String) : Action → Prop
  | .commitAtomicTransaction context request _ =>
    Coordinator.getTransactionId P.server.sha256 request.clientTransactionId context.peer = .ok id →
      OneAddress request
  | _ => True

theorem Alone.cohort {P : Parties} {id a u : String} {s : State} {action : Cohort.Action}
    {k : Cohort.State} (h : Alone id s)
    (hk : Cohort.Step (P.adapters a) (s.cohorts a) (u, action) k) (hr : Received s a u action)
    (hok : Succeeds P id s (.cohort a u action)) :
    (∀ t, k.threads id = some t → Unfailed t) ∧
      (u = id → (∀ i b, action ≠ .vote i b) ∧ ∀ reply, action ≠ .poll reply) := by
  by_cases hu : u = id
  · subst hu
    cases ht : (s.cohorts a).threads u with
    | some t =>
      obtain ⟨hthreads, hquiet⟩ := (h.threads a t ht).step ht hk hok
      exact ⟨hthreads, fun _ => hquiet⟩
    | none =>
      -- A transaction without a thread can only be started.
      cases hk with
      | start request orders hid hnew =>
        refine ⟨fun t h' => ?_, fun _ => ⟨by simp, by simp⟩⟩
        obtain rfl : Cohort.newThread (P.adapters a) orders request = t := by
          simpa [Cohort.State.set] using h'
        exact ⟨(h.prepares a request hr hid).1, trivial⟩
      | _ => simp_all
  · refine ⟨fun t ht => h.threads a t ?_, fun he => absurd he hu⟩
    exact (congrArg Prod.fst (hk.frame (Ne.symm hu))).symm.trans ht

theorem Alone.step {P : Parties} {id : String} {s s' : State} {x : Action} (h : Alone id s)
    (hs : Step P s x s') (hsingle : Single P id x) (hok : Succeeds P id s x) :
    Alone id s' ∧ NotAsked id x := by
  cases hs with
  | commitAtomicTransaction context request hsmall ho hc =>
    subst ho
    exact h.submit rfl rfl rfl hsingle
  | @getTransactionResult id' replies hg o ho =>
    subst ho
    refine ⟨h.keeps (Coordinator.keeps_getTransactionResult replies id' s.coordinator id)
      (fun _ _ hr _ => hr) rfl, trivial⟩
  | @cohort a u action k hk hr =>
    obtain ⟨hthreads, hquiet⟩ := h.cohort hk hr hok
    refine ⟨⟨h.single, h.prepares, fun b t ht => ?_⟩, hquiet⟩
    by_cases hb : b = a
    · subst hb
      exact hthreads t (by simpa [State.setCohort] using ht)
    · exact h.threads b t (by simpa [State.setCohort, hb] using ht)
  | _ => exact ⟨h.keeps (.refl s.coordinator id) (fun _ _ hr _ => hr) rfl, trivial⟩

/-- Nothing of the transaction id reaches the blockchain: its voting is not started, its cohorts
neither vote nor poll, and once it was sent its result is found without a decision. -/
structure OffChain (id : String) (xs : List Action) (s : State) : Prop where
  noStart : ∀ context request rpcs t n, .commitAtomicTransaction context request rpcs ∈ xs →
    Rpc.startVoting id t n ∉ rpcs
  noVote : ∀ a i b, .cohort a id (.vote i b) ∉ xs
  noPoll : ∀ a reply, .cohort a id (.poll reply) ∉ xs
  noQuery : (∃ a r, (a, r) ∈ s.prepares ∧ r.transactionId = id) → ∀ replies,
    Rpc.getVotingDecision id ∉ (Coordinator.getTransactionResult replies id s.coordinator).rpcs

theorem Alone.noQuery {id : String} {s : State} (h : Alone id s)
    (hsent : ∃ a r, (a, r) ∈ s.prepares ∧ r.transactionId = id) (replies : Replies) :
    Rpc.getVotingDecision id ∉
      (Coordinator.getTransactionResult replies id s.coordinator).rpcs := by
  obtain ⟨a, r, hr, hid⟩ := hsent
  obtain ⟨_, hflag⟩ := h.prepares a r hr hid
  cases hc : (s.coordinator.responseByTransaction id).complete with
  | true => simp [Coordinator.getTransactionResult_complete hc]
  | false =>
    have hflag := hflag.resolve_right (by simp [hc])
    cases hm : s.coordinator.metadataByTransaction id with
    | none => simp [Coordinator.getTransactionResult_notFound hc hm]
    | some m =>
      have hsingle := h.single hflag
      rw [Coordinator.State.metadata_of_some hm] at hsingle
      obtain ⟨n, hn⟩ := Option.isSome_iff_exists.mp hsingle
      simp [Coordinator.getTransactionResult_single hc hm hn]

theorem alone_initial (P : Parties) (id : String) : Alone id (initial P) where
  single hf := by simp [initial, Coordinator.initial, Coordinator.State.metadata] at hf
  prepares a r hr := by simp [initial] at hr
  threads a t ht := by simp [initial, Cohort.initial] at ht

/-- In a run in which the steps of a single-cohort transaction at its cohort succeed, nothing of
it reaches the blockchain. -/
theorem single_off_chain {P : Parties} {id : String} {xs : List Action} {s : State}
    (h : Runs.Run (fun s x s' => Step P s x s' ∧ Succeeds P id s x) (initial P) xs s)
    (hsingle : ∀ x ∈ xs, Single P id x) : OffChain id xs s := by
  have hdone : Alone id s ∧ ∀ x ∈ xs, NotAsked id x := by
    induction h with
    | nil => exact ⟨alone_initial P id, by simp⟩
    | @snoc xs s s' x h hs ih =>
      obtain ⟨halone, hasked⟩ := ih fun x hx => hsingle x (List.mem_append_left _ hx)
      obtain ⟨halone', hx⟩ := halone.step hs.1 (hsingle x (by simp)) hs.2
      refine ⟨halone', fun y hy => ?_⟩
      rcases List.mem_append.mp hy with hy | hy
      · exact hasked y hy
      · rwa [List.mem_singleton.mp hy]
  obtain ⟨halone, hasked⟩ := hdone
  refine ⟨fun context request rpcs t n hx => hasked _ hx t n, fun a i b hx => ?_,
    fun a reply hx => ?_, halone.noQuery⟩
  · exact (hasked _ hx rfl).1 i b rfl
  · exact (hasked _ hx rfl).2 reply rfl

theorem succeeds_operate {P : Parties} {id a : String} {s : State}
    {request : Cohort.PrepareTransactionRequest} {m m' : Cohort.Metadata}
    {op : Operation} {todo : List Operation}
    (ht : (s.cohorts a).threads id = some ⟨request, m, .running (op :: todo)⟩)
    (hok : Database.processOperationInDb (P.adapters a).access (s.cohorts a).store op m = .ok m') :
    Succeeds P id s (.cohort a id (.operate none)) := by
  refine fun _ => ⟨rfl, fun request' m₁ op' todo' ht' => ?_⟩
  rw [ht] at ht'
  cases ht'
  exact ⟨m', hok⟩

/-- A put and a get that reach one cohort and nothing else. -/
theorem putGet_off_chain : ∃ s, OffChain Coordinator.localId putGetActions s := by
  refine ⟨_, single_off_chain (P := localParties) (.cons ⟨.commitAtomicTransaction
      Coordinator.localContext putGet (by decide) rfl rfl, trivial⟩
    (.cons ⟨.cohort _ _ (.start putGetFor Cohort.keyOrders rfl rfl)
      (.inr ⟨(⟨"", "cohort:50052"⟩, putGetFor), .head _, rfl⟩), fun _ => trivial⟩
    (.cons ⟨.cohort _ _ (.lock true rfl rfl) trivial, fun _ => rfl⟩
    (.cons ⟨.cohort _ _ (.begin rfl) trivial, fun _ => rfl⟩
    (.cons ⟨.cohort _ _ (.operate rfl (noFault _)) trivial, succeeds_operate rfl rfl⟩
    (.cons ⟨.cohort _ _ (.operate rfl (noFault _)) trivial, succeeds_operate rfl rfl⟩
    (.cons ⟨.cohort _ _ (.endOperations rfl) trivial, fun _ => trivial⟩
    (.cons ⟨.cohort _ _ (.commit rfl) trivial, fun _ => trivial⟩
    (.cons ⟨.cohort _ _ (.unlock rfl) trivial, fun _ => trivial⟩
    (.cons ⟨.cohort _ _ (.finish rfl) trivial, fun _ => trivial⟩
    (.single ⟨.cohortResult _ _ rfl, trivial⟩))))))))))) ?_⟩
  simp [Single, OneAddress, Operation.address, putGetActions, putGet, putAt]

def getAbsent : CommitAtomicTransactionRequest :=
  ⟨"id", ⟨[⟨⟨"", "cohort:50052"⟩, some (.get ⟨"k"⟩)⟩]⟩, ⟨none⟩⟩

def getAbsentFor : Cohort.PrepareTransactionRequest :=
  ⟨Coordinator.localId, getAbsent.transaction, ⟨some ⟨110, 0⟩⟩, some (.onlyCohort true)⟩

def getAbsentActions : List Action :=
  .commitAtomicTransaction Coordinator.localContext getAbsent
      [.prepareTransaction ⟨"", "cohort:50052"⟩ getAbsentFor] ::
    [.start getAbsentFor, .lock true, .begin none, .operate none,
      .vote getAbsentFor.cohortIndex .abort].map
      (.cohort "cohort:50052" Coordinator.localId)

theorem getAbsent_run : ∃ s, Run localParties getAbsentActions s := by
  refine ⟨_, .cons (.commitAtomicTransaction Coordinator.localContext getAbsent (by decide) rfl rfl)
    (.cons (.cohort _ _ (.start getAbsentFor Cohort.keyOrders rfl rfl)
      (.inr ⟨(⟨"", "cohort:50052"⟩, getAbsentFor), .head _, rfl⟩))
    (.cons (.cohort _ _ (.lock true rfl rfl) trivial)
    (.cons (.cohort _ _ (.begin rfl) trivial)
    (.cons (.cohort _ _ (.operate rfl (noFault _)) trivial)
    (.single (.cohort _ _ (.voteAbort rfl) trivial))))))⟩

/-- The cohort votes on a transaction whose voting was never started. -/
theorem getAbsent_votes : ∃ s, Run localParties getAbsentActions s ∧
    (∀ x ∈ getAbsentActions, Single localParties Coordinator.localId x) ∧
    ¬OffChain Coordinator.localId getAbsentActions s := by
  obtain ⟨s, h⟩ := getAbsent_run
  refine ⟨s, h, by simp [Single, OneAddress, getAbsentActions, getAbsent], fun hoff => ?_⟩
  exact hoff.noVote "cohort:50052" getAbsentFor.cohortIndex .abort (by simp [getAbsentActions])

end TwoPhaseCommit.System
