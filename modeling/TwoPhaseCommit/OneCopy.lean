import TwoPhaseCommit.GlobalOrder
import TwoPhaseCommit.SystemAnswers

/-! All databases seen as one: the transactions of the clients, whole and one after another, on a
single store. -/
namespace TwoPhaseCommit.Coordinator
open Database

theorem execute_combined {absent : Status} {store store' : Store (String × String)}
    {ops : List Operation} {rs : String → List GetResponse}
    (h : ∀ a, execute (Access.cohort absent) (part store a) (opsAt a ops) =
      .ok (part store' a, rs a)) :
    ∃ responses, execute (combined absent) store ops = .ok (store', responses) ∧
      ∀ a, responsesAt a responses = rs a := by
  cases hw : processOperations (combined absent) store ops (begun false) with
  | error status =>
    obtain ⟨op, _, herr⟩ := Projects.run_error hw fun a => projects_begun a false
    obtain ⟨m, hm, _⟩ := execute_ok_iff.mp (h op.address)
    cases hm.symm.trans herr
  | ok M =>
    have hparts (a : String) : part store' a = part (commitStore store M) a ∧
        rs a = responsesAt a M.response.committed.getResponses := by
      obtain ⟨m, hm, hp⟩ := (projects_begun a false).run_ok hw
      have halone : execute (Access.cohort absent) (part store a) (opsAt a ops) =
          .ok (part (commitStore store M) a, responsesAt a M.response.committed.getResponses) :=
        execute_ok_iff.mpr ⟨m, hm, by rw [hp.commitStore, hp.responses]⟩
      exact Prod.mk.inj (Except.ok.inj ((h a).symm.trans halone))
    have hstore : store' = commitStore store M := by
      funext ⟨a, key⟩
      exact congrFun (hparts a).1 key
    exact ⟨_, execute_ok_iff.mpr ⟨M, hw, by rw [hstore]⟩, fun a => (hparts a).2.symm⟩

end TwoPhaseCommit.Coordinator

namespace TwoPhaseCommit.System
open Coordinator (CommitAtomicTransactionRequest Answer addresses opsAt messages submissionRpcs
  combined responsesAt part)
open Cohort (Answered requestOf commitOrder)
open Database (Store Access Executes serialRun)
open Runs (Before)

def submittedBy (P : Parties) (id : String) : Action → Option CommitAtomicTransactionRequest
  | .commitAtomicTransaction context request _ =>
    if Coordinator.getTransactionId P.server.sha256 request.clientTransactionId context.peer =
      .ok id then some request else none
  | _ => none

def clientOps (P : Parties) (xs : List Action) (id : String) : List Operation :=
  ((xs.findSome? (submittedBy P id)).map fun r => r.transaction.ops).getD []

/-- The stores of all cohorts as one. -/
def joined (stores : String → Store String) : Store (String × String) := fun p => stores p.1 p.2

/-- What has committed at one of its cohorts has committed at all of them. -/
def Settled (P : Parties) (xs : List Action) : Prop :=
  ∀ id ∈ globalOrder xs, ∀ a ∈ addresses (clientOps P xs id), .cohort a id (.commit none) ∈ xs

theorem submittedBy_eq_some {P : Parties} {id : String} {x : Action}
    {request : CommitAtomicTransactionRequest} (h : submittedBy P id x = some request) :
    ∃ context rpcs, x = .commitAtomicTransaction context request rpcs ∧ Submits P id x := by
  cases x with
  | commitAtomicTransaction context request' rpcs =>
    obtain ⟨hid, he⟩ := Option.ite_none_right_eq_some.mp h
    obtain rfl := Option.some.inj he
    exact ⟨context, rpcs, rfl, hid⟩
  | _ => cases h

section Run
variable {P : Parties} {xs ys zs : List Action} {s : State} {a id u : String}

theorem clientOps_eq (honce : SubmittedOnce P id xs) {context : Coordinator.CommitContext}
    {request : CommitAtomicTransactionRequest} {rpcs : List Coordinator.Rpc}
    (hx : .commitAtomicTransaction context request rpcs ∈ xs)
    (hsub : Submits P id (.commitAtomicTransaction context request rpcs)) :
    clientOps P xs id = request.transaction.ops := by
  have hsome : submittedBy P id (.commitAtomicTransaction context request rpcs) = some request :=
    if_pos hsub
  cases hfind : xs.findSome? (submittedBy P id) with
  | none =>
    rw [List.findSome?_eq_none_iff.mp hfind _ hx] at hsome
    cases hsome
  | some request' =>
    obtain ⟨y, hy, hreq⟩ := List.exists_of_findSome?_eq_some hfind
    obtain ⟨context', rpcs', rfl, hsub'⟩ := submittedBy_eq_some hreq
    obtain ⟨_, hrequest, _⟩ := Action.commitAtomicTransaction.inj (honce.eq hx hy hsub hsub')
    rw [clientOps, hfind, hrequest]
    rfl

theorem ops_of_thread (h : Run P xs s) (honce : SubmittedOnce P id xs) {t : Cohort.Thread}
    (ht : (s.cohorts a).threads id = some t) :
    t.request.transaction.ops = opsAt a (clientOps P xs id) ∧
      a ∈ addresses (clientOps P xs id) := by
  obtain ⟨stage, hinv⟩ := stage_run h honce
  obtain ⟨config, subs, hsent, m, hm, rfl, hreq⟩ := sent_of_thread h hinv ht
  obtain ⟨context, request, hx, hsub⟩ := hsent.submitted
  obtain ⟨hperm, hops⟩ := messages_of_submission h hx (List.ne_nil_of_mem hm)
  rw [clientOps_eq honce hx hsub, hreq]
  exact ⟨hops m hm, hperm.mem_iff.mp (List.mem_map_of_mem hm)⟩

theorem opsOf_eq (h : Run P xs s) (honce : SubmittedOnce P id xs)
    (hid : id ∈ commitOrder (actionsAt a xs)) :
    opsOf a xs id = opsAt a (clientOps P xs id) ∧ a ∈ addresses (clientOps P xs id) := by
  obtain ⟨t, ht, hreq, _⟩ := Cohort.thread_of_committed (cohort_run h a) hid
  rw [opsOf, hreq]
  exact ops_of_thread h honce ht

theorem opsAt_eq_nil {ops : List Operation} (ha : a ∉ addresses ops) : opsAt a ops = [] := by
  rw [opsAt, List.filter_eq_nil_iff]
  intro op hop hat
  refine ha (List.mem_dedup.mpr (List.mem_map.mpr ⟨op, hop, of_decide_eq_true hat⟩))

/-- What a cohort has to have answered: the values that it read, none if it has no part. -/
def Answers (s : State) (xs : List Action) (a id : String) (rs : List GetResponse) : Prop :=
  if id ∈ commitOrder (actionsAt a xs) then Answered (s.cohorts a) id rs else rs = []

theorem parts_run (h : Run P xs s) (honce : ∀ id, SubmittedOnce P id xs) (hsettled : Settled P xs)
    (a : String) :
    Runs.Run (Executes (P.adapters a).access (fun id => opsAt a (clientOps P xs id))
      (Answers s xs a)) (P.stores a) (globalOrder xs) (s.cohorts a).store := by
  refine Runs.Run.pad (p := fun id => id ∈ commitOrder (actionsAt a xs)) ?_ ?_
  · refine (orderAt_run h honce a).imp fun id hid _ store store' _ => ?_
    have hcommitted : id ∈ commitOrder (actionsAt a xs) := (perm_orderAt h a).mem_iff.mp hid
    rintro ⟨rs, hexec, hanswered⟩
    rw [(opsOf_eq h (honce id) hcommitted).1] at hexec
    exact ⟨rs, hexec, by rwa [Answers, if_pos hcommitted]⟩
  · intro id hid hno store
    have hno' : id ∉ commitOrder (actionsAt a xs) := of_decide_eq_false hno
    have hnil : opsAt a (clientOps P xs id) = [] := opsAt_eq_nil fun ha =>
      hno' (mem_commitOrder_actionsAt.mpr (hsettled id hid a ha))
    refine ⟨[], ?_, by rw [Answers, if_neg hno']⟩
    simp only [hnil]
    rfl

/-- The stores of all cohorts together come from the clients' transactions, whole and one after
another. -/
theorem joined_run {absent : Status} (h : Run P xs s) (honce : ∀ id, SubmittedOnce P id xs)
    (hsettled : Settled P xs) (habsent : ∀ a, (P.adapters a).absent = absent) :
    Runs.Run (Executes (combined absent) (clientOps P xs)
        fun id rs => ∀ a, Answers s xs a id (responsesAt a rs))
      (joined P.stores) (globalOrder xs) (joined fun a => (s.cohorts a).store) := by
  refine Runs.Run.product (f := joined) ?_ (parts_run h honce hsettled)
  intro t t' id hstep
  choose rs hexec hanswers using hstep
  have hparts (a : String) : Database.execute (Access.cohort absent) (part (joined t) a)
      (opsAt a (clientOps P xs id)) = .ok (part (joined t') a, rs a) := by
    rw [← habsent a]
    exact hexec a
  obtain ⟨responses, hwhole, hrs⟩ := Coordinator.execute_combined hparts
  exact ⟨responses, hwhole, fun a => by rw [hrs]; exact hanswers a⟩

theorem namespace_of_response {κ : Type} [DecidableEq κ] {acc : Access κ} {store : Store κ}
    {ops : List Operation} {m m' : Database.TransactionMetadata κ}
    (h : Database.processOperations acc store ops m = .ok m') {r : GetResponse}
    (hr : r ∈ m'.response.committed.getResponses) :
    r ∈ m.response.committed.getResponses ∨ ∃ op ∈ ops, op.namespace_ = r.namespace_ := by
  induction ops generalizing m with
  | nil =>
    cases h
    exact .inl hr
  | cons op ops ih =>
    rw [Database.processOperations] at h
    cases hop : Database.processOperationInDb acc store op m with
    | error status => simp [hop] at h
    | ok m₁ =>
      simp only [hop] at h
      obtain hmem | ⟨op', hop', he⟩ := ih h
      · obtain ⟨_, rfl⟩ | ⟨g, value, _, _, rfl⟩ | ⟨p, value, _, hput⟩ :=
          Database.processOperationInDb_ok hop
        · exact .inl hmem
        · rw [Database.committed_addGetResponse, List.mem_append, List.mem_singleton] at hmem
          exact hmem.imp_right fun he => ⟨op, List.mem_cons_self, by rw [he]⟩
        · obtain ⟨_, _, rfl⟩ := Database.dbPut_ok hput
          exact .inl hmem
      · exact .inr ⟨op', List.mem_cons_of_mem op hop', he⟩

theorem responsesAt_of_execute {κ : Type} [DecidableEq κ] {acc : Access κ} {store store' : Store κ}
    {ops : List Operation} {rs : List GetResponse} {b : String}
    (h : Database.execute acc store (opsAt b ops) = .ok (store', rs)) :
    responsesAt a rs = if b = a then rs else [] := by
  have haddress : ∀ r ∈ rs, r.namespace_.address = b := by
    obtain ⟨m, hm, he⟩ := Database.execute_ok_iff.mp h
    obtain ⟨_, rfl⟩ := Prod.mk.inj he
    intro r hr
    obtain hr | ⟨op, hop, he⟩ := namespace_of_response hm hr
    · cases hr
    · rw [← he]
      exact of_decide_eq_true (List.mem_filter.mp hop).2
  split_ifs with hba
  · subst hba
    exact List.filter_eq_self.mpr fun r hr => decide_eq_true (haddress r hr)
  · refine List.filter_eq_nil_iff.mpr fun r hr hra => hba ?_
    rw [← haddress r hr]
    exact of_decide_eq_true hra

theorem complete_answer (h : Run P xs s) (honce : SubmittedOnce P id xs)
    {answer : Coordinator.GetTransactionResultResponse} {c : Coordinator.CommittedResponse}
    (hx : .getTransactionResult id answer ∈ xs) (hanswer : answer = some (.committedResponse c))
    (hc : c.complete = true) :
    ∃ answers : List Answer, answers ≠ [] ∧ (answers.map Prod.fst).Nodup ∧
      c.response.getResponses = answers.flatMap (fun p => p.2.getResponses) ∧
      (∀ a ∈ addresses (clientOps P xs id), a ∈ answers.map Prod.fst) ∧
      ∀ p ∈ answers, id ∈ commitOrder (actionsAt p.1 xs) ∧
        Answered (s.cohorts p.1) id p.2.getResponses ∧
        ∀ a, responsesAt a p.2.getResponses = if p.1 = a then p.2.getResponses else [] := by
  obtain ⟨ys, zs, rfl⟩ := List.append_of_mem hx
  have honce' : SubmittedOnce P id ys := (List.pairwise_append.mp honce).1
  obtain ⟨m, m', hm, hs, hafter⟩ := h.at
  have hlater : Runs.Run (Step P) m (.getTransactionResult id answer :: zs) s := .cons hs hafter
  obtain ⟨stage, hinv, haccount⟩ := accounted_run hm honce'
  cases hs with
  | @getTransactionResult _ replies hg o ho =>
    have hnew := haccount.poll hinv hg
    have hpolled : Coordinator.Polled m.coordinator id
        (Coordinator.getTransactionResult replies id m.coordinator) := (progress_at hm id).poll
    rw [← ho] at hnew hpolled
    have hfinal : Coordinator.Final o.response := by
      rw [hanswer]
      exact hc
    have hresponse := (hpolled.answer.resolve_right fun hw => hw.2.1 hfinal).symm.trans hanswer
    cases stage with
    | unsubmitted =>
      obtain ⟨_, hnone⟩ := record_eq hnew
      rw [hnone] at hresponse
      cases hresponse
    | dropped => exact absurd rfl (Account.committed hnew List.nodup_nil hresponse hc).1
    | sent config subs =>
      have hsent : SentInv P id config subs ys m := hinv
      obtain ⟨hne, answers, hperm, hvalues, hgiven⟩ :=
        Account.committed hnew hsent.nodup hresponse hc
      obtain ⟨context, request, rpcs, hx', hsub, hperm', hexecuted⟩ :=
        hsent.executed hm hperm hgiven
      rw [clientOps_eq honce (List.mem_append_left _ hx') hsub]
      refine ⟨answers, ?_, hperm.nodup_iff.mpr hsent.nodup, hvalues,
        fun a ha => hperm'.mem_iff.mpr ha, fun p hp => ?_⟩
      · rintro rfl
        exact hne (List.map_eq_nil_iff.mp hperm.nil_eq.symm)
      · obtain ⟨hcommitted, hanswered⟩ := committed_result hm (hgiven p hp)
        obtain ⟨_, _, _, _, _, _, _, hexec⟩ := hexecuted p hp
        exact ⟨mem_commitOrder_actionsAt.mpr (List.mem_append_left _ hcommitted),
          hanswered.run (cohort_steps hlater p.1), fun a => responsesAt_of_execute hexec⟩

theorem responsesAt_flatMap (answers : List Answer) :
    responsesAt a (answers.flatMap fun p => p.2.getResponses) =
      answers.flatMap fun p => responsesAt a p.2.getResponses := List.filter_flatMap

theorem answer_at (h : Run P xs s) (honce : SubmittedOnce P id xs)
    {answer : Coordinator.GetTransactionResultResponse} {c : Coordinator.CommittedResponse}
    (hx : .getTransactionResult id answer ∈ xs) (hanswer : answer = some (.committedResponse c))
    (hc : c.complete = true) {rs : List GetResponse} (hrs : Answers s xs a id rs) :
    responsesAt a c.response.getResponses = rs := by
  obtain ⟨answers, _, hnodup, hvalues, hall, hanswers⟩ := complete_answer h honce hx hanswer hc
  rw [hvalues, responsesAt_flatMap]
  have hother {ps : List Answer} (hps : ∀ p ∈ ps, p ∈ answers) (ha : a ∉ ps.map Prod.fst) :
      (ps.flatMap fun p => responsesAt a p.2.getResponses) = [] := by
    refine List.flatMap_eq_nil_iff.mpr fun p hp => ?_
    rw [(hanswers p (hps p hp)).2.2 a, if_neg fun he => ha (List.mem_map.mpr ⟨p, hp, he⟩)]
  by_cases ha : a ∈ answers.map Prod.fst
  · obtain ⟨p, hp, rfl⟩ := List.mem_map.mp ha
    obtain ⟨hcommitted, hanswered, hresponses⟩ := hanswers p hp
    rw [Answers, if_pos hcommitted] at hrs
    obtain ⟨as, bs, rfl⟩ := List.append_of_mem hp
    rw [List.map_append, List.map_cons, List.nodup_middle, List.nodup_cons, List.mem_append,
      not_or] at hnodup
    rw [List.flatMap_append, List.flatMap_cons,
      hother (fun q hq => List.mem_append_left _ hq) hnodup.1.1,
      hother (fun q hq => List.mem_append_right _ (List.mem_cons_of_mem p hq)) hnodup.1.2,
      List.nil_append, List.append_nil, hresponses, if_pos rfl]
    exact hanswered.unique hrs
  · have hno : id ∉ commitOrder (actionsAt a xs) := fun hmem =>
      ha (hall a (opsOf_eq h honce hmem).2)
    rw [Answers, if_neg hno] at hrs
    rw [hother (fun _ hp => hp) ha, hrs]

/-- Seen from outside there is one database, on which the clients' transactions were run whole, one
after another. -/
structure OneCopy (P : Parties) (absent : Status) (xs : List Action) (s : State) : Prop where
  serial : ∃ responses,
    serialRun (combined absent) (joined P.stores) ((globalOrder xs).map (clientOps P xs)) =
      .ok (joined fun a => (s.cohorts a).store, responses) ∧
    List.Forall₂ (fun id rs => ∀ c, .getTransactionResult id (some (.committedResponse c)) ∈ xs →
      c.complete = true → ∀ a, responsesAt a c.response.getResponses = responsesAt a rs)
      (globalOrder xs) responses
  answered : ∀ id c, .getTransactionResult id (some (.committedResponse c)) ∈ xs →
    c.complete = true → id ∈ globalOrder xs

theorem mem_globalOrder_of_answer (h : Run P xs s) (honce : SubmittedOnce P id xs)
    {c : Coordinator.CommittedResponse}
    (hx : .getTransactionResult id (some (.committedResponse c)) ∈ xs) (hc : c.complete = true) :
    id ∈ globalOrder xs := by
  obtain ⟨answers, hne, _, _, _, hanswers⟩ := complete_answer h honce hx rfl hc
  obtain ⟨p, hp⟩ := List.exists_mem_of_ne_nil answers hne
  exact mem_globalOrder.mpr ⟨p.1, mem_commitOrder_actionsAt.mp (hanswers p hp).1⟩

/-- Once every transaction has ended at all its cohorts, the databases hold and the clients were
told what one database would, that ran the transactions whole in the global order. -/
theorem oneCopy_of_settled {absent : Status} (h : Run P xs s) (honce : ∀ id, SubmittedOnce P id xs)
    (hsettled : Settled P xs) (habsent : ∀ a, (P.adapters a).absent = absent) :
    OneCopy P absent xs s where
  serial := by
    obtain ⟨responses, hserial, hgood⟩ :=
      Database.serialRun_of_run (joined_run h honce hsettled habsent)
    refine ⟨responses, hserial, hgood.imp fun id rs hrs c hx hc a => ?_⟩
    exact answer_at h (honce id) hx rfl hc (hrs a)
  answered id c hx hc := mem_globalOrder_of_answer h (honce id) hx hc

theorem before_of_answer (h : Run P (ys ++ zs) s) (honce : ∀ id, SubmittedOnce P id (ys ++ zs))
    {c : Coordinator.CommittedResponse}
    (hx : .getTransactionResult id (some (.committedResponse c)) ∈ ys) (hc : c.complete = true)
    (hlater : ∀ y ∈ ys, ¬Submits P u y) (hu : u ∈ globalOrder (ys ++ zs)) :
    Before (globalOrder (ys ++ zs)) id u := by
  obtain ⟨m, hm, _⟩ := h.split
  have honce' (id : String) : SubmittedOnce P id ys := (List.pairwise_append.mp (honce id)).1
  refine before_globalOrder (mem_globalOrder_of_answer hm (honce' id) hx hc) ?_ hu
  intro hmem
  obtain ⟨a, ha⟩ := mem_globalOrder.mp hmem
  obtain ⟨t, ht⟩ := thread_at hm ha
  obtain ⟨stage, hinv⟩ := stage_run hm (honce' u)
  obtain ⟨config, subs, hsent, _⟩ := sent_of_thread hm hinv ht
  obtain ⟨context, request, hsubmit, hsub⟩ := hsent.submitted
  exact hlater _ hsubmit hsub

end Run

end TwoPhaseCommit.System
