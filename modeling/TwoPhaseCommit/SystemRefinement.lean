import TwoPhaseCommit.Lib.AtomicService
import TwoPhaseCommit.SystemCompletion
import TwoPhaseCommit.SystemSessions

/-! The system refines a service with one store that runs the transactions of the clients
atomically: a transaction happens when it is committed for the first time at one of its cohorts. -/
namespace TwoPhaseCommit.Database
variable {κ : Type} [DecidableEq κ] {acc : Access κ}

theorem serialRun_snoc {store store' store'' : Store κ} {lists : List (List Operation)}
    {ops : List Operation} {responses all : List (List GetResponse)}
    (h : serialRun acc store lists = .ok (store', responses))
    (hall : serialRun acc store (lists ++ [ops]) = .ok (store'', all)) :
    ∃ rs, execute acc store' ops = .ok (store'', rs) ∧ all = responses ++ [rs] := by
  induction lists generalizing store responses all with
  | nil =>
    cases h
    rw [List.nil_append, serialRun] at hall
    cases he : execute acc store' ops with
    | error status => simp [he] at hall
    | ok p =>
      simp only [he, serialRun] at hall
      obtain ⟨rfl, rfl⟩ := Prod.mk.inj (Except.ok.inj hall)
      exact ⟨p.2, rfl, rfl⟩
  | cons first lists ih =>
    rw [serialRun] at h
    rw [List.cons_append, serialRun] at hall
    cases he : execute acc store first with
    | error status => simp [he] at h
    | ok p =>
      simp only [he] at h hall
      cases hrest : serialRun acc p.1 lists with
      | error status => simp [hrest] at h
      | ok q =>
        cases hrest' : serialRun acc p.1 (lists ++ [ops]) with
        | error status => simp [hrest'] at hall
        | ok q' =>
          simp only [hrest] at h
          simp only [hrest'] at hall
          obtain ⟨rfl, rfl⟩ := Prod.mk.inj (Except.ok.inj h)
          obtain ⟨rfl, rfl⟩ := Prod.mk.inj (Except.ok.inj hall)
          obtain ⟨rs, hrs, hlast⟩ := ih hrest hrest'
          exact ⟨rs, hrs, by rw [hlast, List.cons_append]⟩

end TwoPhaseCommit.Database

namespace TwoPhaseCommit.System
open Coordinator (combined responsesAt)
open Database (Store execute serialRun)

/-- The service: one store with a key space for each address. -/
abbrev Service :=
  AtomicService.State String (List Operation) (Store (String × String)) (List GetResponse)

abbrev ServiceEvent := AtomicService.Event String (List Operation) Coordinator.CommittedResponse

/-- An answer shows the values that were read, for each address in the order of the operations. -/
def Shows (rs : List GetResponse) (c : Coordinator.CommittedResponse) : Prop :=
  ∀ a, responsesAt a c.response.getResponses = responsesAt a rs

abbrev ServiceStep (absent : Status) : Service → ServiceEvent → Service → Prop :=
  AtomicService.Step (fun store ops => (execute (combined absent) store ops).toOption) Shows

/-- What the clients see of a step: what they submit and the final answers. -/
def observed (P : Parties) : Action → Option ServiceEvent
  | .commitAtomicTransaction context request _ =>
    match Coordinator.getTransactionId P.server.sha256 request.clientTransactionId context.peer with
    | .ok id => some (.submit id request.transaction.ops)
    | .error _ => none
  | .getTransactionResult id (some (.abortedResponse _)) => some (.aborted id)
  | .getTransactionResult id (some (.committedResponse c)) =>
    if c.complete then some (.committed id c) else none
  | _ => none

/-- A state of the service and what has happened in the system. -/
structure Matches (P : Parties) (absent : Status) (xs : List Action) (S : Service) : Prop where
  submitted : ∀ id, S.submitted id =
    (xs.findSome? (submittedBy P id)).map fun r => r.transaction.ops
  order : S.log.map Prod.fst = globalOrder xs
  serial : serialRun (combined absent) (joined P.stores) ((globalOrder xs).map (clientOps P xs)) =
    .ok (S.store, S.log.map Prod.snd)
  refused : ∀ id ∈ S.refused, ∃ r, .getTransactionResult id (some (.abortedResponse r)) ∈ xs

section Run
variable {P : Parties} {absent : Status} {xs : List Action} {s s' : State} {x : Action} {id : String}
  {S : Service}

theorem submittedBy_isSome_iff : (submittedBy P id x).isSome ↔ Submits P id x := by
  constructor
  · intro h
    obtain ⟨request, hrequest⟩ := Option.isSome_iff_exists.mp h
    obtain ⟨_, _, _, hsub⟩ := submittedBy_eq_some hrequest
    exact hsub
  · intro h
    cases x with
    | commitAtomicTransaction context request rpcs =>
      exact Option.isSome_iff_exists.mpr ⟨request, if_pos h⟩
    | _ => cases h

theorem findSome?_isSome_iff :
    (xs.findSome? (submittedBy P id)).isSome ↔ ∃ x ∈ xs, Submits P id x := by
  simp only [List.findSome?_isSome_iff, submittedBy_isSome_iff]

theorem submits_of_committed (h : Run P xs s) (honce : SubmittedOnce P id xs)
    (hid : id ∈ globalOrder xs) : ∃ x ∈ xs, Submits P id x := by
  obtain ⟨a, ha⟩ := mem_globalOrder.mp hid
  obtain ⟨t, ht⟩ := thread_at h ha
  obtain ⟨stage, hinv⟩ := stage_run h honce
  obtain ⟨config, subs, hsent, _⟩ := sent_of_thread h hinv ht
  obtain ⟨context, request, hx, hsub⟩ := hsent.submitted
  exact ⟨_, hx, hsub⟩

theorem submits_of_aborted (h : Run P xs s) (honce : SubmittedOnce P id xs)
    {r : Coordinator.AbortedResponse}
    (hx : .getTransactionResult id (some (.abortedResponse r)) ∈ xs) :
    ∃ x ∈ xs, Submits P id x := by
  obtain ⟨stage, hinv⟩ := stage_run h honce
  cases stage with
  | unsubmitted =>
    obtain hread | ⟨a, ha⟩ := abort_of_answer h honce hx rfl
    · exact absurd hread (UnsubmittedInv.undecided hinv _)
    · obtain ⟨t, ht⟩ := thread_at h ha
      cases (no_thread h (UnsubmittedInv.unsent hinv) a).symm.trans ht
  | dropped => exact DroppedInv.submitted hinv
  | sent config subs =>
    obtain ⟨context, request, hmem, hsub⟩ := SentInv.submitted hinv
    exact ⟨_, hmem, hsub⟩

theorem clientOps_snoc (h : Run P xs s) (honce : SubmittedOnce P id xs)
    (hid : id ∈ globalOrder xs) (x : Action) : clientOps P (xs ++ [x]) id = clientOps P xs id := by
  have hsome := findSome?_isSome_iff.mpr (submits_of_committed h honce hid)
  rw [clientOps, clientOps, List.findSome?_append, Option.or_of_isSome hsome]

/-- In every run the committed transactions can be run one after another, and this gives the
values in the answers, and the databases where all is settled. -/
theorem serial_run (h : Run P xs s) (honce : ∀ id, SubmittedOnce P id xs)
    (habsent : ∀ a, (P.adapters a).absent = absent) :
    ∃ store responses, serialRun (combined absent) (joined P.stores)
        ((globalOrder xs).map (clientOps P xs)) = .ok (store, responses) ∧
      List.Forall₂ (fun id rs => ∀ c, .getTransactionResult id (some (.committedResponse c)) ∈ xs →
        c.complete = true → Shows rs c) (globalOrder xs) responses := by
  obtain ⟨ys, s', _, hcompletes, hone⟩ := exists_completion h honce habsent
  obtain ⟨responses, hserial, hanswers⟩ := hone.serial
  have hops : clientOps P (xs ++ ys) = clientOps P xs :=
    funext fun id => clientOps_append hcompletes.cohorts
  rw [hcompletes.globalOrder_eq] at hserial hanswers
  rw [hops] at hserial
  exact ⟨_, responses, hserial, hanswers.imp fun id rs hrs c hx =>
    hrs c (List.mem_append_left ys hx)⟩

theorem Matches.initial (P : Parties) (absent : Status) :
    Matches P absent [] (AtomicService.initial (joined P.stores)) :=
  ⟨fun _ => rfl, rfl, rfl, fun _ h => h.elim⟩

section Step
variable (hm : Matches P absent xs S)
include hm

theorem Matches.submitted_snoc (hx : ∀ id, submittedBy P id x = none) (id : String) :
    S.submitted id = ((xs ++ [x]).findSome? (submittedBy P id)).map fun r => r.transaction.ops := by
  rw [List.findSome?_append, List.findSome?_singleton, hx, Option.or_none]
  exact hm.submitted id

theorem Matches.refused_snoc (id : String) (hid : id ∈ S.refused) :
    ∃ r, .getTransactionResult id (some (.abortedResponse r)) ∈ xs ++ [x] := by
  obtain ⟨r, hr⟩ := hm.refused id hid
  exact ⟨r, List.mem_append_left _ hr⟩

variable (h : Run P xs s) (honce : ∀ id, SubmittedOnce P id (xs ++ [x]))
include h honce

theorem Matches.serial_snoc :
    serialRun (combined absent) (joined P.stores)
      ((globalOrder xs).map (clientOps P (xs ++ [x]))) = .ok (S.store, S.log.map Prod.snd) := by
  rw [List.map_congr_left fun id hid => clientOps_snoc h (honce id).init hid x]
  exact hm.serial

theorem Matches.keep (hglobal : globalOrder (xs ++ [x]) = globalOrder xs)
    {submitted : String → Option (List Operation)} {refused : Set String}
    (hsubmitted : ∀ id, submitted id =
      ((xs ++ [x]).findSome? (submittedBy P id)).map fun r => r.transaction.ops)
    (hrefused : ∀ id ∈ refused,
      ∃ r, .getTransactionResult id (some (.abortedResponse r)) ∈ xs ++ [x]) :
    Matches P absent (xs ++ [x]) { S with submitted := submitted, refused := refused } where
  submitted := hsubmitted
  order := hm.order.trans hglobal.symm
  serial := by
    rw [hglobal]
    exact hm.serial_snoc h honce
  refused := hrefused

theorem Matches.quiet (hglobal : globalOrder (xs ++ [x]) = globalOrder xs)
    (hx : ∀ id, submittedBy P id x = none) : Matches P absent (xs ++ [x]) S :=
  hm.keep h honce hglobal (hm.submitted_snoc hx) (hm.refused_snoc)

theorem Matches.submit {context : Coordinator.CommitContext}
    {request : Coordinator.CommitAtomicTransactionRequest} {rpcs : List Coordinator.Rpc}
    (hx : x = .commitAtomicTransaction context request rpcs) (hsub : Submits P id x) :
    ∃ S', ServiceStep absent S (.submit id request.transaction.ops) S' ∧
      Matches P absent (xs ++ [x]) S' := by
  subst hx
  have hid : Coordinator.getTransactionId P.server.sha256 request.clientTransactionId context.peer =
    .ok id := hsub
  have hnone : xs.findSome? (submittedBy P id) = none := by
    rw [← Option.not_isSome_iff_eq_none, findSome?_isSome_iff]
    rintro ⟨y, hy, hsuby⟩
    exact (List.pairwise_append.mp (honce id)).2.2 y hy _ (List.mem_singleton_self _)
      ⟨hsuby, hsub⟩
  have hfree : S.submitted id = none := by rw [hm.submitted, hnone]; rfl
  refine ⟨_, .submit id _ hfree, hm.keep h honce (globalOrder_snoc xs _) ?_ (hm.refused_snoc)⟩
  intro u
  rw [List.findSome?_append, List.findSome?_singleton]
  by_cases hu : u = id
  · subst hu
    rw [Function.update_self, hnone, submittedBy, if_pos hid]
    rfl
  · have hother : submittedBy P u (.commitAtomicTransaction context request rpcs) = none := by
      rw [submittedBy, if_neg fun he => hu (Except.ok.inj (he.symm.trans hid))]
    rw [Function.update_of_ne hu, hother, Option.or_none]
    exact hm.submitted u

theorem Matches.commit {a : String} (hx : x = .cohort a id (.commit none))
    (hid : id ∉ globalOrder xs) (h' : Run P (xs ++ [x]) s')
    (habsent : ∀ a, (P.adapters a).absent = absent) :
    ∃ S', ServiceStep absent S (.commit id) S' ∧ Matches P absent (xs ++ [x]) S' := by
  have hglobal : globalOrder (xs ++ [x]) = globalOrder xs ++ [id] := by
    subst hx
    rw [globalOrder_snoc, noteCommit, if_neg hid]
  have hnone (u : String) : submittedBy P u x = none := by
    subst hx
    rfl
  have hmem : id ∈ globalOrder (xs ++ [x]) := hglobal ▸ List.mem_append_right _ (.head _)
  obtain ⟨store, responses, hserial, _⟩ := serial_run h' honce habsent
  rw [hglobal, List.map_append, List.map_singleton] at hserial
  obtain ⟨rs, hexec, hall⟩ := Database.serialRun_snoc (hm.serial_snoc h honce) hserial
  obtain ⟨ops, hops⟩ : ∃ ops, S.submitted id = some ops := by
    have hsome := findSome?_isSome_iff.mpr (submits_of_committed h' (honce id) hmem)
    obtain ⟨request, hrequest⟩ := Option.isSome_iff_exists.mp hsome
    exact ⟨_, (hm.submitted_snoc hnone id).trans (by rw [hrequest]; rfl)⟩
  have hclient : clientOps P (xs ++ [x]) id = ops := by
    rw [clientOps, ← hm.submitted_snoc hnone id, hops]
    rfl
  have hlog : id ∉ S.log.map Prod.fst := by rwa [hm.order]
  have hfree : id ∉ S.refused := by
    intro hrefused
    obtain ⟨r, hr⟩ := hm.refused_snoc id hrefused
    exact not_committed_of_answer h' (honce id) hr hmem
  refine ⟨_, .commit hops hlog hfree (by rw [← hclient, hexec]; rfl),
    hm.submitted_snoc hnone, ?_, ?_, hm.refused_snoc⟩
  · rw [List.map_append, hm.order, hglobal]
    rfl
  · rw [hglobal, List.map_append, List.map_singleton, hserial, hall, List.map_append]
    rfl

theorem Matches.aborted {r : Coordinator.AbortedResponse}
    (hx : x = .getTransactionResult id (some (.abortedResponse r))) (h' : Run P (xs ++ [x]) s') :
    ∃ S', ServiceStep absent S (.aborted id) S' ∧ Matches P absent (xs ++ [x]) S' := by
  have hmem : .getTransactionResult id (some (.abortedResponse r)) ∈ xs ++ [x] :=
    hx ▸ List.mem_append_right _ (.head _)
  have hnone (u : String) : submittedBy P u x = none := by
    subst hx
    rfl
  have hglobal : globalOrder (xs ++ [x]) = globalOrder xs := by
    subst hx
    exact globalOrder_snoc xs _
  have hsubmitted : S.submitted id ≠ none := by
    have hsome := findSome?_isSome_iff.mpr (submits_of_aborted h' (honce id) hmem)
    obtain ⟨request, hrequest⟩ := Option.isSome_iff_exists.mp hsome
    rw [hm.submitted_snoc hnone id, hrequest]
    exact Option.some_ne_none _
  have hlog : id ∉ S.log.map Prod.fst := by
    rw [hm.order, ← hglobal]
    exact not_committed_of_answer h' (honce id) hmem
  refine ⟨_, .aborted hsubmitted hlog,
    hm.keep h honce hglobal (hm.submitted_snoc hnone) ?_⟩
  intro u hu
  obtain rfl | hu := Set.mem_insert_iff.mp hu
  · exact ⟨r, hmem⟩
  · exact hm.refused_snoc u hu

theorem Matches.committed {c : Coordinator.CommittedResponse} (hc : c.complete = true)
    (hx : x = .getTransactionResult id (some (.committedResponse c))) (h' : Run P (xs ++ [x]) s')
    (habsent : ∀ a, (P.adapters a).absent = absent) :
    ServiceStep absent S (.committed id c) S ∧ Matches P absent (xs ++ [x]) S := by
  have hmem : .getTransactionResult id (some (.committedResponse c)) ∈ xs ++ [x] :=
    hx ▸ List.mem_append_right _ (.head _)
  have hglobal : globalOrder (xs ++ [x]) = globalOrder xs := by
    subst hx
    exact globalOrder_snoc xs _
  have hquiet := hm.quiet h honce hglobal fun u => by rw [hx]; rfl
  obtain ⟨store, responses, hserial, hanswers⟩ := serial_run h' honce habsent
  obtain ⟨_, rfl⟩ := Prod.mk.inj (Except.ok.inj (hquiet.serial.symm.trans hserial))
  rw [← hquiet.order, List.forall₂_map_left_iff, List.forall₂_map_right_iff,
    List.forall₂_same] at hanswers
  have hid : id ∈ S.log.map Prod.fst := by
    rw [hquiet.order]
    exact mem_globalOrder_of_answer h' (honce id) hmem hc
  obtain ⟨p, hp, rfl⟩ := List.mem_map.mp hid
  exact ⟨.committed hp (hanswers p hp c hmem hc), hquiet⟩

/-- Each step of the system is one of the service or none. -/
theorem Matches.step (hs : Step P s x s') (habsent : ∀ a, (P.adapters a).absent = absent) :
    ∃ es S', Runs.Run (ServiceStep absent) S es S' ∧
      es.filterMap AtomicService.Event.visible = (observed P x).toList ∧
      Matches P absent (xs ++ [x]) S' := by
  have h' : Run P (xs ++ [x]) s' := .snoc h hs
  have hquiet (hx : ∀ id, submittedBy P id x = none) (hobserved : observed P x = none)
      (hglobal : globalOrder (xs ++ [x]) = globalOrder xs) :
      ∃ es S', Runs.Run (ServiceStep absent) S es S' ∧
        es.filterMap AtomicService.Event.visible = (observed P x).toList ∧
        Matches P absent (xs ++ [x]) S' :=
    ⟨[], S, .nil, by rw [hobserved]; rfl, hm.quiet h honce hglobal hx⟩
  cases x with
  | commitAtomicTransaction context request rpcs =>
    cases hid : Coordinator.getTransactionId P.server.sha256 request.clientTransactionId
      context.peer with
    | error status =>
      exact hquiet (fun u => by simp [submittedBy, hid]) (by simp only [observed, hid])
        (globalOrder_snoc xs _)
    | ok id =>
      obtain ⟨S', hstep, hm'⟩ := hm.submit h honce rfl hid
      exact ⟨_, S', .single hstep, by simp only [observed, hid]; rfl, hm'⟩
  | getTransactionResult id answer =>
    cases answer with
    | none => exact hquiet (fun _ => rfl) rfl (globalOrder_snoc xs _)
    | some r =>
      cases r with
      | pendingResponse => exact hquiet (fun _ => rfl) rfl (globalOrder_snoc xs _)
      | abortedResponse r =>
        obtain ⟨S', hstep, hm'⟩ := hm.aborted h honce rfl h'
        exact ⟨_, S', .single hstep, rfl, hm'⟩
      | committedResponse c =>
        cases hc : c.complete with
        | false =>
          exact hquiet (fun _ => rfl) (if_neg (by simp [hc])) (globalOrder_snoc xs _)
        | true =>
          obtain ⟨hstep, hm'⟩ := hm.committed h honce hc rfl h' habsent
          exact ⟨_, S, .single hstep, by rw [observed, if_pos hc]; rfl, hm'⟩
  | cohort a id action =>
    obtain ⟨b, u, he, hu, _⟩ | ⟨hglobal, _⟩ :=
      noteCommit_cases (globalOrder xs) (.cohort a id action)
    · obtain ⟨S', hstep, hm'⟩ := hm.commit h honce he hu h' habsent
      exact ⟨_, S', .single hstep, rfl, hm'⟩
    · exact hquiet (fun _ => rfl) rfl ((globalOrder_snoc xs _).trans hglobal)
  | _ => exact hquiet (fun _ => rfl) rfl (globalOrder_snoc xs _)

end Step

/-- What the clients of the system see in any run is what they would see of a service with one
store that runs each transaction at one moment between its submission and its answers. The service
commits in the global order, and once all is settled its store is in the databases. -/
theorem refines_service (h : Run P xs s) (honce : ∀ id, SubmittedOnce P id xs)
    (habsent : ∀ a, (P.adapters a).absent = absent) :
    ∃ es S, Runs.Run (ServiceStep absent) (AtomicService.initial (joined P.stores)) es S ∧
      es.filterMap AtomicService.Event.visible = xs.filterMap (observed P) ∧
      S.log.map Prod.fst = globalOrder xs ∧
      (Settled P xs → S.store = joined fun a => (s.cohorts a).store) := by
  obtain ⟨es, S, hrun, hvisible, hm⟩ := Runs.Run.simulate
    (P := fun xs => ∀ id, SubmittedOnce P id xs) (R := fun xs _ S => Matches P absent xs S)
    (fun xs x honce id => (honce id).init) (Matches.initial P absent)
    (fun xs s x s' S h hs honce hm => hm.step h honce hs habsent) h honce
  refine ⟨es, S, hrun, hvisible, hm.order, fun hsettled => ?_⟩
  obtain ⟨responses, hserial, _⟩ := (oneCopy_of_settled h honce hsettled habsent).serial
  exact (Prod.mk.inj (Except.ok.inj (hm.serial.symm.trans hserial))).1

end Run

/-- A transaction is answered and another one has committed. -/
theorem refines_service_two_ids : ∃ s es S, Run twoIds (answeredActions ++ secondActions) s ∧
    Runs.Run (ServiceStep ⟨.notFound, "Key not found"⟩)
      (AtomicService.initial (joined twoIds.stores)) es S ∧
    es.filterMap AtomicService.Event.visible =
      (answeredActions ++ secondActions).filterMap (observed twoIds) ∧
    S.log.map Prod.fst = globalOrder (answeredActions ++ secondActions) ∧
    (Settled twoIds (answeredActions ++ secondActions) →
      S.store = joined fun a => (s.cohorts a).store) := by
  obtain ⟨s, h⟩ := twoIds_run
  obtain ⟨es, S, hservice⟩ := refines_service h twoIds_once fun _ => rfl
  exact ⟨s, es, S, h, hservice⟩

end TwoPhaseCommit.System
