import TwoPhaseCommit.CohortThreads

/-! The committed transactions of a cohort are serializable in the order of their commits. -/
namespace TwoPhaseCommit.Cohort
open Database Grouping Locks

/-- What a thread with an open database transaction has done so far, as if it ran alone on the
committed store. -/
def ViewInv (c : Adapter) (store : Store String) (t : Thread) : Prop :=
  match t.phase with
  | .locking _ => t.metadata.response = some .pendingResponse
  | .running todo => ∃ done, t.request.transaction.ops = done ++ todo ∧
      View c.access store done t.metadata
  | .putting key value todo => ∃ done op, t.request.transaction.ops = done ++ op :: todo ∧
      View c.access store done t.metadata ∧
      processOperationInDb c.access store op t.metadata = dbPut t.metadata key value
  | .persistingResponse | .persistingRequest | .voting | .waiting | .committing
  | .aborting none _ => View c.access store t.request.transaction.ops t.metadata
  | _ => True

theorem ViewInv.of_not_covered {c : Adapter} {store store' : Store String} {t : Thread}
    (h : ViewInv c store t) (hc : ¬t.phase.covered) : ViewInv c store' t := by
  obtain ⟨request, m, phase⟩ := t
  cases phase with
  | locking todo => exact h
  | aborting abortStatus reason =>
    cases abortStatus with
    | none => exact absurd rfl hc
    | some status => trivial
  | votingAbort status => trivial
  | releasing todo => trivial
  | finished => trivial
  | _ => exact absurd rfl hc

theorem ViewInv.congr {c : Adapter} {store store' : Store String} {t : Thread}
    (h : ViewInv c store t) (hkeys : ∀ op ∈ t.request.transaction.ops,
      ∀ k ∈ operationKeys c.access op, store k = store' k) : ViewInv c store' t := by
  by_cases hc : t.phase.covered
  · obtain ⟨request, m, phase⟩ := t
    cases phase with
    | running todo =>
      obtain ⟨done, hops, hv⟩ := h
      have hsub : ∀ op ∈ done, op ∈ request.transaction.ops := fun op hop =>
        hops ▸ List.mem_append_left todo hop
      exact ⟨done, hops, hv.congr fun op hop => hkeys op (hsub op hop)⟩
    | putting key value todo =>
      obtain ⟨done, op, hops, hv, hop⟩ := h
      have hsub : ∀ op' ∈ done, op' ∈ request.transaction.ops := fun op' hop' =>
        hops ▸ List.mem_append_left (op :: todo) hop'
      have hmem : op ∈ request.transaction.ops :=
        hops ▸ List.mem_append_right done List.mem_cons_self
      refine ⟨done, op, hops, hv.congr fun op' hop' => hkeys op' (hsub op' hop'), ?_⟩
      rw [← processOperationInDb_congr c.access op m (hkeys op hmem)]
      exact hop
    | aborting abortStatus reason =>
      cases abortStatus with
      | none => exact View.congr h hkeys
      | some status => trivial
    | persistingResponse => exact View.congr h hkeys
    | persistingRequest => exact View.congr h hkeys
    | voting => exact View.congr h hkeys
    | waiting => exact View.congr h hkeys
    | committing => exact View.congr h hkeys
    | _ => cases hc
  · exact h.of_not_covered hc

theorem response_record (m : Metadata) (r : LockRequest) : (record m r).response = m.response := by
  obtain ⟨name, mode⟩ := r
  cases name <;> cases mode <;> rfl

theorem commitStore_other {c : Adapter} {s : State} (hl : AllThreads (LockInv c s.mutexes) s)
    {id u : String} {request : PrepareTransactionRequest} {m : Metadata} {t : Thread}
    (ht : s.threads id = some ⟨request, m, .committing⟩)
    (hv : View c.access s.store request.transaction.ops m) (hu : s.threads u = some t)
    (hne : u ≠ id) (hc : t.phase.covered) :
    ∀ op ∈ t.request.transaction.ops, ∀ k ∈ operationKeys c.access op,
      s.store k = commitStore s.store m k := by
  intro op hop k hk
  have hcov := (hl id _ ht).covers rfl
  refine (hv.commitStore_eq fun op' hop' hput => ?_).symm
  exact hcov.disjoint ((hl u t hu).covers hc) hne hop' hop hput hk

/-- Each thread's view stays what it would be alone. -/
theorem viewInv_step {c : Adapter} {s s' : State} {x : String × Action}
    (hl : AllThreads (LockInv c s.mutexes) s) (h : AllThreads (fun _ => ViewInv c s.store) s)
    (hs : Step c s x s') : AllThreads (fun _ => ViewInv c s'.store) s' := by
  have hset (T : Table LockName String) {id : String} {t : Thread} (ht : ViewInv c s.store t) :
      AllThreads (fun _ => ViewInv c s.store) ({ s with mutexes := T }.set id t) :=
    allThreads_set h (fun _ _ _ hu => hu) ht
  cases hs with
  | start request orders hid hnew => exact hset _ rfl
  | lock conditionHolds ht ha =>
    cases conditionHolds with
    | false => exact hset _ trivial
    | true => exact hset _ ((response_record _ _).trans (h _ _ ht))
  | @begin id request m ht =>
    refine hset _ ⟨[], rfl, begun false, rfl, ?_, false, _, _, rfl, rfl⟩
    exact (h _ _ ht).symm
  | beginFault ht hf => exact hset _ trivial
  | @operate id request m op todo fault ht hf =>
    obtain ⟨done, hops, hv⟩ := h _ _ ht
    obtain ⟨status, _, he⟩ | ⟨m', hop, he⟩ | ⟨key, value, hop, he⟩ :=
      operate_cases c s.store fault op todo m
    · rw [he]
      exact hset _ trivial
    · rw [he]
      exact hset _ ⟨done ++ [op], by rw [hops]; simp, hv.snoc hop⟩
    · rw [he]
      exact hset _ ⟨done, op, hops, hv, hop⟩
  | @put id request m key value todo fault ht hf =>
    obtain ⟨done, op, hops, hv, hop⟩ := h _ _ ht
    obtain ⟨status, he⟩ | ⟨m', hput, he⟩ := finishPut_cases fault key value todo m
    · rw [he]
      exact hset _ trivial
    · rw [he]
      exact hset _ ⟨done ++ [op], by rw [hops]; simp, hv.snoc (hop.trans hput)⟩
  | @endOperations id request m ht =>
    obtain ⟨done, hops, hv⟩ := h _ _ ht
    have hview : View c.access s.store request.transaction.ops m := by
      rw [List.append_nil] at hops
      rw [hops]
      exact hv
    cases request.onlyCohort with
    | false => exact hset _ hview
    | true => exact hset _ hview
  | persistResponse written ht =>
    have hview := h _ _ ht
    cases written with
    | false => exact hset _ trivial
    | true => exact hset _ hview
  | persistRequest written ht =>
    have hview := h _ _ ht
    cases written with
    | false => exact hset _ trivial
    | true => exact hset _ hview
  | vote ht =>
    have hview := h _ _ ht
    exact hset _ hview
  | pollAgain ht hd => exact h
  | pollCommit ht =>
    have hview := h _ _ ht
    exact hset _ hview
  | pollAbort reason ht =>
    have hview := h _ _ ht
    exact hset _ hview
  | voteAbort ht => exact hset _ trivial
  | commitFault ht hf => exact h
  | @commit id request m ht =>
    intro u t hu
    by_cases hid : u = id
    · subst hid
      simp only [State.set, Function.update_self, Option.some.injEq] at hu
      subst hu
      trivial
    · simp only [State.set, Function.update_of_ne hid] at hu
      by_cases hc : t.phase.covered
      · exact (h u t hu).congr (commitStore_other hl ht (h _ _ ht) hu hid hc)
      · exact (h u t hu).of_not_covered hc
  | abort ht => exact hset _ trivial
  | unlock ht => exact hset _ trivial
  | finish ht => exact allThreads_set h (fun _ _ _ hu => hu) trivial

structure Isolated (c : Adapter) (s : State) : Prop where
  locks : AllThreads (LockInv c s.mutexes) s
  views : AllThreads (fun _ => ViewInv c s.store) s

theorem isolated_run {c : Adapter} {store : Store String} {xs : List (String × Action)} {s : State}
    (h : Run c store xs s) : Isolated c s where
  locks := lockInv_run h
  views := Runs.Run.invariant (I := fun _ s => AllThreads (fun _ => ViewInv c s.store) s)
    (fun _ _ ht => by cases ht) (fun _ _ _ _ hrun hi hs => viewInv_step (lockInv_run hrun) hi hs) h

def requestOf (xs : List (String × Action)) (id : String) : Option PrepareTransactionRequest :=
  (actionsOf id xs).findSome? Action.request

/-- The ids of the transactions committed in the database, in the order of their commits. -/
def commitOrder (xs : List (String × Action)) : List String :=
  xs.filterMap fun x => if x.2.ending = some .committed then some x.1 else none

def committed (xs : List (String × Action)) : List PrepareTransactionRequest :=
  (commitOrder xs).filterMap (requestOf xs)

theorem mem_commitOrder {id : String} {xs : List (String × Action)} :
    id ∈ commitOrder xs ↔ .committed ∈ endings (actionsOf id xs) := by
  simp only [commitOrder, endings, List.mem_filterMap, Option.ite_none_right_eq_some,
    Option.some.injEq, mem_actionsOf]
  constructor
  · rintro ⟨⟨u, a⟩, hx, he, rfl⟩
    exact ⟨a, hx, he⟩
  · rintro ⟨a, hx, he⟩
    exact ⟨(id, a), hx, he, rfl⟩

/-- The thread of a transaction has committed with the values rs read. -/
def Answered (s : State) (id : String) (rs : List GetResponse) : Prop :=
  ∃ t, s.threads id = some t ∧ t.phase.ended ∧ t.metadata.response = some (.committedResponse ⟨rs⟩)

theorem Answered.step {c : Adapter} {s s' : State} {x : String × Action} {id : String}
    {rs : List GetResponse} (h : Answered s id rs) (hs : Step c s x s') : Answered s' id rs := by
  obtain ⟨t, ht, hended, hresponse⟩ := h
  by_cases hx : id = x.1
  · subst hx
    cases hs with
    | unlock ht' =>
      obtain rfl := Option.some.inj (ht.symm.trans ht')
      exact ⟨_, State.threads_set .., rfl, hresponse⟩
    | finish ht' =>
      obtain rfl := Option.some.inj (ht.symm.trans ht')
      exact ⟨_, State.threads_set .., rfl, hresponse⟩
    | start request orders hid hnew => cases ht.symm.trans hnew
    | lock conditionHolds ht' =>
      obtain rfl := Option.some.inj (ht.symm.trans ht')
      cases hended
    | pollAbort reason ht' =>
      obtain rfl := Option.some.inj (ht.symm.trans ht')
      cases hended
    | persistResponse written ht' =>
      obtain rfl := Option.some.inj (ht.symm.trans ht')
      cases hended
    | persistRequest written ht' =>
      obtain rfl := Option.some.inj (ht.symm.trans ht')
      cases hended
    | _ ht' =>
      obtain rfl := Option.some.inj (ht.symm.trans ht')
      cases hended
  · have hframe : s'.threads id = s.threads id := congrArg Prod.fst (hs.frame hx)
    exact ⟨t, hframe.trans ht, hended, hresponse⟩

theorem step_store {c : Adapter} {s s' : State} {x : String × Action} (hs : Step c s x s')
    (hx : x.2.ending ≠ some .committed) : s'.store = s.store := by
  cases hs with
  | commit ht => exact absurd rfl hx
  | _ => rfl

theorem commitOrder_snoc (xs : List (String × Action)) (x : String × Action) :
    commitOrder (xs ++ [x]) =
      commitOrder xs ++ if x.2.ending = some .committed then [x.1] else [] := by
  rw [commitOrder, commitOrder, List.filterMap_append]
  split_ifs with h <;> simp [h]

section Run
variable {c : Adapter} {store : Store String} {xs : List (String × Action)} {s : State}

theorem thread_of_action (h : Run c store xs s) {id : String} (hid : actionsOf id xs ≠ []) :
    ∃ t, s.threads id = some t := by
  rw [← Option.isSome_iff_exists, Option.isSome_iff_ne_none]
  intro ht
  have hlocal : actionsOf id xs = [] ∧ s.finalResponses id = none := by
    simpa only [LocalStory, State.local, ht] using localStory_run h id
  exact hid hlocal.1

theorem thread_of_committed (h : Run c store xs s) {id : String} (hid : id ∈ commitOrder xs) :
    ∃ t, s.threads id = some t ∧ requestOf xs id = some t.request ∧ t.phase.ended := by
  rw [mem_commitOrder] at hid
  have hne : actionsOf id xs ≠ [] := by
    intro hnil
    rw [hnil] at hid
    cases hid
  obtain ⟨t, ht⟩ := thread_of_action h hne
  obtain ⟨hstory, _, _⟩ := story_run h ht
  refine ⟨t, ht, hstory.started, ?_⟩
  by_contra hended
  rw [hstory.endings_eq_nil (by simpa using hended)] at hid
  cases hid

theorem committed_snoc (h : Run c store xs s) (x : String × Action) :
    committed (xs ++ [x]) = committed xs ++
      if x.2.ending = some .committed then (requestOf (xs ++ [x]) x.1).toList else [] := by
  have hold : (commitOrder xs).filterMap (requestOf (xs ++ [x])) = committed xs := by
    refine List.filterMap_congr fun id hid => ?_
    obtain ⟨t, _, hreq, _⟩ := thread_of_committed h hid
    rw [requestOf, actionsOf_append, List.findSome?_append]
    change (requestOf xs id).or _ = _
    rw [hreq]
    rfl
  rw [committed, commitOrder_snoc, List.filterMap_append, hold]
  split_ifs
  · cases hr : requestOf (xs ++ [x]) x.1 <;> simp [hr]
  · rfl

/-- The store and the values read are those of the committed transactions run one by one. -/
structure Serial (c : Adapter) (store : Store String) (xs : List (String × Action))
    (s : State) : Prop where
  once : (commitOrder xs).Nodup
  order : (committed xs).map PrepareTransactionRequest.transactionId = commitOrder xs
  result : ∃ responses,
    serialRun c.access store ((committed xs).map fun r => r.transaction.ops) =
      .ok (s.store, responses) ∧
    List.Forall₂ (fun r rs => Answered s r.transactionId rs) (committed xs) responses

theorem Serial.step {x : String × Action} {s' : State} (hrun : Run c store xs s)
    (h : Serial c store xs s) (hs : Step c s x s') : Serial c store (xs ++ [x]) s' := by
  obtain ⟨honce, horder, responses, hserial, hanswers⟩ := h
  have hkept : List.Forall₂ (fun r rs => Answered s' r.transactionId rs) (committed xs)
      responses := hanswers.imp fun r rs ha => ha.step hs
  by_cases hx : x.2.ending = some .committed
  · cases hs with
    | @commit id request m ht =>
      obtain ⟨hstory, hid, _⟩ := story_run hrun ht
      have hview : View c.access s.store request.transaction.ops m :=
        (isolated_run hrun).views id _ ht
      have hreq : requestOf (xs ++ [(id, .commit none)]) id = some request := by
        rw [requestOf, actionsOf_append, List.findSome?_append, hstory.started]
        rfl
      have hnew : id ∉ commitOrder xs := by
        rw [mem_commitOrder, hstory.endings_eq_nil rfl]
        exact List.not_mem_nil
      have hcommitted : committed (xs ++ [(id, .commit none)]) = committed xs ++ [request] := by
        rw [committed_snoc hrun, if_pos hx, hreq]
        rfl
      have horder' : commitOrder (xs ++ [(id, .commit none)]) = commitOrder xs ++ [id] := by
        rw [commitOrder_snoc, if_pos hx]
      refine ⟨?_, ?_, responses ++ [m.response.committed.getResponses], ?_, ?_⟩
      · rw [horder']
        exact honce.append (List.nodup_singleton id) (by simpa using hnew)
      · rw [hcommitted, horder', List.map_append, horder]
        exact congrArg (commitOrder xs ++ [·]) hid
      · rw [hcommitted, List.map_append]
        exact serialRun_append hserial hview.execute
      · rw [hcommitted]
        refine List.rel_append hkept (.cons ?_ .nil)
        rw [hid]
        exact ⟨_, State.threads_set .., rfl, rfl⟩
    | _ => cases hx
  · have hcommitted : committed (xs ++ [x]) = committed xs := by
      rw [committed_snoc hrun, if_neg hx, List.append_nil]
    have horder' : commitOrder (xs ++ [x]) = commitOrder xs := by
      rw [commitOrder_snoc, if_neg hx, List.append_nil]
    refine ⟨?_, ?_, responses, ?_, ?_⟩
    · rwa [horder']
    · rw [hcommitted, horder', horder]
    · rw [hcommitted, step_store hs hx, hserial]
    · rwa [hcommitted]

theorem serial_run (h : Run c store xs s) : Serial c store xs s :=
  Runs.Run.invariant (I := fun xs s => Serial c store xs s)
    ⟨List.nodup_nil, rfl, [], rfl, .nil⟩ (fun _ _ _ _ hrun hi hs => hi.step hrun hs) h

theorem ended_of_result (h : Run c store xs s) {id : String} {r : GetTransactionResultResponse}
    (hr : getTransactionResult s id = r) (hne : r ≠ some .pendingResponse) :
    ∃ t, s.threads id = some t ∧ t.phase.ended ∧ t.metadata.response = r ∧
      Ended (actionsOf id xs) t.request r := by
  unfold getTransactionResult at hr
  cases hf : s.finalResponses id with
  | none =>
    rw [hf] at hr
    exact absurd hr.symm hne
  | some r' =>
    obtain rfl : r' = r := by rwa [hf] at hr
    obtain ⟨t, ht, hended, hresponse⟩ := (localStory_run h id).final hf
    exact ⟨t, ht, hended, hresponse, hresponse ▸ (story_run h ht).1.ended hended⟩

theorem committed_of_result (h : Run c store xs s) {id : String} {r : CommittedResponse}
    (hr : getTransactionResult s id = some (.committedResponse r)) :
    id ∈ commitOrder xs ∧ Answered s id r.getResponses := by
  obtain ⟨t, ht, hended, hresponse, ⟨he, _⟩ | ⟨_, _, reason, hreason⟩⟩ :=
    ended_of_result h hr (by simp)
  · exact ⟨mem_commitOrder.mpr (by simp [he]), t, ht, hended, hresponse⟩
  · cases hreason

theorem aborted_of_result (h : Run c store xs s) {id : String} {reason : AbortReason}
    (hr : getTransactionResult s id = some (.abortedResponse reason)) : (id, .abort) ∈ xs := by
  obtain ⟨t, ht, hended, hresponse, ⟨_, _, r, hcommitted⟩ | ⟨he, _⟩⟩ :=
    ended_of_result h hr (by simp)
  · cases hcommitted
  · rw [← mem_actionsOf, ← mem_endings_aborted, he]
    exact List.mem_singleton_self _

theorem Answered.run {s' : State} {ys : List (String × Action)} {id : String}
    {rs : List GetResponse} (ha : Answered s id rs) (h : Runs.Run (Step c) s ys s') :
    Answered s' id rs :=
  Runs.Run.invariant (I := fun _ s => Answered s id rs) ha (fun _ _ _ _ _ hi hs => hi.step hs) h

theorem Answered.unique {id : String} {rs rs' : List GetResponse} (h : Answered s id rs)
    (h' : Answered s id rs') : rs = rs' := by
  obtain ⟨t, ht, _, hr⟩ := h
  obtain ⟨t', ht', _, hr'⟩ := h'
  obtain rfl := Option.some.inj (ht.symm.trans ht')
  cases hr.symm.trans hr'
  rfl

/-- Exactly the transactions that committed show, as if each had run alone in the order of the
commits; the others leave no effect and no values. -/
structure Serializable (c : Adapter) (store : Store String) (xs : List (String × Action))
    (s : State) : Prop extends Serial c store xs s where
  aborted : ∀ id, (id, .abort) ∈ xs → id ∉ commitOrder xs
  final : ∀ id r, getTransactionResult s id = some (.committedResponse r) →
    id ∈ commitOrder xs ∧ Answered s id r.getResponses

/-- Strict two-phase locking makes every interleaving of the transactions of one cohort
serializable, with one lock for the whole database as well as with one for each key. -/
theorem cohort_serializable (h : Run c store xs s) : Serializable c store xs s where
  toSerial := serial_run h
  aborted id hid hc := by
    obtain ⟨t, ht, _, hended⟩ := thread_of_committed h hc
    rw [mem_commitOrder] at hc
    have ha : .aborted ∈ endings (actionsOf id xs) :=
      List.mem_filterMap.mpr ⟨.abort, mem_actionsOf.mpr hid, rfl⟩
    obtain ⟨he, _⟩ | ⟨he, _⟩ := (story_run h ht).1.ended hended
    · rw [he] at ha
      simp at ha
    · rw [he] at hc
      simp at hc
  final id r hr := committed_of_result h hr

end Run

def localAdapter : Adapter := ⟨false, ⟨.notFound, "Key not found"⟩⟩

def keyOrders : KeyOrders := ⟨.insertion _, .insertion _⟩

def putRequest (id : String) : PrepareTransactionRequest where
  transactionId := id
  transaction := ⟨[⟨⟨"", "cohort:50052"⟩, some (.put ⟨"k", some (.constantValue ⟨some 5⟩)⟩)⟩]⟩
  config := ⟨none⟩
  participantInfo := some (.onlyCohort true)

/-- A put that commits while a second transaction waits for its lock. -/
theorem cohort_serializable_put : ∃ s, s.store "k" = some 5 ∧
    Serializable localAdapter (fun _ => none) [("a", .start (putRequest "a")), ("a", .lock true),
      ("b", .start (putRequest "b")), ("a", .begin none), ("a", .operate none),
      ("a", .endOperations), ("a", .commit none)] s := by
  refine ⟨_, ?_, cohort_serializable (.cons (.start (putRequest "a") keyOrders rfl rfl)
    (.cons (.lock true rfl rfl) (.cons (.start (putRequest "b") keyOrders rfl rfl)
    (.cons (.begin rfl) (.cons (.operate rfl (by simp)) (.cons (.endOperations rfl)
    (.cons (.commit rfl) .nil)))))))⟩
  rfl

end TwoPhaseCommit.Cohort
