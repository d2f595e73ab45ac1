import TwoPhaseCommit.CohortThreads

/-! What each step does to the locks, and who holds them: exactly the threads that have taken a
lock and not given it back, as long as no lock call reports a missed deadline. -/
namespace TwoPhaseCommit.Cohort
open Database Locks

def Action.movesLocks : Action → Bool
  | .start _ | .lock _ | .unlock | .finish => true
  | _ => false

def Final (r : GetTransactionResultResponse) : Prop :=
  (∃ response, r = some (.committedResponse response)) ∨
    ∃ reason, r = some (.abortedResponse reason)

/-- What a step does to the locks, and when it answers. -/
inductive LockEffect (c : Adapter) (s : State) (id : String) : Action → State → Prop
  | started (request : PrepareTransactionRequest) (orders : KeyOrders)
      (hid : request.transactionId = id) (hnew : s.threads id = none) :
      LockEffect c s id (.start request) (s.set id (newThread c orders request))
  | took {request : PrepareTransactionRequest} {m : Metadata} {r : LockRequest}
      {todo : List LockRequest} {mutexes : Table LockName String} (conditionHolds : Bool)
      (ht : s.threads id = some ⟨request, m, .locking (r :: todo)⟩)
      (ha : s.mutexes.acquire r id = some mutexes) :
      LockEffect c s id (.lock conditionHolds) ({ s with mutexes := mutexes }.set id
        (if conditionHolds then ⟨request, record m r, .locking todo⟩
          else ⟨request, m, .votingAbort (lockError r)⟩))
  | kept {a : Action} {s' : State} {t t' : Thread} (ha : a.movesLocks = false)
      (ht : s.threads id = some t) (hs : s'.threads = Function.update s.threads id (some t'))
      (hmutexes : s'.mutexes = s.mutexes) (hrequest : t'.request = t.request)
      (hheld : heldLocks t'.metadata = heldLocks t.metadata) (howed : owed t' = owed t)
      (hwanted : t.phase.wanted = []) (hlocks : t'.phase.locks = false)
      (hended : t'.phase.ended → Final t'.metadata.response) : LockEffect c s id a s'
  | gave {request : PrepareTransactionRequest} {m : Metadata} {r : LockRequest}
      {todo : List LockRequest} (ht : s.threads id = some ⟨request, m, .releasing (r :: todo)⟩) :
      LockEffect c s id .unlock ({ s with mutexes := s.mutexes.release r id }.set id
        ⟨request, m, .releasing todo⟩)
  | finished {request : PrepareTransactionRequest} {m : Metadata}
      (ht : s.threads id = some ⟨request, m, .releasing []⟩) :
      LockEffect c s id .finish ((s.setFinalResponse id m.response).set id ⟨request, m, .finished⟩)

theorem wanted_eq_nil {p : Phase} (h : p.locks = false) : p.wanted = [] := by
  cases p with
  | locking todo => cases h
  | _ => rfl

theorem LockEffect.advance {c : Adapter} {s : State} {id : String} {a : Action} {t t' : Thread}
    (ha : a.movesLocks = false) (ht : s.threads id = some t) (hrequest : t'.request = t.request)
    (hheld : heldLocks t'.metadata = heldLocks t.metadata) (howed : owed t' = owed t)
    (hwanted : t.phase.wanted = []) (hlocks : t'.phase.locks = false)
    (hended : t'.phase.ended = false) : LockEffect c s id a (s.set id t') := by
  refine .kept ha ht rfl rfl hrequest hheld howed hwanted hlocks fun he => ?_
  cases hended.symm.trans he

theorem Step.lockEffect {c : Adapter} {s s' : State} {id : String} {a : Action}
    (hs : Step c s (id, a) s') : LockEffect c s id a s' := by
  cases hs with
  | start request orders hid hnew => exact .started request orders hid hnew
  | lock conditionHolds ht ha => exact .took conditionHolds ht ha
  | begin ht => exact .advance rfl ht rfl rfl rfl rfl rfl rfl
  | beginFault ht hf => exact .advance rfl ht rfl rfl rfl rfl rfl rfl
  | @operate _ request m op todo fault ht hf =>
    obtain ⟨status, _, he⟩ | ⟨m', hop, he⟩ | ⟨key, value, hop, he⟩ :=
      operate_cases c s.store fault op todo m
    · rw [he]
      exact .advance rfl ht rfl rfl rfl rfl rfl rfl
    · rw [he]
      have hheld := heldLocks_of_processOperationInDb hop
      exact .advance rfl ht rfl hheld hheld rfl rfl rfl
    · rw [he]
      exact .advance rfl ht rfl rfl rfl rfl rfl rfl
  | @put _ request m key value todo fault ht hf =>
    obtain ⟨status, he⟩ | ⟨m', hop, he⟩ := finishPut_cases fault key value todo m
    · rw [he]
      exact .advance rfl ht rfl rfl rfl rfl rfl rfl
    · rw [he]
      have hheld := heldLocks_of_dbPut hop
      exact .advance rfl ht rfl hheld hheld rfl rfl rfl
  | @endOperations _ request m ht =>
    cases request.onlyCohort with
    | false => exact .advance rfl ht rfl rfl rfl rfl rfl rfl
    | true => exact .advance rfl ht rfl rfl rfl rfl rfl rfl
  | persistResponse written ht =>
    cases written with
    | false => exact .advance rfl ht rfl rfl rfl rfl rfl rfl
    | true => exact .advance rfl ht rfl rfl rfl rfl rfl rfl
  | persistRequest written ht =>
    cases written with
    | false => exact .advance rfl ht rfl rfl rfl rfl rfl rfl
    | true => exact .advance rfl ht rfl rfl rfl rfl rfl rfl
  | vote ht => exact .advance rfl ht rfl rfl rfl rfl rfl rfl
  | pollAgain ht hd =>
    exact .kept rfl ht (by rw [← ht, Function.update_eq_self]) rfl rfl rfl rfl rfl rfl fun he => by cases he
  | pollCommit ht => exact .advance rfl ht rfl rfl rfl rfl rfl rfl
  | pollAbort reason ht => exact .advance rfl ht rfl rfl rfl rfl rfl rfl
  | voteAbort ht => exact .advance rfl ht rfl rfl rfl rfl rfl rfl
  | commitFault ht hf =>
    exact .kept rfl ht (by rw [← ht, Function.update_eq_self]) rfl rfl rfl rfl rfl rfl fun he => by cases he
  | commit ht => exact .kept rfl ht rfl rfl rfl rfl rfl rfl rfl fun _ => .inl ⟨_, rfl⟩
  | abort ht => exact .kept rfl ht rfl rfl rfl rfl rfl rfl rfl fun _ => .inr ⟨_, rfl⟩
  | unlock ht => exact .gave ht
  | finish ht => exact .finished ht

/-- No lock call reports a missed deadline: the condition that they wait for is always true. -/
def Granted (xs : List (String × Action)) : Prop := ∀ id, (id, .lock false) ∉ xs

theorem Granted.ne {xs : List (String × Action)} (h : Granted xs) :
    ∀ x ∈ xs, x.2 ≠ .lock false := by
  rintro ⟨id, a⟩ hx rfl
  exact h id hx

/-- Each thread holds the locks that it has to give back, and one of which P is true no others. -/
structure HoldsOnly (P : Thread → Prop) (c : Adapter) (s : State) : Prop where
  locks : AllThreads (LockInv c s.mutexes) s
  single : s.mutexes.Single
  held : ∀ id r, Held s.mutexes id r → ∃ t, s.threads id = some t ∧ (P t → r ∈ owed t)

section HoldsOnly
variable {P : Thread → Prop} {c : Adapter} {s s' : State} {id : String} {x : String × Action}

theorem HoldsOnly.initial (P : Thread → Prop) (c : Adapter) (store : Store String) :
    HoldsOnly P c (initial store) where
  locks _ _ ht := by cases ht
  single := Table.single_free
  held id r h := by
    obtain ⟨name, mode⟩ := r
    cases mode <;> cases h

theorem HoldsOnly.owed_of_held (h : HoldsOnly P c s) {t : Thread} (ht : s.threads id = some t)
    (hP : P t) {r : LockRequest} (hr : Held s.mutexes id r) : r ∈ owed t := by
  obtain ⟨t', ht', hr'⟩ := h.held id r hr
  obtain rfl := Option.some.inj (ht.symm.trans ht')
  exact hr' hP

theorem HoldsOnly.not_held (h : HoldsOnly P c s) {request : PrepareTransactionRequest}
    {m : Metadata} {r : LockRequest} {todo : List LockRequest}
    (ht : s.threads id = some ⟨request, m, .locking (r :: todo)⟩)
    (hP : P ⟨request, m, .locking (r :: todo)⟩) (mode : Mode) :
    ¬Held s.mutexes id ⟨r.name, mode⟩ := fun hheld =>
  (h.locks id _ ht).fresh (List.mem_map.mpr ⟨_, h.owed_of_held ht hP hheld, rfl⟩)

theorem HoldsOnly.held_update (h : HoldsOnly P c s) {T : Table LockName String} {t' : Thread}
    (hself : P t' → ∀ r, Held T id r → r ∈ owed t')
    (hother : ∀ u r, u ≠ id → Held T u r → Held s.mutexes u r) (u : String) (r : LockRequest)
    (hu : Held T u r) :
    ∃ t, Function.update s.threads id (some t') u = some t ∧ (P t → r ∈ owed t) := by
  by_cases hid : u = id
  · subst hid
    exact ⟨t', Function.update_self .., fun hP => hself hP r hu⟩
  · obtain ⟨t, ht, hr⟩ := h.held u r (hother u r hid hu)
    exact ⟨t, by rwa [Function.update_of_ne hid], hr⟩

/-- P has to be true of a thread that takes its locks, and of a thread after a step only if it was
true before and no lock call has reported a missed deadline. -/
theorem HoldsOnly.step (h : HoldsOnly P c s) (hs : Step c s x s')
    (hlocking : ∀ t, t.phase.locks → P t)
    (hback : ∀ t t', s.threads x.1 = some t → s'.threads x.1 = some t' → P t' → P t)
    (hmissed : x.2 = .lock false → ∀ t', s'.threads x.1 = some t' → ¬P t') :
    HoldsOnly P c s' := by
  obtain ⟨id, a⟩ := x
  have hlocks := lockInv_step h.locks hs
  have heffect := hs.lockEffect
  clear hs
  cases heffect with
  | started request orders hid hnew =>
    refine ⟨hlocks, h.single, h.held_update ?_ fun _ _ _ hu => hu⟩
    intro _ r hr
    obtain ⟨t, ht, _⟩ := h.held id r hr
    rw [hnew] at ht
    cases ht
  | took conditionHolds ht ha =>
    refine ⟨hlocks, h.single.acquire (h.not_held ht (hlocking _ rfl) _) ha, h.held_update ?_ ?_⟩
    · cases conditionHolds with
      | false => exact fun hP => absurd hP (hmissed rfl _ (State.threads_set ..))
      | true =>
        have hperm := heldLocks_record (h.locks id _ ht).fresh
        intro _ q hq
        refine hperm.mem_iff.mpr ?_
        obtain hold | ⟨_, rfl⟩ := hq.of_acquire ha
        · exact List.mem_cons_of_mem _ (h.owed_of_held ht (hlocking _ rfl) hold)
        · exact List.mem_cons_self
    · intro u q hne hq
      obtain hold | ⟨rfl, _⟩ := hq.of_acquire ha
      · exact hold
      · exact absurd rfl hne
  | @kept _ _ t t' ha ht hthreads hmutexes hrequest hheld howed hwanted hno hended =>
    refine ⟨hlocks, hmutexes ▸ h.single, ?_⟩
    rw [hthreads, hmutexes]
    refine h.held_update (fun hP r hr => howed ▸ h.owed_of_held ht ?_ hr) fun _ _ _ hu => hu
    exact hback t t' ht (by rw [hthreads, Function.update_self]) hP
  | @gave request m r todo ht =>
    have hr : Held s.mutexes id r := (h.locks id _ ht).owned.held r List.mem_cons_self
    refine ⟨hlocks, h.single.release r id, h.held_update ?_ ?_⟩
    · intro hP q hq
      obtain ⟨hold, hne⟩ := hq.of_release h.single hr
      have hbefore := hback _ _ ht (State.threads_set ..) hP
      obtain rfl | hmem := List.mem_cons.mp (h.owed_of_held ht hbefore hold)
      · exact absurd rfl (hne rfl)
      · exact hmem
    · intro u q _ hq
      exact (hq.of_release h.single hr).1
  | finished ht =>
    refine ⟨hlocks, h.single, h.held_update ?_ fun _ _ _ hu => hu⟩
    intro hP r hr
    exact h.owed_of_held ht (hback _ _ ht (State.threads_set ..) hP) hr

def Sound (t : Thread) : Prop := t.phase.locks ∨ t.phase.covered

theorem Sound.of_step {a : Action} {t t' : Thread} (hs : Step c s (id, a) s')
    (ht : s.threads id = some t) (ht' : s'.threads id = some t') (h : Sound t') : Sound t := by
  have hafter {k : State} {u : Thread} (hk : (k.set id u).threads id = some t') : t' = u :=
    Option.some.inj (hk.symm.trans (State.threads_set ..))
  have hthread {request : PrepareTransactionRequest} {m : Metadata} {p : Phase}
      (hold : s.threads id = some ⟨request, m, p⟩) (hp : p.locks ∨ p.covered) : Sound t := by
    obtain rfl := Option.some.inj (ht.symm.trans hold)
    exact hp
  have hfailed {request : PrepareTransactionRequest} {m : Metadata} {p : Phase} {k : State}
      (hk : (k.set id ⟨request, m, p⟩).threads id = some t') (hp : p.locks = false)
      (hc : p.covered = false) : Sound t := by
    obtain rfl := hafter hk
    simp [Sound, hp, hc] at h
  cases hs with
  | start request orders hid hnew => simp [hnew] at ht
  | lock conditionHolds hold ha => exact hthread hold (.inl rfl)
  | begin hold => exact hthread hold (.inl rfl)
  | beginFault hold hf => exact hthread hold (.inl rfl)
  | operate hold hf => exact hthread hold (.inr rfl)
  | put hold hf => exact hthread hold (.inr rfl)
  | endOperations hold => exact hthread hold (.inr rfl)
  | persistResponse written hold => exact hthread hold (.inr rfl)
  | persistRequest written hold => exact hthread hold (.inr rfl)
  | vote hold => exact hthread hold (.inr rfl)
  | pollAgain hold hd => exact hthread hold (.inr rfl)
  | pollCommit hold => exact hthread hold (.inr rfl)
  | pollAbort reason hold => exact hthread hold (.inr rfl)
  | commitFault hold hf => exact hthread hold (.inr rfl)
  | commit hold => exact hthread hold (.inr rfl)
  | voteAbort hold => exact hfailed ht' rfl rfl
  | abort hold => exact hfailed ht' rfl rfl
  | unlock hold => exact hfailed ht' rfl rfl
  | finish hold => exact hfailed ht' rfl rfl

theorem holdsOnly_run {store : Store String} {xs : List (String × Action)}
    (h : Run c store xs s) : HoldsOnly Sound c s := by
  refine Runs.Run.invariant (I := fun _ s => HoldsOnly Sound c s) (.initial Sound c store) ?_ h
  intro xs s ⟨id, a⟩ s' _ hi hs
  refine hi.step hs (fun t ht => .inl ht) (fun t t' ht ht' => Sound.of_step hs ht ht') ?_
  rintro rfl t' ht'
  cases hs with
  | lock conditionHolds ht ha =>
    obtain rfl := Option.some.inj (ht'.symm.trans (State.threads_set ..))
    rintro (h | h) <;> cases h

end HoldsOnly

/-- The locks that the threads have to give back are those that the mutexes are held for. -/
structure Holdings (c : Adapter) (s : State) : Prop where
  locks : AllThreads (LockInv c s.mutexes) s
  single : s.mutexes.Single
  held : ∀ id r, Held s.mutexes id r → ∃ t, s.threads id = some t ∧ r ∈ owed t

section Holdings
variable {c : Adapter} {s s' : State} {id : String} {x : String × Action}

theorem holdings_iff : Holdings c s ↔ HoldsOnly (fun _ => True) c s := by
  constructor
  · intro h
    refine ⟨h.locks, h.single, fun id r hr => ?_⟩
    obtain ⟨t, ht, hmem⟩ := h.held id r hr
    exact ⟨t, ht, fun _ => hmem⟩
  · intro h
    refine ⟨h.locks, h.single, fun id r hr => ?_⟩
    obtain ⟨t, ht, hmem⟩ := h.held id r hr
    exact ⟨t, ht, hmem trivial⟩

theorem Holdings.initial (c : Adapter) (store : Store String) : Holdings c (initial store) :=
  holdings_iff.mpr (.initial _ c store)

theorem Holdings.owed_of_held (h : Holdings c s) {t : Thread} (ht : s.threads id = some t)
    {r : LockRequest} (hr : Held s.mutexes id r) : r ∈ owed t :=
  (holdings_iff.mp h).owed_of_held ht trivial hr

theorem Holdings.step (h : Holdings c s) (hs : Step c s x s') (hx : x.2 ≠ .lock false) :
    Holdings c s' :=
  holdings_iff.mpr ((holdings_iff.mp h).step hs (fun _ _ => trivial) (fun _ _ _ _ _ => trivial)
    fun he => absurd he hx)

theorem holdings_run {store : Store String} {xs : List (String × Action)}
    (h : Run c store xs s) (hgranted : Granted xs) : Holdings c s :=
  Runs.Run.invariant_of_forall (I := fun s => Holdings c s)
    (P := fun x => x.2 ≠ .lock false) (.initial c store)
    (fun _ _ _ hi hs hx => hi.step hs hx) h hgranted.ne

end Holdings

end TwoPhaseCommit.Cohort
