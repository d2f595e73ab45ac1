import TwoPhaseCommit.Clock
import TwoPhaseCommit.CohortHoldings
import TwoPhaseCommit.CohortSerial

/-! The cohort with a clock, and when its locks are obtained. The lock calls wait for a condition
that is always true, so their deadline never ends a wait. -/
namespace TwoPhaseCommit.Cohort
open Database Locks

def presumedAbortTime (request : PrepareTransactionRequest) : ℤ :=
  Clock.ofTimestamp request.config.presumedAbortTime

/-- `ReaderLockWhenWithDeadline` and `WriterLockWhenWithDeadline` of a mutex: they return once
the condition holds or the deadline has passed, and the mutex can be acquired. They acquire it
and return whether the condition holds. none is a caller that has to wait. -/
def lockWhenWithDeadline (condition : Bool) (deadline now : ℤ) (mutexes : Table LockName String)
    (r : LockRequest) (id : String) : Option (Table LockName String × Bool) :=
  if condition ∨ deadline ≤ now then (mutexes.acquire r id).map (·, condition) else none

/-- `absl::Condition::kTrue` -/
def kTrue : Bool := true

/-- A cohort, the time, and when each thread obtained the locks that it has noted. -/
structure Timed where
  state : State
  now : ℤ
  obtained : String → List (LockRequest × ℤ)

def Timed.initial (store : Store String) (now : ℤ) : Timed :=
  ⟨Cohort.initial store, now, fun _ => []⟩

inductive TimedAction where
  | setClock (now : ℤ)
  | act (id : String) (action : Action)

/-- The clock can be set to any time; the threads take the steps of `Step`, a lock call only when
it returns. -/
inductive TimedStep (c : Adapter) : Timed → TimedAction → Timed → Prop
  | setClock (T : Timed) (now : ℤ) : TimedStep c T (.setClock now) { T with now := now }
  | start {T : Timed} {id : String} {request : PrepareTransactionRequest} {s' : State}
      (hs : Step c T.state (id, .start request) s') :
      TimedStep c T (.act id (.start request)) ⟨s', T.now, Function.update T.obtained id []⟩
  | lock {T : Timed} {id : String} {request : PrepareTransactionRequest} {m : Metadata}
      {r : LockRequest} {todo : List LockRequest} {mutexes : Table LockName String}
      {conditionHolds : Bool} (ht : T.state.threads id = some ⟨request, m, .locking (r :: todo)⟩)
      (hcall : lockWhenWithDeadline kTrue (presumedAbortTime request) T.now T.state.mutexes r id =
        some (mutexes, conditionHolds)) :
      TimedStep c T (.act id (.lock conditionHolds)) ⟨{ T.state with mutexes := mutexes }.set id
        (if conditionHolds then ⟨request, record m r, .locking todo⟩
          else ⟨request, m, .votingAbort (lockError r)⟩), T.now,
        if conditionHolds then Function.update T.obtained id (T.obtained id ++ [(r, T.now)])
          else T.obtained⟩
  | other {T : Timed} {id : String} {a : Action} {s' : State} (hs : Step c T.state (id, a) s')
      (hlock : ∀ b, a ≠ .lock b) (hstart : ∀ request, a ≠ .start request) :
      TimedStep c T (.act id a) ⟨s', T.now, T.obtained⟩

theorem lockWhenWithDeadline_kTrue {deadline now : ℤ} {T T' : Table LockName String}
    {r : LockRequest} {id : String} {b : Bool}
    (h : lockWhenWithDeadline kTrue deadline now T r id = some (T', b)) :
    T.acquire r id = some T' ∧ b = true := by
  rw [lockWhenWithDeadline, if_pos (.inl rfl)] at h
  obtain ⟨T₁, hT, he⟩ := Option.map_eq_some_iff.mp h
  obtain ⟨rfl, rfl⟩ := Prod.mk.inj he
  exact ⟨hT, rfl⟩

theorem TimedStep.step {c : Adapter} {T T' : Timed} {id : String} {a : Action}
    (h : TimedStep c T (.act id a) T') : Step c T.state (id, a) T'.state := by
  cases h with
  | start hs => exact hs
  | lock ht hcall => exact .lock _ ht (lockWhenWithDeadline_kTrue hcall).1
  | other hs hlock hstart => exact hs

theorem Step.of_locking {c : Adapter} {s s' : State} {id : String} {a : Action} {t : Thread}
    (hs : Step c s (id, a) s') (ht : s.threads id = some t) (hlocks : t.phase.locks) :
    (∃ b, a = .lock b) ∨ ∃ fault, a = .begin fault := by
  have hphase {request : PrepareTransactionRequest} {m : Metadata} {p : Phase}
      (hold : s.threads id = some ⟨request, m, p⟩) : p.locks := by
    obtain rfl := Option.some.inj (ht.symm.trans hold)
    exact hlocks
  cases hs with
  | start request orders hid hnew => cases hnew.symm.trans ht
  | lock b hold ha => exact .inl ⟨b, rfl⟩
  | begin hold => exact .inr ⟨_, rfl⟩
  | beginFault hold hf => exact .inr ⟨_, rfl⟩
  | operate hold hf => cases hphase hold
  | put hold hf => cases hphase hold
  | endOperations hold => cases hphase hold
  | persistResponse written hold => cases hphase hold
  | persistRequest written hold => cases hphase hold
  | vote hold => cases hphase hold
  | pollAgain hold hd => cases hphase hold
  | pollCommit hold => cases hphase hold
  | pollAbort reason hold => cases hphase hold
  | voteAbort hold => cases hphase hold
  | commitFault hold hf => cases hphase hold
  | commit hold => cases hphase hold
  | abort hold => cases hphase hold
  | unlock hold => cases hphase hold
  | finish hold => cases hphase hold

/-- The lock call of a thread is still waiting after the presumed abort time. -/
def Late (T : Timed) (id : String) : Prop :=
  ∃ t r todo, T.state.threads id = some t ∧ t.phase = .locking (r :: todo) ∧
    presumedAbortTime t.request < T.now

/-- Calls that work on the database: an Abort undoes work. -/
def Action.operates : Action → Bool
  | .begin _ | .operate _ | .put _ | .commit _ => true
  | _ => false

/-- How a thread that is late should end: its lock call reports the deadline, it does nothing in
the database, and it ends aborted for that reason and holds no lock. -/
structure GivesUp (id : String) (xs : List TimedAction) (s : State) : Prop where
  reported : .act id (.lock false) ∈ xs
  noOperation : ∀ a, .act id a ∈ xs → a.operates = false
  aborted : s.finalResponses id = some (some (.abortedResponse .presumedAbortTimestampReached))
  released : ∀ r, ¬Held s.mutexes id r

/-- What a thread that was late has done: it has not reported the deadline, and if it is over it
has begun to work on the database. -/
structure GoesOn (id : String) (ys : List TimedAction) (s : State) : Prop where
  unreported : .act id (.lock false) ∉ ys
  begun : IsFinished s id → ∃ fault, .act id (.begin fault) ∈ ys

/-- The presumed abort time bounds the waits for locks: who has got through its lock calls was
given no lock later, and who waits longer can come to its end, which is to give up. -/
structure WaitBounded (c : Adapter) (T : Timed) : Prop where
  acquired : ∀ id t, T.state.threads id = some t → t.phase.locks = false →
    ∀ x ∈ T.obtained id, x.2 ≤ presumedAbortTime t.request
  ends : ∀ id, Late T id → ∃ xs T', Runs.Run (TimedStep c) T xs T' ∧ IsFinished T'.state id
  givesUp : ∀ id, Late T id → ∀ xs T', Runs.Run (TimedStep c) T xs T' →
    IsFinished T'.state id → GivesUp id xs T'.state

/-- The clock does not pass the presumed abort time of a transaction that has locks to take, and
none starts later than that. -/
def InTime (c : Adapter) (T : Timed) : TimedAction → Prop
  | .setClock now => ∀ id t, T.state.threads id = some t → t.phase.wanted ≠ [] →
    now ≤ presumedAbortTime t.request
  | .act _ (.start request) => ∀ orders, dbLocks c orders request.transaction.ops ≠ [] →
    T.now ≤ presumedAbortTime request
  | .act _ _ => True

def InTimeStep (c : Adapter) (T : Timed) (x : TimedAction) (T' : Timed) : Prop :=
  TimedStep c T x T' ∧ InTime c T x

def BoundedStep (c : Adapter) (T : Timed) (x : TimedAction) (T' : Timed) : Prop :=
  TimedStep c T x T' ∧ WaitBounded c T'

structure Punctual (now : ℤ) (obtained : List (LockRequest × ℤ)) (t : Thread) : Prop where
  waiting : t.phase.wanted ≠ [] → now ≤ presumedAbortTime t.request
  obtained : ∀ x ∈ obtained, x.2 ≤ presumedAbortTime t.request

theorem Punctual.of_wanted_nil {now : ℤ} {obtained : List (LockRequest × ℤ)} {t t' : Thread}
    (h : Punctual now obtained t) (hrequest : t'.request = t.request) (hw : t'.phase.wanted = []) :
    Punctual now obtained t' :=
  ⟨fun hne => absurd hw hne, by rw [hrequest]; exact h.obtained⟩

def AllPunctual (T : Timed) : Prop :=
  AllThreads (fun id => Punctual T.now (T.obtained id)) T.state

section Timed
variable {c : Adapter} {T T' : Timed} {x : TimedAction}

theorem punctual_update {s : State} {now : ℤ} {obtained : String → List (LockRequest × ℤ)}
    (h : AllThreads (fun id => Punctual now (obtained id)) s) {id : String}
    {log : List (LockRequest × ℤ)} {t : Thread} (ht : Punctual now log t) :
    AllThreads (fun u => Punctual now (Function.update obtained id log u)) (s.set id t) := by
  refine allThreads_set h ?_ ?_
  · intro u t' hu ht'
    rwa [Function.update_of_ne hu]
  · rwa [Function.update_self]

theorem allPunctual_step (h : AllPunctual T) (hs : InTimeStep c T x T') : AllPunctual T' := by
  obtain ⟨hs, hin⟩ := hs
  cases hs with
  | setClock now =>
    intro id t ht
    exact ⟨fun hw => hin id t ht hw, (h id t ht).obtained⟩
  | @start id request s' hs =>
    cases hs with
    | start request orders hid hnew =>
      exact punctual_update h ⟨fun hw => hin orders hw, fun x hx => by cases hx⟩
  | @lock id request m r todo mutexes conditionHolds ht hcall =>
    obtain ⟨_, rfl⟩ := lockWhenWithDeadline_kTrue hcall
    obtain ⟨hwaiting, hobtained⟩ := h id _ ht
    have hnow : T.now ≤ presumedAbortTime request := hwaiting (List.cons_ne_nil r todo)
    have hlog : ∀ x ∈ T.obtained id ++ [(r, T.now)], x.2 ≤ presumedAbortTime request := by
      intro x hx
      obtain hx | hx := List.mem_append.mp hx
      · exact hobtained x hx
      · rw [List.mem_singleton.mp hx]
        exact hnow
    exact punctual_update (s := { T.state with mutexes := mutexes }) h ⟨fun _ => hnow, hlog⟩
  | @other id a s' hs hlock hstart =>
    have heffect := hs.lockEffect
    clear hs
    cases heffect with
    | started request orders hid hnew => exact absurd rfl (hstart request)
    | took conditionHolds ht ha => exact absurd rfl (hlock conditionHolds)
    | @kept _ _ t t' ha ht hthreads hmutexes hrequest hheld howed hwanted hno hended =>
      have hall : AllPunctual ⟨T.state.set id t', T.now, T.obtained⟩ :=
        allThreads_set h (fun _ _ _ hu => hu) ((h id t ht).of_wanted_nil hrequest (wanted_eq_nil hno))
      intro u t₁ hu
      rw [hthreads] at hu
      exact hall u t₁ hu
    | gave ht => exact allThreads_set h (fun _ _ _ hu => hu) ((h id _ ht).of_wanted_nil rfl rfl)
    | finished ht => exact allThreads_set h (fun _ _ _ hu => hu) ((h id _ ht).of_wanted_nil rfl rfl)

theorem allPunctual_run {store : Store String} {now : ℤ} {xs : List TimedAction}
    (h : Runs.Run (InTimeStep c) (.initial store now) xs T) : AllPunctual T :=
  Runs.Run.invariant (I := fun _ T => AllPunctual T) (fun _ _ ht => by cases ht)
    (fun _ _ _ _ _ hi hs => allPunctual_step hi hs) h

theorem AllPunctual.waitBounded (h : AllPunctual T) : WaitBounded c T := by
  have hnone (id : String) : ¬Late T id := by
    rintro ⟨t, r, todo, ht, hphase, hlate⟩
    have hnow := (h id t ht).waiting (by rw [hphase]; exact List.cons_ne_nil r todo)
    exact absurd hlate (not_lt.mpr hnow)
  exact ⟨fun id t ht _ => (h id t ht).obtained, fun id hlate => absurd hlate (hnone id),
    fun id hlate => absurd hlate (hnone id)⟩

/-- A thread leaves its lock calls by taking its locks and then beginning: kTrue leaves no other
way out. -/
theorem TimedStep.locking {id : String} {t : Thread} (hs : TimedStep c T x T')
    (ht : T.state.threads id = some t) (hlocks : t.phase.locks) :
    (∃ t', T'.state.threads id = some t' ∧ t'.phase.locks) ∨
      ∃ fault, x = .act id (.begin fault) := by
  cases x with
  | setClock now =>
    cases hs
    exact .inl ⟨t, ht, hlocks⟩
  | act u a =>
    by_cases hu : id = u
    · subst hu
      obtain ⟨b, rfl⟩ | ⟨fault, rfl⟩ := hs.step.of_locking ht hlocks
      · cases hs with
        | lock hold hcall =>
          obtain ⟨_, rfl⟩ := lockWhenWithDeadline_kTrue hcall
          exact .inl ⟨_, State.threads_set .., rfl⟩
        | other hs hlock hstart => exact absurd rfl (hlock b)
      · exact .inr ⟨fault, rfl⟩
    · exact .inl ⟨t, (congrArg Prod.fst (hs.step.frame hu)).trans ht, hlocks⟩

theorem locking_or_begun {xs : List TimedAction} {id : String} (h : Runs.Run (TimedStep c) T xs T')
    (hlocks : ∃ t, T.state.threads id = some t ∧ t.phase.locks) :
    (∃ t, T'.state.threads id = some t ∧ t.phase.locks) ∨ ∃ fault, .act id (.begin fault) ∈ xs := by
  refine Runs.Run.invariant (I := fun xs T' => (∃ t, T'.state.threads id = some t ∧ t.phase.locks) ∨
    ∃ fault, .act id (.begin fault) ∈ xs) (.inl hlocks) ?_ h
  intro xs T x T' _ hi hs
  obtain ⟨t, ht, hlocks⟩ | ⟨fault, hmem⟩ := hi
  · obtain hstill | ⟨fault, rfl⟩ := hs.locking ht hlocks
    · exact .inl hstill
    · exact .inr ⟨fault, by simp⟩
  · exact .inr ⟨fault, List.mem_append_left _ hmem⟩

theorem not_reported {xs : List TimedAction} (h : Runs.Run (TimedStep c) T xs T') (id : String) :
    .act id (.lock false) ∉ xs := by
  refine Runs.Run.invariant (I := fun xs _ => .act id (.lock false) ∉ xs) List.not_mem_nil ?_ h
  intro xs T x T' _ hi hs hmem
  obtain hmem | hmem := List.mem_append.mp hmem
  · exact hi hmem
  · obtain rfl := List.mem_singleton.mp hmem
    cases hs with
    | lock ht hcall => cases (lockWhenWithDeadline_kTrue hcall).2
    | other hs hlock hstart => exact hlock false rfl

/-- A thread that is late goes on as if it were not. -/
theorem Late.goesOn {id : String} {ys : List TimedAction} (hlate : Late T id)
    (h : Runs.Run (TimedStep c) T ys T') : GoesOn id ys T'.state := by
  obtain ⟨t, r, todo, ht, hphase, _⟩ := hlate
  refine ⟨not_reported h id, fun ⟨t', ht', hfinished⟩ => ?_⟩
  refine (locking_or_begun h ⟨t, ht, by rw [hphase]; rfl⟩).resolve_left ?_
  rintro ⟨u, hu, hlocks⟩
  obtain rfl := Option.some.inj (hu.symm.trans ht')
  rw [hfinished] at hlocks
  cases hlocks

theorem WaitBounded.not_late (h : WaitBounded c T) (id : String) : ¬Late T id := by
  intro hlate
  obtain ⟨xs, T', hrun, hfinished⟩ := h.ends id hlate
  obtain ⟨fault, hmem⟩ := (hlate.goesOn hrun).begun hfinished
  cases (h.givesUp id hlate xs T' hrun hfinished).noOperation _ hmem

theorem WaitBounded.inTime (h : WaitBounded c T') (hs : TimedStep c T x T') : InTime c T x := by
  have hwaiting {id : String} {t : Thread} (ht : T'.state.threads id = some t)
      (hw : t.phase.wanted ≠ []) : T'.now ≤ presumedAbortTime t.request := by
    by_contra hlate
    refine h.not_late id ?_
    obtain ⟨request, m, phase⟩ := t
    cases phase with
    | locking todo =>
      obtain ⟨r, todo, rfl⟩ := List.exists_cons_of_ne_nil hw
      exact ⟨_, r, todo, ht, rfl, not_le.mp hlate⟩
    | _ => exact absurd rfl hw
  cases hs with
  | setClock now => exact fun id t ht hw => hwaiting ht hw
  | @start id request s' hs =>
    cases hs with
    | start _ orders hid hnew =>
      intro orders' hne
      refine hwaiting (State.threads_set ..) ?_
      rw [← List.length_pos_iff] at hne ⊢
      rwa [length_dbLocks c orders' orders] at hne
  | lock ht hcall => trivial
  | @other id a s' hs hlock hstart =>
    cases a with
    | start request => exact absurd rfl (hstart request)
    | _ => trivial

/-- The waits are bounded throughout a run just when none of them outlasts the presumed abort time:
no transaction with locks to take starts later, and the clock does not pass the time of one that
still has locks to take. One that does never ends with the deadline, and it is not aborted for it:
its transaction goes on with whatever it gets. -/
theorem wait_bounded_iff {store : Store String} {now : ℤ} {xs : List TimedAction} :
    (Runs.Run (BoundedStep c) (.initial store now) xs T ↔
      Runs.Run (InTimeStep c) (.initial store now) xs T) ∧
    ∀ id, Late T id → ∀ ys T', Runs.Run (TimedStep c) T ys T' → GoesOn id ys T'.state := by
  refine ⟨⟨fun h => ?_, fun h => ?_⟩, fun id hlate ys T' h => hlate.goesOn h⟩
  · exact h.imp fun _ _ _ _ _ _ hs => ⟨hs.1, hs.2.inTime hs.1⟩
  · exact h.imp fun _ _ _ _ _ hprefix hs =>
      ⟨hs.1, (allPunctual_run (.snoc hprefix hs)).waitBounded⟩

end Timed

/-- "a" holds the database until after the presumed abort time of "b", which is 0. -/
theorem late_commit : ∃ xs T, Runs.Run (TimedStep localAdapter) (.initial (fun _ => none) 0) xs T ∧
    ¬WaitBounded localAdapter T := by
  obtain ⟨T, hrun, hlog, hthread⟩ : ∃ T, Runs.Run (TimedStep localAdapter)
      (.initial (fun _ => none) 0)
      [.act "a" (.start (putRequest "a")), .act "a" (.lock true),
        .act "b" (.start (putRequest "b")), .act "a" (.begin none), .act "a" (.operate none),
        .act "a" .endOperations, .setClock 1, .act "a" (.commit none), .act "a" .unlock,
        .act "b" (.lock true), .act "b" (.begin none), .act "b" (.operate none),
        .act "b" .endOperations] T ∧ T.obtained "b" = [(⟨.wholeDb, .write⟩, 1)] ∧
      (T.state.threads "b").map (fun t => (t.request, t.phase)) =
        some (putRequest "b", .committing) := by
    refine ⟨_, .cons (.start (.start (putRequest "a") keyOrders rfl rfl))
      (.cons (.lock rfl rfl) (.cons (.start (.start (putRequest "b") keyOrders rfl rfl))
      (.cons (.other (.begin rfl) (by simp) (by simp))
      (.cons (.other (.operate rfl (by simp)) (by simp) (by simp))
      (.cons (.other (.endOperations rfl) (by simp) (by simp))
      (.cons (.setClock _ 1)
      (.cons (.other (.commit rfl) (by simp) (by simp))
      (.cons (.other (.unlock rfl) (by simp) (by simp))
      (.cons (.lock rfl rfl)
      (.cons (.other (.begin rfl) (by simp) (by simp))
      (.cons (.other (.operate rfl (by simp)) (by simp) (by simp))
      (.cons (.other (.endOperations rfl) (by simp) (by simp)) .nil)))))))))))), rfl, rfl⟩
  refine ⟨_, T, hrun, ?_⟩
  intro h
  obtain ⟨t, ht, he⟩ := Option.map_eq_some_iff.mp hthread
  obtain ⟨hrequest, hphase⟩ := Prod.mk.inj he
  have hlate := h.acquired "b" t ht (by rw [hphase]; rfl) (⟨.wholeDb, .write⟩, 1)
    (by rw [hlog]; exact List.mem_singleton_self _)
  rw [hrequest] at hlate
  exact absurd hlate (by decide)

def twoStarts : List TimedAction :=
  [.act "a" (.start (putRequest "a")), .act "b" (.start (putRequest "b")), .act "a" (.lock true)]

/-- "b" waits for the database: in time while the clock stands still, and late when it moves on. -/
theorem wait_bounded_waiting :
    (∃ T, T.obtained "a" = [(⟨.wholeDb, .write⟩, 0)] ∧
      Runs.Run (BoundedStep localAdapter) (.initial (fun _ => none) 0) twoStarts T) ∧
    ∃ T, Late T "b" ∧
      Runs.Run (TimedStep localAdapter) (.initial (fun _ => none) 0) (twoStarts ++ [.setClock 1]) T ∧
      ∀ ys T', Runs.Run (TimedStep localAdapter) T ys T' → GoesOn "b" ys T'.state := by
  obtain ⟨T, hlog, hb, hrun⟩ : ∃ T, T.obtained "a" = [(⟨.wholeDb, .write⟩, 0)] ∧
      Late { T with now := 1 } "b" ∧
      Runs.Run (InTimeStep localAdapter) (.initial (fun _ => none) 0) twoStarts T := by
    refine ⟨_, ?_, ?_,
      .cons ⟨.start (.start (putRequest "a") keyOrders rfl rfl), fun _ _ => by decide⟩
      (.cons ⟨.start (.start (putRequest "b") keyOrders rfl rfl), fun _ _ => by decide⟩
      (.cons ⟨.lock rfl rfl, trivial⟩ .nil))⟩
    · rfl
    · exact ⟨_, _, _, rfl, rfl, by decide⟩
  have htimed : Runs.Run (TimedStep localAdapter) (.initial (fun _ => none) 0) twoStarts T :=
    hrun.imp fun _ _ _ _ _ _ hs => hs.1
  exact ⟨⟨T, hlog, wait_bounded_iff.1.mpr hrun⟩, _, hb, .snoc htimed (.setClock T 1),
    (@wait_bounded_iff localAdapter _ (fun _ => none) 0 twoStarts).2 "b" hb⟩

end TwoPhaseCommit.Cohort
