import Mathlib.Algebra.BigOperators.Group.Finset.Basic
import TwoPhaseCommit.CohortDeadlines
import TwoPhaseCommit.CohortDeadlock
import TwoPhaseCommit.LockPlan

/-! How much the threads of a cohort have to do. Every step that is not made again leaves less, and
on a database with a single lock some thread can always go on. -/
namespace TwoPhaseCommit.Cohort
open Database Locks
open AdapterChain.Blockchain (VotingDecision)

/-- A poll without a decision, or a Commit that failed: the call is made again. -/
def Action.retries : Action → Bool
  | .poll reply => decisionOf reply = .pending ∨ decisionOf reply = .unknown
  | .commit fault => fault.isSome
  | _ => false

def Action.returns : Action → Bool
  | .finish => true
  | _ => false

/-- The calls of a thread that may never be over: nobody replies to a Vote whose ballot the contract
rejects, and a Commit can throw. -/
inductive Call where
  | vote
  | commit

def Action.call : Action → Option Call
  | .vote _ _ => some .vote
  | .commit none => some .commit
  | _ => none

def Phase.call : Phase → Option Call
  | .voting | .votingAbort _ => some .vote
  | .committing => some .commit
  | _ => none

/-- Some thread is in a call that never gets to its end. -/
def Hung (completes : String → Call → Prop) (s : State) : Prop :=
  ∃ id t call, s.threads id = some t ∧ t.phase.call = some call ∧ ¬completes id call

/-- The call does what it is for, and a poll returns the decision d. -/
def Action.Succeeds (d : VotingDecision) : Action → Prop
  | .start _ => False
  | .lock conditionHolds => conditionHolds = kTrue
  | .begin fault | .operate fault | .put fault | .commit fault => fault = none
  | .persistResponse written | .persistRequest written => written
  | .poll reply => reply = some d
  | _ => True

theorem Action.Succeeds.request {d : VotingDecision} {a : Action} (h : a.Succeeds d) :
    a.request = none := by
  cases a with
  | start request => cases h
  | _ => rfl

theorem Action.Succeeds.retries {d : VotingDecision} {a : Action} (h : a.Succeeds d)
    (hd : d = .commit ∨ d = .abort) : a.retries = false := by
  cases a with
  | poll reply =>
    obtain rfl : reply = some d := h
    obtain rfl | rfl := hd <;> rfl
  | commit fault =>
    obtain rfl : fault = none := h
    rfl
  | _ => rfl

/-- How many steps a thread has before it at most. -/
def remaining (t : Thread) : ℕ :=
  match t.phase with
  | .locking todo =>
    2 * todo.length + (heldLocks t.metadata).length + 2 * t.request.transaction.ops.length + 8
  | .running todo => 2 * todo.length + (heldLocks t.metadata).length + 7
  | .putting _ _ todo => 2 * todo.length + (heldLocks t.metadata).length + 8
  | .persistingResponse => (heldLocks t.metadata).length + 6
  | .persistingRequest => (heldLocks t.metadata).length + 5
  | .voting => (heldLocks t.metadata).length + 4
  | .waiting | .votingAbort _ => (heldLocks t.metadata).length + 3
  | .committing | .aborting _ _ => (heldLocks t.metadata).length + 2
  | .releasing todo => todo.length + 1
  | .finished => 0

def stepsOf (request : PrepareTransactionRequest) : ℕ := 2 * request.transaction.ops.length + 11

def State.remainingAt (s : State) (id : String) : ℕ := ((s.threads id).map remaining).getD 0

section Step
variable {c : Adapter} {s s' : State} {id : String} {a : Action} {t : Thread}

structure Advances (s s' : State) (id : String) (a : Action) (t t' : Thread) : Prop where
  threads : s'.threads = Function.update s.threads id (some t')
  fewer : remaining t' + (if a.retries then 0 else 1) ≤ remaining t
  returned : a.returns ↔ remaining t' = 0

theorem Advances.next {t' : Thread} (hthreads : s'.threads = Function.update s.threads id (some t'))
    (hretries : a.retries = false) (hreturns : a.returns = false)
    (h : 0 < remaining t' ∧ remaining t' < remaining t) : Advances s s' id a t t' where
  threads := hthreads
  fewer := by
    rw [hretries, if_neg Bool.false_ne_true]
    exact h.2
  returned := by simp [hreturns, h.1.ne']

theorem Advances.again (ht : s.threads id = some t) (hretries : a.retries)
    (hreturns : a.returns = false) (hpos : 0 < remaining t) : Advances s s id a t t where
  threads := by rw [← ht, Function.update_eq_self]
  fewer := by rw [if_pos hretries, Nat.add_zero]
  returned := by simp [hreturns, hpos.ne']

theorem Step.thread (hs : Step c s (id, a) s') (ha : a.request = none) :
    ∃ t, s.threads id = some t := by
  have heffect := hs.lockEffect
  cases heffect with
  | started request orders hid hnew => cases ha
  | took conditionHolds ht hacquire => exact ⟨_, ht⟩
  | kept hmoves ht hthreads hmutexes hrequest hheld howed hwanted hlocks hended => exact ⟨_, ht⟩
  | gave ht => exact ⟨_, ht⟩
  | finished ht => exact ⟨_, ht⟩

theorem Step.call_eq {call : Call} (hs : Step c s (id, a) s') (ht : s.threads id = some t)
    (ha : a.call = some call) : t.phase.call = some call := by
  have hsame {u : Thread} (hu : s.threads id = some u) : t = u :=
    Option.some.inj (ht.symm.trans hu)
  cases hs with
  | vote hu | voteAbort hu | commit hu =>
    obtain rfl := hsame hu
    exact ha
  | _ => cases ha

end Step

section Run
variable {c : Adapter} {store : Store String} {xs : List (String × Action)} {s : State}

def started (xs : List (String × Action)) : List PrepareTransactionRequest :=
  xs.filterMap fun x => x.2.request

def startedIds (xs : List (String × Action)) : List String := (started xs).map (·.transactionId)

theorem started_snoc (xs : List (String × Action)) (x : String × Action) :
    started (xs ++ [x]) = started xs ++ x.2.request.toList := by
  rw [started, List.filterMap_append]
  cases hx : x.2.request <;> simp [started, hx]

def stepCount (xs : List (String × Action)) : ℕ := xs.countP fun x => !x.2.retries

theorem stepCount_snoc (xs : List (String × Action)) (x : String × Action) :
    stepCount (xs ++ [x]) = stepCount xs + if x.2.retries then 0 else 1 := by
  rw [stepCount, List.countP_append, List.countP_singleton]
  cases x.2.retries <;> rfl

theorem remaining_newThread (hc : c.supportsConcurrentWrites = false) (orders : KeyOrders)
    (request : PrepareTransactionRequest) :
    0 < remaining (newThread c orders request) ∧
      remaining (newThread c orders request) + 1 ≤ stepsOf request := by
  have hlocks : dbLocks c orders request.transaction.ops = wholeDbLocks request.transaction.ops := by
    rw [dbLocks, hc, if_neg Bool.false_ne_true]
  have hone := CohortServer.length_wholeDbLocks request.transaction.ops
  have hnone : (heldLocks newMetadata).length = 0 := rfl
  simp only [newThread, remaining, stepsOf, hlocks, hnone]
  omega

theorem remainingAt_of_threads {s s' : State} {id : String} {t' : Thread}
    (h : s'.threads = Function.update s.threads id (some t')) :
    s'.remainingAt id = remaining t' ∧ ∀ u, u ≠ id → s'.remainingAt u = s.remainingAt u := by
  refine ⟨by rw [State.remainingAt, h, Function.update_self]; rfl, fun u hu => ?_⟩
  rw [State.remainingAt, State.remainingAt, h, Function.update_of_ne hu]

/-- The steps taken and those that are left are not more than the transactions need. -/
structure WorkInv (xs : List (String × Action)) (s : State) : Prop where
  threads : ∀ id, (∃ t, s.threads id = some t) ↔ id ∈ startedIds xs
  bound : stepCount xs + (startedIds xs).toFinset.sum s.remainingAt ≤
    ((started xs).map stepsOf).sum

theorem WorkInv.initial (store : Store String) : WorkInv [] (initial store) where
  threads id := by simp [Cohort.initial, startedIds, started]
  bound := by simp [stepCount, startedIds, started]

theorem WorkInv.start (h : WorkInv xs s) (hc : c.supportsConcurrentWrites = false)
    {request : PrepareTransactionRequest} (orders : KeyOrders)
    (hnew : s.threads request.transactionId = none) :
    WorkInv (xs ++ [(request.transactionId, .start request)])
      (s.set request.transactionId (newThread c orders request)) := by
  obtain ⟨_, hsteps⟩ := remaining_newThread hc orders request
  have hthreads : (s.set request.transactionId (newThread c orders request)).threads =
    Function.update s.threads request.transactionId (some (newThread c orders request)) := rfl
  obtain ⟨hself, hother⟩ := remainingAt_of_threads hthreads
  have hrequests : started (xs ++ [(request.transactionId, .start request)]) =
      started xs ++ [request] := started_snoc xs _
  have hids : startedIds (xs ++ [(request.transactionId, .start request)]) =
      startedIds xs ++ [request.transactionId] := by
    rw [startedIds, hrequests, List.map_append]
    rfl
  have hnot : request.transactionId ∉ startedIds xs := by
    intro hmem
    obtain ⟨t, ht⟩ := (h.threads _).mpr hmem
    cases hnew.symm.trans ht
  refine ⟨fun id => ?_, ?_⟩
  · rw [hids, List.mem_append, ← h.threads id, hthreads]
    by_cases hu : id = request.transactionId
    · subst hu
      simp
    · simp [hu]
  · have hsum : (startedIds xs).toFinset.sum
        (s.set request.transactionId (newThread c orders request)).remainingAt =
          (startedIds xs).toFinset.sum s.remainingAt :=
      Finset.sum_congr rfl fun u hu => hother u fun he => hnot (he ▸ List.mem_toFinset.mp hu)
    have hset : (startedIds xs ++ [request.transactionId]).toFinset =
        insert request.transactionId (startedIds xs).toFinset := by
      ext u
      simp
    have hbound := h.bound
    rw [hids, hset, Finset.sum_insert (by simpa using hnot), hself, hsum, hrequests, stepCount_snoc,
      List.map_append, List.sum_append, List.map_singleton, List.sum_singleton]
    simp only [Action.retries, Bool.false_eq_true, if_false]
    omega

theorem WorkInv.advance (h : WorkInv xs s) {id : String} {a : Action} {s' : State} {t t' : Thread}
    (ht : s.threads id = some t) (ha : a.request = none) (hadvances : Advances s s' id a t t') :
    WorkInv (xs ++ [(id, a)]) s' := by
  obtain ⟨hthreads, hfewer, _⟩ := hadvances
  obtain ⟨hself, hother⟩ := remainingAt_of_threads hthreads
  have hbefore : s.remainingAt id = remaining t := by rw [State.remainingAt, ht]; rfl
  have hrequests : started (xs ++ [(id, a)]) = started xs := by
    rw [started_snoc, ha]
    exact List.append_nil _
  have hids : startedIds (xs ++ [(id, a)]) = startedIds xs := by rw [startedIds, hrequests]; rfl
  have hid : id ∈ (startedIds xs).toFinset := List.mem_toFinset.mpr ((h.threads id).mp ⟨t, ht⟩)
  refine ⟨fun u => ?_, ?_⟩
  · rw [hids, ← h.threads u, hthreads]
    by_cases hu : u = id
    · subst hu
      simp [ht]
    · rw [Function.update_of_ne hu]
  · have hrest : ((startedIds xs).toFinset.erase id).sum s'.remainingAt =
        ((startedIds xs).toFinset.erase id).sum s.remainingAt :=
      Finset.sum_congr rfl fun u hu => hother u (Finset.ne_of_mem_erase hu)
    have hsplit (f : String → ℕ) : (startedIds xs).toFinset.sum f =
        ((startedIds xs).toFinset.erase id).sum f + f id := (Finset.sum_erase_add _ f hid).symm
    have hbound := h.bound
    rw [hsplit, hbefore] at hbound
    rw [hids, hrequests, stepCount_snoc, hsplit, hself, hrest]
    dsimp only
    omega

end Run

section Progress
variable {c : Adapter} {s : State} {id : String} {t : Thread} {d : VotingDecision}

theorem exists_step (ht : s.threads id = some t) (hpos : 0 < remaining t)
    (hfree : ∀ r, s.wants id = some r → s.mutexes.acquire r id ≠ none)
    (hd : d = .commit ∨ d = .abort) : ∃ a s', Step c s (id, a) s' ∧ a.Succeeds d := by
  obtain ⟨request, m, phase⟩ := t
  have hnone {α : Type} {P : α → Prop} : ∀ x, (none : Option α) = some x → P x := by
    intro x hx
    cases hx
  cases phase with
  | locking todo =>
    cases todo with
    | nil => exact ⟨_, _, .begin ht, rfl⟩
    | cons r todo =>
      have hwants : s.wants id = some r := by simp [State.wants, ht]
      obtain ⟨mutexes, ha⟩ := Option.ne_none_iff_exists'.mp (hfree r hwants)
      exact ⟨_, _, .lock kTrue ht ha, rfl⟩
  | running todo =>
    cases todo with
    | nil => exact ⟨_, _, .endOperations ht, trivial⟩
    | cons op todo => exact ⟨.operate none, _, .operate ht hnone, rfl⟩
  | putting key value todo => exact ⟨.put none, _, .put ht hnone, rfl⟩
  | persistingResponse => exact ⟨_, _, .persistResponse true ht, rfl⟩
  | persistingRequest => exact ⟨_, _, .persistRequest true ht, rfl⟩
  | voting => exact ⟨_, _, .vote ht, trivial⟩
  | waiting =>
    obtain rfl | rfl := hd
    · exact ⟨_, _, .pollCommit ht, rfl⟩
    · exact ⟨_, _, .pollAbort .unspecified ht, rfl⟩
  | committing => exact ⟨_, _, .commit ht, rfl⟩
  | votingAbort status => exact ⟨_, _, .voteAbort ht, trivial⟩
  | aborting abortStatus reason => exact ⟨_, _, .abort ht, trivial⟩
  | releasing todo =>
    cases todo with
    | nil => exact ⟨_, _, .finish ht, trivial⟩
    | cons r todo => exact ⟨_, _, .unlock ht, trivial⟩
  | finished => exact absurd hpos (Nat.lt_irrefl 0)

theorem waiting_of_poll {s' : State} {reply : Option VotingDecision}
    (hs : Step c s (id, .poll reply) s') :
    ∃ request m, s.threads id = some ⟨request, m, .waiting⟩ := by
  cases hs with
  | pollAgain ht hd => exact ⟨_, _, ht⟩
  | pollCommit ht => exact ⟨_, _, ht⟩
  | pollAbort reason ht => exact ⟨_, _, ht⟩

theorem wants_eq_none (hc : c.supportsConcurrentWrites = false) (h : Holdings c s)
    {r : LockRequest} (hr : Held s.mutexes id r) :
    s.wants id = none ∧ ∃ t, s.threads id = some t ∧ 0 < remaining t := by
  obtain ⟨t, ht, howed⟩ := h.held id r hr
  refine ⟨?_, t, ht, ?_⟩
  · unfold State.wants
    split
    · rename_i q todo hphase
      obtain ⟨_, hu, hlocking⟩ := Option.map_eq_some_iff.mp hphase
      obtain rfl := Option.some.inj (ht.symm.trans hu)
      obtain ⟨orders, hperm⟩ := (h.locks id t ht).plan (.inl (by rw [hlocking]; rfl))
      have hlength := hperm.length_eq
      have hone := CohortServer.length_wholeDbLocks t.request.transaction.ops
      rw [dbLocks, hc, if_neg Bool.false_ne_true, hlocking] at hlength
      have hheld : r ∈ heldLocks t.metadata := by rwa [owed, hlocking] at howed
      have hpos := List.length_pos_of_mem hheld
      simp only [Phase.wanted, List.length_append, List.length_cons] at hlength
      omega
    · rfl
  · obtain ⟨request, m, phase⟩ := t
    cases phase with
    | finished => cases howed
    | _ =>
      simp only [remaining]
      omega

/-- Where some thread is not through, one is that does not wait for a lock. -/
theorem exists_unblocked (hc : c.supportsConcurrentWrites = false) (h : Holdings c s)
    (ht : s.threads id = some t) (hpos : 0 < remaining t) :
    ∃ u t', s.threads u = some t' ∧ 0 < remaining t' ∧
      ∀ r, s.wants u = some r → s.mutexes.acquire r u ≠ none := by
  by_cases hfree : ∀ r, s.wants id = some r → s.mutexes.acquire r id ≠ none
  · exact ⟨id, t, ht, hpos, hfree⟩
  · obtain ⟨r, _, hblocked⟩ : ∃ r, s.wants id = some r ∧ s.mutexes.acquire r id = none := by
      simpa using hfree
    obtain ⟨u, mode, hheld⟩ := held_of_acquire_eq_none hblocked
    obtain ⟨hwants, t', ht', hpos'⟩ := wants_eq_none hc h hheld
    refine ⟨u, t', ht', hpos', fun q hq => ?_⟩
    cases hwants.symm.trans hq

theorem final_of_remaining {store : Store String} {xs : List (String × Action)}
    (h : Run c store xs s) (ht : s.threads id = some t) (hdone : remaining t = 0) :
    Final (getTransactionResult s id) := by
  obtain ⟨hstory, _, hfinal⟩ := story_run h ht
  obtain ⟨request, m, phase⟩ := t
  cases phase with
  | finished =>
    rw [getTransactionResult, hfinal]
    exact (hstory.ended rfl).imp (fun hended => hended.2.2) fun hended => hended.2.2
  | _ => simp [remaining] at hdone

end Progress

end TwoPhaseCommit.Cohort
