import TwoPhaseCommit.CohortHoldings
import TwoPhaseCommit.CohortSerial

/-! Threads that wait for each other's locks in a circle: excluded when all of them take their
locks along one order of the keys, and reachable otherwise. -/
namespace TwoPhaseCommit.Cohort
open Database Locks

def State.wants (s : State) (id : String) : Option LockRequest :=
  match (s.threads id).map Thread.phase with
  | some (.locking (r :: _)) => some r
  | _ => none

/-- A thread waits in AcquireDbLocks for a lock that another one holds. -/
def State.Waits (s : State) (id u : String) : Prop :=
  ∃ r, s.wants id = some r ∧ s.mutexes.acquire r id = none ∧ ∃ mode, Held s.mutexes u ⟨r.name, mode⟩

def DeadlockFree (s : State) : Prop := ∀ id, ¬Relation.TransGen s.Waits id id

/-- A step that starts a transaction only if its key sets are walked, the read ones first, along
the order lt. -/
def OrderedStep (lt : LockName → LockName → Prop) (c : Adapter) (s : State) (x : String × Action)
    (s' : State) : Prop :=
  Step c s x s' ∧ ∀ request, x.2 = .start request → ∃ orders,
    ((dbLocks c orders request.transaction.ops).map Locks.Request.name).Pairwise lt ∧
      s' = s.set x.1 (newThread c orders request)

structure Ascending (lt : LockName → LockName → Prop) (t : Thread) : Prop where
  wanted : (t.phase.wanted.map Locks.Request.name).Pairwise lt
  held : ∀ r ∈ heldLocks t.metadata, ∀ q ∈ t.phase.wanted, lt r.name q.name

section Order
variable {lt : LockName → LockName → Prop} {c : Adapter} {s s' : State} {x : String × Action}

theorem Ascending.of_wanted_nil {t : Thread} (h : t.phase.wanted = []) : Ascending lt t :=
  ⟨by rw [h]; exact .nil, fun r _ q hq => by rw [h] at hq; cases hq⟩

theorem Ascending.lock {request : PrepareTransactionRequest} {m : Metadata} {r : LockRequest}
    {todo : List LockRequest} (h : Ascending lt ⟨request, m, .locking (r :: todo)⟩)
    (hfresh : r.name ∉ (heldLocks m).map Locks.Request.name) :
    Ascending lt ⟨request, record m r, .locking todo⟩ := by
  obtain ⟨hwanted, hheld⟩ := h
  obtain ⟨hfirst, hrest⟩ := List.pairwise_cons.mp hwanted
  refine ⟨hrest, ?_⟩
  intro r' hr' q hq
  obtain rfl | hr' := List.mem_cons.mp ((heldLocks_record hfresh).mem_iff.mp hr')
  · exact hfirst _ (List.mem_map_of_mem hq)
  · exact hheld r' hr' q (List.mem_cons_of_mem r hq)

theorem ascending_step (h : AllThreads (fun _ => Ascending lt) s) (hlocks : Holdings c s)
    (hs : OrderedStep lt c s x s') : AllThreads (fun _ => Ascending lt) s' := by
  obtain ⟨id, a⟩ := x
  obtain ⟨hs, hstart⟩ := hs
  have hset {s₁ : State} {t : Thread} (h₁ : AllThreads (fun _ => Ascending lt) s₁)
      (ht : Ascending lt t) : AllThreads (fun _ => Ascending lt) (s₁.set id t) :=
    allThreads_set h₁ (fun _ _ _ hu => hu) ht
  have heffect := hs.lockEffect
  clear hs
  cases heffect with
  | started request orders hid hnew =>
    obtain ⟨orders', hsorted, hs'⟩ := hstart request rfl
    rw [hs']
    exact hset h ⟨hsorted, fun r hr => by cases hr⟩
  | took conditionHolds ht ha =>
    cases conditionHolds with
    | false => exact hset h (.of_wanted_nil rfl)
    | true => exact hset h ((h id _ ht).lock (hlocks.locks id _ ht).fresh)
  | kept ha ht hthreads hmutexes hrequest hheld howed hwanted hno hended =>
    have hall := hset h (.of_wanted_nil (wanted_eq_nil hno))
    intro u t hu
    rw [hthreads] at hu
    exact hall u t hu
  | gave ht => exact hset h (.of_wanted_nil rfl)
  | finished ht => exact hset h (.of_wanted_nil rfl)

theorem ascending_run {store : Store String} {xs : List (String × Action)}
    (h : Runs.Run (OrderedStep lt c) (initial store) xs s) (hgranted : Granted xs) :
    Holdings c s ∧ AllThreads (fun _ => Ascending lt) s :=
  Runs.Run.invariant_of_forall
    (I := fun s => Holdings c s ∧ AllThreads (fun _ => Ascending lt) s)
    (P := fun x => x.2 ≠ .lock false)
    ⟨.initial c store, fun _ _ ht => by cases ht⟩
    (fun _ _ _ hi hs hx => ⟨hi.1.step hs.1 hx, ascending_step hi.2 hi.1 hs⟩) h hgranted.ne

/-- No deadlock when all transactions take their locks along one order. -/
theorem deadlock_free [IsStrictOrder LockName lt] {store : Store String}
    {xs : List (String × Action)} (h : Runs.Run (OrderedStep lt c) (initial store) xs s)
    (hgranted : Granted xs) : DeadlockFree s := by
  obtain ⟨hlocks, hasc⟩ := ascending_run h hgranted
  intro id hcycle
  let wants (id : String) : Option LockName := (s.wants id).map Locks.Request.name
  let holds (id : String) (k : LockName) : Prop := ∃ mode, Held s.mutexes id ⟨k, mode⟩
  have hafter (id : String) (k q : LockName) (hk : holds id k) (hq : wants id = some q) : lt k q := by
    obtain ⟨mode, hheld⟩ := hk
    obtain ⟨r, hr, rfl⟩ := Option.map_eq_some_iff.mp hq
    unfold State.wants at hr
    split at hr
    · rename_i r' todo hphase
      obtain rfl := Option.some.inj hr
      obtain ⟨t, ht, hlocking⟩ := Option.map_eq_some_iff.mp hphase
      have howed := hlocks.owed_of_held ht hheld
      rw [owed, hlocking] at howed
      refine (hasc id t ht).held _ howed r' ?_
      rw [hlocking]
      exact List.mem_cons_self
    · cases hr
  refine no_wait_cycle hafter id (hcycle.lift (fun i => i) ?_)
  intro i j ⟨r, hr, _, hheld⟩
  exact ⟨r.name, by simp [wants, hr], hheld⟩

end Order

def concurrentAdapter : Adapter := ⟨true, ⟨.notFound, "Key not found"⟩⟩

def getPutRequest (id read write : String) : PrepareTransactionRequest where
  transactionId := id
  transaction := ⟨[⟨⟨"", "cohort:50052"⟩, some (.get ⟨read⟩)⟩,
    ⟨⟨"", "cohort:50052"⟩, some (.put ⟨write, some (.constantValue ⟨some 5⟩)⟩)⟩]⟩
  config := ⟨none⟩
  participantInfo := some (.onlyCohort true)

/-- Each transaction reads the key that the other one writes, and both have their read lock. -/
theorem deadlock : ∃ xs s, Run concurrentAdapter (fun _ => none) xs s ∧ Granted xs ∧
    ¬DeadlockFree s := by
  obtain ⟨s, hrun, ha, hb⟩ : ∃ s, Run concurrentAdapter (fun _ => none)
      [("a", .start (getPutRequest "a" "x" "y")), ("b", .start (getPutRequest "b" "y" "x")),
        ("a", .lock true), ("b", .lock true)] s ∧ s.Waits "a" "b" ∧ s.Waits "b" "a" := by
    refine ⟨_, .cons (.start (getPutRequest "a" "x" "y") keyOrders rfl rfl)
      (.cons (.start (getPutRequest "b" "y" "x") keyOrders rfl rfl)
      (.cons (.lock true rfl rfl) (.cons (.lock true rfl rfl) .nil))), ?_, ?_⟩
    · exact ⟨⟨.key "y", .write⟩, rfl, rfl, .read, List.mem_singleton_self "b"⟩
    · exact ⟨⟨.key "x", .write⟩, rfl, rfl, .read, List.mem_singleton_self "a"⟩
  refine ⟨_, s, hrun, fun id h => by simp at h, ?_⟩
  intro hfree
  exact hfree "a" (.tail (.single ha) hb)

def shorter (l l' : LockName) : Prop :=
  match l, l' with
  | .key k, .key k' => k.length < k'.length
  | _, _ => False

instance : DecidableRel shorter := fun l l' => by
  unfold shorter
  split <;> infer_instance

instance : IsStrictOrder LockName shorter where
  irrefl l := by
    cases l with
    | wholeDb => exact id
    | key k => exact Nat.lt_irrefl _
  trans l₁ l₂ l₃ h h' := by
    cases l₁ <;> cases l₂ <;> cases l₃ <;> try trivial
    exact Nat.lt_trans h h'

/-- Two transactions along one order: the second one waits, and nobody waits for it. -/
theorem deadlock_free_waiting : ∃ s, s.Waits "b" "a" ∧ DeadlockFree s := by
  obtain ⟨s, hwaits, hrun⟩ : ∃ s, s.Waits "b" "a" ∧
      Runs.Run (OrderedStep shorter concurrentAdapter) (initial fun _ => none)
      [("a", .start (getPutRequest "a" "x" "yy")), ("b", .start (getPutRequest "b" "x" "yy")),
        ("a", .lock true), ("b", .lock true), ("a", .lock true)] s := by
    refine ⟨_, ?_, .cons ⟨.start (getPutRequest "a" "x" "yy") keyOrders rfl rfl, ?_⟩
      (.cons ⟨.start (getPutRequest "b" "x" "yy") keyOrders rfl rfl, ?_⟩
      (.cons ⟨.lock true rfl rfl, by simp⟩ (.cons ⟨.lock true rfl rfl, by simp⟩
      (.cons ⟨.lock true rfl rfl, by simp⟩ .nil))))⟩
    · exact ⟨⟨.key "yy", .write⟩, rfl, rfl, .write, rfl⟩
    · intro request h
      cases h
      exact ⟨keyOrders, by decide, rfl⟩
    · intro request h
      cases h
      exact ⟨keyOrders, by decide, rfl⟩
  exact ⟨s, hwaits, deadlock_free hrun fun id h => by simp at h⟩

end TwoPhaseCommit.Cohort
