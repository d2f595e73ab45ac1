import TwoPhaseCommit.CohortWork

/-! The thread pool of a cohort: PrepareTransaction queues a transaction, and a number of threads
take the queued ones in turn. -/
namespace TwoPhaseCommit.Cohort
open Database
open AdapterChain.Blockchain (VotingDecision)

/-- A cohort with the tasks in the queue of its pool, and the transactions that threads are at. -/
structure Pool where
  state : State
  tasks : List PrepareTransactionRequest
  running : Finset String

def Pool.initial (store : Store String) : Pool := ⟨Cohort.initial store, [], ∅⟩

inductive PoolAction where
  | prepareTransaction (request : PrepareTransactionRequest)
  | take (request : PrepareTransactionRequest)
  | work (id : String) (action : Action)

/-- `push_task` queues a call of ProcessTransaction. A thread of the pool that is free takes the
first task, and takes no other one before that call has returned. A thread that has called Vote or
Commit goes on only where that call completes. -/
inductive PoolStep (c : Adapter) (numDbThreads : ℕ) (completes : String → Call → Prop) :
    Pool → PoolAction → Pool → Prop
  | prepareTransaction (p : Pool) (request : PrepareTransactionRequest) :
      PoolStep c numDbThreads completes p (.prepareTransaction request)
        { p with tasks := p.tasks ++ [request] }
  | take {p : Pool} {request : PrepareTransactionRequest} {tasks : List PrepareTransactionRequest}
      {s' : State} (htasks : p.tasks = request :: tasks) (hfree : p.running.card < numDbThreads)
      (hs : Step c p.state (request.transactionId, .start request) s') :
      PoolStep c numDbThreads completes p (.take request)
        ⟨s', tasks, insert request.transactionId p.running⟩
  -- The lock calls wait for a condition that is always true.
  | work {p : Pool} {id : String} {a : Action} {s' : State} (hid : id ∈ p.running)
      (hstarted : a.request = none)
      (hlock : ∀ conditionHolds, a = .lock conditionHolds → conditionHolds = kTrue)
      (hcall : ∀ call, a.call = some call → completes id call)
      (hs : Step c p.state (id, a) s') :
      PoolStep c numDbThreads completes p (.work id a)
        ⟨s', p.tasks, if a.returns then p.running.erase id else p.running⟩

abbrev PoolRun (c : Adapter) (numDbThreads : ℕ) (completes : String → Call → Prop)
    (store : Store String) (xs : List PoolAction) (p : Pool) : Prop :=
  Runs.Run (PoolStep c numDbThreads completes) (Pool.initial store) xs p

def PoolAction.prepared : PoolAction → Option PrepareTransactionRequest
  | .prepareTransaction request => some request
  | _ => none

def prepared (xs : List PoolAction) : List PrepareTransactionRequest :=
  xs.filterMap PoolAction.prepared

def PoolAction.steps : PoolAction → List (String × Action)
  | .prepareTransaction _ => []
  | .take request => [(request.transactionId, .start request)]
  | .work id a => [(id, a)]

def threadSteps (xs : List PoolAction) : List (String × Action) := xs.flatMap PoolAction.steps

section Pool
variable {c : Adapter} {numDbThreads : ℕ} {completes : String → Call → Prop} {store : Store String}
  {xs : List PoolAction} {p : Pool}

theorem prepared_snoc (xs : List PoolAction) (y : PoolAction) :
    prepared (xs ++ [y]) = prepared xs ++ y.prepared.toList := by
  rw [prepared, List.filterMap_append]
  cases hy : y.prepared <;> simp [prepared, hy]

theorem threadSteps_snoc (xs : List PoolAction) (y : PoolAction) :
    threadSteps (xs ++ [y]) = threadSteps xs ++ y.steps := by
  rw [threadSteps, List.flatMap_append, List.flatMap_singleton]
  rfl

theorem PoolRun.cohort (h : PoolRun c numDbThreads completes store xs p) :
    Run c store (threadSteps xs) p.state := by
  refine Runs.Run.project (f := Pool.state) (g := PoolAction.steps) ?_ h
  intro p y p' hs
  cases hs with
  | prepareTransaction request => exact .nil
  | take htasks hfree hs => exact .single hs
  | work hid hstarted hlock hcall hs => exact .single hs

theorem PoolRun.granted (h : PoolRun c numDbThreads completes store xs p) :
    Granted (threadSteps xs) := by
  refine Runs.Run.invariant (I := fun xs _ => Granted (threadSteps xs))
    (fun _ hmem => by cases hmem) ?_ h
  intro xs p y p' _ hi hs id hmem
  rw [threadSteps_snoc] at hmem
  obtain hmem | hmem := List.mem_append.mp hmem
  · exact hi id hmem
  · cases hs with
    | prepareTransaction request => cases hmem
    | take htasks hfree hs => simp [PoolAction.steps] at hmem
    | work hid hstarted hlock hcall hs =>
      obtain ⟨rfl, rfl⟩ := Prod.mk.inj (List.mem_singleton.mp hmem)
      exact Bool.false_ne_true (hlock false rfl)

/-- Each transaction is in the queue, with a thread, or over. -/
structure PoolInv (xs : List PoolAction) (p : Pool) : Prop where
  running : ∀ id, id ∈ p.running ↔ ∃ t, p.state.threads id = some t ∧ 0 < remaining t
  queued : prepared xs = started (threadSteps xs) ++ p.tasks

theorem PoolInv.initial (store : Store String) : PoolInv [] (Pool.initial store) where
  running id := by simp [Pool.initial, Cohort.initial]
  queued := rfl

theorem PoolInv.prepareTransaction (h : PoolInv xs p) (request : PrepareTransactionRequest) :
    PoolInv (xs ++ [.prepareTransaction request]) { p with tasks := p.tasks ++ [request] } where
  running := h.running
  queued := by
    rw [prepared_snoc, threadSteps_snoc, h.queued, List.append_assoc, PoolAction.steps,
      List.append_nil]
    rfl

theorem PoolInv.take (h : PoolInv xs p) (hc : c.supportsConcurrentWrites = false)
    {request : PrepareTransactionRequest} {tasks : List PrepareTransactionRequest} {s' : State}
    (htasks : p.tasks = request :: tasks)
    (hs : Step c p.state (request.transactionId, .start request) s') :
    PoolInv (xs ++ [.take request]) ⟨s', tasks, insert request.transactionId p.running⟩ := by
  cases hs with
  | start _ orders hid hnew =>
    refine ⟨fun id => ?_, ?_⟩
    · rw [Finset.mem_insert, h.running, State.set]
      by_cases hu : id = request.transactionId
      · subst hu
        simp [(remaining_newThread hc orders request).1]
      · simp [hu]
    · rw [prepared_snoc, threadSteps_snoc, h.queued, htasks, PoolAction.steps, started_snoc,
        List.append_assoc]
      simp [PoolAction.prepared, Action.request]

theorem PoolInv.work (h : PoolInv xs p) {id : String} {a : Action} {s' : State} {t t' : Thread}
    (hid : id ∈ p.running) (hstarted : a.request = none) (hadvances : Advances p.state s' id a t t') :
    PoolInv (xs ++ [.work id a])
      ⟨s', p.tasks, if a.returns then p.running.erase id else p.running⟩ := by
  obtain ⟨hthreads, _, hreturned⟩ := hadvances
  refine ⟨fun u => ?_, ?_⟩
  · rw [hthreads]
    by_cases hu : u = id
    · subst hu
      cases hreturns : a.returns with
      | false => simp [hid, Nat.pos_iff_ne_zero, ← hreturned, hreturns]
      | true => simp [hreturned.mp hreturns]
    · rw [Function.update_of_ne hu, ← h.running u]
      split
      · exact ⟨Finset.mem_of_mem_erase, fun hmem => Finset.mem_erase.mpr ⟨hu, hmem⟩⟩
      · exact Iff.rfl
  · rw [prepared_snoc, threadSteps_snoc, PoolAction.steps, started_snoc, hstarted, h.queued]
    simp [PoolAction.prepared]

end Pool

end TwoPhaseCommit.Cohort
