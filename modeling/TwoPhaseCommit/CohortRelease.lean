import TwoPhaseCommit.CohortHoldings
import TwoPhaseCommit.CohortSerial

/-! The exits of ProcessTransaction: what a thread has taken and given back by the time it
returns. An id can come again once its thread has returned. -/
namespace TwoPhaseCommit.Cohort
open Database Locks

def State.erase (s : State) (id : String) : State :=
  { s with threads := Function.update s.threads id none }

@[simp] theorem State.threads_erase (s : State) (id : String) : (s.erase id).threads id = none :=
  Function.update_self ..

theorem State.threads_erase_of_ne (s : State) {id u : String} (hu : u ≠ id) :
    (s.erase id).threads u = s.threads u := Function.update_of_ne hu ..

def State.metadataByTransactionId (s : State) (id : String) : Option Metadata :=
  (s.threads id).map Thread.metadata

/-- The steps of a cohort whose threads disappear when they return. -/
inductive ServerStep (c : Adapter) : State → String × Action → State → Prop
  | work {s s' : State} {x : String × Action} (hs : Step c s x s') (hx : x.2 ≠ .finish) :
      ServerStep c s x s'
  | returned {s s' : State} {id : String} (hs : Step c s (id, .finish) s') :
      ServerStep c s (id, .finish) (s'.erase id)

def lockCalled (s : State) (x : String × Action) : Option LockRequest :=
  match x.2, (s.threads x.1).map Thread.phase with
  | .lock _, some (.locking (r :: _)) => some r
  | _, _ => none

def unlockCalled (s : State) (x : String × Action) : Option LockRequest :=
  match x.2, (s.threads x.1).map Thread.phase with
  | .unlock, some (.releasing (r :: _)) => some r
  | _, _ => none

/-- A cohort with the locks that each thread has acquired and released since it started. -/
structure Audit where
  state : State
  acquired : String → List LockRequest
  released : String → List LockRequest

def Audit.initial (store : Store String) : Audit :=
  ⟨Cohort.initial store, fun _ => [], fun _ => []⟩

def noted (log : List LockRequest) (act : Action) (called : Option LockRequest) :
    List LockRequest :=
  match act with
  | .start _ => []
  | _ => log ++ called.toList

def noteCall (log : String → List LockRequest) (x : String × Action)
    (called : Option LockRequest) : String → List LockRequest :=
  Function.update log x.1 (noted (log x.1) x.2 called)

inductive AuditStep (c : Adapter) : Audit → String × Action → Audit → Prop
  | mk {a : Audit} {x : String × Action} {s' : State} (hs : ServerStep c a.state x s') :
      AuditStep c a x ⟨s', noteCall a.acquired x (lockCalled a.state x),
        noteCall a.released x (unlockCalled a.state x)⟩

structure Returned (a : Audit) (id : String) : Prop where
  releasedOnce : (a.released id).Perm (a.acquired id)
  distinct : ((a.acquired id).map Locks.Request.name).Nodup
  holdsNothing : ∀ r, ¬Held a.state.mutexes id r
  erased : a.state.metadataByTransactionId id = none
  answered : ∃ r, a.state.finalResponses id = some r ∧ Final r

/-- A lock is held by the threads that have recorded it and not released it, every unlock is of
a lock that is held, and a thread that returns leaves no lock behind. -/
structure ExitsClean (c : Adapter) (a : Audit) : Prop where
  holders : ∀ id r, Held a.state.mutexes id r ↔
    ∃ m, a.state.metadataByTransactionId id = some m ∧ r ∈ heldLocks m ∧ r ∉ a.released id
  unlocks : ∀ id r, unlockCalled a.state (id, .unlock) = some r → Held a.state.mutexes id r
  returns : ∀ id a', AuditStep c a (id, .finish) a' → Returned a' id

/-- The locks that an active thread has acquired and released fit its metadata and phase. -/
structure Account (acquired released : List LockRequest) (t : Thread) : Prop where
  recorded : acquired.Perm (heldLocks t.metadata)
  balance : acquired.Perm (released ++ owed t)
  distinct : ((heldLocks t.metadata).map Locks.Request.name).Nodup
  answered : t.phase.ended → Final t.metadata.response

structure Accounts (c : Adapter) (a : Audit) : Prop where
  holdings : Holdings c a.state
  account : ∀ id t, a.state.threads id = some t → Account (a.acquired id) (a.released id) t

section Steps
variable {c : Adapter} {s s' : State} {id : String} {x : String × Action} {a a' : Audit}

theorem noted_none (log : List LockRequest) {act : Action} (hact : act.movesLocks = false) :
    noted log act none = log := by
  cases act with
  | start request => cases hact
  | _ => exact List.append_nil log

@[simp] theorem noteCall_self (log : String → List LockRequest) (id : String) (act : Action)
    (called : Option LockRequest) : noteCall log (id, act) called id = noted (log id) act called :=
  Function.update_self ..

theorem noteCall_of_ne (log : String → List LockRequest) {id u : String} (act : Action)
    (called : Option LockRequest) (hu : u ≠ id) : noteCall log (id, act) called u = log u :=
  Function.update_of_ne hu ..

theorem lockCalled_eq_none (hx : ∀ b, x.2 ≠ .lock b) : lockCalled s x = none := by
  unfold lockCalled
  split
  · exact absurd ‹_› (hx _)
  · rfl

theorem unlockCalled_eq_none (hx : x.2 ≠ .unlock) : unlockCalled s x = none := by
  unfold unlockCalled
  split
  · exact absurd ‹_› hx
  · rfl

theorem Account.step {act : Action} {acquired released : List LockRequest} (h : Holdings c s)
    (hacc : ∀ t, s.threads id = some t → Account acquired released t) (hs : Step c s (id, act) s')
    (hx : act ≠ .lock false) (hx' : act ≠ .finish) {t' : Thread} (ht' : s'.threads id = some t') :
    Account (noted acquired act (lockCalled s (id, act)))
      (noted released act (unlockCalled s (id, act))) t' := by
  have heffect := hs.lockEffect
  clear hs
  cases heffect with
  | started request orders hid hnew =>
    rw [State.threads_set, Option.some.injEq] at ht'
    subst ht'
    exact ⟨List.Perm.refl _, List.Perm.refl _, List.nodup_nil, fun he => by cases he⟩
  | @took request m r todo mutexes conditionHolds ht ha =>
    cases conditionHolds with
    | false => exact absurd rfl hx
    | true =>
      rw [State.threads_set, Option.some.injEq] at ht'
      subst ht'
      obtain ⟨hrecorded, hbalance, hdistinct, hanswered⟩ := hacc _ ht
      have hfresh := (h.locks id _ ht).fresh
      have hperm := heldLocks_record hfresh
      have hcalled : lockCalled s (id, .lock true) = some r := by simp [lockCalled, ht]
      have hnone : unlockCalled s (id, .lock true) = none := unlockCalled_eq_none (by simp)
      have hadd : (heldLocks m ++ [r]).Perm (heldLocks (record m r)) :=
        (List.perm_append_singleton r _).trans hperm.symm
      rw [hcalled, hnone]
      refine ⟨(hrecorded.append_right [r]).trans hadd, ?_, ?_, fun he => by cases he⟩
      · have hmore : (acquired ++ [r]).Perm (released ++ heldLocks m ++ [r]) :=
          List.Perm.append_right [r] hbalance
        rw [List.append_assoc] at hmore
        change (acquired ++ [r]).Perm (released ++ [] ++ heldLocks (record m r))
        rw [List.append_nil]
        exact hmore.trans (hadd.append_left released)
      · exact (hperm.map _).nodup_iff.mpr (List.nodup_cons.mpr ⟨hfresh, hdistinct⟩)
  | @kept _ _ t t₁ ha ht hthreads hmutexes hrequest hheld howed hwanted hno hended =>
    rw [hthreads, Function.update_self, Option.some.injEq] at ht'
    subst ht'
    obtain ⟨hrecorded, hbalance, hdistinct, hanswered⟩ := hacc _ ht
    have hlock : lockCalled s (id, act) = none := lockCalled_eq_none (by rintro b rfl; cases ha)
    have hunlock : unlockCalled s (id, act) = none := unlockCalled_eq_none (by rintro rfl; cases ha)
    rw [hlock, hunlock, noted_none _ ha, noted_none _ ha]
    exact ⟨hheld ▸ hrecorded, howed ▸ hbalance, hheld ▸ hdistinct, hended⟩
  | @gave request m r todo ht =>
    rw [State.threads_set, Option.some.injEq] at ht'
    subst ht'
    obtain ⟨hrecorded, hbalance, hdistinct, hanswered⟩ := hacc _ ht
    have hcalled : unlockCalled s (id, .unlock) = some r := by simp [unlockCalled, ht]
    rw [hcalled, lockCalled_eq_none (by simp)]
    refine ⟨?_, ?_, hdistinct, fun _ => hanswered rfl⟩
    · change (acquired ++ []).Perm (heldLocks m)
      rwa [List.append_nil]
    · change (acquired ++ []).Perm (released ++ [r] ++ todo)
      rw [List.append_nil, List.append_assoc]
      exact hbalance
  | finished ht => exact absurd rfl hx'

theorem AllThreads.erase {P : String → Thread → Prop} (h : AllThreads P s) (id : String) :
    AllThreads P (s.erase id) := by
  intro u t hu
  by_cases hid : u = id
  · subst hid
    rw [State.threads_erase] at hu
    cases hu
  · rw [State.threads_erase_of_ne s hid] at hu
    exact h u t hu

theorem Holdings.returned (h : Holdings c s) (hs : Step c s (id, .finish) s') :
    Holdings c (s'.erase id) ∧ ∀ r, ¬Held s'.mutexes id r := by
  have hafter := h.step hs (by simp)
  cases hs with
  | finish ht =>
    have hnone (r : LockRequest) (hr : Held s.mutexes id r) : False := by
      cases h.owed_of_held ht hr
    refine ⟨⟨hafter.locks.erase id, hafter.single, ?_⟩, hnone⟩
    intro u r hu
    obtain ⟨t, htu, hr⟩ := hafter.held u r hu
    have hne : u ≠ id := by
      intro hid
      subst hid
      exact hnone r hu
    exact ⟨t, (State.threads_erase_of_ne _ hne).trans htu, hr⟩

theorem Accounts.initial (c : Adapter) (store : Store String) : Accounts c (.initial store) :=
  ⟨.initial c store, fun _ _ ht => by cases ht⟩

theorem Accounts.step (h : Accounts c a) (hs : AuditStep c a x a') (hx : x.2 ≠ .lock false) :
    Accounts c a' := by
  obtain ⟨id, act⟩ := x
  obtain ⟨hs⟩ := hs
  have hother {s' : State} (hs : Step c a.state (id, act) s') {u : String} (hu : u ≠ id) {t : Thread}
      (ht : s'.threads u = some t) :
      Account (noteCall a.acquired (id, act) (lockCalled a.state (id, act)) u)
        (noteCall a.released (id, act) (unlockCalled a.state (id, act)) u) t := by
    have hsame : s'.threads u = a.state.threads u := congrArg Prod.fst (hs.frame hu)
    rw [noteCall_of_ne _ _ _ hu, noteCall_of_ne _ _ _ hu]
    exact h.account u t (hsame ▸ ht)
  cases hs with
  | work hs hx' =>
    refine ⟨h.holdings.step hs hx, ?_⟩
    intro u t ht
    by_cases hu : u = id
    · subst hu
      have hself := Account.step h.holdings (h.account u) hs hx hx' ht
      simpa only [noteCall_self] using hself
    · exact hother hs hu ht
  | returned hs =>
    refine ⟨(h.holdings.returned hs).1, ?_⟩
    intro u t ht
    by_cases hu : u = id
    · subst hu
      rw [State.threads_erase] at ht
      cases ht
    · exact hother hs hu ((State.threads_erase_of_ne _ hu).symm.trans ht)

theorem accounts_run {store : Store String} {xs : List (String × Action)}
    (h : Runs.Run (AuditStep c) (.initial store) xs a) (hgranted : Granted xs) : Accounts c a :=
  Runs.Run.invariant_of_forall (I := fun a => Accounts c a)
    (P := fun x => x.2 ≠ .lock false) (.initial c store)
    (fun _ _ _ hi hs hx => hi.step hs hx) h hgranted.ne

theorem Account.mem_owed_iff {acquired released : List LockRequest} {t : Thread}
    (h : Account acquired released t) (r : LockRequest) :
    r ∈ owed t ↔ r ∈ heldLocks t.metadata ∧ r ∉ released := by
  have hnodup : (released ++ owed t).Nodup :=
    (h.balance.symm.trans h.recorded).nodup_iff.mpr (List.Nodup.of_map _ h.distinct)
  rw [← h.recorded.mem_iff, h.balance.mem_iff, List.mem_append]
  constructor
  · intro hr
    exact ⟨.inr hr, fun hr' => (List.nodup_append'.mp hnodup).2.2 hr' hr⟩
  · intro ⟨hr, hno⟩
    exact hr.resolve_left hno

theorem Accounts.returned (h : Accounts c a) (hs : AuditStep c a (id, .finish) a') :
    Returned a' id := by
  obtain ⟨hs⟩ := hs
  cases hs with
  | work hs hx => exact absurd rfl hx
  | @returned s' _ hs =>
    have hnothing := (h.holdings.returned hs).2
    cases hs with
    | @finish _ request m ht =>
      obtain ⟨hrecorded, hbalance, hdistinct, hanswered⟩ := h.account id _ ht
      have hlock : lockCalled a.state (id, .finish) = none := lockCalled_eq_none (by simp)
      have hunlock : unlockCalled a.state (id, .finish) = none := unlockCalled_eq_none (by simp)
      have hlog (log : String → List LockRequest) : noteCall log (id, .finish) none id = log id := by
        simp [noted]
      rw [hlock, hunlock]
      refine ⟨?_, ?_, hnothing, ?_, m.response, ?_, hanswered rfl⟩
      · simp only [hlog]
        simpa [owed] using hbalance.symm
      · simp only [hlog]
        exact (hrecorded.map _).nodup_iff.mpr hdistinct
      · simp [State.metadataByTransactionId]
      · simp [State.setFinalResponse, State.set, State.erase]

/-- Whatever way a thread returns, it has released each lock it acquired once and no other. -/
theorem exits_clean {store : Store String} {xs : List (String × Action)}
    (h : Runs.Run (AuditStep c) (.initial store) xs a) (hgranted : Granted xs) : ExitsClean c a := by
  have hacc := accounts_run h hgranted
  refine ⟨?_, ?_, fun id a' hs => hacc.returned hs⟩
  · intro id r
    constructor
    · intro hr
      obtain ⟨t, ht, hr⟩ := hacc.holdings.held id r hr
      obtain ⟨hrecorded, hno⟩ := ((hacc.account id t ht).mem_owed_iff r).mp hr
      exact ⟨t.metadata, by rw [State.metadataByTransactionId, ht]; rfl, hrecorded, hno⟩
    · intro ⟨m, hm, hrecorded, hno⟩
      obtain ⟨t, ht, rfl⟩ := Option.map_eq_some_iff.mp hm
      exact (hacc.holdings.locks id t ht).owned.held r
        (((hacc.account id t ht).mem_owed_iff r).mpr ⟨hrecorded, hno⟩)
  · intro id r hr
    unfold unlockCalled at hr
    split at hr
    · rename_i r' todo _ hphase
      obtain rfl := Option.some.inj hr
      obtain ⟨t, ht, hrel⟩ := Option.map_eq_some_iff.mp hphase
      refine (hacc.holdings.locks id t ht).owned.held r' ?_
      rw [owed, hrel]
      exact List.mem_cons_self
    · cases hr

end Steps

def putActions : List (String × Action) :=
  [("a", .start (putRequest "a")), ("a", .lock true), ("a", .begin none), ("a", .operate none),
    ("a", .endOperations), ("a", .commit none), ("a", .unlock)]

theorem putActions_granted : Granted putActions := by
  intro id h
  simp [putActions] at h

theorem putActions_run : ∃ a, Runs.Run (AuditStep localAdapter) (.initial fun _ => none) putActions a ∧
    a.state.mutexes .wholeDb = .shared [] ∧
    (a.state.metadataByTransactionId "a").map (·.hasWholeDbWriteLock) = some true := by
  refine ⟨_, .cons (.mk (.work (.start (putRequest "a") keyOrders rfl rfl) (by simp)))
    (.cons (.mk (.work (.lock true rfl rfl) (by simp)))
    (.cons (.mk (.work (.begin rfl) (by simp)))
    (.cons (.mk (.work (.operate rfl (by simp)) (by simp)))
    (.cons (.mk (.work (.endOperations rfl) (by simp)))
    (.cons (.mk (.work (.commit rfl) (by simp)))
    (.cons (.mk (.work (.unlock rfl) (by simp))) .nil)))))), rfl, rfl⟩

/-- The holders of each mutex are the threads whose metadata records it. -/
def HoldersRecorded (s : State) : Prop := ∀ id r, Held s.mutexes id r ↔
  ∃ m, s.metadataByTransactionId id = some m ∧ r ∈ heldLocks m

/-- While the locks are given back the metadata still records those that are free again. -/
theorem recorded_not_held : ∃ xs a, Runs.Run (AuditStep localAdapter) (.initial fun _ => none) xs a ∧
    Granted xs ∧ ¬HoldersRecorded a.state := by
  obtain ⟨a, hrun, hfree, hrecorded⟩ := putActions_run
  refine ⟨putActions, a, hrun, putActions_granted, ?_⟩
  intro h
  obtain ⟨m, hm, hflag⟩ := Option.map_eq_some_iff.mp hrecorded
  have hheld : Held a.state.mutexes "a" ⟨.wholeDb, .write⟩ := by
    refine (h _ _).mpr ⟨m, hm, ?_⟩
    simp [heldLocks, wholeDbLock, hflag]
  rw [Held, hfree] at hheld
  cases hheld

/-- The put of one key, also after its unlock. -/
theorem exits_clean_put : ∃ a, Runs.Run (AuditStep localAdapter) (.initial fun _ => none) putActions a ∧
    ExitsClean localAdapter a := by
  obtain ⟨a, hrun, _⟩ := putActions_run
  exact ⟨a, hrun, exits_clean hrun putActions_granted⟩

end TwoPhaseCommit.Cohort
