import TwoPhaseCommit.CohortProgram
import TwoPhaseCommit.LmdbHandles

/-! CommitTransaction over the LMDB adapter when LMDB fails to commit. -/
namespace TwoPhaseCommit.CohortServer
open Cohort Database Locks Db Programs Programs.Program

def lmdbCohort : Adapter := ⟨lmdb.supportsConcurrentWrites, LMDBDatabaseTransactionAdapter.getFailed⟩

/-- What the thread of a transaction works on: its database adapter and the mutexes. -/
structure Site (ε τ ι : Type) where
  db : Handles ε τ ι
  mutexes : Table LockName String

section Site
variable {ε τ ι : Type} (lib : Lmdbxx ε τ ι) (id : String) (outside : (c : Call) → Reply c)

def Site.reply (s : Site ε τ ι) : (c : Call) → Except LmdbError (Reply c) × Site ε τ ι
  | .commit => ((s.db.commit lib).1, { s with db := (s.db.commit lib).2 })
  | .unlock r => (.ok (), { s with mutexes := s.mutexes.release r id })
  | c => (.ok (outside c), s)

/-- CommitTransaction on a database adapter and the mutexes. -/
def committing (m : Metadata) (retries : ℕ) (s : Site ε τ ι) :
    Except LmdbError (Option GetTransactionResultResponse) × Site ε τ ι :=
  attempt (Site.reply lib id outside) (commitTransaction m retries) s

end Site

/-- Commits of the storage fail a number of times and then work. A commit that fails throws, and
its transaction is aborted and freed. -/
structure FailsThenWorks {ε τ ι : Type} (lib : Lmdbxx ε τ ι) (contents : ε → Contents τ ι)
    (failures : ε → ℕ) : Prop where
  fails : ∀ env stored txn, contents env = ⟨stored, some txn⟩ → 0 < failures env →
    ∃ e env', lib.commit txn.txn env = (.error e, env') ∧ contents env' = ⟨stored, none⟩ ∧
      failures env' + 1 = failures env
  works : ∀ env stored txn, contents env = ⟨stored, some txn⟩ → failures env = 0 →
    ∃ env', lib.commit txn.txn env = (.ok (), env') ∧ contents env' = ⟨txn.pairs, none⟩ ∧
      failures env' = 0

def HasOpen {ε τ ι : Type} (contents : ε → Contents τ ι) (store : Store String) (m : Metadata)
    (d : Handles ε τ ι) : Prop :=
  ∃ txn, m.db = some txn ∧ Represents contents d ⟨store, some txn.writes, txn.readOnly⟩

/-- A thread that is about to commit in a cohort, with its LMDB adapter. -/
structure Prepared {ε τ ι : Type} (contents : ε → Contents τ ι) (k : Cohort.State) (id : String)
    (m : Metadata) (d : Handles ε τ ι) : Prop where
  thread : ∃ request, k.threads id = some ⟨request, m, .committing⟩
  db : HasOpen contents k.store m d

/-- CommitTransaction returns with the puts of the transaction in the store, the committed
response and no lock held, and an attempt that fails leaves the transaction open. -/
structure Survives {ε τ ι : Type} (lib : Lmdbxx ε τ ι) (contents : ε → Contents τ ι)
    (outside : (c : Call) → Reply c) (k : Cohort.State) (id : String) (m : Metadata)
    (d : Handles ε τ ι) : Prop where
  returns : ∃ retries s', committing lib id outside m retries ⟨d, k.mutexes⟩ =
      (.ok (some (some (.committedResponse m.response.committed))), s') ∧
    contents s'.db.env = ⟨encoded (commitStore k.store m), none⟩ ∧ ∀ r, ¬Held s'.mutexes id r
  ready : ∀ e, (d.commit lib).1 = .error e → HasOpen contents k.store m (d.commit lib).2

section Survives
variable {ε τ ι : Type} {lib : Lmdbxx ε τ ι} {contents : ε → Contents τ ι} {failures : ε → ℕ}
  {outside : (c : Call) → Reply c} {store : Store String} {xs : List (String × Action)}
  {k : Cohort.State} {id : String} {m : Metadata} {d : Handles ε τ ι}

theorem attempt_unlockAll (rs : List LockRequest) (s : Site ε τ ι) :
    attempt (Site.reply lib id outside) (unlockAll rs) s =
      (.ok (), { s with mutexes := rs.foldl (fun T r => T.release r id) s.mutexes }) := by
  induction rs generalizing s with
  | nil => rfl
  | cons r rs ih =>
    have hcall : Site.reply lib id outside s (.unlock r) =
        (.ok (), { s with mutexes := s.mutexes.release r id }) := rfl
    rw [unlockAll, perform_bind, attempt_call hcall]
    exact ih _

/-- A commit that fails is thrown out of CommitTransaction, whatever the number of retries. -/
theorem committing_throws {e : LmdbError} {s : Site ε τ ι} (h : (s.db.commit lib).1 = .error e)
    (retries : ℕ) : (committing lib id outside m retries s).1 = .error e := by
  have hcall : Site.reply lib id outside s .commit =
      (.error e, { s with db := (s.db.commit lib).2 }) := by rw [Site.reply, h]
  cases retries with
  | zero => rw [committing, commitTransaction, commitOr, perform_bind, attempt_throw hcall]
  | succ retries => rw [committing, commitTransaction, commitOr, perform_bind, attempt_throw hcall]

theorem committing_returns {s : Site ε τ ι} (h : (s.db.commit lib).1 = .ok .okStatus) :
    committing lib id outside m 0 s =
      (.ok (some (committedMetadata m).response), ⟨(s.db.commit lib).2,
        (heldLocks m).foldl (fun T r => T.release r id) s.mutexes⟩) := by
  have hcall : Site.reply lib id outside s .commit =
      (.ok Status.okStatus, { s with db := (s.db.commit lib).2 }) := by rw [Site.reply, h]
  rw [committing, commitTransaction, commitOr, perform_bind, attempt_call hcall]
  have hok : Status.okStatus.isOk = true := rfl
  rw [if_pos hok]
  have hrelease : attempt (Site.reply lib id outside)
      (releaseLocksAndDeleteMetadata (committedMetadata m)) { s with db := (s.db.commit lib).2 } =
      (.ok (committedMetadata m).response, ⟨(s.db.commit lib).2,
        (heldLocks m).foldl (fun T r => T.release r id) s.mutexes⟩) := by
    rw [releaseLocksAndDeleteMetadata, attempt_bind (attempt_unlockAll _ _)]
    rfl
  rw [attempt_bind hrelease]
  rfl

theorem HasOpen.commit (h : HasOpen contents k.store m d)
    (hlib : FailsThenWorks lib contents failures) :
    (0 < failures d.env → ∃ e, (d.commit lib).1 = .error e ∧
        ¬HasOpen contents k.store m (d.commit lib).2) ∧
      (failures d.env = 0 → (d.commit lib).1 = .ok .okStatus ∧
        contents (d.commit lib).2.env = ⟨encoded (commitStore k.store m), none⟩) := by
  obtain ⟨txn, hm, hd⟩ := h
  cases hd with
  | @opened env _ _ _ t dbi hc =>
    constructor
    · intro hf
      obtain ⟨e, env', hcommit, hc', _⟩ := hlib.fails env _ _ hc hf
      have hnow : Handles.commit lib ⟨env, txn.readOnly, some t, some dbi⟩ =
          (.error e, ⟨env', txn.readOnly, some t, some dbi⟩) := by simp only [Handles.commit, hcommit]
      rw [hnow]
      refine ⟨e, rfl, ?_⟩
      -- The handle is still set, but there is no transaction behind it.
      rintro ⟨txn', hm', hd'⟩
      obtain rfl := Option.some.inj (hm.symm.trans hm')
      cases hd' with
      | opened hc'' =>
        rw [hc'] at hc''
        cases hc''
    · intro hf
      obtain ⟨env', hcommit, hc', _⟩ := hlib.works env _ _ hc hf
      have hnow : Handles.commit lib ⟨env, txn.readOnly, some t, some dbi⟩ =
          (.ok .okStatus, ⟨env', txn.readOnly, none, none⟩) := by
        simp only [Handles.commit, hcommit]
        rfl
      rw [hnow]
      refine ⟨rfl, ?_⟩
      rw [hc', commitStore, hm]
      rfl

/-- A decided commit survives if and only if the first commit of the storage works. -/
theorem survives_iff (hlib : FailsThenWorks lib contents failures)
    (hrun : Cohort.Run lmdbCohort store xs k) (hp : Prepared contents k id m d) :
    Survives lib contents outside k id m d ↔ failures d.env = 0 := by
  obtain ⟨hfails, hworks⟩ := hp.db.commit hlib
  constructor
  · intro h
    by_contra hf
    obtain ⟨e, hcommit, _⟩ := hfails (Nat.pos_of_ne_zero hf)
    obtain ⟨retries, s', hreturns, _⟩ := h.returns
    have hthrows : (committing lib id outside m retries ⟨d, k.mutexes⟩).1 = .error e :=
      committing_throws hcommit retries
    rw [hreturns] at hthrows
    cases hthrows
  · intro hf
    obtain ⟨hcommit, hstored⟩ := hworks hf
    refine ⟨⟨0, _, committing_returns hcommit, hstored, ?_⟩, fun e he => ?_⟩
    · obtain ⟨request, ht⟩ := hp.thread
      have hholds := holdsOnly_run hrun
      exact not_held_releaseAll hholds.single (hholds.locks id _ ht).owned fun q hq =>
        hholds.owed_of_held ht (.inr rfl) hq
    · rw [hcommit] at he
      cases he

end Survives

abbrev Disk := ℕ × Contents Unit Unit

def fullDisk : Lmdbxx Disk Unit Unit where
  beginTxn readOnly c := ((memory.beginTxn readOnly c.2).1, c.1, (memory.beginTxn readOnly c.2).2)
  openDbi txn c := ((memory.openDbi txn c.2).1, c.1, (memory.openDbi txn c.2).2)
  commit txn c :=
    match c.1 with
    | 0 => ((memory.commit txn c.2).1, 0, (memory.commit txn c.2).2)
    | n + 1 => (.error ⟨"mdb_txn_commit", 28⟩, n, { c.2 with current := none })
  abort txn c := (c.1, memory.abort txn c.2)
  get dbi txn key c := memory.get dbi txn key c.2
  put dbi txn key val c :=
    ((memory.put dbi txn key val c.2).1, c.1, (memory.put dbi txn key val c.2).2)

theorem fullDisk_failsThenWorks : FailsThenWorks fullDisk Prod.snd Prod.fst where
  fails env stored txn hc hf := by
    obtain ⟨_ | n, c⟩ := env
    · cases hf
    · obtain rfl : c = _ := hc
      exact ⟨_, _, rfl, rfl, rfl⟩
  works env stored txn hc hf := by
    obtain ⟨n, c⟩ := env
    obtain rfl : c = _ := hc
    obtain rfl : n = 0 := hf
    exact ⟨_, rfl, rfl, rfl⟩

def defaultReply : (c : Call) → Reply c
  | .lockWhenWithDeadline _ _ | .writeResponse _ _ | .writeRequest _ _ => true
  | .begin | .beginReadOnly | .put _ _ | .commit | .abort | .vote _ _ _ => Status.okStatus
  | .get _ => (.okStatus, 0)
  | .getVotingDecision _ => .ok .commit
  | .unlock _ => ()

def putPreparing : List (String × Action) :=
  [("a", .start (putRequest "a")), ("a", .lock true), ("a", .begin none), ("a", .operate none),
    ("a", .endOperations)]

theorem put_prepared (failures : ℕ) : ∃ k m, ∃ d : Handles Disk Unit Unit,
    Cohort.Run lmdbCohort (fun _ => none) putPreparing k ∧ Prepared Prod.snd k "a" m d ∧
    d.env.1 = failures := by
  refine ⟨_, _, ⟨(failures, _), _, some (), some ()⟩,
    .cons (.start (putRequest "a") keyOrders rfl rfl)
    (.cons (.lock true rfl rfl) (.cons (.begin rfl) (.cons (.operate rfl (by simp))
    (.single (.endOperations rfl))))), ⟨⟨_, rfl⟩, _, rfl, .opened rfl⟩, rfl⟩

/-- The put survives on a disk with space. -/
theorem put_survives : ∃ k m, ∃ d : Handles Disk Unit Unit, d.env.1 = 0 ∧
    Survives fullDisk Prod.snd defaultReply k "a" m d := by
  obtain ⟨k, m, d, hrun, hp, hd⟩ := put_prepared 0
  exact ⟨k, m, d, hd, (survives_iff fullDisk_failsThenWorks hrun hp).mpr hd⟩

/-- One commit that finds no space loses the put, although the next one would work. -/
theorem put_lost : ∃ k m, ∃ d : Handles Disk Unit Unit,
    Cohort.Run lmdbCohort (fun _ => none) putPreparing k ∧ Prepared Prod.snd k "a" m d ∧
    d.env.1 = 1 ∧ ¬Survives fullDisk Prod.snd defaultReply k "a" m d := by
  obtain ⟨k, m, d, hrun, hp, hd⟩ := put_prepared 1
  refine ⟨k, m, d, hrun, hp, hd, fun h => ?_⟩
  have hpos : 0 < d.env.1 := by omega
  obtain ⟨e, hcommit, hclosed⟩ := (hp.db.commit fullDisk_failsThenWorks).1 hpos
  exact hclosed (h.ready e hcommit)

end TwoPhaseCommit.CohortServer
