import TwoPhaseCommit.CohortProgram

/-! Which mutexes a transaction asks for: each of them once, in the strongest mode it needs. -/
namespace TwoPhaseCommit.CohortServer
open Cohort Database Programs Programs.Program

def lockRequest : Event → Option LockRequest
  | ⟨.lockWhenWithDeadline r _, _⟩ => some r
  | _ => none

/-- The mutexes that are asked for among some calls, in order. -/
def requests (es : List Event) : List LockRequest := es.filterMap lockRequest

theorem requests_append (es es' : List Event) :
    requests (es ++ es') = requests es ++ requests es' := List.filterMap_append

section LockAll
variable {deadline : ℤ} {rs : List LockRequest} {m m' : Metadata} {es : List Event}

theorem requests_lockAll {p : Process (Status × Metadata)}
    (h : Steps (lockAll deadline rs m) es p) : requests es <+: rs := by
  induction rs generalizing m es with
  | nil =>
    cases h
    exact List.nil_prefix
  | cons r rs ih =>
    rw [lockAll, perform_bind] at h
    cases h with
    | refl => exact List.nil_prefix
    | call granted h =>
      refine List.cons_prefix_cons.mpr ⟨rfl, ?_⟩
      cases granted with
      | true => exact ih h
      | false =>
        cases h
        exact List.nil_prefix

theorem requests_ne_nil {result : Status × Metadata} (hrs : rs ≠ [])
    (h : Steps (lockAll deadline rs m) es (.ret result)) : requests es ≠ [] := by
  obtain ⟨r, rs, rfl⟩ := List.exists_cons_of_ne_nil hrs
  rw [lockAll] at h
  obtain ⟨granted, es, rfl, -⟩ := h.ret_of_perform
  exact List.cons_ne_nil _ _

theorem lockAll_ok {status : Status} (hok : status.isOk)
    (h : Steps (lockAll deadline rs m) es (.ret (status, m'))) :
    requests es = rs ∧ m' = rs.foldl record m := by
  induction rs generalizing m es with
  | nil =>
    cases h
    exact ⟨rfl, rfl⟩
  | cons r rs ih =>
    rw [lockAll] at h
    obtain ⟨granted, es, rfl, hrest⟩ := h.ret_of_perform
    cases granted with
    | true =>
      obtain ⟨hes, hm⟩ := ih hrest
      exact ⟨congrArg (r :: ·) hes, hm⟩
    | false =>
      cases hrest
      simp [lockError, Status.isOk] at hok

theorem steps_lockAll_granted (deadline : ℤ) (rs : List LockRequest) (m : Metadata) :
    Steps (lockAll deadline rs m) (rs.map fun r => ⟨.lockWhenWithDeadline r deadline, true⟩)
      (.ret (.okStatus, rs.foldl record m)) := by
  induction rs generalizing m with
  | nil => exact .refl _
  | cons r rs ih =>
    rw [lockAll, perform_bind]
    refine .call _ ?_
    exact ih (record m r)

end LockAll

theorem foldl_record_read (keys : List String) (m : Metadata) :
    (keys.map fun k => (⟨.key k, .read⟩ : LockRequest)).foldl record m =
      { m with readLockKeys := m.readLockKeys ++ keys } := by
  induction keys generalizing m with
  | nil => simp
  | cons k keys ih =>
    rw [List.map_cons, List.foldl_cons, ih]
    simp [record]

theorem foldl_record_write (keys : List String) (m : Metadata) :
    (keys.map fun k => (⟨.key k, .write⟩ : LockRequest)).foldl record m =
      { m with writeLockKeys := m.writeLockKeys ++ keys } := by
  induction keys generalizing m with
  | nil => simp
  | cons k keys ih =>
    rw [List.map_cons, List.foldl_cons, ih]
    simp [record]

def AsksNoLock : Call → Prop
  | .lockWhenWithDeadline _ _ => False
  | _ => True

section Requests
variable {α β : Type} {p : Process α} {f : α → Process β} {es : List Event}

theorem requests_eq_nil {p' : Process α} (hp : Makes AsksNoLock p) (h : Steps p es p') :
    requests es = [] := by
  refine List.filterMap_eq_nil_iff.mpr fun e he => ?_
  have hno := hp.steps h e he
  obtain ⟨c, r⟩ := e
  cases c <;> first | rfl | cases hno

theorem requests_bind {rs : List LockRequest} {q : Process β}
    (hp : ∀ es p', Steps p es p' → requests es <+: rs) (hf : ∀ a, Makes AsksNoLock (f a))
    (h : Steps (p >>= f) es q) : requests es <+: rs := by
  obtain ⟨p', hs, -⟩ | ⟨es₁, es₂, a, rfl, hs, hrest⟩ := h.of_bind
  · exact hp es p' hs
  · rw [requests_append, requests_eq_nil (hf a) hrest, List.append_nil]
    exact hp es₁ _ hs

end Requests

theorem requests_processTransactionInDb {server : Server} {transaction : Transaction}
    {deadline : ℤ} {m : Metadata} (es : List Event) (p : Process (Status × Metadata))
    (h : Steps (processTransactionInDb server transaction deadline m) es p) :
    requests es <+: server.locks transaction.ops := by
  refine requests_bind (fun _ _ hs => requests_lockAll hs) (fun locked => ?_) h
  split_ifs
  · exact .pure _
  · refine (makes_begin trivial trivial locked.2).bind fun begun => ?_
    split_ifs
    · exact .pure _
    · exact makes_operations (fun _ => trivial) (fun _ _ => trivial) transaction.ops locked.2

theorem requests_processTransaction {unset : AbortReason} {retries : ℕ} {server : Server}
    {request : PrepareTransactionRequest} {es : List Event}
    {p : Process (Option GetTransactionResultResponse)}
    (h : Steps (processTransaction unset retries server request) es p) :
    requests es <+: server.locks request.transaction.ops := by
  have habort (status : Option Status) (m : Metadata) : Makes AsksNoLock
      (abortTransaction unset request.transactionId request.cohortIndex status m) :=
    makes_abortTransaction (fun _ => trivial) (fun _ _ _ => trivial) trivial unset _ _ status m
  have hcommit (m : Metadata) : Makes AsksNoLock (commitTransaction m retries) :=
    makes_commitTransaction (fun _ => trivial) trivial m retries
  refine requests_bind requests_processTransactionInDb (fun inDb => ?_) h
  split_ifs
  · exact (habort _ _).bind fun _ => .pure _
  · exact hcommit _
  · refine (makes_persistTransaction (fun _ _ => trivial) (fun _ _ => trivial) server request
      inDb.2).bind fun persisted => ?_
    split_ifs
    · exact (habort _ _).bind fun _ => .pure _
    · refine .perform trivial fun _ => ?_
      refine (makes_waitForBlockchainDecision trivial retries).bind fun decision => ?_
      obtain _ | _ | _ | _ | _ := decision
      · exact .pure _
      all_goals first | exact hcommit _ | exact (habort _ _).bind fun _ => .pure _

def Lists (l keys : List String) : Prop := l.Nodup ∧ ∀ k, k ∈ l ↔ k ∈ keys

/-- What a server with a mutex for each key does with the keys of a transaction. -/
structure LocksKeysOnce (server : Server) (transaction : Transaction) : Prop where
  writeKeys : ∀ k, k ∈ (keySets transaction.ops).writeKeys ↔ PutsKey transaction.ops k
  readonlyKeys : ∀ k, k ∈ (keySets transaction.ops).readonlyKeys ↔
    GetsKey transaction.ops k ∧ ¬PutsKey transaction.ops k
  disjoint : (keySets transaction.ops).readonlyKeys.Disjoint (keySets transaction.ops).writeKeys
  once : ∀ unset retries request es p, request.transaction = transaction →
    Steps (processTransaction unset retries server request) es p →
      ((requests es).map Locks.Request.name).Nodup
  succeeds : ∀ deadline, ∃ es m,
    Steps (acquireDbLocks server transaction deadline newMetadata) es (.ret (.okStatus, m))
  acquired : ∀ deadline es status m,
    Steps (acquireDbLocks server transaction deadline newMetadata) es (.ret (status, m)) →
      status.isOk →
        Lists m.readLockKeys (keySets transaction.ops).readonlyKeys ∧
          Lists m.writeLockKeys (keySets transaction.ops).writeKeys ∧
            ∀ r, r ∈ requests es ↔
              (∃ k ∈ m.readLockKeys, r = ⟨.key k, .read⟩) ∨ ∃ k ∈ m.writeLockKeys, r = ⟨.key k, .write⟩

/-- What a server with one mutex for the whole database does with it. -/
structure LocksWholeDbOnce (server : Server) (transaction : Transaction) : Prop where
  once : ∀ unset retries request es p, request.transaction = transaction →
    Steps (processTransaction unset retries server request) es p → (requests es).length ≤ 1
  acquired : ∀ deadline m es result,
    Steps (acquireDbLocks server transaction deadline m) es (.ret result) →
      (requests es = [⟨.wholeDb, .write⟩] ↔ ∃ k, PutsKey transaction.ops k) ∧
        (requests es = [⟨.wholeDb, .read⟩] ↔
          (∃ k, GetsKey transaction.ops k) ∧ ¬∃ k, PutsKey transaction.ops k) ∧
        (requests es = [] ↔
          (¬∃ k, GetsKey transaction.ops k) ∧ ¬∃ k, PutsKey transaction.ops k)

section Plan
variable {server : Server} {ops : List Operation}

theorem any_isPut : ops.any isPut ↔ ∃ k, PutsKey ops k := by
  rw [List.any_eq_true]
  constructor
  · rintro ⟨⟨n, _ | g | p⟩, hop, hput⟩
    · cases hput
    · cases hput
    · exact ⟨p.key, _, hop, p, rfl, rfl⟩
  · rintro ⟨k, op, hop, p, hp, -⟩
    exact ⟨op, hop, by simp [isPut, hp]⟩

theorem any_isGet : ops.any isGet ↔ ∃ k, GetsKey ops k := by
  rw [List.any_eq_true]
  constructor
  · rintro ⟨⟨n, _ | g | p⟩, hop, hget⟩
    · cases hget
    · exact ⟨g.key, _, hop, g, rfl, rfl⟩
    · cases hget
  · rintro ⟨k, op, hop, g, hg, -⟩
    exact ⟨op, hop, by simp [isGet, hg]⟩

theorem length_wholeDbLocks (ops : List Operation) : (wholeDbLocks ops).length ≤ 1 := by
  unfold wholeDbLocks
  split_ifs <;> simp

/-- AcquireWholeDbLock asks for its one mutex even when the deadline passes. -/
theorem requests_wholeDb {deadline : ℤ} {m : Metadata} {es : List Event}
    {result : Status × Metadata}
    (h : Steps (lockAll deadline (wholeDbLocks ops) m) es (.ret result)) :
    requests es = wholeDbLocks ops := by
  have hprefix := requests_lockAll h
  refine hprefix.eq_of_length_le ?_
  by_cases hplan : wholeDbLocks ops = []
  · simp [hplan]
  · exact (length_wholeDbLocks ops).trans (List.length_pos_iff.mpr (requests_ne_nil hplan h))

theorem nodup_requests {es : List Event} (h : requests es <+: server.locks ops) :
    ((requests es).map Locks.Request.name).Nodup :=
  (h.sublist.map _).nodup (dbLocks_nodup _ server.orders ops)

theorem locks_of_keys (h : server.supportsConcurrentWrites) : server.locks ops =
    (server.orders.read.arrange (keySets ops).readonlyKeys).map (fun k => ⟨.key k, .read⟩) ++
      (server.orders.write.arrange (keySets ops).writeKeys).map fun k => ⟨.key k, .write⟩ := by
  simp [Server.locks, dbLocks, h]

theorem locks_of_wholeDb (h : server.supportsConcurrentWrites = false) :
    server.locks ops = wholeDbLocks ops := by
  simp [Server.locks, dbLocks, h]

theorem lists_arrange (order : Grouping.IterationOrder String) {keys : List String}
    (h : keys.Nodup) : Lists (order.arrange keys) keys :=
  ⟨(order.perm keys).nodup_iff.mpr h, fun _ => (order.perm keys).mem_iff⟩

end Plan

theorem locksKeysOnce {server : Server} (h : server.supportsConcurrentWrites)
    (transaction : Transaction) : LocksKeysOnce server transaction := by
  have hsets := keySets_exact transaction.ops
  refine ⟨hsets.mem_writeKeys, hsets.mem_readonlyKeys, ?_, ?_, ?_, ?_⟩
  · intro k hr hw
    exact ((hsets.mem_readonlyKeys k).mp hr).2 ((hsets.mem_writeKeys k).mp hw)
  · rintro unset retries request es p rfl hs
    exact nodup_requests (requests_processTransaction hs)
  · intro deadline
    exact ⟨_, _, steps_lockAll_granted deadline _ newMetadata⟩
  · intro deadline es status m hs hok
    rw [acquireDbLocks, locks_of_keys h] at hs
    obtain ⟨hrequests, rfl⟩ := lockAll_ok hok hs
    rw [List.foldl_append, foldl_record_read, foldl_record_write, hrequests]
    refine ⟨lists_arrange _ hsets.readNodup, lists_arrange _ hsets.writeNodup, fun r => ?_⟩
    simp [newMetadata, eq_comm]

theorem locksWholeDbOnce {server : Server} (h : server.supportsConcurrentWrites = false)
    (transaction : Transaction) : LocksWholeDbOnce server transaction := by
  constructor
  · rintro unset retries request es p rfl hs
    have hprefix := requests_processTransaction hs
    rw [locks_of_wholeDb h] at hprefix
    exact hprefix.length_le.trans (length_wholeDbLocks _)
  · intro deadline m es result hs
    rw [acquireDbLocks, locks_of_wholeDb h] at hs
    rw [requests_wholeDb hs, wholeDbLocks]
    simp only [← any_isPut, ← any_isGet]
    split_ifs with hput hget <;> simp [*]

/-- AcquireDbLocks asks for each mutex once, in the strongest mode that the operations need. -/
theorem acquireDbLocks_locks_once (server : Server) (transaction : Transaction) :
    if server.supportsConcurrentWrites then LocksKeysOnce server transaction
    else LocksWholeDbOnce server transaction := by
  split_ifs with h
  · exact locksKeysOnce h transaction
  · exact locksWholeDbOnce (by simpa using h) transaction

end TwoPhaseCommit.CohortServer
