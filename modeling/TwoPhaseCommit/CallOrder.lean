import TwoPhaseCommit.CohortProgram
import TwoPhaseCommit.LmdbAdapter

/-! The order in which ProcessTransaction calls its database: a state machine of the legal calls
that accepts every run, whatever the calls reply. -/
namespace TwoPhaseCommit.CohortServer
open Cohort Database Programs Programs.Program

/-- What has become of the transaction of an adapter. -/
inductive Mode where
  | fresh
  | notBegun
  | opened (readOnly : Bool)
  -- After a Commit that failed.
  | committing
  | closed
  deriving DecidableEq

/-- The locks held and the mode of the adapter. -/
structure Usage where
  held : List LockRequest
  mode : Mode

def Usage.start : Usage := ⟨[], .fresh⟩

def Mode.canAccess : Mode → Bool
  | .opened _ => true
  | _ => false

def Mode.canCommit : Mode → Bool
  | .opened _ => true
  | .committing => true
  | _ => false

def Mode.canAbort : Mode → Bool
  | .fresh => true
  | .notBegun => true
  | .opened _ => true
  | _ => false

def Server.writeLock (server : Server) (key : String) : LockRequest :=
  ⟨lockFor ⟨server.supportsConcurrentWrites, .okStatus⟩ key, .write⟩

/-- A begin is legal once, with all the locks of the operations held, and a read-only one only
when none of them puts. -/
def Usage.begun (server : Server) (ops : List Operation) (readOnly : Bool) (status : Status)
    (u : Usage) : Option Usage :=
  if u.mode = .fresh ∧ (∀ r ∈ server.locks ops, r ∈ u.held) ∧
      (readOnly → ∀ op ∈ ops, isPut op = false) then
    some { u with mode := if status.isOk then .opened readOnly else .notBegun }
  else none

/-- The legal calls; none is an illegal one. -/
def Usage.next (server : Server) (ops : List Operation) (u : Usage) : Event → Option Usage
  | ⟨.lockWhenWithDeadline r _, granted⟩ =>
    some (if granted then { u with held := r :: u.held } else u)
  | ⟨.unlock r, _⟩ => some { u with held := u.held.erase r }
  | ⟨.begin, status⟩ => u.begun server ops false status
  | ⟨.beginReadOnly, status⟩ => u.begun server ops true status
  | ⟨.get _, _⟩ => if u.mode.canAccess then some u else none
  | ⟨.put key _, _⟩ =>
    if u.mode = .opened false ∧ server.writeLock key ∈ u.held then some u else none
  | ⟨.commit, status⟩ =>
    if u.mode.canCommit then
      some { u with mode := if status.isOk then .closed else .committing }
    else none
  | ⟨.abort, _⟩ => if u.mode.canAbort then some { u with mode := .closed } else none
  | _ => some u

section Runs
variable {server : Server} {ops : List Operation} {u : Usage}

theorem pre_lockAll (deadline : ℤ) (rs : List LockRequest) (m : Metadata)
    (hfresh : u.mode = .fresh) :
    Pre (Usage.next server ops) (fun a u' => u'.mode = .fresh ∧
        (a.1.isOk → a.2 = rs.foldl record m ∧ ∀ r, r ∈ rs ∨ r ∈ u.held → r ∈ u'.held))
      (lockAll deadline rs m) u := by
  induction rs generalizing m u with
  | nil => exact .pure ⟨hfresh, fun _ => ⟨rfl, by simp⟩⟩
  | cons r rs ih =>
    refine .perform fun granted => ?_
    cases granted with
    | false => exact ⟨u, rfl, hfresh, fun hok => by cases hok⟩
    | true =>
      refine ⟨_, rfl, (ih (u := { u with held := r :: u.held }) (record m r) hfresh).mono ?_⟩
      intro a u' ⟨hmode, hdone⟩
      refine ⟨hmode, fun hok => ⟨(hdone hok).1, fun r' hr' => (hdone hok).2 r' ?_⟩⟩
      simp only [List.mem_cons] at hr' ⊢
      tauto

theorem pre_begin {m : Metadata} (hfresh : u.mode = .fresh)
    (hheld : ∀ r ∈ server.locks ops, r ∈ u.held)
    (hputs : Db.beginsReadOnly m → ∀ op ∈ ops, isPut op = false) :
    Pre (Usage.next server ops) (fun status u' => u'.held = u.held ∧
        u'.mode = if status.isOk then .opened (Db.beginsReadOnly m) else .notBegun)
      (begin m) u := by
  have hbegun (readOnly : Bool) (hread : readOnly → Db.beginsReadOnly m) (status : Status) :
      u.begun server ops readOnly status =
        some { u with mode := if status.isOk then .opened readOnly else .notBegun } :=
    if_pos ⟨hfresh, hheld, fun h => hputs (hread h)⟩
  rw [CohortServer.begin]
  split_ifs with hread
  · exact fun status => ⟨_, hbegun true (fun _ => hread) status, rfl, by
      rw [Db.beginsReadOnly, hread]⟩
  · rw [Bool.not_eq_true] at hread
    exact fun status => ⟨_, hbegun false (fun h => by cases h) status, rfl, by
      rw [Db.beginsReadOnly, hread]⟩

def CanPut (server : Server) (u : Usage) (key : String) : Prop :=
  u.mode = .opened false ∧ server.writeLock key ∈ u.held

theorem pre_putInDb {key : String} (hput : CanPut server u key) (value : Int64) (m : Metadata) :
    Pre (Usage.next server ops) (fun _ u' => u' = u) (putInDb key value m) u :=
  .perform fun _ => ⟨u, if_pos hput, rfl⟩

theorem pre_get {α : Type} {post : α → Usage → Prop} (hopen : u.mode.canAccess) {key : String}
    {f : Status × Int64 → Process α}
    (hf : ∀ found, Pre (Usage.next server ops) post (f found) u) :
    Pre (Usage.next server ops) post (perform (Call.get key) >>= f) u :=
  .perform fun found => ⟨u, if_pos hopen, hf found⟩

theorem pre_relative {p : Put} (hput : CanPut server u p.key) (m : Metadata) :
    Pre (Usage.next server ops) (fun _ u' => u' = u)
      (perform (Call.get p.key) >>= fun found => putRelative p found m) u := by
  refine pre_get (by rw [hput.1]; rfl) fun found => ?_
  rw [putRelative]
  split_ifs
  · exact pre_putInDb hput _ m
  · exact .pure rfl
  · exact pre_putInDb hput _ m

theorem pre_operation {op : Operation} (hopen : u.mode.canAccess)
    (hputs : ∀ k ∈ putKeys (Access.cohort .okStatus) op, CanPut server u k) (m : Metadata) :
    Pre (Usage.next server ops) (fun _ u' => u' = u) (processOperationInDb op m) u := by
  obtain ⟨n, _ | g | ⟨key, _ | c | r⟩⟩ := op
  · exact .pure rfl
  · refine pre_get hopen fun found => ?_
    split_ifs <;> exact .pure rfl
  · exact pre_relative (hputs key (List.mem_singleton_self _)) m
  · exact pre_putInDb (hputs key (List.mem_singleton_self _)) c.int64 m
  · exact pre_relative (hputs key (List.mem_singleton_self _)) m

theorem pre_operations {todo : List Operation} (hopen : u.mode.canAccess)
    (hputs : ∀ op ∈ todo, ∀ k ∈ putKeys (Access.cohort .okStatus) op, CanPut server u k)
    (m : Metadata) :
    Pre (Usage.next server ops) (fun _ u' => u' = u) (processOperations todo m) u := by
  induction todo generalizing m with
  | nil => exact .pure rfl
  | cons op todo ih =>
    refine (pre_operation hopen (hputs op List.mem_cons_self) m).bind ?_
    rintro result u' rfl
    split_ifs
    · exact .pure rfl
    · exact ih (fun op' hop => hputs op' (List.mem_cons_of_mem op hop)) result.2

/-- Where an execution leaves the adapter: it can still be aborted, and committed when it ended
well. -/
def Executed (status : Status) (u : Usage) : Prop :=
  u.mode.canAbort ∧ (status.isOk → u.mode.canCommit)

theorem pre_processTransactionInDb (transaction : Transaction) (deadline : ℤ) :
    Pre (Usage.next server transaction.ops) (fun a u' => Executed a.1 u')
      (processTransactionInDb server transaction deadline newMetadata) .start := by
  refine (pre_lockAll deadline _ newMetadata rfl).bind ?_
  intro locked u ⟨hfresh, hdone⟩
  split_ifs with hfail
  · exact .pure ⟨by rw [hfresh]; rfl, fun hok => by rw [hfail] at hok; cases hok⟩
  · obtain ⟨hnotes, hheld⟩ := hdone (by simpa using hfail)
    have hwrites {op : Operation} (hop : op ∈ transaction.ops) (hput : isPut op) :
        Db.beginsReadOnly locked.2 = false := by
      have hlocks : Db.beginsReadOnly (Db.lockNotes
          (Db.referenceMap server.supportsConcurrentWrites) server.orders transaction.ops) = false :=
        Db.writes_of_isPut hop hput
      rw [hnotes]
      exact hlocks
    refine (pre_begin hfresh (fun r hr => hheld r (.inl hr)) ?_).bind ?_
    · intro hread op hop
      by_contra hput
      rw [Bool.not_eq_false] at hput
      rw [hwrites hop hput] at hread
      cases hread
    intro begun u' ⟨hlocks, hmode⟩
    split_ifs with hbegin
    · rw [hbegin] at hmode
      exact .pure ⟨by rw [hmode]; rfl, fun hok => by rw [hbegin] at hok; cases hok⟩
    · rw [if_pos (by simpa using hbegin)] at hmode
      have hputs : ∀ op ∈ transaction.ops, ∀ k ∈ putKeys (Access.cohort .okStatus) op,
          CanPut server u' k := by
        intro op hop k hk
        rw [hwrites hop (isPut_of_mem_putKeys hk)] at hmode
        refine ⟨hmode, hlocks ▸ hheld _ (.inl ?_)⟩
        exact mem_dbLocks_of_put (c := ⟨server.supportsConcurrentWrites, .okStatus⟩) hop hk
      refine (pre_operations (by rw [hmode]; rfl) hputs locked.2).mono ?_
      rintro result _ rfl
      exact ⟨by rw [hmode]; rfl, fun _ => by rw [hmode]; rfl⟩

theorem pre_of_makes {α : Type} {p : Process α}
    (hp : Makes (fun c => ∀ (u : Usage) r, u.next server ops ⟨c, r⟩ = some u) p) (u : Usage) :
    Pre (Usage.next server ops) (fun _ u' => u' = u) p u := by
  induction p with
  | ret a => rfl
  | call c next ih => exact fun r => ⟨u, hp.1 u r, ih r (hp.2 r)⟩

theorem pre_unlockAll (rs : List LockRequest) (u : Usage) :
    Pre (Usage.next server ops) (fun _ u' => u'.mode = u.mode) (unlockAll rs) u := by
  induction rs generalizing u with
  | nil => exact .pure rfl
  | cons r rs ih => exact .perform fun _ => ⟨_, rfl, ih { u with held := u.held.erase r }⟩

theorem pre_release (m : Metadata) (hclosed : u.mode = .closed) :
    Pre (Usage.next server ops) (fun _ u' => u'.mode = .closed) (releaseLocksAndDeleteMetadata m)
      u :=
  (pre_unlockAll _ u).bind fun _ _ hu => .pure (hu.trans hclosed)

theorem pre_abortTransaction (habort : u.mode.canAbort) (unset : AbortReason) (id : String)
    (i : UInt32) (status : Option Status) (m : Metadata) :
    Pre (Usage.next server ops) (fun _ u' => u'.mode = .closed)
      (abortTransaction unset id i status m) u := by
  have hrest (m : Metadata) : Pre (Usage.next server ops) (fun _ u' => u'.mode = .closed)
      (perform Call.abort >>= fun _ => releaseLocksAndDeleteMetadata m) u :=
    .perform fun _ => ⟨_, if_pos habort, pre_release m rfl⟩
  cases status with
  | none => exact hrest _
  | some status => exact .perform fun _ => ⟨u, rfl, hrest _⟩

theorem pre_commitTransaction (hcommit : u.mode.canCommit) (m : Metadata) (retries : ℕ) :
    Pre (Usage.next server ops) (fun result u' => result.isSome → u'.mode = .closed)
      (commitTransaction m retries) u := by
  revert u
  refine commitTransaction_induction (P := fun p => ∀ {u : Usage}, u.mode.canCommit →
    Pre (Usage.next server ops) (fun result u' => result.isSome → u'.mode = .closed) p u)
    (fun _ => .pure fun h => by cases h) (fun again hagain u hcommit => ?_) retries
  refine .perform fun status => ⟨_, if_pos hcommit, ?_⟩
  split_ifs with hok
  · exact (pre_release _ rfl).bind fun _ _ hclosed => .pure fun _ => hclosed
  · exact hagain rfl

theorem pre_followDecision (hexecuted : u.mode.canAbort ∧ u.mode.canCommit) (unset : AbortReason)
    (retries : ℕ) (request : PrepareTransactionRequest) (m : Metadata) :
    Pre (Usage.next server ops) (fun result u' => result.isSome → u'.mode = .closed)
      (followDecision unset retries request m) u := by
  refine (pre_of_makes (makes_waitForBlockchainDecision (fun _ _ => rfl) retries) u).bind ?_
  rintro decision u' rfl
  rcases decision with _ | decision
  · exact .pure fun h => by cases h
  · have habort : Pre (Usage.next server ops) (fun result u' => result.isSome → u'.mode = .closed)
        (do
          let response ← abortTransaction unset request.transactionId request.cohortIndex none m
          pure (some response)) u' :=
      (pre_abortTransaction hexecuted.1 unset _ _ none m).bind fun _ _ hclosed =>
        .pure fun _ => hclosed
    cases decision with
    | commit => exact pre_commitTransaction hexecuted.2 m retries
    | _ => exact habort

/-- Whatever is replied, every call is legal and a run that returns has closed the adapter. -/
theorem pre_processTransaction (unset : AbortReason) (retries : ℕ) (server : Server)
    (request : PrepareTransactionRequest) :
    Pre (Usage.next server request.transaction.ops)
      (fun result u' => result.isSome → u'.mode = .closed)
      (processTransaction unset retries server request) .start := by
  refine (pre_processTransactionInDb request.transaction _).bind ?_
  intro inDb u ⟨habort, hcommit⟩
  have habortWith (status : Option Status) :
      Pre (Usage.next server request.transaction.ops)
        (fun result u' => result.isSome → u'.mode = .closed)
        (do
          let response ← abortTransaction unset request.transactionId request.cohortIndex status
            inDb.2
          pure (some response)) u :=
    (pre_abortTransaction habort unset _ _ status inDb.2).bind fun _ _ hclosed =>
      .pure fun _ => hclosed
  split_ifs with hfail hone
  · exact habortWith _
  · exact pre_commitTransaction (hcommit (by simpa using hfail)) inDb.2 retries
  · refine (pre_of_makes (makes_persistTransaction (fun _ _ _ _ => rfl) (fun _ _ _ _ => rfl) server
      request inDb.2) u).bind ?_
    rintro persisted u' rfl
    split_ifs
    · exact habortWith _
    · exact .perform fun _ => ⟨u', rfl,
        pre_followDecision ⟨habort, hcommit (by simpa using hfail)⟩ unset retries request inDb.2⟩

end Runs

/-- Whether an adapter that saw some calls has a transaction open, and whether it is read-only. -/
def opens : Option Bool → Event → Option Bool
  | txn, ⟨.begin, status⟩ => if status.isOk then some false else txn
  | txn, ⟨.beginReadOnly, status⟩ => if status.isOk then some true else txn
  | txn, ⟨.commit, status⟩ => if status.isOk then none else txn
  | _, ⟨.abort, _⟩ => none
  | txn, _ => txn

def openTxn (es : List Event) : Option Bool := es.foldl opens none

def holds : List LockRequest → Event → List LockRequest
  | held, ⟨.lockWhenWithDeadline r _, granted⟩ => if granted then r :: held else held
  | held, ⟨.unlock r, _⟩ => held.erase r
  | held, _ => held

def heldAfter (es : List Event) : List LockRequest := es.foldl holds []

def isBegin (e : Event) : Bool :=
  match e.1 with
  | .begin => true
  | .beginReadOnly => true
  | _ => false

def Refused : Event → Prop
  | ⟨.get _, found⟩ => found.1.code = .failedPrecondition
  | ⟨.put _ _, status⟩ => status.code = .failedPrecondition
  | _ => False

/-- A call that its adapter has no cause to refuse. -/
def WellPlaced (txn : Option Bool) (e : Event) : Prop :=
  match e.1 with
  | .get _ => txn.isSome
  | .put _ _ => txn = some false
  | _ => True

/-- The calls are in a legal order: those of the state machine; one begin at most, which holds
the locks and can write when an operation puts; no Get or Put outside a transaction, no Put in a
read-only one. -/
structure LegalOrder (server : Server) (ops : List Operation) (es : List Event)
    (returned : Prop) : Prop where
  accepted : ∃ u, watch (Usage.next server ops) .start es = some u ∧
    (returned → u.mode = .closed)
  once : es.countP isBegin ≤ 1
  locked : ∀ before e after, es = before ++ e :: after → isBegin e →
    (∀ r ∈ server.locks ops, r ∈ heldAfter before) ∧
      ∀ op ∈ ops, isPut op → e.1 = .begin ∧ ∃ r ∈ heldAfter before, r.mode = .write
  placed : ∀ before e after, es = before ++ e :: after → WellPlaced (openTxn before) e
  -- An adapter that refuses only misplaced calls refuses none.
  neverRefused : (∀ before e after, es = before ++ e :: after → WellPlaced (openTxn before) e →
    ¬Refused e) → ∀ e ∈ es, ¬Refused e

section Accepted
variable {server : Server} {ops : List Operation} {u u' : Usage} {e : Event}

theorem Usage.begun_eq_some {readOnly : Bool} {status : Status}
    (h : u.begun server ops readOnly status = some u') :
    u.mode = .fresh ∧ (∀ r ∈ server.locks ops, r ∈ u.held) ∧
      (readOnly → ∀ op ∈ ops, isPut op = false) ∧
      u' = { u with mode := if status.isOk then .opened readOnly else .notBegun } := by
  unfold Usage.begun at h
  by_cases hok : u.mode = .fresh ∧ (∀ r ∈ server.locks ops, r ∈ u.held) ∧
      (readOnly → ∀ op ∈ ops, isPut op = false)
  · rw [if_pos hok] at h
    exact ⟨hok.1, hok.2.1, hok.2.2, (Option.some.inj h).symm⟩
  · rw [if_neg hok] at h
    cases h

def Tracks (u : Usage) (txn : Option Bool) : Prop := ∀ readOnly, u.mode = .opened readOnly →
  txn = some readOnly

theorem Tracks.begun {readOnly : Bool} {txn : Option Bool} {status : Status} :
    Tracks { u with mode := if status.isOk then .opened readOnly else .notBegun }
      (if status.isOk then some readOnly else txn) := by
  intro r hr
  split_ifs at hr with hok
  cases hr
  exact if_pos hok

theorem Usage.next_tracks {txn : Option Bool} (hu : Tracks u txn)
    (h : u.next server ops e = some u') :
    Tracks u' (opens txn e) ∧ u'.held = holds u.held e ∧ WellPlaced txn e := by
  obtain ⟨c, r⟩ := e
  cases c with
  | lockWhenWithDeadline req deadline =>
    obtain rfl := Option.some.inj h
    cases r <;> exact ⟨hu, rfl, trivial⟩
  | begin =>
    obtain ⟨_, _, _, rfl⟩ := Usage.begun_eq_some h
    exact ⟨.begun, rfl, trivial⟩
  | beginReadOnly =>
    obtain ⟨_, _, _, rfl⟩ := Usage.begun_eq_some h
    exact ⟨.begun, rfl, trivial⟩
  | get key =>
    obtain ⟨hopen, hsame⟩ := Option.ite_none_right_eq_some.mp h
    obtain rfl := Option.some.inj hsame
    refine ⟨hu, rfl, ?_⟩
    cases hmode : u.mode with
    | opened readOnly => simp [WellPlaced, hu readOnly hmode]
    | _ => simp [hmode, Mode.canAccess] at hopen
  | put key value =>
    obtain ⟨⟨hmode, _⟩, hsame⟩ := Option.ite_none_right_eq_some.mp h
    obtain rfl := Option.some.inj hsame
    exact ⟨hu, rfl, hu false hmode⟩
  | commit =>
    obtain ⟨_, hsame⟩ := Option.ite_none_right_eq_some.mp h
    obtain rfl := Option.some.inj hsame
    refine ⟨fun readOnly hr => ?_, rfl, trivial⟩
    dsimp only at hr
    split_ifs at hr
  | abort =>
    obtain ⟨_, hsame⟩ := Option.ite_none_right_eq_some.mp h
    obtain rfl := Option.some.inj hsame
    exact ⟨(fun readOnly hr => by cases hr), rfl, trivial⟩
  | _ =>
    obtain rfl := Option.some.inj h
    exact ⟨hu, rfl, trivial⟩

theorem watch_tracks {es : List Event} {txn : Option Bool} (hu : Tracks u txn)
    (h : watch (Usage.next server ops) u es = some u') :
    Tracks u' (es.foldl opens txn) ∧ u'.held = es.foldl holds u.held := by
  induction es generalizing u txn with
  | nil =>
    obtain rfl := Option.some.inj h
    exact ⟨hu, rfl⟩
  | cons e es ih =>
    obtain ⟨u₁, hnext, hrest⟩ := Option.bind_eq_some_iff.mp h
    obtain ⟨htracks, hheld, _⟩ := Usage.next_tracks hu hnext
    obtain ⟨hfinal, hsame⟩ := ih htracks hrest
    exact ⟨hfinal, by rw [hsame, hheld]; rfl⟩

theorem Usage.start_tracks : Tracks .start none := fun _ h => by cases h

/-- Where the machine is before a call that it accepts. -/
theorem watch_before {before after : List Event}
    (h : watch (Usage.next server ops) .start (before ++ e :: after) = some u') :
    ∃ u u₁, u.next server ops e = some u₁ ∧ Tracks u (openTxn before) ∧
      u.held = heldAfter before := by
  rw [watch_append] at h
  obtain ⟨u, hbefore, hrest⟩ := Option.bind_eq_some_iff.mp h
  obtain ⟨u₁, hnext, _⟩ := Option.bind_eq_some_iff.mp hrest
  obtain ⟨htracks, hheld⟩ := watch_tracks Usage.start_tracks hbefore
  exact ⟨u, u₁, hnext, htracks, hheld⟩

theorem Usage.next_fresh (h : u.next server ops e = some u') :
    (isBegin e → u.mode = .fresh ∧ u'.mode ≠ .fresh) ∧ (u.mode ≠ .fresh → u'.mode ≠ .fresh) := by
  obtain ⟨c, r⟩ := e
  cases c with
  | lockWhenWithDeadline req deadline =>
    obtain rfl := Option.some.inj h
    cases r <;> exact ⟨(fun hb => by cases hb), id⟩
  | begin =>
    obtain ⟨hfresh, _, _, rfl⟩ := Usage.begun_eq_some h
    exact ⟨fun _ => ⟨hfresh, by dsimp only; split_ifs <;> simp⟩, fun hn => absurd hfresh hn⟩
  | beginReadOnly =>
    obtain ⟨hfresh, _, _, rfl⟩ := Usage.begun_eq_some h
    exact ⟨fun _ => ⟨hfresh, by dsimp only; split_ifs <;> simp⟩, fun hn => absurd hfresh hn⟩
  | get key =>
    obtain ⟨_, hsame⟩ := Option.ite_none_right_eq_some.mp h
    obtain rfl := Option.some.inj hsame
    exact ⟨(fun hb => by cases hb), id⟩
  | put key value =>
    obtain ⟨_, hsame⟩ := Option.ite_none_right_eq_some.mp h
    obtain rfl := Option.some.inj hsame
    exact ⟨(fun hb => by cases hb), id⟩
  | commit =>
    obtain ⟨_, hsame⟩ := Option.ite_none_right_eq_some.mp h
    obtain rfl := Option.some.inj hsame
    exact ⟨(fun hb => by cases hb), fun _ => by dsimp only; split_ifs <;> simp⟩
  | abort =>
    obtain ⟨_, hsame⟩ := Option.ite_none_right_eq_some.mp h
    obtain rfl := Option.some.inj hsame
    exact ⟨(fun hb => by cases hb), fun _ hmode => by cases hmode⟩
  | _ =>
    obtain rfl := Option.some.inj h
    exact ⟨(fun hb => by cases hb), id⟩

theorem watch_begins {es : List Event}
    (h : watch (Usage.next server ops) u es = some u') :
    es.countP isBegin ≤ if u.mode = .fresh then 1 else 0 := by
  induction es generalizing u with
  | nil => simp
  | cons e es ih =>
    obtain ⟨u₁, hnext, hrest⟩ := Option.bind_eq_some_iff.mp h
    obtain ⟨hbegin, hleft⟩ := Usage.next_fresh hnext
    have hih := ih hrest
    rw [List.countP_cons]
    by_cases hb : isBegin e
    · obtain ⟨hfresh, hnot⟩ := hbegin hb
      rw [if_neg hnot] at hih
      rw [if_pos hb, if_pos hfresh]
      omega
    · rw [if_neg hb]
      by_cases hfresh : u.mode = .fresh
      · rw [if_pos hfresh]
        split_ifs at hih <;> omega
      · rw [if_neg (hleft hfresh)] at hih
        rw [if_neg hfresh]
        omega

theorem Usage.next_begin (h : u.next server ops e = some u') (hb : isBegin e) :
    (∀ r ∈ server.locks ops, r ∈ u.held) ∧ ∀ op ∈ ops, isPut op → e.1 = .begin := by
  obtain ⟨c, r⟩ := e
  cases c with
  | begin =>
    obtain ⟨_, hheld, _, _⟩ := Usage.begun_eq_some h
    exact ⟨hheld, fun _ _ _ => rfl⟩
  | beginReadOnly =>
    obtain ⟨_, hheld, hputs, _⟩ := Usage.begun_eq_some h
    exact ⟨hheld, fun op hop hput => absurd hput (by rw [hputs rfl op hop]; simp)⟩
  | _ => cases hb

theorem exists_write_lock {op : Operation} (hop : op ∈ ops) (hput : isPut op) :
    ∃ r ∈ server.locks ops, r.mode = .write := by
  obtain ⟨n, _ | g | p⟩ := op
  · cases hput
  · cases hput
  · exact ⟨_, mem_dbLocks_of_put (c := ⟨server.supportsConcurrentWrites, .okStatus⟩) hop
      (List.mem_singleton_self p.key), rfl⟩

end Accepted

/-- Whatever its calls reply, ProcessTransaction makes them in a legal order, and by the time it
returns it has committed or aborted once. -/
theorem calls_in_order {unset : AbortReason} {retries : ℕ} {server : Server}
    {request : PrepareTransactionRequest} {es : List Event}
    {p : Process (Option GetTransactionResultResponse)}
    (h : Steps (processTransaction unset retries server request) es p) :
    LegalOrder server request.transaction.ops es
      (∃ response, p = .ret (some response)) := by
  obtain ⟨u, hwatch, hpost⟩ := h.watch (pre_processTransaction unset retries server request)
  have hplaced (before : List Event) (e : Event) (after : List Event)
      (hes : es = before ++ e :: after) : WellPlaced (openTxn before) e := by
    obtain ⟨v, v₁, hnext, htracks, _⟩ := watch_before (hes ▸ hwatch)
    exact (Usage.next_tracks htracks hnext).2.2
  refine ⟨⟨u, hwatch, ?_⟩, watch_begins hwatch, ?_, hplaced, ?_⟩
  · rintro ⟨response, rfl⟩
    exact hpost rfl
  · intro before e after hes hb
    obtain ⟨v, v₁, hnext, _, hheld⟩ := watch_before (hes ▸ hwatch)
    obtain ⟨hlocks, hwrites⟩ := Usage.next_begin hnext hb
    rw [hheld] at hlocks
    refine ⟨hlocks, fun op hop hput => ⟨hwrites op hop hput, ?_⟩⟩
    have hwrite : ∃ r ∈ server.locks _, r.mode = .write := exists_write_lock hop hput
    obtain ⟨r, hr, hmode⟩ := hwrite
    exact ⟨r, hlocks r hr, hmode⟩
  · intro hadapter e he
    obtain ⟨before, after, hes⟩ := List.append_of_mem he
    exact hadapter before e after hes (hplaced before e after hes)

def singleWriter : Server := ⟨false, "/tmp/txn_responses", keyOrders⟩

def putRun : List Event :=
  [⟨.lockWhenWithDeadline ⟨.wholeDb, .write⟩ (presumedAbortTime (Db.onlyRequest [Db.putK])), true⟩,
    ⟨.begin, .okStatus⟩, ⟨.put "k" 5, .okStatus⟩,
    ⟨.commit, ⟨.unavailable, ""⟩⟩, ⟨.commit, .okStatus⟩, ⟨.unlock ⟨.wholeDb, .write⟩, ()⟩]

def putResponse : Option GetTransactionResultResponse := some (some (.committedResponse ⟨[]⟩))

theorem steps_putRun :
    Steps (processTransaction .unspecified 1 singleWriter (Db.onlyRequest [Db.putK])) putRun
      (.ret putResponse) := by
  iterate 6 apply Steps.call
  exact .refl _

theorem putRun_in_order :
    LegalOrder singleWriter [Db.putK] putRun
      (∃ response, (Program.ret putResponse : Process _) = .ret (some response)) :=
  calls_in_order steps_putRun

end TwoPhaseCommit.CohortServer
