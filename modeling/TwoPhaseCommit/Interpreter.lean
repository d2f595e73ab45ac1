import TwoPhaseCommit.CohortProgram
import TwoPhaseCommit.Lib.KeyValue
import TwoPhaseCommit.LmdbAdapter

/-! A sub-transaction as a list of commands on the store, one after another, and ProcessTransaction
over any database that answers as its interface says. -/
namespace TwoPhaseCommit.CohortServer
open Cohort Database Programs Programs.Program

/-- What an operation is for. A put without a value reads as a relative put with nothing set. -/
def command (op : Operation) : KeyValue.Command String Int64 :=
  match op.type with
  | some (.get g) => .get g.key
  | some (.put p) =>
    match p.value with
    | some (.constantValue c) => .set p.key c.int64
    | some (.relativeValue r) =>
      .add p.key (NumericValue.int64 r.relativeValue)
        (r.defaultValue.map fun d => d.int64Value.getD 0)
    | none => .add p.key 0 none
  | none => .skip

def gets (ops : List Operation) : List (Namespace × Get) :=
  ops.filterMap fun op =>
    match op.type with
    | some (.get g) => some (op.namespace_, g)
    | _ => none

def getResponses (ops : List Operation) (values : List Int64) : List GetResponse :=
  List.zipWith (fun g value => ⟨g.1, g.2, ⟨some value⟩⟩) (gets ops) values

/-- The reference: none is a list that needs an absent key. -/
def interpret (store : Store String) (ops : List Operation) :
    Option (Store String × List GetResponse) :=
  (KeyValue.run store (ops.map command)).map fun r => (r.1, getResponses ops r.2)

def Call.isAccess : Call → Bool
  | .get _ => true
  | .put _ _ => true
  | _ => false

def accesses (es : List Event) : List Call := (es.map Sigma.fst).filter Call.isAccess

/-- The Gets and Puts that a command takes when the store reads s. -/
def accessesOf (s : Store String) : KeyValue.Command String Int64 → List Call
  | .skip => []
  | .get k => [.get k]
  | .set k v => [.put k v]
  | .add k amount default =>
    .get k :: (((s k).or default).map fun v => Call.put k (v + amount)).toList

/-- The Gets and Puts of a list up to the first command that needs an absent key. -/
def accessCalls : Store String → List (KeyValue.Command String Int64) → List Call
  | _, [] => []
  | s, c :: cs =>
    accessesOf s c ++
      match c.step s with
      | some r => accessCalls r.1 cs
      | none => []

abbrev DbView (σ : Type) := σ → Store String × Option (OpenTransaction String)

/-- The surroundings of a transaction that is alone: the locks are granted and the database
answers as its interface says, NotFound for an absent key. Commit may fail any number of times
before it succeeds; what the blockchain and the file system answer is left open. -/
structure Serves {σ : Type} (h : σ → (c : Call) → Reply c × σ) (view : DbView σ) : Prop where
  lock : ∀ s r deadline, (h s (.lockWhenWithDeadline r deadline)).1 = true ∧
    view (h s (.lockWhenWithDeadline r deadline)).2 = view s
  unlock : ∀ s r, view (h s (.unlock r)).2 = view s
  vote : ∀ s id i ballot, view (h s (.vote id i ballot)).2 = view s
  begin : ∀ s store, view s = (store, none) →
    (h s .begin).1.isOk ∧ view (h s .begin).2 = (store, some ⟨false, fun _ => none⟩)
  beginReadOnly : ∀ s store, view s = (store, none) →
    (h s .beginReadOnly).1.isOk ∧
      ∃ readOnly, view (h s .beginReadOnly).2 = (store, some ⟨readOnly, fun _ => none⟩)
  get : ∀ s store txn, view s = (store, some txn) → ∀ key,
    view (h s (.get key)).2 = view s ∧
      match txn.read store key with
      | some value => (h s (.get key)).1.1.isOk ∧ (h s (.get key)).1.2 = value
      | none => (h s (.get key)).1.1.code = .notFound
  put : ∀ s store writes, view s = (store, some ⟨false, writes⟩) → ∀ key value,
    (h s (.put key value)).1.isOk ∧ view (h s (.put key value)).2 =
      (store, some ⟨false, Function.update writes key (some value)⟩)
  commit : ∀ s store txn, view s = (store, some txn) →
    view (h s .commit).2 = if (h s .commit).1.isOk then (txn.read store, none) else view s
  commits : ∀ s, (view s).2.isSome →
    ∃ failures, (h ((fun s => (h s .commit).2)^[failures] s) .commit).1.isOk
  abort : ∀ s store txn, view s = (store, some txn) → view (h s .abort).2 = (store, none)

def Opened {σ : Type} (view : DbView σ) (store : Store String) (readOnly : Bool)
    (cur : Store String) (s : σ) : Prop :=
  ∃ writes, view s = (store, some ⟨readOnly, writes⟩) ∧
    OpenTransaction.read ⟨readOnly, writes⟩ store = cur

@[simp] theorem accesses_append (es es' : List Event) :
    accesses (es ++ es') = accesses es ++ accesses es' := by
  rw [accesses, List.map_append, List.filter_append]
  rfl

theorem accesses_eq_nil {es : List Event} (h : ∀ e ∈ es, e.1.isAccess = false) :
    accesses es = [] := by
  refine List.filter_eq_nil_iff.mpr fun c hc => ?_
  obtain ⟨e, he, rfl⟩ := List.mem_map.mp hc
  simp [h e he]

theorem length_of_step {s : Store String} {op : Operation} {r : Store String × List Int64}
    (h : (command op).step s = some r) : r.2.length = (gets [op]).length := by
  obtain ⟨n, type⟩ := op
  rcases type with _ | g | ⟨key, _ | c | r'⟩
  · cases h
    rfl
  · obtain ⟨_, _, rfl⟩ := Option.map_eq_some_iff.mp h
    rfl
  · obtain ⟨_, _, rfl⟩ := Option.map_eq_some_iff.mp h
    rfl
  · cases h
    rfl
  · obtain ⟨_, _, rfl⟩ := Option.map_eq_some_iff.mp h
    rfl

theorem getResponses_cons {op : Operation} {ops : List Operation} {values rest : List Int64}
    (h : values.length = (gets [op]).length) :
    getResponses (op :: ops) (values ++ rest) =
      getResponses [op] values ++ getResponses ops rest := by
  have hgets : gets (op :: ops) = gets [op] ++ gets ops := List.filterMap_append (l := [op])
  rw [getResponses, getResponses, getResponses, hgets, List.zipWith_append h.symm]

theorem read_update (store : Store String) (readOnly : Bool) (writes : Store String) (key : String)
    (value : Int64) :
    OpenTransaction.read ⟨readOnly, Function.update writes key (some value)⟩ store =
      Function.update (OpenTransaction.read ⟨readOnly, writes⟩ store) key (some value) := by
  funext k
  by_cases hk : k = key
  · subst hk
    simp [OpenTransaction.read]
  · simp [OpenTransaction.read, Function.update_of_ne hk]

section Execute
variable {absent : Status} {store cur : Store String} {m m' : Metadata}

def Reads (store : Store String) (m : Metadata) (cur : Store String) : Prop :=
  ∃ txn, m.db = some txn ∧ txn.read store = cur

theorem Reads.dbGet (hm : Reads store m cur) (key : String) :
    dbGet (Access.cohort absent) store m key =
      match cur key with
      | some value => .ok value
      | none => .error absent := by
  obtain ⟨txn, hdb, rfl⟩ := hm
  rw [Database.dbGet, hdb]
  rfl

theorem Reads.dbPut (hm : Reads store m cur) (key : String) (value : Int64) :
    ∃ m', dbPut m key value = .ok m' ∧ m'.response = m.response ∧
      Reads store m' (Function.update cur key (some value)) := by
  obtain ⟨txn, hdb, rfl⟩ := hm
  refine ⟨{ m with db := some { txn with writes := Function.update txn.writes key (some value) } },
    by simp only [Database.dbPut, hdb], rfl, _, rfl, ?_⟩
  exact read_update store txn.readOnly txn.writes key value

def Done (store : Store String) (op : Operation) (m m' : Metadata)
    (r : Store String × List Int64) : Prop :=
  Reads store m' r.1 ∧ m'.response.committed.getResponses =
    m.response.committed.getResponses ++ getResponses [op] r.2

theorem Reads.relative_cases (hm : Reads store m cur) (n : Namespace) (p : Put) :
    let c := KeyValue.Command.add p.key (NumericValue.int64 (relativeValue p).relativeValue)
      ((relativeValue p).defaultValue.map fun d => d.int64Value.getD 0)
    (∃ m' r, relativePut (Access.cohort absent) store n p m = .ok m' ∧ c.step cur = some r ∧
      Done store ⟨n, some (.put p)⟩ m m' r) ∨
    (relativePut (Access.cohort absent) store n p m = .error absent ∧
      (absent.code = .notFound → c.step cur = none)) := by
  intro c
  have hput (value : Int64) : ∃ m', Database.dbPut m p.key (relativeSum p value) = .ok m' ∧
      Done store ⟨n, some (.put p)⟩ m m'
        (Function.update cur p.key (some (relativeSum p value)), []) := by
    obtain ⟨m', hok, hresponse, hreads⟩ := hm.dbPut p.key (relativeSum p value)
    exact ⟨m', hok, hreads, by rw [hresponse]; exact (List.append_nil _).symm⟩
  rw [Db.relativePut_cohort, hm.dbGet]
  simp only [c, KeyValue.Command.step]
  cases hcur : cur p.key with
  | some value =>
    obtain ⟨m', hok, hdone⟩ := hput value
    exact .inl ⟨m', _, hok, rfl, hdone⟩
  | none =>
    dsimp only
    cases hd : (relativeValue p).defaultValue with
    | none => exact .inr ⟨if_neg (by simp), fun _ => rfl⟩
    | some d =>
      by_cases hn : absent.code = .notFound
      · obtain ⟨m', hok, hdone⟩ := hput (NumericValue.int64 (some d))
        rw [if_pos ⟨hn, rfl⟩]
        exact .inl ⟨m', _, hok, rfl, hdone⟩
      · exact .inr ⟨if_neg fun h => hn h.1, fun h => absurd h hn⟩

theorem Reads.operation_cases (hm : Reads store m cur) (op : Operation) :
    (∃ m' r, Database.processOperationInDb (Access.cohort absent) store op m = .ok m' ∧
      (command op).step cur = some r ∧ Done store op m m' r) ∨
    (Database.processOperationInDb (Access.cohort absent) store op m = .error absent ∧
      (absent.code = .notFound → (command op).step cur = none)) := by
  obtain ⟨n, _ | g | ⟨key, _ | c | r⟩⟩ := op
  · exact .inl ⟨m, _, rfl, rfl, hm, (List.append_nil _).symm⟩
  · have hloc : (Access.cohort absent).locate n g.key = g.key := rfl
    simp only [Database.processOperationInDb, command, KeyValue.Command.step, hloc, hm.dbGet]
    cases cur g.key with
    | some value => exact .inl ⟨_, _, rfl, rfl, hm, rfl⟩
    | none => exact .inr ⟨rfl, fun _ => rfl⟩
  · exact hm.relative_cases n ⟨key, none⟩
  · obtain ⟨m', hok, hresponse, hreads⟩ := hm.dbPut key c.int64
    exact .inl ⟨m', _, hok, rfl, hreads, by rw [hresponse]; exact (List.append_nil _).symm⟩
  · exact hm.relative_cases n ⟨key, some (.relativeValue r)⟩

theorem Reads.operations_cases (hm : Reads store m cur) (absent : Status)
    (ops : List Operation) :
    (∃ m' r, Database.processOperations (Access.cohort absent) store ops m = .ok m' ∧
      interpret cur ops = some r ∧ Reads store m' r.1 ∧
      m'.response.committed.getResponses = m.response.committed.getResponses ++ r.2) ∨
    (Database.processOperations (Access.cohort absent) store ops m = .error absent ∧
      (absent.code = .notFound → interpret cur ops = none)) := by
  induction ops generalizing m cur with
  | nil => exact .inl ⟨m, _, rfl, rfl, hm, (List.append_nil _).symm⟩
  | cons op ops ih =>
    rw [Database.processOperations, interpret, List.map_cons, KeyValue.run]
    obtain ⟨m₁, r, hok, hstep, hreads, hresponses⟩ | ⟨hfail, hnone⟩ := hm.operation_cases op
    · rw [hok, hstep, Option.bind_some, Option.map_map]
      obtain ⟨m', r', hops, hrun, hreads', hresponses'⟩ | ⟨hops, hnone⟩ := ih hreads
      · obtain ⟨r'', hr'', rfl⟩ := Option.map_eq_some_iff.mp hrun
        refine .inl ⟨m', (r''.1, getResponses (op :: ops) (r.2 ++ r''.2)), hops, by rw [hr'']; rfl,
          hreads', ?_⟩
        rw [hresponses', hresponses, List.append_assoc]
        exact congrArg (_ ++ ·) (getResponses_cons (length_of_step hstep)).symm
      · refine .inr ⟨hops, fun hn => ?_⟩
        rw [interpret, Option.map_eq_none_iff] at hnone
        rw [Option.map_eq_none_iff]
        exact hnone hn
    · rw [hfail]
      exact .inr ⟨rfl, fun hn => by rw [hnone hn]; rfl⟩

theorem execute_cases (absent : Status) (store : Store String) (ops : List Operation) :
    (∃ r, execute (Access.cohort absent) store ops = .ok r ∧ interpret store ops = some r) ∨
    (execute (Access.cohort absent) store ops = .error absent ∧
      (absent.code = .notFound → interpret store ops = none)) := by
  have hbegun : Reads store (begun false) store := ⟨_, rfl, rfl⟩
  rw [execute]
  obtain ⟨m', r, hok, hrun, ⟨txn, hdb, hread⟩, hresponses⟩ | ⟨hfail, hnone⟩ :=
    hbegun.operations_cases absent ops
  · refine .inl ⟨r, ?_, hrun⟩
    rw [hok]
    simp only [Except.map, commitStore, hdb, hread, hresponses]
    rfl
  · rw [hfail]
    exact .inr ⟨rfl, hnone⟩

end Execute

section Serves
variable {σ : Type} {h : σ → (c : Call) → Reply c × σ} {view : DbView σ}
  {store cur : Store String} {readOnly : Bool} {s : σ}

theorem Opened.get (ho : Opened view store readOnly cur s) (hs : Serves h view) (key : String) :
    Opened view store readOnly cur (h s (.get key)).2 ∧
      match cur key with
      | some value => (h s (.get key)).1.1.isOk ∧ (h s (.get key)).1.2 = value
      | none => (h s (.get key)).1.1.code = .notFound := by
  obtain ⟨writes, hview, rfl⟩ := ho
  obtain ⟨hsame, hreply⟩ := hs.get s store _ hview key
  exact ⟨⟨writes, hsame.trans hview, rfl⟩, hreply⟩

theorem Opened.put (ho : Opened view store false cur s) (hs : Serves h view) (key : String)
    (value : Int64) :
    (h s (.put key value)).1.isOk ∧
      Opened view store false (Function.update cur key (some value)) (h s (.put key value)).2 := by
  obtain ⟨writes, hview, rfl⟩ := ho
  obtain ⟨hok, hafter⟩ := hs.put s store writes hview key value
  exact ⟨hok, _, hafter, read_update store false writes key value⟩

/-- From the state s a program makes the calls given and ends as result says. -/
structure Follows (h : σ → (c : Call) → Reply c × σ) (view : DbView σ) (store : Store String)
    (readOnly : Bool) (s : σ) (m : Metadata) (calls : List Call)
    (result : Option (Store String × List GetResponse)) (p : Process (Status × Metadata)) :
    Prop where
  calls : accesses (trace h p s) = calls
  ends : match result with
    | some r => (run h p s).1.1.isOk ∧ Opened view store readOnly r.1 (run h p s).2 ∧
        (run h p s).1.2.response.committed.getResponses =
          m.response.committed.getResponses ++ r.2
    | none => (run h p s).1.1.code = .notFound ∧
        ∃ cur, Opened view store readOnly cur (run h p s).2

theorem Follows.after_get {m : Metadata} {key : String} {calls : List Call}
    {result : Option (Store String × List GetResponse)}
    {q : Status × Int64 → Process (Status × Metadata)}
    (hf : Follows h view store readOnly (h s (.get key)).2 m calls result
      (q (h s (.get key)).1)) :
    Follows h view store readOnly s m (.get key :: calls) result
      (perform (Call.get key) >>= q) where
  calls := congrArg (Call.get key :: ·) hf.calls
  ends := hf.ends

theorem Opened.follows_put (ho : Opened view store false cur s) (hs : Serves h view)
    (key : String) (value : Int64) (m : Metadata) :
    Follows h view store false s m [.put key value]
      (some (Function.update cur key (some value), [])) (putInDb key value m) where
  calls := rfl
  ends := by
    obtain ⟨hok, hopened⟩ := ho.put hs key value
    exact ⟨hok, hopened, (List.append_nil _).symm⟩

theorem Opened.follows_relative (ho : Opened view store false cur s) (hs : Serves h view)
    (p : Put) (m : Metadata) :
    let c := KeyValue.Command.add p.key (NumericValue.int64 (relativeValue p).relativeValue)
      ((relativeValue p).defaultValue.map fun d => d.int64Value.getD 0)
    Follows h view store false s m (accessesOf cur c) ((c.step cur).map fun r => (r.1, []))
      (perform (Call.get p.key) >>= fun found => putRelative p found m) := by
  intro c
  obtain ⟨hopened, hreply⟩ := ho.get hs p.key
  refine Follows.after_get ?_
  simp only [c, KeyValue.Command.step]
  cases hcur : cur p.key with
  | some value =>
    rw [hcur] at hreply
    obtain ⟨hok, rfl⟩ := hreply
    have hfound : (h s (.get p.key)).1.1.code ≠ .notFound := by
      intro hn
      simp [Status.isOk, hn] at hok
    rw [putRelative, if_neg fun hc => hfound hc.1, if_neg (by simp [hok])]
    exact hopened.follows_put hs p.key _ m
  | none =>
    rw [hcur] at hreply
    cases hd : (relativeValue p).defaultValue with
    | none =>
      have hfail : (h s (.get p.key)).1.1.isOk = false := by simp [Status.isOk, hreply]
      rw [putRelative, if_neg (by simp [hd]), if_pos hfail]
      exact ⟨rfl, hreply, cur, hopened⟩
    | some d =>
      rw [putRelative, if_pos ⟨hreply, by simp [hd]⟩, hd]
      exact hopened.follows_put hs p.key _ m

theorem Opened.follows (ho : Opened view store readOnly cur s) (hs : Serves h view)
    {op : Operation} (hw : isPut op → readOnly = false) (m : Metadata) :
    Follows h view store readOnly s m (accessesOf cur (command op))
      (((command op).step cur).map fun r => (r.1, getResponses [op] r.2))
      (processOperationInDb op m) := by
  obtain ⟨n, type⟩ := op
  rcases type with _ | g | p
  · exact ⟨rfl, rfl, ho, (List.append_nil _).symm⟩
  · obtain ⟨hopened, hreply⟩ := ho.get hs g.key
    change Follows h view store readOnly s m [Call.get g.key] _ _
    refine Follows.after_get ?_
    simp only [command, KeyValue.Command.step]
    cases hcur : cur g.key with
    | some value =>
      rw [hcur] at hreply
      obtain ⟨hok, rfl⟩ := hreply
      rw [if_neg (by simp [hok])]
      exact ⟨rfl, rfl, hopened, rfl⟩
    | none =>
      rw [hcur] at hreply
      have hfail : (h s (.get g.key)).1.1.isOk = false := by simp [Status.isOk, hreply]
      rw [if_pos hfail]
      exact ⟨rfl, hreply, cur, hopened⟩
  · obtain rfl := hw rfl
    obtain ⟨key, _ | c | r⟩ := p
    · exact ho.follows_relative hs ⟨key, none⟩ m
    · exact ho.follows_put hs key c.int64 m
    · exact ho.follows_relative hs ⟨key, some (.relativeValue r)⟩ m

theorem Follows.stop {op : Operation} {m : Metadata} {calls : List Call}
    (hf : Follows h view store readOnly s m calls none (processOperationInDb op m))
    (ops : List Operation) :
    Follows h view store readOnly s m calls none (processOperations (op :: ops) m) := by
  have hfail : (run h (processOperationInDb op m) s).1.1.isOk = false := by
    simp [Status.isOk, hf.ends.1]
  have hrun : run h (processOperations (op :: ops) m) s = run h (processOperationInDb op m) s := by
    rw [processOperations, run_bind, if_pos hfail]
    rfl
  have htrace : trace h (processOperations (op :: ops) m) s =
      trace h (processOperationInDb op m) s := by
    rw [processOperations, trace_bind, if_pos hfail]
    exact List.append_nil _
  obtain ⟨hcalls, hends⟩ := hf
  exact ⟨by rw [htrace, hcalls], by rw [hrun]; exact hends⟩

theorem Follows.next {op : Operation} {m : Metadata} {calls calls' : List Call}
    {r : Store String × List GetResponse} {result : Option (Store String × List GetResponse)}
    {ops : List Operation}
    (hf : Follows h view store readOnly s m calls (some r) (processOperationInDb op m))
    (hrest : ∀ s' m', Opened view store readOnly r.1 s' →
      Follows h view store readOnly s' m' calls' result (processOperations ops m')) :
    Follows h view store readOnly s m (calls ++ calls')
      (result.map fun r' => (r'.1, r.2 ++ r'.2)) (processOperations (op :: ops) m) := by
  obtain ⟨hok, hopened, hresponses⟩ := hf.ends
  have hgo : ¬(run h (processOperationInDb op m) s).1.1.isOk = false := by simp [hok]
  have hrun : run h (processOperations (op :: ops) m) s =
      run h (processOperations ops (run h (processOperationInDb op m) s).1.2)
        (run h (processOperationInDb op m) s).2 := by
    rw [processOperations, run_bind, if_neg hgo]
  have htrace : trace h (processOperations (op :: ops) m) s =
      trace h (processOperationInDb op m) s ++
        trace h (processOperations ops (run h (processOperationInDb op m) s).1.2)
          (run h (processOperationInDb op m) s).2 := by
    rw [processOperations, trace_bind, if_neg hgo]
  obtain ⟨hcalls, hends⟩ :=
    hrest (run h (processOperationInDb op m) s).2 (run h (processOperationInDb op m) s).1.2 hopened
  refine ⟨by rw [htrace, accesses_append, hf.calls, hcalls], ?_⟩
  rw [hrun]
  cases result with
  | none => exact hends
  | some r' => exact ⟨hends.1, hends.2.1, by rw [hends.2.2, hresponses, List.append_assoc]⟩

theorem Opened.follows_operations {ops : List Operation} (ho : Opened view store readOnly cur s)
    (hs : Serves h view) (hw : ∀ op ∈ ops, isPut op → readOnly = false) (m : Metadata) :
    Follows h view store readOnly s m (accessCalls cur (ops.map command)) (interpret cur ops)
      (processOperations ops m) := by
  induction ops generalizing s cur m with
  | nil => exact ⟨rfl, rfl, ho, (List.append_nil _).symm⟩
  | cons op ops ih =>
    have hf := ho.follows hs (hw op List.mem_cons_self) m
    rw [List.map_cons, accessCalls, interpret, List.map_cons, KeyValue.run]
    cases hstep : (command op).step cur with
    | none =>
      rw [hstep] at hf
      simpa using hf.stop ops
    | some r =>
      rw [hstep] at hf
      have hnext := hf.next fun s' m' ho' =>
        ih ho' (fun op' hop => hw op' (List.mem_cons_of_mem op hop)) m'
      rw [interpret, Option.map_map] at hnext
      rw [Option.bind_some, Option.map_map]
      convert hnext using 2
      funext r'
      simp [getResponses_cons (length_of_step hstep)]

theorem Serves.lockAll (hs : Serves h view) (deadline : ℤ) (rs : List LockRequest) (m : Metadata)
    (s : σ) :
    (run h (lockAll deadline rs m) s).1 = (.okStatus, rs.foldl record m) ∧
      view (run h (lockAll deadline rs m) s).2 = view s := by
  induction rs generalizing m s with
  | nil => exact ⟨rfl, rfl⟩
  | cons r rs ih =>
    obtain ⟨hgranted, hsame⟩ := hs.lock s r deadline
    have hrun : run h (CohortServer.lockAll deadline (r :: rs) m) s =
        run h (CohortServer.lockAll deadline rs (record m r))
          (h s (.lockWhenWithDeadline r deadline)).2 := by
      rw [CohortServer.lockAll, perform_bind, run_call, if_pos hgranted]
    obtain ⟨hresult, hview⟩ := ih (record m r) (h s (.lockWhenWithDeadline r deadline)).2
    rw [hrun]
    exact ⟨hresult, hview.trans hsame⟩

theorem accesses_of_makes {α : Type} {p : Process α}
    (hp : Makes (fun c => c.isAccess = false) p) (s : σ) : accesses (trace h p s) = [] :=
  accesses_eq_nil (hp.steps (steps_trace p s))

theorem Serves.unlockAll (hs : Serves h view) (rs : List LockRequest) (s : σ) :
    view (run h (unlockAll rs) s).2 = view s := by
  induction rs generalizing s with
  | nil => rfl
  | cons r rs ih => exact (ih (h s (.unlock r)).2).trans (hs.unlock s r)

theorem Serves.release (hs : Serves h view) (m : Metadata) (s : σ) :
    (run h (releaseLocksAndDeleteMetadata m) s).1 = m.response ∧
      view (run h (releaseLocksAndDeleteMetadata m) s).2 = view s := by
  rw [releaseLocksAndDeleteMetadata, run_bind]
  exact ⟨rfl, hs.unlockAll (heldLocks m) s⟩

theorem Serves.begun (hs : Serves h view) (hview : view s = (store, none)) (m : Metadata) :
    (run h (CohortServer.begin m) s).1.isOk ∧ accesses (trace h (CohortServer.begin m) s) = [] ∧
      ∃ readOnly, Opened view store readOnly store (run h (CohortServer.begin m) s).2 ∧
        (Db.beginsReadOnly m = false → readOnly = false) := by
  unfold CohortServer.begin Db.beginsReadOnly
  split_ifs with hread
  · obtain ⟨hok, readOnly, hopen⟩ := hs.beginReadOnly s store hview
    exact ⟨hok, rfl, readOnly, ⟨_, hopen, rfl⟩, fun hno => by simp [hread] at hno⟩
  · obtain ⟨hok, hopen⟩ := hs.begin s store hview
    exact ⟨hok, rfl, false, ⟨_, hopen, rfl⟩, fun _ => rfl⟩

theorem Serves.commitTransaction (hs : Serves h view) (hopen : Opened view store readOnly cur s)
    (m : Metadata) :
    ∃ enough, ∀ retries, enough ≤ retries →
      (run h (commitTransaction m retries) s).1 =
          some (some (.committedResponse m.response.committed)) ∧
        view (run h (commitTransaction m retries) s).2 = (cur, none) := by
  obtain ⟨writes, hview, rfl⟩ := hopen
  obtain ⟨failures, hfailures⟩ := hs.commits s (by simp [hview])
  refine ⟨failures, ?_⟩
  have hdone (again : Process (Option GetTransactionResultResponse)) {s : σ}
      (hview : view s = (store, some ⟨readOnly, writes⟩)) (hok : (h s .commit).1.isOk) :
      (run h (commitOr m again) s).1 = some (some (.committedResponse m.response.committed)) ∧
        view (run h (commitOr m again) s).2 =
          (OpenTransaction.read ⟨readOnly, writes⟩ store, none) := by
    have hcommit := hs.commit s store _ hview
    rw [if_pos hok] at hcommit
    obtain ⟨hresponse, hafter⟩ := hs.release (committedMetadata m) (h s .commit).2
    rw [commitOr, perform_bind, run_call, if_pos hok, run_bind]
    exact ⟨congrArg some hresponse, hafter.trans hcommit⟩
  intro retries hle
  induction failures generalizing s retries with
  | zero => cases retries <;> exact hdone _ hview hfailures
  | succ failures ih =>
    obtain ⟨retries, rfl⟩ : ∃ n, retries = n + 1 := ⟨retries - 1, by omega⟩
    by_cases hok : (h s .commit).1.isOk
    · exact hdone _ hview hok
    · have hcommit := hs.commit s store _ hview
      rw [if_neg hok] at hcommit
      rw [CohortServer.commitTransaction, commitOr, perform_bind, run_call, if_neg hok]
      exact ih (hcommit.trans hview) hfailures retries (by omega)

theorem Serves.abortTransaction (hs : Serves h view) (hopen : Opened view store readOnly cur s)
    (unset : AbortReason) (id : String) (i : UInt32) (status : Status) (m : Metadata) :
    (run h (abortTransaction unset id i (some status) m) s).1 =
        some (.abortedResponse (abortReason status)) ∧
      view (run h (abortTransaction unset id i (some status) m) s).2 = (store, none) := by
  obtain ⟨writes, hview, _⟩ := hopen
  have hvoted := (hs.vote s id i .abort).trans hview
  have haborted := hs.abort _ store _ hvoted
  obtain ⟨hresponse, hafter⟩ := hs.release (abortDb m (abortReason status))
    (h (h s (.vote id i .abort)).2 .abort).2
  exact ⟨hresponse, hafter.trans haborted⟩

theorem response_foldl_record (rs : List LockRequest) (m : Metadata) :
    (rs.foldl record m).response = m.response := by
  induction rs generalizing m with
  | nil => rfl
  | cons r rs ih => exact (ih (record m r)).trans (response_record m r)

theorem Serves.processTransactionInDb (hs : Serves h view) (hview : view s = (store, none))
    (server : Server) (transaction : Transaction) (deadline : ℤ) :
    ∃ readOnly, Follows h view store readOnly s newMetadata
      (accessCalls store (transaction.ops.map command)) (interpret store transaction.ops)
      (processTransactionInDb server transaction deadline newMetadata) := by
  let locked := (server.locks transaction.ops).foldl record newMetadata
  let s₁ := (run h (CohortServer.lockAll deadline (server.locks transaction.ops) newMetadata) s).2
  let s₂ := (run h (CohortServer.begin locked) s₁).2
  obtain ⟨hlocked, hsame⟩ := hs.lockAll deadline (server.locks transaction.ops) newMetadata s
  have hquiet := accesses_of_makes (h := h)
    (makes_lockAll (fun _ _ => rfl) deadline (server.locks transaction.ops) newMetadata) s
  obtain ⟨hbegun, hnone, readOnly, hopen, hwrite⟩ := hs.begun (s := s₁) (hsame.trans hview) locked
  have hputs : ∀ op ∈ transaction.ops, isPut op → readOnly = false := by
    intro op hop hput
    have hnotes : Db.beginsReadOnly (Db.lockNotes
        (Db.referenceMap server.supportsConcurrentWrites) server.orders transaction.ops) = false :=
      Db.writes_of_isPut hop hput
    exact hwrite hnotes
  obtain ⟨hcalls, hends⟩ := hopen.follows_operations hs hputs locked
  have hgo : ¬(run h (CohortServer.begin locked) s₁).1.isOk = false := by simp [hbegun]
  have hrun : run h (CohortServer.processTransactionInDb server transaction deadline newMetadata) s =
      run h (processOperations transaction.ops locked) s₂ := by
    rw [CohortServer.processTransactionInDb, acquireDbLocks, run_bind, hlocked, if_neg (by simp),
      run_bind, if_neg hgo]
  have htrace : accesses
      (trace h (CohortServer.processTransactionInDb server transaction deadline newMetadata) s) =
      accesses (trace h (processOperations transaction.ops locked) s₂) := by
    rw [CohortServer.processTransactionInDb, acquireDbLocks, trace_bind, hlocked, if_neg (by simp),
      trace_bind, if_neg hgo, accesses_append, accesses_append, hquiet, hnone]
    rfl
  have hresponse : locked.response = some .pendingResponse := response_foldl_record _ _
  refine ⟨readOnly, htrace.trans hcalls, ?_⟩
  rw [hrun]
  rw [hresponse] at hends
  exact hends

/-- What becomes of a request: the answer and the state after it, and the calls made. -/
structure Interpreted (view : DbView σ) (store : Store String) (ops : List Operation)
    (r : Option GetTransactionResultResponse × σ) (es : List Event) : Prop where
  committed_iff : (∃ c, r.1 = some (some (.committedResponse c))) ↔ (interpret store ops).isSome
  committed : ∀ store' rs, interpret store ops = some (store', rs) →
    r.1 = some (some (.committedResponse ⟨rs⟩)) ∧ view r.2 = (store', none)
  aborted : interpret store ops = none →
    (∃ reason, r.1 = some (some (.abortedResponse reason))) ∧ view r.2 = (store, none)
  calls : accesses es = accessCalls store (ops.map command)
  stops : ∀ done op rest, ops = done ++ op :: rest → interpret store (done ++ [op]) = none →
    accesses es = accessCalls store ((done ++ [op]).map command)

theorem accessCalls_of_none {s : Store String} {cs : List (KeyValue.Command String Int64)}
    (hn : KeyValue.run s cs = none) (rest : List (KeyValue.Command String Int64)) :
    accessCalls s (cs ++ rest) = accessCalls s cs := by
  induction cs generalizing s with
  | nil => cases hn
  | cons c cs ih =>
    rw [List.cons_append, accessCalls, accessCalls]
    rw [KeyValue.run] at hn
    cases hc : c.step s with
    | none => rfl
    | some r =>
      simp only [hc, Option.bind_some, Option.map_eq_none_iff] at hn
      exact congrArg (accessesOf s c ++ ·) (ih hn)

theorem interpret_eq_none_iff {ops : List Operation} :
    interpret store ops = none ↔ KeyValue.run store (ops.map command) = none :=
  Option.map_eq_none_iff

theorem Serves.processed_commit (hs : Serves h view) (hview : view s = (store, none))
    (unset : AbortReason) (server : Server) {request : PrepareTransactionRequest}
    (hone : request.onlyCohort) {result : Store String × List GetResponse}
    (hresult : interpret store request.transaction.ops = some result) :
    ∃ enough, ∀ retries, enough ≤ retries →
      let p := processTransaction unset retries server request
      (run h p s).1 = some (some (.committedResponse ⟨result.2⟩)) ∧
        view (run h p s).2 = (result.1, none) ∧
        accesses (trace h p s) = accessCalls store (request.transaction.ops.map command) := by
  obtain ⟨readOnly, hcalls, hends⟩ :=
    hs.processTransactionInDb hview server request.transaction (presumedAbortTime request)
  rw [hresult] at hends
  obtain ⟨hok, hopen, hresponses⟩ := hends
  obtain ⟨enough, hcommit⟩ := hs.commitTransaction hopen _
  refine ⟨enough, ?_⟩
  intro retries hle
  have hgo : ¬(run h (CohortServer.processTransactionInDb server request.transaction
      (presumedAbortTime request) newMetadata) s).1.1.isOk = false := by simp [hok]
  obtain ⟨hresponse, hafter⟩ := hcommit retries hle
  have hquiet (m : Metadata) :
      Makes (fun c => c.isAccess = false) (CohortServer.commitTransaction m retries) :=
    makes_commitTransaction (fun _ => by rfl) (by rfl) m retries
  dsimp only
  rw [processTransaction, run_bind, trace_bind, if_neg hgo, if_pos hone, accesses_append, hcalls,
    accesses_of_makes (hquiet _), List.append_nil]
  refine ⟨hresponse.trans ?_, hafter, rfl⟩
  have hcommitted : newMetadata.response.committed.getResponses = [] := rfl
  rw [hcommitted, List.nil_append] at hresponses
  rw [← hresponses]

theorem Serves.processed_abort (hs : Serves h view) (hview : view s = (store, none))
    (unset : AbortReason) (retries : ℕ) (server : Server) (request : PrepareTransactionRequest)
    (hresult : interpret store request.transaction.ops = none) :
    let p := processTransaction unset retries server request
    (∃ reason, (run h p s).1 = some (some (.abortedResponse reason))) ∧
      view (run h p s).2 = (store, none) ∧
      accesses (trace h p s) = accessCalls store (request.transaction.ops.map command) := by
  obtain ⟨readOnly, hcalls, hends⟩ :=
    hs.processTransactionInDb hview server request.transaction (presumedAbortTime request)
  rw [hresult] at hends
  obtain ⟨hcode, cur, hopen⟩ := hends
  dsimp only
  rw [processTransaction, run_bind, trace_bind]
  generalize run h (CohortServer.processTransactionInDb server request.transaction
    (presumedAbortTime request) newMetadata) s = inDb at hcode hopen ⊢
  obtain ⟨hresponse, hafter⟩ := hs.abortTransaction hopen unset request.transactionId
    request.cohortIndex inDb.1.1 inDb.1.2
  have hfail : inDb.1.1.isOk = false := by simp [Status.isOk, hcode]
  have hquiet (status : Option Status) (m : Metadata) :
      Makes (fun c => c.isAccess = false) (CohortServer.abortTransaction unset
        request.transactionId request.cohortIndex status m) :=
    makes_abortTransaction (fun _ => by rfl) (fun _ _ _ => by rfl) (by rfl) ..
  rw [if_pos hfail, run_bind, trace_bind, accesses_append, accesses_append, hcalls,
    accesses_of_makes (hquiet _ _), hresponse]
  exact ⟨⟨_, rfl⟩, hafter, List.append_nil _⟩

/-- Alone and for an only cohort, ProcessTransaction does what the interpreter says: it commits
exactly when the interpreter succeeds, with its store and its values, and otherwise leaves the
store as it was and stops at the first operation that needs an absent key. -/
theorem processed_as_interpreted (hs : Serves h view) (hview : view s = (store, none))
    (unset : AbortReason) (server : Server) {request : PrepareTransactionRequest}
    (hone : request.onlyCohort) :
    ∃ enough, ∀ retries, enough ≤ retries →
      Interpreted view store request.transaction.ops
        (run h (processTransaction unset retries server request) s)
        (trace h (processTransaction unset retries server request) s) := by
  have hstops (es : List Event)
      (hcalls : accesses es = accessCalls store (request.transaction.ops.map command))
      (done : List Operation) (op : Operation) (rest : List Operation)
      (hops : request.transaction.ops = done ++ op :: rest)
      (hn : interpret store (done ++ [op]) = none) :
      accesses es = accessCalls store ((done ++ [op]).map command) := by
    have hsplit : request.transaction.ops = (done ++ [op]) ++ rest := by simp [hops]
    rw [hcalls, hsplit, List.map_append,
      accessCalls_of_none (interpret_eq_none_iff.mp hn)]
  cases hresult : interpret store request.transaction.ops with
  | none =>
    refine ⟨0, fun retries _ => ?_⟩
    obtain ⟨⟨reason, hreason⟩, hafter, hcalls⟩ :=
      hs.processed_abort hview unset retries server request hresult
    exact {
      committed_iff := by simp [hreason, hresult]
      committed := by simp [hresult]
      aborted := fun _ => ⟨⟨reason, hreason⟩, hafter⟩
      calls := hcalls
      stops := hstops _ hcalls }
  | some result =>
    obtain ⟨enough, hcommit⟩ := hs.processed_commit hview unset server hone hresult
    refine ⟨enough, fun retries hle => ?_⟩
    obtain ⟨hresponse, hafter, hcalls⟩ := hcommit retries hle
    exact {
      committed_iff := by simp [hresponse, hresult]
      committed := by
        intro store' rs hr
        obtain rfl := Option.some.inj (hresult.symm.trans hr)
        exact ⟨hresponse, hafter⟩
      aborted := by simp [hresult]
      calls := hcalls
      stops := hstops _ hcalls }

end Serves

def serve {σ : Type} (a : Db.DatabaseTransactionAdapter σ) (w : Db.Surroundings) (d : σ) :
    (c : Call) → Reply c × σ
  | .lockWhenWithDeadline _ _ => (true, d)
  | .begin => a.begin d
  | .beginReadOnly => a.beginReadOnly d
  | .get key =>
    match a.get d key with
    | .ok value => ((.okStatus, value), d)
    | .error status => ((status, 0), d)
  | .put key value => a.put d key value
  | .commit => a.commit d
  | .abort => a.abort d
  | .writeResponse _ _ => (w.responseWritten, d)
  | .writeRequest _ _ => (w.requestWritten, d)
  | .vote _ _ _ => (.okStatus, d)
  | .getVotingDecision _ => (.ok (if w.decidesCommit then .commit else .abort), d)
  | .unlock _ => ((), d)

theorem serves_of_lawful {σ : Type} {a : Db.DatabaseTransactionAdapter σ} {absent : Status}
    {view : DbView σ} (ha : Db.Lawful a absent view) (hn : absent.code = .notFound)
    (w : Db.Surroundings) : Serves (serve a w) view where
  lock _ _ _ := ⟨rfl, rfl⟩
  unlock _ _ := rfl
  vote _ _ _ _ := rfl
  begin := ha.begin
  beginReadOnly := ha.beginReadOnly
  get d store txn hview key := by
    have hget := ha.get d store txn hview key
    simp only [serve]
    cases hread : txn.read store key with
    | some value => simp [hread] at hget; simp [hget]
    | none => simp [hread] at hget; simp [hget, hn]
  put := ha.put
  commit d store txn hview := by
    obtain ⟨hok, hafter⟩ := ha.commit d store txn hview
    exact hafter.trans (if_pos hok).symm
  commits d hopen := by
    obtain ⟨txn, htxn⟩ := Option.isSome_iff_exists.mp hopen
    exact ⟨0, (ha.commit d (view d).1 txn (Prod.ext rfl htxn)).1⟩
  abort := ha.abort

/-- The two descriptions of ProcessTransaction agree for an only cohort: both commit with the same
answer, or both abort, and they leave the same store. -/
theorem run_serve {σ : Type} {a : Db.DatabaseTransactionAdapter σ} {absent : Status}
    {view : DbView σ} (ha : Db.Lawful a absent view) (hn : absent.code = .notFound)
    (w : Db.Surroundings) {d : σ} {store : Store String} (hd : view d = (store, none))
    (unset : AbortReason) (server : Server) {request : PrepareTransactionRequest}
    (hone : request.onlyCohort) :
    ∃ enough, ∀ retries, enough ≤ retries →
      ∃ m, Db.processTransaction a w retries request d = some m ∧
        let r := run (serve a w) (processTransaction unset retries server request) d
        (∀ c, r.1 = some (some (.committedResponse c)) ↔
          m.response = some (.committedResponse c)) ∧ (view r.2).1 = (view m.db).1 := by
  have hs := serves_of_lawful ha hn w
  obtain ⟨result, hok, hresult⟩ | ⟨hfail, hnone⟩ :=
    execute_cases absent store request.transaction.ops
  · obtain ⟨enough, hcommit⟩ := hs.processed_commit hd unset server hone hresult
    refine ⟨enough, fun retries hle => ?_⟩
    obtain ⟨m, hm, hanswer⟩ := ha.processTransaction hd w retries hone
    obtain ⟨hresponse, hafter, _⟩ := hcommit retries hle
    rw [hok] at hanswer
    obtain ⟨hmresponse, hmstore⟩ := Prod.ext_iff.mp hanswer
    dsimp only [Db.answer] at hmresponse hmstore
    exact ⟨m, hm, fun c => by rw [hresponse, hmresponse]; simp, by rw [hafter, hmstore]⟩
  · refine ⟨0, fun retries _ => ?_⟩
    obtain ⟨m, hm, hanswer⟩ := ha.processTransaction hd w retries hone
    obtain ⟨⟨reason, hresponse⟩, hafter, _⟩ :=
      hs.processed_abort hd unset retries server request (hnone hn)
    rw [hfail] at hanswer
    obtain ⟨hmresponse, hmstore⟩ := Prod.ext_iff.mp hanswer
    dsimp only [Db.answer] at hmresponse hmstore
    exact ⟨m, hm, fun c => by rw [hresponse, hmresponse]; simp, by rw [hafter, hmstore]⟩

def counterOps : List Operation :=
  [Db.putK, ⟨⟨"", ""⟩, some (.put ⟨"k", some (.relativeValue ⟨some ⟨some 2⟩, none⟩)⟩)⟩, Db.getK]

def localServer : Server := ⟨true, "/tmp/txn_responses", keyOrders⟩

/-- The counter is read as 7 and left at 7. -/
theorem processed_counter :
    interpret (fun _ => none) counterOps =
        some (Function.update (Function.update (fun _ => none) "k" (some 5)) "k" (some 7),
          [⟨⟨"", ""⟩, ⟨"k"⟩, ⟨some 7⟩⟩]) ∧
      ∃ enough, ∀ retries, enough ≤ retries →
        Interpreted Db.mapView (fun _ => none) counterOps
          (run (serve (Db.referenceMap true) Db.surroundings)
            (processTransaction .unspecified retries localServer (Db.onlyRequest counterOps))
            ⟨fun _ => none, none⟩)
          (trace (serve (Db.referenceMap true) Db.surroundings)
            (processTransaction .unspecified retries localServer (Db.onlyRequest counterOps))
            ⟨fun _ => none, none⟩) :=
  ⟨rfl,
    processed_as_interpreted (serves_of_lawful (Db.reference_lawful true) rfl Db.surroundings) rfl
      .unspecified localServer (rfl : (Db.onlyRequest counterOps).onlyCohort = true)⟩

end TwoPhaseCommit.CohortServer
