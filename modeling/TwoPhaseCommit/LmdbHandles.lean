import TwoPhaseCommit.LmdbAdapter
import TwoPhaseCommit.Lib.Digits
import TwoPhaseCommit.Lib.TransactionalStore

/-! The LMDB adapter with its handles and the bytes it stores, over the calls of lmdb++, which
may throw. -/
namespace TwoPhaseCommit.Db
open Database LMDBDatabaseTransactionAdapter

abbrev Bytes := List UInt8

/-- The object representation of an int64, least significant byte first. -/
def int64Bytes (value : Int64) : Bytes :=
  List.ofFn fun i : Fin 8 => UInt8.ofNat (Digits.digit 256 value.toUInt64.toNat i)

/-- `data<int64_t>`, which looks at the first eight bytes. -/
def bytesInt64 (bytes : Bytes) : Int64 :=
  (UInt64.ofNat (∑ i : Fin 8, (bytes.getD i 0).toNat * 256 ^ (i : ℕ))).toInt64

theorem bytesInt64_int64Bytes (value : Int64) : bytesInt64 (int64Bytes value) = value := by
  have hbyte (i : Fin 8) :
      ((int64Bytes value).getD i 0).toNat = Digits.digit 256 value.toUInt64.toNat i := by
    rw [int64Bytes, List.getD_eq_getElem?_getD, List.getElem?_ofFn, dif_pos i.isLt]
    exact UInt8.toNat_ofNat_of_lt' (Nat.mod_lt _ (by decide))
  have hlt : value.toUInt64.toNat < 256 ^ 8 := value.toUInt64.toNat_lt
  simp only [bytesInt64, hbyte, Digits.sum_digit hlt, UInt64.ofNat_toNat]
  exact Int64.toInt64_toUInt64 value

structure LmdbError where
  origin : String
  code : ℤ
  deriving DecidableEq, Repr

/-- The calls of lmdb++ that the adapter makes, in an environment ε, with transaction handles τ
and database handles ι. -/
structure Lmdbxx (ε τ ι : Type) where
  beginTxn : (readOnly : Bool) → ε → Except LmdbError τ × ε
  openDbi : τ → ε → Except LmdbError ι × ε
  commit : τ → ε → Except LmdbError Unit × ε
  abort : τ → ε → ε
  -- A null handle is passed on as it is. No value is MDB_NOTFOUND.
  get : Option ι → τ → String → ε → Except LmdbError (Option Bytes)
  put : Option ι → τ → String → Bytes → ε → Except LmdbError Bool × ε

/-- The members of the adapter, with the state of the environment. -/
structure Handles (ε τ ι : Type) where
  env : ε
  isReadonly : Bool
  txn : Option τ
  dbi : Option ι

def putFailed : Status := ⟨.internal, "Put failed."⟩

namespace Handles
variable {ε τ ι : Type} (lib : Lmdbxx ε τ ι)

def connected (env : ε) : Handles ε τ ι := ⟨env, false, none, none⟩

def releaseTransaction (d : Handles ε τ ι) : Handles ε τ ι := { d with txn := none, dbi := none }

def begin (readOnly : Bool) (d : Handles ε τ ι) : Except LmdbError Status × Handles ε τ ι :=
  match d.txn with
  | some _ => (.ok alreadyOpen, d)
  | none =>
    match lib.beginTxn readOnly d.env with
    | (.error e, env) => (.error e, { d with env := env, isReadonly := readOnly })
    | (.ok txn, env) =>
      match lib.openDbi txn env with
      | (.error e, env) => (.error e, { d with env := env, isReadonly := readOnly, txn := some txn })
      | (.ok dbi, env) => (.ok .okStatus, ⟨env, readOnly, some txn, some dbi⟩)

def commit (d : Handles ε τ ι) : Except LmdbError Status × Handles ε τ ι :=
  match d.txn with
  | none => (.ok nothingToCommit, d)
  | some txn =>
    match lib.commit txn d.env with
    | (.error e, env) => (.error e, { d with env := env })
    | (.ok _, env) => (.ok .okStatus, { d with env := env }.releaseTransaction)

def abort (d : Handles ε τ ι) : Except LmdbError Status × Handles ε τ ι :=
  match d.txn with
  | none => (.ok nothingToAbort, d)
  | some txn => (.ok .okStatus, { d with env := lib.abort txn d.env }.releaseTransaction)

def get (d : Handles ε τ ι) (key : String) : Except LmdbError (Except Status Int64) :=
  match d.txn with
  | none => .ok (.error noTransaction)
  | some txn =>
    match lib.get d.dbi txn key d.env with
    | .error e => .error e
    | .ok none => .ok (.error getFailed)
    | .ok (some val) => .ok (.ok (bytesInt64 val))

def put (d : Handles ε τ ι) (key : String) (value : Int64) :
    Except LmdbError Status × Handles ε τ ι :=
  match d.txn with
  | none => (.ok noTransaction, d)
  | some txn =>
    if d.isReadonly then (.ok readOnlyPut, d)
    else
      match lib.put d.dbi txn key (int64Bytes value) d.env with
      | (.error e, env) => (.error e, { d with env := env })
      | (.ok stored, env) => (.ok (if stored then .okStatus else putFailed), { d with env := env })

end Handles

open TransactionalStore (Call History last last_concat)

abbrev Answer := Status × Option Int64

def getAnswer : Except Status Int64 → Answer
  | .ok value => (.okStatus, some value)
  | .error status => (status, none)

def Handles.call {ε τ ι : Type} (lib : Lmdbxx ε τ ι) (d : Handles ε τ ι) :
    Call String Int64 → Except LmdbError Answer × Handles ε τ ι
  | .begin readOnly => ((d.begin lib readOnly).1.map (·, none), (d.begin lib readOnly).2)
  | .get key => ((d.get lib key).map getAnswer, d)
  | .put key value => ((d.put lib key value).1.map (·, none), (d.put lib key value).2)
  | .commit => ((d.commit lib).1.map (·, none), (d.commit lib).2)
  | .abort => ((d.abort lib).1.map (·, none), (d.abort lib).2)

def Handles.after {ε τ ι : Type} (lib : Lmdbxx ε τ ι) (env : ε) (calls : List (Call String Int64)) :
    Handles ε τ ι :=
  calls.foldl (fun d c => (d.call lib c).2) (.connected env)

def LMDBDatabaseTransactionAdapter.call (e : LMDBDatabaseTransactionAdapter) :
    Call String Int64 → Answer × LMDBDatabaseTransactionAdapter
  | .begin readOnly => (((beginTxn readOnly e).1, none), (beginTxn readOnly e).2)
  | .get key => (getAnswer (e.get key), e)
  | .put key value => (((e.put key value).1, none), (e.put key value).2)
  | .commit => ((e.commit.1, none), e.commit.2)
  | .abort => ((e.abort.1, none), e.abort.2)

/-- An open transaction of an environment: its main database once it was opened, and what it
reads. -/
structure OpenTxn (τ ι : Type) where
  txn : τ
  readOnly : Bool
  dbi : Option ι
  pairs : String → Option Bytes

/-- What is in an environment that nobody else writes to. -/
structure Contents (τ ι : Type) where
  stored : String → Option Bytes
  current : Option (OpenTxn τ ι)

/-- The calls of lmdb++ succeed and do what LMDB documents; get finds every key that is there. -/
structure Works {ε τ ι : Type} (lib : Lmdbxx ε τ ι) (contents : ε → Contents τ ι) : Prop where
  beginTxn : ∀ env stored readOnly, contents env = ⟨stored, none⟩ →
    ∃ txn env', lib.beginTxn readOnly env = (.ok txn, env') ∧
      contents env' = ⟨stored, some ⟨txn, readOnly, none, stored⟩⟩
  openDbi : ∀ env stored txn readOnly pairs,
    contents env = ⟨stored, some ⟨txn, readOnly, none, pairs⟩⟩ →
    ∃ dbi env', lib.openDbi txn env = (.ok dbi, env') ∧
      contents env' = ⟨stored, some ⟨txn, readOnly, some dbi, pairs⟩⟩
  get : ∀ env stored txn readOnly dbi pairs,
    contents env = ⟨stored, some ⟨txn, readOnly, some dbi, pairs⟩⟩ →
    ∀ key, lib.get (some dbi) txn key env = .ok (pairs key)
  put : ∀ env stored txn dbi pairs, contents env = ⟨stored, some ⟨txn, false, some dbi, pairs⟩⟩ →
    ∀ key val, ∃ env', lib.put (some dbi) txn key val env = (.ok true, env') ∧
      contents env' = ⟨stored, some ⟨txn, false, some dbi, Function.update pairs key (some val)⟩⟩
  commit : ∀ env stored txn readOnly dbi pairs,
    contents env = ⟨stored, some ⟨txn, readOnly, dbi, pairs⟩⟩ →
    ∃ env', lib.commit txn env = (.ok (), env') ∧ contents env' = ⟨pairs, none⟩
  abort : ∀ env stored txn readOnly dbi pairs,
    contents env = ⟨stored, some ⟨txn, readOnly, dbi, pairs⟩⟩ →
    contents (lib.abort txn env) = ⟨stored, none⟩

def encoded (store : Store String) (key : String) : Option Bytes := (store key).map int64Bytes

theorem encoded_put (store txn : Store String) (key : String) (value : Int64) :
    encoded (dbiGet store (Function.update txn key (some value))) =
      Function.update (encoded (dbiGet store txn)) key (some (int64Bytes value)) := by
  funext k
  by_cases hk : k = key
  · subst hk
    simp [encoded, dbiGet]
  · simp [encoded, dbiGet, hk]

/-- The adapter with its handles stands for one over values. -/
inductive Represents {ε τ ι : Type} (contents : ε → Contents τ ι) :
    Handles ε τ ι → LMDBDatabaseTransactionAdapter → Prop
  | closed {env : ε} {store : Store String} (isReadonly : Bool)
      (h : contents env = ⟨encoded store, none⟩) :
      Represents contents ⟨env, isReadonly, none, none⟩ ⟨store, none, isReadonly⟩
  | opened {env : ε} {store writes : Store String} {isReadonly : Bool} {txn : τ} {dbi : ι}
      (h : contents env =
        ⟨encoded store, some ⟨txn, isReadonly, some dbi, encoded (dbiGet store writes)⟩⟩) :
      Represents contents ⟨env, isReadonly, some txn, some dbi⟩ ⟨store, some writes, isReadonly⟩

section Represents
variable {ε τ ι : Type} {lib : Lmdbxx ε τ ι} {contents : ε → Contents τ ι} {d : Handles ε τ ι}
  {e : LMDBDatabaseTransactionAdapter}

/-- A call on the adapter returns what it returns over values and does the same, which is nothing
if it fails as a precondition. -/
theorem Represents.call (h : Represents contents d e) (hlib : Works lib contents)
    (c : Call String Int64) :
    ∃ d', d.call lib c = (.ok (e.call c).1, d') ∧ Represents contents d' (e.call c).2 ∧
      ((e.call c).1.1.code = .failedPrecondition → d' = d) := by
  cases h with
  | @closed env store isReadonly h =>
    cases c with
    | begin readOnly =>
      obtain ⟨txn, env₁, hbegin, h₁⟩ := hlib.beginTxn env _ readOnly h
      obtain ⟨dbi, env₂, hopen, h₂⟩ := hlib.openDbi env₁ _ txn readOnly _ h₁
      refine ⟨⟨env₂, readOnly, some txn, some dbi⟩, ?_, .opened h₂, fun hcode => by cases hcode⟩
      simp only [Handles.call, Handles.begin, hbegin, hopen]
      rfl
    | get key => exact ⟨_, rfl, .closed isReadonly h, fun _ => rfl⟩
    | put key value => exact ⟨_, rfl, .closed isReadonly h, fun _ => rfl⟩
    | commit => exact ⟨_, rfl, .closed isReadonly h, fun _ => rfl⟩
    | abort => exact ⟨_, rfl, .closed isReadonly h, fun _ => rfl⟩
  | @opened env store writes isReadonly txn dbi h =>
    cases c with
    | begin readOnly => exact ⟨_, rfl, .opened h, fun _ => rfl⟩
    | get key =>
      refine ⟨_, ?_, .opened h, fun _ => rfl⟩
      simp only [Handles.call, Handles.get, hlib.get env _ txn isReadonly dbi _ h, encoded,
        LMDBDatabaseTransactionAdapter.call, LMDBDatabaseTransactionAdapter.get]
      cases dbiGet store writes key with
      | none => rfl
      | some value => simp [Except.map, bytesInt64_int64Bytes]
    | put key value =>
      cases isReadonly with
      | true => exact ⟨_, rfl, .opened h, fun _ => rfl⟩
      | false =>
        obtain ⟨env', hput, h'⟩ := hlib.put env _ txn dbi _ h key (int64Bytes value)
        rw [← encoded_put] at h'
        refine ⟨⟨env', false, some txn, some dbi⟩, ?_, .opened h', fun hcode => by cases hcode⟩
        simp only [Handles.call, Handles.put, hput]
        rfl
    | commit =>
      obtain ⟨env', hcommit, h'⟩ := hlib.commit env _ txn isReadonly (some dbi) _ h
      refine ⟨⟨env', isReadonly, none, none⟩, ?_, .closed isReadonly h', fun hcode => by cases hcode⟩
      simp only [Handles.call, Handles.commit, hcommit]
      rfl
    | abort =>
      have h' := hlib.abort env _ txn isReadonly (some dbi) _ h
      exact ⟨⟨lib.abort txn env, isReadonly, none, none⟩, rfl, .closed isReadonly h',
        fun hcode => by cases hcode⟩

structure Follows (initial : Store String) (h : History String Int64)
    (e : LMDBDatabaseTransactionAdapter) : Prop where
  env : e.env = h.durable initial
  txn : e.txn = h.current.map fun t => last t.puts
  readonly : ∀ t, h.current = some t → e.isReadonly = t.readOnly

/-- What a call returns that is not refused. -/
def acceptedAnswer (initial : Store String) (h : History String Int64) : Call String Int64 → Answer
  | .get key =>
    match h.current.bind fun t => h.read initial t key with
    | some value => (.okStatus, some value)
    | none => (getFailed, none)
  | _ => (.okStatus, none)

section Follows
variable {initial : Store String} {h : History String Int64}

theorem Follows.call (hf : Follows initial h e) (c : Call String Int64) :
    (h.Refuses c → (e.call c).1.1.code = .failedPrecondition ∧ (e.call c).1.2 = none) ∧
      (¬h.Refuses c → (e.call c).1 = acceptedAnswer initial h c) ∧
      Follows initial (h.next c) (e.call c).2 := by
  obtain ⟨committed, current⟩ := h
  obtain ⟨env, txn, isReadonly⟩ := e
  obtain ⟨henv, htxn, hreadonly⟩ := hf
  dsimp only at henv htxn hreadonly
  subst henv htxn
  cases current with
  | none =>
    cases c with
    | begin readOnly =>
      refine ⟨(fun hr => by cases hr), fun _ => rfl, rfl, rfl, ?_⟩
      intro t ht
      obtain rfl := Option.some.inj ht
      rfl
    | get key => exact ⟨fun _ => ⟨rfl, rfl⟩, fun hr => absurd rfl hr, rfl, rfl, hreadonly⟩
    | put key value =>
      exact ⟨fun _ => ⟨rfl, rfl⟩, fun hr => absurd (fun t ht => by cases ht) hr, rfl, rfl, hreadonly⟩
    | commit =>
      refine ⟨fun _ => ⟨rfl, rfl⟩, fun hr => absurd rfl hr, ?_, rfl, fun t ht => by cases ht⟩
      exact congrArg (History.durable · initial) (by simp [History.next])
    | abort =>
      exact ⟨fun _ => ⟨rfl, rfl⟩, fun hr => absurd rfl hr, rfl, rfl, fun t ht => by cases ht⟩
  | some t =>
    obtain ⟨readOnly, puts⟩ := t
    obtain rfl : isReadonly = readOnly := hreadonly _ rfl
    cases c with
    | begin readOnly => exact ⟨fun _ => ⟨rfl, rfl⟩, fun hr => absurd rfl hr, rfl, rfl, hreadonly⟩
    | get key =>
      refine ⟨(fun hr => by cases hr), fun _ => ?_, rfl, rfl, hreadonly⟩
      change getAnswer (match History.read ⟨committed, some ⟨isReadonly, puts⟩⟩ initial
          ⟨isReadonly, puts⟩ key with
        | some value => .ok value
        | none => .error getFailed) = _
      simp only [acceptedAnswer, Option.bind_some]
      cases History.read ⟨committed, some ⟨isReadonly, puts⟩⟩ initial ⟨isReadonly, puts⟩ key <;> rfl
    | put key value =>
      cases isReadonly with
      | true =>
        refine ⟨fun _ => ⟨rfl, rfl⟩, fun hr => absurd (fun t ht => ?_) hr, rfl, rfl, hreadonly⟩
        obtain rfl := Option.some.inj ht
        rfl
      | false =>
        refine ⟨fun hr => absurd (hr _ rfl) (by simp), fun _ => rfl, rfl, ?_, fun t ht => ?_⟩
        · exact congrArg some (last_concat puts key value).symm
        · obtain rfl := Option.some.inj ht
          rfl
    | commit =>
      refine ⟨(fun hr => by cases hr), fun _ => rfl, ?_, rfl, fun t ht => by cases ht⟩
      exact (History.durable_commit _ rfl initial).symm
    | abort => exact ⟨(fun hr => by cases hr), fun _ => rfl, rfl, rfl, fun t ht => by cases ht⟩

/-- What the adapter shows after a history of calls, and what it does next. -/
structure Faithful (lib : Lmdbxx ε τ ι) (contents : ε → Contents τ ι) (initial : Store String)
    (h : History String Int64) (d : Handles ε τ ι) : Prop where
  refuses : ∀ c, h.Refuses c ↔
    ∃ status, d.call lib c = (.ok (status, none), d) ∧ status.code = .failedPrecondition
  accepts : ∀ c, ¬h.Refuses c → (d.call lib c).1 = .ok (acceptedAnswer initial h c)
  durable : (contents d.env).stored = encoded (h.durable initial)
  commits : ∀ t, h.current = some t →
    (contents (d.call lib .commit).2.env).stored = encoded (h.read initial t)
  aborts : (contents (d.call lib .abort).2.env).stored = encoded (h.durable initial)
  handles : d.txn.isSome = h.current.isSome ∧ d.dbi.isSome = h.current.isSome

theorem code_acceptedAnswer (c : Call String Int64) :
    (acceptedAnswer initial h c).1.code ≠ .failedPrecondition := by
  unfold acceptedAnswer
  split
  · split <;> exact fun hcode => by cases hcode
  · exact fun hcode => by cases hcode

theorem stored_of_represents (hr : Represents contents d e) (hf : Follows initial h e) :
    (contents d.env).stored = encoded (h.durable initial) := by
  rw [← hf.env]
  cases hr with
  | closed isReadonly hc => rw [hc]
  | opened hc => rw [hc]

theorem Follows.behaves (hlib : Works lib contents) (hr : Represents contents d e)
    (hf : Follows initial h e) : Faithful lib contents initial h d := by
  have hstep (c : Call String Int64) : (contents (d.call lib c).2.env).stored =
      encoded ((h.next c).durable initial) := by
    obtain ⟨d', hd, hr', _⟩ := hr.call hlib c
    rw [hd]
    exact stored_of_represents hr' (hf.call c).2.2
  refine ⟨fun c => ⟨fun hc => ?_, ?_⟩, fun c hc => ?_, stored_of_represents hr hf, fun t ht => ?_,
    hstep .abort, ?_⟩
  · obtain ⟨d', hd, _, hsame⟩ := hr.call hlib c
    obtain ⟨hcode, hvalue⟩ := (hf.call c).1 hc
    obtain rfl := hsame hcode
    exact ⟨(e.call c).1.1, by rw [hd, ← hvalue], hcode⟩
  · rintro ⟨status, hd, hcode⟩
    by_contra hc
    obtain ⟨d', hd', _⟩ := hr.call hlib c
    rw [hd'] at hd
    have hanswer : (e.call c).1 = (status, none) := Except.ok.inj (congrArg Prod.fst hd)
    rw [(hf.call c).2.1 hc] at hanswer
    exact code_acceptedAnswer c (by rwa [hanswer])
  · obtain ⟨d', hd, _⟩ := hr.call hlib c
    rw [hd, (hf.call c).2.1 hc]
  · rw [hstep .commit, History.durable_commit h ht]
  · have hopen : e.txn.isSome = h.current.isSome := by rw [hf.txn, Option.isSome_map]
    rw [← hopen]
    cases hr <;> exact ⟨rfl, rfl⟩

/-- After any sequence of calls on one adapter, of which no call of lmdb++ fails, the adapter does
what the history of the calls says. -/
theorem faithful (hlib : Works lib contents) {env : ε}
    (hstored : contents env = ⟨encoded initial, none⟩) (calls : List (Call String Int64)) :
    Faithful lib contents initial (TransactionalStore.after calls) (Handles.after lib env calls) := by
  suffices hrefined : ∃ e, Represents contents (Handles.after lib env calls) e ∧
      Follows initial (TransactionalStore.after calls) e by
    obtain ⟨e, hr, hf⟩ := hrefined
    exact hf.behaves hlib hr
  induction calls using List.reverseRecOn with
  | nil => exact ⟨⟨initial, none, false⟩, .closed false hstored, rfl, rfl, fun t ht => by cases ht⟩
  | append_singleton calls c ih =>
    obtain ⟨e, hr, hf⟩ := ih
    obtain ⟨d', hd, hr', _⟩ := hr.call hlib c
    refine ⟨(e.call c).2, ?_, ?_⟩
    · simpa [Handles.after, List.foldl_append] using congrArg Prod.snd hd ▸ hr'
    · simpa [TransactionalStore.after, List.foldl_append] using (hf.call c).2.2

end Follows

end Represents

section Memory

def badTxn (origin : String) : LmdbError := ⟨origin, -30782⟩

def memory : Lmdbxx (Contents Unit Unit) Unit Unit where
  beginTxn readOnly c :=
    match c.current with
    | none => (.ok (), { c with current := some ⟨(), readOnly, none, c.stored⟩ })
    | some _ => (.error (badTxn "mdb_txn_begin"), c)
  openDbi _ c :=
    match c.current with
    | none => (.error (badTxn "mdb_dbi_open"), c)
    | some txn => (.ok (), { c with current := some { txn with dbi := some () } })
  commit _ c :=
    match c.current with
    | none => (.error (badTxn "mdb_txn_commit"), c)
    | some txn => (.ok (), ⟨txn.pairs, none⟩)
  abort _ c := { c with current := none }
  get _ _ key c :=
    match c.current with
    | none => .error (badTxn "mdb_get")
    | some txn => .ok (txn.pairs key)
  put _ _ key val c :=
    match c.current with
    | none => (.error (badTxn "mdb_put"), c)
    | some txn => (.ok true,
        { c with current := some { txn with pairs := Function.update txn.pairs key (some val) } })

theorem memory_works : Works memory id where
  beginTxn env stored readOnly h := ⟨(), ⟨stored, some ⟨(), readOnly, none, stored⟩⟩, by
    obtain rfl := h
    exact ⟨rfl, rfl⟩⟩
  openDbi env stored txn readOnly pairs h := by
    obtain rfl : env = _ := h
    exact ⟨_, _, rfl, rfl⟩
  get env stored txn readOnly dbi pairs h key := by
    obtain rfl : env = _ := h
    rfl
  put env stored txn dbi pairs h key val := by
    obtain rfl : env = _ := h
    exact ⟨_, rfl, rfl⟩
  commit env stored txn readOnly dbi pairs h := by
    obtain rfl : env = _ := h
    exact ⟨_, rfl, rfl⟩
  abort env stored txn readOnly dbi pairs h := by
    obtain rfl : env = _ := h
    rfl

def someCalls : List (Call String Int64) :=
  [.begin false, .put "k" 5, .put "k" 7, .commit, .begin true, .get "k", .put "k" 6]

theorem faithful_someCalls : Faithful memory id (fun _ => none)
    (TransactionalStore.after someCalls) (Handles.after memory ⟨fun _ => none, none⟩ someCalls) :=
  faithful memory_works rfl someCalls

end Memory

end TwoPhaseCommit.Db
