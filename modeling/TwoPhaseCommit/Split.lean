import Mathlib.Data.List.Sort
import TwoPhaseCommit.Lib.Grouping
import TwoPhaseCommit.Database

/-! SplitClientTransaction, and that running the parts means running the whole. -/
namespace TwoPhaseCommit

def Operation.address (op : Operation) : String := op.namespace_.address

namespace Coordinator
open Database Grouping

structure SubTransaction where
  namespace_ : Namespace
  transaction : Transaction
  deriving DecidableEq

def SubTransaction.address (s : SubTransaction) : String := s.namespace_.address

/-- One turn of the splitting loop at the entry of the operation's address. -/
def addOperation (op : Operation) (entry : Option SubTransaction) : SubTransaction where
  namespace_ := op.namespace_
  transaction := ⟨(entry.elim [] fun s => s.transaction.ops) ++ [op]⟩

def splitClientTransaction (order : IterationOrder (String × SubTransaction))
    (originalTransaction : Transaction) (sortSubTransactions : Bool) : List SubTransaction :=
  let transactionsByNamespace := group Operation.address addOperation originalTransaction.ops
  let subTransactions := (order.arrange transactionsByNamespace).map Prod.snd
  if sortSubTransactions then
    subTransactions.insertionSort fun t1 t2 => t1.address ≤ t2.address
  else subTransactions

def opsAt (a : String) (ops : List Operation) : List Operation :=
  ops.filter fun op => op.address = a

theorem total_addOperation (ops : List Operation) (a : String) :
    total Operation.address addOperation ops a =
      (opsAt a ops).getLast?.map fun op => ⟨op.namespace_, ⟨opsAt a ops⟩⟩ := by
  induction ops using List.reverseRecOn with
  | nil => rfl
  | append_singleton ops op ih =>
    have hops : opsAt a (ops ++ [op]) = opsAt a ops ++ if op.address = a then [op] else [] := by
      by_cases ha : op.address = a <;> simp [opsAt, List.filter_append, ha]
    rw [total_append, ih, hops]
    by_cases ha : op.address = a
    · cases hl : (opsAt a ops).getLast? with
      | none => simp [ha, addOperation, List.getLast?_eq_none_iff.mp hl]
      | some last => simp [ha, addOperation]
    · simp [ha]

theorem splitClientTransaction_perm (order : IterationOrder (String × SubTransaction))
    (txn : Transaction) (sort : Bool) :
    (splitClientTransaction order txn sort).Perm
      ((group Operation.address addOperation txn.ops).map Prod.snd) := by
  have hperm := (order.perm (group Operation.address addOperation txn.ops)).map Prod.snd
  rw [splitClientTransaction]
  split_ifs
  · exact (List.perm_insertionSort _ _).trans hperm
  · exact hperm

theorem address_of_mem_group {txn : Transaction} {a : String} {s : SubTransaction}
    (h : (a, s) ∈ group Operation.address addOperation txn.ops) :
    s.address = a ∧ s.transaction.ops = opsAt a txn.ops ∧
      ∃ op ∈ txn.ops, op.namespace_ = s.namespace_ := by
  rw [(group_spec Operation.address addOperation txn.ops).2, total_addOperation,
    Option.map_eq_some_iff] at h
  obtain ⟨last, hlast, rfl⟩ := h
  obtain ⟨hmem, ha⟩ := List.mem_filter.mp (List.mem_of_getLast? hlast)
  exact ⟨of_decide_eq_true ha, rfl, last, hmem, rfl⟩

theorem addresses_group (txn : Transaction) :
    ((group Operation.address addOperation txn.ops).map Prod.snd).map SubTransaction.address =
      (group Operation.address addOperation txn.ops).map Prod.fst := by
  rw [List.map_map]
  exact List.map_congr_left fun x hx => (address_of_mem_group hx).1

theorem nodup_addresses (order : IterationOrder (String × SubTransaction)) (txn : Transaction)
    (sort : Bool) : ((splitClientTransaction order txn sort).map SubTransaction.address).Nodup := by
  rw [((splitClientTransaction_perm order txn sort).map _).nodup_iff, addresses_group]
  exact (group_spec Operation.address addOperation txn.ops).1

theorem ops_of_mem_split {order : IterationOrder (String × SubTransaction)} {txn : Transaction}
    {sort : Bool} {s : SubTransaction} (h : s ∈ splitClientTransaction order txn sort) :
    s.transaction.ops = opsAt s.address txn.ops ∧ ∃ op ∈ txn.ops, op.namespace_ = s.namespace_ := by
  rw [(splitClientTransaction_perm order txn sort).mem_iff, List.mem_map] at h
  obtain ⟨⟨a, s⟩, hs, rfl⟩ := h
  obtain ⟨rfl, hops⟩ := address_of_mem_group hs
  exact hops

theorem mem_addresses_split (order : IterationOrder (String × SubTransaction)) (txn : Transaction)
    (sort : Bool) (a : String) :
    a ∈ (splitClientTransaction order txn sort).map SubTransaction.address ↔
      ∃ op ∈ txn.ops, op.address = a := by
  rw [((splitClientTransaction_perm order txn sort).map _).mem_iff, addresses_group,
    ← total_isSome Operation.address addOperation, List.mem_map]
  constructor
  · rintro ⟨⟨_, s⟩, hs, rfl⟩
    rw [((group_spec Operation.address addOperation txn.ops).2 _ s).mp hs]
    rfl
  · intro h
    obtain ⟨s, hs⟩ := Option.isSome_iff_exists.mp h
    exact ⟨(a, s), ((group_spec Operation.address addOperation txn.ops).2 a s).mpr hs, rfl⟩

/-- One database for all addresses. -/
def combined (absent : Status) : Access (String × String) := ⟨fun n key => (n.address, key), absent⟩

def part (store : Store (String × String)) (a : String) : Store String := fun key => store (a, key)

def responsesAt (a : String) (responses : List GetResponse) : List GetResponse :=
  responses.filter fun r => r.namespace_.address = a

/-- m is what the combined transaction M is at address a. -/
structure Projects (a : String) (M : TransactionMetadata (String × String))
    (m : TransactionMetadata String) : Prop where
  db : m.db = M.db.map fun txn => ⟨txn.readOnly, fun key => txn.writes (a, key)⟩
  responses : m.response.committed.getResponses =
    responsesAt a M.response.committed.getResponses

theorem projects_begun (a : String) (readOnly : Bool) :
    Projects a (begun readOnly) (begun readOnly) := ⟨rfl, rfl⟩

variable {absent : Status} {store : Store (String × String)} {a : String}
  {M : TransactionMetadata (String × String)} {m : TransactionMetadata String}

variable (absent store) in
theorem Projects.dbGet (h : Projects a M m) (key : String) :
    dbGet (Access.cohort absent) (part store a) m key =
      dbGet (combined absent) store M (a, key) := by
  cases hM : M.db with
  | none => simp only [Database.dbGet, h.db, hM, Option.map_none]
  | some txn => simp only [Database.dbGet, h.db, hM, Option.map_some]; rfl

variable (absent store) in
theorem Projects.relativeBase (h : Projects a M m) {n : Namespace} (hn : n.address = a) (p : Put) :
    relativeBase (Access.cohort absent) (part store a) n p m =
      relativeBase (combined absent) store n p M := by
  subst hn
  have hget := h.dbGet absent store p.key
  simp only [Database.relativeBase, Access.cohort, combined] at hget ⊢
  rw [hget]

theorem Projects.dbPut (h : Projects a M m) (key : String) (value : Int64) :
    Agree (Projects a) (dbPut M (a, key) value) (dbPut m key value) := by
  unfold Database.dbPut
  rw [h.db]
  cases M.db with
  | none => exact .error noTransaction
  | some txn =>
    refine .ok ⟨?_, h.responses⟩
    simp only [Option.map_some, Option.some.injEq, OpenTransaction.mk.injEq, true_and]
    funext key'
    simp [Function.update_apply]

variable (absent store) in
theorem Projects.relativePut (h : Projects a M m) {n : Namespace} (hn : n.address = a) (p : Put) :
    Agree (Projects a) (relativePut (combined absent) store n p M)
      (relativePut (Access.cohort absent) (part store a) n p m) := by
  rw [Database.relativePut, Database.relativePut, h.relativeBase absent store hn]
  cases Database.relativeBase (combined absent) store n p M with
  | error status => exact .error status
  | ok value =>
    subst hn
    exact h.dbPut p.key (relativeSum p value)

variable (absent store) in
/-- An operation of address a runs on the projection as it runs on the whole. -/
theorem Projects.own (h : Projects a M m) {op : Operation} (ha : op.address = a) :
    Agree (Projects a) (processOperationInDb (combined absent) store op M)
      (processOperationInDb (Access.cohort absent) (part store a) op m) := by
  obtain ⟨n, type⟩ := op
  have hn : n.address = a := ha
  cases type with
  | none => exact .ok h
  | some type =>
    cases type with
    | get g =>
      have hget := h.dbGet absent store g.key
      simp only [processOperationInDb, combined, Access.cohort, hn] at hget ⊢
      rw [hget]
      cases Database.dbGet _ store M (a, g.key) with
      | error status => exact .error status
      | ok value => exact .ok ⟨h.db, by simp [responsesAt, h.responses, hn]⟩
    | put p =>
      have hrel := h.relativePut absent store hn p
      simp only [processOperationInDb]
      cases p.value with
      | none => exact hrel
      | some v =>
        cases v with
        | relativeValue r => exact hrel
        | constantValue c =>
          simp only [combined, Access.cohort, hn]
          exact h.dbPut p.key c.int64

theorem Projects.other (h : Projects a M m) {op : Operation} (ha : op.address ≠ a)
    {M' : TransactionMetadata (String × String)}
    (hop : processOperationInDb (combined absent) store op M = .ok M') : Projects a M' m := by
  obtain ⟨_, rfl⟩ | ⟨g, value, _, _, rfl⟩ | ⟨p, value, _, hput⟩ := processOperationInDb_ok hop
  · exact h
  · have hne : op.namespace_.address ≠ a := ha
    exact ⟨h.db, by simp [responsesAt, h.responses, hne]⟩
  · obtain ⟨txn, htxn, rfl⟩ := dbPut_ok hput
    refine ⟨?_, h.responses⟩
    have hne (key : String) : (a, key) ≠ (combined absent).locate op.namespace_ p.key := by
      intro he
      exact ha (congrArg Prod.fst he).symm
    rw [h.db, htxn, Option.map_some, Option.map_some]
    simp only [Function.update_of_ne (hne _)]

theorem opsAt_cons_self (op : Operation) (ops : List Operation) :
    opsAt op.address (op :: ops) = op :: opsAt op.address ops := by
  simp [opsAt]

theorem opsAt_cons_of_ne {op : Operation} {ops : List Operation} (h : op.address ≠ a) :
    opsAt a (op :: ops) = opsAt a ops := by
  simp [opsAt, h]

theorem Projects.run_ok (h : Projects a M m) {ops : List Operation}
    {M' : TransactionMetadata (String × String)}
    (hrun : processOperations (combined absent) store ops M = .ok M') :
    ∃ m', processOperations (Access.cohort absent) (part store a) (opsAt a ops) m = .ok m' ∧
      Projects a M' m' := by
  induction ops generalizing M m with
  | nil =>
    cases hrun
    exact ⟨m, rfl, h⟩
  | cons op ops ih =>
    rw [processOperations] at hrun
    cases hop : processOperationInDb (combined absent) store op M with
    | error status => simp [hop] at hrun
    | ok M₁ =>
      simp only [hop] at hrun
      by_cases ha : op.address = a
      · have hown := h.own absent store ha
        rw [hop] at hown
        subst ha
        rw [opsAt_cons_self, processOperations]
        generalize processOperationInDb (Access.cohort absent) _ op m = r at hown ⊢
        cases hown with
        | ok h₁ => exact ih h₁ hrun
      · rw [opsAt_cons_of_ne ha]
        exact ih (h.other ha hop) hrun

theorem Projects.run_error {ops : List Operation} {status : Status}
    (hrun : processOperations (combined absent) store ops M = .error status)
    {ms : String → TransactionMetadata String} (h : ∀ a, Projects a M (ms a)) :
    ∃ op ∈ ops, processOperations (Access.cohort absent) (part store op.address)
      (opsAt op.address ops) (ms op.address) = .error status := by
  induction ops generalizing M ms with
  | nil => cases hrun
  | cons op ops ih =>
    have hown := (h op.address).own absent store rfl
    rw [processOperations] at hrun
    cases hop : processOperationInDb (combined absent) store op M with
    | error status' =>
      simp only [hop, Except.error.injEq] at hrun
      subst hrun
      refine ⟨op, by simp, ?_⟩
      rw [opsAt_cons_self, processOperations]
      rw [hop] at hown
      generalize processOperationInDb (Access.cohort absent) _ op _ = r at hown ⊢
      cases hown with
      | error => rfl
    | ok M₁ =>
      simp only [hop] at hrun
      rw [hop] at hown
      cases hm : processOperationInDb (Access.cohort absent) (part store op.address) op
          (ms op.address) with
      | error status' =>
        rw [hm] at hown
        cases hown
      | ok m₁ =>
        rw [hm] at hown
        cases hown with
        | ok h₁ =>
          have hnext (a : String) : Projects a M₁ (Function.update ms op.address m₁ a) := by
            by_cases ha : op.address = a
            · subst ha
              rwa [Function.update_self]
            · rw [Function.update_of_ne (Ne.symm ha)]
              exact (h a).other ha hop
          obtain ⟨op', hmem, herr⟩ := ih hrun hnext
          refine ⟨op', by simp [hmem], ?_⟩
          by_cases ha : op.address = op'.address
          · rw [← ha, Function.update_self] at herr
            rw [← ha, opsAt_cons_self, processOperations, hm]
            exact herr
          · rw [opsAt_cons_of_ne ha]
            rwa [Function.update_of_ne (Ne.symm ha)] at herr

theorem Projects.commitStore (h : Projects a M m) :
    commitStore (part store a) m = part (commitStore store M) a := by
  unfold Database.commitStore
  rw [h.db]
  cases M.db with
  | none => rfl
  | some txn => rfl

/-- Running the client's list on the combined store and running each sub-transaction on its own
address's part succeed together, with the same stores and the same get responses. -/
theorem split_preserves (absent : Status) (order : IterationOrder (String × SubTransaction))
    (txn : Transaction) (sort : Bool) (store : Store (String × String)) :
    let subs := splitClientTransaction order txn sort
    let whole := execute (combined absent) store txn.ops
    let alone (s : SubTransaction) :=
      execute (Access.cohort absent) (part store s.address) s.transaction.ops
    (subs.map SubTransaction.address).Nodup ∧
      ((∃ r, whole = .ok r) ↔ ∀ s ∈ subs, ∃ r, alone s = .ok r) ∧
      ∀ store' responses, whole = .ok (store', responses) →
        (∀ s ∈ subs, alone s = .ok (part store' s.address, responsesAt s.address responses)) ∧
        ∀ a, a ∉ subs.map SubTransaction.address →
          part store' a = part store a ∧ responsesAt a responses = [] := by
  intro subs whole alone
  have hok : ∀ store' responses, whole = .ok (store', responses) → ∀ a,
      execute (Access.cohort absent) (part store a) (opsAt a txn.ops) =
        .ok (part store' a, responsesAt a responses) := by
    intro store' responses hw a
    obtain ⟨M, hM, hr⟩ := execute_ok_iff.mp hw
    cases hr
    obtain ⟨m, hm, hp⟩ := (projects_begun a false).run_ok hM
    exact execute_ok_iff.mpr ⟨m, hm, by rw [hp.commitStore, hp.responses]⟩
  have halone : ∀ s ∈ subs, alone s =
      execute (Access.cohort absent) (part store s.address) (opsAt s.address txn.ops) := by
    intro s hs
    simp only [alone, (ops_of_mem_split hs).1]
  refine ⟨nodup_addresses order txn sort, ⟨?_, ?_⟩, ?_⟩
  · rintro ⟨⟨store', responses⟩, hw⟩ s hs
    exact ⟨_, (halone s hs).trans (hok store' responses hw s.address)⟩
  · intro hall
    cases hw : processOperations (combined absent) store txn.ops (begun false) with
    | ok M => exact ⟨_, execute_ok_iff.mpr ⟨M, hw, rfl⟩⟩
    | error status =>
      obtain ⟨op, hop, herr⟩ := Projects.run_error hw fun a => projects_begun a false
      obtain ⟨s, hs, ha⟩ := List.mem_map.mp
        ((mem_addresses_split order txn sort op.address).mpr ⟨op, hop, rfl⟩)
      obtain ⟨r, hr⟩ := hall s hs
      rw [halone s hs, ha] at hr
      obtain ⟨m, hm, _⟩ := execute_ok_iff.mp hr
      rw [hm] at herr
      cases herr
  · intro store' responses hw
    refine ⟨fun s hs => (halone s hs).trans (hok store' responses hw s.address), ?_⟩
    intro a ha
    have hnil : opsAt a txn.ops = [] := by
      rw [opsAt, List.filter_eq_nil_iff]
      intro op hop hop'
      exact ha ((mem_addresses_split order txn sort a).mpr ⟨op, hop, of_decide_eq_true hop'⟩)
    have hrun := hok store' responses hw a
    rw [hnil] at hrun
    obtain ⟨hstore, hresp⟩ := Prod.mk.inj (Except.ok.inj hrun)
    exact ⟨hstore.symm, hresp.symm⟩

end Coordinator
end TwoPhaseCommit
