import Mathlib.Algebra.Order.Ring.Nat
import TwoPhaseCommit.ClientMain
import TwoPhaseCommit.Lib.Loops

/-! What a file of simple transactions asks for: its schedule of transactions, and the operations
that they stand for once the random choices are made. The driver builds just their requests. -/
namespace TwoPhaseCommit.ClientMain
open Coordinator Loops

def SimpleTransaction.occurrences (transaction : SimpleTransaction) : List SimpleOperation :=
  transaction.op.flatMap fun op => List.replicate op.iterations op

/-- The transactions of a run: the initial ones, and then the cycle over and over. -/
def SimpleTransactions.schedule (transactions : SimpleTransactions) : List SimpleTransaction :=
  transactions.initialTransaction ++
    (List.replicate transactions.cycleLength.toInt.toNat transactions.cycleTransaction).flatten

def SimpleOperation.addressDraws (op : SimpleOperation) : ℕ :=
  match op.addressType with
  | some (.randomAddress _) => 1
  | _ => 0

def SimpleOperation.keyDraws (op : SimpleOperation) : ℕ :=
  match op.keyType with
  | some (.randomKey _) => 3
  | some (.randomPutKey _) => 1
  | _ => 0

def SimpleOperation.valueDraws (op : SimpleOperation) : ℕ :=
  match op.type, op.valueType with
  | .put, some (.randomRelativeValue _) => 1
  | .put, some (.randomValue _) => 1
  | _, _ => 0

def SimpleOperation.draws (op : SimpleOperation) : ℕ := op.addressDraws + op.keyDraws + op.valueDraws

/-- The operations of a run that were chosen so far, and how many random numbers they took. -/
structure Chosen where
  ops : List Operation := []
  drawn : ℕ := 0

def Chosen.after (ch : Chosen) (ops : List SimpleOperation) (chosen : List Operation) : Chosen :=
  ⟨ch.ops ++ chosen, ch.drawn + (ops.map SimpleOperation.draws).sum⟩

def addPutKeyAt (address : String) (keys : List String) (op : Operation) : List String :=
  match op.type with
  | some (.put p) => if op.namespace_.address = address then keys.insert p.key else keys
  | _ => keys

def putKeysAt (address : String) (ops : List Operation) : List String :=
  ops.foldl (addPutKeyAt address) []

def chosenAddress (c : Choices) (op : SimpleOperation) (n : ℕ) : String :=
  match op.addressType with
  | some (.randomAddress _) => randomAddress (c.rand n)
  | _ => op.address

def chosenKey (c : Choices) (op : SimpleOperation) (putKeys : List String) (n : ℕ) :
    Option String :=
  match op.keyType with
  | some (.randomKey _) =>
    some (String.ofList ((List.range 3).map fun i => randomChar (c.rand (n + i))))
  | some (.randomPutKey _) => ((c.order n).arrange putKeys)[c.rand n % putKeys.length]?
  | _ => some op.key

def chosenValue (op : SimpleOperation) (r : ℕ) : ValueType :=
  match op.valueType with
  | some (.randomRelativeValue _) => .relativeValue ⟨some ⟨some (randomValue r)⟩, none⟩
  | some (.relativeValue value) => .relativeValue ⟨some ⟨some value⟩, none⟩
  | some (.randomValue _) => .constantValue ⟨some (randomValue r)⟩
  | _ => .constantValue ⟨some op.value⟩

def chosenType (op : SimpleOperation) (key : String) (r : ℕ) : OperationType :=
  if op.type = .put then .put ⟨key, some (chosenValue op r)⟩ else .get ⟨key⟩

/-- The operation that an operation of the file stands for after what was chosen before; none when
it needs a put key and there is none. -/
def choose (c : Choices) (op : SimpleOperation) (ch : Chosen) : Option Operation :=
  let address := chosenAddress c op ch.drawn
  let n := ch.drawn + op.addressDraws
  (chosenKey c op (putKeysAt address ch.ops) n).map fun key =>
    ⟨⟨"", address⟩, some (chosenType op key (c.rand (n + op.keyDraws)))⟩

def chooseAll (c : Choices) : List SimpleOperation → Chosen → Option (List Operation)
  | [], _ => some []
  | op :: ops, ch => do
    let chosen ← choose c op ch
    let rest ← chooseAll c ops (ch.after [op] [chosen])
    some (chosen :: rest)

/-- What makes up a transaction once its random choices are made. -/
structure Content where
  timeBeforeAbort : Option Duration
  ops : List Operation
  deriving DecidableEq

def contents (c : Choices) : List SimpleTransaction → Chosen → Option (List Content)
  | [], _ => some []
  | t :: ts, ch => do
    let ops ← chooseAll c t.occurrences ch
    let rest ← contents c ts (ch.after t.occurrences ops)
    some (⟨t.timeBeforeAbort, ops⟩ :: rest)

structure RunState.Follows (s : RunState) (ch : Chosen) : Prop where
  calls : s.calls = ch.drawn
  putKeys : ∀ a, s.putKeysByAddress a = putKeysAt a ch.ops

section Operations
variable (c : Choices) (op : SimpleOperation) (request : CommitAtomicTransactionRequest)
  (address key : String) (s : RunState)

theorem operationAddress_eq :
    operationAddress c op s = (chosenAddress c op s.calls, s.called op.addressDraws) := by
  obtain ⟨type, _ | address | random, keyType, valueType, repeatCount⟩ := op <;> rfl

theorem operationKey_eq : operationKey c op address s =
    (chosenKey c op (s.putKeysByAddress address) s.calls).map fun key =>
      (key, s.called op.keyDraws) := by
  obtain ⟨type, addressType, _ | key | random | random, valueType, repeatCount⟩ := op <;> rfl

theorem addPutOperation_eq (h : op.type = .put) : addPutOperation c op request address key s =
    (addOp request ⟨⟨"", address⟩, some (.put ⟨key, some (chosenValue op (c.rand s.calls))⟩)⟩,
      (s.addPutKey address key).called op.valueDraws) := by
  obtain ⟨type, addressType, keyType, _ | value | value | random | random, repeatCount⟩ := op
  all_goals
    subst h
    rfl

end Operations

theorem putKeysAt_append (a : String) (ops : List Operation) (op : Operation) :
    putKeysAt a (ops ++ [op]) = addPutKeyAt a (putKeysAt a ops) op := by
  rw [putKeysAt, List.foldl_append]
  rfl

theorem addPutKeyAt_put (a address key : String) (keys : List String) (value : Option ValueType) :
    addPutKeyAt a keys ⟨⟨"", address⟩, some (.put ⟨key, value⟩)⟩ =
      if address = a then keys.insert key else keys := rfl

theorem addPutKeyAt_get (a : String) (keys : List String) (n : Namespace) (g : Get) :
    addPutKeyAt a keys ⟨n, some (.get g)⟩ = keys := rfl

section Follows
variable {s s' : RunState} {ch : Chosen} (h : s.Follows ch) (op : SimpleOperation)
  (address key : String)
include h

theorem RunState.Follows.get (hcalls : s'.calls = s.calls + op.draws)
    (hkeys : s'.putKeysByAddress = s.putKeysByAddress) :
    s'.Follows (ch.after [op] [⟨⟨"", address⟩, some (.get ⟨key⟩)⟩]) where
  calls := by simp [hcalls, h.calls, Chosen.after]
  putKeys a := by
    rw [Chosen.after, putKeysAt_append, addPutKeyAt_get, hkeys]
    exact h.putKeys a

theorem RunState.Follows.put (value : Option ValueType) (hcalls : s'.calls = s.calls + op.draws)
    (hkeys : s'.putKeysByAddress = (s.addPutKey address key).putKeysByAddress) :
    s'.Follows (ch.after [op] [⟨⟨"", address⟩, some (.put ⟨key, value⟩)⟩]) where
  calls := by simp [hcalls, h.calls, Chosen.after]
  putKeys a := by
    rw [Chosen.after, putKeysAt_append, addPutKeyAt_put, ← h.putKeys, hkeys]
    by_cases ha : address = a
    · subst ha
      rw [if_pos rfl]
      exact Function.update_self ..
    · rw [if_neg ha]
      exact Function.update_of_ne (Ne.symm ha) ..

end Follows

theorem addOperation_rel (c : Choices) (op : SimpleOperation)
    (request : CommitAtomicTransactionRequest) {s : RunState} {ch : Chosen} (h : s.Follows ch) :
    Option.Rel (fun chosen r => r.1 = addOp request chosen ∧
        r.2.Follows (ch.after [op] [chosen]) ∧ r.2.runInfo.requests = s.runInfo.requests)
      (choose c op ch) (addOperation c op request s) := by
  let address := chosenAddress c op ch.drawn
  let n := ch.drawn + op.addressDraws
  let s₁ := (s.called op.addressDraws).addCohortAddress address
  let s₂ := s₁.called op.keyDraws
  have hcalls : s₁.calls = n := congrArg (· + op.addressDraws) h.calls
  have hcalls₂ : s₂.calls = n + op.keyDraws := congrArg (· + op.keyDraws) hcalls
  have hdraws : s₂.calls + op.valueDraws = s.calls + op.draws := by
    rw [hcalls₂, SimpleOperation.draws, h.calls]
    omega
  have hkey : operationKey c op address s₁ = (chosenKey c op (putKeysAt address ch.ops) n).map
      fun key => (key, s₂) := by
    rw [operationKey_eq, ← h.putKeys, ← hcalls]
    rfl
  have hadd : addOperation c op request s = operationKey c op address s₁ >>= fun r =>
      if op.type = .put then some (addPutOperation c op request address r.1 r.2)
      else some (addGetOp request address r.1, r.2) := by
    unfold addOperation
    rw [operationAddress_eq, h.calls]
  have hchoose : choose c op ch = (chosenKey c op (putKeysAt address ch.ops) n).map fun key =>
      ⟨⟨"", address⟩, some (chosenType op key (c.rand (n + op.keyDraws)))⟩ := rfl
  rw [hadd, hkey, hchoose]
  cases chosenKey c op (putKeysAt address ch.ops) n with
  | none => exact .none
  | some key =>
    rw [Option.map_some, Option.map_some, Option.bind_eq_bind, Option.bind_some]
    unfold chosenType
    split_ifs with hput
    · rw [addPutOperation_eq _ _ _ _ _ _ hput, hcalls₂]
      exact .some ⟨rfl, h.put op address key _ hdraws rfl, rfl⟩
    · have hvalue : op.valueDraws = 0 := by simp [SimpleOperation.valueDraws, hput]
      rw [hvalue] at hdraws
      exact .some ⟨rfl, h.get op address key hdraws rfl, rfl⟩

theorem foldl_addOp (ops : List Operation) (request : CommitAtomicTransactionRequest) :
    ops.foldl addOp request =
      { request with transaction := ⟨request.transaction.ops ++ ops⟩ } := by
  induction ops generalizing request with
  | nil => simp
  | cons op ops ih =>
    rw [List.foldl_cons, ih]
    simp [addOp]

theorem Chosen.after_after (ch : Chosen) (op : SimpleOperation) (ops : List SimpleOperation)
    (chosen : Operation) (rest : List Operation) :
    (ch.after [op] [chosen]).after ops rest = ch.after (op :: ops) (chosen :: rest) := by
  simp [Chosen.after, Nat.add_assoc]

theorem addAll_rel (c : Choices) (ops : List SimpleOperation)
    (request : CommitAtomicTransactionRequest) {s : RunState} {ch : Chosen} (h : s.Follows ch) :
    Option.Rel (fun chosen r => r.1 = chosen.foldl addOp request ∧
        r.2.Follows (ch.after ops chosen) ∧ r.2.runInfo.requests = s.runInfo.requests)
      (chooseAll c ops ch)
      (ops.foldlM (fun acc op => addOperation c op acc.1 acc.2) (request, s)) := by
  induction ops generalizing request s ch with
  | nil =>
    have hafter : ch.after [] [] = ch := by simp [Chosen.after]
    exact .some ⟨rfl, by rwa [hafter], rfl⟩
  | cons op ops ih =>
    rw [List.foldlM_cons, chooseAll]
    refine rel_bind (addOperation_rel c op request h) ?_
    rintro chosen r ⟨hr, hfollows, hsame⟩
    refine rel_bind_left (ih r.1 hfollows) ?_
    rintro rest r' ⟨hr', hfollows', hsame'⟩
    refine .some ⟨?_, ?_, hsame'.trans hsame⟩
    · rw [hr', hr, List.foldl_cons]
    · rwa [Chosen.after_after] at hfollows'

def Content.request (content : Content) : CommitAtomicTransactionRequest :=
  ⟨"", ⟨content.ops⟩, ⟨content.timeBeforeAbort.map fun d => ⟨d.seconds, d.nanos⟩⟩⟩

def Content.clientTransactionId (lib : Library) (content : Content) : String :=
  lib.cEscape (lib.serializeAsString content.request)

def Content.sent (lib : Library) (content : Content) : CommitAtomicTransactionRequest :=
  { content.request with clientTransactionId := content.clientTransactionId lib }

section Requests
variable (lib : Library) (c : Choices)

theorem addTransaction_rel (t : SimpleTransaction) {s : RunState} {ch : Chosen}
    (h : s.Follows ch) :
    Option.Rel (fun ops s' => s'.Follows (ch.after t.occurrences ops) ∧
        s'.runInfo.requests = s.runInfo.requests ++
          [(Content.sent lib ⟨t.timeBeforeAbort, ops⟩, t.async)])
      (chooseAll c t.occurrences ch) (addTransaction lib c t s) := by
  unfold addTransaction addOperations
  rw [← foldlM_flatMap]
  refine rel_bind_right (addAll_rel c t.occurrences (emptyRequest t) h) ?_
  rintro ops ⟨request, s'⟩ ⟨hrequest, hfollows, hsame⟩
  have hcontent : request = (⟨t.timeBeforeAbort, ops⟩ : Content).request :=
    hrequest.trans (foldl_addOp ops (emptyRequest t))
  subst hcontent
  exact .some ⟨⟨hfollows.calls, hfollows.putKeys⟩, congrArg (· ++ [_]) hsame⟩

theorem addTransactions_rel (ts : List SimpleTransaction) {s : RunState} {ch : Chosen}
    (h : s.Follows ch) :
    Option.Rel (fun p s' => s'.runInfo.requests.map Prod.fst =
        s.runInfo.requests.map Prod.fst ++ p.map (Content.sent lib))
      (contents c ts ch) (addTransactions lib c ts s) := by
  induction ts generalizing s ch with
  | nil => exact .some (by simp)
  | cons t ts ih =>
    rw [addTransactions, List.foldlM_cons, contents]
    refine rel_bind (addTransaction_rel lib c t h) ?_
    rintro ops s₁ ⟨hfollows, hrequests⟩
    refine rel_bind_left (ih hfollows) ?_
    intro p s' hsent
    refine .some ?_
    rw [hsent, hrequests]
    simp

theorem createRunInfoFromFile_eq (transactions : SimpleTransactions) :
    createRunInfoFromFile lib c (some transactions) =
      (addTransactions lib c transactions.schedule {}) >>= fun s => some (.ok s.runInfo) := by
  unfold createRunInfoFromFile SimpleTransactions.schedule addTransactions
  rw [List.foldlM_append, ← List.flatMap_id, bind_assoc]
  simp only [foldlM_flatMap]
  rfl

theorem createRunInfoFromFile_rel (transactions : SimpleTransactions) :
    Option.Rel (fun p result => ∃ run, result = .ok run ∧
        run.requests.map Prod.fst = p.map (Content.sent lib))
      (contents c transactions.schedule {}) (createRunInfoFromFile lib c (some transactions)) := by
  rw [createRunInfoFromFile_eq]
  refine rel_bind_right (addTransactions_rel lib c transactions.schedule ⟨rfl, fun _ => rfl⟩) ?_
  intro p s hsent
  exact .some ⟨s.runInfo, rfl, hsent⟩

end Requests

end TwoPhaseCommit.ClientMain
