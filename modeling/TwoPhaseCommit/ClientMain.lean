import Mathlib.Logic.Function.Basic
import TwoPhaseCommit.Lib.Grouping
import TwoPhaseCommit.Messages

/-! The client driver: it turns a file of simple transactions into the requests of a run. -/
namespace TwoPhaseCommit.ClientMain
open Coordinator Grouping

inductive OpType where
  | unspecified
  | get
  | put
  | unrecognized (number : ℤ)
  deriving DecidableEq

inductive AddressType where
  | address (address : String)
  | randomAddress (value : Bool)
  deriving DecidableEq

inductive KeyType where
  | key (key : String)
  | randomKey (value : Bool)
  | randomPutKey (value : Bool)
  deriving DecidableEq

inductive OpValueType where
  | value (value : Int64)
  | relativeValue (value : Int64)
  | randomValue (value : Bool)
  | randomRelativeValue (value : Bool)
  deriving DecidableEq

/-- The Operation of client.proto. -/
structure SimpleOperation where
  type : OpType
  addressType : Option AddressType
  keyType : Option KeyType
  valueType : Option OpValueType
  repeatCount : Int64
  deriving DecidableEq

structure Duration where
  seconds : ℤ
  nanos : ℤ
  deriving DecidableEq

structure SimpleTransaction where
  timeBeforeAbort : Option Duration
  op : List SimpleOperation
  async : Bool
  deriving DecidableEq

structure SimpleTransactions where
  initialTransaction : List SimpleTransaction
  cycleTransaction : List SimpleTransaction
  cycleLength : Int64

def SimpleOperation.address (op : SimpleOperation) : String :=
  match op.addressType with
  | some (.address address) => address
  | _ => ""

def SimpleOperation.key (op : SimpleOperation) : String :=
  match op.keyType with
  | some (.key key) => key
  | _ => ""

def SimpleOperation.value (op : SimpleOperation) : Int64 :=
  match op.valueType with
  | some (.value value) => value
  | _ => 0

/-- What a run of the driver has no say in: what each call of rand returns, and the order in which
a hash set is walked when so many of these calls were made. -/
structure Choices where
  rand : ℕ → ℕ
  order : ℕ → IterationOrder String

/-- The library functions that make the ids; serializing fails for messages that are too large. -/
structure Library where
  serializeToString : CommitAtomicTransactionRequest → Option (List UInt8)
  cEscape : List UInt8 → String

/-- The string is left empty when the message cannot be serialized. -/
def Library.serializeAsString (lib : Library) (request : CommitAtomicTransactionRequest) :
    List UInt8 :=
  (lib.serializeToString request).getD []

structure RunInfo where
  cohortAddresses : List String := []
  requests : List (CommitAtomicTransactionRequest × Bool) := []

/-- The run so far, with the number of calls of rand. -/
structure RunState where
  runInfo : RunInfo := {}
  putKeysByAddress : String → List String := fun _ => []
  calls : ℕ := 0

def RunState.called (s : RunState) (n : ℕ) : RunState := { s with calls := s.calls + n }

def RunState.addCohortAddress (s : RunState) (address : String) : RunState :=
  { s with runInfo :=
      { s.runInfo with cohortAddresses := s.runInfo.cohortAddresses.insert address } }

def RunState.addPutKey (s : RunState) (address key : String) : RunState :=
  { s with putKeysByAddress :=
      Function.update s.putKeysByAddress address ((s.putKeysByAddress address).insert key) }

def RunState.addRequest (s : RunState) (request : CommitAtomicTransactionRequest × Bool) :
    RunState :=
  { s with runInfo := { s.runInfo with requests := s.runInfo.requests ++ [request] } }

def addOp (request : CommitAtomicTransactionRequest) (op : Operation) :
    CommitAtomicTransactionRequest :=
  { request with transaction := ⟨request.transaction.ops ++ [op]⟩ }

def addGetOp (request : CommitAtomicTransactionRequest) (address key : String) :
    CommitAtomicTransactionRequest :=
  addOp request ⟨⟨"", address⟩, some (.get ⟨key⟩)⟩

def addPutOp (request : CommitAtomicTransactionRequest) (address key : String) (value : Int64) :
    CommitAtomicTransactionRequest :=
  addOp request ⟨⟨"", address⟩, some (.put ⟨key, some (.constantValue ⟨some value⟩)⟩)⟩

def addRelativePutOp (request : CommitAtomicTransactionRequest) (address key : String)
    (relativeValue : Int64) : CommitAtomicTransactionRequest :=
  addOp request
    ⟨⟨"", address⟩, some (.put ⟨key, some (.relativeValue ⟨some ⟨some relativeValue⟩, none⟩)⟩)⟩

def addresses : List String :=
  ["0.0.0.0:60000", "0.0.0.0:60001", "0.0.0.0:60002", "0.0.0.0:60003", "0.0.0.0:60004",
    "0.0.0.0:60005", "0.0.0.0:60006", "0.0.0.0:60007", "0.0.0.0:60008", "0.0.0.0:60009"]

def randomAddress (r : ℕ) : String := addresses.get ⟨r % addresses.length, Nat.mod_lt r (by decide)⟩

def randomChar (r : ℕ) : Char := Char.ofNat ('a'.toNat + r % 26)

def randomValue (r : ℕ) : Int64 := Int64.ofInt (r % 50 - 10)

def getRandomAddress (c : Choices) (s : RunState) : String × RunState :=
  (randomAddress (c.rand s.calls), s.called 1)

def getRandomKey (c : Choices) (s : RunState) : String × RunState :=
  (String.ofList ((List.range 3).map fun i => randomChar (c.rand (s.calls + i))), s.called 3)

/-- A key of a set; the division by the size of an empty set kills the driver. -/
def getRandomKeyOf (c : Choices) (keys : List String) (s : RunState) : Option (String × RunState) :=
  (((c.order s.calls).arrange keys)[c.rand s.calls % keys.length]?).map fun key => (key, s.called 1)

def getRandomValue (c : Choices) (s : RunState) : Int64 × RunState :=
  (randomValue (c.rand s.calls), s.called 1)

def operationAddress (c : Choices) (op : SimpleOperation) (s : RunState) : String × RunState :=
  match op.addressType with
  | some (.randomAddress _) => getRandomAddress c s
  | _ => (op.address, s)

def operationKey (c : Choices) (op : SimpleOperation) (address : String) (s : RunState) :
    Option (String × RunState) :=
  match op.keyType with
  | some (.randomKey _) => some (getRandomKey c s)
  | some (.randomPutKey _) => getRandomKeyOf c (s.putKeysByAddress address) s
  | _ => some (op.key, s)

/-- The part of AddOperation that is for puts. -/
def addPutOperation (c : Choices) (op : SimpleOperation)
    (request : CommitAtomicTransactionRequest) (address key : String) (s : RunState) :
    CommitAtomicTransactionRequest × RunState :=
  let s := s.addPutKey address key
  match op.valueType with
  | some (.randomRelativeValue _) =>
    let (value, s) := getRandomValue c s
    (addRelativePutOp request address key value, s)
  | some (.relativeValue value) => (addRelativePutOp request address key value, s)
  | some (.randomValue _) =>
    let (value, s) := getRandomValue c s
    (addPutOp request address key value, s)
  | _ => (addPutOp request address key op.value, s)

def addOperation (c : Choices) (op : SimpleOperation) (request : CommitAtomicTransactionRequest)
    (s : RunState) : Option (CommitAtomicTransactionRequest × RunState) := do
  let (address, s) := operationAddress c op s
  let s := s.addCohortAddress address
  let (key, s) ← operationKey c op address s
  if op.type = .put then some (addPutOperation c op request address key s)
  else some (addGetOp request address key, s)

def SimpleOperation.iterations (op : SimpleOperation) : ℕ :=
  (if op.repeatCount ≠ 0 then op.repeatCount else 1).toInt.toNat

def addOperations (c : Choices) (ops : List SimpleOperation)
    (request : CommitAtomicTransactionRequest) (s : RunState) :
    Option (CommitAtomicTransactionRequest × RunState) :=
  ops.foldlM (fun acc op => (List.replicate op.iterations op).foldlM
    (fun acc op => addOperation c op acc.1 acc.2) acc) (request, s)

def emptyRequest (transaction : SimpleTransaction) : CommitAtomicTransactionRequest :=
  ⟨"", ⟨[]⟩, ⟨transaction.timeBeforeAbort.map fun d => ⟨d.seconds, d.nanos⟩⟩⟩

def addTransaction (lib : Library) (c : Choices) (transaction : SimpleTransaction)
    (s : RunState) : Option RunState := do
  let (request, s) ← addOperations c transaction.op (emptyRequest transaction) s
  let request :=
    { request with clientTransactionId := lib.cEscape (lib.serializeAsString request) }
  some (s.addRequest (request, transaction.async))

def addTransactions (lib : Library) (c : Choices) (transactions : List SimpleTransaction)
    (s : RunState) : Option RunState :=
  transactions.foldlM (fun s transaction => addTransaction lib c transaction s) s

/-- None when the driver is killed. The file's contents are none when they cannot be parsed. -/
def createRunInfoFromFile (lib : Library) (c : Choices) (file : Option SimpleTransactions) :
    Option (Except Status RunInfo) :=
  match file with
  | none => some (.error ⟨.invalidArgument, "File could not be parsed as transactions"⟩)
  | some transactions => do
    let s ← addTransactions lib c transactions.initialTransaction {}
    let s ← (List.replicate transactions.cycleLength.toInt.toNat
      transactions.cycleTransaction).foldlM (fun s cycle => addTransactions lib c cycle s) s
    some (.ok s.runInfo)

end TwoPhaseCommit.ClientMain
