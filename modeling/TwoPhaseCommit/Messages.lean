import Mathlib.Data.Int.Notation

/-! The messages of the client, coordinator and cohort APIs, and the statuses of their
calls. A oneof is an option of its cases; an unset field reads as its default. -/
namespace TwoPhaseCommit

structure Namespace where
  identifier : String := ""
  address : String := ""
  deriving DecidableEq, Repr

structure Get where
  key : String
  deriving DecidableEq, Repr

structure ConstantValue where
  int64Value : Option Int64
  deriving DecidableEq

structure NumericValue where
  int64Value : Option Int64
  deriving DecidableEq

structure RelativeValue where
  relativeValue : Option NumericValue
  defaultValue : Option NumericValue
  deriving DecidableEq

inductive ValueType where
  | constantValue (value : ConstantValue)
  | relativeValue (value : RelativeValue)
  deriving DecidableEq

structure Put where
  key : String
  value : Option ValueType
  deriving DecidableEq

inductive OperationType where
  | get (get : Get)
  | put (put : Put)
  deriving DecidableEq

structure Operation where
  namespace_ : Namespace
  type : Option OperationType
  deriving DecidableEq

structure Transaction where
  ops : List Operation
  deriving DecidableEq

structure Timestamp where
  seconds : ℤ
  nanos : ℤ
  deriving DecidableEq, Repr

structure TransactionConfig where
  presumedAbortTime : Option Timestamp
  deriving DecidableEq, Repr

/-- Proto enums are open: a value without a name is kept as its number. -/
inductive AbortReason where
  | unspecified
  | presumedAbortTimestampReached
  | resourceLocked
  | operationForNonExistentValue
  | relativeValueInvalidType
  | unrecognized (number : ℤ)
  deriving DecidableEq, Repr

structure GetResponse where
  namespace_ : Namespace
  get : Get
  value : ConstantValue
  deriving DecidableEq

structure CommittedResponse where
  getResponses : List GetResponse := []
  deriving DecidableEq

def ConstantValue.int64 (v : ConstantValue) : Int64 := v.int64Value.getD 0

/-- Reading through an unset NumericValue gives zero. -/
def NumericValue.int64 (v : Option NumericValue) : Int64 := (v.bind (·.int64Value)).getD 0

/-- The codes shared by absl::Status and grpc::Status. -/
inductive StatusCode where
  | ok
  | cancelled
  | unknown
  | invalidArgument
  | deadlineExceeded
  | notFound
  | alreadyExists
  | permissionDenied
  | resourceExhausted
  | failedPrecondition
  | aborted
  | outOfRange
  | unimplemented
  | internal
  | unavailable
  | dataLoss
  | unauthenticated
  deriving DecidableEq, Repr

structure Status where
  code : StatusCode
  message : String
  deriving DecidableEq, Repr

def Status.okStatus : Status := ⟨.ok, ""⟩

def Status.isOk (s : Status) : Bool := s.code = .ok

/-- `FromAbslStatus`: the same code under a prefixed message. -/
def Status.withPrefix (s : Status) (text : String) : Status := ⟨s.code, text ++ " " ++ s.message⟩

@[simp] theorem Status.isOk_okStatus : Status.okStatus.isOk = true := rfl

namespace Cohort

inductive ParticipantInfo where
  | onlyCohort (value : Bool)
  | cohortIndex (value : UInt32)
  deriving DecidableEq

structure PrepareTransactionRequest where
  transactionId : String
  transaction : Transaction
  config : TransactionConfig
  participantInfo : Option ParticipantInfo
  deriving DecidableEq

def PrepareTransactionRequest.onlyCohort (r : PrepareTransactionRequest) : Bool :=
  match r.participantInfo with
  | some (.onlyCohort value) => value
  | _ => false

def PrepareTransactionRequest.cohortIndex (r : PrepareTransactionRequest) : UInt32 :=
  match r.participantInfo with
  | some (.cohortIndex value) => value
  | _ => 0

inductive ResultStatus where
  | pendingResponse
  | committedResponse (response : CommittedResponse)
  | abortedResponse (reason : AbortReason)
  deriving DecidableEq

/-- GetTransactionResultResponse of a cohort: its oneof `status`. -/
abbrev GetTransactionResultResponse := Option ResultStatus

/-- `committed_response()`: another case of the oneof reads as the empty response. -/
def GetTransactionResultResponse.committed (r : GetTransactionResultResponse) : CommittedResponse :=
  match r with
  | some (.committedResponse response) => response
  | _ => {}

end Cohort

namespace Coordinator

structure CommitAtomicTransactionRequest where
  clientTransactionId : String
  transaction : Transaction
  config : TransactionConfig
  deriving DecidableEq

structure CommitAtomicTransactionResponse where
  globalTransactionId : String
  config : TransactionConfig
  deriving DecidableEq

structure AbortedResponse where
  reason : AbortReason := .unspecified
  namespaces : List Namespace := []
  deriving DecidableEq

structure CommittedResponse where
  complete : Bool := false
  response : TwoPhaseCommit.CommittedResponse := {}
  deriving DecidableEq

inductive ResultStatus where
  | pendingResponse
  | committedResponse (response : CommittedResponse)
  | abortedResponse (response : AbortedResponse)
  deriving DecidableEq

/-- GetTransactionResultResponse of the coordinator: its oneof `status`. -/
abbrev GetTransactionResultResponse := Option ResultStatus

end Coordinator
end TwoPhaseCommit
