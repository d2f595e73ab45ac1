import TwoPhaseCommit.Lib.Digits
import TwoPhaseCommit.Contract
import TwoPhaseCommit.BallotTable
import TwoPhaseCommit.ContractRuns
import TwoPhaseCommit.AdapterChain
import TwoPhaseCommit.Database
import TwoPhaseCommit.Lib.Grouping
import TwoPhaseCommit.Split
import TwoPhaseCommit.Clock
import TwoPhaseCommit.Coordinator
import TwoPhaseCommit.CoordinatorRuns
import TwoPhaseCommit.Submission
import TwoPhaseCommit.Cohort
import TwoPhaseCommit.CohortLocks
import TwoPhaseCommit.CohortSerial
import TwoPhaseCommit.CohortPool
import TwoPhaseCommit.CohortPromise
import TwoPhaseCommit.System
import TwoPhaseCommit.SystemRecords
import TwoPhaseCommit.AtomicCommit
import TwoPhaseCommit.CoordinatorAnswers
import TwoPhaseCommit.Client
import TwoPhaseCommit.ResultMerge
import TwoPhaseCommit.ContractCallbacks
import TwoPhaseCommit.StartValidation
import TwoPhaseCommit.CohortHoldings
import TwoPhaseCommit.LmdbAdapter
import TwoPhaseCommit.CohortRelease
import TwoPhaseCommit.CohortDeadlock
import TwoPhaseCommit.CohortDeadlines
import TwoPhaseCommit.CoordinatorRaces
import TwoPhaseCommit.SystemAnswers
import TwoPhaseCommit.CohortProgram
import TwoPhaseCommit.Interpreter
import TwoPhaseCommit.CallOrder
import TwoPhaseCommit.AbortReasons
import TwoPhaseCommit.CoordinatorSubmissions
import TwoPhaseCommit.SingleCohort
import TwoPhaseCommit.LmdbHandles
import TwoPhaseCommit.StorageFailures
import TwoPhaseCommit.RelativePuts
import TwoPhaseCommit.AbortTimes
import TwoPhaseCommit.TransactionIds
import TwoPhaseCommit.LockPlan
import TwoPhaseCommit.ClientMain
import TwoPhaseCommit.ClientPlan
import TwoPhaseCommit.ClientIds
import TwoPhaseCommit.Lib.Reordering
import TwoPhaseCommit.Conflicts
import TwoPhaseCommit.GlobalOrder
import TwoPhaseCommit.OneCopy
import TwoPhaseCommit.SystemProgress
import TwoPhaseCommit.SystemValidity
import TwoPhaseCommit.SystemCompletion
import TwoPhaseCommit.SystemResolution
import TwoPhaseCommit.SystemSessions
import TwoPhaseCommit.CohortFiles
import TwoPhaseCommit.Lib.Sharding
import TwoPhaseCommit.Isolation
import TwoPhaseCommit.Lib.Backoff
import TwoPhaseCommit.Polling
import TwoPhaseCommit.Lib.AtomicService
import TwoPhaseCommit.SystemRefinement
import TwoPhaseCommit.SystemLiveness
