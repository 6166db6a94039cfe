import PMTest.Intervals
import PMTest.Segments
import PMTest.Lookahead
import PMTest.Metadata
import PMTest.Handlers
import PMTest.VeriProc
import PMTest.ByteModel
import PMTest.Transitions
import PMTest.Buffers
import PMTest.FastVector
import PMTest.History
import PMTest.PersistVerdict
import PMTest.PersistBeforeFence
import PMTest.OrderVerdict
import PMTest.Erasure
import PMTest.UndoLog
import PMTest.RedundantFlush
import PMTest.Exclusion
import PMTest.WarningBuild
import PMTest.Placement
import PMTest.Commutation
import PMTest.RepeatedFence
import PMTest.StrictOrder
import PMTest.Recorder
import PMTest.RecordedSizes
import PMTest.VariableRegistry
import PMTest.KernelFifo
import PMTest.LostWakeUp
import PMTest.KernelClient
import PMTest.WorkerPool
import PMTest.ConcurrentClients
import PMTest.Accounting
import PMTest.Construction
import PMTest.Barrier
import PMTest.Shutdown
import PMTest.RecordPass
import PMTest.Agreement
import PMTest.Synchronisation
import PMTest.Brackets
import PMTest.NestedTransactions
import PMTest.Sections
import PMTest.PersistentMemory
import PMTest.CrashVerdict
import PMTest.UndoRecovery
import PMTest.Rollback
import PMTest.RoundRobin
import PMTest.Coherence
import PMTest.Notifications
import PMTest.Progress
import PMTest.Submissions
import PMTest.Session
import PMTest.UnsetFields
import PMTest.Relocation
import PMTest.Blame
import PMTest.KernelSession
import PMTest.KernelPipeline
import PMTest.CrashImages
import PMTest.RedoLog
import PMTest.RedoRecovery
import PMTest.RedoTrace
import PMTest.Operations
