import RaftLogStore.Lib.OptionOrder
import RaftLogStore.Lib.OrderedMap
import RaftLogStore.Lib.SortedList
import RaftLogStore.Lib.Transition
import RaftLogStore.Lib.StateExcept
import RaftLogStore.Model.Types
import RaftLogStore.Model.RaftLogState
import RaftLogStore.Model.PayloadCache
import RaftLogStore.Model.StateMachine
import RaftLogStore.Model.ChunkedWal
import RaftLogStore.Model.RaftLog
import RaftLogStore.Model.System
import RaftLogStore.Store.AppendAndApply
import RaftLogStore.Store.Calls
import RaftLogStore.Store.Agreement
import RaftLogStore.Journal.Basic
import RaftLogStore.Journal.Refinement
import RaftLogStore.Journal.Ledger
import RaftLogStore.Journal.History
import RaftLogStore.Journal.Accounting
import RaftLogStore.Journal.Reopening
import RaftLogStore.Store.Guards
import RaftLogStore.Journal.Restart
import RaftLogStore.Journal.Opening
import RaftLogStore.Model.MemoryWal
import RaftLogStore.Model.Simulation
import RaftLogStore.Store.FallibleStore
import RaftLogStore.Results.Restart
import RaftLogStore.Journal.Extension
import RaftLogStore.Results.HardState
import RaftLogStore.Results.Deletion
import RaftLogStore.Journal.Backing
import RaftLogStore.Results.Reading
import RaftLogStore.Lib.Codec
import RaftLogStore.Model.RecordCodec
import RaftLogStore.Results.RecordCodec
import RaftLogStore.Journal.States
import RaftLogStore.Results.Commit
import RaftLogStore.Results.Batch
import RaftLogStore.Results.Truncation
import RaftLogStore.Results.Draining
import RaftLogStore.Results.Resumption
import RaftLogStore.Results.Counting
import RaftLogStore.Results.Replacement
import RaftLogStore.Results.Segments
import RaftLogStore.Results.Totality
import RaftLogStore.Results.RestartEquivalence
import RaftLogStore.Results.StoreInvariant
import RaftLogStore.Results.SingleWrite
import RaftLogStore.Results.Purging
import RaftLogStore.Results.Retention
import RaftLogStore.Results.Eviction
import RaftLogStore.Journal.Reporting
import RaftLogStore.Results.Availability
import RaftLogStore.Lib.Refinement
import RaftLogStore.Abstract.DurableLog
import RaftLogStore.Abstract.View
import RaftLogStore.Abstract.Calls
import RaftLogStore.Results.DurableLog
import RaftLogStore.Results.Equivalence
import RaftLogStore.Results.Acknowledgement
import RaftLogStore.Results.DroppedChunks
import RaftLogStore.Abstract.Composition
import RaftLogStore.Results.Composition
import RaftLogStore.Model.Readers
import RaftLogStore.Results.ConcurrentReading
import RaftLogStore.Results.Reclamation
import RaftLogStore.Results.Rejection
import RaftLogStore.Results.DrainedCache
import RaftLogStore.Results.IoErrors
