import Calvin.Common.AtomicQueue
import Calvin.Common.Types
import Calvin.Lib.Bisect
import Calvin.Lib.BucketTable
import Calvin.Lib.Draw
import Calvin.Lib.Links
import Calvin.Lib.LockQueue
import Calvin.Lib.Machine
import Calvin.Lib.Ring
import Calvin.Lib.Serial
import Calvin.Log.LocalMemLog
import Calvin.Log.LocalPaxos
import Calvin.Log.LocalPaxosEffects
import Calvin.Log.LocalPaxosFollower
import Calvin.Log.LocalPaxosGeneration
import Calvin.Log.LocalPaxosHandOver
import Calvin.Log.LocalPaxosSteps
import Calvin.Log.LocalPaxosSynchronize
import Calvin.Log.LogBuffer
import Calvin.Log.Paxos
import Calvin.Log.PaxosFollower
import Calvin.Machine.Client
import Calvin.Machine.ClusterConfig
import Calvin.Machine.ConfigFile
import Calvin.Machine.Connection
import Calvin.Machine.FilledTransactions
import Calvin.Machine.LowlatencySequencer
import Calvin.Machine.LowlatencySequencerWriter
import Calvin.Machine.MasterLookups
import Calvin.Machine.NumberKeys
import Calvin.Machine.Sequencer
import Calvin.Machine.TxnBatches
import Calvin.Machine.TxnIds
import Calvin.Backend.StorageManager
import Calvin.Backend.StorageManagerSpec
import Calvin.Applications.Execution
import Calvin.Applications.KeyGroups
import Calvin.Applications.Microbenchmark
import Calvin.Applications.MicrobenchmarkTxns
import Calvin.Applications.RandomKeys
import Calvin.Applications.TpccTxns
import Calvin.Scheduler.BatchStream
import Calvin.Scheduler.DeterministicScheduler
import Calvin.Scheduler.DeterministicSchedulerSpec
import Calvin.Scheduler.GetBatch
import Calvin.Scheduler.GrantedLocks
import Calvin.Scheduler.KeyQueues
import Calvin.Scheduler.Lifecycle
import Calvin.Scheduler.LockCalls
import Calvin.Scheduler.LockManager
import Calvin.Scheduler.LockManagerSpec
import Calvin.Scheduler.LockOwners
import Calvin.Scheduler.LockQueues
import Calvin.Scheduler.LockTable
import Calvin.Scheduler.NodeSchedule
import Calvin.Scheduler.OneMaster
import Calvin.Scheduler.OneRecord
import Calvin.Scheduler.Ordering
import Calvin.Scheduler.OrderingSpec
import Calvin.Scheduler.OriginalReplica
import Calvin.Scheduler.OriginalSystem
import Calvin.Scheduler.OriginalSystemSpec
import Calvin.Scheduler.Pipeline
import Calvin.Scheduler.ReadExchange
import Calvin.Scheduler.RemasterWaits
import Calvin.Scheduler.RemasterWaitsSpec
import Calvin.Scheduler.Replica
import Calvin.Scheduler.ReplicaSpec
import Calvin.Scheduler.Replicas
import Calvin.Scheduler.ReplicasSpec
import Calvin.Scheduler.SingleNode
import Calvin.Scheduler.Snapshots
import Calvin.Scheduler.Workers
import Calvin.Scheduler.WorkersSpec
import Calvin.Theorems.AgreedOrder
import Calvin.Theorems.AgreedRecords
import Calvin.Theorems.AgreedRuns
import Calvin.Theorems.BatchOrder
import Calvin.Theorems.BatchVotes
import Calvin.Theorems.ChannelDelivery
import Calvin.Theorems.ClientLoops
import Calvin.Theorems.ClusterLayout
import Calvin.Theorems.CommitAgreement
import Calvin.Theorems.Convergence
import Calvin.Theorems.DispatchCoverage
import Calvin.Theorems.EarlyWakeUp
import Calvin.Theorems.Epochs
import Calvin.Theorems.FakeTransactions
import Calvin.Theorems.FirstProposal
import Calvin.Theorems.FollowerLog
import Calvin.Theorems.GeneratedCopies
import Calvin.Theorems.GlobalLog
import Calvin.Theorems.LastMessage
import Calvin.Theorems.LockGrants
import Calvin.Theorems.LockOrder
import Calvin.Theorems.LockProgress
import Calvin.Theorems.LockRelease
import Calvin.Theorems.LogDecisions
import Calvin.Theorems.LogEpochs
import Calvin.Theorems.LogReaders
import Calvin.Theorems.LogSeek
import Calvin.Theorems.LogValues
import Calvin.Theorems.Mastership
import Calvin.Theorems.MicrobenchmarkKeys
import Calvin.Theorems.NoDeadlock
import Calvin.Theorems.OriginalClients
import Calvin.Theorems.ServedClients
import Calvin.Theorems.OneRetry
import Calvin.Theorems.ParticipantsReady
import Calvin.Theorems.OriginalRuns
import Calvin.Theorems.OriginalSerial
import Calvin.Theorems.OwnRecords
import Calvin.Theorems.PaxosAgreement
import Calvin.Theorems.PaxosProgress
import Calvin.Theorems.RemasterQueues
import Calvin.Theorems.RepeatedKeys
import Calvin.Theorems.RequestChopping
import Calvin.Theorems.RetryDispatch
import Calvin.Theorems.RoutedOnce
import Calvin.Theorems.SequenceExchange
import Calvin.Theorems.SerialEquivalence
import Calvin.Theorems.StrongAvailability
import Calvin.Theorems.TableRefinement
import Calvin.Theorems.Termination
import Calvin.Theorems.TpccKeys
import Calvin.Theorems.Turns
import Calvin.Theorems.UniqueIds
import Calvin.Theorems.Updates
