import OpenArangoDBCore.Basics
import OpenArangoDBCore.Lib.Frontier
import OpenArangoDBCore.Lib.Interleaving
import OpenArangoDBCore.Lib.PaddedLex
import OpenArangoDBCore.Lib.Segments
import OpenArangoDBCore.Replication.ReplicationApplier
import OpenArangoDBCore.Replication.ApplierState
import OpenArangoDBCore.Replication.ApplierOrder
import OpenArangoDBCore.Replication.ApplierBuffer
import OpenArangoDBCore.Replication.ApplierStall
import OpenArangoDBCore.Replication.ApplierConvergence
import OpenArangoDBCore.Replication.IdempotencyChecker
import OpenArangoDBCore.Sharding.ShardingStrategyEE
import OpenArangoDBCore.Replication.ShardWALTailer
import OpenArangoDBCore.Replication.DC2DCReplicator
import OpenArangoDBCore.Replication.WireSequence
import OpenArangoDBCore.RocksDBEngine.KeySpacePartitioner
import OpenArangoDBCore.RocksDBEngine.ChangelogBuffer
import OpenArangoDBCore.RocksDBEngine.RocksDBBuilderIndexEE
import OpenArangoDBCore.RocksDBEngine.BuilderLifecycle
import OpenArangoDBCore.RocksDBEngine.BuilderChangelog
import OpenArangoDBCore.RocksDBEngine.ParallelFill
import OpenArangoDBCore.RocksDBEngine.PartitionOrder
import OpenArangoDBCore.Replication.ConcurrentReceivers
import OpenArangoDBCore.Replication.TailLoopConservation
import OpenArangoDBCore.Replication.TailerPolls
import OpenArangoDBCore.IResearch.IResearchOptimizeTopK
import OpenArangoDBCore.IResearch.WandTopK
import OpenArangoDBCore.Auth.LDAPConfig
import OpenArangoDBCore.Auth.LDAPHandler
import OpenArangoDBCore.Lib.SearchFilter
import OpenArangoDBCore.Auth.LDAPAuthentication
import OpenArangoDBCore.Lib.FileTree
import OpenArangoDBCore.RocksDBEngine.BackupManifest
import OpenArangoDBCore.RocksDBEngine.RocksDBHotBackup
import OpenArangoDBCore.RestHandler.RestHotBackupHandler
import OpenArangoDBCore.RocksDBEngine.DeleteBackup
import OpenArangoDBCore.RocksDBEngine.HotBackupCreate
import OpenArangoDBCore.RocksDBEngine.CheckpointManifest
import OpenArangoDBCore.RocksDBEngine.CreateSafety
import OpenArangoDBCore.Lib.Delimited
import OpenArangoDBCore.RocksDBEngine.ManifestRoundTrip
import OpenArangoDBCore.RocksDBEngine.ManifestListing
import OpenArangoDBCore.Lib.CounterMode
import OpenArangoDBCore.RocksDBEngine.EncryptionProvider
import OpenArangoDBCore.Replication.ReplicationCheckpoint
import OpenArangoDBCore.Replication.CheckpointTruncation
import OpenArangoDBCore.Replication.ReplicatorLifecycle
import OpenArangoDBCore.Lib.MutualExclusion
import OpenArangoDBCore.RocksDBEngine.IndexBuilderThreadPool
import OpenArangoDBCore.RocksDBEngine.ThreadPoolShutdown
import OpenArangoDBCore.Lib.ProducerConsumer
import OpenArangoDBCore.Audit.AuditCompleteness
import OpenArangoDBCore.RocksDBEngine.ThreadPoolTasks
import OpenArangoDBCore.Lib.Records
import OpenArangoDBCore.Audit.AuditRecords
import OpenArangoDBCore.VocBase.SmartGraphSchema
import OpenArangoDBCore.Graph.SmartGraphRouting
import OpenArangoDBCore.Replication.SmartStreams
import OpenArangoDBCore.Lib.CheckThenAct
import OpenArangoDBCore.Replication.CheckpointReceiver
import OpenArangoDBCore.Replication.ReplicationFeedStream
import OpenArangoDBCore.Replication.ReportedProgress
import OpenArangoDBCore.RestHandler.RestReplicationHandler
import OpenArangoDBCore.Replication.FeedPaging
import OpenArangoDBCore.Lib.JsonText
import OpenArangoDBCore.Lib.JsonValue
import OpenArangoDBCore.Replication.FeedEncoding
import OpenArangoDBCore.Lib.TextSearch
import OpenArangoDBCore.Lib.Iterate
import OpenArangoDBCore.Maskings.AttributeMasking
import OpenArangoDBCore.Maskings.LoadTermination
import OpenArangoDBCore.Maskings.ConfigLayout
import OpenArangoDBCore.Maskings.LayoutScan
import OpenArangoDBCore.Maskings.LoadRules
import OpenArangoDBCore.Maskings.LoadCollection
import OpenArangoDBCore.Maskings.DocumentBraces
import OpenArangoDBCore.Maskings.LayoutPositions
import OpenArangoDBCore.Maskings.LoadCompleteness
import OpenArangoDBCore.IResearch.IResearchAnalyzerFeature
import OpenArangoDBCore.Lib.MinWise
import OpenArangoDBCore.Lib.ExactWords
import OpenArangoDBCore.Aql.PermutationHash
import OpenArangoDBCore.Aql.MinHashFunctions
import OpenArangoDBCore.Lib.PrefixCode
import OpenArangoDBCore.Replication.DirectMQProtocol
import OpenArangoDBCore.Replication.SequenceNumberGenerator
import OpenArangoDBCore.Lib.Stride
import OpenArangoDBCore.Cluster.ReadFromFollower
import OpenArangoDBCore.Lib.Resources
import OpenArangoDBCore.Auth.LDAPResources
import OpenArangoDBCore.RocksDBEngine.EncryptedLength
import OpenArangoDBCore.IResearch.RepeatedScore
import OpenArangoDBCore.IResearch.PartialHeap
import OpenArangoDBCore.Replication.CheckpointCrash
import OpenArangoDBCore.Replication.CheckpointMembers
import OpenArangoDBCore.Replication.ConnectionRetryPolicy
import OpenArangoDBCore.Lib.Redaction
import OpenArangoDBCore.Maskings.DigitMasks
import OpenArangoDBCore.Aql.SignatureMerge
import OpenArangoDBCore.Lib.Cuts
import OpenArangoDBCore.Lib.SlotTags
import OpenArangoDBCore.IResearch.MinHashTokens
import OpenArangoDBCore.Auth.LDAPRoles
import OpenArangoDBCore.Replication.CheckerAgreement
import OpenArangoDBCore.Lib.Loops
import OpenArangoDBCore.Replication.CheckpointLoad
import OpenArangoDBCore.Lib.JsonFields
import OpenArangoDBCore.RestHandler.HotBackupResponses
import OpenArangoDBCore.Lib.BinaryHeap
import OpenArangoDBCore.IResearch.ScoreHeap
import OpenArangoDBCore.Lib.Tickets
import OpenArangoDBCore.Replication.SourceToTarget
import OpenArangoDBCore.Lib.StableSort
import OpenArangoDBCore.IResearch.OptimizerRule
import OpenArangoDBCore.IResearch.PlanMeaning
import OpenArangoDBCore.RocksDBEngine.RestoreBackup
import OpenArangoDBCore.StorageEngine.HotBackupFeature
import OpenArangoDBCore.Lib.Chains
import OpenArangoDBCore.Maskings.ApplyMasking
import OpenArangoDBCore.Lib.Lines
import OpenArangoDBCore.Lib.Patterns
import OpenArangoDBCore.Lib.TwoRuns
import OpenArangoDBCore.RClone.RCloneProcess
import OpenArangoDBCore.RClone.ProgressReports
import OpenArangoDBCore.RClone.RCloneFeature
import OpenArangoDBCore.RestHandler.ReplicationServer
import OpenArangoDBCore.RestHandler.ReplicationClient
import OpenArangoDBCore.Lib.Commuting
import OpenArangoDBCore.RocksDBEngine.ParallelContents
import OpenArangoDBCore.Graph.DisjointTraversal
import OpenArangoDBCore.Lib.Overlay
import OpenArangoDBCore.RocksDBEngine.RocksDBEncryptionUtils
import OpenArangoDBCore.Encryption.EncryptionFeature
import OpenArangoDBCore.Replication.DurableCheckpoint
import OpenArangoDBCore.Audit.AuditFeature
