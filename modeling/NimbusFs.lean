import NimbusFs.Common.BoundedBlockingQueue
import NimbusFs.Common.ConfigNumbers
import NimbusFs.Common.ConfigValidate
import NimbusFs.Common.ConfigLoad
import NimbusFs.Common.Lease
import NimbusFs.Common.PathValidator
import NimbusFs.Common.PathTree
import NimbusFs.StorageNode.Concurrency
import NimbusFs.StorageNode.AnyDisk
import NimbusFs.StorageNode.CrashConsistency
import NimbusFs.StorageNode.Durability
import NimbusFs.StorageNode.Service
import NimbusFs.StorageNode.Node
import NimbusFs.StorageNode.Streaming
import NimbusFs.StorageNode.NodeRuns
import NimbusFs.StorageNode.RoundTrip
import NimbusFs.StorageNode.Replication
import NimbusFs.StorageNode.SizeLimit
import NimbusFs.StorageNode.Preamble
import NimbusFs.StorageNode.FailedPut
import NimbusFs.StorageNode.ProbeErrors
import NimbusFs.StorageNode.Listing
import NimbusFs.StorageNode.FaultInjectingChunkStore
import NimbusFs.StorageNode.CorrelationId
import NimbusFs.Lib.Layers
import NimbusFs.Lib.Progress
import NimbusFs.Lib.Tracked
import NimbusFs.Lib.MonitorProgress
import NimbusFs.Lib.Resource
import NimbusFs.StorageNode.Descriptors
import NimbusFs.StorageNode.ConcurrentNode
import NimbusFs.StorageNode.Reads
import NimbusFs.StorageNode.Cluster
import NimbusFs.Lib.Durable
import NimbusFs.StorageNode.Kills
import NimbusFs.StorageNode.NodeStats
import NimbusFs.StorageNode.Temporaries
import NimbusFs.StorageNode.Recovery
import NimbusFs.StorageNode.Securing
import NimbusFs.StorageNode.PowerLoss
import NimbusFs.Lib.Network
import NimbusFs.StorageNode.ConcurrentCluster
import NimbusFs.Lib.Ownership
import NimbusFs.Common.Sha256Object
