import RayPlatform.Structures.MyHashTableMain
import RayPlatform.Lib.TransitionSystem
import RayPlatform.Structures.MyHashTableResize
import RayPlatform.Structures.MyHashTableOperations
import RayPlatform.Structures.MyHashTableClient
import RayPlatform.Structures.MyHashTableConflation
import RayPlatform.Lib.Layout
import RayPlatform.Memory.DefragmentationGroup
import RayPlatform.Memory.DefragmentationGroupCompaction
import RayPlatform.Memory.DefragmentationGroupClient
import RayPlatform.Lib.CyclicScan
import RayPlatform.Memory.RingAllocator
import RayPlatform.Communication.OutboxRing
import RayPlatform.Communication.OutboxRingSafety
import RayPlatform.Communication.MiniRankRing
import RayPlatform.Communication.Message
import RayPlatform.Cryptography.Crypto
import RayPlatform.Core.ComputeCore
import RayPlatform.Communication.MessagesHandler
import RayPlatform.Communication.MessageRouter
import RayPlatform.Communication.RoutedNetwork
import RayPlatform.Communication.RoutedActors
import RayPlatform.Communication.VirtualCommunicator
import RayPlatform.Lib.RequestLedger
import RayPlatform.Communication.VirtualCommunicatorGroups
import RayPlatform.Communication.VirtualCommunicatorAnswers
import RayPlatform.Lib.BoundedFifo
import RayPlatform.Communication.MessageQueue
import RayPlatform.Communication.BufferHandover
import RayPlatform.Communication.InboundBuffers
import RayPlatform.Communication.OutboundBuffers
import RayPlatform.Lib.ByteBuffer
import RayPlatform.Lib.ChunkedTransfer
import RayPlatform.Store.KeyValueStore
import RayPlatform.Store.KeyValueStoreHandlers
import RayPlatform.Store.KeyValueNetwork
import RayPlatform.Store.KeyValueTransfer
import RayPlatform.Store.KeyValueChain
import RayPlatform.Store.KeyValueRemoval
import RayPlatform.Lib.LinkedTree
import RayPlatform.Structures.SplayTree
import RayPlatform.Structures.SplayTreeSplay
import RayPlatform.Structures.SplayTreeMap
import RayPlatform.Lib.Barrier
import RayPlatform.Scheduling.SwitchMan
import RayPlatform.Actors.Playground
import RayPlatform.Core.MessageDispatch
import RayPlatform.Lib.Lifecycle
import RayPlatform.Scheduling.VirtualProcessor
import RayPlatform.Scheduling.WorkerQueries
import RayPlatform.Scheduling.VirtualProcessorPool
import RayPlatform.Scheduling.TaskCreator
import RayPlatform.Memory.ChunkAllocatorWithDefragmentation
import RayPlatform.Memory.ChunkAllocatorWithDefragmentation
import RayPlatform.Actors.ActorNetwork
import RayPlatform.Core.PluginRegistry
import RayPlatform.Core.PluginRegistryRuns
import RayPlatform.Structures.MyHashTableSchedule
import RayPlatform.Structures.SplayTreeIterator
import RayPlatform.Structures.SplayTreeIteratorRuns
import RayPlatform.Lib.Words
import RayPlatform.Routing.GraphImplementation
import RayPlatform.Routing.TupleOverlap
import RayPlatform.Routing.GraphImplementationDeBruijn
import RayPlatform.Routing.TupleEnumeration
import RayPlatform.Routing.GraphImplementationKautz
import RayPlatform.Routing.GraphImplementationExperimental
import RayPlatform.Lib.Coordinates
import RayPlatform.Routing.LoadedGraph
import RayPlatform.Routing.Polytope
import RayPlatform.Routing.Torus
import RayPlatform.Lib.ShortestPath
import RayPlatform.Routing.ShortestPath
import RayPlatform.Routing.RouteTables
import RayPlatform.Routing.GraphImplementationGroup
import RayPlatform.Routing.GraphImplementationRandom
import RayPlatform.Lib.Loops
import RayPlatform.Routing.DeBruijnConfiguration
import RayPlatform.Routing.LoadedConfiguration
import RayPlatform.Routing.ProductSearches
import RayPlatform.Routing.RankNumbering
import RayPlatform.Files.FileReader
import RayPlatform.Files.FileReaderRuns
import RayPlatform.Routing.LoadedConfigurationExactness
import RayPlatform.Cryptography.CyclicRedundancyCode
import RayPlatform.Core.MessageCorruption
import RayPlatform.Cryptography.HardwareCode
import RayPlatform.Memory.StableCompaction
import RayPlatform.Memory.SmartPointers
import RayPlatform.Memory.ScanBounds
import RayPlatform.Memory.AllocatorScans
import RayPlatform.Lib.FreeList
import RayPlatform.Memory.MyAllocator
import RayPlatform.Memory.MyAllocatorRuns
import RayPlatform.Communication.BufferedData
import RayPlatform.Communication.BufferedDataRuns
import RayPlatform.Store.LocalKeys
import RayPlatform.Profiling.TickLogger
import RayPlatform.Cryptography.UniformHashing
import RayPlatform.Memory.RingRotation
import RayPlatform.Core.EngineBuffers
import RayPlatform.Lib.MovingMemory
import RayPlatform.Structures.MyHashTableDoubleHashing
import RayPlatform.Structures.MyHashTableGroupMemory
import RayPlatform.Lib.PriorityIndex
import RayPlatform.Communication.VirtualCommunicatorIndex
import RayPlatform.Lib.TopDownSplay
import RayPlatform.Structures.SplayTreeCost
import RayPlatform.Lib.Geodesic
import RayPlatform.Routing.ShortestRoutes
import RayPlatform.Communication.ChangingNetwork
import RayPlatform.Communication.NonOvertaking
import RayPlatform.Core.RankProcess
import RayPlatform.Routing.RelayCounts
import RayPlatform.Core.MiniRankNetwork
import RayPlatform.Memory.ChunkAllocatorMemory
import RayPlatform.Lib.Outcome
import RayPlatform.Structures.MyHashTableGroupHeap
import RayPlatform.Structures.MyHashTableHeap
