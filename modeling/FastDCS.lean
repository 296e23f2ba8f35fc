import FastDCS.Runs
import FastDCS.OrderedMap
import FastDCS.BoundedFifo
import FastDCS.ConditionVariables
import FastDCS.DelimitedLists
import FastDCS.Handlers
import FastDCS.Codecs
import FastDCS.Strings
import FastDCS.SearchTrees
import FastDCS.ConfigFile
import FastDCS.ConfigGrammar
import FastDCS.ConfigContents
import FastDCS.Messages
import FastDCS.Enviroment
import FastDCS.MasterTasks
import FastDCS.BatchLeases
import FastDCS.Heaps
import FastDCS.TaskOwnership
import FastDCS.LeaseLogs
import FastDCS.StoreLeases
import FastDCS.TaskExchange
import FastDCS.Completion
import FastDCS.ExportOnce
import FastDCS.Failover
import FastDCS.Leases
import FastDCS.Tracker
import FastDCS.Master
import FastDCS.Connections
import FastDCS.PrimarySocket
import FastDCS.Forwarding
import FastDCS.ReturnRoute
import FastDCS.Rings
import FastDCS.GroupWalk
import FastDCS.RingTraffic
import FastDCS.RingAddresses
import FastDCS.SuccessorSearch
import FastDCS.GroupSearch
import FastDCS.Cluster
import FastDCS.Election
import FastDCS.Agreement
import FastDCS.Activation
import FastDCS.AddressLists
import FastDCS.Worker
import FastDCS.UserFunctions
import FastDCS.TimeStamps
import FastDCS.ClusterTime
import FastDCS.AskedTime
import FastDCS.CircularBuffer
import FastDCS.SignalingQueue
import FastDCS.MessageStream
import FastDCS.QueueCalls
import FastDCS.QueueThreads
import FastDCS.Framing
import FastDCS.Sockets
import FastDCS.ReceivePath
import FastDCS.SendPath
import FastDCS.SendReports
import FastDCS.DescriptorReuse
import FastDCS.CheckedNodes
import FastDCS.MessageChecks
import FastDCS.MachineIntegers
import FastDCS.NumericKeys
import FastDCS.PartialWrites
import FastDCS.FailedCalls
import FastDCS.Deframing
import FastDCS.ClockRange
import FastDCS.TokenBuffer
import FastDCS.TokenWrites
import FastDCS.SplitString
import FastDCS.StaleBytes
import FastDCS.ConsistentHash
import FastDCS.WorkerRing
import FastDCS.TaskThreads
import FastDCS.ConfigIterate
import FastDCS.WordSearch
import FastDCS.StringReplace
import FastDCS.ByteSizes
import FastDCS.ConfigReads
import FastDCS.Base128
import FastDCS.Varints
import FastDCS.MysqlPool
import FastDCS.DescriptorCloses
import FastDCS.Towers
import FastDCS.SkipLists
import FastDCS.SkipListWalks
import FastDCS.SkipListEdits
import FastDCS.SortedSets
import FastDCS.SidedTrees
import FastDCS.RedBlackTrees
import FastDCS.LinkedTrees
import FastDCS.HashRings
import FastDCS.RbTrees
import FastDCS.RbTreeSteps
import FastDCS.RbTreeInsertion
import FastDCS.RbTreeDeletion
import FastDCS.RbTreeRemoval
import FastDCS.RbTreeSearches
import FastDCS.RbTreeRuns
import FastDCS.ConhashNodes
import FastDCS.ConhashRings
import FastDCS.ConhashRuns
import FastDCS.ConhashLookups
import FastDCS.MasterRings
import FastDCS.BlockStreams
import FastDCS.Md5
import FastDCS.Md5Digests
import FastDCS.TaggedFields
import FastDCS.TaggedMessages
import FastDCS.GeneratedMessages
import FastDCS.MessageSchemas
import FastDCS.PlainWires
import FastDCS.MessageRoundTrips
import FastDCS.ProtoRecords
import FastDCS.TreeEdits
import FastDCS.BstEdits
import FastDCS.TreeDepths
import FastDCS.BstWalks
import FastDCS.SettingsFiles
