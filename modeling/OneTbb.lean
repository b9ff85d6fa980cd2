import OneTbb.Reduce.Run
import OneTbb.Scan.Run
import OneTbb.Sort.Run
import OneTbb.Pipeline.EndOfInput
import OneTbb.Malloc.SizeClasses
import OneTbb.SpinRwMutex
import OneTbb.FlowGraph.Limiter
import OneTbb.FlowGraph.Sequencer
import OneTbb.FlowGraph.FunctionInput
import OneTbb.FlowGraph.ReservingCount
import OneTbb.FlowGraph.QueueingOrder
import OneTbb.ResourceLimiter.Handles
import OneTbb.ResourceLimiter.Ranks
import OneTbb.Scheduler.Mandatory
import OneTbb.Scheduler.TaskStream
import OneTbb.Scheduler.MandatoryRequests
import OneTbb.Scheduler.PrivateServer
import OneTbb.Tcm.Disconnect
import OneTbb.TaskGroup.Transfer
import OneTbb.Tcm.Fewest
import OneTbb.Tcm.RequestBounds
import OneTbb.GlobalControl
import OneTbb.Reduce.DeterministicTerm
import OneTbb.Algorithms.PartitionDepthTasks
import OneTbb.SkipList.Range
import OneTbb.PriorityQueue.Members
import OneTbb.BoundedQueue.CapacityRun
import OneTbb.Unordered.Range
