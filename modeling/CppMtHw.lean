import CppMtHw.Machine.Transition
import CppMtHw.Machine.Amortization
import CppMtHw.Machine.Fallible
import CppMtHw.Machine.Buffer
import CppMtHw.Machine.Fifo
import CppMtHw.Machine.LinkedList
import CppMtHw.NetEngine.Channel
import CppMtHw.NetEngine.ChannelFifo
import CppMtHw.NetEngine.ChannelBounds
import CppMtHw.NetEngine.ChannelBulk
import CppMtHw.Coroutines.Context
import CppMtHw.Coroutines.AliveList
import CppMtHw.Coroutines.Engine
import CppMtHw.Coroutines.Resumption
import CppMtHw.Coroutines.Proper
import CppMtHw.Coroutines.Completion
import CppMtHw.Coroutines.Yielding
import CppMtHw.Coroutines.Alternation
import CppMtHw.Coroutines.StackImage
import CppMtHw.Coroutines.Running
import CppMtHw.Coroutines.PrivateStacks
import CppMtHw.Machine.SortedMap
import CppMtHw.Machine.Stream
import CppMtHw.NetEngine.Sched
import CppMtHw.NetEngine.World
import CppMtHw.NetEngine.Steps
import CppMtHw.NetEngine.ChannelMap
import CppMtHw.NetEngine.Scheduling
import CppMtHw.NetEngine.Wakeup
import CppMtHw.NetEngine.SchedCalls
import CppMtHw.NetEngine.Yielding
import CppMtHw.NetEngine.DeadLock
import CppMtHw.NetEngine.LockTable
import CppMtHw.NetEngine.Closing
import CppMtHw.NetEngine.PerChannel
import CppMtHw.NetEngine.Descriptors
import CppMtHw.NetEngine.Delivery
import CppMtHw.NetEngine.Progress
import CppMtHw.NetEngine.Balance
import CppMtHw.NetEngine.PlainEngine
import CppMtHw.NetEngine.PlainRuns
import CppMtHw.Machine.KWayMerge
import CppMtHw.ExternalSort.Files
import CppMtHw.ExternalSort.Ways
import CppMtHw.ExternalSort.ReadBack
import CppMtHw.ExternalSort.Merge
import CppMtHw.ExternalSort.Main
import CppMtHw.ExternalSort.Conservation
import CppMtHw.ExternalSort.Ordering
import CppMtHw.ExternalSort.Chunks
import CppMtHw.ExternalSort.Result
import CppMtHw.ExternalSort.Passes
import CppMtHw.ExternalSort.Directory
import CppMtHw.ExternalSort.Genfile
import CppMtHw.Machine.SortedChain
import CppMtHw.Skiplist.Node
import CppMtHw.Skiplist.Operations
import CppMtHw.Skiplist.Shape
import CppMtHw.Skiplist.Search
import CppMtHw.Skiplist.Links
import CppMtHw.Skiplist.Insertion
import CppMtHw.Skiplist.Deletion
import CppMtHw.Skiplist.Refinement
import CppMtHw.Skiplist.LowerBound
import CppMtHw.Skiplist.Reachability
import CppMtHw.Skiplist.Stability
import CppMtHw.Skiplist.Termination
import CppMtHw.Skiplist.Destruction
import CppMtHw.Machine.Bytes
import CppMtHw.Allocation.MetaInfo
import CppMtHw.Allocation.Allocator
import CppMtHw.Allocation.Records
import CppMtHw.Allocation.Tiling
import CppMtHw.Allocation.FreeList
import CppMtHw.Allocation.Freeing
import CppMtHw.Allocation.Splitting
import CppMtHw.Allocation.Allocating
import CppMtHw.Allocation.Defragmentation
import CppMtHw.Allocation.Creation
import CppMtHw.Allocation.Session
import CppMtHw.Allocation.Integrity
import CppMtHw.Allocation.Atomicity
import CppMtHw.Allocation.Reallocation
import CppMtHw.Allocation.BackLinks
import CppMtHw.Allocation.LastFree
import CppMtHw.Allocation.Completeness
import CppMtHw.Allocation.Compaction
import CppMtHw.Allocation.Arrays
import CppMtHw.Allocation.Handles
import CppMtHw.Allocation.Agreement
import CppMtHw.Allocation.Lockstep
import CppMtHw.Allocation.Freshness
import CppMtHw.Allocation.SplitArithmetic
import CppMtHw.ChatServer.Client
import CppMtHw.ChatServer.Stream
import CppMtHw.ChatServer.Server
import CppMtHw.ChatServer.Loop
import CppMtHw.ChatServer.Invariants
import CppMtHw.ChatServer.Broadcast
import CppMtHw.ChatServer.Isolation
import CppMtHw.ChatServer.Interest
import CppMtHw.ChatServer.Ordering
