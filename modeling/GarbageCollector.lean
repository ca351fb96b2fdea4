import GarbageCollector.AbandonedBlocks
import GarbageCollector.Bitmap
import GarbageCollector.BlockOwnership
import GarbageCollector.Bytes
import GarbageCollector.CallReturns
import GarbageCollector.Calloc
import GarbageCollector.CellLifetime
import GarbageCollector.CleanMarks
import GarbageCollector.CoalescingInsert
import GarbageCollector.ConcurrentAlloc
import GarbageCollector.ExactMarking
import GarbageCollector.Exhaustion
import GarbageCollector.FailedAllocation
import GarbageCollector.FreeQueues
import GarbageCollector.FreeSlots
import GarbageCollector.HandshakeProgress
import GarbageCollector.InteriorPointers
import GarbageCollector.LargeAllocation
import GarbageCollector.LargeSweep
import GarbageCollector.LargeTiling
import GarbageCollector.Layout
import GarbageCollector.LinkedList
import GarbageCollector.LockedCollection
import GarbageCollector.LogRuns
import GarbageCollector.Logger
import GarbageCollector.MarkSteps
import GarbageCollector.MarkWork
import GarbageCollector.MarksAhead
import GarbageCollector.MemLoops
import GarbageCollector.NoLostSlots
import GarbageCollector.NodePool
import GarbageCollector.PrivateObjects
import GarbageCollector.QuietHeap
import GarbageCollector.Realloc
import GarbageCollector.ResolvedRange
import GarbageCollector.SafeRuns
import GarbageCollector.ServiceThread
import GarbageCollector.Shutdown
import GarbageCollector.SignalWalk
import GarbageCollector.SlotQueues
import GarbageCollector.SlotShield
import GarbageCollector.SmallAllocator
import GarbageCollector.StopTheWorld
import GarbageCollector.SweepSmall
import GarbageCollector.Sync
import GarbageCollector.ThreadCreation
import GarbageCollector.ThreadRegistry
import GarbageCollector.ThreadRoots
import GarbageCollector.Transition
import GarbageCollector.TreeOperations
import GarbageCollector.WholeProtocol
