import MemAlloc.Machine
import MemAlloc.Runs
import MemAlloc.Answers
import MemAlloc.Nesting
import MemAlloc.OrderedSet
import MemAlloc.Extent
import MemAlloc.RoundUp
import MemAlloc.Coalesce
import MemAlloc.NodeChain
import MemAlloc.Interface
import MemAlloc.LinkedLists
import MemAlloc.FreeList
import MemAlloc.FreeListOps
import MemAlloc.FreeListBestFit
import MemAlloc.FreeListMerge
import MemAlloc.FreeListRuns
import MemAlloc.FreeListTiling
import MemAlloc.FreeListOffsets
import MemAlloc.FreeListAlignment
import MemAlloc.FreeListHeaders
import MemAlloc.FreeListPhases
import MemAlloc.FreeListOrder
import MemAlloc.FreeListCapacity
import MemAlloc.FreeListCompleteness
import MemAlloc.FreeListFragmentation
import MemAlloc.FreeListContents
import MemAlloc.Pool
import MemAlloc.PoolGeometry
import MemAlloc.PoolRuns
import MemAlloc.PoolFrontEnd
import MemAlloc.PoolForeign
import MemAlloc.PoolFrontEndRuns
import MemAlloc.PoolFrontEndCapacity
import MemAlloc.PoolNesting
import MemAlloc.Bump
import MemAlloc.StackRollback
import MemAlloc.StackRelease
import MemAlloc.BumpSafety
import MemAlloc.BumpLifecycle
import MemAlloc.BumpAlignment
import MemAlloc.BumpCapacity
import MemAlloc.LockBalance
import MemAlloc.PoolCopy
import MemAlloc.PoolThreads
import MemAlloc.PoolThreadsSafety
import MemAlloc.RegionSpec
import MemAlloc.Refinement
import MemAlloc.Interleaving
import MemAlloc.Linearizability
import MemAlloc.Progress
import MemAlloc.Clients
import MemAlloc.Agreement
import MemAlloc.FreeListAccesses
import MemAlloc.FreeListThreads
import MemAlloc.FreeListProgress
import MemAlloc.AbandonedLock
import MemAlloc.PoolAccesses
import MemAlloc.PoolLifo
import MemAlloc.PoolProgress
import MemAlloc.PoolFrontEndThreads
import MemAlloc.Resets
import MemAlloc.Ownership
import MemAlloc.TestLoops
import MemAlloc.Tests
import MemAlloc.MultiThreadTest
import MemAlloc.MultiThreadPasses
import MemAlloc.Benchmarks
import MemAlloc.TestRegistry
