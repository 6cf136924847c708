import Wtfsc.Lib.Links
import Wtfsc.Lib.Linearize
import Wtfsc.Cpp
import Wtfsc.Lib.SortedAssoc
import Wtfsc.ParallelSparseMatrix.SparseMatrix
import Wtfsc.Disk.DiskManager
import Wtfsc.ParallelSparseMatrix.SparseMatrixProofs
import Wtfsc.Disk.BufferPool
import Wtfsc.Disk.DiskVector
import Wtfsc.Disk.ReadYourWrites
import Wtfsc.Lib.Arena
import Wtfsc.MemoryPool.Pool
import Wtfsc.MemoryPool.PoolProofs
import Wtfsc.Demo.Lfu
import Wtfsc.Demo.LfuProofs
import Wtfsc.Demo.LfuRefine
import Wtfsc.Demo.LfuInvariant
import Wtfsc.Lib.Mutex
import Wtfsc.ThreadSafe.Queue
import Wtfsc.ThreadSafe.QueueProofs
import Wtfsc.ThreadSafe.QueueWakeups
import Wtfsc.Lib.Convoy
import Wtfsc.ThreadSafe.List
import Wtfsc.ThreadSafe.ListInvariant
import Wtfsc.ThreadSafe.ListSteps
import Wtfsc.ThreadSafe.ListHistory
import Wtfsc.ThreadSafe.ListSerial
import Wtfsc.ThreadSafe.ListLocks
import Wtfsc.ThreadPool.ThreadPool
import Wtfsc.ThreadPool.ThreadPoolProofs
import Wtfsc.LatchFree.Spsc
import Wtfsc.LatchFree.SpscProofs
import Wtfsc.LatchFree.Stack
import Wtfsc.LatchFree.StackProofs
import Wtfsc.LatchFree.Queue
import Wtfsc.LatchFree.QueueProofs
import Wtfsc.Disk.BlockCalls
import Wtfsc.Disk.DiskManagerMemory
import Wtfsc.Disk.Interchange
import Wtfsc.Disk.BlockThreads
import Wtfsc.Disk.BlockThreadsProofs
import Wtfsc.RateLimiter.TokenBucket
import Wtfsc.Lib.Meter
import Wtfsc.RateLimiter.LeakyBucket
import Wtfsc.RateLimiter.GetToken
import Wtfsc.ParallelSparseMatrix.Product
import Wtfsc.RateLimiter.Refused
import Wtfsc.Matrix.Shifted
import Wtfsc.ParallelSparseMatrix.ParallelProduct
import Wtfsc.Disk.PageContent
import Wtfsc.Disk.PersistentArray
import Wtfsc.Leveldb.EnvPosix
import Wtfsc.Leveldb.EnvPosixProofs
import Wtfsc.Lib.Assoc
import Wtfsc.ThreadSafe.Map
import Wtfsc.ThreadSafe.MapProofs
import Wtfsc.Lib.Slots
import Wtfsc.MemoryPool.Vector
import Wtfsc.MemoryPool.VectorProofs
import Wtfsc.MemoryPool.VectorRuns
import Wtfsc.ParallelSparseMatrix.Canonical
import Wtfsc.ParallelSparseMatrix.DenseProduct
import Wtfsc.ParallelSparseMatrix.Coordinates
import Wtfsc.Lib.Owned
import Wtfsc.ThreadSafe.SimpleQueue
import Wtfsc.MemoryPool.VectorMembers
import Wtfsc.MemoryPool.VectorMembersProofs
import Wtfsc.MemoryPool.VectorLifetimes
import Wtfsc.MemoryPool.VectorFailures
import Wtfsc.MemoryPool.VectorLeaks
import Wtfsc.MemoryPool.PoolSizes
import Wtfsc.MemoryPool.PoolReuse
import Wtfsc.TypeTraits.QuickSort
import Wtfsc.Matrix.Dense
import Wtfsc.Matrix.Equality
import Wtfsc.Matrix.Arithmetic
import Wtfsc.Lib.Cells
import Wtfsc.Matrix.Copies
import Wtfsc.Matrix.CopiesProofs
import Wtfsc.Matrix.IndependentCopies
import Wtfsc.Disk.PageRanges
import Wtfsc.Disk.VectorSize
import Wtfsc.Leveldb.EnvPosixErrors
import Wtfsc.Lib.Triples
import Wtfsc.MemoryPool.PoolMultiples
import Wtfsc.MemoryPool.PoolAlignment
import Wtfsc.MemoryPool.PoolContents
import Wtfsc.Lib.Frames
import Wtfsc.MemoryPool.PoolLifetime
import Wtfsc.MemoryPool.PoolLifetimeProofs
import Wtfsc.MemoryPool.PoolVector
import Wtfsc.MemoryPool.PoolVectorProofs
import Wtfsc.LatchFree.QueueCalls
import Wtfsc.LatchFree.QueueCallsProofs
import Wtfsc.Lib.Ledger
import Wtfsc.ThreadSafe.Stack
import Wtfsc.ThreadSafe.StackProofs
import Wtfsc.Lib.Potential
import Wtfsc.ThreadPool.Progress
import Wtfsc.ThreadPool.Shutdown
import Wtfsc.LatchFree.StackProgress
import Wtfsc.Lib.Envelope
import Wtfsc.RateLimiter.Optimal
import Wtfsc.RateLimiter.Admission
import Wtfsc.Leveldb.Descriptors
import Wtfsc.Leveldb.DescriptorsProofs
import Wtfsc.Leveldb.StatusState
import Wtfsc.Leveldb.StatusStateProofs
import Wtfsc.Lib.ReleaseAcquire
import Wtfsc.LatchFree.SpscOrders
import Wtfsc.LatchFree.SpscOrdersProofs
import Wtfsc.ThreadSafe.MovedQueues
import Wtfsc.Liburing.Ring
import Wtfsc.Liburing.UringIo
import Wtfsc.Liburing.UringIoProofs
import Wtfsc.Liburing.SyncIo
import Wtfsc.Leveldb.Slice
import Wtfsc.Matrix.RowMajor
import Wtfsc.ThreadSafe.ListNodes
import Wtfsc.ThreadSafe.ListProgress
