import Xdispatch.BlockQueue.Refinement
import Xdispatch.ConcurrentQueue.Emptiness
import Xdispatch.FreeList.Exclusive
import Xdispatch.PooledQueue.Progress
import Xdispatch.NestedApply.Deadlock
import Xdispatch.Threadpool.Asserts
import Xdispatch.Threadpool.Tokens
import Xdispatch.Threadpool.Shutdown
import Xdispatch.Timer.Final
import Xdispatch.Signal.Tracking
import Xdispatch.Signal.Dangling
import Xdispatch.Signal.Deadlock
import Xdispatch.SignalBarrier.Values
import Xdispatch.After.Release
import Xdispatch.Apply.Queues
import Xdispatch.Lifetime.Destruction
import Xdispatch.Backend.Downcast
import Xdispatch.Group.Tracking
import Xdispatch.Barrier.Null
import Xdispatch.Barrier.Linearizable
import Xdispatch.Cancelable.States
import Xdispatch.WaitableQueue.Accounting
import Xdispatch.WaitableQueue.Throwing
import Xdispatch.ConnectionManager.Deadlock
import Xdispatch.Group.Chain
import Xdispatch.OperationQueue.Manager
import Xdispatch.Dispatch.LastUser
import Xdispatch.Group.Total
import Xdispatch.SocketNotifier.Posix
import Xdispatch.Signal.Copies
import Xdispatch.Threadpool.Limit
import Xdispatch.ManualThread.Cancel
import Xdispatch.Semaphore.Linearizable
import Xdispatch.ScopedConnection.Reset
import Xdispatch.ScopedConnection.Ownership
import Xdispatch.Libdispatch.References
import Xdispatch.SignalChain.Paths
import Xdispatch.ManualThread.Order
