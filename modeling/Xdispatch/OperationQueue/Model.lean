import Xdispatch.Lib.Threads

/-!
# The naive operation queue

`naive::operation_queue` keeps its operations in the list `m_jobs` under the
mutex `m_CS`, and hands `drain` to the pool when there is something to run. A
drain releases the mutex around each operation and leaves an emptied entry at
the head of the list until the operation has completed. Every statement is one
step; the statements between a lock and its release are taken by the thread
that holds `m_CS`. The pool runs each wakeup it is handed once, at any time.
-/

namespace Xdispatch.OperationQueue

/-- `detach` is the final operation that `operation_queue::detach` queues. -/
inductive Job where
  | operation (id : Nat)
  | detach
  deriving DecidableEq

/-- A request posted to the thread of the `operation_queue_manager`. -/
inductive Request where
  | attach
  | detach
  deriving DecidableEq

/-- An entry of `m_jobs` is `none` when the pointer is null or has been swapped
out; `locked` says that `m_CS` is held, `notifyOperation` that
`m_notify_operation` is not null, and `asserted` that an `XDISPATCH_ASSERT` has
failed or `front ()` was used on an empty list. `appended` and `started` are
history: the jobs in the order of `push_back`, and those that have started. -/
structure Shared where
  jobs : List (Option Job)
  locked : Bool
  activeDrain : Bool
  isAttached : Bool
  notifyOperation : Bool
  manager : List Request
  asserted : Bool
  appended : List Job
  started : List Job
  deriving DecidableEq

/-- The next statement of a thread that holds `m_CS`. Destructors are statements:
`drainPop` is `~deferred_pop`, `unwindPop` the same when the job has thrown, which
`unwindFree` then frees, `drainEnd` is `~drain_scope` and `unlock` is `~lock_guard`. -/
inductive Critical where
  | asyncPush (job : Option Job)
  | asyncNotify
  | attachManager
  | attachSet
  | detachEmpty
  | detachPush
  | detachNotify
  | detachReset
  | drainBegin
  | drainSwap (remaining : Nat)
  | drainUnlock (job : Option Job) (remaining : Nat)
  | drainPop (remaining : Nat)
  | drainYield
  | unwindPop (remaining : Nat)
  | unwindFree
  | drainEnd
  | unlock
  deriving DecidableEq

/-- `lock` waits for `m_CS`; in particular `lock .drainBegin` is a wakeup in the
pool, and `lock (.drainPop r)` a drain whose operation has completed. `deadlocked`
waits for `m_CS` and holds it. -/
inductive Thread where
  | lock (next : Critical)
  | holding (next : Critical)
  | drainProcess (job : Option Job) (remaining : Nat)
  | drainRunning (job : Job) (remaining : Nat)
  | deadlocked
  | returned
  deriving DecidableEq

/-- `throw`: the running job throws a `std::exception`. `async` is a call, or the
destructor of the job that has thrown makes it. -/
inductive Choice where
  | async (job : Option Nat)
  | attach
  | detach
  | step
  | throw
  deriving DecidableEq

namespace Shared

def release (s : Shared) : Shared := { s with locked := false }

def request (s : Shared) (r : Request) : Shared := { s with manager := s.manager ++ [r] }

def pushBack (s : Shared) (job : Option Job) : Shared :=
  { s with jobs := s.jobs ++ [job], appended := s.appended ++ job.toList }

/-- `std::swap (m_jobs.front (), job)` with an empty `job` -/
def swapFront (s : Shared) : Shared × Option Job :=
  match s.jobs with
  | job :: jobs => ({ s with jobs := none :: jobs }, job)
  | [] => ({ s with asserted := true }, none)

def deferredPop (s : Shared) (remaining : Nat) : Shared :=
  { s with jobs := s.jobs.tail, asserted := s.asserted || remaining == 0 || s.jobs.isEmpty }

/-- What `async_unsafe` decides before it pushes. -/
def notifies (s : Shared) : Bool := s.jobs.isEmpty && s.isAttached

def notifyUnsafe (s : Shared) : List Thread := if s.notifyOperation then [.lock .drainBegin] else []

/-- `process_job` -/
def run (s : Shared) : Job → Shared
  | .operation _ => s
  | .detach => s.request .detach

end Shared

def kMaxOpsPerDrain : Nat := 10

/-- The test of the loop in `drain`, and of the `if` after it. -/
def drainLoop (jobs : List (Option Job)) (remaining : Nat) : Critical :=
  if remaining ≠ 0 then .drainSwap remaining
  else if jobs = [] then .drainEnd
  else .drainYield

def Critical.act (s : Shared) : Critical → Shared × Thread × List Thread
  | .asyncPush job => (s.pushBack job, .holding (if s.notifies then .asyncNotify else .unlock), [])
  | .asyncNotify => (s, .holding .unlock, s.notifyUnsafe)
  | .attachManager => (s.request .attach, .holding .attachSet, [])
  | .attachSet => ({ s with isAttached := true }, .holding .unlock, [])
  | .detachEmpty =>
    if s.jobs = [] then (s.request .detach, .holding .detachReset, []) else (s, .holding .detachPush, [])
  | .detachPush =>
    (s.pushBack (some .detach), .holding (if s.notifies then .detachNotify else .detachReset), [])
  | .detachNotify => (s, .holding .detachReset, s.notifyUnsafe)
  | .detachReset => ({ s with isAttached := false }, .holding .unlock, [])
  | .drainBegin =>
    ({ s with activeDrain := true }, .holding (drainLoop s.jobs (min s.jobs.length kMaxOpsPerDrain)), [])
  | .drainSwap r => (s.swapFront.1, .holding (.drainUnlock s.swapFront.2 r), [])
  | .drainUnlock job r => (s.release, .drainProcess job r, [])
  | .drainPop r => (s.deferredPop r, .holding (drainLoop s.jobs.tail (r - 1)), [])
  | .drainYield => (s, .holding .drainEnd, s.notifyUnsafe)
  | .unwindPop r => (s.deferredPop r, .holding .unwindFree, [])
  | .unwindFree => (s, .holding .drainEnd, [])
  | .drainEnd => ({ s with activeDrain := false }, .holding .unlock, [])
  | .unlock => (s.release, .returned, [])

def act (s : Shared) : Thread → Choice → Option (Shared × Thread × List Thread)
  | .lock p, .step => if s.locked then none else some ({ s with locked := true }, .holding p, [])
  | .holding p, .step => some (p.act s)
  -- `async` locks `m_CS`, which is held while the unwinding frees the job
  | .holding .unwindFree, .async _ => some (s, .deadlocked, [])
  | .drainProcess (some job) r, .step => some ({ s with started := s.started ++ [job] }, .drainRunning job r, [])
  | .drainProcess none r, .step => some (s, .lock (.drainPop r), [])
  | .drainRunning job r, .step => some (s.run job, .lock (.drainPop r), [])
  | .drainRunning _ r, .throw => some (s, .lock (.unwindPop r), [])
  | _, _ => none

def call (s : Shared) : Choice → Option (Shared × List Thread)
  | .async job => some (s, [.lock (.asyncPush (job.map .operation))])
  | .attach => some (s, [.lock .attachManager])
  | .detach => some (s, [.lock .detachEmpty])
  | _ => none

def operationQueue : Program Shared Thread Choice := ⟨call, act⟩

def initial : Config Shared Thread :=
  { shared :=
      { jobs := [], locked := false, activeDrain := false, isAttached := false, notifyOperation := true
        manager := [], asserted := false, appended := [], started := [] }
    threads := [] }

end Xdispatch.OperationQueue
