import Xdispatch.OperationQueue.Model

/-!
# A serial queue on a manual thread

`manual_thread::run` takes what is in `m_queued_ops` all at once and executes it
in order, on the thread that has called `exec`. An attached serial queue hands
its wakeups to the manual thread, and others may hand it operations of theirs.
An exception that leaves an operation unwinds `run` up to the caller of `exec`,
who may call it again. Each section under the mutex of the manual thread is one
step, the queue takes its own steps.
-/

namespace Xdispatch.ManualThread

open OperationQueue (operationQueue)

/-- An entry of `m_queued_ops`: the `drain` that is thread `n` of the queue, or an
operation of somebody else. -/
inductive Work where
  | drain (n : Nat)
  | other (id : Nat)
  deriving DecidableEq

/-- `notifications` counts the calls of `notify_all`. The rest is history: the threads
of the queue that are wakeups, and the entries that have been destroyed unexecuted. -/
structure Shared where
  queue : Config OperationQueue.Shared OperationQueue.Thread
  queuedOps : List Work
  cancelled : Bool
  notifications : Nat
  wakeups : List Nat
  dropped : List Work
  deriving DecidableEq

/-- The thread that calls `exec`, `outside` of it or in `run`: before the test of the loop,
before the section that swaps, on the condition variable since `seen` notifications, in the
loop over the rest of `active_ops`, and within `op`, which an exception may be leaving. -/
inductive Driver where
  | outside
  | test
  | take
  | waiting (seen : Nat)
  | next (activeOps : List Work)
  | running (op : Work) (activeOps : List Work) (thrown : Bool)
  deriving DecidableEq

/-- `async` is a call of the queue, which the driver makes when it frees a job that has
thrown, `caller` a step of thread `n` of the queue that is such a call, and `execute` is
called for an operation of somebody else. -/
inductive Choice where
  | async (id : Nat)
  | caller (n : Nat)
  | execute (id : Nat)
  | cancel
  | exec
  | step
  | throw
  | spurious
  deriving DecidableEq

namespace Shared

def execute (s : Shared) (ops : List Work) : Shared :=
  { s with queuedOps := s.queuedOps ++ ops, notifications := s.notifications + ops.length }

/-- A step of a thread of the queue; the wakeups that it posts are new threads of the queue. -/
def advance (s : Shared) (n : Nat) (e : OperationQueue.Choice) : Option Shared :=
  (operationQueue.next s.queue (.act n e)).map fun q =>
    let new := List.range' s.queue.threads.length (q.threads.length - s.queue.threads.length)
    { s with queue := q, wakeups := s.wakeups ++ new }.execute (new.map .drain)

/-- `std::swap (m_queued_ops, active_ops)` -/
def swap (s : Shared) : Shared × Driver := ({ s with queuedOps := [] }, .next s.queuedOps)

/-- The exception leaves `run`, and `active_ops` with it. -/
def leave (s : Shared) (activeOps : List Work) : Shared × Driver :=
  ({ s with dropped := s.dropped ++ activeOps }, .outside)

def returned (s : Shared) (n : Nat) : Bool := s.queue.threads[n]? == some .returned

end Shared

def Driver.act (s : Shared) : Driver → Choice → Option (Shared × Driver)
  | .outside, .exec => some (s, .test)
  | .test, .step => some (if s.cancelled then ({ s with cancelled := false }, .outside) else (s, .take))
  | .take, .step => some (if s.queuedOps = [] then (s, .waiting s.notifications) else s.swap)
  | .waiting seen, .step => if s.notifications = seen then none else some s.swap
  | .waiting _, .spurious => some s.swap
  | .next [], .step => some (s, .test)
  | .next (op :: ops), .step => some (s, .running op ops false)
  | .running (.other _) ops _, .step => some (s, .next ops)
  | .running (.other _) ops _, .throw => some (s.leave ops)
  | .running (.drain n) ops thrown, .step =>
    if s.returned n then some (if thrown then s.leave ops else (s, .next ops))
    else (s.advance n .step).map (·, .running (.drain n) ops thrown)
  | .running (.drain n) ops _, .throw => (s.advance n .throw).map (·, .running (.drain n) ops true)
  | .running (.drain n) ops thrown, .async id =>
    (s.advance n (.async (some id))).map (·, .running (.drain n) ops thrown)
  | _, _ => none

def call (s : Shared) : Choice → Option (Shared × List Driver)
  | .async id => (operationQueue.next s.queue (.call (.async (some id)))).map fun q => ({ s with queue := q }, [])
  | .caller n => if n ∈ s.wakeups then none else (s.advance n .step).map (·, [])
  | .execute id => some (s.execute [.other id], [])
  | .cancel => some ({ s with cancelled := true, notifications := s.notifications + 1 }, [])
  | _ => none

def manualThread : Program Shared Driver Choice := ⟨call, fun s d e => (d.act s e).map fun r => (r.1, r.2, [])⟩

/-- The constructor of the serial queue has run `attach`. -/
def initial : Config Shared Driver :=
  { shared :=
      { queue := operationQueue.last OperationQueue.initial (.call .attach :: List.replicate 4 (.act 0 .step))
        queuedOps := [], cancelled := false, notifications := 0, wakeups := [], dropped := [] }
    threads := [.outside] }

end Xdispatch.ManualThread
