import Xdispatch.OperationQueue.Model
import Xdispatch.Threadpool.Model

/-!
# Operation queues on a pool

The operation queues of the naive backend together with the pool that they hand
their drains to. A thread that wakes its queue is in `execute` of the pool, with
`m_CS` held, until that call has returned. A drain takes its steps while a worker
executes the operation it is, and the worker goes on once the drain has returned. The
short sections under the mutexes of the semaphore of the pool and of the thread of
the manager are one step each. The pool has other users as well. A job that throws
ends the process; there are no steps after that.
-/

namespace Xdispatch.PooledQueue

open Threadpool (Priority threadpool)
open OperationQueue (operationQueue)

/-- What an operation of the pool does: it is a drain, which is thread `thread` of queue `queue`, or
something else. -/
inductive Work where
  | drain (queue thread : Nat)
  | other
  deriving DecidableEq

/-- Operation `n` of the pool does `works[n]`. `calls` are the calls of `execute` that the queues
have made: the queue and its thread, and the thread of the pool that is the call. -/
structure System where
  pool : Config Threadpool.Shared Threadpool.Thread
  queues : Nat → Config OperationQueue.Shared OperationQueue.Thread
  works : List Work
  calls : List (Nat × Nat × Nat)

/-- `execute`: another user of the pool passes it an operation. -/
inductive Choice where
  | pool (l : Label Threadpool.Choice)
  | queue (q : Nat) (l : Label OperationQueue.Choice)
  | execute (priority : Priority)

namespace System

def executing (s : System) (op : Nat) : Bool := .worker (.executing op) ∈ s.pool.threads

/-- Thread `i` of queue `q` is in a call of `execute`. -/
def inExecute (s : System) (q i : Nat) : Bool :=
  s.calls.any fun c => c.1 = q && c.2.1 = i && s.pool.threads[c.2.2]? ≠ some .returned

/-- Thread `i` of queue `q` is a drain that no worker executes. -/
def waits (s : System) (q i : Nat) : Bool :=
  (List.range s.works.length).any fun op => s.works[op]? = some (.drain q i) && !s.executing op

/-- Thread `k` of the pool is not a worker whose drain has still to return. -/
def goesOn (s : System) (k : Nat) : Bool :=
  match s.pool.threads[k]? with
  | some (.worker (.executing op)) =>
    match s.works[op]? with
    | some (.drain q d) => (s.queues q).threads[d]? = some .returned
    | _ => true
  | _ => true

def submit (s : System) (work : Work) (priority : Priority) : Option System :=
  (threadpool.next s.pool (.call (.execute (some s.works.length) priority))).map fun pool =>
    { s with pool := pool, works := s.works ++ [work] }

def stepPool (s : System) : Label Threadpool.Choice → Option System
  | .call (.execute ..) => none
  | .call e => (threadpool.next s.pool (.call e)).map fun pool => { s with pool := pool }
  | .act k e =>
    if s.goesOn k then (threadpool.next s.pool (.act k e)).map fun pool => { s with pool := pool } else none

def setQueue (s : System) (q : Nat) (c : Config OperationQueue.Shared OperationQueue.Thread) : System :=
  { s with queues := Function.update s.queues q c }

/-- Queue `q` has the priority `priority`. A thread that it starts is a drain that is passed to the
pool. -/
def stepQueue (s : System) (priority : Priority) (q : Nat) : Label OperationQueue.Choice → Option System
  | .call e => (operationQueue.next (s.queues q) (.call e)).map fun c => s.setQueue q c
  | .act i e =>
    if e = .throw || s.inExecute q i || s.waits q i then none
    else (operationQueue.next (s.queues q) (.act i e)).bind fun c =>
      if c.threads.length = (s.queues q).threads.length then some (s.setQueue q c)
      else ((s.setQueue q c).submit (.drain q (s.queues q).threads.length) priority).map fun s' =>
        { s' with calls := s'.calls ++ [(q, i, s.pool.threads.length)] }

def step (priority : Nat → Priority) (s : System) : Choice → Option System
  | .pool l => s.stepPool l
  | .queue q l => s.stepQueue (priority q) q l
  | .execute p => s.submit .other p

end System

/-- The threads are those of the pool and of the queues; there are no others. -/
def system (priority : Nat → Priority) : Program System Unit Choice where
  call s e := (s.step priority e).map (·, [])
  act _ _ _ := none

def initial (maxThreads : Int) : Config System Unit :=
  ⟨⟨Threadpool.initial maxThreads, fun _ => OperationQueue.initial, [], []⟩, []⟩

end Xdispatch.PooledQueue
