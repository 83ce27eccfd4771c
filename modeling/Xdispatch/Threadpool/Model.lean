import Xdispatch.Lib.Threads

/-!
# The naive threadpool

`execute` puts an operation into the bucket of its priority, releases a token
and calls `schedule`, which starts a worker unless it finds an idle one or as
many active ones as are allowed. A worker takes a token, on one of four paths,
and then looks through the buckets. Each access to a counter, a bucket or the
semaphore is one step; a token is taken by one successful compare-exchange, and
a worker that waits for one may take it whenever there is one.
-/

namespace Xdispatch.Threadpool

/-- `queue_priority` -/
inductive Priority where
  | userInteractive
  | userInitiated
  | utility
  | default
  | background
  deriving DecidableEq

def bucketCount : Nat := 4

def Priority.bucket : Priority → Nat
  | .userInteractive => 0
  | .userInitiated => 1
  | .utility | .default => 2
  | .background => 3

/-- `m_operations` are the pointers in the buckets, each with its bucket;
`m_operations_counter` is `tokens`. `asserted` says that an `XDISPATCH_ASSERT`
has failed. -/
structure Shared where
  operations : List (Nat × Option Nat)
  tokens : Nat
  maxThreads : Int
  activeThreads : Int
  idleThreads : Int
  cancelled : Bool
  asserted : Bool
  deriving DecidableEq

/-- Where a worker is in `worker::run`. `waiting` is in `wait_acquire`: from there
it is `woken` with a token and still counted as idle, or `expired`, counted as
idle and then only as active. `recover` is its last chance for a token, and if
it gets one it is `recovered` and not counted as active. The loop over the buckets
tests `m_cancelled` in `search` and the bucket in `dequeue`. -/
inductive Worker where
  | loop
  | tryAcquire
  | spinAcquire
  | idle
  | waiting
  | woken
  | expired
  | expiredActive
  | recover
  | recovered
  | search (label : Nat)
  | dequeue (label : Nat)
  | executing (op : Nat)
  | exiting
  | exited
  deriving DecidableEq

/-- A worker, or a call: `execute` is `enqueue` and `release`,
`notify_thread_blocked` and `notify_thread_unblocked` are `blocked` and
`unblocked`, `schedule` is `loadActive` to `countActive`, and `~threadpool` is
`cancel`, `loadCount` and `releaseAll`. -/
inductive Thread where
  | worker (w : Worker)
  | enqueue (bucket : Nat) (op : Option Nat)
  | release
  | blocked
  | unblocked
  | loadActive
  | loadIdle (active : Int)
  | loadMax (active : Int)
  | spawn
  | countActive
  | cancel
  | loadCount
  | releaseAll (count : Int)
  | returned
  deriving DecidableEq

/-- `giveUp`: `spin_acquire` has used up its spins; `timeout`: `wait_acquire` times
out without a token; `dequeue k`: `try_dequeue` takes entry `k`. -/
inductive Choice where
  | execute (op : Option Nat) (priority : Priority)
  | blocked
  | unblocked
  | destroy
  | step
  | giveUp
  | timeout
  | dequeue (k : Nat)
  deriving DecidableEq

namespace Shared

def acquire (s : Shared) (w : Worker) : Option (Shared × Worker) :=
  if s.tokens = 0 then none else some ({ s with tokens := s.tokens - 1 }, w)

/-- The same with what the worker does otherwise. -/
def tryAcquire (s : Shared) (w w' : Worker) : Shared × Worker := (s.acquire w).getD (s, w')

def assert (s : Shared) (b : Bool) : Shared := { s with asserted := s.asserted || !b }

end Shared

def Worker.act (s : Shared) : Worker → Choice → Option (Shared × Worker)
  | .loop, .step => some (s, if s.cancelled then .exiting else .tryAcquire)
  | .tryAcquire, .step => some (s.tryAcquire (.search 0) .spinAcquire)
  | .spinAcquire, .step => s.acquire (.search 0)
  | .spinAcquire, .giveUp => some (s, .idle)
  | .idle, .step => some ({ s with idleThreads := s.idleThreads + 1 }, .waiting)
  | .waiting, .step => s.acquire .woken
  | .waiting, .timeout => some (s.tryAcquire .woken .expired)
  | .woken, .step => some ({ s with idleThreads := s.idleThreads - 1 }, .search 0)
  | .expired, .step => some ({ s with idleThreads := s.idleThreads - 1 }, .expiredActive)
  | .expiredActive, .step => some ({ s with activeThreads := s.activeThreads - 1 }, .recover)
  | .recover, .step => some (s.tryAcquire .recovered .exiting)
  | .recovered, .step => some ({ s with activeThreads := s.activeThreads + 1 }, .search 0)
  | .search label, .step => some (if s.cancelled then (s.assert false, .loop) else (s, .dequeue label))
  -- no operation in this bucket, or none that `try_dequeue` gets
  | .dequeue label, .step => some (s, .search (if label + 1 = bucketCount then 0 else label + 1))
  | .dequeue label, .dequeue k =>
    match s.operations[k]? with
    | some (bucket, op) =>
      if bucket ≠ label then none
      else some ({ s with operations := s.operations.eraseIdx k },
        match op with
        | some op => .executing op
        | none => .search (if label + 1 = bucketCount then 0 else label + 1))
    | none => none
  | .executing _, .step => some (s, .loop)
  | .exiting, .step => some (s, .exited)
  | _, _ => none

def act (s : Shared) : Thread → Choice → Option (Shared × Thread × List Thread)
  | .worker w, e => (w.act s e).map fun r => (r.1, .worker r.2, [])
  | .enqueue bucket op, .step => some ({ s with operations := s.operations ++ [(bucket, op)] }, .release, [])
  | .release, .step => some ({ s with tokens := s.tokens + 1 }, .loadActive, [])
  | .blocked, .step => some ({ s with maxThreads := s.maxThreads + 1 }, .loadActive, [])
  | .unblocked, .step => some ({ s with maxThreads := s.maxThreads - 1 }, .returned, [])
  | .loadActive, .step => some (s, .loadIdle s.activeThreads, [])
  | .loadIdle active, .step =>
    some (s.assert (0 ≤ s.idleThreads && 0 ≤ active && s.idleThreads ≤ active),
      if 0 < s.idleThreads then .returned else .loadMax active, [])
  | .loadMax active, .step => some (s, if active < s.maxThreads then .spawn else .returned, [])
  | .spawn, .step => some (s, .countActive, [.worker .loop])
  | .countActive, .step => some ({ s with activeThreads := s.activeThreads + 1 }, .returned, [])
  | .cancel, .step => some ({ s with cancelled := true }, .loadCount, [])
  | .loadCount, .step => some (s, .releaseAll s.activeThreads, [])
  | .releaseAll count, .step =>
    some (({ s with tokens := s.tokens + count.toNat }).assert (0 < count), .returned, [])
  | _, _ => none

def call (s : Shared) : Choice → Option (Shared × List Thread)
  | .execute op priority => some (s, [.enqueue priority.bucket op])
  | .blocked => some (s, [.blocked])
  | .unblocked => some (s, [.unblocked])
  | .destroy => some (s, [.cancel])
  | _ => none

def threadpool : Program Shared Thread Choice := ⟨call, act⟩

def initial (maxThreads : Int) : Config Shared Thread := ⟨⟨[], 0, maxThreads, 0, 0, false, false⟩, []⟩

end Xdispatch.Threadpool
