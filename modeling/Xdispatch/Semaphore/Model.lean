import Xdispatch.Lib.Threads

/-!
# The naive semaphore

`m_count` is taken down by compare-exchanges and up by `release`, both without
the mutex, which is for those that block: `wait_acquire` tests the counter once
more under it and then waits on the condition variable, and a `release` that
reads `m_waiters` as positive takes it to notify. Each access to an atomic is
one step, and so is each lock, unlock and notification. `m_cond.wait` releases
the mutex and joins those that are blocked in one step.
-/

namespace Xdispatch.Semaphore

/-- `waitSet` are the tickets of those blocked on `m_cond` that have not been woken.
`asserted` says that an `XDISPATCH_ASSERT` has failed. -/
structure Shared where
  count : Int
  waiters : Int
  locked : Bool
  waitSet : List Nat
  tickets : Nat
  asserted : Bool
  deriving DecidableEq

/-- Where a call is in `try_acquire`, with `old_count` before the compare-exchange. -/
inductive Try where
  | load
  | exchange (old : Int)
  deriving DecidableEq

/-- Where a call is in `spin_acquire`, after `i` of its spins: in `try_acquire`, or in
the loop that relaxes. -/
inductive SpinPhase where
  | try (i : Int) (p : Try)
  | relax (i : Int)
  | returned (r : Bool)
  deriving DecidableEq

/-- Where a call is in `wait_acquire`: in the first `try_acquire`, before the lock, in the
second, before `m_waiters` goes up, and from `predicate` on in `m_cond.wait_for`. There
`notified` says that the thread was notified, and `late` that it has timed out. -/
inductive WaitPhase where
  | first (p : Try)
  | lock
  | second (p : Try)
  | enter
  | predicate (p : Try) (notified late : Bool)
  | block
  | blocked (ticket : Nat)
  | relock (notified late : Bool)
  | leave (r : Bool)
  | unlock (r : Bool)
  | returned (r : Bool)
  deriving DecidableEq

inductive ReleasePhase where
  | add
  | loadWaiters
  | lock
  | notify
  | unlock
  | returned
  deriving DecidableEq

inductive Thread where
  | tryAcquire (p : Try)
  | tried (r : Bool)
  | spin (spins : Int) (p : SpinPhase)
  | wait (p : WaitPhase)
  | release (count : Int) (p : ReleasePhase)
  deriving DecidableEq

/-- `spurious`: a compare-exchange fails although the values agree, or a blocked
thread wakes for no reason. `notify k`: `notify_one` picks the one with ticket `k`. -/
inductive Choice where
  | tryAcquire
  | spin (spins : Int)
  | wait
  | release (count : Int)
  | step
  | spurious
  | timeout
  | notify (ticket : Nat)
  deriving DecidableEq

/-! ## `try_acquire` -/

/-- The test at the head of the loop. -/
def Shared.test (s : Shared) (old : Int) : Shared × (Bool ⊕ Try) :=
  ({ s with asserted := s.asserted || old < 0 }, if old = 0 then .inl false else .inr (.exchange old))

/-- What `try_acquire` returns, or where it is then. -/
def Try.act (s : Shared) : Try → Choice → Option (Shared × (Bool ⊕ Try))
  | .load, .step => some (s.test s.count)
  | .exchange old, .step => some (if s.count = old then ({ s with count := old - 1 }, .inl true) else s.test s.count)
  | .exchange old, .spurious => if s.count = old then some (s.test s.count) else none
  | _, _ => none

/-- A call of `try_acquire` within another: `inside` while it goes on, `after` with its result. -/
def Try.within {π : Type} (s : Shared) (p : Try) (e : Choice) (inside : Try → π) (after : Bool → π) : Option (Shared × π) :=
  (p.act s e).map fun r => (r.1, r.2.elim after inside)

/-! ## Calls -/

/-- The head of the loop of `spin_acquire`. -/
def SpinPhase.loop (spins i : Int) : SpinPhase := if i < spins then .try i .load else .returned false

def SpinPhase.act (s : Shared) (spins : Int) : SpinPhase → Choice → Option (Shared × SpinPhase)
  | .try i p, e => p.within s e (.try i) fun r => if r then .returned true else .relax i
  | .relax i, .step => some (s, if s.count = 0 ∧ i < spins then .relax (i + 1) else .loop spins (i + 1))
  | _, _ => none

/-- The thread is no more blocked on `m_cond`, and has been notified if it was not in the wait set. -/
def Shared.wake (s : Shared) (ticket : Nat) (late : Bool) : Shared × WaitPhase :=
  ({ s with waitSet := s.waitSet.erase ticket }, .relock (ticket ∉ s.waitSet) late)

def WaitPhase.act (s : Shared) : WaitPhase → Choice → Option (Shared × WaitPhase)
  | .first p, e => p.within s e .first fun r => if r then .returned true else .lock
  | .lock, .step => if s.locked then none else some ({ s with locked := true }, .second .load)
  | .second p, e => p.within s e .second fun r => if r then .unlock true else .enter
  | .enter, .step => some ({ s with waiters := s.waiters + 1 }, .predicate .load false false)
  | .predicate p notified late, e => p.within s e (.predicate · notified late) fun r =>
      if r then .leave true else if late then .leave false else .block
  | .block, .step =>
    some ({ s with locked := false, waitSet := s.waitSet ++ [s.tickets], tickets := s.tickets + 1 }, .blocked s.tickets)
  | .blocked k, .step => if k ∈ s.waitSet then none else some (s.wake k false)
  | .blocked k, .spurious => some (s.wake k false)
  | .blocked k, .timeout => some (s.wake k true)
  | .relock notified late, .step =>
    if s.locked then none else some ({ s with locked := true }, .predicate .load notified late)
  | .leave r, .step => some ({ s with waiters := s.waiters - 1 }, .unlock r)
  | .unlock r, .step => some ({ s with locked := false }, .returned r)
  | _, _ => none

def ReleasePhase.act (s : Shared) (count : Int) : ReleasePhase → Choice → Option (Shared × ReleasePhase)
  | .add, .step => some ({ s with count := s.count + count }, .loadWaiters)
  | .loadWaiters, .step => some (s, if s.waiters ≠ 0 then .lock else .returned)
  | .lock, .step => if s.locked then none else some ({ s with locked := true }, .notify)
  | .notify, .notify k =>
    if count = 1 ∧ k ∈ s.waitSet then some ({ s with waitSet := s.waitSet.erase k }, .unlock) else none
  | .notify, .step =>
    if count = 1 then if s.waitSet = [] then some (s, .unlock) else none else some ({ s with waitSet := [] }, .unlock)
  | .unlock, .step => some ({ s with locked := false }, .returned)
  | _, _ => none

def Thread.act (s : Shared) : Thread → Choice → Option (Shared × Thread)
  | .tryAcquire p, e => p.within s e .tryAcquire .tried
  | .tried _, _ => none
  | .spin spins p, e => (p.act s spins e).map fun r => (r.1, .spin spins r.2)
  | .wait p, e => (p.act s e).map fun r => (r.1, .wait r.2)
  | .release count p, e => (p.act s count e).map fun r => (r.1, .release count r.2)

def call (s : Shared) : Choice → Option (Shared × List Thread)
  | .tryAcquire => some (s, [.tryAcquire .load])
  | .spin spins => some (s, [.spin spins (.loop spins 0)])
  | .wait => some (s, [.wait (.first .load)])
  | .release count =>
    if 0 < count then some (s, [.release count .add]) else some ({ s with asserted := true }, [])
  | _ => none

def semaphore : Program Shared Thread Choice := ⟨call, fun s t e => (t.act s e).map fun r => (r.1, r.2, [])⟩

/-- A signed 32-bit integer with the value of `x` modulo `2 ^ 32`. -/
def toInt32 (x : Int) : Int := x.bmod (2 ^ 32)

/-- The semaphore with an `std::atomic<int>` for its counter. -/
def machine : Program Shared Thread Choice where
  call := semaphore.call
  act s t e := (semaphore.act s t e).map fun r => ({ r.1 with count := toInt32 r.1.count }, r.2)

def initial (count : Int) : Config Shared Thread := ⟨⟨count, 0, false, [], 0, false⟩, []⟩

end Xdispatch.Semaphore
