import Xdispatch.Lib.Threads
import Xdispatch.Chrono
import Mathlib.Logic.Function.Basic

/-!
# The lightweight barrier

`lightweight_barrier` is one atomic pointer, `m_owner`: null, the address that
stands for completed, or a waiter that the first `wait` has installed. Each
access to it is one step, and so is each section under the mutex of a waiter;
blocking on its condition variable ends such a section. A weak compare-exchange
may fail although `m_owner` is null, as the value it expects.
-/

namespace Xdispatch.Barrier

inductive Owner where
  | noOwner
  | completed
  | waiter (w : Nat)
  deriving DecidableEq

/-- `lightweight_barrier::waiter`; `notifications` counts the calls of
`notify_all`, `freed` says that the waiter has been deleted. -/
structure Waiter where
  done : Bool
  notifications : Nat
  freed : Bool
  deriving DecidableEq

/-- The waiters made so far are `heap 0, …, heap (size - 1)`; `now` is the clock
of the condition variables in nanoseconds. `completed` and `missed` are history:
a `complete` has returned; a `wait` or `was_completed` has returned false after
that. -/
structure Shared where
  owner : Owner
  heap : Nat → Waiter
  size : Nat
  now : Int
  completed : Bool
  missed : Bool

/-- From `enter` on it is `waiter::wait` of the waiter `w`, before its mutex except
in `blocked`, which is on the condition variable since `seen` notifications.
`null` is `previous->wait` through a null pointer. -/
inductive WaitPhase where
  | load
  | allocate
  | exchange
  | enter (w : Nat)
  | blocked (w : Nat) (seen : Nat) (deadline : Option Int)
  | woken (w : Nat) (deadline : Option Int)
  | timedOut (w : Nat)
  | null
  | returned (r : Bool)
  deriving DecidableEq

/-- A call of `wait`; `candidate` is the waiter it has allocated and still owns. -/
structure Wait where
  timeout : Int
  candidate : Option Nat
  phase : WaitPhase
  deriving DecidableEq

/-- `complete` is before its compare-exchange, or calls `previous->complete ()`. -/
inductive Thread where
  | wait (w : Wait)
  | completeExchange
  | completeWaiter (w : Nat)
  | completeReturned
  | wasCompleted
  | wasCompletedWaiter (w : Nat)
  | wasCompletedReturned (r : Bool)
  deriving DecidableEq

/-- `spurious`: a compare-exchange fails although the values agree, or a blocked
thread wakes up for no reason. -/
inductive Choice where
  | wait (timeout : Int)
  | complete
  | wasCompleted
  | tick (nanoseconds : Nat)
  | step
  | spurious
  | timeout
  deriving DecidableEq

namespace Waiter

def new : Waiter := ⟨false, 0, false⟩

def complete (w : Waiter) : Waiter := { w with done := true, notifications := w.notifications + 1 }

def free (w : Waiter) : Waiter := { w with freed := true }

end Waiter

namespace Shared

def modify (s : Shared) (w : Nat) (f : Waiter → Waiter) : Shared :=
  { s with heap := Function.update s.heap w (f (s.heap w)) }

def allocate (s : Shared) : Shared := { s with heap := Function.update s.heap s.size .new, size := s.size + 1 }

/-- `~unique_ptr` of the candidate -/
def free (s : Shared) : Option Nat → Shared
  | some w => s.modify w .free
  | none => s

def answer (s : Shared) (r : Bool) : Shared := { s with missed := s.missed || s.completed && !r }

def completes (s : Shared) : Shared := { s with completed := true }

end Shared

def Wait.return (s : Shared) (w : Wait) (r : Bool) : Shared × Wait :=
  ((s.free w.candidate).answer r, { w with candidate := none, phase := .returned r })

/-- The predicate is tested under the mutex: the call returns, or blocks. -/
def Wait.test (s : Shared) (w : Wait) (k : Nat) (deadline : Option Int) : Shared × Wait :=
  if (s.heap k).done then w.return s true
  else (s, { w with phase := .blocked k (s.heap k).notifications deadline })

def Wait.deadline (s : Shared) (w : Wait) : Option Int :=
  if w.timeout = waitForever then none else some (waitForDeadline s.now w.timeout)

def Wait.act (s : Shared) (w : Wait) (e : Choice) : Option (Shared × Wait) :=
  match w.phase, e with
  | .load, .step => if s.owner = .completed then some (w.return s true) else some (s, { w with phase := .allocate })
  | .allocate, .step => some (s.allocate, { w with candidate := some s.size, phase := .exchange })
  | .exchange, .step =>
    match s.owner, w.candidate with
    | .noOwner, some k => some ({ s with owner := .waiter k }, { w with candidate := none, phase := .enter k })
    | .noOwner, none => none
    | .completed, _ => some (w.return s true)
    | .waiter k, _ => some (s, { w with phase := .enter k })
  | .exchange, .spurious => if s.owner = .noOwner then some (s, { w with phase := .null }) else none
  | .enter k, .step => some (w.test s k (w.deadline s))
  | .blocked k seen deadline, .step =>
    if seen < (s.heap k).notifications then some (s, { w with phase := .woken k deadline }) else none
  | .blocked k _ deadline, .spurious => some (s, { w with phase := .woken k deadline })
  | .blocked k _ (some deadline), .timeout =>
    if deadline ≤ s.now then some (s, { w with phase := .timedOut k }) else none
  | .woken k deadline, .step => some (w.test s k deadline)
  | .timedOut k, .step => some (w.return s (s.heap k).done)
  | _, _ => none

def act (s : Shared) : Thread → Choice → Option (Shared × Thread × List Thread)
  | .wait w, e => (w.act s e).map fun r => (r.1, .wait r.2, [])
  | .completeExchange, .step =>
    match s.owner with
    | .noOwner => some (({ s with owner := .completed }).completes, .completeReturned, [])
    | .completed => some (s.completes, .completeReturned, [])
    | .waiter w => some (s, .completeWaiter w, [])
  -- no branch of `complete` is for a null `previous`
  | .completeExchange, .spurious => if s.owner = .noOwner then some (s.completes, .completeReturned, []) else none
  | .completeWaiter w, .step => some ((s.modify w .complete).completes, .completeReturned, [])
  | .wasCompleted, .step =>
    match s.owner with
    | .noOwner => some (s.answer false, .wasCompletedReturned false, [])
    | .completed => some (s.answer true, .wasCompletedReturned true, [])
    | .waiter w => some (s, .wasCompletedWaiter w, [])
  | .wasCompletedWaiter w, .step =>
    some (s.answer (s.heap w).done, .wasCompletedReturned (s.heap w).done, [])
  | _, _ => none

def call (s : Shared) : Choice → Option (Shared × List Thread)
  | .wait t => some (s, [.wait ⟨t, none, .load⟩])
  | .complete => some (s, [.completeExchange])
  | .wasCompleted => some (s, [.wasCompleted])
  | .tick n => some ({ s with now := s.now + n }, [])
  | _ => none

def barrier : Program Shared Thread Choice := ⟨call, act⟩

def initial (now : Nat) : Config Shared Thread :=
  { shared :=
      { owner := .noOwner, heap := fun _ => .new, size := 0, now := now, completed := false, missed := false }
    threads := [] }

end Xdispatch.Barrier
