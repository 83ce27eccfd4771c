import Xdispatch.Lib.Threads
import Xdispatch.Chrono
import Mathlib.Logic.Function.Basic

/-!
# The naive group

`naive::group_impl` counts the operations of the group on a `consumable`, and a
`wait` swaps a fresh consumable in front of the current one before it waits on
the old one and everything that precedes it. Each atomic access is one step;
the barrier of a consumable is a one-shot event. The operations themselves, the
queue they are posted to and the pool that runs a notification are outside: a
posted operation starts and ends at any later time, once.
-/

namespace Xdispatch.Group

/-- `naive::consumable`; `barrier` says that `m_barrier` has been completed. -/
structure Consumable where
  preceeding : Option Nat
  resources : Nat
  barrier : Bool
  deriving DecidableEq

/-- The consumables made so far are `heap 0, …, heap (size - 1)`, `m_consumable`
is one of them. `now` is the clock of the condition variables in nanoseconds;
`asserted` says that an `XDISPATCH_ASSERT` has failed. The rest is history: the
next operation and notification, the operations whose `async` has returned (with
the consumable that counts them), those that have finished, and the
notifications submitted to their queue. -/
structure Shared where
  heap : Nat → Consumable
  size : Nat
  consumable : Nat
  now : Int
  asserted : Bool
  operations : Nat
  notifications : Nat
  added : List (Nat × Nat)
  executed : List Nat
  submitted : List Nat

/-- `group_impl::async` from its `std::atomic_load` on; it returns when the
operation is `queued`. `consume_resource` is `consume`, which asserts,
`fetchSub` and `complete`. -/
inductive OperationPhase where
  | load
  | addResource (c : Nat)
  | post (c : Nat)
  | queued (c : Nat)
  | running (c : Nat)
  | consume (c : Nat)
  | fetchSub (c : Nat)
  | complete (c : Nat)
  | done
  deriving DecidableEq

/-- `descend c stack` is `wait_for_consumed` of `c`, called for the consumables
in `stack`. The operation of a notification is at first `pooled`, and it is
`submitted` after `q->async (op)`. -/
inductive WaitPhase where
  | pooled
  | load
  | swap (old : Nat)
  | descend (c : Nat) (stack : List Nat)
  | check (c : Nat) (stack : List Nat)
  | barrierWait (c : Nat) (stack : List Nat)
  | blocked (c : Nat) (stack : List Nat) (deadline : Option Int)
  | returned (r : Bool)
  | submitted
  deriving DecidableEq

/-- A call of `group_impl::wait`, from a user or from a notification's operation.
`owed` is history: the operations added before the call of `wait` or `notify`. -/
structure Wait where
  notification : Option Nat
  timeout : Int
  owed : List (Nat × Nat)
  phase : WaitPhase
  deriving DecidableEq

inductive Thread where
  | operation (id : Nat) (phase : OperationPhase)
  | wait (w : Wait)
  deriving DecidableEq

/-- `spurious` is a weak compare-exchange that fails although the values agree. -/
inductive Choice where
  | async
  | wait (timeout : Int)
  | notify
  | tick (nanoseconds : Nat)
  | step
  | spurious
  | timeout
  deriving DecidableEq

namespace Consumable

def addResource (c : Consumable) : Consumable := { c with resources := c.resources + 1 }

def consumeResource (c : Consumable) : Consumable := { c with resources := c.resources - 1 }

def complete (c : Consumable) : Consumable := { c with barrier := true }

end Consumable

namespace Shared

def modify (s : Shared) (c : Nat) (f : Consumable → Consumable) : Shared :=
  { s with heap := Function.update s.heap c (f (s.heap c)) }

/-- `std::make_shared<consumable> (0, old)`, installed as `m_consumable` -/
def swap (s : Shared) (old : Nat) : Shared :=
  { s with
    heap := Function.update s.heap s.size ⟨some old, 0, false⟩
    size := s.size + 1
    consumable := s.size }

end Shared

def OperationPhase.act (s : Shared) (id : Nat) : OperationPhase → Option (Shared × OperationPhase)
  | .load => some (s, .addResource s.consumable)
  | .addResource c => some (s.modify c .addResource, .post c)
  | .post c => some ({ s with added := s.added ++ [(id, c)] }, .queued c)
  | .queued c => some (s, .running c)
  | .running c => some ({ s with executed := s.executed ++ [id] }, .consume c)
  | .consume c => some ({ s with asserted := s.asserted || (s.heap c).resources == 0 }, .fetchSub c)
  | .fetchSub c =>
    some (s.modify c .consumeResource, if (s.heap c).resources = 1 then .complete c else .done)
  | .complete c => some (s.modify c .complete, .done)
  | .done => none

/-- `wait_for_consumed` of a consumable returned true to its caller. -/
def satisfied : List Nat → WaitPhase
  | [] => .returned true
  | c :: stack => .check c stack

def Wait.act (s : Shared) (w : Wait) (e : Choice) : Option (Shared × WaitPhase) :=
  match w.phase, e with
  | .pooled, .step => some (s, .load)
  | .load, .step => some (s, .swap s.consumable)
  | .swap old, .step => if s.consumable = old then some (s.swap old, .descend old []) else some (s, .load)
  | .swap _, .spurious => some (s, .load)
  | .descend c stack, .step =>
    match (s.heap c).preceeding with
    | some p => if p = c then some (s, .check c stack) else some (s, .descend p (c :: stack))
    | none => some (s, .check c stack)
  | .check c stack, .step =>
    if (s.heap c).resources = 0 then some (s, satisfied stack) else some (s, .barrierWait c stack)
  | .barrierWait c stack, .step =>
    if (s.heap c).barrier then some (s, satisfied stack)
    else some (s, .blocked c stack
      (if w.timeout = waitForever then none else some (waitForDeadline s.now w.timeout)))
  | .blocked c stack _, .step => if (s.heap c).barrier then some (s, satisfied stack) else none
  | .blocked c _ (some deadline), .timeout =>
    if deadline ≤ s.now ∧ (s.heap c).barrier = false then some (s, .returned false) else none
  | .returned _, .step =>
    match w.notification with
    | some n => some ({ s with submitted := s.submitted ++ [n] }, .submitted)
    | none => none
  | _, _ => none

def call (s : Shared) : Choice → Option (Shared × List Thread)
  | .async => some ({ s with operations := s.operations + 1 }, [.operation s.operations .load])
  | .wait t => some (s, [.wait ⟨none, t, s.added, .load⟩])
  | .notify => some ({ s with notifications := s.notifications + 1 },
      [.wait ⟨some s.notifications, millisecondsMax, s.added, .pooled⟩])
  | .tick n => some ({ s with now := s.now + n }, [])
  | _ => none

def act (s : Shared) : Thread → Choice → Option (Shared × Thread × List Thread)
  | .operation id ph, .step => (ph.act s id).map fun r => (r.1, .operation id r.2, [])
  | .operation _ _, _ => none
  | .wait w, e => (w.act s e).map fun r => (r.1, .wait { w with phase := r.2 }, [])

def group : Program Shared Thread Choice := ⟨call, act⟩

def initial (now : Nat) : Config Shared Thread :=
  { shared :=
      { heap := fun _ => ⟨none, 0, false⟩, size := 1, consumable := 0, now := now, asserted := false
        operations := 0, notifications := 0, added := [], executed := [], submitted := [] }
    threads := [] }

end Xdispatch.Group
