import Xdispatch.Lib.Threads

/-!
# The waitable queue

`waitable_queue::impl` keeps its operations in a list of its own and posts one
and the same `waitable_queue_operation` to the inner queue for each of them.
Running that runs the first operation of the list, and a thread that waits does
the same when nobody else does. `m_CS` is held from one wait, call or return to
the next and released in all of them, so what happens under it is one step.
-/

namespace Xdispatch.WaitableQueue

/-- `inner` counts the executions that the inner queue has not begun, and
`notifications` the calls of `m_cond.notify_all`. `added` and `started` are
history: the operations in the order of `push_back`, and those that have started. -/
structure Shared where
  operations : List Nat
  completed : Nat
  active : Bool
  notifications : Nat
  inner : Nat
  added : List Nat
  started : List Nat
  deriving DecidableEq

inductive Waiter where
  | one
  | all
  deriving DecidableEq

/-- `drain` is `drain_one`, called by the inner queue or by a thread that waits;
`resuming` is `wait_for_one` after `drain_one`, about to lock. A thread blocked on
`m_cond` has been notified once there are more notifications than it had `seen`. -/
inductive Thread where
  | add (op : Nat)
  | post
  | drain (caller : Option Waiter)
  | drainBlocked (caller : Option Waiter) (seen : Nat)
  | executing (caller : Option Waiter) (op : Nat)
  | wait (w : Waiter)
  | waitBlocked (w : Waiter) (seen : Nat)
  | resuming (w : Waiter)
  | returned
  deriving DecidableEq

/-- `run`: the inner queue begins an execution; `spurious`: `m_cond` wakes without notification. -/
inductive Choice where
  | async (op : Nat)
  | run
  | wait (w : Waiter)
  | step
  | spurious
  deriving DecidableEq

/-- How a pass under the lock ends: `starving` is before `drain_one`. -/
inductive Outcome where
  | returned
  | active
  | starving
  deriving DecidableEq

namespace Shared

/-- The loop of `wait_for_one`. -/
def waitForOne (s : Shared) : Shared × Outcome :=
  if s.completed ≠ 0 then ({ s with completed := s.completed - 1 }, .returned)
  else if s.active then (s, .active)
  else if s.operations = [] then (s, .returned)
  else (s, .starving)

def busy (s : Shared) : Bool := s.active || !s.operations.isEmpty

/-- The loop of `wait_for_all`, which takes one of the `n` completed at a time. -/
def waitForAll : Nat → Shared → Shared × Outcome
  | 0, s => if s.busy then s.waitForOne else (s, .returned)
  | n + 1, s =>
    if s.busy then
      if s.waitForOne.2 = .returned then waitForAll n s.waitForOne.1 else s.waitForOne
    else (s, .returned)

end Shared

def Waiter.enter (s : Shared) : Waiter → Shared × Outcome
  | .one => s.waitForOne
  | .all => s.waitForAll s.completed

/-- Goes on in the loop of `wait_for_one`. -/
def Waiter.resume (s : Shared) : Waiter → Shared × Outcome
  | .one => s.waitForOne
  | .all =>
    if s.waitForOne.2 = .returned then s.waitForOne.1.waitForAll s.waitForOne.1.completed else s.waitForOne

/-- Where the outcome leaves the thread that waits. -/
def Waiter.after (w : Waiter) (r : Shared × Outcome) : Shared × Thread :=
  (r.1, match r.2 with
    | .returned => .returned
    | .active => .waitBlocked w r.1.notifications
    | .starving => .drain (some w))

def drained : Option Waiter → Thread
  | none => .returned
  | some w => .resuming w

/-- `drain_one` up to the operation. -/
def drainOne (s : Shared) (caller : Option Waiter) : Shared × Thread :=
  if s.active then (s, .drainBlocked caller s.notifications)
  else match s.operations with
    | [] => ({ s with active := false, notifications := s.notifications + 1 }, drained caller)
    | op :: rest => ({ s with active := true, operations := rest, started := s.started ++ [op] }, .executing caller op)

/-- `m_cond.wait` has woken: it waits again while the queue is active. -/
def wake (s : Shared) (w : Waiter) : Shared × Thread :=
  if s.active then (s, .waitBlocked w s.notifications) else w.after (w.resume s)

def Thread.act (s : Shared) : Thread → Choice → Option (Shared × Thread)
  | .add op, .step => some ({ s with operations := s.operations ++ [op], added := s.added ++ [op] }, .post)
  | .post, .step => some ({ s with inner := s.inner + 1 }, .returned)
  | .drain caller, .step => some (drainOne s caller)
  | .drainBlocked caller seen, .step => if seen < s.notifications then some (drainOne s caller) else none
  | .drainBlocked caller _, .spurious => some (drainOne s caller)
  | .executing caller _, .step =>
    some ({ s with completed := s.completed + 1, active := false, notifications := s.notifications + 1 }, drained caller)
  | .wait w, .step => some (w.after (w.enter s))
  | .waitBlocked w seen, .step => if seen < s.notifications then some (wake s w) else none
  | .waitBlocked w _, .spurious => some (wake s w)
  | .resuming w, .step => some (w.after (w.resume s))
  | _, _ => none

def call (s : Shared) : Choice → Option (Shared × List Thread)
  | .async op => some (s, [.add op])
  | .run => if s.inner = 0 then none else some ({ s with inner := s.inner - 1 }, [.drain none])
  | .wait w => some (s, [.wait w])
  | _ => none

def waitableQueue : Program Shared Thread Choice :=
  ⟨call, fun s t e => (t.act s e).map fun r => (r.1, r.2, [])⟩

def initial : Config Shared Thread := ⟨⟨[], 0, false, 0, 0, [], []⟩, []⟩

end Xdispatch.WaitableQueue
