import Xdispatch.Timer.Model

/-!
# Delayed operations

`after` makes a timer for the queue, gives it a handler that executes the
operation, and resumes the timer with the delay. The handler owns the timer that
owns it. A `delayed_operation`, which the serial and the parallel queue use,
releases the timer once it has executed; the lambda of a waitable queue only
cancels it. The model starts when the timer has been made. The target queue runs
an operation some time after it was queued; it holds it until then.
-/

namespace Xdispatch.After

inductive Kind where
  | serial
  | parallel
  | waitable
  deriving DecidableEq

/-- The handler is a `delayed_operation`. -/
def Kind.delayed : Kind → Bool
  | .serial | .parallel => true
  | .waitable => false

/-- What the call of `after` comes to next: making the handler, `timer->handler`,
`timer->resume`, and the end of its local variables. -/
inductive CallPhase where
  | construct
  | assign
  | resume
  | release
  | returned
  deriving DecidableEq

/-- What the handler comes to next; `reset` is `m_timer.reset` of a `delayed_operation`,
where the lambda has nothing. -/
inductive Body where
  | execute
  | cancel
  | reset
  | return
  deriving DecidableEq

inductive Thread where
  | call (phase : CallPhase)
  | timer (t : Timer.Thread) (body : Body)
  deriving DecidableEq

/-- `handler` says that the handler has been made, and `handlerTimer` that it has a
reference to the timer. `executed` counts the executions of the operation. -/
structure Shared where
  timer : Timer.Shared
  handler : Bool
  handlerTimer : Bool
  executed : Nat
  deriving DecidableEq

def Shared.timerAct (s : Shared) (t : Timer.Thread) (body : Body) (e : Timer.Choice) :
    Option (Shared × Thread × List Thread) :=
  (Timer.owner.act s.timer t e).map fun r =>
    ({ s with timer := r.1 }, .timer r.2.1 body, r.2.2.map (.timer · .execute))

/-- `operator()` of the handler, when its thread is not within `cancel`. -/
def Body.act (k : Kind) (s : Shared) (o : Dispatch.Operation) : Body → Option (Shared × Thread × List Thread)
  | .execute => some ({ s with executed := s.executed + 1 }, .timer (.operation o) .cancel, [])
  | .cancel =>
    if s.handlerTimer then s.timerAct (.operation o) .reset .cancel
    else some (s, .timer (.operation o) .return, [])
  | .reset =>
    some (if k.delayed then { s with handlerTimer := false } else s, .timer (.operation o) .return, [])
  | .return => s.timerAct (.operation o) .return .step

def CallPhase.act (delay : Int) (s : Shared) : CallPhase → Option (Shared × Thread × List Thread)
  | .construct => some ({ s with handler := true, handlerTimer := true }, .call .assign, [])
  | .assign => (Timer.owner.call s.timer (.method (.handler 0))).map fun r =>
      ({ s with timer := r.1 }, .call .resume, r.2.map (.timer · .execute))
  | .resume => (Timer.owner.call s.timer (.method (.resume delay))).map fun r =>
      ({ s with timer := r.1 }, .call .release, r.2.map (.timer · .execute))
  | .release => some (s, .call .returned, [])
  | .returned => none

def act (k : Kind) (delay : Int) (s : Shared) : Thread → Unit → Option (Shared × Thread × List Thread)
  | .call p, _ => p.act delay s
  | .timer (.operation o) body, _ => if o.calls then body.act k s o else s.timerAct (.operation o) body .step
  | .timer (.worker w) body, _ => s.timerAct (.worker w) body (.worker ())
  | .timer (.cancel p) body, _ => s.timerAct (.cancel p) body .step

def after (k : Kind) (delay : Int) : Program Shared Thread Unit := ⟨fun _ _ => none, act k delay⟩

def initial : Config Shared Thread := ⟨⟨(Timer.initial 0).shared, false, false, 0⟩, [.call .construct]⟩

/-! ## Ownership -/

/-- `job` is the operation that the timer has queued for the barrier with that number. -/
inductive Object where
  | timer
  | handler
  | op
  | queue
  | job (barrier : Nat)
  deriving DecidableEq

def Thread.isJob (barrier : Nat) (p : Dispatch.OperationPhase → Bool) : Thread → Bool
  | .timer (.operation o) _ => o.barrier = barrier && p o.phase
  | _ => false

/-- `captures` says that the operation holds a reference to the queue. -/
def owns (captures : Bool) (c : Config Shared Thread) : Object → Object → Bool
  | .timer, .handler => c.shared.timer.members.handler.isSome
  | .timer, .queue => true
  | .handler, .op => c.shared.handler
  | .handler, .timer => c.shared.handlerTimer
  | .op, .queue => captures
  | .queue, .job b => c.threads.any (Thread.isJob b (· = .queued))
  | .job b, .handler => c.threads.any (Thread.isJob b (· ≠ .done))
  | _, _ => false

/-- The references on the stack of a thread: the local variables of `after`, what the
worker has captured and copied, and the operation that a thread of the queue executes. -/
def Thread.roots (k : Kind) : Thread → Object → Bool
  | .call p, .timer => p = .construct || p ≠ .returned && !k.delayed
  | .call p, .handler => p ≠ .construct && p ≠ .returned && k.delayed
  | .call p, .op => p ≠ .returned
  | .timer (.worker w) _, .timer => w ≠ .left
  | .timer (.worker (.queueing _ _)) _, .handler | .timer (.worker (.waiting _ _)) _, .handler => true
  | .timer (.worker (.queueing _ _)) _, .queue | .timer (.worker (.waiting _ _)) _, .queue => true
  | .timer (.operation o) _, .job b => o.barrier = b && o.phase ≠ .queued && o.phase ≠ .done
  | _, _ => false

end Xdispatch.After
