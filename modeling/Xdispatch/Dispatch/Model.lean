import Xdispatch.Cancelable.Model

/-!
# Dispatched handlers

Timers and socket notifiers share how they call their handler. A worker queues
an operation for each invocation, and waits for the `lightweight_barrier` on its
stack that the operation completes. The operation runs the handler within a
scope of the cancelable of its owner, which ends after the barrier has been
completed. The methods of the owner are called by any threads, and by the handler
in progress; a section under `m_CS` is one step. The barriers are one-shot events.
-/

namespace Xdispatch.Dispatch

/-- `barriers` are the ones of the operations queued so far. `invoked` and
`cancelled` are history: how often a scope was entered, and that a `cancel`
has returned. -/
structure State where
  cancelable : Cancelable
  barriers : List Bool
  invoked : Nat
  cancelled : Bool
  deriving DecidableEq

/-- What a worker has copied for `queue->async`; the handler is null before one was set. -/
structure Invocation where
  handler : Option Nat
  queue : Nat
  deriving DecidableEq

/-- `disabling` is within a `cancel` of the handler; `completing` is before
`barrier.complete`, `leaving` in the destructor of the scope and `releasing`
before the `m_barrier.complete` of the cancelable. -/
inductive OperationPhase where
  | queued
  | running
  | disabling
  | completing (entered : Bool)
  | leaving
  | releasing
  | done
  deriving DecidableEq

structure Operation where
  invocation : Invocation
  barrier : Nat
  phase : OperationPhase
  deriving DecidableEq

/-- A call of `cancel` after its section under `m_CS`, by a thread that is in no
scope of the cancelable. -/
inductive CancelPhase where
  | disabling
  | waiting
  | returned
  deriving DecidableEq

def State.new : State := ⟨.new, [], 0, false⟩

def State.completed (s : State) (barrier : Nat) : Bool := s.barriers[barrier]? = some true

/-- `queue->async`, and nothing without an invocation. -/
def State.async (s : State) : Option Invocation → State × List Operation
  | some inv => ({ s with barriers := s.barriers ++ [false] }, [⟨inv, s.barriers.length, .queued⟩])
  | none => (s, [])

namespace Operation

/-- The handler is in progress. -/
def calls (o : Operation) : Bool := o.phase = .running && o.invocation.handler.isSome

/-- The next step; for a handler in progress that is its return. -/
def step (s : State) (o : Operation) : Option (State × Operation) :=
  match o.phase with
  | .queued =>
    if s.cancelable.admits then
      some ({ s with cancelable := s.cancelable.enter, invoked := s.invoked + 1 }, { o with phase := .running })
    else some (s, { o with phase := .completing false })
  | .running => if o.calls then some (s, { o with phase := .completing true }) else none
  | .disabling =>
    -- the thread is in the scope, so `disable` only stores the state
    some ({ s with cancelable := s.cancelable.disable, cancelled := true }, { o with phase := .running })
  | .completing entered =>
    some ({ s with barriers := s.barriers.set o.barrier true },
      { o with phase := if entered then .leaving else .done })
  | .leaving =>
    some ({ s with cancelable := s.cancelable.leave },
      { o with phase := if s.cancelable.leaves then .done else .releasing })
  | .releasing => some ({ s with cancelable := s.cancelable.complete }, { o with phase := .done })
  | .done => none

end Operation

def CancelPhase.step (s : State) : CancelPhase → Option (State × CancelPhase)
  | .disabling =>
    if s.cancelable.active = .running then some ({ s with cancelable := s.cancelable.disable }, .waiting)
    else some ({ s with cancelable := s.cancelable.disable, cancelled := true }, .returned)
  | .waiting => if s.cancelable.barrier then some ({ s with cancelled := true }, .returned) else none
  | .returned => none

/-! ## Owners -/

/-- The part of a timer or notifier that its class adds: `method` is a section under
`m_CS`, with the workers it hands to the pool, `cancel` the section of `cancel`, and
`worker` a step of a worker. -/
structure Owner (σ ω μ κ : Type) where
  method : σ → μ → σ × List ω
  cancel : σ → σ
  worker : σ → State → ω → κ → Option (ω × Option Invocation)

structure Shared (σ : Type) where
  members : σ
  dispatch : State
  deriving DecidableEq

inductive Thread (ω : Type) where
  | worker (w : ω)
  | operation (op : Operation)
  | cancel (phase : CancelPhase)
  deriving DecidableEq

inductive Choice (μ κ : Type) where
  | method (m : μ)
  | cancel
  | worker (k : κ)
  | step
  deriving DecidableEq

section
variable {σ ω μ κ : Type} (O : Owner σ ω μ κ)

def Owner.act (s : Shared σ) : Thread ω → Choice μ κ → Option (Shared σ × Thread ω × List (Thread ω))
  | .worker w, .worker k => (O.worker s.members s.dispatch w k).map fun r =>
      ({ s with dispatch := (s.dispatch.async r.2).1 }, .worker r.1, (s.dispatch.async r.2).2.map .operation)
  | .operation o, .step => (o.step s.dispatch).map fun r => ({ s with dispatch := r.1 }, .operation r.2, [])
  | .cancel p, .step => (p.step s.dispatch).map fun r => ({ s with dispatch := r.1 }, .cancel r.2, [])
  | .operation o, .method m =>
    if o.calls then
      some ({ s with members := (O.method s.members m).1 }, .operation o, (O.method s.members m).2.map .worker)
    else none
  | .operation o, .cancel =>
    if o.calls then some ({ s with members := O.cancel s.members }, .operation { o with phase := .disabling }, [])
    else none
  | _, _ => none

def Owner.call (s : Shared σ) : Choice μ κ → Option (Shared σ × List (Thread ω))
  | .method m => some ({ s with members := (O.method s.members m).1 }, (O.method s.members m).2.map .worker)
  | .cancel => some ({ s with members := O.cancel s.members }, [.cancel .disabling])
  | _ => none

def Owner.program : Program (Shared σ) (Thread ω) (Choice μ κ) := ⟨O.call, O.act⟩

end

end Xdispatch.Dispatch
