import Xdispatch.Cancelable.Model
import Mathlib.Logic.Function.Basic

/-!
# Signals

An emit walks through the handlers of the signal under `m_CS` and queues an
invocation for each, or makes it at once, or leaves it to one that is pending.
A queued invocation starts on any thread at any later time, so a serial queue
and a parallel one are both covered; the cancelable of its handler admits it or
not. While the function of a handler runs, its thread may use the same signal:
a thread is a stack of calls, the innermost one first, and `current_c` are the
handlers whose scopes are on it. `α` is the type of the arguments.
-/

namespace Xdispatch.Signal

inductive NotificationMode where
  | batchUpdates
  | singleUpdates
  | synchronousUpdate
  deriving DecidableEq

/-- A `connection_handler`: what does not change about it. -/
structure HandlerId where
  mode : NotificationMode
  serial : Nat
  deriving DecidableEq

/-- `m_active` and `m_pending`; the rest is history. `emitted`, `executed` and
`refused` are the arguments of the emits that found the handler connected, of
the calls of its function, and of the invocations its cancelable refused. `owed`:
no call of the function and no `skip_all` has come after the last of these emits.
`lost`: an invocation was refused that no `skip_all` had come after. `skips`
counts how often `skip_all` has disabled the handler. -/
structure Handler (α : Type) where
  cancelable : Cancelable
  pending : Int
  emitted : List α
  executed : List α
  refused : List α
  owed : Bool
  lost : Bool
  skips : Nat

/-- `skips` is history: that of the handler when the invocation was queued. -/
structure Invocation (α : Type) where
  handler : HandlerId
  args : α
  skips : Nat
  deriving DecidableEq

/-- `locked` says that `m_CS` is held, and `queued` are the invocations in the
queues of the handlers. Handlers with a `serial` from `size` on have not been
made. `stale` is history: an invocation was admitted that was queued before a
`skip_all` had disabled its handler. -/
structure Shared (α : Type) where
  locked : Bool
  handlers : List HandlerId
  heap : HandlerId → Handler α
  size : Nat
  queued : List (Invocation α)
  stale : Bool

/-- Before `cancelable_scope`, inside of it, in the function of the handler, in
`leave` before `m_barrier.complete`, and behind the scope. The queue has yet to
destroy the closure then, which holds the handler; a synchronous update has none. -/
inductive InvokePhase where
  | enter
  | admitted
  | running
  | completing
  | dropping
  deriving DecidableEq

/-- A call in progress. `operator ()` is at the head of its loop in `emitNext`, with
the handlers `rest` to go, and after `m_pending++` in `emitBranch`. `disable` is
called by `disconnect`, or by `skip_all` with the handlers in `skip` to go, and
is in `m_barrier.wait` in `disableWait`. A `disconnect` has returned from it in
`disconnectEnd`, and still has its `c_handler`. -/
inductive Frame (α : Type) where
  | emitLock (args : α)
  | emitNext (rest : List HandlerId) (args : α)
  | emitBranch (handler : HandlerId) (rest : List HandlerId) (args : α) (pending : Int)
  | invoke (inv : Invocation α) (phase : InvokePhase)
  | connectLock (mode : NotificationMode)
  | connectPush (mode : NotificationMode)
  | disconnectLock (handler : HandlerId)
  | disconnectErase (handler : HandlerId)
  | disconnectEnd (handler : HandlerId)
  | skipLock
  | skipNext (rest : List HandlerId)
  | disable (handler : HandlerId) (skip : Option (List HandlerId))
  | disableWait (handler : HandlerId) (skip : Option (List HandlerId))
  deriving DecidableEq

abbrev Thread (α : Type) := List (Frame α)

/-- `run k`: a queue starts the `k`-th of the queued invocations. -/
inductive Choice (α : Type) where
  | emit (args : α)
  | connect (mode : NotificationMode)
  | disconnect (handler : HandlerId)
  | skipAll
  | run (k : Nat)
  | step
  deriving DecidableEq

variable {α : Type}

namespace Handler

def new : Handler α := ⟨.new, 0, [], [], [], false, false, 0⟩

@[grind] def increment (h : Handler α) : Handler α := { h with pending := h.pending + 1 }

@[grind] def decrement (h : Handler α) : Handler α := { h with pending := h.pending - 1 }

@[grind] def emit (args : α) (h : Handler α) : Handler α := { h with emitted := h.emitted ++ [args], owed := true }

@[grind] def enter (h : Handler α) : Handler α := { h with cancelable := h.cancelable.enter }

@[grind] def refuse (args : α) (skips : Nat) (h : Handler α) : Handler α :=
  { h with refused := h.refused ++ [args], lost := h.lost || skips == h.skips }

@[grind] def execute (args : α) (h : Handler α) : Handler α :=
  { h with pending := h.pending - 1, executed := h.executed ++ [args], owed := false }

@[grind] def leave (h : Handler α) : Handler α := { h with cancelable := h.cancelable.leave }

@[grind] def complete (h : Handler α) : Handler α := { h with cancelable := h.cancelable.complete }

@[grind] def disable (skip : Bool) (h : Handler α) : Handler α :=
  { h with
    cancelable := h.cancelable.disable
    owed := h.owed && !skip
    skips := if skip then h.skips + 1 else h.skips }

end Handler

namespace Shared

def modify (s : Shared α) (h : HandlerId) (f : Handler α → Handler α) : Shared α :=
  { s with heap := Function.update s.heap h (f (s.heap h)) }

@[grind] def unlock (s : Shared α) : Shared α := { s with locked := false }

@[grind] def emit (s : Shared α) (args : α) : Shared α :=
  { s with
    locked := true
    heap := fun h => if h ∈ s.handlers then (s.heap h).emit args else s.heap h }

@[grind] def invocation (s : Shared α) (h : HandlerId) (args : α) : Invocation α := ⟨h, args, (s.heap h).skips⟩

def queue (s : Shared α) (inv : Invocation α) : Shared α := { s with queued := s.queued ++ [inv] }

@[grind] def admits (s : Shared α) (h : HandlerId) : Bool := (s.heap h).cancelable.admits

@[grind] def enter (s : Shared α) (inv : Invocation α) : Shared α :=
  { s.modify inv.handler .enter with stale := s.stale || inv.skips != (s.heap inv.handler).skips }

end Shared

def Frame.inScope (h : HandlerId) : Frame α → Bool
  | .invoke inv .admitted | .invoke inv .running => inv.handler == h
  | _ => false

/-- The caller of `disable` when it has returned. -/
def Frame.disabled (h : HandlerId) (skip : Option (List HandlerId)) : Frame α :=
  match skip with
  | none => .disconnectEnd h
  | some rest => .skipNext rest

/-- One step of the innermost call, and what stands in its place then. -/
def Frame.act (s : Shared α) (current : HandlerId → Bool) : Frame α → Option (Shared α × List (Frame α))
  | .emitLock args => if s.locked then none else some (s.emit args, [.emitNext s.handlers args])
  | .emitNext [] _ => some (s.unlock, [])
  | .emitNext (h :: rest) args => some (s.modify h .increment, [.emitBranch h rest args (s.heap h).pending])
  | .emitBranch h rest args pending =>
    if h.mode = .synchronousUpdate then some (s, [.invoke (s.invocation h args) .enter, .emitNext rest args])
    else if h.mode = .singleUpdates ∨ pending < 1 then
      some (s.queue (s.invocation h args), [.emitNext rest args])
    else some (s.modify h .decrement, [.emitNext rest args])
  | .invoke inv .enter =>
    if s.admits inv.handler then some (s.enter inv, [.invoke inv .admitted])
    else some (s.modify inv.handler (.refuse inv.args inv.skips), [.invoke inv .dropping])
  | .invoke inv .admitted => some (s.modify inv.handler (.execute inv.args), [.invoke inv .running])
  | .invoke inv .running =>
    some (s.modify inv.handler .leave,
      [.invoke inv (if (s.heap inv.handler).cancelable.leaves then .dropping else .completing)])
  | .invoke inv .completing => some (s.modify inv.handler .complete, [.invoke inv .dropping])
  | .invoke _ .dropping => some (s, [])
  | .connectLock mode => if s.locked then none else some ({ s with locked := true }, [.connectPush mode])
  | .connectPush mode =>
    some ({ s with locked := false, handlers := s.handlers ++ [⟨mode, s.size⟩], size := s.size + 1 }, [])
  | .disconnectLock h => if s.locked then none else some ({ s with locked := true }, [.disconnectErase h])
  | .disconnectErase h =>
    some ({ s with locked := false, handlers := s.handlers.filter (· ≠ h) }, [.disable h none])
  | .disconnectEnd _ => some (s, [])
  | .skipLock => if s.locked then none else some ({ s with locked := true }, [.skipNext s.handlers])
  | .skipNext [] => some (s.unlock, [])
  | .skipNext (h :: rest) => some (s, [.disable h (some rest)])
  | .disable h skip =>
    some (s.modify h (.disable skip.isSome),
      [if !current h && (s.heap h).cancelable.active = .running then .disableWait h skip else .disabled h skip])
  | .disableWait h skip => if (s.heap h).cancelable.barrier then some (s, [.disabled h skip]) else none

/-- What a thread starts a call with. Only a handler that was made has a connection. -/
def Choice.frame (s : Shared α) : Choice α → Option (Frame α)
  | .emit args => some (.emitLock args)
  | .connect mode => some (.connectLock mode)
  | .disconnect h => if h.serial < s.size then some (.disconnectLock h) else none
  | .skipAll => some .skipLock
  | .run _ | .step => none

def Frame.calls : Frame α → Bool
  | .invoke _ .running => true
  | _ => false

def act (s : Shared α) : Thread α → Choice α → Option (Shared α × Thread α × List (Thread α))
  | f :: stack, .step =>
    (f.act s fun h => (f :: stack).any (Frame.inScope h)).map fun r => (r.1, r.2 ++ stack, [])
  | f :: stack, e => if f.calls then (e.frame s).map fun g => (s, g :: f :: stack, []) else none
  | [], _ => none

def call (s : Shared α) : Choice α → Option (Shared α × List (Thread α))
  | .run k => s.queued[k]?.map fun inv => ({ s with queued := s.queued.eraseIdx k }, [[.invoke inv .enter]])
  | e => (e.frame s).map fun f => (s, [[f]])

def signal : Program (Shared α) (Thread α) (Choice α) := ⟨call, act⟩

def initial : Config (Shared α) (Thread α) := ⟨⟨false, [], fun _ => .new, 0, [], false⟩, []⟩

end Xdispatch.Signal
