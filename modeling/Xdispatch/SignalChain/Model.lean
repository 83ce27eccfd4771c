import Xdispatch.Lib.Paths
import Xdispatch.Signal.Model
import Mathlib.Data.List.Basic

/-!
# Chained signals

`connect(this_type&)` connects a handler that is called synchronously and emits
another signal. So a thread that emits goes from signal to signal: it is a stack
of calls, each with the signal that it is a call on, and each signal of the graph
takes its steps as `Signal.Frame.act` says. A function that is not a link returns
at once; what it emits is an emit of another thread.
-/

namespace Xdispatch.SignalChain

open Signal (Frame HandlerId Invocation NotificationMode)

variable {ν α : Type}

/-- What is connected to a signal: another signal, or a function. -/
inductive Connection (ν : Type) where
  | link (s : ν)
  | batchUpdates
  | singleUpdates
  deriving DecidableEq

namespace Connection

def mode : Connection ν → NotificationMode
  | .link _ => .synchronousUpdate
  | .batchUpdates => .batchUpdates
  | .singleUpdates => .singleUpdates

def target : Connection ν → Option ν
  | .link s => some s
  | .batchUpdates | .singleUpdates => none

end Connection

/-- What is connected to each signal, in the order in which it was. -/
structure Graph (ν : Type) where
  connections : ν → List (Connection ν)

namespace Graph

variable (G : Graph ν)

def handlers (n : ν) : List HandlerId := (G.connections n).mapIdx fun k c => ⟨c.mode, k⟩

/-- The signal that the function of the handler emits. -/
def target (n : ν) (h : HandlerId) : Option ν := (G.connections n)[h.serial]?.bind Connection.target

def links : Multigraph ν := ⟨fun n => (G.connections n).filterMap Connection.target⟩

/-- What the function calls that the step of a frame calls. -/
def calls (n : ν) : Frame α → List (ν × Frame α)
  | .invoke inv .admitted => (G.target n inv.handler).toList.map fun m => (m, .emitLock inv.args)
  | _ => []

end Graph

/-- `emit` says which call of `operator ()` the thread is there for, if not for an
invocation that a queue runs. `queued` is history: the invocations that it has queued. -/
structure Thread (ν α : Type) where
  emit : Option (ν × α)
  stack : List (ν × Frame α)
  queued : List (ν × Invocation α)
  deriving DecidableEq

inductive Choice (ν α : Type) where
  | emit (s : ν) (args : α)
  | run (s : ν) (k : Nat)
  | step
  deriving DecidableEq

variable [DecidableEq ν]

def Thread.current (t : Thread ν α) (n : ν) (h : HandlerId) : Bool := t.stack.any fun p => p.1 = n && p.2.inScope h

def call (s : ν → Signal.Shared α) : Choice ν α → Option ((ν → Signal.Shared α) × List (Thread ν α))
  | .emit n args => (Signal.call (s n) (.emit args)).map fun r =>
    (Function.update s n r.1, r.2.map fun fs => ⟨some (n, args), fs.map (n, ·), []⟩)
  | .run n k => (Signal.call (s n) (.run k)).map fun r =>
    (Function.update s n r.1, r.2.map fun fs => ⟨none, fs.map (n, ·), []⟩)
  | .step => none

def act (G : Graph ν) (s : ν → Signal.Shared α) (t : Thread ν α) :
    Choice ν α → Option ((ν → Signal.Shared α) × Thread ν α × List (Thread ν α))
  | .step =>
    match t.stack with
    | (n, f) :: stack => (f.act (s n) (t.current n)).map fun r =>
      (Function.update s n r.1,
        { t with
          stack := G.calls n f ++ r.2.map (n, ·) ++ stack
          queued := t.queued ++ (r.1.queued.drop (s n).queued.length).map (n, ·) }, [])
    | [] => none
  | _ => none

def chain (G : Graph ν) : Program (ν → Signal.Shared α) (Thread ν α) (Choice ν α) := ⟨call, act G⟩

/-- A signal with its connections, before any emit. -/
def connected (cs : List (Connection ν)) : Signal.Shared α :=
  ⟨false, cs.mapIdx fun k c => ⟨c.mode, k⟩, fun _ => .new, cs.length, [], false⟩

def initial (G : Graph ν) : Config (ν → Signal.Shared α) (Thread ν α) := ⟨fun n => connected (G.connections n), []⟩

omit [DecidableEq ν] in
/-- It is what calls of `connect` lead to. -/
theorem exists_connected (cs : List (Connection ν)) :
    ∃ tr ts, Signal.signal.Run Signal.initial tr ⟨connected (α := α) cs, ts⟩ := by
  induction cs using List.reverseRecOn with
  | nil => exact ⟨[], [], .nil⟩
  | append_singleton cs c ih =>
    obtain ⟨tr, ts, h⟩ := ih
    have hcall : Signal.signal.Run Signal.initial _ ⟨connected cs, ts ++ [[.connectLock c.mode]]⟩ :=
      h.snoc (l := .call (.connect c.mode)) rfl
    have hact : Signal.signal.act { connected (α := α) cs with locked := true } [.connectPush c.mode] .step =
        some (connected (cs ++ [c]), [], []) := by
      simp [Signal.signal, Signal.act, Frame.act, connected]
    obtain ⟨tr, hlock⟩ : ∃ tr, Signal.signal.Run Signal.initial tr
        ⟨{ connected cs with locked := true }, ts ++ [[.connectPush c.mode]]⟩ := hcall.last_step (e := .step) rfl
    obtain ⟨tr, hpush⟩ := hlock.last_step hact
    exact ⟨tr, _, hpush⟩

end Xdispatch.SignalChain
