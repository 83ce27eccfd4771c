import Xdispatch.Cancelable.Model

/-!
# The connection manager

A `connection_manager` destroys its scoped connections while it holds `m_CS`,
and each of them disconnects its handler, which waits if that is running on
another thread. A thread is a stack of calls, the innermost one first: functions
of the manager, and invocations of handlers, whose functions may call the
manager. What a signal does to its own list of handlers is one step.
-/

namespace Xdispatch.ConnectionManager

/-- A handler of a signal, which is what `m_id` and `m_parent` of a connection are. -/
structure HandlerId where
  signal : Nat
  id : Nat
  deriving DecidableEq

/-- A `scoped_connection`; an empty one has no parent. -/
abbrev Connection := Option HandlerId

/-- `connected`: the signal has the handler in `m_handlers`. It is alive as long as it is, or any of its
`invocations` exists, of which `queued` have not begun. -/
structure Handler where
  connected : Bool
  invocations : Nat
  queued : Nat
  cancelable : Cancelable
  deriving DecidableEq

structure Shared where
  connections : List Connection
  locked : Bool
  handlers : HandlerId → Handler

inductive Operation where
  | add (c : Connection)
  | reset
  | resetWith (signal : Nat)
  deriving DecidableEq

/-- `lock` is before `m_CS`, and `disconnects` destroys connections while it holds it: `disables`
is before the `disable` of a handler, and `waits` in the `m_barrier.wait` of that. An invocation is
`leaving` after `current_c.erase`, and `completing` before `m_barrier.complete`. -/
inductive Frame where
  | invoke (h : HandlerId)
  | execute (h : HandlerId)
  | leaving (h : HandlerId)
  | completing (h : HandlerId)
  | lock (op : Operation)
  | disconnects (rest : List Connection)
  | disables (h : HandlerId) (rest : List Connection)
  | waits (h : HandlerId) (rest : List Connection)
  deriving DecidableEq

abbrev Thread := List Frame

/-- `emit` queues an invocation, and `run` begins it: on a thread of the queue, or in the function of
a handler that emits a signal with a synchronous one. `operation` is a call of the manager. -/
inductive Choice where
  | emit (h : HandlerId)
  | run (h : HandlerId)
  | operation (op : Operation)
  | step
  deriving DecidableEq

def Connection.isConnectedTo (c : Connection) (signal : Nat) : Bool := c.any (·.signal = signal)

/-- What stays in `m_connections`, and the connections that are destroyed. Those that `remove_if`
overwrites come before those that `erase` destroys, each in the order of the list. -/
def Operation.run (connections : List Connection) : Operation → List Connection × List Connection
  | .add c => (connections ++ [c], [])
  | .reset => ([], connections)
  | .resetWith signal =>
    (connections.filter fun c => !c.isConnectedTo signal, connections.filter (·.isConnectedTo signal))

namespace Handler

def alive (r : Handler) : Bool := r.connected || 0 < r.invocations

def emit (r : Handler) : Handler := { r with invocations := r.invocations + 1, queued := r.queued + 1 }

def begin (r : Handler) : Handler := { r with queued := r.queued - 1 }

def finish (r : Handler) : Handler := { r with invocations := r.invocations - 1 }

def erase (r : Handler) : Handler := { r with connected := false }

def enter (r : Handler) : Handler := { r with cancelable := r.cancelable.enter }

def leave (r : Handler) : Handler := { r with cancelable := r.cancelable.leave }

def complete (r : Handler) : Handler := { r with cancelable := r.cancelable.complete }

def disable (r : Handler) : Handler := { r with cancelable := r.cancelable.disable }

end Handler

def Shared.modify (s : Shared) (h : HandlerId) (f : Handler → Handler) : Shared :=
  { s with handlers := fun k => if k = h then f (s.handlers k) else s.handlers k }

/-- The handlers in whose scope a thread is, as its `current_c` has them. -/
def current (t : Thread) (h : HandlerId) : Bool := t.contains (.execute h)

/-- The `disable` of `h` has to wait for another thread. -/
def Shared.waitsFor (s : Shared) (t : Thread) (h : HandlerId) : Bool :=
  !current t h && (s.handlers h).cancelable.active = .running

/-- A step of the innermost call of thread `t`. -/
def Frame.act (s : Shared) (t : Thread) : Frame → Option (Shared × List Frame)
  | .invoke h =>
    some (if (s.handlers h).cancelable.admits then (s.modify h .enter, [.execute h]) else (s.modify h .finish, []))
  | .execute h => some (s, [.leaving h])
  | .leaving h =>
    some (if (s.handlers h).cancelable.leaves then ((s.modify h .leave).modify h .finish, []) else (s, [.completing h]))
  | .completing h => some ((s.modify h .complete).modify h .finish, [])
  | .lock op =>
    if s.locked then none
    else some ({ s with locked := true, connections := (op.run s.connections).1 }, [.disconnects (op.run s.connections).2])
  | .disconnects [] => some ({ s with locked := false }, [])
  | .disconnects (none :: rest) => some (s, [.disconnects rest])
  | .disconnects (some h :: rest) =>
    some (if (s.handlers h).alive then (s.modify h .erase, [.disables h rest]) else (s, [.disconnects rest]))
  | .disables h rest =>
    some (s.modify h .disable, [if s.waitsFor t h then .waits h rest else .disconnects rest])
  | .waits h rest => if (s.handlers h).cancelable.barrier then some (s, [.disconnects rest]) else none

def Shared.run (s : Shared) (h : HandlerId) : Option Shared :=
  if (s.handlers h).queued = 0 then none else some (s.modify h .begin)

def act (s : Shared) : Thread → Choice → Option (Shared × Thread × List Thread)
  | f :: stack, .step => (f.act s (f :: stack)).map fun r => (r.1, r.2 ++ stack, [])
  | .execute h :: stack, .run k => (s.run k).map (·, .invoke k :: .execute h :: stack, [])
  | .execute h :: stack, .operation op => some (s, .lock op :: .execute h :: stack, [])
  | _, _ => none

def call (s : Shared) : Choice → Option (Shared × List Thread)
  | .emit h => if (s.handlers h).connected then some (s.modify h .emit, []) else none
  | .run h => (s.run h).map (·, [[.invoke h]])
  | .operation op => some (s, [[.lock op]])
  | .step => none

def connectionManager : Program Shared Thread Choice := ⟨call, act⟩

/-- Every handler is connected at first; one that nobody emits to plays no part. -/
def initial : Config Shared Thread := ⟨⟨[], false, fun _ => ⟨true, 0, 0, .new⟩⟩, []⟩

end Xdispatch.ConnectionManager
