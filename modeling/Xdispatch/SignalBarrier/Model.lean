import Xdispatch.Signal.Model

/-!
# Signal barriers

A `signal_barrier` connects a handler that captures `this` while it is being
constructed, so a queue may call the function of that handler at any point of
the constructor from there on. The function stores the values, disconnects its
own handler and completes the barrier. The calls on the signal are those of the
signal itself, by any threads. What is read of a member before its constructor
is what an empty one would hold, and what is written to it is overwritten then.
-/

namespace Xdispatch.SignalBarrier

open Signal (HandlerId Invocation)

variable {α : Type}

/-- In the order of their declaration, which is that of their initialisation. -/
inductive Member where
  | signal
  | barrier
  | connection
  | values
  deriving DecidableEq

/-- What the constructor comes to next. `connectReturn` is the return of `connect`
with the connection, before it is assigned. -/
inductive ConstructPhase where
  | signal
  | barrier
  | connectLock
  | connectPush
  | connectReturn
  | connection
  | values
  deriving DecidableEq

/-- What the function of the handler comes to next; `m_connection.disconnect` is
`disconnect` up to `reset`. -/
inductive FunctionPhase where
  | set
  | disconnect
  | disconnectLock (handler : HandlerId)
  | disconnectErase (handler : HandlerId)
  | disable (handler : HandlerId)
  | disconnectEnd (handler : HandlerId)
  | reset
  | complete
  deriving DecidableEq

/-- `handler` is the one that `connect` has registered, `connection` the one that
`m_connection` is of, `completed` says that `m_barrier` has been completed, and
`stored` is what `m_values` holds. `misused` is history: the function has used a member
that was not constructed, and so is `answer`: what `stored` was when `wait` first
returned true. -/
structure Shared (α : Type) where
  signal : Signal.Shared α
  constructed : List Member
  handler : Option HandlerId
  connection : Option HandlerId
  completed : Bool
  stored : Option α
  misused : Bool
  answer : Option (Option α)

inductive Frame (α : Type) where
  | call (frame : Signal.Frame α)
  | construct (phase : ConstructPhase)
  | function (inv : Invocation α) (phase : FunctionPhase)
  | wait
  deriving DecidableEq

abbrev Thread (α : Type) := List (Frame α)

inductive Choice (α : Type) where
  | call (choice : Signal.Choice α)
  | wait
  | timeout
  deriving DecidableEq

namespace Shared

def construct (s : Shared α) (m : Member) : Shared α := { s with constructed := s.constructed ++ [m] }

def use (s : Shared α) (m : Member) : Shared α := { s with misused := s.misused || m ∉ s.constructed }

/-- `signal_barrier::values` -/
def values (s : Shared α) : Except String (Option α) :=
  if s.completed then .ok s.stored else .error "Barrier was not signalled yet"

/-- The function of the barrier's own handler is the one below. -/
def frame (s : Shared α) : Signal.Frame α → Frame α
  | .invoke inv .running => if s.handler = some inv.handler then .function inv .set else .call (.invoke inv .running)
  | f => .call f

/-- A step of `f`, and what the caller goes on with. -/
def step (s : Shared α) (current : HandlerId → Bool) (f : Signal.Frame α) (rest : Frame α) :
    Option (Shared α × List (Frame α)) :=
  (f.act s.signal current).map fun r => ({ s with signal := r.1 }, [rest])

end Shared

def Frame.inScope (h : HandlerId) : Frame α → Bool
  | .call f => f.inScope h
  | .function inv _ => inv.handler == h
  | _ => false

def Frame.act (s : Shared α) (current : HandlerId → Bool) : Frame α → Option (Shared α × List (Frame α))
  | .call f => (f.act s.signal current).map fun r => ({ s with signal := r.1 }, r.2.map s.frame)
  | .construct .signal => some (s.construct .signal, [.construct .barrier])
  | .construct .barrier => some (s.construct .barrier, [.construct .connectLock])
  | .construct .connectLock => s.step current (.connectLock .singleUpdates) (.construct .connectPush)
  | .construct .connectPush =>
    { s with handler := some ⟨.singleUpdates, s.signal.size⟩ }.step current (.connectPush .singleUpdates)
      (.construct .connectReturn)
  | .construct .connectReturn => some (s, [.construct .connection])
  | .construct .connection =>
    some ({ s with connection := s.handler }.construct .connection, [.construct .values])
  | .construct .values => some ({ s with stored := none }.construct .values, [])
  | .function inv .set => some ({ s with stored := some inv.args }.use .values, [.function inv .disconnect])
  | .function inv .disconnect =>
    some (s.use .connection, [.function inv (match s.connection with
      | some h => .disconnectLock h
      | none => .complete)])
  -- the invocation has a `handler_ptr`, so `m_id.lock()` returns the handler
  | .function inv (.disconnectLock h) => s.step current (.disconnectLock h) (.function inv (.disconnectErase h))
  | .function inv (.disconnectErase h) => s.step current (.disconnectErase h) (.function inv (.disable h))
  -- and its thread is in the scope of the handler, so `disable` does not wait
  | .function inv (.disable h) => s.step current (.disable h none) (.function inv (.disconnectEnd h))
  | .function inv (.disconnectEnd h) => s.step current (.disconnectEnd h) (.function inv .reset)
  | .function inv .reset => some ({ s with connection := none }, [.function inv .complete])
  | .function inv .complete => some ({ s with completed := true }.use .barrier, [.call (.invoke inv .running)])
  | .wait => if s.completed then some ({ s with answer := s.answer.or (some s.stored) }, []) else none

/-- What a thread starts a call with. Nobody else has `m_connection`, and `wait` is a
call on a barrier that has been constructed. -/
def Choice.start (s : Shared α) : Choice α → Option (Frame α)
  | .call (.disconnect h) =>
    if s.handler = some h then none else ((Signal.Choice.disconnect h).frame s.signal).map .call
  | .call e => (e.frame s.signal).map .call
  | .wait => if .values ∈ s.constructed then some .wait else none
  | .timeout => none

/-- The function of another handler of the signal. -/
def Frame.calls (s : Shared α) : Frame α → Bool
  | .call (.invoke inv .running) => s.handler ≠ some inv.handler
  | _ => false

def act (s : Shared α) : Thread α → Choice α → Option (Shared α × Thread α × List (Thread α))
  | f :: stack, .call .step =>
    (f.act s fun h => (f :: stack).any (Frame.inScope h)).map fun r => (r.1, r.2 ++ stack, [])
  | .wait :: stack, .timeout => some (s, stack, [])
  | f :: stack, e => if f.calls s then (e.start s).map fun g => (s, g :: f :: stack, []) else none
  | [], _ => none

def call (s : Shared α) : Choice α → Option (Shared α × List (Thread α))
  | .call (.run k) => s.signal.queued[k]?.map fun inv =>
      ({ s with signal := { s.signal with queued := s.signal.queued.eraseIdx k } }, [[.call (.invoke inv .enter)]])
  | e => (e.start s).map fun f => (s, [[f]])

def signalBarrier : Program (Shared α) (Thread α) (Choice α) := ⟨call, act⟩

/-- The constructor is about to start. -/
def initial : Config (Shared α) (Thread α) :=
  ⟨⟨Signal.initial.shared, [], none, none, false, none, false, none⟩, [[.construct .signal]]⟩

end Xdispatch.SignalBarrier
