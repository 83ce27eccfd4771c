import Xdispatch.Lib.Threads

/-!
# Cancelables

A `cancelable` admits one scope at a time and can be disabled for good. Its
state is one atomic, so `enter`, `leave` and `disable` are one step each on it;
`leave` and `disable` go on to the barrier, which is a one-shot event here.
`current_c` is what tells a thread that it is inside of a scope.
-/

namespace Xdispatch

/-- `cancelable::active_state` -/
inductive ActiveState where
  | disabled
  | enabled
  | running
  deriving DecidableEq

/-- `barrier` says that `m_barrier` has been completed. -/
structure Cancelable where
  active : ActiveState
  barrier : Bool
  deriving DecidableEq

namespace Cancelable

@[grind] def new : Cancelable := ⟨.enabled, false⟩

/-- `enter` returned true. -/
@[grind] def admits (c : Cancelable) : Bool := c.active = .enabled

@[grind] def enter (c : Cancelable) : Cancelable := if c.admits then { c with active := .running } else c

@[grind] def leaves (c : Cancelable) : Bool := c.active = .running

@[grind] def leave (c : Cancelable) : Cancelable := if c.leaves then { c with active := .enabled } else c

@[grind] def complete (c : Cancelable) : Cancelable := { c with barrier := true }

@[grind] def disable (c : Cancelable) : Cancelable := { c with active := .disabled }

end Cancelable

namespace Cancel

/-- `leave` is `leaving` after `current_c.erase` and `completing` before
`m_barrier.complete`; `disable` is `waiting` in `m_barrier.wait`. -/
inductive Phase where
  | idle
  | leaving
  | completing
  | waiting
  deriving DecidableEq

/-- A thread in `scopes` scopes of the cancelable; `current` says that its
`current_c` holds the cancelable. -/
structure Thread where
  scopes : Nat
  current : Bool
  phase : Phase
  deriving DecidableEq

/-- `returned` is history: `disable` has returned to a thread that is in no scope. -/
structure Shared where
  cancelable : Cancelable
  returned : Bool
  deriving DecidableEq

inductive Choice where
  | thread
  | enter
  | leave
  | disable
  | step
  deriving DecidableEq

namespace Shared

def disabled (s : Shared) (t : Thread) : Shared := { s with returned := s.returned || t.scopes == 0 }

end Shared

def act (s : Shared) (t : Thread) (e : Choice) : Option (Shared × Thread × List Thread) :=
  match t.phase, e with
  | .idle, .enter =>
    some ({ s with cancelable := s.cancelable.enter },
      if s.cancelable.admits then { t with scopes := t.scopes + 1, current := true } else t, [])
  | .idle, .leave => if t.scopes = 0 then none else some (s, { t with current := false, phase := .leaving }, [])
  | .idle, .disable =>
    let s' := { s with cancelable := s.cancelable.disable }
    if t.current then some (s'.disabled t, t, [])
    else if s.cancelable.active = .running then some (s', { t with phase := .waiting }, [])
    else some (s'.disabled t, t, [])
  | .leaving, .step =>
    some ({ s with cancelable := s.cancelable.leave },
      { t with scopes := t.scopes - 1, phase := if s.cancelable.leaves then .idle else .completing }, [])
  | .completing, .step => some ({ s with cancelable := s.cancelable.complete }, { t with phase := .idle }, [])
  | .waiting, .step => if s.cancelable.barrier then some (s.disabled t, { t with phase := .idle }, []) else none
  | _, _ => none

def call (s : Shared) : Choice → Option (Shared × List Thread)
  | .thread => some (s, [⟨0, false, .idle⟩])
  | _ => none

def cancelable : Program Shared Thread Choice := ⟨call, act⟩

def initial : Config Shared Thread := ⟨⟨.new, false⟩, []⟩

end Cancel

end Xdispatch
