import Xdispatch.Dispatch.Model

/-!
# Naive timers

A `timer_impl` counts its calls of `resume` and `suspend` in `m_running`. The
`resume` that takes the counter to one hands a worker to the pool, within its
section under `m_CS`. The worker sleeps, dispatches the handler and goes on as
long as it finds the counter positive.
-/

namespace Xdispatch.Timer

structure Members where
  running : Int
  interval : Int
  handler : Option Nat
  queue : Nat
  deriving DecidableEq

/-- `sleeping` is in `sleep_for` of the delay or of an interval, before the lock;
`queueing` and `waiting` are the body of the loop, without the lock, with the
copies that it has made of the members. -/
inductive Worker where
  | sleeping (time : Int)
  | queueing (invocation : Dispatch.Invocation) (interval : Int)
  | waiting (barrier : Nat) (interval : Int)
  | left
  deriving DecidableEq

inductive Method where
  | resume (delay : Int)
  | suspend
  | interval (interval : Int)
  | handler (op : Nat)
  | targetQueue (queue : Nat)
  deriving DecidableEq

abbrev Shared := Dispatch.Shared Members

abbrev Thread := Dispatch.Thread Worker

abbrev Choice := Dispatch.Choice Method Unit

def method (s : Members) : Method → Members × List Worker
  | .resume delay =>
    ({ s with running := s.running + 1 }, if s.running + 1 = 1 then [.sleeping delay] else [])
  | .suspend => ({ s with running := s.running - 1 }, [])
  | .interval i => ({ s with interval := i }, [])
  | .handler h => ({ s with handler := some h }, [])
  | .targetQueue q => ({ s with queue := q }, [])

def worker (s : Members) (d : Dispatch.State) : Worker → Option (Worker × Option Dispatch.Invocation)
  | .sleeping _ => some (if 0 < s.running then .queueing ⟨s.handler, s.queue⟩ s.interval else .left, none)
  | .queueing inv i => some (.waiting d.barriers.length i, some inv)
  | .waiting b i => if d.completed b then some (if 0 < i then .sleeping i else .left, none) else none
  | .left => none

def owner : Dispatch.Owner Members Worker Method Unit where
  method := method
  cancel s := { s with running := 0 }
  worker s d w _ := worker s d w

def timer : Program Shared Thread Choice := owner.program

def initial (queue : Nat) : Config Shared Thread := ⟨⟨⟨0, 0, none, queue⟩, .new⟩, []⟩

end Xdispatch.Timer
