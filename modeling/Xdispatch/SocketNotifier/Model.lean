import Xdispatch.Dispatch.Model

/-!
# Naive socket notifiers

A `socket_notifier_impl` hands a worker to the pool when `resume` takes
`m_resume_counter` to one, with a copy of `m_worker_cookie`. Suspending and
cancelling change the cookie, so that a worker can tell that it is meant. It
compares its copy wherever it takes the lock again: at its start, after `select`
and after the handler. The cookie is an unbounded integer here.
-/

namespace Xdispatch.SocketNotifier

structure Members where
  handler : Option Nat
  queue : Nat
  counter : Int
  cookie : Int
  deriving DecidableEq

/-- `selecting` is in `select`, and `selected` has its result, both without the lock. -/
inductive WorkerPhase where
  | starting
  | selecting
  | selected (res : Int)
  | queueing (invocation : Dispatch.Invocation)
  | waiting (barrier : Nat)
  | left
  | invalid
  deriving DecidableEq

/-- `late` is history: the handler invocations it has queued with a cookie that was stale then. -/
structure Worker where
  cookie : Int
  late : Nat
  phase : WorkerPhase
  deriving DecidableEq

inductive Method where
  | resume
  | suspend
  | handler (op : Nat)
  | targetQueue (queue : Nat)
  deriving DecidableEq

/-- What a step of a worker leaves open is the result of `select`. -/
inductive Outcome where
  | step
  | selected (res : Int)
  deriving DecidableEq

abbrev Shared := Dispatch.Shared Members

abbrev Thread := Dispatch.Thread Worker

abbrev Choice := Dispatch.Choice Method Outcome

def ebadf : Int := 9

def resume (s : Members) : Members × List Worker :=
  if s.counter < 0 then (s, [])
  else ({ s with counter := s.counter + 1 }, if s.counter + 1 ≠ 1 then [] else [⟨s.cookie, 0, .starting⟩])

def suspend (s : Members) : Members :=
  if 0 < s.counter then
    { s with counter := s.counter - 1, cookie := if s.counter - 1 = 0 then s.cookie + 1 else s.cookie }
  else s

def method (s : Members) : Method → Members × List Worker
  | .resume => resume s
  | .suspend => (suspend s, [])
  | .handler h => ({ s with handler := some h }, [])
  | .targetQueue q => ({ s with queue := q }, [])

def cancel (s : Members) : Members := { s with counter := -1, cookie := s.cookie + 1 }

/-- The condition of the loop, under the lock. -/
def Worker.loop (s : Members) (w : Worker) : Worker :=
  { w with phase := if w.cookie = s.cookie then .selecting else .left }

def worker (s : Members) (d : Dispatch.State) (w : Worker) : Outcome → Option (Worker × Option Dispatch.Invocation)
  | .selected res => if w.phase = .selecting then some ({ w with phase := .selected res }, none) else none
  | .step =>
    match w.phase with
    | .starting => some (w.loop s, none)
    | .selected res =>
      if w.cookie ≠ s.cookie then some ({ w with phase := .left }, none)
      else if ebadf = res then some ({ w with phase := .invalid }, none)
      else if 0 < res then some ({ w with phase := .queueing ⟨s.handler, s.queue⟩ }, none)
      -- a time-out or an error of `select`
      else some (w.loop s, none)
    | .queueing inv =>
      some ({ w with phase := .waiting d.barriers.length, late := w.late + if w.cookie = s.cookie then 0 else 1 },
        some inv)
    | .waiting b => if d.completed b then some (w.loop s, none) else none
    | .selecting | .left | .invalid => none

def owner : Dispatch.Owner Members Worker Method Outcome := ⟨method, cancel, worker⟩

def socketNotifier : Program Shared Thread Choice := owner.program

def initial (queue : Nat) : Config Shared Thread := ⟨⟨⟨none, queue, 0, 0⟩, .new⟩, []⟩

end Xdispatch.SocketNotifier
