import Xdispatch.OperationQueue.Model

/-!
# The end of an operation queue

A `serial_queue_impl` is shared by those who use it and by the jobs that have
captured it. Its destructor detaches the `operation_queue` and gives up its part
of it; the other part is with the thread of the `operation_queue_manager`. Who
gives up the last one runs `~operation_queue`.
-/

namespace Xdispatch.Lifetime

/-- `job` stands for a job, and within the job for the drain that runs it. -/
inductive Role where
  | manager
  | user
  | job (x : Nat)
  deriving DecidableEq

/-- `async` and `detach` are within the call that is thread `caller` of the queue;
`release` is before `m_queue` is released, and `destroy` within `~operation_queue`. -/
inductive Doing where
  | queued
  | idle
  | async (caller : Nat)
  | detach (caller : Nat)
  | release
  | destroy
  | done
  deriving DecidableEq

/-- A thread or a job that holds so many references to the `serial_queue_impl`. -/
structure Owner where
  role : Role
  references : Nat
  doing : Doing
  deriving DecidableEq

/-- `references` counts those to the `serial_queue_impl`, and `owners` those to the
`operation_queue`. The manager has `handled` so many of the requests that were posted
to it; `registered` counts the queue in its `m_queues`. -/
structure Shared where
  queue : Config OperationQueue.Shared OperationQueue.Thread
  references : Nat
  owners : Nat
  handled : Nat
  registered : Nat
  jobs : Nat
  destroyed : Bool
  deriving DecidableEq

/-- `async` queues a job that captures so many references, or no job; `finish` is the
return from a job, and `inner` a step of a thread of the queue. -/
inductive Choice where
  | async (captures : Option Nat)
  | copy
  | share
  | drop
  | step
  | finish (i : Nat)
  | inner (i : Nat)
  deriving DecidableEq

open OperationQueue (operationQueue)

namespace Shared

def returned (s : Shared) (caller : Nat) : Bool := s.queue.threads[caller]? == some .returned

def runs (s : Shared) (x : Nat) : Bool := s.queue.threads.any fun t =>
  match t with
  | .drainRunning (.operation y) _ => x == y
  | _ => false

end Shared

/-- `~serial_queue_impl` comes with the last reference. -/
def drop (s : Shared) (o : Owner) : Option (Shared × Owner × List Owner) :=
  let s' := { s with references := s.references - 1 }
  let o' := { o with references := o.references - 1 }
  if s.references = 1 then
    (operationQueue.next s.queue (.call .detach)).map fun q =>
      ({ s' with queue := q }, { o' with doing := .detach s.queue.threads.length }, [])
  else some (s', o', [])

/-- The next operation of the manager's thread. Registering takes over the reference
that the request holds. -/
def handle (s : Shared) (o : Owner) : Option (Shared × Owner × List Owner) :=
  s.queue.shared.manager[s.handled]?.map fun r =>
    let s' := { s with handled := s.handled + 1 }
    match r with
    | .attach => ({ s' with registered := s.registered + 1 }, o, [])
    | .detach =>
      ({ s' with registered := 0, owners := s.owners - s.registered },
        { o with doing := if s.registered ≠ 0 ∧ s.owners = s.registered then .destroy else .idle }, [])

/-- One pass of the loop of `~operation_queue`, which ends with the queue unless a drain is active. -/
def destroy (s : Shared) (o : Owner) : Option (Shared × Owner × List Owner) :=
  if s.queue.shared.locked then none
  else
    let q := { s.queue with shared := { s.queue.shared with notifyOperation := false } }
    some ({ s with queue := q, destroyed := !s.queue.shared.activeDrain },
      { o with doing := if s.queue.shared.activeDrain then .destroy else .idle }, [])

def Owner.step (s : Shared) (o : Owner) : Option (Shared × Owner × List Owner) :=
  match o.doing with
  | .queued =>
    match o.role with
    | .job x => if s.runs x then some (s, { o with doing := .idle }, []) else none
    | _ => none
  | .idle => if o.role = .manager then handle s o else none
  | .async caller => if s.returned caller then some (s, { o with doing := .idle }, []) else none
  | .detach caller => if s.returned caller then some (s, { o with doing := .release }, []) else none
  | .release =>
    some ({ s with owners := s.owners - 1 }, { o with doing := if s.owners = 1 then .destroy else .idle }, [])
  | .destroy => destroy s o
  | .done => none

/-- A job that has returned drops what it has captured, before the drain goes on. -/
def finish (s : Shared) (o : Owner) (i : Nat) : Option (Shared × Owner × List Owner) :=
  match o.role, s.queue.threads[i]? with
  | .job x, some (.drainRunning (.operation y) _) =>
    if x = y ∧ o.doing = .idle ∧ o.references = 0 then
      (operationQueue.next s.queue (.act i .step)).map fun q => ({ s with queue := q }, { o with doing := .done }, [])
    else none
  | _, _ => none

def async (s : Shared) (o : Owner) (captures : Option Nat) : Option (Shared × Owner × List Owner) :=
  (operationQueue.next s.queue (.call (.async (captures.map fun _ => s.jobs)))).map fun q =>
    ({ s with queue := q, references := s.references + captures.getD 0, jobs := s.jobs + captures.toList.length },
      { o with doing := .async s.queue.threads.length }, captures.toList.map fun k => ⟨.job s.jobs, k, .queued⟩)

/-- What it takes a reference to do. -/
def Owner.uses (o : Owner) (r : Option (Shared × Owner × List Owner)) : Option (Shared × Owner × List Owner) :=
  if o.doing = .idle ∧ 0 < o.references then r else none

def act (s : Shared) (o : Owner) : Choice → Option (Shared × Owner × List Owner)
  | .async captures => o.uses (async s o captures)
  | .copy => o.uses (some ({ s with references := s.references + 1 }, { o with references := o.references + 1 }, []))
  | .share => o.uses (some ({ s with references := s.references + 1 }, o, [⟨.user, 1, .idle⟩]))
  | .drop => o.uses (drop s o)
  | .step => o.step s
  | .finish i => finish s o i
  | .inner _ => none

/-- The drain that runs a job goes on when the job is finished. -/
def call (s : Shared) : Choice → Option (Shared × List Owner)
  | .inner i =>
    match s.queue.threads[i]? with
    | some (.drainRunning (.operation _) _) => none
    | _ => (operationQueue.next s.queue (.act i .step)).map fun q => ({ s with queue := q }, [])
  | _ => none

def lifetime : Program Shared Owner Choice := ⟨call, act⟩

/-- The constructor has run `attach`. -/
def constructed : Config OperationQueue.Shared OperationQueue.Thread :=
  operationQueue.last OperationQueue.initial (.call .attach :: List.replicate 4 (.act 0 .step))

/-- The request to attach owns the `operation_queue` as well. -/
def initial : Config Shared Owner :=
  ⟨⟨constructed, 1, 2, 0, 0, 0, false⟩, [⟨.manager, 0, .idle⟩, ⟨.user, 1, .idle⟩]⟩

end Xdispatch.Lifetime
