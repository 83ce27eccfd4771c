import Xdispatch.Lib.Executor

/-!
# `apply`

`apply` of the naive queues makes a consumable for `times` resources, posts an
`apply_operation` for each index and waits until they are consumed; that of a
waitable queue posts the same operations without a consumable and waits for all
operations of the queue. The queue is any executor. Its operations get numbers
when they are posted; the statements of the operation that a thread of the queue
runs are steps of their own.
-/

namespace Xdispatch.Apply

/-- `consumable`, with the state of its barrier. -/
structure Consumable where
  resources : Nat
  completed : Bool
  deriving DecidableEq

/-- What the operation that a thread runs comes to next; `consume` and `complete` are
`consume_resource` up to its barrier. -/
inductive Body where
  | idle
  | execute
  | consume
  | complete
  | return
  deriving DecidableEq

/-- `ops` says of each number which index of which `apply` it is, if any. `executed` is
history: the numbers of the operations in the order of their execution. -/
structure Shared (σ τ : Type) where
  queue : Config σ (τ × Body)
  ops : List (Option (Nat × Nat))
  consumables : List Consumable
  executed : List Nat

/-- `async` is within the call for index `i`, which is thread `caller` of the queue, and
`waitAll` within `wait_for_all`. `check` and `barrier` are `wait_for_consumed`. -/
inductive Phase where
  | loop (i : Nat)
  | async (i caller : Nat)
  | check
  | barrier
  | waitAll (caller : Nat)
  | returned
  deriving DecidableEq

/-- A call of `apply`, the one with number `id`. -/
structure Thread where
  id : Nat
  times : Nat
  phase : Phase
  deriving DecidableEq

/-- `body` is a step of the operation that a thread of the queue runs. -/
inductive Choice (ε : Type) where
  | apply (times : Nat)
  | async
  | inner (l : Label ε)
  | body (i : Nat)
  | step
  deriving DecidableEq

section
variable {σ τ ε : Type} (E : Executor σ τ ε)

/-- Threads that run no operation. -/
def idles (l : List τ) : List (τ × Body) := l.map fun t => (t, .idle)

/-- The threads of the queue with the operations that they run. -/
def lifted : Program σ (τ × Body) ε where
  call s e := (E.program.call s e).map fun r => (r.1, idles r.2)
  act s t e := if (E.running t.1).isSome then none else (E.program.act s t.1 e).map fun r =>
    (r.1, (r.2.1, if (E.running r.2.1).isSome then .execute else .idle), idles r.2.2)

namespace Shared

variable {E} (s : Shared σ τ)

def apply (x : Nat) : Option (Nat × Nat) := s.ops[x]?.join

def start (op : Option (Nat × Nat)) : Option (Shared σ τ) :=
  ((lifted E).next s.queue (.call (E.async s.ops.length))).map fun q => { s with queue := q, ops := s.ops ++ [op] }

def resources (a : Nat) : Nat := (s.consumables[a]?.map (·.resources)).getD 0

def completed (a : Nat) : Bool := (s.consumables[a]?.map (·.completed)).getD false

def returned (caller : Nat) : Bool := (s.queue.threads[caller]?.map fun t => E.returned t.1).getD false

def setBody (i : Nat) (t : τ) (b : Body) : Shared σ τ :=
  { s with queue := { s.queue with threads := s.queue.threads.set i (t, b) } }

/-- `apply_operation::operator()` of the operation with number `x`, and the return from it. -/
def body (i : Nat) (t : τ) (x : Nat) : Body → Option (Shared σ τ)
  | .idle => none
  | .execute =>
    some ({ s with executed := s.executed ++ [x] }.setBody i t
      (if (s.apply x).isSome && E.wait.isNone then .consume else .return))
  | .consume => (s.apply x).map fun p =>
      { s with consumables := s.consumables.modify p.1 fun k => { k with resources := k.resources - 1 } }.setBody i t
        (if s.resources p.1 = 1 then .complete else .return)
  | .complete => (s.apply x).map fun p =>
      { s with consumables := s.consumables.modify p.1 fun k => { k with completed := true } }.setBody i t .return
  | .return => (E.program.act s.queue.shared t E.step).map fun r =>
      { s with queue := ⟨r.1, s.queue.threads.set i (r.2.1, .idle) ++ idles r.2.2⟩ }

end Shared

def act (s : Shared σ τ) (t : Thread) : Choice ε → Option (Shared σ τ × Thread × List Thread)
  | .step =>
    match t.phase with
    | .loop i =>
      if i < t.times then
        (s.start (E := E) (some (t.id, i))).map fun s' => (s', { t with phase := .async i s.queue.threads.length }, [])
      else match E.wait with
        | none => some (s, { t with phase := .check }, [])
        | some e => ((lifted E).next s.queue (.call e)).map fun q =>
            ({ s with queue := q }, { t with phase := .waitAll s.queue.threads.length }, [])
    | .async i caller => if s.returned (E := E) caller then some (s, { t with phase := .loop (i + 1) }, []) else none
    | .check => some (s, { t with phase := if s.resources t.id = 0 then .returned else .barrier }, [])
    | .barrier => if s.completed t.id then some (s, { t with phase := .returned }, []) else none
    | .waitAll caller => if s.returned (E := E) caller then some (s, { t with phase := .returned }, []) else none
    | .returned => none
  | _ => none

/-- Others may use the queue as well, except for waiting in `E.wait`'s place. -/
def call (s : Shared σ τ) : Choice ε → Option (Shared σ τ × List Thread)
  | .apply times =>
    some ({ s with consumables := s.consumables ++ [⟨times, false⟩] }, [⟨s.consumables.length, times, .loop 0⟩])
  | .async => (s.start (E := E) none).map fun s' => (s', [])
  | .inner (.call e) =>
    if E.others e then ((lifted E).next s.queue (.call e)).map fun q => ({ s with queue := q }, []) else none
  | .inner (.act i e) => ((lifted E).next s.queue (.act i e)).map fun q => ({ s with queue := q }, [])
  | .body i => s.queue.threads[i]?.bind fun t => (E.running t.1).bind fun x =>
      (s.body (E := E) i t.1 x t.2).map fun s' => (s', [])
  | .step => none

def applying : Program (Shared σ τ) Thread (Choice ε) := ⟨call E, act E⟩

def initial : Config (Shared σ τ) Thread :=
  ⟨⟨⟨E.initial.shared, idles E.initial.threads⟩, [], [], []⟩, []⟩

end

end Xdispatch.Apply
