import Xdispatch.Apply.Model
import Xdispatch.Threadpool.Model

/-!
# `apply` within operations of a pool

Parallel queues of the naive backend on one pool, with operations that themselves
call `apply` on such a queue, to any depth. The worker that runs such an operation
waits for the consumable with a `block_scope`, which tells the pool that it may
start another worker; a thread that is none of the pool's waits without. A call of the
pool is a thread of the pool, and the statement that makes it ends when it has
returned. The barrier of a consumable is its flag `completed`, a one-shot event
that is not lost.
-/

namespace Xdispatch.NestedApply

open Threadpool (Priority threadpool)
open Apply (Consumable)

/-- Where an operation is. `loop k i times` is in `apply`, which has made the consumable `k` and comes
to index `i`; `async`, `block` and `unblock` are within the call `caller` of the pool, `check` and
`barrier` in `wait_for_consumed`, `consume` and `complete` in `consume_resource`. -/
inductive Phase where
  | body
  | loop (k i times : Nat)
  | async (k i times caller : Nat)
  | check (k : Nat)
  | block (k caller : Nat)
  | barrier (k : Nat)
  | unblock (caller : Nat)
  | consume
  | complete
  | finished
  deriving DecidableEq

/-- An operation of the pool, or what another thread does that calls `apply`. `parent` is the consumable
of an `apply_operation`. -/
structure Op where
  inPool : Bool
  parent : Option Nat
  phase : Phase
  deriving DecidableEq

structure System where
  pool : Config Threadpool.Shared Threadpool.Thread
  ops : List Op
  consumables : List Consumable

/-- What an operation comes to: `async` posts the next index with the priority of the queue. -/
inductive Statement where
  | apply (times : Nat)
  | finish
  | async (priority : Priority)
  | step
  deriving DecidableEq

/-- `execute` passes an operation to the pool, and `apply` is called by a thread that is not the pool's. -/
inductive Choice where
  | pool (l : Label Threadpool.Choice)
  | execute (priority : Priority)
  | apply (times : Nat)
  | op (n : Nat) (e : Statement)

namespace System

def executing (s : System) (n : Nat) : Bool := .worker (.executing n) ∈ s.pool.threads

def returned (s : System) (caller : Nat) : Bool := s.pool.threads[caller]? = some .returned

def resources (s : System) (k : Nat) : Nat := (s.consumables[k]?.map (·.resources)).getD 0

def completed (s : System) (k : Nat) : Bool := (s.consumables[k]?.map (·.completed)).getD false

/-- Thread `k` of the pool is not a worker in an operation that has still to finish. -/
def goesOn (s : System) (k : Nat) : Bool :=
  match s.pool.threads[k]? with
  | some (.worker (.executing n)) => (s.ops[n]?.map (·.phase)) = some .finished
  | _ => true

def setPhase (s : System) (n : Nat) (op : Op) (phase : Phase) : System :=
  { s with ops := s.ops.set n { op with phase := phase } }

/-- A call of the pool, which `next` comes after with its number. -/
def callPool (s : System) (e : Threadpool.Choice) (next : Nat → System) : Option System :=
  (threadpool.next s.pool (.call e)).map fun pool => { next s.pool.threads.length with pool := pool }

/-- The pool is passed the next operation. -/
def submit (s : System) (parent : Option Nat) (priority : Priority) (next : Nat → System) : Option System :=
  s.callPool (.execute (some s.ops.length) priority) fun caller =>
    { next caller with ops := (next caller).ops ++ [⟨true, parent, .body⟩] }

def stepPool (s : System) : Label Threadpool.Choice → Option System
  | .call _ => none
  | .act k e =>
    if s.goesOn k then (threadpool.next s.pool (.act k e)).map fun pool => { s with pool := pool } else none

def modify (s : System) (k : Nat) (f : Consumable → Consumable) : System :=
  { s with consumables := s.consumables.modify k f }

def stepOp (s : System) (n : Nat) (op : Op) : Phase → Statement → Option System
  | .body, .apply times =>
    some { s.setPhase n op (.loop s.consumables.length 0 times) with consumables := s.consumables ++ [⟨times, false⟩] }
  | .body, .finish => some (s.setPhase n op (if op.parent.isSome then .consume else .finished))
  | .loop k i times, .async priority =>
    if i < times then s.submit (some k) priority fun caller => s.setPhase n op (.async k i times caller) else none
  | .loop k i times, .step => if i < times then none else some (s.setPhase n op (.check k))
  | .async k i times caller, .step =>
    if s.returned caller then some (s.setPhase n op (.loop k (i + 1) times)) else none
  | .check k, .step =>
    if s.resources k = 0 then some (s.setPhase n op .body)
    else if op.inPool then s.callPool .blocked fun caller => s.setPhase n op (.block k caller)
    else some (s.setPhase n op (.barrier k))
  | .block k caller, .step => if s.returned caller then some (s.setPhase n op (.barrier k)) else none
  | .barrier k, .step =>
    if !s.completed k then none
    else if op.inPool then s.callPool .unblocked fun caller => s.setPhase n op (.unblock caller)
    else some (s.setPhase n op .body)
  | .unblock caller, .step => if s.returned caller then some (s.setPhase n op .body) else none
  | .consume, .step => op.parent.map fun k =>
      (s.setPhase n op (if s.resources k = 1 then .complete else .finished)).modify k
        fun c => { c with resources := c.resources - 1 }
  | .complete, .step => op.parent.map fun k =>
      (s.setPhase n op .finished).modify k fun c => { c with completed := true }
  | _, _ => none

def step (s : System) : Choice → Option System
  | .pool l => s.stepPool l
  | .execute priority => s.submit none priority fun _ => s
  | .apply times =>
    some { s with
      ops := s.ops ++ [⟨false, none, .loop s.consumables.length 0 times⟩]
      consumables := s.consumables ++ [⟨times, false⟩] }
  | .op n e => s.ops[n]?.bind fun op => if op.inPool && !s.executing n then none else s.stepOp n op op.phase e

end System

/-- The threads are those of the pool and the callers of `apply`; there are no others. -/
def system : Program System Unit Choice where
  call s e := (s.step e).map (·, [])
  act _ _ _ := none

def initial (maxThreads : Int) : Config System Unit := ⟨⟨Threadpool.initial maxThreads, [], []⟩, []⟩

end Xdispatch.NestedApply
