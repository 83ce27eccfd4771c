import Xdispatch.Lib.Threads

/-!
# The concurrent queue

The buckets of the threadpool. Each thread that enqueues has a sub-queue of its
own, its implicit producer, into which nobody else puts anything, and all
producers are in one list. `try_dequeue` looks for the longest of the first few
sub-queues that are not empty, and if it gets nothing from there it tries all the
others. Each access to an atomic is one step; the indices do not wrap.
-/

namespace Xdispatch.ConcurrentQueue

/-- `ImplicitProducer`, the sub-queue of the thread `owner`. `elements` are those that have been
constructed in its slots, from the first on; what has been moved out stays in as history. -/
structure Producer (α : Type) where
  owner : Nat
  next : Option Nat
  tailIndex : Nat
  headIndex : Nat
  dequeueOptimisticCount : Nat
  dequeueOvercommit : Nat
  elements : List α

/-- The producers made so far are `producers 0, …, producers (size - 1)`; `busy` are the threads
that are in a call of `enqueue`. -/
structure Shared (α : Type) where
  producers : Nat → Producer α
  size : Nat
  producerListTail : Option Nat
  busy : List Nat

/-- Where `enqueue` is: `loadTail` to `exchange` are in `add_producer`, with `prevTail`, and the
element is constructed before the new tail is stored. -/
inductive EnqueuePhase where
  | find
  | loadTail (p : Nat)
  | link (p : Nat) (prevTail : Option Nat)
  | exchange (p : Nat) (prevTail : Option Nat)
  | construct (p : Nat)
  | publish (p : Nat)
  | returned
  deriving DecidableEq

/-- Where a call is in `ImplicitProducer::dequeue`. -/
inductive Attempt where
  | loadTail
  | loadOvercommit (tail : Nat)
  | loadOptimistic (tail overcommit : Nat)
  | increment (overcommit : Nat)
  | reloadTail (overcommit myDequeueCount : Nat)
  | claim
  | overcommit
  | move (index : Nat)
  deriving DecidableEq

/-- The variables of the first loop of `try_dequeue`. -/
structure Scores where
  nonEmptyCount : Nat
  best : Option Nat
  bestSize : Nat
  deriving DecidableEq

/-- Where `try_dequeue` is: in the first loop, within `size_approx` of `p`; in the attempt on the
best one; and in the second loop. What it returns comes with the producer and the index; it is an
element if there was one in the slot. -/
inductive DequeuePhase (α : Type) where
  | loadList
  | sizeTail (p : Nat) (scores : Scores)
  | sizeHead (p : Nat) (scores : Scores) (tail : Nat)
  | tryBest (p : Nat) (a : Attempt)
  | loadAgain (best : Nat)
  | visit (best : Nat) (ptr : Option Nat)
  | tryOther (best p : Nat) (a : Attempt)
  | returned (r : Option (Nat × Nat × Option α))

inductive Thread (α : Type) where
  | enqueue (id : Nat) (a : α) (ph : EnqueuePhase)
  | dequeue (ph : DequeuePhase α)

/-- `spurious`: a compare-exchange fails although the values agree. -/
inductive Choice (α : Type) where
  | enqueue (id : Nat) (a : α)
  | dequeue
  | step
  | spurious

variable {α : Type}

namespace Producer

def new (owner : Nat) : Producer α := ⟨owner, none, 0, 0, 0, 0, []⟩

def sizeApprox (head tail : Nat) : Nat := if head < tail then tail - head else 0

end Producer

namespace Shared

def modify (s : Shared α) (p : Nat) (f : Producer α → Producer α) : Shared α :=
  { s with producers := Function.update s.producers p (f (s.producers p)) }

/-- `get_or_add_implicit_producer`, if the thread has one -/
def find (s : Shared α) (id : Nat) : Option Nat := (List.range s.size).find? fun p => (s.producers p).owner = id

def create (s : Shared α) (id : Nat) : Shared α :=
  { s with producers := Function.update s.producers s.size (.new id), size := s.size + 1 }

end Shared

def EnqueuePhase.act (s : Shared α) (id : Nat) (a : α) : EnqueuePhase → Choice α → Option (Shared α × EnqueuePhase)
  | .find, .step => some (match s.find id with
    | some p => (s, .construct p)
    | none => (s.create id, .loadTail s.size))
  | .loadTail p, .step => some (s, .link p s.producerListTail)
  | .link p prev, .step => some (s.modify p fun x => { x with next := prev }, .exchange p prev)
  | .exchange p prev, .step =>
    some (if s.producerListTail = prev then ({ s with producerListTail := some p }, .construct p)
      else (s, .link p s.producerListTail))
  | .exchange p prev, .spurious => if s.producerListTail = prev then some (s, .link p prev) else none
  | .construct p, .step => some (s.modify p fun x => { x with elements := x.elements ++ [a] }, .publish p)
  | .publish p, .step =>
    some ({ s.modify p fun x => { x with tailIndex := x.tailIndex + 1 } with busy := s.busy.erase id }, .returned)
  | _, _ => none

/-- `none` as a result is a failed attempt. -/
def Attempt.act (s : Shared α) (p : Nat) : Attempt → Shared α × (Attempt ⊕ Option (Nat × Option α))
  | .loadTail => (s, .inl (.loadOvercommit (s.producers p).tailIndex))
  | .loadOvercommit tail => (s, .inl (.loadOptimistic tail (s.producers p).dequeueOvercommit))
  | .loadOptimistic tail overcommitted =>
    (s, if (s.producers p).dequeueOptimisticCount - overcommitted < tail then .inl (.increment overcommitted) else .inr none)
  | .increment overcommitted =>
    (s.modify p fun x => { x with dequeueOptimisticCount := x.dequeueOptimisticCount + 1 },
      .inl (.reloadTail overcommitted (s.producers p).dequeueOptimisticCount))
  | .reloadTail overcommitted count =>
    (s, .inl (if count - overcommitted < (s.producers p).tailIndex then .claim else .overcommit))
  | .claim => (s.modify p fun x => { x with headIndex := x.headIndex + 1 }, .inl (.move (s.producers p).headIndex))
  | .overcommit => (s.modify p fun x => { x with dequeueOvercommit := x.dequeueOvercommit + 1 }, .inr none)
  | .move i => (s, .inr (some (i, (s.producers p).elements[i]?)))

namespace Scores

def add (sc : Scores) (p size : Nat) : Scores :=
  if 0 < size then
    { nonEmptyCount := sc.nonEmptyCount + 1
      best := if sc.bestSize < size then some p else sc.best
      bestSize := if sc.bestSize < size then size else sc.bestSize }
  else sc

/-- What comes after the first loop. -/
def chosen (sc : Scores) : DequeuePhase α :=
  match sc.best with
  | some p => if 0 < sc.nonEmptyCount then .tryBest p .loadTail else .returned none
  | none => .returned none

/-- The test of the first loop. -/
def loop (sc : Scores) : Option Nat → DequeuePhase α
  | some p => if sc.nonEmptyCount < 3 then .sizeTail p sc else sc.chosen
  | none => sc.chosen

end Scores

def DequeuePhase.act (s : Shared α) : DequeuePhase α → Choice α → Option (Shared α × DequeuePhase α)
  | .loadList, .step => some (s, Scores.loop ⟨0, none, 0⟩ s.producerListTail)
  | .sizeTail p sc, .step => some (s, .sizeHead p sc (s.producers p).tailIndex)
  | .sizeHead p sc tail, .step =>
    some (s, (sc.add p (Producer.sizeApprox (s.producers p).headIndex tail)).loop (s.producers p).next)
  | .tryBest p a, .step => some (match a.act s p with
    | (s', .inl a') => (s', .tryBest p a')
    | (s', .inr none) => (s', .loadAgain p)
    | (s', .inr (some r)) => (s', .returned (some (p, r))))
  | .loadAgain best, .step => some (s, .visit best s.producerListTail)
  | .visit _ none, .step => some (s, .returned none)
  | .visit best (some p), .step => some (s, if p = best then .visit best (s.producers p).next else .tryOther best p .loadTail)
  | .tryOther best p a, .step => some (match a.act s p with
    | (s', .inl a') => (s', .tryOther best p a')
    | (s', .inr none) => (s', .visit best (s.producers p).next)
    | (s', .inr (some r)) => (s', .returned (some (p, r))))
  | _, _ => none

def act (s : Shared α) : Thread α → Choice α → Option (Shared α × Thread α × List (Thread α))
  | .enqueue id a ph, e => (ph.act s id a e).map fun r => (r.1, .enqueue id a r.2, [])
  | .dequeue ph, e => (ph.act s e).map fun r => (r.1, .dequeue r.2, [])

/-- A thread is in one call at a time. -/
def call (s : Shared α) : Choice α → Option (Shared α × List (Thread α))
  | .enqueue id a => if id ∈ s.busy then none else some ({ s with busy := id :: s.busy }, [.enqueue id a .find])
  | .dequeue => some (s, [.dequeue .loadList])
  | _ => none

def concurrentQueue (α : Type) : Program (Shared α) (Thread α) (Choice α) := ⟨call, act⟩

def initial : Config (Shared α) (Thread α) := ⟨⟨fun _ => .new 0, 0, none, []⟩, []⟩

end Xdispatch.ConcurrentQueue
