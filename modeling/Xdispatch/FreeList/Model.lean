import Xdispatch.Lib.Threads

/-!
# The free list

The concurrent queue keeps the blocks that it does not use on a stack without a
lock. Each node counts the references to it, one from the list and one from each
call of `try_get` that is looking at it, and has a bit that says it should be put on
the list by whoever takes the last reference away. A counter and its bit are a 32 bit
word, which is a number here: nothing is taken away that is not there, and with a
bound on the calls in progress no counter comes to the end of its word.
-/

namespace Xdispatch.FreeList

/-- `SHOULD_BE_ON_FREELIST`; `REFS_MASK` are the bits below it. -/
def shouldBeOnFreelist : Nat := 0x80000000

/-- The nodes are numbers. `owned` are those that a caller has: every one at first, then those
that `try_get` has returned and `add` has not been passed since. -/
structure Shared where
  freeListHead : Option Nat
  freeListRefs : Nat → Nat
  freeListNext : Nat → Option Nat
  owned : Nat → Bool
  asserted : Bool

/-- Where a call is in `add_knowing_refcount_is_zero`. -/
inductive Adding where
  | loadHead
  | storeNext (head : Option Nat)
  | storeRefs (head : Option Nat)
  | exchange (head : Option Nat)
  | giveBack (head : Option Nat)
  deriving DecidableEq

/-- `rest` is the head that `try_get` goes on with when `add_knowing_refcount_is_zero` returns; there
is none in a call of `add`. -/
inductive Thread where
  | add (node : Nat)
  | adding (node : Nat) (a : Adding) (rest : Option (Option Nat))
  | added
  | loadHead
  | loadRefs (head : Nat)
  | acquire (head refs : Nat)
  | loadNext (head : Nat)
  | exchange (head : Nat) (next : Option Nat)
  | assertRefs (head : Nat)
  | release (head : Nat)
  | putBack (prevHead : Nat) (head : Option Nat)
  | got (node : Option Nat)
  deriving DecidableEq

inductive Choice where
  | add (node : Nat)
  | tryGet
  | step
  deriving DecidableEq

def Shared.setRefs (s : Shared) (node refs : Nat) : Shared :=
  { s with freeListRefs := Function.update s.freeListRefs node refs }

/-- The test of the loop of `try_get`. -/
def loop : Option Nat → Thread
  | some head => .loadRefs head
  | none => .got none

/-- `add_knowing_refcount_is_zero` returns. -/
def resume : Option (Option Nat) → Thread
  | some head => loop head
  | none => .added

def Adding.act (s : Shared) (node : Nat) (rest : Option (Option Nat)) : Adding → Shared × Thread
  | .loadHead => (s, .adding node (.storeNext s.freeListHead) rest)
  | .storeNext head =>
    ({ s with freeListNext := Function.update s.freeListNext node head }, .adding node (.storeRefs head) rest)
  | .storeRefs head => (s.setRefs node 1, .adding node (.exchange head) rest)
  | .exchange head =>
    if s.freeListHead = head then ({ s with freeListHead := some node }, resume rest)
    else (s, .adding node (.giveBack s.freeListHead) rest)
  | .giveBack head =>
    (s.setRefs node (s.freeListRefs node + (shouldBeOnFreelist - 1)),
      if s.freeListRefs node = 1 then .adding node (.storeNext head) rest else resume rest)

def act (s : Shared) : Thread → Choice → Option (Shared × Thread × List Thread)
  | .add node, .step =>
    some (s.setRefs node (s.freeListRefs node + shouldBeOnFreelist),
      if s.freeListRefs node = 0 then .adding node .loadHead none else .added, [])
  | .adding node a rest, .step => some ((a.act s node rest).1, (a.act s node rest).2, [])
  | .loadHead, .step => some (s, loop s.freeListHead, [])
  | .loadRefs head, .step =>
    some (s, if s.freeListRefs head % shouldBeOnFreelist = 0 then .loadHead else .acquire head (s.freeListRefs head), [])
  | .acquire head refs, .step =>
    some (if s.freeListRefs head = refs then (s.setRefs head (refs + 1), .loadNext head, []) else (s, .loadHead, []))
  | .loadNext head, .step => some (s, .exchange head (s.freeListNext head), [])
  | .exchange head next, .step =>
    some (if s.freeListHead = some head then ({ s with freeListHead := next }, .assertRefs head, [])
      else (s, .putBack head s.freeListHead, []))
  | .assertRefs head, .step =>
    some ({ s with asserted := s.asserted || s.freeListRefs head / shouldBeOnFreelist % 2 ≠ 0 }, .release head, [])
  | .release head, .step =>
    some ({ s.setRefs head (s.freeListRefs head - 2) with owned := Function.update s.owned head true }, .got (some head), [])
  | .putBack prevHead head, .step =>
    some (s.setRefs prevHead (s.freeListRefs prevHead - 1),
      if s.freeListRefs prevHead = shouldBeOnFreelist + 1 then .adding prevHead .loadHead (some head) else loop head, [])
  | _, _ => none

/-- A caller adds what it has. -/
def call (s : Shared) : Choice → Option (Shared × List Thread)
  | .add node =>
    if s.owned node then some ({ s with owned := Function.update s.owned node false }, [.add node]) else none
  | .tryGet => some (s, [.loadHead])
  | .step => none

def freeList : Program Shared Thread Choice := ⟨call, act⟩

def initial : Config Shared Thread := ⟨⟨none, fun _ => 0, fun _ => none, fun _ => true, false⟩, []⟩

end Xdispatch.FreeList
