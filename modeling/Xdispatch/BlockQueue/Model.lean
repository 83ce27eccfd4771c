import Xdispatch.ConcurrentQueue.Model

/-!
# The blocks of the concurrent queue

A producer keeps its elements in blocks, which it finds through its block index: a
circular table of entries, each with the first index of a block and the block. A
table that is full is replaced by one of twice the size, and a call of `dequeue` may
still be reading the one it has loaded. The call that takes the last element
of a block gives the block back, for any producer to use. Each access to an atomic
is one step, and so is the work on a new table before it is published. The list of
the free blocks is taken as atomic (`requisition`, `free`): what its own accesses do
is in `FreeList`, where no block has two owners.
-/

namespace Xdispatch.BlockQueue

open ConcurrentQueue (Producer EnqueuePhase DequeuePhase Attempt)

/-- `BLOCK_SIZE` and `IMPLICIT_INITIAL_INDEX_SIZE` are powers of two, and more than one. -/
structure Traits where
  blockBits : Nat
  indexBits : Nat
  block_pos : 0 < blockBits
  index_pos : 0 < indexBits
  fits : blockBits + indexBits ≤ 64

namespace Traits

def blockSize (T : Traits) : Nat := 2 ^ T.blockBits

def indexSize (T : Traits) : Nat := 2 ^ T.indexBits

/-- `ConcurrentQueueDefaultTraits` -/
def default : Traits := ⟨5, 5, by decide, by decide, by decide⟩

end Traits

/-- The values of `index_t` -/
def word : Nat := 2 ^ 64

def invalidBlockBase : Nat := 1

/-- `BlockIndexEntry` -/
structure Entry where
  key : Nat
  value : Option Nat

/-- `BlockIndexHeader` -/
structure Header where
  capacity : Nat
  tail : Nat
  index : Nat → Nat

/-- The block index of a producer. Those of its headers are numbered in the order in which they were
made, and so are their entries, of which there are `made`. -/
structure Index where
  entries : Nat → Entry
  made : Nat
  headers : Nat → Header
  blockIndex : Nat
  nextBlockIndexCapacity : Nat
  tailBlock : Option Nat

/-- `slots b r` is what has been constructed in place `r` of block `b` and not destroyed. -/
structure Shared (α : Type) where
  queue : ConcurrentQueue.Shared α
  indices : Nat → Index
  slots : Nat → Nat → Option α
  elementsCompletelyDequeued : Nat → Nat
  blocks : Nat
  freeList : List Nat

/-- Where a call is while the queue has it at `construct` or `move`. From `test` on it puts a new block into
the index, from `loadTail` on it looks for the block of its index, and after `move` it has
the element. -/
inductive Storage where
  | idle
  | test
  | grow
  | storeKey (entry newTail : Nat)
  | storeTail (entry newTail : Nat)
  | requisition (entry : Nat)
  | reset (entry block : Nat)
  | storeValue (entry block : Nat)
  | construct
  | loadTail (header : Nat)
  | loadKey (header tail : Nat)
  | loadValue (header idx : Nat)
  | move (entry block : Nat)
  | setEmpty (entry block : Nat)
  | clear (entry block : Nat)
  | free (block : Nat)
  deriving DecidableEq

structure Thread (α : Type) where
  call : ConcurrentQueue.Thread α
  storage : Storage

/-- `requisition b`: `requisition_block` gets block `b` from the free list, or a new one. -/
inductive Choice (α : Type) where
  | queue (e : ConcurrentQueue.Choice α)
  | requisition (b : Option Nat)

namespace Index

def new (T : Traits) : Index :=
  ⟨fun _ => ⟨invalidBlockBase, none⟩, T.indexSize, fun _ => ⟨T.indexSize, T.indexSize - 1, fun i => i⟩, 0, 2 * T.indexSize,
    none⟩

def header (x : Index) : Header := x.headers x.blockIndex

def newTail (x : Index) : Nat := (x.header.tail + 1) % x.header.capacity

/-- `new_block_index` -/
def newBlockIndex (x : Index) : Index :=
  let prev := x.header
  { x with
    made := x.made + prev.capacity
    headers := Function.update x.headers (x.blockIndex + 1)
      ⟨x.nextBlockIndexCapacity, (prev.capacity - 1) % x.nextBlockIndexCapacity, fun i =>
        if i < prev.capacity then prev.index ((prev.tail + 1 + i) % prev.capacity) else x.made + (i - prev.capacity)⟩
    blockIndex := x.blockIndex + 1
    nextBlockIndexCapacity := 2 * x.nextBlockIndexCapacity }

def setKey (x : Index) (entry key : Nat) : Index :=
  { x with entries := Function.update x.entries entry { x.entries entry with key := key } }

def setValue (x : Index) (entry : Nat) (value : Option Nat) : Index :=
  { x with entries := Function.update x.entries entry { x.entries entry with value := value } }

def setTail (x : Index) (tail : Nat) : Index :=
  { x with headers := Function.update x.headers x.blockIndex { x.header with tail := tail } }

/-- `get_block_index_index_for_index`, with the header and the tail that it has loaded. The index is that
of the first element of its block, and the difference is one of unsigned words. -/
def find (T : Traits) (x : Index) (header tail i : Nat) : Nat :=
  let index := T.blockSize * (i / T.blockSize)
  let tailBase := (x.entries ((x.headers header).index tail)).key
  (tail + (index + (word - tailBase % word)) % word / T.blockSize) % (x.headers header).capacity

end Index

variable {α : Type}

namespace Shared

def setIndex (s : Shared α) (p : Nat) (x : Index) : Shared α := { s with indices := Function.update s.indices p x }

def setSlot (s : Shared α) (b r : Nat) (el : Option α) : Shared α :=
  { s with slots := Function.update s.slots b (Function.update (s.slots b) r el) }

def setDequeued (s : Shared α) (b n : Nat) : Shared α :=
  { s with elementsCompletelyDequeued := Function.update s.elementsCompletelyDequeued b n }

/-- `requisition_block` -/
def requisition (s : Shared α) : Option Nat → Option (Shared α × Nat)
  | none => some ({ s with blocks := s.blocks + 1 }, s.blocks)
  | some b => if b ∈ s.freeList then some ({ s with freeList := s.freeList.erase b }, b) else none

end Shared

/-- The call has got `el`, whatever the queue has for it. -/
def deliver (el : Option α) : ConcurrentQueue.Thread α → ConcurrentQueue.Thread α
  | .dequeue (.returned (some (p, i, _))) => .dequeue (.returned (some (p, i, el)))
  | t => t

/-- A step of the queue, after which the call goes on with its storage. -/
def forward (s : Shared α) (t : ConcurrentQueue.Thread α) (e : ConcurrentQueue.Choice α) (storage : Storage) :
    Option (Shared α × Thread α) :=
  (ConcurrentQueue.act s.queue t e).map fun r => ({ s with queue := r.1 }, ⟨r.2.1, storage⟩)

/-- `enqueue` at producer `p`, up to the new tail. -/
def put (T : Traits) (s : Shared α) (t : ConcurrentQueue.Thread α) (p : Nat) (a : α) :
    Storage → Choice α → Option (Shared α × Thread α)
  | .idle, .queue .step =>
    some (s, ⟨t, if (s.queue.producers p).tailIndex % T.blockSize = 0 then .test else .construct⟩)
  | .test, .queue .step =>
    let x := s.indices p
    let entry := x.header.index x.newTail
    if (x.entries entry).key = invalidBlockBase ∨ (x.entries entry).value = none then
      some (s, ⟨t, .storeKey entry x.newTail⟩)
    else some (s, ⟨t, .grow⟩)
  | .grow, .queue .step =>
    let x := s.indices p
    -- there is no room for more elements than a word can count
    if x.nextBlockIndexCapacity * T.blockSize ≤ word then
      let x := x.newBlockIndex
      some (s.setIndex p x, ⟨t, .storeKey (x.header.index x.newTail) x.newTail⟩)
    else none
  | .storeKey entry newTail, .queue .step =>
    some (s.setIndex p ((s.indices p).setKey entry (s.queue.producers p).tailIndex), ⟨t, .storeTail entry newTail⟩)
  | .storeTail entry newTail, .queue .step => some (s.setIndex p ((s.indices p).setTail newTail), ⟨t, .requisition entry⟩)
  | .requisition entry, .requisition b => (s.requisition b).map fun r => (r.1, ⟨t, .reset entry r.2⟩)
  | .reset entry block, .queue .step => some (s.setDequeued block 0, ⟨t, .storeValue entry block⟩)
  | .storeValue entry block, .queue .step =>
    some (s.setIndex p { (s.indices p).setValue entry (some block) with tailBlock := some block }, ⟨t, .construct⟩)
  | .construct, .queue .step => (s.indices p).tailBlock.bind fun b =>
      forward (s.setSlot b ((s.queue.producers p).tailIndex % T.blockSize) (some a)) t .step .idle
  | _, _ => none

/-- `dequeue` at producer `p` with index `i`, up to the element. -/
def take (T : Traits) (s : Shared α) (t : ConcurrentQueue.Thread α) (p i : Nat) :
    Storage → Choice α → Option (Shared α × Thread α)
  | .idle, .queue .step => some (s, ⟨t, .loadTail (s.indices p).blockIndex⟩)
  | .loadTail header, .queue .step => some (s, ⟨t, .loadKey header ((s.indices p).headers header).tail⟩)
  | .loadKey header tail, .queue .step => some (s, ⟨t, .loadValue header ((s.indices p).find T header tail i)⟩)
  | .loadValue header idx, .queue .step =>
    let entry := ((s.indices p).headers header).index idx
    ((s.indices p).entries entry).value.map fun b => (s, ⟨t, .move entry b⟩)
  | .move entry block, .queue .step =>
    (forward (s.setSlot block (i % T.blockSize) none) t .step (.setEmpty entry block)).map fun r =>
      (r.1, { r.2 with call := deliver (s.slots block (i % T.blockSize)) r.2.call })
  | _, _ => none

/-- `dequeue` at producer `p`, when it has the element. -/
def release (T : Traits) (s : Shared α) (t : ConcurrentQueue.Thread α) (p : Nat) :
    Storage → Choice α → Option (Shared α × Thread α)
  | .setEmpty entry block, .queue .step =>
    let prevVal := s.elementsCompletelyDequeued block
    some (s.setDequeued block (prevVal + 1), ⟨t, if prevVal = T.blockSize - 1 then .clear entry block else .idle⟩)
  | .clear entry block, .queue .step => some (s.setIndex p ((s.indices p).setValue entry none), ⟨t, .free block⟩)
  | .free block, .queue .step => some ({ s with freeList := block :: s.freeList }, ⟨t, .idle⟩)
  | _, _ => none

/-- What is left of a call to the queue itself. -/
def pass (s : Shared α) (t : ConcurrentQueue.Thread α) : Storage → Choice α → Option (Shared α × Thread α)
  | .idle, .queue e => forward s t e .idle
  | _, _ => none

def proceed (T : Traits) (s : Shared α) (t : Thread α) (e : Choice α) : Option (Shared α × Thread α) :=
  match t.call with
  | .enqueue _ a (.construct p) => put T s t.call p a t.storage e
  | .dequeue (.tryBest p (.move i)) | .dequeue (.tryOther _ p (.move i)) => take T s t.call p i t.storage e
  | .dequeue (.returned (some (p, _))) => release T s t.call p t.storage e
  | _ => pass s t.call t.storage e

def act (T : Traits) (s : Shared α) (t : Thread α) (e : Choice α) : Option (Shared α × Thread α × List (Thread α)) :=
  (proceed T s t e).map fun r => (r.1, r.2, [])

def call (s : Shared α) : Choice α → Option (Shared α × List (Thread α))
  | .queue e => (ConcurrentQueue.call s.queue e).map fun r => ({ s with queue := r.1 }, r.2.map (⟨·, .idle⟩))
  | _ => none

def blockQueue (T : Traits) (α : Type) : Program (Shared α) (Thread α) (Choice α) := ⟨call, act T⟩

def initial (T : Traits) : Config (Shared α) (Thread α) :=
  ⟨⟨ConcurrentQueue.initial.shared, fun _ => .new T, fun _ _ => none, fun _ => 0, 0, []⟩, []⟩

end Xdispatch.BlockQueue
