import Xdispatch.BlockQueue.Index
import Xdispatch.ConcurrentQueue.Delivery

/-!
# The steps of the block queue

A step is one of the queue itself, which the storage has no part in; one of a call within its
storage, which the queue does not see; or one of the two in which an element is constructed in
its block, or moved out of it.
-/

namespace Xdispatch.BlockQueue

open ConcurrentQueue (DequeuePhase Attempt)
open ConcurrentQueue.Thread (on)

variable {α : Type} {T : Traits}

/-! ## Where a call has to do with the blocks -/

/-- The call puts an element at the tail of producer `p`. -/
inductive Puts (p : Nat) : ConcurrentQueue.Thread α → Prop
  | intro {id : Nat} {a : α} : Puts p (.enqueue id a (.construct p))

/-- The call takes the element at index `i` of producer `p`. -/
inductive Takes (p i : Nat) : ConcurrentQueue.Thread α → Prop
  | best : Takes p i (.dequeue (.tryBest p (.move i)))
  | other {best : Nat} : Takes p i (.dequeue (.tryOther best p (.move i)))

/-- The call has got the element at index `i` of producer `p`. -/
inductive Taken (p i : Nat) : ConcurrentQueue.Thread α → Prop
  | intro {v : Option α} : Taken p i (.dequeue (.returned (some (p, i, v))))

/-- The call has nothing to do with the blocks. -/
structure Apart (t : ConcurrentQueue.Thread α) : Prop where
  puts : ∀ p, ¬ Puts p t
  takes : ∀ p i, ¬ Takes p i t
  taken : ∀ p i, ¬ Taken p i t

section
variable {t : ConcurrentQueue.Thread α} {p q i j : Nat}

theorem Takes.on (h : Takes p i t) : t.on p = some (.move i) := by
  cases h <;> exact if_pos rfl

theorem Taken.on (h : Taken p i t) : t.on p = some (.move i) := by
  cases h
  exact if_pos rfl

theorem takes_or_taken (h : t.on p = some (.move i)) : Takes p i t ∨ Taken p i t := by
  cases t with
  | enqueue => cases h
  | dequeue ph =>
    cases ph with
    | tryBest q b | tryOther _ q b =>
      simp only [on, DequeuePhase.on, Option.ite_none_right_eq_some, Option.some.injEq] at h
      obtain ⟨rfl, rfl⟩ := h
      exact Or.inl (by constructor)
    | returned r =>
      cases r with
      | none => cases h
      | some r =>
        simp only [on, DequeuePhase.on, Option.ite_none_right_eq_some, Option.some.injEq, Attempt.move.injEq] at h
        obtain ⟨rfl, rfl⟩ := h
        exact Or.inr .intro
    | _ => cases h

theorem Puts.unique (h : Puts p t) (h' : Puts q t) : q = p := by
  cases h
  cases h'
  rfl

theorem Puts.not_on (h : Puts p t) (q : Nat) : t.on q = none := by
  cases h
  rfl

theorem not_puts_of_on (h : t.on p = some (.move i)) (q : Nat) : ¬ Puts q t := fun hp => by
  cases (hp.not_on p).symm.trans h

theorem on_unique (h : t.on p = some (.move i)) (h' : t.on q = some (.move j)) : q = p ∧ j = i := by
  rcases takes_or_taken h with h | h <;> rcases takes_or_taken h' with h' | h' <;> cases h <;> cases h' <;> exact ⟨rfl, rfl⟩

end

/-! ## What a step does -/

section
variable (T) (s : Shared α) (t : ConcurrentQueue.Thread α)

inductive Works : Storage → Shared α → Storage → Prop
  | begin {p : Nat} : Puts p t → (s.queue.producers p).tailIndex % T.blockSize = 0 → Works .idle s .test
  | within {p : Nat} : Puts p t → (s.queue.producers p).tailIndex % T.blockSize ≠ 0 → Works .idle s .construct
  | room {p : Nat} : Puts p t → (s.indices p).key ((s.indices p).header.index (s.indices p).newTail) = invalidBlockBase ∨
    (s.indices p).value ((s.indices p).header.index (s.indices p).newTail) = none →
    Works .test s (.storeKey ((s.indices p).header.index (s.indices p).newTail) (s.indices p).newTail)
  | full {p : Nat} : Puts p t → (s.indices p).value ((s.indices p).header.index (s.indices p).newTail) ≠ none →
    Works .test s .grow
  | grow {p : Nat} : Puts p t → (s.indices p).nextBlockIndexCapacity * T.blockSize ≤ word →
    Works .grow (s.setIndex p (s.indices p).newBlockIndex)
      (.storeKey ((s.indices p).newBlockIndex.header.index (s.indices p).newBlockIndex.newTail)
        (s.indices p).newBlockIndex.newTail)
  | storeKey {p e n : Nat} : Puts p t →
    Works (.storeKey e n) (s.setIndex p ((s.indices p).setKey e (s.queue.producers p).tailIndex)) (.storeTail e n)
  | storeTail {p e n : Nat} : Puts p t →
    Works (.storeTail e n) (s.setIndex p ((s.indices p).setTail n)) (.requisition e)
  | make {p e : Nat} : Puts p t → Works (.requisition e) { s with blocks := s.blocks + 1 } (.reset e s.blocks)
  | reuse {p e b : Nat} : Puts p t → b ∈ s.freeList →
    Works (.requisition e) { s with freeList := s.freeList.erase b } (.reset e b)
  | reset {p e b : Nat} : Puts p t → Works (.reset e b) (s.setDequeued b 0) (.storeValue e b)
  | storeValue {p e b : Nat} : Puts p t →
    Works (.storeValue e b) (s.setIndex p { (s.indices p).setValue e (some b) with tailBlock := some b }) .construct
  | loadIndex {p i : Nat} : Takes p i t → Works .idle s (.loadTail (s.indices p).blockIndex)
  | loadTail {p i h : Nat} : Takes p i t → Works (.loadTail h) s (.loadKey h ((s.indices p).headers h).tail)
  | loadKey {p i h n : Nat} : Takes p i t → Works (.loadKey h n) s (.loadValue h ((s.indices p).find T h n i))
  | loadValue {p i h n b : Nat} : Takes p i t → (s.indices p).value (((s.indices p).headers h).index n) = some b →
    Works (.loadValue h n) s (.move (((s.indices p).headers h).index n) b)
  | setEmpty {p i e b : Nat} : Taken p i t → s.elementsCompletelyDequeued b ≠ T.blockSize - 1 →
    Works (.setEmpty e b) (s.setDequeued b (s.elementsCompletelyDequeued b + 1)) .idle
  | last {p i e b : Nat} : Taken p i t → s.elementsCompletelyDequeued b = T.blockSize - 1 →
    Works (.setEmpty e b) (s.setDequeued b (s.elementsCompletelyDequeued b + 1)) (.clear e b)
  | clear {p i e b : Nat} : Taken p i t → Works (.clear e b) (s.setIndex p ((s.indices p).setValue e none)) (.free b)
  | free {p i b : Nat} : Taken p i t → Works (.free b) { s with freeList := b :: s.freeList } .idle

end

inductive Step (T : Traits) (s : Shared α) (t : Thread α) (e : Choice α) : Shared α → Thread α → Prop
  | works {s' : Shared α} {st : Storage} : Works T s t.call t.storage s' st → Step T s t e s' ⟨t.call, st⟩
  | pass {e' : ConcurrentQueue.Choice α} {q : ConcurrentQueue.Shared α} {t' : ConcurrentQueue.Thread α} : Apart t.call →
    t.storage = .idle → e = .queue e' → ConcurrentQueue.act s.queue t.call e' = some (q, t', []) →
    Step T s t e { s with queue := q } ⟨t', .idle⟩
  | construct {id p b : Nat} {a : α} : t.call = .enqueue id a (.construct p) → t.storage = .construct → e = .queue .step →
    (s.indices p).tailBlock = some b →
    Step T s t e
      { s.setSlot b ((s.queue.producers p).tailIndex % T.blockSize) (some a) with
        queue := s.queue.modify p fun x => { x with elements := x.elements ++ [a] } }
      ⟨.enqueue id a (.publish p), .idle⟩
  | move {p i entry b : Nat} : Takes p i t.call → t.storage = .move entry b → e = .queue .step →
    Step T s t e (s.setSlot b (i % T.blockSize) none)
      ⟨.dequeue (.returned (some (p, i, s.slots b (i % T.blockSize)))), .setEmpty entry b⟩

section
variable {s s' : Shared α} {t t' : Thread α} {e : Choice α} {p i : Nat}

theorem forward_step {s₁ : Shared α} {u : ConcurrentQueue.Thread α} {e' : ConcurrentQueue.Choice α} {st : Storage}
    (h : forward s₁ u e' st = some (s', t')) : ∃ q u', ConcurrentQueue.act s₁.queue u e' = some (q, u', []) ∧
      s' = { s₁ with queue := q } ∧ t' = ⟨u', st⟩ := by
  simp only [forward, Option.map_eq_some_iff, Prod.mk.injEq] at h
  obtain ⟨⟨q, u', new⟩, h, rfl, rfl⟩ := h
  obtain ⟨-, rfl⟩ := ConcurrentQueue.act_moves h
  exact ⟨q, u', h, rfl, rfl⟩

theorem put_step {id : Nat} {a : α} {call : ConcurrentQueue.Thread α} {st : Storage}
    (hc : call = .enqueue id a (.construct p))
    (h : put T s call p a st e = some (s', t')) : Step T s ⟨call, st⟩ e s' t' := by
  have hp : Puts p call := hc ▸ .intro
  unfold put at h
  split at h
  next =>
    cases h
    by_cases h0 : (s.queue.producers p).tailIndex % T.blockSize = 0
    · rw [if_pos h0]
      exact .works (.begin hp h0)
    · rw [if_neg h0]
      exact .works (.within hp h0)
  next =>
    simp only [] at h
    split at h
    next hroom =>
      cases h
      exact .works (.room hp hroom)
    next hroom =>
      cases h
      exact .works (.full hp fun hv => hroom (Or.inr hv))
  next =>
    simp only [] at h
    split at h
    next hw =>
      cases h
      exact .works (.grow hp hw)
    next => cases h
  next =>
    cases h
    exact .works (.storeKey hp)
  next =>
    cases h
    exact .works (.storeTail hp)
  next entry b =>
    simp only [Option.map_eq_some_iff, Prod.mk.injEq] at h
    obtain ⟨⟨s₁, block⟩, h, rfl, rfl⟩ := h
    cases b with
    | none =>
      cases h
      exact .works (.make hp)
    | some b =>
      simp only [Shared.requisition, Option.ite_none_right_eq_some] at h
      obtain ⟨hb, h⟩ := h
      cases h
      exact .works (.reuse hp hb)
  next =>
    cases h
    exact .works (.reset hp)
  next =>
    cases h
    exact .works (.storeValue hp)
  next =>
    simp only [Option.bind_eq_some_iff] at h
    obtain ⟨b, hb, h⟩ := h
    subst hc
    cases h
    exact .construct rfl rfl rfl hb
  next => cases h

theorem take_step {call : ConcurrentQueue.Thread α} {st : Storage} (hi : Takes p i call)
    (h : take T s call p i st e = some (s', t')) : Step T s ⟨call, st⟩ e s' t' := by
  unfold take at h
  split at h
  next =>
    cases h
    exact .works (.loadIndex hi)
  next =>
    cases h
    exact .works (.loadTail hi)
  next =>
    cases h
    exact .works (.loadKey hi)
  next =>
    simp only [Option.map_eq_some_iff, Prod.mk.injEq] at h
    obtain ⟨b, hb, rfl, rfl⟩ := h
    exact .works (.loadValue hi hb)
  next =>
    have hi' := hi
    cases hi <;>
    · cases h
      exact .move hi' rfl rfl
  next => cases h

theorem release_step {call : ConcurrentQueue.Thread α} {st : Storage} (hi : Taken p i call)
    (h : release T s call p st e = some (s', t')) : Step T s ⟨call, st⟩ e s' t' := by
  unfold release at h
  split at h
  next entry b =>
    cases h
    by_cases hlast : s.elementsCompletelyDequeued b = T.blockSize - 1
    · rw [if_pos hlast]
      exact .works (.last hi hlast)
    · rw [if_neg hlast]
      exact .works (.setEmpty hi hlast)
  next =>
    cases h
    exact .works (.clear hi)
  next =>
    cases h
    exact .works (.free hi)
  next => cases h

theorem pass_step {call : ConcurrentQueue.Thread α} {st : Storage} (hq : Apart call)
    (h : pass s call st e = some (s', t')) : Step T s ⟨call, st⟩ e s' t' := by
  unfold pass at h
  split at h
  next e =>
    obtain ⟨q, u', ha, rfl, rfl⟩ := forward_step h
    exact .pass hq rfl rfl ha
  next => cases h

theorem act_step {new : List (Thread α)} (h : act T s t e = some (s', t', new)) : Step T s t e s' t' ∧ new = [] := by
  simp only [act, Option.map_eq_some_iff, Prod.mk.injEq] at h
  obtain ⟨⟨s₁, t₁⟩, h, rfl, rfl, rfl⟩ := h
  refine ⟨?_, rfl⟩
  obtain ⟨call, st⟩ := t
  unfold proceed at h
  split at h
  next hc => exact put_step hc h
  next hc =>
    cases hc
    exact take_step .best h
  next hc =>
    cases hc
    exact take_step .other h
  next hc =>
    cases hc
    exact release_step .intro h
  next h1 h2 h3 h4 =>
    refine pass_step ⟨fun p hp => ?_, fun p i hi => ?_, fun p i hi => ?_⟩ h
    · cases hp
      exact h1 _ _ _ rfl
    · cases hi
      · exact h2 _ _ rfl
      · exact h3 _ _ _ rfl
    · cases hi
      exact h4 _ _ rfl

end

end Xdispatch.BlockQueue
