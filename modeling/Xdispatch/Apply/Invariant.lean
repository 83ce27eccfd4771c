import Mathlib.Algebra.Order.Group.Multiset
import Mathlib.Data.Multiset.OrderedMonoid
import Xdispatch.Apply.Model

/-!
# What an `apply` has posted and executed

Seen from one call of `apply`, its operations are added to the queue in the order
of their indices, each is executed no more often than it was added, and the
consumable counts those that have been consumed. The queue is any lawful executor.
-/

namespace Xdispatch.Apply

section
variable {σ τ ε : Type} {E : Executor σ τ ε}

/-! ## The queue by itself -/

def erase (q : Config σ (τ × Body)) : Config σ τ := ⟨q.shared, q.threads.map Prod.fst⟩

/-- What the thread would run if its operation comes to `execute` next. -/
def pend (E : Executor σ τ ε) (p : τ × Body) : List Nat := if p.2 = .execute then (E.running p.1).toList else []

def pending (E : Executor σ τ ε) (l : List (τ × Body)) : Multiset Nat :=
  Family.total (fun p => (pend E p : Multiset Nat)) l

structure QueueInv (E : Executor σ τ ε) (s : Shared σ τ) : Prop where
  run : ∃ tr, E.program.Run E.initial tr (erase s.queue)
  added : ∀ x ∈ E.added s.queue.shared, x < s.ops.length
  adding : ∀ p ∈ s.queue.threads, ∀ x, E.adding p.1 = some x → x < s.ops.length
  running : ∀ p ∈ s.queue.threads, ∀ x, E.running p.1 = some x → x < s.ops.length ∧ p.2 ≠ .idle
  idle : ∀ p ∈ s.queue.threads, E.running p.1 = none → p.2 = .idle
  executed : (E.started s.queue.shared : Multiset Nat) = s.executed + pending E s.queue.threads

/-! ## One call of `apply` -/

def indexOf (ops : List (Option (Nat × Nat))) (a x : Nat) : Option Nat :=
  ops[x]?.join.bind fun p => if p.1 = a then some p.2 else none

def indices (ops : List (Option (Nat × Nat))) (a : Nat) (l : List Nat) : List Nat := l.filterMap (indexOf ops a)

/-- Whether the thread's operation, one of the call, has come to `b`. -/
def comes (E : Executor σ τ ε) (ops : List (Option (Nat × Nat))) (a : Nat) (b : Body) (p : τ × Body) : Nat :=
  if p.2 = b then (indices ops a (E.running p.1).toList).length else 0

/-- What the state is to one `apply`: the indices of its operations that were added and
that threads are about to add, those executed, the number of operations about to
consume their resource and to complete the barrier, and its consumable. -/
structure View where
  added : List Nat
  adds : Multiset Nat
  executed : List Nat
  consuming : Nat
  completing : Nat
  resources : Nat
  completed : Bool

def view (E : Executor σ τ ε) (s : Shared σ τ) (a : Nat) : View where
  added := indices s.ops a (E.added s.queue.shared)
  adds := Family.total (fun p => (indices s.ops a (E.adding p.1).toList : Multiset Nat)) s.queue.threads
  executed := indices s.ops a s.executed
  consuming := Family.total (comes E s.ops a .consume) s.queue.threads
  completing := Family.total (comes E s.ops a .complete) s.queue.threads
  resources := s.resources a
  completed := s.completed a

/-- Thread `n` of the queue is about to add index `i`. -/
def AddsAt (E : Executor σ τ ε) (s : Shared σ τ) (a n i : Nat) : Prop :=
  ∃ p x, s.queue.threads[n]? = some p ∧ E.adding p.1 = some x ∧ indexOf s.ops a x = some i

def WaitsAt (E : Executor σ τ ε) (s : Shared σ τ) (n : Nat) : Prop :=
  ∃ p, s.queue.threads[n]? = some p ∧ E.waiting p.1 = true

def Phase.Posted (E : Executor σ τ ε) (s : Shared σ τ) (a times : Nat) : Phase → Prop
  | .loop i => i ≤ times ∧ (view E s a).added = List.range i ∧ (view E s a).adds = 0
  | .async i n => i < times ∧
      ((view E s a).added = List.range (i + 1) ∧ (view E s a).adds = 0 ∨
        (view E s a).added = List.range i ∧ (view E s a).adds = {i} ∧ AddsAt E s a n i)
  | _ => (view E s a).added = List.range times ∧ (view E s a).adds = 0

def Phase.Waited (E : Executor σ τ ε) (s : Shared σ τ) (a times : Nat) : Phase → Prop
  | .loop _ | .async _ _ => True
  | .check | .barrier => E.wait = none
  | .waitAll n => E.wait ≠ none ∧ (WaitsAt E s n ∨ times ≤ (view E s a).executed.length)
  | .returned => if E.wait = none then (view E s a).resources = 0 else times ≤ (view E s a).executed.length

structure Thread.Fits (E : Executor σ τ ε) (s : Shared σ τ) (t : Thread) : Prop where
  posted : t.phase.Posted E s t.id t.times
  waited : t.phase.Waited E s t.id t.times
  consumed : E.wait = none →
    (view E s t.id).resources + (view E s t.id).executed.length = t.times + (view E s t.id).consuming
  completed : (view E s t.id).completed = true ∨ 0 < (view E s t.id).completing → (view E s t.id).resources = 0

structure Inv (E : Executor σ τ ε) (c : Config (Shared σ τ) Thread) : Prop where
  queue : QueueInv E c.shared
  ids : ∀ (i : Nat) (t : Thread), c.threads[i]? = some t → t.id = i
  consumables : c.shared.consumables.length = c.threads.length
  ops : ∀ a i, some (a, i) ∈ c.shared.ops → a < c.threads.length
  fits : ∀ t ∈ c.threads, t.Fits E c.shared

/-! ## Executed once -/

variable (hE : E.Lawful)
include hE

theorem QueueInv.executed_le {s : Shared σ τ} (hQ : QueueInv E s) (a : Nat) :
    ((view E s a).executed : Multiset Nat) ≤ (view E s a).added := by
  obtain ⟨tr, hr⟩ := hQ.run
  have hst : (E.started s.queue.shared : Multiset Nat) ≤ E.added s.queue.shared := hE.once tr _ hr
  have hex : (s.executed : Multiset Nat) ≤ E.added s.queue.shared := by
    refine le_trans ?_ hst
    rw [hQ.executed]
    exact Multiset.le_add_right _ _
  have := Multiset.filterMap_le_filterMap (indexOf s.ops a) hex
  simpa [view, indices, Multiset.filterMap_coe] using this

theorem Inv.perm {c : Config (Shared σ τ) Thread} (hI : Inv E c) {t : Thread} (ht : t ∈ c.threads)
    (hr : t.phase = .returned) : (view E c.shared t.id).executed.Perm (List.range t.times) := by
  have hf := hI.fits t ht
  have hle := hI.queue.executed_le hE t.id
  have hp := hf.posted
  have hw := hf.waited
  rw [hr] at hp hw
  simp only [Phase.Posted] at hp
  simp only [Phase.Waited] at hw
  rw [hp.1] at hle
  have hlen : (view E c.shared t.id).executed.length ≥ t.times := by
    split at hw
    next hn =>
      have := hf.consumed hn
      omega
    next => exact hw
  apply Multiset.coe_eq_coe.mp
  apply Multiset.eq_of_le_of_card_le hle
  simpa using hlen

omit hE

/-! ## Numbers of operations -/

variable {s s' : Shared σ τ} {a x : Nat} {op : Option (Nat × Nat)} {l : List Nat}

theorem indexOf_grow (ops : List (Option (Nat × Nat))) (hx : x < ops.length) :
    indexOf (ops ++ [op]) a x = indexOf ops a x := by
  unfold indexOf
  rw [List.getElem?_append_left hx]

theorem indices_grow (ops : List (Option (Nat × Nat))) (hl : ∀ x ∈ l, x < ops.length) :
    indices (ops ++ [op]) a l = indices ops a l := by
  apply List.filterMap_congr
  intro x hx
  exact indexOf_grow ops (hl x hx)

theorem indexOf_new (op : Option (Nat × Nat)) (ops : List (Option (Nat × Nat))) :
    indexOf (ops ++ [op]) a ops.length = op.bind fun p => if p.1 = a then some p.2 else none := by
  simp [indexOf]

theorem QueueInv.executed_lt (hE : E.Lawful) (hQ : QueueInv E s) (hx : x ∈ s.executed) : x < s.ops.length := by
  obtain ⟨tr, hr⟩ := hQ.run
  have hst : (E.started s.queue.shared : Multiset Nat) ≤ E.added s.queue.shared := hE.once tr _ hr
  apply hQ.added
  apply Multiset.mem_coe.mp
  apply Multiset.mem_of_le hst
  rw [hQ.executed]
  exact Multiset.mem_add.mpr (Or.inl (Multiset.mem_coe.mpr hx))

/-- A new number changes nothing for the operations there are. -/
theorem view_grow (hE : E.Lawful) (hQ : QueueInv E s) : view E { s with ops := s.ops ++ [op] } a = view E s a := by
  have toList : ∀ {o : Option Nat}, (∀ x, o = some x → x < s.ops.length) →
      indices (s.ops ++ [op]) a o.toList = indices s.ops a o.toList := fun h =>
    indices_grow s.ops fun x hx => h x (by simpa using hx)
  have hcomes : ∀ b, Family.total (comes E (s.ops ++ [op]) a b) s.queue.threads =
      Family.total (comes E s.ops a b) s.queue.threads := fun b => Family.total_congr fun p hp => by
    unfold comes
    rw [toList fun x hx => (hQ.running p hp x hx).1]
  simp only [view, View.mk.injEq]
  refine ⟨indices_grow s.ops hQ.added, ?_, ?_, hcomes _, hcomes _, rfl, rfl⟩
  · apply Family.total_congr
    intro p hp
    rw [toList (hQ.adding p hp)]
  · exact indices_grow s.ops fun x hx => hQ.executed_lt hE hx

end

end Xdispatch.Apply
