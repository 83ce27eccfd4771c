import Xdispatch.ConcurrentQueue.Model
import Xdispatch.Lib.Linked

/-!
# The producers

A thread that enqueues for the first time makes its producer and pushes it onto
the list. As a thread is in one call at a time, no thread has two producers, and
a producer that is made is on the list or is being pushed by exactly one call.
What `try_dequeue` looks at is on the list.
-/

namespace Xdispatch.ConcurrentQueue

variable {α : Type}

/-! ## What a step does -/

inductive EnqueuePhase.Moves (s : Shared α) (id : Nat) (a : α) : EnqueuePhase → Shared α → EnqueuePhase → Prop
  | found {p : Nat} : s.find id = some p → Moves s id a .find s (.construct p)
  | create : s.find id = none → Moves s id a .find (s.create id) (.loadTail s.size)
  | loadTail {p : Nat} : Moves s id a (.loadTail p) s (.link p s.producerListTail)
  | link {p : Nat} {prev : Option Nat} :
    Moves s id a (.link p prev) (s.modify p fun x => { x with next := prev }) (.exchange p prev)
  | push {p : Nat} {prev : Option Nat} : s.producerListTail = prev →
    Moves s id a (.exchange p prev) { s with producerListTail := some p } (.construct p)
  | retry {p : Nat} {prev : Option Nat} : Moves s id a (.exchange p prev) s (.link p s.producerListTail)
  | construct {p : Nat} :
    Moves s id a (.construct p) (s.modify p fun x => { x with elements := x.elements ++ [a] }) (.publish p)
  | publish {p : Nat} :
    Moves s id a (.publish p)
      { s.modify p fun x => { x with tailIndex := x.tailIndex + 1 } with busy := s.busy.erase id } .returned

inductive DequeuePhase.Moves (s : Shared α) : DequeuePhase α → Shared α → DequeuePhase α → Prop
  | loadList : Moves s .loadList s (Scores.loop ⟨0, none, 0⟩ s.producerListTail)
  | sizeTail {p : Nat} {sc : Scores} : Moves s (.sizeTail p sc) s (.sizeHead p sc (s.producers p).tailIndex)
  | sizeHead {p : Nat} {sc : Scores} {tail : Nat} :
    Moves s (.sizeHead p sc tail) s
      ((sc.add p (Producer.sizeApprox (s.producers p).headIndex tail)).loop (s.producers p).next)
  | tryBest {p : Nat} {a a' : Attempt} : (a.act s p).2 = .inl a' →
    Moves s (.tryBest p a) (a.act s p).1 (.tryBest p a')
  | bestFailed {p : Nat} {a : Attempt} : (a.act s p).2 = .inr none →
    Moves s (.tryBest p a) (a.act s p).1 (.loadAgain p)
  | bestTaken {p : Nat} {a : Attempt} {r : Nat × Option α} : (a.act s p).2 = .inr (some r) →
    Moves s (.tryBest p a) (a.act s p).1 (.returned (some (p, r)))
  | loadAgain {best : Nat} : Moves s (.loadAgain best) s (.visit best s.producerListTail)
  | exhausted {best : Nat} : Moves s (.visit best none) s (.returned none)
  | skip {best : Nat} : Moves s (.visit best (some best)) s (.visit best (s.producers best).next)
  | visit {best p : Nat} : p ≠ best → Moves s (.visit best (some p)) s (.tryOther best p .loadTail)
  | tryOther {best p : Nat} {a a' : Attempt} : (a.act s p).2 = .inl a' →
    Moves s (.tryOther best p a) (a.act s p).1 (.tryOther best p a')
  | otherFailed {best p : Nat} {a : Attempt} : (a.act s p).2 = .inr none →
    Moves s (.tryOther best p a) (a.act s p).1 (.visit best (s.producers p).next)
  | otherTaken {best p : Nat} {a : Attempt} {r : Nat × Option α} : (a.act s p).2 = .inr (some r) →
    Moves s (.tryOther best p a) (a.act s p).1 (.returned (some (p, r)))

section
variable {s s' : Shared α} {id p : Nat} {a : α} {e : Choice α}

theorem EnqueuePhase.act_moves {ph ph' : EnqueuePhase} (h : ph.act s id a e = some (s', ph')) :
    ph.Moves s id a s' ph' := by
  cases ph <;> cases e <;> simp only [EnqueuePhase.act, Option.some.injEq, Prod.mk.injEq, reduceCtorEq] at h
  case find.step =>
    cases hf : s.find id with
    | none =>
      rw [hf] at h
      cases h
      exact .create hf
    | some p =>
      rw [hf] at h
      cases h
      exact .found hf
  case exchange.step =>
    split at h
    · cases h
      exact .push ‹_›
    · cases h
      exact .retry
  case exchange.spurious p prev =>
    split at h
    · next heq =>
      subst heq
      cases h
      exact .retry
    · cases h
  all_goals
    obtain ⟨rfl, rfl⟩ := h
    constructor

/-- Nothing that an attempt does changes the list, and no other producer is touched. -/
theorem Attempt.act_next (s : Shared α) (p : Nat) (b : Attempt) (q : Nat) :
    (((b.act s p).1).producers q).next = (s.producers q).next := by
  cases b <;> simp only [Attempt.act, Shared.modify, Function.update_apply] <;> split <;> simp_all

theorem DequeuePhase.act_moves {ph ph' : DequeuePhase α} (h : ph.act s e = some (s', ph')) : ph.Moves s s' ph' := by
  cases e
  case step =>
    cases ph with
    | tryBest p b =>
      simp only [DequeuePhase.act, Option.some.injEq] at h
      rcases hb : b.act s p with ⟨s₁, b' | _ | r⟩ <;> rw [hb] at h <;> obtain ⟨rfl, rfl⟩ := h
      · simpa [hb] using Moves.tryBest (congrArg Prod.snd hb)
      · simpa [hb] using Moves.bestFailed (congrArg Prod.snd hb)
      · simpa [hb] using Moves.bestTaken (congrArg Prod.snd hb)
    | tryOther best p b =>
      simp only [DequeuePhase.act, Option.some.injEq] at h
      have hnext := Attempt.act_next s p b p
      rcases hb : b.act s p with ⟨s₁, b' | _ | r⟩ <;> rw [hb] at h hnext <;> obtain ⟨rfl, rfl⟩ := h
      · simpa [hb] using (Moves.tryOther (congrArg Prod.snd hb) : (tryOther best p b).Moves s _ _)
      · simpa [hb, hnext] using (Moves.otherFailed (congrArg Prod.snd hb) : (tryOther best p b).Moves s _ _)
      · simpa [hb] using (Moves.otherTaken (congrArg Prod.snd hb) : (tryOther best p b).Moves s _ _)
    | visit best ptr =>
      cases ptr with
      | none =>
        cases h
        exact .exhausted
      | some p =>
        simp only [DequeuePhase.act, Option.some.injEq, Prod.mk.injEq] at h
        obtain ⟨rfl, rfl⟩ := h
        split
        · next heq =>
          subst heq
          exact .skip
        · exact .visit ‹_›
    | returned => cases h
    | _ =>
      cases h
      constructor
  all_goals cases ph <;> simp [DequeuePhase.act] at h

inductive Moves (s : Shared α) : Thread α → Shared α → Thread α → Prop
  | enqueue {id : Nat} {a : α} {ph ph' : EnqueuePhase} {s' : Shared α} : ph.Moves s id a s' ph' →
    Moves s (.enqueue id a ph) s' (.enqueue id a ph')
  | dequeue {ph ph' : DequeuePhase α} {s' : Shared α} : ph.Moves s s' ph' → Moves s (.dequeue ph) s' (.dequeue ph')

theorem act_moves {t t' : Thread α} {new : List (Thread α)} (h : act s t e = some (s', t', new)) :
    Moves s t s' t' ∧ new = [] := by
  cases t with
  | enqueue id a ph =>
    simp only [act, Option.map_eq_some_iff, Prod.mk.injEq] at h
    obtain ⟨⟨s₁, ph'⟩, h, rfl, rfl, rfl⟩ := h
    exact ⟨.enqueue (EnqueuePhase.act_moves h), rfl⟩
  | dequeue ph =>
    simp only [act, Option.map_eq_some_iff, Prod.mk.injEq] at h
    obtain ⟨⟨s₁, ph'⟩, h, rfl, rfl, rfl⟩ := h
    exact ⟨.dequeue (DequeuePhase.act_moves h), rfl⟩

end

/-! ## One call of a thread at a time -/

def Thread.unfinished (id : Nat) : Thread α → Nat
  | .enqueue id' _ ph => if id' = id ∧ ph ≠ .returned then 1 else 0
  | .dequeue _ => 0

structure Calls (c : Config (Shared α) (Thread α)) : Prop where
  busy : ∀ id, Family.total (Thread.unfinished id) c.threads = c.shared.busy.count id
  nodup : c.shared.busy.Nodup
  last : ∀ (i j id : Nat) (a b : α) (ph ph' : EnqueuePhase), i < j → c.threads[i]? = some (.enqueue id a ph) →
    c.threads[j]? = some (.enqueue id b ph') → ph = .returned

section
variable {c : Config (Shared α) (Thread α)} {s s' : Shared α} {i id : Nat} {a : α} {ph ph' : EnqueuePhase}
  {t t' : Thread α}

theorem EnqueuePhase.Moves.unfinished (h : ph.Moves s id a s' ph') : ph ≠ .returned := by
  cases h <;> simp

theorem EnqueuePhase.Moves.busy (h : ph.Moves s id a s' ph') :
    s'.busy = if ph' = .returned then s.busy.erase id else s.busy := by
  cases h <;> simp [Shared.create, Shared.modify]

theorem Attempt.act_busy (s : Shared α) (p : Nat) (b : Attempt) : (b.act s p).1.busy = s.busy := by
  cases b <;> rfl

theorem DequeuePhase.Moves.busy {ph ph' : DequeuePhase α} (h : ph.Moves s s' ph') : s'.busy = s.busy := by
  cases h <;> first | rfl | exact Attempt.act_busy ..

theorem unfinished_pos {id' : Nat} (hne : ph ≠ .returned) :
    (Thread.enqueue id a ph : Thread α).unfinished id' = if id = id' then 1 else 0 := by
  simp [Thread.unfinished, hne]

/-- The threads of `id` other than the one in a call have returned. -/
theorem Calls.one (hC : Calls c) (hi : c.threads[i]? = some (.enqueue id a ph)) (hne : ph ≠ .returned) {j : Nat} {b : α}
    {ph' : EnqueuePhase} (hj : c.threads[j]? = some (.enqueue id b ph')) (hne' : ph' ≠ .returned) : i = j := by
  refine Classical.byContradiction fun hij => ?_
  have h2 := Family.le_total_of_ne (Thread.unfinished id) hi hj hij
  rw [unfinished_pos hne, unfinished_pos hne', if_pos rfl, hC.busy] at h2
  have := List.nodup_iff_count_le_one.mp hC.nodup id
  omega

theorem Calls.mem (hC : Calls c) (hi : c.threads[i]? = some (.enqueue id a ph)) (hne : ph ≠ .returned) :
    id ∈ c.shared.busy := by
  have h1 := Family.le_total (Thread.unfinished id) (Family.mem_of_get hi)
  rw [unfinished_pos hne, if_pos rfl, hC.busy] at h1
  exact List.count_pos_iff.mp h1

theorem Calls.act (hC : Calls c) (hi : c.threads[i]? = some t) (h : Moves c.shared t s' t') :
    Calls ⟨s', c.threads.set i t' ++ []⟩ := by
  rw [List.append_nil]
  have hset (id : Nat) := Family.total_set (Thread.unfinished id) hi t'
  cases h with
  | @dequeue ph ph' _ h =>
    refine ⟨fun id => ?_, h.busy ▸ hC.nodup, fun j k id a b ph₁ ph₂ hjk hj hk => ?_⟩
    · have := hset id
      have := hC.busy id
      simp only [Thread.unfinished, h.busy] at *
      omega
    · rw [List.getElem?_set] at hj hk
      split at hj
      · split at hj <;> cases hj
      · split at hk
        · split at hk <;> cases hk
        · exact hC.last j k id a b ph₁ ph₂ hjk hj hk
  | @enqueue id a ph ph' _ h =>
    have hne := h.unfinished
    refine ⟨fun id' => ?_, ?_, fun j k id' a' b ph₁ ph₂ hjk hj hk => ?_⟩
    · have h1 := hset id'
      have h2 := hC.busy id'
      rw [unfinished_pos hne] at h1
      rw [h.busy]
      by_cases hr : ph' = .returned
      · have h0 : (Thread.enqueue id a ph' : Thread α).unfinished id' = 0 := by simp [Thread.unfinished, hr]
        rw [h0] at h1
        rw [if_pos hr, List.count_erase]
        by_cases hid : id = id'
        · have := List.count_pos_iff.mpr (hC.mem hi hne)
          subst hid
          simp only [if_true, BEq.rfl] at *
          omega
        · simp only [if_neg hid, beq_iff_eq] at *
          omega
      · rw [unfinished_pos hr] at h1
        rw [if_neg hr]
        simp only []
        omega
    · rw [h.busy]
      split
      · exact hC.nodup.erase id
      · exact hC.nodup
    · rw [List.getElem?_set] at hj hk
      split at hj
      · next hij =>
        subst hij
        rw [if_neg (Nat.ne_of_lt hjk)] at hk
        split at hj
        · cases hj
          exact absurd (hC.last i k id a b ph ph₂ hjk hi hk) hne
        · cases hj
      · split at hk
        · next hik =>
          subst hik
          split at hk
          · cases hk
            exact hC.last j i id a' a ph₁ ph hjk hj hi
          · cases hk
        · exact hC.last j k id' a' b ph₁ ph₂ hjk hj hk

theorem Calls.call (hC : Calls c) {e : Choice α} {new : List (Thread α)} (h : call c.shared e = some (s', new)) :
    Calls ⟨s', c.threads ++ new⟩ := by
  have key : ∀ u : Thread α, (∀ (i id : Nat) (a b : α) (ph ph' : EnqueuePhase), c.threads[i]? = some (.enqueue id a ph) →
      u = .enqueue id b ph' → ph = .returned) → ∀ (j k id : Nat) (a b : α) (ph ph' : EnqueuePhase), j < k →
      (c.threads ++ [u])[j]? = some (.enqueue id a ph) → (c.threads ++ [u])[k]? = some (.enqueue id b ph') →
      ph = .returned := by
    intro u hu j k id a b ph ph' hjk hj hk
    rcases Nat.lt_or_ge k c.threads.length with hlt | hge
    · rw [List.getElem?_append_left hlt] at hk
      rw [List.getElem?_append_left (hjk.trans hlt)] at hj
      exact hC.last j k id a b ph ph' hjk hj hk
    · rw [List.getElem?_append_right hge, List.getElem?_singleton] at hk
      obtain ⟨h0, hk⟩ := Option.ite_none_right_eq_some.mp hk
      rw [List.getElem?_append_left (by omega)] at hj
      exact hu j id a b ph ph' hj (Option.some.inj hk)
  cases e with
  | enqueue id a =>
    simp only [ConcurrentQueue.call, Option.ite_none_left_eq_some] at h
    obtain ⟨hid, h⟩ := h
    cases h
    refine ⟨fun id' => ?_, List.nodup_cons.mpr ⟨hid, hC.nodup⟩, key _ fun j id' a' b ph ph' hj hu => ?_⟩
    · rw [Family.total_append, hC.busy, Family.total_cons, Family.total_nil, unfinished_pos (by simp), List.count_cons]
      simp
    · cases hu
      exact Classical.byContradiction fun hne => hid (hC.mem hj hne)
  | dequeue =>
    cases h
    refine ⟨fun id => ?_, hC.nodup, key _ fun _ _ _ _ _ _ _ hu => by cases hu⟩
    rw [Family.total_append, hC.busy]
    simp [Thread.unfinished]
  | step | spurious => cases h

end

/-! ## The list -/

def Thread.pushing (p : Nat) : Thread α → Nat
  | .enqueue _ _ (.loadTail q) | .enqueue _ _ (.link q _) | .enqueue _ _ (.exchange q _) => if q = p then 1 else 0
  | _ => 0

def EnqueuePhase.Fits (s : Shared α) (l : List Nat) (id : Nat) : EnqueuePhase → Prop
  | .find | .returned => True
  | .loadTail p | .link p _ => (s.producers p).owner = id
  | .exchange p prev => (s.producers p).owner = id ∧ (s.producers p).next = prev
  | .construct p | .publish p => p ∈ l ∧ (s.producers p).owner = id

def DequeuePhase.Fits (l : List Nat) : DequeuePhase α → Prop
  | .loadList | .loadAgain _ => True
  | .sizeTail p sc | .sizeHead p sc _ => p ∈ l ∧ ∀ q ∈ sc.best, q ∈ l
  | .tryBest p _ | .tryOther _ p _ => p ∈ l
  | .visit _ ptr => ∀ p ∈ ptr, p ∈ l
  | .returned r => ∀ x ∈ r, x.1 ∈ l

def Thread.Fits (s : Shared α) (l : List Nat) : Thread α → Prop
  | .enqueue id _ ph => ph.Fits s l id
  | .dequeue ph => ph.Fits l

/-- `l` is the list of the producers, from `producerListTail` on. -/
structure Listed (c : Config (Shared α) (Thread α)) (l : List Nat) : Prop where
  linked : Linked (fun p => (c.shared.producers p).next) c.shared.producerListTail l
  made : ∀ p ∈ l, p < c.shared.size
  owners : ∀ p q, p < c.shared.size → q < c.shared.size →
    (c.shared.producers p).owner = (c.shared.producers q).owner → p = q
  pushing : ∀ p, Family.total (Thread.pushing p) c.threads = if p < c.shared.size ∧ p ∉ l then 1 else 0
  fits : ∀ t ∈ c.threads, t.Fits c.shared l

/-- A step that leaves the list alone. -/
structure Shared.SameList (s s' : Shared α) : Prop where
  next : ∀ p, (s'.producers p).next = (s.producers p).next
  owner : ∀ p, (s'.producers p).owner = (s.producers p).owner
  size : s'.size = s.size
  tail : s'.producerListTail = s.producerListTail

section
variable {c : Config (Shared α) (Thread α)} {l l' : List Nat} {s s' : Shared α} {i id p : Nat} {a : α}
  {t t' : Thread α}

theorem Shared.SameList.refl : s.SameList s := ⟨fun _ => rfl, fun _ => rfl, rfl, rfl⟩

theorem Shared.SameList.modify {f : Producer α → Producer α} (hn : (f (s.producers p)).next = (s.producers p).next)
    (ho : (f (s.producers p)).owner = (s.producers p).owner) : s.SameList (s.modify p f) := by
  refine ⟨fun q => ?_, fun q => ?_, rfl, rfl⟩ <;>
  · simp only [Shared.modify, Function.update_apply]
    split
    · next h => rw [h]; assumption
    · rfl

theorem Attempt.act_sameList (s : Shared α) (p : Nat) (b : Attempt) : s.SameList (b.act s p).1 := by
  cases b with
  | increment | claim | overcommit =>
    simp only [Attempt.act]
    apply Shared.SameList.modify <;> rfl
  | _ => exact .refl

theorem DequeuePhase.Moves.sameList {ph ph' : DequeuePhase α} (h : ph.Moves s s' ph') : s.SameList s' := by
  cases h <;> first | exact .refl | exact Attempt.act_sameList ..

theorem Thread.Fits.mono (h : t.Fits s l) (hl : l ⊆ l')
    (ho : ∀ p, p ∈ l ∨ 0 < t.pushing p → (s'.producers p).owner = (s.producers p).owner)
    (hn : ∀ p, 0 < t.pushing p → (s'.producers p).next = (s.producers p).next) : t.Fits s' l' := by
  cases t with
  | enqueue id a ph =>
    cases ph with
    | find | returned => trivial
    | loadTail p | link p => exact (ho p (Or.inr (by simp [Thread.pushing]))).trans h
    | exchange p prev =>
      have hp : 0 < (Thread.enqueue id a (.exchange p prev)).pushing p := by simp [Thread.pushing]
      exact ⟨(ho p (Or.inr hp)).trans h.1, (hn p hp).trans h.2⟩
    | construct p | publish p => exact ⟨hl h.1, (ho p (Or.inl h.1)).trans h.2⟩
  | dequeue ph =>
    cases ph with
    | loadList | loadAgain => trivial
    | sizeTail | sizeHead => exact ⟨hl h.1, fun q hq => hl (h.2 q hq)⟩
    | tryBest | tryOther => exact hl h
    | visit | returned => exact fun x hx => hl (h x hx)

theorem Listed.pushed (hL : Listed c l) (ht : t ∈ c.threads) (hp : 0 < t.pushing p) : p < c.shared.size ∧ p ∉ l := by
  have h1 := Family.le_total (Thread.pushing p) ht
  rw [hL.pushing] at h1
  split at h1
  · assumption
  · omega

/-- A step that leaves the list alone, of a thread that goes on pushing what it pushes. -/
theorem Listed.quiet (hL : Listed c l) (hi : c.threads[i]? = some t) (hs : c.shared.SameList s')
    (hp : ∀ p, t'.pushing p = t.pushing p) (hf : t'.Fits s' l) : Listed ⟨s', c.threads.set i t' ++ []⟩ l where
  linked := by
    simp only [hs.tail, hs.next]
    exact hL.linked
  made := by simpa only [hs.size] using hL.made
  owners := by simpa only [hs.size, hs.owner] using hL.owners
  pushing q := by
    have := Family.total_set (Thread.pushing q) hi t'
    rw [hp, hL.pushing] at this
    simp only [List.append_nil, hs.size]
    omega
  fits := Family.forall_step
    (fun x hx => (hL.fits x hx).mono (List.Subset.refl l) (fun p _ => hs.owner p) fun p _ => hs.next p)
    hf (by simp)

theorem Listed.mem_next (hL : Listed c l) (hp : p ∈ l) : ∀ q ∈ (c.shared.producers p).next, q ∈ l :=
  fun _ hq => hL.linked.mem_next hp hq

theorem Listed.mem_tail (hL : Listed c l) : ∀ q ∈ c.shared.producerListTail, q ∈ l := fun _ hq =>
  Linked.mem_head (hq ▸ hL.linked)

theorem Scores.fits_chosen {sc : Scores} (h : ∀ q ∈ sc.best, q ∈ l) : (sc.chosen : DequeuePhase α).Fits l := by
  unfold Scores.chosen
  split
  · next p hp =>
    split
    · exact h p hp
    · intro x hx
      cases hx
  · intro x hx
    cases hx

theorem Scores.fits_loop {sc : Scores} {ptr : Option Nat} (h : ∀ q ∈ sc.best, q ∈ l) (hp : ∀ q ∈ ptr, q ∈ l) :
    (sc.loop ptr : DequeuePhase α).Fits l := by
  cases ptr with
  | none => exact fits_chosen h
  | some p =>
    by_cases h3 : sc.nonEmptyCount < 3
    · simp only [Scores.loop, if_pos h3]
      exact ⟨hp p rfl, h⟩
    · simp only [Scores.loop, if_neg h3]
      exact fits_chosen h

theorem Scores.fits_add {sc : Scores} {size : Nat} (h : ∀ q ∈ sc.best, q ∈ l) (hp : p ∈ l) :
    ∀ q ∈ (sc.add p size).best, q ∈ l := by
  intro q hq
  unfold Scores.add at hq
  split at hq
  · simp only [] at hq
    split at hq
    · cases hq
      exact hp
    · exact h q hq
  · exact h q hq

theorem DequeuePhase.Moves.fits (hL : Listed c l) {ph ph' : DequeuePhase α} (h : ph.Moves c.shared s' ph')
    (hf : ph.Fits l) : ph'.Fits l := by
  cases h with
  | loadList => exact Scores.fits_loop (by simp) hL.mem_tail
  | sizeTail => exact hf
  | sizeHead => exact Scores.fits_loop (Scores.fits_add hf.2 hf.1) (hL.mem_next hf.1)
  | tryBest | tryOther => exact hf
  | bestFailed => trivial
  | bestTaken | otherTaken =>
    intro x hx
    cases hx
    exact hf
  | loadAgain => exact hL.mem_tail
  | exhausted =>
    intro x hx
    cases hx
  | skip => exact hL.mem_next (hf _ rfl)
  | visit => exact hf _ rfl
  | otherFailed => exact hL.mem_next hf

theorem Shared.find_some (h : s.find id = some p) : p < s.size ∧ (s.producers p).owner = id := by
  have h1 := List.mem_of_find?_eq_some h
  have h2 := List.find?_some h
  exact ⟨List.mem_range.mp h1, by simpa using h2⟩

theorem Shared.find_none (h : s.find id = none) (hp : p < s.size) : (s.producers p).owner ≠ id := by
  have := List.find?_eq_none.mp h p (List.mem_range.mpr hp)
  simpa using this

/-- The producer that a thread finds is on the list: nobody else pushes it, and the thread itself is not at it. -/
theorem Listed.mem_find (hL : Listed c l) (hC : Calls c) (hi : c.threads[i]? = some (.enqueue id a .find))
    (h : c.shared.find id = some p) : p ∈ l := by
  obtain ⟨hlt, ho⟩ := Shared.find_some h
  refine Classical.byContradiction fun hp => ?_
  have hpos : 0 < Family.total (Thread.pushing p) c.threads := by
    rw [hL.pushing, if_pos ⟨hlt, hp⟩]
    exact Nat.one_pos
  obtain ⟨u, hu, hpu⟩ := Family.exists_of_total_pos hpos
  obtain ⟨j, hj⟩ := List.mem_iff_getElem?.mp hu
  have hf := hL.fits u hu
  have key : ∀ (id' : Nat) (b : α) (ph : EnqueuePhase), u = .enqueue id' b ph → ph ≠ .returned →
      (c.shared.producers p).owner = id' → u = .enqueue id a .find := by
    intro id' b ph hu' hne ho'
    cases ho.symm.trans ho'
    have hij := hC.one hi (by simp) (hu' ▸ hj) hne
    rw [← hij, hi] at hj
    exact (Option.some.inj hj).symm
  have hfind : u = .enqueue id a .find := by
    cases u with
    | dequeue => simp [Thread.pushing] at hpu
    | enqueue id' b ph =>
      cases ph with
      | loadTail q | link q _ | exchange q _ =>
        simp only [Thread.pushing] at hpu
        split at hpu
        · next hq =>
          subst hq
          first
            | exact key _ _ _ rfl (by simp) hf
            | exact key _ _ _ rfl (by simp) hf.1
        · omega
      | _ => simp [Thread.pushing] at hpu
  rw [hfind] at hpu
  simp [Thread.pushing] at hpu

theorem pushing_of_ne {j : Nat} {u : Thread α} (hL : Listed c l) (hi : c.threads[i]? = some t) (hj : c.threads[j]? = some u)
    (hij : j ≠ i) (hp : 0 < t.pushing p) : u.pushing p = 0 := by
  have h2 := Family.le_total_of_ne (Thread.pushing p) hj hi hij
  rw [hL.pushing] at h2
  split at h2 <;> omega

theorem Listed.act (hL : Listed c l) (hC : Calls c) (hi : c.threads[i]? = some t) (h : Moves c.shared t s' t') :
    ∃ l', l <:+ l' ∧ Listed ⟨s', c.threads.set i t' ++ []⟩ l' := by
  have hf := hL.fits t (Family.mem_of_get hi)
  have hpush (q : Nat) := Family.total_set (Thread.pushing q) hi t'
  cases h with
  | dequeue h => exact ⟨l, List.suffix_rfl, hL.quiet hi h.sameList (fun _ => rfl) (h.fits hL hf)⟩
  | @enqueue id a ph ph' _ h =>
    cases h with
    | found hfind =>
      exact ⟨l, List.suffix_rfl, hL.quiet hi .refl (fun _ => rfl) ⟨hL.mem_find hC hi hfind, (Shared.find_some hfind).2⟩⟩
    | create hfind =>
      have hne : ∀ q, q < c.shared.size → (c.shared.create id).producers q = c.shared.producers q := fun q hq =>
        Function.update_of_ne (Nat.ne_of_lt hq) ..
      have hnew : ((c.shared.create id).producers c.shared.size).owner = id := by simp [Shared.create, Producer.new]
      refine ⟨l, List.suffix_rfl, ?_, fun q hq => (hL.made q hq).trans (Nat.lt_succ_self _), ?_, fun q => ?_, ?_⟩
      · exact hL.linked.congr fun q hq => by simp only [hne q (hL.made q hq)]
      · intro p q hp hq ho
        simp only [Shared.create] at hp hq
        rcases Nat.lt_succ_iff_lt_or_eq.mp hp with hp | rfl <;> rcases Nat.lt_succ_iff_lt_or_eq.mp hq with hq | rfl
        · exact hL.owners p q hp hq (by rwa [hne p hp, hne q hq] at ho)
        · rw [hne p hp, hnew] at ho
          exact absurd ho (Shared.find_none hfind hp)
        · rw [hne q hq, hnew] at ho
          exact absurd ho.symm (Shared.find_none hfind hq)
        · rfl
      · have := hpush q
        rw [hL.pushing] at this
        have hl : q ∈ l → q < c.shared.size := hL.made q
        simp only [Thread.pushing, List.append_nil, Shared.create] at this ⊢
        grind
      · refine Family.forall_step (fun x hx => (hL.fits x hx).mono (List.Subset.refl l) ?_ ?_) hnew (by simp)
        · rintro q (hq | hq)
          · rw [hne q (hL.made q hq)]
          · rw [hne q (hL.pushed hx hq).1]
        · intro q hq
          rw [hne q (hL.pushed hx hq).1]
    | loadTail => exact ⟨l, List.suffix_rfl, hL.quiet hi .refl (fun _ => rfl) hf⟩
    | retry => exact ⟨l, List.suffix_rfl, hL.quiet hi .refl (fun _ => rfl) hf.1⟩
    | @link p prev =>
      have hp := hL.pushed (p := p) (Family.mem_of_get hi) (by simp [Thread.pushing])
      have ho : ∀ q, ((c.shared.modify p fun x => { x with next := prev }).producers q).owner =
          (c.shared.producers q).owner := by
        intro q
        simp only [Shared.modify, Function.update_apply]
        split
        · next h => rw [h]
        · rfl
      have hn : ∀ q, q ≠ p → ((c.shared.modify p fun x => { x with next := prev }).producers q).next =
          (c.shared.producers q).next := by
        intro q hq
        simp only [Shared.modify, Function.update_of_ne hq]
      refine ⟨l, List.suffix_rfl, hL.linked.congr fun q hq => hn q fun e => hp.2 (e ▸ hq), hL.made, ?_, fun q => ?_,
        fun x hx => ?_⟩
      · intro q r hq hr h
        simp only [ho] at h
        exact hL.owners q r hq hr h
      · have := hpush q
        rw [hL.pushing] at this
        rw [List.append_nil]
        exact Nat.add_right_cancel this
      · rcases Family.step_cases hi hx with rfl | hnew | ⟨j, hj, hx⟩
        · exact ⟨(ho p).trans hf, by simp [Shared.modify]⟩
        · cases hnew
        · refine (hL.fits x (Family.mem_of_get hx)).mono (List.Subset.refl l) (fun q _ => ho q) fun q hq =>
            hn q fun heq => ?_
          rw [heq, pushing_of_ne hL hi hx hj (by simp [Thread.pushing])] at hq
          omega
    | @push p prev heq =>
      have hp := hL.pushed (p := p) (Family.mem_of_get hi) (by simp [Thread.pushing])
      have hlinked : Linked (fun q => (c.shared.producers q).next) (c.shared.producers p).next l := by
        rw [hf.2, ← heq]
        exact hL.linked
      refine ⟨p :: l, List.suffix_cons p l, ⟨rfl, hlinked⟩, ?_, hL.owners, fun q => ?_, ?_⟩
      · intro q hq
        rcases List.mem_cons.mp hq with rfl | hq
        · exact hp.1
        · exact hL.made q hq
      · have := hpush q
        rw [hL.pushing] at this
        simp only [Thread.pushing, List.append_nil, List.mem_cons] at this ⊢
        grind
      · refine Family.forall_step
          (fun x hx => (hL.fits x hx).mono (List.subset_cons_self p l) (fun _ _ => rfl) fun _ _ => rfl)
          ⟨List.mem_cons_self .., hf.1⟩ (by simp)
    | construct =>
      refine ⟨l, List.suffix_rfl, hL.quiet hi (.modify rfl rfl) (fun _ => rfl) ⟨hf.1, ?_⟩⟩
      rw [Shared.SameList.owner (.modify rfl rfl)]
      exact hf.2
    | publish =>
      have hs := Shared.SameList.modify (s := c.shared) (p := ‹Nat›)
          (f := fun x => { x with tailIndex := x.tailIndex + 1 }) rfl rfl
      exact ⟨l, List.suffix_rfl, hL.quiet hi ⟨hs.next, hs.owner, rfl, rfl⟩ (fun _ => rfl) trivial⟩

theorem Listed.call (hL : Listed c l) {e : Choice α} {new : List (Thread α)} (h : call c.shared e = some (s', new)) :
    Listed ⟨s', c.threads ++ new⟩ l := by
  have key : ∀ u : Thread α, (∀ p, u.pushing p = 0) → s'.producers = c.shared.producers → s'.size = c.shared.size →
      s'.producerListTail = c.shared.producerListTail → u.Fits s' l → Listed ⟨s', c.threads ++ [u]⟩ l := by
    intro u hu hs hsize htail hf
    have hp : ∀ p, Family.total (Thread.pushing p) (c.threads ++ [u]) = Family.total (Thread.pushing p) c.threads :=
      fun p => Family.total_append_zero _ (by simp [hu])
    refine ⟨?_, ?_, ?_, fun p => ?_, Family.forall_append (fun x hx => (hL.fits x hx).mono (List.Subset.refl l) ?_ ?_)
      (by simpa using hf)⟩
    · simpa only [hs, htail] using hL.linked
    · simpa only [hsize] using hL.made
    · simpa only [hs, hsize] using hL.owners
    · rw [hp, hL.pushing]
      simp only [hsize]
    · exact fun _ _ => by rw [hs]
    · exact fun _ _ => by rw [hs]
  cases e with
  | enqueue id a =>
    simp only [ConcurrentQueue.call, Option.ite_none_left_eq_some] at h
    obtain ⟨-, h⟩ := h
    cases h
    exact key _ (fun _ => rfl) rfl rfl rfl trivial
  | dequeue =>
    cases h
    exact key _ (fun _ => rfl) rfl rfl rfl trivial
  | step | spurious => cases h

theorem listed_initial : Listed (initial : Config (Shared α) (Thread α)) [] :=
  ⟨rfl, by simp, fun _ _ hp => absurd hp (Nat.not_lt_zero _), fun _ => by simp [initial], by simp [initial]⟩

theorem calls_initial : Calls (initial : Config (Shared α) (Thread α)) :=
  ⟨fun _ => by simp [initial], List.nodup_nil, fun _ _ _ _ _ _ _ _ h => by simp [initial] at h⟩

theorem run_listed {tr : List (Config (Shared α) (Thread α) × Label (Choice α))} (h : (concurrentQueue α).Run initial tr c) :
    Calls c ∧ ∃ l, Listed c l := by
  refine h.invariant_by (C := fun _ _ => True) (I := fun c => Calls c ∧ ∃ l, Listed c l)
    ⟨calls_initial, [], listed_initial⟩ ?_ ?_ Program.along_true
  · rintro c e s new ⟨hC, l, hL⟩ - hc
    exact ⟨hC.call hc, l, hL.call hc⟩
  · rintro c i e t s t' new ⟨hC, l, hL⟩ - ht ha
    obtain ⟨hm, rfl⟩ := act_moves ha
    obtain ⟨l', _, hL'⟩ := hL.act hC ht hm
    exact ⟨hC.act ht hm, l', hL'⟩

end

end Xdispatch.ConcurrentQueue
