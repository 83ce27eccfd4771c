import Xdispatch.BlockQueue.Blocks
import Xdispatch.Lib.Ownership

/-!
# Where the blocks are

Every block is in one place: in the free list, in an entry of some index, with the call that
fills an entry or gives the block back, or not made yet. A block that is in an index counts the
elements of it that have been taken, and holds the others.
-/

namespace Xdispatch.BlockQueue

open ConcurrentQueue (Attempt Calls Listed Balanced)
open Ownership (Placed)

variable {α : Type} {T : Traits}

def abs (c : Config (Shared α) (Thread α)) : Config (ConcurrentQueue.Shared α) (ConcurrentQueue.Thread α) :=
  ⟨c.shared.queue, c.threads.map (·.call)⟩

@[simp] theorem abs_shared (c : Config (Shared α) (Thread α)) : (abs c).shared = c.shared.queue := rfl

/-! ## The elements that have been counted -/

def Thread.counted (t : Thread α) : Bool :=
  match t.call, t.storage with
  | .dequeue (.returned _), .setEmpty .. => false
  | .dequeue (.returned _), _ => true
  | _, _ => false

def Thread.past (T : Traits) (p j : Nat) (t : Thread α) : Nat :=
  match t.call.on p with
  | some (.move i) => if t.counted ∧ i / T.blockSize = j then 1 else 0
  | _ => 0

/-- The elements of block `j` of producer `p` that have been taken out and counted. -/
def done (T : Traits) (c : Config (Shared α) (Thread α)) (p j : Nat) : Nat := Family.total (Thread.past T p j) c.threads

def Thread.countedAt (p i : Nat) (t : Thread α) : Nat := if t.call.on p = some (.move i) ∧ t.counted then 1 else 0

section
variable {c : Config (Shared α) (Thread α)} {s' : Shared α} {k p i j : Nat} {t t' : Thread α}

theorem past_of_on (h : t.call.on p = some (.move i)) :
    t.past T p j = if t.counted ∧ i / T.blockSize = j then 1 else 0 := by
  simp only [Thread.past, h]

theorem past_of_not_on (h : ∀ i, t.call.on p ≠ some (.move i)) : t.past T p j = 0 := by
  unfold Thread.past
  split
  next i hi => exact absurd hi (h i)
  next => rfl

/-- A block has `BLOCK_SIZE` places. -/
theorem past_eq (t : Thread α) (p j : Nat) :
    t.past T p j = Family.total (fun r => t.countedAt p (T.blockSize * j + r)) (List.range T.blockSize) := by
  by_cases hon : ∃ i, t.call.on p = some (.move i)
  · obtain ⟨i, hon⟩ := hon
    have hiff : ∀ m, t.countedAt p m = if i = m ∧ t.counted then 1 else 0 := fun m => by
      simp only [Thread.countedAt, hon, Option.some.injEq, Attempt.move.injEq]
    rw [past_of_on hon]
    have hdiv := Nat.div_add_mod i T.blockSize
    split
    next h =>
      obtain ⟨hc, rfl⟩ := h
      have hr := Nat.mod_lt i T.blockSize_pos
      rw [Family.total_eq_of_others (i := i % T.blockSize) (a := i % T.blockSize)]
      · rw [hiff, hdiv, if_pos ⟨rfl, hc⟩]
      · rw [List.getElem?_range hr]
      · intro r x hne hx
        obtain ⟨hx, rfl⟩ := List.getElem?_eq_some_iff.mp hx
        rw [List.getElem_range, hiff]
        exact if_neg fun h => hne (by omega)
    next h =>
      symm
      refine Family.total_eq_zero.mpr fun r hr => ?_
      rw [hiff]
      refine if_neg fun hi => h ⟨hi.2, ?_⟩
      rw [hi.1, Nat.mul_add_div T.blockSize_pos, Nat.div_eq_of_lt (List.mem_range.mp hr), Nat.add_zero]
  · have h0 : ∀ i, t.call.on p ≠ some (.move i) := fun i hi => hon ⟨i, hi⟩
    rw [past_of_not_on h0]
    exact (Family.total_eq_zero.mpr fun r _ => if_neg fun h => h0 _ h.1).symm

theorem done_eq (c : Config (Shared α) (Thread α)) (p j : Nat) : done T c p j =
    Family.total (fun r => Family.total (Thread.countedAt p (T.blockSize * j + r)) c.threads) (List.range T.blockSize) := by
  rw [← Family.total_comm]
  exact Family.total_congr fun t _ => past_eq t p j

/-- An index is taken once. -/
theorem countedAt_le (hB : Balanced (abs c) p) (i : Nat) : Family.total (Thread.countedAt p i) c.threads +
    Family.total (fun t : Thread α => if t.call.on p = some (.move i) ∧ ¬ t.counted then 1 else 0) c.threads ≤ 1 := by
  have h := hB.taken i
  have hle : ConcurrentQueue.calls (Attempt.takes i) p (abs c) ≤ 1 := by
    rw [h]
    split <;> omega
  refine Nat.le_trans ?_ hle
  rw [← Family.total_add]
  unfold ConcurrentQueue.calls
  rw [show (abs c).threads = c.threads.map (·.call) from rfl, Family.total, Family.total, List.map_map]
  refine Family.total_le_total fun t _ => ?_
  simp only [Function.comp, Thread.countedAt]
  by_cases hon : t.call.on p = some (.move i)
  · rw [ConcurrentQueue.weight_some hon]
    cases t.counted <;> simp [hon, Attempt.takes]
  · simp [hon]

theorem total_const (l : List Nat) : Family.total (fun _ => 1) l = l.length := by
  simp [Family.total]

theorem mem_block (i : Nat) : i % T.blockSize ∈ List.range T.blockSize :=
  List.mem_range.mpr (Nat.mod_lt i T.blockSize_pos)

theorem done_lt_of (hB : Balanced (abs c) p) (h : Family.total (Thread.countedAt p i) c.threads = 0) :
    done T c p (i / T.blockSize) < T.blockSize := by
  rw [done_eq]
  calc _ < Family.total (fun _ => 1) (List.range T.blockSize) := by
        refine Family.total_lt_total (fun r _ => ?_) (mem_block i) ?_
        · have := countedAt_le hB (T.blockSize * (i / T.blockSize) + r)
          omega
        · rw [Nat.div_add_mod, h]
          exact Nat.one_pos
    _ = T.blockSize := by rw [total_const, List.length_range]

/-- A block from which a call has still to take its element. -/
theorem done_lt (hB : Balanced (abs c) p) (ht : t ∈ c.threads) (hon : t.call.on p = some (.move i)) (hc : ¬ t.counted) :
    done T c p (i / T.blockSize) < T.blockSize := by
  have h1 := countedAt_le hB i
  have h2 := Family.le_total (fun t : Thread α => if t.call.on p = some (.move i) ∧ ¬ t.counted then 1 else 0) ht
  rw [if_pos ⟨hon, hc⟩] at h2
  exact done_lt_of hB (by omega)

/-- Of a block that has been counted to the end, all elements have been taken. -/
theorem exists_counted (hB : Balanced (abs c) p) (hd : done T c p (i / T.blockSize) = T.blockSize) :
    ∃ t ∈ c.threads, t.call.on p = some (.move i) ∧ t.counted := by
  have hpos : 0 < Family.total (Thread.countedAt p i) c.threads := by
    refine Nat.pos_of_ne_zero fun h => ?_
    have := done_lt_of (T := T) hB h
    omega
  obtain ⟨t, ht, h⟩ := Family.exists_of_total_pos hpos
  unfold Thread.countedAt at h
  split at h
  next hc => exact ⟨t, ht, hc⟩
  next => omega

theorem Balanced.lt_length (hB : Balanced (abs c) p) (ht : t ∈ c.threads) (hon : t.call.on p = some (.move i)) :
    i < (c.shared.queue.producers p).elements.length := by
  have h1 := hB.slot (List.mem_map_of_mem (f := (·.call)) ht) hon
  have h2 := hB.head_le
  have h3 := hB.slots
  rw [abs_shared] at h1 h2 h3
  omega

/-- Nothing has been counted of a block that has no elements yet. -/
theorem done_zero (hB : Balanced (abs c) p) (hj : (c.shared.queue.producers p).elements.length ≤ T.blockSize * j) :
    done T c p j = 0 := by
  refine Family.total_eq_zero.mpr fun t ht => ?_
  by_cases hon : ∃ i, t.call.on p = some (.move i)
  · obtain ⟨i, hon⟩ := hon
    rw [past_of_on hon]
    refine if_neg fun h => ?_
    have h1 := Balanced.lt_length hB ht hon
    have h2 := Nat.mul_div_le i T.blockSize
    rw [h.2] at h2
    omega
  · exact past_of_not_on fun i hi => hon ⟨i, hi⟩

end

/-! ## The invariant -/

/-- Where the call is that puts an element into producer `p`, if there is one. -/
structure Phase (c : Config (Shared α) (Thread α)) (p : Nat) (st : Storage) : Prop where
  same : ∀ t ∈ c.threads, Puts p t.call → t.storage = st
  idle : (∀ t ∈ c.threads, ¬ Puts p t.call) → st = .idle

def Moved (c : Config (Shared α) (Thread α)) (p i : Nat) : Prop := ∃ t ∈ c.threads, Taken p i t.call

/-- Block `b` is block `j` of producer `p`. -/
structure Contains (T : Traits) (c : Config (Shared α) (Thread α)) (p j b : Nat) : Prop where
  counted : c.shared.elementsCompletelyDequeued b = done T c p j
  holds : ∀ i, i / T.blockSize = j → ¬ Moved c p i →
    c.shared.slots b (i % T.blockSize) = (c.shared.queue.producers p).elements[i]?
  gone : ∀ i, i / T.blockSize = j → Moved c p i → c.shared.slots b (i % T.blockSize) = none

inductive Place where
  | unmade
  | free
  | call (k : Nat)
  | entry (p e : Nat)

def Storage.holds : Storage → Option Nat
  | .reset _ b | .storeValue _ b | .free b => some b
  | _ => none

def lies (c : Config (Shared α) (Thread α)) : Place → Nat → Prop
  | .unmade, b => c.shared.blocks ≤ b
  | .free, b => b ∈ c.shared.freeList
  | .call k, b => ∃ t, c.threads[k]? = some t ∧ t.storage.holds = some b
  | .entry p e, b => (c.shared.indices p).value e = some b

/-- A block that is in no index. -/
def Outside (c : Config (Shared α) (Thread α)) (b : Nat) : Prop := ∃ x, lies c x b ∧ ∀ p e, x ≠ .entry p e

def Thread.Clears (p e : Nat) (t : Thread α) : Prop := ∃ i b, t.call.on p = some (.move i) ∧ t.storage = .clear e b

structure Inv (T : Traits) (c : Config (Shared α) (Thread α)) : Prop where
  calls : Calls (abs c)
  listed : ∃ l, Listed (abs c) l
  balanced : ∀ p, Balanced (abs c) p
  unmade : ∀ p, c.shared.queue.size ≤ p → (c.shared.queue.producers p).elements = []
  indexed : ∀ p, ∃ n u st, (c.shared.indices p).Indexed T (c.shared.queue.producers p).elements.length (done T c p) n u st ∧
    Phase c p st
  looks : ∀ t ∈ c.threads, ∀ p i, t.call.on p = some (.move i) →
    (c.shared.indices p).Looks T (done T c p) t.counted i t.storage
  contents : ∀ p e b j, (c.shared.indices p).value e = some b → (c.shared.indices p).key e = T.blockSize * j →
    Contains T c p j b
  reset : ∀ t ∈ c.threads, ∀ e b, t.storage = .storeValue e b → c.shared.elementsCompletelyDequeued b = 0
  nodup : c.shared.freeList.Nodup
  placed : Placed (lies c)
  blank : ∀ b, Outside c b → ∀ r, r < T.blockSize → c.shared.slots b r = none
  alone : ∀ (k k' : Nat) (t t' : Thread α) (p e : Nat), c.threads[k]? = some t → c.threads[k']? = some t' → t.Clears p e →
    t'.Clears p e → k = k'

section
variable {c : Config (Shared α) (Thread α)} {s' : Shared α} {k p i j : Nat} {t t' : Thread α}

/-- A producer has one owner. -/
theorem puts_alone (hC : Calls (abs c)) (hL : ∃ l, Listed (abs c) l) (ht : c.threads[k]? = some t) (hp : Puts p t.call)
    {k' : Nat} {u : Thread α} (hu : c.threads[k']? = some u) (hp' : Puts p u.call) : k = k' := by
  obtain ⟨l, hL⟩ := hL
  have get : ∀ {m : Nat} {v : Thread α}, c.threads[m]? = some v → (abs c).threads[m]? = some v.call := fun h => by
    simp [abs, h]
  have h1 := get ht
  have h2 := get hu
  have f1 := hL.fits _ (Family.mem_of_get h1)
  have f2 := hL.fits _ (Family.mem_of_get h2)
  obtain ⟨call, st⟩ := t
  obtain ⟨call', st'⟩ := u
  cases hp
  cases hp'
  cases f1.2.symm.trans f2.2
  exact hC.one h1 (by simp) h2 (by simp)

theorem Phase.at {st : Storage} (hP : Phase c p st) (ht : c.threads[k]? = some t) (hp : Puts p t.call) : st = t.storage :=
  (hP.same t (Family.mem_of_get ht) hp).symm

theorem Phase.keep {st : Storage} (hP : Phase c p st) (ht : c.threads[k]? = some t) (hp : ¬ Puts p t.call)
    (hp' : ¬ Puts p t'.call) : Phase ⟨s', c.threads.set k t' ++ []⟩ p st := by
  refine ⟨fun u hu hpu => ?_, fun h => hP.idle fun u hu hpu => ?_⟩
  · rcases Family.step_cases ht hu with rfl | hnew | ⟨m, -, hm⟩
    · exact absurd hpu hp'
    · cases hnew
    · exact hP.same u (Family.mem_of_get hm) hpu
  · exact h u (Family.mem_step_of_ne ht hu (fun he => hp (he ▸ hpu)) t' []) hpu

theorem phase_put (t' : Thread α) (ht : c.threads[k]? = some t) (hp' : Puts p t'.call)
    (halone : ∀ (m : Nat) (u : Thread α), m ≠ k → c.threads[m]? = some u → ¬ Puts p u.call) :
    Phase ⟨s', c.threads.set k t' ++ []⟩ p t'.storage := by
  refine ⟨fun u hu hpu => ?_, fun h => absurd hp' (h _ (Family.mem_step_self ht t' []))⟩
  rcases Family.step_cases ht hu with rfl | hnew | ⟨m, hm, hu⟩
  · rfl
  · cases hnew
  · exact absurd hpu (halone m u hm hu)

theorem phase_leave (ht : c.threads[k]? = some t) (hp' : ¬ Puts p t'.call)
    (halone : ∀ (m : Nat) (u : Thread α), m ≠ k → c.threads[m]? = some u → ¬ Puts p u.call) :
    Phase ⟨s', c.threads.set k t' ++ []⟩ p .idle := by
  refine ⟨fun u hu hpu => ?_, fun _ => rfl⟩
  rcases Family.step_cases ht hu with rfl | hnew | ⟨m, hm, hu⟩
  · exact absurd hpu hp'
  · cases hnew
  · exact absurd hpu (halone m u hm hu)

theorem Inv.others (hI : Inv T c) (ht : c.threads[k]? = some t) (hp : Puts p t.call) (m : Nat) (u : Thread α) (hm : m ≠ k)
    (hu : c.threads[m]? = some u) : ¬ Puts p u.call := fun hpu =>
  hm (puts_alone hI.calls hI.listed hu hpu ht hp)

theorem past_congr (hcall : t'.call = t.call) (hc : t'.counted = t.counted) : t'.past T p j = t.past T p j := by
  simp only [Thread.past, hcall, hc]

theorem done_same (ht : c.threads[k]? = some t) (h : t'.past T p j = t.past T p j) :
    done T ⟨s', c.threads.set k t' ++ []⟩ p j = done T c p j := by
  have := Family.total_set (Thread.past T p j) ht t'
  simp only [done, List.append_nil]
  omega

/-- A call that has still to count its element, or clears the entry, has its block in the index. -/
theorem Inv.live (hI : Inv T c) (ht : t ∈ c.threads) (hon : t.call.on p = some (.move i))
    (h : ¬ t.counted ∨ ∃ e b, t.storage = .clear e b) : (c.shared.indices p).Live T (i / T.blockSize) := by
  obtain ⟨n, u, st, hX, -⟩ := hI.indexed p
  rcases h with hc | ⟨e, b, hst⟩
  · obtain ⟨-, -, hk, b, hv⟩ := hX.live (Balanced.lt_length (hI.balanced p) ht hon) (done_lt (hI.balanced p) ht hon hc)
    exact ⟨_, b, hk, hv⟩
  · have hL := hI.looks t ht p i hon
    rw [hst] at hL
    exact ⟨e, b, hL.1, hL.2.1⟩

/-! ## One part after the other -/

theorem Inv.looks_step (hI : Inv T c) (ht : c.threads[k]? = some t)
    (hnew : ∀ q i, t'.call.on q = some (.move i) →
      (s'.indices q).Looks T (done T ⟨s', c.threads.set k t' ++ []⟩ q) t'.counted i t'.storage)
    (hkept : ∀ (m : Nat) (u : Thread α) (q i : Nat), m ≠ k → c.threads[m]? = some u → u.call.on q = some (.move i) →
      ¬ u.counted ∨ (∃ e b, u.storage = .clear e b) → (c.shared.indices q).Kept T (s'.indices q) (i / T.blockSize))
    (hd : ∀ q j, done T c q j = T.blockSize → done T ⟨s', c.threads.set k t' ++ []⟩ q j = T.blockSize) :
    ∀ u ∈ c.threads.set k t' ++ [], ∀ q i, u.call.on q = some (.move i) →
      (s'.indices q).Looks T (done T ⟨s', c.threads.set k t' ++ []⟩ q) u.counted i u.storage := by
  intro u hu q i hon
  rcases Family.step_cases ht hu with rfl | hnil | ⟨m, hm, hu⟩
  · exact hnew q i hon
  · cases hnil
  · exact (hI.looks u (Family.mem_of_get hu) q i hon).kept (fun h => hkept m u q i hm hu hon h) (hd q _)

theorem moved_step (ht : c.threads[k]? = some t) (h : ∀ p i, Taken p i t'.call ↔ Taken p i t.call) :
    Moved ⟨s', c.threads.set k t' ++ []⟩ p i ↔ Moved c p i := by
  constructor
  · intro hm
    obtain ⟨u, hu, hi⟩ := hm
    rcases Family.step_cases ht hu with rfl | hnil | ⟨m, -, hm⟩
    · exact ⟨t, Family.mem_of_get ht, (h p i).mp hi⟩
    · cases hnil
    · exact ⟨u, Family.mem_of_get hm, hi⟩
  · intro hm
    obtain ⟨u, hu, hi⟩ := hm
    by_cases hut : u = t
    · subst hut
      exact ⟨t', Family.mem_step_self ht t' [], (h p i).mpr hi⟩
    · exact ⟨u, Family.mem_step_of_ne ht hu hut t' [], hi⟩

theorem moved_works (ht : c.threads[k]? = some t) {st : Storage} :
    Moved ⟨s', c.threads.set k ⟨t.call, st⟩ ++ []⟩ p i ↔ Moved c p i :=
  moved_step ht fun _ _ => Iff.rfl

/-- A step that leaves the blocks of the indices as they are. -/
theorem Inv.contents_step (hI : Inv T c) (ht : c.threads[k]? = some t) (htaken : ∀ p i, Taken p i t'.call ↔ Taken p i t.call)
    (hels : ∀ q, (s'.queue.producers q).elements = (c.shared.queue.producers q).elements)
    (hd : ∀ q j, done T ⟨s', c.threads.set k t' ++ []⟩ q j = done T c q j)
    (hval : ∀ q e b, (s'.indices q).value e = some b → (c.shared.indices q).value e = some b ∧
      (s'.indices q).key e = (c.shared.indices q).key e)
    (hb : ∀ q e b, (c.shared.indices q).value e = some b →
      s'.elementsCompletelyDequeued b = c.shared.elementsCompletelyDequeued b ∧ s'.slots b = c.shared.slots b)
    (q e b j : Nat) (hv : (s'.indices q).value e = some b) (hk : (s'.indices q).key e = T.blockSize * j) :
    Contains T ⟨s', c.threads.set k t' ++ []⟩ q j b := by
  obtain ⟨hv, hkey⟩ := hval q e b hv
  obtain ⟨hdeq, hslots⟩ := hb q e b hv
  have hC := hI.contents q e b j hv (hkey ▸ hk)
  refine ⟨hdeq.trans (hC.counted.trans (hd q j).symm), fun i hi hm => ?_, fun i hi hm => ?_⟩
  · simp only [hels]
    rw [hslots]
    exact hC.holds i hi ((not_congr (moved_step ht htaken)).mp hm)
  · simp only [hslots]
    exact hC.gone i hi ((moved_step ht htaken).mp hm)

theorem Inv.reset_step (hI : Inv T c) (ht : c.threads[k]? = some t)
    (hnew : ∀ e b, t'.storage = .storeValue e b → s'.elementsCompletelyDequeued b = 0)
    (hb : ∀ (m : Nat) (b : Nat), m ≠ k → lies c (.call m) b →
      s'.elementsCompletelyDequeued b = c.shared.elementsCompletelyDequeued b) :
    ∀ u ∈ c.threads.set k t' ++ [], ∀ e b, u.storage = .storeValue e b → s'.elementsCompletelyDequeued b = 0 := by
  intro u hu e b hst
  rcases Family.step_cases ht hu with rfl | hnil | ⟨m, hm, hu⟩
  · exact hnew e b hst
  · cases hnil
  · rw [hb m b hm ⟨u, hu, by rw [hst]; rfl⟩]
    exact hI.reset u (Family.mem_of_get hu) e b hst

theorem Inv.alone_step (hI : Inv T c) (ht : c.threads[k]? = some t)
    (h : ∀ p e, t'.Clears p e → ∀ (m : Nat) (u : Thread α), m ≠ k → c.threads[m]? = some u → ¬ u.Clears p e) :
    ∀ (m m' : Nat) (u u' : Thread α) (p e : Nat), (c.threads.set k t' ++ [])[m]? = some u →
      (c.threads.set k t' ++ [])[m']? = some u' → u.Clears p e → u'.Clears p e → m = m' := by
  intro m m' u u' p e hm hm' hu hu'
  rcases Family.get_cases hm with ⟨rfl, rfl⟩ | ⟨hne, h1⟩ | ⟨_, _, hnil⟩
  · rcases Family.get_cases hm' with ⟨rfl, rfl⟩ | ⟨hne', h2⟩ | ⟨_, _, hnil⟩
    · rfl
    · exact absurd hu' (h p e hu m' u' hne' h2)
    · cases hnil
  · rcases Family.get_cases hm' with ⟨rfl, rfl⟩ | ⟨-, h2⟩ | ⟨_, _, hnil⟩
    · exact absurd hu (h p e hu' m u hne h1)
    · exact hI.alone m m' u u' p e h1 h2 hu hu'
    · cases hnil
  · cases hnil

/-! ## Where a block goes -/

theorem lies_call (ht : c.threads[k]? = some t) (b : Nat) : lies c (.call k) b ↔ t.storage.holds = some b := by
  simp [lies, ht]

theorem lies_call_step (ht : c.threads[k]? = some t) (b : Nat) :
    lies ⟨s', c.threads.set k t' ++ []⟩ (.call k) b ↔ t'.storage.holds = some b := by
  simp only [lies, Family.get_step ht t' [], Option.some.injEq, exists_eq_left']

theorem lies_call_other {m : Nat} (hm : m ≠ k) (b : Nat) :
    lies ⟨s', c.threads.set k t' ++ []⟩ (.call m) b ↔ lies c (.call m) b := by
  simp [lies, List.getElem?_set_ne (Ne.symm hm)]

theorem lies_same (s' : Shared α) (t' : Thread α) (ht : c.threads[k]? = some t) (hblocks : s'.blocks = c.shared.blocks)
    (hfree : s'.freeList = c.shared.freeList) (hval : ∀ q e, (s'.indices q).value e = (c.shared.indices q).value e)
    (hst : t'.storage.holds = t.storage.holds)
    (x : Place) (b : Nat) : lies ⟨s', c.threads.set k t' ++ []⟩ x b ↔ lies c x b := by
  cases x with
  | unmade => simp only [lies, hblocks]
  | free => simp only [lies, hfree]
  | call m =>
    by_cases hm : m = k
    · subst hm
      rw [lies_call_step ht, lies_call ht, hst]
    · exact lies_call_other hm b
  | entry q e => simp only [lies, hval]

theorem Inv.blank_step (hI : Inv T c) (hslots : s'.slots = c.shared.slots) {ts : List (Thread α)}
    (h : ∀ b, Outside ⟨s', ts⟩ b → Outside c b) (b : Nat) (hb : Outside ⟨s', ts⟩ b) (r : Nat) (hr : r < T.blockSize) :
    s'.slots b r = none := by
  rw [hslots]
  exact hI.blank b (h b hb) r hr

theorem outside_congr {c' : Config (Shared α) (Thread α)} (h : ∀ x b, lies c' x b ↔ lies c x b) (b : Nat)
    (hb : Outside c' b) : Outside c b := by
  obtain ⟨x, hx, hne⟩ := hb
  exact ⟨x, (h x b).mp hx, hne⟩

theorem Inv.not_outside (hI : Inv T c) {e b : Nat} (hv : (c.shared.indices p).value e = some b) : ¬ Outside c b := by
  rintro ⟨x, hx, hne⟩
  exact hne p e (hI.placed.alone x (.entry p e) b hx hv)

end

end Xdispatch.BlockQueue
