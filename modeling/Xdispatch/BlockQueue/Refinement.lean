import Xdispatch.BlockQueue.Invariant

/-!
# The block queue is the queue

What a call does in its blocks the queue does not see, and the element that it finds in a block
is the one that the queue has at its index. So every run with blocks is a run of the queue.
-/

namespace Xdispatch.BlockQueue

open ConcurrentQueue (Calls Listed Balanced concurrentQueue)
open Ownership (Placed)
open Index

variable {α : Type} {T : Traits}

def Thread.inStorage (t : Thread α) : Bool :=
  match t.call, t.storage with
  | .enqueue _ _ (.construct _), .construct => false
  | .enqueue _ _ (.construct _), _ => true
  | .dequeue (.tryBest _ (.move _)), .move .. | .dequeue (.tryOther _ _ (.move _)), .move .. => false
  | .dequeue (.tryBest _ (.move _)), _ | .dequeue (.tryOther _ _ (.move _)), _ => true
  | .dequeue (.returned (some _)), _ => true
  | _, _ => false

/-- The step that the queue takes, if it takes one. -/
def label (c : Config (Shared α) (Thread α)) : Label (Choice α) → Option (Label (ConcurrentQueue.Choice α))
  | .call (.queue e) => some (.call e)
  | .act k (.queue e) => c.threads[k]?.bind fun t => if t.inStorage then none else some (.act k e)
  | _ => none

section
variable {c c' : Config (Shared α) (Thread α)} {s s' : Shared α} {k p i : Nat} {t t' : Thread α} {st : Storage}

theorem Works.inStorage (hw : Works T s t.call t.storage s' st) : t.inStorage = true := by
  obtain ⟨call, st₀⟩ := t
  cases hw with
  | begin h | within h | room h | full h | grow h | storeKey h | storeTail h | make h | reuse h | reset h | storeValue h =>
    cases h
    rfl
  | loadIndex h | loadTail h | loadKey h | loadValue h =>
    cases h <;> rfl
  | setEmpty h | last h | clear h | free h =>
    cases h
    rfl

theorem Apart.not_inStorage {call : ConcurrentQueue.Thread α} (h : Apart call) (st : Storage) :
    (⟨call, st⟩ : Thread α).inStorage = false := by
  cases call with
  | enqueue id a ph =>
    cases ph with
    | construct p => exact absurd .intro (h.puts p)
    | _ => rfl
  | dequeue ph =>
    cases ph with
    | tryBest p b =>
      cases b with
      | move i => exact absurd .best (h.takes p i)
      | _ => rfl
    | tryOther best p b =>
      cases b with
      | move i => exact absurd .other (h.takes p i)
      | _ => rfl
    | returned r =>
      cases r with
      | some r => exact absurd .intro (h.taken r.1 r.2.1)
      | none => rfl
    | _ => rfl

theorem Works.queue {call : ConcurrentQueue.Thread α} {st₀ : Storage} (hw : Works T s call st₀ s' st) :
    s'.queue = s.queue := by
  cases hw <;> rfl

theorem label_works (ht : c.threads[k]? = some t) (hw : t.inStorage = true) (e : Choice α) : label c (.act k e) = none := by
  cases e with
  | queue e => simp [label, ht, hw]
  | requisition b => rfl

theorem label_queue (ht : c.threads[k]? = some t) (hw : t.inStorage = false) (e : ConcurrentQueue.Choice α) :
    label c (.act k (.queue e)) = some (.act k e) := by
  simp [label, ht, hw]

theorem abs_next {e : ConcurrentQueue.Choice α} (ht : c.threads[k]? = some t)
    (ha : ConcurrentQueue.act c.shared.queue t.call e = some (s'.queue, t'.call, [])) :
    (concurrentQueue α).next (abs c) (.act k e) = some (abs ⟨s', c.threads.set k t' ++ []⟩) := by
  rw [abs_step]
  exact Program.act_next (P := concurrentQueue α) (abs_get ht) ha

theorem Takes.act {q : ConcurrentQueue.Shared α} {call : ConcurrentQueue.Thread α} (h : Takes p i call) :
    ConcurrentQueue.act q call .step = some (q, .dequeue (.returned (some (p, i, (q.producers p).elements[i]?))), []) := by
  cases h <;> rfl

/-- A step with its blocks is a step of the queue, or none. -/
theorem Inv.act (hI : Inv T c) {e : Choice α} {new : List (Thread α)} (ht : c.threads[k]? = some t)
    (ha : act T c.shared t e = some (s', t', new)) : Inv T ⟨s', c.threads.set k t' ++ new⟩ ∧
      (concurrentQueue α).Follows (abs c) (abs ⟨s', c.threads.set k t' ++ new⟩) (label c (.act k e)) := by
  obtain ⟨hs, rfl⟩ := act_step ha
  cases hs with
  | works hw =>
    refine ⟨hI.works ht hw, ?_⟩
    rw [label_works ht hw.inStorage]
    exact abs_same _ ht rfl hw.queue
  | @pass e' q call hapart hst he hq =>
    subst he
    have hw : t.inStorage = false := hapart.not_inStorage t.storage
    refine ⟨hI.pass ht hapart hst (ConcurrentQueue.act_moves hq).1, ?_⟩
    rw [label_queue ht hw]
    exact abs_next ht hq
  | construct hcall hst he hb =>
    subst he
    have hw : t.inStorage = false := by
      simp only [Thread.inStorage, hcall, hst]
    refine ⟨hI.construct ht hcall hst hb, ?_⟩
    rw [label_queue ht hw]
    refine abs_next ht ?_
    rw [hcall]
    rfl
  | move hi hst he =>
    subst he
    have hw : t.inStorage = false := by
      obtain ⟨call, st⟩ := t
      cases hst
      cases hi <;> rfl
    refine ⟨hI.move ht hi hst, ?_⟩
    rw [label_queue ht hw]
    refine abs_next ht ?_
    rw [hI.slot ht hi hst]
    exact hi.act

/-- A call that has just begun has nothing to do with the blocks. -/
theorem call_new {e : ConcurrentQueue.Choice α} {q : ConcurrentQueue.Shared α} {new : List (ConcurrentQueue.Thread α)}
    (h : ConcurrentQueue.call s.queue e = some (q, new)) : q.producers = s.queue.producers ∧ q.size = s.queue.size ∧
      ∀ u ∈ new, Apart u := by
  cases e with
  | enqueue id a =>
    simp only [ConcurrentQueue.call, Option.ite_none_left_eq_some] at h
    obtain ⟨-, h⟩ := h
    cases h
    refine ⟨rfl, rfl, fun u hu => ?_⟩
    cases List.mem_singleton.mp hu
    exact ⟨fun _ h => (by cases h), fun _ _ h => (by cases h), fun _ _ h => (by cases h)⟩
  | dequeue =>
    cases h
    refine ⟨rfl, rfl, fun u hu => ?_⟩
    cases List.mem_singleton.mp hu
    exact ⟨fun _ h => (by cases h), fun _ _ h => (by cases h), fun _ _ h => (by cases h)⟩
  | step | spurious => cases h

theorem Inv.call (hI : Inv T c) {e : Choice α} {new : List (Thread α)} (h : call c.shared e = some (s', new)) :
    Inv T ⟨s', c.threads ++ new⟩ ∧ (concurrentQueue α).Follows (abs c) (abs ⟨s', c.threads ++ new⟩) (label c (.call e)) := by
  cases e with
  | requisition b => cases h
  | queue e =>
    simp only [BlockQueue.call, Option.map_eq_some_iff, Prod.mk.injEq] at h
    obtain ⟨⟨q, us⟩, h, rfl, rfl⟩ := h
    obtain ⟨hq, hsize, hnew⟩ := call_new h
    generalize hn : us.map (fun u => (⟨u, .idle⟩ : Thread α)) = new
    have hnew : ∀ u ∈ new, Apart u.call ∧ u.storage = .idle := by
      intro u hu
      rw [← hn] at hu
      obtain ⟨v, hv, rfl⟩ := List.mem_map.mp hu
      exact ⟨hnew v hv, rfl⟩
    have habs : abs ⟨{ c.shared with queue := q }, c.threads ++ new⟩ = ⟨q, (abs c).threads ++ us⟩ := by
      simp [abs, ← hn, Function.comp_def]
    have hd : ∀ p, done T ⟨{ c.shared with queue := q }, c.threads ++ new⟩ p = done T c p := fun p => funext fun j =>
      Family.total_append_zero _ fun u hu => past_of_not_on fun i => (hnew u hu).1.not_on
    have hlies : ∀ x b, lies ⟨{ c.shared with queue := q }, c.threads ++ new⟩ x b ↔ lies c x b := by
      intro x b
      cases x with
      | call k =>
        constructor
        · rintro ⟨u, hu, hb⟩
          rcases Nat.lt_or_ge k c.threads.length with hk | hk
          · exact ⟨u, by rwa [List.getElem?_append_left hk] at hu, hb⟩
          · rw [List.getElem?_append_right hk] at hu
            rw [(hnew u (List.mem_of_getElem? hu)).2] at hb
            cases hb
        · rintro ⟨u, hu, hb⟩
          exact ⟨u, Family.get_append hu new, hb⟩
      | _ => exact Iff.rfl
    have hmoved : ∀ {p i}, Moved ⟨{ c.shared with queue := q }, c.threads ++ new⟩ p i ↔ Moved c p i := by
      intro p i
      constructor
      · rintro ⟨u, hu, hi⟩
        rcases List.mem_append.mp hu with hu | hu
        · exact ⟨u, hu, hi⟩
        · exact absurd hi ((hnew u hu).1.taken p i)
      · rintro ⟨u, hu, hi⟩
        exact ⟨u, List.mem_append_left _ hu, hi⟩
    refine ⟨⟨?_, ?_, fun p => ?_, ?_, fun p => ?_, ?_, fun p e b j hv hk => ?_, ?_, hI.nodup, hI.placed.congr hlies,
      hI.blank_step (by rfl) (outside_congr hlies), ?_⟩, ?_⟩
    · rw [habs]
      exact hI.calls.call h
    · obtain ⟨l, hL⟩ := hI.listed
      rw [habs]
      exact ⟨l, hL.call h⟩
    · rw [habs]
      exact (hI.balanced p).call h
    · simp only [hq, hsize]
      exact hI.unmade
    · obtain ⟨n, u, st, hX, hP⟩ := hI.indexed p
      simp only [hd, hq]
      refine ⟨n, u, st, hX, fun t ht hp => ?_, fun h => hP.idle fun t ht => h t (List.mem_append_left _ ht)⟩
      rcases List.mem_append.mp ht with ht | ht
      · exact hP.same t ht hp
      · exact absurd hp ((hnew t ht).1.puts p)
    · refine Family.forall_append (fun t ht p i hon => ?_) fun t ht p i hon => absurd hon (hnew t ht).1.not_on
      rw [hd]
      exact hI.looks t ht p i hon
    · have hC := hI.contents p e b j hv hk
      refine ⟨?_, fun i hi hm => ?_, fun i hi hm => hC.gone i hi (hmoved.mp hm)⟩
      · rw [hd]
        exact hC.counted
      · simp only [hq]
        exact hC.holds i hi ((not_congr hmoved).mp hm)
    · refine Family.forall_append hI.reset fun t ht e b hst => ?_
      rw [(hnew t ht).2] at hst
      cases hst
    · intro m m' u u' p e hm hm' hu hu'
      have hold : ∀ {m : Nat} {u : Thread α}, (c.threads ++ new)[m]? = some u → u.Clears p e → c.threads[m]? = some u := by
        intro m u hm hu
        rcases Nat.lt_or_ge m c.threads.length with hlt | hge
        · rwa [List.getElem?_append_left hlt] at hm
        · rw [List.getElem?_append_right hge] at hm
          obtain ⟨_, _, -, hst⟩ := hu
          rw [(hnew u (List.mem_of_getElem? hm)).2] at hst
          cases hst
      exact hI.alone m m' u u' p e (hold hm hu) (hold hm' hu') hu hu'
    · rw [habs]
      simp only [label, Program.Follows, Program.next, concurrentQueue, abs_shared, h, Option.map_some]

/-! ## The beginning -/

theorem ring_new (T : Traits) : (Index.new T).Ring T 0 0 := by
  have htwo : 2 ≤ T.indexSize := by
    unfold Traits.indexSize
    calc 2 = 2 ^ 1 := rfl
      _ ≤ 2 ^ T.indexBits := Nat.pow_le_pow_right (by omega) T.index_pos
  refine ⟨htwo, T.indexSize_dvd, rfl, ?_, by omega, fun d hd => absurd hd (Nat.not_lt_zero d), fun _ _ _ => Or.inl rfl,
    fun _ _ _ _ h => h, fun e => ?_, fun _ _ => rfl, fun h hh => absurd hh (Nat.not_lt_zero h)⟩
  · change T.indexSize - 1 < T.indexSize
    omega
  · exact ⟨fun h => ⟨e, h, rfl⟩, fun ⟨q, hq, he⟩ => he ▸ hq⟩

theorem inv_initial : Inv T (initial T : Config (Shared α) (Thread α)) := by
  have hd : ∀ p, done T (initial T : Config (Shared α) (Thread α)) p = fun _ => 0 := fun _ => rfl
  refine ⟨ConcurrentQueue.calls_initial, ⟨[], ConcurrentQueue.listed_initial⟩, fun _ => ConcurrentQueue.balanced_initial,
    fun _ _ => rfl, fun p => ?_, fun t ht => (by cases ht), fun p e b j hv => (by cases hv), fun t ht => (by cases ht),
    List.nodup_nil, ⟨fun x y b hx hy => ?_, fun b => ⟨.unmade, Nat.zero_le b⟩⟩, fun _ _ _ _ => rfl,
      fun m m' u u' p e hm => ?_⟩
  · refine ⟨0, 0, .idle, ⟨ring_new T, ⟨Nat.zero_le _, ?_⟩, fun j hj => absurd hj (Nat.not_lt_zero j), fun _ j hj => ?_,
      fun e b hv => by cases hv⟩, fun t ht => (by cases ht), fun _ => rfl⟩
    · rw [Nat.mul_zero]
      exact Nat.lt_of_lt_of_le T.blockSize_pos (Nat.le_add_left ..)
    · cases hj
  · have hun : ∀ z, lies (initial T : Config (Shared α) (Thread α)) z b → z = .unmade := by
      intro z hz
      cases z with
      | unmade => rfl
      | free => cases hz
      | call k =>
        obtain ⟨t, ht, -⟩ := hz
        cases ht
      | entry p e => cases hz
    rw [hun x hx, hun y hy]
  · cases hm

theorem run_step {tr : List (Config (Shared α) (Thread α) × Label (Choice α))} (h : (blockQueue T α).Run (initial T) tr c) :
    Inv T c ∧ (concurrentQueue α).Run ConcurrentQueue.initial (Program.abstracted abs label tr) (abs c) := by
  change Inv T c ∧ (concurrentQueue α).Run (abs (initial T)) _ _
  refine h.simulated (C := fun _ _ => True) inv_initial (fun c l c' hI _ hn => ?_) Program.along_true
  cases l with
  | call e =>
    obtain ⟨s, new, hc, rfl⟩ := Program.next_call hn
    exact hI.call hc
  | act k e =>
    obtain ⟨t, s, t', new, ht, ha, rfl⟩ := Program.next_act hn
    exact hI.act ht ha

/-- Every run with blocks is a run of the queue: each call does there what it does here, and the element that it
finds in its block is the one at its index. -/
theorem run_blocks {tr : List (Config (Shared α) (Thread α) × Label (Choice α))}
    (h : (blockQueue T α).Run (initial T) tr c) :
    (concurrentQueue α).Run ConcurrentQueue.initial (Program.abstracted abs label tr) (abs c) :=
  (run_step h).2

/-- Blocks of two elements, and tables of two blocks -/
def small : Traits := ⟨1, 1, by decide, by decide, by decide⟩

/-- Thread 7 puts its first element into a block, and a call takes `n` steps to get it. -/
def steps (n : Nat) : List (Label (Choice Nat)) :=
  .call (.queue (.enqueue 7 5)) :: List.replicate 8 (.act 0 (.queue .step)) ++ .act 0 (.requisition none) ::
    List.replicate 4 (.act 0 (.queue .step)) ++ .call (.queue .dequeue) :: List.replicate n (.act 1 (.queue .step))

def taken : Config (Shared Nat) (Thread Nat) := (blockQueue small Nat).last (initial small) (steps 15)

theorem run_blocks_taken : (∃ tr, (concurrentQueue Nat).Run ConcurrentQueue.initial tr (abs taken)) ∧
    taken.threads[1]? = some ⟨.dequeue (.returned (some (0, 0, some 5))), .idle⟩ :=
  ⟨⟨_, run_blocks (T := small) (Program.run_last (l := steps 15) rfl)⟩, rfl⟩

/-! ## What a call finds -/

/-- `placed`: a block is in one place. `room`: an element is constructed where there is none. `tailBase` and `found`
are asserted in `get_block_index_index_for_index`, and `element` is what is there then. `counted`: `prevVal` is less
than `BLOCK_SIZE`. `cleared`, `blank`: a block is given back without elements. -/
structure Stored (T : Traits) (c : Config (Shared α) (Thread α)) : Prop where
  placed : Placed (lies c)
  nodup : c.shared.freeList.Nodup
  room : ∀ t ∈ c.threads, ∀ p, Puts p t.call → t.storage = .construct → ∃ b, (c.shared.indices p).tailBlock = some b ∧
    c.shared.slots b ((c.shared.queue.producers p).tailIndex % T.blockSize) = none
  tailBase : ∀ t ∈ c.threads, ∀ p i h n, Takes p i t.call → t.storage = .loadKey h n →
    ((c.shared.indices p).entries (((c.shared.indices p).headers h).index n)).key ≠ invalidBlockBase
  found : ∀ t ∈ c.threads, ∀ p i h q, Takes p i t.call → t.storage = .loadValue h q →
    ((c.shared.indices p).entries (((c.shared.indices p).headers h).index q)).key = T.blockSize * (i / T.blockSize) ∧
      ((c.shared.indices p).entries (((c.shared.indices p).headers h).index q)).value ≠ none
  element : ∀ t ∈ c.threads, ∀ p i e b, Takes p i t.call → t.storage = .move e b →
    ∃ a, c.shared.slots b (i % T.blockSize) = some a ∧ (c.shared.queue.producers p).elements[i]? = some a
  counted : ∀ t ∈ c.threads, ∀ p i e b, Taken p i t.call → t.storage = .setEmpty e b →
    c.shared.elementsCompletelyDequeued b < T.blockSize
  cleared : ∀ t ∈ c.threads, ∀ p i e b, Taken p i t.call → t.storage = .clear e b → ∀ r, r < T.blockSize →
    c.shared.slots b r = none
  blank : ∀ b, Outside c b → ∀ r, r < T.blockSize → c.shared.slots b r = none

theorem Inv.room (hI : Inv T c) (ht : c.threads[k]? = some t) (hp : Puts p t.call) (hst : t.storage = .construct) :
    ∃ b, (c.shared.indices p).tailBlock = some b ∧
      c.shared.slots b ((c.shared.queue.producers p).tailIndex % T.blockSize) = none := by
  obtain ⟨e, hv, hnone, hk⟩ := hI.tail_block ht hp hst
  obtain ⟨b, hb⟩ := Option.ne_none_iff_exists'.mp hnone
  refine ⟨b, hb, ?_⟩
  rw [hI.tail_eq ht hp, (hI.contents p e b _ (hv.trans hb) hk).holds _ rfl, List.getElem?_eq_none (Nat.le_refl _)]
  rintro ⟨u, hu, hui⟩
  exact Nat.lt_irrefl _ (Balanced.lt_length (hI.balanced p) hu hui.on)

/-- No call comes to an entry without its block, or to a block without its element, and every block is in one
place. -/
theorem run_stored {tr : List (Config (Shared α) (Thread α) × Label (Choice α))}
    (h : (blockQueue T α).Run (initial T) tr c) : Stored T c := by
  have hI := (run_step h).1
  have at_mem : ∀ {t}, t ∈ c.threads → ∃ k : Nat, c.threads[k]? = some t := List.mem_iff_getElem?.mp
  refine ⟨hI.placed, hI.nodup, fun t ht p hp hst => ?_, fun t ht p i h n hi hst => ?_, fun t ht p i h q hi hst => ?_,
    fun t ht p i e b hi hst => ?_, fun t ht p i e b hi hst => ?_, fun t ht p i e b hi hst r hr => ?_, hI.blank⟩
  · obtain ⟨k, hk⟩ := at_mem ht
    exact hI.room hk hp hst
  · have hL := hI.looks t ht p i hi.on
    rw [hst] at hL
    obtain ⟨-, -, -, -, k, hkey⟩ := hL
    exact fun hbad => T.valid k (hkey.symm.trans hbad)
  · obtain ⟨k, hk⟩ := at_mem ht
    have hno : ¬ t.counted := by
      rw [show t.counted = false from hi.counted t.storage]
      simp
    obtain ⟨n, u, st, hX, hlt, hd, hL⟩ := hI.looks_at hk hi.on hno
    rw [hst] at hL
    obtain ⟨hkey, b, hv⟩ := hX.found hlt hd hL
    refine ⟨hkey, fun hnone => ?_⟩
    cases hv.symm.trans hnone
  · obtain ⟨k, hk⟩ := at_mem ht
    have hlt := Balanced.lt_length (hI.balanced p) ht hi.on
    exact ⟨_, (hI.slot hk hi hst).trans (List.getElem?_eq_getElem hlt), List.getElem?_eq_getElem hlt⟩
  · have hL := hI.looks t ht p i hi.on
    rw [hst] at hL
    obtain ⟨hc, hkey, hv⟩ := hL
    rw [(hI.contents p e b _ hv hkey).counted]
    exact done_lt (hI.balanced p) ht hi.on hc
  · have hL := hI.looks t ht p i hi.on
    rw [hst] at hL
    obtain ⟨hkey, hv, hd⟩ := hL
    exact hI.emptied hv hkey hd hr

/-- A call has found the entry of its block. -/
def found : Config (Shared Nat) (Thread Nat) := (blockQueue small Nat).last (initial small) (steps 12)

theorem run_stored_found : Stored small found ∧ (found.threads[1]?.map (·.storage)) = some (.loadValue 0 0) :=
  ⟨run_stored (Program.run_last (l := steps 12) rfl), rfl⟩

end

end Xdispatch.BlockQueue
