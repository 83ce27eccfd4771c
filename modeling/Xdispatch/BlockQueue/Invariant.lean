import Xdispatch.BlockQueue.Places

/-!
# Every step keeps every block where it belongs

The owner of an index and the calls that take elements from it work on the same entries. What
the owner changes is an entry without a block, so no call that looks for a block, or has found
it, is disturbed; and an entry is cleared by one call, when nobody looks for its block any more.
-/

namespace Xdispatch.BlockQueue

open ConcurrentQueue (Attempt Calls Listed Balanced)
open Ownership (Placed)
open Index

variable {α : Type} {T : Traits}

section
variable {c : Config (Shared α) (Thread α)} {s s' : Shared α} {k p i e b : Nat} {t t' : Thread α} {st : Storage}

theorem abs_same (t' : Thread α) (ht : c.threads[k]? = some t) (hcall : t'.call = t.call) (hq : s'.queue = c.shared.queue) :
    abs ⟨s', c.threads.set k t' ++ []⟩ = abs c := by
  simp only [abs, List.append_nil, hq, Family.map_set_self (f := Thread.call) ht hcall]

/-! ## The owner -/

theorem Puts.counted {call : ConcurrentQueue.Thread α} (hp : Puts p call) (st : Storage) :
    (⟨call, st⟩ : Thread α).counted = false := by
  cases hp
  rfl

theorem Inv.owner (hI : Inv T c) (ht : c.threads[k]? = some t) (hp : Puts p t.call) (hq : s'.queue = c.shared.queue)
    (hx : ∀ q, q ≠ p → s'.indices q = c.shared.indices q)
    (hindexed : ∀ n u, (c.shared.indices p).Indexed T (c.shared.queue.producers p).elements.length
      (done T c p) n u t.storage →
      ∃ n' u', (s'.indices p).Indexed T (c.shared.queue.producers p).elements.length (done T c p) n' u' st)
    (hkept : ∀ j, (c.shared.indices p).Live T j → (c.shared.indices p).Kept T (s'.indices p) j)
    (hcontents : (∀ q j, done T ⟨s', c.threads.set k ⟨t.call, st⟩ ++ []⟩ q j = done T c q j) →
      ∀ q e b j, (s'.indices q).value e = some b → (s'.indices q).key e = T.blockSize * j →
        Contains T ⟨s', c.threads.set k ⟨t.call, st⟩ ++ []⟩ q j b)
    (hreset : ∀ u ∈ c.threads.set k ⟨t.call, st⟩ ++ [], ∀ e b, u.storage = .storeValue e b →
      s'.elementsCompletelyDequeued b = 0)
    (hnodup : s'.freeList.Nodup) (hplaced : Placed (lies ⟨s', c.threads.set k ⟨t.call, st⟩ ++ []⟩))
    (hblank : ∀ b, Outside ⟨s', c.threads.set k ⟨t.call, st⟩ ++ []⟩ b → ∀ r, r < T.blockSize → s'.slots b r = none) :
    Inv T ⟨s', c.threads.set k ⟨t.call, st⟩ ++ []⟩ := by
  have habs := abs_same ⟨t.call, st⟩ ht rfl hq
  have hd : ∀ q j, done T ⟨s', c.threads.set k ⟨t.call, st⟩ ++ []⟩ q j = done T c q j := fun q j =>
    done_same ht (past_congr rfl ((hp.counted st).trans (hp.counted t.storage).symm))
  have hd' : ∀ q, done T ⟨s', c.threads.set k ⟨t.call, st⟩ ++ []⟩ q = done T c q := fun q => funext (hd q)
  refine ⟨habs ▸ hI.calls, habs ▸ hI.listed, habs ▸ hI.balanced, ?_, fun q => ?_, ?_, hcontents hd, hreset, hnodup, hplaced,
    hblank, ?_⟩
  · simp only [hq]
    exact hI.unmade
  · simp only [hq, hd']
    obtain ⟨n, u, st', hX, hP⟩ := hI.indexed q
    by_cases hqp : q = p
    · subst hqp
      rw [hP.at ht hp] at hX
      obtain ⟨n', u', hX⟩ := hindexed n u hX
      exact ⟨n', u', st, hX, phase_put _ ht hp (hI.others ht hp)⟩
    · rw [hx q hqp]
      have hpq : ¬ Puts q t.call := fun h => hqp (hp.unique h)
      exact ⟨n, u, st', hX, hP.keep ht hpq hpq⟩
  · refine hI.looks_step ht (fun q i hon => ?_) (fun m u q i hm hu hon h => ?_) fun q j h => by rw [hd, h]
    · exact absurd (hp.not_on q) (by rw [hon]; simp)
    · by_cases hqp : q = p
      · subst hqp
        exact hkept _ (hI.live (Family.mem_of_get hu) hon h)
      · rw [hx q hqp]
        exact .refl ..
  · refine hI.alone_step ht fun q e hc => ?_
    obtain ⟨i, b, hon, -⟩ := hc
    exact absurd (hp.not_on q) (by rw [hon]; simp)

/-- The owner does something that the blocks have no part in. -/
theorem Inv.owner_quiet (hI : Inv T c) (ht : c.threads[k]? = some t) (hp : Puts p t.call) {x : Index}
    (hindexed : ∀ n u, (c.shared.indices p).Indexed T (c.shared.queue.producers p).elements.length
      (done T c p) n u t.storage →
      ∃ n' u', x.Indexed T (c.shared.queue.producers p).elements.length (done T c p) n' u' st)
    (hkept : ∀ j, (c.shared.indices p).Live T j → (c.shared.indices p).Kept T x j)
    (hval : ∀ e, x.value e = (c.shared.indices p).value e)
    (hkey : ∀ e b, x.value e = some b → x.key e = (c.shared.indices p).key e)
    (hst : st.holds = t.storage.holds) (hst' : ∀ e b, st ≠ .storeValue e b) :
    Inv T ⟨c.shared.setIndex p x, c.threads.set k ⟨t.call, st⟩ ++ []⟩ := by
  have hself : (c.shared.setIndex p x).indices p = x := Function.update_self ..
  have hother : ∀ q, q ≠ p → (c.shared.setIndex p x).indices q = c.shared.indices q := fun q hq => Function.update_of_ne hq ..
  have hvalue : ∀ q e, ((c.shared.setIndex p x).indices q).value e = (c.shared.indices q).value e := by
    intro q e
    by_cases hqp : q = p
    · rw [hqp, hself, hval]
    · rw [hother q hqp]
  have hlies := lies_same (c.shared.setIndex p x) ⟨t.call, st⟩ ht rfl rfl hvalue hst
  refine hI.owner ht hp rfl hother ?_ ?_ (fun hd => ?_) ?_ hI.nodup (hI.placed.congr hlies)
    (hI.blank_step (by rfl) (outside_congr hlies))
  · rw [hself]
    exact hindexed
  · rw [hself]
    exact hkept
  · refine hI.contents_step ht (fun _ _ => Iff.rfl) (fun _ => rfl) hd (fun q e b hv => ?_) fun _ _ _ _ => ⟨rfl, rfl⟩
    refine ⟨(hvalue q e).symm.trans hv, ?_⟩
    by_cases hqp : q = p
    · subst hqp
      rw [hself] at hv ⊢
      exact hkey e b hv
    · rw [hother q hqp]
  · exact hI.reset_step ht (fun e b h => absurd h (hst' e b)) fun _ _ _ _ => rfl

theorem setIndex_self (s : Shared α) (p : Nat) : s.setIndex p (s.indices p) = s := by
  rw [Shared.setIndex, Function.update_eq_self]

/-- The owner looks only at what it has put there itself. -/
theorem Inv.owner_reads (hI : Inv T c) (ht : c.threads[k]? = some t) (hp : Puts p t.call)
    (hindexed : ∀ n u, (c.shared.indices p).Indexed T (c.shared.queue.producers p).elements.length
      (done T c p) n u t.storage →
      (c.shared.indices p).Indexed T (c.shared.queue.producers p).elements.length (done T c p) n u st)
    (hst : st.holds = t.storage.holds) (hst' : ∀ e b, st ≠ .storeValue e b) :
    Inv T ⟨c.shared, c.threads.set k ⟨t.call, st⟩ ++ []⟩ := by
  have h := hI.owner_quiet ht hp (x := c.shared.indices p) (fun n u hX => ⟨n, u, hindexed n u hX⟩) (fun j _ => .refl ..)
    (fun _ => rfl) (fun _ _ _ => rfl) hst hst'
  rwa [setIndex_self] at h

theorem Inv.tail_eq (hI : Inv T c) (ht : c.threads[k]? = some t) (hp : Puts p t.call) :
    (c.shared.queue.producers p).tailIndex = (c.shared.queue.producers p).elements.length := by
  have hslots := (hI.balanced p).slots
  have hzero : Family.total (ConcurrentQueue.Thread.publishing p) (abs c).threads = 0 := by
    refine Family.total_eq_zero.mpr fun u hu => ?_
    obtain ⟨l, hL⟩ := hI.listed
    obtain ⟨m, hm⟩ := List.mem_iff_getElem?.mp hu
    have hk : (abs c).threads[k]? = some t.call := by simp [abs, ht]
    have h1 := hL.fits _ (Family.mem_of_get hk)
    have h2 := hL.fits u hu
    obtain ⟨call, st⟩ := t
    cases hp
    cases u with
    | dequeue => rfl
    | enqueue id a ph =>
      cases ph with
      | publish q =>
        refine if_neg ?_
        rintro rfl
        cases h1.2.symm.trans h2.2
        have hkm := hI.calls.one hk (by simp) hm (by simp)
        subst hkm
        rw [hk] at hm
        cases hm
      | _ => rfl
  rw [hzero] at hslots
  exact hslots.symm

theorem Inv.begin (hI : Inv T c) (ht : c.threads[k]? = some t) (hp : Puts p t.call) (hst : t.storage = .idle)
    (h : (c.shared.queue.producers p).tailIndex % T.blockSize = 0) :
    Inv T ⟨c.shared, c.threads.set k ⟨t.call, .test⟩ ++ []⟩ := by
  rw [hI.tail_eq ht hp] at h
  refine hI.owner_reads ht hp (fun n u hX => ?_) (by rw [hst]; rfl) (by simp)
  rw [hst] at hX
  exact hX.begin h

theorem Inv.within (hI : Inv T c) (ht : c.threads[k]? = some t) (hp : Puts p t.call) (hst : t.storage = .idle)
    (h : (c.shared.queue.producers p).tailIndex % T.blockSize ≠ 0) :
    Inv T ⟨c.shared, c.threads.set k ⟨t.call, .construct⟩ ++ []⟩ := by
  rw [hI.tail_eq ht hp] at h
  refine hI.owner_reads ht hp (fun n u hX => ?_) (by rw [hst]; rfl) (by simp)
  rw [hst] at hX
  exact hX.within h

theorem Inv.storeKey (hI : Inv T c) (ht : c.threads[k]? = some t) (hp : Puts p t.call) {n : Nat}
    (hst : t.storage = .storeKey e n) :
    Inv T ⟨c.shared.setIndex p ((c.shared.indices p).setKey e (c.shared.queue.producers p).tailIndex),
      c.threads.set k ⟨t.call, .storeTail e n⟩ ++ []⟩ := by
  obtain ⟨m, u, st, hX, hP⟩ := hI.indexed p
  rw [hP.at ht hp, hst] at hX
  obtain ⟨hL, -, -, hnone⟩ := hX.due
  rw [hI.tail_eq ht hp]
  refine hI.owner_quiet ht hp (fun n u hX => ?_) (fun j hj => ?_) (fun _ => value_setKey) (fun e' b hv => ?_)
    (by rw [hst]; rfl) (by simp)
  · rw [hst] at hX
    exact ⟨_, _, hX.storeKey⟩
  · rw [hL]
    exact hX.kept_setKey hj hnone
  · have hne : e' ≠ e := by
      rintro rfl
      rw [value_setKey, hnone] at hv
      cases hv
    rw [key_setKey, if_neg hne]

/-- The block is nobody's before it is the owner's. -/
theorem Inv.requisition (hI : Inv T c) (ht : c.threads[k]? = some t) (hp : Puts p t.call) (hst : t.storage = .requisition e)
    {x : Place} (hxk : x ≠ .call k) (hxe : ∀ q e, x ≠ .entry q e) (hb : lies c x b) (hq : s'.queue = c.shared.queue)
    (hx : s'.indices = c.shared.indices)
    (hdeq : s'.elementsCompletelyDequeued = c.shared.elementsCompletelyDequeued) (hslots : s'.slots = c.shared.slots)
    (hnodup : s'.freeList.Nodup)
    (hfrom : ∀ b', lies ⟨s', c.threads.set k ⟨t.call, .reset e b⟩ ++ []⟩ x b' ↔ lies c x b' ∧ b' ≠ b)
    (hrest : ∀ y b', y ≠ x → y ≠ .call k →
      (lies ⟨s', c.threads.set k ⟨t.call, .reset e b⟩ ++ []⟩ y b' ↔ lies c y b')) :
    Inv T ⟨s', c.threads.set k ⟨t.call, .reset e b⟩ ++ []⟩ := by
  refine hI.owner ht hp hq (fun q _ => by rw [hx]) (fun n u hX => ?_) (fun j _ => by rw [hx]; exact .refl ..)
    (fun hd => ?_) ?_ hnodup ?_ (hI.blank_step hslots fun b' hb' => ?_)
  · rw [hst] at hX
    rw [hx]
    exact ⟨n, u, hX.next hX.due Iff.rfl⟩
  · exact hI.contents_step ht (fun _ _ => Iff.rfl) (fun q => by rw [hq]) hd
      (fun q e b hv => by rw [hx] at hv ⊢; exact ⟨hv, rfl⟩)
      fun _ _ _ _ => ⟨by rw [hdeq], by rw [hslots]⟩
  · exact hI.reset_step ht (by simp) fun _ _ _ _ => by rw [hdeq]
  · refine hI.placed.move hxk hb hfrom (fun b' => ?_) hrest
    rw [lies_call_step ht, lies_call ht, hst]
    simp [Storage.holds, eq_comm]
  · obtain ⟨y, hy, hne⟩ := hb'
    by_cases hyk : y = .call k
    · subst hyk
      rw [lies_call_step ht] at hy
      cases hy
      exact ⟨x, hb, hxe⟩
    by_cases hyx : y = x
    · exact ⟨x, ((hfrom b').mp (hyx ▸ hy)).1, hxe⟩
    · exact ⟨y, (hrest y b' hyx hyk).mp hy, hne⟩

theorem Inv.make (hI : Inv T c) (ht : c.threads[k]? = some t) (hp : Puts p t.call) (hst : t.storage = .requisition e) :
    Inv T ⟨{ c.shared with blocks := c.shared.blocks + 1 }, c.threads.set k ⟨t.call, .reset e c.shared.blocks⟩ ++ []⟩ := by
  refine hI.requisition ht hp hst (x := .unmade) (by simp) (by simp) (Nat.le_refl _) rfl rfl rfl rfl hI.nodup (fun b' => ?_)
    fun y b' hy hyk => ?_
  · simp only [lies]
    omega
  · cases y with
    | unmade => exact absurd rfl hy
    | call m => exact lies_call_other (fun h => hyk (by rw [h])) b'
    | _ => exact Iff.rfl

theorem Inv.reuse (hI : Inv T c) (ht : c.threads[k]? = some t) (hp : Puts p t.call) (hst : t.storage = .requisition e)
    (hb : b ∈ c.shared.freeList) :
    Inv T ⟨{ c.shared with freeList := c.shared.freeList.erase b }, c.threads.set k ⟨t.call, .reset e b⟩ ++ []⟩ := by
  refine hI.requisition ht hp hst (x := .free) (by simp) (by simp) hb rfl rfl rfl rfl (hI.nodup.erase b) (fun b' => ?_)
    fun y b' hy hyk => ?_
  · simp only [lies]
    rw [hI.nodup.mem_erase_iff, and_comm]
  · cases y with
    | free => exact absurd rfl hy
    | call m => exact lies_call_other (fun h => hyk (by rw [h])) b'
    | _ => exact Iff.rfl

theorem Inv.resetBlock (hI : Inv T c) (ht : c.threads[k]? = some t) (hp : Puts p t.call) (hst : t.storage = .reset e b) :
    Inv T ⟨c.shared.setDequeued b 0, c.threads.set k ⟨t.call, .storeValue e b⟩ ++ []⟩ := by
  have hmine : lies c (.call k) b := (lies_call ht b).mpr (by rw [hst]; rfl)
  have hne : ∀ {x b'}, lies c x b' → x ≠ .call k →
      (c.shared.setDequeued b 0).elementsCompletelyDequeued b' = c.shared.elementsCompletelyDequeued b' := by
    intro x b' hx hxk
    refine Function.update_of_ne (fun h => hxk ?_) ..
    subst h
    exact hI.placed.alone _ _ _ hx hmine
  have hlies := lies_same (c.shared.setDequeued b 0) ⟨t.call, .storeValue e b⟩ ht rfl rfl (fun _ _ => rfl)
    (by rw [hst]; rfl)
  refine hI.owner ht hp rfl (fun _ _ => rfl) (fun n u hX => ?_) (fun _ _ => .refl ..) (fun hd => ?_) ?_ hI.nodup
    (hI.placed.congr hlies) (hI.blank_step (by rfl) (outside_congr hlies))
  · rw [hst] at hX
    exact ⟨n, u, hX.next hX.due Iff.rfl⟩
  · refine hI.contents_step ht (fun _ _ => Iff.rfl) (fun _ => rfl) hd (fun _ _ _ hv => ⟨hv, rfl⟩) fun q e' b' hv => ⟨?_, rfl⟩
    exact hne (x := .entry q e') hv (by simp)
  · refine hI.reset_step ht (fun e' b' h => ?_) fun m b' hm hl => hne hl (by simp [hm])
    cases h
    exact Function.update_self ..

theorem Inv.storeValue (hI : Inv T c) (ht : c.threads[k]? = some t) (hp : Puts p t.call) (hst : t.storage = .storeValue e b) :
    Inv T ⟨c.shared.setIndex p { (c.shared.indices p).setValue e (some b) with tailBlock := some b },
      c.threads.set k ⟨t.call, .construct⟩ ++ []⟩ := by
  obtain ⟨n, u, st, hX, hP⟩ := hI.indexed p
  rw [hP.at ht hp, hst] at hX
  obtain ⟨hL, he, hnone⟩ := hX.due
  have hself : ∀ x, (c.shared.setIndex p x).indices p = x := fun _ => Function.update_self ..
  have hother : ∀ x q, q ≠ p → (c.shared.setIndex p x).indices q = c.shared.indices q :=
    fun _ q hq => Function.update_of_ne hq ..
  have hvalue : ∀ e', Index.value { (c.shared.indices p).setValue e (some b) with tailBlock := some b } e' =
      if e' = e then some b else (c.shared.indices p).value e' := fun _ => value_setValue
  have hkey : ∀ e', Index.key { (c.shared.indices p).setValue e (some b) with tailBlock := some b } e' =
      (c.shared.indices p).key e' := fun _ => key_setValue
  have hn : 0 < n := by
    refine Nat.pos_of_ne_zero fun h => ?_
    have := T.blockSize_pos
    rw [h] at hL
    omega
  have hused := hX.ring.used
  have hmine : lies c (.call k) b := (lies_call ht b).mpr (by rw [hst]; rfl)
  refine hI.owner ht hp rfl (hother _) (fun n u hX => ?_) (fun j _ => ?_) (fun hd q e' b' j hv hk => ?_) ?_ hI.nodup ?_
    (hI.blank_step (by rfl) fun b' hb' => ?_)
  · rw [hst] at hX
    rw [hself]
    exact ⟨n, u, hX.storeValue⟩
  · rw [hself]
    exact Kept.storeValue hnone
  · by_cases hnew : q = p ∧ e' = e
    · obtain ⟨rfl, rfl⟩ := hnew
      simp only [hself] at hv hk
      rw [hvalue, if_pos rfl] at hv
      cases hv
      rw [hkey, he, hX.ring.keys 0 (by omega)] at hk
      have hj : (c.shared.queue.producers q).elements.length = T.blockSize * j := by
        rw [← hk, Nat.sub_zero, Nat.mul_sub, Nat.mul_one]
        omega
      have hle : ∀ i, i / T.blockSize = j → (c.shared.queue.producers q).elements.length ≤ i := by
        intro i hi
        rw [hj, ← hi]
        exact Nat.mul_div_le i T.blockSize
      refine ⟨?_, fun i hi _ => ?_, fun i hi hm => ?_⟩
      · rw [hd, done_zero (hI.balanced q) (Nat.le_of_eq hj)]
        exact hI.reset t (Family.mem_of_get ht) _ _ hst
      · exact (hI.blank _ ⟨_, hmine, by simp⟩ _ (Nat.mod_lt i T.blockSize_pos)).trans (List.getElem?_eq_none (hle i hi)).symm
      · obtain ⟨u, hu, hui⟩ := (moved_works ht).mp hm
        exact absurd (Balanced.lt_length (hI.balanced q) hu hui.on) (Nat.not_lt.mpr (hle i hi))
    · have hold : (c.shared.indices q).value e' = some b' ∧ (c.shared.indices q).key e' = T.blockSize * j := by
        by_cases hqp : q = p
        · subst hqp
          simp only [hself] at hv hk
          rw [hvalue, if_neg fun h => hnew ⟨rfl, h⟩] at hv
          rw [hkey] at hk
          exact ⟨hv, hk⟩
        · simp only [hother _ q hqp] at hv hk
          exact ⟨hv, hk⟩
      have hC := hI.contents q e' b' j hold.1 hold.2
      exact ⟨hC.counted.trans (hd q j).symm, fun i hi hm => hC.holds i hi ((not_congr (moved_works ht)).mp hm),
        fun i hi hm => hC.gone i hi ((moved_works ht).mp hm)⟩
  · exact hI.reset_step ht (by simp) fun _ _ _ _ => rfl
  · refine hI.placed.move (p := .call k) (q := .entry p e) (x := b) (by simp) hmine (fun b' => ?_) (fun b' => ?_)
      fun y b' hy hye => ?_
    · rw [lies_call_step ht, lies_call ht, hst]
      simp only [Storage.holds, Option.some.injEq, reduceCtorEq, false_iff]
      rintro ⟨h, hne⟩
      exact hne h.symm
    · simp only [lies, hself, hnone]
      rw [hvalue, if_pos rfl]
      simp [eq_comm]
    · cases y with
      | call m => exact lies_call_other (fun h => hy (by rw [h])) b'
      | entry q e' =>
        simp only [lies]
        by_cases hqp : q = p
        · subst hqp
          rw [hself, hvalue, if_neg fun h => hye (by rw [h])]
        · rw [hother _ q hqp]
      | _ => exact Iff.rfl
  · obtain ⟨y, hy, hne⟩ := hb'
    refine ⟨y, ?_, hne⟩
    cases y with
    | call m =>
      by_cases hm : m = k
      · subst hm
        rw [lies_call_step ht] at hy
        cases hy
      · exact (lies_call_other hm b').mp hy
    | entry q e => exact absurd rfl (hne q e)
    | _ => exact hy

/-! ## A call that has taken an index -/

theorem not_puts (hon : t.call.on p = some (.move i)) (q : Nat) : ¬ Puts q t.call := not_puts_of_on hon q

theorem Inv.taker (hI : Inv T c) (ht : c.threads[k]? = some t) (hon : t.call.on p = some (.move i))
    (hq : s'.queue = c.shared.queue)
    (hindexed : ∀ q n u st', (c.shared.indices q).Indexed T (c.shared.queue.producers q).elements.length
      (done T c q) n u st' →
      (s'.indices q).Indexed T (c.shared.queue.producers q).elements.length
        (done T ⟨s', c.threads.set k ⟨t.call, st⟩ ++ []⟩ q) n u st')
    (hlooks : (s'.indices p).Looks T (done T ⟨s', c.threads.set k ⟨t.call, st⟩ ++ []⟩ p) (Thread.counted ⟨t.call, st⟩) i st)
    (hkept : ∀ (m : Nat) (u : Thread α) (q i : Nat), m ≠ k → c.threads[m]? = some u → u.call.on q = some (.move i) →
      ¬ u.counted ∨ (∃ e b, u.storage = .clear e b) → (c.shared.indices q).Kept T (s'.indices q) (i / T.blockSize))
    (hd : ∀ q j, done T c q j = T.blockSize → done T ⟨s', c.threads.set k ⟨t.call, st⟩ ++ []⟩ q j = T.blockSize)
    (hcontents : ∀ q e b j, (s'.indices q).value e = some b → (s'.indices q).key e = T.blockSize * j →
        Contains T ⟨s', c.threads.set k ⟨t.call, st⟩ ++ []⟩ q j b)
    (hreset : ∀ u ∈ c.threads.set k ⟨t.call, st⟩ ++ [], ∀ e b, u.storage = .storeValue e b →
      s'.elementsCompletelyDequeued b = 0)
    (hnodup : s'.freeList.Nodup) (hplaced : Placed (lies ⟨s', c.threads.set k ⟨t.call, st⟩ ++ []⟩))
    (hblank : ∀ b, Outside ⟨s', c.threads.set k ⟨t.call, st⟩ ++ []⟩ b → ∀ r, r < T.blockSize → s'.slots b r = none)
    (halone : ∀ p e, Thread.Clears p e ⟨t.call, st⟩ → ∀ (m : Nat) (u : Thread α), m ≠ k → c.threads[m]? = some u →
      ¬ u.Clears p e) : Inv T ⟨s', c.threads.set k ⟨t.call, st⟩ ++ []⟩ := by
  have habs := abs_same ⟨t.call, st⟩ ht rfl hq
  refine ⟨habs ▸ hI.calls, habs ▸ hI.listed, habs ▸ hI.balanced, ?_, fun q => ?_, ?_, hcontents, hreset, hnodup, hplaced,
    hblank, hI.alone_step ht halone⟩
  · simp only [hq]
    exact hI.unmade
  · simp only [hq]
    obtain ⟨n, u, st', hX, hP⟩ := hI.indexed q
    exact ⟨n, u, st', hindexed q n u st' hX, hP.keep ht (not_puts hon q) (not_puts hon q)⟩
  · refine hI.looks_step ht (fun q i' hon' => ?_) hkept hd
    obtain ⟨rfl, rfl⟩ := on_unique hon hon'
    exact hlooks

/-- The call only looks. -/
theorem Inv.reads (hI : Inv T c) (ht : c.threads[k]? = some t) (hon : t.call.on p = some (.move i))
    (hcounted : Thread.counted ⟨t.call, st⟩ = t.counted)
    (hlooks : (c.shared.indices p).Looks T (done T c p) t.counted i st)
    (hst : st.holds = t.storage.holds) (hst' : ∀ e b, st ≠ .storeValue e b) (hclear : ∀ e b, st ≠ .clear e b) :
    Inv T ⟨c.shared, c.threads.set k ⟨t.call, st⟩ ++ []⟩ := by
  have hd : ∀ q j, done T ⟨c.shared, c.threads.set k ⟨t.call, st⟩ ++ []⟩ q j = done T c q j := fun q j =>
    done_same ht (past_congr rfl hcounted)
  have hd' : ∀ q, done T ⟨c.shared, c.threads.set k ⟨t.call, st⟩ ++ []⟩ q = done T c q := fun q => funext (hd q)
  have hlies := lies_same c.shared ⟨t.call, st⟩ ht rfl rfl (fun _ _ => rfl) hst
  refine hI.taker ht hon rfl (fun q n u st' hX => ?_) ?_ (fun _ _ _ _ _ _ _ _ => .refl ..) (fun q j h => by rw [hd, h]) ?_ ?_
    hI.nodup (hI.placed.congr hlies) (hI.blank_step (by rfl) (outside_congr hlies)) fun _ e h => ?_
  · rw [hd']
    exact hX
  · rw [hd', hcounted]
    exact hlooks
  · exact hI.contents_step ht (fun _ _ => Iff.rfl) (fun _ => rfl) hd (fun _ _ _ hv => ⟨hv, rfl⟩) fun _ _ _ _ => ⟨rfl, rfl⟩
  · exact hI.reset_step ht (fun e b h => absurd h (hst' e b)) fun _ _ _ _ => rfl
  · obtain ⟨_, b, -, h⟩ := h
    exact absurd h (hclear e b)

theorem Takes.counted {call : ConcurrentQueue.Thread α} (h : Takes p i call) (st : Storage) :
    (⟨call, st⟩ : Thread α).counted = false := by
  cases h <;> rfl

theorem Taken.counted {call : ConcurrentQueue.Thread α} (h : Taken p i call) (hst : ∀ e b, st ≠ .setEmpty e b) :
    (⟨call, st⟩ : Thread α).counted = true := by
  cases h
  cases st with
  | setEmpty e b => exact absurd rfl (hst e b)
  | _ => rfl

theorem Taken.not_counted {call : ConcurrentQueue.Thread α} (h : Taken p i call) (e b : Nat) :
    (⟨call, .setEmpty e b⟩ : Thread α).counted = false := by
  cases h
  rfl

theorem taken_of_counted (hon : t.call.on p = some (.move i)) (hc : t.counted) : Taken p i t.call := by
  refine (takes_or_taken hon).resolve_left fun h => ?_
  rw [show t.counted = false from h.counted t.storage] at hc
  cases hc

/-- What a call finds that has still to take its element. -/
theorem Inv.looks_at (hI : Inv T c) (ht : c.threads[k]? = some t) (hon : t.call.on p = some (.move i)) (hc : ¬ t.counted) :
    ∃ n u st, (c.shared.indices p).Indexed T (c.shared.queue.producers p).elements.length (done T c p) n u st ∧
      i < (c.shared.queue.producers p).elements.length ∧ done T c p (i / T.blockSize) < T.blockSize ∧
      (c.shared.indices p).Looks T (done T c p) t.counted i t.storage := by
  obtain ⟨n, u, st, hX, -⟩ := hI.indexed p
  have hm := Family.mem_of_get ht
  exact ⟨n, u, st, hX, Balanced.lt_length (hI.balanced p) hm hon, done_lt (hI.balanced p) hm hon hc, hI.looks t hm p i hon⟩

theorem Inv.takes (hI : Inv T c) (ht : c.threads[k]? = some t) (hi : Takes p i t.call)
    (hlooks : ∀ n u st', (c.shared.indices p).Indexed T (c.shared.queue.producers p).elements.length (done T c p) n u st' →
      i < (c.shared.queue.producers p).elements.length → done T c p (i / T.blockSize) < T.blockSize →
      (c.shared.indices p).Looks T (done T c p) t.counted i t.storage →
      (c.shared.indices p).Looks T (done T c p) t.counted i st)
    (hst : st.holds = t.storage.holds) (hst' : ∀ e b, st ≠ .storeValue e b) (hclear : ∀ e b, st ≠ .clear e b) :
    Inv T ⟨c.shared, c.threads.set k ⟨t.call, st⟩ ++ []⟩ := by
  have hcounted := (hi.counted st).trans (hi.counted t.storage).symm
  obtain ⟨n, u, st', hX, hlt, hd, hL⟩ := hI.looks_at ht hi.on (by rw [show t.counted = false from hi.counted t.storage]; simp)
  exact hI.reads ht hi.on hcounted (hlooks n u st' hX hlt hd hL) hst hst' hclear

theorem done_setEmpty (s' : Shared α) (ht : c.threads[k]? = some t) (hi : Taken p i t.call) (hst : t.storage = .setEmpty e b)
    (hst' : ∀ e b, st ≠ .setEmpty e b) (q j : Nat) : done T ⟨s', c.threads.set k ⟨t.call, st⟩ ++ []⟩ q j =
      done T c q j + if q = p ∧ j = i / T.blockSize then 1 else 0 := by
  have h1 := Family.total_set (Thread.past T q j) ht ⟨t.call, st⟩
  obtain ⟨call, st₀⟩ := t
  cases hst
  have h2 : (⟨call, .setEmpty e b⟩ : Thread α).past T q j = 0 := by
    unfold Thread.past
    split
    · rw [hi.not_counted]
      exact if_neg (by simp)
    · rfl
  have h3 : (⟨call, st⟩ : Thread α).past T q j = if q = p ∧ j = i / T.blockSize then 1 else 0 := by
    by_cases hqp : q = p
    · subst hqp
      rw [past_of_on (t := ⟨call, st⟩) hi.on, hi.counted hst']
      simp [eq_comm]
    · rw [past_of_not_on (t := ⟨call, st⟩) fun i' h => hqp (on_unique hi.on h).1, if_neg fun h => hqp h.1]
  rw [h2, h3, Nat.add_zero] at h1
  simp only [done, List.append_nil]
  exact h1

/-- The call counts its element, and clears the entry afterwards if it was the last one. -/
theorem Inv.setEmpty (hI : Inv T c) (ht : c.threads[k]? = some t) (hi : Taken p i t.call) (hst : t.storage = .setEmpty e b)
    (hst' : st = .idle ∨ c.shared.elementsCompletelyDequeued b = T.blockSize - 1 ∧ st = .clear e b) :
    Inv T ⟨c.shared.setDequeued b (c.shared.elementsCompletelyDequeued b + 1), c.threads.set k ⟨t.call, st⟩ ++ []⟩ := by
  have hB := T.blockSize_pos
  have hnot : ∀ e b, st ≠ .setEmpty e b := by
    intro e b h
    rcases hst' with h' | ⟨-, h'⟩ <;> cases h.symm.trans h'
  have hno : ¬ t.counted := by
    obtain ⟨call, st₀⟩ := t
    cases hst
    rw [hi.not_counted]
    simp
  obtain ⟨n, u, st₁, hX, hlt, hd, hL⟩ := hI.looks_at ht hi.on hno
  rw [hst] at hL
  obtain ⟨-, hk, hv⟩ := hL
  have hC := hI.contents p e b _ hv hk
  have hdone := done_setEmpty (c.shared.setDequeued b (c.shared.elementsCompletelyDequeued b + 1)) (T := T) ht hi hst hnot
  have hdeq : ∀ b', b' ≠ b →
      (c.shared.setDequeued b (c.shared.elementsCompletelyDequeued b + 1)).elementsCompletelyDequeued b' =
        c.shared.elementsCompletelyDequeued b' := fun b' h => Function.update_of_ne h ..
  have hhold : st.holds = none := by
    rcases hst' with h | ⟨-, h⟩ <;> rw [h] <;> rfl
  have hlies := lies_same (c.shared.setDequeued b (c.shared.elementsCompletelyDequeued b + 1)) ⟨t.call, st⟩
    ht rfl rfl (fun _ _ => rfl) (by rw [hhold, hst]; rfl)
  refine hI.taker ht hi.on rfl (fun q n u st' hX => ?_) ?_ (fun _ _ _ _ _ _ _ _ => .refl ..) (fun q j h => ?_)
    (fun q e' b' j hv' hk' => ?_) ?_ hI.nodup (hI.placed.congr hlies) (hI.blank_step (by rfl) (outside_congr hlies))
    fun q e' h m u hm hu hc => ?_
  · refine hX.mono fun j => ?_
    rw [hdone]
    omega
  · rcases hst' with rfl | ⟨hlast, rfl⟩
    · trivial
    · refine ⟨hk, hv, ?_⟩
      rw [hdone, if_pos ⟨rfl, rfl⟩, ← hC.counted, hlast]
      omega
  · have hne : ¬ (q = p ∧ j = i / T.blockSize) := by
      rintro ⟨rfl, rfl⟩
      omega
    rw [hdone, if_neg hne, Nat.add_zero, h]
  · have hC' := hI.contents q e' b' j hv' hk'
    refine ⟨?_, fun i' hi' hm => hC'.holds i' hi' ((not_congr (moved_works ht)).mp hm),
      fun i' hi' hm => hC'.gone i' hi' ((moved_works ht).mp hm)⟩
    change (c.shared.indices q).value e' = some b' at hv'
    rw [hdone]
    by_cases hb : b' = b
    · subst hb
      have hplace := hI.placed.alone (.entry q e') (.entry p e) b' hv' hv
      cases hplace
      cases T.base_inj (hk.symm.trans hk')
      rw [if_pos ⟨rfl, rfl⟩, ← hC.counted]
      exact Function.update_self ..
    · have hne : ¬ (q = p ∧ j = i / T.blockSize) := by
        rintro ⟨rfl, rfl⟩
        rw [hX.key_inj hv hk hk', hv] at hv'
        cases hv'
        exact hb rfl
      rw [if_neg hne, Nat.add_zero]
      exact (hdeq b' hb).trans hC'.counted
  · refine hI.reset_step ht (fun e' b' h => ?_) fun m b' hm hl => hdeq b' fun h => ?_
    · rcases hst' with h' | ⟨-, h'⟩ <;> cases h.symm.trans h'
    · subst h
      cases hI.placed.alone _ _ _ hl (show lies c (.entry p e) b' from hv)
  · obtain ⟨i', b', hon', hst₂⟩ := h
    obtain ⟨rfl, rfl⟩ := on_unique hi.on hon'
    obtain ⟨i₂, b₂, hon₂, hst₃⟩ := hc
    have hL₂ := hI.looks u (Family.mem_of_get hu) _ _ hon₂
    rw [hst₃] at hL₂
    obtain ⟨hk₂, -, hd₂⟩ := hL₂
    rcases hst' with h' | ⟨-, h'⟩
    · cases hst₂.symm.trans h'
    · cases hst₂.symm.trans h'
      rw [← T.base_inj (hk.symm.trans hk₂)] at hd₂
      omega

/-- Nothing is left in a block that has been counted to the end. -/
theorem Inv.emptied (hI : Inv T c) {j : Nat} (hv : (c.shared.indices p).value e = some b)
    (hk : (c.shared.indices p).key e = T.blockSize * j) (hd : done T c p j = T.blockSize) {r : Nat} (hr : r < T.blockSize) :
    c.shared.slots b r = none := by
  obtain ⟨hdiv, hmod⟩ := Nat.div_mod_unique T.blockSize_pos |>.mpr ⟨(rfl : r + T.blockSize * j = _), hr⟩
  obtain ⟨u, hu, hon, hc⟩ := exists_counted (i := r + T.blockSize * j) (hI.balanced p) (by rw [hdiv, hd])
  have hgone := (hI.contents p e b j hv hk).gone _ hdiv ⟨u, hu, taken_of_counted hon hc⟩
  rwa [hmod] at hgone

theorem Inv.clear (hI : Inv T c) (ht : c.threads[k]? = some t) (hi : Taken p i t.call) (hst : t.storage = .clear e b) :
    Inv T ⟨c.shared.setIndex p ((c.shared.indices p).setValue e none), c.threads.set k ⟨t.call, .free b⟩ ++ []⟩ := by
  have hL := hI.looks t (Family.mem_of_get ht) p i hi.on
  rw [hst] at hL
  obtain ⟨hk, hv, hdone⟩ := hL
  have hcounted : (⟨t.call, .free b⟩ : Thread α).counted = t.counted := by
    obtain ⟨call, st₀⟩ := t
    cases hst
    rw [hi.counted (by simp), hi.counted (by simp)]
  have hself : ∀ x, (c.shared.setIndex p x).indices p = x := fun _ => Function.update_self ..
  have hother : ∀ x q, q ≠ p → (c.shared.setIndex p x).indices q = c.shared.indices q :=
    fun _ q hq => Function.update_of_ne hq ..
  have hd : ∀ q j, done T ⟨c.shared.setIndex p ((c.shared.indices p).setValue e none),
      c.threads.set k ⟨t.call, .free b⟩ ++ []⟩ q j = done T c q j := fun q j => done_same ht (past_congr rfl hcounted)
  have hd' : ∀ q, done T ⟨c.shared.setIndex p ((c.shared.indices p).setValue e none),
      c.threads.set k ⟨t.call, .free b⟩ ++ []⟩ q = done T c q := fun q => funext (hd q)
  refine hI.taker ht hi.on rfl (fun q n u st' hX => ?_) trivial (fun m u q i' hm hu hon' h => ?_) (fun q j h => by rw [hd, h])
    ?_ ?_ hI.nodup ?_ (fun b' hb' r hr => ?_) fun q e' h => ?_
  · rw [hd']
    by_cases hqp : q = p
    · subst hqp
      rw [hself]
      exact hX.clear hv hk hdone
    · rw [hother _ q hqp]
      exact hX
  · by_cases hqp : q = p
    · subst hqp
      rw [hself]
      refine Kept.clear hk fun hj => ?_
      rcases h with hc | ⟨e₂, b₂, hst₂⟩
      · have := done_lt (T := T) (hI.balanced q) (Family.mem_of_get hu) hon' hc
        rw [hj] at this
        omega
      · have hL₂ := hI.looks u (Family.mem_of_get hu) q i' hon'
        rw [hst₂] at hL₂
        obtain ⟨n, w, st₁, hX, -⟩ := hI.indexed q
        have he : e₂ = e := hX.key_inj hv hk (by rw [← hj]; exact hL₂.1)
        subst he
        exact hm (hI.alone m k u t q e₂ hu ht ⟨i', b₂, hon', hst₂⟩ ⟨i, b, hi.on, hst⟩)
    · rw [hother _ q hqp]
      exact .refl ..
  · refine hI.contents_step ht (fun _ _ => Iff.rfl) (fun _ => rfl) hd (fun q e' b' hv' => ?_) fun _ _ _ _ => ⟨rfl, rfl⟩
    by_cases hqp : q = p
    · subst hqp
      rw [hself] at hv' ⊢
      rw [value_setValue] at hv'
      split at hv'
      · cases hv'
      · exact ⟨hv', key_setValue⟩
    · rw [hother _ q hqp] at hv' ⊢
      exact ⟨hv', rfl⟩
  · exact hI.reset_step ht (by simp) fun _ _ _ _ => rfl
  · refine hI.placed.move (p := .entry p e) (q := .call k) (x := b) (by simp) hv (fun b' => ?_) (fun b' => ?_)
      fun y b' hy hyk => ?_
    · simp only [lies, hself, value_setValue, if_true, hv]
      simp [eq_comm]
    · rw [lies_call_step ht, lies_call ht, hst]
      simp [Storage.holds, eq_comm]
    · cases y with
      | call m => exact lies_call_other (fun h => hyk (by rw [h])) b'
      | entry q e' =>
        simp only [lies]
        by_cases hqp : q = p
        · subst hqp
          rw [hself, value_setValue, if_neg fun h => hy (by rw [h])]
        · rw [hother _ q hqp]
      | _ => exact Iff.rfl
  · obtain ⟨y, hy, hne⟩ := hb'
    have hout : ∀ y, lies c y b' → (∀ q e, y ≠ .entry q e) → c.shared.slots b' r = none := fun y hy hne =>
      hI.blank b' ⟨y, hy, hne⟩ r hr
    cases y with
    | call m =>
      by_cases hm : m = k
      · subst hm
        rw [lies_call_step ht] at hy
        cases hy
        exact hI.emptied hv hk hdone hr
      · exact hout _ ((lies_call_other hm b').mp hy) (by simp)
    | entry q e => exact absurd rfl (hne q e)
    | unmade => exact hout .unmade hy (by simp)
    | free => exact hout .free hy (by simp)
  · obtain ⟨_, _, -, h⟩ := h
    cases h

theorem Inv.free (hI : Inv T c) (ht : c.threads[k]? = some t) (hi : Taken p i t.call) (hst : t.storage = .free b) :
    Inv T ⟨{ c.shared with freeList := b :: c.shared.freeList }, c.threads.set k ⟨t.call, .idle⟩ ++ []⟩ := by
  have hcounted : (⟨t.call, .idle⟩ : Thread α).counted = t.counted := by
    obtain ⟨call, st₀⟩ := t
    cases hst
    rw [hi.counted (by simp), hi.counted (by simp)]
  have hd : ∀ q j, done T ⟨{ c.shared with freeList := b :: c.shared.freeList }, c.threads.set k ⟨t.call, .idle⟩ ++ []⟩ q j =
      done T c q j := fun q j => done_same ht (past_congr rfl hcounted)
  have hd' : ∀ q, done T ⟨{ c.shared with freeList := b :: c.shared.freeList }, c.threads.set k ⟨t.call, .idle⟩ ++ []⟩ q =
      done T c q := fun q => funext (hd q)
  have hmine : lies c (.call k) b := (lies_call ht b).mpr (by rw [hst]; rfl)
  refine hI.taker ht hi.on rfl (fun q n u st' hX => ?_) trivial (fun _ _ _ _ _ _ _ _ => .refl ..) (fun q j h => by rw [hd, h])
    ?_ ?_ ?_ ?_ (hI.blank_step (by rfl) fun b' hb' => ?_) fun q e' h => ?_
  · rw [hd']
    exact hX
  · exact hI.contents_step ht (fun _ _ => Iff.rfl) (fun _ => rfl) hd (fun _ _ _ hv => ⟨hv, rfl⟩) fun _ _ _ _ => ⟨rfl, rfl⟩
  · exact hI.reset_step ht (by simp) fun _ _ _ _ => rfl
  · refine List.nodup_cons.mpr ⟨fun hb => ?_, hI.nodup⟩
    cases hI.placed.alone _ _ _ hmine (show lies c .free b from hb)
  · refine hI.placed.move (p := .call k) (q := .free) (x := b) (by simp) hmine (fun b' => ?_) (fun b' => ?_)
      fun y b' hy hyf => ?_
    · rw [lies_call_step ht, lies_call ht, hst]
      simp only [Storage.holds, Option.some.injEq, reduceCtorEq, false_iff]
      rintro ⟨h, hne⟩
      exact hne h.symm
    · simp only [lies, List.mem_cons]
      exact or_comm
    · cases y with
      | free => exact absurd rfl hyf
      | call m => exact lies_call_other (fun h => hy (by rw [h])) b'
      | _ => exact Iff.rfl
  · obtain ⟨y, hy, hne⟩ := hb'
    cases y with
    | free =>
      rcases List.mem_cons.mp hy with rfl | hy
      · exact ⟨_, hmine, by simp⟩
      · exact ⟨.free, hy, hne⟩
    | call m =>
      by_cases hm : m = k
      · subst hm
        rw [lies_call_step ht] at hy
        cases hy
      · exact ⟨_, (lies_call_other hm b').mp hy, hne⟩
    | entry q e => exact absurd rfl (hne q e)
    | unmade => exact ⟨.unmade, hy, hne⟩
  · obtain ⟨_, _, -, h⟩ := h
    cases h

theorem Inv.works (hI : Inv T c) (ht : c.threads[k]? = some t) (hw : Works T c.shared t.call t.storage s' st) :
    Inv T ⟨s', c.threads.set k ⟨t.call, st⟩ ++ []⟩ := by
  generalize hst : t.storage = st₀ at hw
  cases hw with
  | begin hp h => exact hI.begin ht hp hst h
  | within hp h => exact hI.within ht hp hst h
  | room hp h =>
    refine hI.owner_reads ht hp (fun n u hX => ?_) (by rw [hst]; rfl) (by simp)
    rw [hst] at hX
    exact hX.room h
  | full hp h =>
    refine hI.owner_reads ht hp (fun n u hX => ?_) (by rw [hst]; rfl) (by simp)
    rw [hst] at hX
    exact hX.full h
  | grow hp hw =>
    refine hI.owner_quiet ht hp (fun n u hX => ?_) (fun _ _ => .newBlockIndex ..) (fun _ => rfl) (fun _ _ _ => rfl)
      (by rw [hst]; rfl) (by simp)
    rw [hst] at hX
    exact ⟨n, u, hX.grow hw⟩
  | storeKey hp => exact hI.storeKey ht hp hst
  | storeTail hp =>
    refine hI.owner_quiet ht hp (fun n u hX => ?_) (fun _ _ => .setTail ..) (fun _ => rfl) (fun _ _ _ => rfl)
      (by rw [hst]; rfl) (by simp)
    rw [hst] at hX
    exact ⟨_, _, hX.storeTail⟩
  | make hp => exact hI.make ht hp hst
  | reuse hp hb => exact hI.reuse ht hp hst hb
  | reset hp => exact hI.resetBlock ht hp hst
  | storeValue hp => exact hI.storeValue ht hp hst
  | loadIndex hi =>
    refine hI.takes ht hi (fun n u st' hX hlt hd _ => hX.loadIndex hlt hd ?_) (by rw [hst]; rfl) (by simp) (by simp)
    rw [show t.counted = false from hi.counted t.storage]
    simp
  | loadTail hi =>
    refine hI.takes ht hi (fun n u st' hX hlt hd hL => ?_) (by rw [hst]; rfl) (by simp) (by simp)
    rw [hst] at hL
    exact hX.loadTail hlt hd hL
  | loadKey hi =>
    refine hI.takes ht hi (fun n u st' hX hlt hd hL => ?_) (by rw [hst]; rfl) (by simp) (by simp)
    rw [hst] at hL
    exact hX.loadKey hL
  | loadValue hi hv =>
    refine hI.takes ht hi (fun n u st' hX hlt hd hL => ?_) (by rw [hst]; rfl) (by simp) (by simp)
    rw [hst] at hL
    exact ⟨hL.1, (hX.found hlt hd hL).1, hv⟩
  | setEmpty hi h => exact hI.setEmpty ht hi hst (Or.inl rfl)
  | last hi h => exact hI.setEmpty ht hi hst (Or.inr ⟨h, rfl⟩)
  | clear hi => exact hI.clear ht hi hst
  | free hi => exact hI.free ht hi hst

/-! ## The steps of the queue -/

theorem abs_get (ht : c.threads[k]? = some t) : (abs c).threads[k]? = some t.call := by
  simp [abs, ht]

theorem abs_step (k : Nat) (s' : Shared α) (t' : Thread α) : abs ⟨s', c.threads.set k t' ++ []⟩ =
    ⟨s'.queue, (abs c).threads.set k t'.call ++ []⟩ := by
  simp [abs, List.map_set]

theorem Inv.queue (hI : Inv T c) (s' : Shared α) (t' : Thread α) (ht : c.threads[k]? = some t)
    (hm : ConcurrentQueue.Moves c.shared.queue t.call s'.queue t'.call) : Calls (abs ⟨s', c.threads.set k t' ++ []⟩) ∧
      (∃ l, Listed (abs ⟨s', c.threads.set k t' ++ []⟩) l) ∧ ∀ p, Balanced (abs ⟨s', c.threads.set k t' ++ []⟩) p := by
  obtain ⟨l, hL⟩ := hI.listed
  obtain ⟨l', -, hL'⟩ := hL.act hI.calls (abs_get ht) hm
  rw [abs_step]
  exact ⟨hI.calls.act (abs_get ht) hm, ⟨l', hL'⟩, fun p =>
    (hI.balanced p).act (abs_get ht) (fun hp u hu => by subst hp; exact hL.free hu) (hm.at p)⟩

/-- A step of the queue that the storage has no part in. -/
theorem pass_elements {s s' : ConcurrentQueue.Shared α} {u u' : ConcurrentQueue.Thread α}
    (hm : ConcurrentQueue.Moves s u s' u') (ha : Apart u) (hun : ∀ p, s.size ≤ p → (s.producers p).elements = []) :
    s.size ≤ s'.size ∧ ∀ p, (s'.producers p).elements = (s.producers p).elements := by
  cases hm with
  | dequeue h => exact ⟨Nat.le_of_eq h.sameList.size.symm, h.elements⟩
  | enqueue h =>
    cases h with
    | found | loadTail | push | retry => exact ⟨Nat.le_refl _, fun _ => rfl⟩
    | create =>
      refine ⟨Nat.le_succ _, fun p => ?_⟩
      by_cases hp : p = s.size
      · subst hp
        rw [hun _ (Nat.le_refl _)]
        simp [ConcurrentQueue.Shared.create, ConcurrentQueue.Producer.new]
      · simp only [ConcurrentQueue.Shared.create, Function.update_of_ne hp]
    | link => exact ⟨Nat.le_refl _, ConcurrentQueue.modify_same ConcurrentQueue.Producer.elements rfl⟩
    | publish =>
      exact ⟨Nat.le_refl _, fun p => ConcurrentQueue.modify_same ConcurrentQueue.Producer.elements
        (f := fun x => { x with tailIndex := x.tailIndex + 1 }) rfl p⟩
    | construct => exact absurd .intro (ha.puts _)

theorem Apart.not_on {call : ConcurrentQueue.Thread α} (ha : Apart call) : call.on p ≠ some (.move i) := fun h =>
  (takes_or_taken h).elim (ha.takes p i) (ha.taken p i)

theorem Inv.pass (hI : Inv T c) (ht : c.threads[k]? = some t) (ha : Apart t.call) (hst : t.storage = .idle)
    {q : ConcurrentQueue.Shared α} {call : ConcurrentQueue.Thread α}
    (hm : ConcurrentQueue.Moves c.shared.queue t.call q call) :
    Inv T ⟨{ c.shared with queue := q }, c.threads.set k ⟨call, .idle⟩ ++ []⟩ := by
  obtain ⟨hsize, hels⟩ := pass_elements hm ha hI.unmade
  obtain ⟨hC, hL, hB⟩ := hI.queue { c.shared with queue := q } ⟨call, .idle⟩ ht hm
  have htaken : ∀ p i, ¬ Taken p i call := by
    intro p i hi
    cases hi
    obtain ⟨hon, -⟩ := hm.returns rfl
    exact ha.not_on hon
  have hcounted : (⟨call, .idle⟩ : Thread α).counted = false ∨ ∀ p i, call.on p ≠ some (.move i) := by
    by_cases h : ∃ p i, call.on p = some (.move i)
    · obtain ⟨p, i, h⟩ := h
      exact Or.inl (((takes_or_taken h).resolve_right (htaken p i)).counted _)
    · exact Or.inr fun p i hon => h ⟨p, i, hon⟩
  have hpast : ∀ p j, (⟨call, .idle⟩ : Thread α).past T p j = t.past T p j := by
    intro p j
    rw [past_of_not_on (t := t) fun i => ha.not_on]
    rcases hcounted with h | h
    · unfold Thread.past
      split
      · rw [h]
        exact if_neg (by simp)
      · rfl
    · exact past_of_not_on fun i => h p i
  have hd : ∀ p j, done T ⟨{ c.shared with queue := q }, c.threads.set k ⟨call, .idle⟩ ++ []⟩ p j = done T c p j :=
    fun p j => done_same ht (hpast p j)
  have hd' : ∀ p, done T ⟨{ c.shared with queue := q }, c.threads.set k ⟨call, .idle⟩ ++ []⟩ p = done T c p :=
    fun p => funext (hd p)
  have hlies := lies_same { c.shared with queue := q } ⟨call, .idle⟩ ht rfl rfl (fun _ _ => rfl) (by rw [hst])
  refine ⟨hC, hL, hB, fun p hp => ?_, fun p => ?_, ?_, ?_, ?_, hI.nodup, hI.placed.congr hlies,
    hI.blank_step (by rfl) (outside_congr hlies), ?_⟩
  · rw [hels]
    exact hI.unmade p (hsize.trans hp)
  · simp only [hels, hd']
    obtain ⟨n, u, st, hX, hP⟩ := hI.indexed p
    by_cases hp : Puts p call
    · have halone : ∀ (m : Nat) (u : Thread α), m ≠ k → c.threads[m]? = some u → ¬ Puts p u.call := by
        intro m u hmk hu hpu
        exact hmk (puts_alone hC hL (Family.get_step_of_ne hu (Ne.symm hmk) _ []) hpu
          (Family.get_step ht ⟨call, .idle⟩ []) hp)
      have hidle : st = .idle := hP.idle fun u hu hpu => by
        obtain ⟨m, hm⟩ := List.mem_iff_getElem?.mp hu
        by_cases hmk : m = k
        · subst hmk
          cases ht.symm.trans hm
          exact ha.puts p hpu
        · exact halone m u hmk hm hpu
      exact ⟨n, u, .idle, hidle ▸ hX, phase_put ⟨call, .idle⟩ ht hp halone⟩
    · exact ⟨n, u, st, hX, hP.keep ht (ha.puts p) hp⟩
  · exact hI.looks_step ht (fun _ _ _ => trivial) (fun _ _ _ _ _ _ _ _ => .refl ..) fun p j h => by rw [hd, h]
  · exact hI.contents_step ht (fun p i => iff_of_false (htaken p i) (ha.taken p i)) hels hd (fun _ _ _ hv => ⟨hv, rfl⟩)
      fun _ _ _ _ => ⟨rfl, rfl⟩
  · exact hI.reset_step ht (by simp) fun _ _ _ _ => rfl
  · refine hI.alone_step ht fun p e h => ?_
    obtain ⟨_, _, -, h⟩ := h
    cases h

theorem slots_setSlot {r b' r' : Nat} {el : Option α} (h : b' = b → r' ≠ r) :
    (s.setSlot b r el).slots b' r' = s.slots b' r' := by
  simp only [Shared.setSlot, Function.update_apply]
  by_cases hb : b' = b
  · rw [if_pos hb, Function.update_of_ne (h hb), hb]
  · rw [if_neg hb]

theorem slots_setSlot_self {r : Nat} {el : Option α} : (s.setSlot b r el).slots b r = el := by
  simp [Shared.setSlot]

theorem mod_ne {i j : Nat} (hd : i / T.blockSize = j / T.blockSize) (hne : i ≠ j) : i % T.blockSize ≠ j % T.blockSize := by
  intro h
  have h1 := Nat.div_add_mod i T.blockSize
  have h2 := Nat.div_add_mod j T.blockSize
  rw [hd, h] at h1
  exact hne (h1.symm.trans h2)

/-- The tail block is the one that the next element belongs to. -/
theorem Inv.tail_block (hI : Inv T c) (ht : c.threads[k]? = some t) (hp : Puts p t.call) (hst : t.storage = .construct) :
    ∃ e, (c.shared.indices p).value e = (c.shared.indices p).tailBlock ∧ (c.shared.indices p).tailBlock ≠ none ∧
      (c.shared.indices p).key e = T.blockSize * ((c.shared.queue.producers p).elements.length / T.blockSize) := by
  obtain ⟨n, u, st, hX, hP⟩ := hI.indexed p
  rw [hP.at ht hp, hst] at hX
  obtain ⟨h1, h2⟩ := hX.due
  have hB := T.blockSize_pos
  have hj : (c.shared.queue.producers p).elements.length / T.blockSize + 1 = n := by
    have h3 := Nat.div_lt_of_lt_mul h1
    have h4 : n - 1 ≤ (c.shared.queue.producers p).elements.length / T.blockSize := by
      rw [Nat.le_div_iff_mul_le hB, Nat.sub_mul, Nat.one_mul, Nat.mul_comm]
      omega
    omega
  have hd : done T c p ((c.shared.queue.producers p).elements.length / T.blockSize) < T.blockSize := by
    refine done_lt_of (hI.balanced p) (Family.total_eq_zero.mpr fun u hu => if_neg fun h => ?_)
    exact Nat.lt_irrefl _ (Balanced.lt_length (hI.balanced p) hu h.1)
  have hv := hX.tailBlock id _ hj hd
  rcases hX.lives _ (by omega) hd with h | ⟨hu, hnone⟩
  · exact absurd h.2 id
  · have h0 : n - 1 - (c.shared.queue.producers p).elements.length / T.blockSize = 0 := by omega
    rw [h0] at hu hnone
    refine ⟨_, hv, hv ▸ hnone, ?_⟩
    rw [hX.ring.keys 0 hu, ← hj, Nat.sub_zero, Nat.add_sub_cancel]

theorem Inv.construct (hI : Inv T c) (ht : c.threads[k]? = some t) {id : Nat} {a : α}
    (hcall : t.call = .enqueue id a (.construct p)) (hst : t.storage = .construct)
    (hb : (c.shared.indices p).tailBlock = some b) :
    Inv T ⟨{ c.shared.setSlot b ((c.shared.queue.producers p).tailIndex % T.blockSize) (some a) with
        queue := c.shared.queue.modify p fun x => { x with elements := x.elements ++ [a] } },
      c.threads.set k ⟨.enqueue id a (.publish p), .idle⟩ ++ []⟩ := by
  have hp : Puts p t.call := hcall ▸ .intro
  obtain ⟨e, hv, -, hk⟩ := hI.tail_block ht hp hst
  rw [hb] at hv
  rw [hI.tail_eq ht hp]
  have hm : ConcurrentQueue.Moves c.shared.queue t.call
      (c.shared.queue.modify p fun x => { x with elements := x.elements ++ [a] })
      (.enqueue id a (.publish p)) := hcall ▸ .enqueue .construct
  generalize hs : ({ c.shared.setSlot b ((c.shared.queue.producers p).elements.length % T.blockSize) (some a) with
    queue := c.shared.queue.modify p fun x => { x with elements := x.elements ++ [a] } } : Shared α) = s'
  have hqueue : s'.queue = c.shared.queue.modify p fun x => { x with elements := x.elements ++ [a] } := by rw [← hs]
  have hindices : s'.indices = c.shared.indices := by rw [← hs]; rfl
  have hdeq : s'.elementsCompletelyDequeued = c.shared.elementsCompletelyDequeued := by rw [← hs]; rfl
  have hslots : ∀ b' r', s'.slots b' r' =
      (c.shared.setSlot b ((c.shared.queue.producers p).elements.length % T.blockSize) (some a)).slots b' r' := by
    intro b' r'
    rw [← hs]
  obtain ⟨hC, hL, hB⟩ := hI.queue s' ⟨.enqueue id a (.publish p), .idle⟩ ht (hqueue ▸ hm)
  have hself : (s'.queue.producers p).elements = (c.shared.queue.producers p).elements ++ [a] := by
    rw [hqueue]
    simp [ConcurrentQueue.Shared.modify]
  have hother : ∀ q, q ≠ p → (s'.queue.producers q).elements = (c.shared.queue.producers q).elements := by
    intro q hq
    simp only [hqueue, ConcurrentQueue.Shared.modify, Function.update_of_ne hq]
  have hnp : ∀ q, ¬ Puts q (.enqueue id a (.publish p)) := fun q h => by cases h
  have hd : ∀ q j, done T ⟨s', c.threads.set k ⟨.enqueue id a (.publish p), .idle⟩ ++ []⟩ q j = done T c q j := by
    refine fun q j => done_same ht ?_
    rw [past_of_not_on (t := t) fun i h => by rw [hp.not_on] at h; cases h]
    exact past_of_not_on fun i h => by cases h
  have hd' : ∀ q, done T ⟨s', c.threads.set k ⟨.enqueue id a (.publish p), .idle⟩ ++ []⟩ q = done T c q :=
    fun q => funext (hd q)
  have hlies := lies_same s' ⟨.enqueue id a (.publish p), .idle⟩ ht (by rw [← hs]; rfl) (by rw [← hs]; rfl)
    (fun q e => by rw [hindices]) (by rw [hst]; rfl)
  have hmoved : ∀ {q i}, Moved ⟨s', c.threads.set k ⟨.enqueue id a (.publish p), .idle⟩ ++ []⟩ q i ↔ Moved c q i :=
    moved_step ht fun _ _ => iff_of_false (fun h => by cases h) fun h => by rw [hcall] at h; cases h
  refine ⟨hC, hL, hB, fun q hq => ?_, fun q => ?_, ?_, fun q e' b' j hv' hk' => ?_, ?_, ?_, hI.placed.congr hlies,
    fun b' hb' r hr => ?_, ?_⟩
  · have hsize : s'.queue.size = c.shared.queue.size := by rw [hqueue]; rfl
    have hne : q ≠ p := by
      rintro rfl
      obtain ⟨l, hL⟩ := hI.listed
      have hfits := hL.fits _ (Family.mem_of_get (abs_get ht))
      rw [hcall] at hfits
      have := hL.made q hfits.1
      rw [abs_shared] at this
      change s'.queue.size ≤ q at hq
      omega
    change (s'.queue.producers q).elements = []
    rw [hother q hne]
    exact hI.unmade q (hsize ▸ hq)
  · simp only [hindices, hd']
    obtain ⟨n, u, st, hX, hP⟩ := hI.indexed q
    by_cases hqp : q = p
    · subst hqp
      rw [hP.at ht hp, hst] at hX
      rw [hself, List.length_append, List.length_singleton]
      exact ⟨n, u, .idle, hX.construct, phase_leave ht (hnp q) (hI.others ht hp)⟩
    · rw [hother q hqp]
      exact ⟨n, u, st, hX, hP.keep ht (fun h => hqp (hp.unique h)) (hnp q)⟩
  · refine hI.looks_step ht (fun q i h => by cases h) (fun _ _ q _ _ _ _ _ => ?_) fun q j h => by rw [hd, h]
    rw [hindices]
    exact .refl ..
  · simp only [hindices] at hv' hk'
    have hold := hI.contents q e' b' j hv' hk'
    have hblock : b' = b → q = p ∧ j = (c.shared.queue.producers p).elements.length / T.blockSize := by
      rintro rfl
      cases hI.placed.alone (.entry q e') (.entry p e) b' hv' hv
      exact ⟨rfl, T.base_inj (hk'.symm.trans hk)⟩
    have hkeep : ∀ i, i / T.blockSize = j → (q = p → i ≠ (c.shared.queue.producers p).elements.length) →
        s'.slots b' (i % T.blockSize) = c.shared.slots b' (i % T.blockSize) := by
      intro i hi hne
      rw [hslots]
      exact slots_setSlot fun hb => mod_ne (by rw [hi, (hblock hb).2]) (hne (hblock hb).1)
    refine ⟨?_, fun i hi hmv => ?_, fun i hi hmv => ?_⟩
    · rw [hd, hdeq]
      exact hold.counted
    · replace hold := hold.holds i hi ((not_congr hmoved).mp hmv)
      change s'.slots b' (i % T.blockSize) = (s'.queue.producers q).elements[i]?
      by_cases hqp : q = p
      · subst hqp
        rw [hself]
        by_cases hnew : i = (c.shared.queue.producers q).elements.length
        · obtain ⟨n, u, st, hX, -⟩ := hI.indexed q
          have he : e' = e := hX.key_inj hv hk (by rw [hk', ← hi, hnew])
          subst he
          cases hv'.symm.trans hv
          rw [hslots, hnew, slots_setSlot_self, List.getElem?_concat_length]
        · rw [hkeep i hi fun _ => hnew, hold, List.getElem?_append]
          split
          next => rfl
          next hle =>
            rw [List.getElem?_eq_none (Nat.le_of_not_lt hle), List.getElem?_eq_none]
            simp only [List.length_singleton]
            omega
      · rw [hother q hqp, hkeep i hi fun h => absurd h hqp, hold]
    · replace hmv := hmoved.mp hmv
      obtain ⟨u, hu, hui⟩ := hmv
      refine (hkeep i hi fun hqp => ?_).trans (hold.gone i hi ⟨u, hu, hui⟩)
      subst hqp
      exact Nat.ne_of_lt (Balanced.lt_length (hI.balanced q) hu hui.on)
  · exact hI.reset_step ht (by simp) fun _ _ _ _ => by rw [hdeq]
  · rw [← hs]
    exact hI.nodup
  · replace hb' := outside_congr hlies b' hb'
    have hne : b' ≠ b := fun hb => hI.not_outside hv (hb ▸ hb')
    rw [hslots, slots_setSlot fun hb => absurd hb hne]
    exact hI.blank b' hb' r hr
  · refine hI.alone_step ht fun q e h => ?_
    obtain ⟨_, _, h, -⟩ := h
    cases h

/-- The element that a call finds in its block is the one at its index. -/
theorem Inv.slot (hI : Inv T c) (ht : c.threads[k]? = some t) (hi : Takes p i t.call) (hst : t.storage = .move e b) :
    c.shared.slots b (i % T.blockSize) = (c.shared.queue.producers p).elements[i]? := by
  have hm := Family.mem_of_get ht
  have hL := hI.looks t hm p i hi.on
  rw [hst] at hL
  refine (hI.contents p e b _ hL.2.2 hL.2.1).holds i rfl fun hmoved => ?_
  obtain ⟨u, hu, hui⟩ := hmoved
  obtain ⟨m, hu⟩ := List.mem_iff_getElem?.mp hu
  have hne : k ≠ m := by
    rintro rfl
    cases ht.symm.trans hu
    obtain ⟨call, st⟩ := t
    cases hi <;> cases hui
  have h1 := Family.le_total_of_ne (ConcurrentQueue.Thread.weight (Attempt.takes i) p) (abs_get ht) (abs_get hu) hne
  have h2 := (hI.balanced p).taken i
  rw [ConcurrentQueue.weight_some hi.on, ConcurrentQueue.weight_some hui.on] at h1
  simp only [Attempt.takes, if_true] at h1
  unfold ConcurrentQueue.calls at h2
  split at h2 <;> omega

theorem Takes.moves {q : ConcurrentQueue.Shared α} {call : ConcurrentQueue.Thread α} (h : Takes p i call) :
    ConcurrentQueue.Moves q call q (.dequeue (.returned (some (p, i, (q.producers p).elements[i]?)))) := by
  cases h with
  | best => exact .dequeue (.bestTaken (a := .move i) rfl)
  | other => exact .dequeue (.otherTaken (a := .move i) rfl)

theorem Inv.move (hI : Inv T c) (ht : c.threads[k]? = some t) (hi : Takes p i t.call) (hst : t.storage = .move e b) :
    Inv T ⟨c.shared.setSlot b (i % T.blockSize) none,
      c.threads.set k ⟨.dequeue (.returned (some (p, i, c.shared.slots b (i % T.blockSize)))), .setEmpty e b⟩ ++ []⟩ := by
  have hL := hI.looks t (Family.mem_of_get ht) p i hi.on
  rw [hst] at hL
  obtain ⟨-, hk, hv⟩ := hL
  rw [hI.slot ht hi hst]
  generalize hc : (ConcurrentQueue.Thread.dequeue (.returned (some (p, i, (c.shared.queue.producers p).elements[i]?))) :
    ConcurrentQueue.Thread α) = call
  have htaken : Taken p i call := hc ▸ .intro
  have hm : ConcurrentQueue.Moves c.shared.queue t.call c.shared.queue call := hc ▸ hi.moves
  obtain ⟨hC, hL, hB⟩ := hI.queue (c.shared.setSlot b (i % T.blockSize) none) ⟨call, .setEmpty e b⟩ ht hm
  have hzero : ∀ (u : Thread α) q j, u.counted = false → u.past T q j = 0 := by
    intro u q j h
    unfold Thread.past
    split
    · rw [h]
      exact if_neg (by simp)
    · rfl
  have hd : ∀ q j, done T ⟨c.shared.setSlot b (i % T.blockSize) none, c.threads.set k ⟨call, .setEmpty e b⟩ ++ []⟩ q j =
      done T c q j := by
    refine fun q j => done_same ht ?_
    rw [hzero _ q j (htaken.not_counted e b), hzero t q j (hi.counted t.storage)]
  have hd' : ∀ q, done T ⟨c.shared.setSlot b (i % T.blockSize) none, c.threads.set k ⟨call, .setEmpty e b⟩ ++ []⟩ q =
      done T c q := fun q => funext (hd q)
  have hnp : ∀ q, ¬ Puts q call := not_puts_of_on htaken.on
  have hlies := lies_same (c.shared.setSlot b (i % T.blockSize) none) ⟨call, .setEmpty e b⟩ ht rfl rfl
    (fun _ _ => rfl) (by rw [hst]; rfl)
  have hold : ∀ q i', Taken q i' t.call → False := by
    intro q i' h
    obtain ⟨call₀, st₀⟩ := t
    cases hi <;> cases h
  refine ⟨hC, hL, hB, hI.unmade, fun q => ?_, ?_, fun q e' b' j hv' hk' => ?_, ?_, hI.nodup, hI.placed.congr hlies,
    fun b' hb' r hr => ?_, ?_⟩
  · simp only [hd']
    obtain ⟨n, u, st, hX, hP⟩ := hI.indexed q
    exact ⟨n, u, st, hX, hP.keep ht (not_puts hi.on q) (hnp q)⟩
  · refine hI.looks_step ht (fun q i' hon => ?_) (fun _ _ _ _ _ _ _ _ => .refl ..) fun q j h => by rw [hd, h]
    obtain ⟨rfl, rfl⟩ := on_unique htaken.on hon
    rw [htaken.not_counted]
    exact ⟨by simp, hk, hv⟩
  · have hC := hI.contents q e' b' j hv' hk'
    have hkeep : ∀ i', i' / T.blockSize = j → (q = p → i' ≠ i) →
        (c.shared.setSlot b (i % T.blockSize) none).slots b' (i' % T.blockSize) = c.shared.slots b' (i' % T.blockSize) := by
      intro i' hi' hne
      refine slots_setSlot fun hb => ?_
      subst hb
      cases hI.placed.alone (.entry q e') (.entry p e) b' hv' hv
      exact mod_ne (by rw [hi', T.base_inj (hk'.symm.trans hk)]) (hne rfl)
    refine ⟨hC.counted.trans (hd q j).symm, fun i' hi' hmv => ?_, fun i' hi' hmv => ?_⟩
    · refine (hkeep i' hi' ?_).trans (hC.holds i' hi' ?_)
      · rintro rfl rfl
        exact hmv ⟨_, Family.mem_step_self ht _ [], htaken⟩
      · rintro ⟨u, hu, hui⟩
        have hne : u ≠ t := fun h => hold q i' (h ▸ hui)
        exact hmv ⟨u, Family.mem_step_of_ne ht hu hne _ [], hui⟩
    · by_cases hnew : q = p ∧ i' = i
      · obtain ⟨rfl, rfl⟩ := hnew
        obtain ⟨n, u, st, hX, -⟩ := hI.indexed q
        have he : e' = e := hX.key_inj hv hk (by rw [hi']; exact hk')
        subst he
        cases hv'.symm.trans hv
        exact slots_setSlot_self
      · obtain ⟨u, hu, hui⟩ := hmv
        rcases Family.step_cases ht hu with rfl | hnil | ⟨m, -, hm⟩
        · obtain ⟨hq, hi''⟩ := on_unique htaken.on hui.on
          exact absurd ⟨hq, hi''⟩ hnew
        · cases hnil
        · exact (hkeep i' hi' fun hq hii => hnew ⟨hq, hii⟩).trans (hC.gone i' hi' ⟨u, Family.mem_of_get hm, hui⟩)
  · exact hI.reset_step ht (by simp) fun _ _ _ _ => rfl
  · replace hb' := outside_congr hlies b' hb'
    have hne : b' ≠ b := fun hb => hI.not_outside hv (hb ▸ hb')
    exact (slots_setSlot fun hb => absurd hb hne).trans (hI.blank b' hb' r hr)
  · refine hI.alone_step ht fun q e h => ?_
    obtain ⟨_, _, -, h⟩ := h
    cases h

end

end Xdispatch.BlockQueue
