import Mathlib.Data.Nat.Prime.Basic
import Xdispatch.BlockQueue.Model
import Xdispatch.Lib.Circular

/-!
# The block index

Of the headers only the last one is filled. An entry that is used again is used for
the block whose number is larger by the capacity, so that in every header, also in
one that was replaced, the numbers of the blocks go up by one from place to place, up
to a multiple of its capacity. That is why a call that reads an old header, or the
tail as it was, finds the entry of its block.
-/

namespace Xdispatch.BlockQueue

open Circular

namespace Traits

variable (T : Traits)

theorem two_le : 2 ≤ T.blockSize := by
  unfold blockSize
  calc 2 = 2 ^ 1 := rfl
    _ ≤ 2 ^ T.blockBits := Nat.pow_le_pow_right (by omega) T.block_pos

theorem blockSize_pos : 0 < T.blockSize := Nat.lt_of_lt_of_le (by omega) T.two_le

/-- The number of blocks that a word can count. -/
def span : Nat := 2 ^ (64 - T.blockBits)

theorem span_pos : 0 < T.span := Nat.two_pow_pos _

theorem word_eq : word = T.blockSize * T.span := by
  have := T.fits
  unfold word blockSize span
  rw [← Nat.pow_add]
  congr 1
  omega

theorem indexSize_dvd : T.indexSize ∣ T.span := by
  have := T.fits
  exact Nat.pow_dvd_pow 2 (by omega)

theorem valid (j : Nat) : T.blockSize * j ≠ invalidBlockBase := by
  intro h
  have h2 := T.two_le
  have := Nat.eq_one_of_mul_eq_one_right h
  omega

theorem base_inj {j k : Nat} (h : T.blockSize * j = T.blockSize * k) : j = k :=
  Nat.eq_of_mul_eq_mul_left T.blockSize_pos h

end Traits

namespace Index

def key (x : Index) (e : Nat) : Nat := (x.entries e).key

def value (x : Index) (e : Nat) : Option Nat := (x.entries e).value

/-- The entry `d` before that of the tail. -/
def entry (x : Index) (d : Nat) : Nat := x.header.index (back x.header.capacity x.header.tail d)

section
variable {T : Traits} {x : Index} {e e' k d : Nat} {v : Option Nat}

theorem key_setKey : (x.setKey e k).key e' = if e' = e then k else x.key e' := by
  simp only [key, setKey, Function.update_apply]
  split <;> rfl

theorem value_setKey : (x.setKey e k).value e' = x.value e' := by
  simp only [value, setKey, Function.update_apply]
  split
  next h => rw [h]
  · rfl

theorem key_setValue : (x.setValue e v).key e' = x.key e' := by
  simp only [key, setValue, Function.update_apply]
  split
  next h => rw [h]
  · rfl

theorem value_setValue : (x.setValue e v).value e' = if e' = e then v else x.value e' := by
  simp only [value, setValue, Function.update_apply]
  split <;> rfl

theorem header_setTail {t : Nat} : (x.setTail t).header = { x.header with tail := t } := Function.update_self ..

theorem headers_setTail {t h : Nat} (hne : h ≠ x.blockIndex) : (x.setTail t).headers h = x.headers h :=
  Function.update_of_ne hne ..

theorem headers_newBlockIndex {h : Nat} (hle : h ≤ x.blockIndex) : x.newBlockIndex.headers h = x.headers h :=
  Function.update_of_ne (by omega) ..

end

/-- The numbers of the blocks in a header go round, whatever has been put into its entries since. -/
structure Aligned (T : Traits) (x : Index) (h : Header) : Prop where
  pos : 0 < h.capacity
  tail : h.tail < h.capacity
  numbers : ∃ s, ∀ q, q < h.capacity → ∃ k, x.key (h.index q) = T.blockSize * k ∧ k ≡ q + s [MOD h.capacity]

/-- `n` blocks have been put into the index, and the last `u` of them are in the last header; the next one may
have its key already. -/
structure Ring (T : Traits) (x : Index) (n u : Nat) : Prop where
  two : 2 ≤ x.header.capacity
  span : x.header.capacity ∣ T.span
  next : x.nextBlockIndexCapacity = 2 * x.header.capacity
  tail : x.header.tail < x.header.capacity
  used : u ≤ n ∧ u ≤ x.header.capacity ∧ (0 < n → 0 < u)
  keys : ∀ d, d < u → x.key (x.entry d) = T.blockSize * (n - 1 - d)
  rest : ∀ d, u ≤ d → d < x.header.capacity → x.key (x.entry d) = invalidBlockBase ∨
    d + 1 = x.header.capacity ∧ x.key (x.entry d) = T.blockSize * n
  inj : ∀ q q', q < x.header.capacity → q' < x.header.capacity → x.header.index q = x.header.index q' → q = q'
  onto : ∀ e, e < x.made ↔ ∃ q, q < x.header.capacity ∧ x.header.index q = e
  fresh : ∀ e, x.made ≤ e → x.entries e = ⟨invalidBlockBase, none⟩
  old : ∀ h, h < x.blockIndex → (x.headers h).capacity ∣ x.header.capacity ∧ x.Aligned T (x.headers h)

section
variable {T : Traits} {x : Index} {n u d e : Nat}

theorem Ring.pos (hR : x.Ring T n u) : 0 < x.header.capacity := Nat.lt_of_lt_of_le (by omega) hR.two

theorem Ring.entry_inj (hR : x.Ring T n u) {d d' : Nat} (hd : d < x.header.capacity) (hd' : d' < x.header.capacity)
    (h : x.entry d = x.entry d') : d = d' :=
  back_inj hd hd' (hR.inj _ _ (back_lt hR.pos ..) (back_lt hR.pos ..) h)

theorem Ring.exists_entry (hR : x.Ring T n u) (he : e < x.made) : ∃ d, d < x.header.capacity ∧ x.entry d = e := by
  obtain ⟨q, hq, rfl⟩ := (hR.onto e).mp he
  obtain ⟨d, hd, hb⟩ := exists_back hq x.header.tail
  exact ⟨d, hd, by rw [entry, hb]⟩

theorem exists_entry_at {q : Nat} (hq : q < x.header.capacity) :
    ∃ d, d < x.header.capacity ∧ x.entry d = x.header.index q ∧ back x.header.capacity x.header.tail d = q := by
  obtain ⟨d, hd, hb⟩ := exists_back hq x.header.tail
  exact ⟨d, hd, by rw [entry, hb], hb⟩

theorem entry_newTail (hR : x.Ring T n u) : x.header.index x.newTail = x.entry (x.header.capacity - 1) := by
  rw [entry, back_next hR.pos, newTail]

/-- The number of a block is that of its place, up to the number that is due at the first place. -/
theorem Ring.numbers (hR : x.Ring T n u) {q k : Nat} (hq : q < x.header.capacity)
    (hk : x.key (x.header.index q) = T.blockSize * k) :
    k ≡ q + (n + x.header.capacity - 1 - x.header.tail) [MOD x.header.capacity] := by
  obtain ⟨d, hd, he, hb⟩ := exists_entry_at hq
  have hq' := back_add (t := x.header.tail) (Nat.le_of_lt hd)
  rw [hb] at hq'
  have htail := hR.tail
  have hused := hR.used
  rw [← he] at hk
  by_cases hu : d < u
  · have hk' := T.base_inj ((hR.keys d hu).symm.trans hk)
    have h1 : k + d ≡ q + (n + x.header.capacity - 1 - x.header.tail) + d [MOD x.header.capacity] :=
      calc k + d = n - 1 := by omega
        _ ≡ n - 1 + x.header.capacity [MOD x.header.capacity] := (Nat.add_modEq_right ..).symm
        _ = x.header.tail + (n + x.header.capacity - 1 - x.header.tail) := by omega
        _ ≡ (q + d) + (n + x.header.capacity - 1 - x.header.tail) [MOD x.header.capacity] := hq'.symm.add_right _
        _ = q + (n + x.header.capacity - 1 - x.header.tail) + d := by omega
    exact Nat.ModEq.add_right_cancel' _ h1
  · rcases hR.rest d (by omega) hd with hi | ⟨hlast, hn⟩
    · exact absurd (hk.symm.trans hi) (T.valid k)
    · have hk' := T.base_inj (hn.symm.trans hk)
      have h1 : k + d ≡ q + (n + x.header.capacity - 1 - x.header.tail) + d [MOD x.header.capacity] :=
        calc k + d = x.header.tail + (n + x.header.capacity - 1 - x.header.tail) := by omega
          _ ≡ (q + d) + (n + x.header.capacity - 1 - x.header.tail) [MOD x.header.capacity] := hq'.symm.add_right _
          _ = q + (n + x.header.capacity - 1 - x.header.tail) + d := by omega
      exact Nat.ModEq.add_right_cancel' _ h1

/-- Entries of two blocks are told apart by their keys. -/
theorem Ring.key_inj (hR : x.Ring T n u) {e e' j : Nat} (hj : j < n) (he : e < x.made) (he' : e' < x.made)
    (hk : x.key e = T.blockSize * j) (hk' : x.key e' = T.blockSize * j) : e = e' := by
  have key : ∀ d, d < x.header.capacity → x.key (x.entry d) = T.blockSize * j → d = n - 1 - j := by
    intro d hd hk
    have hused := hR.used
    by_cases hu : d < u
    · have := T.base_inj ((hR.keys d hu).symm.trans hk)
      omega
    · rcases hR.rest d (by omega) hd with hi | ⟨-, hn⟩
      · exact absurd (hk.symm.trans hi) (T.valid j)
      · have := T.base_inj (hn.symm.trans hk)
        omega
  obtain ⟨d, hd, rfl⟩ := hR.exists_entry he
  obtain ⟨d', hd', rfl⟩ := hR.exists_entry he'
  rw [key d hd hk, key d' hd' hk']

/-! ## What `enqueue` does -/

theorem Ring.newTail_lt (hR : x.Ring T n u) : x.newTail < x.header.capacity := Nat.mod_lt _ hR.pos

theorem Ring.entry_lt (hR : x.Ring T n u) (d : Nat) : x.entry d < x.made :=
  (hR.onto _).mpr ⟨_, back_lt hR.pos .., rfl⟩

/-- The last place has the key of the block that was put there a round ago, if it has been used. -/
theorem Ring.last (hR : x.Ring T n u) {k : Nat} (hk : x.key (x.entry (x.header.capacity - 1)) = T.blockSize * k) :
    n = k + x.header.capacity ∨ n = k := by
  have hused := hR.used
  have hpos := hR.pos
  by_cases hu : x.header.capacity - 1 < u
  · have := T.base_inj ((hR.keys _ hu).symm.trans hk)
    exact Or.inl (by omega)
  · rcases hR.rest (x.header.capacity - 1) (by omega) (by omega) with hi | ⟨-, hn⟩
    · exact absurd (hk.symm.trans hi) (T.valid k)
    · exact Or.inr (T.base_inj (hn.symm.trans hk))

theorem Aligned.setKey (hR : x.Ring T n u) {h : Header} (hdvd : h.capacity ∣ x.header.capacity) (hA : x.Aligned T h) :
    (x.setKey (x.entry (x.header.capacity - 1)) (T.blockSize * n)).Aligned T h := by
  obtain ⟨s, hs⟩ := hA.numbers
  refine ⟨hA.pos, hA.tail, s, fun q hq => ?_⟩
  obtain ⟨k, hk, hmod⟩ := hs q hq
  rw [key_setKey]
  by_cases he : h.index q = x.entry (x.header.capacity - 1)
  · rw [if_pos he]
    refine ⟨n, rfl, Nat.ModEq.trans ?_ hmod⟩
    rw [he] at hk
    rcases hR.last hk with h | h
    · rw [h]
      exact (Nat.modEq_zero_iff_dvd.mpr hdvd).add_left k
    · rw [h]
  · rw [if_neg he]
    exact ⟨k, hk, hmod⟩

theorem Ring.setKey (hR : x.Ring T n u) :
    (x.setKey (x.entry (x.header.capacity - 1)) (T.blockSize * n)).Ring T n (min u (x.header.capacity - 1)) := by
  have htwo := hR.two
  have hused := hR.used
  have hne : ∀ d, d < x.header.capacity - 1 → x.entry d ≠ x.entry (x.header.capacity - 1) := by
    intro d hd h
    have := hR.entry_inj (by omega) (by omega) h
    omega
  refine ⟨hR.two, hR.span, hR.next, hR.tail, ?_, fun d hd => ?_, fun d hd hd' => ?_, hR.inj, hR.onto, fun e he => ?_,
    fun h hh => ?_⟩
  · change _ ∧ _ ≤ x.header.capacity ∧ _
    omega
  · change (x.setKey _ _).key (x.entry d) = _
    rw [key_setKey, if_neg (hne d (by omega))]
    exact hR.keys d (by omega)
  · change (x.setKey _ _).key (x.entry d) = _ ∨ d + 1 = x.header.capacity ∧ (x.setKey _ _).key (x.entry d) = _
    change d < x.header.capacity at hd'
    rw [key_setKey]
    by_cases hlast : d = x.header.capacity - 1
    · rw [if_pos (by rw [hlast])]
      exact Or.inr ⟨by omega, rfl⟩
    · rw [if_neg (hne d (by omega))]
      exact hR.rest d (by omega) hd'
  · refine (Function.update_of_ne (fun h => ?_) ..).trans (hR.fresh e he)
    have := hR.entry_lt (x.header.capacity - 1)
    change x.made ≤ e at he
    omega
  · obtain ⟨hdvd, hA⟩ := hR.old h hh
    exact ⟨hdvd, hA.setKey hR hdvd⟩

theorem entry_setTail_succ (hd : d < x.header.capacity) :
    (x.setTail x.newTail).entry (d + 1) = x.entry d := by
  unfold entry
  rw [header_setTail]
  simp only [newTail]
  rw [back_succ hd]

theorem entry_setTail_zero (hR : x.Ring T n u) : (x.setTail x.newTail).entry 0 = x.entry (x.header.capacity - 1) := by
  rw [← entry_newTail hR]
  unfold entry
  rw [header_setTail]
  simp only []
  rw [back_zero hR.newTail_lt]

theorem Ring.setTail (hR : x.Ring T n u) (hk : x.key (x.entry (x.header.capacity - 1)) = T.blockSize * n) :
    (x.setTail x.newTail).Ring T (n + 1) (min (u + 1) x.header.capacity) := by
  have htwo := hR.two
  have hused := hR.used
  have hkey : ∀ e, (x.setTail x.newTail).key e = x.key e := fun _ => rfl
  refine ⟨?_, ?_, ?_, ?_, ?_, fun d hd => ?_, fun d hd hd' => ?_, ?_, fun e => ?_, hR.fresh, fun h hh => ?_⟩
  · rw [header_setTail]
    exact htwo
  · rw [header_setTail]
    exact hR.span
  · rw [header_setTail]
    exact hR.next
  · rw [header_setTail]
    exact hR.newTail_lt
  · rw [header_setTail]
    simp only []
    omega
  · rw [hkey]
    cases d with
    | zero =>
      rw [entry_setTail_zero hR]
      exact hk
    | succ d =>
      rw [entry_setTail_succ (by omega), hR.keys d (by omega)]
      congr 1
      omega
  · rw [hkey]
    rw [header_setTail] at hd' ⊢
    simp only [] at hd' ⊢
    cases d with
    | zero => omega
    | succ d =>
      rw [entry_setTail_succ (by omega)]
      rcases hR.rest d (by omega) (by omega) with h | ⟨h, -⟩
      · exact Or.inl h
      · omega
  · rw [header_setTail]
    exact hR.inj
  · rw [header_setTail]
    exact hR.onto e
  · have hne : h ≠ x.blockIndex := Nat.ne_of_lt hh
    rw [headers_setTail hne, header_setTail]
    obtain ⟨hdvd, hA⟩ := hR.old h hh
    exact ⟨hdvd, hA.pos, hA.tail, hA.numbers⟩

theorem Ring.setValue (hR : x.Ring T n u) (he : e < x.made) (v : Option Nat) : (x.setValue e v).Ring T n u := by
  refine ⟨hR.two, hR.span, hR.next, hR.tail, hR.used, fun d hd => ?_, fun d hd hd' => ?_, hR.inj, hR.onto, fun e' he' => ?_,
    fun h hh => ?_⟩
  · rw [key_setValue]
    exact hR.keys d hd
  · rw [key_setValue]
    exact hR.rest d hd hd'
  · refine (Function.update_of_ne (fun h => ?_) ..).trans (hR.fresh e' he')
    change x.made ≤ e' at he'
    omega
  · obtain ⟨hdvd, hA⟩ := hR.old h hh
    obtain ⟨s, hs⟩ := hA.numbers
    refine ⟨hdvd, hA.pos, hA.tail, s, fun q hq => ?_⟩
    rw [key_setValue]
    exact hs q hq

theorem Ring.setTailBlock (hR : x.Ring T n u) (v : Option Nat) : Index.Ring T { x with tailBlock := v } n u :=
  ⟨hR.two, hR.span, hR.next, hR.tail, hR.used, hR.keys, hR.rest, hR.inj, hR.onto, hR.fresh, fun h hh =>
    have hA := (hR.old h hh).2
    ⟨(hR.old h hh).1, hA.pos, hA.tail, hA.numbers⟩⟩

/-! ## A larger table -/

theorem newBlockIndex_header : x.newBlockIndex.header = ⟨x.nextBlockIndexCapacity,
    (x.header.capacity - 1) % x.nextBlockIndexCapacity, fun i =>
      if i < x.header.capacity then x.header.index ((x.header.tail + 1 + i) % x.header.capacity)
      else x.made + (i - x.header.capacity)⟩ :=
  Function.update_self ..

/-- The entries that are in the table come first, the oldest one at the front. -/
theorem newBlockIndex_entry (hR : x.Ring T n u) (hd : d < x.header.capacity) : x.newBlockIndex.entry d = x.entry d := by
  have hpos := hR.pos
  unfold entry
  rw [newBlockIndex_header]
  simp only [hR.next]
  have hb : back (2 * x.header.capacity) ((x.header.capacity - 1) % (2 * x.header.capacity)) d =
      x.header.capacity - 1 - d := by
    unfold back
    rw [Nat.mod_eq_of_lt (by omega : x.header.capacity - 1 < 2 * x.header.capacity)]
    have : x.header.capacity - 1 + 2 * x.header.capacity - d = x.header.capacity - 1 - d + 2 * x.header.capacity := by omega
    rw [this, Nat.add_mod_right, Nat.mod_eq_of_lt (by omega)]
  rw [hb, if_pos (by omega)]
  have : x.header.tail + 1 + (x.header.capacity - 1 - d) = x.header.tail + x.header.capacity - d := by omega
  rw [this]
  rfl

/-- And then the new ones. -/
theorem newBlockIndex_entry_new (hR : x.Ring T n u) (hd : x.header.capacity ≤ d) (hd' : d < 2 * x.header.capacity) :
    x.newBlockIndex.entry d = x.made + (2 * x.header.capacity - 1 - d) := by
  have hpos := hR.pos
  unfold entry
  rw [newBlockIndex_header]
  simp only [hR.next]
  have hb : back (2 * x.header.capacity) ((x.header.capacity - 1) % (2 * x.header.capacity)) d =
      3 * x.header.capacity - 1 - d := by
    unfold back
    rw [Nat.mod_eq_of_lt (by omega : x.header.capacity - 1 < 2 * x.header.capacity), Nat.mod_eq_of_lt (by omega)]
    omega
  rw [hb, if_neg (by omega)]
  omega

theorem dvd_span_of_le {c : Nat} (hc : c ∣ T.span) (hle : 2 * c ≤ T.span) : 2 * c ∣ T.span := by
  unfold Traits.span at *
  obtain ⟨a, -, rfl⟩ := (Nat.dvd_prime_pow Nat.prime_two).mp hc
  rw [← Nat.pow_succ'] at hle ⊢
  exact Nat.pow_dvd_pow 2 ((Nat.pow_le_pow_iff_right (by omega)).mp hle)

theorem Ring.newBlockIndex (hR : x.Ring T n u) (hu : u = x.header.capacity)
    (hw : x.nextBlockIndexCapacity * T.blockSize ≤ word) : x.newBlockIndex.Ring T n u := by
  have htwo := hR.two
  have hnext := hR.next
  have htail := hR.tail
  have hused := hR.used
  have hcap : x.newBlockIndex.header.capacity = 2 * x.header.capacity := by
    rw [newBlockIndex_header]
    exact hnext
  have hkey : ∀ e, x.newBlockIndex.key e = x.key e := fun _ => rfl
  have hindex : ∀ q, x.newBlockIndex.header.index q =
      if q < x.header.capacity then x.header.index ((x.header.tail + 1 + q) % x.header.capacity)
      else x.made + (q - x.header.capacity) := by
    intro q
    rw [newBlockIndex_header]
  have hmade : ∀ q, x.header.index ((x.header.tail + 1 + q) % x.header.capacity) < x.made := fun q =>
    (hR.onto _).mpr ⟨_, Nat.mod_lt _ hR.pos, rfl⟩
  refine ⟨by omega, ?_, ?_, ?_, by omega, fun d hd => ?_, fun d hd hd' => ?_, fun q q' hq hq' h => ?_, fun e => ?_,
    fun e he => ?_, fun h hh => ?_⟩
  · rw [hcap]
    refine dvd_span_of_le hR.span ?_
    rw [hnext, T.word_eq, Nat.mul_comm T.blockSize] at hw
    exact Nat.le_of_mul_le_mul_right hw T.blockSize_pos
  · rw [hcap, ← hnext]
    rfl
  · rw [hcap, newBlockIndex_header]
    simp only []
    rw [hnext, Nat.mod_eq_of_lt (by omega)]
    omega
  · rw [hkey, newBlockIndex_entry hR (by omega)]
    exact hR.keys d hd
  · rw [hcap] at hd' 
    rw [hkey, newBlockIndex_entry_new hR (by omega) hd']
    exact Or.inl (by rw [key, hR.fresh _ (by omega)])
  · rw [hcap] at hq hq'
    rw [hindex, hindex] at h
    by_cases h1 : q < x.header.capacity
    · by_cases h2 : q' < x.header.capacity
      · rw [if_pos h1, if_pos h2] at h
        have := hR.inj _ _ (Nat.mod_lt _ hR.pos) (Nat.mod_lt _ hR.pos) h
        exact Nat.ModEq.eq_of_lt_of_lt (Nat.ModEq.add_left_cancel' _ this) h1 h2
      · rw [if_pos h1, if_neg h2] at h
        have := hmade q
        omega
    · by_cases h2 : q' < x.header.capacity
      · rw [if_neg h1, if_pos h2] at h
        have := hmade q'
        omega
      · rw [if_neg h1, if_neg h2] at h
        omega
  · change e < x.made + x.header.capacity ↔ _
    rw [hcap]
    constructor
    · intro he
      by_cases hlt : e < x.made
      · obtain ⟨d, hd, rfl⟩ := hR.exists_entry hlt
        refine ⟨_, ?_, newBlockIndex_entry hR hd⟩
        rw [← hcap]
        exact back_lt (by omega) ..
      · exact ⟨e - x.made + x.header.capacity, by omega, by rw [hindex, if_neg (by omega)]; omega⟩
    · intro he
      obtain ⟨q, hq, rfl⟩ := he
      rw [hindex]
      split
      · have := hmade q
        omega
      · omega
  · refine hR.fresh e ?_
    change x.made + x.header.capacity ≤ e at he
    omega
  · change h < x.blockIndex + 1 at hh
    rw [headers_newBlockIndex (by omega), hcap]
    by_cases hlt : h < x.blockIndex
    · obtain ⟨hdvd, hA⟩ := hR.old h hlt
      exact ⟨Dvd.dvd.mul_left hdvd 2, hA.pos, hA.tail, hA.numbers⟩
    · have hh' : h = x.blockIndex := by omega
      subst hh'
      refine ⟨Dvd.intro_left 2 rfl, hR.pos, htail, n + x.header.capacity - 1 - x.header.tail, fun q hq => ?_⟩
      obtain ⟨d, hd, he, -⟩ := exists_entry_at hq
      have hk := hR.keys d (by omega)
      rw [he] at hk
      exact ⟨_, hk, hR.numbers hq hk⟩

/-! ## Finding a block -/

/-- In whatever header a call looks, and from whatever place, it finds the entry with the key of its
block. -/
theorem Ring.find (hR : x.Ring T n u) {h q t i k : Nat} (hh : h ≤ x.blockIndex) (hq : q < (x.headers h).capacity)
    (hi : x.key ((x.headers h).index q) = T.blockSize * (i / T.blockSize))
    (hk : x.key ((x.headers h).index t) = T.blockSize * k) (ht : t < (x.headers h).capacity) : x.find T h t i = q := by
  have key : (x.headers h).capacity ∣ T.span ∧ ∃ s, ∀ q k, q < (x.headers h).capacity →
      x.key ((x.headers h).index q) = T.blockSize * k → k ≡ q + s [MOD (x.headers h).capacity] := by
    by_cases hlt : h < x.blockIndex
    · obtain ⟨hdvd, hA⟩ := hR.old h hlt
      obtain ⟨s, hs⟩ := hA.numbers
      refine ⟨Nat.dvd_trans hdvd hR.span, s, fun q k hq hk => ?_⟩
      obtain ⟨k', hk', hmod⟩ := hs q hq
      exact T.base_inj (hk'.symm.trans hk) ▸ hmod
    · have hh' : h = x.blockIndex := by omega
      subst hh'
      exact ⟨hR.span, _, fun q k hq hk => hR.numbers hq hk⟩
  obtain ⟨hdvd, s, hs⟩ := key
  have hd := Circular.distance T.blockSize_pos T.span_pos (i / T.blockSize) k
  rw [← T.word_eq] at hd
  have hfind : x.find T h t i =
      (t + (T.blockSize * (i / T.blockSize) + (word - T.blockSize * k % word)) % word / T.blockSize) %
      (x.headers h).capacity := by
    rw [← hk]
    rfl
  rw [hfind]
  exact Circular.find hq (hs q _ hq hi) (hs t k ht hk) (hd.of_dvd hdvd)

end

end Index

end Xdispatch.BlockQueue
