import Xdispatch.BlockQueue.Steps

/-!
# The blocks in an index

Block `j` of a producer holds the elements from `j * BLOCK_SIZE` on. As long as one of them has
not been taken out and counted, the block stays in its entry: the entry is not empty, so no
other block can be put there, and no other call can clear it.
-/

namespace Xdispatch.BlockQueue

open Circular

/-- The call has an entry for its block, and no block in it yet. -/
def Storage.filling : Storage → Prop
  | .requisition _ | .reset .. | .storeValue .. => True
  | _ => False

namespace Index

section
variable (T : Traits) (x : Index)

/-- What the owner of the index knows in its call, with `L` elements and `n` blocks put into it. -/
def Due (L n : Nat) : Storage → Prop
  | .idle => L ≤ T.blockSize * n ∧ T.blockSize * n < L + T.blockSize
  | .test => L = T.blockSize * n
  | .grow => L = T.blockSize * n ∧ ∃ j, j < n ∧ x.key (x.entry (x.header.capacity - 1)) = T.blockSize * j
  | .storeKey e newTail => L = T.blockSize * n ∧ newTail = x.newTail ∧ e = x.entry (x.header.capacity - 1) ∧ x.value e = none
  | .storeTail e newTail => L = T.blockSize * n ∧ newTail = x.newTail ∧ e = x.entry (x.header.capacity - 1) ∧
    x.value e = none ∧ x.key e = T.blockSize * n
  | .requisition e | .reset e _ | .storeValue e _ => L + T.blockSize = T.blockSize * n ∧ e = x.entry 0 ∧ x.value e = none
  | .construct => L < T.blockSize * n ∧ T.blockSize * n ≤ L + T.blockSize
  | _ => False

/-- `done j` of the elements of block `j` have been taken out and counted. -/
structure Indexed (L : Nat) (done : Nat → Nat) (n u : Nat) (st : Storage) : Prop where
  ring : x.Ring T n u
  due : x.Due T L n st
  lives : ∀ j, j < n → done j < T.blockSize → j + 1 = n ∧ st.filling ∨ n - 1 - j < u ∧ x.value (x.entry (n - 1 - j)) ≠ none
  tailBlock : ¬ st.filling → ∀ j, j + 1 = n → done j < T.blockSize → x.value (x.entry 0) = x.tailBlock
  valued : ∀ e b, x.value e = some b → ∃ j, j < n ∧ x.key e = T.blockSize * j

/-- What a call knows that has taken index `i`, and has counted the element or not. -/
def Looks (done : Nat → Nat) (counted : Prop) (i : Nat) : Storage → Prop
  | .idle | .free _ => True
  | .loadTail h => ¬ counted ∧ h ≤ x.blockIndex ∧
    ∃ q, q < (x.headers h).capacity ∧ x.key ((x.headers h).index q) = T.blockSize * (i / T.blockSize)
  | .loadKey h t => ¬ counted ∧ h ≤ x.blockIndex ∧
    (∃ q, q < (x.headers h).capacity ∧ x.key ((x.headers h).index q) = T.blockSize * (i / T.blockSize)) ∧
    t < (x.headers h).capacity ∧ ∃ k, x.key ((x.headers h).index t) = T.blockSize * k
  | .loadValue h q => ¬ counted ∧ h ≤ x.blockIndex ∧ q < (x.headers h).capacity ∧
    x.key ((x.headers h).index q) = T.blockSize * (i / T.blockSize)
  | .move e b | .setEmpty e b => ¬ counted ∧ x.key e = T.blockSize * (i / T.blockSize) ∧ x.value e = some b
  | .clear e b => x.key e = T.blockSize * (i / T.blockSize) ∧ x.value e = some b ∧ done (i / T.blockSize) = T.blockSize
  | _ => False

/-- What a step of another call leaves as it is, as far as block `j` is concerned. -/
structure Kept (x' : Index) (j : Nat) : Prop where
  grows : x.blockIndex ≤ x'.blockIndex
  headers : ∀ h, h ≤ x.blockIndex → (x'.headers h).capacity = (x.headers h).capacity ∧
    (x'.headers h).index = (x.headers h).index
  valid : ∀ e k, x.key e = T.blockSize * k → ∃ k', x'.key e = T.blockSize * k'
  key : ∀ e, x.key e = T.blockSize * j → x'.key e = T.blockSize * j
  value : ∀ e b, x.key e = T.blockSize * j → x.value e = some b → x'.value e = some b

/-- Block `j` is in the index. -/
def Live (j : Nat) : Prop := ∃ e b, x.key e = T.blockSize * j ∧ x.value e = some b

end

section
variable {T : Traits} {x x' : Index} {L n u e b : Nat} {done done' : Nat → Nat} {st : Storage}

theorem Indexed.lt_made (hI : x.Indexed T L done n u st) {k : Nat} (hk : x.key e = T.blockSize * k) : e < x.made := by
  refine Nat.lt_of_not_le fun he => T.valid k ?_
  rw [← hk, key, hI.ring.fresh e he]

theorem Indexed.key_inj (hI : x.Indexed T L done n u st) {e' j : Nat} (hv : x.value e = some b)
    (hk : x.key e = T.blockSize * j) (hk' : x.key e' = T.blockSize * j) : e' = e := by
  obtain ⟨j', hj, hkey⟩ := hI.valued e b hv
  cases T.base_inj (hkey.symm.trans hk)
  exact hI.ring.key_inj hj (hI.lt_made hk') (hI.lt_made hk) hk' hk

/-- The block of an element is there as long as not all of them are counted. -/
theorem Indexed.live (hI : x.Indexed T L done n u st) {i : Nat} (hi : i < L) (hd : done (i / T.blockSize) < T.blockSize) :
    i / T.blockSize < n ∧ n - 1 - i / T.blockSize < u ∧
      x.key (x.entry (n - 1 - i / T.blockSize)) = T.blockSize * (i / T.blockSize) ∧
      ∃ b, x.value (x.entry (n - 1 - i / T.blockSize)) = some b := by
  have hbound : ∀ m, i < T.blockSize * m → i / T.blockSize < m := fun _ h => Nat.div_lt_of_lt_mul h
  generalize i / T.blockSize = j at hd hbound ⊢
  have hdue := hI.due
  have key : j < n ∧ ¬ (j + 1 = n ∧ st.filling) := by
    cases st with
    | idle | test | grow | storeKey | storeTail | construct =>
      refine ⟨hbound n ?_, fun h => h.2⟩
      simp only [Due] at hdue
      omega
    | requisition | reset | storeValue =>
      have h : j < n - 1 := by
        refine hbound (n - 1) ?_
        rw [Nat.mul_sub, Nat.mul_one]
        simp only [Due] at hdue
        omega
      exact ⟨by omega, fun h => by omega⟩
    | _ => exact hdue.elim
  obtain ⟨hlt, hnot⟩ := key
  rcases hI.lives j hlt hd with h | ⟨hu, hv⟩
  · exact absurd h hnot
  · refine ⟨hlt, hu, ?_, Option.ne_none_iff_exists'.mp hv⟩
    rw [hI.ring.keys _ hu]
    congr 1
    omega

theorem Indexed.mono (hI : x.Indexed T L done n u st) (hle : ∀ j, done j ≤ done' j) : x.Indexed T L done' n u st :=
  ⟨hI.ring, hI.due, fun j hj hd => hI.lives j hj (Nat.lt_of_le_of_lt (hle j) hd),
    fun hf j hj hd => hI.tailBlock hf j hj (Nat.lt_of_le_of_lt (hle j) hd), hI.valued⟩

/-! ## The steps of the owner -/

/-- A step that changes nothing but what is due. -/
theorem Indexed.next (hI : x.Indexed T L done n u st) {L' : Nat} {st' : Storage} (hdue : x.Due T L' n st')
    (hf : st'.filling ↔ st.filling) : x.Indexed T L' done n u st' :=
  ⟨hI.ring, hdue, fun j hj hd => by rw [hf]; exact hI.lives j hj hd, fun h => hI.tailBlock (fun h' => h (hf.mpr h')),
    hI.valued⟩

theorem Indexed.begin (hI : x.Indexed T L done n u .idle) (h : L % T.blockSize = 0) : x.Indexed T L done n u .test := by
  refine hI.next ?_ Iff.rfl
  obtain ⟨h1, h2⟩ := hI.due
  have hL := Nat.div_add_mod L T.blockSize
  rw [h, Nat.add_zero] at hL
  rw [← hL] at h1 h2
  have h3 := Nat.le_of_mul_le_mul_left h1 T.blockSize_pos
  rw [← Nat.mul_succ] at h2
  have h4 := Nat.lt_of_mul_lt_mul_left h2
  have h5 : L / T.blockSize = n := by omega
  change L = T.blockSize * n
  rw [← hL, h5]

theorem Indexed.within (hI : x.Indexed T L done n u .idle) (h : L % T.blockSize ≠ 0) : x.Indexed T L done n u .construct := by
  refine hI.next ?_ Iff.rfl
  obtain ⟨h1, h2⟩ := hI.due
  refine ⟨Nat.lt_of_le_of_ne h1 fun heq => h ?_, by omega⟩
  rw [heq, Nat.mul_mod_right]

theorem Indexed.room (hI : x.Indexed T L done n u .test)
    (h : x.key (x.header.index x.newTail) = invalidBlockBase ∨ x.value (x.header.index x.newTail) = none) :
    x.Indexed T L done n u (.storeKey (x.header.index x.newTail) x.newTail) := by
  refine hI.next ⟨hI.due, rfl, entry_newTail hI.ring, ?_⟩ Iff.rfl
  rcases h with h | h
  · cases hv : x.value (x.header.index x.newTail) with
    | none => rfl
    | some b =>
      obtain ⟨j, -, hk⟩ := hI.valued _ _ hv
      exact absurd (hk.symm.trans h) (T.valid j)
  · exact h

theorem Indexed.full (hI : x.Indexed T L done n u .test) (h : x.value (x.header.index x.newTail) ≠ none) :
    x.Indexed T L done n u .grow := by
  obtain ⟨b, hb⟩ := Option.ne_none_iff_exists'.mp h
  obtain ⟨j, hj, hk⟩ := hI.valued _ _ hb
  rw [entry_newTail hI.ring] at hk
  exact hI.next ⟨hI.due, j, hj, hk⟩ Iff.rfl

/-- No place of the table was free, so all of them have been used, and the new one has as many again. -/
theorem Indexed.grow (hI : x.Indexed T L done n u .grow) (hw : x.nextBlockIndexCapacity * T.blockSize ≤ word) :
    x.newBlockIndex.Indexed T L done n u
      (.storeKey (x.newBlockIndex.header.index x.newBlockIndex.newTail) x.newBlockIndex.newTail) := by
  have hR := hI.ring
  have hused := hR.used
  have hpos := hR.pos
  obtain ⟨hL, j, hj, hk⟩ := hI.due
  have hu : u = x.header.capacity := by
    refine Classical.byContradiction fun hne => ?_
    rcases hR.rest (x.header.capacity - 1) (by omega) (by omega) with hi | ⟨-, hn⟩
    · exact T.valid j (hk.symm.trans hi)
    · cases T.base_inj (hn.symm.trans hk)
      exact Nat.lt_irrefl _ hj
  have hR' := hR.newBlockIndex hu hw
  have hcap : x.newBlockIndex.header.capacity = 2 * x.header.capacity := by
    rw [newBlockIndex_header]
    exact hR.next
  have hvalue : ∀ e, x.newBlockIndex.value e = x.value e := fun _ => rfl
  refine ⟨hR', ⟨hL, rfl, entry_newTail hR', ?_⟩, fun j hj hd => ?_, fun hf j hj hd => ?_, hI.valued⟩
  · rw [entry_newTail hR', newBlockIndex_entry_new hR (by omega) (by omega), hvalue, value, hR.fresh _ (by omega)]
  · rcases hI.lives j hj hd with h | ⟨hlt, hv⟩
    · exact absurd h.2 id
    · refine Or.inr ⟨hlt, ?_⟩
      rw [newBlockIndex_entry hR (by omega)]
      exact hv
  · rw [newBlockIndex_entry hR hpos]
    exact hI.tailBlock id j hj hd

theorem Indexed.storeKey {t : Nat} (hI : x.Indexed T L done n u (.storeKey e t)) :
    (x.setKey e L).Indexed T L done n (min u (x.header.capacity - 1)) (.storeTail e t) := by
  obtain ⟨rfl, rfl, rfl, hnone⟩ := hI.due
  have hR := hI.ring
  have htwo := hR.two
  have hused := hR.used
  have hentry : ∀ d, (x.setKey (x.entry (x.header.capacity - 1)) (T.blockSize * n)).entry d = x.entry d := fun _ => rfl
  refine ⟨hR.setKey, ⟨rfl, rfl, rfl, ?_, ?_⟩, fun j hj hd => ?_, fun _ j hj hd => ?_, fun e b hv => ?_⟩
  · rw [value_setKey]
    exact hnone
  · rw [key_setKey, if_pos rfl]
  · rcases hI.lives j hj hd with h | ⟨hlt, hv⟩
    · exact absurd h.2 id
    · refine Or.inr ⟨?_, ?_⟩
      · have : n - 1 - j ≠ x.header.capacity - 1 := fun h => hv (by rw [h, hnone])
        omega
      · rw [value_setKey, hentry]
        exact hv
  · rw [value_setKey, hentry]
    exact hI.tailBlock id j hj hd
  · rw [value_setKey] at hv
    rw [key_setKey, if_neg (fun h => by rw [h, hnone] at hv; cases hv)]
    exact hI.valued e b hv

theorem Indexed.storeTail {t : Nat} (hI : x.Indexed T L done n u (.storeTail e t)) :
    (x.setTail t).Indexed T L done (n + 1) (min (u + 1) x.header.capacity) (.requisition e) := by
  obtain ⟨rfl, rfl, rfl, hnone, hk⟩ := hI.due
  have hR := hI.ring
  have hused := hR.used
  have hvalue : ∀ e, (x.setTail x.newTail).value e = x.value e := fun _ => rfl
  refine ⟨hR.setTail hk, ⟨rfl, (entry_setTail_zero hR).symm, hnone⟩, fun j hj hd => ?_, fun hf => absurd trivial hf,
    fun e b hv => ?_⟩
  · by_cases hjn : j = n
    · exact Or.inl ⟨by rw [hjn], trivial⟩
    · rcases hI.lives j (by omega) hd with h | ⟨hlt, hv⟩
      · exact absurd h.2 id
      · have hne : n - 1 - j ≠ x.header.capacity - 1 := fun h => hv (by rw [h, hnone])
        have hsucc : n + 1 - 1 - j = n - 1 - j + 1 := by omega
        refine Or.inr ⟨by omega, ?_⟩
        rw [hsucc, entry_setTail_succ (by omega), hvalue]
        exact hv
  · obtain ⟨j, hj, hkey⟩ := hI.valued e b hv
    exact ⟨j, by omega, hkey⟩

theorem Indexed.storeValue (hI : x.Indexed T L done n u (.storeValue e b)) :
    Index.Indexed T { x.setValue e (some b) with tailBlock := some b } L done n u .construct := by
  obtain ⟨hL, rfl, hnone⟩ := hI.due
  have hR := hI.ring
  have hB := T.blockSize_pos
  have hn : 0 < n := Nat.pos_of_ne_zero fun h => by
    rw [h] at hL
    omega
  have hused := hR.used
  have hvalue : ∀ e', Index.value { x.setValue (x.entry 0) (some b) with tailBlock := some b } e' =
      if e' = x.entry 0 then some b else x.value e' := fun _ => value_setValue
  refine ⟨(hR.setValue (hR.entry_lt 0) (some b)).setTailBlock (some b), ?_, fun j hj hd => ?_, fun _ j hj hd => ?_,
    fun e' b' hv => ?_⟩
  · change _ ∧ _
    omega
  · change _ ∨ n - 1 - j < u ∧ Index.value _ (x.entry (n - 1 - j)) ≠ none
    rw [hvalue]
    rcases hI.lives j hj hd with ⟨rfl, -⟩ | ⟨hlt, hv⟩
    · rw [Nat.add_sub_cancel, Nat.sub_self, if_pos rfl]
      exact Or.inr ⟨by omega, by simp⟩
    · refine Or.inr ⟨hlt, ?_⟩
      split
      · simp
      · exact hv
  · change Index.value _ (x.entry 0) = some b
    rw [hvalue, if_pos rfl]
  · have hkey : Index.key { x.setValue (x.entry 0) (some b) with tailBlock := some b } e' = x.key e' := key_setValue
    rw [hkey]
    rw [hvalue] at hv
    by_cases he : e' = x.entry 0
    · exact ⟨n - 1, by omega, by rw [he]; exact hR.keys 0 (by omega)⟩
    · rw [if_neg he] at hv
      exact hI.valued e' b' hv

theorem Indexed.construct (hI : x.Indexed T L done n u .construct) : x.Indexed T (L + 1) done n u .idle := by
  refine hI.next ?_ Iff.rfl
  obtain ⟨h1, h2⟩ := hI.due
  exact ⟨h1, by omega⟩

/-! ## The step of the call that has counted the last element -/

theorem Indexed.clear (hI : x.Indexed T L done n u st) {j : Nat} (hv : x.value e = some b) (hk : x.key e = T.blockSize * j)
    (hd : done j = T.blockSize) : (x.setValue e none).Indexed T L done n u st := by
  have hR := hI.ring
  have hused := hR.used
  have hne : ∀ {e' j'}, done j' < T.blockSize → x.key e' = T.blockSize * j' → e' ≠ e := by
    rintro e' j' hd' hk' rfl
    cases T.base_inj (hk.symm.trans hk')
    omega
  have hentry : ∀ d, (x.setValue e none).entry d = x.entry d := fun _ => rfl
  refine ⟨hR.setValue (hI.lt_made hk) none, ?_, fun j' hj' hd' => ?_, fun hf j' hj' hd' => ?_, fun e' b' hv' => ?_⟩
  · have hdue := hI.due
    have hnone : ∀ {e'}, x.value e' = none → (x.setValue e none).value e' = none := by
      intro e' h
      rw [value_setValue]
      split
      · rfl
      · exact h
    cases st with
    | idle | test | construct => exact hdue
    | grow =>
      obtain ⟨hL, j', hj', hk'⟩ := hdue
      exact ⟨hL, j', hj', key_setValue.trans hk'⟩
    | storeKey => exact ⟨hdue.1, hdue.2.1, hdue.2.2.1, hnone hdue.2.2.2⟩
    | storeTail => exact ⟨hdue.1, hdue.2.1, hdue.2.2.1, hnone hdue.2.2.2.1, key_setValue.trans hdue.2.2.2.2⟩
    | requisition | reset | storeValue => exact ⟨hdue.1, hdue.2.1, hnone hdue.2.2⟩
    | _ => exact hdue
  · rcases hI.lives j' hj' hd' with h | ⟨hlt, hv'⟩
    · exact Or.inl h
    · refine Or.inr ⟨hlt, ?_⟩
      have hk' := hR.keys _ hlt
      rw [show n - 1 - (n - 1 - j') = j' by omega] at hk'
      rw [hentry, value_setValue, if_neg (hne hd' hk')]
      exact hv'
  · have hk' := hR.keys 0 (by omega)
    rw [show n - 1 - 0 = j' by omega] at hk'
    rw [hentry, value_setValue, if_neg (hne hd' hk')]
    exact hI.tailBlock hf j' hj' hd'
  · rw [value_setValue] at hv'
    split at hv'
    · cases hv'
    · rw [key_setValue]
      exact hI.valued e' b' hv'

/-! ## The steps of a call that takes an element -/

section
variable {counted : Prop} {i h t : Nat}

theorem Indexed.loadIndex (hI : x.Indexed T L done n u st) (hi : i < L) (hd : done (i / T.blockSize) < T.blockSize)
    (hc : ¬ counted) : x.Looks T done counted i (.loadTail x.blockIndex) := by
  obtain ⟨-, -, hk, -⟩ := hI.live hi hd
  exact ⟨hc, Nat.le_refl _, _, back_lt hI.ring.pos .., hk⟩

theorem Indexed.loadTail (hI : x.Indexed T L done n u st) (hi : i < L) (hd : done (i / T.blockSize) < T.blockSize)
    (hL : x.Looks T done counted i (.loadTail h)) : x.Looks T done counted i (.loadKey h (x.headers h).tail) := by
  obtain ⟨hc, hh, hq⟩ := hL
  have hR := hI.ring
  refine ⟨hc, hh, hq, ?_⟩
  by_cases hlt : h < x.blockIndex
  · obtain ⟨-, hA⟩ := hR.old h hlt
    obtain ⟨s, hs⟩ := hA.numbers
    obtain ⟨k, hk, -⟩ := hs _ hA.tail
    exact ⟨hA.tail, k, hk⟩
  · have hh' : h = x.blockIndex := by omega
    subst hh'
    obtain ⟨hn, -⟩ := hI.live hi hd
    have hk := hR.keys 0 (hR.used.2.2 (Nat.zero_lt_of_lt hn))
    rw [entry, back_zero hR.tail] at hk
    exact ⟨hR.tail, _, hk⟩

theorem Indexed.loadKey (hI : x.Indexed T L done n u st) (hL : x.Looks T done counted i (.loadKey h t)) :
    x.Looks T done counted i (.loadValue h (x.find T h t i)) := by
  obtain ⟨hc, hh, ⟨q, hq, hk⟩, ht, k, hkt⟩ := hL
  rw [hI.ring.find hh hq hk hkt ht]
  exact ⟨hc, hh, hq, hk⟩

/-- The entry that is found has the key of the block, and the block is there. -/
theorem Indexed.found (hI : x.Indexed T L done n u st) (hi : i < L) (hd : done (i / T.blockSize) < T.blockSize)
    {q : Nat} (hL : x.Looks T done counted i (.loadValue h q)) :
    x.key ((x.headers h).index q) = T.blockSize * (i / T.blockSize) ∧ ∃ b, x.value ((x.headers h).index q) = some b := by
  obtain ⟨-, -, -, hk⟩ := hL
  obtain ⟨-, -, hk', b, hv⟩ := hI.live hi hd
  refine ⟨hk, b, ?_⟩
  rw [hI.key_inj hv hk' hk]
  exact hv

theorem Looks.kept (hL : x.Looks T done counted i st)
    (hK : ¬ counted ∨ (∃ e b, st = .clear e b) → x.Kept T x' (i / T.blockSize))
    (hd : done (i / T.blockSize) = T.blockSize → done' (i / T.blockSize) = T.blockSize) : x'.Looks T done' counted i st := by
  cases st with
  | idle | free => trivial
  | loadTail h =>
    obtain ⟨hc, hh, q, hq, hk⟩ := hL
    have hK := hK (Or.inl hc)
    obtain ⟨hcap, hindex⟩ := hK.headers h hh
    exact ⟨hc, hh.trans hK.grows, q, hcap.symm ▸ hq, hindex.symm ▸ hK.key _ hk⟩
  | loadKey h t =>
    obtain ⟨hc, hh, ⟨q, hq, hk⟩, ht, k, hkt⟩ := hL
    have hK := hK (Or.inl hc)
    obtain ⟨hcap, hindex⟩ := hK.headers h hh
    exact ⟨hc, hh.trans hK.grows, ⟨q, hcap.symm ▸ hq, hindex.symm ▸ hK.key _ hk⟩, hcap.symm ▸ ht,
      hindex.symm ▸ hK.valid _ k hkt⟩
  | loadValue h q =>
    obtain ⟨hc, hh, hq, hk⟩ := hL
    have hK := hK (Or.inl hc)
    obtain ⟨hcap, hindex⟩ := hK.headers h hh
    exact ⟨hc, hh.trans hK.grows, hcap.symm ▸ hq, hindex.symm ▸ hK.key _ hk⟩
  | move e b | setEmpty e b =>
    obtain ⟨hc, hk, hv⟩ := hL
    have hK := hK (Or.inl hc)
    exact ⟨hc, hK.key e hk, hK.value e b hk hv⟩
  | clear e b =>
    obtain ⟨hk, hv, hdone⟩ := hL
    have hK := hK (Or.inr ⟨e, b, rfl⟩)
    exact ⟨hK.key e hk, hK.value e b hk hv, hd hdone⟩
  | _ => exact hL

/-! ## What the others leave as it is -/

theorem Kept.refl (x : Index) (j : Nat) : x.Kept T x j :=
  ⟨Nat.le_refl _, fun _ _ => ⟨rfl, rfl⟩, fun _ k hk => ⟨k, hk⟩, fun _ hk => hk, fun _ _ _ hv => hv⟩

theorem Kept.newBlockIndex (x : Index) (j : Nat) : x.Kept T x.newBlockIndex j :=
  ⟨Nat.le_succ _, fun h hh => by rw [headers_newBlockIndex hh]; exact ⟨rfl, rfl⟩, fun _ k hk => ⟨k, hk⟩, fun _ hk => hk,
    fun _ _ _ hv => hv⟩

theorem Kept.setTail (x : Index) (j t : Nat) : x.Kept T (x.setTail t) j := by
  refine ⟨Nat.le_refl _, fun h _ => ?_, fun _ k hk => ⟨k, hk⟩, fun _ hk => hk, fun _ _ _ hv => hv⟩
  by_cases hh : h = x.blockIndex
  · subst hh
    rw [show (x.setTail t).headers x.blockIndex = { x.header with tail := t } from header_setTail]
    exact ⟨rfl, rfl⟩
  · rw [headers_setTail hh]
    exact ⟨rfl, rfl⟩

/-- An entry without a block gets the key of another one. -/
theorem Indexed.kept_setKey (hI : x.Indexed T L done n u st) {j m : Nat} (hlive : x.Live T j) (hnone : x.value e = none) :
    x.Kept T (x.setKey e (T.blockSize * m)) j := by
  obtain ⟨e', b, hk', hv'⟩ := hlive
  refine ⟨Nat.le_refl _, fun _ _ => ⟨rfl, rfl⟩, fun e k hk => ?_, fun e₁ hk => ?_, fun e b _ hv => value_setKey.trans hv⟩
  · rw [key_setKey]
    split
    · exact ⟨m, rfl⟩
    · exact ⟨k, hk⟩
  · have hne : e₁ ≠ e := by
      rintro rfl
      rw [hI.key_inj hv' hk' hk, hv'] at hnone
      cases hnone
    rw [key_setKey, if_neg hne]
    exact hk

theorem Kept.storeValue {j b' : Nat} (hnone : x.value e = none) :
    x.Kept T { x.setValue e (some b) with tailBlock := some b' } j := by
  refine ⟨Nat.le_refl _, fun _ _ => ⟨rfl, rfl⟩, fun e k hk => ⟨k, key_setValue.trans hk⟩, fun e hk => key_setValue.trans hk,
    fun e₁ b₁ _ hv => ?_⟩
  have hne : e₁ ≠ e := by
    rintro rfl
    rw [hnone] at hv
    cases hv
  exact (value_setValue.trans (if_neg hne)).trans hv

theorem Kept.clear {j k : Nat} (hk : x.key e = T.blockSize * k) (hj : j ≠ k) : x.Kept T (x.setValue e none) j := by
  refine ⟨Nat.le_refl _, fun _ _ => ⟨rfl, rfl⟩, fun e k hk => ⟨k, key_setValue.trans hk⟩, fun e hk => key_setValue.trans hk,
    fun e₁ b₁ hk₁ hv => ?_⟩
  have hne : e₁ ≠ e := by
    rintro rfl
    exact hj (T.base_inj (hk₁.symm.trans hk))
  exact (value_setValue.trans (if_neg hne)).trans hv

end

end

end Index

end Xdispatch.BlockQueue
