import Mathlib.Data.Set.Basic
import Mathlib.Logic.Relation
import Mathlib.Order.WellFounded

/-!
# Deadlocks

A deadlock is a set of threads each of which waits for one of the set. A thread
that begins to wait closes a circle if what it waits for has come to wait for it.
The threads here wait for one mutex, and for each other.
-/

def Deadlocked {ι : Type} (R : ι → ι → Prop) : Prop := ∃ S : Set ι, S.Nonempty ∧ ∀ i ∈ S, ∃ j ∈ S, R i j

namespace Deadlocked

open Relation

variable {ι : Type} {R R' : ι → ι → Prop} {i j : ι}

theorem of_circle (h : TransGen R i i) : Deadlocked R := by
  refine ⟨{k | TransGen R i k ∧ TransGen R k i}, ⟨i, h, h⟩, ?_⟩
  rintro k ⟨hik, hki⟩
  obtain ⟨m, hkm, hmi⟩ := TransGen.head'_iff.mp hki
  exact ⟨m, ⟨hik.tail hkm, TransGen.trans_right hmi h⟩, hkm⟩

/-- Threads that hold nothing that comes after what they want, in an order without endless chains. -/
theorem not_of_order {ν : Type} {r : ν → ν → Prop} (hr : WellFounded r) (wants : ι → ν → Prop)
    (hw : ∀ i j, R i j → ∃ n, wants i n) (hlt : ∀ i j m n, R i j → wants i m → wants j n → r n m) : ¬ Deadlocked R := by
  rintro ⟨S, ⟨k, hk⟩, hS⟩
  obtain ⟨j, -, hkj⟩ := hS k hk
  obtain ⟨n, hn⟩ := hw k j hkj
  obtain ⟨m, ⟨i, hi, hm⟩, hmin⟩ := hr.has_min {n | ∃ i ∈ S, wants i n} ⟨n, k, hk, hn⟩
  obtain ⟨j, hj, hij⟩ := hS i hi
  obtain ⟨l, -, hjl⟩ := hS j hj
  obtain ⟨n, hn⟩ := hw j l hjl
  exact hmin n ⟨j, hj, hn⟩ (hlt i j m n hij hm hn)

/-- A thread that does not wait, or that nobody waits for, is in no deadlock. -/
theorem erase (hi : (∀ j, ¬ R' i j) ∨ ∀ j, ¬ R' j i) (hR : ∀ j k, j ≠ i → k ≠ i → R' j k → R j k)
    (h : Deadlocked R') : Deadlocked R := by
  obtain ⟨S, ⟨k, hk⟩, hS⟩ := h
  rcases hi with hi | hi
  · have hne : ∀ j ∈ S, j ≠ i := by
      rintro j hj rfl
      obtain ⟨m, -, hm⟩ := hS j hj
      exact hi m hm
    refine ⟨S, ⟨k, hk⟩, fun j hj => ?_⟩
    obtain ⟨m, hm, hjm⟩ := hS j hj
    exact ⟨m, hm, hR j m (hne j hj) (hne m hm) hjm⟩
  · have hnext : ∀ j ∈ S, ∃ m ∈ S, m ≠ i ∧ R' j m := by
      intro j hj
      obtain ⟨m, hm, hjm⟩ := hS j hj
      refine ⟨m, hm, ?_, hjm⟩
      rintro rfl
      exact hi j hjm
    obtain ⟨m, hm, hmi, -⟩ := hnext k hk
    refine ⟨{j ∈ S | j ≠ i}, ⟨m, hm, hmi⟩, ?_⟩
    rintro j ⟨hj, hji⟩
    obtain ⟨m, hm, hmi, hjm⟩ := hnext j hj
    exact ⟨m, ⟨hm, hmi⟩, hR j m hji hmi hjm⟩

/-- Only `i` has begun to wait. -/
theorem closed (hR : ∀ j k, j ≠ i → R' j k → R j k) (h : Deadlocked R') :
    Deadlocked R ∨ ∃ j, R' i j ∧ ReflTransGen R j i := by
  obtain ⟨S, hne, hS⟩ := h
  by_cases hi : i ∈ S
  · by_cases hr : ∀ j ∈ S, ReflTransGen R j i
    · obtain ⟨j, hj, hij⟩ := hS i hi
      exact Or.inr ⟨j, hij, hr j hj⟩
    · -- those that do not lead to `i` are a deadlock by themselves
      push Not at hr
      obtain ⟨k, hk, hki⟩ := hr
      refine Or.inl ⟨{j ∈ S | ¬ ReflTransGen R j i}, ⟨k, hk, hki⟩, ?_⟩
      rintro j ⟨hj, hji⟩
      have hjne : j ≠ i := by
        rintro rfl
        exact hji ReflTransGen.refl
      obtain ⟨m, hm, hjm⟩ := hS j hj
      have hjm := hR j m hjne hjm
      exact ⟨m, ⟨hm, fun hmi => hji (ReflTransGen.head hjm hmi)⟩, hjm⟩
  · refine Or.inl ⟨S, hne, fun j hj => ?_⟩
    obtain ⟨m, hm, hjm⟩ := hS j hj
    refine ⟨m, hm, hR j m ?_ hjm⟩
    rintro rfl
    exact hi hj

end Deadlocked

/-- Who wants to lock the mutex, who holds it, and who waits for whom besides. -/
structure Waiting (ι : Type) where
  locks : ι → Prop
  holds : ι → Prop
  awaits : ι → ι → Prop

namespace Waiting

open Relation

variable {ι : Type} (W : Waiting ι)

def waitsFor (i j : ι) : Prop := W.locks i ∧ W.holds j ∨ W.awaits i j

abbrev chain : ι → ι → Prop := ReflTransGen W.awaits

/-- Nobody that holds the mutex waits for `i`, and `i` does not hold it. -/
def MayLock (i : ι) : Prop := ∀ m, W.holds m → ¬ W.chain m i

/-- `j` does not wait for `i`, nor does it wait for the mutex while a holder of it waits for `i`. -/
def MayAwait (i j : ι) : Prop :=
  ¬ W.chain j i ∧ ∀ m k, W.holds m → W.chain m i → W.chain j k → ¬ W.locks k

section
variable {W} {W' : Waiting ι} {i j : ι}

theorem chain_waitsFor (h : W.chain i j) : ReflTransGen W.waitsFor i j := ReflTransGen.mono (fun _ _ => Or.inr) _ _ h

/-- The last time that it leads over the mutex, if it does. -/
theorem waitsFor_split (h : ReflTransGen W.waitsFor i j) :
    W.chain i j ∨ ∃ k m, W.chain i k ∧ W.locks k ∧ W.holds m ∧ W.chain m j := by
  induction h using ReflTransGen.head_induction_on with
  | refl => exact Or.inl ReflTransGen.refl
  | @head x y hxy _ ih =>
    rcases hxy with ⟨hl, hh⟩ | ha
    · rcases ih with hc | ⟨-, m, -, -, hm, hc⟩
      · exact Or.inr ⟨x, y, ReflTransGen.refl, hl, hh, hc⟩
      · exact Or.inr ⟨x, m, ReflTransGen.refl, hl, hm, hc⟩
    · rcases ih with hc | ⟨k, m, hk, hl, hm, hc⟩
      · exact Or.inl (ReflTransGen.head ha hc)
      · exact Or.inr ⟨k, m, ReflTransGen.head ha hk, hl, hm, hc⟩

theorem deadlocked_lock (hR : ∀ j k, j ≠ i → W'.waitsFor j k → W.waitsFor j k)
    (hi : ∀ j, W'.waitsFor i j → W.holds j) (hm : W.MayLock i) (h : Deadlocked W'.waitsFor) :
    Deadlocked W.waitsFor := by
  rcases h.closed hR with h | ⟨j, hij, hji⟩
  · exact h
  rcases waitsFor_split hji with hc | ⟨k, m, -, -, hh, hc⟩
  · exact absurd hc (hm j (hi j hij))
  · exact absurd hc (hm m hh)

theorem deadlocked_await (hR : ∀ j k, j ≠ i → W'.waitsFor j k → W.waitsFor j k)
    (hm : ∀ j, W'.waitsFor i j → W.MayAwait i j) (h : Deadlocked W'.waitsFor) : Deadlocked W.waitsFor := by
  rcases h.closed hR with h | ⟨j, hij, hji⟩
  · exact h
  rcases waitsFor_split hji with hc | ⟨k, m, hk, hl, hh, hc⟩
  · exact absurd hc (hm j hij).1
  · exact absurd hl ((hm j hij).2 m k hh hc hk)

theorem deadlocked_of_not_mayLock (ha : ∀ j k, W.awaits j k → W'.awaits j k) (hh : ∀ j, W.holds j → W'.holds j)
    (hi : W'.locks i) (hm : ¬ W.MayLock i) : Deadlocked W'.waitsFor := by
  unfold MayLock at hm
  push Not at hm
  obtain ⟨m, hmh, hmi⟩ := hm
  have hmi : W'.chain m i := ReflTransGen.mono ha _ _ hmi
  exact .of_circle (TransGen.head' (Or.inl ⟨hi, hh m hmh⟩) (chain_waitsFor hmi))

theorem deadlocked_of_not_mayAwait (ha : ∀ j k, W.awaits j k → W'.awaits j k) (hh : ∀ j, W.holds j → W'.holds j)
    (hl : ∀ j, W.locks j → W'.locks j) (hi : W'.awaits i j) (hm : ¬ W.MayAwait i j) : Deadlocked W'.waitsFor := by
  by_cases hj : W.chain j i
  · have hji : W'.chain j i := ReflTransGen.mono ha _ _ hj
    exact .of_circle (TransGen.head' (Or.inr hi) (chain_waitsFor hji))
  · have hm : ∃ m k, W.holds m ∧ W.chain m i ∧ W.chain j k ∧ W.locks k := by
      unfold MayAwait at hm
      push Not at hm
      exact hm hj
    obtain ⟨m, k, hmh, hmi, hjk, hkl⟩ := hm
    have hmi : W'.chain m i := ReflTransGen.mono ha _ _ hmi
    have hjk : W'.chain j k := ReflTransGen.mono ha _ _ hjk
    have hki : TransGen W'.waitsFor k i := TransGen.head' (Or.inl ⟨hl k hkl, hh m hmh⟩) (chain_waitsFor hmi)
    exact .of_circle (TransGen.head (Or.inr hi) (TransGen.trans_right (chain_waitsFor hjk) hki))

end

end Waiting
