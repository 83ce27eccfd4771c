import Mathlib.Data.Nat.ModEq

/-!
# Circular tables

A table of `c` places is filled round and round: `back c t d` is the place `d` before
the place `t`. If the numbers in it go up by one from place to place, the place of
a number is found from any other one by their distance, and that distance may be
taken modulo any multiple of `c`, such as a machine word.
-/

namespace Circular

def back (c t d : Nat) : Nat := (t + c - d) % c

section
variable {c t d e q : Nat}

theorem back_lt (hc : 0 < c) (t d : Nat) : back c t d < c := Nat.mod_lt _ hc

theorem back_zero (ht : t < c) : back c t 0 = t := by
  unfold back
  rw [Nat.sub_zero, Nat.add_mod_right, Nat.mod_eq_of_lt ht]

theorem back_add (hd : d ≤ c) : back c t d + d ≡ t [MOD c] := by
  have h : (t + c - d) + d = t + c := by omega
  have : back c t d + d ≡ (t + c - d) + d [MOD c] := (Nat.mod_modEq _ _).add_right d
  rw [h] at this
  exact this.trans (Nat.add_modEq_right ..)

theorem back_inj (hd : d < c) (he : e < c) (h : back c t d = back c t e) : d = e := by
  have h1 := back_add (t := t) (Nat.le_of_lt hd)
  have h2 := back_add (t := t) (Nat.le_of_lt he)
  rw [h] at h1
  have h3 := Nat.ModEq.add_left_cancel' _ (h1.trans h2.symm)
  exact Nat.ModEq.eq_of_lt_of_lt h3 hd he

theorem exists_back (hq : q < c) (t : Nat) : ∃ d, d < c ∧ back c t d = q := by
  have hc : 0 < c := by omega
  refine ⟨back c t q, back_lt hc t q, ?_⟩
  have h1 := back_add (t := t) (Nat.le_of_lt hq)
  have h2 := back_add (t := t) (Nat.le_of_lt (back_lt hc t q))
  rw [Nat.add_comm] at h1
  exact Nat.ModEq.eq_of_lt_of_lt (Nat.ModEq.add_right_cancel' _ (h2.trans h1.symm)) (back_lt hc _ _) hq

theorem back_next (hc : 0 < c) (t : Nat) : back c t (c - 1) = (t + 1) % c := by
  unfold back
  rw [Nat.add_sub_assoc (Nat.sub_le ..), Nat.sub_sub_self hc]

/-- One place further on, everything is one place further back. -/
theorem back_succ (hd : d < c) : back c ((t + 1) % c) (d + 1) = back c t d := by
  have hc : 0 < c := by omega
  have h1 := back_add (t := t) (Nat.le_of_lt hd)
  have h2 := back_add (t := (t + 1) % c) (Nat.succ_le_of_lt hd)
  have h3 : (back c t d + d) + 1 ≡ (t + 1) % c [MOD c] := (h1.add_right 1).trans (Nat.mod_modEq _ _).symm
  exact Nat.ModEq.eq_of_lt_of_lt (Nat.ModEq.add_right_cancel' _ (h2.trans h3.symm)) (back_lt hc _ _) (back_lt hc _ _)

/-- The place of the number `j`, from that of the number `k`. -/
theorem find {j k s off : Nat} (hq : q < c) (hj : j ≡ q + s [MOD c]) (hk : k ≡ t + s [MOD c])
    (hoff : off + k ≡ j [MOD c]) : (t + off) % c = q := by
  have h : (t + off) + k ≡ q + k [MOD c] :=
    calc (t + off) + k = t + (off + k) := Nat.add_assoc ..
      _ ≡ t + (q + s) [MOD c] := (hoff.trans hj).add_left t
      _ = q + (t + s) := by omega
      _ ≡ q + k [MOD c] := hk.symm.add_left q
  have := Nat.ModEq.add_right_cancel' _ h
  rw [this]
  exact Nat.mod_eq_of_lt hq

/-- The distance of two multiples of `b` in words of `b * m`, in units of `b`. -/
theorem distance {b m : Nat} (hb : 0 < b) (hm : 0 < m) (j k : Nat) :
    (b * j + (b * m - b * k % (b * m))) % (b * m) / b + k ≡ j [MOD m] := by
  have hk : k % m < m := Nat.mod_lt k hm
  have h1 : b * j + (b * m - b * k % (b * m)) = b * (j + (m - k % m)) := by
    rw [Nat.mul_mod_mul_left, ← Nat.mul_sub, ← Nat.mul_add]
  rw [h1, Nat.mul_mod_mul_left, Nat.mul_div_cancel_left _ hb]
  calc (j + (m - k % m)) % m + k ≡ (j + (m - k % m)) + k % m [MOD m] :=
        (Nat.mod_modEq _ _).add (Nat.mod_modEq k m).symm
    _ = j + m := by omega
    _ ≡ j [MOD m] := Nat.add_modEq_right ..

end

end Circular
