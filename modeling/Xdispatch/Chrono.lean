import Mathlib.Algebra.Order.Ring.Int

/-!
# Time-outs

`std::chrono::milliseconds` and the nanoseconds of the clock behind
`std::condition_variable` are signed 64-bit counts. `wait_for (lock, t, pred)`
waits until `now + t`, with `t` converted to nanoseconds first, so both the
conversion and the addition wrap.
-/

namespace Xdispatch

/-- A signed 64-bit integer with the value of `x` modulo `2 ^ 64`. -/
def toInt64 (x : Int) : Int := x.bmod (2 ^ 64)

/-- `std::chrono::milliseconds::max ()` -/
def millisecondsMax : Int := 2 ^ 63 - 1

/-- `std::chrono::milliseconds (-1)`, the barrier's and the group's "forever" -/
def waitForever : Int := -1

def toNanoseconds (t : Int) : Int := toInt64 (t * 1000000)

/-- The point in time `std::condition_variable::wait_for` waits until. -/
def waitForDeadline (now t : Int) : Int := toInt64 (now + toNanoseconds t)

theorem toInt64_le {x : Int} (h : -(2 ^ 63) ≤ x) : toInt64 x ≤ x := by
  unfold toInt64 Int.bmod
  simp only []
  have h0 := Int.emod_nonneg x (b := ((2 ^ 64 : Nat) : Int)) (by decide)
  have h1 := Int.emod_lt_of_pos x (b := ((2 ^ 64 : Nat) : Int)) (by decide)
  split <;> omega

theorem toInt64_lt (x : Int) : toInt64 x < 2 ^ 63 :=
  Int.bmod_lt (by decide)

theorem toInt64_eq {x : Int} (h : -(2 ^ 63) ≤ x) (h' : x < 2 ^ 63) : toInt64 x = x := by
  unfold toInt64 Int.bmod
  simp only []
  split <;> omega

theorem toInt64_neg {x : Int} (h : 2 ^ 63 ≤ x) (h' : x < 2 ^ 64) : toInt64 x < 0 := by
  unfold toInt64 Int.bmod
  simp only []
  split <;> omega

theorem toNanoseconds_max : toNanoseconds millisecondsMax = -1000000 := by decide

theorem waitForDeadline_max {now : Int} (h : 0 ≤ now) : waitForDeadline now millisecondsMax ≤ now := by
  unfold waitForDeadline
  rw [toNanoseconds_max]
  have := toInt64_le (x := now + -1000000) (by omega)
  omega

end Xdispatch
