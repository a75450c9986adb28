import Mathlib.Algebra.Order.Ring.Int
import Mathlib.Algebra.Order.Ring.Nat
import Mathlib.Tactic.Common

/-!
# The counters of `atomic.h`

An `atomic_t` holds an `int`. The additions and subtractions are those of the
`__sync` builtins, which wrap around.
-/

/-- Conversion to `int`; the atomic counters wrap around. -/
def i32 (n : ℤ) : ℤ := Int.bmod n (2 ^ 32)

theorem i32_of_lt {n : ℤ} (h0 : 0 ≤ n) (h : n < 2 ^ 31) : i32 n = n :=
  Int.bmod_eq_of_le (by omega) (by omega)

/-- `atomic_inc`. -/
def atomicInc (value : ℤ) : ℤ := i32 (value + 1)

/-- `atomic_dec`. -/
def atomicDec (value : ℤ) : ℤ := i32 (value - 1)

/-- A counter counts up to `2^31 - 1`. -/
theorem atomicInc_natCast {m : ℕ} (h : m + 1 < 2 ^ 31) : atomicInc m = ((m + 1 : ℕ) : ℤ) :=
  i32_of_lt (n := ((m + 1 : ℕ) : ℤ)) (by omega) (by omega)

/-- A counter counts down to `0`. -/
theorem atomicDec_natCast {m : ℕ} (h : m < 2 ^ 31) : atomicDec ((m + 1 : ℕ) : ℤ) = (m : ℤ) :=
  (congrArg i32 (by omega)).trans (i32_of_lt (Int.natCast_nonneg m) (by omega))
