import Mathlib.Data.Int.Init
import Mathlib.Order.Basic

/-!
# C machine integers

`int`, `short` and `unsigned int` are modelled as mathematical integers together with the stores
that bring a result back into range: `i32` and `i16` for the signed ones, `u32` for the unsigned.
The kernel is built with `-O0`, so a signed overflow wraps, and every arithmetic expression of
the C text is the exact expression with one store around each operation that can leave the range.

C division truncates towards zero, so it is `Int.tdiv`, never `/`.
-/

namespace Xv6

/-- What an `int` holds after `x` is stored in it. -/
def i32 (x : Int) : Int := (x + 2147483648) % 4294967296 - 2147483648

/-- What a `short` holds after `x` is stored in it. -/
def i16 (x : Int) : Int := (x + 32768) % 65536 - 32768

/-- What an `unsigned int` holds after `x` is stored in it. -/
def u32 (x : Int) : Int := x % 4294967296

/-! ## Stores that change nothing -/

theorem i32_eq_self {x : Int} (hlo : -2147483648 ≤ x) (hhi : x < 2147483648) : i32 x = x := by
  unfold i32
  omega

theorem i32_add (x y : Int) : i32 (i32 x + y) = i32 (x + y) := by
  unfold i32
  omega

theorem u32_eq_self {x : Int} (hlo : 0 ≤ x) (hhi : x < 4294967296) : u32 x = x := by
  unfold u32
  omega

/-! ## Truncating division -/

/-- Enlarging a non-negative dividend by `k` divisors enlarges the quotient by exactly `k`. -/
theorem tdiv_add_mul {x a : Int} (k : Int) (hx : 0 ≤ x) (ha : 0 < a) (hk : 0 ≤ k) :
    (x + k * a).tdiv a = x.tdiv a + k := by
  have hka : 0 ≤ k * a := Int.mul_nonneg hk (Int.le_of_lt ha)
  rw [Int.tdiv_eq_ediv_of_nonneg (by omega), Int.tdiv_eq_ediv_of_nonneg hx]
  exact Int.add_mul_ediv_right x k (by omega)

/-- A dividend that is too small by the divisor at least does not give the same quotient. -/
theorem tdiv_ne_ediv {x a b : Int} (hb : 0 < b) (hab : b ≤ a) (hx : x ≤ a - b) :
    x.tdiv b ≠ a / b := by
  by_cases hneg : x < 0
  · have hone : 1 ≤ a / b := (Int.le_ediv_iff_mul_le hb).mpr (by omega)
    have hle := Int.tdiv_nonneg (a := -x) (by omega) (Int.le_of_lt hb)
    rw [Int.neg_tdiv] at hle
    omega
  · have hmul := Int.ediv_mul_le x (Int.ne_of_gt hb)
    have hmore : x / b + 1 ≤ a / b :=
      (Int.le_ediv_iff_mul_le hb).mpr (by rw [Int.add_mul]; omega)
    rw [Int.tdiv_eq_ediv_of_nonneg (Int.not_lt.mp hneg)]
    omega

theorem tdiv_eq_zero_iff {a b : Int} (hb : b ≠ 0) : a.tdiv b = 0 ↔ a.natAbs < b.natAbs := by
  rw [← Int.natAbs_eq_zero, Int.natAbs_tdiv]
  show a.natAbs / b.natAbs = 0 ↔ _
  rw [Nat.div_eq_zero_iff, Int.natAbs_eq_zero]
  exact or_iff_right hb

end Xv6
