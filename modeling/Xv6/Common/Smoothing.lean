import Mathlib.Algebra.Order.Ring.Abs
import Mathlib.Algebra.Order.Ring.Int
import Mathlib.Order.OrderIsoNat
import Mathlib.Tactic.LinearCombination
import Mathlib.Tactic.Ring

/-!
# Exponential smoothing in fixed point

A value `x` moves towards a target `t` by the fraction `a / D` of its distance, in integers: the
step `a * (t - x)` is divided by `D` with truncation towards zero. So the value never passes the
target, and it stops when the step is less than one, on either side at the same distance.

The weight may be different in each step. The distance never grows, so it is constant from some
point on, and by then `a * |t - x| < D` for every weight that is still used.
-/

namespace Xv6.Smoothing

variable {D a b t u x y : Int}

/-- One step. -/
def smooth (D a t x : Int) : Int := x + (a * (t - x)).tdiv D

/-- What holds below the target holds above it. -/
theorem smooth_neg (D a t x : Int) : smooth D a (-t) (-x) = -smooth D a t x := by
  have hstep : a * (-t - -x) = -(a * (t - x)) := by ring
  unfold smooth
  rw [hstep, Int.neg_tdiv]
  omega

/-- Below the target the step is rounded down. -/
theorem smooth_of_le (ha : 0 ≤ a) (hx : x ≤ t) : smooth D a t x = x + a * (t - x) / D := by
  unfold smooth
  rw [Int.tdiv_eq_ediv_of_nonneg (Int.mul_nonneg ha (by omega))]

/-- A step goes towards the target and not past it. -/
theorem smooth_between_of_le (ha : 0 ≤ a) (haD : a ≤ D) (hD : 0 < D) (hx : x ≤ t) :
    x ≤ smooth D a t x ∧ smooth D a t x ≤ t := by
  rw [smooth_of_le ha hx]
  have hstep : 0 ≤ a * (t - x) := Int.mul_nonneg ha (by omega)
  have hmax : a * (t - x) ≤ D * (t - x) := Int.mul_le_mul_of_nonneg_right haD (by omega)
  have hlo : 0 ≤ a * (t - x) / D := Int.ediv_nonneg hstep hD.le
  have hhi : a * (t - x) / D ≤ D * (t - x) / D := Int.ediv_le_ediv hD hmax
  rw [Int.mul_ediv_cancel_left _ hD.ne'] at hhi
  omega

theorem smooth_between_of_ge (ha : 0 ≤ a) (haD : a ≤ D) (hD : 0 < D) (hx : t ≤ x) :
    t ≤ smooth D a t x ∧ smooth D a t x ≤ x := by
  have h := smooth_between_of_le (t := -t) (x := -x) ha haD hD (by omega)
  rw [smooth_neg] at h
  omega

theorem abs_tmod_lt (m : Int) (hD : 0 < D) : |m.tmod D| < D := by
  have hlt : m.natAbs % D.natAbs < D.natAbs := Nat.mod_lt _ (by omega)
  rw [Int.abs_eq_natAbs, Int.natAbs_tmod]
  omega

/-- It is less than one away from the exact combination. -/
theorem smooth_error (D a t x : Int) (hD : 0 < D) :
    |D * smooth D a t x - ((D - a) * x + a * t)| < D := by
  have hexact : D * smooth D a t x - ((D - a) * x + a * t) = -(a * (t - x)).tmod D := by
    have hdiv := Int.mul_tdiv_add_tmod (a * (t - x)) D
    unfold smooth
    linear_combination hdiv
  rw [hexact, abs_neg]
  exact abs_tmod_lt _ hD

/-! ## Order -/

theorem smooth_mono_target (ha : 0 ≤ a) (hD : 0 < D) (htu : t ≤ u) (x : Int) :
    smooth D a t x ≤ smooth D a u x := by
  unfold smooth
  have hle : a * (t - x) ≤ a * (u - x) := Int.mul_le_mul_of_nonneg_left (by omega) ha
  have := Int.tdiv_le_tdiv hD hle
  omega

/-- Below the target, a value that is larger by `d` moves at most `d` less. -/
theorem smooth_mono_of_le (ha : 0 ≤ a) (haD : a ≤ D) (hD : 0 < D) (hxy : x ≤ y) (hy : y ≤ t) :
    smooth D a t x ≤ smooth D a t y := by
  rw [smooth_of_le ha (hxy.trans hy), smooth_of_le ha hy]
  have hmore : a * (t - x) ≤ a * (t - y) + D * (y - x) := by
    have hle : a * (y - x) ≤ D * (y - x) := Int.mul_le_mul_of_nonneg_right haD (by omega)
    linear_combination hle
  have hdiv := Int.ediv_le_ediv hD hmore
  rw [Int.add_mul_ediv_left _ _ hD.ne'] at hdiv
  omega

theorem smooth_mono (ha : 0 ≤ a) (haD : a ≤ D) (hD : 0 < D) (hxy : x ≤ y) (t : Int) :
    smooth D a t x ≤ smooth D a t y := by
  by_cases hy : y ≤ t
  · exact smooth_mono_of_le ha haD hD hxy hy
  · by_cases hx : x ≤ t
    · -- the target lies between the two
      have h₁ := smooth_between_of_le ha haD hD hx
      have h₂ := smooth_between_of_ge ha haD hD (Int.le_of_lt (Int.not_le.mp hy))
      omega
    · have h := smooth_mono_of_le (x := -y) (y := -x) (t := -t) ha haD hD (by omega) (by omega)
      rw [smooth_neg, smooth_neg] at h
      omega

/-! ## Settling -/

/-- A step does not add to the distance from the target. -/
theorem smooth_dist_le (ha : 0 ≤ a) (haD : a ≤ D) (hD : 0 < D) (t x : Int) :
    |t - smooth D a t x| ≤ |t - x| := by
  by_cases hx : x ≤ t
  · have h := smooth_between_of_le ha haD hD hx
    rw [abs_of_nonneg (by omega), abs_of_nonneg (by omega)]
    omega
  · have h := smooth_between_of_ge ha haD hD (t := t) (x := x) (by omega)
    rw [abs_of_nonpos (by omega), abs_of_nonpos (by omega)]
    omega

/-- A step that keeps the distance is no step. -/
theorem smooth_eq_of_dist (ha : 0 ≤ a) (haD : a ≤ D) (hD : 0 < D)
    (h : |t - smooth D a t x| = |t - x|) : smooth D a t x = x := by
  by_cases hx : x ≤ t
  · have hb := smooth_between_of_le ha haD hD hx
    rw [abs_of_nonneg (by omega), abs_of_nonneg (by omega)] at h
    omega
  · have hb := smooth_between_of_ge ha haD hD (t := t) (x := x) (by omega)
    rw [abs_of_nonpos (by omega), abs_of_nonpos (by omega)] at h
    omega

/-- Where the value does not move, the step is less than one. -/
theorem lt_of_smooth_eq (ha : 0 ≤ a) (hD : 0 < D) (h : smooth D a t x = x) :
    a * |t - x| < D := by
  have hzero : (a * (t - x)).tdiv D = 0 := by
    unfold smooth at h
    omega
  have hdiv := Int.mul_tdiv_add_tmod (a * (t - x)) D
  rw [hzero, Int.mul_zero, Int.zero_add] at hdiv
  have habs := abs_tmod_lt (a * (t - x)) hD
  rwa [hdiv, abs_mul, abs_of_nonneg ha] at habs

/-- **A run settles**, whatever the weights: from some step on the value is constant, at a distance
at which every weight is too small to move it. -/
theorem smooth_settles {w x : ℕ → Int} (hD : 0 < D) (hw : ∀ n, 0 ≤ w n ∧ w n ≤ D)
    (hx : ∀ n, x (n + 1) = smooth D (w n) t (x n)) :
    ∃ N, ∀ n, N ≤ n → x n = x N ∧ w n * |t - x N| < D := by
  -- the distance is a natural number that never grows
  have hdist (n : ℕ) : (t - x (n + 1)).natAbs ≤ (t - x n).natAbs := by
    have h := smooth_dist_le (hw n).1 (hw n).2 hD t (x n)
    rw [← hx n, Int.abs_eq_natAbs, Int.abs_eq_natAbs] at h
    omega
  obtain ⟨N, hN⟩ := WellFoundedGT.monotone_chain_condition (α := ℕᵒᵈ)
    ⟨fun n => OrderDual.toDual (t - x n).natAbs, monotone_nat_of_le_succ hdist⟩
  have hlevel (n : ℕ) (hn : N ≤ n) : (t - x N).natAbs = (t - x n).natAbs := hN n hn
  have hstay (n : ℕ) (hn : N ≤ n) : x (n + 1) = x n := by
    have h : |t - smooth D (w n) t (x n)| = |t - x n| := by
      rw [← hx n, Int.abs_eq_natAbs, Int.abs_eq_natAbs, ← hlevel n hn, ← hlevel (n + 1) (by omega)]
    rw [hx n]
    exact smooth_eq_of_dist (hw n).1 (hw n).2 hD h
  have hconst (n : ℕ) (hn : N ≤ n) : x n = x N := by
    induction n, hn using Nat.le_induction with
    | base => rfl
    | succ n hn ih => rw [hstay n hn, ih]
  refine ⟨N, fun n hn => ⟨hconst n hn, ?_⟩⟩
  rw [← hconst n hn]
  exact lt_of_smooth_eq (hw n).1 hD ((hx n).symm.trans (hstay n hn))

end Xv6.Smoothing
