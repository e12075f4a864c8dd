import Mathlib.Algebra.BigOperators.Group.List.Basic
import Mathlib.Algebra.Order.Ring.Abs
import Mathlib.Tactic.Linarith

/-! Shares of a balanced account, each cut to a whole number on its own. -/
namespace PerpexEngine.Rounding

/-- A truncated quotient is short of the exact one by less than one unit. -/
theorem abs_tmod_le {scale : ℤ} (hscale : 0 < scale) (x : ℤ) : |x.tmod scale| ≤ scale - 1 := by
  have hlt : (x.tmod scale).natAbs < scale.natAbs := by
    rw [Int.natAbs_tmod]
    exact Nat.mod_lt _ (Int.natAbs_pos.2 hscale.ne')
  rw [Int.abs_eq_natAbs]
  omega

/-- Truncated shares and what was cut off make up the whole. -/
theorem sum_tdiv_add_sum_tmod (scale : ℤ) (xs : List ℤ) :
    scale * (xs.map (·.tdiv scale)).sum + (xs.map (·.tmod scale)).sum = xs.sum := by
  induction xs with
  | nil => simp
  | cons x xs ih =>
    have hx := Int.mul_tdiv_add_tmod x scale
    simp only [List.map_cons, List.sum_cons]
    rw [mul_add]
    linarith

theorem abs_sum_tmod_le {scale : ℤ} (hscale : 0 < scale) (xs : List ℤ) :
    |(xs.map (·.tmod scale)).sum| ≤ (scale - 1) * xs.length := by
  induction xs with
  | nil => simp
  | cons x xs ih =>
    simp only [List.map_cons, List.sum_cons, List.length_cons]
    have hx := abs_tmod_le hscale x
    have hadd := abs_add_le (x.tmod scale) (xs.map (·.tmod scale)).sum
    push_cast
    rw [mul_add, mul_one]
    linarith

/-- The truncated shares of nothing come to less than one unit for each share. -/
theorem abs_sum_tdiv_le {scale : ℤ} (hscale : 0 < scale) {xs : List ℤ} (hsum : xs.sum = 0) :
    scale * |(xs.map (·.tdiv scale)).sum| ≤ (scale - 1) * xs.length := by
  have hwhole := sum_tdiv_add_sum_tmod scale xs
  have hcut : scale * (xs.map (·.tdiv scale)).sum = -(xs.map (·.tmod scale)).sum := by
    linarith
  have habs := congrArg abs hcut
  rw [abs_mul, abs_neg, abs_of_pos hscale] at habs
  rw [habs]
  exact abs_sum_tmod_le hscale xs

/-- Where nothing is cut off the shares of nothing cancel. -/
theorem sum_tdiv_eq_zero {scale : ℤ} (hscale : 0 < scale) {xs : List ℤ} (hsum : xs.sum = 0)
    (hdvd : ∀ x ∈ xs, scale ∣ x) : (xs.map (·.tdiv scale)).sum = 0 := by
  have hwhole := sum_tdiv_add_sum_tmod scale xs
  have hcut : xs.map (·.tmod scale) = List.replicate xs.length 0 := by
    apply List.eq_replicate_iff.2
    refine ⟨List.length_map _, fun r hr => ?_⟩
    obtain ⟨x, hx, rfl⟩ := List.mem_map.1 hr
    exact Int.tmod_eq_zero_of_dvd (hdvd x hx)
  rw [hcut, List.sum_replicate, nsmul_zero, hsum, add_zero] at hwhole
  exact (mul_eq_zero.1 hwhole).resolve_left hscale.ne'

end PerpexEngine.Rounding
