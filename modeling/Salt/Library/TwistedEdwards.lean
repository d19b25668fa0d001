import Mathlib.Algebra.Group.Even
import Mathlib.Algebra.Field.Basic
import Mathlib.Tactic.FieldSimp
import Mathlib.Tactic.LinearCombination
import Mathlib.Tactic.Ring

namespace Salt.Library.TwistedEdwards

variable {F : Type} [Field F] {a d x y x' y' : F}

def OnCurve (a d x y : F) : Prop := a * x ^ 2 + y ^ 2 = 1 + d * x ^ 2 * y ^ 2

theorem onCurve_neg (h : OnCurve a d x y) : OnCurve a d (-x) (-y) := by
  unfold OnCurve at *
  linear_combination h

/-- With a non-square `d` the equation can be solved for `y ^ 2`. -/
theorem denominator_ne_zero (hd : ¬ IsSquare d) (x : F) : d * x ^ 2 - 1 ≠ 0 := by
  intro h
  have hx : x ≠ 0 := by
    rintro rfl
    simp at h
  apply hd
  refine ⟨x⁻¹, ?_⟩
  field_simp
  linear_combination h

theorem onCurve_iff (hd : ¬ IsSquare d) : OnCurve a d x y ↔ y ^ 2 = (a * x ^ 2 - 1) / (d * x ^ 2 - 1) := by
  rw [eq_div_iff (denominator_ne_zero hd x), OnCurve]
  constructor
  · intro h
    linear_combination -h
  · intro h
    linear_combination -h

theorem y_eq_or_neg (hd : ¬ IsSquare d) (h : OnCurve a d x y) (h' : OnCurve a d x y') : y = y' ∨ y = -y' := by
  apply sq_eq_sq_iff_eq_or_eq_neg.mp
  rw [(onCurve_iff hd).mp h, (onCurve_iff hd).mp h']

/-- A second point with the same ratio of coordinates would need a square root of `d`. -/
theorem eq_or_neg_of_ratio (hd : ¬ IsSquare d) (h : OnCurve a d x y) (h' : OnCurve a d x' y') (hy : y ≠ 0)
    (hy' : y' ≠ 0) (hratio : x * y' = x' * y) : (x = x' ∧ y = y') ∨ (x = -x' ∧ y = -y') := by
  have hprod : (y ^ 2 - y' ^ 2) * (1 - d * x ^ 2 * y' ^ 2) = 0 := by
    unfold OnCurve at h h'
    linear_combination y' ^ 2 * h - y ^ 2 * h' + (d * y' ^ 2 - a) * (x * y' + x' * y) * hratio
  have hsq : y ^ 2 = y' ^ 2 := by
    rcases mul_eq_zero.mp hprod with h0 | h0
    · exact sub_eq_zero.mp h0
    · exfalso
      have hx : x ≠ 0 := by
        rintro rfl
        simp at h0
      apply hd
      refine ⟨(x * y')⁻¹, ?_⟩
      field_simp
      linear_combination -h0
  rcases sq_eq_sq_iff_eq_or_eq_neg.mp hsq with rfl | rfl
  · exact Or.inl ⟨mul_right_cancel₀ hy' hratio, rfl⟩
  · refine Or.inr ⟨mul_right_cancel₀ hy' ?_, rfl⟩
    linear_combination hratio

/-- The addition law, with the quotient `0` where a denominator vanishes. -/
def sum (a d : F) (p q : F × F) : F × F :=
  ((p.1 * q.2 + p.2 * q.1) / (1 + d * p.1 * q.1 * p.2 * q.2), (p.2 * q.2 - a * p.1 * q.1) / (1 - d * p.1 * q.1 * p.2 * q.2))

theorem sum_factor (h : OnCurve a d x y) (h' : OnCurve a d x' y') :
    a * x ^ 2 + y ^ 2 - (a * x' ^ 2 + y' ^ 2) * (d * x ^ 2 * y ^ 2) = 1 - (d * x * x' * y * y') ^ 2 := by
  unfold OnCurve at h h'
  rw [h, h']
  ring

/-- The numerator of the curve equation at a sum is the product of the two factors. -/
theorem onCurve_sum {p q : F × F} (hp : OnCurve a d p.1 p.2) (hq : OnCurve a d q.1 q.2)
    (hplus : 1 + d * p.1 * q.1 * p.2 * q.2 ≠ 0) (hminus : 1 - d * p.1 * q.1 * p.2 * q.2 ≠ 0) :
    OnCurve a d (sum a d p q).1 (sum a d p q).2 := by
  obtain ⟨x, y⟩ := p
  obtain ⟨x', y'⟩ := q
  simp only [sum] at *
  have hfactors : a * (x * y' + y * x') ^ 2 * (1 - d * x * x' * y * y') ^ 2 +
      (y * y' - a * x * x') ^ 2 * (1 + d * x * x' * y * y') ^ 2 - d * (x * y' + y * x') ^ 2 * (y * y' - a * x * x') ^ 2 =
      (1 + d * x * x' * y * y') ^ 2 * (1 - d * x * x' * y * y') ^ 2 := by
    calc _ = (a * x ^ 2 + y ^ 2 - (a * x' ^ 2 + y' ^ 2) * (d * x ^ 2 * y ^ 2)) *
          (a * x' ^ 2 + y' ^ 2 - (a * x ^ 2 + y ^ 2) * (d * x' ^ 2 * y' ^ 2)) := by ring
      _ = (1 - (d * x * x' * y * y') ^ 2) * (1 - (d * x' * x * y' * y) ^ 2) := by
        rw [sum_factor hp hq, sum_factor hq hp]
      _ = _ := by ring
  unfold OnCurve
  generalize 1 + d * x * x' * y * y' = u at *
  generalize 1 - d * x * x' * y * y' = v at *
  field_simp
  linear_combination hfactors

end Salt.Library.TwistedEdwards
