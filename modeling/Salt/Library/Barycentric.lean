import Mathlib.LinearAlgebra.Lagrange

namespace Salt.Library.Barycentric

open Finset Polynomial

variable {F ι : Type*} [Field F] [DecidableEq ι] (s : Finset ι) (v : ι → F)

def weight (i : ι) : F := ∏ j ∈ s.erase i, (v i - v j)

def coefficient (t : F) (i : ι) : F := (∏ j ∈ s, (t - v j)) * (weight s v i * (t - v i))⁻¹

/-- The values at the nodes of `(f - f m) / (X - v m)`. -/
def quotient (f : ι → F) (m i : ι) : F :=
  if i = m then -∑ j ∈ s.erase m, weight s v m * (weight s v j)⁻¹ * ((f j - f m) * (v j - v m)⁻¹)
  else (f i - f m) * (v i - v m)⁻¹

variable {s v} {t : F} {f : ι → F} {m : ι}

theorem weight_ne_zero (hv : Set.InjOn v s) {i : ι} (hi : i ∈ s) : weight s v i ≠ 0 := by
  apply prod_ne_zero_iff.mpr
  intro j hj
  obtain ⟨hne, hj⟩ := mem_erase.mp hj
  exact sub_ne_zero.mpr fun h ↦ hne (hv hi hj h).symm

theorem coefficient_eq_eval {i : ι} (hi : i ∈ s) (ht : t ≠ v i) :
    coefficient s v t i = eval t (Lagrange.basis s v i) := by
  rw [Lagrange.eval_basis_not_at_node hi ht, Lagrange.eval_nodal, Lagrange.nodalWeight, coefficient,
    weight, mul_inv, prod_inv_distrib]

theorem sum_coefficient (hv : Set.InjOn v s) (hs : s.Nonempty) (ht : ∀ i ∈ s, t ≠ v i) :
    ∑ i ∈ s, coefficient s v t i = 1 := by
  have hsum := congrArg (eval t) (Lagrange.sum_basis hv hs)
  rw [eval_finsetSum, eval_one] at hsum
  rw [← hsum]
  exact sum_congr rfl fun i hi ↦ coefficient_eq_eval hi (ht i hi)

theorem weight_mul_coefficient (hv : Set.InjOn v s) (ht : ∀ i ∈ s, t ≠ v i) (hm : m ∈ s) {i : ι}
    (hi : i ∈ s) : weight s v m * (weight s v i)⁻¹ * coefficient s v t m * (t - v m) =
      coefficient s v t i * (t - v i) := by
  have hwm := weight_ne_zero hv hm
  have hwi := weight_ne_zero hv hi
  have htm : t - v m ≠ 0 := sub_ne_zero.mpr (ht m hm)
  have hti : t - v i ≠ 0 := sub_ne_zero.mpr (ht i hi)
  simp only [coefficient]
  field_simp

theorem sum_quotient (hv : Set.InjOn v s) (ht : ∀ i ∈ s, t ≠ v i) (hm : m ∈ s) :
    (∑ i ∈ s, quotient s v f m i * coefficient s v t i) * (t - v m) =
      ∑ i ∈ s, f i * coefficient s v t i - f m := by
  have hterm : ∀ i ∈ s.erase m,
      (f i - f m) * (v i - v m)⁻¹ * coefficient s v t i * (t - v m) -
        weight s v m * (weight s v i)⁻¹ * ((f i - f m) * (v i - v m)⁻¹) * coefficient s v t m *
          (t - v m) = (f i - f m) * coefficient s v t i := by
    intro i hi
    obtain ⟨hne, hi⟩ := mem_erase.mp hi
    have hvi : v i - v m ≠ 0 := sub_ne_zero.mpr fun h ↦ hne (hv hi hm h)
    calc _ = (f i - f m) * (v i - v m)⁻¹ * (coefficient s v t i * (t - v m) -
          weight s v m * (weight s v i)⁻¹ * coefficient s v t m * (t - v m)) := by ring
      _ = (f i - f m) * coefficient s v t i * ((v i - v m)⁻¹ * (v i - v m)) := by
        rw [weight_mul_coefficient hv ht hm hi]
        ring
      _ = _ := by rw [inv_mul_cancel₀ hvi, mul_one]
  have hself : quotient s v f m m =
      -∑ j ∈ s.erase m, weight s v m * (weight s v j)⁻¹ * ((f j - f m) * (v j - v m)⁻¹) := if_pos rfl
  have hother : ∑ i ∈ s.erase m, quotient s v f m i * coefficient s v t i =
      ∑ i ∈ s.erase m, (f i - f m) * (v i - v m)⁻¹ * coefficient s v t i :=
    sum_congr rfl fun i hi ↦ by rw [quotient, if_neg (ne_of_mem_erase hi)]
  calc _ = ∑ i ∈ s.erase m, ((f i - f m) * (v i - v m)⁻¹ * coefficient s v t i * (t - v m) -
        weight s v m * (weight s v i)⁻¹ * ((f i - f m) * (v i - v m)⁻¹) * coefficient s v t m *
          (t - v m)) := by
        rw [← add_sum_erase s _ hm, hself, hother, sum_sub_distrib, ← sum_mul, ← sum_mul, ← sum_mul]
        ring
    _ = ∑ i ∈ s.erase m, (f i - f m) * coefficient s v t i := sum_congr rfl hterm
    _ = ∑ i ∈ s, (f i - f m) * coefficient s v t i := by
        rw [← add_sum_erase s _ hm, sub_self, zero_mul, zero_add]
    _ = _ := by
        simp only [sub_mul]
        rw [sum_sub_distrib, ← mul_sum, sum_coefficient hv ⟨m, hm⟩ ht, mul_one]

theorem eval_eq_sum_coefficient (hv : Set.InjOn v s) {P : F[X]} (hP : P.degree < #s)
    (ht : ∀ i ∈ s, t ≠ v i) : P.eval t = ∑ i ∈ s, P.eval (v i) * coefficient s v t i := by
  conv_lhs => rw [Lagrange.eq_interpolate hv hP, Lagrange.interpolate_apply, eval_finsetSum]
  refine sum_congr rfl fun i hi ↦ ?_
  rw [eval_mul, eval_C, coefficient_eq_eval hi (ht i hi)]

/-- Without the node `m`, the Lagrange polynomial of another node takes at `m` the ratio of their
weights, up to sign. -/
theorem coefficient_erase (hv : Set.InjOn v s) (hm : m ∈ s) {i : ι} (hi : i ∈ s.erase m) :
    coefficient (s.erase m) v (v m) i = -(weight s v m * (weight s v i)⁻¹) := by
  obtain ⟨hne, his⟩ := mem_erase.mp hi
  have hmi : m ∈ s.erase i := mem_erase.mpr ⟨hne.symm, hm⟩
  have hweight : weight s v i = (v i - v m) * weight (s.erase m) v i := by
    rw [weight, weight, ← mul_prod_erase _ _ hmi, erase_right_comm]
  have hsub : v i - v m ≠ 0 := sub_ne_zero.mpr fun h ↦ hne (hv his hm h)
  have hsub' : v m - v i ≠ 0 := sub_ne_zero.mpr fun h ↦ hne (hv his hm h.symm)
  have hw := weight_ne_zero (hv.mono (coe_subset.mpr (erase_subset m s))) hi
  rw [hweight, coefficient]
  change weight s v m * _ = _
  rw [← neg_sub (v i) (v m)]
  field_simp

theorem quotient_eq_eval (hv : Set.InjOn v s) (hm : m ∈ s) {q : F[X]} (hq : q.degree < #(s.erase m))
    (h : ∀ i ∈ s, q.eval (v i) * (v i - v m) = f i - f m) {i : ι} (hi : i ∈ s) :
    quotient s v f m i = q.eval (v i) := by
  have hother : ∀ j ∈ s.erase m, (f j - f m) * (v j - v m)⁻¹ = q.eval (v j) := by
    intro j hj
    obtain ⟨hne, hjs⟩ := mem_erase.mp hj
    have hsub : v j - v m ≠ 0 := sub_ne_zero.mpr fun he ↦ hne (hv hjs hm he)
    rw [← h j hjs, mul_assoc, mul_inv_cancel₀ hsub, mul_one]
  by_cases him : i = m
  · subst him
    have hsum := eval_eq_sum_coefficient (hv.mono (coe_subset.mpr (erase_subset i s))) hq
      (t := v i) fun j hj he ↦ (mem_erase.mp hj).1 (hv (mem_erase.mp hj).2 hm he.symm)
    rw [quotient, if_pos rfl, hsum, ← sum_neg_distrib]
    refine sum_congr rfl fun j hj ↦ ?_
    rw [coefficient_erase hv hm hj, hother j hj]
    ring
  · rw [quotient, if_neg him, hother i (mem_erase.mpr ⟨him, hi⟩)]

end Salt.Library.Barycentric
