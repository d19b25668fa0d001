import Salt.Multipoint.IpaComplete
import Salt.Multipoint.Lagrange

namespace Salt.Multipoint

open Polynomial
open Library.InnerProduct Library.Barycentric Library.Triple

section Tables

variable {F : Type} [Field F] [DecidableEq F] {n : ℕ}

theorem PrecomputedWeights.exists_new (hn : 1 ≤ n) (h : ∀ i, 0 < i → i < n → (i : F) ≠ 0) :
    ∃ p, PrecomputedWeights.new F n = .ok p := by
  have hweights : ((List.range n).map fun i ↦ computeBarycentricWeightFor F i n).mapM inverse =
      .ok (((List.range n).map fun i ↦ computeBarycentricWeightFor F i n).map (·⁻¹)) := by
    apply mapM_eq_ok
    intro x hx
    obtain ⟨i, hi, rfl⟩ := List.mem_map.mp hx
    rw [computeBarycentricWeightFor_eq]
    exact if_neg (weight_ne_zero (cast_injOn h) (Finset.mem_range.mpr (List.mem_range.mp hi)))
  have hinverted : ((List.range (n - 1)).mapM fun i : ℕ ↦ inverse ((i + 1 : ℕ) : F)) =
      .ok ((List.range (n - 1)).map fun i : ℕ ↦ ((i + 1 : ℕ) : F)⁻¹) := by
    apply mapM_eq_ok
    intro i hi
    have hlt := List.mem_range.mp hi
    exact if_neg (h (i + 1) (by omega) (by omega))
  rw [PrecomputedWeights.new, hweights, ok_bind, if_neg (by omega), hinverted, ok_bind]
  exact ⟨_, rfl⟩

end Tables

section Division

variable {F : Type} [Field F] {n m : ℕ}

theorem degree_divByMonic_lt_pred {f : F[X]} (a : F) (hf : f.degree < n) (hn : 1 ≤ n) :
    (f /ₘ (X - C a)).degree < ((n - 1 : ℕ) : WithBot ℕ) := by
  by_cases hq : f /ₘ (X - C a) = 0
  · rw [hq, degree_zero]
    exact WithBot.bot_lt_coe _
  · have hf0 : f ≠ 0 := by
      rintro rfl
      exact hq (zero_divByMonic _)
    have hnat := (natDegree_lt_iff_degree_lt hf0).mpr hf
    rw [← natDegree_lt_iff_degree_lt hq, natDegree_divByMonic f (monic_X_sub_C a), natDegree_X_sub_C]
    have hpos : f.natDegree ≠ 0 := by
      intro h0
      apply hq
      rw [divByMonic_eq_zero_iff (monic_X_sub_C a), degree_X_sub_C]
      have hone : f.degree < ((1 : ℕ) : WithBot ℕ) := (natDegree_lt_iff_degree_lt hf0).mp (by omega)
      exact_mod_cast hone
    omega

variable [DecidableEq F]

/-- Division by a linear factor in evaluation form is division of polynomials. -/
theorem divide_by_linear_vanishing_exact (hn : 1 ≤ n) (hi32 : n ≤ 2 ^ 31)
    (hchar : ∀ i, 0 < i → i < n → (i : F) ≠ 0) (f : F[X]) (hf : f.degree < n) (hm : m < n) :
    ∃ precomp q, PrecomputedWeights.new F n = .ok precomp ∧
      (X - C (m : F)) * q = f - C (f.eval (m : F)) ∧
      (⟨(List.range n).map fun i : ℕ ↦ f.eval (i : F)⟩ : LagrangeBasis F).divideByLinearVanishing precomp m =
        .ok ⟨(List.range n).map fun i : ℕ ↦ q.eval (i : F)⟩ := by
  obtain ⟨precomp, hnew⟩ := PrecomputedWeights.exists_new hn hchar
  have hp := PrecomputedWeights.new_spec hnew
  have hmul : (X - C (m : F)) * (f /ₘ (X - C (m : F))) = f - C (f.eval (m : F)) := by
    rw [X_sub_C_mul_divByMonic_eq_sub_modByMonic, modByMonic_X_sub_C_eq_C_eval]
  have hmem : m ∈ Finset.range n := Finset.mem_range.mpr hm
  have hdegree : (f /ₘ (X - C (m : F))).degree < ((Finset.range n).erase m).card := by
    rw [Finset.card_erase_of_mem hmem, Finset.card_range]
    exact degree_divByMonic_lt_pred _ hf hn
  refine ⟨precomp, f /ₘ (X - C (m : F)), hnew, hmul, ?_⟩
  rw [divideByLinearVanishing_eq (v := fun i : ℕ ↦ f.eval (i : F)) hp hi32 hm]
  refine congrArg (fun l ↦ Except.ok (LagrangeBasis.mk l)) (List.map_congr_left fun i hi ↦ ?_)
  refine quotient_eq_eval hp.injective hmem hdegree (fun j _ ↦ ?_) (Finset.mem_range.mpr (List.mem_range.mp hi))
  have heval := congrArg (eval (j : F)) hmul
  simp only [eval_mul, eval_sub, eval_X, eval_C] at heval
  rw [mul_comm, heval]

theorem divide_by_linear_vanishing_exact_square :
    ((X ^ 2 : ℚ[X]).degree < (3 : ℕ)) ∧ ∃ precomp q, PrecomputedWeights.new ℚ 3 = .ok precomp ∧
      (X - C ((1 : ℕ) : ℚ)) * q = X ^ 2 - C ((X ^ 2 : ℚ[X]).eval ((1 : ℕ) : ℚ)) ∧
      (⟨(List.range 3).map fun i : ℕ ↦ (X ^ 2 : ℚ[X]).eval (i : ℚ)⟩ : LagrangeBasis ℚ).divideByLinearVanishing
        precomp 1 = .ok ⟨(List.range 3).map fun i : ℕ ↦ q.eval (i : ℚ)⟩ := by
  have hdegree : (X ^ 2 : ℚ[X]).degree < (3 : ℕ) := by
    rw [degree_X_pow]
    exact WithBot.coe_lt_coe.mpr (by norm_num)
  exact ⟨hdegree, divide_by_linear_vanishing_exact (by norm_num) (by norm_num)
    (fun i hi _ ↦ Nat.cast_ne_zero.mpr hi.ne') _ hdegree (by norm_num)⟩

omit [DecidableEq F] in
/-- Beyond the range of `i32` the division loop does not get through. -/
theorem divideByLinearVanishing_error {f : LagrangeBasis F} {p : PrecomputedWeights F}
    (hn : 2 ^ 31 < f.domain) (out : LagrangeBasis F) : f.divideByLinearVanishing p m ≠ .ok out := by
  intro h
  obtain ⟨y, -, h⟩ := ok_of_bind h
  obtain ⟨q, hloop, -⟩ := ok_of_bind h
  -- the round of the first index that is no `i32`, or the first round when the divisor is none
  obtain ⟨i, hi, hne, hrange⟩ : ∃ i < f.domain, i ≠ m ∧ (2 ^ 31 ≤ i ∨ 2 ^ 31 ≤ m) := by
    by_cases hm : 2 ^ 31 ≤ m
    · exact ⟨0, by omega, by omega, .inr hm⟩
    · exact ⟨2 ^ 31, hn, by omega, .inl le_rfl⟩
  have hsplit : List.range f.domain = List.range i ++ i :: List.range' (i + 1) (f.domain - (i + 1)) := by
    rw [List.range_eq_range', List.range_eq_range', ← List.range'_succ]
    have happend := List.range'_append_1 (s := 0) (m := i) (n := f.domain - (i + 1) + 1)
    rw [Nat.zero_add] at happend
    rw [happend]
    congr 1
    omega
  rw [hsplit, List.foldlM_append] at hloop
  obtain ⟨q', -, hloop⟩ := ok_of_bind hloop
  rw [List.foldlM_cons] at hloop
  obtain ⟨q'', hstep, -⟩ := ok_of_bind hloop
  rw [LagrangeBasis.divideStep, if_pos hne] at hstep
  obtain ⟨a, ha, hstep⟩ := ok_of_bind hstep
  obtain ⟨b, hb, -⟩ := ok_of_bind hstep
  rw [toI32] at ha hb
  rcases hrange with hr | hr
  · rw [if_neg (by omega)] at ha
    cases ha
  · rw [if_neg (by omega)] at hb
    cases hb

theorem divide_by_linear_vanishing_too_long :
    ¬ ∃ precomp q, PrecomputedWeights.new ℚ (2 ^ 31 + 1) = .ok precomp ∧
      (X - C ((0 : ℕ) : ℚ)) * q = 0 - C ((0 : ℚ[X]).eval ((0 : ℕ) : ℚ)) ∧
      (⟨(List.range (2 ^ 31 + 1)).map fun i : ℕ ↦ (0 : ℚ[X]).eval (i : ℚ)⟩ :
        LagrangeBasis ℚ).divideByLinearVanishing precomp 0 =
          .ok ⟨(List.range (2 ^ 31 + 1)).map fun i : ℕ ↦ q.eval (i : ℚ)⟩ := by
  rintro ⟨precomp, q, -, -, h⟩
  refine divideByLinearVanishing_error ?_ _ h
  rw [LagrangeBasis.domain, List.length_map, List.length_range]
  omega

end Division

section Evaluation

variable {F : Type} [Field F] [DecidableEq F] {n : ℕ}

/-- Evaluation outside of the domain is that of the interpolating polynomial, the only one of its
degree. -/
theorem evaluate_lagrange_coefficients_interpolates (hn : 1 ≤ n)
    (hchar : ∀ i, 0 < i → i < n → (i : F) ≠ 0) {z : F} (hz : ∀ i : ℕ, i < n → z ≠ i) (values : List F)
    (hlen : values.length = n) :
    ∃ precomp b P, PrecomputedWeights.new F n = .ok precomp ∧
      LagrangeBasis.evaluateLagrangeCoefficients precomp n z = .ok b ∧
      (∀ Q : F[X], (Q.degree < n ∧ ∀ i : ℕ, i < n → Q.eval (i : F) = values.getD i 0) ↔ Q = P) ∧
      innerProduct values b = .ok (P.eval z) := by
  obtain ⟨precomp, hnew⟩ := PrecomputedWeights.exists_new hn hchar
  have hp := PrecomputedWeights.new_spec hnew
  have hmem : ∀ {i : ℕ}, i ∈ Finset.range n ↔ i < n := Finset.mem_range
  have hcard : ∀ Q : F[X], Q.degree < n ↔ Q.degree < (Finset.range n).card := by
    intro Q
    rw [Finset.card_range]
  have hunique : ∀ Q : F[X], (Q.degree < n ∧ ∀ i : ℕ, i < n → Q.eval (i : F) = values.getD i 0) ↔
      Q = Lagrange.interpolate (Finset.range n) Nat.cast fun i ↦ values.getD i 0 := by
    intro Q
    rw [hcard, ← Lagrange.eq_interpolate_iff _ hp.injective]
    simp only [hmem]
  obtain ⟨hdegree, heval⟩ := (hunique _).mpr rfl
  refine ⟨precomp, _, _, hnew, evaluateLagrangeCoefficients_eq hp z, hunique, ?_⟩
  have hvalues : values = (List.range n).map fun i ↦ values.getD i 0 := by
    rw [← hlen, map_range_getD]
  have hsum := eval_eq_sum_coefficient hp.injective ((hcard _).mp hdegree) fun i hi ↦ hz i (hmem.mp hi)
  rw [innerProduct_eq (by simp [hlen]), Except.ok.injEq]
  conv_lhs => rw [hvalues]
  rw [combine_map_range, hsum]
  change ∑ i ∈ Finset.range n, values.getD i 0 • coefficient (Finset.range n) Nat.cast z i = _
  refine Finset.sum_congr rfl fun i hi ↦ ?_
  rw [heval i (hmem.mp hi), smul_eq_mul]

theorem evaluate_lagrange_coefficients_interpolates_line :
    ∃ precomp b P, PrecomputedWeights.new ℚ 2 = .ok precomp ∧
      LagrangeBasis.evaluateLagrangeCoefficients precomp 2 5 = .ok b ∧
      (∀ Q : ℚ[X], (Q.degree < (2 : ℕ) ∧ ∀ i : ℕ, i < 2 → Q.eval (i : ℚ) = [3, 4].getD i 0) ↔ Q = P) ∧
      innerProduct [3, 4] b = .ok (P.eval 5) :=
  evaluate_lagrange_coefficients_interpolates (by norm_num) (fun i hi _ ↦ Nat.cast_ne_zero.mpr hi.ne')
    (fun i hi h ↦ by
      have : (5 : ℕ) = i := by exact_mod_cast h
      omega) [3, 4] rfl

end Evaluation

end Salt.Multipoint
