import Salt.Multipoint.MultiproofComplete

namespace Salt.Multipoint

open Library.Chunks Library.InnerProduct Library.Triple

variable {F E : Type} [Field F] {threads threads' : ℕ}

theorem divCeil_zero (ht : 0 < threads) : divCeil 0 threads = 0 := Nat.div_eq_of_lt (by omega)

theorem powersOf_eq (point : F) {n : ℕ} (hn : 0 < n) : powersOf point n = (List.range n).map (point ^ ·) := by
  rw [powersOf, max_eq_left hn, powersFrom_eq]
  simp only [one_mul]

theorem powersOfPar_zero (ht : 0 < threads) (point : F) : powersOfPar threads point 0 = .error .chunkSizeZero := by
  rw [powersOfPar, divCeil_zero ht]
  rfl

theorem powersOfPar_threads (ht : 0 < threads) (ht' : 0 < threads') (point : F) (n : ℕ) :
    powersOfPar threads point n = powersOfPar threads' point n := by
  rcases Nat.eq_zero_or_pos n with rfl | hn
  · rw [powersOfPar_zero ht, powersOfPar_zero ht']
  · rw [powersOfPar_eq ht hn, powersOfPar_eq ht' hn]

theorem aggregateQueries_threads (ht : 0 < threads) (ht' : 0 < threads') (groups : List (Group F E)) :
    aggregateQueries threads groups = aggregateQueries threads' groups := by
  rcases groups.eq_nil_or_concat with rfl | ⟨rest, group, hgroups⟩
  · simp only [aggregateQueries, List.length_nil, divCeil_zero ht, divCeil_zero ht']
  · have hpos : 0 < groups.length := by
      rw [hgroups, List.length_concat]
      omega
    have hwhole : ∀ t, 0 < t → aggregateQueries t groups = groups.mapM aggregateGroup := by
      intro t ht
      have hsize := divCeil_pos hpos ht
      rw [aggregateQueries, sliceChunks, if_neg (by omega), ok_bind]
      exact (mapM_flatten aggregateGroup _).trans (by rw [flatten_chunks hsize])
    rw [hwhole threads ht, hwhole threads' ht']

section Protocol

variable [AddCommGroup E] [Module F E] [DecidableEq F]

theorem open_threads {S S' : Schedule F E} (horder : S'.order = S.order) (hquotient : S'.quotientPlan = S.quotientPlan)
    (hcombination : S'.combinationPlan = S.combinationPlan) (c : Codec F E) (crs : CRS E)
    (precomp : PrecomputedWeights F)
    (transcript : Transcript) (queries : List (ProverQuery F E)) :
    MultiPoint.open S' c crs precomp transcript queries = MultiPoint.open S c crs precomp transcript queries := by
  simp only [MultiPoint.open, openQuotient, openCombination, horder, hquotient, hcombination,
    powersOfPar_threads S'.threads_pos S.threads_pos, aggregateQueries_threads S'.threads_pos S.threads_pos,
    create_threads S'.threads_pos S.threads_pos]

variable [DecidableEq E]

omit [DecidableEq F] in
theorem check_threads (ht : 0 < threads) (ht' : 0 < threads') (proof : MultiPointProof F E)
    (c : Codec F E) (crs : CRS E)
    (precomp : PrecomputedWeights F) (queries : List (VerifierQuery F E)) (transcript : Transcript) :
    proof.check threads c crs precomp queries transcript = proof.check threads' c crs precomp queries transcript := by
  rcases Nat.eq_zero_or_pos queries.length with hzero | hpos
  · simp only [MultiPointProof.check, hzero, powersOfPar_zero ht, powersOfPar_zero ht']
    rfl
  · have hmul : ∀ t, 0 < t → ∀ powers : List F, powers.length = queries.length → ∀ dens : List F,
        dens.length = queries.length → multiScalarMulPar t (queries.map VerifierQuery.commitment)
          (List.zipWith (fun rI denInv ↦ denInv * rI) powers dens) =
        .ok (combine (List.zipWith (fun rI denInv ↦ denInv * rI) powers dens)
          (queries.map VerifierQuery.commitment)) := by
      intro t ht powers hpowers dens hdens
      refine multiScalarMulPar_eq ht (by rwa [List.length_map]) ?_
      rw [List.length_map, List.length_zipWith, hpowers, hdens, min_self]
    simp only [MultiPointProof.check, powersOfPar_eq ht hpos, powersOfPar_eq ht' hpos, ok_bind]
    rw [hmul threads ht _ (by simp) _ (by simp), hmul threads' ht' _ (by simp) _ (by simp)]

/-- The helpers that work in pieces compute what their sequential definitions say, so proofs, transcripts and answers
are the same for every number of threads. -/
theorem parallel_helpers_exact (ht : 1 ≤ threads) :
    (∀ (r : F) (n : ℕ), 1 ≤ n → powersOfPar threads r n = .ok (powersOf r n) ∧
      powersOf r n = (List.range n).map (r ^ ·)) ∧
    (∀ (bases : List E) (scalars : List F), bases ≠ [] → scalars.length = bases.length →
      multiScalarMulPar threads bases scalars = .ok (List.zipWith (· • ·) scalars bases).sum) ∧
    (∀ (S S' : Schedule F E) (c : Codec F E) (crs : CRS E) (precomp : PrecomputedWeights F) (transcript : Transcript)
      (queries : List (ProverQuery F E)), S'.order = S.order → S'.quotientPlan = S.quotientPlan →
      S'.combinationPlan = S.combinationPlan →
      MultiPoint.open S' c crs precomp transcript queries = MultiPoint.open S c crs precomp transcript queries) ∧
    ∀ (threads' : ℕ), 1 ≤ threads' → ∀ (proof : MultiPointProof F E) (c : Codec F E) (crs : CRS E)
      (precomp : PrecomputedWeights F) (queries : List (VerifierQuery F E)) (transcript : Transcript),
      proof.check threads c crs precomp queries transcript = proof.check threads' c crs precomp queries transcript := by
  refine ⟨fun r n hn ↦ ⟨?_, powersOf_eq r hn⟩, fun bases scalars hne hlen ↦ ?_, ?_, ?_⟩
  · rw [powersOfPar_eq ht hn, powersOf_eq r hn]
  · exact multiScalarMulPar_eq ht (List.length_pos_iff.mpr hne) hlen.symm
  · exact fun S S' c crs precomp transcript queries horder hquotient hcombination ↦
      open_threads horder hquotient hcombination c crs precomp transcript queries
  · exact fun threads' ht' proof c crs precomp queries transcript ↦
      check_threads ht ht' proof c crs precomp queries transcript

theorem parallel_helpers_exact_three :
    powersOfPar 3 (2 : ℚ) 4 = .ok [1, 2, 4, 8] ∧
    multiScalarMulPar 3 [(1 : ℚ), 10, 100, 1000] [(2 : ℚ), 3, 4, 5] = .ok 5432 := by
  have hexact := @parallel_helpers_exact ℚ ℚ _ 3 _ _ _ _ (by decide)
  refine ⟨?_, ?_⟩
  · rw [(hexact.1 2 4 (by decide)).1, (hexact.1 2 4 (by decide)).2]
    norm_num [List.range_succ]
  · rw [hexact.2.1 [1, 10, 100, 1000] [2, 3, 4, 5] (by simp) rfl]
    norm_num

end Protocol

end Salt.Multipoint
