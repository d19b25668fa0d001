import Salt.Multipoint.Ipa

namespace Salt.Multipoint

open Library.Chunks Library.InnerProduct Library.Triple

section Arithmetic

variable {F E : Type} [Field F] [AddCommGroup E] [Module F E]

theorem innerProduct_eq {a b : List F} (h : a.length = b.length) : innerProduct a b = .ok (combine a b) :=
  if_pos h

theorem slowVartimeMultiscalarMul_eq {scalars : List F} {points : List E}
    (h : scalars.length = points.length) :
    slowVartimeMultiscalarMul scalars points = .ok (combine scalars points) := if_pos h.symm

theorem divCeil_pos {n d : ℕ} (hn : 0 < n) (hd : 0 < d) : 0 < divCeil n d :=
  Nat.div_pos (by omega) hd

theorem foldGenerators_eq {threads : ℕ} (ht : 0 < threads) (xInv : F) {GLeft : List E}
    (hpos : 0 < GLeft.length) (GRight : List E) : foldGenerators threads xInv GLeft GRight = .ok
    (fold xInv GLeft GRight) := by
  have hsize := divCeil_pos hpos ht
  have hne : divCeil GLeft.length threads ≠ 0 := by omega
  simp only [foldGenerators, sliceChunks, if_neg hne, ok_bind]
  rw [flatten_zipWith_chunks hsize _ GLeft GRight]
  rfl

section Halves

variable {α : Type} {l : List α} {m : ℕ}

theorem halve_append (l : List α) : (halve l).1 ++ (halve l).2 = l := List.take_append_drop _ l

theorem length_halve_fst (h : l.length = 2 ^ (m + 1)) : (halve l).1.length = 2 ^ m := by
  simp only [halve, List.length_take, h, pow_succ]
  omega

theorem length_halve_snd (h : l.length = 2 ^ (m + 1)) : (halve l).2.length = 2 ^ m := by
  simp only [halve, List.length_drop, h, pow_succ]
  omega

end Halves

def foldHalves (x : F) (g : List E) : List E := fold x (halve g).1 (halve g).2

theorem foldScalars_eq (x : F) (a : List F) : foldScalars x a = foldHalves x a := rfl

variable {k : ℕ} {x : F} {a b : List F} {G : List E}

theorem length_foldHalves (x : F) (h : G.length = 2 ^ (k + 1)) : (foldHalves x G).length = 2 ^ k := by
  have hhalves := (length_halve_fst h).trans (length_halve_snd h).symm
  rw [foldHalves, length_fold hhalves, length_halve_fst h]

theorem combine_foldHalves (hx : x ≠ 0) (ha : a.length = 2 ^ (k + 1)) (hG : G.length = 2 ^ (k + 1)) :
    combine (foldHalves x a) (foldHalves x⁻¹ G) =
      combine a G + x • combine (halve a).2 (halve G).1 + x⁻¹ • combine (halve a).1 (halve G).2 := by
  have h := combine_fold hx ((length_halve_fst ha).trans (length_halve_snd ha).symm)
    ((length_halve_fst hG).trans (length_halve_snd hG).symm)
    ((length_halve_fst ha).trans (length_halve_fst hG).symm)
  rw [halve_append, halve_append] at h
  exact h

theorem combine_coeffs_halves (xs : List F) (hG : G.length = 2 ^ (xs.length + 1)) :
    combine (coeffs (x :: xs)) G = combine (coeffs xs) (foldHalves x G) := by
  have h := combine_coeffs_cons (x := x) xs (length_halve_fst hG) (length_halve_snd hG)
  rw [halve_append] at h
  exact h

theorem combine_verifier {xs ys cs : List F} {LVec RVec G : List E} (hL : xs.length = LVec.length)
    (hR : ys.length = RVec.length) (q : F) (C Q : E) :
    combine (xs ++ ys ++ [1] ++ [q] ++ cs) (LVec ++ RVec ++ [C] ++ [Q] ++ G) =
      combine xs LVec + combine ys RVec + C + q • Q + combine cs G := by
  rw [combine_append (by simp [hL, hR]), combine_append (by simp [hL, hR]),
    combine_append (by simp [hL, hR]), combine_append hL]
  simp

end Arithmetic

section Bits

variable {F : Type} [Field F]

theorem toBits_succ (n k : ℕ) : toBits n (k + 1) = (n >>> k) % 2 :: toBits n k := by
  simp [toBits, List.range_succ]

theorem toBits_add {i k m : ℕ} (hm : m ≤ k) : toBits (2 ^ k + i) m = toBits i m := by
  unfold toBits
  congr 1
  apply List.map_congr_left
  intro j hj
  have hjm : j < m := List.mem_range.mp hj
  obtain ⟨d, rfl⟩ : ∃ d, k = j + 1 + d := ⟨k - j - 1, by omega⟩
  rw [Nat.shiftRight_eq_div_pow, Nat.shiftRight_eq_div_pow, pow_add, pow_add, pow_one, mul_assoc,
    Nat.mul_add_div (Nat.two_pow_pos j), Nat.mul_add_mod]

theorem map_range_bits (xs : List F) (c : F) :
    (List.range (2 ^ xs.length)).map (fun index ↦ (List.zip (toBits index xs.length) xs).foldl
      (fun b e ↦ if e.1 = 1 then b * e.2 else b) c) = (coeffs xs).map (c * ·) := by
  induction xs generalizing c with
  | nil => simp [toBits, coeffs]
  | cons x xs ih =>
    have hlow : ∀ i ∈ List.range (2 ^ xs.length),
        (List.zip (toBits i (xs.length + 1)) (x :: xs)).foldl
          (fun b e ↦ if e.1 = 1 then b * e.2 else b) c =
        (List.zip (toBits i xs.length) xs).foldl (fun b e ↦ if e.1 = 1 then b * e.2 else b) c := by
      intro i hi
      have hlt : i < 2 ^ xs.length := List.mem_range.mp hi
      have hbit : (i >>> xs.length) % 2 = 0 := by
        rw [Nat.shiftRight_eq_div_pow, Nat.div_eq_of_lt hlt]
      rw [toBits_succ, hbit, List.zip_cons_cons, List.foldl_cons]
      rfl
    have hhigh : ∀ i ∈ List.range (2 ^ xs.length),
        (List.zip (toBits (2 ^ xs.length + i) (xs.length + 1)) (x :: xs)).foldl
          (fun b e ↦ if e.1 = 1 then b * e.2 else b) c =
        (List.zip (toBits i xs.length) xs).foldl (fun b e ↦ if e.1 = 1 then b * e.2 else b) (c * x) := by
      intro i hi
      have hlt : i < 2 ^ xs.length := List.mem_range.mp hi
      have hbit : ((2 ^ xs.length + i) >>> xs.length) % 2 = 1 := by
        rw [Nat.shiftRight_eq_div_pow, Nat.add_div_left _ (Nat.two_pow_pos _), Nat.div_eq_of_lt hlt]
      rw [toBits_succ, hbit, toBits_add (le_refl _), List.zip_cons_cons, List.foldl_cons]
      rfl
    rw [List.length_cons, pow_succ, mul_two, List.range_add, List.map_append, List.map_map,
      List.map_congr_left hlow, ih c, coeffs, List.map_append, List.map_map]
    congr 1
    calc _ = (List.range (2 ^ xs.length)).map (fun i ↦ (List.zip (toBits i xs.length) xs).foldl
          (fun b e ↦ if e.1 = 1 then b * e.2 else b) (c * x)) := List.map_congr_left hhigh
      _ = (coeffs xs).map (c * x * ·) := ih (c * x)
      _ = _ := List.map_congr_left fun d _ ↦ mul_assoc c x d

theorem map_indexCoefficient (xs : List F) :
    (List.range (2 ^ xs.length)).map (indexCoefficient xs xs.length) = (coeffs xs).map (-1 * ·) :=
  map_range_bits xs (-1)

end Bits

section Messages

variable {T F E : Type} (P : TranscriptProtocol T F E)

def absorbMessages (transcript : T) (L R : E) : F × T :=
  P.challengeScalar (P.appendPoint (P.appendPoint transcript (label "L") L) (label "R") R) (label "x")

theorem generateChallenges_cons (L R : E) (LVec RVec : List E) (transcript : T) :
    generateChallenges P (L :: LVec) (R :: RVec) transcript =
      ((absorbMessages P transcript L R).1 ::
        (generateChallenges P LVec RVec (absorbMessages P transcript L R).2).1,
        (generateChallenges P LVec RVec (absorbMessages P transcript L R).2).2) := rfl

theorem length_generateChallenges (LVec RVec : List E) (transcript : T) :
    (generateChallenges P LVec RVec transcript).1.length = min LVec.length RVec.length := by
  induction LVec generalizing RVec transcript with
  | nil => rw [generateChallenges, List.length_nil, List.length_nil, Nat.zero_min]; simp
  | cons L LVec ih =>
    cases RVec with
    | nil => rw [generateChallenges, List.length_nil, List.length_nil, Nat.min_zero]; simp
    | cons R RVec =>
      rw [generateChallenges_cons, List.length_cons, ih, List.length_cons, List.length_cons, Nat.succ_min_succ]

end Messages

section Rounds

variable {T F E : Type} [Field F] [AddCommGroup E] [Module F E] (P : TranscriptProtocol T F E)

def leftMessage (Q : E) (a b : List F) (G : List E) : E :=
  combine (halve a).2 (halve G).1 + combine (halve a).2 (halve b).1 • Q

def rightMessage (Q : E) (a b : List F) (G : List E) : E :=
  combine (halve a).1 (halve G).2 + combine (halve a).1 (halve b).2 • Q

def roundChallenges (Q : E) : ℕ → List F → List F → List E → T → List F
  | 0, _, _, _, _ => []
  | rounds + 1, a, b, G, transcript =>
    let (x, transcript) := absorbMessages P transcript (leftMessage Q a b G) (rightMessage Q a b G)
    x :: roundChallenges Q rounds (foldHalves x a) (foldHalves x⁻¹ b) (foldHalves x⁻¹ G) transcript

variable {P} {threads k : ℕ} {Q : E} {a b : List F} {G : List E} {transcript : T}

theorem createRound_eq (ha : a.length = 2 ^ (k + 1)) (hb : b.length = 2 ^ (k + 1))
    (hG : G.length = 2 ^ (k + 1)) (transcript : T) :
    createRound P Q a b G transcript = .ok (leftMessage Q a b G, rightMessage Q a b G,
      absorbMessages P transcript (leftMessage Q a b G) (rightMessage Q a b G)) := by
  have haL := length_halve_fst ha
  have haR := length_halve_snd ha
  have hbL := length_halve_fst hb
  have hbR := length_halve_snd hb
  have hGL := length_halve_fst hG
  have hGR := length_halve_snd hG
  have hleft : slowVartimeMultiscalarMul ((halve a).2 ++ [combine (halve a).2 (halve b).1])
      ((halve G).1 ++ [Q]) = .ok (leftMessage Q a b G) := by
    rw [slowVartimeMultiscalarMul_eq (by simp [haR, hGL]), combine_append (haR.trans hGL.symm)]
    simp [leftMessage]
  have hright : slowVartimeMultiscalarMul ((halve a).1 ++ [combine (halve a).1 (halve b).2])
      ((halve G).2 ++ [Q]) = .ok (rightMessage Q a b G) := by
    rw [slowVartimeMultiscalarMul_eq (by simp [haL, hGR]), combine_append (haL.trans hGR.symm)]
    simp [rightMessage]
  simp only [createRound, innerProduct_eq (haR.trans hbL.symm), innerProduct_eq (haL.trans hbR.symm),
    ok_bind, hleft, hright]
  rfl

/-- What the rounds hand over to the verifier: it squeezes the same challenges, and with them the
messages balance the statement against the folded vectors. -/
structure Balanced (P : TranscriptProtocol T F E) (Q : E) (k : ℕ) (a b : List F) (G : List E)
    (transcript : T) (xs : List F) (proof : IPAProof F E) (transcript' : T) : Prop where
  left : proof.LVec.length = k
  right : proof.RVec.length = k
  count : xs.length = k
  challenges : generateChallenges P proof.LVec proof.RVec transcript = (xs, transcript')
  balance : combine xs proof.LVec + combine (xs.map (·⁻¹)) proof.RVec + (combine a G + combine a b • Q) =
    proof.a • combine (coeffs (xs.map (·⁻¹))) G + (proof.a * combine (coeffs (xs.map (·⁻¹))) b) • Q

theorem createRounds_spec [DecidableEq F] (ht : 0 < threads) (ha : a.length = 2 ^ k) (hb : b.length = 2 ^ k)
    (hG : G.length = 2 ^ k) (hx : ∀ x ∈ roundChallenges P Q k a b G transcript, x ≠ 0) :
    ∃ proof transcript', createRounds P threads Q k a b G transcript = .ok (proof, transcript') ∧
      Balanced P Q k a b G transcript (roundChallenges P Q k a b G transcript) proof transcript' := by
  induction k generalizing a b G transcript with
  | zero =>
    obtain ⟨a₀, rfl⟩ := List.length_eq_one_iff.mp ha
    obtain ⟨b₀, rfl⟩ := List.length_eq_one_iff.mp hb
    obtain ⟨g₀, rfl⟩ := List.length_eq_one_iff.mp hG
    refine ⟨⟨[], [], a₀⟩, transcript, rfl, rfl, rfl, rfl, rfl, ?_⟩
    simp [roundChallenges, coeffs]
  | succ k ih =>
    rw [roundChallenges] at hx ⊢
    have hround := createRound_eq (P := P) (Q := Q) ha hb hG transcript
    generalize hsent : absorbMessages P transcript (leftMessage Q a b G) (rightMessage Q a b G) = sent
      at hx hround ⊢
    obtain ⟨x, transcript₁⟩ := sent
    simp only [List.mem_cons, forall_eq_or_imp] at hx ⊢
    obtain ⟨hx₀, hx⟩ := hx
    have hinv : inverse x = .ok x⁻¹ := if_neg hx₀
    have hGL := length_halve_fst hG
    have hfold := foldGenerators_eq ht x⁻¹ (hGL ▸ Nat.two_pow_pos k) (halve G).2
    obtain ⟨proof, transcript', hrun, hbal⟩ := ih (length_foldHalves x ha) (length_foldHalves x⁻¹ hb)
      (length_foldHalves x⁻¹ hG) hx
    refine ⟨⟨leftMessage Q a b G :: proof.LVec, rightMessage Q a b G :: proof.RVec, proof.a⟩,
      transcript', ?_, ?_, ?_, ?_, ?_, ?_⟩
    · rw [createRounds, hround, ok_bind]
      simp only
      rw [hinv, ok_bind, hfold, ok_bind, foldScalars_eq, foldScalars_eq]
      exact congrArg (· >>= _) hrun
    · rw [List.length_cons, hbal.left]
    · rw [List.length_cons, hbal.right]
    · rw [List.length_cons, hbal.count]
    · rw [generateChallenges_cons, hsent, hbal.challenges]
    · set xs := roundChallenges P Q k (foldHalves x a) (foldHalves x⁻¹ b) (foldHalves x⁻¹ G) transcript₁
      have hlen : (xs.map (·⁻¹)).length = k := by rw [List.length_map, hbal.count]
      have hmain := hbal.balance
      rw [combine_foldHalves hx₀ ha hG, combine_foldHalves hx₀ ha hb,
        ← combine_coeffs_halves _ (by rw [hlen, hG]), ← combine_coeffs_halves _ (by rw [hlen, hb])] at hmain
      rw [List.map_cons, combine_cons, combine_cons, ← hmain, leftMessage, rightMessage]
      simp only [smul_eq_mul]
      module

theorem foldGenerators_threads {threads' : ℕ} (ht : 0 < threads) (ht' : 0 < threads') (xInv : F)
    (GLeft GRight : List E) :
    foldGenerators threads xInv GLeft GRight = foldGenerators threads' xInv GLeft GRight := by
  rcases Nat.eq_zero_or_pos GLeft.length with hzero | hpos
  · have hsize : ∀ t, 0 < t → divCeil GLeft.length t = 0 := by
      intro t ht
      rw [divCeil, hzero]
      exact Nat.div_eq_of_lt (by omega)
    rw [foldGenerators, foldGenerators, hsize threads ht, hsize threads' ht']
  · rw [foldGenerators_eq ht xInv hpos, foldGenerators_eq ht' xInv hpos]

theorem createRounds_threads [DecidableEq F] {threads' : ℕ} (ht : 0 < threads) (ht' : 0 < threads') :
    createRounds P threads Q k a b G transcript = createRounds P threads' Q k a b G transcript := by
  induction k generalizing a b G transcript with
  | zero => rfl
  | succ k ih =>
    rw [createRounds, createRounds]
    simp only [foldGenerators_threads ht ht', ih]

end Rounds

section Complete

variable {T F E : Type} [Field F] [AddCommGroup E] [Module F E]
  {P : TranscriptProtocol T F E} {threads k : ℕ} {crs : CRS E} {a b : List F} {transcript : T}
  {inputPoint : F}

theorem log2_pow (k : ℕ) : log2 (2 ^ k) = k := Nat.clog_pow 2 k (le_refl 2)

/-- The challenges of the rounds that `create` runs on a statement. -/
def squeezedChallenges (P : TranscriptProtocol T F E) (transcript : T) (crs : CRS E) (a : List F)
    (aComm : E) (b : List F) (inputPoint outputPoint : F) : List F :=
  let (w, transcript) :=
    absorbStatement P (P.domainSep transcript (label "ipa")) aComm inputPoint outputPoint
  roundChallenges P (w • crs.Q) (log2 crs.n) a b crs.G transcript

theorem create_spec [DecidableEq F] (ht : 0 < threads) (hn : crs.n = 2 ^ k) (ha : a.length = crs.n)
    (hb : b.length = crs.n) (aComm : E)
    (hx : ∀ x ∈ squeezedChallenges P transcript crs a aComm b inputPoint (combine a b), x ≠ 0) :
    ∃ proof transcript', create P threads transcript crs a aComm b inputPoint =
        .ok (proof, transcript') ∧
      let s := absorbStatement P (P.domainSep transcript (label "ipa")) aComm inputPoint (combine a b)
      Balanced P (s.1 • crs.Q) k a b crs.G s.2
        (squeezedChallenges P transcript crs a aComm b inputPoint (combine a b)) proof transcript' := by
  have hlog : log2 crs.n = k := by rw [hn, log2_pow]
  simp only [squeezedChallenges] at hx ⊢
  rw [hlog] at hx ⊢
  obtain ⟨proof, transcript', hrun, hbal⟩ := createRounds_spec ht (ha.trans hn) (hb.trans hn)
    (crs.size.trans hn) hx
  refine ⟨proof, transcript', ?_, hbal⟩
  have hlens : ¬ (a.length ≠ crs.G.length ∨ b.length ≠ crs.G.length) := by
    rw [crs.size, ha, hb]
    simp
  have hpow : ¬ 2 ^ log2 crs.G.length ≠ crs.G.length := by rw [crs.size, hlog, hn]; simp
  rw [create, if_neg hlens, if_neg hpow, innerProduct_eq (ha.trans hb.symm), ok_bind, crs.size, hlog]
  exact hrun

/-- What the multi-scalar product of the verifier balances: the messages and the statement against the folded
vectors. -/
def Balances (crs : CRS E) (b : List F) (aComm : E) (outputPoint w : F) (xs : List F) (proof : IPAProof F E) : Prop :=
  combine xs proof.LVec + combine (xs.map (·⁻¹)) proof.RVec + (aComm + (w * outputPoint) • crs.Q) =
    proof.a • combine (coeffs (xs.map (·⁻¹))) crs.G +
      (w * (proof.a * combine (coeffs (xs.map (·⁻¹))) b)) • crs.Q

section Acceptance

variable [DecidableEq E] {proof : IPAProof F E} {xs : List F} {w : F} {transcript₁ transcript' : T} {aComm : E}
  {outputPoint : F}

open Classical in
theorem verifyMultiexp_eq (hn : crs.n = 2 ^ proof.LVec.length) (hR : proof.RVec.length = proof.LVec.length)
    (hb : b.length = crs.n)
    (hs : absorbStatement P (P.domainSep transcript (label "ipa")) aComm inputPoint outputPoint = (w, transcript₁))
    (hxs : generateChallenges P proof.LVec proof.RVec transcript₁ = (xs, transcript')) :
    proof.verifyMultiexp P transcript crs b aComm inputPoint outputPoint =
      .ok (decide (Balances crs b aComm outputPoint w xs proof), transcript') := by
  have hlength : xs.length = proof.LVec.length := by
    have h := length_generateChallenges P proof.LVec proof.RVec transcript₁
    rwa [hxs, hR, Nat.min_self] at h
  have hinv : (xs.map (·⁻¹)).length = proof.LVec.length := by rw [List.length_map, hlength]
  have hcoeffs : (List.range crs.n).map (indexCoefficient (xs.map (·⁻¹)) proof.LVec.length) =
      (coeffs (xs.map (·⁻¹))).map (-1 * ·) := by
    rw [hn, ← hinv]
    exact map_indexCoefficient _
  have hlen : (coeffs (xs.map (·⁻¹))).length = crs.n := by rw [length_coeffs, hinv, hn]
  simp only [IPAProof.verifyMultiexp, if_neg (not_not.mpr hn), hs, hxs, if_neg (not_not.mpr hinv), hcoeffs]
  rw [innerProduct_eq (by rw [List.length_map, hlen, hb]), ok_bind,
    slowVartimeMultiscalarMul_eq (by simp [hR, hlength, hlen, crs.size]), ok_bind,
    combine_verifier hlength (by rw [hinv, hR]), combine_map_mul, combine_map_mul, combine_comm b, combine_map_mul]
  have hzero : ∀ C : E, combine xs proof.LVec + combine (xs.map (·⁻¹)) proof.RVec + C +
      (w * (outputPoint + proof.a * ((-1 : F) • combine (coeffs (xs.map (·⁻¹))) b))) • crs.Q +
      proof.a • (-1 : F) • combine (coeffs (xs.map (·⁻¹))) crs.G =
      combine xs proof.LVec + combine (xs.map (·⁻¹)) proof.RVec + (C + (w * outputPoint) • crs.Q) -
        (proof.a • combine (coeffs (xs.map (·⁻¹))) crs.G +
          (w * (proof.a * combine (coeffs (xs.map (·⁻¹))) b)) • crs.Q) := by
    intro C
    simp only [smul_eq_mul]
    module
  rw [hzero]
  congr 2
  rw [decide_eq_decide, Balances, sub_eq_zero]

/-- The verifier accepts exactly the proofs of the right shape whose multi-scalar product is zero. -/
theorem verifyMultiexp_accepts_iff
    (hs : absorbStatement P (P.domainSep transcript (label "ipa")) aComm inputPoint outputPoint = (w, transcript₁))
    (hxs : generateChallenges P proof.LVec proof.RVec transcript₁ = (xs, transcript')) :
    proof.verifyMultiexp P transcript crs b aComm inputPoint outputPoint = .ok (true, transcript') ↔
      crs.n = 2 ^ proof.LVec.length ∧ proof.RVec.length = proof.LVec.length ∧ b.length = crs.n ∧
        Balances crs b aComm outputPoint w xs proof := by
  classical
  constructor
  · intro h
    have hn : crs.n = 2 ^ proof.LVec.length := by
      by_contra hne
      rw [IPAProof.verifyMultiexp, if_pos hne] at h
      cases h
    have hlength : xs.length = min proof.LVec.length proof.RVec.length := by
      rw [← length_generateChallenges P proof.LVec proof.RVec transcript₁, hxs]
    simp only [IPAProof.verifyMultiexp, if_neg (not_not.mpr hn), hs, hxs] at h
    split at h
    · cases h
    · rename_i hcount
      rw [not_not, List.length_map] at hcount
      obtain ⟨b₀, hb₀, h'⟩ := ok_of_bind h
      obtain ⟨result, hresult, -⟩ := ok_of_bind h'
      have hb : b.length = crs.n := by
        by_contra hne
        rw [innerProduct, if_neg (by rwa [List.length_map, List.length_range])] at hb₀
        cases hb₀
      have hR : proof.RVec.length = proof.LVec.length := by
        by_contra hne
        rw [slowVartimeMultiscalarMul, multiScalarMul, if_neg] at hresult
        · cases hresult
        · simp only [List.length_append, List.length_map, List.length_range, List.length_cons, List.length_nil,
            crs.size]
          omega
      refine ⟨hn, hR, hb, ?_⟩
      have hrun : proof.verifyMultiexp P transcript crs b aComm inputPoint outputPoint = .ok (true, transcript') := by
        simp only [IPAProof.verifyMultiexp, if_neg (not_not.mpr hn), hs, hxs,
          if_neg (show ¬ (xs.map (·⁻¹)).length ≠ proof.LVec.length by rw [List.length_map, hcount]; simp), h]
      rw [verifyMultiexp_eq hn hR hb hs hxs] at hrun
      exact of_decide_eq_true (congrArg Prod.fst (Except.ok.inj hrun))
  · rintro ⟨hn, hR, hb, hbalance⟩
    rw [verifyMultiexp_eq hn hR hb hs hxs, decide_eq_true hbalance]

end Acceptance

theorem Balanced.verifies [DecidableEq E] {proof : IPAProof F E} {xs : List F} {w : F}
    {transcript₁ transcript' : T} (hn : crs.n = 2 ^ k) (hb : b.length = crs.n)
    (hs : absorbStatement P (P.domainSep transcript (label "ipa")) (combine a crs.G) inputPoint
      (combine a b) = (w, transcript₁))
    (hbal : Balanced P (w • crs.Q) k a b crs.G transcript₁ xs proof transcript') :
    proof.verifyMultiexp P transcript crs b (combine a crs.G) inputPoint (combine a b) =
      .ok (true, transcript') := by
  have hmain := hbal.balance
  simp only [smul_smul] at hmain
  refine (verifyMultiexp_accepts_iff hs hbal.challenges).mpr ⟨by rw [hn, hbal.left], by rw [hbal.left,
    hbal.right], hb, ?_⟩
  rw [Balances, mul_comm w, mul_comm w]
  exact hmain

theorem create_threads [DecidableEq F] {threads' : ℕ} (ht : 0 < threads) (ht' : 0 < threads') (aComm : E) :
    create P threads transcript crs a aComm b inputPoint =
      create P threads' transcript crs a aComm b inputPoint := by
  simp only [create, createRounds_threads ht ht']

theorem create_verifies [DecidableEq F] [DecidableEq E] (ht : 0 < threads) (hn : crs.n = 2 ^ k) (ha : a.length = crs.n)
    (hb : b.length = crs.n)
    (hx : ∀ x ∈ squeezedChallenges P transcript crs a (combine a crs.G) b inputPoint (combine a b),
      x ≠ 0) :
    ∃ proof transcript',
      create P threads transcript crs a (combine a crs.G) b inputPoint = .ok (proof, transcript') ∧
      proof.verifyMultiexp P transcript crs b (combine a crs.G) inputPoint (combine a b) =
        .ok (true, transcript') := by
  obtain ⟨proof, transcript', hrun, hbal⟩ := create_spec ht hn ha hb (combine a crs.G) hx
  exact ⟨proof, transcript', hrun, hbal.verifies hn hb rfl⟩

/-- For every transcript machine, every field and module and every number of threads: unless a
round squeezes the challenge zero, the proof of a true statement is created and accepted, and prover
and verifier take the transcript through the same states. -/
theorem ipa_completeness [DecidableEq F] [DecidableEq E] (ht : 0 < threads) (hn : crs.n = 2 ^ k) {aComm : E}
    {outputPoint : F} (hC : slowVartimeMultiscalarMul a crs.G = .ok aComm)
    (hz : innerProduct a b = .ok outputPoint)
    (hx : ∀ x ∈ squeezedChallenges P transcript crs a aComm b inputPoint outputPoint, x ≠ 0) :
    ∃ proof transcript',
      create P threads transcript crs a aComm b inputPoint = .ok (proof, transcript') ∧
      proof.verifyMultiexp P transcript crs b aComm inputPoint outputPoint =
        .ok (true, transcript') := by
  have ha : a.length = crs.G.length := by
    by_contra hne
    rw [slowVartimeMultiscalarMul, multiScalarMul, if_neg (Ne.symm hne)] at hC
    cases hC
  have hb : a.length = b.length := by
    by_contra hne
    rw [innerProduct, if_neg hne] at hz
    cases hz
  rw [slowVartimeMultiscalarMul_eq ha] at hC
  rw [innerProduct_eq hb] at hz
  cases hC
  cases hz
  exact create_verifies ht hn (ha.trans crs.size) (hb.symm.trans (ha.trans crs.size)) hx

def constantTranscript : TranscriptProtocol Bytes ℚ ℚ where
  challengeScalar t l := (1, t ++ l)
  appendPoint t l _ := t ++ l
  appendScalar t l _ := t ++ l
  domainSep t l := t ++ l

theorem ipa_completeness_two :
    slowVartimeMultiscalarMul ([2, 3] : List ℚ) ([5, 7] : List ℚ) = .ok 31 ∧
    ∃ proof transcript', create constantTranscript 3 [] ⟨2, [5, 7], 11, rfl⟩ [2, 3] 31 [13, 17] 4 =
        .ok (proof, transcript') ∧
      proof.verifyMultiexp constantTranscript [] ⟨2, [5, 7], 11, rfl⟩ [13, 17] 31 4 77 =
        .ok (true, transcript') := by
  have hC : slowVartimeMultiscalarMul ([2, 3] : List ℚ) ([5, 7] : List ℚ) = .ok 31 := by
    norm_num [slowVartimeMultiscalarMul, multiScalarMul]
  refine ⟨hC, ipa_completeness (k := 1) (by decide) rfl hC ?_ fun x hx ↦ ?_⟩
  · norm_num [innerProduct]
  · have hone : x = 1 := by
      simpa [squeezedChallenges, absorbStatement, show log2 2 = 1 from log2_pow 1, roundChallenges,
        absorbMessages, constantTranscript] using hx
    rw [hone]
    exact one_ne_zero

end Complete

end Salt.Multipoint
