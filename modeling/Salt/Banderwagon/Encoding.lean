import Salt.Banderwagon.Bandersnatch

namespace Salt.Banderwagon

open Library.TwistedEdwards Library.Triple

section Field

variable {q : ℕ}

theorem FieldCodec.deserialize_serialize (c : FieldCodec q) (x : ZMod q) : c.deserialize (c.serialize x) = .ok x :=
  (c.deserialize_iff _ _).mpr rfl

theorem FieldCodec.serialize_injective (c : FieldCodec q) {x x' : ZMod q} (h : c.serialize x = c.serialize x') :
    x = x' := by
  have hx := c.deserialize_serialize x
  rw [h, c.deserialize_serialize x'] at hx
  exact (Except.ok.inj hx).symm

variable [Fact q.Prime]

theorem Curve.ne_two (c : Curve q) : q ≠ 2 := by
  rintro rfl
  exact c.nonsquare (FiniteField.isSquare_of_char_two (ZMod.ringChar_zmod_n 2) c.coeffD)

theorem ne_neg_self (hq : q ≠ 2) {y : ZMod q} (hy : y ≠ 0) : y ≠ -y := by
  intro h
  exact hy ((ZMod.neg_eq_self_iff y).mp h.symm |>.resolve_right fun h2 ↦ by
    have hprime := Fact.out (p := q.Prime)
    exact hq (hprime.eq_one_or_self_of_dvd 2 ⟨y.val, h2.symm⟩ |>.resolve_left (by norm_num)).symm)

theorem isPositive_neg (hq : q ≠ 2) {y : ZMod q} (hy : y ≠ 0) : isPositive (-y) = !isPositive y := by
  have hne : y.val ≠ (-y).val := fun h ↦ ne_neg_self hq hy (ZMod.val_injective q h)
  rw [isPositive, isPositive, neg_neg]
  rcases lt_or_gt_of_ne hne with h | h
  · simp [h, h.le]
  · simp [h, h.le]

end Field

namespace Element

variable {q : ℕ} [Fact q.Prime] {c : Curve q} {e e' : Element q}

def canonical (affine : ZMod q × ZMod q) : ZMod q × ZMod q :=
  if isPositive affine.2 then affine else -affine

theorem canonical_neg (hq : q ≠ 2) {p : ZMod q × ZMod q} (hy : p.2 ≠ 0) : canonical (-p) = canonical p := by
  rw [canonical, canonical, Prod.snd_neg, isPositive_neg hq hy]
  cases isPositive p.2 <;> simp

theorem canonical_or (p : ZMod q × ZMod q) : canonical p = p ∨ canonical p = -p := by
  rw [canonical]
  split
  · exact Or.inl rfl
  · exact Or.inr rfl

theorem isPositive_canonical (hq : q ≠ 2) {p : ZMod q × ZMod q} (hy : p.2 ≠ 0) :
    isPositive (canonical p).2 = true := by
  rw [canonical]
  split
  · assumption
  · rename_i h
    rw [Prod.snd_neg, isPositive_neg hq hy]
    simpa using h

namespace Valid

theorem affine_y_ne_zero (h : Valid c e) : e.affine.2 ≠ 0 := by
  intro h0
  apply h.ne_zero
  have hcurve := h.onCurve
  unfold OnCurve at hcurve
  rw [show e.y / e.z = 0 from h0] at hcurve
  linear_combination -hcurve

theorem y_ne_zero (h : Valid c e) : e.y ≠ 0 := by
  intro h0
  apply h.affine_y_ne_zero
  rw [affine, h0, zero_div]

theorem toBytes_eq (h : Valid c e) : e.toBytes c = .ok (c.serialize (canonical e.affine).1).reverse := by
  rw [toBytes, c.toAffine_eq e h.z_ne_zero, ok_bind, canonical]
  split <;> rfl

theorem toBytesUncompressed_eq (h : Valid c e) :
    e.toBytesUncompressed c = .ok (c.serialize (canonical e.affine).1 ++ c.serialize (canonical e.affine).2) := by
  rw [toBytesUncompressed, c.toAffine_eq e h.z_ne_zero, ok_bind]
  rfl

theorem onCurve_canonical (h : Valid c e) :
    OnCurve c.coeffA c.coeffD (canonical e.affine).1 (canonical e.affine).2 := by
  rcases canonical_or e.affine with hc | hc
  · rw [hc]
    exact h.onCurve
  · rw [hc]
    exact onCurve_neg h.onCurve

theorem ratio_eq (h : Valid c e) : e.ratio = .ok (e.x / e.y) := if_neg h.y_ne_zero

theorem sameClass_iff (h' : Valid c e') : SameClass e e' ↔ canonical e.affine = canonical e'.affine := by
  constructor
  · rintro (hsame | hneg)
    · rw [hsame]
    · rw [hneg, canonical_neg c.ne_two h'.affine_y_ne_zero]
  · intro hc
    rcases canonical_or e.affine with he | he <;> rcases canonical_or e'.affine with he' | he' <;>
      rw [he, he'] at hc
    · exact Or.inl hc
    · exact Or.inr hc
    · exact Or.inr (neg_eq_iff_eq_neg.mp hc)
    · exact Or.inl (neg_inj.mp hc)

theorem eq_iff (h : Valid c e) (h' : Valid c e') : e.eq e' = true ↔ SameClass e e' := by
  have hz := h.z_ne_zero
  have hz' := h'.z_ne_zero
  have hcross : e.x * e'.y = e'.x * e.y ↔ e.x / e.z * (e'.y / e'.z) = e'.x / e'.z * (e.y / e.z) := by
    field_simp
  rw [eq, if_neg fun h0 ↦ h.y_ne_zero h0.2, if_neg fun h0 ↦ h'.y_ne_zero h0.2, decide_eq_true_iff, hcross]
  constructor
  · intro hratio
    rcases eq_or_neg_of_ratio c.nonsquare h.onCurve h'.onCurve h.affine_y_ne_zero h'.affine_y_ne_zero hratio
      with ⟨hx, hy⟩ | ⟨hx, hy⟩
    · exact Or.inl (Prod.ext hx hy)
    · exact Or.inr (Prod.ext hx hy)
  · rintro (hsame | hneg)
    · rw [affine, affine, Prod.mk.injEq] at hsame
      rw [hsame.1, hsame.2]
    · rw [affine, affine, Prod.neg_mk, Prod.mk.injEq] at hneg
      rw [hneg.1, hneg.2]
      ring

theorem canonical_eq_iff (h : Valid c e) (h' : Valid c e') :
    (canonical e.affine).1 = (canonical e'.affine).1 ↔ canonical e.affine = canonical e'.affine := by
  constructor
  · intro hx
    have hpos := isPositive_canonical c.ne_two h.affine_y_ne_zero
    have hpos' := isPositive_canonical c.ne_two h'.affine_y_ne_zero
    have hcurve := h.onCurve_canonical
    rw [hx] at hcurve
    rcases y_eq_or_neg c.nonsquare hcurve h'.onCurve_canonical with hy | hy
    · exact Prod.ext hx hy
    · exfalso
      have hne : (canonical e'.affine).2 ≠ 0 := by
        intro h0
        rw [h0, isPositive, neg_zero] at hpos'
        simp at hpos'
      rw [hy, isPositive_neg c.ne_two hne, hpos'] at hpos
      cases hpos
  · intro hc
    rw [hc]

theorem toBytes_iff (h : Valid c e) (h' : Valid c e') : e.toBytes c = e'.toBytes c ↔ SameClass e e' := by
  rw [h.toBytes_eq, h'.toBytes_eq, h'.sameClass_iff, ← h.canonical_eq_iff h']
  constructor
  · intro hb
    exact c.serialize_injective (List.reverse_injective (Except.ok.inj hb))
  · intro hx
    rw [hx]

theorem toBytesUncompressed_iff (h : Valid c e) (h' : Valid c e') :
    e.toBytesUncompressed c = e'.toBytesUncompressed c ↔ SameClass e e' := by
  rw [h.toBytesUncompressed_eq, h'.toBytesUncompressed_eq, h'.sameClass_iff]
  constructor
  · intro hb
    have hlen : (c.serialize (canonical e.affine).1).length = (c.serialize (canonical e'.affine).1).length := by
      rw [c.serialize_length, c.serialize_length]
    obtain ⟨hx, hy⟩ := List.append_inj (Except.ok.inj hb) hlen
    exact Prod.ext (c.serialize_injective hx) (c.serialize_injective hy)
  · intro hc
    rw [hc]

theorem ratio_iff (h : Valid c e) (h' : Valid c e') : e.ratio = e'.ratio ↔ e.eq e' = true := by
  rw [h.ratio_eq, h'.ratio_eq, Except.ok.injEq, div_eq_div_iff h.y_ne_zero h'.y_ne_zero, eq,
    if_neg fun h0 ↦ h.y_ne_zero h0.2, if_neg fun h0 ↦ h'.y_ne_zero h0.2, decide_eq_true_iff]

theorem isSquare_canonical (h : Valid c e) : 1 - c.coeffA * (canonical e.affine).1 ^ 2 ≠ 0 ∧
    IsSquare (1 - c.coeffA * (canonical e.affine).1 ^ 2) := by
  have hsq : (canonical e.affine).1 ^ 2 = (e.x / e.z) ^ 2 := by
    rcases canonical_or e.affine with hc | hc
    · rw [hc, affine]
    · rw [hc, affine, Prod.fst_neg, neg_sq]
  rw [hsq]
  exact ⟨h.ne_zero, h.square⟩

end Valid

theorem getPointFromX_eq (c : Curve q) (x : ZMod q) :
    (getPointFromX c x = .ok none ∧ ¬ ∃ y, OnCurve c.coeffA c.coeffD x y) ∨
      ∃ y, getPointFromX c x = .ok (some (ofAffine x y)) ∧ OnCurve c.coeffA c.coeffD x y ∧
        (y ≠ 0 → isPositive y = true) := by
  have hden := denominator_ne_zero c.nonsquare x
  rw [getPointFromX]
  simp only [if_neg hden]
  cases hs : c.sqrt ((c.coeffA * x ^ 2 - 1) / (c.coeffD * x ^ 2 - 1)) with
  | none =>
    refine Or.inl ⟨rfl, ?_⟩
    rintro ⟨y, hy⟩
    apply c.sqrt_complete _ ⟨y, ?_⟩ hs
    rw [← sq]
    exact ((onCurve_iff c.nonsquare).mp hy).symm
  | some y =>
    have hy : y ^ 2 = (c.coeffA * x ^ 2 - 1) / (c.coeffD * x ^ 2 - 1) := c.sqrt_sound _ _ hs
    refine Or.inr ⟨_, rfl, ?_, ?_⟩
    · rw [onCurve_iff c.nonsquare, ← hy]
      split
      · rfl
      · exact neg_sq y
    · intro hne
      split
      · assumption
      · rename_i hneg
        have hy0 : y ≠ 0 := by
          rintro rfl
          simp at hne
        rw [isPositive_neg c.ne_two hy0]
        simpa using hneg

theorem affine_ofAffine (x y : ZMod q) : (ofAffine x y).affine = (x, y) := by
  rw [affine, ofAffine, div_one, div_one]

theorem valid_ofAffine {x y : ZMod q} (hcurve : OnCurve c.coeffA c.coeffD x y)
    (hcheck : subgroupCheck c (ofAffine x y) = true) : Valid c (ofAffine x y) := by
  obtain ⟨hne, hsquare⟩ := (c.isQr_iff _).mp hcheck
  refine ⟨one_ne_zero, mul_one _, ?_, ?_, ?_⟩
  · rwa [ofAffine, div_one, div_one]
  · rwa [ofAffine, div_one]
  · rwa [ofAffine, div_one]

theorem fromBytes_sound {bytes : Bytes} (h : fromBytes c bytes = .ok e) : Valid c e ∧ e.toBytes c = .ok bytes := by
  obtain ⟨x, hx, h⟩ := ok_of_bind h
  obtain ⟨point, hpoint, h⟩ := ok_of_bind h
  rcases getPointFromX_eq c x with ⟨hnone, -⟩ | ⟨y, hsome, hcurve, hpos⟩
  · rw [hnone] at hpoint
    cases hpoint
    cases h
  · rw [hsome] at hpoint
    cases hpoint
    simp only at h
    split at h
    · rename_i hcheck
      cases h
      have hvalid := valid_ofAffine hcurve hcheck
      refine ⟨hvalid, ?_⟩
      have hy := hvalid.affine_y_ne_zero
      rw [affine_ofAffine] at hy
      rw [hvalid.toBytes_eq, affine_ofAffine, canonical, if_pos (hpos hy), (c.deserialize_iff _ _).mp hx,
        List.reverse_reverse]
    · cases h

theorem fromBytes_ne_panic (c : Curve q) (bytes : Bytes) (p : Panic) : fromBytes c bytes ≠ .error (.panic p) := by
  rw [fromBytes]
  intro h
  cases hx : c.deserialize bytes.reverse with
  | error err =>
    rw [hx, c.deserialize_error _ _ hx] at h
    cases h
  | ok x =>
    rw [hx, ok_bind] at h
    rcases getPointFromX_eq c x with ⟨hnone, -⟩ | ⟨y, hsome, -⟩
    · rw [hnone, ok_bind] at h
      cases h
    · rw [hsome, ok_bind] at h
      simp only at h
      split at h <;> cases h

theorem fromBytes_toBytes (h : Valid c e) : ∃ bytes e', e.toBytes c = .ok bytes ∧ bytes.length = 32 ∧
    fromBytes c bytes = .ok e' ∧ e'.eq e = true := by
  have hcurve := h.onCurve_canonical
  have hpos := isPositive_canonical c.ne_two h.affine_y_ne_zero
  rcases getPointFromX_eq c (canonical e.affine).1 with ⟨-, hnone⟩ | ⟨y, hsome, hy, -⟩
  · exact absurd ⟨_, hcurve⟩ hnone
  · have hcheck : subgroupCheck c (ofAffine (canonical e.affine).1 y) = true :=
      (c.isQr_iff _).mpr h.isSquare_canonical
    have hdecode : fromBytes c (c.serialize (canonical e.affine).1).reverse =
        .ok (ofAffine (canonical e.affine).1 y) := by
      rw [fromBytes, List.reverse_reverse, c.deserialize_serialize, ok_bind, hsome, ok_bind]
      simp only [hcheck, if_true]
    obtain ⟨hvalid, hbytes⟩ := fromBytes_sound hdecode
    refine ⟨_, _, h.toBytes_eq, by rw [List.length_reverse, c.serialize_length], hdecode, ?_⟩
    rw [hvalid.eq_iff h, ← hvalid.toBytes_iff h, hbytes, h.toBytes_eq]

theorem batchToCommitments_eq {elements : List (Element q)} (h : ∀ e ∈ elements, Valid c e) :
    elements.mapM (toBytesUncompressed c) = .ok (batchToCommitments c elements) := by
  rw [batchToCommitments, c.normalizeBatch_eq elements fun e he ↦ (h e he).z_ne_zero, List.map_map]
  apply mapM_eq_ok
  intro e he
  rw [(h e he).toBytesUncompressed_eq]
  rfl

theorem valid_zero (c : Curve q) : Valid c zero := by
  refine ⟨one_ne_zero, by simp [zero], by simp [zero, OnCurve], ?_, by simp [zero]⟩
  exact ⟨1, by simp [zero]⟩

theorem toBytes_zero : (zero : Element modulus).toBytes bandersnatch = .ok (List.replicate 32 0) := by
  have hx : (canonical (zero : Element modulus).affine).1 = 0 := by
    rcases canonical_or (zero : Element modulus).affine with h | h
    · rw [h]
      simp [affine, zero]
    · rw [h]
      simp [affine, zero]
  rw [(valid_zero bandersnatch).toBytes_eq, hx]
  change Except.ok (toLeBytes 32 (0 : Fq).val).reverse = _
  rw [ZMod.val_zero]
  rfl

/-- Equality, the two encodings and the ratio of coordinates tell the same classes apart, and decoding
accepts the encodings of valid elements only. -/
theorem element_encoding_canonical (c : Curve q) :
    (∀ e e', Valid c e → Valid c e' → (e.eq e' = true ↔ SameClass e e') ∧
      (e.eq e' = true ↔ e.toBytes c = e'.toBytes c) ∧
      (e.eq e' = true ↔ e.toBytesUncompressed c = e'.toBytesUncompressed c) ∧
      (e.eq e' = true ↔ e.ratio = e'.ratio)) ∧
    (∀ e, Valid c e → ∃ bytes e', e.toBytes c = .ok bytes ∧ bytes.length = 32 ∧ fromBytes c bytes = .ok e' ∧
      e'.eq e = true) ∧
    (∀ bytes e, bytes.length = 32 → fromBytes c bytes = .ok e → Valid c e ∧ e.toBytes c = .ok bytes) ∧
    (∀ elements : List (Element q), (∀ e ∈ elements, Valid c e) →
      elements.mapM (toBytesUncompressed c) = .ok (batchToCommitments c elements)) ∧
    ∀ bytes p, bytes.length = 32 → fromBytes c bytes ≠ .error (.panic p) := by
  refine ⟨fun e e' h h' ↦ ⟨h.eq_iff h', ?_, ?_, (h.ratio_iff h').symm⟩, fun e h ↦ fromBytes_toBytes h,
    fun bytes e _ h ↦ fromBytes_sound h, fun elements h ↦ batchToCommitments_eq h,
    fun bytes p _ ↦ fromBytes_ne_panic c bytes p⟩
  · rw [h.eq_iff h', h.toBytes_iff h']
  · rw [h.eq_iff h', h.toBytesUncompressed_iff h']

theorem two_ne_zero_fq : (2 : Fq) ≠ 0 := by
  have h : ((2 : ℕ) : Fq) ≠ 0 := by
    rw [Ne, ZMod.natCast_eq_zero_iff]
    norm_num [modulus]
  exact_mod_cast h

theorem valid_generator : Valid bandersnatch (ofAffine (generator.1 : Fq) (generator.2 : Fq)) := by
  refine ⟨one_ne_zero, mul_one _, ?_, ?_, ?_⟩ <;> simp only [ofAffine, div_one]
  · exact onCurve_generator
  · exact ⟨generatorRoot, square_generator.trans (sq _)⟩
  · exact square_generator.trans_ne (pow_ne_zero 2 generatorRoot_ne_zero)

def negGenerator : Element modulus :=
  ⟨-(2 * generator.1), -(2 * generator.2), 2 * generator.1 * generator.2, 2⟩

theorem affine_negGenerator : negGenerator.affine = -((generator.1 : Fq), (generator.2 : Fq)) := by
  rw [affine, negGenerator, neg_div, neg_div, mul_div_cancel_left₀ _ two_ne_zero_fq,
    mul_div_cancel_left₀ _ two_ne_zero_fq]
  rfl

theorem valid_negGenerator : Valid bandersnatch negGenerator := by
  have hx : negGenerator.x / negGenerator.z = -(generator.1 : Fq) := congrArg Prod.fst affine_negGenerator
  have hy : negGenerator.y / negGenerator.z = -(generator.2 : Fq) := congrArg Prod.snd affine_negGenerator
  refine ⟨two_ne_zero_fq, ?_, ?_, ?_, ?_⟩
  · simp only [negGenerator]
    ring
  · rw [hx, hy]
    exact onCurve_neg onCurve_generator
  · rw [hx, neg_sq]
    exact ⟨generatorRoot, square_generator.trans (sq _)⟩
  · rw [hx, neg_sq]
    exact square_generator.trans_ne (pow_ne_zero 2 generatorRoot_ne_zero)

/-- The generator of the source and the other representative of its class. -/
theorem element_encoding_canonical_generator :
    Valid bandersnatch (ofAffine (generator.1 : Fq) (generator.2 : Fq)) ∧ Valid bandersnatch negGenerator ∧
      (ofAffine (generator.1 : Fq) (generator.2 : Fq)).toBytes bandersnatch = negGenerator.toBytes bandersnatch ∧
      ∃ bytes e', negGenerator.toBytes bandersnatch = .ok bytes ∧ fromBytes bandersnatch bytes = .ok e' ∧
        e'.eq negGenerator = true := by
  obtain ⟨hclasses, hround, -⟩ := element_encoding_canonical bandersnatch
  refine ⟨valid_generator, valid_negGenerator, ?_, ?_⟩
  · obtain ⟨heq, hbytes, -⟩ := hclasses _ _ valid_generator valid_negGenerator
    rw [← hbytes, heq]
    refine .inr ?_
    rw [affine_negGenerator, neg_neg, affine_ofAffine]
  · obtain ⟨bytes, e', hbytes, -, hdecode, heq⟩ := hround _ valid_negGenerator
    exact ⟨bytes, e', hbytes, hdecode, heq⟩

end Element

end Salt.Banderwagon
