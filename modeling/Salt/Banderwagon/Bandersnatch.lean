import Salt.Banderwagon.Element

namespace Salt.Banderwagon

open Library.TwistedEdwards

section Field

variable {q : ℕ}

def littleEndian (q : ℕ) [NeZero q] (hq : q < 256 ^ 32) : FieldCodec q where
  serialize x := toLeBytes 32 x.val
  deserialize bytes :=
    if bytes.length = 32 ∧ fromLeBytes bytes < q then .ok (fromLeBytes bytes) else .error .invalidData
  serialize_length x := toLeBytes_length 32 x.val
  deserialize_iff bytes x := by
    constructor
    · intro h
      split at h
      · rename_i hb
        cases h
        rw [ZMod.val_natCast_of_lt hb.2, ← hb.1, toLeBytes_fromLeBytes]
      · cases h
    · rintro rfl
      have hval : fromLeBytes (toLeBytes 32 x.val) = x.val := fromLeBytes_toLeBytes (x.val_lt.trans hq)
      rw [hval, if_pos ⟨toLeBytes_length 32 x.val, x.val_lt⟩, ZMod.natCast_zmod_val]
  deserialize_error bytes e h := by
    split at h
    · cases h
    · cases h
      rfl

theorem littleEndian_rejects [NeZero q] (hq : q < 256 ^ 32) {bytes : Bytes} (h : q ≤ fromLeBytes bytes) :
    (littleEndian q hq).deserialize bytes = .error .invalidData :=
  if_neg fun hb ↦ absurd hb.2 h.not_gt

def isQr (z : ZMod q) : Bool :=
  let s := z ^ ((q - 1) / 2)
  if s = 0 then false else s = 1

theorem isQr_iff [Fact q.Prime] (hq : q ≠ 2) {z : ZMod q} : isQr z = true ↔ z ≠ 0 ∧ IsSquare z := by
  have hodd := (Fact.out (p := q.Prime)).eq_two_or_odd.resolve_left hq
  have hhalf : (q - 1) / 2 = q / 2 := by omega
  have hpos : q / 2 ≠ 0 := by
    have htwo := (Fact.out (p := q.Prime)).two_le
    omega
  rw [isQr, hhalf]
  by_cases hz : z = 0
  · simp [hz, hpos]
  · rw [if_neg (pow_ne_zero _ hz), decide_eq_true_iff, ZMod.euler_criterion q hz]
    exact ⟨fun h ↦ ⟨hz, h⟩, fun h ↦ h.2⟩

end Field

namespace Element

variable {q : ℕ} [Fact q.Prime]

def isZero (e : Element q) : Bool := e.x = 0 ∧ e.y = e.z ∧ e.y ≠ 0 ∧ e.t = 0

/-- `EdwardsAffine::from` -/
def toAffine (e : Element q) : Except Panic (ZMod q × ZMod q) :=
  if e.isZero then .ok (0, 1)
  else if e.z = 1 then .ok (e.x, e.y)
  else if e.z = 0 then .error (.unwrap "called `Option::unwrap()` on a `None` value")
  else .ok (e.x * e.z⁻¹, e.y * e.z⁻¹)

theorem toAffine_eq {e : Element q} (h : e.z ≠ 0) : e.toAffine = .ok e.affine := by
  rw [toAffine, affine]
  split
  · rename_i hzero
    obtain ⟨hx, hy, -, -⟩ := of_decide_eq_true hzero
    rw [hx, hy, zero_div, div_self h]
  · split
    · rename_i hone
      rw [hone, div_one, div_one]
    · rw [div_eq_mul_inv, div_eq_mul_inv]

/-- The inverses of the nonzero elements from one inversion: `prod` is the product of the elements
before, the second result its inverse. -/
def batchInversion (prod : ZMod q) : List (ZMod q) → List (ZMod q) × ZMod q
  | [] => ([], prod⁻¹)
  | f :: l =>
    if f = 0 then
      let (inverses, tmp) := batchInversion prod l
      (0 :: inverses, tmp)
    else
      let (inverses, tmp) := batchInversion (prod * f) l
      (tmp * prod :: inverses, tmp * f)

theorem batchInversion_eq (prod : ZMod q) (hprod : prod ≠ 0) (l : List (ZMod q)) :
    batchInversion prod l = (l.map (·⁻¹), prod⁻¹) := by
  induction l generalizing prod with
  | nil => rfl
  | cons f l ih =>
    rw [batchInversion]
    by_cases hf : f = 0
    · rw [if_pos hf, ih prod hprod, hf, List.map_cons, inv_zero]
    · rw [if_neg hf, ih (prod * f) (mul_ne_zero hprod hf), List.map_cons]
      refine Prod.ext ?_ ?_
      · refine congrArg (· :: l.map (·⁻¹)) ?_
        field_simp
      · field_simp

def normalizeBatch (points : List (Element q)) : List (ZMod q × ZMod q) :=
  List.zipWith (fun e zInv ↦ if e.isZero then (0, 1) else (e.x * zInv, e.y * zInv)) points
    (batchInversion 1 (points.map Element.z)).1

theorem normalizeBatch_eq {points : List (Element q)} (h : ∀ e ∈ points, e.z ≠ 0) :
    normalizeBatch points = points.map affine := by
  rw [normalizeBatch, batchInversion_eq 1 one_ne_zero, List.map_map, List.zipWith_map_right,
    List.zipWith_self]
  apply List.map_congr_left
  intro e he
  rw [Function.comp_apply, affine]
  split
  · rename_i hzero
    obtain ⟨hx, hy, -, -⟩ := of_decide_eq_true hzero
    rw [hx, hy, zero_div, div_self (h e he)]
  · rw [div_eq_mul_inv, div_eq_mul_inv]

end Element

open Classical in
/-- The curve of the source, with its own constants and the algorithms of the curve library. -/
noncomputable def bandersnatch : Curve modulus where
  toFieldCodec := littleEndian modulus (by norm_num [modulus])
  coeffA := coeffA
  coeffD := coeffD
  sqrt z := if h : IsSquare z then some h.choose else none
  isQr := isQr
  toAffine := Element.toAffine
  normalizeBatch := Element.normalizeBatch
  nonsquare := coeffD_nonsquare
  sqrt_sound := by
    intro z y hy
    split at hy
    · rename_i h
      cases hy
      rw [sq]
      exact h.choose_spec.symm
    · cases hy
  sqrt_complete := by
    intro z hz
    rw [dif_pos hz]
    exact Option.some_ne_none _
  isQr_iff _ := isQr_iff (by norm_num [modulus])
  toAffine_eq _ := Element.toAffine_eq
  normalizeBatch_eq _ := Element.normalizeBatch_eq

def scalarCodec : FieldCodec scalarModulus := littleEndian scalarModulus (by norm_num [scalarModulus])

def generator : ℕ × ℕ := (18886178867200960497001835917649091219057080094937609519140440539760939937304,
  19188667384257783945677642223292697773471335439753913231509108946878080696678)

theorem onCurve_generator : OnCurve coeffA coeffD (generator.1 : Fq) (generator.2 : Fq) := by
  have hnat : ((generator.2 ^ 2 : ℕ) : Fq) =
      ((1 + 45022363124591815672509500913686876175488063829319466900776701791074614335719 * generator.1 ^ 2 *
        generator.2 ^ 2 + 5 * generator.1 ^ 2 : ℕ) : Fq) := by
    rw [ZMod.natCast_eq_natCast_iff']
    decide +kernel
  rw [OnCurve, coeffA, coeffD]
  push_cast at hnat
  linear_combination hnat

def generatorRoot : ℕ := 10492313172349039683469942431944542861281997749014010607045972223061357375855

theorem square_generator : 1 - coeffA * (generator.1 : Fq) ^ 2 = (generatorRoot : Fq) ^ 2 := by
  have hnat : ((1 + 5 * generator.1 ^ 2 : ℕ) : Fq) = ((generatorRoot ^ 2 : ℕ) : Fq) := by
    rw [ZMod.natCast_eq_natCast_iff']
    decide +kernel
  rw [coeffA]
  push_cast at hnat
  linear_combination hnat

theorem generatorRoot_ne_zero : (generatorRoot : Fq) ≠ 0 := by
  rw [Ne, ZMod.natCast_eq_zero_iff]
  decide +kernel

end Salt.Banderwagon
