import Salt.Banderwagon.Bandersnatch
import Salt.Banderwagon.MontgomeryKernels

namespace Salt.Banderwagon

open Library.TwistedEdwards Library.X86 Library.X86.Reg

section Montgomery

def radix : ℕ := 2 ^ 256

theorem radix_ne_zero : (radix : Fq) ≠ 0 := by
  rw [Ne, ZMod.natCast_eq_zero_iff]
  decide +kernel

/-- An element of the base field as it is stored: a number below the prime that stands for its product
with the inverse of the radix. -/
structure Mont where
  limbs : ℕ
  lt : limbs < modulus

namespace Mont

def value (m : Mont) : Fq := m.limbs * (radix : Fq)⁻¹

def ofNat (n : ℕ) : Mont := ⟨n * radix % modulus, Nat.mod_lt _ prime_modulus.pos⟩

theorem value_ofNat (n : ℕ) : (ofNat n).value = n := by
  rw [value, ofNat, ZMod.natCast_mod, Nat.cast_mul, mul_inv_cancel_right₀ radix_ne_zero]

instance : Add Mont := ⟨fun m n ↦ ⟨(m.limbs + n.limbs) % modulus, Nat.mod_lt _ prime_modulus.pos⟩⟩

instance : Sub Mont := ⟨fun m n ↦ ⟨(m.limbs + (modulus - n.limbs)) % modulus, Nat.mod_lt _ prime_modulus.pos⟩⟩

theorem value_add (m n : Mont) : (m + n).value = m.value + n.value := by
  have hlimbs : (m + n).limbs = (m.limbs + n.limbs) % modulus := rfl
  rw [value, hlimbs, ZMod.natCast_mod, Nat.cast_add, add_mul]
  rfl

theorem value_sub (m n : Mont) : (m - n).value = m.value - n.value := by
  have hlimbs : (m - n).limbs = (m.limbs + (modulus - n.limbs)) % modulus := rfl
  rw [value, hlimbs, ZMod.natCast_mod, Nat.cast_add, Nat.cast_sub n.lt.le, ZMod.natCast_self, zero_sub,
    ← sub_eq_add_neg, sub_mul]
  rfl

end Mont

structure Kernels where
  mul : Mont → Mont → Mont
  mulBy5 : Mont → Mont
  mul_product : ∀ x y, (mul x y).limbs * 2 ^ 256 ≡ x.limbs * y.limbs [MOD modulus]
  mulBy5_product : ∀ x, (mulBy5 x).limbs ≡ 5 * x.limbs [MOD modulus]

namespace Kernels

variable (k : Kernels)

theorem value_mul (x y : Mont) : (k.mul x y).value = x.value * y.value := by
  have hproduct : ((k.mul x y).limbs : Fq) * radix = x.limbs * y.limbs := by
    have hcast := (ZMod.natCast_eq_natCast_iff _ _ _).mpr (k.mul_product x y)
    rwa [Nat.cast_mul, Nat.cast_mul] at hcast
  have hradix := radix_ne_zero
  simp only [Mont.value]
  field_simp
  exact hproduct

theorem value_mulBy5 (x : Mont) : (k.mulBy5 x).value = x.value * (5 : ℕ) := by
  have hproduct := (ZMod.natCast_eq_natCast_iff _ _ _).mpr (k.mulBy5_product x)
  rw [Mont.value, hproduct, Mont.value, Nat.cast_mul]
  ring

end Kernels

end Montgomery

section Assembly

def operands (x y : Mont) (result : ℕ) : Machine where
  regs := Function.update (Function.update (fun _ => 0) rdx 32) rdi result
  cf := 0
  ovf := 0
  mem a := if a < 32 then x.limbs / W ^ (a / 8) % W else y.limbs / W ^ ((a - 32) / 8) % W
  stack := []

theorem limbs4_digits {n : ℕ} (h : n < W ^ 4) :
    limbs4 (n / W ^ 0 % W) (n / W ^ 1 % W) (n / W ^ 2 % W) (n / W ^ 3 % W) = n := by
  simp only [limbs4, W] at *
  omega

theorem loadElement_operands (x y : Mont) (result : ℕ) :
    loadElement (operands x y result).mem 0 = x.limbs ∧ loadElement (operands x y result).mem 32 = y.limbs := by
  have hfits : modulus < W ^ 4 := by decide +kernel
  exact ⟨limbs4_digits (x.lt.trans hfits), limbs4_digits (y.lt.trans hfits)⟩

theorem isElement_operands (x y : Mont) (result : ℕ) :
    IsElement (operands x y result).mem 0 ∧ IsElement (operands x y result).mem 32 := by
  have hword : ∀ a, (operands x y result).mem a < W := by
    intro a
    simp only [operands]
    split <;> exact Nat.mod_lt _ (by decide)
  obtain ⟨hx, hy⟩ := loadElement_operands x y result
  exact ⟨⟨fun o _ ↦ hword _, hx ▸ x.lt⟩, ⟨fun o _ ↦ hword _, hy ▸ y.lt⟩⟩

def asmKernels : Kernels where
  mul x y := ⟨loadElement (run montMulAsm (operands x y 64)).mem 64,
    (run_montMulAsm (isElement_operands x y 64).1 (isElement_operands x y 64).2).1.canonical.lt⟩
  mulBy5 x := ⟨loadElement (run montMulBy5Asm (operands x x 0)).mem 0,
    (run_montMulBy5Asm (isElement_operands x x 0).1).1.canonical.lt⟩
  mul_product := by
    intro x y
    obtain ⟨hx, hy⟩ := isElement_operands x y 64
    have hproduct := (run_montMulAsm hx hy).1.product
    rw [← (loadElement_operands x y 64).1, ← (loadElement_operands x y 64).2]
    exact hproduct
  mulBy5_product := by
    intro x
    have hproduct := (run_montMulBy5Asm (isElement_operands x x 0).1).1.product
    rw [← (loadElement_operands x x 0).1]
    exact Nat.ModEq.trans (congrArg (· % modulus) hproduct) (Nat.mod_modEq _ _)

end Assembly

section Bodies

def edwardsD : Mont where
  limbs := limbs4 12167860994669987632 4043113551995129031 6052647550941614584 3904213385886034240
  lt := by decide +kernel

/-- The constant is the second coefficient of the curve, not `-5` as the comment beside it says. -/
theorem value_edwardsD : edwardsD.value = coeffD := by
  have hcast : ((edwardsD.limbs : ℕ) : Fq) = coeffD * radix := by
    rw [coeffD, ← Nat.cast_mul, ZMod.natCast_eq_natCast_iff']
    decide +kernel
  rw [Mont.value, hcast, mul_inv_cancel_right₀ radix_ne_zero]

def addAffinePoint (result : Element modulus) (x₂ y₂ : Fq) : Element modulus :=
  let a := result.x * x₂
  let b := result.y * y₂
  let c := x₂ * y₂
  let d := result.t * c
  let c := d * edwardsD.value
  let d := (result.x + result.y) * (x₂ + y₂)
  let e := d - a - b
  let f := result.z - c
  let g := result.z + c
  let a := a * (5 : ℕ)
  let h := b + a
  { x := e * f, y := g * h, t := e * h, z := f * g }

structure MontPoint where
  x : Mont
  y : Mont
  t : Mont
  z : Mont

def MontPoint.toElement (p : MontPoint) : Element modulus := ⟨p.x.value, p.y.value, p.t.value, p.z.value⟩

def addAffinePointAsm (k : Kernels) (result : MontPoint) (x₂ y₂ : Mont) : MontPoint :=
  let a := k.mul result.x x₂
  let b := k.mul result.y y₂
  let c := k.mul x₂ y₂
  let d := k.mul result.t c
  let c := k.mul d edwardsD
  let d := k.mul (result.x + result.y) (x₂ + y₂)
  let e := d - a - b
  let f := result.z - c
  let g := result.z + c
  let a := k.mulBy5 a
  let h := b + a
  { x := k.mul e f, y := k.mul g h, t := k.mul e h, z := k.mul f g }

theorem toElement_addAffinePointAsm (k : Kernels) (result : MontPoint) (x₂ y₂ : Mont) :
    (addAffinePointAsm k result x₂ y₂).toElement = addAffinePoint result.toElement x₂.value y₂.value := by
  simp only [addAffinePointAsm, addAffinePoint, MontPoint.toElement, k.value_mul, k.value_mulBy5, Mont.value_add,
    Mont.value_sub]

end Bodies

section Law

structure Extended (e : Element modulus) : Prop where
  z_ne_zero : e.z ≠ 0
  t_eq : e.t * e.z = e.x * e.y
  onCurve : OnCurve coeffA edwardsD.value e.affine.1 e.affine.2

/-- Neither denominator of the addition law vanishes. -/
def Addable (result : Element modulus) (x₂ y₂ : Fq) : Prop :=
  1 - (edwardsD.value * result.x * result.y * x₂ * y₂ / result.z ^ 2) ^ 2 ≠ 0

variable {result : Element modulus} {x₂ y₂ : Fq}

theorem extended_zero : Extended Element.zero := by
  refine ⟨one_ne_zero, ?_, ?_⟩
  · simp [Element.zero]
  · simp [Element.zero, Element.affine, OnCurve]

theorem Extended.addAffinePoint_eq (hresult : Extended result) (x₂ y₂ : Fq) : ∃ e f g h : Fq,
    addAffinePoint result x₂ y₂ = { x := e * f, y := g * h, t := e * h, z := f * g } ∧
    e = result.z * (result.affine.1 * y₂ + result.affine.2 * x₂) ∧
    f = result.z * (1 - edwardsD.value * result.affine.1 * x₂ * result.affine.2 * y₂) ∧
    g = result.z * (1 + edwardsD.value * result.affine.1 * x₂ * result.affine.2 * y₂) ∧
    h = result.z * (result.affine.2 * y₂ - coeffA * result.affine.1 * x₂) := by
  have hz := hresult.z_ne_zero
  have hx : result.x = result.z * result.affine.1 := (mul_div_cancel₀ result.x hz).symm
  have hy : result.y = result.z * result.affine.2 := (mul_div_cancel₀ result.y hz).symm
  have ht : result.t = result.z * (result.affine.1 * result.affine.2) := by
    apply mul_right_cancel₀ hz
    rw [hresult.t_eq, hx, hy]
    ring
  refine ⟨_, _, _, _, rfl, ?_, ?_, ?_, ?_⟩
  · rw [hx, hy]
    ring
  · rw [ht]
    ring
  · rw [ht]
    ring
  · rw [hx, hy, coeffA]
    ring

theorem Addable.denominators (haddable : Addable result x₂ y₂) :
    1 + edwardsD.value * result.affine.1 * x₂ * result.affine.2 * y₂ ≠ 0 ∧
      1 - edwardsD.value * result.affine.1 * x₂ * result.affine.2 * y₂ ≠ 0 := by
  have hsplit : 1 - (edwardsD.value * result.x * result.y * x₂ * y₂ / result.z ^ 2) ^ 2 =
      (1 + edwardsD.value * result.affine.1 * x₂ * result.affine.2 * y₂) *
        (1 - edwardsD.value * result.affine.1 * x₂ * result.affine.2 * y₂) := by
    simp only [Element.affine]
    ring
  rw [Addable, hsplit] at haddable
  exact mul_ne_zero_iff.mp haddable

theorem Extended.add (hresult : Extended result) (hpoint : OnCurve coeffA edwardsD.value x₂ y₂)
    (haddable : Addable result x₂ y₂) : Extended (addAffinePoint result x₂ y₂) ∧
      (addAffinePoint result x₂ y₂).affine = sum coeffA edwardsD.value result.affine (x₂, y₂) := by
  have hz := hresult.z_ne_zero
  obtain ⟨hplus, hminus⟩ := haddable.denominators
  obtain ⟨e, f, g, h, heq, he, hf, hg, hh⟩ := hresult.addAffinePoint_eq x₂ y₂
  have hf₀ : f ≠ 0 := hf ▸ mul_ne_zero hz hminus
  have hg₀ : g ≠ 0 := hg ▸ mul_ne_zero hz hplus
  have haffine : (addAffinePoint result x₂ y₂).affine = sum coeffA edwardsD.value result.affine (x₂, y₂) := by
    rw [heq, Element.affine, mul_comm g h, mul_comm f g, mul_div_mul_right e g hf₀, mul_comm g f,
      mul_div_mul_right h f hg₀,
      he, hf, hg, hh, mul_div_mul_left _ _ hz, mul_div_mul_left _ _ hz]
    rfl
  refine ⟨⟨?_, ?_, ?_⟩, haffine⟩
  · rw [heq]
    exact mul_ne_zero hf₀ hg₀
  · rw [heq]
    ring
  · rw [haffine]
    exact onCurve_sum hresult.onCurve hpoint hplus hminus

def addAll (result : Element modulus) (points : List (Fq × Fq)) : Element modulus :=
  points.foldl (fun result p ↦ addAffinePoint result p.1 p.2) result

def Successive (result : Element modulus) : List (Fq × Fq) → Prop
  | [] => True
  | p :: points =>
    OnCurve coeffA edwardsD.value p.1 p.2 ∧ Addable result p.1 p.2 ∧ Successive (addAffinePoint result p.1 p.2) points

theorem Successive.of_append {points rest : List (Fq × Fq)} (h : Successive result (points ++ rest)) :
    Successive result points := by
  induction points generalizing result with
  | nil => trivial
  | cons p points ih => exact ⟨h.1, h.2.1, ih h.2.2⟩

theorem Extended.addAll (hresult : Extended result) {points : List (Fq × Fq)} (h : Successive result points) :
    Extended (addAll result points) ∧
      (addAll result points).affine = points.foldl (sum coeffA edwardsD.value) result.affine := by
  induction points generalizing result with
  | nil => exact ⟨hresult, rfl⟩
  | cons p points ih =>
    obtain ⟨hadd, haffine⟩ := hresult.add h.1 h.2.1
    rw [List.foldl_cons, ← haffine]
    exact ih hadd h.2.2

def addAllAsm (k : Kernels) (result : MontPoint) (points : List (Mont × Mont)) : MontPoint :=
  points.foldl (fun result p ↦ addAffinePointAsm k result p.1 p.2) result

theorem toElement_addAllAsm (k : Kernels) (result : MontPoint) (points : List (Mont × Mont)) :
    (addAllAsm k result points).toElement = addAll result.toElement (points.map (Prod.map Mont.value Mont.value)) := by
  induction points generalizing result with
  | nil => rfl
  | cons p points ih => exact (ih _).trans (by rw [toElement_addAffinePointAsm]; rfl)

namespace MontPoint

def zero : MontPoint := ⟨Mont.ofNat 0, Mont.ofNat 1, Mont.ofNat 0, Mont.ofNat 1⟩

theorem toElement_zero : zero.toElement = Element.zero := by
  simp only [toElement, zero, Mont.value_ofNat, Nat.cast_zero, Nat.cast_one, Element.zero]

end MontPoint

/-- Either body leaves an extended point for the sum of its operands, and so does any number of successive
additions from the neutral element on. -/
theorem add_affine_point_exact (k : Kernels) :
    (∀ (result : Element modulus) (x₂ y₂ : Fq), Extended result → OnCurve coeffA edwardsD.value x₂ y₂ →
      Addable result x₂ y₂ → Extended (addAffinePoint result x₂ y₂) ∧
      (addAffinePoint result x₂ y₂).affine = sum coeffA edwardsD.value result.affine (x₂, y₂)) ∧
    (∀ (result : MontPoint) (x₂ y₂ : Mont), Extended result.toElement → OnCurve coeffA edwardsD.value
    x₂.value y₂.value →
      Addable result.toElement x₂.value y₂.value → Extended (addAffinePointAsm k result x₂ y₂).toElement ∧
      (addAffinePointAsm k result x₂ y₂).toElement.affine =
        sum coeffA edwardsD.value result.toElement.affine (x₂.value, y₂.value)) ∧
    (∀ points : List (Fq × Fq), Successive Element.zero points → ∀ added, added <+: points →
      Extended (addAll Element.zero added) ∧
      (addAll Element.zero added).affine = added.foldl (sum coeffA edwardsD.value) (0, 1)) ∧
    (∀ points : List (Mont × Mont), Successive Element.zero (points.map (Prod.map Mont.value Mont.value)) →
      ∀ added, added <+: points → Extended (addAllAsm k MontPoint.zero added).toElement ∧
      (addAllAsm k MontPoint.zero added).toElement.affine =
        (added.map (Prod.map Mont.value Mont.value)).foldl (sum coeffA edwardsD.value) (0, 1)) ∧
    coeffA = -5 ∧ edwardsD.value = coeffD := by
  have hrun : ∀ points : List (Fq × Fq), Successive Element.zero points → ∀ added, added <+: points →
      Extended (addAll Element.zero added) ∧
      (addAll Element.zero added).affine = added.foldl (sum coeffA edwardsD.value) (0, 1) := by
    rintro _ h added ⟨rest, rfl⟩
    have hzero : Element.affine (Element.zero : Element modulus) = (0, 1) := by simp [Element.affine, Element.zero]
    rw [← hzero]
    exact extended_zero.addAll h.of_append
  refine ⟨fun result x₂ y₂ hresult ↦ hresult.add, ?_, hrun, ?_, rfl, value_edwardsD⟩
  · intro result x₂ y₂ hresult hpoint haddable
    rw [toElement_addAffinePointAsm]
    exact hresult.add hpoint haddable
  · intro points h added hadded
    rw [toElement_addAllAsm, MontPoint.toElement_zero]
    exact hrun _ h _ (hadded.map _)

theorem add_affine_point_exact_generator :
    Extended (addAllAsm asmKernels MontPoint.zero
      (List.replicate 2 (Prod.map Mont.ofNat Mont.ofNat generator))).toElement := by
  have hcurve : OnCurve coeffA edwardsD.value (generator.1 : Fq) (generator.2 : Fq) := by
    rw [value_edwardsD]
    exact onCurve_generator
  have hfirst : addAffinePoint Element.zero (generator.1 : Fq) (generator.2 : Fq) =
      Element.ofAffine (generator.1 : Fq) (generator.2 : Fq) := by
    simp [addAffinePoint, Element.zero, Element.ofAffine]
  have hzero : Addable Element.zero (generator.1 : Fq) (generator.2 : Fq) := by
    simp [Addable, Element.zero]
  have hself : Addable (Element.ofAffine (generator.1 : Fq) (generator.2 : Fq)) (generator.1 : Fq)
    (generator.2 : Fq) := by
    have hnat : ((1 : ℕ) : Fq) ≠
        (((45022363124591815672509500913686876175488063829319466900776701791074614335719 * generator.1 * generator.2 *
          generator.1 * generator.2) ^ 2 : ℕ) : Fq) := by
      rw [Ne, ZMod.natCast_eq_natCast_iff']
      decide +kernel
    rw [Addable, value_edwardsD, Element.ofAffine, coeffD, one_pow, div_one, sub_ne_zero]
    exact_mod_cast hnat
  obtain ⟨-, -, -, hrun, -⟩ := add_affine_point_exact asmKernels
  refine (hrun _ ?_ _ (List.prefix_refl _)).1
  simp only [List.map_replicate, Prod.map, Mont.value_ofNat]
  exact ⟨hcurve, hzero, hcurve, hfirst ▸ hself, trivial⟩

end Law

end Salt.Banderwagon
