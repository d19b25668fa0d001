import Salt.Library.PowMod
import Mathlib.Tactic.NormNum.Prime

namespace Salt.Banderwagon

open Library.PowMod

def modulus : ℕ := 52435875175126190479447740508185965837690552500527637822603658699938581184513

abbrev Fq := ZMod modulus

def modulusFactors : List ℕ :=
  List.replicate 32 2 ++ [3, 11, 19, 10177, 125527, 859267, 906349, 906349, 2508409, 2529403, 52437899,
    254760293, 254760293]

theorem prime_modulusFactors : ∀ f ∈ modulusFactors, f.Prime := by
  intro f hf
  rw [modulusFactors, List.mem_append] at hf
  rcases hf with hf | hf
  · rw [List.eq_of_mem_replicate hf]
    exact Nat.prime_two
  · simp only [List.mem_cons, List.not_mem_nil, or_false] at hf
    rcases hf with rfl | rfl | rfl | rfl | rfl | rfl | rfl | rfl | rfl | rfl | rfl | rfl | rfl <;> norm_num

theorem prime_modulus : modulus.Prime := by
  have hfactors : modulus - 1 = modulusFactors.prod := by decide +kernel
  have hone : powMod modulus 255 7 (modulus - 1) 1 % modulus = 1 % modulus := by decide +kernel
  have hne : ∀ f ∈ modulusFactors, powMod modulus 255 7 ((modulus - 1) / f) 1 % modulus ≠ 1 % modulus := by
    decide +kernel
  exact prime_of_factors (by norm_num [modulus]) hfactors prime_modulusFactors hone hne

instance : Fact modulus.Prime := ⟨prime_modulus⟩

def scalarModulus : ℕ := 13108968793781547619861935127046491459309155893440570251786403306729687672801

instance : NeZero scalarModulus := ⟨by norm_num [scalarModulus]⟩

def coeffA : Fq := -5

def coeffD : Fq := (45022363124591815672509500913686876175488063829319466900776701791074614335719 : ℕ)

theorem coeffD_nonsquare : ¬ IsSquare coeffD := by
  apply @not_isSquare_of_powMod modulus 255
  · norm_num [modulus]
  · decide +kernel
  · decide +kernel

end Salt.Banderwagon
