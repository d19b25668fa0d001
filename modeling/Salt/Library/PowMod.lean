import Mathlib.NumberTheory.LegendreSymbol.Basic
import Mathlib.NumberTheory.LucasPrimality

namespace Salt.Library.PowMod

def powMod (m : ℕ) : ℕ → ℕ → ℕ → ℕ → ℕ
  | 0, _, _, r => r
  | bits + 1, a, k, r => powMod m bits (a * a % m) (k / 2) (if k % 2 = 1 then r * a % m else r)

theorem cast_powMod {m bits a k r : ℕ} (hk : k < 2 ^ bits) :
    ((powMod m bits a k r : ℕ) : ZMod m) = r * a ^ k := by
  induction bits generalizing a k r with
  | zero =>
    obtain rfl : k = 0 := by simpa using hk
    simp [powMod]
  | succ bits ih =>
    have hsquare : ((a * a % m : ℕ) : ZMod m) ^ (k / 2) = a ^ (2 * (k / 2)) := by
      rw [ZMod.natCast_mod, Nat.cast_mul, ← sq, ← pow_mul]
    rw [powMod, ih (by rw [pow_succ] at hk; omega), hsquare]
    split
    · rw [ZMod.natCast_mod, Nat.cast_mul, mul_assoc, ← pow_succ', show 2 * (k / 2) + 1 = k by omega]
    · rw [show 2 * (k / 2) = k by omega]

theorem pow_eq_one_iff {m bits a k : ℕ} (hk : k < 2 ^ bits) :
    (a : ZMod m) ^ k = 1 ↔ powMod m bits a k 1 % m = 1 % m := by
  have h := cast_powMod (m := m) (a := a) (r := 1) hk
  have hone : (1 : ZMod m) = (1 : ℕ) := Nat.cast_one.symm
  rw [Nat.cast_one, one_mul] at h
  rw [← h, hone, ZMod.natCast_eq_natCast_iff']

/-- Lucas's test; the factors may repeat. -/
theorem prime_of_factors {m bits a : ℕ} {factors : List ℕ} (hm : m - 1 < 2 ^ bits)
    (hfactors : m - 1 = factors.prod) (hprime : ∀ f ∈ factors, f.Prime)
    (hone : powMod m bits a (m - 1) 1 % m = 1 % m)
    (hne : ∀ f ∈ factors, powMod m bits a ((m - 1) / f) 1 % m ≠ 1 % m) : m.Prime := by
  apply lucas_primality m a ((pow_eq_one_iff hm).mpr hone)
  intro r hr hdvd
  rw [hfactors] at hdvd
  obtain ⟨f, hf, hrf⟩ := (Nat.Prime.prime hr).dvd_prod_iff.mp hdvd
  obtain rfl := (Nat.prime_dvd_prime_iff_eq hr (hprime f hf)).mp hrf
  rw [Ne, pow_eq_one_iff (lt_of_le_of_lt (Nat.div_le_self _ _) hm)]
  exact hne r hf

/-- Euler's criterion. -/
theorem not_isSquare_of_powMod {m bits a : ℕ} [Fact m.Prime] (hm : m / 2 < 2 ^ bits) (ha : a % m ≠ 0)
    (hne : powMod m bits a (m / 2) 1 % m ≠ 1 % m) : ¬ IsSquare (a : ZMod m) := by
  have hzero : (a : ZMod m) ≠ 0 := by
    rw [Ne, ZMod.natCast_eq_zero_iff, Nat.dvd_iff_mod_eq_zero]
    exact ha
  intro hsquare
  exact hne ((pow_eq_one_iff hm).mp ((ZMod.euler_criterion m hzero).mp hsquare))

end Salt.Library.PowMod
