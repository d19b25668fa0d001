import Mathlib.Data.BitVec
import Mathlib.Data.Nat.Digits.Defs
import Mathlib.Tactic.Ring

namespace Salt.Library.Limbs

variable {m : ℕ}

def ofLimbs : List (BitVec m) → ℕ
  | [] => 0
  | l :: ls => l.toNat + 2 ^ m * ofLimbs ls

def toLimbs (m : ℕ) : ℕ → ℕ → List (BitVec m)
  | 0, _ => []
  | n + 1, x => BitVec.ofNat m x :: toLimbs m n (x / 2 ^ m)

theorem length_toLimbs (n x : ℕ) : (toLimbs m n x).length = n := by
  induction n generalizing x with
  | zero => rfl
  | succ n ih => rw [toLimbs, List.length_cons, ih]

theorem ofLimbs_toLimbs {n x : ℕ} (hx : x < 2 ^ (m * n)) : ofLimbs (toLimbs m n x) = x := by
  induction n generalizing x with
  | zero =>
    rw [Nat.mul_zero, pow_zero] at hx
    rw [toLimbs, ofLimbs]
    omega
  | succ n ih =>
    have hdiv : x / 2 ^ m < 2 ^ (m * n) := by
      apply Nat.div_lt_of_lt_mul
      rwa [← pow_add, Nat.add_comm, ← Nat.mul_succ]
    rw [toLimbs, ofLimbs, ih hdiv, BitVec.toNat_ofNat, Nat.mod_add_div]

theorem testBit_ofLimbs (hm : 0 < m) (ls : List (BitVec m)) (i : ℕ) :
    (ofLimbs ls).testBit i = (ls.getD (i / m) 0).getLsbD (i % m) := by
  induction ls generalizing i with
  | nil => simp [ofLimbs]
  | cons l ls ih =>
    rw [ofLimbs, Nat.add_comm, Nat.testBit_two_pow_mul_add _ l.isLt]
    by_cases hi : i < m
    · rw [if_pos hi, Nat.div_eq_of_lt hi, Nat.mod_eq_of_lt hi]
      rfl
    · obtain ⟨j, rfl⟩ := Nat.exists_eq_add_of_le (Nat.not_lt.mp hi)
      rw [if_neg hi, Nat.add_sub_cancel_left, ih, Nat.add_div_left j hm, Nat.add_mod_left]
      rfl

end Salt.Library.Limbs
