import Mathlib.Algebra.BigOperators.Intervals
import Mathlib.Data.Nat.Digits.Defs
import Mathlib.Tactic.Ring
import Mathlib.Tactic.Linarith

namespace Salt.Library.SignedDigits

open Finset

def digit (w k i : ℕ) : ℕ := k / 2 ^ (w * i) % 2 ^ w

/-- The carry into digit `i`: a digit above half of the base is taken as negative. -/
def carry (w k : ℕ) : ℕ → ℕ
  | 0 => 0
  | i + 1 => if 2 ^ (w - 1) < digit w k i + carry w k i then 1 else 0

def signed (w k i : ℕ) : ℤ := digit w k i + carry w k i - carry w k (i + 1) * 2 ^ w

variable {w k i : ℕ}

theorem digit_lt : digit w k i < 2 ^ w := Nat.mod_lt _ (by positivity)

theorem carry_le : carry w k i ≤ 1 := by
  cases i with
  | zero => exact Nat.zero_le _
  | succ i =>
    rw [carry]
    split <;> omega

theorem two_pow_half (hw : 1 ≤ w) : 2 ^ w = 2 * 2 ^ (w - 1) := by
  rw [← pow_succ', Nat.sub_add_cancel hw]

theorem natAbs_signed_le (hw : 1 ≤ w) : (signed w k i).natAbs ≤ 2 ^ (w - 1) := by
  have hd := @digit_lt w k i
  have hc := @carry_le w k i
  have hhalf := two_pow_half hw
  have hhalf' : (2 : ℤ) ^ w = 2 * 2 ^ (w - 1) := by exact_mod_cast hhalf
  have hcast : ((2 ^ (w - 1) : ℕ) : ℤ) = 2 ^ (w - 1) := by norm_cast
  rw [signed, carry, hhalf']
  split <;> omega

theorem natAbs_signed_of_carry (h : 2 ^ (w - 1) < digit w k i + carry w k i) :
    (signed w k i).natAbs = 2 ^ w - (digit w k i + carry w k i) ∧ signed w k i ≤ 0 := by
  have hd := @digit_lt w k i
  have hc := @carry_le w k i
  have hcast : ((2 ^ w : ℕ) : ℤ) = 2 ^ w := by norm_cast
  have hs : signed w k i = digit w k i + carry w k i - 2 ^ w := by
    rw [signed, carry, if_pos h, Nat.cast_one, one_mul]
  omega

theorem signed_of_not_carry (h : ¬ 2 ^ (w - 1) < digit w k i + carry w k i) :
    signed w k i = (digit w k i + carry w k i : ℕ) := by
  rw [signed, carry, if_neg h]
  push_cast
  ring

theorem mod_succ_window : k % 2 ^ (w * (i + 1)) = k % 2 ^ (w * i) + 2 ^ (w * i) * digit w k i := by
  rw [Nat.mul_succ, pow_add, Nat.mod_mul]
  rfl

/-- The signed digits below `i` recombine to the number, less the carry into digit `i`. -/
theorem sum_signed (w k i : ℕ) :
    ∑ j ∈ range i, signed w k j * 2 ^ (w * j) = (k % 2 ^ (w * i) : ℕ) - carry w k i * 2 ^ (w * i) := by
  induction i with
  | zero => simp [carry, Nat.mod_one]
  | succ i ih =>
    rw [sum_range_succ, ih, mod_succ_window, signed, Nat.mul_succ, pow_add]
    push_cast
    ring

/-- A top digit that is below half of the base leaves no carry. -/
theorem carry_eq_zero (h : digit w k i < 2 ^ (w - 1)) : carry w k (i + 1) = 0 := by
  have hc := @carry_le w k i
  rw [carry, if_neg (by omega)]

theorem digit_lt_of_lt {n : ℕ} (hk : k < 2 ^ (w * i + n)) : digit w k i < 2 ^ n := by
  have hdiv : k / 2 ^ (w * i) < 2 ^ n := by
    apply Nat.div_lt_of_lt_mul
    rwa [← pow_add]
  exact lt_of_le_of_lt (Nat.mod_le _ _) hdiv

theorem ofDigits_digit {n : ℕ} (hk : k < 2 ^ (w * n)) :
    Nat.ofDigits (2 ^ w) ((List.range n).map (digit w k)) = k := by
  have h : ∀ m, Nat.ofDigits (2 ^ w) ((List.range m).map (digit w k)) = k % 2 ^ (w * m) := by
    intro m
    induction m with
    | zero => simp [Nat.mod_one]
    | succ m ih =>
      rw [List.range_succ, List.map_append, Nat.ofDigits_append, ih, mod_succ_window]
      simp [pow_mul]
  rw [h n, Nat.mod_eq_of_lt hk]

end Salt.Library.SignedDigits
