import Mathlib.Algebra.BigOperators.Group.Finset.Basic
import Mathlib.Algebra.Order.BigOperators.Group.Finset
import Mathlib.Tactic.Common

namespace Salt.Library.ProbeRing

def probe (hashed i c : ℕ) : ℕ := (hashed % c + i) % c

/-- The probe distance of `slot` from the start of the probe sequence of `hashed`. -/
def rank (hashed slot c : ℕ) : ℕ :=
  if hashed % c ≤ slot then slot - hashed % c else slot + c - hashed % c

theorem probe_lt {c : ℕ} (hc : 0 < c) (h i : ℕ) : probe h i c < c := Nat.mod_lt _ hc

theorem probe_probe (h i j c : ℕ) : probe (probe h i c) j c = probe h (i + j) c := by
  unfold probe
  rw [Nat.mod_mod, Nat.mod_add_mod, Nat.add_assoc]

theorem rank_lt {c h s : ℕ} (hc : 0 < c) (hs : s < c) : rank h s c < c := by
  have hh := Nat.mod_lt h hc
  unfold rank
  split <;> omega

theorem probe_rank {c h s : ℕ} (hc : 0 < c) (hs : s < c) : probe h (rank h s c) c = s := by
  have hh := Nat.mod_lt h hc
  unfold rank probe
  split
  · rw [Nat.add_sub_cancel' (by assumption), Nat.mod_eq_of_lt hs]
  · have he : h % c + (s + c - h % c) = s + c := by omega
    rw [he, Nat.add_mod_right, Nat.mod_eq_of_lt hs]

theorem rank_probe {c h i : ℕ} (hi : i < c) : rank h (probe h i c) c = i := by
  have hh := Nat.mod_lt h (Nat.zero_lt_of_lt hi)
  unfold rank probe
  by_cases hw : h % c + i < c
  · rw [Nat.mod_eq_of_lt hw, if_pos (by omega)]
    omega
  · have he : (h % c + i) % c = h % c + i - c := by
      rw [Nat.mod_eq_sub_mod (by omega), Nat.mod_eq_of_lt (by omega)]
    rw [he, if_neg (by omega)]
    omega

theorem probe_zero_of_lt {c s : ℕ} (hs : s < c) : probe s 0 c = s := by
  simp [probe, Nat.mod_eq_of_lt hs]

theorem probe_add_self (h i c : ℕ) : probe h (i + c) c = probe h i c := by
  simp [probe, ← Nat.add_assoc]

theorem probe_of_rank_le {c h g s : ℕ} (hc : 0 < c) (hg : g < c) (hs : s < c)
    (h' : rank h g c ≤ rank h s c) : probe g (rank h s c - rank h g c) c = s := by
  have hp := probe_probe h (rank h g c) (rank h s c - rank h g c) c
  rwa [Nat.add_sub_cancel' h', probe_rank hc hg, probe_rank hc hs] at hp

section Detour

variable {V : Type*} {c g s : ℕ} {home : V → ℕ} {t t' : ℕ → Option V} {y : V}

def strayed (c : ℕ) (home : V → ℕ) (t : ℕ → Option V) (s : ℕ) : ℕ := (t s).elim 0 fun v ↦ rank (home v) s c

def detour (c : ℕ) (home : V → ℕ) (t : ℕ → Option V) (g : ℕ) : ℕ := ∑ s ∈ (Finset.range c).erase g, strayed c home t s

theorem detour_lt (hc : 0 < c) (home : V → ℕ) (t : ℕ → Option V) (g : ℕ) : detour c home t g < c * c := by
  have hle : ∀ s ∈ (Finset.range c).erase g, strayed c home t s ≤ c - 1 := by
    intro s hs
    have hs' := Finset.mem_range.mp (Finset.mem_of_mem_erase hs)
    unfold strayed
    cases t s with
    | none => exact Nat.zero_le _
    | some v => exact Nat.le_sub_one_of_lt (rank_lt hc hs')
  have hsum := Finset.sum_le_card_nsmul _ _ _ hle
  have hcard : ((Finset.range c).erase g).card ≤ c :=
    (Finset.card_erase_le).trans_eq (Finset.card_range c)
  calc detour c home t g ≤ ((Finset.range c).erase g).card * (c - 1) := hsum
    _ ≤ c * (c - 1) := Nat.mul_le_mul_right _ hcard
    _ < c * c := Nat.mul_lt_mul_of_pos_left (by omega) hc

theorem detour_move_lt (hg : g < c) (hs : s < c) (hne : s ≠ g) (hy : t s = some y) (hy' : t' g = some y)
    (hrest : ∀ a < c, a ≠ g → t' a = t a) (hnear : rank (home y) g c < rank (home y) s c) :
    detour c home t' s < detour c home t g := by
  have hgs : g ∈ (Finset.range c).erase s := Finset.mem_erase.mpr ⟨hne.symm, Finset.mem_range.mpr hg⟩
  have hsg : s ∈ (Finset.range c).erase g := Finset.mem_erase.mpr ⟨hne, Finset.mem_range.mpr hs⟩
  have hsame : ∑ a ∈ ((Finset.range c).erase s).erase g, strayed c home t' a =
      ∑ a ∈ ((Finset.range c).erase g).erase s, strayed c home t a := by
    rw [Finset.erase_right_comm]
    refine Finset.sum_congr rfl fun a ha ↦ ?_
    have ha' := Finset.mem_erase.mp (Finset.mem_of_mem_erase ha)
    rw [strayed, hrest a (Finset.mem_range.mp ha'.2) ha'.1, strayed]
  unfold detour
  rw [← Finset.add_sum_erase _ _ hgs, ← Finset.add_sum_erase _ _ hsg, hsame]
  refine Nat.add_lt_add_right ?_ _
  rw [strayed, strayed, hy, hy']
  exact hnear

end Detour

end Salt.Library.ProbeRing
