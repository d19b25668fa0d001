import Mathlib.Data.List.Basic
import Mathlib.Logic.Function.Basic
import Mathlib.Tactic.Ring

namespace Salt.Library.VectorOpening

section Opening

variable {C F : Type} (vec : C → ℕ → F) (hash : C → F)

/-- A chain of openings: each vector holds the hash of the next commitment at the given position. -/
def Opening : C → List ℕ → C → Prop
  | c, [], c' => c = c'
  | c, d :: ds, c' => ∃ c₁, vec c d = hash c₁ ∧ Opening c₁ ds c'

variable {vec hash} {c c' c'' : C} {ds : List ℕ}

theorem opening_append {ds' : List ℕ} :
    Opening vec hash c (ds ++ ds') c'' ↔
      ∃ c', Opening vec hash c ds c' ∧ Opening vec hash c' ds' c'' := by
  induction ds generalizing c with
  | nil => simp [Opening]
  | cons d ds ih =>
    simp only [List.cons_append, Opening, ih]
    constructor
    · intro ⟨c₁, h₁, c', h, h'⟩
      exact ⟨c', ⟨c₁, h₁, h⟩, h'⟩
    · intro ⟨c', ⟨c₁, h₁, h⟩, h'⟩
      exact ⟨c₁, h₁, c', h, h'⟩

theorem Opening.snoc {d : ℕ} (h : Opening vec hash c ds c') (hd : vec c' d = hash c'') :
    Opening vec hash c (ds ++ [d]) c'' :=
  opening_append.mpr ⟨c', h, c'', hd, rfl⟩

theorem Opening.unique (hinj : Function.Injective hash) (h : Opening vec hash c ds c')
    (h' : Opening vec hash c ds c'') : c' = c'' := by
  induction ds generalizing c with
  | nil => exact h.symm.trans h'
  | cons d ds ih =>
    obtain ⟨c₁, h₁, h⟩ := h
    obtain ⟨c₂, h₂, h'⟩ := h'
    obtain rfl : c₁ = c₂ := hinj (h₁.symm.trans h₂)
    exact ih h h'

end Opening

def digits : ℕ → ℕ → List ℕ
  | 0, _ => []
  | n + 1, x => digits n (x / 256) ++ [x % 256]

theorem digits_succ (n x : ℕ) : digits (n + 1) x = (x / 256 ^ n % 256) :: digits n x := by
  induction n generalizing x with
  | zero => simp [digits]
  | succ n ih =>
    have hdiv : x / 256 / 256 ^ n = x / 256 ^ (n + 1) := by
      rw [Nat.div_div_eq_div_mul, pow_succ']
    rw [digits, ih, hdiv]
    rfl

end Salt.Library.VectorOpening
