import Mathlib.Algebra.Field.Basic
import Mathlib.Algebra.Module.BigOperators
import Mathlib.Tactic.Module
import Mathlib.Tactic.Ring

namespace Salt.Library.InnerProduct

variable {F E : Type*} [Field F] [AddCommGroup E] [Module F E]

def combine (a : List F) (g : List E) : E := (List.zipWith (· • ·) a g).sum

def fold (x : F) (l r : List E) : List E := List.zipWith (fun u v ↦ u + x • v) l r

variable {a a' : List F} {g g' : List E} {x y : F}

@[simp]
theorem combine_nil_left (g : List E) : combine ([] : List F) g = 0 := rfl

@[simp]
theorem combine_nil_right (a : List F) : combine a ([] : List E) = 0 := by simp [combine]

@[simp]
theorem combine_cons (c : F) (a : List F) (u : E) (g : List E) :
    combine (c :: a) (u :: g) = c • u + combine a g := rfl

theorem combine_append (h : a.length = g.length) (a' : List F) (g' : List E) :
    combine (a ++ a') (g ++ g') = combine a g + combine a' g' := by
  rw [combine, List.zipWith_append h, List.sum_append]
  rfl

theorem combine_map_mul (c : F) (a : List F) (g : List E) :
    combine (a.map (c * ·)) g = c • combine a g := by
  induction a generalizing g with
  | nil => simp
  | cons d a ih =>
    cases g with
    | nil => simp
    | cons u g => simp [ih, smul_add, mul_smul]

theorem combine_comm (a b : List F) : combine a b = combine b a := by
  induction a generalizing b with
  | nil => simp
  | cons c a ih =>
    cases b with
    | nil => simp
    | cons d b => simp [ih b, mul_comm]

theorem length_fold {l r : List E} (h : l.length = r.length) : (fold x l r).length = l.length := by
  simp [fold, h]

theorem combine_fold_left {l r : List F} (h : l.length = r.length) (g : List E) :
    combine (fold x l r) g = combine l g + x • combine r g := by
  induction l generalizing r g with
  | nil =>
    cases r with
    | nil => simp [fold]
    | cons d r => simp at h
  | cons c l ih =>
    cases r with
    | nil => simp at h
    | cons d r =>
      cases g with
      | nil => simp
      | cons u g =>
        have hlen : l.length = r.length := by simpa using h
        have hrest : combine (fold x l r) g = combine l g + x • combine r g := ih hlen g
        simp only [fold, List.zipWith_cons_cons, combine_cons] at hrest ⊢
        rw [hrest, smul_eq_mul]
        module

theorem combine_fold_right (a : List F) {l r : List E} (h : l.length = r.length) :
    combine a (fold x l r) = combine a l + x • combine a r := by
  induction l generalizing r a with
  | nil =>
    cases r with
    | nil => simp [fold]
    | cons v r => simp at h
  | cons u l ih =>
    cases r with
    | nil => simp at h
    | cons v r =>
      cases a with
      | nil => simp
      | cons c a =>
        have hlen : l.length = r.length := by simpa using h
        have hrest : combine a (fold x l r) = combine a l + x • combine a r := ih a hlen
        simp only [fold, List.zipWith_cons_cons, combine_cons] at hrest ⊢
        rw [hrest]
        module

/-- Folding both vectors with inverse factors changes the combination by the two cross terms. -/
theorem combine_fold (hx : x ≠ 0) {l r : List F} {gl gr : List E} (h : l.length = r.length)
    (hg : gl.length = gr.length) (hlen : l.length = gl.length) :
    combine (fold x l r) (fold x⁻¹ gl gr) =
      combine (l ++ r) (gl ++ gr) + x • combine r gl + x⁻¹ • combine l gr := by
  rw [combine_fold_left h, combine_fold_right l hg, combine_fold_right r hg, combine_append hlen,
    smul_add, smul_smul, mul_inv_cancel₀ hx]
  module

/-- The coefficients of a vector in its repeated folding with the given factors, the first factor
belonging to the outermost halving. -/
def coeffs : List F → List F
  | [] => [1]
  | x :: xs => coeffs xs ++ (coeffs xs).map (x * ·)

theorem length_coeffs (xs : List F) : (coeffs xs).length = 2 ^ xs.length := by
  induction xs with
  | nil => rfl
  | cons x xs ih => rw [coeffs, List.length_append, List.length_map, ih, List.length_cons, pow_succ, mul_two]

theorem combine_coeffs_cons (xs : List F) {gl gr : List E} (hl : gl.length = 2 ^ xs.length)
    (hr : gr.length = 2 ^ xs.length) :
    combine (coeffs (x :: xs)) (gl ++ gr) = combine (coeffs xs) (fold x gl gr) := by
  rw [coeffs, combine_append (by rw [length_coeffs, hl]), combine_map_mul,
    combine_fold_right _ (hl.trans hr.symm)]

end Salt.Library.InnerProduct
