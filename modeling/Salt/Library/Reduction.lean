import Mathlib.Algebra.BigOperators.Group.List.Basic

namespace Salt.Library.Reduction

variable {ε α : Type*}

/-- How a parallel reduction splits its input before it folds the pieces. -/
inductive Plan
  | sequential
  | split (index : ℕ) (left right : Plan)

def reduce (op : α → α → Except ε α) (identity : α) : Plan → List α → Except ε α
  | .sequential, l => l.foldlM op identity
  | .split i left right, l => do
    let a ← reduce op identity left (l.take i)
    let b ← reduce op identity right (l.drop i)
    op a b

variable {M : Type*} [AddCommMonoid M] {R : α → M → Prop} {op : α → α → Except ε α} {identity : α}

theorem foldlM_sum (hop : ∀ a b v w, R a v → R b w → ∃ c, op a b = .ok c ∧ R c (v + w)) {l : List α}
    {vs : List M} (h : List.Forall₂ R l vs) {a : α} {v : M} (ha : R a v) :
    ∃ c, l.foldlM op a = .ok c ∧ R c (v + vs.sum) := by
  induction h generalizing a v with
  | nil => exact ⟨a, rfl, by simpa using ha⟩
  | @cons b w l vs hb _ ih =>
    obtain ⟨c, hc, hcv⟩ := hop a b v w ha hb
    obtain ⟨d, hd, hdv⟩ := ih hcv
    refine ⟨d, ?_, ?_⟩
    · rw [List.foldlM_cons, hc]
      exact hd
    · rw [List.sum_cons, ← add_assoc]
      exact hdv

theorem reduce_sum (hid : R identity 0)
    (hop : ∀ a b v w, R a v → R b w → ∃ c, op a b = .ok c ∧ R c (v + w)) (plan : Plan) {l : List α}
    {vs : List M} (h : List.Forall₂ R l vs) : ∃ c, reduce op identity plan l = .ok c ∧ R c vs.sum := by
  induction plan generalizing l vs with
  | sequential =>
    obtain ⟨c, hc, hcv⟩ := foldlM_sum hop h hid
    exact ⟨c, hc, by simpa using hcv⟩
  | split i left right ihl ihr =>
    obtain ⟨a, ha, hav⟩ := ihl (List.forall₂_take i h)
    obtain ⟨b, hb, hbv⟩ := ihr (List.forall₂_drop i h)
    obtain ⟨c, hc, hcv⟩ := hop a b _ _ hav hbv
    refine ⟨c, ?_, ?_⟩
    · rw [reduce, ha]
      change reduce op identity right (l.drop i) >>= _ = _
      rw [hb]
      exact hc
    · rw [← List.sum_take_add_sum_drop vs i]
      exact hcv

end Salt.Library.Reduction
