import Mathlib.Algebra.BigOperators.Group.List.Basic

namespace Salt.Library.Chunks

variable {α β γ : Type*}

/-- The consecutive pieces of a list, each of the given size except for a shorter last one; the
first argument bounds their number. -/
def chunksUpTo (size : ℕ) : ℕ → List α → List (List α)
  | 0, _ => []
  | _ + 1, [] => []
  | n + 1, a :: l => (a :: l).take size :: chunksUpTo size n ((a :: l).drop size)

def chunks (size : ℕ) (l : List α) : List (List α) := chunksUpTo size l.length l

variable {size : ℕ}

theorem length_drop_le (hs : 0 < size) {a : α} {l : List α} {n : ℕ} (h : (a :: l).length ≤ n + 1) :
    ((a :: l).drop size).length ≤ n := by
  rw [List.length_drop]
  simp only [List.length_cons] at h ⊢
  omega

theorem flatten_chunksUpTo (hs : 0 < size) (n : ℕ) (l : List α) (hl : l.length ≤ n) :
    (chunksUpTo size n l).flatten = l := by
  induction n generalizing l with
  | zero =>
    have hnil : l = [] := List.length_eq_zero_iff.mp (by omega)
    simp [chunksUpTo, hnil]
  | succ n ih =>
    cases l with
    | nil => rfl
    | cons a l => rw [chunksUpTo, List.flatten_cons, ih _ (length_drop_le hs hl), List.take_append_drop]

theorem flatten_chunks (hs : 0 < size) (l : List α) : (chunks size l).flatten = l :=
  flatten_chunksUpTo hs l.length l (Nat.le_refl _)

theorem flatten_zipWith_chunksUpTo (hs : 0 < size) (f : α → β → γ) (n n' : ℕ) (l : List α) (l' : List β)
    (hl : l.length ≤ n) (hl' : l'.length ≤ n') :
    (List.zipWith (List.zipWith f) (chunksUpTo size n l) (chunksUpTo size n' l')).flatten =
      List.zipWith f l l' := by
  induction n generalizing n' l l' with
  | zero =>
    have hnil : l = [] := List.length_eq_zero_iff.mp (by omega)
    simp [chunksUpTo, hnil]
  | succ n ih =>
    cases l with
    | nil => simp [chunksUpTo]
    | cons a l =>
      cases n' with
      | zero =>
        have hnil : l' = [] := List.length_eq_zero_iff.mp (by omega)
        simp [chunksUpTo, hnil]
      | succ n' =>
        cases l' with
        | nil => simp [chunksUpTo]
        | cons b l' =>
          rw [chunksUpTo, chunksUpTo, List.zipWith_cons_cons, List.flatten_cons, ih _ _ _ (length_drop_le hs hl)
            (length_drop_le hs hl'),
            ← List.take_zipWith, ← List.drop_zipWith, List.take_append_drop]

theorem flatten_zipWith_chunks (hs : 0 < size) (f : α → β → γ) (l : List α) (l' : List β) :
    (List.zipWith (List.zipWith f) (chunks size l) (chunks size l')).flatten = List.zipWith f l l' :=
  flatten_zipWith_chunksUpTo hs f l.length l'.length l l' (Nat.le_refl _) (Nat.le_refl _)

theorem mapM_flatten {m : Type _ → Type _} [Monad m] [LawfulMonad m] (f : α → m β) (pieces : List (List α)) :
    (do let parts ← pieces.mapM fun piece ↦ piece.mapM f; pure parts.flatten) = pieces.flatten.mapM f := by
  induction pieces with
  | nil => simp
  | cons piece pieces ih =>
    rw [List.flatten_cons, List.mapM_append, ← ih]
    simp

theorem chunks_flatten (hs : 0 < size) {l : List (List α)}
    (h : ∀ piece ∈ l, piece.length = size) : chunks size l.flatten = l := by
  have key : ∀ (n : ℕ) (l : List (List α)), (∀ piece ∈ l, piece.length = size) →
      l.flatten.length ≤ n → chunksUpTo size n l.flatten = l := by
    intro n
    induction n with
    | zero =>
      intro l hl hn
      cases l with
      | nil => rfl
      | cons piece l =>
        have := hl piece (List.mem_cons_self ..)
        simp only [List.flatten_cons, List.length_append] at hn
        omega
    | succ n ih =>
      intro l hl hn
      cases l with
      | nil => rfl
      | cons piece l =>
        have hpiece := hl piece (List.mem_cons_self ..)
        rw [List.flatten_cons, List.length_append] at hn
        rw [List.flatten_cons]
        cases hp : piece with
        | nil =>
          rw [hp] at hpiece
          simp only [List.length_nil] at hpiece
          omega
        | cons a piece' =>
          rw [List.cons_append, chunksUpTo, ← List.cons_append, ← hp, ← hpiece, List.take_left,
            List.drop_left, hpiece, ih l (fun p hp ↦ hl p (List.mem_cons_of_mem _ hp)) (by omega)]
  exact key _ l h (Nat.le_refl _)

end Salt.Library.Chunks
