import Mathlib.Data.Finset.Sort
import Mathlib.Algebra.BigOperators.Group.List.Basic

namespace Salt.Library.Runs

variable {M : Type*} [AddCommMonoid M] {l l' : List (ℕ × M)}

def runs : List (ℕ × M) → List (ℕ × M)
  | [] => []
  | (n, d) :: l =>
    match runs l with
    | [] => [(n, d)]
    | (m, s) :: r => if n = m then (n, d + s) :: r else (n, d) :: (m, s) :: r

def sumAt (l : List (ℕ × M)) (n : ℕ) : M := ((l.filter (·.1 = n)).map Prod.snd).sum

theorem sumAt_cons (n : ℕ) (d : M) (l : List (ℕ × M)) (k : ℕ) :
    sumAt ((n, d) :: l) k = (if n = k then d else 0) + sumAt l k := by
  by_cases h : n = k
  · simp [sumAt, h]
  · simp [sumAt, h]

theorem sumAt_perm (h : l.Perm l') (k : ℕ) : sumAt l k = sumAt l' k :=
  ((h.filter _).map _).sum_eq

theorem runs_eq_nil : runs l = [] ↔ l = [] := by
  cases l with
  | nil => simp [runs]
  | cons e l =>
    rw [runs]
    cases runs l with
    | nil => simp
    | cons f r =>
      simp only
      split
      · simp
      · simp

theorem runs_head (e : ℕ × M) (l : List (ℕ × M)) : ∃ s r, runs (e :: l) = (e.1, s) :: r := by
  rw [runs]
  cases runs l with
  | nil => exact ⟨_, _, rfl⟩
  | cons f r =>
    simp only
    split
    · exact ⟨_, _, rfl⟩
    · exact ⟨_, _, rfl⟩

theorem runs_append {e : ℕ × M} (h : ∀ f ∈ l'.head?, e.1 ≠ f.1) :
    runs (l ++ e :: l') = runs (l ++ [e]) ++ runs l' := by
  induction l with
  | nil =>
    cases l' with
    | nil => simp [runs]
    | cons f l' =>
      obtain ⟨s, r, hr⟩ := runs_head f l'
      have hne : e.1 ≠ f.1 := h f rfl
      rw [List.nil_append, List.nil_append, runs, hr]
      simp [runs, hne]
  | cons a l ih =>
    rw [List.cons_append, List.cons_append, runs, ih]
    cases hr : runs (l ++ [e]) with
    | nil => exact absurd (runs_eq_nil.mp hr) (by simp)
    | cons f r =>
      rw [List.cons_append, runs, hr]
      simp only
      split
      · rfl
      · rfl

theorem mem_runs_fst {n : ℕ} : n ∈ (runs l).map Prod.fst ↔ n ∈ l.map Prod.fst := by
  induction l with
  | nil => simp [runs]
  | cons e l ih =>
    obtain ⟨m, d⟩ := e
    rw [runs, List.map_cons, List.mem_cons, ← ih]
    cases runs l with
    | nil => simp
    | cons f r =>
      simp only
      split
      · rename_i heq
        simp [heq]
      · simp

theorem pairwise_runs (h : l.Pairwise fun a b ↦ a.1 ≤ b.1) :
    (runs l).Pairwise fun a b ↦ a.1 < b.1 := by
  induction l with
  | nil => simp [runs]
  | cons e l ih =>
    obtain ⟨n, d⟩ := e
    obtain ⟨hle, hl⟩ := List.pairwise_cons.mp h
    have hp := ih hl
    have hge : ∀ f ∈ runs l, n ≤ f.1 := by
      intro f hf
      obtain ⟨g, hg, hgf⟩ := List.mem_map.mp (mem_runs_fst.mp (List.mem_map_of_mem hf))
      rw [← hgf]
      exact hle g hg
    rw [runs]
    cases hr : runs l with
    | nil => simp
    | cons f r =>
      obtain ⟨m, s⟩ := f
      rw [hr] at hp hge
      obtain ⟨hm, hp'⟩ := List.pairwise_cons.mp hp
      simp only
      split
      · rename_i heq
        subst heq
        exact List.pairwise_cons.mpr ⟨hm, hp'⟩
      · rename_i hne
        have hlt : n < m := lt_of_le_of_ne (hge _ (List.mem_cons_self ..)) hne
        refine List.pairwise_cons.mpr ⟨fun g hg ↦ ?_, hp⟩
        rcases List.mem_cons.mp hg with rfl | hg
        · exact hlt
        · exact hlt.trans (hm g hg)

theorem runs_snd (h : l.Pairwise fun a b ↦ a.1 ≤ b.1) {e : ℕ × M} (he : e ∈ runs l) :
    e.2 = sumAt l e.1 := by
  induction l generalizing e with
  | nil => simp [runs] at he
  | cons x l ih =>
    obtain ⟨n, d⟩ := x
    obtain ⟨-, hl⟩ := List.pairwise_cons.mp h
    have hall := pairwise_runs h
    have habsent : ∀ k, k ∉ (runs l).map Prod.fst → sumAt l k = 0 := by
      intro k hk
      have hnil : l.filter (·.1 = k) = [] := by
        rw [List.filter_eq_nil_iff]
        intro f hf hfk
        rw [decide_eq_true_iff] at hfk
        exact hk (mem_runs_fst.mpr (hfk ▸ List.mem_map_of_mem hf))
      rw [sumAt, hnil]
      rfl
    rw [runs] at he hall
    rw [sumAt_cons]
    cases hr : runs l with
    | nil =>
      rw [hr] at he
      obtain rfl := List.mem_singleton.mp he
      rw [if_pos rfl, habsent n (by simp [hr]), add_zero]
    | cons f r =>
      obtain ⟨m, s⟩ := f
      rw [hr] at he hall
      simp only at he hall
      have hs : s = sumAt l m := ih hl (e := (m, s)) (by rw [hr]; exact List.mem_cons_self ..)
      have hrest : ∀ g ∈ r, g.2 = sumAt l g.1 := fun g hg ↦
        ih hl (by rw [hr]; exact List.mem_cons_of_mem _ hg)
      by_cases heq : n = m
      · subst heq
        rw [if_pos rfl] at he hall
        rcases List.mem_cons.mp he with rfl | hg
        · rw [if_pos rfl, hs]
        · have hlt := (List.pairwise_cons.mp hall).1 e hg
          simp only at hlt
          rw [if_neg (by omega), zero_add, hrest e hg]
      · rw [if_neg heq] at he hall
        obtain ⟨hn, -⟩ := List.pairwise_cons.mp hall
        rcases List.mem_cons.mp he with rfl | hg
        · rw [if_pos rfl, habsent n ?_, add_zero]
          rw [hr]
          intro hmem
          obtain ⟨g, hg, hgn⟩ := List.mem_map.mp hmem
          have := hn g hg
          simp only at this
          omega
        · have hlt := hn e hg
          simp only at hlt
          rw [if_neg (by omega), zero_add]
          rcases List.mem_cons.mp hg with rfl | hg
          · exact hs
          · exact hrest e hg

/-- The runs of a sorted list: its keys in ascending order with their sums. -/
theorem runs_eq (h : l.Pairwise fun a b ↦ a.1 ≤ b.1) :
    runs l = ((l.map Prod.fst).toFinset.sort (· ≤ ·)).map fun n ↦ (n, sumAt l n) := by
  have hkeys : (runs l).map Prod.fst = (l.map Prod.fst).toFinset.sort (· ≤ ·) := by
    have hlt : ((runs l).map Prod.fst).Pairwise (· < ·) := List.pairwise_map.mpr (pairwise_runs h)
    have hset : ((runs l).map Prod.fst).toFinset = (l.map Prod.fst).toFinset := by
      ext n
      rw [List.mem_toFinset, List.mem_toFinset, mem_runs_fst]
    rw [← hset, eq_comm, List.toFinset_sort _ (hlt.imp fun h ↦ ne_of_lt h)]
    exact hlt.imp fun h ↦ le_of_lt h
  rw [← hkeys, List.map_map]
  conv_lhs => rw [← List.map_id (runs l)]
  refine List.map_congr_left fun e he ↦ ?_
  exact Prod.ext rfl (runs_snd h he)

end Salt.Library.Runs
