import Mathlib.Data.List.Induction
import Mathlib.Data.List.Nodup
import Mathlib.Data.List.Sort
import Mathlib.Order.Basic
import Std.Data.ExtTreeMap.Lemmas
import Mathlib.Tactic.Common

namespace Salt.Library.Entries

open Std (ExtTreeMap)

variable {β : Type}

theorem toList_sorted (m : ExtTreeMap ℕ β) : m.toList.Pairwise fun a b ↦ a.1 < b.1 :=
  m.ordered_keys_toList.imp fun h ↦ Nat.compare_eq_lt.mp h

theorem eq_of_sorted {l l' : List (ℕ × β)} (h : l.Pairwise fun a b ↦ a.1 < b.1)
    (h' : l'.Pairwise fun a b ↦ a.1 < b.1) (hmem : ∀ e, e ∈ l ↔ e ∈ l') : l = l' := by
  have hne : ∀ {l : List (ℕ × β)}, l.Pairwise (fun a b ↦ a.1 < b.1) → l.Nodup :=
    fun h ↦ h.imp fun hlt heq ↦ by
      rw [heq] at hlt
      exact Nat.lt_irrefl _ hlt
  have hperm : l.Perm l' := (List.perm_ext_iff_of_nodup (hne h) (hne h')).mpr hmem
  exact hperm.eq_of_pairwise (fun a b _ _ hab hba ↦ absurd hab (Nat.lt_asymm hba)) h h'

theorem getElem?_ofList_iff {l : List (ℕ × β)} {k : ℕ} {v : β} :
    (ExtTreeMap.ofList l)[k]? = some v ↔ ∃ before after, l = before ++ (k, v) :: after ∧ ∀ e ∈ after, e.1 ≠ k := by
  induction l using List.reverseRecOn with
  | nil => simp
  | append_singleton l e ih =>
    have hinsert : ExtTreeMap.ofList (l ++ [e]) = (ExtTreeMap.ofList l).insert e.1 e.2 := by
      rw [ExtTreeMap.ofList_eq_foldl, ExtTreeMap.ofList_eq_foldl, List.foldl_append]
      rfl
    rw [hinsert, ExtTreeMap.getElem?_insert]
    by_cases hk : e.1 = k
    · rw [if_pos (Nat.compare_eq_eq.mpr hk)]
      constructor
      · intro hv
        obtain rfl := Option.some.inj hv
        exact ⟨l, [], by rw [← hk], fun e' he' ↦ absurd he' (List.not_mem_nil)⟩
      · rintro ⟨before, after, hl, hafter⟩
        rcases List.eq_nil_or_concat after with rfl | ⟨after', e', rfl⟩
        · obtain ⟨-, he⟩ := List.append_inj' hl rfl
          rw [List.cons.inj he |>.1]
        · rw [List.concat_eq_append] at hl hafter
          rw [← List.cons_append, ← List.append_assoc] at hl
          obtain ⟨-, he⟩ := List.append_inj' hl rfl
          rw [← (List.cons.inj he).1] at hafter
          exact absurd hk (hafter e (by simp))
    · rw [if_neg fun h ↦ hk (Nat.compare_eq_eq.mp h), ih]
      constructor
      · rintro ⟨before, after, rfl, hafter⟩
        refine ⟨before, after ++ [e], by simp, fun e' he' ↦ ?_⟩
        rcases List.mem_append.mp he' with he' | he'
        · exact hafter e' he'
        · rw [List.mem_singleton.mp he']
          exact hk
      · rintro ⟨before, after, hl, hafter⟩
        rcases List.eq_nil_or_concat after with rfl | ⟨after', e', rfl⟩
        · obtain ⟨-, he⟩ := List.append_inj' hl rfl
          exact absurd (congrArg Prod.fst (List.cons.inj he).1) hk
        · rw [List.concat_eq_append] at hl hafter
          rw [← List.cons_append, ← List.append_assoc] at hl
          obtain ⟨hl', -⟩ := List.append_inj' hl rfl
          exact ⟨before, after', hl', fun x hx ↦ hafter x (List.mem_append_left _ hx)⟩

theorem toList_ofList_of_sorted {l : List (ℕ × β)} (h : l.Pairwise fun a b ↦ a.1 < b.1) :
    (ExtTreeMap.ofList l).toList = l := by
  apply eq_of_sorted (toList_sorted _) h
  rintro ⟨k, v⟩
  rw [ExtTreeMap.mem_toList_iff_getElem?_eq_some, getElem?_ofList_iff]
  constructor
  · rintro ⟨before, after, rfl, -⟩
    simp
  · intro hmem
    obtain ⟨before, after, rfl⟩ := List.append_of_mem hmem
    refine ⟨before, after, rfl, fun e he ↦ ?_⟩
    have hlt := List.rel_of_pairwise_cons (List.pairwise_append.mp h).2.1 he
    exact Nat.ne_of_gt hlt

theorem mergeSort_eq_of_perm {l l' : List (ℕ × β)} (hperm : l.Perm l') (hkeys : (l.map Prod.fst).Nodup) :
    (l.mergeSort fun a b ↦ decide (a.1 ≤ b.1)) = l'.mergeSort fun a b ↦ decide (a.1 ≤ b.1) := by
  have hsorted : ∀ l : List (ℕ × β), (l.mergeSort fun a b ↦ decide (a.1 ≤ b.1)).Pairwise
      fun a b ↦ decide (a.1 ≤ b.1) = true :=
    List.pairwise_mergeSort (fun a b c ↦ by simpa using Nat.le_trans) fun a b ↦ by simpa using Nat.le_total a.1 b.1
  have hsort : (l.mergeSort fun a b ↦ decide (a.1 ≤ b.1)).Perm (l'.mergeSort fun a b ↦ decide (a.1 ≤ b.1)) :=
    (List.mergeSort_perm l _).trans (hperm.trans (List.mergeSort_perm l' _).symm)
  refine hsort.eq_of_pairwise (fun a b ha hb hab hba ↦ ?_) (hsorted l) (hsorted l')
  have heq : a.1 = b.1 := Nat.le_antisymm (of_decide_eq_true hab) (of_decide_eq_true hba)
  have ha' : a ∈ l := (List.mergeSort_perm l _).mem_iff.mp ha
  have hb' : b ∈ l := hperm.mem_iff.mpr ((List.mergeSort_perm l' _).mem_iff.mp hb)
  exact List.inj_on_of_nodup_map hkeys ha' hb' heq

/-- Both sorts are stable. -/
theorem mergeSort_eq_insertionSort {α : Type} (key : α → ℕ) (l : List α) :
    (l.mergeSort fun a b ↦ decide (key a ≤ key b)) = l.insertionSort fun a b ↦ key a ≤ key b := by
  have htrans : ∀ a b c : α, decide (key a ≤ key b) = true → decide (key b ≤ key c) = true →
      decide (key a ≤ key c) = true := fun a b c ↦ by simpa using Nat.le_trans
  have htotal : ∀ a b : α, (decide (key a ≤ key b) || decide (key b ≤ key a)) = true :=
    fun a b ↦ by simpa using Nat.le_total (key a) (key b)
  induction l with
  | nil => exact List.mergeSort_nil
  | cons a l ih =>
    obtain ⟨before, after, hcons, hl, hbefore⟩ := List.mergeSort_cons htrans htotal a l
    have hafter : ∀ b ∈ after, key a ≤ key b := by
      have hsorted := List.pairwise_mergeSort htrans htotal (a :: l)
      rw [hcons] at hsorted
      exact fun b hb ↦ of_decide_eq_true (List.rel_of_pairwise_cons (List.pairwise_append.mp hsorted).2.1 hb)
    have hless : ∀ b ∈ before, (!decide (key a ≤ key b)) = true := hbefore
    rw [List.insertionSort_cons, ← ih, hl, hcons, List.orderedInsert_eq_take_drop]
    simp only [decide_not]
    rw [List.takeWhile_append_of_pos hless, List.dropWhile_append_of_pos hless]
    cases after with
    | nil => simp
    | cons b after => simp [hafter b (List.mem_cons_self ..)]

section Insertions

variable {κ β ι : Type} [Ord κ] [Std.TransOrd κ] [Std.LawfulEqOrd κ] {key : ι → κ} {value : ι → β} {l : List ι}

theorem getElem?_insertAll_of_notMem {k : κ} (hk : k ∉ l.map key) (m : ExtTreeMap κ β) :
    (l.foldl (fun m e ↦ m.insert (key e) (value e)) m)[k]? = m[k]? := by
  induction l generalizing m with
  | nil => rfl
  | cons e l ih =>
    rw [List.map_cons, List.mem_cons, not_or] at hk
    have hne : key e ≠ k := Ne.symm hk.1
    rw [List.foldl_cons, ih hk.2, ExtTreeMap.getElem?_insert, if_neg (by simpa using hne)]

theorem getElem?_insertAll (value : ι → β) {e : ι} (hl : (l.map key).Nodup) (he : e ∈ l) (m : ExtTreeMap κ β) :
    (l.foldl (fun m e ↦ m.insert (key e) (value e)) m)[key e]? = some (value e) := by
  induction l generalizing m with
  | nil => simp at he
  | cons f l ih =>
    rw [List.map_cons, List.nodup_cons] at hl
    rw [List.foldl_cons]
    rcases List.mem_cons.mp he with rfl | he
    · rw [getElem?_insertAll_of_notMem hl.1, ExtTreeMap.getElem?_insert_self]
    · exact ih hl.2 he _

end Insertions

end Salt.Library.Entries
