import Salt.Library.Runs
import Mathlib.Algebra.Module.BigOperators
import Mathlib.Data.Finset.Dedup
import Std.Data.ExtTreeMap.Lemmas

namespace Salt.Library.ChangeList

open Std (ExtTreeMap)
open Library.Runs

section Lists

variable {κ V : Type*}

/-- Changes on a domain: one for each listed key, with its value before and after, and among them every
key whose two values differ. -/
structure Lists (D : κ → Prop) (before after : κ → V) (l : List (κ × V × V)) : Prop where
  nodup : (l.map Prod.fst).Nodup
  mem : ∀ e ∈ l, D e.1 ∧ e.2 = (before e.1, after e.1)
  cover : ∀ k, D k → before k ≠ after k → k ∈ l.map Prod.fst

variable {D D' : κ → Prop} {before after before' after' later : κ → V} {l l' : List (κ × V × V)} {k : κ}

theorem Lists.nil (h : ∀ k, D k → before k = after k) : Lists D before after [] where
  nodup := List.nodup_nil
  mem _ he := by simp at he
  cover k hk hne := absurd (h k hk) hne

theorem Lists.domain (h : Lists D before after l) (hk : k ∈ l.map Prod.fst) : D k := by
  obtain ⟨e, he, rfl⟩ := List.mem_map.mp hk
  exact (h.mem e he).1

theorem Lists.entry (h : Lists D before after l) (hk : k ∈ l.map Prod.fst) : (k, before k, after k) ∈ l := by
  obtain ⟨e, he, rfl⟩ := List.mem_map.mp hk
  rw [← (h.mem e he).2]
  exact he

theorem Lists.append (h : Lists D before after l) (h' : Lists D' before after l') (hd : ∀ k, D k → ¬ D' k) :
    Lists (fun k ↦ D k ∨ D' k) before after (l ++ l') where
  nodup := by
    rw [List.map_append, List.nodup_append']
    exact ⟨h.nodup, h'.nodup, fun k hk hk' ↦ hd k (h.domain hk) (h'.domain hk')⟩
  mem e he := by
    rcases List.mem_append.mp he with he | he
    · exact ⟨.inl (h.mem e he).1, (h.mem e he).2⟩
    · exact ⟨.inr (h'.mem e he).1, (h'.mem e he).2⟩
  cover k hk hne := by
    rw [List.map_append, List.mem_append]
    exact hk.imp (fun hk ↦ h.cover k hk hne) fun hk ↦ h'.cover k hk hne

theorem Lists.congr (h : Lists D before after l) (hD : ∀ k, D k ↔ D' k) (hb : ∀ k, D k → before k = before' k)
    (ha : ∀ k, D k → after k = after' k) : Lists D' before' after' l where
  nodup := h.nodup
  mem e he := by
    obtain ⟨hk, hv⟩ := h.mem e he
    rw [← hb _ hk, ← ha _ hk]
    exact ⟨(hD _).mp hk, hv⟩
  cover k hk hne := by
    have hk := (hD k).mpr hk
    rw [← hb k hk, ← ha k hk] at hne
    exact h.cover k hk hne

theorem Lists.flatten {ι : Type*} {D : ι → κ → Prop} {is : List ι} {ls : List (List (κ × V × V))}
    (h : List.Forall₂ (fun i l ↦ Lists (D i) before after l) is ls)
    (hd : is.Pairwise fun i j ↦ ∀ k, D i k → ¬ D j k) : Lists (fun k ↦ ∃ i ∈ is, D i k) before after ls.flatten := by
  induction h with
  | nil => exact .nil fun k ⟨i, hi, _⟩ ↦ by simp at hi
  | cons hl _ ih =>
    obtain ⟨hhead, htail⟩ := List.pairwise_cons.mp hd
    refine (hl.append (ih htail) fun k hk ⟨j, hj, hjk⟩ ↦ hhead j hj k hk hjk).congr (fun k ↦ ?_) (fun _ _ ↦ rfl)
      fun _ _ ↦ rfl
    simp only [List.mem_cons, or_and_right, exists_or, exists_eq_left]

theorem Lists.extend (h : Lists D before after l) (hD : ∀ k, D k → D' k)
    (hs : ∀ k, D' k → ¬ D k → before k = after k) : Lists D' before after l where
  nodup := h.nodup
  mem e he := ⟨hD _ (h.mem e he).1, (h.mem e he).2⟩
  cover k hk hne := h.cover k (by by_contra hn; exact hne (hs k hk hn)) hne

theorem Lists.restrict (h : Lists D before after l) (hD : ∀ k, D' k → D k) (hl : ∀ k ∈ l.map Prod.fst, D' k) :
    Lists D' before after l where
  nodup := h.nodup
  mem e he := ⟨hl _ (List.mem_map_of_mem he), (h.mem e he).2⟩
  cover k hk hne := h.cover k (hD k hk) hne

theorem Lists.single (hk : D k) (hD : ∀ k', D k' → k' = k) : Lists D before after [(k, before k, after k)] where
  nodup := List.nodup_singleton _
  mem e he := by
    obtain rfl := List.mem_singleton.mp he
    exact ⟨hk, rfl⟩
  cover k' hk' _ := by
    rw [hD k' hk']
    exact List.mem_singleton_self _

theorem Lists.perm (h : Lists D before after l) (hl : l.Perm l') : Lists D before after l' where
  nodup := (hl.map Prod.fst).nodup_iff.mp h.nodup
  mem e he := h.mem e (hl.mem_iff.mpr he)
  cover k hk hne := (hl.map Prod.fst).mem_iff.mp (h.cover k hk hne)

theorem Lists.filter (h : Lists D before after l) (p : κ → Prop) [DecidablePred p] :
    Lists (fun k ↦ D k ∧ p k) before after (l.filter fun e ↦ p e.1) where
  nodup := h.nodup.sublist (List.filter_sublist.map Prod.fst)
  mem e he := by
    obtain ⟨he, hp⟩ := List.mem_filter.mp he
    exact ⟨⟨(h.mem e he).1, by simpa using hp⟩, (h.mem e he).2⟩
  cover k hk hne := by
    obtain ⟨e, he, rfl⟩ := List.mem_map.mp (h.cover k hk.1 hne)
    exact List.mem_map_of_mem (List.mem_filter.mpr ⟨he, by simpa using hk.2⟩)

theorem Lists.kept (h : Lists D before after l) (hk : D k) (hn : k ∉ l.map Prod.fst) : before k = after k := by
  by_contra hne
  exact hn (h.cover k hk hne)

def differences [DecidableEq V] (before after : κ → V) (keys : List κ) : List (κ × V × V) :=
  keys.filterMap fun k ↦ if after k ≠ before k then some (k, before k, after k) else none

theorem mem_differences [DecidableEq V] {keys : List κ} {e : κ × V × V} :
    e ∈ differences before after keys ↔ e.1 ∈ keys ∧ before e.1 ≠ after e.1 ∧ e.2 = (before e.1, after e.1) := by
  obtain ⟨k, v⟩ := e
  simp only [differences, List.mem_filterMap, Option.ite_none_right_eq_some, Option.some.injEq, Prod.mk.injEq]
  constructor
  · rintro ⟨k', hk, hne, rfl, hv⟩
    exact ⟨hk, Ne.symm hne, hv.symm⟩
  · rintro ⟨hk, hne, hv⟩
    exact ⟨k, hk, Ne.symm hne, rfl, hv.symm⟩

theorem map_fst_differences [DecidableEq V] (keys : List κ) :
    (differences before after keys).map Prod.fst = keys.filter fun k ↦ after k ≠ before k := by
  induction keys with
  | nil => rfl
  | cons k keys ih =>
    rw [differences, List.filterMap_cons, List.filter_cons]
    by_cases hk : after k = before k
    · simpa [hk, differences] using ih
    · simpa [hk, differences] using ih

theorem lists_differences [DecidableEq V] {keys : List κ} (hkeys : keys.Nodup) :
    Lists (· ∈ keys) before after (differences before after keys) where
  nodup := by
    rw [map_fst_differences]
    exact hkeys.filter _
  mem e he := by
    obtain ⟨hk, -, hv⟩ := mem_differences.mp he
    exact ⟨hk, hv⟩
  cover k hk hne := List.mem_map.mpr ⟨(k, before k, after k), mem_differences.mpr ⟨hk, hne, rfl⟩, rfl⟩

end Lists

section Pending

variable {κ V : Type} [Ord κ] [Std.TransOrd κ] {D : κ → Prop} {before now after : κ → V}
  {l : List (κ × V × V)} {m : ExtTreeMap κ (V × V)} {k : κ}

/-- A change joins the pending ones, of which the first old value stays. -/
def record (m : ExtTreeMap κ (V × V)) (e : κ × V × V) : ExtTreeMap κ (V × V) :=
  m.insert e.1 (((m[e.1]?).elim e.2.1 Prod.fst), e.2.2)

/-- The map holds the pending changes of a domain: of each key whose values differ, and maybe of others. -/
structure Pending (D : κ → Prop) (before after : κ → V) (m : ExtTreeMap κ (V × V)) : Prop where
  entry : ∀ k p, m[k]? = some p → D k ∧ p = (before k, after k)
  cover : ∀ k, D k → m[k]? = none → before k = after k

theorem Pending.empty (D : κ → Prop) (v : κ → V) : Pending D v v ∅ where
  entry k p hp := by simp at hp
  cover _ _ _ := rfl

theorem getElem?_record_self (e : κ × V × V) :
    (record m e)[e.1]? = some (((m[e.1]?).elim e.2.1 Prod.fst), e.2.2) := ExtTreeMap.getElem?_insert_self

variable [Std.LawfulEqOrd κ]

theorem Pending.lists (h : Pending D before after m) : Lists D before after m.toList where
  nodup := List.pairwise_map.mpr (m.distinct_keys_toList.imp fun hab he ↦ hab
    (by rw [he]; exact Std.ReflCmp.compare_self))
  mem e he := h.entry e.1 e.2 (ExtTreeMap.mem_toList_iff_getElem?_eq_some.mp he)
  cover k hk hne := by
    obtain ⟨p, hp⟩ := Option.ne_none_iff_exists'.mp (mt (h.cover k hk) hne)
    exact List.mem_map_of_mem (ExtTreeMap.mem_toList_iff_getElem?_eq_some.mpr hp)

theorem getElem?_record_of_ne {e : κ × V × V} (h : e.1 ≠ k) : (record m e)[k]? = m[k]? := by
  rw [record, ExtTreeMap.getElem?_insert, if_neg (mt Std.LawfulEqCmp.eq_of_compare h)]

theorem getElem?_recordAll_of_notMem (hk : k ∉ l.map Prod.fst) : (l.foldl record m)[k]? = m[k]? := by
  induction l generalizing m with
  | nil => rfl
  | cons e l ih =>
    rw [List.map_cons, List.mem_cons, not_or] at hk
    rw [List.foldl_cons, ih hk.2, getElem?_record_of_ne (Ne.symm hk.1)]

theorem getElem?_recordAll {e : κ × V × V} (hl : (l.map Prod.fst).Nodup) (he : e ∈ l) :
    (l.foldl record m)[e.1]? = some (((m[e.1]?).elim e.2.1 Prod.fst), e.2.2) := by
  induction l generalizing m with
  | nil => simp at he
  | cons f l ih =>
    rw [List.map_cons, List.nodup_cons] at hl
    rw [List.foldl_cons]
    rcases List.mem_cons.mp he with rfl | he
    · rw [getElem?_recordAll_of_notMem hl.1, getElem?_record_self]
    · have hne : f.1 ≠ e.1 := fun hfe ↦ hl.1 (hfe ▸ List.mem_map_of_mem he)
      rw [ih hl.2 he, getElem?_record_of_ne hne]

theorem mem_recordAll : k ∈ l.foldl record m ↔ k ∈ m ∨ k ∈ l.map Prod.fst := by
  induction l generalizing m with
  | nil => simp
  | cons e l ih =>
    rw [List.foldl_cons, ih, record, ExtTreeMap.mem_insert, Std.LawfulEqCmp.compare_eq_iff_eq, List.map_cons,
      List.mem_cons, eq_comm, or_comm (a := k = e.1), or_assoc]

theorem Pending.recordAll (h : Pending D before now m) (hl : Lists D now after l) :
    Pending D before after (l.foldl record m) := by
  have hold : ∀ k, D k → (m[k]?).elim (now k) Prod.fst = before k := by
    intro k hk
    cases hm : m[k]? with
    | none => exact (h.cover k hk hm).symm
    | some p => rw [Option.elim_some, (h.entry k p hm).2]
  constructor
  · intro k p hp
    by_cases hk : k ∈ l.map Prod.fst
    · rw [getElem?_recordAll hl.nodup (hl.entry hk), Option.some.injEq] at hp
      rw [← hp]
      exact ⟨hl.domain hk, Prod.ext (hold k (hl.domain hk)) rfl⟩
    · rw [getElem?_recordAll_of_notMem hk] at hp
      obtain ⟨hD, rfl⟩ := h.entry k p hp
      exact ⟨hD, Prod.ext rfl (hl.kept hD hk)⟩
  · intro k hD hnone
    by_cases hk : k ∈ l.map Prod.fst
    · rw [getElem?_recordAll hl.nodup (hl.entry hk)] at hnone
      cases hnone
    · rw [getElem?_recordAll_of_notMem hk] at hnone
      exact (h.cover k hD hnone).trans (hl.kept hD hk)

end Pending

section Boundary

variable {α : Type*} {p : α → Bool} {l : List α}

theorem takeWhile_eq_filter (h : l.Pairwise fun a b ↦ p b = true → p a = true) : l.takeWhile p = l.filter p := by
  induction l with
  | nil => rfl
  | cons a l ih =>
    obtain ⟨ha, hl⟩ := List.pairwise_cons.mp h
    by_cases hp : p a = true
    · rw [List.takeWhile_cons_of_pos hp, List.filter_cons_of_pos hp, ih hl]
    · rw [List.takeWhile_cons_of_neg hp, List.filter_cons_of_neg hp, eq_comm, List.filter_eq_nil_iff]
      exact fun b hb hpb ↦ hp (ha b hb hpb)

theorem dropWhile_eq_filter (h : l.Pairwise fun a b ↦ p b = true → p a = true) :
    l.dropWhile p = l.filter fun a ↦ ¬ p a = true := by
  induction l with
  | nil => rfl
  | cons a l ih =>
    obtain ⟨ha, hl⟩ := List.pairwise_cons.mp h
    by_cases hp : p a = true
    · rw [List.dropWhile_cons_of_pos hp, List.filter_cons_of_neg (by simpa using hp), ih hl]
    · rw [List.dropWhile_cons_of_neg hp, eq_comm, List.filter_eq_self]
      intro b hb
      rcases List.mem_cons.mp hb with rfl | hb
      · simpa using hp
      · simpa using fun hpb ↦ hp (ha b hb hpb)

end Boundary

section Deltas

variable {κ V F C : Type*} [Ring F] [AddCommGroup C] [Module F C]

def vec (w : ℕ) (gen : ℕ → C) (f : ℕ → F) : C := ∑ i ∈ Finset.range w, f i • gen i

/-- Each parent of the domain has `w` children, told apart by their position. -/
structure Children (Dp : ℕ → Prop) (D : κ → Prop) (w : ℕ) (parent : κ → ℕ) (pos : κ → ℕ) (child : ℕ → ℕ → κ) :
    Prop where
  parent_mem : ∀ k, D k → Dp (parent k)
  pos_lt : ∀ k, D k → pos k < w
  child_parent : ∀ k, D k → child (parent k) (pos k) = k
  child_mem : ∀ p, Dp p → ∀ i < w, D (child p i)
  parent_child : ∀ p, Dp p → ∀ i < w, parent (child p i) = p
  pos_child : ∀ p, Dp p → ∀ i < w, pos (child p i) = i

def deltas (gen : ℕ → C) (scalar : V → F) (parent : κ → ℕ) (pos : κ → ℕ) (l : List (κ × V × V)) : List (ℕ × C) :=
  l.map fun e ↦ (parent e.1, (scalar e.2.2 - scalar e.2.1) • gen (pos e.1))

def parentChanges (com : ℕ → C) (ds : List (ℕ × C)) : List (ℕ × C × C) :=
  ((ds.map Prod.fst).toFinset.sort (· ≤ ·)).map fun n ↦ (n, com n, com n + sumAt ds n)

variable {Dp : ℕ → Prop} {D : κ → Prop} {w : ℕ} {parent : κ → ℕ} {pos : κ → ℕ} {child : ℕ → ℕ → κ} {gen : ℕ → C}
  {scalar : V → F} {before after : κ → V} {l : List (κ × V × V)} {com : ℕ → C} {p : ℕ}

theorem sumAt_deltas (l : List (κ × V × V)) (p : ℕ) : sumAt (deltas gen scalar parent pos l) p =
    ((l.filter fun e ↦ parent e.1 = p).map fun e ↦ (scalar e.2.2 - scalar e.2.1) • gen (pos e.1)).sum := by
  induction l with
  | nil => rfl
  | cons e l ih =>
    rw [deltas, List.map_cons, sumAt_cons, ← deltas, ih, List.filter_cons]
    by_cases hp : parent e.1 = p
    · simp [hp]
    · simp [hp]

theorem Lists.sumAt_eq (h : Lists D before after l) (hc : Children Dp D w parent pos child) (hp : Dp p) :
    sumAt (deltas gen scalar parent pos l) p =
      vec w gen (fun i ↦ scalar (after (child p i))) - vec w gen (fun i ↦ scalar (before (child p i))) := by
  classical
  set m := l.filter fun e ↦ parent e.1 = p with hm
  have hmem : ∀ e ∈ m, e ∈ l ∧ parent e.1 = p := fun e he ↦ by simpa [hm] using he
  -- the listed children of the node are at pairwise different positions
  have hpos : (m.map fun e ↦ pos e.1).Nodup := by
    refine List.Nodup.map_on (fun e he f hf hef ↦ ?_) (h.nodup.of_map _ |>.filter _)
    obtain ⟨he, hpe⟩ := hmem e he
    obtain ⟨hf, hpf⟩ := hmem f hf
    have hkey : e.1 = f.1 := by
      rw [← hc.child_parent _ (h.mem e he).1, ← hc.child_parent _ (h.mem f hf).1, hpe, hpf, hef]
    exact Prod.ext hkey (by rw [(h.mem e he).2, (h.mem f hf).2, hkey])
  rw [sumAt_deltas, ← hm]
  have hterm : (m.map fun e ↦ (scalar e.2.2 - scalar e.2.1) • gen (pos e.1)) =
      (m.map fun e ↦ pos e.1).map fun i ↦
        (scalar (after (child p i)) - scalar (before (child p i))) • gen i := by
    rw [List.map_map]
    refine List.map_congr_left fun e he ↦ ?_
    obtain ⟨he, hpe⟩ := hmem e he
    have hchild : child p (pos e.1) = e.1 := by rw [← hpe, hc.child_parent _ (h.mem e he).1]
    rw [Function.comp_apply, hchild, (h.mem e he).2]
  rw [hterm, ← List.sum_toFinset _ hpos, vec, vec, ← Finset.sum_sub_distrib]
  simp only [← sub_smul]
  refine Finset.sum_subset (fun i hi ↦ ?_) fun i hi hnot ↦ ?_
  · obtain ⟨e, he, rfl⟩ := List.mem_map.mp (List.mem_toFinset.mp hi)
    exact Finset.mem_range.mpr (hc.pos_lt _ (h.mem e (hmem e he).1).1)
  · have hi := Finset.mem_range.mp hi
    have hsame : before (child p i) = after (child p i) := by
      refine h.kept (hc.child_mem p hp i hi) fun hk ↦ hnot ?_
      obtain ⟨e, he, hek⟩ := List.mem_map.mp hk
      refine List.mem_toFinset.mpr (List.mem_map.mpr ⟨e, ?_, by rw [hek, hc.pos_child p hp i hi]⟩)
      simpa [hm, hek] using ⟨he, hc.parent_child p hp i hi⟩
    rw [hsame, sub_self, zero_smul]

theorem map_fst_deltas (l : List (κ × V × V)) :
    (deltas gen scalar parent pos l).map Prod.fst = (l.map Prod.fst).map parent := by
  simp [deltas]

theorem mem_parentChanges {ds : List (ℕ × C)} {n : ℕ} :
    n ∈ (parentChanges com ds).map Prod.fst ↔ n ∈ ds.map Prod.fst := by
  rw [parentChanges, List.map_map]
  simp

theorem mem_parents {n : ℕ} : n ∈ (parentChanges com (deltas gen scalar parent pos l)).map Prod.fst ↔
    ∃ k ∈ l.map Prod.fst, parent k = n := by
  rw [mem_parentChanges, map_fst_deltas, List.mem_map]

/-- Children's changes give the changes of the parents, when each listed parent is known with the
commitment to its children before. -/
theorem Lists.parents (gen : ℕ → C) (scalar : V → F) (com : ℕ → C) (h : Lists D before after l)
    (hc : Children Dp D w parent pos child)
    (hcom : ∀ k ∈ l.map Prod.fst, com (parent k) = vec w gen fun i ↦ scalar (before (child (parent k) i))) :
    Lists Dp (fun p ↦ vec w gen fun i ↦ scalar (before (child p i)))
      (fun p ↦ vec w gen fun i ↦ scalar (after (child p i)))
      (parentChanges com (deltas gen scalar parent pos l)) where
  nodup := by
    rw [parentChanges, List.map_map]
    exact (List.map_id _).symm ▸ Finset.sort_nodup ..
  mem e he := by
    have hn := mem_parents.mp (List.mem_map_of_mem he)
    obtain ⟨k, hk, hkn⟩ := hn
    have hp : Dp e.1 := hkn ▸ hc.parent_mem k (h.domain hk)
    refine ⟨hp, ?_⟩
    obtain ⟨n, -, rfl⟩ := List.mem_map.mp he
    have hold := hcom k hk
    rw [hkn] at hold
    simp only [h.sumAt_eq hc hp, hold, add_sub_cancel]
  cover p hp hne := by
    have hex : ∃ i < w, before (child p i) ≠ after (child p i) := by
      by_contra hall
      push Not at hall
      refine hne (Finset.sum_congr rfl fun i hi ↦ ?_)
      simp only [hall i (Finset.mem_range.mp hi)]
    obtain ⟨i, hi, hdiff⟩ := hex
    exact mem_parents.mpr ⟨child p i, h.cover _ (hc.child_mem p hp i hi) hdiff, hc.parent_child p hp i hi⟩

end Deltas

section Trees

variable {F C : Type*} [Ring F] [AddCommGroup C] [Module F C] {w : ℕ} {gen : ℕ → C} {hash : C → F}
  {base base' : ℕ → C}

/-- The nodes of the given height over a row of nodes, each committing to its `w` children. -/
def tree (w : ℕ) (gen : ℕ → C) (hash : C → F) (base : ℕ → C) : ℕ → ℕ → C
  | 0, x => base x
  | height + 1, x => vec w gen fun i ↦ hash (tree w gen hash base height (w * x + i))

theorem vec_congr {f g : ℕ → F} (h : ∀ i < w, f i = g i) : vec w gen f = vec w gen g :=
  Finset.sum_congr rfl fun i hi ↦ by rw [h i (Finset.mem_range.mp hi)]

theorem tree_congr (height : ℕ) {x : ℕ}
    (h : ∀ y, w ^ height * x ≤ y → y < w ^ height * (x + 1) → base y = base' y) :
    tree w gen hash base height x = tree w gen hash base' height x := by
  induction height generalizing x with
  | zero =>
    apply h
    · simp
    · simp
  | succ height ih =>
    refine vec_congr fun i hi ↦ congrArg hash (ih fun y hle hlt ↦ h y ?_ ?_)
    · calc w ^ (height + 1) * x = w ^ height * (w * x) := by ring
        _ ≤ w ^ height * (w * x + i) := Nat.mul_le_mul_left _ (Nat.le_add_right _ _)
        _ ≤ y := hle
    · calc y < w ^ height * (w * x + i + 1) := hlt
        _ ≤ w ^ height * (w * x + w) := Nat.mul_le_mul_left _ (by omega)
        _ = w ^ (height + 1) * (x + 1) := by ring

end Trees

end Salt.Library.ChangeList
