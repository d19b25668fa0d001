import Salt.Types
import Mathlib.Logic.Function.Basic

namespace Salt

open Std (ExtTreeMap)

/-- State changes as pairs of old and new value; `none` stands for absence. -/
structure StateUpdates where
  data : ExtTreeMap SaltKey (Option SaltValue × Option SaltValue)

namespace StateUpdates

def empty : StateUpdates := ⟨∅⟩

def tryAdd (u : StateUpdates) (saltKey : SaltKey) (oldValue newValue : Option SaltValue) :
    Except SaltError StateUpdates :=
  match u.data[saltKey]? with
  | some (old, new) =>
    if oldValue ≠ new then .error (.unchainedTransition saltKey new oldValue)
    else if old = newValue then .ok ⟨u.data.erase saltKey⟩
    else .ok ⟨u.data.insert saltKey (old, newValue)⟩
  | none =>
    if oldValue ≠ newValue then .ok ⟨u.data.insert saltKey (oldValue, newValue)⟩ else .ok u

def tryMerge (u other : StateUpdates) : Except SaltError StateUpdates :=
  other.data.toList.foldlM (fun acc e ↦ acc.tryAdd e.1 e.2.1 e.2.2) u

def unwrap : Except SaltError StateUpdates → Except Fault StateUpdates
  | .ok u => .ok u
  | .error e => .error (.panic (.unchained e))

def add (u : StateUpdates) (saltKey : SaltKey) (oldValue newValue : Option SaltValue) :
    Except Fault StateUpdates := unwrap (u.tryAdd saltKey oldValue newValue)

def merge (u other : StateUpdates) : Except Fault StateUpdates := unwrap (u.tryMerge other)

def inverse (u : StateUpdates) : StateUpdates := ⟨u.data.map (fun _ p ↦ (p.2, p.1))⟩

/-- The updates record exactly the keys on which two states differ, with both values. -/
def IsDiff (u : StateUpdates) (s t : SaltKey → Option SaltValue) : Prop :=
  ∀ k, u.data[k]? = if s k = t k then none else some (s k, t k)

variable {u v : StateUpdates} {s t r : SaltKey → Option SaltValue}

theorem isDiff_empty (s : SaltKey → Option SaltValue) : IsDiff empty s s := by
  intro k
  simp [empty]

theorem IsDiff.unique (h : IsDiff u s t) (h' : IsDiff v s t) : u = v := by
  cases u
  cases v
  congr 1
  exact ExtTreeMap.ext_getElem? fun k ↦ (h k).trans (h' k).symm

theorem IsDiff.congr (h : IsDiff u s t) {s' t' : SaltKey → Option SaltValue} (hs : ∀ k, s' k = s k)
    (ht : ∀ k, t' k = t k) : IsDiff u s' t' := by
  intro k
  rw [hs, ht]
  exact h k

theorem IsDiff.tryAdd (h : IsDiff u s t) (k : SaltKey) (n : Option SaltValue) :
    ∃ u', u.tryAdd k (t k) n = .ok u' ∧ IsDiff u' s (Function.update t k n) := by
  have hk := h k
  unfold StateUpdates.tryAdd
  by_cases he : s k = t k
  · rw [if_pos he] at hk
    simp only [hk]
    by_cases hn : t k = n
    · refine ⟨u, by simp [hn], fun j ↦ ?_⟩
      rw [← hn, Function.update_eq_self]
      exact h j
    · refine ⟨_, by simp [hn]; rfl, fun j ↦ ?_⟩
      by_cases hj : k = j
      · subst hj
        simp [he, hn]
      · simp [ExtTreeMap.getElem?_insert, hj, Function.update_of_ne (Ne.symm hj), h j]
  · rw [if_neg he] at hk
    simp only [hk]
    by_cases hn : s k = n
    · refine ⟨_, by simp [hn]; rfl, fun j ↦ ?_⟩
      by_cases hj : k = j
      · subst hj
        simp [hn]
      · simp [ExtTreeMap.getElem?_erase, hj, Function.update_of_ne (Ne.symm hj), h j]
    · refine ⟨_, by simp [hn]; rfl, fun j ↦ ?_⟩
      by_cases hj : k = j
      · subst hj
        simp [hn]
      · simp [ExtTreeMap.getElem?_insert, hj, Function.update_of_ne (Ne.symm hj), h j]

theorem IsDiff.add (h : IsDiff u s t) (k : SaltKey) (n : Option SaltValue) :
    ∃ u', u.add k (t k) n = .ok u' ∧ IsDiff u' s (Function.update t k n) := by
  obtain ⟨u', hu, hd⟩ := h.tryAdd k n
  exact ⟨u', by rw [StateUpdates.add, hu]; rfl, hd⟩

theorem pairwise_keys {β : Type} (d : ExtTreeMap SaltKey β) :
    d.toList.Pairwise (fun a b ↦ a.1 ≠ b.1) :=
  d.distinct_keys_toList.imp fun hab he ↦ hab (by rw [he]; exact Std.ReflCmp.compare_self)

theorem foldl_update_apply {β : Type} (g : β → Option SaltValue) (l : List (SaltKey × β))
    (c : SaltKey → Option SaltValue) (hp : l.Pairwise (fun a b ↦ a.1 ≠ b.1)) (k : SaltKey) :
    (l.foldl (fun c e ↦ Function.update c e.1 (g e.2)) c) k =
      (l.find? (fun e ↦ e.1 == k)).elim (c k) (fun e ↦ g e.2) := by
  induction l generalizing c with
  | nil => rfl
  | cons e l ih =>
    obtain ⟨hne, hp⟩ := List.pairwise_cons.mp hp
    rw [List.foldl_cons, ih _ hp]
    by_cases hek : e.1 = k
    · have hnone : l.find? (fun a ↦ a.1 == k) = none :=
        List.find?_eq_none.mpr fun a ha ↦ by simpa [hek] using (hne a ha).symm
      simp [hek, hnone]
    · cases hf : l.find? (fun a ↦ a.1 == k) <;> simp [hek, hf, Function.update_of_ne (Ne.symm hek)]

theorem foldl_update_toList {β : Type} (g : β → Option SaltValue) (d : ExtTreeMap SaltKey β)
    (c : SaltKey → Option SaltValue) (k : SaltKey) :
    (d.toList.foldl (fun c e ↦ Function.update c e.1 (g e.2)) c) k = (d[k]?).elim (c k) g := by
  rw [foldl_update_apply g _ c (pairwise_keys d)]
  cases hf : d.toList.find? (fun e ↦ e.1 == k) with
  | some e =>
    have hek : e.1 = k := by simpa using List.find?_some hf
    have hg := ExtTreeMap.mem_toList_iff_getElem?_eq_some.mp (List.mem_of_find?_eq_some hf)
    rw [hek] at hg
    simp [hg]
  | none =>
    cases hg : d[k]? with
    | none => rfl
    | some x =>
      have := List.find?_eq_none.mp hf _ (ExtTreeMap.mem_toList_iff_getElem?_eq_some.mpr hg)
      simp at this

theorem IsDiff.mem_toList (h : IsDiff u s t) {e : SaltKey × Option SaltValue × Option SaltValue}
    (he : e ∈ u.data.toList) : s e.1 ≠ t e.1 ∧ e.2 = (s e.1, t e.1) := by
  have hg := ExtTreeMap.mem_toList_iff_getElem?_eq_some.mp he
  rw [h e.1] at hg
  split at hg
  · cases hg
  · exact ⟨by assumption, (Option.some.inj hg).symm⟩

theorem IsDiff.foldlM_tryAdd (l : List (SaltKey × Option SaltValue × Option SaltValue))
    (h : IsDiff u s t) (hp : l.Pairwise (fun a b ↦ a.1 ≠ b.1)) (hc : ∀ e ∈ l, e.2.1 = t e.1) :
    ∃ w, l.foldlM (fun acc e ↦ acc.tryAdd e.1 e.2.1 e.2.2) u = .ok w ∧
      IsDiff w s (l.foldl (fun c e ↦ Function.update c e.1 e.2.2) t) := by
  induction l generalizing u t with
  | nil => exact ⟨u, rfl, h⟩
  | cons e l ih =>
    obtain ⟨hne, hp⟩ := List.pairwise_cons.mp hp
    obtain ⟨u', hu', hd⟩ := h.tryAdd e.1 e.2.2
    rw [← hc e (List.mem_cons_self ..)] at hu'
    obtain ⟨w, hw, hdw⟩ := ih hd hp (fun a ha ↦ by
      rw [Function.update_of_ne (hne a ha).symm]
      exact hc a (List.mem_cons_of_mem _ ha))
    refine ⟨w, ?_, hdw⟩
    rw [List.foldlM_cons, hu']
    exact hw

theorem IsDiff.tryMerge (h : IsDiff u s t) (h' : IsDiff v t r) :
    ∃ w, u.tryMerge v = .ok w ∧ IsDiff w s r := by
  obtain ⟨w, hw, hd⟩ := h.foldlM_tryAdd v.data.toList (pairwise_keys v.data)
    (fun e he ↦ by rw [(h'.mem_toList he).2])
  refine ⟨w, hw, hd.congr (fun _ ↦ rfl) (fun k ↦ ?_)⟩
  have hfold := foldl_update_toList (fun x ↦ x.2) v.data t k
  rw [hfold, h' k]
  by_cases hk : t k = r k
  · simp [hk]
  · simp [hk]

theorem IsDiff.merge (h : IsDiff u s t) (h' : IsDiff v t r) :
    ∃ w, u.merge v = .ok w ∧ IsDiff w s r := by
  obtain ⟨w, hw, hd⟩ := h.tryMerge h'
  exact ⟨w, by rw [StateUpdates.merge, hw]; rfl, hd⟩

end StateUpdates

end Salt
