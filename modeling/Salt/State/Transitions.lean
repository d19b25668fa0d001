import Salt.State.Updates
import Salt.Library.Transition
import Salt.Library.Triple

namespace Salt

open Std (ExtTreeMap)
open Library.Transition Library.Triple

namespace StateUpdates

/-- `try_add` on `&mut self`: what `self` is afterwards, and the result. -/
def tryAddSelf (u : StateUpdates) (saltKey : SaltKey) (oldValue newValue : Option SaltValue) :
    StateUpdates × Except SaltError Unit :=
  match u.data[saltKey]? with
  | some (old, new) =>
    if oldValue ≠ new then (u, .error (.unchainedTransition saltKey new oldValue))
    else if old = newValue then (⟨u.data.erase saltKey⟩, .ok ())
    else (⟨u.data.insert saltKey (old, newValue)⟩, .ok ())
  | none =>
    if oldValue ≠ newValue then (⟨u.data.insert saltKey (oldValue, newValue)⟩, .ok ()) else (u, .ok ())

/-- Updates built from the empty ones. What a failed merge leaves behind is built as well: by the
additions that succeeded. -/
inductive Built : StateUpdates → Prop
  | empty : Built .empty
  | tryAdd {u w : StateUpdates} {k : SaltKey} {o n : Option SaltValue} (hu : Built u)
    (h : u.tryAdd k o n = .ok w) : Built w
  | tryMerge {u v w : StateUpdates} (hu : Built u) (hv : Built v) (h : u.tryMerge v = .ok w) : Built w
  | inverse {u : StateUpdates} (hu : Built u) : Built u.inverse

def Matches (u : StateUpdates) (s : SaltKey → Option SaltValue) : Prop := ∀ k, Fits u.data[k]? (s k)

def apply (u : StateUpdates) (s : SaltKey → Option SaltValue) (k : SaltKey) : Option SaltValue :=
  move u.data[k]? (s k)

variable {u v w : StateUpdates} {k : SaltKey} {o n : Option SaltValue}

theorem ext_data (h : ∀ k : SaltKey, u.data[k]? = v.data[k]?) : u = v := by
  cases u
  cases v
  congr 1
  exact ExtTreeMap.ext_getElem? h

theorem tryAdd_eq_self : u.tryAdd k o n =
    match u.tryAddSelf k o n with
    | (w, .ok ()) => .ok w
    | (_, .error e) => .error e := by
  rw [tryAdd, tryAddSelf]
  cases u.data[k]? with
  | none =>
    simp only
    split <;> rfl
  | some p =>
    simp only
    split
    · rfl
    · split <;> rfl

theorem tryAdd_of_link {e : Option (Option SaltValue × Option SaltValue)}
    (h : link u.data[k]? o n = some e) :
    ∃ w, u.tryAdd k o n = .ok w ∧ w.data[k]? = e ∧ ∀ j : SaltKey, j ≠ k → w.data[j]? = u.data[j]? := by
  rw [tryAdd]
  cases hk : u.data[k]? with
  | none =>
    rw [hk, link, Option.some.injEq] at h
    subst h
    by_cases he : o = n
    · exact ⟨u, by simp [he], by simp [he, hk], fun _ _ ↦ rfl⟩
    · refine ⟨⟨u.data.insert k (o, n)⟩, by simp [he], by simp [he], fun j hj ↦ ?_⟩
      simp [ExtTreeMap.getElem?_insert, Ne.symm hj]
  | some p =>
    obtain ⟨a, b⟩ := p
    rw [hk, link] at h
    split at h
    · cases h
    · rename_i hb
      rw [Option.some.injEq] at h
      subst h
      by_cases he : a = n
      · refine ⟨⟨u.data.erase k⟩, by simp only [hb, if_false, he, if_true], by simp [he], fun j hj ↦ ?_⟩
        simp [ExtTreeMap.getElem?_erase, Ne.symm hj]
      · refine ⟨⟨u.data.insert k (a, n)⟩, by simp only [hb, if_false, he], by simp [he], fun j hj ↦ ?_⟩
        simp [ExtTreeMap.getElem?_insert, Ne.symm hj]

theorem tryAdd_of_unlinked (h : link u.data[k]? o n = none) : ∃ e, u.tryAdd k o n = .error e := by
  rw [tryAdd]
  cases hk : u.data[k]? with
  | none =>
    rw [hk, link] at h
    cases h
  | some p =>
    obtain ⟨a, b⟩ := p
    rw [hk, link] at h
    split at h
    · rename_i hb
      exact ⟨_, if_pos hb⟩
    · cases h

theorem tryAdd_ok (h : u.tryAdd k o n = .ok w) :
    link u.data[k]? o n = some w.data[k]? ∧ ∀ j : SaltKey, j ≠ k → w.data[j]? = u.data[j]? := by
  cases hl : link u.data[k]? o n with
  | none =>
    obtain ⟨e, he⟩ := tryAdd_of_unlinked hl
    rw [he] at h
    cases h
  | some e =>
    obtain ⟨w', hw', hk, hj⟩ := tryAdd_of_link hl
    rw [hw'] at h
    cases h
    exact ⟨by rw [hk], hj⟩

def recorded (l : List (SaltKey × Option SaltValue × Option SaltValue)) (k : SaltKey) :
    Option (Option SaltValue × Option SaltValue) := (l.find? (fun e ↦ e.1 == k)).map Prod.snd

theorem recorded_toList (d : ExtTreeMap SaltKey (Option SaltValue × Option SaltValue)) (k : SaltKey) :
    recorded d.toList k = d[k]? := by
  rw [recorded]
  cases hf : d.toList.find? (fun e ↦ e.1 == k) with
  | some e =>
    have hek : e.1 = k := by simpa using List.find?_some hf
    have hg := ExtTreeMap.mem_toList_iff_getElem?_eq_some.mp (List.mem_of_find?_eq_some hf)
    rw [hek] at hg
    exact hg.symm
  | none =>
    cases hg : d[k]? with
    | none => rfl
    | some x =>
      have := List.find?_eq_none.mp hf _ (ExtTreeMap.mem_toList_iff_getElem?_eq_some.mpr hg)
      simp at this

theorem recorded_cons_self (k : SaltKey) (p : Option SaltValue × Option SaltValue)
    (l : List (SaltKey × Option SaltValue × Option SaltValue)) :
    recorded ((k, p) :: l) k = some p := by simp [recorded]

theorem recorded_cons_of_ne {j k : SaltKey} (h : j ≠ k) (p : Option SaltValue × Option SaltValue)
    (l : List (SaltKey × Option SaltValue × Option SaltValue)) :
    recorded ((j, p) :: l) k = recorded l k := by simp [recorded, h]

theorem recorded_of_forall_ne {l : List (SaltKey × Option SaltValue × Option SaltValue)}
    (h : ∀ e ∈ l, k ≠ e.1) : recorded l k = none := by
  rw [recorded, List.find?_eq_none.mpr fun e he ↦ by simpa using (h e he).symm]
  rfl

theorem foldlM_tryAdd_iff (l : List (SaltKey × Option SaltValue × Option SaltValue))
    (hp : l.Pairwise (fun a b ↦ a.1 ≠ b.1)) :
    l.foldlM (fun acc e ↦ acc.tryAdd e.1 e.2.1 e.2.2) u = .ok w ↔
      ∀ k, chain u.data[k]? (recorded l k) = some w.data[k]? := by
  induction l generalizing u with
  | nil =>
    constructor
    · intro h k
      cases h
      rfl
    · intro h
      exact congrArg Except.ok (ext_data fun k ↦ Option.some.inj (h k))
  | cons e l ih =>
    obtain ⟨j, o, n⟩ := e
    obtain ⟨hne, hp⟩ := List.pairwise_cons.mp hp
    have hlast : recorded l j = none := recorded_of_forall_ne hne
    rw [List.foldlM_cons]
    constructor
    · intro h
      obtain ⟨u', hu', h⟩ := ok_of_bind h
      obtain ⟨hj, hother⟩ := tryAdd_ok hu'
      have hrest := (ih hp).mp h
      intro k
      by_cases hk : j = k
      · subst hk
        have hself := hrest j
        rw [hlast, chain, Option.some.injEq] at hself
        rw [recorded_cons_self, chain, hj, hself]
      · rw [recorded_cons_of_ne hk, ← hother k (Ne.symm hk)]
        exact hrest k
    · intro h
      have hj := h j
      rw [recorded_cons_self, chain] at hj
      obtain ⟨u', hu', hself, hother⟩ := tryAdd_of_link hj
      rw [hu', ok_bind]
      refine (ih hp).mpr fun k ↦ ?_
      by_cases hk : j = k
      · subst hk
        rw [hlast, chain, hself]
      · rw [hother k (Ne.symm hk), ← recorded_cons_of_ne hk (o, n)]
        exact h k

theorem exists_foldlM_tryAdd (l : List (SaltKey × Option SaltValue × Option SaltValue))
    (hp : l.Pairwise (fun a b ↦ a.1 ≠ b.1)) (h : ∀ k, ∃ e, chain u.data[k]? (recorded l k) = some e) :
    ∃ w, l.foldlM (fun acc e ↦ acc.tryAdd e.1 e.2.1 e.2.2) u = .ok w := by
  induction l generalizing u with
  | nil => exact ⟨u, rfl⟩
  | cons e l ih =>
    obtain ⟨j, o, n⟩ := e
    obtain ⟨hne, hp⟩ := List.pairwise_cons.mp hp
    obtain ⟨e, hj⟩ := h j
    rw [recorded_cons_self, chain] at hj
    obtain ⟨u', hu', -, hother⟩ := tryAdd_of_link hj
    rw [List.foldlM_cons, hu', ok_bind]
    refine ih hp fun k ↦ ?_
    by_cases hk : j = k
    · subst hk
      rw [recorded_of_forall_ne hne]
      exact ⟨_, rfl⟩
    · rw [hother k (Ne.symm hk), ← recorded_cons_of_ne hk (o, n)]
      exact h k

theorem tryMerge_iff : u.tryMerge v = .ok w ↔
    ∀ k : SaltKey, chain u.data[k]? v.data[k]? = some w.data[k]? := by
  rw [tryMerge, foldlM_tryAdd_iff _ (pairwise_keys v.data)]
  simp only [recorded_toList]

theorem exists_tryMerge (h : ∀ k : SaltKey, ∃ e, chain u.data[k]? v.data[k]? = some e) :
    ∃ w, u.tryMerge v = .ok w := by
  refine exists_foldlM_tryAdd _ (pairwise_keys v.data) fun k ↦ ?_
  rw [recorded_toList]
  exact h k

theorem inverse_data (u : StateUpdates) (k : SaltKey) :
    u.inverse.data[k]? = (u.data[k]?).map Prod.swap := by
  rw [inverse, ExtTreeMap.getElem?_map]
  cases u.data[k]? <;> rfl

theorem Built.proper (h : Built u) (k : SaltKey) : Proper u.data[k]? := by
  induction h generalizing k with
  | empty =>
    intro p hp
    simp [StateUpdates.empty] at hp
  | @tryAdd u w j o n _ h ih =>
    obtain ⟨hself, hother⟩ := tryAdd_ok h
    by_cases hk : k = j
    · subst hk
      exact link_proper (ih k) hself
    · rw [hother k hk]
      exact ih k
  | tryMerge _ _ h ih _ => exact chain_proper (ih k) (tryMerge_iff.mp h k)
  | @inverse u _ ih =>
    intro p hp
    rw [inverse_data] at hp
    obtain ⟨q, hq, rfl⟩ := Option.map_eq_some_iff.mp hp
    exact (ih k q hq).symm

/-- Updates that follow each other merge to updates that do both. -/
theorem tryMerge_matches {s : SaltKey → Option SaltValue} (hu : u.Matches s) (hv : v.Matches (u.apply s)) :
    ∃ w, u.tryMerge v = .ok w ∧ w.Matches s ∧ w.apply s = v.apply (u.apply s) := by
  have hfits := fun k ↦ chain_fits (hu k) (hv k)
  obtain ⟨w, hw⟩ := exists_tryMerge fun k ↦ ⟨_, (hfits k).choose_spec.1⟩
  have hspec : ∀ k, Fits w.data[k]? (s k) ∧ w.apply s k = v.apply (u.apply s) k := by
    intro k
    obtain ⟨e, he, hfit, hmove⟩ := hfits k
    obtain rfl : w.data[k]? = e := Option.some.inj ((tryMerge_iff.mp hw k).symm.trans he)
    exact ⟨hfit, hmove⟩
  exact ⟨w, hw, fun k ↦ (hspec k).1, funext fun k ↦ (hspec k).2⟩

theorem tryMerge_assoc {a b c ab bc l r : StateUpdates} (ha : Built a) (hb : Built b) (hc : Built c)
    (hab : a.tryMerge b = .ok ab) (hl : ab.tryMerge c = .ok l) (hbc : b.tryMerge c = .ok bc)
    (hr : a.tryMerge bc = .ok r) : l = r :=
  ext_data fun k ↦ chain_assoc (ha.proper k) (hb.proper k) (hc.proper k) (tryMerge_iff.mp hab k)
    (tryMerge_iff.mp hl k) (tryMerge_iff.mp hbc k) (tryMerge_iff.mp hr k)

/-- Merges are inverted by merging the inverses in the other order. -/
theorem inverse_tryMerge {a b : StateUpdates} (ha : Built a) (hb : Built b) (h : a.tryMerge b = .ok w) :
    b.inverse.tryMerge a.inverse = .ok w.inverse := by
  refine tryMerge_iff.mpr fun k ↦ ?_
  rw [inverse_data, inverse_data, inverse_data, ← chain_swap (ha.proper k) (hb.proper k),
    tryMerge_iff.mp h k]
  rfl

theorem inverse_inverse (u : StateUpdates) : u.inverse.inverse = u := by
  refine ext_data fun k ↦ ?_
  rw [inverse_data, inverse_data, Option.map_map, Prod.swap_swap_eq, Option.map_id]
  rfl

theorem tryMerge_inverse (u : StateUpdates) : u.tryMerge u.inverse = .ok .empty := by
  refine tryMerge_iff.mpr fun k ↦ ?_
  rw [inverse_data, chain_self_swap]
  simp [StateUpdates.empty]

/-- An addition fails exactly on a step that does not start where the record ends, and then changes
nothing. -/
theorem tryAddSelf_error_iff (u : StateUpdates) (k : SaltKey) (o n : Option SaltValue) :
    ((∃ e, (u.tryAddSelf k o n).2 = .error e) ↔ ∃ p, u.data[k]? = some p ∧ p.2 ≠ o) ∧
    ∀ e, (u.tryAddSelf k o n).2 = .error e → (u.tryAddSelf k o n).1 = u := by
  rw [tryAddSelf]
  cases hk : u.data[k]? with
  | none =>
    simp only
    split <;> simp
  | some p =>
    obtain ⟨old, new⟩ := p
    simp only
    split
    · rename_i h
      simp [Ne.symm h]
    · rename_i h
      rw [ne_eq, not_not] at h
      split <;> simp [h]

/-- Updates form a groupoid of state transitions. -/
theorem state_updates_groupoid {a b c : StateUpdates} (ha : Built a) (hb : Built b) (hc : Built c) :
    (∀ (k : SaltKey) (o n : Option SaltValue), a.data[k]? = some (o, n) → o ≠ n) ∧
    (∀ s, a.Matches s → b.Matches (a.apply s) →
      ∃ w, a.tryMerge b = .ok w ∧ w.Matches s ∧ w.apply s = b.apply (a.apply s)) ∧
    (∀ ab l bc r, a.tryMerge b = .ok ab → ab.tryMerge c = .ok l → b.tryMerge c = .ok bc →
      a.tryMerge bc = .ok r → l = r) ∧
    (∀ w, a.tryMerge b = .ok w ↔ b.inverse.tryMerge a.inverse = .ok w.inverse) ∧
    a.tryMerge a.inverse = .ok .empty ∧
    ∀ (k : SaltKey) (o n : Option SaltValue),
      ((∃ e, (a.tryAddSelf k o n).2 = .error e) ↔ ∃ p, a.data[k]? = some p ∧ p.2 ≠ o) ∧
      ∀ e, (a.tryAddSelf k o n).2 = .error e → (a.tryAddSelf k o n).1 = a := by
  refine ⟨fun k o n h ↦ ha.proper k _ h, fun s ↦ tryMerge_matches, fun ab l bc r ↦
    tryMerge_assoc ha hb hc, fun w ↦ ⟨inverse_tryMerge ha hb, fun h ↦ ?_⟩, tryMerge_inverse a,
    tryAddSelf_error_iff a⟩
  have hback := inverse_tryMerge hb.inverse ha.inverse h
  rwa [inverse_inverse, inverse_inverse, inverse_inverse] at hback

theorem state_updates_groupoid_step :
    ∃ a, StateUpdates.empty.tryAdd (SaltKey.ofPair (2 ^ 16) 0) none (some (SaltValue.ofMeta .default)) =
        .ok a ∧
      (∀ (k : SaltKey) (o n : Option SaltValue), a.data[k]? = some (o, n) → o ≠ n) ∧
      (∀ s, a.Matches s → a.inverse.Matches (a.apply s) →
        ∃ w, a.tryMerge a.inverse = .ok w ∧ w.Matches s ∧ w.apply s = a.inverse.apply (a.apply s)) ∧
      (∀ ab l bc r, a.tryMerge a.inverse = .ok ab → ab.tryMerge a = .ok l →
        a.inverse.tryMerge a = .ok bc → a.tryMerge bc = .ok r → l = r) ∧
      (∀ w, a.tryMerge a.inverse = .ok w ↔ a.inverse.inverse.tryMerge a.inverse = .ok w.inverse) ∧
      a.tryMerge a.inverse = .ok .empty ∧
      ∀ (k : SaltKey) (o n : Option SaltValue),
        ((∃ e, (a.tryAddSelf k o n).2 = .error e) ↔ ∃ p, a.data[k]? = some p ∧ p.2 ≠ o) ∧
        ∀ e, (a.tryAddSelf k o n).2 = .error e → (a.tryAddSelf k o n).1 = a := by
  obtain ⟨a, ha, -⟩ := tryAdd_of_link (u := .empty) (k := SaltKey.ofPair (2 ^ 16) 0) (o := none)
    (n := some (SaltValue.ofMeta .default)) (by simp [StateUpdates.empty, link]; rfl)
  exact ⟨a, ha, state_updates_groupoid (.tryAdd .empty ha) (.inverse (.tryAdd .empty ha))
    (.tryAdd .empty ha)⟩

end StateUpdates

end Salt
