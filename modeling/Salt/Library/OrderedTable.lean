import Salt.Library.ProbeRing
import Mathlib.Data.Finset.Max
import Mathlib.Tactic.Set

namespace Salt.Library.OrderedTable

open ProbeRing

variable {K V : Type*} [LinearOrder K] (c : ℕ) (home : K → ℕ) (key : V → K)

/-- The entry at slot `s` has every earlier slot of its probe path filled with a larger key. -/
def Covered (t : ℕ → Option V) (k : K) (n : ℕ) : Prop :=
  ∀ i < n, ∃ w, t (probe (home k) i c) = some w ∧ k < key w

/-- The ordered-probing invariant of a ring of `c` slots. -/
def Ordered (t : ℕ → Option V) : Prop :=
  ∀ s < c, ∀ v, t s = some v → Covered c home key t (key v) (rank (home (key v)) s c)

def Stored (t : ℕ → Option V) (v : V) : Prop := ∃ s < c, t s = some v

variable {c home key} {t t' : ℕ → Option V}

theorem ordered_empty : Ordered c home key (fun _ ↦ none) := by
  intro s _ v hv
  cases hv

theorem Ordered.congr (h : Ordered c home key t) (hc : 0 < c) (he : ∀ s < c, t' s = t s) :
    Ordered c home key t' := by
  intro s hs v hv i hi
  rw [he s hs] at hv
  rw [he _ (probe_lt hc _ _)]
  exact h s hs v hv i hi

theorem Stored.congr (he : ∀ s < c, t' s = t s) (v : V) : Stored c t' v ↔ Stored c t v :=
  ⟨fun ⟨s, hs, hv⟩ ↦ ⟨s, hs, he s hs ▸ hv⟩, fun ⟨s, hs, hv⟩ ↦ ⟨s, hs, (he s hs).trans hv⟩⟩

theorem Ordered.slot_unique (h : Ordered c home key t) (hc : 0 < c) {s s' : ℕ} {v v' : V}
    (hs : s < c) (hs' : s' < c) (hv : t s = some v) (hv' : t s' = some v')
    (hk : key v = key v') : s = s' := by
  have aux : ∀ {a b : ℕ} {x y : V}, a < c → b < c → t a = some x → t b = some y → key x = key y →
      ¬ rank (home (key x)) a c < rank (home (key x)) b c := by
    intro a b x y ha hb hx hy hxy hlt
    obtain ⟨w, hw, hlt'⟩ := h b hb y hy _ (hxy ▸ hlt)
    rw [← hxy, probe_rank hc ha, hx] at hw
    cases hw
    exact absurd hlt' (hxy ▸ lt_irrefl _)
  have h₁ := aux hs hs' hv hv' hk
  have h₂ := aux hs' hs hv' hv hk.symm
  rw [← hk] at h₂
  rw [← probe_rank (h := home (key v)) hc hs, ← probe_rank (h := home (key v)) hc hs']
  congr 1
  omega

theorem Ordered.value_unique (h : Ordered c home key t) (hc : 0 < c) {v v' : V}
    (hv : Stored c t v) (hv' : Stored c t v') (hk : key v = key v') : v = v' := by
  obtain ⟨s, hs, he⟩ := hv
  obtain ⟨s', hs', he'⟩ := hv'
  have hss := h.slot_unique hc hs hs' he he' hk
  subst hss
  exact Option.some.inj (he.symm.trans he')

/-- Ordered tables over the same ring that store the same entries are equal slot by slot. -/
theorem Ordered.canonical (h : Ordered c home key t) (h' : Ordered c home key t') (hc : 0 < c)
    (he : ∀ v, Stored c t v ↔ Stored c t' v) : ∀ s < c, t s = t' s := by
  classical
  let bad := (Finset.range c).filter (fun s ↦ ∃ v, t s = some v ∧ t' s ≠ some v)
  have hbad : bad = ∅ := by
    by_contra hne
    obtain ⟨s₀, hs₀⟩ := Finset.nonempty_iff_ne_empty.mpr hne
    obtain ⟨v₀, _⟩ := (Finset.mem_filter.mp hs₀).2
    obtain ⟨s, hs, hmax⟩ := bad.exists_max_image (fun s ↦ key ((t s).getD v₀)) ⟨s₀, hs₀⟩
    obtain ⟨hsc, v, hv, hv'⟩ := Finset.mem_filter.mp hs
    rw [Finset.mem_range] at hsc
    have hlarger : ∀ {a : ℕ} {w : V}, a < c → t a = some w → key v < key w → t' a = some w := by
      intro a w ha hw hlt
      by_contra hn
      have hm := hmax a (Finset.mem_filter.mpr ⟨Finset.mem_range.mpr ha, w, hw, hn⟩)
      rw [hv, hw] at hm
      exact absurd hlt (not_lt.mpr hm)
    obtain ⟨s', hs', hvs'⟩ := (he v).mp ⟨s, hsc, hv⟩
    have hne' : s ≠ s' := fun hss ↦ hv' (hss ▸ hvs')
    have hrank : rank (home (key v)) s c ≠ rank (home (key v)) s' c := fun hr ↦ hne' <| by
      rw [← probe_rank (h := home (key v)) hc hsc, hr, probe_rank hc hs']
    rcases Nat.lt_or_gt_of_ne hrank with hr | hr
    · obtain ⟨w, hw, hlt⟩ := h' s' hs' v hvs' _ hr
      rw [probe_rank hc hsc] at hw
      obtain ⟨a, ha, hwa⟩ := (he w).mpr ⟨s, hsc, hw⟩
      have hsa := h'.slot_unique hc ha hsc (hlarger ha hwa hlt) hw rfl
      rw [← hsa, hwa] at hv
      cases hv
      exact lt_irrefl _ hlt
    · obtain ⟨w, hw, hlt⟩ := h s hsc v hv _ hr
      rw [probe_rank hc hs'] at hw
      have hw' := hlarger hs' hw hlt
      rw [hvs'] at hw'
      cases hw'
      exact lt_irrefl _ hlt
  have hsub : ∀ s < c, ∀ v, t s = some v → t' s = some v := by
    intro s hs v hv
    by_contra hn
    have : s ∈ bad := Finset.mem_filter.mpr ⟨Finset.mem_range.mpr hs, v, hv, hn⟩
    simp [hbad] at this
  intro s hs
  cases hv : t s with
  | some v => exact (hsub s hs v hv).symm
  | none =>
    cases hv' : t' s with
    | none => rfl
    | some v =>
      obtain ⟨a, ha, hva⟩ := (he v).mpr ⟨s, hs, hv'⟩
      have has := h'.slot_unique hc ha hs (hsub a ha v hva) hv' rfl
      rw [has, hv] at hva
      cases hva

/-- A stored key is found by scanning its probe path: nothing on the way stops the scan. -/
theorem Ordered.scan (h : Ordered c home key t) {s i : ℕ} {v : V} (hs : s < c)
    (hv : t s = some v) (hi : i < rank (home (key v)) s c) :
    ∃ w, t (probe (home (key v)) i c) = some w ∧ key v < key w :=
  h s hs v hv i hi

theorem Ordered.update_same (h : Ordered c home key t) {s : ℕ} {v w : V} (hs : s < c)
    (hv : t s = some v) (hk : key w = key v) :
    Ordered c home key (Function.update t s (some w)) := by
  intro a ha x hx i hi
  have step : ∀ k, ∀ j, (∃ y, t (probe (home k) j c) = some y ∧ k < key y) →
      ∃ y, Function.update t s (some w) (probe (home k) j c) = some y ∧ k < key y := by
    rintro k j ⟨y, hy, hlt⟩
    by_cases hp : probe (home k) j c = s
    · rw [hp, hv] at hy
      cases hy
      exact ⟨w, by rw [hp, Function.update_self], hk ▸ hlt⟩
    · exact ⟨y, by rw [Function.update_of_ne hp, hy], hlt⟩
  by_cases has : a = s
  · subst has
    rw [Function.update_self] at hx
    cases hx
    rw [hk] at hi ⊢
    exact step _ _ (h a ha v hv i hi)
  · rw [Function.update_of_ne has] at hx
    exact step _ _ (h a ha x hx i hi)

theorem Ordered.place (h : Ordered c home key t) (hc : 0 < c) {v : V} {n : ℕ}
    (hn : Covered c home key t (key v) n) (hfree : t (probe (home (key v)) n c) = none) :
    Ordered c home key (Function.update t (probe (home (key v)) n c) (some v)) := by
  have hnc : n < c := by
    by_contra hge
    obtain ⟨w, hw, _⟩ := hn (n - c) (by omega)
    rw [← probe_add_self, Nat.sub_add_cancel (by omega), hfree] at hw
    cases hw
  intro a ha x hx i hi
  by_cases has : a = probe (home (key v)) n c
  · subst has
    rw [Function.update_self] at hx
    cases hx
    rw [rank_probe hnc] at hi
    obtain ⟨w, hw, hlt⟩ := hn i hi
    refine ⟨w, ?_, hlt⟩
    rw [Function.update_of_ne, hw]
    intro he
    rw [he, hfree] at hw
    cases hw
  · rw [Function.update_of_ne has] at hx
    obtain ⟨w, hw, hlt⟩ := h a ha x hx i hi
    refine ⟨w, ?_, hlt⟩
    rw [Function.update_of_ne, hw]
    intro he
    rw [he, hfree] at hw
    cases hw

theorem Ordered.evict (h : Ordered c home key t) (hc : 0 < c) {v w : V} {n : ℕ}
    (hn : Covered c home key t (key v) n) (hw : t (probe (home (key v)) n c) = some w)
    (hlt : key w < key v) :
    Ordered c home key (Function.update t (probe (home (key v)) n c) (some v)) := by
  have hnc : n < c := by
    by_contra hge
    obtain ⟨x, hx, hvx⟩ := hn (n - c) (by omega)
    rw [← probe_add_self, Nat.sub_add_cancel (by omega), hw] at hx
    cases hx
    exact lt_irrefl _ (hvx.trans hlt)
  have step : ∀ k, k < key w → ∀ j, (∃ y, t (probe (home k) j c) = some y ∧ k < key y) →
      ∃ y, Function.update t (probe (home (key v)) n c) (some v) (probe (home k) j c) = some y ∧
        k < key y := by
    rintro k hk j ⟨y, hy, hky⟩
    by_cases hp : probe (home k) j c = probe (home (key v)) n c
    · exact ⟨v, by rw [hp, Function.update_self], hk.trans hlt⟩
    · exact ⟨y, by rw [Function.update_of_ne hp, hy], hky⟩
  intro a ha x hx i hi
  by_cases has : a = probe (home (key v)) n c
  · subst has
    rw [Function.update_self] at hx
    cases hx
    rw [rank_probe hnc] at hi
    obtain ⟨y, hy, hvy⟩ := hn i hi
    refine ⟨y, ?_, hvy⟩
    rw [Function.update_of_ne, hy]
    intro he
    rw [he, hw] at hy
    cases hy
    exact lt_irrefl _ (hvy.trans hlt)
  · rw [Function.update_of_ne has] at hx
    obtain ⟨y, hy, hxy⟩ := h a ha x hx i hi
    by_cases hp : probe (home (key x)) i c = probe (home (key v)) n c
    · rw [hp, hw] at hy
      cases hy
      exact ⟨v, by rw [hp, Function.update_self], hxy.trans hlt⟩
    · exact ⟨y, by rw [Function.update_of_ne hp, hy], hxy⟩

theorem Covered.succ {k : K} {n : ℕ} (h : Covered c home key t k n) {w : V}
    (hw : t (probe (home k) n c) = some w) (hlt : k < key w) : Covered c home key t k (n + 1) := by
  intro i hi
  rcases Nat.lt_succ_iff_lt_or_eq.mp hi with hi | rfl
  · exact h i hi
  · exact ⟨w, hw, hlt⟩

theorem Ordered.evicted (h : Ordered c home key t) (hc : 0 < c) {v w : V} {s : ℕ} (hs : s < c)
    (hw : t s = some w) (hlt : key w < key v) :
    Covered c home key (Function.update t s (some v)) (key w) (rank (home (key w)) s c + 1) := by
  intro i hi
  rcases Nat.lt_succ_iff_lt_or_eq.mp hi with hi | rfl
  · obtain ⟨x, hx, hwx⟩ := h s hs w hw i hi
    refine ⟨x, ?_, hwx⟩
    rw [Function.update_of_ne, hx]
    intro he
    rw [he, hw] at hx
    cases hx
    exact lt_irrefl _ hwx
  · exact ⟨v, by rw [probe_rank hc hs, Function.update_self], hlt⟩

theorem stored_update_free {s : ℕ} {v : V} (hs : s < c) (hfree : t s = none) (x : V) :
    Stored c (Function.update t s (some v)) x ↔ x = v ∨ Stored c t x := by
  constructor
  · rintro ⟨a, ha, hx⟩
    by_cases has : a = s
    · subst has
      rw [Function.update_self] at hx
      exact .inl (Option.some.inj hx).symm
    · rw [Function.update_of_ne has] at hx
      exact .inr ⟨a, ha, hx⟩
  · rintro (rfl | ⟨a, ha, hx⟩)
    · exact ⟨s, hs, Function.update_self ..⟩
    · refine ⟨a, ha, ?_⟩
      rw [Function.update_of_ne, hx]
      rintro rfl
      rw [hfree] at hx
      cases hx

theorem Ordered.stored_update (h : Ordered c home key t) (hc : 0 < c) {s : ℕ} {v w : V} (hs : s < c)
    (hw : t s = some w) (x : V) :
    Stored c (Function.update t s (some v)) x ↔ x = v ∨ Stored c t x ∧ key x ≠ key w := by
  constructor
  · rintro ⟨a, ha, hx⟩
    by_cases has : a = s
    · subst has
      rw [Function.update_self] at hx
      exact .inl (Option.some.inj hx).symm
    · rw [Function.update_of_ne has] at hx
      exact .inr ⟨⟨a, ha, hx⟩, fun hk ↦ has (h.slot_unique hc ha hs hx hw hk)⟩
  · rintro (rfl | ⟨⟨a, ha, hx⟩, hk⟩)
    · exact ⟨s, hs, Function.update_self ..⟩
    · refine ⟨a, ha, ?_⟩
      rw [Function.update_of_ne, hx]
      rintro rfl
      rw [hx] at hw
      cases hw
      exact hk rfl

theorem Ordered.stored_remove (h : Ordered c home key t) (hc : 0 < c) {s : ℕ} {w : V} (hs : s < c)
    (hw : t s = some w) (x : V) :
    Stored c (Function.update t s none) x ↔ Stored c t x ∧ key x ≠ key w := by
  constructor
  · rintro ⟨a, ha, hx⟩
    by_cases has : a = s
    · subst has
      rw [Function.update_self] at hx
      cases hx
    · rw [Function.update_of_ne has] at hx
      exact ⟨⟨a, ha, hx⟩, fun hk ↦ has (h.slot_unique hc ha hs hx hw hk)⟩
  · rintro ⟨⟨a, ha, hx⟩, hk⟩
    refine ⟨a, ha, ?_⟩
    rw [Function.update_of_ne, hx]
    rintro rfl
    rw [hx] at hw
    cases hw
    exact hk rfl

end Salt.Library.OrderedTable
