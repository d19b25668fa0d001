import Salt.Library.OrderedTable
import Mathlib.Data.Finset.Card

namespace Salt.Library.GapClosing

open ProbeRing OrderedTable

variable {K V : Type*} [LinearOrder K] (c : ℕ) (home : K → ℕ) (key : V → K)

/-- The ordered-probing invariant of a ring with a hole: a path may cross slot `g`. -/
def Holed (g : ℕ) (t : ℕ → Option V) : Prop :=
  t g = none ∧ ∀ s < c, ∀ v, t s = some v → ∀ i < rank (home (key v)) s c,
    probe (home (key v)) i c = g ∨ ∃ w, t (probe (home (key v)) i c) = some w ∧ key v < key w

variable {c home key} {t : ℕ → Option V} {g : ℕ}

theorem holed_of_ordered (h : Ordered c home key t) (g : ℕ) :
    Holed c home key g (Function.update t g none) := by
  refine ⟨Function.update_self .., fun s hs v hv i hi ↦ ?_⟩
  have hsg : s ≠ g := by
    rintro rfl
    rw [Function.update_self] at hv
    cases hv
  rw [Function.update_of_ne hsg] at hv
  by_cases hp : probe (home (key v)) i c = g
  · exact .inl hp
  · obtain ⟨w, hw, hlt⟩ := h s hs v hv i hi
    exact .inr ⟨w, by rw [Function.update_of_ne hp, hw], hlt⟩

/-- Every entry whose path crosses the slot `g` has a key below `b`. -/
def CrossBelow (c : ℕ) (home : K → ℕ) (key : V → K) (g : ℕ) (b : K) (t : ℕ → Option V) : Prop :=
  ∀ s < c, ∀ v, t s = some v → rank (home (key v)) g c < rank (home (key v)) s c → key v < b

theorem crossBelow_of_ordered (h : Ordered c home key t) (hc : 0 < c) {g : ℕ} {d : V} (hg : g < c)
    (hd : t g = some d) : CrossBelow c home key g (key d) (Function.update t g none) := by
  intro s hs v hv hr
  have hsg : s ≠ g := by
    rintro rfl
    exact lt_irrefl _ hr
  rw [Function.update_of_ne hsg] at hv
  obtain ⟨w, hw, hlt⟩ := h s hs v hv _ hr
  rw [probe_rank hc hg, hd] at hw
  cases hw
  exact hlt

/-- The slots between the hole and the first free slot hold every entry that crosses the hole. -/
theorem Holed.crossing (h : Holed c home key g t) (hc : 0 < c) (hg : g < c) {s n : ℕ} {v : V}
    (hs : s < c) (hv : t s = some v) (hr : rank (home (key v)) g c < rank (home (key v)) s c)
    (hn : 0 < n) (hd : n < rank (home (key v)) s c - rank (home (key v)) g c) :
    ∃ w, t (probe g n c) = some w ∧ key v < key w := by
  have hsc := rank_lt (h := home (key v)) hc hs
  have hp : probe (home (key v)) (rank (home (key v)) g c + n) c = probe g n c := by
    rw [← probe_probe, probe_rank hc hg]
  rcases h.2 s hs v hv (rank (home (key v)) g c + n) (by omega) with he | hw
  · exfalso
    have h₁ := rank_probe (h := home (key v)) (i := rank (home (key v)) g c + n) (c := c) (by omega)
    rw [he] at h₁
    omega
  · rwa [hp] at hw

/-- If no entry before the first free slot crosses the hole, none does. -/
theorem Holed.close (h : Holed c home key g t) (hc : 0 < c) (hg : g < c) {n : ℕ} (hn : 0 < n)
    (hscan : ∀ i, 0 < i → i < n → i < c → ∃ w, t (probe g i c) = some w ∧
      rank (home (key w)) (probe g i c) c ≤ rank (home (key w)) g c)
    (hstop : n < c → t (probe g n c) = none) : Ordered c home key t := by
  intro s hs v hv i hi
  rcases h.2 s hs v hv i hi with he | hw
  · exfalso
    have hsc := rank_lt (h := home (key v)) hc hs
    have hr : rank (home (key v)) g c = i := by
      rw [← he]
      exact rank_probe (by omega)
    set d := rank (home (key v)) s c - rank (home (key v)) g c with hd
    have hs' : probe g d c = s := probe_of_rank_le hc hg hs (by omega)
    rcases Nat.lt_trichotomy d n with hlt | heq | hgt
    · obtain ⟨w, hw, hle⟩ := hscan d (by omega) hlt (by omega)
      rw [hs', hv] at hw
      cases hw
      rw [hs'] at hle
      omega
    · have hnone := hstop (by omega)
      rw [← heq, hs', hv] at hnone
      cases hnone
    · obtain ⟨w, hw, _⟩ := h.crossing hc hg hs hv (by omega) hn hgt
      rw [hstop (by omega)] at hw
      cases hw
  · exact hw

/-- Moving the first entry that crosses the hole into it moves the hole to that entry's slot. -/
theorem Holed.move (h : Holed c home key g t) (hc : 0 < c) (hg : g < c) {n : ℕ} {y : V}
    (hn : 0 < n) (hy : t (probe g n c) = some y)
    (hcross : rank (home (key y)) g c < rank (home (key y)) (probe g n c) c)
    (hscan : ∀ i, 0 < i → i < n → ∃ w, t (probe g i c) = some w ∧
      rank (home (key w)) (probe g i c) c ≤ rank (home (key w)) g c) :
    Holed c home key (probe g n c)
      (Function.update (Function.update t g (some y)) (probe g n c) none) := by
  have hsg : probe g n c ≠ g := by
    intro he
    rw [he] at hcross
    exact lt_irrefl _ hcross
  refine ⟨Function.update_self .., fun s hs v hv i hi ↦ ?_⟩
  have hsn : s ≠ probe g n c := by
    rintro rfl
    rw [Function.update_self] at hv
    cases hv
  rw [Function.update_of_ne hsn] at hv
  by_cases hp : probe (home (key v)) i c = probe g n c
  · exact .inl hp
  refine .inr ?_
  rw [Function.update_of_ne hp]
  by_cases hsg' : s = g
  · subst hsg'
    rw [Function.update_self] at hv
    cases hv
    have hys := probe_lt hc s n
    rcases h.2 _ hys y hy i (by omega) with he | ⟨w, hw, hlt⟩
    · exfalso
      have := rank_probe (h := home (key y)) (i := i) (c := c) (by
        have := rank_lt (h := home (key y)) hc hg
        omega)
      rw [he] at this
      omega
    · refine ⟨w, ?_, hlt⟩
      rw [Function.update_of_ne, hw]
      intro he
      rw [he, h.1] at hw
      cases hw
  · rw [Function.update_of_ne hsg'] at hv
    rcases h.2 s hs v hv i hi with he | ⟨w, hw, hlt⟩
    · -- `v` crosses the hole, so it lies beyond `y` and is smaller
      refine ⟨y, by rw [he, Function.update_self], ?_⟩
      have hsc := rank_lt (h := home (key v)) hc hs
      have hr : rank (home (key v)) g c = i := by
        rw [← he]
        exact rank_probe (by omega)
      set d := rank (home (key v)) s c - rank (home (key v)) g c with hd
      have hs' : probe g d c = s := probe_of_rank_le hc hg hs (by omega)
      have hnd : n < d := by
        rcases Nat.lt_trichotomy d n with hlt | heq | hgt
        · obtain ⟨w, hw, hle⟩ := hscan d (by omega) hlt
          rw [hs', hv] at hw
          cases hw
          rw [hs'] at hle
          omega
        · exact absurd (hs'.symm.trans (by rw [heq])) hsn
        · exact hgt
      obtain ⟨w, hw, hlt⟩ := h.crossing hc hg hs hv (by omega) hn hnd
      rw [hy] at hw
      cases hw
      exact hlt
    · refine ⟨w, ?_, hlt⟩
      rw [Function.update_of_ne, hw]
      intro he
      rw [he, h.1] at hw
      cases hw

theorem CrossBelow.move (h : Holed c home key g t) (hc : 0 < c) (hg : g < c) {n : ℕ} {y : V}
    (hy : t (probe g n c) = some y)
    (hcross : rank (home (key y)) g c < rank (home (key y)) (probe g n c) c) :
    CrossBelow c home key (probe g n c) (key y)
      (Function.update (Function.update t g (some y)) (probe g n c) none) := by
  intro s hs v hv hr
  have hsn : s ≠ probe g n c := by
    rintro rfl
    exact lt_irrefl _ hr
  rw [Function.update_of_ne hsn] at hv
  by_cases hsg : s = g
  · subst hsg
    rw [Function.update_self] at hv
    cases hv
    omega
  · rw [Function.update_of_ne hsg] at hv
    rcases h.2 s hs v hv _ hr with he | ⟨w, hw, hlt⟩
    · rw [probe_rank hc (probe_lt hc _ _)] at he
      rw [he] at hcross
      omega
    · rw [probe_rank hc (probe_lt hc _ _), hy] at hw
      cases hw
      exact hlt

theorem Holed.stored_move (h : Holed c home key g t) (hc : 0 < c) (hg : g < c) {n : ℕ} {y : V}
    (hy : t (probe g n c) = some y)
    (hu : ∀ s < c, t s = some y → s = probe g n c) (x : V) :
    Stored c (Function.update (Function.update t g (some y)) (probe g n c) none) x ↔
      Stored c t x := by
  have hgn : g ≠ probe g n c := by
    intro he
    rw [← he, h.1] at hy
    cases hy
  constructor
  · rintro ⟨s, hs, hx⟩
    by_cases hsn : s = probe g n c
    · rw [hsn, Function.update_self] at hx
      cases hx
    rw [Function.update_of_ne hsn] at hx
    by_cases hsg : s = g
    · rw [hsg, Function.update_self] at hx
      cases hx
      exact ⟨_, probe_lt hc _ _, hy⟩
    · rw [Function.update_of_ne hsg] at hx
      exact ⟨s, hs, hx⟩
  · rintro ⟨s, hs, hx⟩
    by_cases hsn : s = probe g n c
    · rw [hsn, hy] at hx
      cases hx
      exact ⟨g, hg, by rw [Function.update_of_ne hgn, Function.update_self]⟩
    · refine ⟨s, hs, ?_⟩
      rw [Function.update_of_ne hsn, Function.update_of_ne, hx]
      rintro rfl
      rw [h.1] at hx
      cases hx

variable (c key) in
/-- The slots whose key lies below a bound: the measure that bounds a chain of moves. -/
noncomputable def below (t : ℕ → Option V) (b : K) : Finset ℕ := by
  classical
  exact (Finset.range c).filter (fun s ↦ ∃ v, t s = some v ∧ key v < b)

theorem mem_below {b : K} {s : ℕ} :
    s ∈ below c key t b ↔ s < c ∧ ∃ v, t s = some v ∧ key v < b := by
  classical
  simp [below]

theorem card_below_move (key : V → K) (g : ℕ) {b : K} (hc : 0 < c) {n : ℕ} {y : V} (hy : t (probe g n c) = some y)
    (hb : key y < b) :
    (below c key (Function.update (Function.update t g (some y)) (probe g n c) none) (key y)).card <
      (below c key t b).card := by
  apply Finset.card_lt_card
  refine ⟨fun s hs ↦ ?_, fun hsub ↦ ?_⟩
  · obtain ⟨hsc, v, hv, hlt⟩ := mem_below.mp hs
    have hsn : s ≠ probe g n c := by
      rintro rfl
      rw [Function.update_self] at hv
      cases hv
    rw [Function.update_of_ne hsn] at hv
    have hsg : s ≠ g := by
      rintro rfl
      rw [Function.update_self] at hv
      cases hv
      exact lt_irrefl _ hlt
    rw [Function.update_of_ne hsg] at hv
    exact mem_below.mpr ⟨hsc, v, hv, hlt.trans hb⟩
  · obtain ⟨_, v, hv, _⟩ := mem_below.mp (hsub (mem_below.mpr ⟨probe_lt hc g n, y, hy, hb⟩))
    rw [Function.update_self] at hv
    cases hv

theorem card_below_lt {b : K} (hg : g < c) (hfree : t g = none) :
    (below c key t b).card < c := by
  have hsub : below c key t b ⊆ (Finset.range c).erase g := by
    intro s hs
    obtain ⟨hsc, v, hv, _⟩ := mem_below.mp hs
    refine Finset.mem_erase.mpr ⟨?_, Finset.mem_range.mpr hsc⟩
    rintro rfl
    rw [hfree] at hv
    cases hv
  have hle := Finset.card_le_card hsub
  rw [Finset.card_erase_of_mem (Finset.mem_range.mpr hg), Finset.card_range] at hle
  omega

end Salt.Library.GapClosing
