import Salt.Library.OrderedTable
import Mathlib.Data.Finset.Card
import Mathlib.Data.List.Basic

namespace Salt.Library.GreedyLayout

open ProbeRing OrderedTable

variable {K V : Type*} [LinearOrder K] (c : ℕ) (home : K → ℕ) (key : V → K)

def place (t : ℕ → Option V) (v : V) : ℕ → Option V :=
  match (List.range c).find? (fun i ↦ (t (probe (home (key v)) i c)).isNone) with
  | some i => Function.update t (probe (home (key v)) i c) (some v)
  | none => t

def greedy (l : List V) : ℕ → Option V := l.foldl (place c home key) (fun _ ↦ none)

def occupied (t : ℕ → Option V) : Finset ℕ := (Finset.range c).filter (fun s ↦ (t s).isSome)

variable {c home key} {t : ℕ → Option V}

theorem mem_occupied {s : ℕ} : s ∈ occupied c t ↔ s < c ∧ (t s).isSome := by simp [occupied]

theorem occupied_update_some {s : ℕ} {v : V} (hs : s < c) :
    occupied c (Function.update t s (some v)) = insert s (occupied c t) := by
  ext a
  simp only [Finset.mem_insert, mem_occupied]
  by_cases ha : a = s
  · subst ha
    simp [hs]
  · simp [ha]

theorem occupied_update_none {s : ℕ} :
    occupied c (Function.update t s none) = (occupied c t).erase s := by
  ext a
  simp only [Finset.mem_erase, mem_occupied]
  by_cases ha : a = s
  · subst ha
    simp
  · simp [ha]

omit [LinearOrder K] in
/-- A slot is free as long as fewer than `c` slots are occupied, and every probe sequence meets it. -/
theorem exists_free (home : K → ℕ) (hc : 0 < c) (h : (occupied c t).card < c) (k : K) :
    ∃ i < c, t (probe (home k) i c) = none := by
  by_contra hn
  simp only [not_exists, not_and] at hn
  have hall : Finset.range c ⊆ occupied c t := by
    intro s hs
    have hs' := Finset.mem_range.mp hs
    have hne := hn _ (rank_lt (h := home k) hc hs')
    rw [probe_rank hc hs'] at hne
    exact mem_occupied.mpr ⟨hs', Option.isSome_iff_ne_none.mpr hne⟩
  have := Finset.card_le_card hall
  rw [Finset.card_range] at this
  omega

/-- Placing an entry below all stored keys on a ring with room. -/
theorem place_spec (ho : Ordered c home key t) (hc : 0 < c) (h : (occupied c t).card < c) {v : V}
    (hlt : ∀ w, Stored c t w → key v < key w) :
    Ordered c home key (place c home key t v) ∧
      (∀ x, Stored c (place c home key t v) x ↔ x = v ∨ Stored c t x) ∧
      (occupied c (place c home key t v)).card = (occupied c t).card + 1 := by
  obtain ⟨j, hj, hfj⟩ := exists_free home hc h (key v)
  unfold place
  cases hf : (List.range c).find? (fun i ↦ (t (probe (home (key v)) i c)).isNone) with
  | none =>
    have := List.find?_eq_none.mp hf j (List.mem_range.mpr hj)
    simp [hfj] at this
  | some n =>
    obtain ⟨hfree, as, bs, hl, has⟩ := List.find?_eq_some_iff_append.mp hf
    rw [Option.isNone_iff_eq_none] at hfree
    have hcov : Covered c home key t (key v) n := by
      intro i hi
      have hlen : as.length = n ∧ n < c := by
        have hlen : as.length < c := by
          have := congrArg List.length hl
          simp only [List.length_range, List.length_append, List.length_cons] at this
          omega
        have hget : (List.range c)[as.length]? = some n := by rw [hl]; simp
        rw [List.getElem?_range hlen] at hget
        cases hget
        exact ⟨rfl, hlen⟩
      have hi' : i ∈ as := by
        have hget : (List.range c)[i]? = some i := List.getElem?_range (by omega)
        rw [hl, List.getElem?_append_left (by omega)] at hget
        exact List.mem_of_getElem? hget
      have hb := has i hi'
      simp only [Bool.not_eq_true', Option.isNone_eq_false_iff, Option.isSome_iff_exists] at hb
      obtain ⟨w, hw⟩ := hb
      exact ⟨w, hw, hlt w ⟨_, probe_lt hc _ _, hw⟩⟩
    have hs := probe_lt hc (home (key v)) n
    refine ⟨ho.place hc hcov hfree, stored_update_free hs hfree, ?_⟩
    rw [occupied_update_some hs, Finset.card_insert_of_notMem]
    rw [mem_occupied, hfree]
    simp

theorem foldl_place_spec (home : K → ℕ) (hc : 0 < c) (l : List V) (t : ℕ → Option V) (ho : Ordered c home key t)
    (hl : l.Pairwise (fun v w ↦ key w < key v)) (hlen : (occupied c t).card + l.length ≤ c)
    (hlt : ∀ w, Stored c t w → ∀ v ∈ l, key v < key w) :
    Ordered c home key (l.foldl (place c home key) t) ∧
      (∀ x, Stored c (l.foldl (place c home key) t) x ↔ x ∈ l ∨ Stored c t x) ∧
      (occupied c (l.foldl (place c home key) t)).card = (occupied c t).card + l.length := by
  induction l generalizing t with
  | nil => exact ⟨ho, by simp, by simp⟩
  | cons v l ih =>
    obtain ⟨hv, hl⟩ := List.pairwise_cons.mp hl
    rw [List.length_cons] at hlen
    obtain ⟨h₁, h₂, h₃⟩ := place_spec ho hc (by omega)
      (fun w hw ↦ hlt w hw v (List.mem_cons_self ..))
    have hlt' : ∀ w, Stored c (place c home key t v) w → ∀ x ∈ l, key x < key w := by
      intro w hw x hx
      rcases (h₂ w).mp hw with rfl | hw
      · exact hv x hx
      · exact hlt w hw x (List.mem_cons_of_mem _ hx)
    obtain ⟨i₁, i₂, i₃⟩ := ih _ h₁ hl (by omega) hlt'
    refine ⟨i₁, fun x ↦ ?_, ?_⟩
    · rw [List.foldl_cons, i₂, h₂, List.mem_cons]
      tauto
    · rw [List.foldl_cons, i₃, h₃, List.length_cons]
      omega

theorem occupied_empty : occupied c (fun _ ↦ (none : Option V)) = ∅ := by
  ext s
  simp [mem_occupied]

theorem not_stored_empty (v : V) : ¬ Stored c (fun _ ↦ none) v := by
  rintro ⟨s, _, hv⟩
  cases hv

/-- Placing distinct keys in descending order on a large enough ring gives the ordered layout of
exactly these entries. -/
theorem greedy_spec (home : K → ℕ) (key : V → K) (hc : 0 < c) {l : List V} (hl : l.Pairwise (fun v w ↦ key w < key v))
    (hlen : l.length ≤ c) :
    Ordered c home key (greedy c home key l) ∧ (∀ x, Stored c (greedy c home key l) x ↔ x ∈ l) ∧
      (occupied c (greedy c home key l)).card = l.length := by
  obtain ⟨h₁, h₂, h₃⟩ := foldl_place_spec home hc l (fun _ ↦ none) ordered_empty hl
    (by simpa [occupied_empty] using hlen) (fun w hw ↦ absurd hw (not_stored_empty w))
  refine ⟨h₁, fun x ↦ ?_, ?_⟩
  · rw [greedy, h₂]
    simp [not_stored_empty]
  · rw [greedy, h₃]
    simp [occupied_empty]

/-- An ordered table is the greedy layout of its entries in descending key order. -/
theorem eq_greedy (ho : Ordered c home key t) (hc : 0 < c) {l : List V}
    (hl : l.Pairwise (fun v w ↦ key w < key v)) (hlen : l.length ≤ c)
    (hmem : ∀ x, Stored c t x ↔ x ∈ l) : ∀ s < c, t s = greedy c home key l s := by
  obtain ⟨h₁, h₂, _⟩ := greedy_spec home key hc hl hlen
  exact ho.canonical h₁ hc (fun x ↦ (hmem x).trans (h₂ x).symm)

omit [LinearOrder K] in
theorem place_outside (hc : 0 < c) (v : V) {s : ℕ} (hs : c ≤ s) :
    place c home key t v s = t s := by
  unfold place
  cases (List.range c).find? (fun i ↦ (t (probe (home (key v)) i c)).isNone) with
  | none => rfl
  | some i =>
    have := probe_lt hc (home (key v)) i
    exact Function.update_of_ne (by omega) ..

omit [LinearOrder K] in
theorem greedy_outside (hc : 0 < c) (l : List V) {s : ℕ} (hs : c ≤ s) :
    greedy c home key l s = none := by
  suffices ∀ t : ℕ → Option V, l.foldl (place c home key) t s = t s from this _
  induction l with
  | nil => exact fun t ↦ rfl
  | cons v l ih =>
    intro t
    rw [List.foldl_cons, ih, place_outside hc v hs]

theorem Ordered.injOn_occupied (ho : Ordered c home key t) (hc : 0 < c) :
    Set.InjOn t (occupied c t) := by
  intro s hs s' hs' he
  obtain ⟨hsc, hsome⟩ := mem_occupied.mp hs
  obtain ⟨v, hv⟩ := Option.isSome_iff_exists.mp hsome
  exact ho.slot_unique hc hsc (mem_occupied.mp hs').1 hv (he ▸ hv) rfl

theorem mem_image_occupied [DecidableEq V] {x : Option V} :
    x ∈ (occupied c t).image t ↔ ∃ v, x = some v ∧ Stored c t v := by
  simp only [Finset.mem_image, mem_occupied]
  constructor
  · rintro ⟨s, ⟨hs, hsome⟩, rfl⟩
    obtain ⟨v, hv⟩ := Option.isSome_iff_exists.mp hsome
    exact ⟨v, hv, s, hs, hv⟩
  · rintro ⟨v, rfl, s, hs, hv⟩
    exact ⟨s, ⟨hs, by simp [hv]⟩, hv⟩

theorem card_occupied_mono {c' : ℕ} {home' : K → ℕ} {t' : ℕ → Option V} (ho : Ordered c home key t)
    (hc : 0 < c) (ho' : Ordered c' home' key t') (hc' : 0 < c')
    (h : ∀ v, Stored c t v → Stored c' t' v) : (occupied c t).card ≤ (occupied c' t').card := by
  classical
  rw [← Finset.card_image_of_injOn (Ordered.injOn_occupied ho hc),
    ← Finset.card_image_of_injOn (Ordered.injOn_occupied ho' hc')]
  refine Finset.card_le_card fun x hx ↦ ?_
  obtain ⟨v, hv, hst⟩ := mem_image_occupied.mp hx
  exact mem_image_occupied.mpr ⟨v, hv, h v hst⟩

/-- Ordered tables with the same entries have the same number of occupied slots. -/
theorem card_occupied_eq {c' : ℕ} {home' : K → ℕ} {t' : ℕ → Option V} (ho : Ordered c home key t)
    (hc : 0 < c) (ho' : Ordered c' home' key t') (hc' : 0 < c')
    (h : ∀ v, Stored c t v ↔ Stored c' t' v) : (occupied c t).card = (occupied c' t').card :=
  le_antisymm (card_occupied_mono ho hc ho' hc' fun v ↦ (h v).mp)
    (card_occupied_mono ho' hc' ho hc fun v ↦ (h v).mpr)

theorem card_occupied_of_list (ho : Ordered c home key t) (hc : 0 < c) {l : List V}
    (hl : l.Pairwise (fun v w ↦ key w < key v)) (hmem : ∀ x, Stored c t x ↔ x ∈ l) :
    (occupied c t).card = l.length := by
  classical
  have hnd : l.Nodup := hl.imp fun {v w} hlt (he : v = w) ↦ lt_irrefl _ (he ▸ hlt)
  have himage : (occupied c t).image t = l.toFinset.image some := by
    ext x
    rw [mem_image_occupied, Finset.mem_image]
    refine exists_congr fun v ↦ ?_
    rw [hmem, List.mem_toFinset, and_comm, eq_comm]
  rw [← Finset.card_image_of_injOn (Ordered.injOn_occupied ho hc), himage,
    Finset.card_image_of_injective _ (Option.some_injective V), List.toFinset_card_of_nodup hnd]

end Salt.Library.GreedyLayout
