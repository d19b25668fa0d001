import Salt.Library.GapClosing
import Salt.Library.GreedyLayout

namespace Salt.Library.OrderedProbing

open ProbeRing OrderedTable GapClosing GreedyLayout

variable {K V : Type*} [LinearOrder K] (c : ℕ) (home : K → ℕ) (key : V → K)

def searchLoop (t : ℕ → Option V) (k : K) (hashed : ℕ) : ℕ → ℕ → Option (ℕ × V)
  | 0, _ => none
  | n + 1, step =>
    match t (probe hashed step c) with
    | some v =>
      if key v < k then none
      else if key v = k then some (probe hashed step c, v)
      else searchLoop t k hashed n (step + 1)
    | none => none

inductive Outcome (V : Type*)
  | updated
  | inserted
  | exhausted (displaced : V)

/-- Carries an entry along a probe sequence, displacing smaller keys. -/
def insertLoop (hashed : ℕ) : ℕ → ℕ → V → (ℕ → Option V) → Outcome V × (ℕ → Option V)
  | 0, _, v, t => (.exhausted v, t)
  | n + 1, step, v, t =>
    match t (probe hashed step c) with
    | some o =>
      if key o = key v then (.updated, Function.update t (probe hashed step c) (some v))
      else if key o < key v then
        insertLoop hashed n (step + 1) o (Function.update t (probe hashed step c) (some v))
      else insertLoop hashed n (step + 1) v t
    | none => (.inserted, Function.update t (probe hashed step c) (some v))

/-- The first entry after slot `g` whose probe path crosses `g`. -/
def nextLoop (t : ℕ → Option V) (g : ℕ) : ℕ → ℕ → Option (ℕ × V)
  | 0, _ => none
  | n + 1, i =>
    match t (probe g i c) with
    | some v =>
      if rank (home (key v)) (probe g i c) c > rank (home (key v)) g c then some (probe g i c, v)
      else nextLoop t g n (i + 1)
    | none => none

def deleteLoop : ℕ → ℕ → (ℕ → Option V) → Option (ℕ → Option V)
  | 0, _, _ => none
  | n + 1, g, t =>
    match nextLoop c home key t g (c - 1) 1 with
    | some (s, y) => deleteLoop n s (Function.update t g (some y))
    | none => some (Function.update t g none)

variable {c home key} {t t' : ℕ → Option V}

section Search

variable {k : K}

theorem searchLoop_some {n step s : ℕ} {v : V} {hashed : ℕ} (hc : 0 < c)
    (h : searchLoop c key t k hashed n step = some (s, v)) : s < c ∧ t s = some v ∧ key v = k := by
  induction n generalizing step with
  | zero => cases h
  | succ n ih =>
    rw [searchLoop] at h
    split at h
    · rename_i w hw
      split at h
      · cases h
      · split at h
        · cases h
          exact ⟨probe_lt hc _ _, hw, by assumption⟩
        · exact ih h
    · cases h

theorem searchLoop_none (ho : Ordered c home key t) (hc : 0 < c) {n step : ℕ} (hn : n + step = c)
    (hpast : ∀ i < step, ∃ w, t (probe (home k) i c) = some w ∧ k < key w)
    (h : searchLoop c key t k (home k) n step = none) : ∀ v, Stored c t v → key v ≠ k := by
  induction n generalizing step with
  | zero =>
    rintro v ⟨s, hs, hv⟩ rfl
    obtain ⟨w, hw, hlt⟩ := hpast (rank (home (key v)) s c) (by
      have := rank_lt (h := home (key v)) hc hs
      omega)
    rw [probe_rank hc hs, hv] at hw
    cases hw
    exact lt_irrefl _ hlt
  | succ n ih =>
    -- the slot where the scan stops early lies on the path of a stored key, or is its own slot
    have hstop : (∀ w, t (probe (home k) step c) = some w → key w < k) →
        ∀ v, Stored c t v → key v ≠ k := by
      rintro hbad v ⟨s, hs, hv⟩ rfl
      rcases Nat.lt_trichotomy (rank (home (key v)) s c) step with hr | hr | hr
      · obtain ⟨w, hw, hlt⟩ := hpast _ hr
        rw [probe_rank hc hs, hv] at hw
        cases hw
        exact lt_irrefl _ hlt
      · rw [← hr, probe_rank hc hs] at hbad
        exact lt_irrefl _ (hbad v hv)
      · obtain ⟨w, hw, hlt⟩ := ho.scan hs hv hr
        exact lt_asymm hlt (hbad w hw)
    rw [searchLoop] at h
    split at h
    · rename_i w hw
      split at h
      · rename_i hlt
        exact hstop fun x hx ↦ by
          rw [hw] at hx
          cases hx
          exact hlt
      · split at h
        · cases h
        · rename_i hnlt hne
          refine ih (by omega) (fun i hi ↦ ?_) h
          rcases Nat.lt_succ_iff_lt_or_eq.mp hi with hi | rfl
          · exact hpast i hi
          · exact ⟨w, hw, lt_of_le_of_ne (not_lt.mp hnlt) (Ne.symm hne)⟩
    · rename_i hnone
      exact hstop fun x hx ↦ by
        rw [hnone] at hx
        cases hx

theorem search_spec (ho : Ordered c home key t) (hc : 0 < c) (k : K) :
    match searchLoop c key t k (home k) c 0 with
    | some (s, v) => s < c ∧ t s = some v ∧ key v = k
    | none => ∀ v, Stored c t v → key v ≠ k := by
  cases h : searchLoop c key t k (home k) c 0 with
  | some r => exact searchLoop_some hc h
  | none => exact searchLoop_none ho hc (by omega) (fun i hi ↦ absurd hi (Nat.not_lt_zero i)) h

end Search

section Insert

variable (c home key) in
structure InsertPost (t : ℕ → Option V) (v : V) (r : Outcome V × (ℕ → Option V)) : Prop where
  ordered : Ordered c home key r.2
  outside : ∀ s, c ≤ s → r.2 s = t s
  outcome : match r.1 with
    | .updated => (∃ o, Stored c t o ∧ key o = key v) ∧
        (∀ x, Stored c r.2 x ↔ x = v ∨ Stored c t x ∧ key x ≠ key v) ∧
        (occupied c r.2).card = (occupied c t).card
    | .inserted => (∀ x, Stored c t x → key x ≠ key v) ∧
        (∀ x, Stored c r.2 x ↔ x = v ∨ Stored c t x) ∧
        (occupied c r.2).card = (occupied c t).card + 1
    | .exhausted d => (∀ x, Stored c t x → key x ≠ key v) ∧
        (∀ x, x = d ∨ Stored c r.2 x ↔ x = v ∨ Stored c t x) ∧
        (∀ x, Stored c r.2 x → key x ≠ key d) ∧
        (occupied c r.2).card = c ∧ (occupied c t).card = c

variable {v o : V} {s : ℕ}

theorem card_occupied_replace (hs : s < c) (ho : t s = some o) :
    (occupied c (Function.update t s (some v))).card = (occupied c t).card := by
  rw [occupied_update_some hs, Finset.insert_eq_of_mem (mem_occupied.mpr ⟨hs, by simp [ho]⟩)]

theorem InsertPost.of_evict (h : Ordered c home key t) (hc : 0 < c) (hs : s < c) (ho : t s = some o)
    (hlt : key o < key v) (hfresh : ∀ x, Stored c t x → key x ≠ key v)
    {r : Outcome V × (ℕ → Option V)}
    (hr : InsertPost c home key (Function.update t s (some v)) o r) :
    InsertPost c home key t v r := by
  have hst := h.stored_update (v := v) hc hs ho
  have hcard := card_occupied_replace (v := v) hs ho
  have hold : Stored c t o := ⟨s, hs, ho⟩
  have huniq : ∀ x, Stored c t x → (x = o ↔ key x = key o) := fun x hx ↦
    ⟨fun he ↦ he ▸ rfl, fun hk ↦ h.value_unique hc hx hold hk⟩
  have hone : ∀ x, Stored c (Function.update t s (some v)) x → key x ≠ key o := by
    intro x hx
    rcases (hst x).mp hx with rfl | ⟨_, hne⟩
    · exact ne_of_gt hlt
    · exact hne
  -- the entries with `o` carried along are the entries with `v` added
  have hadd : ∀ x, x = o ∨ Stored c (Function.update t s (some v)) x ↔ x = v ∨ Stored c t x := by
    intro x
    rw [hst]
    constructor
    · rintro (rfl | hx | ⟨hx, _⟩)
      · exact .inr hold
      · exact .inl hx
      · exact .inr hx
    · rintro (hx | hx)
      · exact .inr (.inl hx)
      · by_cases hk : key x = key o
        · exact .inl ((huniq x hx).mpr hk)
        · exact .inr (.inr ⟨hx, hk⟩)
  refine ⟨hr.ordered, fun a ha ↦ ?_, ?_⟩
  · rw [hr.outside a ha, Function.update_of_ne (by omega)]
  · have hout := hr.outcome
    cases hr1 : r.1 with
    | updated =>
      rw [hr1] at hout
      obtain ⟨x, hx, hk⟩ := hout.1
      exact absurd hk (hone x hx)
    | inserted =>
      rw [hr1] at hout
      exact ⟨hfresh, fun x ↦ (hout.2.1 x).trans (hadd x), by rw [hout.2.2, hcard]⟩
    | exhausted d =>
      rw [hr1] at hout
      exact ⟨hfresh, fun x ↦ (hout.2.1 x).trans (hadd x), hout.2.2.1, hout.2.2.2.1,
        by rw [← hcard, hout.2.2.2.2]⟩

theorem card_occupied_of_full (hc : 0 < c) {hashed : ℕ}
    (hfull : ∀ i < c, t (probe hashed i c) ≠ none) : (occupied c t).card = c := by
  have he : occupied c t = Finset.range c := by
    ext s
    rw [mem_occupied, Finset.mem_range]
    refine ⟨And.left, fun hs ↦ ⟨hs, ?_⟩⟩
    have := hfull _ (rank_lt (h := hashed) hc hs)
    rw [probe_rank hc hs] at this
    exact Option.isSome_iff_ne_none.mpr this
  rw [he, Finset.card_range]

/-- The carried entry is absent from the table, or it is still the first one, at its own distance. -/
def Fresh (c : ℕ) (home : K → ℕ) (key : V → K) (t : ℕ → Option V) (v : V) (hashed r step : ℕ) : Prop :=
  (∀ x, Stored c t x → key x ≠ key v) ∨ (r = step ∧ hashed = home (key v))

theorem Fresh.absent {hashed r step : ℕ} (hf : Fresh c home key t v hashed r step)
    (h : Ordered c home key t) (hc : 0 < c) (hcov : Covered c home key t (key v) r)
    (hbad : ∀ w, t (probe (home (key v)) r c) = some w → key w < key v) :
    ∀ x, Stored c t x → key x ≠ key v := by
  rcases hf with hf | ⟨rfl, _⟩
  · exact hf
  · rintro x ⟨s, hs, hx⟩ hk
    rcases Nat.lt_trichotomy (rank (home (key v)) s c) r with hr | hr | hr
    · obtain ⟨w, hw, hlt⟩ := hcov _ hr
      rw [probe_rank hc hs, hx] at hw
      cases hw
      exact absurd hk (ne_of_gt hlt)
    · rw [← hr, probe_rank hc hs] at hbad
      exact absurd hk (ne_of_lt (hbad x hx))
    · rw [← hk] at hr
      obtain ⟨w, hw, hlt⟩ := h.scan hs hx hr
      rw [hk] at hw hlt
      exact lt_asymm hlt (hbad w hw)

theorem insertLoop_spec (hc : 0 < c) {hashed n step r : ℕ} (hn : n + step = c)
    (h : Ordered c home key t) (hcov : Covered c home key t (key v) r)
    (hp : probe (home (key v)) r c = probe hashed step c)
    (hfull : ∀ i < step, t (probe hashed i c) ≠ none) (hf : Fresh c home key t v hashed r step) :
    InsertPost c home key t v (insertLoop c key hashed n step v t) := by
  induction n generalizing step r v t with
  | zero =>
    have hstep : step = c := by omega
    have hcard := card_occupied_of_full hc (hstep ▸ hfull)
    have habs : ∀ x, Stored c t x → key x ≠ key v := by
      rcases hf with hf | ⟨rfl, _⟩
      · exact hf
      · rintro x ⟨s, hs, hx⟩ hk
        obtain ⟨w, hw, hlt⟩ := hcov (rank (home (key v)) s c) (by
          have := rank_lt (h := home (key v)) hc hs
          omega)
        rw [probe_rank hc hs, hx] at hw
        cases hw
        exact absurd hk (ne_of_gt hlt)
    exact ⟨h, fun s _ ↦ rfl, habs, fun x ↦ Iff.rfl, habs, hcard, hcard⟩
  | succ n ih =>
    have hs := probe_lt hc hashed step
    rw [insertLoop]
    cases ho : t (probe hashed step c) with
    | none =>
      have habs := hf.absent h hc hcov (by rw [hp, ho]; intro w hw; cases hw)
      have hplace := h.place hc hcov (by rw [hp, ho])
      rw [hp] at hplace
      refine ⟨hplace, fun a ha ↦ Function.update_of_ne (by omega) .., habs,
        stored_update_free hs ho, ?_⟩
      rw [occupied_update_some hs, Finset.card_insert_of_notMem]
      rw [mem_occupied, ho]
      simp
    | some o =>
      simp only
      split
      · rename_i hk
        refine ⟨h.update_same hs ho hk.symm, fun a ha ↦ Function.update_of_ne (by omega) ..,
          ⟨o, ⟨_, hs, ho⟩, hk⟩, ?_, card_occupied_replace hs ho⟩
        rw [← hk]
        exact h.stored_update hc hs ho
      · split
        · rename_i hk hlt
          have habs := hf.absent h hc hcov (by
            rw [hp, ho]
            intro w hw
            cases hw
            exact hlt)
          have hord := h.evict hc hcov (by rw [hp, ho]) hlt
          rw [hp] at hord
          refine .of_evict h hc hs ho hlt habs (ih (by omega) hord (h.evicted hc hs ho hlt) ?_ ?_ ?_)
          · rw [← probe_probe, probe_rank hc hs, probe_probe]
          · intro i hi
            by_cases he : probe hashed i c = probe hashed step c
            · rw [he, Function.update_self]
              exact Option.some_ne_none v
            · rw [Function.update_of_ne he]
              refine hfull i (lt_of_le_of_ne (Nat.lt_succ_iff.mp hi) ?_)
              rintro rfl
              exact he rfl
          · refine .inl fun x hx ↦ ?_
            rcases (h.stored_update hc hs ho x).mp hx with rfl | ⟨_, hne⟩
            · exact ne_of_gt hlt
            · exact hne
        · rename_i hk hnlt
          have hlt : key v < key o := lt_of_le_of_ne (not_lt.mp hnlt) (Ne.symm hk)
          refine ih (by omega) h (hcov.succ (by rw [hp, ho]) hlt) ?_ ?_ ?_
          · rw [← probe_probe, hp, probe_probe]
          · intro i hi
            rcases Nat.lt_succ_iff_lt_or_eq.mp hi with hi | rfl
            · exact hfull i hi
            · rw [ho]
              exact Option.some_ne_none o
          · rcases hf with hf | ⟨rfl, hh⟩
            · exact .inl hf
            · exact .inr ⟨rfl, hh⟩

/-- Inserting into an ordered table from the home slot of the key. -/
theorem insert_spec (h : Ordered c home key t) (hc : 0 < c) (v : V) :
    InsertPost c home key t v (insertLoop c key (home (key v)) c 0 v t) :=
  insertLoop_spec hc (Nat.add_zero c) h (fun i hi ↦ absurd hi (Nat.not_lt_zero i)) rfl
    (fun i hi ↦ absurd hi (Nat.not_lt_zero i)) (.inr ⟨rfl, rfl⟩)

end Insert

section Delete

variable {g : ℕ}

theorem probe_ne_self (hg : g < c) {i : ℕ} (hi : 0 < i) (hic : i < c) : probe g i c ≠ g := by
  intro he
  have h₁ := rank_probe (h := g) hic
  have h₂ := rank_probe (h := g) (i := 0) (c := c) (by omega)
  rw [probe_zero_of_lt hg] at h₂
  rw [he] at h₁
  omega

def Passed (c : ℕ) (home : K → ℕ) (key : V → K) (t : ℕ → Option V) (g m : ℕ) : Prop :=
  ∀ i, 0 < i → i < m → ∃ w, t (probe g i c) = some w ∧
    rank (home (key w)) (probe g i c) c ≤ rank (home (key w)) g c

omit [LinearOrder K] in
theorem nextLoop_spec (home : K → ℕ) (key : V → K) (t : ℕ → Option V) (g : ℕ) {n i : ℕ} (hn : n + i = c) (hi : 0 < i)
    (hpast : Passed c home key t g i) :
    match nextLoop c home key t g n i with
    | some (s, y) => ∃ m, 0 < m ∧ m < c ∧ s = probe g m c ∧ t s = some y ∧
        rank (home (key y)) g c < rank (home (key y)) s c ∧ Passed c home key t g m
    | none => ∃ m, 0 < m ∧ (m < c → t (probe g m c) = none) ∧ Passed c home key t g m := by
  induction n generalizing i with
  | zero => exact ⟨i, hi, fun h ↦ by omega, hpast⟩
  | succ n ih =>
    rw [nextLoop]
    cases ht : t (probe g i c) with
    | none => exact ⟨i, hi, fun _ ↦ ht, hpast⟩
    | some v =>
      simp only
      by_cases hle : rank (home (key v)) (probe g i c) c > rank (home (key v)) g c
      · rw [if_pos hle]
        exact ⟨i, hi, by omega, rfl, ht, hle, hpast⟩
      · rw [if_neg hle]
        refine ih (by omega) (by omega) fun j hj hji ↦ ?_
        rcases Nat.lt_succ_iff_lt_or_eq.mp hji with hji | rfl
        · exact hpast j hj hji
        · exact ⟨v, ht, not_lt.mp hle⟩

def KeysInjective (c : ℕ) (key : V → K) (t : ℕ → Option V) : Prop :=
  ∀ s < c, ∀ s' < c, ∀ v v', t s = some v → t s' = some v' → key v = key v' → s = s'

omit [LinearOrder K] in
theorem KeysInjective.move (h : KeysInjective c key t) {s : ℕ} {y : V} (hs : s < c)
    (hy : t s = some y) :
    KeysInjective c key (Function.update (Function.update t g (some y)) s none) := by
  -- every entry of the new table comes from a slot of the old one, and `y` from slot `s`
  have hback : ∀ a < c, ∀ v, Function.update (Function.update t g (some y)) s none a = some v →
      a ≠ s ∧ (a = g ∧ v = y ∨ a ≠ g ∧ t a = some v) := by
    intro a _ v hv
    by_cases has : a = s
    · rw [has, Function.update_self] at hv
      cases hv
    · rw [Function.update_of_ne has] at hv
      by_cases hag : a = g
      · rw [hag, Function.update_self] at hv
        exact ⟨has, .inl ⟨hag, (Option.some.inj hv).symm⟩⟩
      · rw [Function.update_of_ne hag] at hv
        exact ⟨has, .inr ⟨hag, hv⟩⟩
  intro a ha a' ha' v v' hv hv' hk
  obtain ⟨has, ⟨rfl, rfl⟩ | ⟨hag, hta⟩⟩ := hback a ha v hv
  · obtain ⟨has', ⟨rfl, rfl⟩ | ⟨hag', hta'⟩⟩ := hback a' ha' v' hv'
    · rfl
    · exact absurd (h a' ha' s hs v' v hta' hy hk.symm) has'
  · obtain ⟨has', ⟨rfl, rfl⟩ | ⟨hag', hta'⟩⟩ := hback a' ha' v' hv'
    · exact absurd (h a ha s hs v v' hta hy hk) has
    · exact h a ha a' ha' v v' hta hta' hk

theorem card_occupied_move (hg : g < c) (hfree : t g = none) {s : ℕ} {y : V} (hs : s < c)
    (hy : t s = some y) :
    (occupied c (Function.update (Function.update t g (some y)) s none)).card =
      (occupied c t).card := by
  have hm : s ∈ insert g (occupied c t) :=
    Finset.mem_insert_of_mem (mem_occupied.mpr ⟨hs, by simp [hy]⟩)
  rw [occupied_update_none, occupied_update_some hg, Finset.card_erase_of_mem hm,
    Finset.card_insert_of_notMem (by simp [mem_occupied, hfree])]
  omega

/-- One round after another, the hole moves on until no path crosses it. -/
theorem deleteLoop_spec (hc : 0 < c) {n : ℕ} {d : V} (hg : g < c) (hd : t g = some d)
    (hh : Holed c home key g (Function.update t g none))
    (hb : CrossBelow c home key g (key d) (Function.update t g none))
    (hinj : KeysInjective c key (Function.update t g none))
    (hn : (below c key (Function.update t g none) (key d)).card < n) :
    ∃ t', deleteLoop c home key n g t = some t' ∧ Ordered c home key t' ∧
      (∀ x, Stored c t' x ↔ Stored c (Function.update t g none) x) ∧
      (occupied c t').card = (occupied c (Function.update t g none)).card ∧
      ∀ s, c ≤ s → t' s = t s := by
  induction n generalizing g d t with
  | zero => omega
  | succ n ih =>
    have hsame : ∀ i, 0 < i → i < c → Function.update t g none (probe g i c) = t (probe g i c) :=
      fun i hi hic ↦ Function.update_of_ne (probe_ne_self hg hi hic) ..
    rw [deleteLoop]
    have hnext := nextLoop_spec home key t g
      (show c - 1 + 1 = c by omega) Nat.one_pos (fun i hi hi' ↦ by omega)
    cases hres : nextLoop c home key t g (c - 1) 1 with
    | none =>
      rw [hres] at hnext
      obtain ⟨m, hm, hstop, hpass⟩ := hnext
      refine ⟨_, rfl, hh.close hc hg hm (fun i hi him hic ↦ ?_) (fun hmc ↦ ?_), fun x ↦ Iff.rfl, rfl,
        fun s hs ↦ Function.update_of_ne (by omega) ..⟩
      · rw [hsame i hi hic]
        exact hpass i hi him
      · rw [hsame m hm hmc]
        exact hstop hmc
    | some r =>
      obtain ⟨s, y⟩ := r
      rw [hres] at hnext
      obtain ⟨m, hm, hmc, rfl, hy, hcross, hpass⟩ := hnext
      have hs := probe_lt hc g m
      have hy' : Function.update t g none (probe g m c) = some y := by rw [hsame m hm hmc, hy]
      have hne := probe_ne_self hg hm hmc
      have heq : Function.update (Function.update t g (some y)) (probe g m c) none =
          Function.update (Function.update (Function.update t g none) g (some y))
            (probe g m c) none := by rw [Function.update_idem]
      have hyd : key y < key d := hb _ hs y hy' hcross
      obtain ⟨t', h₁, h₂, h₃, h₄, h₅⟩ := ih (t := Function.update t g (some y)) (d := y) hs
        (by rw [Function.update_of_ne hne, hy])
        (by
          rw [heq]
          exact hh.move hc hg hm hy' hcross fun i hi him ↦ by
            rw [hsame i hi (by omega)]
            exact hpass i hi him)
        (by rw [heq]; exact .move hh hc hg hy' hcross)
        (by rw [heq]; exact hinj.move hs hy')
        (by
          have := card_below_move key g hc hy' hyd
          rw [heq]
          omega)
      refine ⟨t', h₁, h₂, fun x ↦ ?_, ?_, fun a ha ↦ ?_⟩
      · rw [h₃, heq]
        exact hh.stored_move hc hg hy' (fun a ha hya ↦ hinj a ha _ hs y y hya hy' rfl) x
      · rw [h₄, heq, card_occupied_move hg hh.1 hs hy']
      · rw [h₅ a ha, Function.update_of_ne (by omega)]

theorem delete_spec (h : Ordered c home key t) (hc : 0 < c) {n : ℕ} (hn : c ≤ n) {d : V} (hg : g < c)
    (hd : t g = some d) :
    ∃ t', deleteLoop c home key n g t = some t' ∧ Ordered c home key t' ∧
      (∀ x, Stored c t' x ↔ Stored c t x ∧ key x ≠ key d) ∧
      (occupied c t').card + 1 = (occupied c t).card ∧ ∀ s, c ≤ s → t' s = t s := by
  have hinj : KeysInjective c key (Function.update t g none) := by
    intro s hs s' hs' v v' hv hv' hk
    have hback : ∀ {a : ℕ} {x : V}, Function.update t g none a = some x → t a = some x := by
      intro a x hx
      by_cases ha : a = g
      · rw [ha, Function.update_self] at hx
        cases hx
      · rwa [Function.update_of_ne ha] at hx
    exact h.slot_unique hc hs hs' (hback hv) (hback hv') hk
  obtain ⟨t', h₁, h₂, h₃, h₄, h₅⟩ := deleteLoop_spec hc hg hd (holed_of_ordered h g)
    (crossBelow_of_ordered h hc hg hd) hinj
    ((card_below_lt hg (Function.update_self ..)).trans_le hn)
  refine ⟨t', h₁, h₂, fun x ↦ (h₃ x).trans (h.stored_remove hc hg hd x), ?_, h₅⟩
  have hm : g ∈ occupied c t := mem_occupied.mpr ⟨hg, by simp [hd]⟩
  have := Finset.card_pos.mpr ⟨g, hm⟩
  rw [h₄, occupied_update_none, Finset.card_erase_of_mem hm]
  omega

end Delete

end Salt.Library.OrderedProbing
