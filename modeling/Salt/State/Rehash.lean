import Salt.State.Probing

namespace Salt

open Std (ExtTreeMap)
open Library.ProbeRing Library.OrderedTable Library.GreedyLayout Library.OrderedProbing Library.Triple

structure Listing (c : ℕ) (t : ℕ → Option SaltValue) (vs : List SaltValue) : Prop where
  desc : vs.Pairwise (fun v w ↦ w.key < v.key)
  mem : ∀ x, Stored c t x ↔ x ∈ vs

namespace EphemeralSaltState

variable {F : Full} {st st' : EphemeralSaltState} {A : Fault → Prop} {out : StateUpdates}
  {start : SaltKey → Option SaltValue} {b c : ℕ} {H : Hasher}

def BucketMap (w : SaltKey → Option SaltValue) (b c : ℕ) (m : ExtTreeMap SaltKey SaltValue) : Prop :=
  ∀ k : SaltKey, m[k]? = if k.bucketId = b ∧ k.slotId < c then w k else none

theorem readBucket_spec (hR : ReadsSlots st.store F A) (hb : isValidDataBucket b) (hc : c ≤ 2 ^ 40) :
    Sat (st.readBucket b c) A
      (fun r ↦ Quiet F st r.1 ∧ BucketMap (st.view F) b c r.2) := by
  refine Sat.foldlM_range (fun i (r : EphemeralSaltState × ExtTreeMap SaltKey SaltValue) ↦
    Quiet F st r.1 ∧ BucketMap (st.view F) b i r.2) c (st, ∅) ?_ ?_
  · exact ⟨.refl F st, fun k ↦ by simp⟩
  rintro i hi ⟨st', m⟩ ⟨hq, hm⟩
  refine (slot_spec (hq.store ▸ hR) hb (show i < 2 ^ 40 by omega)).bind ?_
  rintro ⟨st'', entry⟩ ⟨hq', he⟩
  simp only at hq' he hm
  have hid := SaltKey.bucketId_ofPair (dataBucket_lt hb) (show i < 2 ^ 40 by omega)
  have hsl := SaltKey.slotId_ofPair (dataBucket_lt hb) (show i < 2 ^ 40 by omega)
  rw [hq.view, slots_eq (by omega)] at he
  -- a key other than the one just read lies below `i + 1` exactly when it lies below `i`
  have hother : ∀ k : SaltKey, k ≠ SaltKey.ofPair b i →
      ((k.bucketId = b ∧ k.slotId < i) ↔ (k.bucketId = b ∧ k.slotId < i + 1)) := by
    intro k hk
    refine and_congr_right fun hkb ↦ ⟨fun h ↦ by omega, fun h ↦ ?_⟩
    refine lt_of_le_of_ne (Nat.lt_succ_iff.mp h) fun hki ↦ hk ?_
    rw [← k.ofPair_eta, hkb, hki]
  have hstep : ∀ k : SaltKey, k ≠ SaltKey.ofPair b i →
      m[k]? = if k.bucketId = b ∧ k.slotId < i + 1 then st.view F k else none := by
    intro k hk
    rw [hm k]
    simp only [hother k hk]
  subst he
  cases hv : st.view F (SaltKey.ofPair b i) with
  | none =>
    refine Sat.ok ⟨hq.trans hq', fun k ↦ ?_⟩
    by_cases hk : k = SaltKey.ofPair b i
    · rw [hm k, hk, hid, hsl, if_neg (by omega), if_pos (by omega), hv]
    · exact hstep k hk
  | some v =>
    refine Sat.ok ⟨hq.trans hq', fun k ↦ ?_⟩
    by_cases hk : k = SaltKey.ofPair b i
    · subst hk
      rw [hid, hsl, if_pos (by omega), hv]
      simp
    · rw [ExtTreeMap.getElem?_insert, if_neg (by simpa using Ne.symm hk), hstep k hk]

section BucketMap

variable {w : SaltKey → Option SaltValue} {m : ExtTreeMap SaltKey SaltValue}

theorem BucketMap.mem_toList (h : BucketMap w b c m) (hb : isValidDataBucket b) (hc : c ≤ 2 ^ 40)
    {e : SaltKey × SaltValue} :
    e ∈ m.toList ↔ ∃ s < c, slots w b s = some e.2 ∧ e.1 = SaltKey.ofPair b s := by
  obtain ⟨k, v⟩ := e
  rw [ExtTreeMap.mem_toList_iff_getElem?_eq_some, h k]
  constructor
  · intro hk
    split at hk
    · rename_i hin
      refine ⟨k.slotId, hin.2, ?_, by rw [← hin.1, k.ofPair_eta]⟩
      rw [slots_eq k.slotId_lt, ← hin.1, k.ofPair_eta]
      exact hk
    · cases hk
  · rintro ⟨s, hs, hv, hk⟩
    simp only at hk hv
    subst hk
    rw [SaltKey.bucketId_ofPair (dataBucket_lt hb) (by omega),
      SaltKey.slotId_ofPair (dataBucket_lt hb) (by omega), if_pos ⟨rfl, hs⟩, ← hv, slots_eq (by omega)]

theorem BucketMap.size_eq (h : BucketMap w b c m) (hb : isValidDataBucket b) (hc : c ≤ 2 ^ 40) :
    m.size = (occupied c (slots w b)).card := by
  have hpair : (m.toList.map (fun e ↦ e.1.slotId)).Nodup := by
    rw [List.Nodup, List.pairwise_map]
    refine (List.Pairwise.and_mem.mp m.distinct_keys_toList).imp ?_
    rintro e e' ⟨he, he', hne⟩ hs
    obtain ⟨s, hs₁, _, hk⟩ := (h.mem_toList hb hc).mp he
    obtain ⟨s', hs₂, _, hk'⟩ := (h.mem_toList hb hc).mp he'
    rw [hk, hk', SaltKey.slotId_ofPair (dataBucket_lt hb) (by omega),
      SaltKey.slotId_ofPair (dataBucket_lt hb) (by omega)] at hs
    rw [hk, hk', hs] at hne
    exact hne Std.ReflCmp.compare_self
  have hset : (m.toList.map (fun e ↦ e.1.slotId)).toFinset = occupied c (slots w b) := by
    ext s
    rw [List.mem_toFinset, List.mem_map, mem_occupied]
    constructor
    · rintro ⟨e, he, rfl⟩
      obtain ⟨s, hs, hv, hk⟩ := (h.mem_toList hb hc).mp he
      rw [hk, SaltKey.slotId_ofPair (dataBucket_lt hb) (by omega), hv]
      exact ⟨hs, rfl⟩
    · rintro ⟨hs, hsome⟩
      obtain ⟨v, hv⟩ := Option.isSome_iff_exists.mp hsome
      exact ⟨(SaltKey.ofPair b s, v), (h.mem_toList hb hc).mpr ⟨s, hs, hv, rfl⟩,
        SaltKey.slotId_ofPair (dataBucket_lt hb) (by omega)⟩
  rw [← hset, List.toFinset_card_of_nodup hpair, List.length_map, ExtTreeMap.length_toList]

end BucketMap

theorem foldl_plain_getElem? (l : List (SaltKey × SaltValue)) (m : BytesMap Bytes)
    (hl : l.Pairwise (fun e e' ↦ e.2.key ≠ e'.2.key)) (k x : Bytes) :
    (l.foldl (fun m e ↦ m.insert e.2.key e.2.value) m)[k]? = some x ↔
      (∃ e ∈ l, e.2.key = k ∧ e.2.value = x) ∨ ((∀ e ∈ l, e.2.key ≠ k) ∧ m[k]? = some x) := by
  induction l generalizing m with
  | nil => simp
  | cons e l ih =>
    obtain ⟨hne, hl⟩ := List.pairwise_cons.mp hl
    rw [List.foldl_cons, ih _ hl]
    by_cases hk : e.2.key = k
    · have hnone : ∀ a ∈ l, a.2.key ≠ k := fun a ha ↦ hk ▸ (hne a ha).symm
      constructor
      · rintro (⟨a, ha, hak, _⟩ | ⟨_, hx⟩)
        · exact absurd hak (hnone a ha)
        · refine .inl ⟨e, List.mem_cons_self .., hk, ?_⟩
          simpa [hk] using hx
      · rintro (⟨a, ha, hak, hax⟩ | ⟨hall, _⟩)
        · rcases List.mem_cons.mp ha with rfl | ha
          · exact .inr ⟨hnone, by simp [hk, hax]⟩
          · exact absurd hak (hnone a ha)
        · exact absurd hk (hall e (List.mem_cons_self ..))
    · have hins : (m.insert e.2.key e.2.value)[k]? = m[k]? := by
        rw [ExtTreeMap.getElem?_insert, if_neg (by simpa using hk)]
      rw [hins]
      simp only [List.mem_cons, exists_eq_or_imp, forall_eq_or_imp, hk, false_and, false_or,
        ne_eq, not_false_eq_true, true_and]

theorem exists_map_eq {α β : Type} {f : α → β} {P : α → Prop} {l : List β}
    (h : ∀ x ∈ l, ∃ a, P a ∧ f a = x) : ∃ as : List α, as.map f = l ∧ ∀ a ∈ as, P a := by
  induction l with
  | nil => exact ⟨[], rfl, by simp⟩
  | cons x l ih =>
    obtain ⟨a, ha, hx⟩ := h x (List.mem_cons_self ..)
    obtain ⟨as, has, hP⟩ := ih fun y hy ↦ h y (List.mem_cons_of_mem _ hy)
    refine ⟨a :: as, by rw [List.map_cons, hx, has], fun y hy ↦ ?_⟩
    rcases List.mem_cons.mp hy with rfl | hy
    · exact ha
    · exact hP y hy

theorem plainPairs_listing {w : SaltKey → Option SaltValue} {m : ExtTreeMap SaltKey SaltValue}
    (hm : BucketMap w b (metaAt w b).capacity m) (hb : isValidDataBucket b) (hg : GoodBucket H w b) :
    ∃ vs : List SaltValue, Listing (metaAt w b).capacity (slots w b) vs ∧
      (m.toList.foldl (fun (m : BytesMap Bytes) e ↦ m.insert e.2.key e.2.value) ∅).toList.reverse =
        vs.map (fun v ↦ (v.key, v.value)) := by
  have hc : (metaAt w b).capacity ≤ 2 ^ 40 := by
    have := hg.capacity_lt
    omega
  have hpair : m.toList.Pairwise (fun e e' ↦ e.2.key ≠ e'.2.key) := by
    refine (List.Pairwise.and_mem.mp m.distinct_keys_toList).imp ?_
    rintro e e' ⟨he, he', hne⟩ hk
    obtain ⟨s, hs, hv, hek⟩ := (hm.mem_toList hb hc).mp he
    obtain ⟨s', hs', hv', hek'⟩ := (hm.mem_toList hb hc).mp he'
    rw [hek, hek', hg.ordered.slot_unique hg.capacity_pos hs hs' hv hv' hk] at hne
    exact hne Std.ReflCmp.compare_self
  have hget := fun k x ↦ foldl_plain_getElem? m.toList ∅ hpair k x
  generalize m.toList.foldl (fun (m : BytesMap Bytes) e ↦ m.insert e.2.key e.2.value) ∅ = P at hget
  have hstored : ∀ v, Stored (metaAt w b).capacity (slots w b) v ↔ (v.WellFormed ∧
      P[v.key]? = some v.value) := by
    intro v
    rw [hget]
    constructor
    · rintro ⟨s, hs, hv⟩
      exact ⟨(hg.entry s v hv).1,
        .inl ⟨(SaltKey.ofPair b s, v), (hm.mem_toList hb hc).mpr ⟨s, hs, hv, rfl⟩, rfl, rfl⟩⟩
    · rintro ⟨hwf, ⟨e, he, hk, hx⟩ | ⟨_, hx⟩⟩
      · obtain ⟨s, hs, hv, _⟩ := (hm.mem_toList hb hc).mp he
        have heq : e.2 = v := (hg.entry s e.2 hv).1.ext hwf hk hx
        exact ⟨s, hs, heq ▸ hv⟩
      · simp at hx
  obtain ⟨vs, hvs, hP⟩ := exists_map_eq (f := fun v : SaltValue ↦ (v.key, v.value))
    (P := fun v ↦ Stored (metaAt w b).capacity (slots w b) v) (l := P.toList.reverse) (by
      rintro ⟨k, x⟩ hx
      rw [List.mem_reverse, ExtTreeMap.mem_toList_iff_getElem?_eq_some, hget] at hx
      obtain ⟨e, he, hk, hx⟩ | ⟨_, hx⟩ := hx
      · obtain ⟨s, hs, hv, _⟩ := (hm.mem_toList hb hc).mp he
        exact ⟨e.2, ⟨s, hs, hv⟩, by rw [hk, hx]⟩
      · simp at hx)
  refine ⟨vs, ⟨?_, fun x ↦ ⟨fun hx ↦ ?_, hP x⟩⟩, hvs.symm⟩
  · have hord : P.toList.reverse.Pairwise (fun a b ↦ b.1 < a.1) := by
      rw [List.pairwise_reverse]
      exact P.ordered_keys_toList.imp fun h ↦ cmpBytes_lt.mp h
    rw [← hvs, List.pairwise_map] at hord
    exact hord
  · have hmem : (x.key, x.value) ∈ P.toList.reverse := by
      rw [List.mem_reverse, ExtTreeMap.mem_toList_iff_getElem?_eq_some]
      exact ((hstored x).mp hx).2
    rw [← hvs, List.mem_map] at hmem
    obtain ⟨y, hy, he⟩ := hmem
    obtain ⟨hk, hv⟩ := Prod.mk.injEq .. ▸ he
    have hxy : y = x := ((hstored y).mp (hP y hy)).1.ext ((hstored x).mp hx).1 hk hv
    exact hxy ▸ hy

section Reinsert

variable {t : ℕ → Option SaltValue} {m : ExtTreeMap SaltKey SaltValue} {home : Bytes → ℕ}

def Shows (b c : ℕ) (m : ExtTreeMap SaltKey SaltValue) (t : ℕ → Option SaltValue) : Prop :=
  ∀ s < c, m[SaltKey.ofPair b s]? = t s

theorem Shows.insert (h : Shows b c m t) (hb : isValidDataBucket b) (hc : c ≤ 2 ^ 40) {s : ℕ}
    (hs : s < c) (v : SaltValue) :
    Shows b c (m.insert (SaltKey.ofPair b s) v) (Function.update t s (some v)) := by
  intro a ha
  by_cases has : a = s
  · subst has
    simp
  · have hne : SaltKey.ofPair b s ≠ SaltKey.ofPair b a := fun he ↦
      has ((SaltKey.ofPair_inj (dataBucket_lt hb) (dataBucket_lt hb) (by omega) (by omega)).mp he).2.symm
    rw [Function.update_of_ne has, ExtTreeMap.getElem?_insert, if_neg (by simpa using hne), h a ha]

theorem Shows.placeEntry (h : Shows b c m t) (hb : isValidDataBucket b) (hc₀ : 0 < c)
    (hc : c ≤ 2 ^ 40) (hashed : ℕ) (v : SaltValue) (n step : ℕ) :
    Shows b c (placeEntry b hashed c v n step m)
      (match (List.range' step n).find? (fun i ↦ (t (probe hashed i c)).isNone) with
      | some i => Function.update t (probe hashed i c) (some v)
      | none => t) := by
  induction n generalizing step with
  | zero => exact h
  | succ n ih =>
    have hs := probe_lt hc₀ hashed step
    rw [EphemeralSaltState.placeEntry, List.range'_succ, List.find?_cons, h _ hs]
    cases ht : t (probe hashed step c) with
    | none => exact h.insert hb hc hs v
    | some x => exact ih (step + 1)

theorem Shows.place (h : Shows b c m t) (home : Bytes → ℕ) (hb : isValidDataBucket b) (hc₀ : 0 < c) (hc : c ≤ 2 ^ 40)
    (v : SaltValue) :
    Shows b c (EphemeralSaltState.placeEntry b (home v.key) c v c 0 m)
      (place c home SaltValue.key t v) := by
  rw [Library.GreedyLayout.place, List.range_eq_range']
  exact h.placeEntry hb hc₀ hc (home v.key) v c 0

theorem reinsert_spec (hb : isValidDataBucket b) (hc₀ : 0 < c) (hc : c ≤ 2 ^ 40) (nonce : UInt32)
    (vs : List SaltValue) (hwf : ∀ v ∈ vs, v.WellFormed) :
    ∃ m, reinsert H b nonce c (vs.map fun v ↦ (v.key, v.value)) = .ok m ∧
      Shows b c m (greedy c (fun k ↦ H.hashWithNonce k nonce) SaltValue.key vs) := by
  suffices ∀ (m : ExtTreeMap SaltKey SaltValue) (t : ℕ → Option SaltValue), Shows b c m t →
      ∃ m', (vs.map fun v ↦ (v.key, v.value)).foldlM (fun newBucket p ↦ do
          let saltVal ← SaltValue.new p.1 p.2
          .ok (EphemeralSaltState.placeEntry b (H.hashWithNonce p.1 nonce) c saltVal c 0 newBucket))
          m = (.ok m' : Except Fault _) ∧
        Shows b c m' (vs.foldl (place c (fun k ↦ H.hashWithNonce k nonce) SaltValue.key) t) from
    this ∅ (fun _ ↦ none) fun s _ ↦ by simp
  induction vs with
  | nil => exact fun m t h ↦ ⟨m, rfl, h⟩
  | cons v vs ih =>
    intro m t h
    obtain ⟨m', hm', hs⟩ := ih (fun x hx ↦ hwf x (List.mem_cons_of_mem _ hx)) _ _
      (h.place (fun k ↦ H.hashWithNonce k nonce) hb hc₀ hc v)
    refine ⟨m', ?_, hs⟩
    rw [List.map_cons, List.foldlM_cons, (hwf v (List.mem_cons_self ..)).new_eq]
    exact hm'

end Reinsert

/-- Replaying the difference of two layouts slot by slot replaces the one by the other. -/
theorem recordRehash_spec (h : Tracked A F start st out) (hb : isValidDataBucket b) {c' : ℕ}
    (hc : c ≤ 2 ^ 40) (hc' : c' ≤ 2 ^ 40) {m m' : ExtTreeMap SaltKey SaltValue}
    {t : ℕ → Option SaltValue} (hm : BucketMap (st.view F) b c m) (hm' : Shows b c' m' t)
    (hout : ∀ s, c ≤ s → slots (st.view F) b s = none) (hout' : ∀ s, c' ≤ s → t s = none) :
    Sat (st.recordRehash b c c' m m' out) A (fun r ↦
      Tracked A F start r.1 r.2 ∧ Kept st r.1 ∧ r.1.rehashedBuckets = st.rehashedBuckets ∧
      r.1.usageCountDelta = st.usageCountDelta ∧
      (∀ k : SaltKey, k.bucketId ≠ b → r.1.view F k = st.view F k) ∧
      slots (r.1.view F) b = t) := by
  have hinv := Sat.foldlM_range (A := A) (fun i (r : EphemeralSaltState × StateUpdates) ↦
    Tracked A F start r.1 r.2 ∧ Kept st r.1 ∧ r.1.rehashedBuckets = st.rehashedBuckets ∧
      r.1.usageCountDelta = st.usageCountDelta ∧
      ∀ k : SaltKey, r.1.view F k =
        if k.bucketId = b ∧ k.slotId < i then t k.slotId else st.view F k)
    (f := fun (acc : EphemeralSaltState × StateUpdates) slot ↦ do
      let saltKey := SaltKey.ofPair b slot
      let oldValue := if slot < c then m[saltKey]? else none
      let newValue := if slot < c' then m'[saltKey]? else none
      let st := if oldValue ≠ newValue ∨ c ≤ slot then
          { acc.1 with cache := acc.1.cache.insert saltKey newValue }
        else acc.1
      if oldValue ≠ newValue ∧ (oldValue.isSome ∨ newValue.isSome) then
        let out ← acc.2.add saltKey oldValue newValue
        .ok (st, out)
      else .ok (st, acc.2)) (max c c') (st, out)
    ⟨h, .refl st, rfl, rfl, fun k ↦ by simp⟩ ?_
  · refine hinv.mono fun r hr ↦ ⟨hr.1, hr.2.1, hr.2.2.1, hr.2.2.2.1, fun k hk ↦ ?_, ?_⟩
    · rw [hr.2.2.2.2 k, if_neg (fun hk' ↦ hk hk'.1)]
    · funext s
      unfold slots
      split
      · rename_i hs
        rw [hr.2.2.2.2, SaltKey.bucketId_ofPair (dataBucket_lt hb) hs,
          SaltKey.slotId_ofPair (dataBucket_lt hb) hs]
        split
        · rfl
        · rw [hout' s (by omega), ← hout s (by omega), slots_eq hs]
      · rw [hout' s (by omega)]
  · rintro i hi ⟨st', out'⟩ ⟨htr, hk, hre, hdel, hview⟩
    have hi' : i < 2 ^ 40 := by omega
    have hid := SaltKey.bucketId_ofPair (dataBucket_lt hb) hi'
    have hsl := SaltKey.slotId_ofPair (dataBucket_lt hb) hi'
    have hmeta := ofPair_not_inMeta hb hi'
    simp only at htr hk hre hdel hview ⊢
    have hcur : st'.view F (SaltKey.ofPair b i) = st.view F (SaltKey.ofPair b i) := by
      rw [hview, hid, hsl, if_neg (by omega)]
    have hold : (if i < c then m[SaltKey.ofPair b i]? else none) =
        st'.view F (SaltKey.ofPair b i) := by
      rw [hcur]
      split
      · rw [hm, hid, hsl, if_pos ⟨rfl, by assumption⟩]
      · rw [← hout i (by omega), slots_eq hi']
    have hnew : (if i < c' then m'[SaltKey.ofPair b i]? else none) = t i := by
      split
      · exact hm' i (by assumption)
      · rw [hout' i (by omega)]
    rw [hold, hnew]
    have hstep : ∀ w : SaltKey → Option SaltValue,
        w = Function.update (st'.view F) (SaltKey.ofPair b i) (t i) → ∀ k : SaltKey, w k =
          if k.bucketId = b ∧ k.slotId < i + 1 then t k.slotId else st.view F k := by
      rintro w rfl k
      by_cases hki : k = SaltKey.ofPair b i
      · subst hki
        rw [Function.update_self, hid, hsl, if_pos ⟨rfl, by omega⟩]
      · rw [Function.update_of_ne hki, hview]
        refine if_congr (and_congr_right fun hkb ↦ ⟨fun h ↦ by omega, fun h ↦ ?_⟩) rfl rfl
        refine lt_of_le_of_ne (Nat.lt_succ_iff.mp h) fun he ↦ hki ?_
        rw [← k.ofPair_eta, hkb, he]
    by_cases he : st'.view F (SaltKey.ofPair b i) = t i
    · rw [if_neg (fun hn ↦ hn.1 he)]
      have hsame : st'.view F = Function.update (st'.view F) (SaltKey.ofPair b i) (t i) := by
        rw [← he, Function.update_eq_self]
      by_cases hci : c ≤ i
      · rw [if_pos (.inr hci)]
        have hv := view_insert_data (F := F) st' hmeta (t i)
        refine Sat.ok ⟨⟨htr.reads, htr.cacheMeta.insert_data hmeta _, ?_⟩, ⟨hk.store, hk.cacheRead⟩,
          hre, hdel, hstep _ hv⟩
        rw [hv, ← hsame]
        exact htr.diff
      · rw [if_neg (by rintro (hn | hn); exact hn he; exact hci hn)]
        exact Sat.ok ⟨htr, hk, hre, hdel, hstep _ hsame⟩
    · have hsome : (st'.view F (SaltKey.ofPair b i)).isSome ∨ (t i).isSome := by
        by_contra hn
        simp only [not_or, Bool.not_eq_true, Option.isSome_eq_false_iff, Option.isNone_iff_eq_none] at hn
        exact he (hn.1.trans hn.2.symm)
      rw [if_pos ⟨he, hsome⟩, if_pos (.inl he)]
      obtain ⟨out'', hout'', hd⟩ := htr.diff.add (SaltKey.ofPair b i) (t i)
      have hv := view_insert_data (F := F) st' hmeta (t i)
      rw [hout'']
      refine Sat.ok ⟨⟨htr.reads, htr.cacheMeta.insert_data hmeta _, ?_⟩, ⟨hk.store, hk.cacheRead⟩,
        hre, hdel, hstep _ hv⟩
      rw [hv]
      exact hd

end EphemeralSaltState

end Salt
