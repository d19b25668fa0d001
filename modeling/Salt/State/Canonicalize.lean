import Salt.State.Session

namespace Salt

open Std (ExtTreeMap)
open Library.ProbeRing Library.OrderedTable Library.GreedyLayout Library.OrderedProbing Library.Triple

def entries {V : Type*} (c : ℕ) (t : ℕ → Option V) : List V := (List.range c).filterMap t

section Entries

variable {V : Type*} {c : ℕ} {t : ℕ → Option V}

theorem entries_succ (c : ℕ) (t : ℕ → Option V) : entries (c + 1) t = entries c t ++ (t c).toList := by
  rw [entries, List.range_succ, List.filterMap_append, entries]
  cases h : t c <;> simp [h]

theorem mem_entries (x : V) : x ∈ entries c t ↔ Stored c t x := by
  simp only [entries, List.mem_filterMap, List.mem_range, Stored]

theorem length_entries (c : ℕ) (t : ℕ → Option V) : (entries c t).length = (occupied c t).card := by
  induction c with
  | zero => rfl
  | succ c ih =>
    rw [entries_succ, List.length_append, ih, occupied, occupied, Finset.range_add_one,
      Finset.filter_insert]
    cases h : t c with
    | none => simp
    | some v =>
      rw [if_pos Option.isSome_some, Finset.card_insert_of_notMem (by simp)]
      rfl

theorem Ordered.pairwise_entries {K : Type*} [LinearOrder K] {home : K → ℕ} {key : V → K}
    (h : Ordered c home key t) (hc : 0 < c) : (entries c t).Pairwise (fun v w ↦ key v ≠ key w) := by
  rw [entries, List.pairwise_filterMap]
  refine (List.Pairwise.and_mem.mp (List.nodup_range (n := c))).imp ?_
  rintro s s' ⟨hs, hs', hne⟩ v hv w hw hk
  exact hne (h.slot_unique hc (List.mem_range.mp hs) (List.mem_range.mp hs') hv hw hk)

theorem GoodBucket.count_le_length {H : Hasher} {w : SaltKey → Option SaltValue} {b : ℕ} (h : GoodBucket H w b)
    {l : List SaltValue} (hl : ∀ v, Holds w b v → v ∈ l) : count w b ≤ l.length := by
  have hnodup : (entries (metaAt w b).capacity (slots w b)).Nodup :=
    (Ordered.pairwise_entries h.ordered h.capacity_pos).imp fun hne he ↦ hne (congrArg SaltValue.key he)
  rw [count, ← length_entries]
  exact (hnodup.subperm fun v hv ↦ hl v ((mem_entries v).mp hv)).length_le

end Entries

namespace EphemeralSaltState

variable {F : Full} {st st' : EphemeralSaltState} {A : Fault → Prop} {out : StateUpdates}
  {start : SaltKey → Option SaltValue} {b c : ℕ} {H : Hasher} {M : Bytes → Option Bytes}

theorem drainBucket_spec (h : Tracked A F start st out) (hb : isValidDataBucket b) (hc : c ≤ 2 ^ 40)
    (hout : ∀ s, c ≤ s → slots (st.view F) b s = none) :
    Sat (st.drainBucket b c out) A (fun r ↦
      Tracked A F start r.1 r.2.1 ∧ Kept st r.1 ∧ r.1.usageCountDelta = st.usageCountDelta ∧
      (∀ k : SaltKey, k.bucketId ≠ b → r.1.view F k = st.view F k) ∧
      slots (r.1.view F) b = (fun _ ↦ none) ∧ r.2.2 = entries c (slots (st.view F) b)) := by
  rw [EphemeralSaltState.drainBucket]
  refine (Sat.foldlM_range
    (fun i (r : EphemeralSaltState × StateUpdates × List SaltValue) ↦
      Tracked A F start r.1 r.2.1 ∧ Kept st r.1 ∧ r.1.usageCountDelta = st.usageCountDelta ∧
      (∀ k : SaltKey, k.bucketId ≠ b → r.1.view F k = st.view F k) ∧
      (∀ s, slots (r.1.view F) b s = if s < i then none else slots (st.view F) b s) ∧
      r.2.2 = entries i (slots (st.view F) b)) c (st, out, [])
    ⟨h, .refl st, rfl, fun _ _ ↦ rfl, fun s ↦ by simp, rfl⟩ ?_).mono ?_
  rotate_left
  · rintro r hr
    refine ⟨hr.1, hr.2.1, hr.2.2.1, hr.2.2.2.1, ?_, hr.2.2.2.2.2⟩
    funext s
    rw [hr.2.2.2.2.1]
    split
    · rfl
    · exact hout s (by omega)
  · rintro i hi ⟨st₁, out₁, vs⟩ ⟨htr, hk, hdel, hframe, hslots, rfl⟩
    have hi' : i < 2 ^ 40 := by omega
    have hid := SaltKey.bucketId_ofPair (dataBucket_lt hb) hi'
    have hmeta := ofPair_not_inMeta hb hi'
    simp only at htr hk hdel hframe hslots ⊢
    refine (slot_spec htr.reads hb hi').bind ?_
    rintro ⟨st₂, entry⟩ ⟨hq, he⟩
    simp only at hq he ⊢
    have htr₂ := htr.quiet hq
    have hentry : entry = slots (st.view F) b i := by rw [he, hslots, if_neg (by omega)]
    have hlast : ∀ s, s ≠ i → (s < i ↔ s < i + 1) := fun s hs ↦ by omega
    cases entry with
    | none =>
      refine Sat.ok ⟨htr₂, hk.trans hq.kept, by rw [hq.delta, hdel], fun k hkb ↦ ?_, fun s ↦ ?_, ?_⟩
      · rw [hq.view, hframe k hkb]
      · rw [hq.view, hslots]
        by_cases hs : s = i
        · rw [hs, ← hentry, ite_self, ite_self]
        · simp only [hlast s hs]
      · rw [entries_succ, ← hentry]
        simp
    | some v =>
      have hcur : st₂.view F (SaltKey.ofPair b i) = some v := by
        rw [hq.view, he, slots_eq hi']
      obtain ⟨out₃, hout₃, hd⟩ := htr₂.diff.add (SaltKey.ofPair b i) none
      rw [hcur] at hout₃
      have hv := view_insert_data (F := F) st₂ hmeta none
      simp only [hout₃, ok_bind]
      refine Sat.ok ⟨⟨htr₂.reads, htr₂.cacheMeta.insert_data hmeta none, ?_⟩,
        hk.trans ⟨hq.store, hq.cacheRead⟩, hq.delta.trans hdel, fun k hkb ↦ ?_, fun s ↦ ?_, ?_⟩
      · rw [hv]
        exact hd
      · rw [hv, Function.update_of_ne, hq.view, hframe k hkb]
        rintro rfl
        exact hkb hid
      · rw [hv, slots_update (dataBucket_lt hb) hi', hq.view]
        by_cases hs : s = i
        · rw [hs, Function.update_self, if_pos (by omega)]
        · rw [Function.update_of_ne hs, hslots]
          simp only [hlast s hs]
      · rw [entries_succ, ← hentry]
        rfl

theorem view_erase_meta (st : EphemeralSaltState) (hb : isValidDataBucket b) :
    ({ st with cache := st.cache.erase (metadataKey b) }).view F =
      Function.update (st.view F) (metadataKey b) (some (SaltValue.ofMeta (metaAt F.kv b))) := by
  funext j
  by_cases h : j = metadataKey b
  · subst h
    rw [view, normalize_meta (metadataKey_inMeta hb), Function.update_self]
    simp [rawView, metaAt]
  · have hraw : ({ st with cache := st.cache.erase (metadataKey b) }).rawView F j = st.rawView F j := by
      simp [rawView, ExtTreeMap.getElem?_erase, Ne.symm h]
    rw [Function.update_of_ne h, view, normalize, hraw, view, normalize]

theorem CacheMeta.erase (h : st.CacheMeta) (k : SaltKey) :
    ({ st with cache := st.cache.erase k }).CacheMeta := by
  intro b hb v hv
  rw [ExtTreeMap.getElem?_erase] at hv
  split at hv
  · cases hv
  · exact h b hb v hv

/-- What rebuilding one bucket does: same entries, shape derived from the base metadata. -/
structure Rebuilt (H : Hasher) (A : Fault → Prop) (F : Full) (start : SaltKey → Option SaltValue) (b : ℕ)
    (st : EphemeralSaltState) (r : EphemeralSaltState × StateUpdates) : Prop
    extends Effect H A F start b st r where
  holds : ∀ v, Holds (r.1.view F) b v ↔ Holds (st.view F) b v
  nonce : (metaAt (r.1.view F) b).nonce = (metaAt F.kv b).nonce
  resized : Complete A →
    Resized (metaAt F.kv b).capacity (count (r.1.view F) b) (metaAt (r.1.view F) b).capacity

theorem refill_spec {fuel : ℕ} (hf : 2 ≤ fuel) (h : Live A F start st out) (hg : Good H (st.view F))
    (hb : isValidDataBucket b) (hempty : ∀ v, ¬ Holds (st.view F) b v)
    (vs : List SaltValue) (hA : Capped A vs.length) (hvs : vs.Pairwise (fun v w ↦ v.key ≠ w.key))
    (hentry : ∀ v ∈ vs, v.WellFormed ∧ H.bucketId v.key = b) :
    Sat (vs.foldlM (fun (acc : EphemeralSaltState × StateUpdates) v ↦
        acc.1.shiUpsert H fuel b v.key v.value acc.2) (st, out)) A (fun r ↦
      Effect H A F start b st r ∧ (∀ v, Holds (r.1.view F) b v ↔ v ∈ vs) ∧
      (metaAt (r.1.view F) b).nonce = (metaAt (st.view F) b).nonce ∧
      (Complete A → Resized (metaAt (st.view F) b).capacity (count (r.1.view F) b)
        (metaAt (r.1.view F) b).capacity)) := by
  have hzero : count (st.view F) b = 0 := by
    rw [count, ← length_entries, List.length_eq_zero_iff]
    exact List.eq_nil_iff_forall_not_mem.mpr fun v hv ↦ hempty v ((mem_entries v).mp hv)
  refine Sat.foldlM (fun done (r : EphemeralSaltState × StateUpdates) ↦
      Effect H A F start b st r ∧ (∀ v, Holds (r.1.view F) b v ↔ v ∈ done) ∧
      (metaAt (r.1.view F) b).nonce = (metaAt (st.view F) b).nonce ∧
      (Complete A → Resized (metaAt (st.view F) b).capacity (count (r.1.view F) b)
        (metaAt (r.1.view F) b).capacity)) vs (st, out) ?_ ?_
  · refine ⟨(Quiet.refl F st).effect h (hg b hb), fun v ↦ ?_, rfl, fun _ ↦ resized_self ?_⟩
    · simp [hempty v]
    · rw [hzero]
      omega
  · rintro done v rest rfl ⟨st₁, out₁⟩ ⟨heff, hholds, hnonce, hres⟩
    have hv := hentry v (by simp)
    have hcount : count (st₁.view F) b ≤ done.length :=
      heff.good.count_le_length fun y hy ↦ (hholds y).mp hy
    have hbounds : Bounds (st₁.view F) b v.key (done ++ v :: rest).length := by
      rw [List.length_append, List.length_cons]
      exact ⟨by omega, fun _ ↦ by omega⟩
    refine (shiUpsert_spec hf hA heff.live (heff.all_good hb hg) hb hv hbounds).mono fun r hr ↦
      ⟨heff.trans hr.toEffect, fun y ↦ ?_, hr.nonce.trans hnonce, fun hp ↦ ?_⟩
    · rw [hr.holds, hholds, List.mem_append, List.mem_singleton, or_comm]
      refine or_congr_left ⟨And.left, fun hy ↦ ⟨hy, ?_⟩⟩
      exact (List.pairwise_append.mp hvs).2.2 y hy v (List.mem_cons_self ..)
    · have hres₁ := hres hp
      have hstep := hr.resized hp hres₁.load
      refine hres₁.trans ?_ hstep
      have hsub : ∀ y, Holds (st₁.view F) b y → Holds (r.1.view F) b y := by
        intro y hy
        rw [hr.holds]
        refine .inr ⟨hy, ?_⟩
        exact (List.pairwise_append.mp hvs).2.2 y ((hholds y).mp hy) v (List.mem_cons_self ..)
      exact heff.good.count_mono hr.good hsub

def BaseShape (F : Full) : Prop :=
  ∀ b, isValidDataBucket b → 0 < (metaAt F.kv b).capacity ∧ (metaAt F.kv b).capacity ≤ bucketSlotIdMask

theorem canonicalizeBucket_spec {fuel : ℕ} (hf : 2 ≤ fuel) (hA : Capped A (count (st.view F) b)) (hF : BaseShape F)
    (h : Live A F start st out) (hg : Good H (st.view F)) (hb : isValidDataBucket b) :
    Sat (st.canonicalizeBucket H fuel out b) A (Rebuilt H A F start b st) := by
  have hgb := hg b hb
  rw [canonicalizeBucket]
  refine (metadata_spec h.reads h.cacheMeta hb).bind ?_
  rintro ⟨st₁, m⟩ ⟨hq₁, hm⟩
  simp only at hq₁ hm ⊢
  subst hm
  have h₁ := h.quiet hq₁
  refine (drainBucket_spec h₁.toTracked hb (le_of_lt hgb.capacity_lt)
    (by rw [hq₁.view]; exact hgb.outside)).bind ?_
  rintro ⟨st₂, out₂, vs⟩ ⟨htr₂, hk₂, hdel₂, hframe₂, hslots₂, hvs⟩
  rw [hq₁.view] at hframe₂ hvs
  simp only at htr₂ hk₂ hdel₂ hframe₂ hslots₂ hvs ⊢
  simp only [bucketMetadataKey, hb, if_true, ok_bind]
  have hv₃ := view_erase_meta (F := F) st₂ hb
  have hmeta₃ : metaAt (Function.update (st₂.view F) (metadataKey b)
      (some (SaltValue.ofMeta (metaAt F.kv b)))) b = metaAt F.kv b := by
    rw [metaAt, Function.update_self, metaAt, metaOf_metaOf]
  have hslots₃ : slots (Function.update (st₂.view F) (metadataKey b)
      (some (SaltValue.ofMeta (metaAt F.kv b)))) b = fun _ ↦ none := by
    rw [slots_update_of_ne (dataBucket_lt hb) (metadataKey_ne_bucket hb hb), hslots₂]
  have hreads₃ : ReadsSlots ({ st₂ with cache := st₂.cache.erase (metadataKey b) }).store F A := htr₂.reads
  refine (metadata_spec hreads₃ (htr₂.cacheMeta.erase _) hb).bind ?_
  rintro ⟨st₄, m₄⟩ ⟨hq₄, hm₄⟩
  simp only at hq₄ hm₄ ⊢
  have hv₄ := hq₄.view.trans hv₃
  have hm₄' : m₄ = metaAt F.kv b := by rw [hm₄, hv₃, hmeta₃]
  have hold : st₂.view F (metadataKey b) = some (SaltValue.ofMeta (metaAt (st.view F) b)) := by
    rw [hframe₂ _ (metadataKey_ne_bucket hb hb), view_meta hb]
  obtain ⟨out₄, hout₄, hd₄⟩ := htr₂.diff.add (metadataKey b)
    (some (SaltValue.ofMeta (metaAt F.kv b)))
  rw [hold] at hout₄
  rw [hm₄', hout₄, ok_bind]
  have hframe₄ : ∀ k : SaltKey, k.bucketId ≠ b → k ≠ metadataKey b → st₄.view F k = st.view F k :=
    fun k hk hk' ↦ by rw [hv₄, Function.update_of_ne hk', hframe₂ k hk]
  have hmeta₄ : metaAt (st₄.view F) b = metaAt F.kv b := by rw [hv₄, hmeta₃]
  have hslots₄ : slots (st₄.view F) b = fun _ ↦ none := by rw [hv₄, hslots₃]
  have hlen : vs.length = count (st.view F) b := by rw [hvs, length_entries, count]
  have hgood₄ : GoodBucket H (st₄.view F) b := by
    refine ⟨by rw [hmeta₄]; exact (hF b hb).1, by rw [hmeta₄]; exact (hF b hb).2, ?_, ?_, ?_⟩
    · rw [hslots₄]
      exact ordered_empty
    · rw [hslots₄]
      exact fun _ _ ↦ rfl
    · rw [hslots₄]
      intro s v hv
      cases hv
  have hcount₄ : ∀ b', isValidDataBucket b' → (count (st₄.view F) b' : ℤ) =
      if b' = b then 0 else (count (st.view F) b' : ℤ) := by
    intro b' hb'
    split
    · rename_i he
      rw [he, count, hslots₄, occupied_empty]
      rfl
    · rename_i hne
      congr 1
      refine count_congr ?_ (slots_congr (dataBucket_lt hb') fun k hk ↦ hframe₄ k (hk ▸ hne) ?_)
      · rw [metaAt, hframe₄ _ (metadataKey_ne_bucket hb hb')
          (fun he ↦ hne (metadataKey_inj hb' hb he)), metaAt]
      · rintro rfl
        exact metadataKey_ne_bucket hb' hb hk
  have hdelta : st₄.usageCountDelta = st.usageCountDelta :=
    hq₄.delta.trans (hdel₂.trans hq₁.delta)
  set d₅ := st₄.usageCountDelta.insert b ((st₄.usageCountDelta[b]?).getD 0 - vs.length) with hd₅
  set st₅ : EphemeralSaltState := { st₄ with usageCountDelta := d₅ } with hst₅
  have hl₅ : Live A F start st₅ out₄ := by
    refine ⟨⟨hq₄.store ▸ htr₂.reads, hq₄.cacheMeta (htr₂.cacheMeta.erase _), ?_⟩, ?_, fun b' hb' ↦ ?_⟩
    · rw [show st₅.view F = st₄.view F from rfl, hv₄]
      exact hd₄
    · rw [show st₅.store = st.store from (hq₁.kept.trans hk₂).store ▸ hq₄.store]
      exact h.counted
    · have hu := h.usage b' hb'
      have hc := hcount₄ b' hb'
      rw [show st₅.view F = st₄.view F from rfl, hc]
      simp only [EphemeralSaltState.delta, hst₅, hd₅, hdelta, delta_insert] at hu ⊢
      by_cases hbb : b' = b
      · subst hbb
        rw [if_pos rfl, if_pos rfl]
        omega
      · rw [if_neg hbb, if_neg hbb]
        exact hu
  have heff₅ : Effect H A F start b st (st₅, out₄) :=
    ⟨hl₅, (hq₁.kept.trans hk₂).trans ⟨hq₄.store, hq₄.cacheRead⟩, hframe₄, hgood₄⟩
  refine (refill_spec hf hl₅ (heff₅.all_good hb hg) hb (fun v hv ↦ ?_) vs (hlen.symm ▸ hA) ?_ ?_).mono
    fun r hr ↦ ⟨heff₅.trans hr.1, fun v ↦ ?_, ?_, fun hp ↦ ?_⟩
  · obtain ⟨s, _, hs⟩ := hv
    rw [show slots (st₅.view F) b = fun _ ↦ none from hslots₄] at hs
    cases hs
  · rw [hvs]
    exact Ordered.pairwise_entries hgb.ordered hgb.capacity_pos
  · intro v hv
    rw [hvs, mem_entries] at hv
    exact hgb.holds_entry hv
  · rw [hr.2.1, hvs, mem_entries]
    rfl
  · rw [hr.2.2.1, show metaAt (st₅.view F) b = metaAt F.kv b from hmeta₄]
  · rw [← show metaAt (st₅.view F) b = metaAt F.kv b from hmeta₄]
    exact hr.2.2.2 hp

end EphemeralSaltState

end Salt
