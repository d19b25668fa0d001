import Salt.State.Rehash

namespace Salt

open Std (ExtTreeMap)
open Library.ProbeRing Library.OrderedTable Library.GreedyLayout Library.OrderedProbing Library.Triple

section Counts

variable {H : Hasher} {w w' : SaltKey → Option SaltValue} {b b' : ℕ}

theorem count_le (w : SaltKey → Option SaltValue) (b : ℕ) : count w b ≤ (metaAt w b).capacity := by
  have := Finset.card_le_card (Finset.filter_subset (fun s ↦ (slots w b s).isSome)
    (Finset.range (metaAt w b).capacity))
  rwa [Finset.card_range] at this

theorem GoodBucket.count_eq (h : GoodBucket H w b) (h' : GoodBucket H w' b)
    (he : ∀ v, Holds w b v ↔ Holds w' b v) : count w b = count w' b :=
  card_occupied_eq h.ordered h.capacity_pos h'.ordered h'.capacity_pos he

theorem GoodBucket.count_mono (h : GoodBucket H w b) (h' : GoodBucket H w' b)
    (he : ∀ v, Holds w b v → Holds w' b v) : count w b ≤ count w' b :=
  card_occupied_mono h.ordered h.capacity_pos h'.ordered h'.capacity_pos he

theorem goodBucket_greedy {nonce : UInt32} {cap : ℕ} {vs : List SaltValue}
    (hm : metaAt w b = ⟨nonce, cap, none⟩)
    (hs : slots w b = greedy cap (fun k ↦ H.hashWithNonce k nonce) SaltValue.key vs)
    (hcap : 0 < cap) (hcap' : cap ≤ bucketSlotIdMask)
    (hdesc : vs.Pairwise (fun v w ↦ w.key < v.key)) (hlen : vs.length ≤ cap)
    (hentry : ∀ v ∈ vs, v.WellFormed ∧ H.bucketId v.key = b) : GoodBucket H w b := by
  obtain ⟨hord, hstored, -⟩ := greedy_spec (fun k ↦ H.hashWithNonce k nonce) SaltValue.key
    hcap hdesc hlen
  have hh : home H w b = fun k ↦ H.hashWithNonce k nonce := by
    funext k
    rw [home, hm]
  refine ⟨by rw [hm]; exact hcap, by rw [hm]; exact hcap', by rw [hm, hh, hs]; exact hord, ?_, ?_⟩
  · rw [hm, hs]
    exact fun s hs ↦ greedy_outside hcap vs hs
  · rw [hs]
    intro s v hv
    refine hentry v ((hstored v).mp ⟨s, ?_, hv⟩)
    by_contra hsc
    rw [greedy_outside hcap vs (by omega)] at hv
    cases hv

end Counts

namespace EphemeralSaltState

variable {F : Full} {st st' : EphemeralSaltState} {A : Fault → Prop} {out : StateUpdates}
  {start : SaltKey → Option SaltValue} {b c : ℕ} {H : Hasher}

/-- An operation on one bucket: it stays canonical, and nothing else changes. -/
structure Effect (H : Hasher) (A : Fault → Prop) (F : Full) (start : SaltKey → Option SaltValue) (b : ℕ)
    (st : EphemeralSaltState) (r : EphemeralSaltState × StateUpdates) : Prop where
  live : Live A F start r.1 r.2
  kept : Kept st r.1
  frame : ∀ k : SaltKey, k.bucketId ≠ b → k ≠ metadataKey b → r.1.view F k = st.view F k
  good : GoodBucket H (r.1.view F) b

section Effect

variable {r r' : EphemeralSaltState × StateUpdates} {b' : ℕ}

theorem Effect.metaAt_ne (h : Effect H A F start b st r) (hb : isValidDataBucket b)
    (hb' : isValidDataBucket b') (hne : b' ≠ b) :
    metaAt (r.1.view F) b' = metaAt (st.view F) b' := by
  rw [metaAt, h.frame _ (metadataKey_ne_bucket hb hb') (fun hk ↦ hne (metadataKey_inj hb' hb hk)),
    metaAt]

theorem Effect.slots_ne (h : Effect H A F start b st r) (hb : isValidDataBucket b)
    (hb' : isValidDataBucket b') (hne : b' ≠ b) :
    slots (r.1.view F) b' = slots (st.view F) b' :=
  slots_congr (dataBucket_lt hb') fun k hk ↦ h.frame k (hk ▸ hne) (by
    rintro rfl
    exact metadataKey_ne_bucket hb' hb hk)

def Stray (k : SaltKey) : Prop :=
  k.isInMetaBucket = true ∧ ∀ b, isValidDataBucket b → k ≠ metadataKey b

theorem Effect.stray (h : Effect H A F start b st r) (hb : isValidDataBucket b) {k : SaltKey}
    (hk : Stray k) : r.1.view F k = st.view F k := by
  refine h.frame k (fun hkb ↦ ?_) (hk.2 b hb)
  have hnot := ofPair_not_inMeta hb k.slotId_lt
  rw [← hkb, k.ofPair_eta, hk.1] at hnot
  cases hnot

theorem Effect.all_good (h : Effect H A F start b st r) (hb : isValidDataBucket b)
    (hg : Good H (st.view F)) : Good H (r.1.view F) := by
  intro b' hb'
  by_cases hne : b' = b
  · exact hne ▸ h.good
  · exact (hg b' hb').congr (h.metaAt_ne hb hb' hne) (h.slots_ne hb hb' hne)

theorem Effect.trans (h : Effect H A F start b st r) (h' : Effect H A F start b r.1 r') :
    Effect H A F start b st r' :=
  ⟨h'.live, h.kept.trans h'.kept, fun k hk hk' ↦ (h'.frame k hk hk').trans (h.frame k hk hk'),
    h'.good⟩

structure Arranged (H : Hasher) (A : Fault → Prop) (F : Full) (start : SaltKey → Option SaltValue) (b : ℕ)
    (st : EphemeralSaltState) (r : EphemeralSaltState × StateUpdates) : Prop
    extends Moved A F start b st (slots (r.1.view F) b) r where
  good : GoodBucket H (r.1.view F) b

theorem Arranged.effect (h : Arranged H A F start b st r) (hl : Live A F start st out) :
    Effect H A F start b st r :=
  ⟨h.toMoved.live hl, h.kept, fun k hk _ ↦ h.frame k hk, h.good⟩

theorem Quiet.arranged (hq : Quiet F st st') (h : Tracked A F start st out)
    (hg : GoodBucket H (st.view F) b) : Arranged H A F start b st (st', out) := by
  have hv : (st', out).1.view F = st.view F := hq.view
  exact ⟨hv.symm ▸ hq.moved h b, hv.symm ▸ hg⟩

theorem Quiet.effect (hq : Quiet F st st') (h : Live A F start st out)
    (hg : GoodBucket H (st.view F) b) : Effect H A F start b st (st', out) :=
  (hq.arranged h.toTracked hg).effect h

theorem Quiet.effect_trans (hq : Quiet F st st') (h : Effect H A F start b st' r) :
    Effect H A F start b st r :=
  ⟨h.live, hq.kept.trans h.kept, fun k hk hk' ↦ by rw [h.frame k hk hk', hq.view], h.good⟩

theorem Moved.arranged {t : ℕ → Option SaltValue} (h : Moved A F start b st t r)
    (hb : isValidDataBucket b) (hg : GoodBucket H (st.view F) b)
    (ho : Ordered (metaAt (st.view F) b).capacity (home H (st.view F) b) SaltValue.key t)
    (hout : ∀ s, (metaAt (st.view F) b).capacity ≤ s → t s = none)
    (hent : ∀ v, Stored (metaAt (st.view F) b).capacity t v → v.WellFormed ∧ H.bucketId v.key = b) :
    Arranged H A F start b st r := by
  have hm := h.metaAt_eq hb hb
  have hh : home H (r.1.view F) b = home H (st.view F) b := by
    funext k
    rw [home, hm, home]
  refine ⟨h.table.symm ▸ h, ?_, ?_, ?_, ?_, ?_⟩
  · rw [hm]
    exact hg.capacity_pos
  · rw [hm]
    exact hg.capacity_le
  · rw [hm, hh, h.table]
    exact ho
  · rw [hm, h.table]
    exact hout
  · rw [h.table]
    intro s v hv
    refine hent v ⟨s, ?_, hv⟩
    by_contra hs
    rw [hout s (by omega)] at hv
    cases hv

theorem Moved.holds_iff {t : ℕ → Option SaltValue} (h : Moved A F start b st t r)
    (hb : isValidDataBucket b) (v : SaltValue) :
    Holds (r.1.view F) b v ↔ Stored (metaAt (st.view F) b).capacity t v := by
  rw [Holds, h.metaAt_eq hb hb, h.table]

theorem Moved.count_eq {t : ℕ → Option SaltValue} (h : Moved A F start b st t r)
    (hb : isValidDataBucket b) :
    count (r.1.view F) b = (occupied (metaAt (st.view F) b).capacity t).card := by
  rw [count, h.metaAt_eq hb hb, h.table]

end Effect

theorem view_insertRehashed : (st.insertRehashed b).view F = st.view F := by
  unfold insertRehashed
  split <;> rfl

theorem Live.insertRehashed (h : Live A F start st out) (b : ℕ) :
    Live A F start (st.insertRehashed b) out := by
  unfold EphemeralSaltState.insertRehashed
  split
  · exact h
  · exact ⟨⟨h.reads, h.cacheMeta, h.diff⟩, h.counted, h.usage⟩

theorem Kept.insertRehashed (h : Kept st st') (b : ℕ) : Kept st (st'.insertRehashed b) := by
  unfold EphemeralSaltState.insertRehashed
  split
  · exact h
  · exact ⟨h.store, h.cacheRead⟩

structure Rehashed (H : Hasher) (A : Fault → Prop) (F : Full) (start : SaltKey → Option SaltValue) (b : ℕ)
    (m : BucketMeta) (st : EphemeralSaltState) (r : EphemeralSaltState × StateUpdates) : Prop
    extends Effect H A F start b st r where
  shape : metaAt (r.1.view F) b = m
  holds : ∀ v, Holds (r.1.view F) b v ↔ Holds (st.view F) b v
  rehashed : ∀ b', b' ∈ r.1.rehashedBuckets ↔ b' = b ∨ b' ∈ st.rehashedBuckets

theorem Rehashed.nonce_eq {n : UInt32} {r : EphemeralSaltState × StateUpdates}
    (h : Rehashed H A F start b ⟨n, c, none⟩ st r) : (metaAt (r.1.view F) b).nonce = n := by
  rw [h.shape]

theorem Rehashed.capacity_eq {n : UInt32} {r : EphemeralSaltState × StateUpdates}
    (h : Rehashed H A F start b ⟨n, c, none⟩ st r) : (metaAt (r.1.view F) b).capacity = c := by
  rw [h.shape]

theorem shiRehash_spec (h : Live A F start st out) (hg : GoodBucket H (st.view F) b)
    (hb : isValidDataBucket b) (nonce : UInt32) {cap : ℕ} (hcap : 0 < cap)
    (hA : bucketSlotIdMask < cap → A (.panic (.exceedsMaxBucketCapacity cap))) :
    Sat (st.shiRehash H b nonce cap out) A (fun r ↦
      cap < count (st.view F) b ∧ Quiet F st r.1 ∧ r.2 = out ∨
      count (st.view F) b ≤ cap ∧ Rehashed H A F start b ⟨nonce, cap, none⟩ st r) := by
  rw [shiRehash]
  split
  · exact Sat.error (hA (by assumption))
  rename_i hmask
  have hcap' : cap < 2 ^ 40 := by
    simp only [bucketSlotIdMask] at hmask
    omega
  refine (metadata_used_spec h.counted h.cacheMeta h.usage hb).bind ?_
  rintro ⟨st₁, m₀⟩ ⟨hq₁, hm₀⟩
  simp only at hq₁ hm₀ ⊢
  have hc₀ : m₀.capacity = (metaAt (st.view F) b).capacity := by rw [← hm₀]
  have hlt₀ : m₀.capacity < 2 ^ 40 := hc₀ ▸ hg.capacity_lt
  refine (readBucket_spec (hq₁.store ▸ h.reads) hb (le_of_lt hlt₀)).bind ?_
  rintro ⟨st₂, old⟩ ⟨hq₂, hold⟩
  have hq : Quiet F st st₂ := hq₁.trans hq₂
  simp only at hold ⊢
  rw [hq₁.view, hc₀] at hold
  have hsize : old.size = count (st.view F) b := by
    rw [hold.size_eq hb (by omega), count]
  rw [hsize]
  split
  · exact Sat.ok (.inl ⟨by assumption, hq, rfl⟩)
  rename_i hfit
  obtain ⟨vs, hvs, hpairs⟩ := plainPairs_listing hold hb hg
  have hlen : vs.length = count (st.view F) b :=
    (card_occupied_of_list hg.ordered hg.capacity_pos hvs.desc hvs.mem).symm
  have hentry : ∀ v ∈ vs, v.WellFormed ∧ H.bucketId v.key = b := fun v hv ↦
    hg.holds_entry ((hvs.mem v).mpr hv)
  obtain ⟨new, hnew, hshows⟩ := reinsert_spec (H := H) hb hcap (le_of_lt hcap') nonce vs
    fun v hv ↦ (hentry v hv).1
  obtain ⟨hord, hstored, hcard⟩ := greedy_spec (fun k ↦ H.hashWithNonce k nonce) SaltValue.key
    hcap hvs.desc (by omega)
  rw [hpairs, hnew]
  have htr := h.toTracked.quiet hq
  refine (recordRehash_spec htr hb (le_of_lt hlt₀) (le_of_lt hcap')
    (by rw [hq.view, hc₀]; exact hold) hshows (by rw [hq.view, hc₀]; exact hg.outside)
    (fun s hs ↦ greedy_outside hcap vs hs)).bind ?_
  rintro ⟨st₃, out₃⟩ ⟨htr₃, hk₃, hre₃, hdel₃, hframe₃, hslots₃⟩
  simp only at htr₃ hk₃ hre₃ hdel₃ hframe₃ hslots₃ ⊢
  rw [hq.view] at hframe₃
  simp only [bucketMetadataKey, hb, if_true]
  set m' : BucketMeta := { m₀ with nonce := nonce, capacity := cap } with hm'
  have hmeta₃ : metaAt (st₃.view F) b = metaAt (st.view F) b := by
    rw [metaAt, hframe₃ _ (metadataKey_ne_bucket hb hb), metaAt]
  have hshape : metaAt (Function.update (st₃.view F) (metadataKey b) (some (SaltValue.ofMeta m'))) b =
      ⟨nonce, cap, none⟩ := by
    rw [metaAt, Function.update_self, metaOf_ofMeta (show m'.capacity < 2 ^ 64 by simp only [hm']; omega)]
  have hslots : slots (Function.update (st₃.view F) (metadataKey b) (some (SaltValue.ofMeta m'))) b =
      greedy cap (fun k ↦ H.hashWithNonce k nonce) SaltValue.key vs := by
    rw [slots_update_of_ne (dataBucket_lt hb) (metadataKey_ne_bucket hb hb), hslots₃]
  have hother : ∀ b', isValidDataBucket b' → b' ≠ b →
      count (Function.update (st₃.view F) (metadataKey b) (some (SaltValue.ofMeta m'))) b' =
        count (st.view F) b' := by
    intro b' hb' hne
    have hk : ∀ k : SaltKey, k.bucketId ≠ b → k ≠ metadataKey b →
        Function.update (st₃.view F) (metadataKey b) (some (SaltValue.ofMeta m')) k =
          st.view F k := fun k hk hk' ↦ by rw [Function.update_of_ne hk', hframe₃ k hk]
    refine count_congr ?_ (slots_congr (dataBucket_lt hb') fun k hkb ↦ hk k (hkb ▸ hne) ?_)
    · rw [metaAt, hk _ (metadataKey_ne_bucket hb hb') (fun he ↦ hne (metadataKey_inj hb' hb he)), metaAt]
    · rintro rfl
      exact metadataKey_ne_bucket hb' hb hkb
  have hcounted₃ : Reads st₃.store F A := by
    rw [hk₃.store, hq.store]
    exact h.counted
  obtain ⟨st₄, out₄, hw, hl₄, hk₄, hre₄, hv₄⟩ := htr₃.writeMeta hcounted₃ hb (m := m₀)
    (by rw [hmeta₃, hm₀]) (show m'.capacity < 2 ^ 64 from (by omega : cap < 2 ^ 64)) (by
      intro b' hb'
      have hu := h.usage b' hb'
      have hd : st₃.delta b' = st.delta b' := by
        rw [EphemeralSaltState.delta, hdel₃, hq.delta, EphemeralSaltState.delta]
      rw [hd, hu]
      by_cases hne : b' = b
      · rw [hne, ← hlen, ← hcard, count, hshape, hslots]
      · rw [hother b' hb' hne])
  rw [ok_bind, hw, ok_bind]
  refine Sat.ok (.inr ⟨not_lt.mp hfit, ⟨⟨hl₄.insertRehashed b, ((hq.kept.trans hk₃).trans hk₄).insertRehashed b,
    fun k hk hk' ↦ ?_, ?_⟩, ?_, fun v ↦ ?_, fun b' ↦ ?_⟩⟩)
  · rw [view_insertRehashed, hv₄, Function.update_of_ne hk', hframe₃ k hk]
  · simp only [view_insertRehashed, hv₄]
    exact goodBucket_greedy hshape hslots hcap (not_lt.mp hmask) hvs.desc (by omega) hentry
  · rw [view_insertRehashed, hv₄, hshape]
  · rw [view_insertRehashed, hv₄, Holds, hshape, hslots]
    exact (hstored v).trans (hvs.mem v).symm
  · rw [mem_insertRehashed, hre₄, hre₃, hq.rehashed]

end EphemeralSaltState

end Salt
