import Salt.State.Reading

namespace Salt

open Std (ExtTreeMap)
open Library.ProbeRing Library.OrderedTable Library.GreedyLayout Library.Triple

theorem card_occupied_update {V : Type*} {c s : ℕ} {t : ℕ → Option V} (hs : s < c) (x : Option V) :
    (occupied c (Function.update t s x)).card + (t s).isSome.toNat =
      (occupied c t).card + x.isSome.toNat := by
  cases ht : t s with
  | none =>
    have hnm : s ∉ occupied c t := by simp [mem_occupied, ht]
    cases x with
    | none => rw [occupied_update_none, Finset.erase_eq_of_notMem hnm]
    | some v => rw [occupied_update_some hs, Finset.card_insert_of_notMem hnm]; rfl
  | some v₀ =>
    have hm : s ∈ occupied c t := mem_occupied.mpr ⟨hs, by simp [ht]⟩
    cases x with
    | none =>
      have := Finset.card_pos.mpr ⟨s, hm⟩
      rw [occupied_update_none, Finset.card_erase_of_mem hm]
      simp only [Option.isSome_some, Bool.toNat_true, Option.isSome_none, Bool.toNat_false]
      omega
    | some v => rw [occupied_update_some hs, Finset.insert_eq_of_mem hm]; rfl

namespace EphemeralSaltState

variable {F : Full} {st st' st'' : EphemeralSaltState} {A : Fault → Prop} {out out' : StateUpdates}
  {start : SaltKey → Option SaltValue} {b c : ℕ}

/-- The part of the session invariant that holds between any two statements: reads agree with the
complete store, and the updates are the difference from the start. -/
structure Tracked (A : Fault → Prop) (F : Full) (start : SaltKey → Option SaltValue)
    (st : EphemeralSaltState) (out : StateUpdates) : Prop where
  reads : ReadsSlots st.store F A
  cacheMeta : st.CacheMeta
  diff : out.IsDiff start (st.view F)

structure Live (A : Fault → Prop) (F : Full) (start : SaltKey → Option SaltValue) (st : EphemeralSaltState)
    (out : StateUpdates) : Prop extends Tracked A F start st out where
  counted : Reads st.store F A
  usage : st.UsageOk F

structure Kept (st st' : EphemeralSaltState) : Prop where
  store : st'.store = st.store
  cacheRead : st'.cacheRead = st.cacheRead

theorem Kept.refl (st : EphemeralSaltState) : Kept st st := ⟨rfl, rfl⟩

theorem Kept.trans (h : Kept st st') (h' : Kept st' st'') : Kept st st'' :=
  ⟨h'.store.trans h.store, h'.cacheRead.trans h.cacheRead⟩

theorem Quiet.kept (h : Quiet F st st') : Kept st st' := ⟨h.store, h.cacheRead⟩

theorem Tracked.quiet (h : Tracked A F start st out) (hq : Quiet F st st') :
    Tracked A F start st' out :=
  ⟨hq.store ▸ h.reads, hq.cacheMeta h.cacheMeta, hq.view ▸ h.diff⟩

theorem Live.quiet (h : Live A F start st out) (hq : Quiet F st st') : Live A F start st' out :=
  ⟨h.toTracked.quiet hq, hq.store ▸ h.counted, hq.usageOk h.usage⟩

theorem ofPair_ne_metadataKey (hb : isValidDataBucket b) {s b' : ℕ} (hs : s < 2 ^ 40)
    (hb' : isValidDataBucket b') : SaltKey.ofPair b s ≠ metadataKey b' := by
  intro he
  have h := ofPair_not_inMeta hb hs
  rw [he, metadataKey_inMeta hb'] at h
  cases h

theorem delta_insert (b' : ℕ) (x : ℤ) (d : ExtTreeMap ℕ ℤ) :
    ((d.insert b x)[b']?).getD 0 = if b' = b then x else (d[b']?).getD 0 := by
  by_cases h : b = b'
  · subst h
    simp
  · simp [ExtTreeMap.getElem?_insert, h, Ne.symm h]

theorem count_update_slot {w : SaltKey → Option SaltValue} (hb : isValidDataBucket b) {s : ℕ}
    (hs : s < (metaAt w b).capacity) (hs' : s < 2 ^ 40) (x : Option SaltValue) :
    count (Function.update w (SaltKey.ofPair b s) x) b + (slots w b s).isSome.toNat =
      count w b + x.isSome.toNat := by
  unfold count
  rw [metaAt_update_of_ne (ofPair_ne_metadataKey hb hs' hb), slots_update (dataBucket_lt hb) hs']
  exact card_occupied_update hs x

theorem count_update_other {w : SaltKey → Option SaltValue} {b' : ℕ} (hb : isValidDataBucket b)
    (hb' : isValidDataBucket b') (hne : b' ≠ b) {s : ℕ} (hs' : s < 2 ^ 40) (x : Option SaltValue) :
    count (Function.update w (SaltKey.ofPair b s) x) b' = count w b' := by
  have hbid := SaltKey.bucketId_ofPair (dataBucket_lt hb) hs'
  exact count_congr (metaAt_update_of_ne (ofPair_ne_metadataKey hb hs' hb') x)
    (slots_update_of_ne (dataBucket_lt hb') (by rw [hbid]; exact Ne.symm hne) x)

theorem Tracked.write (h : Tracked A F start st out) (hb : isValidDataBucket b) {s : ℕ}
    (hs : s < (metaAt (st.view F) b).capacity) (hs' : s < 2 ^ 40) (x : Option SaltValue) :
    ∃ st' out', st.updateValue out (SaltKey.ofPair b s) (slots (st.view F) b s) x = .ok (st', out') ∧
      Tracked A F start st' out' ∧ (st.UsageOk F → st'.UsageOk F) ∧ Kept st st' ∧ st'.rehashedBuckets =
        st.rehashedBuckets ∧
      st'.view F = Function.update (st.view F) (SaltKey.ofPair b s) x := by
  have hmeta := ofPair_not_inMeta hb hs'
  have hbid := SaltKey.bucketId_ofPair (dataBucket_lt hb) hs'
  have hold : st.view F (SaltKey.ofPair b s) = slots (st.view F) b s := (slots_eq hs').symm
  unfold updateValue
  by_cases he : slots (st.view F) b s = x
  · refine ⟨st, out, by rw [if_pos he], h, id, .refl st, rfl, ?_⟩
    rw [← he, ← hold, Function.update_eq_self]
  obtain ⟨out', hout, hd⟩ := h.diff.add (SaltKey.ofPair b s) x
  rw [hold] at hout
  rw [if_neg he, hout]
  have hview : ∀ u : ExtTreeMap ℕ ℤ,
      ({ st with usageCountDelta := u, cache := st.cache.insert (SaltKey.ofPair b s) x } :
        EphemeralSaltState).view F = Function.update (st.view F) (SaltKey.ofPair b s) x :=
    fun u ↦ view_insert_data { st with usageCountDelta := u } hmeta x
  refine ⟨_, out', rfl, ⟨h.reads, ?_, ?_⟩, ?_, ⟨rfl, rfl⟩, rfl, hview _⟩
  · exact h.cacheMeta.insert_data hmeta x
  · rw [hview]
    exact hd
  · intro husage b' hb'
    have hu := husage b' hb'
    rw [hview]
    simp only [EphemeralSaltState.delta, hbid] at hu ⊢
    by_cases hbb : b' = b
    · subst hbb
      have hcount := count_update_slot hb hs hs' x
      split
      · omega
      · rw [delta_insert, if_pos rfl]
        omega
    · rw [count_update_other hb hb' hbb hs']
      split
      · exact hu
      · rw [delta_insert, if_neg hbb]
        exact hu

/-- Writing the metadata of a bucket, when the usage counts are exact for the new metadata. -/
theorem Tracked.writeMeta (h : Tracked A F start st out) (hR : Reads st.store F A) (hb : isValidDataBucket b)
    {m m' : BucketMeta} (hm : { m with used := none } = metaAt (st.view F) b)
    (hm' : m'.capacity < 2 ^ 64)
    (husage : ∀ b', isValidDataBucket b' → (F.used b' : ℤ) + st.delta b' =
      count (Function.update (st.view F) (metadataKey b) (some (SaltValue.ofMeta m'))) b') :
    ∃ st' out', st.updateValue out (metadataKey b) (some (SaltValue.ofMeta m))
        (some (SaltValue.ofMeta m')) = .ok (st', out') ∧
      Live A F start st' out' ∧ Kept st st' ∧ st'.rehashedBuckets = st.rehashedBuckets ∧
      st'.view F = Function.update (st.view F) (metadataKey b) (some (SaltValue.ofMeta m')) := by
  have hmeta := metadataKey_inMeta hb
  have hold : st.view F (metadataKey b) = some (SaltValue.ofMeta m) := by
    rw [view_meta hb, ← hm]
    rfl
  unfold updateValue
  by_cases he : some (SaltValue.ofMeta m) = some (SaltValue.ofMeta m')
  · have hsame : Function.update (st.view F) (metadataKey b) (some (SaltValue.ofMeta m')) =
        st.view F := by rw [← he, ← hold, Function.update_eq_self]
    refine ⟨st, out, by rw [if_pos he], ⟨h, hR, fun b' hb' ↦ ?_⟩, .refl st, rfl, hsame.symm⟩
    rw [husage b' hb', hsame]
  obtain ⟨out', hout, hd⟩ := h.diff.add (metadataKey b) (some (SaltValue.ofMeta m'))
  rw [hold] at hout
  rw [if_neg he, hout]
  have henc : SaltValue.ofMeta (metaOf (some (SaltValue.ofMeta m'))) = SaltValue.ofMeta m' := by
    rw [metaOf_ofMeta hm']
    rfl
  have hview := view_insert_meta (F := F) st hmeta (some (SaltValue.ofMeta m'))
  rw [henc] at hview
  refine ⟨_, out', rfl, ⟨⟨h.reads, ?_, ?_⟩, hR, ?_⟩, ⟨rfl, rfl⟩, rfl, hview⟩
  · exact h.cacheMeta.insert_meta fun x hx ↦ ⟨m', (Option.some.inj hx).symm, hm'⟩
  · change out'.IsDiff start (EphemeralSaltState.view F
      { st with cache := st.cache.insert (metadataKey b) (some (SaltValue.ofMeta m')) })
    rw [hview]
    exact hd
  · intro b' hb'
    change (F.used b' : ℤ) + st.delta b' = count (EphemeralSaltState.view F
      { st with cache := st.cache.insert (metadataKey b) (some (SaltValue.ofMeta m')) }) b'
    rw [hview, husage b' hb']

end EphemeralSaltState

end Salt
