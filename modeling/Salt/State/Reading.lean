import Salt.State.View

namespace Salt

open Std (ExtTreeMap)
open Library.ProbeRing Library.OrderedTable Library.GreedyLayout Library.Triple

/-- A reader whose slots and metadata agree with a complete store, or fail in a way that `A` describes. -/
structure ReadsSlots (store : StateReader) (F : Full) (A : Fault → Prop) : Prop where
  value : ∀ k : SaltKey, k.isInMetaBucket = false → Sat (store.value k) A (fun v ↦ v = F.kv k)
  metadata : ∀ b, isValidDataBucket b →
    Sat (store.metadata b) A (fun m ↦ { m with used := none } = metaAt F.kv b)
  fast : ∀ k, (∃ sk : SaltKey, store.plainValueFast k = .ok sk ∧ sk.isInMetaBucket = false) ∨
    ∃ e, store.plainValueFast k = .error (.err e)

structure Reads (store : StateReader) (F : Full) (A : Fault → Prop) : Prop extends ReadsSlots store F A where
  used : ∀ b, isValidDataBucket b → Sat (store.bucketUsedSlots b) A (fun n ↦ n = F.used b)

def Complete (A : Fault → Prop) : Prop := ∀ e, ¬ A (.err e)

theorem sat_attempt {α : Type} {m : Except Fault α} {A : Fault → Prop} {post : α → Prop}
    (h : Sat m A post) :
    Sat (attempt m) A (fun r ↦ match r with
      | some a => post a
      | none => ∃ e, A (.err e)) := by
  cases m with
  | ok a => exact h
  | error e =>
    cases e with
    | err e => exact Sat.ok ⟨e, h⟩
    | panic q => exact Sat.error h

namespace EphemeralSaltState

def rawView (F : Full) (st : EphemeralSaltState) (k : SaltKey) : Option SaltValue :=
  match st.cache[k]? with
  | some v => v
  | none => F.kv k

def view (F : Full) (st : EphemeralSaltState) : SaltKey → Option SaltValue :=
  normalize (st.rawView F)

def delta (st : EphemeralSaltState) (b : ℕ) : ℤ := (st.usageCountDelta[b]?).getD 0

def CacheMeta (st : EphemeralSaltState) : Prop :=
  ∀ b, isValidDataBucket b → ∀ v, st.cache[metadataKey b]? = some (some v) →
    ∃ m : BucketMeta, v = SaltValue.ofMeta m ∧ m.capacity < 2 ^ 64

/-- A step that only reads: the session shows the same entries and counts afterwards. -/
structure Quiet (F : Full) (st st' : EphemeralSaltState) : Prop where
  store : st'.store = st.store
  cacheRead : st'.cacheRead = st.cacheRead
  rehashed : st'.rehashedBuckets = st.rehashedBuckets
  delta : st'.usageCountDelta = st.usageCountDelta
  view : st'.view F = st.view F
  cacheMeta : st.CacheMeta → st'.CacheMeta

variable {F : Full} {st st' st'' : EphemeralSaltState} {A : Fault → Prop}

theorem Quiet.refl (F : Full) (st : EphemeralSaltState) : Quiet F st st :=
  ⟨rfl, rfl, rfl, rfl, rfl, id⟩

theorem Quiet.trans (h : Quiet F st st') (h' : Quiet F st' st'') : Quiet F st st'' :=
  ⟨h'.store.trans h.store, h'.cacheRead.trans h.cacheRead, h'.rehashed.trans h.rehashed,
    h'.delta.trans h.delta, h'.view.trans h.view, fun hc ↦ h'.cacheMeta (h.cacheMeta hc)⟩

theorem view_data {k : SaltKey} (hk : k.isInMetaBucket = false) : st.view F k = st.rawView F k :=
  normalize_data hk

theorem metaAt_view (st : EphemeralSaltState) {b : ℕ} (hb : isValidDataBucket b) :
    metaAt (st.view F) b = metaOf (st.rawView F (metadataKey b)) := metaAt_normalize _ hb

theorem view_meta {b : ℕ} (hb : isValidDataBucket b) :
    st.view F (metadataKey b) = some (SaltValue.ofMeta (metaAt (st.view F) b)) := by
  rw [metaAt_view st hb, view, normalize_meta (metadataKey_inMeta hb)]

theorem rawView_insert (k j : SaltKey) (v : Option SaltValue) :
    ({ st with cache := st.cache.insert k v }).rawView F j =
      Function.update (st.rawView F) k v j := by
  by_cases h : k = j
  · subst h
    simp [rawView]
  · rw [Function.update_of_ne (Ne.symm h)]
    simp [rawView, ExtTreeMap.getElem?_insert, h]

theorem view_insert_data (st : EphemeralSaltState) {k : SaltKey} (hk : k.isInMetaBucket = false)
    (v : Option SaltValue) :
    ({ st with cache := st.cache.insert k v }).view F = Function.update (st.view F) k v := by
  funext j
  by_cases h : j = k
  · subst h
    rw [view_data hk, rawView_insert, Function.update_self, Function.update_self]
  · rw [Function.update_of_ne h, view, normalize, rawView_insert, Function.update_of_ne h, view,
      normalize]

theorem view_insert_meta (st : EphemeralSaltState) {k : SaltKey} (hk : k.isInMetaBucket = true) (v : Option SaltValue) :
    ({ st with cache := st.cache.insert k v }).view F =
      Function.update (st.view F) k (some (SaltValue.ofMeta (metaOf v))) := by
  funext j
  by_cases h : j = k
  · subst h
    rw [view, normalize_meta hk, rawView_insert, Function.update_self, Function.update_self]
  · rw [Function.update_of_ne h, view, normalize, rawView_insert, Function.update_of_ne h, view,
      normalize]

theorem CacheMeta.insert_data (h : st.CacheMeta) {k : SaltKey} (hk : k.isInMetaBucket = false)
    (v : Option SaltValue) : ({ st with cache := st.cache.insert k v }).CacheMeta := by
  intro b hb x hx
  have hne : k ≠ metadataKey b := by
    rintro rfl
    rw [metadataKey_inMeta hb] at hk
    cases hk
  rw [ExtTreeMap.getElem?_insert] at hx
  simp only [Std.LawfulEqCmp.compare_eq_iff_eq, hne, if_false] at hx
  exact h b hb x hx

theorem CacheMeta.insert_meta (h : st.CacheMeta) {k : SaltKey} {v : Option SaltValue}
    (hv : ∀ x, v = some x → ∃ m : BucketMeta, x = SaltValue.ofMeta m ∧ m.capacity < 2 ^ 64) :
    ({ st with cache := st.cache.insert k v }).CacheMeta := by
  intro b hb x hx
  rw [ExtTreeMap.getElem?_insert] at hx
  split at hx
  · exact hv x (Option.some.inj hx)
  · exact h b hb x hx

theorem value_spec (hR : ReadsSlots st.store F A) {k : SaltKey} (hk : k.isInMetaBucket = false) :
    Sat (st.value k) A (fun r ↦ Quiet F st r.1 ∧ r.2 = st.view F k) := by
  unfold EphemeralSaltState.value
  cases hc : st.cache[k]? with
  | some v => exact Sat.ok ⟨.refl F st, by rw [view_data hk, rawView, hc]⟩
  | none =>
    refine (hR.value k hk).bind fun v hv ↦ Sat.ok ?_
    have hval : v = st.view F k := by rw [view_data hk, rawView, hc, hv]
    split
    · refine ⟨⟨rfl, rfl, rfl, rfl, ?_, fun h ↦ h.insert_data hk v⟩, hval⟩
      rw [view_insert_data st hk, hval, Function.update_eq_self]
    · exact ⟨.refl F st, hval⟩

theorem slot_spec (hR : ReadsSlots st.store F A) {b s : ℕ} (hb : isValidDataBucket b) (hs : s < 2 ^ 40) :
    Sat (st.value (SaltKey.ofPair b s)) A
      (fun r ↦ Quiet F st r.1 ∧ r.2 = slots (st.view F) b s) := by
  rw [slots_eq hs]
  exact value_spec hR (ofPair_not_inMeta hb hs)

def UsageOk (F : Full) (st : EphemeralSaltState) : Prop :=
  ∀ b, isValidDataBucket b → (F.used b : ℤ) + st.delta b = count (st.view F) b

theorem Quiet.usageOk (h : Quiet F st st') (hu : st.UsageOk F) : st'.UsageOk F := by
  intro b hb
  rw [EphemeralSaltState.delta, h.delta, h.view]
  exact hu b hb

theorem usageCount_spec (hR : Reads st.store F A) (hu : st.UsageOk F) {b : ℕ}
    (hb : isValidDataBucket b) :
    Sat (st.usageCount b) A (fun n ↦ n = count (st.view F) b) := by
  refine (hR.used b hb).bind fun n hn ↦ ?_
  have hc := hu b hb
  subst hn
  simp only [EphemeralSaltState.delta] at hc
  rw [if_neg (by omega)]
  refine Sat.ok ?_
  omega

theorem isDefault_metaOf {o : Option SaltValue} (h : (metaOf o).isDefault = true) :
    metaOf o = BucketMeta.default := by
  have hu := (metaOf_bounds o).2
  cases hm : metaOf o with
  | mk n c u =>
    rw [hm] at h hu
    simp [BucketMeta.isDefault] at h
    simp_all [BucketMeta.default]

theorem metaAt_used (w : SaltKey → Option SaltValue) (b : ℕ) : (metaAt w b).used = none :=
  (metaOf_bounds _).2

theorem quiet_cache_meta {b : ℕ} (hb : isValidDataBucket b) {m : BucketMeta}
    (hm : { m with used := none } = metaAt (st.view F) b) :
    let entry := if m.isDefault then none else some (SaltValue.ofMeta m)
    Quiet F st { st with cache := st.cache.insert (metadataKey b) entry } := by
  intro entry
  have hv := metaAt_view (F := F) st hb
  refine ⟨rfl, rfl, rfl, rfl, ?_, fun h ↦ h.insert_meta fun x hx ↦ ?_⟩
  · rw [view_insert_meta st (metadataKey_inMeta hb), Function.update_eq_self_iff, view_meta hb]
    congr 2
    by_cases hd : m.isDefault = true
    · have hd' : (metaOf (st.rawView F (metadataKey b))).isDefault = true := by
        rw [← hv, ← hm]
        exact hd
      rw [show entry = none from if_pos hd, hv, isDefault_metaOf hd']
      rfl
    · have he : SaltValue.ofMeta m = SaltValue.ofMeta (metaAt (st.view F) b) := by rw [← hm]; rfl
      rw [show entry = some (SaltValue.ofMeta m) from if_neg hd, he, hv, metaOf_metaOf]
  · simp only [entry] at hx
    split at hx
    · cases hx
    · refine ⟨m, (Option.some.inj hx).symm, ?_⟩
      have hc : m.capacity = (metaAt (st.view F) b).capacity := by rw [← hm]
      rw [hc]
      exact (metaOf_bounds _).1

theorem shapeOf_spec (hR : ReadsSlots st.store F A) (hm : st.CacheMeta) {b : ℕ}
    (hb : isValidDataBucket b) :
    Sat (st.shapeOf b) A
      (fun r ↦ Quiet F st r.1 ∧ { r.2 with used := none } = metaAt (st.view F) b) := by
  have hraw := metaAt_view (F := F) st hb
  rw [rawView] at hraw
  rw [EphemeralSaltState.shapeOf, bucketMetadataKey, if_pos hb, ok_bind]
  cases hc : st.cache[metadataKey b]? with
  | some e =>
    rw [hc] at hraw
    cases e with
    | some v =>
      obtain ⟨m, rfl, hlt⟩ := hm b hb v hc
      simp only [BucketMeta.tryFrom_ofMeta hlt]
      exact Sat.ok ⟨.refl F st, by rw [hraw]; simp only; rw [metaOf_ofMeta hlt]⟩
    | none => exact Sat.ok ⟨.refl F st, by rw [hraw]; rfl⟩
  | none =>
    rw [hc] at hraw
    refine (hR.metadata b hb).bind fun m hmeta ↦ Sat.ok ?_
    have hmeta' : { m with used := none } = metaAt (st.view F) b := by rw [hmeta, hraw, metaAt]
    refine ⟨?_, hmeta'⟩
    split
    · exact quiet_cache_meta hb hmeta'
    · exact .refl F st

theorem metadata_spec (hR : ReadsSlots st.store F A) (hm : st.CacheMeta) {b : ℕ}
    (hb : isValidDataBucket b) :
    Sat (st.metadata b false) A
      (fun r ↦ Quiet F st r.1 ∧ r.2 = metaAt (st.view F) b) :=
  (shapeOf_spec hR hm hb).bind fun _ hr ↦ Sat.ok hr

theorem metadata_used_spec (hR : Reads st.store F A) (hm : st.CacheMeta) (hu : st.UsageOk F) {b : ℕ}
    (hb : isValidDataBucket b) :
    Sat (st.metadata b true) A (fun r ↦ Quiet F st r.1 ∧
      { r.2 with used := none } = metaAt (st.view F) b) :=
  (shapeOf_spec hR.toReadsSlots hm hb).bind fun _ hr ↦
    (usageCount_spec (hr.1.store ▸ hR) (hr.1.usageOk hu) hb).bind fun _ _ ↦ Sat.ok hr

end EphemeralSaltState

end Salt
