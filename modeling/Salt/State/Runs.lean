import Salt.State.Canonicalize
import Mathlib.Data.Set.Card

namespace Salt

open Library.ProbeRing Library.OrderedTable Library.GreedyLayout Library.OrderedProbing Library.Triple

section Keys

open EphemeralSaltState

variable {H : Hasher} {M : Bytes → Option Bytes} {w : SaltKey → Option SaltValue} {b : ℕ}

def keysIn (H : Hasher) (M : Bytes → Option Bytes) (b : ℕ) : Set Bytes :=
  { k | H.bucketId k = b ∧ (M k).isSome }

theorem Represents.keysIn_eq (h : Represents H w M) (hg : GoodBucket H w b) :
    keysIn H M b =
      (((entries (metaAt w b).capacity (slots w b)).map SaltValue.key).toFinset : Set Bytes) := by
  ext k
  simp only [keysIn, Set.mem_ofPred_eq, List.coe_toFinset, List.mem_map]
  constructor
  · rintro ⟨rfl, hk⟩
    obtain ⟨x, hx⟩ := Option.isSome_iff_exists.mp hk
    obtain ⟨v, hv, hvk, -⟩ := (h k x).mp hx
    exact ⟨v, (mem_entries v).mpr hv, hvk⟩
  · rintro ⟨v, hv, rfl⟩
    have hv' : Holds w b v := (mem_entries v).mp hv
    have hid := (hg.holds_entry hv').2
    exact ⟨hid, Option.isSome_iff_exists.mpr ⟨v.value, (h _ _).mpr ⟨v, hid.symm ▸ hv', rfl, rfl⟩⟩⟩

theorem Represents.count_eq (h : Represents H w M) (hg : GoodBucket H w b) :
    count w b = (keysIn H M b).ncard := by
  have hnd : ((entries (metaAt w b).capacity (slots w b)).map SaltValue.key).Nodup := by
    rw [List.Nodup, List.pairwise_map]
    exact Ordered.pairwise_entries hg.ordered hg.capacity_pos
  rw [h.keysIn_eq hg, Set.ncard_coe_finset, List.toFinset_card_of_nodup hnd, List.length_map, length_entries,
    count]

theorem keysIn_update_some (M : Bytes → Option Bytes) (k x : Bytes) :
    keysIn H (Function.update M k (some x)) (H.bucketId k) = insert k (keysIn H M (H.bucketId k)) := by
  ext j
  rw [Set.mem_insert_iff]
  by_cases hj : j = k
  · subst hj
    exact ⟨fun _ ↦ .inl rfl, fun _ ↦ ⟨rfl, by rw [Function.update_self]; rfl⟩⟩
  · simp only [keysIn, Set.mem_ofPred_eq, Function.update_of_ne hj, hj, false_or]

/-- Inserting a key leaves as many entries in its bucket as the new map has keys there. -/
theorem Represents.bounds (h : Represents H w M) (hg : Good H w) (k x : Bytes) :
    Bounds w (H.bucketId k) k (keysIn H (Function.update M k (some x)) (H.bucketId k)).ncard := by
  have hgb := hg _ (H.bucketId_data k)
  have hfin : (keysIn H M (H.bucketId k)).Finite := by
    rw [h.keysIn_eq hgb]
    exact Finset.finite_toSet _
  rw [keysIn_update_some, Bounds, h.count_eq hgb]
  refine ⟨Set.ncard_le_ncard (Set.subset_insert _ _) (hfin.insert k), fun hfresh ↦ ?_⟩
  rw [Set.ncard_insert_of_notMem _ hfin]
  rintro ⟨-, hk⟩
  obtain ⟨y, hy⟩ := Option.isSome_iff_exists.mp hk
  obtain ⟨v, hv, hvk, -⟩ := (h k y).mp hy
  exact hfresh v hv hvk

def CappedAfter (A : Fault → Prop) (H : Hasher) (M : Bytes → Option Bytes) (kvs : List (Bytes × Option Bytes)) : Prop :=
  ∀ done, done <+: kvs → ∀ b, Capped A (keysIn H (applyAll M done) b).ncard

end Keys

namespace EphemeralSaltState

variable {F : Full} {st st' : EphemeralSaltState} {A : Fault → Prop} {out : StateUpdates}
  {start : SaltKey → Option SaltValue} {b c : ℕ} {H : Hasher} {M : Bytes → Option Bytes}

structure Steady (H : Hasher) (A : Fault → Prop) (F : Full) (M : Bytes → Option Bytes)
    (st : EphemeralSaltState) : Prop where
  reads : Reads st.store F A
  cacheMeta : st.CacheMeta
  usage : st.UsageOk F
  good : Good H (st.view F)
  represents : Represents H (st.view F) M
  buckets : ∀ b ∈ st.rehashedBuckets, isValidDataBucket b

structure Stepped (H : Hasher) (A : Fault → Prop) (F : Full) (M : Bytes → Option Bytes)
    (st : EphemeralSaltState) (r : EphemeralSaltState × StateUpdates) : Prop where
  steady : Steady H A F M r.1
  kept : Kept st r.1
  diff : r.2.IsDiff (st.view F) (r.1.view F)
  stray : ∀ k, Stray k → r.1.view F k = st.view F k

theorem Steady.live (h : Steady H A F M st) : Live A F (st.view F) st .empty :=
  ⟨⟨h.reads.toReadsSlots, h.cacheMeta, StateUpdates.isDiff_empty _⟩, h.reads, h.usage⟩

theorem Steady.quiet (h : Steady H A F M st) (hq : Quiet F st st') : Steady H A F M st' :=
  ⟨hq.store ▸ h.reads, hq.cacheMeta h.cacheMeta, hq.usageOk h.usage, hq.view ▸ h.good,
    hq.view ▸ h.represents, hq.rehashed ▸ h.buckets⟩

/-- How plain updates change the shape of buckets: nonces stay, only rehashed buckets change, and no
bucket becomes overloaded. -/
structure Grown (A : Fault → Prop) (F : Full) (st st' : EphemeralSaltState) : Prop where
  nonce : ∀ b, isValidDataBucket b → (metaAt (st'.view F) b).nonce = (metaAt (st.view F) b).nonce
  mono : ∀ b ∈ st.rehashedBuckets, b ∈ st'.rehashedBuckets
  same : ∀ b, isValidDataBucket b → b ∉ st'.rehashedBuckets →
    metaAt (st'.view F) b = metaAt (st.view F) b
  load : Complete A → ∀ b, isValidDataBucket b →
    count (st.view F) b * 100 ≤ (metaAt (st.view F) b).capacity * 80 →
    count (st'.view F) b * 100 ≤ (metaAt (st'.view F) b).capacity * 80

theorem Grown.refl (A : Fault → Prop) (F : Full) (st : EphemeralSaltState) : Grown A F st st :=
  ⟨fun _ _ ↦ rfl, fun _ ↦ id, fun _ _ _ ↦ rfl, fun _ _ _ ↦ id⟩

theorem Grown.trans {st'' : EphemeralSaltState} (h : Grown A F st st') (h' : Grown A F st' st'') :
    Grown A F st st'' where
  nonce b hb := (h'.nonce b hb).trans (h.nonce b hb)
  mono b hb := h'.mono b (h.mono b hb)
  same b hb hn := (h'.same b hb hn).trans (h.same b hb fun hin ↦ hn (h'.mono b hin))
  load hC b hb hl := h'.load hC b hb (h.load hC b hb hl)

section Applied

variable {kv : Bytes × Option Bytes} {r : EphemeralSaltState × StateUpdates}

theorem Applied.rehashed (h : Applied H A F start kv st r) :
    metaAt (r.1.view F) (H.bucketId kv.1) = metaAt (st.view F) (H.bucketId kv.1) ∧
      r.1.rehashedBuckets = st.rehashedBuckets ∨
    ∀ b', b' ∈ r.1.rehashedBuckets ↔ b' = H.bucketId kv.1 ∨ b' ∈ st.rehashedBuckets := by
  cases h with
  | upserted x v hx hv h => exact h.rehashed
  | deleted hx h => exact .inl ⟨h.shape, h.rehashed⟩

theorem Applied.buckets (h : Applied H A F start kv st r)
    (hb : ∀ b ∈ st.rehashedBuckets, isValidDataBucket b) :
    ∀ b ∈ r.1.rehashedBuckets, isValidDataBucket b := by
  intro b hbr
  rcases h.rehashed with ⟨-, he⟩ | he
  · exact hb b (he ▸ hbr)
  · rcases (he b).mp hbr with rfl | hbs
    · exact H.bucketId_data kv.1
    · exact hb b hbs

theorem Applied.nonce (h : Applied H A F start kv st r) :
    (metaAt (r.1.view F) (H.bucketId kv.1)).nonce = (metaAt (st.view F) (H.bucketId kv.1)).nonce := by
  cases h with
  | upserted x v hx hv h => exact h.nonce
  | deleted hx h => rw [h.shape]

theorem Applied.load (h : Applied H A F start kv st r) (hC : Complete A)
    (hl : count (st.view F) (H.bucketId kv.1) * 100 ≤
      (metaAt (st.view F) (H.bucketId kv.1)).capacity * 80) :
    count (r.1.view F) (H.bucketId kv.1) * 100 ≤
      (metaAt (r.1.view F) (H.bucketId kv.1)).capacity * 80 := by
  cases h with
  | upserted x v hx hv h => exact (h.resized hC hl).load
  | deleted hx h =>
    have := h.count_le
    rw [h.shape]
    omega

theorem Applied.grown (h : Applied H A F start kv st r) : Grown A F st r.1 := by
  have hk := H.bucketId_data kv.1
  have hmeta := fun (b : ℕ) (hb : isValidDataBucket b) hne ↦ h.effect.metaAt_ne hk hb hne
  refine ⟨fun b hb ↦ ?_, fun b hb ↦ ?_, fun b hb hn ↦ ?_, fun hC b hb hl ↦ ?_⟩
  · by_cases hne : b = H.bucketId kv.1
    · subst hne
      exact h.nonce
    · rw [hmeta b hb hne]
  · rcases h.rehashed with ⟨-, he⟩ | he
    · exact he ▸ hb
    · exact (he b).mpr (.inr hb)
  · by_cases hne : b = H.bucketId kv.1
    · subst hne
      rcases h.rehashed with ⟨hm, -⟩ | he
      · exact hm
      · exact absurd ((he _).mpr (.inl rfl)) hn
    · exact hmeta b hb hne
  · by_cases hne : b = H.bucketId kv.1
    · subst hne
      exact h.load hC hl
    · rw [count_congr (hmeta b hb hne) (h.effect.slots_ne hk hb hne), hmeta b hb hne]
      exact hl

end Applied

theorem applyAll_append (M : Bytes → Option Bytes) (kvs kvs' : List (Bytes × Option Bytes)) :
    applyAll M (kvs ++ kvs') = applyAll (applyAll M kvs) kvs' := List.foldl_append

theorem update_spec {fuel : ℕ} (hf : 2 ≤ fuel) (h : Steady H A F M st)
    {kvs : List (Bytes × Option Bytes)} (hA : CappedAfter A H M kvs) (hfit : FitsOr A kvs) :
    Sat (st.update H fuel kvs) A (fun r ↦ Stepped H A F (applyAll M kvs) st r ∧
      Grown A F st r.1) := by
  have hloop := Sat.foldlM (A := A) (f := applyOne H fuel)
    (fun done (r : EphemeralSaltState × StateUpdates) ↦
      Live A F (st.view F) r.1 r.2 ∧ Good H (r.1.view F) ∧
      Represents H (r.1.view F) (applyAll M done) ∧ (∀ b ∈ r.1.rehashedBuckets, isValidDataBucket b) ∧
      Kept st r.1 ∧ (∀ k, Stray k → r.1.view F k = st.view F k) ∧
      Grown A F st r.1) kvs (st, .empty)
    ⟨h.live, h.good, h.represents, h.buckets, .refl st, fun _ _ ↦ rfl, .refl A F st⟩ ?_
  · exact hloop.mono fun r ⟨hl, hg, hM, hb, hk, hs, hload⟩ ↦
      ⟨⟨⟨hl.counted, hl.cacheMeta, hl.usage, hg, hM, hb⟩, hk, hl.diff, hs⟩, hload⟩
  · rintro done kv rest rfl ⟨st₁, out₁⟩ ⟨hl, hg, hM, hb, hk, hs, hload⟩
    have hcapped := hA (done ++ [kv]) ⟨rest, by simp⟩ (H.bucketId kv.1)
    have hbounds : kv.2.isSome → Bounds (st₁.view F) (H.bucketId kv.1) kv.1
        (keysIn H (applyAll M (done ++ [kv])) (H.bucketId kv.1)).ncard := by
      intro hsome
      obtain ⟨x, hx⟩ := Option.isSome_iff_exists.mp hsome
      rw [applyAll_append]
      change Bounds _ _ _ (keysIn H (Function.update (applyAll M done) kv.1 kv.2) _).ncard
      rw [hx]
      exact hM.bounds hg kv.1 x
    refine (applyOne_spec hf hcapped hl hg hbounds (hfit kv (by simp))).mono fun r hr ↦ ?_
    have heff := hr.effect
    refine ⟨heff.live, heff.all_good (H.bucketId_data kv.1) hg, ?_, hr.buckets hb,
      hk.trans heff.kept, fun k hsk ↦ (heff.stray (H.bucketId_data kv.1) hsk).trans (hs k hsk),
      hload.trans hr.grown⟩
    rw [applyAll_append]
    exact hr.represents hM

structure Settled (A : Fault → Prop) (F : Full) (st : EphemeralSaltState)
    (r : EphemeralSaltState × StateUpdates) : Prop where
  rehashed : r.1.rehashedBuckets = []
  rebuilt : ∀ b ∈ st.rehashedBuckets, (metaAt (r.1.view F) b).nonce = (metaAt F.kv b).nonce ∧
    (Complete A → Resized (metaAt F.kv b).capacity (count (r.1.view F) b) (metaAt (r.1.view F) b).capacity)
  same : ∀ b, isValidDataBucket b → b ∉ st.rehashedBuckets →
    metaAt (r.1.view F) b = metaAt (st.view F) b ∧ slots (r.1.view F) b = slots (st.view F) b

theorem canonicalize_spec {fuel : ℕ} (hf : 2 ≤ fuel) (hA : ∀ b, Capped A (keysIn H M b).ncard) (hF : BaseShape F)
    {order : List ℕ → List ℕ} (horder : ∀ l b, b ∈ order l ↔ b ∈ l) (h : Steady H A F M st) :
    Sat (st.canonicalize H fuel order) A (fun r ↦ Stepped H A F M st r ∧ Settled A F st r) := by
  have hl₀ : Live A F (st.view F) { st with rehashedBuckets := [] } .empty :=
    ⟨⟨h.reads.toReadsSlots, h.cacheMeta, StateUpdates.isDiff_empty _⟩, h.reads, h.usage⟩
  have hloop := Sat.foldlM (A := A)
    (f := fun (acc : EphemeralSaltState × StateUpdates) b ↦ acc.1.canonicalizeBucket H fuel acc.2 b)
    (fun done (r : EphemeralSaltState × StateUpdates) ↦
      Live A F (st.view F) r.1 r.2 ∧ Kept st r.1 ∧ Good H (r.1.view F) ∧
      (∀ b, isValidDataBucket b → ∀ v, Holds (r.1.view F) b v ↔ Holds (st.view F) b v) ∧
      (∀ b ∈ done, (metaAt (r.1.view F) b).nonce = (metaAt F.kv b).nonce ∧
        (Complete A → Resized (metaAt F.kv b).capacity (count (r.1.view F) b)
          (metaAt (r.1.view F) b).capacity)) ∧
      (∀ b, isValidDataBucket b → b ∉ done → metaAt (r.1.view F) b = metaAt (st.view F) b ∧
        slots (r.1.view F) b = slots (st.view F) b) ∧
      ∀ k, Stray k → r.1.view F k = st.view F k)
    (order st.rehashedBuckets) ({ st with rehashedBuckets := [] }, .empty)
    ⟨hl₀, ⟨rfl, rfl⟩, h.good, fun _ _ _ ↦ Iff.rfl, fun b hb ↦ by simp at hb,
      fun _ _ _ ↦ ⟨rfl, rfl⟩, fun _ _ ↦ rfl⟩ ?_
  · rw [canonicalize]
    refine hloop.bind fun r ⟨hl, hk, hg, hholds, hdone, hrest, hs⟩ ↦ Sat.ok ⟨⟨⟨hl.counted, hl.cacheMeta,
      hl.usage, hg, h.represents.congr hholds, fun b hb ↦ by simp at hb⟩, ⟨hk.store, hk.cacheRead⟩,
      hl.diff, hs⟩, rfl, fun b hb ↦ hdone b ((horder _ b).mpr hb),
      fun b hb hnot ↦ hrest b hb fun hin ↦ hnot ((horder _ b).mp hin)⟩
  · rintro done b rest heq ⟨st₁, out₁⟩ ⟨hl, hk, hg, hholds, hdone, hrest, hs⟩
    have hb : isValidDataBucket b := h.buckets b ((horder _ b).mp (by simp [heq]))
    have hcount : count (st₁.view F) b = (keysIn H M b).ncard :=
      (h.represents.congr hholds).count_eq (hg b hb)
    refine (canonicalizeBucket_spec hf (hcount.symm ▸ hA b) hF hl hg hb).mono fun r hr ↦ ⟨hr.live, hk.trans hr.kept,
      hr.all_good hb hg, fun b' hb' v ↦ ?_, fun b' hb' ↦ ?_, fun b' hb' hnot ↦ ?_,
      fun k hsk ↦ (hr.stray hb hsk).trans (hs k hsk)⟩
    · by_cases hne : b' = b
      · subst hne
        exact (hr.holds v).trans (hholds _ hb' v)
      · exact (hr.holds_ne hb hb' hne v).trans (hholds _ hb' v)
    · by_cases hne : b' = b
      · subst hne
        exact ⟨hr.nonce, hr.resized⟩
      · have hin : b' ∈ done := by simpa [hne] using hb'
        have hv' : isValidDataBucket b' := h.buckets b' ((horder _ b').mp (by simp [heq, hin]))
        have hm := hr.metaAt_ne hb hv' hne
        rw [hm, count_congr hm (hr.slots_ne hb hv' hne)]
        exact hdone b' hin
    · simp only [List.mem_append, List.mem_singleton, not_or] at hnot
      rw [hr.metaAt_ne hb hb' hnot.2, hr.slots_ne hb hb' hnot.2]
      exact hrest b' hb' hnot.1

theorem updateFin_spec {fuel : ℕ} (hf : 2 ≤ fuel) (hF : BaseShape F) {order : List ℕ → List ℕ}
    (horder : ∀ l b, b ∈ order l ↔ b ∈ l) (h : Steady H A F M st)
    {kvs : List (Bytes × Option Bytes)} (hA : CappedAfter A H M kvs) (hfit : FitsOr A kvs) :
    Sat (st.updateFin H fuel order kvs) A (Stepped H A F (applyAll M kvs) st) := by
  refine (update_spec hf h hA hfit).bind ?_
  rintro ⟨st₁, out₁⟩ ⟨h₁, -⟩
  refine (canonicalize_spec hf (hA kvs List.prefix_rfl) hF horder h₁.steady).bind ?_
  rintro ⟨st₂, out₂⟩ ⟨h₂, -⟩
  obtain ⟨u, hu, hd⟩ := h₁.diff.merge h₂.diff
  simp only [hu, ok_bind]
  exact Sat.ok ⟨h₂.steady, h₁.kept.trans h₂.kept, hd,
    fun k hk ↦ (h₂.stray k hk).trans (h₁.stray k hk)⟩

theorem Steady.rehashed {m : BucketMeta} {r : EphemeralSaltState × StateUpdates}
    (h : Steady H A F M st) (hb : isValidDataBucket b) (hr : Rehashed H A F start b m st r) :
    Steady H A F M r.1 := by
  refine ⟨hr.live.counted, hr.live.cacheMeta, hr.live.usage, hr.all_good hb h.good,
    h.represents.congr fun b' hb' v ↦ ?_, fun b' hb' ↦ ?_⟩
  · by_cases hne : b' = b
    · subst hne
      exact hr.holds v
    · exact hr.holds_ne hb hb' hne v
  · rcases (hr.rehashed b').mp hb' with rfl | hin
    · exact hb
    · exact h.buckets b' hin

theorem shiRehash_stepped (h : Steady H A F M st) (hb : isValidDataBucket b) (nonce : UInt32)
    (hc : 0 < c) (hA : bucketSlotIdMask < c → A (.panic (.exceedsMaxBucketCapacity c))) :
    Sat (st.shiRehash H b nonce c .empty) A (fun r ↦ Stepped H A F M st r ∧
      (c < count (st.view F) b → r.1.view F = st.view F ∧ r.2 = .empty)) := by
  refine (shiRehash_spec h.live (h.good b hb) hb nonce hc hA).mono fun r hr ↦ ?_
  rcases hr with ⟨-, hq, he⟩ | ⟨hle, hr⟩
  · refine ⟨⟨h.quiet hq, hq.kept, ?_, fun _ _ ↦ by rw [hq.view]⟩, fun _ ↦ ⟨hq.view, he⟩⟩
    rw [he, hq.view]
    exact StateUpdates.isDiff_empty _
  · exact ⟨⟨h.rehashed hb hr, hr.kept, hr.live.diff, fun k hk ↦ hr.stray hb hk⟩, fun hlt ↦ by omega⟩

theorem setNonce_spec (h : Steady H A F M st) (hb : isValidDataBucket b) (nonce : UInt32) :
    Sat (st.setNonce H b nonce) A (Stepped H A F M st) := by
  rw [setNonce]
  refine (metadata_spec h.reads.toReadsSlots h.cacheMeta hb).bind ?_
  rintro ⟨st₁, m⟩ ⟨hq, hm⟩
  simp only at hq hm ⊢
  subst hm
  have hmask := not_lt.mpr (h.good b hb).capacity_le
  refine (shiRehash_stepped (h.quiet hq) hb nonce (h.good b hb).capacity_pos fun hlt ↦ absurd hlt hmask).mono
    fun r hr ↦ ?_
  exact ⟨hr.1.steady, hq.kept.trans hr.1.kept, hq.view ▸ hr.1.diff, hq.view ▸ hr.1.stray⟩

section Complete

theorem Steady.over {A' : Fault → Prop} (h : Steady H A F M st) (hR : Reads st.store F A') :
    Steady H A' F M st :=
  ⟨hR, h.cacheMeta, h.usage, h.good, h.represents, h.buckets⟩

theorem Steady.value_eq (h : Steady H (fun _ ↦ False) F M st) {k : SaltKey}
    (hk : k.isInMetaBucket = false) : ∃ st', st.value k = .ok (st', st.view F k) := by
  obtain ⟨⟨st', x⟩, he, -, rfl⟩ := (value_spec h.reads.toReadsSlots hk).exists_ok
  exact ⟨st', he⟩

theorem Steady.metadata_eq (h : Steady H (fun _ ↦ False) F M st) (hb : isValidDataBucket b) :
    ∃ st', st.metadata b false = .ok (st', metaAt (st.view F) b) := by
  obtain ⟨⟨st', m⟩, he, -, rfl⟩ := (metadata_spec h.reads.toReadsSlots h.cacheMeta hb).exists_ok
  exact ⟨st', he⟩

theorem Steady.usageCount_eq (h : Steady H (fun _ ↦ False) F M st) (hb : isValidDataBucket b) :
    st.usageCount b = .ok (count (st.view F) b) := by
  obtain ⟨n, he, rfl⟩ := (usageCount_spec h.reads h.usage hb).exists_ok
  exact he

theorem Steady.plainValue_eq (h : Steady H (fun _ ↦ False) F M st) (k : Bytes) :
    ∃ st', st.plainValue H k = .ok (st', M k) := by
  obtain ⟨⟨st', x⟩, he, -, rfl⟩ := (plainValue_spec h.live h.good h.represents k).exists_ok
  exact ⟨st', he⟩

end Complete

end EphemeralSaltState

end Salt
