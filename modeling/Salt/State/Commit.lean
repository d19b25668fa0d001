import Salt.State.Runs

namespace Salt

open Std (ExtTreeMap)
open Library.ProbeRing Library.OrderedTable Library.GreedyLayout Library.Triple

namespace StateStore

variable {s : StateStore} {H : Hasher} {M : Bytes → Option Bytes}

def full (s : StateStore) : Full := ⟨fun k ↦ s.kvs[k]?, fun b ↦ (s.usedSlots[b]?).getD 0⟩

def content (s : StateStore) : SaltKey → Option SaltValue := normalize s.full.kv

def MetaOk (s : StateStore) : Prop :=
  ∀ b, isValidDataBucket b → ∀ v, s.kvs[metadataKey b]? = some v →
    ∃ m : BucketMeta, v = SaltValue.ofMeta m ∧ m.capacity < 2 ^ 64

/-- A store in canonical layout, with exact usage counts, that represents a plain map. -/
structure Canonical (H : Hasher) (M : Bytes → Option Bytes) (s : StateStore) : Prop where
  metaOk : s.MetaOk
  good : Good H s.content
  represents : Represents H s.content M
  used : ∀ b, isValidDataBucket b → s.full.used b = count s.content b

theorem reads (h : s.MetaOk) (A : Fault → Prop) : Reads s.reader s.full A where
  value k _ := Sat.ok rfl
  metadata b hb := by
    change Sat (s.metadata b) _ _
    rw [metadata, bucketMetadataKey, if_pos hb, ok_bind]
    cases hk : s.kvs[metadataKey b]? with
    | none =>
      refine Sat.ok ?_
      change _ = metaOf s.kvs[metadataKey b]?
      rw [hk]
      rfl
    | some v =>
      obtain ⟨m, rfl, hm⟩ := h b hb v hk
      simp only [BucketMeta.tryFrom_ofMeta hm]
      refine Sat.ok ?_
      change _ = metaOf s.kvs[metadataKey b]?
      rw [hk, metaOf_ofMeta hm]
  used b hb := by
    change Sat (if isValidDataBucket b then _ else _) _ _
    rw [if_pos hb]
    exact Sat.ok rfl
  fast k := .inr ⟨_, rfl⟩

theorem Canonical.baseShape (h : Canonical H M s) : EphemeralSaltState.BaseShape s.full := by
  intro b hb
  rw [← metaAt_normalize _ hb]
  exact ⟨(h.good b hb).capacity_pos, (h.good b hb).capacity_le⟩

theorem view_new (F : Full) (rd : StateReader) (cacheRead : Bool) : EphemeralSaltState.view F
    { EphemeralSaltState.new rd with cacheRead := cacheRead } = normalize F.kv := by
  rw [EphemeralSaltState.view]
  refine congrArg normalize (funext fun k ↦ ?_)
  simp [EphemeralSaltState.rawView, EphemeralSaltState.new]

theorem Canonical.steady (h : Canonical H M s) {A : Fault → Prop} {rd : StateReader}
    (hR : Reads rd s.full A) (cacheRead : Bool) : EphemeralSaltState.Steady H A s.full M
      { EphemeralSaltState.new rd with cacheRead := cacheRead } := by
  have hview : EphemeralSaltState.view s.full _ = s.content := view_new s.full rd cacheRead
  refine ⟨hR, fun b hb v hv ↦ ?_, fun b hb ↦ ?_, hview ▸ h.good, hview ▸ h.represents,
    fun b hb ↦ ?_⟩
  · simp [EphemeralSaltState.new] at hv
  · rw [hview, ← h.used b hb]
    simp [EphemeralSaltState.delta, EphemeralSaltState.new]
  · simp [EphemeralSaltState.new] at hb

end StateStore

def total (w : SaltKey → Option SaltValue) (b : ℕ) : ℕ := (occupied (2 ^ 40) (slots w b)).card

section Total

variable {w : SaltKey → Option SaltValue} {b : ℕ} {H : Hasher}

theorem total_update (hb : b < 2 ^ 24) {s : ℕ} (hs : s < 2 ^ 40) (x : Option SaltValue) :
    total (Function.update w (SaltKey.ofPair b s) x) b + (w (SaltKey.ofPair b s)).isSome.toNat =
      total w b + x.isSome.toNat := by
  have hold : w (SaltKey.ofPair b s) = slots w b s := (slots_eq hs).symm
  unfold total
  rw [slots_update hb hs, hold]
  exact card_occupied_update hs x

theorem total_update_of_ne (hb : b < 2 ^ 24) {k : SaltKey} (hk : k.bucketId ≠ b)
    (x : Option SaltValue) : total (Function.update w k x) b = total w b := by
  unfold total
  rw [slots_update_of_ne hb hk]

theorem GoodBucket.total_eq (h : GoodBucket H w b) : total w b = count w b := by
  have he : occupied (2 ^ 40) (slots w b) = occupied (metaAt w b).capacity (slots w b) := by
    ext s
    rw [mem_occupied, mem_occupied]
    refine and_congr_left fun hs ↦ ⟨fun _ ↦ ?_, fun hlt ↦ hlt.trans h.capacity_lt⟩
    obtain ⟨v, hv⟩ := Option.isSome_iff_exists.mp hs
    exact h.slot_lt hv
  rw [total, he, count]

theorem total_congr (hb : isValidDataBucket b) {w' : SaltKey → Option SaltValue}
    (h : ∀ k : SaltKey, k.isInMetaBucket = false → w' k = w k) : total w' b = total w b := by
  unfold total
  rw [slots_congr (dataBucket_lt hb) fun k hk ↦ h k ?_]
  rw [← k.ofPair_eta, hk]
  exact ofPair_not_inMeta hb k.slotId_lt

end Total

namespace StateStore

variable {s : StateStore} {H : Hasher} {M : Bytes → Option Bytes}

def Exact (s : StateStore) : Prop :=
  ∀ b, isValidDataBucket b → s.full.used b = total s.full.kv b

theorem updateEntry_kv (k : SaltKey) (old new : Option SaltValue) :
    (s.updateEntry k old new).full.kv = Function.update s.full.kv k new := by
  funext j
  by_cases hj : j = k
  · subst hj
    cases new <;> simp [full, updateEntry]
  · rw [Function.update_of_ne hj]
    cases new <;>
      simp [full, updateEntry, ExtTreeMap.getElem?_insert, ExtTreeMap.getElem?_erase, Ne.symm hj]

theorem used_insert (b b' n : ℕ) :
    ((s.usedSlots.insert b n)[b']?).getD 0 = if b' = b then n else (s.usedSlots[b']?).getD 0 := by
  by_cases h : b = b'
  · subst h
    simp
  · simp [ExtTreeMap.getElem?_insert, h, Ne.symm h]

theorem updateEntry_used {k : SaltKey} (hk : k.isInMetaBucket = false) (old new : Option SaltValue)
    (b : ℕ) : (s.updateEntry k old new).full.used b =
      if b = k.bucketId then s.full.used b + new.isSome.toNat - old.isSome.toNat
      else s.full.used b := by
  simp only [full, updateEntry, hk, Bool.false_eq_true, if_false]
  cases old <;> cases new <;>
    simp only [Option.isSome_none, Option.isSome_some, Bool.toNat_false, Bool.toNat_true]
  · split <;> simp
  · rw [used_insert]
    split
    · rename_i hb
      rw [hb]
      simp
    · rfl
  · cases hu : s.usedSlots[k.bucketId]? with
    | none =>
      simp only
      split
      · rename_i hb
        rw [hb, hu]
        rfl
      · rfl
    | some n =>
      simp only
      rw [used_insert]
      split
      · rename_i hb
        rw [hb, hu]
        simp
      · rfl
  · split <;> simp

theorem Exact.updateEntry (h : s.Exact) {k : SaltKey} {old : Option SaltValue}
    (hold : k.isInMetaBucket = false → old = s.full.kv k) (new : Option SaltValue) :
    (s.updateEntry k old new).Exact := by
  intro b hb
  have hu := h b hb
  rw [updateEntry_kv]
  by_cases hmeta : k.isInMetaBucket = true
  · have hne : k.bucketId ≠ b := by
      rintro rfl
      have hnot := ofPair_not_inMeta hb k.slotId_lt
      rw [k.ofPair_eta, hmeta] at hnot
      cases hnot
    rw [total_update_of_ne (dataBucket_lt hb) hne, ← hu]
    simp [full, StateStore.updateEntry, hmeta]
  · rw [Bool.not_eq_true] at hmeta
    rw [updateEntry_used hmeta, hold hmeta]
    by_cases hkb : b = k.bucketId
    · have htot := total_update (w := s.full.kv) (dataBucket_lt hb) k.slotId_lt new
      rw [hkb, k.ofPair_eta] at htot
      rw [if_pos hkb, hu, hkb]
      omega
    · rw [if_neg hkb, total_update_of_ne (dataBucket_lt hb) (Ne.symm hkb), hu]

theorem updateState_spec (h : s.Exact) (updates : StateUpdates)
    (hold : ∀ e ∈ updates.data.toList, e.1.isInMetaBucket = false → e.2.1 = s.full.kv e.1) :
    (s.updateState updates).Exact ∧ ∀ k, (s.updateState updates).full.kv k =
      (updates.data[k]?).elim (s.full.kv k) Prod.snd := by
  have key : ∀ (l : List (SaltKey × Option SaltValue × Option SaltValue)) (s : StateStore), s.Exact →
      l.Pairwise (fun a b ↦ a.1 ≠ b.1) →
      (∀ e ∈ l, e.1.isInMetaBucket = false → e.2.1 = s.full.kv e.1) →
      (l.foldl (fun s e ↦ s.updateEntry e.1 e.2.1 e.2.2) s).Exact ∧
        (l.foldl (fun s e ↦ s.updateEntry e.1 e.2.1 e.2.2) s).full.kv =
          l.foldl (fun c e ↦ Function.update c e.1 e.2.2) s.full.kv := by
    intro l
    induction l with
    | nil => exact fun s hs _ _ ↦ ⟨hs, rfl⟩
    | cons e l ih =>
      intro s hs hp hl
      obtain ⟨hne, hp⟩ := List.pairwise_cons.mp hp
      rw [List.foldl_cons, List.foldl_cons, ← updateEntry_kv e.1 e.2.1 e.2.2]
      refine ih _ (hs.updateEntry (hl e (List.mem_cons_self ..)) _) hp fun a ha hm ↦ ?_
      rw [updateEntry_kv, Function.update_of_ne (hne a ha).symm]
      exact hl a (List.mem_cons_of_mem _ ha) hm
  obtain ⟨h₁, h₂⟩ := key updates.data.toList s h (StateUpdates.pairwise_keys _) hold
  refine ⟨h₁, fun k ↦ ?_⟩
  rw [updateState, h₂]
  exact StateUpdates.foldl_update_toList Prod.snd updates.data s.full.kv k

theorem Canonical.exact (h : Canonical H M s) : s.Exact := by
  intro b hb
  rw [h.used b hb, ← (h.good b hb).total_eq, content]
  exact total_congr hb fun k hk ↦ normalize_data hk

theorem MetaOk.congr (h : s.MetaOk) {s' : StateStore} {w : SaltKey → Option SaltValue}
    (hw : ∀ b, isValidDataBucket b →
      s'.kvs[metadataKey b]? = s.kvs[metadataKey b]? ∨
      s'.kvs[metadataKey b]? = some (SaltValue.ofMeta (metaAt w b))) : s'.MetaOk := by
  intro b hb v hv
  rcases hw b hb with he | he
  · exact h b hb v (he ▸ hv)
  · rw [he] at hv
    exact ⟨_, (Option.some.inj hv).symm, (metaOf_bounds _).1⟩

/-- Committing the difference to a canonical state gives a store with that content. -/
theorem Canonical.commit (h : Canonical H M s) {updates : StateUpdates}
    {raw : SaltKey → Option SaltValue} {M' : Bytes → Option Bytes}
    (hd : updates.IsDiff s.content (normalize raw)) (hg : Good H (normalize raw))
    (hM : Represents H (normalize raw) M') :
    Canonical H M' (s.updateState updates) ∧ (s.updateState updates).content = normalize raw := by
  obtain ⟨hex, hkv⟩ := updateState_spec h.exact updates fun e he hm ↦ by
    rw [(hd.mem_toList he).2, content, normalize_data hm]
  have hkv' : ∀ k, (s.updateState updates).full.kv k =
      if s.content k = normalize raw k then s.full.kv k else normalize raw k := by
    intro k
    rw [hkv, hd k]
    split <;> rfl
  have hcontent : (s.updateState updates).content = normalize raw := by
    funext k
    by_cases hm : k.isInMetaBucket = true
    · rw [content, normalize_meta hm, hkv']
      split
      · rename_i he
        rw [← he, content, normalize_meta hm]
      · rw [normalize_meta hm, metaOf_metaOf]
    · rw [Bool.not_eq_true] at hm
      rw [content, normalize_data hm, hkv']
      split
      · rename_i he
        rw [← he, content, normalize_data hm]
      · rfl
  refine ⟨⟨h.metaOk.congr (w := normalize raw) fun b hb ↦ ?_, hcontent ▸ hg, hcontent ▸ hM,
    fun b hb ↦ ?_⟩, hcontent⟩
  · have hk := hkv' (metadataKey b)
    simp only [full] at hk
    rw [hk]
    split
    · exact .inl rfl
    · refine .inr ?_
      rw [metaAt_normalize _ hb, metaAt, normalize_meta (metadataKey_inMeta hb)]
  · rw [hex b hb, hcontent, ← (hg b hb).total_eq, ← hcontent, content]
    exact (total_congr hb fun k hk ↦ normalize_data hk).symm

end StateStore

end Salt
