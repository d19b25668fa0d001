import Salt.Trie.Blocks

namespace Salt

open Std (ExtTreeMap ExtTreeSet)
open Library.Triple Library.ChangeList

/-- `entries` of the reader for `MemStore`: the map panics at a range that ends before it starts. -/
def StateStore.entries (s : StateStore) (range : SaltKey × SaltKey) : Except Fault (List (SaltKey × SaltValue)) :=
  if range.2.val < range.1.val then .error (.panic .sliceOutOfRange)
  else .ok (s.kvs.toList.filter fun e ↦ range.1.val ≤ e.1.val ∧ e.1.val ≤ range.2.val)

namespace StateRoot

section Chunks

variable {kv : SaltKey → Option SaltValue} {entries : SaltKey × SaltKey → Except Fault (List (SaltKey × SaltValue))}
  {b c c' n : ℕ} {k : SaltKey}

def Enumerates (kv : SaltKey → Option SaltValue)
    (entries : SaltKey × SaltKey → Except Fault (List (SaltKey × SaltValue))) : Prop :=
  ∀ range : SaltKey × SaltKey, range.1.val ≤ range.2.val → ∃ l, entries range = .ok l ∧ (l.map Prod.fst).Nodup ∧
    ∀ k v, (k, v) ∈ l ↔ range.1.val ≤ k.val ∧ k.val ≤ range.2.val ∧ kv k = some v

theorem enumerates_entries (s : StateStore) : Enumerates s.full.kv s.entries := by
  intro range hle
  refine ⟨_, if_neg (not_lt.mpr hle), ?_, fun k v ↦ ?_⟩
  · refine List.Nodup.sublist (List.filter_sublist.map Prod.fst) ?_
    rw [ExtTreeMap.map_fst_toList_eq_keys]
    exact ExtTreeMap.nodup_keys
  · rw [List.mem_filter, ExtTreeMap.mem_toList_iff_getElem?_eq_some, decide_eq_true_eq]
    exact ⟨fun ⟨hv, h⟩ ↦ ⟨h.1, h.2, hv⟩, fun ⟨h, h', hv⟩ ↦ ⟨hv, h, h'⟩⟩

theorem bucketRange_le {first last : ℕ} (hle : first ≤ last) (hlast : last < 2 ^ 24) :
    (bucketRange first last).1.val ≤ (bucketRange first last).2.val := by
  simp only [bucketRange, bucketSlotIdMask]
  rw [SaltKey.ofPair_val (hle.trans_lt hlast) (by norm_num), SaltKey.ofPair_val hlast (by norm_num)]
  omega

theorem bucketRange_iff {first last : ℕ} (hfirst : first < 2 ^ 24) (hlast : last < 2 ^ 24) :
    (bucketRange first last).1.val ≤ k.val ∧ k.val ≤ (bucketRange first last).2.val ↔
      first ≤ k.bucketId ∧ k.bucketId ≤ last := by
  simp only [bucketRange, bucketSlotIdMask]
  rw [SaltKey.ofPair_val hfirst (by norm_num), SaltKey.ofPair_val hlast (by norm_num), SaltKey.bucketId_eq]
  omega

def chunkOf (b : ℕ) : ℕ := if b < numMetaBuckets then b else b / 256

def chunkState (kv : SaltKey → Option SaltValue) (c : ℕ) (k : SaltKey) : Option SaltValue :=
  normalize (fun k ↦ if chunkOf k.bucketId = c then kv k else none) k

theorem chunkState_eq (h : chunkOf k.bucketId = c) : chunkState kv c k = normalize kv k := by
  rw [chunkState, normalize, normalize, if_pos h]

theorem chunkState_ne (h : chunkOf k.bucketId ≠ c) : chunkState kv c k = emptyState k := by
  rw [chunkState, emptyState, normalize, normalize, if_neg h]

theorem chunkOf_metadataKey (hb : isValidDataBucket b) : chunkOf (metadataKey b).bucketId = chunkOf b := by
  rw [dataBucket_iff] at hb
  rw [metadataKey_bucketId (dataBucket_iff.mpr hb), chunkOf, chunkOf, numMetaBuckets]
  rw [if_pos (by omega), if_neg (by omega)]

theorem slots_chunkState (hb : b < 2 ^ 24) (h : chunkOf b = c) : slots (chunkState kv c) b = slots (normalize kv) b :=
  slots_congr hb fun k hk ↦ chunkState_eq (by rw [hk, h])

theorem slots_chunkState_ne (hb : b < 2 ^ 24) (h : chunkOf b ≠ c) : slots (chunkState kv c) b = slots emptyState b :=
  slots_congr hb fun k hk ↦ chunkState_ne (by rw [hk]; exact h)

theorem metaAt_chunkState (hb : isValidDataBucket b) (h : chunkOf b = c) :
    metaAt (chunkState kv c) b = metaAt (normalize kv) b := by
  rw [metaAt, metaAt, chunkState_eq (by rw [chunkOf_metadataKey hb, h])]

theorem metaAt_chunkState_ne (hb : isValidDataBucket b) (h : chunkOf b ≠ c) :
    metaAt (chunkState kv c) b = metaAt emptyState b := by
  rw [metaAt, metaAt, chunkState_ne (by rw [chunkOf_metadataKey hb]; exact h)]

theorem regular_chunkState (hw : Regular (normalize kv)) : Regular (chunkState kv c) where
  normal := by
    funext k
    cases hk : k.isInMetaBucket with
    | true => rw [normalize_meta hk, chunkState, normalize_meta hk, metaOf_metaOf]
    | false => rw [normalize_data hk]
  aligned b hb := by
    by_cases h : chunkOf b = c
    · rw [capacityAt, metaAt_chunkState hb h, ← capacityAt]
      exact hw.aligned b hb
    · rw [capacityAt, metaAt_chunkState_ne hb h, ← capacityAt]
      exact regular_empty.aligned b hb
  outside b hb s hs := by
    by_cases h : chunkOf b = c
    · rw [capacityAt, metaAt_chunkState hb h, ← capacityAt] at hs
      rw [slots_chunkState (dataBucket_lt hb) h]
      exact hw.outside b hb s hs
    · rw [capacityAt, metaAt_chunkState_ne hb h, ← capacityAt] at hs
      rw [slots_chunkState_ne (dataBucket_lt hb) h]
      exact regular_empty.outside b hb s hs

def ChunkNode (c n : ℕ) : Prop := ∃ b < 2 ^ 24, chunkOf b = c ∧ NodeOf b n

theorem nodeOf_inj {b' : ℕ} (hb : b < 2 ^ 24) (hb' : b' < 2 ^ 24) (h : NodeOf b n) (h' : NodeOf b' n) : b = b' := by
  rcases h with rfl | ⟨l, x, hv, hl, hx, rfl⟩
  · rcases h' with h' | ⟨l', x', hv', hl', hx', h'⟩
    · exact ((nodeAt_inj (by norm_num) hb (by norm_num) hb').mp h').2.2
    · exact absurd h' (subtree_ne_main hv' hl' hx' hb)
  · rcases h' with h' | ⟨l', x', hv', hl', hx', h'⟩
    · exact absurd h'.symm (subtree_ne_main hv hl hx hb')
    · exact ((nodeAt_inj hl hx hl' hx').mp h').1

theorem chunkNode_disjoint (hne : c ≠ c') (h : ChunkNode c n) : ¬ ChunkNode c' n := by
  rintro ⟨b', hb', hc', hn'⟩
  obtain ⟨b, hb, hc, hn⟩ := h
  rw [nodeOf_inj hb hb' hn hn', hc'] at hc
  exact hne hc.symm

theorem getElem?_insertEntries {β : Type} {P : SaltKey → Prop} {l : List (SaltKey × SaltValue)}
    (hnodup : (l.map Prod.fst).Nodup) (hmem : ∀ k v, (k, v) ∈ l ↔ P k ∧ kv k = some v) (f : SaltValue → β)
    (m : ExtTreeMap SaltKey β) :
    (P k → (l.foldl (fun m e ↦ m.insert e.1 (f e.2)) m)[k]? = ((kv k).map f).or m[k]?) ∧
      (¬ P k → (l.foldl (fun m e ↦ m.insert e.1 (f e.2)) m)[k]? = m[k]?) := by
  have hin : ∀ {v}, (k, v) ∈ l → (l.foldl (fun m e ↦ m.insert e.1 (f e.2)) m)[k]? = some (f v) := fun he ↦
    Library.Entries.getElem?_insertAll (fun e ↦ f e.2) hnodup he m
  have hout : (∀ v, (k, v) ∉ l) → (l.foldl (fun m e ↦ m.insert e.1 (f e.2)) m)[k]? = m[k]? := by
    intro hnot
    refine Library.Entries.getElem?_insertAll_of_notMem (fun hk ↦ ?_) m
    obtain ⟨⟨k', v⟩, he, rfl⟩ := List.mem_map.mp hk
    exact hnot v he
  constructor
  · intro hP
    cases hk : kv k with
    | none =>
      refine hout fun v he ↦ ?_
      have := ((hmem k v).mp he).2
      rw [hk] at this
      cases this
    | some v => exact hin ((hmem k v).mpr ⟨hP, hk⟩)
  · exact fun hP ↦ hout fun v he ↦ hP ((hmem k v).mp he).1

variable {metaEntries kvEntries : List (SaltKey × SaltValue)}

theorem chunkUpdates_getElem? (hc : 256 ≤ c) (hc' : c < 2 ^ 16) (hmetaNodup : (metaEntries.map Prod.fst).Nodup)
    (hmeta : ∀ k v, (k, v) ∈ metaEntries ↔ (c ≤ k.bucketId ∧ k.bucketId ≤ c) ∧ kv k = some v)
    (hnodup : (kvEntries.map Prod.fst).Nodup)
    (hkv : ∀ k v, (k, v) ∈ kvEntries ↔ (256 * c ≤ k.bucketId ∧ k.bucketId ≤ 256 * c + 255) ∧ kv k = some v)
    (k : SaltKey) :
    (chunkUpdates metaEntries kvEntries).data[k]? = if chunkOf k.bucketId = c then
      (kv k).map fun v ↦ (if k.isInMetaBucket then some (SaltValue.ofMeta BucketMeta.default) else none, some v)
    else none := by
  have hin := getElem?_insertEntries (k := k) hmetaNodup hmeta
    (fun v ↦ (some (SaltValue.ofMeta BucketMeta.default), some v)) ∅
  have hout := getElem?_insertEntries (k := k) hnodup hkv (fun v ↦ ((none : Option SaltValue), some v))
    (metaEntries.foldl (fun m e ↦ m.insert e.1 (some (SaltValue.ofMeta BucketMeta.default), some e.2)) ∅)
  rw [chunkUpdates]
  simp only [ExtTreeMap.getElem?_empty, Option.or_none] at hin
  simp only [SaltKey.isInMetaBucket, chunkOf, numMetaBuckets, decide_eq_true_eq]
  by_cases hk : k.bucketId < 2 ^ 16
  · simp only [hk, if_true]
    by_cases hkc : k.bucketId = c
    · rw [if_pos hkc, hout.2 (by omega), hin.1 (by omega)]
    · rw [if_neg hkc, hout.2 (by omega), hin.2 (by omega)]
  · simp only [hk, if_false]
    by_cases hkc : k.bucketId / 256 = c
    · rw [if_pos hkc, hout.1 (by omega), hin.2 (by omega), Option.or_none]
    · rw [if_neg hkc, hout.2 (by omega), hin.2 (by omega)]

variable {s : StateStore}

/-- The updates of a chunk lead from the empty state to the keys of the chunk. -/
theorem chunkUpdates_records (hm : s.MetaOk) (hplaced : s.MetaPlaced) {u : StateUpdates}
    (hu : ∀ k, u.data[k]? = if chunkOf k.bucketId = c then
      (s.full.kv k).map fun v ↦ (if k.isInMetaBucket then some (SaltValue.ofMeta BucketMeta.default) else none, some v)
    else none) : Records u emptyState (chunkState s.full.kv c) where
  data k hk := by
    have hempty : emptyState k = none := by rw [emptyState, normalize_data hk]
    rw [hu, hempty]
    by_cases hc : chunkOf k.bucketId = c
    · rw [if_pos hc, chunkState_eq hc, normalize_data hk]
      cases hv : s.full.kv k with
      | none => simp
      | some v => simp [hk]
    · rw [if_neg hc, chunkState_ne hc, hempty, if_pos rfl]
  same k hk hnone := by
    rw [hu] at hnone
    by_cases hc : chunkOf k.bucketId = c
    · rw [if_pos hc, Option.map_eq_none_iff] at hnone
      rw [chunkState_eq hc, emptyState, normalize_meta hk, normalize_meta hk, hnone]
    · rw [chunkState_ne hc]
  changed k p hk hp := by
    rw [hu] at hp
    by_cases hc : chunkOf k.bucketId = c
    · rw [if_pos hc, Option.map_eq_some_iff] at hp
      obtain ⟨v, hv, rfl⟩ := hp
      obtain ⟨b, hb, rfl⟩ := hplaced k hk (by rw [hv]; exact Option.some_ne_none v)
      refine ⟨?_, b, hb, rfl⟩
      obtain ⟨m, rfl, hcapacity⟩ := hm b hb v hv
      rw [chunkState_eq hc, normalize_meta hk, hv, metaOf_ofMeta hcapacity, SaltValue.ofMeta_used, emptyState,
        normalize_meta hk, if_pos hk]
      rfl
    · rw [if_neg hc] at hp
      cases hp

theorem chunk_concerns {u : StateUpdates} (hc : 256 ≤ c)
    (hu : ∀ k : SaltKey, chunkOf k.bucketId ≠ c → u.data[k]? = none)
    (hb : b < 2 ^ 24) (h : Concerns u b) : chunkOf b = c := by
  rcases h with ⟨e, he, rfl⟩ | hmeta
  · by_contra hne
    rw [ExtTreeMap.mem_toList_iff_getElem?_eq_some, hu e.1 hne] at he
    cases he
  · obtain ⟨p, hp⟩ := Option.isSome_iff_exists.mp (ExtTreeMap.mem_iff_isSome_getElem?.mp hmeta)
    have hkey : chunkOf (metadataKey b).bucketId = c := by
      by_contra hne
      rw [hu _ hne] at hp
      cases hp
    rcases Nat.lt_or_ge b (2 ^ 16) with hlt | hge
    · -- the metadata of a metadata bucket would be in an earlier chunk
      have hbucket : (metadataKey b).bucketId = b / 256 := SaltKey.bucketId_ofPair (by omega)
        (by simp only [minBucketSize]; omega)
      rw [hbucket, chunkOf, numMetaBuckets, if_pos (by omega)] at hkey
      omega
    · rwa [chunkOf_metadataKey (dataBucket_iff.mpr ⟨hge, hb⟩)] at hkey

end Chunks

section Rebuilding

variable {F C : Type} [CommRing F] [AddCommGroup C] [Module F C] {K : Committer F C} {s : StateStore}
  {w w' : SaltKey → Option SaltValue} {b c n threads : ℕ}
  {entries : SaltKey × SaltKey → Except Fault (List (SaltKey × SaltValue))}

theorem nodeOf_congr (hb : b < 2 ^ 24) (hslots : slots w b = slots w' b) (htop : topLevel w b = topLevel w' b)
    (hn : NodeOf b n) : K.trieOf w n = K.trieOf w' n := by
  have hnode : ∀ l ≤ 4, ∀ x, K.bucketNode w b l x = K.bucketNode w' b l x := fun l hl x ↦
    Committer.bucketNode_congr hl fun s _ _ ↦ by rw [hslots]
  rcases hn with rfl | ⟨l, x, hv, hl, hx, rfl⟩
  · have hpow : b < 256 ^ 3 := hb
    rw [Committer.trieOf_main le_rfl hpow, Committer.trieOf_main le_rfl hpow, Committer.mainNode_bucket,
      Committer.mainNode_bucket, ← htop, hnode _ (topLevel_le w b)]
  · rw [Committer.trieOf_subtree hv hl hx, Committer.trieOf_subtree hv hl hx, Committer.subtreeNode,
      Committer.subtreeNode, htop, hnode l hl]

theorem topLevel_chunkState {kv : SaltKey → Option SaltValue} (hb : b < 2 ^ 24) (h : chunkOf b = c) :
    topLevel (chunkState kv c) b = topLevel (normalize kv) b := by
  by_cases hmeta : b < numMetaBuckets
  · rw [topLevel, topLevel, if_pos hmeta, if_pos hmeta]
  · have hvalid : isValidDataBucket b := dataBucket_iff.mpr ⟨not_lt.mp hmeta, hb⟩
    exact topLevel_eq_of_capacity (by rw [capacityAt, capacityAt, metaAt_chunkState hvalid h])

theorem emptySalt_holds (hK : K.EmptyDefaults) : (emptySalt K.defaults).Holds K False emptyState := by
  intro n hn
  have hcommit := commits_empty hK n hn
  rw [MemStore.commitment] at hcommit
  simp only [MemStore.empty, ExtTreeMap.getElem?_empty] at hcommit
  have hread : (emptySalt K.defaults).commitment n = asFault (defaultCommitment K.defaults n) := rfl
  rw [hread, hcommit]
  exact Sat.ok rfl

omit [AddCommGroup C] in
theorem emptySalt_hasLevels (D : DefaultCommitments C) (hb : isValidDataBucket b) :
    (emptySalt D).HasLevels False emptyState b := by
  have hlevel := (regular_empty.top hb).1
  rw [capacityAt_empty] at hlevel
  rw [dataBucket_iff] at hb
  rw [TrieReader.HasLevels, emptySalt]
  simp only [numMetaBuckets, minBucketSize]
  rw [if_neg (by omega), hlevel, ok_bind]
  exact Sat.ok rfl

theorem rebuildChunk_sat [DecidableEq C] (hK : K.EmptyDefaults) (hm : s.MetaOk) (hplaced : s.MetaPlaced)
    (hw : Regular s.content) (hentries : Enumerates s.full.kv entries) (hc : 256 ≤ c) (hc' : c < 2 ^ 16) :
    Sat (rebuildChunk K threads entries (256 * c)) (fun _ ↦ False)
      (Lists (ChunkNode c) (K.trieOf emptyState) (K.trieOf s.content)) := by
  have hend : min numBuckets (256 * c + metaBucketSize) - 1 = 256 * c + 255 := by
    simp only [numBuckets, metaBucketSize]
    omega
  obtain ⟨metaEntries, hmetaRun, hmetaNodup, hmetaMem⟩ := hentries (bucketRange c c) (bucketRange_le le_rfl (by omega))
  obtain ⟨kvEntries, hkvRun, hkvNodup, hkvMem⟩ :=
    hentries (bucketRange (256 * c) (256 * c + 255)) (bucketRange_le (by omega) (by omega))
  have hu := chunkUpdates_getElem? hc hc' hmetaNodup (fun k v ↦ by
    rw [hmetaMem, ← and_assoc, bucketRange_iff (by omega) (by omega)]) hkvNodup fun k v ↦ by
    rw [hkvMem, ← and_assoc, bucketRange_iff (by omega) (by omega)]
  have hrec := chunkUpdates_records hm hplaced hu
  have hw' : Regular (chunkState s.full.kv c) := regular_chunkState hw
  have hnew : ((StateRoot.new (emptySalt K.defaults)).withMinParBatchSize 64).withDeferredLevels 1 =
      .ok (StateRoot.new (emptySalt K.defaults)) := rfl
  have htracks := tracks_new (emptySalt_holds hK) (by norm_num) hnew
  have hlevels : ∀ b, isValidDataBucket b → KnowsCapacity False emptyState (StateRoot.new (emptySalt K.defaults)) b :=
    fun b hb ↦ knowsCapacity_new (emptySalt_hasLevels K.defaults hb) hnew
  have hupdate : Sat ((StateRoot.new (emptySalt K.defaults)).updateBucketSubtrees K threads
      (chunkUpdates metaEntries kvEntries)) (fun _ ↦ False) _ :=
    updateBucketSubtrees_sat hK hrec regular_empty hw' htracks.batch htracks.mirrors (fun _ _ h ↦ h.elim)
      (fun b hb _ ↦ hlevels b hb) (visible_empty _)
  obtain ⟨r, hrun, -, hchanges⟩ := hupdate.exists_ok
  have hstart : 256 * c / metaBucketSize = c := by
    rw [metaBucketSize]
    omega
  have hlast : (256 * c + 255) / metaBucketSize = c := by
    rw [metaBucketSize]
    omega
  rw [rebuildChunk]
  simp only [hend, hstart, hlast]
  rw [hmetaRun, ok_bind, hkvRun, ok_bind, hrun, expectOk, ok_bind]
  refine Sat.ok ((hchanges.lists.restrict (fun n hn ↦ ?_) fun n hn ↦ ?_).congr (fun _ ↦ Iff.rfl) (fun _ _ ↦ rfl) ?_)
  · rcases hn with ⟨b, hb, -, hroot | ⟨l, x, hnode⟩⟩
    · exact .inl ⟨b, hb, hroot⟩
    · exact .inr ⟨b, l, x, hnode⟩
  · obtain ⟨b, hb, hconcerns, hn⟩ := hchanges.concerns n hn
    exact ⟨b, hb, chunk_concerns hc (fun k hk ↦ by rw [hu, if_neg hk]) hb hconcerns, hn⟩
  · rintro n ⟨b, hb, hbc, hn⟩
    exact nodeOf_congr hb (slots_chunkState hb hbc) (topLevel_chunkState hb hbc) hn

theorem mem_chunkStarts {start : ℕ} : start ∈ chunkStarts ↔ ∃ c, 256 ≤ c ∧ c < 2 ^ 16 ∧ start = 256 * c := by
  simp only [chunkStarts, List.mem_map, List.mem_range, numBuckets, numMetaBuckets, metaBucketSize]
  constructor
  · rintro ⟨i, hi, rfl⟩
    exact ⟨256 + i, by omega, by omega, by omega⟩
  · rintro ⟨c, hc, hc', rfl⟩
    exact ⟨c - 256, by omega, by omega⟩

/-- The first 256 metadata buckets belong to no chunk, and hold nothing. -/
theorem unchunked (hplaced : s.MetaPlaced) (hb : b < 2 ^ 24) (hn : NodeOf b n)
    (hnot : ¬ ∃ start ∈ chunkStarts, ChunkNode (start / 256) n) : K.trieOf emptyState n = K.trieOf s.content n := by
  have hsmall : b < 256 := by
    by_contra hge
    have hchunk : 256 ≤ chunkOf b ∧ chunkOf b < 2 ^ 16 := by
      rw [chunkOf, numMetaBuckets]
      split
      · omega
      · omega
    refine hnot ⟨256 * chunkOf b, mem_chunkStarts.mpr ⟨_, hchunk.1, hchunk.2, rfl⟩, b, hb, ?_, hn⟩
    rw [Nat.mul_div_cancel_left _ (by norm_num)]
  have hslots : slots emptyState b = slots s.content b := by
    refine slots_congr hb fun k hk ↦ ?_
    have hmeta : k.isInMetaBucket = true := by
      rw [SaltKey.isInMetaBucket, hk, numMetaBuckets]
      exact decide_eq_true (by omega)
    have hnone : s.full.kv k = none := by
      by_contra hne
      obtain ⟨b', hb', rfl⟩ := hplaced k hmeta hne
      rw [metadataKey_bucketId hb'] at hk
      rw [dataBucket_iff] at hb'
      omega
    rw [emptyState, StateStore.content, normalize_meta hmeta, normalize_meta hmeta, hnone]
  refine nodeOf_congr hb hslots ?_ hn
  rw [topLevel_meta (by omega), topLevel_meta (by omega)]

/-- Rebuilding gives the root hash of the state, and all nodes that are not as in the empty trie. -/
theorem rebuild_ok [DecidableEq C] (hK : K.EmptyDefaults) (hm : s.MetaOk) (hplaced : s.MetaPlaced)
    (hw : Regular s.content) (hentries : Enumerates s.full.kv entries) :
    ∃ L, rebuild K threads entries = .ok (K.hash (K.mainNode s.content 0 0), L) ∧
      Lists (NodeFrom 0) (K.trieOf emptyState) (K.trieOf s.content) L := by
  have hchunk : ∀ start ∈ chunkStarts, Sat (rebuildChunk K threads entries start) (fun _ ↦ False)
      (Lists (ChunkNode (start / 256)) (K.trieOf emptyState) (K.trieOf s.content)) := by
    intro start hstart
    obtain ⟨c, hc, hc', rfl⟩ := mem_chunkStarts.mp hstart
    rw [Nat.mul_div_cancel_left _ (by norm_num)]
    exact rebuildChunk_sat hK hm hplaced hw hentries hc hc'
  have hdisjoint : chunkStarts.Pairwise fun i j ↦ ∀ n, ChunkNode (i / 256) n → ¬ ChunkNode (j / 256) n := by
    rw [chunkStarts, List.pairwise_map]
    refine List.pairwise_lt_range.imp fun {i j} hij n hn ↦ ?_
    refine chunkNode_disjoint ?_ hn
    simp only [numMetaBuckets, metaBucketSize]
    omega
  have hrest : ∀ b < 2 ^ 24, ∀ n, NodeOf b n → (¬ ∃ start ∈ chunkStarts, ChunkNode (start / 256) n) →
      K.trieOf emptyState n = K.trieOf s.content n := fun b hb n hn ↦ unchunked hplaced hb hn
  rw [rebuild]
  generalize chunkStarts = starts at *
  obtain ⟨parts, hmap, hparts⟩ := (Sat.mapM_forall₂ starts hchunk).exists_ok
  have hall : Lists (NodeFrom 3) (K.trieOf emptyState) (K.trieOf s.content) parts.flatten := by
    refine (Lists.flatten hparts hdisjoint).extend ?_ ?_
    · rintro n ⟨start, -, b, hb, -, hroot | ⟨l, x, hnode⟩⟩
      · exact nodeFrom_three.mpr (.inl ⟨b, hb, hroot⟩)
      · exact nodeFrom_three.mpr (.inr ⟨b, l, x, hnode⟩)
    · intro n hn hnot
      rcases nodeFrom_three.mp hn with ⟨b, hb, rfl⟩ | ⟨b, l, x, hb, hl, hx, rfl⟩
      · exact hrest b hb _ (.inl rfl) hnot
      · exact hrest b (dataBucket_lt hb) _ (.inr ⟨l, x, hb, hl, hx, rfl⟩) hnot
  have hnew : ((StateRoot.new (emptySalt K.defaults)).withMinParBatchSize 64).withDeferredLevels 1 =
      .ok (StateRoot.new (emptySalt K.defaults)) := rfl
  have hholds := emptySalt_holds hK
  have htracks := tracks_new hholds (by norm_num) hnew
  have hread : ∀ l < 3, ∀ x < 256 ^ l,
      Knows False (StateRoot.new (emptySalt K.defaults)) (nodeAt 0 l x) (K.mainNode emptyState l x) := by
    intro l hl x hx
    rw [← Committer.trieOf_main (by omega) hx]
    exact hholds _ (.inr ⟨l, Nat.zero_le l, hl, mainAt_nodeAt hx⟩)
  have hclimb : Sat ((StateRoot.new (emptySalt K.defaults)).updateMainTrie K threads parts.flatten (3 + 1))
      (fun _ ↦ False) _ :=
    updateMainTrie_sat htracks.batch (by norm_num) le_rfl hall hread htracks.stored
  obtain ⟨⟨rootHash, L⟩, hrun, hhash, hstored, hL⟩ := hclimb.exists_ok
  have hroot : rootHash = K.hash (K.mainNode s.content 0 0) := by
    by_cases hempty : dropUpdatesBelowLevel parts.flatten (3 + 1) = []
    · obtain ⟨hhash, hsame⟩ := hstored hempty
      rw [← hsame]
      exact hhash
    · exact hhash hempty
  rw [hmap, ok_bind, show mainTrieLevels = 3 + 1 from rfl, hrun, expectOk]
  exact ⟨L, by rw [← hroot], hL⟩

end Rebuilding

end StateRoot

namespace MemStore

open StateRoot

variable {F C : Type} [CommRing F] [AddCommGroup C] [Module F C] {K : Committer F C} {s : MemStore C}
  {w' : SaltKey → Option SaltValue} {u : StateUpdates} {threads : ℕ} [DecidableEq C]

/-- The changes of a rebuild, written to an empty trie, give a store in sync. -/
theorem rebuilt_inSync (threads : ℕ) (hK : K.EmptyDefaults) (hm : s.state.MetaOk) (hplaced : s.state.MetaPlaced)
    (hex : s.state.Exact)
    (hw : Regular s.state.content) :
    ∃ L, rebuild K threads s.state.entries = .ok (K.hash (K.mainNode s.state.content 0 0), L) ∧
      Lists (NodeFrom 0) (K.trieOf emptyState) (K.trieOf s.state.content) L ∧
      InSync K ({ s with trie := ∅ }.updateTrie L) := by
  obtain ⟨L, hrun, hL⟩ := rebuild_ok hK hm hplaced hw (enumerates_entries s.state)
  have hempty : ({ s with trie := ∅ } : MemStore C).Commits K emptyState := commits_empty hK
  exact ⟨L, hrun, hL, hm, hplaced, hex, hw, hempty.updateTrie hL⟩

/-- Whatever trie the store has, a rebuild gives the root hash and the trie of its state. -/
theorem rebuild_exact (hK : K.EmptyDefaults) (hm : s.state.MetaOk) (hplaced : s.state.MetaPlaced) (hex : s.state.Exact)
    (hw : Regular s.state.content) :
    ∃ L, rebuild K threads s.state.entries = .ok (K.hash (K.mainNode s.state.content 0 0), L) ∧
      Lists (NodeFrom 0) (K.trieOf emptyState) (K.trieOf s.state.content) L ∧
      MemStore.Consistent K.commit K.hash K.kvHash K.defaults ({ s with trie := ∅ }.updateTrie L) := by
  obtain ⟨L, hrun, hL, hsync⟩ := rebuilt_inSync threads hK hm hplaced hex hw
  exact ⟨L, hrun, hL, hsync.consistent⟩

theorem rebuild_growth : ∃ L, rebuild weightedSums 4 ((MemStore.empty : MemStore ℤ).state.updateState growth).entries =
      .ok (weightedSums.hash (weightedSums.mainNode
        ((MemStore.empty : MemStore ℤ).state.updateState growth).content 0 0), L) ∧
    Lists (NodeFrom 0) (weightedSums.trieOf emptyState)
      (weightedSums.trieOf ((MemStore.empty : MemStore ℤ).state.updateState growth).content) L ∧
    MemStore.Consistent weightedSums.commit weightedSums.hash weightedSums.kvHash weightedSums.defaults
      (({ state := (MemStore.empty : MemStore ℤ).state.updateState growth, trie := ∅ } : MemStore ℤ).updateTrie L) := by
  have hs := inSync_empty weightedSums_empty
  have hrec : Records growth (MemStore.empty : MemStore ℤ).state.content grownState := by
    rw [content_empty]
    exact records_of_isDiff isDiff_growth metaOfBuckets_grown
  obtain ⟨hm, hplaced, hex, hcontent⟩ :=
    StateStore.updateState_content hs.metaOk hs.metaPlaced hs.exact hrec regular_grown
  exact rebuild_exact (s := ⟨(MemStore.empty : MemStore ℤ).state.updateState growth, ∅⟩)
    weightedSums_empty hm hplaced hex
    (by rw [hcontent]; exact regular_grown)

/-- One batch on a new engine, written to the store: the root hash is the one of the new state and the store stays
in sync. -/
theorem InSync.updateFin_ok {st : StateRoot C} {m d : ℕ} {order : TrieUpdates C → TrieUpdates C} (threads : ℕ)
    (hK : K.EmptyDefaults) (horder : ∀ l, (order l).Perm l) (hs : s.InSync K) (hrec : Records u s.state.content w')
    (hw' : Regular w') (hvisible : Visible K s.state.content w') (hm : 1 ≤ m)
    (hst : ((StateRoot.new (s.trieReader K.defaults)).withMinParBatchSize m).withDeferredLevels d = .ok st) :
    ∃ st' L, st.updateFin K threads order u = .ok (st', K.hash (K.mainNode w' 0 0), L) ∧
      InSync K ({ s with state := s.state.updateState u }.updateTrie L) ∧ (s.state.updateState u).content = w' := by
  have hcapacity : ∀ b, isValidDataBucket b → metadataKey b ∉ u.data →
      (s.trieReader K.defaults).HasLevels False s.state.content b :=
    fun b hb _ ↦ hasLevels K.defaults hs.metaOk hb (hs.regular.top hb).1
  obtain ⟨⟨st', rootHash, L⟩, hrun, hroot, hL⟩ :=
    (updateFin_sat hK hrec hs.regular hw' hvisible horder hs.commits.holds hcapacity hm hst).exists_ok
  exact ⟨st', L, by rw [hrun, ← hroot], hs.write hrec hw' hL⟩

/-- One batch on a new engine, written to the store, gives the root hash and node by node the commitments that a
rebuild of the new state gives. -/
theorem update_fin_agrees_with_rebuild {st : StateRoot C} {m d threads' : ℕ} {order : TrieUpdates C → TrieUpdates C}
    (hK : K.EmptyDefaults) (horder : ∀ l, (order l).Perm l) (hs : s.InSync K) (hrec : Records u s.state.content w')
    (hw' : Regular w') (hvisible : Visible K s.state.content w') (hm : 1 ≤ m)
    (hst : ((StateRoot.new (s.trieReader K.defaults)).withMinParBatchSize m).withDeferredLevels d = .ok st) :
    ∃ st' rootHash L R, st.updateFin K threads order u = .ok (st', rootHash, L) ∧
      rebuild K threads' (s.state.updateState u).entries = .ok (rootHash, R) ∧
      Agrees K ({ s with state := s.state.updateState u }.updateTrie L)
        (({ state := s.state.updateState u, trie := ∅ } : MemStore C).updateTrie R) := by
  obtain ⟨st', L, hrun, hsync, hcontent⟩ := hs.updateFin_ok threads hK horder hrec hw' hvisible hm hst
  obtain ⟨R, hrebuild, -, hrebuilt⟩ := rebuilt_inSync (s := ({ s with state := s.state.updateState u } : MemStore C))
    threads' hK hsync.metaOk hsync.metaPlaced hsync.exact hsync.regular
  rw [hcontent] at hrebuild
  exact ⟨st', _, L, R, hrun, hrebuild, hsync.agrees hrebuilt rfl⟩

theorem update_fin_agrees_growth : ∃ st st' rootHash L R,
    ((StateRoot.new ((MemStore.empty : MemStore ℤ).trieReader weightedSums.defaults)).withMinParBatchSize
      1).withDeferredLevels 3 = .ok st ∧
    st.updateFin weightedSums 4 List.reverse growth = .ok (st', rootHash, L) ∧
    rebuild weightedSums 2 ((MemStore.empty : MemStore ℤ).state.updateState growth).entries = .ok (rootHash, R) ∧
    Agrees weightedSums ({ (MemStore.empty : MemStore ℤ) with
        state := (MemStore.empty : MemStore ℤ).state.updateState growth }.updateTrie L)
      (({ state := (MemStore.empty : MemStore ℤ).state.updateState growth, trie := ∅ } : MemStore ℤ).updateTrie R) :=
  ⟨_, (update_fin_agrees_with_rebuild weightedSums_empty List.reverse_perm (inSync_empty weightedSums_empty)
    (by rw [content_empty]; exact records_of_isDiff isDiff_growth metaOfBuckets_grown) regular_grown
    (weightedSums_visible _ _) le_rfl (d := 3) rfl).imp
    fun _ h ↦ h.imp fun _ h ↦ h.imp fun _ h ↦ h.imp fun _ h ↦ ⟨rfl, h⟩⟩

/-- A node that starts with the empty store and follows any blocks keeps its trie: every block ends with the root
hash of its state, and in the end the store is as if it had been rebuilt. -/
theorem blocks_keep_trie {threads' : ℕ} {order : TrieUpdates C → TrieUpdates C} {blocks : List (List StateUpdates)}
    (hK : K.EmptyDefaults) (horder : ∀ l, (order l).Perm l) (h : BlockChain K emptyState blocks) :
    ∃ s' R, applyBlocks K threads order MemStore.empty blocks = .ok (s', rootHashes K emptyState blocks) ∧
      s'.state.content = applyAll emptyState blocks.flatten ∧
      s'.Consistent K.commit K.hash K.kvHash K.defaults ∧
      rebuild K threads' s'.state.entries = .ok (K.hash (K.mainNode (applyAll emptyState blocks.flatten) 0 0), R) ∧
      s'.Agrees K (({ s' with trie := ∅ } : MemStore C).updateTrie R) := by
  have hempty : (MemStore.empty : MemStore C).InSync K := inSync_empty hK
  obtain ⟨s', hrun, hs', hcontent⟩ := applyBlocks_ok threads hK horder hempty (by rwa [content_empty])
  rw [content_empty] at hrun hcontent
  obtain ⟨R, hrebuild, -, hrebuilt⟩ := rebuilt_inSync threads' hK hs'.metaOk hs'.metaPlaced hs'.exact hs'.regular
  rw [hcontent] at hrebuild
  exact ⟨s', R, hrun, hcontent, hs'.consistent, hrebuild, hs'.agrees hrebuilt rfl⟩

/-- The bucket grows, shrinks and grows again in three blocks. -/
theorem blocks_keep_growth : ∃ s' R, applyBlocks weightedSums 4 List.reverse MemStore.empty
      [[growth], [growth.inverse], [growth]] =
        .ok (s', rootHashes weightedSums emptyState [[growth], [growth.inverse], [growth]]) ∧
    s'.state.content = applyAll emptyState [[growth], [growth.inverse], [growth]].flatten ∧
    s'.Consistent weightedSums.commit weightedSums.hash weightedSums.kvHash weightedSums.defaults ∧
    rebuild weightedSums 2 s'.state.entries = .ok (weightedSums.hash (weightedSums.mainNode
      (applyAll emptyState [[growth], [growth.inverse], [growth]].flatten) 0 0), R) ∧
    s'.Agrees weightedSums (({ s' with trie := ∅ } : MemStore ℤ).updateTrie R) := by
  refine blocks_keep_trie weightedSums_empty List.reverse_perm ⟨chain_single admissible_growth, ?_, ?_, trivial⟩
  · rw [applyAll, List.foldl_cons, List.foldl_nil, apply_growth]
    exact chain_single admissible_shrink.fresh
  · rw [applyAll, applyAll, List.foldl_cons, List.foldl_nil, List.foldl_cons, List.foldl_nil,
      apply_growth, apply_shrink]
    exact chain_single admissible_growth

end MemStore

end Salt
