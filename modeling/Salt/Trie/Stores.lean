import Salt.Trie.Rounds
import Salt.Trie.Depth
import Salt.State.Usage
import Salt.Proof.HonestWitness

namespace Salt

open Std (ExtTreeMap ExtTreeSet)
open Library.Triple Library.ChangeList

variable {F C : Type} [CommRing F] [AddCommGroup C] [Module F C] {K : Committer F C}
  {w w' : SaltKey → Option SaltValue} {u : StateUpdates} {s : MemStore C} {b l x n : ℕ}

namespace StateStore

variable {s : StateStore}

def MetaPlaced (s : StateStore) : Prop :=
  ∀ k, k.isInMetaBucket = true → s.full.kv k ≠ none → ∃ b, isValidDataBucket b ∧ k = metadataKey b

theorem updateState_content (hm : s.MetaOk) (hplaced : s.MetaPlaced) (hex : s.Exact) (hrec : Records u s.content w')
    (hw' : Regular w') : (s.updateState u).MetaOk ∧ (s.updateState u).MetaPlaced ∧ (s.updateState u).Exact ∧
      (s.updateState u).content = w' := by
  obtain ⟨hexact, hkv⟩ := updateState_spec hex u fun e he hk ↦ by
    rw [(hrec.mem_data he hk).2, content, normalize_data hk]
  have hmeta : ∀ k, k.isInMetaBucket = true → (s.updateState u).full.kv k = s.full.kv k ∧ s.content k = w' k ∨
      (s.updateState u).full.kv k = w' k := by
    intro k hk
    rw [hkv]
    cases hp : u.data[k]? with
    | none => exact .inl ⟨rfl, hrec.same k hk hp⟩
    | some p =>
      obtain ⟨rfl, -⟩ := hrec.changed k p hk hp
      exact .inr rfl
  have hnormal : ∀ k, k.isInMetaBucket = true → some (SaltValue.ofMeta (metaOf (w' k))) = w' k := by
    intro k hk
    conv_rhs => rw [← hw'.normal, normalize_meta hk]
  refine ⟨hm.congr (w := w') fun b hb ↦ ?_, fun k hk hne ↦ ?_, hexact, ?_⟩
  · have hk := metadataKey_inMeta hb
    rcases hmeta _ hk with ⟨hsame, -⟩ | hnew
    · exact .inl hsame
    · refine .inr ?_
      rw [metaAt, hnormal _ hk]
      exact hnew
  · cases hp : u.data[k]? with
    | none =>
      rw [hkv, hp] at hne
      exact hplaced k hk hne
    | some p => exact (hrec.changed k p hk hp).2
  · funext k
    cases hk : k.isInMetaBucket with
    | true =>
      rw [content, normalize_meta hk]
      rcases hmeta k hk with ⟨hsame, hold⟩ | hnew
      · rw [hsame, ← hold, content, normalize_meta hk]
      · rw [hnew, hnormal k hk]
    | false =>
      rw [content, normalize_data hk, hkv, hrec.data k hk]
      split
      · rename_i he
        rw [← he, content, normalize_data hk]
        rfl
      · rfl

theorem metadata_eq (hm : s.MetaOk) (hex : s.Exact) (hb : isValidDataBucket b) :
    s.metadata b = .ok { metaAt s.content b with used := some (total s.content b) } := by
  have hused : (s.usedSlots[b]?).getD 0 = total s.content b :=
    (hex b hb).trans (total_congr hb fun k hk ↦ by rw [content, normalize_data hk]).symm
  have hmeta : metaAt s.content b = metaOf s.kvs[metadataKey b]? := metaAt_normalize _ hb
  rw [metadata, bucketMetadataKey, if_pos hb, ok_bind, hused, hmeta]
  cases hv : s.kvs[metadataKey b]? with
  | none => rfl
  | some v =>
    obtain ⟨m, rfl, hcapacity⟩ := hm b hb v hv
    rw [metaOf_ofMeta hcapacity]
    simp only [BucketMeta.tryFrom_ofMeta hcapacity, ok_bind]

end StateStore

namespace MemStore

section Commits

variable {L : TrieUpdates C}

def Commits (K : Committer F C) (w : SaltKey → Option SaltValue) (s : MemStore C) : Prop :=
  ∀ n, NodeFrom 0 n → s.commitment K.defaults n = .ok (K.trieOf w n)

theorem Commits.holds (h : s.Commits K w) : (s.trieReader K.defaults).Holds K False w := by
  intro n hn
  have hread : (s.trieReader K.defaults).commitment n = asFault (s.commitment K.defaults n) := rfl
  rw [hread, h n hn]
  exact Sat.ok rfl

omit [AddCommGroup C] in
theorem hasLevels (D : DefaultCommitments C) (hm : s.state.MetaOk) (hb : isValidDataBucket b)
    (htop : subtreeRootLevel (capacityAt s.state.content b) = .ok (topLevel s.state.content b)) :
    (s.trieReader D).HasLevels False s.state.content b := by
  obtain ⟨meta', hread, hcapacity, -⟩ := metadata_read hm hb
  rw [capacityAt, ← hcapacity] at htop
  have hreader : (s.trieReader D).getSubtreeLevels b = s.state.getSubtreeLevels b := rfl
  rw [TrieReader.HasLevels, hreader, getSubtreeLevels_eq hb hread htop]
  exact Sat.ok rfl

omit [AddCommGroup C] in
theorem updateTrie_getElem? (hL : (L.map Prod.fst).Nodup) {e : NodeChange C} (he : e ∈ L) :
    (s.updateTrie L).trie[e.1]? = some e.2.2 :=
  Library.Entries.getElem?_insertAll (fun e : NodeChange C ↦ e.2.2) hL he s.trie

/-- Writing all changes of the trie. -/
theorem Commits.updateTrie (h : s.Commits K w) (hL : Lists (NodeFrom 0) (K.trieOf w) (K.trieOf w') L) :
    (s.updateTrie L).Commits K w' := by
  intro n hn
  rw [commitment]
  by_cases hmem : n ∈ L.map Prod.fst
  · have hget := updateTrie_getElem? (s := s) hL.nodup (hL.entry hmem)
    simp only at hget
    rw [hget]
  · have hget : (s.updateTrie L).trie[n]? = s.trie[n]? :=
      Library.Entries.getElem?_insertAll_of_notMem hmem s.trie
    rw [hget, ← hL.kept hn hmem]
    exact h n hn

end Commits

/-- The trie of the store is the one of its state. -/
structure InSync (K : Committer F C) (s : MemStore C) : Prop where
  metaOk : s.state.MetaOk
  metaPlaced : s.state.MetaPlaced
  exact : s.state.Exact
  regular : Regular s.state.content
  commits : s.Commits K s.state.content

structure Agrees (K : Committer F C) (s s' : MemStore C) : Prop where
  value : ∀ k : SaltKey, k.isInMetaBucket = false → s'.state.kvs[k]? = s.state.kvs[k]?
  metadata : ∀ b, isValidDataBucket b → s'.state.metadata b = s.state.metadata b
  commitment : ∀ n, NodeFrom 0 n → s'.commitment K.defaults n = s.commitment K.defaults n

/-- A store in sync shows nothing but its content. -/
theorem InSync.agrees {s' : MemStore C} (h : s.InSync K) (h' : s'.InSync K) (he : s'.state.content = s.state.content) :
    s.Agrees K s' where
  value k hk := by
    have hdata := congrFun he k
    rw [StateStore.content, normalize_data hk, StateStore.content, normalize_data hk] at hdata
    exact hdata
  metadata b hb := by
    rw [StateStore.metadata_eq h.metaOk h.exact hb, StateStore.metadata_eq h'.metaOk h'.exact hb, he]
  commitment n hn := by rw [h.commits n hn, h'.commits n hn, he]

theorem InSync.write (h : s.InSync K) (hrec : Records u s.state.content w') (hw' : Regular w') {L : TrieUpdates C}
    (hL : Lists (NodeFrom 0) (K.trieOf s.state.content) (K.trieOf w') L) :
    InSync K ({ s with state := s.state.updateState u }.updateTrie L) ∧ (s.state.updateState u).content = w' := by
  obtain ⟨hm, hplaced, hex, hcontent⟩ := StateStore.updateState_content h.metaOk h.metaPlaced h.exact hrec hw'
  refine ⟨⟨hm, hplaced, hex, ?_, ?_⟩, hcontent⟩
  · exact hcontent ▸ hw'
  · have hcommits := h.commits.updateTrie hL
    rw [← hcontent] at hcommits
    exact hcommits

end MemStore

section Consistency

theorem commit_range (f : ℕ → F) : K.commit ((List.range 256).map f) = vec 256 K.gen f :=
  vec_congr fun i hi ↦ by
    rw [List.getD_eq_getElem?_getD, List.getElem?_map, List.getElem?_range hi, Option.map_some, Option.getD_some]

theorem commit_childVector_main (hl : l < 3) (hx : x < 256 ^ l)
    (h : ∀ y < 256 ^ (l + 1), s.com K.defaults (nodeAt 0 (l + 1) y) = K.mainNode w (l + 1) y) :
    K.commit (s.childVector K.hash K.defaults (nodeAt 0 l x)) = K.mainNode w l x := by
  rw [MemStore.childVector, commit_range, Committer.mainNode_inner hl]
  refine vec_congr fun i hi ↦ ?_
  have hy : x * 256 + i < 256 ^ (l + 1) := by
    rw [← div_lt_pow_iff]
    omega
  rw [getChildNode_nodeAt (by omega) hx, h _ hy, Nat.mul_comm]

theorem commit_slotVector (hx : x < 256 ^ 4) :
    K.commit (s.slotVector K.kvHash b (256 * x)) = K.segment s.state.content b x := by
  rw [MemStore.slotVector, commit_range, Committer.segment]
  exact vec_congr fun i hi ↦ by rw [slots_eq (by omega)]

omit [AddCommGroup C] in
theorem depth_eq : s.depth b = 5 - topLevel s.state.content b := by
  by_cases hb : b < numMetaBuckets
  · rw [MemStore.depth, topLevel, if_pos hb, if_pos hb]
  · rw [MemStore.depth, topLevel, if_neg hb, if_neg hb, capacityAt]

namespace MemStore

omit [AddCommGroup C] in
theorem com_eq {D : DefaultCommitments C} {c : C} (h : s.commitment D n = .ok c) : s.com D n = c := by
  rw [com, h]
  rfl

theorem InSync.com_main (h : s.InSync K) (hl : l ≤ 3) (hx : x < 256 ^ l) :
    s.com K.defaults (nodeAt 0 l x) = K.mainNode s.state.content l x := by
  have hn : NodeFrom 0 (nodeAt 0 l x) := by
    rcases Nat.lt_or_ge l 3 with hlt | hge
    · exact .inr ⟨l, Nat.zero_le l, hlt, mainAt_nodeAt hx⟩
    · obtain rfl : l = 3 := by omega
      exact .inl (.inl ⟨x, hx, rfl⟩)
  rw [com_eq (h.commits _ hn), Committer.trieOf_main hl hx]

theorem InSync.com_subtree (h : s.InSync K) (hb : isValidDataBucket b) (hl : l ≤ 4) (hx : x < 256 ^ l) :
    s.com K.defaults (nodeAt b l x) = K.subtreeNode s.state.content b l x := by
  rw [com_eq (h.commits _ (.inl (.inr ⟨b, l, x, hb, hl, hx, rfl⟩))), Committer.trieOf_subtree hb hl hx]

/-- A node of a bucket tree commits to the nodes below it. -/
theorem InSync.commit_below (h : s.InSync K) (hb : isValidDataBucket b) (hl : l < 4) (hx : x < 256 ^ l)
    (htop : topLevel s.state.content b ≤ l) :
    K.commit (s.childVector K.hash K.defaults (nodeAt b l x)) = K.bucketNode s.state.content b l x := by
  rw [childVector, commit_range, Committer.bucketNode_inner hl]
  refine vec_congr fun i hi ↦ ?_
  have hy : x * 256 + i < 256 ^ (l + 1) := by
    rw [← div_lt_pow_iff]
    omega
  rw [getChildNode_nodeAt hl hx, h.com_subtree hb (Nat.succ_le_of_lt hl) hy, Committer.subtreeNode_below (by omega),
    Nat.mul_comm]

theorem InSync.commit_bucket (h : s.InSync K) (hb : b < 2 ^ 24) (htop : topLevel s.state.content b = 4) :
    s.com K.defaults (nodeAt 0 3 b) = K.commit (s.slotVector K.kvHash b 0) := by
  have hsegment := commit_slotVector (K := K) (s := s) (b := b) (x := 0) (by norm_num)
  rw [Nat.mul_zero] at hsegment
  rw [h.com_main le_rfl hb, Committer.mainNode_bucket, htop, Committer.bucketNode_leaf, hsegment]

theorem InSync.commit_bridge (h : s.InSync K) (hb : isValidDataBucket b) (htop : topLevel s.state.content b < 4) :
    s.com K.defaults (nodeAt 0 3 b) =
      K.commit (s.childVector K.hash K.defaults (nodeAt b (topLevel s.state.content b) 0)) := by
  rw [h.com_main le_rfl (dataBucket_lt hb), h.commit_below hb htop (by positivity) le_rfl, Committer.mainNode_bucket]

theorem InSync.commit_leaf (h : s.InSync K) (hb : isValidDataBucket b) (htop : topLevel s.state.content b < 4)
    (hx : x < 256 ^ 4) :
    s.com K.defaults (nodeAt b 4 x) = K.commit (s.slotVector K.kvHash b (x * 256)) := by
  rw [h.com_subtree hb le_rfl hx, Committer.subtreeNode_below htop, Committer.bucketNode_leaf, Nat.mul_comm,
    commit_slotVector hx]

theorem InSync.topLevel_of_depth (h : s.InSync K) (hb : isValidDataBucket b) :
    5 - s.depth b = topLevel s.state.content b := by
  have hle := (h.regular.top hb).2.le
  rw [depth_eq]
  omega

/-- A store in sync commits every node to its children. -/
theorem InSync.consistent (h : s.InSync K) : s.Consistent K.commit K.hash K.kvHash K.defaults where
  metaOk := h.metaOk
  capacity_le b hb := by
    rw [← capacityAt]
    exact (h.regular.aligned b hb).le
  main l x hl hx := by
    rw [h.com_main hl.le hx, commit_childVector_main hl hx fun y hy ↦ h.com_main (Nat.succ_le_of_lt hl) hy]
  bucket b _ hb hdepth := by
    rw [depth_eq] at hdepth
    have hle := topLevel_le s.state.content b
    exact h.commit_bucket hb (by omega)
  bridge b hb hdepth := by
    have hlevel := h.topLevel_of_depth hb
    rw [hlevel]
    exact h.commit_bridge hb (by omega)
  inner b l x hb hdepth hl hx := by
    have hpow : x < 256 ^ l := hx.trans_le (Nat.pow_le_pow_right (by norm_num) (Nat.sub_le ..))
    rw [h.topLevel_of_depth hb] at hdepth
    rw [h.com_subtree hb hl.le hpow, Committer.subtreeNode_below hdepth, h.commit_below hb hl hpow hdepth.le]
  leaf b x hb hdepth hx := by
    have hlevel := h.topLevel_of_depth hb
    have hle : s.depth b - 1 ≤ 4 := by
      rw [depth_eq]
      omega
    exact h.commit_leaf hb (by omega) (hx.trans_le (Nat.pow_le_pow_right (by norm_num) hle))

end MemStore

end Consistency

section Empty

def emptyState : SaltKey → Option SaltValue := normalize fun _ ↦ none

omit [AddCommGroup C] in
theorem content_empty : (MemStore.empty : MemStore C).state.content = emptyState := by
  refine congrArg normalize (funext fun k ↦ ?_)
  exact ExtTreeMap.getElem?_empty

theorem capacityAt_empty (b : ℕ) : capacityAt emptyState b = 256 := by
  have h := empty_metaAt (C := Unit) b
  rw [content_empty] at h
  rw [capacityAt, h]
  rfl

theorem aligned_leaf : Aligned 256 where
  pos := by norm_num
  le := by norm_num
  unit := dvd_rfl
  full l hl h := by
    interval_cases l <;> simp [nodesAt, Multipoint.divCeil] at h

theorem regular_empty : Regular emptyState where
  normal := by
    funext k
    cases hk : k.isInMetaBucket with
    | true => rw [normalize_meta hk, emptyState, normalize_meta hk, metaOf_metaOf]
    | false => rw [normalize_data hk]
  aligned b _ := by
    rw [capacityAt_empty]
    exact aligned_leaf
  outside b hb s _ := by
    rw [slots]
    split
    · rw [emptyState, normalize_data (ofPair_not_inMeta hb ‹_›)]
    · rfl

theorem topLevel_empty (b : ℕ) : topLevel emptyState b = 4 := by
  rw [topLevel, capacityAt_empty]
  split <;> rfl

theorem visible_empty (w' : SaltKey → Option SaltValue) : StateRoot.Visible K emptyState w' := by
  intro b _ hlt
  rw [topLevel_empty] at hlt
  exact absurd hlt (not_lt.mpr (topLevel_le w' b))

theorem commits_empty (hK : K.EmptyDefaults) : (MemStore.empty : MemStore C).Commits K emptyState := by
  have hmain : ∀ k ≤ 3, ∀ x < 256 ^ (3 - k), (MemStore.empty : MemStore C).com K.defaults (nodeAt 0 (3 - k) x) =
      K.mainNode emptyState (3 - k) x := by
    intro k hk
    induction k with
    | zero =>
      intro b hb
      have hb : b < 2 ^ 24 := hb
      have hsegment := (commit_slotVector (K := K) (s := (MemStore.empty : MemStore C)) (b := b) (x := 0)) (by norm_num)
      rw [Nat.sub_zero, Committer.mainNode_bucket, topLevel_empty, Committer.bucketNode_leaf, ← content_empty (C := C),
        ← hsegment, hK]
      exact empty_bucket hb
    | succ k ih =>
      intro x hx
      have hl : 3 - (k + 1) < 3 := by omega
      have hup : 3 - (k + 1) + 1 = 3 - k := by omega
      rw [← commit_childVector_main hl hx (by rw [hup]; exact ih (by omega))]
      rw [hK]
      exact empty_main hl hx
  have hroot : ∀ l ≤ 3, ∀ x < 256 ^ l, (MemStore.empty : MemStore C).commitment K.defaults (nodeAt 0 l x) =
      .ok (K.trieOf emptyState (nodeAt 0 l x)) := by
    intro l hl x hx
    have hk := hmain (3 - l) (by omega) x (by rwa [show 3 - (3 - l) = l by omega])
    rw [show 3 - (3 - l) = l by omega] at hk
    rw [commitment_eq (.main hl hx), hk, Committer.trieOf_main hl hx]
  rintro n ((⟨b, hb, rfl⟩ | ⟨b, l, x, hb, hl, hx, rfl⟩) | ⟨l, -, hl, _, x, ⟨rfl, hx⟩, rfl⟩)
  · exact hroot 3 le_rfl b hb
  · rw [MemStore.commitment]
    simp only [MemStore.empty, ExtTreeMap.getElem?_empty]
    rw [defaultCommitment_data hb hl hx, Committer.trieOf_subtree hb hl hx, Committer.subtreeNode_unused]
    rw [topLevel_empty]
    exact hl
  · exact hroot l (by omega) x hx

theorem inSync_empty (hK : K.EmptyDefaults) : (MemStore.empty : MemStore C).InSync K where
  metaOk b _ v hv := by simp [MemStore.empty] at hv
  metaPlaced k _ hne := absurd ExtTreeMap.getElem?_empty hne
  exact := exact_empty
  regular := by
    rw [content_empty]
    exact regular_empty
  commits := by
    rw [content_empty]
    exact commits_empty hK

end Empty

section Writing

variable {m : BucketMeta} {x : Option SaltValue} {slot : ℕ}

theorem isDiff_apply (h : u.IsDiff w w') : u.apply w = w' := by
  funext k
  rw [StateUpdates.apply, h k]
  split
  · exact ‹w k = w' k›
  · rfl

theorem capacityAt_write {k : SaltKey} (hk : k.isInMetaBucket = false) (hb : isValidDataBucket b) :
    capacityAt (Function.update w k x) b = capacityAt w b := by
  rw [capacityAt, metaAt_update_of_ne, capacityAt]
  rintro rfl
  rw [metadataKey_inMeta hb] at hk
  cases hk

theorem Regular.write (h : Regular w) (hb : isValidDataBucket b) (hslot : slot < capacityAt w b) :
    Regular (Function.update w (SaltKey.ofPair b slot) x) := by
  have hs : slot < 2 ^ 40 := hslot.trans_le (h.aligned b hb).le
  have hdata := ofPair_not_inMeta hb hs
  constructor
  · funext k
    cases hk : k.isInMetaBucket with
    | true =>
      have hne : k ≠ SaltKey.ofPair b slot := by
        rintro rfl
        rw [hdata] at hk
        cases hk
      rw [normalize_meta hk, Function.update_of_ne hne]
      conv_rhs => rw [← h.normal, normalize_meta hk]
    | false => rw [normalize_data hk]
  · intro b' hb'
    rw [capacityAt_write hdata hb']
    exact h.aligned b' hb'
  · intro b' hb' s hle
    rw [capacityAt_write hdata hb'] at hle
    by_cases he : b' = b
    · subst he
      rw [slots_update (dataBucket_lt hb) hs, Function.update_of_ne (by omega)]
      exact h.outside b' hb s hle
    · have hbucket : (SaltKey.ofPair b slot).bucketId ≠ b' := by
        rw [SaltKey.bucketId_ofPair (dataBucket_lt hb) hs]
        exact Ne.symm he
      rw [slots_update_of_ne (dataBucket_lt hb') hbucket]
      exact h.outside b' hb' s hle

theorem capacityAt_resize (hcapacity : m.capacity < 2 ^ 64) (b' : ℕ) (hb : isValidDataBucket b)
    (hb' : isValidDataBucket b') :
    capacityAt (Function.update w (metadataKey b) (some (SaltValue.ofMeta m))) b' =
      if b' = b then m.capacity else capacityAt w b' := by
  by_cases he : b' = b
  · subst he
    rw [if_pos rfl, capacityAt, metaAt, Function.update_self, metaOf_ofMeta hcapacity]
  · rw [if_neg he, capacityAt, metaAt_update_of_ne, capacityAt]
    intro hkey
    exact he (metadataKey_inj hb' hb hkey.symm)

theorem Regular.resize (h : Regular w) (hb : isValidDataBucket b) (hm : Aligned m.capacity)
    (hslots : ∀ s, m.capacity ≤ s → slots w b s = none) :
    Regular (Function.update w (metadataKey b) (some (SaltValue.ofMeta m))) := by
  have hcapacity : m.capacity < 2 ^ 64 := hm.le.trans_lt (by norm_num)
  have hmeta := metadataKey_inMeta hb
  constructor
  · funext k
    by_cases hk : k = metadataKey b
    · rw [hk, normalize_meta hmeta, Function.update_self, metaOf_ofMeta hcapacity, SaltValue.ofMeta_used]
    · rw [Function.update_of_ne hk]
      cases hkm : k.isInMetaBucket with
      | true =>
        rw [normalize_meta hkm, Function.update_of_ne hk]
        conv_rhs => rw [← h.normal, normalize_meta hkm]
      | false => rw [normalize_data hkm, Function.update_of_ne hk]
  · intro b' hb'
    rw [capacityAt_resize hcapacity b' hb hb']
    split
    · exact hm
    · exact h.aligned b' hb'
  · intro b' hb' s hle
    have hbucket : (metadataKey b).bucketId ≠ b' := by
      rw [metadataKey_bucketId hb]
      rw [dataBucket_iff] at hb hb'
      omega
    rw [slots_update_of_ne (dataBucket_lt hb') hbucket]
    rw [capacityAt_resize hcapacity b' hb hb'] at hle
    split at hle
    · subst ‹b' = b›
      exact hslots s hle
    · exact h.outside b' hb' s hle

end Writing

section Scheme

def Committer.ofGenerators (gen : ℕ → C) (hash : C → F) (kvHash : Option SaltValue → F) : Committer F C where
  gen := gen
  hash := hash
  kvHash := kvHash
  defaults := .ofEmptyTree (fun l ↦ vec 256 gen fun i ↦ l.getD i 0) hash kvHash

theorem emptyDefaults_ofGenerators (gen : ℕ → C) (hash : C → F) (kvHash : Option SaltValue → F) :
    (Committer.ofGenerators gen hash kvHash).EmptyDefaults := rfl

/-- Weighted sums: a scheme that tells every node with an entry from an empty one. -/
def weightedSums : Committer ℤ ℤ := .ofGenerators (fun i ↦ (i : ℤ) + 1) id fun v ↦ v.elim 0 fun v ↦ v.keyLen + 1

theorem weightedSums_empty : weightedSums.EmptyDefaults := emptyDefaults_ofGenerators ..

theorem vec_weights {f : ℕ → ℤ} (h : ∀ i < 256, 0 ≤ f i) : 0 ≤ vec 256 weightedSums.gen f ∧
    (vec 256 weightedSums.gen f = 0 → ∀ i < 256, f i = 0) := by
  have hterm : ∀ i ∈ Finset.range 256, 0 ≤ f i • weightedSums.gen i := by
    intro i hi
    have hgen : (0 : ℤ) ≤ (i : ℤ) + 1 := by positivity
    exact mul_nonneg (h i (Finset.mem_range.mp hi)) hgen
  refine ⟨Finset.sum_nonneg hterm, fun hzero i hi ↦ ?_⟩
  have hmul := (Finset.sum_eq_zero_iff_of_nonneg hterm).mp hzero i (Finset.mem_range.mpr hi)
  have hgen : (0 : ℤ) < (i : ℤ) + 1 := by positivity
  exact (mul_eq_zero.mp hmul).resolve_right hgen.ne'

theorem weightedSums_subtree (hl : l ≤ 4) : weightedSums.defaults.subtree l = 0 := by
  have hzero : vec 256 weightedSums.gen (fun _ ↦ (0 : ℤ)) = 0 := Finset.sum_eq_zero fun i _ ↦ zero_smul ..
  suffices ∀ k ≤ 4, weightedSums.defaults.subtree (4 - k) = 0 by
    have h := this (4 - l) (by omega)
    rwa [show 4 - (4 - l) = l by omega] at h
  intro k hk
  induction k with
  | zero =>
    rw [Nat.sub_zero, weightedSums_empty.subtree_leaf]
    exact hzero
  | succ k ih =>
    rw [weightedSums_empty.subtree_inner (by omega), show 4 - (k + 1) + 1 = 4 - k by omega, ih (by omega)]
    exact hzero

theorem weightedSums_bucketNode {k : ℕ} (hk : k ≤ 4) (x : ℕ) : 0 ≤ weightedSums.bucketNode w b (4 - k) x ∧
    (weightedSums.bucketNode w b (4 - k) x = 0 →
      ∀ s, 256 ^ (k + 1) * x ≤ s → s < 256 ^ (k + 1) * (x + 1) → slots w b s = none) := by
  induction k generalizing x with
  | zero =>
    have hkv : ∀ v : Option SaltValue, 0 ≤ weightedSums.kvHash v ∧ (weightedSums.kvHash v = 0 → v = none) := by
      intro v
      cases v with
      | none => exact ⟨le_rfl, fun _ ↦ rfl⟩
      | some v =>
        have hpos : (0 : ℤ) < (v.keyLen : ℤ) + 1 := by positivity
        exact ⟨hpos.le, fun h ↦ absurd h hpos.ne'⟩
    obtain ⟨hnonneg, hzero⟩ := vec_weights (f := fun i ↦ weightedSums.kvHash (slots w b (256 * x + i)))
      fun i _ ↦ (hkv _).1
    refine ⟨hnonneg, fun h s hle hlt ↦ ?_⟩
    rw [zero_add, pow_one] at hle hlt
    have hslot := (hkv _).2 (hzero h (s - 256 * x) (by omega))
    rwa [Nat.add_sub_cancel' hle] at hslot
  | succ k ih =>
    have hl : 4 - (k + 1) < 4 := by omega
    have hdown : 4 - (k + 1) + 1 = 4 - k := by omega
    obtain ⟨hnonneg, hzero⟩ := vec_weights
      (f := fun i ↦ weightedSums.hash (weightedSums.bucketNode w b (4 - (k + 1) + 1) (256 * x + i)))
      fun i _ ↦ by
        rw [hdown]
        exact (ih (by omega) _).1
    rw [Committer.bucketNode_inner hl]
    refine ⟨hnonneg, fun h s hle hlt ↦ ?_⟩
    have hpos : 0 < 256 ^ (k + 1) := by positivity
    have hpow : 256 ^ (k + 1 + 1) * x = 256 ^ (k + 1) * (256 * x) := by ring
    have hpow' : 256 ^ (k + 1 + 1) * (x + 1) = 256 ^ (k + 1) * (256 * x + 256) := by ring
    have hge : 256 * x ≤ s / 256 ^ (k + 1) := by
      rw [Nat.le_div_iff_mul_le hpos, Nat.mul_comm, ← hpow]
      exact hle
    have hless : s / 256 ^ (k + 1) < 256 * x + 256 := by
      rw [Nat.div_lt_iff_lt_mul hpos, Nat.mul_comm, ← hpow']
      exact hlt
    have hchild := hzero h (s / 256 ^ (k + 1) - 256 * x) (by omega)
    rw [hdown, Nat.add_sub_cancel' hge] at hchild
    exact (ih (by omega) _).2 hchild s (Nat.mul_div_le ..) (Nat.lt_mul_div_succ _ hpos)

theorem weightedSums_visible (w w' : SaltKey → Option SaltValue) : StateRoot.Visible weightedSums w w' := by
  intro b _ _ l hl x hnode s hle hlt
  rw [weightedSums_subtree hl] at hnode
  have h := weightedSums_bucketNode (w := w) (b := b) (show 4 - l ≤ 4 by omega) x
  rw [show 4 - (4 - l) = l by omega, show 4 - l + 1 = 5 - l by omega] at h
  exact h.2 hnode s hle hlt

end Scheme

section Growth

def grownState : SaltKey → Option SaltValue :=
  Function.update (Function.update emptyState (metadataKey 65536)
    (some (SaltValue.ofMeta { BucketMeta.default with capacity := 512 })))
    (SaltKey.ofPair 65536 300) (some (SaltValue.ofMeta .default))

theorem aligned_grown : Aligned 512 where
  pos := by norm_num
  le := by norm_num
  unit := by norm_num
  full l hl h := by
    interval_cases l <;> simp [nodesAt, Multipoint.divCeil] at h ⊢

theorem regular_grown : Regular grownState := by
  have hb : isValidDataBucket 65536 := by decide
  refine Regular.write (Regular.resize regular_empty hb aligned_grown fun s hs ↦ ?_) hb ?_
  · refine regular_empty.outside 65536 hb s ?_
    rw [capacityAt_empty]
    exact le_trans (by norm_num) hs
  · rw [capacityAt_resize (by norm_num) 65536 hb hb, if_pos rfl]
    norm_num

def growth : StateUpdates :=
  ⟨((∅ : ExtTreeMap SaltKey (Option SaltValue × Option SaltValue)).insert (metadataKey 65536)
    (some (SaltValue.ofMeta .default), some (SaltValue.ofMeta { BucketMeta.default with capacity := 512 }))).insert
    (SaltKey.ofPair 65536 300) (none, some (SaltValue.ofMeta .default))⟩

theorem isDiff_growth : growth.IsDiff emptyState grownState := by
  have hb : isValidDataBucket 65536 := by decide
  have hmeta : emptyState (metadataKey 65536) = some (SaltValue.ofMeta .default) := by
    rw [emptyState, normalize_meta (metadataKey_inMeta hb)]
    rfl
  have hslot : emptyState (SaltKey.ofPair 65536 300) = none := by
    rw [emptyState, normalize_data (ofPair_not_inMeta hb (by norm_num))]
  have hne : metadataKey 65536 ≠ SaltKey.ofPair 65536 300 := by decide
  intro k
  rw [growth, grownState]
  by_cases hk : k = SaltKey.ofPair 65536 300
  · rw [hk, ExtTreeMap.getElem?_insert_self, Function.update_self, hslot, if_neg (by simp)]
  · rw [ExtTreeMap.getElem?_insert, if_neg (by simpa using Ne.symm hk), Function.update_of_ne hk]
    by_cases hk' : k = metadataKey 65536
    · rw [hk', ExtTreeMap.getElem?_insert_self, Function.update_self, hmeta, if_neg (by decide)]
    · rw [ExtTreeMap.getElem?_insert, if_neg (by simpa using Ne.symm hk'), Function.update_of_ne hk', if_pos rfl,
        ExtTreeMap.getElem?_empty]

theorem metaOfBuckets_grown : MetaOfBuckets emptyState grownState := by
  intro k hk hne
  have hb : isValidDataBucket 65536 := by decide
  have hslot : k ≠ SaltKey.ofPair 65536 300 := by
    rintro rfl
    rw [ofPair_not_inMeta hb (by norm_num)] at hk
    cases hk
  refine ⟨65536, hb, ?_⟩
  by_contra hkey
  exact hne (by rw [grownState, Function.update_of_ne hslot, Function.update_of_ne hkey])

theorem apply_growth : growth.apply emptyState = grownState := isDiff_apply isDiff_growth

theorem admissible_growth : StateRoot.Admissible weightedSums emptyState (fun _ _ ↦ False) growth where
  diff := apply_growth ▸ isDiff_growth
  metadata := apply_growth ▸ metaOfBuckets_grown
  regular := apply_growth ▸ regular_grown
  visible := weightedSums_visible _ _
  left _ _ h := h.elim

theorem apply_shrink : growth.inverse.apply grownState = emptyState := isDiff_apply (isDiff_inverse isDiff_growth)

theorem admissible_shrink : StateRoot.Admissible weightedSums grownState
    (StateRoot.retire emptyState grownState fun _ _ ↦ False) growth.inverse where
  diff := apply_shrink.symm ▸ isDiff_inverse isDiff_growth
  metadata k hk hne := metaOfBuckets_grown k hk (apply_shrink ▸ hne.symm)
  regular := apply_shrink.symm ▸ regular_empty
  visible := weightedSums_visible _ _
  left b l h := by
    rcases h with h | ⟨-, hlt⟩
    · exact h.elim
    · rw [topLevel_empty] at hlt
      exact absurd hlt (not_lt.mpr (topLevel_le grownState b))

end Growth

end Salt
