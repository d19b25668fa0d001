import Salt.Trie.Levels
import Salt.Library.Entries

namespace Salt

open Std (ExtTreeMap ExtTreeSet)
open Library.Triple Library.ChangeList Library.Entries

/-- Updates that lead from one state to another: of the data slots exactly those that differ, of the
metadata at least these. -/
structure Records (u : StateUpdates) (w w' : SaltKey → Option SaltValue) : Prop where
  data : ∀ k, k.isInMetaBucket = false → u.data[k]? = if w k = w' k then none else some (w k, w' k)
  same : ∀ k, k.isInMetaBucket = true → u.data[k]? = none → w k = w' k
  changed : ∀ k p, k.isInMetaBucket = true → u.data[k]? = some p →
    p = (w k, w' k) ∧ ∃ b, isValidDataBucket b ∧ k = metadataKey b

def Expanded (w w' : SaltKey → Option SaltValue) (b : ℕ) : Prop :=
  ¬ (capacityAt w b = capacityAt w' b ∧ capacityAt w b ≤ 256)

instance (w w' : SaltKey → Option SaltValue) (b : ℕ) : Decidable (Expanded w w' b) := by
  unfold Expanded
  infer_instance

def commonReach (w w' : SaltKey → Option SaltValue) (b : ℕ) : ℕ := 256 ^ (5 - max (topLevel w b) (topLevel w' b))

structure SubtrieChangeInfo.Shapes (w w' : SaltKey → Option SaltValue) (b : ℕ) (info : SubtrieChangeInfo) : Prop where
  oldTopLevel : info.oldTopLevel = topLevel w b
  oldTopId : info.oldTopId = nodeAt b (topLevel w b) 0
  newTopLevel : info.newTopLevel = topLevel w' b
  newTopId : info.newTopId = nodeAt b (topLevel w' b) 0
  rootId : info.rootId = nodeAt 0 3 b
  capacities : info.oldCapacity = capacityAt w b ∧ info.newCapacity = capacityAt w' b ∨
    info.oldCapacity = info.newCapacity ∧ capacityAt w b = capacityAt w' b ∧ capacityAt w b ≤ info.newCapacity

theorem StateUpdates.sorted_keys {β : Type} (d : ExtTreeMap SaltKey β) :
    d.toList.Pairwise fun a b ↦ a.1.val < b.1.val :=
  d.ordered_keys_toList.imp SaltKey.compare_lt.mp

section Records

variable {u : StateUpdates} {w w' : SaltKey → Option SaltValue} {b : ℕ}

theorem Records.mem_data (h : Records u w w') {e : StateChange} (he : e ∈ u.data.toList)
    (hk : e.1.isInMetaBucket = false) : w e.1 ≠ w' e.1 ∧ e.2 = (w e.1, w' e.1) := by
  have hget := ExtTreeMap.mem_toList_iff_getElem?_eq_some.mp he
  rw [h.data e.1 hk] at hget
  split at hget
  · cases hget
  · exact ⟨by assumption, (Option.some.inj hget).symm⟩

theorem Records.mem_meta (h : Records u w w') {e : StateChange} (he : e ∈ u.data.toList)
    (hk : e.1.isInMetaBucket = true) :
    e.2 = (w e.1, w' e.1) ∧ ∃ b, isValidDataBucket b ∧ e.1 = metadataKey b :=
  h.changed e.1 e.2 hk (ExtTreeMap.mem_toList_iff_getElem?_eq_some.mp he)

theorem Records.entry (h : Records u w w') {e : StateChange} (he : e ∈ u.data.toList) : e.2 = (w e.1, w' e.1) := by
  by_cases hk : e.1.isInMetaBucket = true
  · exact (h.mem_meta he hk).1
  · exact (h.mem_data he (by simpa using hk)).2

theorem Records.lists (h : Records u w w') : Lists (fun _ ↦ True) w w' u.data.toList where
  nodup := List.pairwise_map.mpr (StateUpdates.pairwise_keys u.data)
  mem e he := ⟨trivial, h.entry he⟩
  cover k _ hne := by
    have hsome : u.data[k]? ≠ none := by
      intro hnone
      by_cases hk : k.isInMetaBucket = true
      · exact hne (h.same k hk hnone)
      · rw [h.data k (by simpa using hk), if_neg hne] at hnone
        cases hnone
    obtain ⟨p, hp⟩ := Option.ne_none_iff_exists'.mp hsome
    exact List.mem_map_of_mem (ExtTreeMap.mem_toList_iff_getElem?_eq_some.mpr hp)

theorem not_meta_iff {k : SaltKey} : k.isInMetaBucket = false ↔ isValidDataBucket k.bucketId := by
  have hlt := k.bucketId_lt
  rw [dataBucket_iff, SaltKey.isInMetaBucket]
  simp only [decide_eq_false_iff_not, numMetaBuckets]
  omega

theorem slots_key {k : SaltKey} : slots w k.bucketId k.slotId = w k := by
  rw [slots_eq k.slotId_lt, k.ofPair_eta]

theorem Records.slot_lt (h : Records u w w') (hw : Regular w) (hw' : Regular w') {e : StateChange}
    (he : e ∈ u.data.toList) (hk : e.1.isInMetaBucket = false) :
    e.1.slotId < max (capacityAt w e.1.bucketId) (capacityAt w' e.1.bucketId) := by
  by_contra hge
  have hb := not_meta_iff.mp hk
  refine (h.mem_data he hk).1 ?_
  rw [← slots_key (w := w), ← slots_key (w := w'), hw.outside _ hb _ ((le_max_left ..).trans (not_lt.mp hge)),
    hw'.outside _ hb _ ((le_max_right ..).trans (not_lt.mp hge))]

theorem Records.metaAt_eq (h : Records u w w') (hb : isValidDataBucket b) (hn : metadataKey b ∉ u.data) :
    metaAt w b = metaAt w' b := by
  rw [metaAt, metaAt, h.same _ (metadataKey_inMeta hb) (ExtTreeMap.getElem?_eq_none hn)]

theorem Records.slots_untouched (h : Records u w w') (hb : b < 2 ^ 24)
    (hn : ∀ e ∈ u.data.toList, e.1.bucketId ≠ b) : slots w b = slots w' b := by
  refine slots_congr hb fun k hk ↦ ?_
  by_contra hne
  obtain ⟨e, he, hek⟩ := List.mem_map.mp (h.lists.cover k trivial hne)
  exact hn e he (by rw [hek, hk])

theorem topLevel_eq_of_capacity (h : capacityAt w b = capacityAt w' b) : topLevel w b = topLevel w' b := by
  rw [topLevel, topLevel, h]

theorem Regular.topLevel_antitone (hw : Regular w) (hw' : Regular w') (hb : isValidDataBucket b)
    (h : capacityAt w b ≤ capacityAt w' b) : topLevel w' b ≤ topLevel w b :=
  (hw.top hb).2.antitone (hw'.top hb).2 h

theorem nodeAt_zero (b l : ℕ) : nodeAt b l 0 = b * 2 ^ 40 + leftmostNode l := Nat.add_zero _

theorem newShape {c c' top top' : ℕ} (hc : subtreeRootLevel c = .ok top) (hc' : subtreeRootLevel c' = .ok top') :
    SubtrieChangeInfo.new b c c' = .ok ⟨c, top, nodeAt b top 0, c', top', nodeAt b top' 0, nodeAt 0 3 b⟩ := by
  rw [SubtrieChangeInfo.new, hc, ok_bind, hc', ok_bind, bucketRootNodeId_eq, nodeAt_zero b top, nodeAt_zero b top']

def changeShape (w w' : SaltKey → Option SaltValue) (b : ℕ) : SubtrieChangeInfo :=
  ⟨capacityAt w b, topLevel w b, nodeAt b (topLevel w b) 0, capacityAt w' b, topLevel w' b, nodeAt b (topLevel w' b) 0,
    nodeAt 0 3 b⟩

theorem shapes_changeShape : (changeShape w w' b).Shapes w w' b := ⟨rfl, rfl, rfl, rfl, rfl, .inl ⟨rfl, rfl⟩⟩

theorem metadataChange_eq (h : Records u w w') (hw : Regular w) (hw' : Regular w') {e : StateChange}
    (he : e ∈ u.data.toList) (hb : isValidDataBucket b) (hkey : e.1 = metadataKey b) :
    metadataChange e = .ok (b, changeShape w w' b) := by
  have hk : e.1.isInMetaBucket = true := hkey ▸ metadataKey_inMeta hb
  have hentry : ∀ {v : SaltKey → Option SaltValue}, Regular v → ∃ x, v e.1 = some x ∧
      BucketMeta.tryFrom x = .ok (metaAt v b) := by
    intro v hv
    refine ⟨SaltValue.ofMeta (metaOf (v e.1)), ?_, ?_⟩
    · conv_lhs => rw [← hv.normal, normalize_meta hk]
    · obtain ⟨hbound, hused⟩ := metaOf_bounds (v e.1)
      rw [BucketMeta.tryFrom_ofMeta hbound, metaAt, ← hkey, ← hused]
  obtain ⟨x, hx, hold⟩ := hentry hw
  obtain ⟨x', hx', hnew⟩ := hentry hw'
  have hid : bucketIdFromMetadataKey e.1 = b := by rw [hkey, bucketIdFromMetadataKey_metadataKey hb]
  have hshape := newShape (b := b) (hw.top hb).1 (hw'.top hb).1
  rw [metadataChange, (h.mem_meta he hk).1]
  simp only [hx, hx', expectSome, ok_bind, hold, hnew, expectOk, hid]
  rw [← capacityAt, ← capacityAt, hshape]
  rfl

theorem metadataChanges_ok (h : Records u w w') (hw : Regular w) (hw' : Regular w') :
    ∃ m, metadataChanges u = .ok m ∧ ∀ b info,
      m[b]? = some info ↔ isValidDataBucket b ∧ metadataKey b ∈ u.data ∧ info = changeShape w w' b := by
  have hbucket : ∀ e ∈ u.data.toList.filter fun e ↦ e.1.isInMetaBucket, e ∈ u.data.toList ∧
      isValidDataBucket (bucketIdFromMetadataKey e.1) ∧ e.1 = metadataKey (bucketIdFromMetadataKey e.1) := by
    intro e he
    obtain ⟨he, hk⟩ := List.mem_filter.mp he
    obtain ⟨-, b, hb, hkey⟩ := h.mem_meta he hk
    rw [hkey, bucketIdFromMetadataKey_metadataKey hb]
    exact ⟨he, hb, rfl⟩
  have hrun := mapM_eq_ok (f := metadataChange)
    (g := fun e ↦ (bucketIdFromMetadataKey e.1, changeShape w w' (bucketIdFromMetadataKey e.1)))
    (u.data.toList.filter fun e ↦ e.1.isInMetaBucket) fun e he ↦
      metadataChange_eq h hw hw' (hbucket e he).1 (hbucket e he).2.1 (hbucket e he).2.2
  have hnodup : ((u.data.toList.filter fun e ↦ e.1.isInMetaBucket).map
      fun e ↦ bucketIdFromMetadataKey e.1).Nodup := by
    refine List.Nodup.map_on (fun e he f hf hef ↦ ?_) (h.lists.nodup.of_map _ |>.filter _)
    have hkey : e.1 = f.1 := by rw [(hbucket e he).2.2, (hbucket f hf).2.2, hef]
    exact Prod.ext hkey (by rw [h.entry (hbucket e he).1, h.entry (hbucket f hf).1, hkey])
  refine ⟨_, by rw [metadataChanges, hrun, ok_bind], fun b info ↦ ?_⟩
  rw [List.foldl_map]
  constructor
  · intro hget
    by_cases hb : b ∈ (u.data.toList.filter fun e ↦ e.1.isInMetaBucket).map fun e ↦ bucketIdFromMetadataKey e.1
    · obtain ⟨e, he, rfl⟩ := List.mem_map.mp hb
      rw [getElem?_insertAll _ hnodup he, Option.some.injEq] at hget
      refine ⟨(hbucket e he).2.1, ?_, hget.symm⟩
      rw [← (hbucket e he).2.2]
      exact ExtTreeMap.mem_iff_isSome_getElem?.mpr (by
        rw [ExtTreeMap.mem_toList_iff_getElem?_eq_some.mp (hbucket e he).1]; rfl)
    · rw [getElem?_insertAll_of_notMem hb] at hget
      simp at hget
  · rintro ⟨hb, hmem, rfl⟩
    obtain ⟨p, hp⟩ := Option.isSome_iff_exists.mp (ExtTreeMap.mem_iff_isSome_getElem?.mp hmem)
    have he : (metadataKey b, p) ∈ u.data.toList.filter fun e ↦ e.1.isInMetaBucket :=
      List.mem_filter.mpr ⟨ExtTreeMap.mem_toList_iff_getElem?_eq_some.mpr hp, metadataKey_inMeta hb⟩
    have hid := bucketIdFromMetadataKey_metadataKey hb
    have hget := getElem?_insertAll (fun e ↦ changeShape w w' (bucketIdFromMetadataKey e.1)) hnodup he ∅
    simpa only [hid] using hget

end Records

end Salt
