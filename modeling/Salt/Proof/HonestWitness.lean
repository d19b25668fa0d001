import Salt.Proof.Completeness

namespace Salt

open Std (ExtTreeMap ExtTreeSet)
open Library.Triple Library.Workers Library.Chunks
open Multipoint (ProverQuery divCeil)

variable {C F : Type} {commit : List F → C} {hash : C → F} {slotToField : Option SaltValue → F}
  {D : DefaultCommitments C} {s : MemStore C} {key : SaltKey}

section Keys

theorem metadata_read (hm : s.state.MetaOk) {b : ℕ} (hb : isValidDataBucket b) :
    ∃ m, s.state.metadata b = .ok m ∧ m.capacity = (metaAt s.state.content b).capacity ∧
      SaltValue.ofMeta m = SaltValue.ofMeta (metaAt s.state.content b) := by
  obtain ⟨m, hread, hmeta⟩ := ((StateStore.reads hm fun _ ↦ False).metadata b hb).exists_ok
  have hat : { m with used := none } = metaAt s.state.content b := by
    rw [StateStore.content, metaAt_normalize _ hb]
    exact hmeta
  refine ⟨m, hread, ?_, ?_⟩
  · rw [← hat]
  · rw [← hat]
    exact (SaltValue.ofMeta_used m none).symm

theorem MemStore.Consistent.rootLevel (hs : s.Consistent commit hash slotToField D) {b : ℕ}
    (hb : isValidDataBucket b) :
    ∃ l ≤ 4, subtreeRootLevel (metaAt s.state.content b).capacity = .ok l ∧ s.depth b = 5 - l ∧
      (metaAt s.state.content b).capacity ≤ 256 ^ s.depth b := by
  obtain ⟨l, hl, hroot, hle⟩ := subtreeRootLevel_spec (hs.capacity_le b hb)
  have hdepth : s.depth b = 5 - l := by
    rw [dataBucket_iff] at hb
    rw [MemStore.depth, if_neg (by simp only [numMetaBuckets]; omega), hroot]
    rfl
  exact ⟨l, hl, hroot, hdepth, hdepth ▸ hle⟩

structure Placed (s : MemStore C) (key : SaltKey) : Prop where
  bucket_ge : 256 ≤ key.bucketId
  depth_pos : 1 ≤ s.depth key.bucketId
  depth_le : s.depth key.bucketId ≤ 5
  slot_lt : key.slotId < 256 ^ s.depth key.bucketId
  data : 2 ≤ s.depth key.bucketId → isValidDataBucket key.bucketId

theorem depth_meta {b : ℕ} (hb : b < 2 ^ 16) : s.depth b = 1 := if_pos hb

theorem MemStore.Consistent.placed (hs : s.Consistent commit hash slotToField D)
    (hkey : s.Witnessable key) : Placed s key := by
  rcases hkey with ⟨b, hb, rfl⟩ | ⟨hb, hslot⟩
  · have hbucket := metadataKey_bucketId hb
    have hslotId := metadataKey_slotId hb
    rw [dataBucket_iff] at hb
    have hdepth : s.depth (metadataKey b).bucketId = 1 := depth_meta (by omega)
    refine ⟨by omega, by omega, by omega, ?_, fun h ↦ ?_⟩
    · rw [hdepth, hslotId]
      omega
    · omega
  · obtain ⟨l, hl, -, hdepth, hle⟩ := hs.rootLevel hb
    refine ⟨?_, by omega, by omega, hslot.trans_le hle, fun _ ↦ hb⟩
    rw [dataBucket_iff] at hb
    omega

theorem MemStore.Consistent.bucketLevel_eq (hs : s.Consistent commit hash slotToField D)
    (hkey : s.Witnessable key) : bucketLevel s key.bucketId = .ok (s.depth key.bucketId) := by
  rcases hkey with ⟨b, hb, rfl⟩ | ⟨hb, -⟩
  · have hbucket := metadataKey_bucketId hb
    rw [dataBucket_iff] at hb
    rw [bucketLevel, if_pos (by simp only [numMetaBuckets]; omega), depth_meta (by omega)]
  · obtain ⟨m, hread, hcap, -⟩ := metadata_read hs.metaOk hb
    obtain ⟨l, hl, hroot, hdepth, -⟩ := hs.rootLevel hb
    have hge := (dataBucket_iff.mp hb).1
    rw [bucketLevel, if_neg (by simp only [numMetaBuckets]; omega), hread]
    simp only [stateRead, ok_bind, hcap, hroot]
    rw [hdepth]

theorem MemStore.Consistent.validateKey_eq (hs : s.Consistent commit hash slotToField D)
    (hkey : s.Witnessable key) : validateKey s key = .ok () := by
  rcases hkey with ⟨b, hb, rfl⟩ | ⟨hb, hslot⟩
  · have hslot : (metadataKey b).slotId < metaBucketSize := by
      rw [metadataKey_slotId hb]
      exact Nat.mod_lt _ (by norm_num)
    rw [validateKey, if_pos (metadataKey_inMeta hb), ok_bind]
    exact if_pos hslot
  · obtain ⟨m, hread, hcap, -⟩ := metadata_read hs.metaOk hb
    have hmeta : ¬ key.isInMetaBucket := by
      rw [dataBucket_iff] at hb
      rw [SaltKey.isInMetaBucket, decide_eq_true_iff]
      simp only [numMetaBuckets]
      omega
    rw [validateKey, if_neg hmeta, hread]
    simp only [stateRead, ok_bind, hcap, if_pos hslot]

theorem MemStore.Consistent.witnessedValue_eq (hs : s.Consistent commit hash slotToField D)
    (hkey : s.Witnessable key) : witnessedValue s key = .ok (s.state.content key) := by
  rcases hkey with ⟨b, hb, rfl⟩ | ⟨hb, -⟩
  · obtain ⟨m, hread, -, hof⟩ := metadata_read hs.metaOk hb
    have hcontent : s.state.content (metadataKey b) =
        some (SaltValue.ofMeta (metaAt s.state.content b)) := by
      rw [StateStore.content, metaAt_normalize _ hb, normalize_meta (metadataKey_inMeta hb), metaAt]
    rw [witnessedValue, if_pos (metadataKey_inMeta hb), bucketIdFromMetadataKey_metadataKey hb, hread,
      hcontent, ← hof]
    rfl
  · have hmeta : key.isInMetaBucket = false := by
      rw [dataBucket_iff] at hb
      rw [SaltKey.isInMetaBucket, decide_eq_false_iff_not]
      simp only [numMetaBuckets]
      omega
    rw [witnessedValue, hmeta, StateStore.content, normalize_data hmeta]
    rfl

end Keys

section Paths

variable {p : ℕ × ℕ}

theorem climb_child {b l x i n : ℕ} (hl : l ≤ 4) (hx : x < 256 ^ l) (hn : n ≤ l) (hi : i < n) :
    getChildNode (nodeAt b (l - 1 - i) (x / 256 ^ (i + 1))) (x / 256 ^ i % 256) =
      nodeAt b (l - i) (x / 256 ^ i) := by
  have hlt := climb_lt hx (show i + 1 ≤ l by omega)
  rw [show l - (i + 1) = l - 1 - i by omega] at hlt
  rw [getChildNode_nodeAt (by omega) hlt, show l - 1 - i + 1 = l - i by omega, pow_succ,
    ← Nat.div_div_eq_div_mul, Nat.div_add_mod']

theorem Placed.segment_lt (h : Placed s key) {n : ℕ} (hn : s.depth key.bucketId = n + 1) :
    key.slotId / 256 < 256 ^ n := by
  have hslot := h.slot_lt
  rw [hn, pow_succ] at hslot
  omega

structure Opened (s : MemStore C) (key : SaltKey) (p : ℕ × ℕ) : Prop where
  node : TrieNode (connectParentId p.1)
  parent : ∃ parent, logicParentId p.1 = .ok parent ∧ ParentNode parent
  point : p.2 < 256
  child : (∃ p' ∈ pathPositions key (s.depth key.bucketId), connectParentId p'.1 = childOf p) ∨
    connectParentId (slotPosition key (s.depth key.bucketId)).1 = childOf p

theorem connectParentId_slot (s : MemStore C) (key : SaltKey) :
    connectParentId (slotPosition key (s.depth key.bucketId)).1 =
      (slotPosition key (s.depth key.bucketId)).1 := by
  rw [slotPosition]
  simp only
  split
  · rw [bucketRootNodeId_eq, connectParentId_nodeAt (by omega) key.bucketId_lt]
  · rw [subtreeLeafForKey_eq, connectParentId_nodeAt le_rfl (slotId_segment_lt key)]

/-- A node of a climb below its first step was opened one step earlier. -/
theorem connectParentId_climb {b l x n i : ℕ} (hl : l ≤ 4) (hx : x < 256 ^ l) (hn : n ≤ l) (hi : i < n) :
    ∃ p ∈ climbPositions b l x n, connectParentId p.1 = nodeAt b (l - (i + 1)) (x / 256 ^ (i + 1)) := by
  have hmem : (nodeAt b (l - 1 - i) (x / 256 ^ (i + 1)), x / 256 ^ i % 256) ∈ climbPositions b l x n :=
    mem_climbPositions.mpr ⟨i, hi, rfl⟩
  refine ⟨_, hmem, ?_⟩
  rw [(climbPositions_logic hl hx hn hmem).1, show l - (i + 1) = l - 1 - i by omega]

theorem Placed.opened_main (h : Placed s key) (hp : p ∈ climbPositions 0 3 key.bucketId 3) :
    Opened s key p := by
  obtain ⟨hconnect, hlogic⟩ := climbPositions_logic (by omega) key.bucketId_lt le_rfl hp
  obtain ⟨i, hi, rfl⟩ := mem_climbPositions.mp hp
  have hlt := climb_lt (show key.bucketId < 256 ^ 3 from key.bucketId_lt) (show i + 1 ≤ 3 by omega)
  rw [show 3 - (i + 1) = 3 - 1 - i by omega] at hlt
  refine ⟨?_, ⟨_, hlogic, .main (by omega) hlt⟩, Nat.mod_lt _ (by omega), ?_⟩
  · rw [hconnect]
    exact .main (by omega) hlt
  rw [childOf_eq hlogic, climb_child (by omega) key.bucketId_lt le_rfl hi]
  cases i with
  | zero =>
    rw [Nat.sub_zero, pow_zero, Nat.div_one]
    rcases Nat.lt_or_ge 1 (s.depth key.bucketId) with hd | hd
    · refine .inl ⟨_, mem_pathPositions.mpr (.inr (.inr ⟨hd, rfl⟩)), ?_⟩
      exact connectParentId_encodeParent key.bucketId_lt hd (by have := h.depth_le; omega)
    · have hone : s.depth key.bucketId = 1 := by
        have := h.depth_pos
        omega
      right
      rw [connectParentId_slot s key, slotPosition, if_pos hone, bucketRootNodeId_eq]
  | succ i =>
    obtain ⟨p', hp', hnode⟩ := connectParentId_climb (b := 0) (show 3 ≤ 4 by omega) key.bucketId_lt le_rfl
      (show i < 3 by omega)
    exact .inl ⟨p', mem_pathPositions.mpr (.inl hp'), hnode⟩

theorem Placed.slotPosition_segment (h : 2 ≤ s.depth key.bucketId) :
    (slotPosition key (s.depth key.bucketId)).1 = nodeAt key.bucketId 4 (key.slotId / 256) := by
  rw [slotPosition, if_neg (by omega), subtreeLeafForKey_eq]

theorem Placed.opened_subtree (h : Placed s key)
    (hp : p ∈ climbPositions key.bucketId 4 (key.slotId / 256) (s.depth key.bucketId - 2)) :
    Opened s key p := by
  have hx := slotId_segment_lt key
  have hle := h.depth_le
  obtain ⟨hconnect, hlogic⟩ := climbPositions_logic le_rfl hx (by omega) hp
  obtain ⟨i, hi, rfl⟩ := mem_climbPositions.mp hp
  have hb := h.data (by omega)
  have hlt := climb_lt hx (show i + 1 ≤ 4 by omega)
  rw [show 4 - (i + 1) = 4 - 1 - i by omega] at hlt
  refine ⟨?_, ⟨_, hlogic, .subtree hb (by omega) hlt⟩, Nat.mod_lt _ (by omega), ?_⟩
  · rw [hconnect]
    exact .subtree hb (by omega) hlt
  rw [childOf_eq hlogic, climb_child le_rfl hx (by omega) hi]
  cases i with
  | zero =>
    right
    rw [Nat.sub_zero, pow_zero, Nat.div_one, connectParentId_slot s key, slotPosition_segment (by omega)]
  | succ i =>
    obtain ⟨p', hp', hnode⟩ := connectParentId_climb (b := key.bucketId) le_rfl hx
      (show s.depth key.bucketId - 2 ≤ 4 by omega) (show i < s.depth key.bucketId - 2 by omega)
    exact .inl ⟨p', mem_pathPositions.mpr (.inr (.inl hp')), hnode⟩

theorem Placed.opened_bridge (h : Placed s key) (hd : 2 ≤ s.depth key.bucketId) :
    Opened s key (encodeParent (bucketRootNodeId key.bucketId) (s.depth key.bucketId),
      key.slotId / 256 / 256 ^ (s.depth key.bucketId - 2) % 256) := by
  have hle := h.depth_le
  have hb := h.data hd
  have hx := slotId_segment_lt key
  have hlogic := logicParentId_encodeParent key.bucketId_lt hd hle
  have hseg := h.segment_lt (n := s.depth key.bucketId - 1) (by omega)
  have hdigit : key.slotId / 256 / 256 ^ (s.depth key.bucketId - 2) < 256 := by
    rw [Nat.div_lt_iff_lt_mul (by positivity), ← pow_succ',
      show s.depth key.bucketId - 2 + 1 = s.depth key.bucketId - 1 by omega]
    exact hseg
  have hzero : (0 : ℕ) < 256 ^ (5 - s.depth key.bucketId) := by positivity
  refine ⟨?_, ⟨_, hlogic, .subtree hb (by omega) hzero⟩, Nat.mod_lt _ (by omega), ?_⟩
  · rw [connectParentId_encodeParent key.bucketId_lt hd (by omega)]
    exact .main le_rfl key.bucketId_lt
  rw [childOf_eq hlogic, getChildNode_nodeAt (by omega) hzero, Nat.mod_eq_of_lt hdigit, Nat.zero_mul,
    Nat.zero_add]
  rcases Nat.lt_or_ge 2 (s.depth key.bucketId) with hd' | hd'
  · obtain ⟨p', hp', hnode⟩ := connectParentId_climb (b := key.bucketId) le_rfl hx
      (show s.depth key.bucketId - 2 ≤ 4 by omega)
      (show s.depth key.bucketId - 3 < s.depth key.bucketId - 2 by omega)
    refine .inl ⟨p', mem_pathPositions.mpr (.inr (.inl hp')), ?_⟩
    rw [hnode, show 4 - (s.depth key.bucketId - 3 + 1) = 5 - s.depth key.bucketId + 1 by omega,
      show s.depth key.bucketId - 3 + 1 = s.depth key.bucketId - 2 by omega]
  · right
    have htwo : s.depth key.bucketId = 2 := by omega
    rw [connectParentId_slot s key, slotPosition_segment (by omega), htwo, pow_zero, Nat.div_one]

theorem Placed.opened (h : Placed s key) (hp : p ∈ pathPositions key (s.depth key.bucketId)) :
    Opened s key p := by
  rcases mem_pathPositions.mp hp with hp | hp | ⟨hd, rfl⟩
  · exact h.opened_main hp
  · exact h.opened_subtree hp
  · exact h.opened_bridge hd

theorem Placed.leaf (h : Placed s key) :
    TrieNode (connectParentId (slotPosition key (s.depth key.bucketId)).1) ∧
    (∃ start, LeafAt (slotPosition key (s.depth key.bucketId)).1 key.bucketId start) ∧
    (slotPosition key (s.depth key.bucketId)).2 < 256 ∧
    slotKey (slotPosition key (s.depth key.bucketId)) = key := by
  have hge := h.bucket_ge
  have hb := key.bucketId_lt
  have hpos := h.depth_pos
  have hkey : slotKey (slotPosition key (s.depth key.bucketId)) = key :=
    (leafKey_eq hpos h.slot_lt).trans (if_neg (by omega))
  refine ⟨?_, ?_, Nat.mod_lt _ (by omega), hkey⟩
  · rw [connectParentId_slot s key, slotPosition]
    simp only
    split
    · rw [bucketRootNodeId_eq]
      exact .main le_rfl hb
    · rw [subtreeLeafForKey_eq]
      exact .subtree (h.data (by omega)) le_rfl (slotId_segment_lt key)
  · rw [slotPosition]
    simp only
    split
    · rw [bucketRootNodeId_eq]
      exact ⟨0, .bucket hge hb⟩
    · rw [subtreeLeafForKey_eq]
      exact ⟨_, .segment (h.data (by omega)) (slotId_segment_lt key)⟩

end Paths

section Commitments

variable {p : ℕ × ℕ}

theorem map_childOf {n parent : ℕ} (h : logicParentId n = .ok parent) :
    ((List.range 256).map fun i ↦ hash (s.com D (childOf (n, i)))) = s.childVector hash D parent := by
  refine List.map_congr_left fun i _ ↦ ?_
  rw [childOf_eq h]

theorem MemStore.Consistent.internal_commits (hs : s.Consistent commit hash slotToField D) (h : Placed s key)
    (hp : p ∈ pathPositions key (s.depth key.bucketId)) :
    s.com D (connectParentId p.1) =
      commit ((List.range 256).map fun i ↦ hash (s.com D (childOf (p.1, i)))) := by
  have hle := h.depth_le
  have hx := slotId_segment_lt key
  rcases mem_pathPositions.mp hp with hp | hp | ⟨hd, rfl⟩
  · obtain ⟨hconnect, hlogic⟩ := climbPositions_logic (by omega) key.bucketId_lt le_rfl hp
    obtain ⟨i, hi, rfl⟩ := mem_climbPositions.mp hp
    have hlt := climb_lt (show key.bucketId < 256 ^ 3 from key.bucketId_lt) (show i + 1 ≤ 3 by omega)
    rw [show 3 - (i + 1) = 3 - 1 - i by omega] at hlt
    rw [map_childOf hlogic, hconnect]
    exact hs.main _ _ (by omega) hlt
  · obtain ⟨hconnect, hlogic⟩ := climbPositions_logic le_rfl hx (by omega) hp
    obtain ⟨i, hi, rfl⟩ := mem_climbPositions.mp hp
    have hseg := h.segment_lt (n := s.depth key.bucketId - 1) (by omega)
    have hlt := climb_lt hseg (show i + 1 ≤ s.depth key.bucketId - 1 by omega)
    rw [map_childOf hlogic, hconnect]
    refine hs.inner _ _ _ (h.data (by omega)) (by omega) (by omega) ?_
    rwa [show 4 - 1 - i - (5 - s.depth key.bucketId) = s.depth key.bucketId - 1 - (i + 1) by omega]
  · rw [map_childOf (logicParentId_encodeParent key.bucketId_lt hd hle),
      connectParentId_encodeParent key.bucketId_lt hd (by omega)]
    exact hs.bridge _ (h.data hd) hd

theorem MemStore.Consistent.leaf_commits (hs : s.Consistent commit hash slotToField D) (h : Placed s key) :
    s.com D (connectParentId (slotPosition key (s.depth key.bucketId)).1) =
      commit ((List.range 256).map fun i ↦
        slotToField (s.state.content (slotKey ((slotPosition key (s.depth key.bucketId)).1, i)))) := by
  have hpos := h.depth_pos
  rw [connectParentId_slot s key]
  by_cases hone : s.depth key.bucketId = 1
  · have hleaf : LeafAt (nodeAt 0 3 key.bucketId) key.bucketId 0 := .bucket h.bucket_ge key.bucketId_lt
    rw [slotPosition, if_pos hone, bucketRootNodeId_eq, hs.bucket _ h.bucket_ge key.bucketId_lt hone]
    simp only [hleaf.slotKey]
    rfl
  · have hdata := h.data (by omega)
    have hleaf : LeafAt (nodeAt key.bucketId 4 (key.slotId / 256)) key.bucketId (key.slotId / 256 * 256) :=
      .segment hdata (slotId_segment_lt key)
    rw [Placed.slotPosition_segment (by omega), hs.leaf _ _ hdata (by omega) (h.segment_lt (by omega))]
    simp only [hleaf.slotKey]
    rfl

end Commitments

section Assembly

variable {keys : List SaltKey} {levels : ExtTreeMap ℕ ℕ} {r : Points × Points} {e : ℕ × ExtTreeSet ℕ}

def subTrieQueries (hash : C → F) (slotToField : Option SaltValue → F) (D : DefaultCommitments C)
    (s : MemStore C) (r : Points × Points) : List (ProverQuery F C) :=
  (r.1.toList.flatMap fun e ↦ e.2.toList.map (internalQuery hash D s e.1)) ++
    r.2.toList.flatMap fun e ↦ e.2.toList.map (leafQuery slotToField D s e.1)

def LevelsOf (s : MemStore C) (keys : List SaltKey) (levels : ExtTreeMap ℕ ℕ) : Prop :=
  ∀ b, levels[b]? = if b ∈ keys.map SaltKey.bucketId then some (s.depth b) else none

theorem LevelsOf.found (h : LevelsOf s keys levels) (hkey : key ∈ keys) :
    levels[key.bucketId]? = some (s.depth key.bucketId) := by
  rw [h, if_pos (List.mem_map_of_mem hkey)]

theorem path_key (h : LevelsOf s keys levels) (hpath : r.1.Exactly (PathOf levels keys))
    (he : e ∈ r.1.toList) {q : ℕ} (hq : q ∈ e.2.toList) :
    ∃ key ∈ keys, (e.1, q) ∈ pathPositions key (s.depth key.bucketId) := by
  obtain ⟨key, hkey, level, hlevel, hp⟩ := (hpath.opens (e.1, q)).mp
    ⟨e.2, ExtTreeMap.mem_toList_iff_getElem?_eq_some.mp he, ExtTreeSet.mem_toList.mp hq⟩
  rw [h.found hkey, Option.some.injEq] at hlevel
  exact ⟨key, hkey, hlevel ▸ hp⟩

theorem slot_key (h : LevelsOf s keys levels) (hslot : r.2.Exactly (SlotOf levels keys))
    (he : e ∈ r.2.toList) {q : ℕ} (hq : q ∈ e.2.toList) :
    ∃ key ∈ keys, (e.1, q) = slotPosition key (s.depth key.bucketId) := by
  obtain ⟨key, hkey, level, hlevel, hp⟩ := (hslot.opens (e.1, q)).mp
    ⟨e.2, ExtTreeMap.mem_toList_iff_getElem?_eq_some.mp he, ExtTreeSet.mem_toList.mp hq⟩
  rw [h.found hkey, Option.some.injEq] at hlevel
  exact ⟨key, hkey, hlevel ▸ hp⟩

theorem exists_point {m : Points} {P : ℕ × ℕ → Prop} (h : m.Exactly P)
    (he : e ∈ m.toList) : ∃ q, q ∈ e.2.toList := by
  have hget := ExtTreeMap.mem_toList_iff_getElem?_eq_some.mp (show (e.1, e.2) ∈ m.toList from he)
  obtain ⟨q, s, hs, hq⟩ := h.inhabited e.1 (ExtTreeMap.mem_iff_isSome_getElem?.mpr (by rw [hget]; rfl))
  rw [hget, Option.some.injEq] at hs
  exact ⟨q, ExtTreeSet.mem_toList.mpr (hs ▸ hq)⟩

def CommitmentsOf (D : DefaultCommitments C) (s : MemStore C) (r : Points × Points)
    (pc : ExtTreeMap ℕ C) : Prop :=
  ∀ n, pc[n]? = if n ∈ (r.1.keys ++ r.2.keys).map connectParentId then some (s.com D n) else none

structure SubTrieOf (D : DefaultCommitments C) (s : MemStore C) (keys : List SaltKey) (r : Points × Points)
    (pc : ExtTreeMap ℕ C) (levels : ExtTreeMap ℕ ℕ) : Prop where
  levelsOf : LevelsOf s keys levels
  path : r.1.Exactly (PathOf levels keys)
  slot : r.2.Exactly (SlotOf levels keys)
  commitments : CommitmentsOf D s r pc

theorem exists_levels (hs : s.Consistent commit hash slotToField D)
    (hkeys : ∀ key ∈ keys, s.Witnessable key) :
    ∃ levels, (dedupRuns (keys.map SaltKey.bucketId)).foldlM (fun (levels : ExtTreeMap ℕ ℕ) bucketId ↦ do
      let level ← bucketLevel s bucketId
      .ok (levels.insert bucketId level)) ∅ = .ok levels ∧ LevelsOf s keys levels := by
  have hlevel : ∀ b ∈ dedupRuns (keys.map SaltKey.bucketId), bucketLevel s b = .ok (s.depth (id b)) := by
    intro b hb
    obtain ⟨key, hkey, rfl⟩ := List.mem_map.mp (mem_dedupRuns.mp hb)
    exact hs.bucketLevel_eq (hkeys key hkey)
  obtain ⟨levels, hrun, hget⟩ := foldlM_insert_eq id s.depth hlevel ∅
  refine ⟨levels, hrun, fun b ↦ ?_⟩
  rw [hget, List.map_id, ExtTreeMap.getElem?_empty]
  simp only [mem_dedupRuns]

theorem LevelsOf.shape (h : LevelsOf s keys levels) (hplaced : ∀ key ∈ keys, Placed s key) :
    ∃ r, parentsAndPoints keys levels = .ok r ∧ r.1.Exactly (PathOf levels keys) ∧
      r.2.Exactly (SlotOf levels keys) := by
  refine parentsAndPoints_exactly fun key hkey ↦ ⟨_, h.found hkey, ?_⟩
  have := (hplaced key hkey).depth_le
  omega

theorem openable (hplaced : ∀ key ∈ keys, Placed s key) (h : LevelsOf s keys levels)
    (hpath : r.1.Exactly (PathOf levels keys)) (he : e ∈ r.1.toList) : Openable e := by
  obtain ⟨q, hq⟩ := exists_point hpath he
  obtain ⟨key, hkey, hp⟩ := path_key h hpath he hq
  have hopened := (hplaced key hkey).opened hp
  refine ⟨hopened.node, hopened.parent, fun q' hq' ↦ ?_⟩
  obtain ⟨key', hkey', hp'⟩ := path_key h hpath he hq'
  exact ((hplaced key' hkey').opened hp').point

structure OpenableLeaf (e : ℕ × ExtTreeSet ℕ) : Prop where
  node : TrieNode (connectParentId e.1)
  leaf : ∃ b start, LeafAt e.1 b start
  points : ∀ q ∈ e.2.toList, q < 256

theorem openableLeaf (hplaced : ∀ key ∈ keys, Placed s key) (h : LevelsOf s keys levels)
    (hslot : r.2.Exactly (SlotOf levels keys)) (he : e ∈ r.2.toList) : OpenableLeaf e := by
  have hnode : ∀ key, e.1 = (slotPosition key (s.depth key.bucketId)).1 → Placed s key →
      TrieNode (connectParentId e.1) ∧ ∃ b start, LeafAt e.1 b start := by
    intro key hkey hp
    rw [hkey]
    exact ⟨hp.leaf.1, _, hp.leaf.2.1⟩
  obtain ⟨q, hq⟩ := exists_point hslot he
  obtain ⟨key, hkey, hp⟩ := slot_key h hslot he hq
  obtain ⟨hn, hleaf⟩ := hnode key (congrArg Prod.fst hp) (hplaced key hkey)
  refine ⟨hn, hleaf, fun q' hq' ↦ ?_⟩
  obtain ⟨key', hkey', hp'⟩ := slot_key h hslot he hq'
  rw [show q' = (slotPosition key' (s.depth key'.bucketId)).2 from congrArg Prod.snd hp']
  exact (hplaced key' hkey').leaf.2.2.1

theorem mem_keys_of_mem {m : Points} (he : e ∈ m.toList) : e.1 ∈ m.keys := by
  rw [← ExtTreeMap.map_fst_toList_eq_keys]
  exact List.mem_map_of_mem he

theorem exists_of_mem_keys {m : Points} {n : ℕ} (hn : n ∈ m.keys) : ∃ e ∈ m.toList, e.1 = n := by
  rw [← ExtTreeMap.map_fst_toList_eq_keys] at hn
  obtain ⟨e, he, rfl⟩ := List.mem_map.mp hn
  exact ⟨e, he, rfl⟩

theorem exists_commitments (hinternal : ∀ e ∈ r.1.toList, Openable e)
    (hleaf : ∀ e ∈ r.2.toList, OpenableLeaf e) :
    ∃ pc, (r.1.keys ++ r.2.keys).foldlM (fun (m : ExtTreeMap ℕ C) parent ↦ do
      let commitment ← unpanicked (s.commitment D (connectParentId parent))
      .ok (m.insert (connectParentId parent) commitment)) ∅ = .ok pc ∧ CommitmentsOf D s r pc := by
  have hnode : ∀ n ∈ r.1.keys ++ r.2.keys, unpanicked (s.commitment D (connectParentId n)) =
      .ok (s.com D (connectParentId n)) := by
    intro n hn
    rcases List.mem_append.mp hn with hn | hn
    · obtain ⟨e, he, rfl⟩ := exists_of_mem_keys hn
      rw [commitment_eq (hinternal e he).node]
      rfl
    · obtain ⟨e, he, rfl⟩ := exists_of_mem_keys hn
      rw [commitment_eq (hleaf e he).node]
      rfl
  obtain ⟨pc, hrun, hget⟩ := foldlM_insert_eq connectParentId (s.com D) hnode ∅
  refine ⟨pc, hrun, fun n ↦ ?_⟩
  rw [hget, ExtTreeMap.getElem?_empty]

variable (hash) in
theorem internal_run (S : ProofSchedule) {nodes : List (ℕ × ExtTreeSet ℕ)} (hne : nodes ≠ [])
    (h : ∀ e ∈ nodes, Openable e) :
    ∃ parts, parMapM S.internalFirst (chunkProverQueries hash D s)
        (chunks (divCeil nodes.length S.threads) nodes) = .ok parts ∧
      parts.flatten = nodes.flatMap fun e ↦ e.2.toList.map (internalQuery hash D s e.1) := by
  have hsize := Multipoint.divCeil_pos (List.length_pos_iff.mpr hne) S.threads_pos
  refine ⟨_, parMapM_eq_ok _ fun chunk hchunk ↦ chunkProverQueries_eq fun e he ↦
    h e (mem_of_mem_chunks hsize hchunk he), ?_⟩
  rw [← List.flatMap, ← List.flatMap_assoc, List.flatMap_id', flatten_chunks hsize]

variable (slotToField) in
theorem leaf_run (hm : s.state.MetaOk) (S : ProofSchedule) {nodes : List (ℕ × ExtTreeSet ℕ)}
    (h : ∀ e ∈ nodes, OpenableLeaf e) :
    ∃ parts, parMapM S.leafFirst (fun e : ℕ × ExtTreeSet ℕ ↦ do
        let parentCommitment ← unpanicked (s.commitment D (connectParentId e.1))
        processLeafNode slotToField s e.1 parentCommitment e.2) nodes = .ok parts ∧
      parts.flatten = nodes.flatMap fun e ↦ e.2.toList.map (leafQuery slotToField D s e.1) := by
  refine ⟨_, parMapM_eq_ok (g := fun e ↦ e.2.toList.map (leafQuery slotToField D s e.1)) _
    fun e he ↦ ?_, rfl⟩
  obtain ⟨b, start, hleaf⟩ := (h e he).leaf
  rw [commitment_eq (h e he).node]
  exact processLeafNode_eq hm hleaf (h e he).points

theorem internal_ne_nil (h : LevelsOf s keys levels) (hpath : r.1.Exactly (PathOf levels keys))
    (hne : keys ≠ []) : r.1.toList ≠ [] := by
  obtain ⟨key, hkey⟩ := List.exists_mem_of_ne_nil keys hne
  have hpos : (nodeAt 0 (3 - 1 - 0) (key.bucketId / 256 ^ (0 + 1)), key.bucketId / 256 ^ 0 % 256) ∈
      pathPositions key (s.depth key.bucketId) :=
    mem_pathPositions.mpr (.inl (mem_climbPositions.mpr ⟨0, by omega, rfl⟩))
  obtain ⟨t, ht, -⟩ := ((hpath.opens _).mpr ⟨key, hkey, _, h.found hkey, hpos⟩).mem
  exact List.ne_nil_of_mem ht

theorem createSubTrie_eq (hs : s.Consistent commit hash slotToField D) (S : ProofSchedule)
    (hne : keys ≠ []) (hkeys : ∀ key ∈ keys, s.Witnessable key) :
    ∃ r pc levels, SubTrieOf D s keys r pc levels ∧
      createSubTrie hash slotToField D s S keys = .ok (subTrieQueries hash slotToField D s r, pc, levels) := by
  have hplaced : ∀ key ∈ keys, Placed s key := fun key hkey ↦ hs.placed (hkeys key hkey)
  obtain ⟨levels, hlevels, hlevelsOf⟩ := exists_levels hs hkeys
  obtain ⟨r, hshape, hpath, hslot⟩ := hlevelsOf.shape hplaced
  have hinternal : ∀ e ∈ r.1.toList, Openable e := fun e he ↦ openable hplaced hlevelsOf hpath he
  have hleaf : ∀ e ∈ r.2.toList, OpenableLeaf e := fun e he ↦ openableLeaf hplaced hlevelsOf hslot he
  obtain ⟨pc, hpc, hcommitments⟩ := exists_commitments (D := D) (s := s) hinternal hleaf
  have hnodes := internal_ne_nil hlevelsOf hpath hne
  obtain ⟨parts, hparts, hflat⟩ := internal_run hash (D := D) (s := s) S hnodes hinternal
  obtain ⟨leafParts, hleafParts, hleafFlat⟩ := leaf_run slotToField (D := D) hs.metaOk S hleaf
  have hsize := Multipoint.divCeil_pos (List.length_pos_iff.mpr hnodes) S.threads_pos
  refine ⟨r, pc, levels, ⟨hlevelsOf, hpath, hslot, hcommitments⟩, ?_⟩
  have hempty : keys.isEmpty = false := List.isEmpty_eq_false_iff.mpr hne
  rw [createSubTrie, hempty]
  simp only [Bool.false_eq_true, if_false]
  rw [forM_eq_ok keys fun key hkey ↦ hs.validateKey_eq (hkeys key hkey), ok_bind, hlevels, ok_bind,
    show unpanicked (parentsAndPoints keys levels) = .ok r by rw [hshape]; rfl, ok_bind,
    hpc, ok_bind]
  simp only [if_neg hsize.ne']
  rw [hparts, ok_bind, hleafParts, ok_bind, hflat, hleafFlat]
  rfl

theorem SubTrieOf.unique {keys' : List SaltKey} {r' : Points × Points} {pc pc' : ExtTreeMap ℕ C}
    {levels' : ExtTreeMap ℕ ℕ} (h : SubTrieOf D s keys r pc levels)
    (h' : SubTrieOf D s keys' r' pc' levels') (hkeys : ∀ key, key ∈ keys ↔ key ∈ keys') :
    r = r' ∧ pc = pc' ∧ levels = levels' := by
  have hbuckets : ∀ b, b ∈ keys.map SaltKey.bucketId ↔ b ∈ keys'.map SaltKey.bucketId := by
    intro b
    simp only [List.mem_map, hkeys]
  obtain rfl : levels = levels' := by
    refine ExtTreeMap.ext_getElem? fun b ↦ ?_
    rw [h.levelsOf b, h'.levelsOf b]
    simp only [hbuckets]
  obtain rfl : r = r' := by
    refine Prod.ext (h.path.unique (h'.path.congr fun p ↦ ?_)) (h.slot.unique (h'.slot.congr fun p ↦ ?_))
    · simp only [PathOf, hkeys]
    · simp only [SlotOf, hkeys]
  refine ⟨rfl, ExtTreeMap.ext_getElem? fun n ↦ ?_, rfl⟩
  rw [h.commitments n, h'.commitments n]

end Assembly

section Verifier

variable {keys : List SaltKey} {levels : ExtTreeMap ℕ ℕ} {r : Points × Points} {pc : ExtTreeMap ℕ C}
  {e : ℕ × ExtTreeSet ℕ} {kvs : ExtTreeMap SaltKey (Option SaltValue)}

def toVerifier (q : ProverQuery F C) : VerifierQuery C F := ⟨q.commitment, q.point, q.result⟩

theorem SubTrieOf.internal_found (h : SubTrieOf D s keys r pc levels) (he : e ∈ r.1.toList) :
    pc[connectParentId e.1]? = some (s.com D (connectParentId e.1)) := by
  rw [h.commitments, if_pos]
  exact List.mem_map_of_mem (List.mem_append.mpr (.inl (mem_keys_of_mem he)))

theorem SubTrieOf.leaf_found (h : SubTrieOf D s keys r pc levels) (he : e ∈ r.2.toList) :
    pc[connectParentId e.1]? = some (s.com D (connectParentId e.1)) := by
  rw [h.commitments, if_pos]
  exact List.mem_map_of_mem (List.mem_append.mpr (.inr (mem_keys_of_mem he)))

theorem SubTrieOf.child_found (h : SubTrieOf D s keys r pc levels) (hplaced : ∀ key ∈ keys, Placed s key)
    (he : e ∈ r.1.toList) {q : ℕ} (hq : q ∈ e.2.toList) :
    pc[childOf (e.1, q)]? = some (s.com D (childOf (e.1, q))) := by
  obtain ⟨key, hkey, hp⟩ := path_key h.levelsOf h.path he hq
  have hlevel := h.levelsOf.found hkey
  rcases ((hplaced key hkey).opened hp).child with ⟨p', hp', hchild⟩ | hchild
  · obtain ⟨t, ht, -⟩ := ((h.path.opens p').mpr ⟨key, hkey, _, hlevel, hp'⟩).mem
    rw [← hchild]
    exact h.internal_found ht
  · obtain ⟨t, ht, -⟩ := ((h.slot.opens _).mpr ⟨key, hkey, _, hlevel, rfl⟩).mem
    rw [← hchild]
    exact h.leaf_found ht

theorem SubTrieOf.createInternalNodeQueries_eq (h : SubTrieOf D s keys r pc levels)
    (hplaced : ∀ key ∈ keys, Placed s key) :
    createInternalNodeQueries hash pc r.1 = .ok ((r.1.toList.flatMap fun e ↦
      e.2.toList.map (internalQuery hash D s e.1)).map toVerifier) := by
  have hlogic : ∀ e ∈ r.1.toList, ∃ parent, logicParentId e.1 = .ok parent := by
    intro e he
    obtain ⟨parent, hparent, -⟩ := (openable hplaced h.levelsOf h.path he).parent
    exact ⟨parent, hparent⟩
  have hparent : ∀ e ∈ r.1.toList, pc[connectParentId e.1]? = some (s.com D (connectParentId e.1)) :=
    fun e he ↦ h.internal_found he
  rw [Salt.createInternalNodeQueries_eq,
    chunkQueries_eq hlogic hparent fun e he q hq ↦ h.child_found hplaced he hq, List.map_flatMap]
  simp only [List.map_map]
  rfl

/-- A slot of the openings is that of a key, whose value the witness holds. -/
theorem SubTrieOf.slot_value (h : SubTrieOf D s keys r pc levels) (hplaced : ∀ key ∈ keys, Placed s key)
    (hkvs : ∀ key ∈ keys, kvs[key]? = some (s.state.content key)) (he : e ∈ r.2.toList) {q : ℕ}
    (hq : q ∈ e.2.toList) : kvs[slotKey (e.1, q)]? = some (s.state.content (slotKey (e.1, q))) := by
  obtain ⟨key, hkey, hp⟩ := slot_key h.levelsOf h.slot he hq
  rw [hp, (hplaced key hkey).leaf.2.2.2]
  exact hkvs key hkey

theorem SubTrieOf.createLeafNodeQueries_eq (h : SubTrieOf D s keys r pc levels)
    (hplaced : ∀ key ∈ keys, Placed s key) (hkvs : ∀ key ∈ keys, kvs[key]? = some (s.state.content key)) :
    createLeafNodeQueries slotToField pc r.2 kvs = .ok ((r.2.toList.flatMap fun e ↦
      e.2.toList.map (leafQuery slotToField D s e.1)).map toVerifier) := by
  rw [createLeafNodeQueries, mapM_eq_ok (g := fun e ↦
    (e.2.toList.map (leafQuery slotToField D s e.1)).map toVerifier), ok_bind, List.map_flatMap]
  · rfl
  · intro e he
    rw [getCommitmentSafe_eq (h.leaf_found he), ok_bind, List.map_map]
    apply mapM_eq_ok
    intro q hq
    have hvalue := h.slot_value hplaced hkvs he hq
    rw [slotKey] at hvalue
    simp only [hvalue]
    rfl

theorem toFinset_keys {β : Type} {m : ExtTreeMap ℕ β} {l : List ℕ} {g : ℕ → β}
    (h : ∀ k, m[k]? = if k ∈ l then some (g k) else none) : m.keys.toFinset = l.toFinset := by
  ext k
  rw [List.mem_toFinset, List.mem_toFinset, ExtTreeMap.mem_keys, ExtTreeMap.mem_iff_isSome_getElem?, h k]
  by_cases hk : k ∈ l
  · rw [if_pos hk]
    exact iff_of_true rfl hk
  · rw [if_neg hk]
    exact iff_of_false (by simp) hk

theorem SubTrieOf.shape (h : SubTrieOf D s keys r pc levels) (hplaced : ∀ key ∈ keys, Placed s key) :
    parentsAndPoints keys levels = .ok r := by
  obtain ⟨r', hr', hpath, hslot⟩ := h.levelsOf.shape hplaced
  rw [hr', show r' = r from Prod.ext (hpath.unique h.path) (hslot.unique h.slot)]

theorem SubTrieOf.createVerifierQueries_eq (h : SubTrieOf D s kvs.keys r pc levels)
    (hne : kvs.keys ≠ []) (hplaced : ∀ key ∈ kvs.keys, Placed s key)
    (hkvs : ∀ key ∈ kvs.keys, kvs[key]? = some (s.state.content key)) :
    SaltProof.createVerifierQueries hash slotToField ⟨pc, levels⟩ kvs =
      .ok ((subTrieQueries hash slotToField D s r).map toVerifier) := by
  have hempty : kvs.isEmpty = false := by
    rw [← ExtTreeMap.isEmpty_keys]
    exact List.isEmpty_eq_false_iff.mpr hne
  rw [SaltProof.createVerifierQueries, hempty]
  simp only [Bool.false_eq_true, if_false]
  rw [if_neg (not_not.mpr (toFinset_keys h.levelsOf)),
    show unpanicked (parentsAndPoints kvs.keys levels) = .ok r by rw [h.shape hplaced]; rfl, ok_bind,
    if_neg (not_not.mpr (toFinset_keys h.commitments)), h.createInternalNodeQueries_eq hplaced, ok_bind,
    h.createLeafNodeQueries_eq hplaced hkvs, ok_bind, subTrieQueries, List.map_append]

end Verifier

section Witness

variable {keys : List SaltKey} {r : Points × Points} {pc : ExtTreeMap ℕ C} {levels : ExtTreeMap ℕ ℕ}

/-- Every opening of the prover is true of the vector of its node. -/
theorem MemStore.Consistent.queries_hold (hs : s.Consistent commit hash slotToField D)
    (h : SubTrieOf D s keys r pc levels) (hplaced : ∀ key ∈ keys, Placed s key) {q : ProverQuery F C}
    (hq : q ∈ subTrieQueries hash slotToField D s r) :
    q.commitment = commit q.poly.values ∧ q.poly.values[q.point]? = some q.result := by
  have hget : ∀ (f : ℕ → F) {i : ℕ}, i < 256 → ((List.range 256).map f)[i]? = some (f i) := by
    intro f i hi
    rw [List.getElem?_map, List.getElem?_range hi]
    rfl
  rcases List.mem_append.mp hq with hq | hq
  · obtain ⟨e, he, hq⟩ := List.mem_flatMap.mp hq
    obtain ⟨i, hi, rfl⟩ := List.mem_map.mp hq
    obtain ⟨key, hkey, hp⟩ := path_key h.levelsOf h.path he hi
    exact ⟨hs.internal_commits (hplaced key hkey) hp,
      hget (fun i ↦ hash (s.com D (childOf (e.1, i)))) ((hplaced key hkey).opened hp).point⟩
  · obtain ⟨e, he, hq⟩ := List.mem_flatMap.mp hq
    obtain ⟨i, hi, rfl⟩ := List.mem_map.mp hq
    obtain ⟨key, hkey, hp⟩ := slot_key h.levelsOf h.slot he hi
    have hnode : e.1 = (slotPosition key (s.depth key.bucketId)).1 := congrArg Prod.fst hp
    have hpoint : i = (slotPosition key (s.depth key.bucketId)).2 := congrArg Prod.snd hp
    refine ⟨?_, hget (fun i ↦ slotToField (s.state.content (slotKey (e.1, i)))) ?_⟩
    · simp only [leafQuery, hnode]
      exact hs.leaf_commits (hplaced key hkey)
    · rw [leafQuery, hpoint]
      exact (hplaced key hkey).leaf.2.2.1

theorem SubTrieOf.root_found (h : SubTrieOf D s keys r pc levels) (hne : keys ≠ []) :
    pc[0]? = some (s.com D 0) := by
  obtain ⟨key, hkey⟩ := List.exists_mem_of_ne_nil keys hne
  have hpos : (nodeAt 0 (3 - 1 - 2) (key.bucketId / 256 ^ (2 + 1)), key.bucketId / 256 ^ 2 % 256) ∈
      pathPositions key (s.depth key.bucketId) :=
    mem_pathPositions.mpr (.inl (mem_climbPositions.mpr ⟨2, by omega, rfl⟩))
  have hzero : nodeAt 0 (3 - 1 - 2) (key.bucketId / 256 ^ (2 + 1)) = 0 := by
    have hb := key.bucketId_lt
    rw [show key.bucketId / 256 ^ (2 + 1) = 0 by omega]
    rfl
  obtain ⟨t, ht, -⟩ := ((h.path.opens _).mpr ⟨key, hkey, _, h.levelsOf.found hkey, hpos⟩).mem
  have hfound := h.internal_found ht
  simp only [hzero, show connectParentId 0 = 0 by decide] at hfound
  exact hfound

theorem SaltWitness.create_eq (hs : s.Consistent commit hash slotToField D) (S : ProofSchedule)
    (hne : keys ≠ []) (hkeys : ∀ key ∈ keys, s.Witnessable key) :
    ∃ w r, SaltWitness.create hash slotToField D s S keys =
        .ok (w, subTrieQueries hash slotToField D s r) ∧
      SubTrieOf D s w.kvs.keys r w.proof.parentsCommitments w.proof.levels ∧
      (∀ key, key ∈ w.kvs.keys ↔ key ∈ keys) ∧
      ∀ key ∈ w.kvs.keys, w.kvs[key]? = some (s.state.content key) := by
  obtain ⟨kvs, hrun, hget⟩ := foldlM_insert_eq (id : SaltKey → SaltKey) s.state.content (l := keys)
    (f := witnessedValue s) (fun key hkey ↦ hs.witnessedValue_eq (hkeys key hkey)) ∅
  rw [List.map_id] at hget
  have hmem : ∀ key, key ∈ kvs.keys ↔ key ∈ keys := by
    intro key
    rw [ExtTreeMap.mem_keys, ExtTreeMap.mem_iff_isSome_getElem?, hget key]
    by_cases hkey : key ∈ keys
    · simp [hkey]
    · simp [hkey]
  have hsorted : kvs.keys.Pairwise fun a b ↦ a.val < b.val :=
    kvs.ordered_keys.imp fun hlt ↦ SaltKey.compare_lt.mp hlt
  have hdistinct : kvs.keys.Pairwise (· ≠ ·) := by
    refine hsorted.imp fun hlt heq ↦ ?_
    rw [heq] at hlt
    exact lt_irrefl _ hlt
  have hkvs : kvs.keys ≠ [] := by
    obtain ⟨key, hkey⟩ := List.exists_mem_of_ne_nil keys hne
    exact List.ne_nil_of_mem ((hmem key).mpr hkey)
  obtain ⟨r, pc, levels, hsub, hcreate⟩ := createSubTrie_eq hs S hkvs fun key hkey ↦
    hkeys key ((hmem key).mp hkey)
  refine ⟨⟨kvs, ⟨pc, levels⟩⟩, r, ?_, hsub, hmem, fun key hkey ↦ ?_⟩
  · have hproof : SaltProof.create hash slotToField D s S kvs.keys =
        .ok (subTrieQueries hash slotToField D s r, ⟨pc, levels⟩) := by
      rw [SaltProof.create]
      simp only [outOfOrder_eq_false hsorted, Bool.false_eq_true, if_false, dedupRuns_eq hdistinct,
        hcreate, ok_bind]
    simp only [id] at hrun
    rw [SaltWitness.create, hrun, ok_bind, hproof]
    rfl
  · rw [hget, if_pos ((hmem key).mp hkey)]

theorem SubTrieOf.leafQueriesPar_eq {digest : Bytes → F} {emptySlotHash : F} (S : ProofSchedule)
    {kvs : ExtTreeMap SaltKey (Option SaltValue)}
    (h : SubTrieOf D s keys r pc levels) (hplaced : ∀ key ∈ keys, Placed s key)
    (hkvs : ∀ key ∈ keys, kvs[key]? = some (s.state.content key))
    (hfits : ∀ key ∈ keys, ∀ v, s.state.content key = some v → v.Fits) :
    leafQueriesPar digest emptySlotHash pc S r.2 kvs = .ok ((r.2.toList.flatMap fun e ↦
      e.2.toList.map (leafQuery (kvHash digest emptySlotHash) D s e.1)).map toVerifier) := by
  rw [leafQueriesPar, parMapM_eq_ok (g := fun e ↦
    (e.2.toList.map (leafQuery (kvHash digest emptySlotHash) D s e.1)).map toVerifier), ok_bind,
    List.map_flatMap]
  · rfl
  · intro e he
    rw [leafQueries, getCommitmentSafe_eq (h.leaf_found he), ok_bind, List.map_map]
    apply mapM_eq_ok
    intro q hq
    obtain ⟨key, hkey, hp⟩ := slot_key h.levelsOf h.slot he hq
    have hslot : slotKey (e.1, q) = key := by
      rw [hp]
      exact (hplaced key hkey).leaf.2.2.2
    simp only [hslot, hkvs key hkey, slotToFieldChecked_ok (hfits key hkey)]
    simp only [unpanicked, ok_bind, Function.comp_apply, toVerifier, leafQuery, hslot]

theorem SubTrieOf.internalQueriesPar_eq (S : ProofSchedule) (h : SubTrieOf D s keys r pc levels)
    (hne : keys ≠ []) (hplaced : ∀ key ∈ keys, Placed s key) :
    internalQueriesPar hash pc S r.1 = .ok ((r.1.toList.flatMap fun e ↦
      e.2.toList.map (internalQuery hash D s e.1)).map toVerifier) := by
  have hlogic : ∀ e ∈ r.1.toList, ∃ parent, logicParentId e.1 = .ok parent := by
    intro e he
    obtain ⟨parent, hparent, -⟩ := (openable hplaced h.levelsOf h.path he).parent
    exact ⟨parent, hparent⟩
  rw [Salt.internalQueriesPar_eq S (s.com D) (internal_ne_nil h.levelsOf h.path hne) hlogic
    (fun e he ↦ h.internal_found he) fun e he q hq ↦ h.child_found hplaced he hq, List.map_flatMap]
  simp only [List.map_map]
  rfl

section System

open Multipoint (MultiPointProof label)

variable [Field F] [DecidableEq F] {sys : ProofSystem F C} {w : SaltWitness C}

theorem SubTrieOf.verifierQueriesPar_eq (S : ProofSchedule)
    (h : SubTrieOf D s w.kvs.keys r w.proof.parentsCommitments w.proof.levels) (hne : w.kvs.keys ≠ [])
    (hplaced : ∀ key ∈ w.kvs.keys, Placed s key)
    (hkvs : ∀ key ∈ w.kvs.keys, w.kvs[key]? = some (s.state.content key))
    (hfits : ∀ key ∈ w.kvs.keys, ∀ v, s.state.content key = some v → v.Fits) :
    w.proof.verifierQueriesPar sys S w.kvs =
      .ok ((subTrieQueries sys.mapToScalarField (kvHash sys.digest sys.emptySlotHash) D s r).map
        toVerifier) := by
  have hempty : w.kvs.isEmpty = false := by
    rw [← ExtTreeMap.isEmpty_keys]
    exact List.isEmpty_eq_false_iff.mpr hne
  rw [SaltProof.verifierQueriesPar, hempty]
  simp only [Bool.false_eq_true, if_false]
  rw [if_neg (not_not.mpr (toFinset_keys h.levelsOf)),
    show unpanicked (parentsAndPoints w.kvs.keys w.proof.levels) = .ok r by rw [h.shape hplaced]; rfl,
    ok_bind, if_neg (not_not.mpr (toFinset_keys h.commitments)), h.internalQueriesPar_eq S hne hplaced,
    ok_bind, h.leafQueriesPar_eq S hplaced hkvs hfits, ok_bind, subTrieQueries, List.map_append]

variable [AddCommGroup C] [Module F C] [DecidableEq C]

/-- An honest witness is refused for its opening only. -/
theorem SubTrieOf.verifyProof_eq (S : ProofSchedule) {opening : MultiPointProof F C} {t : Multipoint.Transcript}
    (h : SubTrieOf D s w.kvs.keys r w.proof.parentsCommitments w.proof.levels) (hne : w.kvs.keys ≠ [])
    (hplaced : ∀ key ∈ w.kvs.keys, Placed s key)
    (hkvs : ∀ key ∈ w.kvs.keys, w.kvs[key]? = some (s.state.content key))
    (hfits : ∀ key ∈ w.kvs.keys, ∀ v, s.state.content key = some v → v.Fits)
    (hopening : opening.check S.threads sys.codec sys.crs sys.precomp
      ((subTrieQueries sys.mapToScalarField (kvHash sys.digest sys.emptySlotHash) D s r).map
        fun q ↦ ⟨q.commitment, (q.point : F), q.result⟩) ⟨label "st"⟩ = .ok (true, t)) :
    w.verifyProof sys S opening = .ok () := by
  have hroot := h.root_found hne
  have hcheck : opening.check S.threads sys.codec sys.crs sys.precomp
      (((subTrieQueries sys.mapToScalarField (kvHash sys.digest sys.emptySlotHash) D s r).map
        toVerifier).map fun q ↦ ⟨q.commitment, (q.point : F), q.result⟩) ⟨label "st"⟩ = .ok (true, t) := by
    rw [List.map_map]
    exact hopening
  rw [SaltWitness.verifyProof, SaltWitness.stateRoot, hroot]
  simp only [ok_bind]
  rw [SaltProof.check, h.verifierQueriesPar_eq S hne hplaced hkvs hfits, ok_bind, hroot]
  simp only [ne_eq, not_true_eq_false, if_false, hcheck, SaltProof.multipointPanics, ok_bind, if_true]

end System

end Witness

section EmptyStore

def MemStore.empty : MemStore C := ⟨⟨∅, ∅⟩, ∅⟩

theorem empty_content (key : SaltKey) : (MemStore.empty : MemStore C).state.content key =
    if key.isInMetaBucket then some (SaltValue.ofMeta BucketMeta.default) else none :=
  content_of_absent ExtTreeMap.getElem?_empty

theorem empty_metaAt (b : ℕ) : metaAt (MemStore.empty : MemStore C).state.content b = BucketMeta.default := by
  rw [metaAt, empty_content]
  split
  · exact metaOf_ofMeta (by decide)
  · rfl

theorem empty_com {n : ℕ} {c : C} (h : defaultCommitment D n = .ok c) : MemStore.empty.com D n = c :=
  com_default ExtTreeMap.getElem?_empty h

theorem empty_com_main {l x : ℕ} (hl : l ≤ 3) (hx : x < 256 ^ l) :
    MemStore.empty.com D (nodeAt 0 l x) = if nodeAt 0 l x < metaBoundary l then D.left l else D.right l :=
  empty_com (defaultCommitment_main hl hx)

theorem lt_metaBoundary {l x : ℕ} (hl : l < 3) : nodeAt 0 (l + 1) x < metaBoundary (l + 1) ↔ x < 256 ^ l := by
  rw [nodeAt]
  interval_cases l
  · rw [show metaBoundary (0 + 1) = leftmostNode (0 + 1) + 1 from rfl]
    omega
  · rw [show metaBoundary (1 + 1) = leftmostNode (1 + 1) + 256 from rfl]
    omega
  · rw [show metaBoundary (2 + 1) = leftmostNode (2 + 1) + 65536 from rfl]
    omega

theorem childVector_uniform {n : ℕ} {c : C} (h : ∀ i < 256, MemStore.empty.com D (getChildNode n i) = c) :
    MemStore.empty.childVector hash D n = List.replicate 256 (hash c) := by
  rw [MemStore.childVector, List.eq_replicate_iff]
  refine ⟨by rw [List.length_map, List.length_range], fun a ha ↦ ?_⟩
  obtain ⟨i, hi, rfl⟩ := List.mem_map.mp ha
  rw [h i (List.mem_range.mp hi)]

theorem empty_main {l x : ℕ} (hl : l < 3) (hx : x < 256 ^ l) :
    MemStore.empty.com (.ofEmptyTree commit hash slotToField) (nodeAt 0 l x) =
      commit (MemStore.empty.childVector hash (.ofEmptyTree commit hash slotToField) (nodeAt 0 l x)) := by
  have hchild : ∀ i < 256, MemStore.empty.com (.ofEmptyTree commit hash slotToField)
      (getChildNode (nodeAt 0 l x) i) = if x * 256 + i < 256 ^ l then
        (DefaultCommitments.ofEmptyTree commit hash slotToField).left (l + 1)
      else (DefaultCommitments.ofEmptyTree commit hash slotToField).right (l + 1) := by
    intro i hi
    rw [getChildNode_nodeAt (by omega) hx, empty_com_main (by omega) (by rw [pow_succ]; omega)]
    simp only [lt_metaBoundary hl]
  rw [empty_com_main (by omega) hx]
  cases l with
  | zero =>
    obtain rfl : x = 0 := by simpa using hx
    have hrest : ((List.range 255).map fun i ↦ hash (MemStore.empty.com (.ofEmptyTree commit hash slotToField)
        (getChildNode (nodeAt 0 0 0) (i + 1)))) = List.replicate 255
          (hash ((DefaultCommitments.ofEmptyTree commit hash slotToField).right 1)) := by
      rw [List.eq_replicate_iff]
      refine ⟨by rw [List.length_map, List.length_range], fun a ha ↦ ?_⟩
      obtain ⟨i, hi, rfl⟩ := List.mem_map.mp ha
      rw [List.mem_range] at hi
      rw [hchild (i + 1) (by omega), if_neg (by omega)]
    rw [if_pos (by decide), MemStore.childVector, show (256 : ℕ) = 255 + 1 from rfl, List.range_succ_eq_map,
      List.map_cons, List.map_map]
    have hfirst := hchild 0 (by omega)
    rw [if_pos (by omega)] at hfirst
    rw [hfirst]
    exact congrArg (fun l ↦ commit (_ :: l)) hrest.symm
  | succ l =>
    have hside : nodeAt 0 (l + 1) x < metaBoundary (l + 1) ↔ x < 256 ^ l := lt_metaBoundary (by omega)
    have hlevel : 3 - (l + 1) = 3 - (l + 1 + 1) + 1 := by omega
    by_cases hlt : x < 256 ^ l
    · rw [if_pos (hside.mpr hlt), childVector_uniform fun i hi ↦ by
        rw [hchild i hi, if_pos (by rw [pow_succ]; omega)]]
      simp only [DefaultCommitments.ofEmptyTree, Nat.succ_ne_zero, if_false, hlevel, uniformTree]
    · rw [if_neg fun h ↦ hlt (hside.mp h), childVector_uniform fun i hi ↦ by
        rw [hchild i hi, if_neg (by rw [pow_succ]; omega)]]
      simp only [DefaultCommitments.ofEmptyTree, hlevel, uniformTree]

theorem empty_bucket {b : ℕ} (hb : b < 2 ^ 24) :
    MemStore.empty.com (.ofEmptyTree commit hash slotToField) (nodeAt 0 3 b) =
      commit ((MemStore.empty : MemStore C).slotVector slotToField b 0) := by
  have hslots : (MemStore.empty : MemStore C).slotVector slotToField b 0 = List.replicate 256
      (if b < 256 ^ 2 then slotToField (some (SaltValue.ofMeta BucketMeta.default)) else slotToField none) := by
    rw [MemStore.slotVector, List.eq_replicate_iff]
    refine ⟨by rw [List.length_map, List.length_range], fun a ha ↦ ?_⟩
    obtain ⟨i, hi, rfl⟩ := List.mem_map.mp ha
    rw [List.mem_range] at hi
    rw [empty_content, SaltKey.isInMetaBucket, SaltKey.bucketId_ofPair hb (by omega)]
    simp only [decide_eq_true_iff, numMetaBuckets, show (256 : ℕ) ^ 2 = 2 ^ 16 from rfl]
    exact apply_ite slotToField _ _ _
  rw [empty_com_main le_rfl hb, hslots]
  have hside : nodeAt 0 3 b < metaBoundary 3 ↔ b < 256 ^ 2 := lt_metaBoundary (by omega)
  by_cases hlt : b < 256 ^ 2
  · rw [if_pos (hside.mpr hlt), if_pos hlt]
    rfl
  · rw [if_neg fun h ↦ hlt (hside.mp h), if_neg hlt]
    rfl

end EmptyStore

end Salt
