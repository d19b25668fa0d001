import Salt.Proof.SubTrie

namespace Salt

open Std (ExtTreeMap ExtTreeSet)
open Library.Triple Library.Workers Library.Chunks Library.Overlay
open Multipoint (ProverQuery divCeil)

variable {C F : Type}

namespace MemStore

def com (D : DefaultCommitments C) (s : MemStore C) (n : ℕ) : C :=
  (s.commitment D n).toOption.getD (D.left 0)

def depth (s : MemStore C) (b : ℕ) : ℕ :=
  if b < numMetaBuckets then 1
  else 5 - (subtreeRootLevel (metaAt s.state.content b).capacity).toOption.getD 4

def childVector (hash : C → F) (D : DefaultCommitments C) (s : MemStore C) (n : ℕ) : List F :=
  (List.range 256).map fun i ↦ hash (s.com D (getChildNode n i))

def slotVector (slotToField : Option SaltValue → F) (s : MemStore C) (b start : ℕ) : List F :=
  (List.range 256).map fun i ↦ slotToField (s.state.content (SaltKey.ofPair b (start + i)))

/-- Every node of the trie commits to its children or, for a leaf, to its slots. -/
structure Consistent (commit : List F → C) (hash : C → F) (slotToField : Option SaltValue → F)
    (D : DefaultCommitments C) (s : MemStore C) : Prop where
  metaOk : s.state.MetaOk
  capacity_le : ∀ b, isValidDataBucket b → (metaAt s.state.content b).capacity ≤ 2 ^ 40
  main : ∀ l x, l < 3 → x < 256 ^ l →
    s.com D (nodeAt 0 l x) = commit (s.childVector hash D (nodeAt 0 l x))
  bucket : ∀ b, 256 ≤ b → b < 2 ^ 24 → s.depth b = 1 →
    s.com D (nodeAt 0 3 b) = commit (s.slotVector slotToField b 0)
  bridge : ∀ b, isValidDataBucket b → 2 ≤ s.depth b →
    s.com D (nodeAt 0 3 b) = commit (s.childVector hash D (nodeAt b (5 - s.depth b) 0))
  inner : ∀ b l x, isValidDataBucket b → 5 - s.depth b < l → l < 4 → x < 256 ^ (l - (5 - s.depth b)) →
    s.com D (nodeAt b l x) = commit (s.childVector hash D (nodeAt b l x))
  leaf : ∀ b x, isValidDataBucket b → 2 ≤ s.depth b → x < 256 ^ (s.depth b - 1) →
    s.com D (nodeAt b 4 x) = commit (s.slotVector slotToField b (x * 256))

/-- A key that can be witnessed: the metadata of a data bucket, or a slot within the capacity. -/
def Witnessable (s : MemStore C) (key : SaltKey) : Prop :=
  (∃ b, isValidDataBucket b ∧ key = metadataKey b) ∨
    isValidDataBucket key.bucketId ∧ key.slotId < (metaAt s.state.content key.bucketId).capacity

end MemStore

section Nodes

variable {D : DefaultCommitments C} {s : MemStore C} {hash : C → F} {n parent : ℕ}

inductive TrieNode : ℕ → Prop
  | main {l x : ℕ} (hl : l ≤ 3) (hx : x < 256 ^ l) : TrieNode (nodeAt 0 l x)
  | subtree {b l x : ℕ} (hb : isValidDataBucket b) (hl : l ≤ 4) (hx : x < 256 ^ l) : TrieNode (nodeAt b l x)

inductive ParentNode : ℕ → Prop
  | main {l x : ℕ} (hl : l < 3) (hx : x < 256 ^ l) : ParentNode (nodeAt 0 l x)
  | subtree {b l x : ℕ} (hb : isValidDataBucket b) (hl : l < 4) (hx : x < 256 ^ l) : ParentNode (nodeAt b l x)

theorem commitment_eq (h : TrieNode n) : s.commitment D n = .ok (s.com D n) := by
  have hok : ∃ c, s.commitment D n = .ok c := by
    rw [MemStore.commitment]
    cases s.trie[n]? with
    | some c => exact ⟨c, rfl⟩
    | none =>
      cases h with
      | main hl hx => exact ⟨_, defaultCommitment_main hl hx⟩
      | subtree hb hl hx => exact ⟨_, defaultCommitment_data hb hl hx⟩
  obtain ⟨c, hc⟩ := hok
  rw [MemStore.com, hc]
  rfl

theorem com_stored {c : C} (h : s.trie[n]? = some c) : s.com D n = c := by
  rw [MemStore.com, MemStore.commitment, h]
  rfl

theorem com_default {c : C} (h : s.trie[n]? = none) (hd : defaultCommitment D n = .ok c) :
    s.com D n = c := by
  rw [MemStore.com, MemStore.commitment, h]
  simp only [hd]
  rfl

theorem getChildNode_add (parent i : ℕ) : getChildNode parent i = getChildNode parent 0 + i := rfl

theorem mem_nodeEntries {first last : ℕ} {e : ℕ × C} :
    e ∈ s.nodeEntries first last ↔ s.trie[e.1]? = some e.2 ∧ first ≤ e.1 ∧ e.1 < last := by
  rw [MemStore.nodeEntries, List.mem_filter, decide_eq_true_iff]
  exact and_congr_left fun _ ↦ ExtTreeMap.mem_toList_iff_getElem?_eq_some

theorem overlay_children (s : MemStore C) {d : C} {base : List C} {parent : ℕ} (hlen : base.length = 256)
    (hbase : ∀ j < 256, defaultCommitment D (getChildNode parent 0 + j) = .ok (base.getD j d)) :
    overlay (fun e ↦ e.1 - getChildNode parent 0) Prod.snd
        (s.nodeEntries (getChildNode parent 0) (getChildNode parent 0 + 256)) base =
      (List.range 256).map fun i ↦ s.com D (getChildNode parent i) := by
  refine overlay_replicate (d := d) _ (fun e he ↦ ?_) (fun j hj hnone ↦ ?_) hlen
  · obtain ⟨hget, hfirst, -⟩ := mem_nodeEntries.mp he
    rw [getChildNode_add, Nat.add_sub_cancel' hfirst, com_stored hget]
  · rw [getChildNode_add]
    refine com_default ?_ (hbase j hj)
    by_contra hsome
    obtain ⟨c, hc⟩ := Option.ne_none_iff_exists'.mp hsome
    exact hnone (getChildNode parent 0 + j, c)
      (mem_nodeEntries.mpr ⟨hc, Nat.le_add_right _ _, by simpa using hj⟩) (by simp)

theorem childCommitments_uniform (h : logicParentId n = .ok parent) (hne : getChildNode parent 0 ≠ 1) {d : C}
    (hd : ∀ j < 256, defaultCommitment D (getChildNode parent 0 + j) = .ok d) :
    childCommitments D s n = .ok ((List.range 256).map fun i ↦ s.com D (getChildNode parent i)) := by
  have hd₀ : defaultCommitment D (getChildNode parent 0) = .ok d := hd 0 (by omega)
  have hover := overlay_children s (List.length_replicate (n := 256) (a := d)) fun j hj ↦ by
    rw [hd j hj, List.getD_eq_getElem?_getD, List.getElem?_replicate, if_pos hj]
    exact congrArg _ (Option.getD_some (a := d) (b := d)).symm
  rw [childCommitments, h]
  simp only [unpanicked, ok_bind, if_neg hne, hd₀, trieWidth, hover]

theorem childCommitments_root (h : logicParentId n = .ok (nodeAt 0 0 0)) :
    childCommitments D s n =
      .ok ((List.range 256).map fun i ↦ s.com D (getChildNode (nodeAt 0 0 0) i)) := by
  have hone : getChildNode (nodeAt 0 0 0) 0 = 1 := by decide
  have hnode : ∀ j, 1 + j = nodeAt 0 1 j := by
    intro j
    rw [nodeAt, show leftmostNode 1 = 1 from rfl]
    omega
  have hside : ∀ j < 256, defaultCommitment D (1 + j) =
      .ok (if j < 1 then D.left 1 else D.right 1) := by
    intro j hj
    have hboundary : 1 + j < metaBoundary 1 ↔ j < 1 := by
      rw [show metaBoundary 1 = 2 from rfl]
      omega
    rw [hnode, defaultCommitment_main (by omega) (by omega), ← hnode]
    simp only [hboundary]
  have hfirst : defaultCommitment D 1 = .ok (D.left 1) := by simpa using hside 0 (by omega)
  have hother : defaultCommitment D (1 + 1) = .ok (D.right 1) := by simpa using hside 1 (by omega)
  have hlen : ((List.replicate 256 (D.right 1)).set 0 (D.left 1)).length = 256 := by
    rw [List.length_set, List.length_replicate]
  have hover := overlay_children s hlen (d := D.left 1) (D := D)
    fun j hj ↦ (show defaultCommitment D (getChildNode (nodeAt 0 0 0) 0 + j) = _ by
      rw [hone, hside j hj]
      cases j with
      | zero => rfl
      | succ j =>
        rw [List.getD_eq_getElem?_getD, List.getElem?_set_ne (by omega), List.getElem?_replicate, if_pos hj]
        rfl)
  rw [hone] at hover
  rw [childCommitments, h]
  simp only [unpanicked, ok_bind, hone, if_true, hfirst, hother, trieWidth, hover]

theorem metaBoundary_eq {l : ℕ} (hl : l ≤ 1) :
    metaBoundary (l + 2) = leftmostNode (l + 2) + 256 ^ (l + 1) := by
  interval_cases l
  · rfl
  · rfl

theorem childCommitments_eq (h : logicParentId n = .ok parent) (hp : ParentNode parent) :
    childCommitments D s n = .ok ((List.range 256).map fun i ↦ s.com D (getChildNode parent i)) := by
  cases hp with
  | @main l x hl hx =>
    cases l with
    | zero =>
      obtain rfl : x = 0 := by simpa using hx
      exact childCommitments_root h
    | succ l =>
      have hchild : ∀ j, getChildNode (nodeAt 0 (l + 1) x) 0 + j = nodeAt 0 (l + 2) (x * 256 + j) :=
        fun j ↦ by rw [← getChildNode_add, getChildNode_nodeAt (by omega) hx]
      have hchild₀ := hchild 0
      rw [Nat.add_zero] at hchild₀
      refine childCommitments_uniform h ?_ (d := if x < 256 ^ l then D.left (l + 2) else D.right (l + 2))
        fun j hj ↦ ?_
      · have hleft := leftmostNode_mono (show 2 ≤ l + 2 by omega) (by omega)
        rw [show leftmostNode 2 = 257 from rfl] at hleft
        rw [hchild₀, nodeAt]
        omega
      · -- the boundary lies between the children of different parents
        have hside : nodeAt 0 (l + 2) (x * 256 + j) < metaBoundary (l + 2) ↔ x < 256 ^ l := by
          rw [nodeAt, metaBoundary_eq (by omega), pow_succ]
          omega
        rw [hchild j, defaultCommitment_main (by omega) (by rw [pow_succ]; omega)]
        simp only [hside]
  | @subtree b l x hb hl hx =>
    have hchild : ∀ j, getChildNode (nodeAt b l x) 0 + j = nodeAt b (l + 1) (x * 256 + j) :=
      fun j ↦ by rw [← getChildNode_add, getChildNode_nodeAt hl hx]
    have hchild₀ := hchild 0
    rw [Nat.add_zero] at hchild₀
    refine childCommitments_uniform h ?_ (d := D.subtree (l + 1)) fun j hj ↦ ?_
    · rw [dataBucket_iff] at hb
      rw [hchild₀, nodeAt]
      omega
    · rw [hchild j]
      exact defaultCommitment_data hb (by omega) (by rw [pow_succ]; omega)

end Nodes

section InternalQueries

variable {D : DefaultCommitments C} {s : MemStore C} {hash : C → F} {nodes : List (ℕ × ExtTreeSet ℕ)}

theorem createProverQueries_eq {c : C} {f : ℕ → F} {points : ExtTreeSet ℕ} (h : ∀ q ∈ points.toList, q < 256) :
    createProverQueries c ((List.range 256).map f) points =
      .ok (points.toList.map fun q ↦ ⟨c, ⟨(List.range 256).map f⟩, q, f q⟩) := by
  apply mapM_eq_ok
  intro q hq
  rw [List.getElem?_map, List.getElem?_range (h q hq)]
  rfl

def internalQuery (hash : C → F) (D : DefaultCommitments C) (s : MemStore C) (n q : ℕ) : ProverQuery F C :=
  ⟨s.com D (connectParentId n), ⟨(List.range 256).map fun i ↦ hash (s.com D (childOf (n, i)))⟩, q,
    hash (s.com D (childOf (n, q)))⟩

structure Openable (e : ℕ × ExtTreeSet ℕ) : Prop where
  node : TrieNode (connectParentId e.1)
  parent : ∃ parent, logicParentId e.1 = .ok parent ∧ ParentNode parent
  points : ∀ q ∈ e.2.toList, q < 256

theorem multiCommitmentsToScalars_eq (h : ∀ e ∈ nodes, Openable e) :
    multiCommitmentsToScalars hash D s nodes = .ok (nodes.map fun e ↦
      (List.range 256).map fun i ↦ hash (s.com D (childOf (e.1, i)))).flatten := by
  have hnode : ∀ e ∈ nodes, childCommitments D s e.1 =
      .ok ((List.range 256).map fun i ↦ s.com D (childOf (e.1, i))) := by
    intro e he
    obtain ⟨parent, hparent, hp⟩ := (h e he).parent
    rw [childCommitments_eq hparent hp]
    refine congrArg _ (List.map_congr_left fun i _ ↦ ?_)
    rw [childOf_eq hparent]
  rw [multiCommitmentsToScalars, mapM_eq_ok nodes hnode, ok_bind, List.map_flatten, List.map_map]
  refine congrArg _ (congrArg _ (List.map_congr_left fun e _ ↦ ?_))
  rw [Function.comp_apply, List.map_map]
  rfl

theorem chunkProverQueries_eq (h : ∀ e ∈ nodes, Openable e) :
    chunkProverQueries hash D s nodes =
      .ok (nodes.flatMap fun e ↦ e.2.toList.map (internalQuery hash D s e.1)) := by
  have hchunks : chunks 256 (nodes.map fun e ↦
      (List.range 256).map fun i ↦ hash (s.com D (childOf (e.1, i)))).flatten = nodes.map fun e ↦
      (List.range 256).map fun i ↦ hash (s.com D (childOf (e.1, i))) := by
    refine chunks_flatten (by omega) fun piece hpiece ↦ ?_
    obtain ⟨e, -, rfl⟩ := List.mem_map.mp hpiece
    rw [List.length_map, List.length_range]
  have hnode : ∀ e ∈ nodes, (do
      let commitment ← unpanicked (s.commitment D (connectParentId e.1))
      createProverQueries commitment ((List.range 256).map fun i ↦ hash (s.com D (childOf (e.1, i)))) e.2) =
      .ok (e.2.toList.map (internalQuery hash D s e.1)) := by
    intro e he
    rw [commitment_eq (h e he).node]
    exact createProverQueries_eq (h e he).points
  rw [chunkProverQueries, multiCommitmentsToScalars_eq h, ok_bind]
  simp only [trieWidth, hchunks]
  rw [← List.map_prod_left_eq_zip, List.mapM_map]
  exact congrArg (· >>= fun parts ↦ .ok parts.flatten) (mapM_eq_ok nodes hnode)

end InternalQueries

section LeafQueries

variable {D : DefaultCommitments C} {s : MemStore C} {slotToField : Option SaltValue → F}
  {n b start : ℕ} {key : SaltKey}

inductive LeafAt : ℕ → ℕ → ℕ → Prop
  | bucket {b : ℕ} (hb : 256 ≤ b) (hb' : b < 2 ^ 24) : LeafAt (nodeAt 0 3 b) b 0
  | segment {b x : ℕ} (hb : isValidDataBucket b) (hx : x < 256 ^ 4) : LeafAt (nodeAt b 4 x) b (x * 256)

theorem ofPair_zero_add (b i : ℕ) : SaltKey.ofPair 0 (b * 2 ^ 40 + i) = SaltKey.ofPair b i := by
  apply SaltKey.ext
  change (0 * 2 ^ 40 + (b * 2 ^ 40 + i)) % 2 ^ 64 = (b * 2 ^ 40 + i) % 2 ^ 64
  rw [Nat.zero_mul, Nat.zero_add]

theorem LeafAt.bounds (h : LeafAt n b start) : 256 ≤ b ∧ b < 2 ^ 24 ∧ start % 256 = 0 ∧
    start + 256 ≤ 2 ^ 40 ∧ (b < numMetaBuckets → start = 0) := by
  cases h with
  | bucket hb hb' => exact ⟨hb, hb', rfl, by omega, fun _ ↦ rfl⟩
  | segment hb hx =>
    rw [dataBucket_iff] at hb
    refine ⟨by omega, hb.2, by omega, by omega, fun hlt ↦ ?_⟩
    simp only [numMetaBuckets] at hlt
    omega

theorem LeafAt.leafStart (h : LeafAt n b start) : leafStart n = (b, start) := by
  cases h with
  | bucket hb hb' =>
    have h3 : leftmostNode 3 = 65793 := rfl
    have hnode : nodeAt 0 3 b = 65793 + b := by
      rw [nodeAt, h3]
      omega
    rw [Salt.leafStart, hnode, if_pos (by simp only [bucketSlotIdMask]; omega), h3,
      Nat.add_sub_cancel_left, Nat.mod_eq_of_lt (by omega)]
  | @segment b x hb hx =>
    rw [dataBucket_iff] at hb
    have hlocal := nodeAt_local (b := b) le_rfl hx
    have hlt := local_lt le_rfl hx
    have hdiv : nodeAt b 4 x / 2 ^ bucketSlotBits = b := by
      rw [nodeAt]
      simp only [bucketSlotBits]
      omega
    have hfirst : subtreeLeafStartKey (nodeAt b 4 x) = b * 2 ^ 40 + x * 256 := by
      rw [subtreeLeafStartKey, hlocal]
      simp only [nodeAt, maxSubtreeLevels, minBucketSize, show 5 - 1 = 4 from rfl]
      omega
    have hmask : ¬ nodeAt b 4 x < bucketSlotIdMask := by
      simp only [nodeAt, bucketSlotIdMask]
      omega
    rw [Salt.leafStart, if_neg hmask, hdiv, hfirst, ofPair_zero_add, SaltKey.slotId_ofPair hb.2 (by omega)]

theorem LeafAt.slotKey (h : LeafAt n b start) (q : ℕ) : slotKey (n, q) = SaltKey.ofPair b (start + q) := by
  have hkey : leafStartKey n = b * 2 ^ 40 + start := by
    cases h with
    | bucket hb hb' => rw [leafStartKey_root hb', Nat.add_zero]
    | segment hb hx =>
      rw [dataBucket_iff] at hb
      exact leafStartKey_subtree (by omega) hx
  rw [Salt.slotKey, hkey, Nat.add_assoc, ofPair_zero_add]

theorem content_of_stored (hm : s.state.MetaOk) (hb : 256 ≤ key.bucketId)
    (hs : key.isInMetaBucket = true → key.slotId < 256) {v : SaltValue} (hv : s.state.kvs[key]? = some v) :
    s.state.content key = some v := by
  cases hmeta : key.isInMetaBucket with
  | false =>
    rw [StateStore.content, normalize_data hmeta]
    exact hv
  | true =>
    have hlt : key.bucketId < 2 ^ 16 := of_decide_eq_true hmeta
    have hslot := hs hmeta
    have hdata : isValidDataBucket (key.bucketId * 256 + key.slotId) := dataBucket_iff.mpr (by omega)
    have hkey : metadataKey (key.bucketId * 256 + key.slotId) = key := by
      have hdiv : (key.bucketId * 256 + key.slotId) / 256 = key.bucketId := by omega
      have hmod : (key.bucketId * 256 + key.slotId) % minBucketSize = key.slotId := by
        simp only [minBucketSize]
        omega
      rw [metadataKey, hdiv, hmod, SaltKey.ofPair_eta]
    rw [← hkey] at hv
    obtain ⟨m, rfl, hcap⟩ := hm _ hdata v hv
    rw [hkey] at hv
    rw [StateStore.content, normalize_meta hmeta]
    change some (SaltValue.ofMeta (metaOf s.state.kvs[key]?)) = _
    rw [hv, metaOf_ofMeta hcap, SaltValue.ofMeta_used]

theorem content_of_absent (hv : s.state.kvs[key]? = none) : s.state.content key =
    if key.isInMetaBucket then some (SaltValue.ofMeta BucketMeta.default) else none := by
  rw [StateStore.content, normalize]
  split
  · change some (SaltValue.ofMeta (metaOf s.state.kvs[key]?)) = _
    rw [hv]
    rfl
  · exact hv

theorem mem_storeEntries {first last : SaltKey} {e : SaltKey × SaltValue} :
    e ∈ s.entries first last ↔
      s.state.kvs[e.1]? = some e.2 ∧ first.val ≤ e.1.val ∧ e.1.val ≤ last.val := by
  rw [MemStore.entries, List.mem_filter, decide_eq_true_iff]
  exact and_congr_left fun _ ↦ ExtTreeMap.mem_toList_iff_getElem?_eq_some

def leafQuery (slotToField : Option SaltValue → F) (D : DefaultCommitments C) (s : MemStore C)
    (n q : ℕ) : ProverQuery F C :=
  ⟨s.com D (connectParentId n),
    ⟨(List.range 256).map fun i ↦ slotToField (s.state.content (slotKey (n, i)))⟩, q,
    slotToField (s.state.content (slotKey (n, q)))⟩

theorem processLeafNode_eq (hm : s.state.MetaOk) (h : LeafAt n b start) {points : ExtTreeSet ℕ}
    (hpoints : ∀ q ∈ points.toList, q < 256) :
    processLeafNode slotToField s n (s.com D (connectParentId n)) points =
      .ok (points.toList.map (leafQuery slotToField D s n)) := by
  obtain ⟨hb, hb', hstart, hend, hmeta⟩ := h.bounds
  have hval : ∀ i, i < 256 → (SaltKey.ofPair b (start + i)).val = b * 2 ^ 40 + (start + i) :=
    fun i hi ↦ SaltKey.ofPair_val hb' (by omega)
  have hinMeta : ∀ i, i < 256 → ((SaltKey.ofPair b (start + i)).isInMetaBucket ↔ b < numMetaBuckets) := by
    intro i hi
    rw [SaltKey.isInMetaBucket, SaltKey.bucketId_ofPair hb' (by omega), decide_eq_true_iff]
  have hpoly : overlay (fun e : SaltKey × SaltValue ↦ e.1.slotId % 256) (fun e ↦ slotToField (some e.2))
      (s.entries (SaltKey.ofPair b start) (SaltKey.ofPair b (start + trieWidth - 1)))
      (List.replicate trieWidth (if b < numMetaBuckets then
          slotToField (some (SaltValue.ofMeta BucketMeta.default)) else slotToField none)) =
      (List.range 256).map fun i ↦ slotToField (s.state.content (slotKey (n, i))) := by
    refine overlay_replicate (d := slotToField none) _ (fun e he ↦ ?_) (fun j hj hnone ↦ ?_)
      List.length_replicate
    · obtain ⟨hget, hfirst, hlast⟩ := mem_storeEntries.mp he
      have hfirst' := hval 0 (by omega)
      have hlast' := hval 255 (by omega)
      simp only [trieWidth, show start + 256 - 1 = start + 255 by omega] at hlast
      rw [Nat.add_zero] at hfirst'
      have hbucket : e.1.bucketId = b := by
        rw [SaltKey.bucketId_eq]
        omega
      have hslot : start ≤ e.1.slotId ∧ e.1.slotId < start + 256 := by
        rw [SaltKey.slotId_eq]
        omega
      have hkey : slotKey (n, e.1.slotId % 256) = e.1 := by
        rw [h.slotKey, ← SaltKey.ofPair_eta e.1, hbucket]
        congr 1
        rw [SaltKey.slotId_ofPair hb' (by omega)]
        omega
      rw [hkey, content_of_stored hm (by omega) (fun him ↦ ?_) hget]
      have hlt : b < numMetaBuckets := by
        rw [SaltKey.isInMetaBucket, hbucket, decide_eq_true_iff] at him
        exact him
      have := hmeta hlt
      omega
    · have habsent : s.state.kvs[slotKey (n, j)]? = none := by
        by_contra hsome
        obtain ⟨v, hv⟩ := Option.ne_none_iff_exists'.mp hsome
        have hvj := hval j hj
        have hv0 := hval 0 (by omega)
        have hv255 := hval 255 (by omega)
        rw [Nat.add_zero] at hv0
        refine hnone (slotKey (n, j), v) (mem_storeEntries.mpr ⟨hv, ?_, ?_⟩) ?_
        · simp only [h.slotKey]
          omega
        · simp only [h.slotKey, trieWidth, show start + 256 - 1 = start + 255 by omega]
          omega
        · simp only [h.slotKey, SaltKey.slotId_ofPair hb' (show start + j < 2 ^ 40 by omega)]
          omega
      rw [content_of_absent habsent, List.getD_eq_getElem?_getD, List.getElem?_replicate, if_pos hj]
      have hiff := hinMeta j hj
      rw [← h.slotKey] at hiff
      by_cases hlt : b < numMetaBuckets
      · rw [if_pos (hiff.mpr hlt), if_pos hlt]
        rfl
      · rw [if_neg fun hc ↦ hlt (hiff.mp hc), if_neg hlt]
        rfl
  rw [processLeafNode]
  simp only [h.leafStart, hpoly]
  exact createProverQueries_eq hpoints

end LeafQueries

end Salt
