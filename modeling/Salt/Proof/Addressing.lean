import Salt.Proof.Completeness

namespace Salt

open Library.Triple

def parentSteps : ℕ → ℕ → Except Panic (List ℕ × ℕ)
  | 0, node => .ok ([], node)
  | n + 1, node => do
    let parent ← getParentNode node
    let (positions, top) ← parentSteps n parent
    .ok (vcPositionInParent node :: positions, top)

def digits256 (n x : ℕ) : List ℕ := (List.range n).map fun i ↦ x / 256 ^ i % 256

theorem digits256_succ (n x : ℕ) : digits256 (n + 1) x = x % 256 :: digits256 n (x / 256) := by
  rw [digits256, List.range_succ_eq_map, List.map_cons, List.map_map, digits256, pow_zero, Nat.div_one]
  refine congrArg (_ :: ·) (List.map_congr_left fun i _ ↦ ?_)
  rw [Function.comp_apply, Nat.succ_eq_add_one, pow_succ', Nat.div_div_eq_div_mul]

theorem parentSteps_nodeAt (n : ℕ) {b l x : ℕ} (hn : n ≤ l) (hl : l ≤ 4) (hx : x < 256 ^ l) :
    parentSteps n (nodeAt b l x) = .ok (digits256 n x, nodeAt b (l - n) (x / 256 ^ n)) := by
  induction n generalizing l x with
  | zero =>
    rw [parentSteps, pow_zero, Nat.div_one, Nat.sub_zero]
    rfl
  | succ n ih =>
    obtain ⟨l, rfl⟩ : ∃ l', l = l' + 1 := ⟨l - 1, by omega⟩
    have hparent : x / 256 < 256 ^ l := by
      rw [pow_succ] at hx
      omega
    rw [parentSteps, getParentNode_nodeAt hl hx, ok_bind, ih (by omega) (by omega) hparent, ok_bind,
      vcPositionInParent_nodeAt hl hx, digits256_succ, Nat.add_sub_add_right, pow_succ', Nat.div_div_eq_div_mul]

theorem nodeAt_root (b : ℕ) : nodeAt b 0 0 = b * 2 ^ 40 := by
  rw [nodeAt, Nat.add_zero]
  exact Nat.add_zero _

theorem child_of_parentNode {p i : ℕ} (hp : ParentNode p) (hi : i < 256) :
    getParentNode (getChildNode p i) = .ok p ∧ vcPositionInParent (getChildNode p i) = i := by
  have hnode : ∀ {b l x : ℕ}, l < 4 → x < 256 ^ l →
      getParentNode (getChildNode (nodeAt b l x) i) = .ok (nodeAt b l x) ∧
        vcPositionInParent (getChildNode (nodeAt b l x) i) = i := by
    intro b l x hl hx
    have hchild : x * 256 + i < 256 ^ (l + 1) := by
      rw [pow_succ]
      omega
    rw [getChildNode_nodeAt hl hx, getParentNode_nodeAt hl hchild, vcPositionInParent_nodeAt hl hchild]
    exact ⟨by rw [show (x * 256 + i) / 256 = x by omega], by omega⟩
  cases hp with
  | main hl hx => exact hnode (by omega) hx
  | subtree hb hl hx => exact hnode hl hx

theorem subtreeLeafStartKey_leaf (key : SaltKey) :
    subtreeLeafStartKey (subtreeLeafForKey key) = key.val / 256 * 256 := by
  have hslot := key.slotId_lt
  have hsegment : key.slotId / 256 < 256 ^ 4 := by omega
  have hval : key.val = key.bucketId * 2 ^ 40 + key.slotId := by
    rw [SaltKey.bucketId_eq, SaltKey.slotId_eq]
    omega
  have hlocal := nodeAt_local (b := key.bucketId) (show 4 ≤ 4 from le_rfl) hsegment
  rw [subtreeLeafForKey_eq, subtreeLeafStartKey]
  simp only [hlocal]
  change nodeAt key.bucketId 4 (key.slotId / 256) - (leftmostNode 4 + key.slotId / 256) +
    (leftmostNode 4 + key.slotId / 256 - leftmostNode 4) * 256 = key.val / 256 * 256
  rw [nodeAt, hval]
  omega

theorem plain_of_trieNode {n : ℕ} (h : TrieNode n) :
    isEncodedNode n = false ∧ connectParentId n = n ∧ logicParentId n = .ok n := by
  cases h with
  | main hl hx =>
    have hl' : _ ≤ 4 := Nat.le_succ_of_le hl
    exact ⟨isEncodedNode_nodeAt hl' hx, connectParentId_nodeAt hl' hx, logicParentId_nodeAt hl' hx⟩
  | subtree hb hl hx => exact ⟨isEncodedNode_nodeAt hl hx, connectParentId_nodeAt hl hx, logicParentId_nodeAt hl hx⟩

/-- Parents, children, positions, leaves of keys and the encoded bridges agree on one numbering. -/
theorem node_addressing_consistent :
    (∀ p, ParentNode p → ∀ i < 256, getParentNode (getChildNode p i) = .ok p ∧ vcPositionInParent
    (getChildNode p i) = i) ∧
    (∀ key : SaltKey, isValidDataBucket key.bucketId →
      parentSteps 4 (subtreeLeafForKey key) = .ok (digits256 4 (key.slotId / 256), key.bucketId * 2 ^ 40) ∧
        subtreeLeafStartKey (subtreeLeafForKey key) = key.val / 256 * 256) ∧
    (∀ b < 2 ^ 24, parentSteps 3 (bucketRootNodeId b) = .ok (digits256 3 b, 0)) ∧
    (∀ b < 2 ^ 24, ∀ level, 2 ≤ level → level ≤ 5 →
      isEncodedNode (encodeParent (bucketRootNodeId b) level) = true ∧
        connectParentId (encodeParent (bucketRootNodeId b) level) = bucketRootNodeId b ∧
        logicParentId (encodeParent (bucketRootNodeId b) level) = .ok (b * 2 ^ 40 + leftmostNode (5 - level))) ∧
    ∀ n, TrieNode n → isEncodedNode n = false ∧ connectParentId n = n ∧ logicParentId n = .ok n := by
  refine ⟨fun p hp i hi ↦ child_of_parentNode hp hi, fun key _ ↦ ⟨?_, subtreeLeafStartKey_leaf key⟩, fun b hb ↦ ?_,
    fun b hb level hl hl' ↦ ⟨?_, ?_, ?_⟩, fun n ↦ plain_of_trieNode⟩
  · have hslot := key.slotId_lt
    have hsegment : key.slotId / 256 < 256 ^ 4 := by omega
    rw [subtreeLeafForKey_eq, parentSteps_nodeAt 4 le_rfl le_rfl hsegment, Nat.div_eq_of_lt hsegment, Nat.sub_self,
      nodeAt_root]
  · have hbucket : b < 256 ^ 3 := by omega
    rw [bucketRootNodeId_eq, parentSteps_nodeAt 3 le_rfl (by omega) hbucket, Nat.div_eq_of_lt hbucket, Nat.sub_self,
      nodeAt_root, Nat.zero_mul]
  · have hlt := local_lt (show 3 ≤ 4 by omega) (show b < 256 ^ 3 by omega)
    rw [encodeParent_eq hb, nodeAt]
    simp only [isEncodedNode, decide_eq_true_eq]
    omega
  · rw [connectParentId_encodeParent hb hl (by omega), bucketRootNodeId_eq]
  · rw [logicParentId_encodeParent hb hl hl', nodeAt, Nat.add_zero]

end Salt
