import Salt.Types
import Mathlib.Tactic.IntervalCases

namespace Salt

/-! Node identifiers: the bucket id in the high 24 bits (0 for the main trie), the breadth-first
number of the node within its tree in the low 40. -/

/-- The first breadth-first number of a level, `STARTING_NODE_ID`. -/
def leftmostNode (level : ℕ) : ℕ := if level = 0 then 0 else (trieWidth ^ level - 1) / (trieWidth - 1)

def getLocalNumber (nodeId : ℕ) : ℕ := nodeId % 2 ^ bucketSlotBits

def getBfsLevel (bfsNumber : ℕ) : ℕ :=
  go 8
where
  /-- Tries the levels from the given one upwards. -/
  go : ℕ → ℕ
    | 0 => 0
    | level + 1 => if leftmostNode (level + 1) ≤ bfsNumber then level + 1 else go level

/-- Main trie nodes have bucket id 0; the metadata buckets have no subtrees. -/
def isSubtreeNode (nodeId : ℕ) : Except Panic Bool :=
  let bucketId := nodeId / 2 ^ bucketSlotBits
  if bucketId = 0 then .ok false
  else if bucketId < numMetaBuckets then .error (.notDataBucket bucketId)
  else .ok true

def relativePosition (nodeId : ℕ) : ℕ :=
  getLocalNumber nodeId - leftmostNode (getBfsLevel (getLocalNumber nodeId))

def vcPositionInParent (nodeId : ℕ) : ℕ := relativePosition nodeId % trieWidth

def getChildNode (parent childIdx : ℕ) : ℕ :=
  let localNodeId := getLocalNumber parent
  let bucketId := parent - localNodeId
  bucketId + leftmostNode (getBfsLevel localNodeId + 1) + relativePosition parent * trieWidth + childIdx

/-- The parent of a node; for a root the level index underflows. -/
def getParentNode (nodeId : ℕ) : Except Panic ℕ :=
  let localNodeId := getLocalNumber nodeId
  let bucketId := nodeId - localNodeId
  let level := getBfsLevel localNodeId
  if level = 0 then .error .underflow
  else .ok (bucketId + (relativePosition nodeId / trieWidth + leftmostNode (level - 1)))

def bucketRootNodeId (bucketId : ℕ) : ℕ := bucketId + leftmostNode (mainTrieLevels - 1)

def subtreeLeafForKey (key : SaltKey) : ℕ :=
  key.bucketId * 2 ^ bucketSlotBits + key.slotId / minBucketSize + leftmostNode (maxSubtreeLevels - 1)

def subtreeLeafStartKey (nodeId : ℕ) : ℕ :=
  let localNodeNumber := getLocalNumber nodeId
  let bucketId := nodeId - localNodeNumber
  bucketId + (localNodeNumber - leftmostNode (maxSubtreeLevels - 1)) * minBucketSize

/-- Node `x` of level `l` in the tree of bucket `b`. -/
def nodeAt (b l x : ℕ) : ℕ := b * 2 ^ 40 + leftmostNode l + x

theorem leftmostNode_succ {l : ℕ} (hl : l ≤ 4) : leftmostNode (l + 1) = leftmostNode l + 256 ^ l := by
  interval_cases l <;> decide

theorem leftmostNode_lt {l : ℕ} (hl : l ≤ 5) : leftmostNode l < 2 ^ 33 := by
  interval_cases l <;> decide

theorem leftmostNode_mono {l l' : ℕ} (h : l ≤ l') (hl : l' ≤ 8) : leftmostNode l ≤ leftmostNode l' := by
  have hstep : ∀ i < 8, leftmostNode i ≤ leftmostNode (i + 1) := by decide
  induction l', h using Nat.le_induction with
  | base => exact le_rfl
  | succ n _ ih => exact (ih (by omega)).trans (hstep n (by omega))

theorem getBfsLevel_eq {l x : ℕ} (hl : l ≤ 4) (hx : x < 256 ^ l) :
    getBfsLevel (leftmostNode l + x) = l := by
  have hsucc := leftmostNode_succ hl
  suffices ∀ k ≤ 8, l ≤ k → getBfsLevel.go (leftmostNode l + x) k = l from this 8 le_rfl (by omega)
  intro k hk hlk
  induction k with
  | zero => rw [Nat.le_zero.mp hlk, getBfsLevel.go]
  | succ k ih =>
    rw [getBfsLevel.go]
    rcases Nat.lt_or_ge k l with hkl | hkl
    · obtain rfl : l = k + 1 := by omega
      exact if_pos (Nat.le_add_right _ _)
    · have := leftmostNode_mono (show l + 1 ≤ k + 1 by omega) hk
      rw [if_neg (by omega)]
      exact ih (by omega) hkl

section NodeAt

variable {b l x : ℕ}

theorem local_lt (hl : l ≤ 4) (hx : x < 256 ^ l) : leftmostNode l + x < 2 ^ 33 := by
  have := leftmostNode_succ hl
  have := leftmostNode_lt (l := l + 1) (by omega)
  omega

theorem nodeAt_local (hl : l ≤ 4) (hx : x < 256 ^ l) :
    getLocalNumber (nodeAt b l x) = leftmostNode l + x := by
  have := local_lt hl hx
  simp only [getLocalNumber, nodeAt, bucketSlotBits]
  omega

theorem nodeAt_level (hl : l ≤ 4) (hx : x < 256 ^ l) :
    getBfsLevel (getLocalNumber (nodeAt b l x)) = l := by
  rw [nodeAt_local hl hx, getBfsLevel_eq hl hx]

theorem nodeAt_relativePosition (hl : l ≤ 4) (hx : x < 256 ^ l) :
    relativePosition (nodeAt b l x) = x := by
  rw [relativePosition, nodeAt_level hl hx, nodeAt_local hl hx]
  omega

theorem vcPositionInParent_nodeAt (hl : l ≤ 4) (hx : x < 256 ^ l) :
    vcPositionInParent (nodeAt b l x) = x % 256 := by
  rw [vcPositionInParent, nodeAt_relativePosition hl hx]

theorem getParentNode_nodeAt (hl : l < 4) (hx : x < 256 ^ (l + 1)) :
    getParentNode (nodeAt b (l + 1) x) = .ok (nodeAt b l (x / 256)) := by
  have hl' : l + 1 ≤ 4 := hl
  have hlevel := nodeAt_level (b := b) hl' hx
  have hlocal := nodeAt_local (b := b) hl' hx
  have hrel := nodeAt_relativePosition (b := b) hl' hx
  simp only [getParentNode, hlevel, hrel, Nat.succ_ne_zero, if_false, Nat.add_sub_cancel]
  rw [hlocal]
  simp only [nodeAt, trieWidth, Except.ok.injEq]
  omega

theorem getParentNode_root : getParentNode (nodeAt b 0 0) = .error .underflow := by
  have hlevel := nodeAt_level (b := b) (show 0 ≤ 4 by omega) (show 0 < 256 ^ 0 by norm_num)
  simp only [getParentNode, hlevel, if_true]

theorem getChildNode_nodeAt (hl : l < 4) (hx : x < 256 ^ l) (d : ℕ) :
    getChildNode (nodeAt b l x) d = nodeAt b (l + 1) (x * 256 + d) := by
  have hl' : l ≤ 4 := le_of_lt hl
  have hlevel := nodeAt_level (b := b) hl' hx
  have hlocal := nodeAt_local (b := b) hl' hx
  have hrel := nodeAt_relativePosition (b := b) hl' hx
  simp only [getChildNode, hlevel, hrel]
  rw [hlocal]
  simp only [nodeAt, trieWidth]
  omega

theorem bucketRootNodeId_eq (b : ℕ) : bucketRootNodeId b = nodeAt 0 3 b := by
  have h : bucketRootNodeId b = b + leftmostNode 3 := rfl
  rw [h, nodeAt]
  omega

theorem subtreeLeafForKey_eq (k : SaltKey) :
    subtreeLeafForKey k = nodeAt k.bucketId 4 (k.slotId / 256) := by
  rw [subtreeLeafForKey, nodeAt, Nat.add_right_comm]
  rfl

end NodeAt

end Salt
