import Salt.Trie.NodeUtils
import Salt.State.Commit

namespace Salt

open Std (ExtTreeMap)
open Library.Triple

/-- The precomputed commitments of empty nodes by level: of the main trie, left and right of the
metadata boundary, and of bucket subtrees. -/
structure DefaultCommitments (C : Type) where
  left : ℕ → C
  right : ℕ → C
  subtree : ℕ → C

def metaBoundary : ℕ → ℕ
  | 0 => leftmostNode 0 + 1
  | 1 => leftmostNode 1 + 1
  | 2 => leftmostNode 2 + minBucketSize
  | _ => leftmostNode 3 + numMetaBuckets

variable {C : Type}

def uniformTree {F : Type} (commit : List F → C) (hash : C → F) (slot : F) : ℕ → C
  | 0 => commit (List.replicate 256 slot)
  | height + 1 => commit (List.replicate 256 (hash (uniformTree commit hash slot height)))

def DefaultCommitments.ofEmptyTree {F : Type} (commit : List F → C) (hash : C → F)
    (slotToField : Option SaltValue → F) : DefaultCommitments C :=
  let left := uniformTree commit hash (slotToField (some (SaltValue.ofMeta BucketMeta.default)))
  let right := uniformTree commit hash (slotToField none)
  { left := fun l ↦ if l = 0 then commit (hash (left 2) :: List.replicate 255 (hash (right 2))) else left (3 - l)
    right := fun l ↦ right (3 - l)
    subtree := fun l ↦ right (4 - l) }

def defaultCommitment (D : DefaultCommitments C) (nodeId : ℕ) : Except Panic C := do
  let level := getBfsLevel (getLocalNumber nodeId)
  if ← isSubtreeNode nodeId then
    if level < maxSubtreeLevels then .ok (D.subtree level) else .error .indexOutOfRange
  else if level < mainTrieLevels then
    .ok (if nodeId < metaBoundary level then D.left level else D.right level)
  else .error .indexOutOfRange

structure MemStore (C : Type) where
  state : StateStore
  trie : ExtTreeMap ℕ C

namespace MemStore

def commitment (D : DefaultCommitments C) (s : MemStore C) (nodeId : ℕ) : Except Panic C :=
  match s.trie[nodeId]? with
  | some c => .ok c
  | none => defaultCommitment D nodeId

def nodeEntries (s : MemStore C) (first last : ℕ) : List (ℕ × C) :=
  s.trie.toList.filter fun e ↦ first ≤ e.1 ∧ e.1 < last

def entries (s : MemStore C) (first last : SaltKey) : List (SaltKey × SaltValue) :=
  s.state.kvs.toList.filter fun e ↦ first.val ≤ e.1.val ∧ e.1.val ≤ last.val

end MemStore

section Defaults

variable {D : DefaultCommitments C} {s : MemStore C} {b l x : ℕ}

theorem isSubtreeNode_main (hl : l ≤ 4) (hx : x < 256 ^ l) : isSubtreeNode (nodeAt 0 l x) = .ok false := by
  have hlt := local_lt hl hx
  have hzero : nodeAt 0 l x / 2 ^ bucketSlotBits = 0 := by
    rw [nodeAt]
    exact Nat.div_eq_of_lt (by simp only [bucketSlotBits]; omega)
  rw [isSubtreeNode]
  simp only [hzero, if_true]

theorem isSubtreeNode_data (hb : isValidDataBucket b) (hl : l ≤ 4) (hx : x < 256 ^ l) :
    isSubtreeNode (nodeAt b l x) = .ok true := by
  rw [dataBucket_iff] at hb
  have hlt := local_lt hl hx
  have hdiv : nodeAt b l x / 2 ^ bucketSlotBits = b := by
    rw [nodeAt]
    simp only [bucketSlotBits]
    omega
  rw [isSubtreeNode]
  simp only [hdiv, numMetaBuckets]
  rw [if_neg (by omega), if_neg (by omega)]

theorem defaultCommitment_main (hl : l ≤ 3) (hx : x < 256 ^ l) :
    defaultCommitment D (nodeAt 0 l x) =
      .ok (if nodeAt 0 l x < metaBoundary l then D.left l else D.right l) := by
  rw [defaultCommitment, isSubtreeNode_main (by omega) hx, ok_bind, nodeAt_level (by omega) hx]
  simp only [Bool.false_eq_true, if_false, mainTrieLevels]
  rw [if_pos (by omega)]

theorem defaultCommitment_data (hb : isValidDataBucket b) (hl : l ≤ 4) (hx : x < 256 ^ l) :
    defaultCommitment D (nodeAt b l x) = .ok (D.subtree l) := by
  rw [defaultCommitment, isSubtreeNode_data hb hl hx, ok_bind, nodeAt_level hl hx]
  simp only [if_true, maxSubtreeLevels]
  rw [if_pos (by omega)]

end Defaults

section Depth

/-- Up to 256 slots need one level of nodes, and each further level 256 times as many. -/
theorem subtreeRootLevelLoop_spec (level : ℕ) {capacity : ℕ} (h : capacity ≤ 256 ^ (level + 1)) :
    ∃ l ≤ level, subtreeRootLevelLoop level capacity = .ok l ∧ capacity ≤ 256 ^ (level + 1 - l) := by
  induction level generalizing capacity with
  | zero =>
    refine ⟨0, le_rfl, ?_, h⟩
    rw [subtreeRootLevelLoop, if_neg (by simp only [minBucketSize]; omega)]
  | succ level ih =>
    rw [subtreeRootLevelLoop]
    simp only [minBucketSize]
    by_cases hc : capacity > 256
    · rw [if_pos hc]
      have hnext : (capacity + 256 - 1) / 256 ≤ 256 ^ (level + 1) := by
        rw [pow_succ] at h
        omega
      obtain ⟨l, hl, hrun, hle⟩ := ih hnext
      refine ⟨l, by omega, hrun, ?_⟩
      rw [show level + 1 + 1 - l = level + 1 - l + 1 by omega, pow_succ]
      omega
    · rw [if_neg hc]
      exact ⟨level + 1, le_rfl, rfl, by simpa using hc⟩

theorem subtreeRootLevel_spec {capacity : ℕ} (h : capacity ≤ 2 ^ 40) :
    ∃ l ≤ 4, subtreeRootLevel capacity = .ok l ∧ capacity ≤ 256 ^ (5 - l) :=
  subtreeRootLevelLoop_spec 4 (by simpa using h)

end Depth

end Salt
