import Salt.Trie.StateRoot
import Salt.Trie.Contraction

namespace Salt

open Std (ExtTreeMap ExtTreeSet)
open Library.Triple
open Multipoint (divCeil)

/-- `expect`: an error becomes a panic. -/
def expectOk {α : Type} (message : String) : Except Fault α → Except Fault α
  | .ok a => .ok a
  | .error (.err _) => .error (.panic (.unwrap message))
  | .error (.panic p) => .error (.panic p)

def expectSome {α : Type} (message : String) : Option α → Except Fault α
  | some a => .ok a
  | none => .error (.panic (.unwrap message))

structure SubtrieChangeInfo where
  oldCapacity : ℕ
  oldTopLevel : ℕ
  oldTopId : ℕ
  newCapacity : ℕ
  newTopLevel : ℕ
  newTopId : ℕ
  rootId : ℕ

def SubtrieChangeInfo.new (bucketId oldCapacity newCapacity : ℕ) : Except Fault SubtrieChangeInfo := do
  let oldTopLevel ← subtreeRootLevel oldCapacity
  let newTopLevel ← subtreeRootLevel newCapacity
  .ok { oldCapacity, oldTopLevel, oldTopId := bucketId * 2 ^ bucketSlotBits + leftmostNode oldTopLevel,
        newCapacity, newTopLevel, newTopId := bucketId * 2 ^ bucketSlotBits + leftmostNode newTopLevel,
        rootId := bucketRootNodeId bucketId }

def metadataChange (e : StateChange) : Except Fault (ℕ × SubtrieChangeInfo) := do
  let bucketId := bucketIdFromMetadataKey e.1
  let oldEntry ← expectSome "old meta exist in updates" e.2.1
  let oldMeta ← expectOk "old meta should be valid" (BucketMeta.tryFrom oldEntry)
  let newEntry ← expectSome "new meta exist in updates" e.2.2
  let newMeta ← expectOk "new meta should be valid" (BucketMeta.tryFrom newEntry)
  let info ← SubtrieChangeInfo.new bucketId oldMeta.capacity newMeta.capacity
  .ok (bucketId, info)

def metadataChanges (stateUpdates : StateUpdates) : Except Fault (ExtTreeMap ℕ SubtrieChangeInfo) := do
  let l ← (stateUpdates.data.toList.filter fun e ↦ e.1.isInMetaBucket).mapM metadataChange
  .ok (l.foldl (fun m e ↦ m.insert e.1 e.2) ∅)

namespace StateRoot

section Scan

variable {F C : Type}

def cacheNode (st : StateRoot C) (nodeId : ℕ) (c : C) : StateRoot C := { st with cache := st.cache.insert nodeId c }

def cacheCapacities (st : StateRoot C) (changes : ExtTreeMap ℕ SubtrieChangeInfo) : StateRoot C :=
  { st with bucketCapacityCache :=
      changes.toList.foldl (fun m e ↦ m.insert e.1 e.2.newCapacity) st.bucketCapacityCache }

variable (K : Committer F C)

/-- Walks up from a new leaf and caches defaults until a visited node, a known node or the new root;
`fuel` exceeds the number of levels. -/
def warmPath (newTopId : ℕ) : ℕ → ℕ → StateRoot C × ExtTreeSet ℕ → Except Fault (StateRoot C × ExtTreeSet ℕ)
  | 0, _, _ => .error (.panic .diverges)
  | fuel + 1, node, (st, visited) =>
    if node ∈ visited then .ok (st, visited)
    else do
      match ← attempt (st.commitment node) with
      | some _ => .ok (st, visited)
      | none =>
        let visited := visited.insert node
        let c ← asFault (defaultCommitment K.defaults node)
        let st := st.cacheNode node c
        if node = newTopId then .ok (st, visited)
        else
          let parent ← asFault (getParentNode node)
          warmPath newTopId fuel parent (st, visited)

def warmSegments (st : StateRoot C) (bucketId : ℕ) (info : SubtrieChangeInfo) : Except Fault (StateRoot C) := do
  let oldSegments := divCeil info.oldCapacity minBucketSize
  let newSegments := divCeil info.newCapacity minBucketSize
  let acc ← (List.range' oldSegments (newSegments - oldSegments)).foldlM (fun acc segmentId ↦
    warmPath K info.newTopId 9 (bucketId * 2 ^ bucketSlotBits + leftmostNode (maxSubtreeLevels - 1) + segmentId) acc)
    (st, ∅)
  .ok acc.1

structure Scan (C : Type) where
  st : StateRoot C
  changes : ExtTreeMap ℕ SubtrieChangeInfo
  needHandle : ExtTreeSet ℕ
  lastBucketId : ℕ
  isExpanded : Bool
  curBucketCap : ℕ
  expansionKvs : List StateChange
  nonExpansionKvs : List StateChange

def Scan.handleIf (sc : Scan C) (bucketId : ℕ) (handled : Bool) : Scan C :=
  if handled then { sc with needHandle := sc.needHandle.insert bucketId } else sc

def enterChanged (sc : Scan C) (key : SaltKey) (info : SubtrieChangeInfo) : Except Fault (Scan C) := do
  let bucketRoot ← sc.st.commitment info.rootId
  let st := sc.st.cacheNode info.oldTopId bucketRoot
  let sc := { sc with st, isExpanded := true, curBucketCap := info.newCapacity }
  match compare info.newCapacity info.oldCapacity with
  | .gt =>
    let st ← warmSegments K st key.bucketId info
    .ok ({ sc with st }.handleIf key.bucketId
      (key.slotId < minBucketSize ^ (maxSubtreeLevels - info.oldTopLevel)))
  | .lt =>
    .ok (sc.handleIf key.bucketId (key.slotId < minBucketSize ^ (maxSubtreeLevels - info.newTopLevel)))
  | .eq =>
    let isExpanded := decide (info.newCapacity > minBucketSize)
    .ok ({ sc with isExpanded }.handleIf key.bucketId isExpanded)

/-- The cached capacity of a bucket, or as many slots as its stored levels can have. -/
def currentCapacity (st : StateRoot C) (bucketId : ℕ) : Except Fault ℕ :=
  match st.bucketCapacityCache[bucketId]? with
  | some capacity => .ok capacity
  | none => do
    let level ← st.store.getSubtreeLevels bucketId
    .ok (trieWidth ^ level)

def enterUnchanged (sc : Scan C) (bucketId : ℕ) : Except Fault (Scan C) := do
  let curBucketCap ← sc.st.currentCapacity bucketId
  let isExpanded := decide (curBucketCap > minBucketSize)
  let sc := { sc with curBucketCap, isExpanded }.handleIf bucketId isExpanded
  if isExpanded then do
    let info ← SubtrieChangeInfo.new bucketId curBucketCap curBucketCap
    let bucketRoot ← sc.st.commitment info.rootId
    .ok { sc with st := sc.st.cacheNode info.oldTopId bucketRoot, changes := sc.changes.insert bucketId info }
  else .ok sc

def enterBucket (sc : Scan C) (key : SaltKey) : Except Fault (Scan C) :=
  if sc.lastBucketId ≠ key.bucketId ∧ key.bucketId ≥ numMetaBuckets then
    let sc := { sc with lastBucketId := key.bucketId }
    match sc.changes[key.bucketId]? with
    | some info => enterChanged K sc key info
    | none => enterUnchanged sc key.bucketId
  else .ok sc

/-- Keys at or above the capacity of an expanded bucket are dropped. -/
def Scan.push (sc : Scan C) (e : StateChange) : Scan C :=
  if sc.isExpanded = false then { sc with nonExpansionKvs := sc.nonExpansionKvs ++ [e] }
  else if e.1.slotId < sc.curBucketCap then { sc with expansionKvs := sc.expansionKvs ++ [e] }
  else sc

def scanKey (sc : Scan C) (e : StateChange) : Except Fault (Scan C) := do
  let sc ← enterBucket K sc e.1
  .ok (sc.push e)

def scanUpdates (st : StateRoot C) (changes : ExtTreeMap ℕ SubtrieChangeInfo) (stateUpdates : StateUpdates) :
    Except Fault (Scan C) :=
  stateUpdates.data.toList.foldlM (scanKey K) ⟨st, changes, ∅, 2 ^ 32 - 1, false, minBucketSize, [], []⟩

end Scan

section Levels

variable {F C : Type} (K : Committer F C)

/-- Changes that join the levels they belong to, changes that join at the end, the buckets whose trees
are climbed and the levels on which they start or end. -/
structure Plan (C : Type) where
  extra : ℕ → TrieUpdates C
  uncomputed : TrieUpdates C
  triggers : ℕ → ExtTreeMap ℕ SubtrieChangeInfo
  needHandle : ExtTreeSet ℕ

def Plan.addExtra (p : Plan C) (level : ℕ) (l : TrieUpdates C) : Plan C :=
  { p with extra := Function.update p.extra level (p.extra level ++ l) }

def Plan.addUncomputed (p : Plan C) (l : TrieUpdates C) : Plan C := { p with uncomputed := p.uncomputed ++ l }

def Plan.addTrigger (p : Plan C) (level bucketId : ℕ) (info : SubtrieChangeInfo) : Plan C :=
  { p with triggers := Function.update p.triggers level ((p.triggers level).insert bucketId info) }

/-- The changes that set the nodes of one level back to the default, split at the boundary. -/
def contractionUpdates [DecidableEq C] (st : StateRoot C) (bucketId : ℕ) (op : LevelContractionOp) :
    Except Fault (TrieUpdates C × TrieUpdates C) := do
  let first := op.updateRange.1
  let last := op.updateRange.2
  let extractEnd := op.immediateBoundary + bucketId * 2 ^ bucketSlotBits + leftmostNode op.level
  let updates ← (List.range' first (last - first)).mapM fun i ↦ do
    let nodeId := bucketId * 2 ^ bucketSlotBits + i + leftmostNode op.level
    let old ← expectOk "node should exist in trie" (st.commitment nodeId)
    let new ← asFault (defaultCommitment K.defaults nodeId)
    .ok (if new ≠ old then some (nodeId, old, new) else none)
  let updates := updates.reduceOption
  .ok (updates.takeWhile fun e ↦ e.1 < extractEnd, updates.dropWhile fun e ↦ e.1 < extractEnd)

def resetContracted [DecidableEq C] (st : StateRoot C) (p : Plan C) (e : ℕ × SubtrieChangeInfo) :
    Except Fault (Plan C) :=
  if e.2.newCapacity ≥ e.2.oldCapacity then .ok p
  else do
    let ops ← computeContractionOps e.2.oldCapacity e.2.newCapacity
    ops.foldlM (fun p op ↦ do
      let (immediate, deferred) ← contractionUpdates K st e.1 op
      .ok ((p.addUncomputed deferred).addExtra op.level immediate)) p

def setTriggers (st : StateRoot C) (p : Plan C) (e : ℕ × SubtrieChangeInfo) : Except Fault (Plan C) :=
  let info := e.2
  if e.1 ∈ p.needHandle then
    let p := p.addTrigger info.newTopLevel e.1 info
    .ok (if info.oldTopLevel > info.newTopLevel then p.addTrigger info.oldTopLevel e.1 info else p)
  else
    match compare info.oldTopLevel info.newTopLevel with
    | .gt => do
      let c ← asFault (defaultCommitment K.defaults info.oldTopId)
      let bucketRoot ← st.commitment info.rootId
      let p := p.addExtra info.oldTopLevel [(info.oldTopId, c, bucketRoot)]
      let p := { p with needHandle := p.needHandle.insert e.1 }
      .ok ((p.addTrigger info.oldTopLevel e.1 info).addTrigger info.newTopLevel e.1 info)
    | .lt => do
      let bucketRoot ← st.commitment info.rootId
      let newTop ← st.commitment info.newTopId
      .ok (p.addUncomputed [(info.rootId, bucketRoot, newTop)])
    | .eq => .ok p

def planChanges [DecidableEq C] (st : StateRoot C) (changes : ExtTreeMap ℕ SubtrieChangeInfo)
    (needHandle : ExtTreeSet ℕ) : Except Fault (Plan C) := do
  let p ← changes.toList.foldlM (resetContracted K st) ⟨fun _ ↦ [], [], fun _ ↦ ∅, needHandle⟩
  changes.toList.foldlM (setTriggers K st) p

/-- A changed node on a level with triggers: the new root moves to the main trie (right), the old root of an
expanded bucket becomes a new node. -/
def redirect (st : StateRoot C) (level : ℕ) (triggers : ExtTreeMap ℕ SubtrieChangeInfo) (e : NodeChange C) :
    Except Fault (NodeChange C ⊕ NodeChange C) :=
  match triggers[e.1 / 2 ^ bucketSlotBits]? with
  | some info =>
    if info.newTopLevel = level then
      if info.newTopId = e.1 then do
        let root ← expectOk "root node should exist in trie" (st.commitment info.rootId)
        .ok (.inr (info.rootId, root, e.2.2))
      else .error (.panic (.unwrap "assertion `left == right` failed"))
    else do
      let c ← asFault (defaultCommitment K.defaults info.oldTopId)
      .ok (.inl (e.1, c, e.2.2))
  | none => .ok (.inl e)

def redirectLevel (st : StateRoot C) (level : ℕ) (triggers : ExtTreeMap ℕ SubtrieChangeInfo)
    (commitments : TrieUpdates C) : Except Fault (TrieUpdates C × TrieUpdates C) :=
  if triggers.isEmpty then .ok (commitments, [])
  else do
    let moved ← commitments.mapM (redirect K st level triggers)
    .ok (moved.filterMap Sum.getLeft?, moved.filterMap Sum.getRight?)

variable [CommRing F] [AddCommGroup C] [Module F C] (threads : ℕ)

/-- The levels of all bucket trees together, bottom up: `n` levels are left. -/
def climbSubtrees (st : StateRoot C) (p : Plan C) : ℕ → TrieUpdates C → TrieUpdates C → Except Fault (TrieUpdates C)
  | 0, _, trieUpdates => .ok trieUpdates
  | level + 1, commitments, trieUpdates => do
    let (kept, roots) ← redirectLevel K st level (p.triggers level) commitments
    let commitments := kept ++ p.extra level
    let trieUpdates := trieUpdates ++ roots ++ commitments
    if ∀ l < level, (p.triggers l).isEmpty then .ok trieUpdates
    else do
      let commitments ← expectOk "update internal nodes for subtrie failed"
        (st.updateInternalNodes K threads commitments)
      climbSubtrees st p level commitments trieUpdates

def expansionNodeId (key : SaltKey) : ℕ :=
  key.bucketId * 2 ^ bucketSlotBits + key.slotId / 256 + leftmostNode (maxSubtreeLevels - 1)

def updateSubtreeLeaves (st : StateRoot C) (p : Plan C) (expansionKvs : List StateChange) :
    Except Fault (TrieUpdates C) :=
  if p.needHandle.isEmpty then .ok [] else st.updateLeafNodes K threads expansionKvs expansionNodeId

def updateBucketSubtrees [DecidableEq C] (st : StateRoot C) (stateUpdates : StateUpdates) :
    Except Fault (StateRoot C × TrieUpdates C) := do
  let changes ← metadataChanges stateUpdates
  let sc ← scanUpdates K (st.cacheCapacities changes) changes stateUpdates
  let bucketUpdates ← sc.st.updateLeafNodes K threads sc.nonExpansionKvs fun key ↦ bucketRootNodeId key.bucketId
  let p ← planChanges K sc.st sc.changes sc.needHandle
  let commitments ← updateSubtreeLeaves K threads sc.st p sc.expansionKvs
  let trieUpdates ← climbSubtrees K threads sc.st p maxSubtreeLevels commitments bucketUpdates
  .ok (sc.st, trieUpdates ++ p.uncomputed)

end Levels

end StateRoot

end Salt
