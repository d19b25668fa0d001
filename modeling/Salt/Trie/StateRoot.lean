import Salt.Trie.MemStore
import Salt.Multipoint.IpaComplete
import Salt.Library.Chunks

namespace Salt

open Std (ExtTreeMap ExtTreeSet)
open Library.Triple Library.Chunks
open Multipoint (divCeil)

/-- The commitment scheme of the trie: the generators, the hash of a commitment to a scalar, the hash
of a slot and the commitments of empty nodes. -/
structure Committer (F C : Type) where
  gen : ℕ → C
  hash : C → F
  kvHash : Option SaltValue → F
  defaults : DefaultCommitments C

structure TrieReader (C : Type) where
  commitment : ℕ → Except Fault C
  getSubtreeLevels : ℕ → Except Fault ℕ

def asFault {α : Type} : Except Panic α → Except Fault α
  | .ok a => .ok a
  | .error p => .error (.panic p)

def MemStore.trieReader {C : Type} (D : DefaultCommitments C) (s : MemStore C) : TrieReader C where
  commitment n := asFault (s.commitment D n)
  getSubtreeLevels := s.state.getSubtreeLevels

/-- `EmptySalt`: every node has its default, every bucket the default capacity. -/
def emptySalt {C : Type} (D : DefaultCommitments C) : TrieReader C where
  commitment n := asFault (defaultCommitment D n)
  getSubtreeLevels b :=
    if b < numMetaBuckets then .ok 1
    else do
      let rootLevel ← subtreeRootLevel minBucketSize
      .ok (maxSubtreeLevels - rootLevel)

abbrev NodeChange (C : Type) := ℕ × C × C

abbrev TrieUpdates (C : Type) := List (NodeChange C)

abbrev StateChange := SaltKey × Option SaltValue × Option SaltValue

structure StateRoot (C : Type) where
  store : TrieReader C
  updates : ExtTreeMap ℕ (C × C)
  cache : ExtTreeMap ℕ C
  bucketCapacityCache : ExtTreeMap ℕ ℕ
  minParBatchSize : ℕ
  deferredLevels : ℕ

namespace StateRoot

section Deltas

variable {C : Type}

def new (store : TrieReader C) : StateRoot C := ⟨store, ∅, ∅, ∅, 64, 1⟩

def withMinParBatchSize (st : StateRoot C) (minTaskSize : ℕ) : StateRoot C :=
  { st with minParBatchSize := minTaskSize }

def withDeferredLevels (st : StateRoot C) (levels : ℕ) : Except Fault (StateRoot C) :=
  if 0 < levels ∧ levels < mainTrieLevels then .ok { st with deferredLevels := levels }
  else .error (.panic (.unwrap "deferred_levels must be in [1, 4)"))

def commitment (st : StateRoot C) (nodeId : ℕ) : Except Fault C :=
  match st.cache[nodeId]? with
  | some c => .ok c
  | none => st.store.commitment nodeId

def parBatchSize (st : StateRoot C) (threads numTasks : ℕ) : ℕ :=
  max st.minParBatchSize (divCeil numTasks (10 * threads))

/-- Moves a boundary forward until it does not separate equal nodes. -/
def alignBoundary (nodes : List ℕ) : ℕ → ℕ → ℕ
  | 0, boundary => boundary
  | fuel + 1, boundary =>
    if boundary < nodes.length ∧ nodes[boundary]? = nodes[boundary - 1]? then
      alignBoundary nodes fuel (boundary + 1)
    else boundary

def chunkBoundaries (nodes : List ℕ) (taskSize : ℕ) : ℕ → ℕ → List ℕ
  | 0, _ => []
  | fuel + 1, nextBoundary =>
    if nextBoundary < nodes.length then
      let boundary := alignBoundary nodes nodes.length nextBoundary
      if boundary < nodes.length then
        boundary :: chunkBoundaries nodes taskSize fuel (boundary + taskSize)
      else []
    else []

def createNodeAlignedChunks (nodes : List ℕ) (taskSize : ℕ) : Except Fault (List (ℕ × ℕ)) :=
  if taskSize = 0 then .error (.panic (.unwrap "attempt to divide by zero"))
  else
    let boundaries := 0 :: (chunkBoundaries nodes taskSize nodes.length taskSize ++ [nodes.length])
    .ok (List.zip boundaries boundaries.tail)

variable [Add C]

def addToLast : TrieUpdates C → C → TrieUpdates C
  | [], _ => []
  | [(n, old, new)], delta => [(n, old, new + delta)]
  | e :: l, delta => e :: addToLast l delta

/-- One delta: the same node as before, or a fresh accumulation. -/
def accumulateDelta (st : StateRoot C) (acc : TrieUpdates C × ℕ) (e : ℕ × C) :
    Except Fault (TrieUpdates C × ℕ) :=
  if e.1 = acc.2 then .ok (addToLast acc.1 e.2, acc.2)
  else do
    let old ← st.commitment e.1
    .ok (acc.1 ++ [(e.1, old, old + e.2)], e.1)

def accumulateChunkDeltas (st : StateRoot C) (deltas : List (ℕ × C)) (chunk : ℕ × ℕ) :
    Except Fault (TrieUpdates C) := do
  let acc ← ((deltas.drop chunk.1).take (chunk.2 - chunk.1)).foldlM (accumulateDelta st) ([], 2 ^ 64 - 1)
  .ok acc.1

def addCommitmentDeltas (st : StateRoot C) (deltas : List (ℕ × C)) (taskSize : ℕ) :
    Except Fault (TrieUpdates C) := do
  let deltas := deltas.mergeSort fun a b ↦ a.1 ≤ b.1
  let chunks ← createNodeAlignedChunks (deltas.map Prod.fst) taskSize
  let results ← chunks.mapM (accumulateChunkDeltas st deltas)
  .ok results.flatten

end Deltas

section Nodes

variable {F C : Type} [CommRing F] [AddCommGroup C] [Module F C] (K : Committer F C) (threads : ℕ)

def mulIndex (scalar : F) (i : ℕ) : C := scalar • K.gen i

def updateLeafNodes (st : StateRoot C) (stateUpdates : List StateChange) (toNodeId : SaltKey → ℕ) :
    Except Fault (TrieUpdates C) :=
  let stateUpdates := stateUpdates.mergeSort fun a b ↦ a.1.slotId % trieWidth ≤ b.1.slotId % trieWidth
  let batchSize := st.parBatchSize threads stateUpdates.length
  st.addCommitmentDeltas (stateUpdates.map fun e ↦
    (toNodeId e.1, mulIndex K (K.kvHash e.2.2 - K.kvHash e.2.1) (e.1.slotId % trieWidth))) batchSize

def childDelta (e : NodeChange C) : Except Fault (ℕ × C) := do
  let parent ← asFault (getParentNode e.1)
  .ok (parent, mulIndex K (K.hash e.2.2 - K.hash e.2.1) (vcPositionInParent e.1))

def updateInternalNodes (st : StateRoot C) (childUpdates : TrieUpdates C) : Except Fault (TrieUpdates C) := do
  let childUpdates := childUpdates.mergeSort fun a b ↦ vcPositionInParent a.1 ≤ vcPositionInParent b.1
  let batchSize := st.parBatchSize threads childUpdates.length
  if batchSize = 0 then .error (.panic (.unwrap "chunk size must be non-zero"))
  else
    let parts ← (chunks batchSize childUpdates).mapM fun cUpdates ↦ cUpdates.mapM (childDelta K)
    st.addCommitmentDeltas parts.flatten batchSize

end Nodes

end StateRoot

end Salt
