import Salt.Trie.BucketSubtrees

namespace Salt

open Std (ExtTreeMap)
open Library.Triple

namespace StateRoot

section Updates

variable {F C : Type}

/-- The cache takes the new commitment, the pending updates keep the first old one. -/
def applyUpdate (st : StateRoot C) (e : NodeChange C) : StateRoot C :=
  { st with
    cache := st.cache.insert e.1 e.2.2
    updates := st.updates.insert e.1 (((st.updates[e.1]?).elim e.2.1 Prod.fst), e.2.2) }

def applyUpdatesToCaches (st : StateRoot C) (updates : TrieUpdates C) : StateRoot C := updates.foldl applyUpdate st

def cacheNodes (st : StateRoot C) (updates : TrieUpdates C) : StateRoot C :=
  updates.foldl (fun st e ↦ st.cacheNode e.1 e.2.2) st

def dropUpdatesBelowLevel (updates : TrieUpdates C) (level : ℕ) : TrieUpdates C :=
  updates.filter fun e ↦ e.1 < leftmostNode level

variable [CommRing F] [AddCommGroup C] [Module F C] (K : Committer F C) (threads : ℕ)

def propagate : ℕ → StateRoot C → TrieUpdates C → Except Fault (StateRoot C)
  | 0, st, _ => .ok st
  | n + 1, st, levelUpdates => do
    let levelUpdates ← st.updateInternalNodes K threads levelUpdates
    propagate n (st.applyUpdatesToCaches levelUpdates) levelUpdates

def update [DecidableEq C] (st : StateRoot C) (stateUpdates : StateUpdates) : Except Fault (StateRoot C) := do
  let (st, subtreeUpdates) ← st.updateBucketSubtrees K threads stateUpdates
  let levelUpdates := dropUpdatesBelowLevel subtreeUpdates mainTrieLevels
  propagate K threads (mainTrieLevels - (st.deferredLevels + 1)) (st.applyUpdatesToCaches subtreeUpdates) levelUpdates

def climbMainTrie (st : StateRoot C) : ℕ → TrieUpdates C → TrieUpdates C → Except Fault (TrieUpdates C)
  | 0, _, accUpdates => .ok accUpdates
  | n + 1, levelUpdates, accUpdates => do
    let levelUpdates ← st.updateInternalNodes K threads levelUpdates
    climbMainTrie st n levelUpdates (accUpdates ++ levelUpdates)

/-- The root hash with all updates; without an update of the root it is read from the store. -/
def updateMainTrie (st : StateRoot C) (accUpdates : TrieUpdates C) (startLevel : ℕ) :
    Except Fault (F × TrieUpdates C) := do
  let levelUpdates := dropUpdatesBelowLevel accUpdates startLevel
  let accUpdates ← climbMainTrie K threads st (startLevel - 1) levelUpdates accUpdates
  let rootCommitment ← match accUpdates.getLast? with
    | some (0, _, c) => .ok c
    | _ => st.store.commitment 0
  .ok (K.hash rootCommitment, accUpdates)

/-- `order` is the order in which the hash map of pending updates gives its entries. -/
def finalize (order : TrieUpdates C → TrieUpdates C) (st : StateRoot C) :
    Except Fault (StateRoot C × F × TrieUpdates C) := do
  let trieUpdates := order st.updates.toList
  let st := { st with updates := ∅ }
  let (rootHash, trieUpdates) ← st.updateMainTrie K threads trieUpdates (st.deferredLevels + 1)
  let deferredUpdates := dropUpdatesBelowLevel trieUpdates st.deferredLevels
  .ok (st.cacheNodes deferredUpdates, rootHash, trieUpdates)

def updateFin [DecidableEq C] (order : TrieUpdates C → TrieUpdates C) (st : StateRoot C) (stateUpdates : StateUpdates) :
    Except Fault (StateRoot C × F × TrieUpdates C) := do
  let st ← st.update K threads stateUpdates
  st.finalize K threads order

end Updates

section Rebuild

variable {F C : Type} [CommRing F] [AddCommGroup C] [Module F C] [DecidableEq C] (K : Committer F C) (threads : ℕ)

/-- The entries of a chunk as changes of the empty state: metadata from the default, pairs as insertions. -/
def chunkUpdates (metaEntries entries : List (SaltKey × SaltValue)) : StateUpdates :=
  let updates := metaEntries.foldl (fun m e ↦ m.insert e.1 (some (SaltValue.ofMeta BucketMeta.default), some e.2))
    (∅ : ExtTreeMap SaltKey (Option SaltValue × Option SaltValue))
  ⟨entries.foldl (fun m e ↦ m.insert e.1 (none, some e.2)) updates⟩

def bucketRange (startBucket endBucket : ℕ) : SaltKey × SaltKey :=
  (SaltKey.ofPair startBucket 0, SaltKey.ofPair endBucket bucketSlotIdMask)

def rebuildChunk (entries : SaltKey × SaltKey → Except Fault (List (SaltKey × SaltValue))) (chunkStart : ℕ) :
    Except Fault (TrieUpdates C) := do
  let chunkEnd := min numBuckets (chunkStart + metaBucketSize) - 1
  let metaEntries ← entries (bucketRange (chunkStart / metaBucketSize) (chunkEnd / metaBucketSize))
  let kvEntries ← entries (bucketRange chunkStart chunkEnd)
  let r ← expectOk "EmptySalt never returns errors"
    ((StateRoot.new (emptySalt K.defaults)).updateBucketSubtrees K threads (chunkUpdates metaEntries kvEntries))
  .ok r.2

def chunkStarts : List ℕ :=
  (List.range ((numBuckets - numMetaBuckets) / metaBucketSize)).map fun i ↦ numMetaBuckets + i * metaBucketSize

def rebuild (entries : SaltKey × SaltKey → Except Fault (List (SaltKey × SaltValue))) :
    Except Fault (F × TrieUpdates C) := do
  let allTrieUpdates ← chunkStarts.mapM (rebuildChunk K threads entries)
  expectOk "EmptySalt never returns errors"
    ((StateRoot.new (emptySalt K.defaults)).updateMainTrie K threads allTrieUpdates.flatten mainTrieLevels)

end Rebuild

end StateRoot

def MemStore.updateTrie {C : Type} (s : MemStore C) (updates : TrieUpdates C) : MemStore C :=
  { s with trie := updates.foldl (fun m e ↦ m.insert e.1 e.2.2) s.trie }

end Salt
