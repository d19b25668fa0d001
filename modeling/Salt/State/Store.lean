import Salt.State.Updates

namespace Salt

open Std (ExtTreeMap)

structure StateReader where
  value : SaltKey → Except Fault (Option SaltValue)
  metadata : ℕ → Except Fault BucketMeta
  bucketUsedSlots : ℕ → Except Fault ℕ
  plainValueFast : Bytes → Except Fault SaltKey
  getSubtreeLevels : ℕ → Except Fault ℕ

structure StateStore where
  kvs : ExtTreeMap SaltKey SaltValue
  usedSlots : ExtTreeMap ℕ ℕ

/-- The loop of `subtree_root_level`, from the deepest level upwards: one level per rounding-up
division by 256; moving above level 0 underflows. -/
def subtreeRootLevelLoop : ℕ → ℕ → Except Fault ℕ
  | 0, capacity => if capacity > minBucketSize then .error (.panic .underflow) else .ok 0
  | level + 1, capacity =>
    if capacity > minBucketSize then
      subtreeRootLevelLoop level ((capacity + minBucketSize - 1) / 256)
    else .ok (level + 1)

def subtreeRootLevel (capacity : ℕ) : Except Fault ℕ :=
  subtreeRootLevelLoop (maxSubtreeLevels - 1) capacity

namespace StateStore

def empty : StateStore := ⟨∅, ∅⟩

/-- Applies one recorded change: the used-slot count of a data bucket first, then the entry. -/
def updateEntry (s : StateStore) (key : SaltKey) (oldValue newValue : Option SaltValue) :
    StateStore where
  usedSlots :=
    if key.isInMetaBucket then s.usedSlots
    else
      match oldValue.isSome, newValue.isSome with
      | false, true =>
        s.usedSlots.insert key.bucketId ((s.usedSlots[key.bucketId]?).getD 0 + 1)
      | true, false =>
        match s.usedSlots[key.bucketId]? with
        | some count => s.usedSlots.insert key.bucketId (count - 1)
        | none => s.usedSlots
      | _, _ => s.usedSlots
  kvs :=
    match newValue with
    | some v => s.kvs.insert key v
    | none => s.kvs.erase key

def updateState (s : StateStore) (updates : StateUpdates) : StateStore :=
  updates.data.toList.foldl (fun s e ↦ s.updateEntry e.1 e.2.1 e.2.2) s

def metadata (s : StateStore) (bucketId : ℕ) : Except Fault BucketMeta := do
  let key ← bucketMetadataKey bucketId
  let meta' ← match s.kvs[key]? with
    | some v => BucketMeta.tryFrom v
    | none => .ok BucketMeta.default
  .ok { meta' with used := some ((s.usedSlots[bucketId]?).getD 0) }

def getSubtreeLevels (s : StateStore) (bucketId : ℕ) : Except Fault ℕ := do
  if bucketId < numMetaBuckets then .ok 1
  else
    let meta' ← s.metadata bucketId
    let rootLevel ← subtreeRootLevel meta'.capacity
    .ok (maxSubtreeLevels - rootLevel)

def reader (s : StateStore) : StateReader where
  value key := .ok s.kvs[key]?
  metadata := s.metadata
  bucketUsedSlots b :=
    if isValidDataBucket b then .ok ((s.usedSlots[b]?).getD 0) else .ok 0
  plainValueFast _ := .error (.err (.unsupportedOperation "MemStore::plain_value_fast"))
  getSubtreeLevels := s.getSubtreeLevels

end StateStore

end Salt
