import Salt.State.Store
import Salt.Library.ProbeRing

namespace Salt

open Std (ExtTreeMap)
open Library.ProbeRing (probe rank)

structure Hasher where
  hashWithNonce : Bytes → UInt32 → ℕ
  bucketId : Bytes → ℕ
  bucketId_data : ∀ k, isValidDataBucket (bucketId k) = true

structure EphemeralSaltState where
  store : StateReader
  cache : ExtTreeMap SaltKey (Option SaltValue)
  usageCountDelta : ExtTreeMap ℕ ℤ
  rehashedBuckets : List ℕ
  cacheRead : Bool

/-- The `while` loop of `compute_resize_capacity`, with a bound on its number of rounds. -/
def resizeLoop : ℕ → ℕ → ℕ → Except Fault ℕ
  | 0, _, _ => .error (.panic .diverges)
  | fuel + 1, capacity, used =>
    if used * 100 > capacity * bucketResizeLoadFactorPct then
      resizeLoop fuel (capacity * bucketResizeMultiplier) used
    else .ok capacity

def computeResizeCapacity (capacity used : ℕ) : Except Fault ℕ :=
  resizeLoop (used + 2) capacity used

def shiSearchLoop {σ : Type} (getValue : σ → SaltKey → Except Fault (σ × Option SaltValue))
    (bucketId hashedKey capacity : ℕ) (plainKey : Bytes) :
    ℕ → ℕ → σ → Except Fault (σ × Option (ℕ × SaltValue))
  | 0, _, s => .ok (s, none)
  | n + 1, step, s => do
    let slot := probe hashedKey step capacity
    let (s, entry) ← getValue s (SaltKey.ofPair bucketId slot)
    match entry with
    | some saltVal =>
      if saltVal.key < plainKey then .ok (s, none)
      else if saltVal.key = plainKey then .ok (s, some (slot, saltVal))
      else shiSearchLoop getValue bucketId hashedKey capacity plainKey n (step + 1) s
    | none => .ok (s, none)

def shiSearch {σ : Type} (H : Hasher)
    (getValue : σ → SaltKey → Except Fault (σ × Option SaltValue)) (bucketId : ℕ) (nonce : UInt32)
    (capacity : ℕ) (plainKey : Bytes) (s : σ) : Except Fault (σ × Option (ℕ × SaltValue)) :=
  shiSearchLoop getValue bucketId (H.hashWithNonce plainKey nonce) capacity plainKey capacity 0 s

namespace EphemeralSaltState

def new (store : StateReader) : EphemeralSaltState := ⟨store, ∅, ∅, [], false⟩

def withCacheRead (st : EphemeralSaltState) : EphemeralSaltState := { st with cacheRead := true }

def value (st : EphemeralSaltState) (key : SaltKey) :
    Except Fault (EphemeralSaltState × Option SaltValue) :=
  match st.cache[key]? with
  | some v => .ok (st, v)
  | none => do
    let v ← st.store.value key
    .ok (if st.cacheRead then { st with cache := st.cache.insert key v } else st, v)

def usageCount (st : EphemeralSaltState) (bucketId : ℕ) : Except Fault ℕ := do
  let baseCount ← st.store.bucketUsedSlots bucketId
  let result : ℤ := baseCount + (st.usageCountDelta[bucketId]?).getD 0
  if result < 0 then .error (.panic .usageCountNegative) else .ok result.toNat

def shapeOf (st : EphemeralSaltState) (bucketId : ℕ) :
    Except Fault (EphemeralSaltState × BucketMeta) := do
  let metadataKey ← bucketMetadataKey bucketId
  match st.cache[metadataKey]? with
  | some (some v) =>
    match BucketMeta.tryFrom v with
    | .ok m => .ok (st, m)
    | .error _ => .error (.panic .metadataDecode)
  | some none => .ok (st, BucketMeta.default)
  | none =>
    let m ← st.store.metadata bucketId
    let entry := if m.isDefault then none else some (SaltValue.ofMeta m)
    .ok (if st.cacheRead then { st with cache := st.cache.insert metadataKey entry } else st, m)

/-- The metadata of a bucket; the usage count is read only when asked for. -/
def metadata (st : EphemeralSaltState) (bucketId : ℕ) (needUsed : Bool) :
    Except Fault (EphemeralSaltState × BucketMeta) := do
  let (st, meta') ← st.shapeOf bucketId
  if needUsed then
    let used ← st.usageCount bucketId
    .ok (st, { meta' with used := some used })
  else .ok (st, { meta' with used := none })

def shiFind (H : Hasher) (st : EphemeralSaltState) (bucketId : ℕ) (nonce : UInt32) (capacity : ℕ)
    (plainKey : Bytes) : Except Fault (EphemeralSaltState × Option (ℕ × SaltValue)) :=
  shiSearch H EphemeralSaltState.value bucketId nonce capacity plainKey st

def directFind (st : EphemeralSaltState) (plainKey : Bytes) :
    Except Fault (EphemeralSaltState × Option (SaltKey × SaltValue)) := do
  match ← attempt (st.store.plainValueFast plainKey) with
  | some saltKey =>
    let (st, entry) ← st.value saltKey
    match entry with
    | some saltVal =>
      if saltVal.key = plainKey then .ok (st, some (saltKey, saltVal)) else .ok (st, none)
    | none => .ok (st, none)
  | none => .ok (st, none)

/-- `if let Ok(Some(..)) = self.direct_find(..)`: a failed read leaves the state as it was. -/
def tryDirectFind (st : EphemeralSaltState) (plainKey : Bytes) :
    Except Fault (EphemeralSaltState × Option (SaltKey × SaltValue)) := do
  match ← attempt (st.directFind plainKey) with
  | some r => .ok r
  | none => .ok (st, none)

def find (H : Hasher) (st : EphemeralSaltState) (plainKey : Bytes) :
    Except Fault (EphemeralSaltState × Option (SaltKey × SaltValue)) := do
  let (st, direct) ← st.tryDirectFind plainKey
  match direct with
  | some r => .ok (st, some r)
  | none =>
    let bucketId := H.bucketId plainKey
    let (st, meta') ← st.metadata bucketId false
    let (st, found) ← st.shiFind H bucketId meta'.nonce meta'.capacity plainKey
    match found with
    | some (slot, saltVal) => .ok (st, some (SaltKey.ofPair bucketId slot, saltVal))
    | none => .ok (st, none)

def plainValue (H : Hasher) (st : EphemeralSaltState) (plainKey : Bytes) :
    Except Fault (EphemeralSaltState × Option Bytes) := do
  let (st, found) ← st.find H plainKey
  .ok (st, found.map fun r ↦ r.2.value)

/-- Records a change in the cache, the usage delta and the updates; equal values change nothing. -/
def updateValue (st : EphemeralSaltState) (out : StateUpdates) (key : SaltKey)
    (oldValue newValue : Option SaltValue) : Except Fault (EphemeralSaltState × StateUpdates) :=
  if oldValue = newValue then .ok (st, out)
  else do
    let delta : ℤ := newValue.isSome.toNat - oldValue.isSome.toNat
    let usageCountDelta :=
      if delta = 0 then st.usageCountDelta
      else st.usageCountDelta.insert key.bucketId
        ((st.usageCountDelta[key.bucketId]?).getD 0 + delta)
    let out ← out.add key oldValue newValue
    .ok ({ st with usageCountDelta, cache := st.cache.insert key newValue }, out)

inductive Probed
  | updated
  | inserted
  | exhausted (displaced : SaltValue)

/-- The probe loop: update in place, displace a smaller key and carry it on, or fill a free slot. -/
def shiUpsertLoop (bucketId hashedKey capacity : ℕ) :
    ℕ → ℕ → SaltValue → EphemeralSaltState → StateUpdates →
      Except Fault (Probed × EphemeralSaltState × StateUpdates)
  | 0, _, newSaltVal, st, out => .ok (.exhausted newSaltVal, st, out)
  | n + 1, step, newSaltVal, st, out => do
    let saltKey := SaltKey.ofPair bucketId (probe hashedKey step capacity)
    let (st, entry) ← st.value saltKey
    match entry with
    | some oldSaltVal =>
      if oldSaltVal.key = newSaltVal.key then
        let (st, out) ← st.updateValue out saltKey (some oldSaltVal) (some newSaltVal)
        .ok (.updated, st, out)
      else if oldSaltVal.key < newSaltVal.key then
        let (st, out) ← st.updateValue out saltKey (some oldSaltVal) (some newSaltVal)
        shiUpsertLoop bucketId hashedKey capacity n (step + 1) oldSaltVal st out
      else shiUpsertLoop bucketId hashedKey capacity n (step + 1) newSaltVal st out
    | none =>
      let (st, out) ← st.updateValue out saltKey none (some newSaltVal)
      .ok (.inserted, st, out)

def readBucket (st : EphemeralSaltState) (bucketId capacity : ℕ) :
    Except Fault (EphemeralSaltState × ExtTreeMap SaltKey SaltValue) :=
  (List.range capacity).foldlM (fun (acc : EphemeralSaltState × ExtTreeMap SaltKey SaltValue) slot ↦ do
    let saltKey := SaltKey.ofPair bucketId slot
    let (st, entry) ← acc.1.value saltKey
    match entry with
    | some saltVal => .ok (st, acc.2.insert saltKey saltVal)
    | none => .ok (st, acc.2)) (st, ∅)

def placeEntry (bucketId hashedKey newCapacity : ℕ) (saltVal : SaltValue) :
    ℕ → ℕ → ExtTreeMap SaltKey SaltValue → ExtTreeMap SaltKey SaltValue
  | 0, _, newBucket => newBucket
  | n + 1, step, newBucket =>
    let saltKey := SaltKey.ofPair bucketId (probe hashedKey step newCapacity)
    match newBucket[saltKey]? with
    | none => newBucket.insert saltKey saltVal
    | some _ => placeEntry bucketId hashedKey newCapacity saltVal n (step + 1) newBucket

def reinsert (H : Hasher) (bucketId : ℕ) (newNonce : UInt32) (newCapacity : ℕ)
    (pairs : List (Bytes × Bytes)) : Except Fault (ExtTreeMap SaltKey SaltValue) :=
  pairs.foldlM (fun newBucket p ↦ do
    let saltVal ← SaltValue.new p.1 p.2
    .ok (placeEntry bucketId (H.hashWithNonce p.1 newNonce) newCapacity saltVal newCapacity 0
      newBucket)) ∅

def recordRehash (st : EphemeralSaltState) (bucketId oldCapacity newCapacity : ℕ)
    (oldBucket newBucket : ExtTreeMap SaltKey SaltValue) (out : StateUpdates) :
    Except Fault (EphemeralSaltState × StateUpdates) :=
  (List.range (max oldCapacity newCapacity)).foldlM
    (fun (acc : EphemeralSaltState × StateUpdates) slot ↦ do
      let saltKey := SaltKey.ofPair bucketId slot
      let oldValue := if slot < oldCapacity then oldBucket[saltKey]? else none
      let newValue := if slot < newCapacity then newBucket[saltKey]? else none
      let st := if oldValue ≠ newValue ∨ oldCapacity ≤ slot then
          { acc.1 with cache := acc.1.cache.insert saltKey newValue }
        else acc.1
      if oldValue ≠ newValue ∧ (oldValue.isSome ∨ newValue.isSome) then
        let out ← acc.2.add saltKey oldValue newValue
        .ok (st, out)
      else .ok (st, acc.2)) (st, out)

def insertRehashed (st : EphemeralSaltState) (bucketId : ℕ) : EphemeralSaltState :=
  if bucketId ∈ st.rehashedBuckets then st
  else { st with rehashedBuckets := bucketId :: st.rehashedBuckets }

theorem mem_insertRehashed {st : EphemeralSaltState} {b : ℕ} (b' : ℕ) :
    b' ∈ (st.insertRehashed b).rehashedBuckets ↔ b' = b ∨ b' ∈ st.rehashedBuckets := by
  unfold insertRehashed
  split
  · rename_i hb
    exact ⟨.inr, fun h ↦ h.elim (fun he ↦ he ▸ hb) id⟩
  · exact List.mem_cons

/-- Rebuilds a bucket for a new nonce and capacity; a capacity too small for the stored entries
changes nothing. -/
def shiRehash (H : Hasher) (st : EphemeralSaltState) (bucketId : ℕ) (newNonce : UInt32)
    (newCapacity : ℕ) (out : StateUpdates) : Except Fault (EphemeralSaltState × StateUpdates) := do
  if newCapacity > bucketSlotIdMask then .error (.panic (.exceedsMaxBucketCapacity newCapacity))
  else
    let (st, oldMetadata) ← st.metadata bucketId true
    let (st, oldBucket) ← st.readBucket bucketId oldMetadata.capacity
    if newCapacity < oldBucket.size then .ok (st, out)
    else
      let plainKvPairs : BytesMap Bytes := oldBucket.toList.foldl
        (fun m e ↦ m.insert e.2.key e.2.value) ∅
      let newBucket ← reinsert H bucketId newNonce newCapacity plainKvPairs.toList.reverse
      let (st, out) ← st.recordRehash bucketId oldMetadata.capacity newCapacity oldBucket newBucket out
      let newMetadata : BucketMeta := { oldMetadata with nonce := newNonce, capacity := newCapacity }
      let metadataKey ← bucketMetadataKey bucketId
      let (st, out) ← st.updateValue out metadataKey (some (SaltValue.ofMeta oldMetadata))
        (some (SaltValue.ofMeta newMetadata))
      .ok (st.insertRehashed bucketId, out)

/-- Inserts or updates a pair; `fuel` bounds the depth of the recursion after forced expansions. -/
def shiUpsert (H : Hasher) : ℕ → EphemeralSaltState → ℕ → Bytes → Bytes → StateUpdates →
    Except Fault (EphemeralSaltState × StateUpdates)
  | 0, _, _, _, _, _ => .error (.panic .diverges)
  | fuel + 1, st, bucketId, plainKey, plainVal, out => do
    let newSaltVal ← SaltValue.new plainKey plainVal
    let (st, direct) ← st.tryDirectFind plainKey
    match direct with
    | some (saltKey, oldSaltVal) =>
      st.updateValue out saltKey (some oldSaltVal) (some newSaltVal)
    | none =>
      let (st, meta') ← st.metadata bucketId false
      let hashedKey := H.hashWithNonce plainKey meta'.nonce
      let (probed, st, out) ←
        shiUpsertLoop bucketId hashedKey meta'.capacity meta'.capacity 0 newSaltVal st out
      match probed with
      | .updated => .ok (st, out)
      | .inserted =>
        match ← attempt (st.usageCount bucketId) with
        | some used =>
          if used > meta'.capacity * bucketResizeLoadFactorPct / 100 then
            let newCapacity ← computeResizeCapacity meta'.capacity used
            st.shiRehash H bucketId meta'.nonce newCapacity out
          else .ok (st, out)
        -- the usage count is unavailable: no resize
        | none => .ok (st, out)
      | .exhausted displaced =>
        let newCapacity ← computeResizeCapacity meta'.capacity meta'.capacity
        let (st, out) ← st.shiRehash H bucketId meta'.nonce newCapacity out
        shiUpsert H fuel st bucketId displaced.key displaced.value out

def shiNextLoop (H : Hasher) (bucketId delSlot : ℕ) (nonce : UInt32) (capacity : ℕ) :
    ℕ → ℕ → EphemeralSaltState → Except Fault (EphemeralSaltState × Option (ℕ × SaltValue))
  | 0, _, st => .ok (st, none)
  | n + 1, i, st => do
    let nextSlot := probe delSlot i capacity
    let (st, entry) ← st.value (SaltKey.ofPair bucketId nextSlot)
    match entry with
    | some saltVal =>
      let idealSlot := H.hashWithNonce saltVal.key nonce
      if rank idealSlot nextSlot capacity > rank idealSlot delSlot capacity then
        .ok (st, some (nextSlot, saltVal))
      else shiNextLoop H bucketId delSlot nonce capacity n (i + 1) st
    | none => .ok (st, none)

def shiNext (H : Hasher) (st : EphemeralSaltState) (bucketId delSlot : ℕ) (nonce : UInt32)
    (capacity : ℕ) : Except Fault (EphemeralSaltState × Option (ℕ × SaltValue)) :=
  shiNextLoop H bucketId delSlot nonce capacity (capacity - 1) 1 st

/-- The compaction loop of `shi_delete`, with a bound on its number of rounds. -/
def shiDeleteLoop (H : Hasher) (bucketId : ℕ) (nonce : UInt32) (capacity : ℕ) :
    ℕ → ℕ → SaltValue → EphemeralSaltState → StateUpdates →
      Except Fault (EphemeralSaltState × StateUpdates)
  | 0, _, _, _, _ => .error (.panic .diverges)
  | n + 1, delSlot, delValue, st, out => do
    let (st, suitable) ← st.shiNext H bucketId delSlot nonce capacity
    let saltKey := SaltKey.ofPair bucketId delSlot
    match suitable with
    | some (slot, saltValue) =>
      let (st, out) ← st.updateValue out saltKey (some delValue) (some saltValue)
      shiDeleteLoop H bucketId nonce capacity n slot saltValue st out
    | none => st.updateValue out saltKey (some delValue) none

/-- `capacity * capacity` rounds are more than the compaction can take in any bucket. -/
def shiDelete (H : Hasher) (st : EphemeralSaltState) (bucketId : ℕ) (key : Bytes)
    (out : StateUpdates) : Except Fault (EphemeralSaltState × StateUpdates) := do
  let (st, meta') ← st.metadata bucketId false
  let (st, found) ← st.shiFind H bucketId meta'.nonce meta'.capacity key
  match found with
  | some (slot, saltVal) =>
    shiDeleteLoop H bucketId meta'.nonce meta'.capacity (meta'.capacity * meta'.capacity) slot saltVal st out
  | none => .ok (st, out)

def updateFrom (H : Hasher) (fuel : ℕ) (kvs : List (Bytes × Option Bytes))
    (start : EphemeralSaltState × StateUpdates) : Except Fault (EphemeralSaltState × StateUpdates) :=
  kvs.foldlM (fun acc kv ↦
    match kv.2 with
    | some plainVal => acc.1.shiUpsert H fuel (H.bucketId kv.1) kv.1 plainVal acc.2
    | none => acc.1.shiDelete H (H.bucketId kv.1) kv.1 acc.2) start

def update (H : Hasher) (fuel : ℕ) (st : EphemeralSaltState) (kvs : List (Bytes × Option Bytes)) :
    Except Fault (EphemeralSaltState × StateUpdates) :=
  updateFrom H fuel kvs (st, .empty)

def drainBucket (st : EphemeralSaltState) (bucketId capacity : ℕ) (updates : StateUpdates) :
    Except Fault (EphemeralSaltState × StateUpdates × List SaltValue) :=
  (List.range capacity).foldlM
    (fun (acc : EphemeralSaltState × StateUpdates × List SaltValue) slot ↦ do
      let saltKey := SaltKey.ofPair bucketId slot
      let (st, entry) ← acc.1.value saltKey
      match entry with
      | some v =>
        let updates ← acc.2.1.add saltKey (some v) none
        .ok ({ st with cache := st.cache.insert saltKey none }, updates, acc.2.2 ++ [v])
      | none => .ok (st, acc.2.1, acc.2.2)) (st, updates, [])

def canonicalizeBucket (H : Hasher) (fuel : ℕ) (st : EphemeralSaltState) (updates : StateUpdates)
    (bucketId : ℕ) : Except Fault (EphemeralSaltState × StateUpdates) := do
  let (st, oldMetadata) ← st.metadata bucketId false
  let (st, updates, kvPairs) ← st.drainBucket bucketId oldMetadata.capacity updates
  let metadataKey ← bucketMetadataKey bucketId
  let st := { st with cache := st.cache.erase metadataKey }
  let (st, newMetadata) ← st.metadata bucketId false
  let updates ← updates.add metadataKey (some (SaltValue.ofMeta oldMetadata))
    (some (SaltValue.ofMeta newMetadata))
  let delta : ℤ := (st.usageCountDelta[bucketId]?).getD 0 - kvPairs.length
  let st := { st with usageCountDelta := st.usageCountDelta.insert bucketId delta }
  kvPairs.foldlM (fun (acc : EphemeralSaltState × StateUpdates) v ↦
    acc.1.shiUpsert H fuel bucketId v.key v.value acc.2) (st, updates)

/-- Reverts premature expansions. `order` is the iteration order of the set of rehashed buckets. -/
def canonicalize (H : Hasher) (fuel : ℕ) (order : List ℕ → List ℕ) (st : EphemeralSaltState) :
    Except Fault (EphemeralSaltState × StateUpdates) := do
  let (st, updates) ← (order st.rehashedBuckets).foldlM
    (fun (acc : EphemeralSaltState × StateUpdates) b ↦ acc.1.canonicalizeBucket H fuel acc.2 b)
    ({ st with rehashedBuckets := [] }, .empty)
  .ok ({ st with rehashedBuckets := [] }, updates)

def updateFin (H : Hasher) (fuel : ℕ) (order : List ℕ → List ℕ) (st : EphemeralSaltState)
    (kvs : List (Bytes × Option Bytes)) : Except Fault (EphemeralSaltState × StateUpdates) := do
  let (st, updates) ← st.update H fuel kvs
  let (st, canonical) ← st.canonicalize H fuel order
  let updates ← updates.merge canonical
  .ok (st, updates)

def setNonce (H : Hasher) (st : EphemeralSaltState) (bucketId : ℕ) (newNonce : UInt32) :
    Except Fault (EphemeralSaltState × StateUpdates) := do
  let (st, meta') ← st.metadata bucketId false
  st.shiRehash H bucketId newNonce meta'.capacity .empty

end EphemeralSaltState

end Salt
