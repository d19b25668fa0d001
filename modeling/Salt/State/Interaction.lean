import Salt.State.Ephemeral
import Salt.Library.Commands

namespace Salt

open Std (ExtTreeMap)
open Library.Commands
open Library.ProbeRing (probe rank)

/-- What an operation of a session does to its fields and to the updates it collects. -/
inductive SessionCommand
  | value (key : SaltKey)
  | shapeOf (bucketId : ℕ)
  | usageCount (bucketId : ℕ)
  | plainValueFast (plainKey : Bytes)
  | updateValue (key : SaltKey) (oldValue newValue : Option SaltValue)
  | cacheInsert (key : SaltKey) (newValue : Option SaltValue)
  | cacheRemove (key : SaltKey)
  | add (key : SaltKey) (oldValue newValue : Option SaltValue)
  | lowerUsage (bucketId count : ℕ)
  | insertRehashed (bucketId : ℕ)
  | takeRehashed
  | clearRehashed
  | replaceUpdates (updates : StateUpdates)

@[reducible]
def SessionCommand.Answer : SessionCommand → Type
  | .value _ => Except Fault (Option SaltValue)
  | .shapeOf _ => Except Fault BucketMeta
  | .usageCount _ => Except Fault ℕ
  | .plainValueFast _ => Except Fault SaltKey
  | .updateValue _ _ _ => Except Fault Unit
  | .cacheInsert _ _ => Unit
  | .cacheRemove _ => Unit
  | .add _ _ _ => Except Fault Unit
  | .lowerUsage _ _ => Unit
  | .insertRehashed _ => Unit
  | .takeRehashed => List ℕ
  | .clearRehashed => Unit
  | .replaceUpdates _ => StateUpdates

abbrev SessionProgram (α : Type) : Type := Program SessionCommand.Answer Fault α

abbrev OpenSession : Type := EphemeralSaltState × StateUpdates

def orKeep {α : Type} (s : OpenSession) (out : StateUpdates) :
    Except Fault (EphemeralSaltState × α) → Except Fault α × OpenSession
  | .ok (st, a) => (.ok a, (st, out))
  | .error e => (.error e, s)

def recordValue (s : OpenSession) (key : SaltKey) (oldValue newValue : Option SaltValue) :
    Except Fault Unit × OpenSession :=
  if oldValue = newValue then (.ok (), s)
  else
    let delta : ℤ := newValue.isSome.toNat - oldValue.isSome.toNat
    let usageCountDelta :=
      if delta = 0 then s.1.usageCountDelta
      else s.1.usageCountDelta.insert key.bucketId ((s.1.usageCountDelta[key.bucketId]?).getD 0 + delta)
    let st := { s.1 with usageCountDelta }
    match s.2.add key oldValue newValue with
    | .ok out => (.ok (), ({ st with cache := st.cache.insert key newValue }, out))
    | .error e => (.error e, (st, s.2))

def recordChange (s : OpenSession) (key : SaltKey) (oldValue newValue : Option SaltValue) :
    Except Fault Unit × OpenSession :=
  match s.2.add key oldValue newValue with
  | .ok out => (.ok (), (s.1, out))
  | .error e => (.error e, s)

def handle : (c : SessionCommand) → OpenSession → c.Answer × OpenSession
  | .value key, s => orKeep s s.2 (s.1.value key)
  -- the number of used slots that the store may send along is never looked at
  | .shapeOf bucketId, s =>
    orKeep s s.2 (s.1.shapeOf bucketId >>= fun r ↦ .ok (r.1, { r.2 with used := none }))
  | .usageCount bucketId, s => (s.1.usageCount bucketId, s)
  | .plainValueFast plainKey, s => (s.1.store.plainValueFast plainKey, s)
  | .updateValue key oldValue newValue, s => recordValue s key oldValue newValue
  | .cacheInsert key newValue, s => ((), ({ s.1 with cache := s.1.cache.insert key newValue }, s.2))
  | .cacheRemove key, s => ((), ({ s.1 with cache := s.1.cache.erase key }, s.2))
  | .add key oldValue newValue, s => recordChange s key oldValue newValue
  | .lowerUsage bucketId count, s =>
    let delta : ℤ := (s.1.usageCountDelta[bucketId]?).getD 0 - count
    ((), ({ s.1 with usageCountDelta := s.1.usageCountDelta.insert bucketId delta }, s.2))
  | .insertRehashed bucketId, s => ((), (s.1.insertRehashed bucketId, s.2))
  | .takeRehashed, s => (s.1.rehashedBuckets, ({ s.1 with rehashedBuckets := [] }, s.2))
  | .clearRehashed, s => ((), ({ s.1 with rehashedBuckets := [] }, s.2))
  | .replaceUpdates updates, s => (s.2, (s.1, updates))

namespace Interaction

open Program (ofExcept issue)

/-- `Ok` as an option, `Err` as none of it; a panic stays one. -/
def attempted {α : Type} : Except Fault α → SessionProgram (Option α)
  | .ok a => .pure (some a)
  | .error (.err _) => .pure none
  | .error (.panic p) => .fail (.panic p)

def value (key : SaltKey) : SessionProgram (Option SaltValue) :=
  issue (.value key) ofExcept

def usageCount (bucketId : ℕ) : SessionProgram ℕ := issue (.usageCount bucketId) ofExcept

def updateValue (key : SaltKey) (oldValue newValue : Option SaltValue) : SessionProgram Unit :=
  issue (.updateValue key oldValue newValue) ofExcept

def cacheInsert (key : SaltKey) (newValue : Option SaltValue) : SessionProgram Unit :=
  issue (.cacheInsert key newValue) .pure

def add (key : SaltKey) (oldValue newValue : Option SaltValue) : SessionProgram Unit :=
  issue (.add key oldValue newValue) ofExcept

def replaceUpdates (updates : StateUpdates) : SessionProgram StateUpdates :=
  issue (.replaceUpdates updates) .pure

def metadata (bucketId : ℕ) (needUsed : Bool) : SessionProgram BucketMeta :=
  issue (.shapeOf bucketId) fun r ↦ do
    let meta' ← ofExcept r
    if needUsed then
      let used ← usageCount bucketId
      pure { meta' with used := some used }
    else pure meta'

def shiSearchLoop (bucketId hashedKey capacity : ℕ) (plainKey : Bytes) :
    ℕ → ℕ → SessionProgram (Option (ℕ × SaltValue))
  | 0, _ => pure none
  | n + 1, step => do
    let slot := probe hashedKey step capacity
    match ← value (SaltKey.ofPair bucketId slot) with
    | some saltVal =>
      if saltVal.key < plainKey then pure none
      else if saltVal.key = plainKey then pure (some (slot, saltVal))
      else shiSearchLoop bucketId hashedKey capacity plainKey n (step + 1)
    | none => pure none

def shiFind (H : Hasher) (bucketId : ℕ) (nonce : UInt32) (capacity : ℕ) (plainKey : Bytes) :
    SessionProgram (Option (ℕ × SaltValue)) :=
  shiSearchLoop bucketId (H.hashWithNonce plainKey nonce) capacity plainKey capacity 0

def tryDirectFind (plainKey : Bytes) : SessionProgram (Option (SaltKey × SaltValue)) :=
  issue (.plainValueFast plainKey) fun r ↦ do
    match ← attempted r with
    | none => pure none
    | some saltKey =>
      issue (.value saltKey) fun r ↦ do
        match ← attempted r with
        | some (some saltVal) => if saltVal.key = plainKey then pure (some (saltKey, saltVal)) else pure none
        | _ => pure none

def find (H : Hasher) (plainKey : Bytes) : SessionProgram (Option (SaltKey × SaltValue)) := do
  match ← tryDirectFind plainKey with
  | some r => pure (some r)
  | none =>
    let bucketId := H.bucketId plainKey
    let meta' ← metadata bucketId false
    let found ← shiFind H bucketId meta'.nonce meta'.capacity plainKey
    pure (found.map fun r ↦ (SaltKey.ofPair bucketId r.1, r.2))

def plainValue (H : Hasher) (plainKey : Bytes) : SessionProgram (Option Bytes) := do
  let found ← find H plainKey
  pure (found.map fun r ↦ r.2.value)

open EphemeralSaltState (Probed reinsert)

def shiUpsertLoop (bucketId hashedKey capacity : ℕ) : ℕ → ℕ → SaltValue → SessionProgram Probed
  | 0, _, newSaltVal => pure (.exhausted newSaltVal)
  | n + 1, step, newSaltVal => do
    let saltKey := SaltKey.ofPair bucketId (probe hashedKey step capacity)
    match ← value saltKey with
    | some oldSaltVal =>
      if oldSaltVal.key = newSaltVal.key then
        updateValue saltKey (some oldSaltVal) (some newSaltVal)
        pure .updated
      else if oldSaltVal.key < newSaltVal.key then
        updateValue saltKey (some oldSaltVal) (some newSaltVal)
        shiUpsertLoop bucketId hashedKey capacity n (step + 1) oldSaltVal
      else shiUpsertLoop bucketId hashedKey capacity n (step + 1) newSaltVal
    | none =>
      updateValue saltKey none (some newSaltVal)
      pure .inserted

def readBucket (bucketId capacity : ℕ) : SessionProgram (ExtTreeMap SaltKey SaltValue) :=
  (List.range capacity).foldlM (fun (bucket : ExtTreeMap SaltKey SaltValue) slot ↦ do
    let saltKey := SaltKey.ofPair bucketId slot
    match ← value saltKey with
    | some saltVal => pure (bucket.insert saltKey saltVal)
    | none => pure bucket) ∅

def recordRehash (bucketId oldCapacity newCapacity : ℕ) (oldBucket newBucket : ExtTreeMap SaltKey SaltValue) :
    SessionProgram Unit :=
  (List.range (max oldCapacity newCapacity)).foldlM (fun _ slot ↦ do
    let saltKey := SaltKey.ofPair bucketId slot
    let oldValue := if slot < oldCapacity then oldBucket[saltKey]? else none
    let newValue := if slot < newCapacity then newBucket[saltKey]? else none
    if oldValue ≠ newValue ∨ oldCapacity ≤ slot then cacheInsert saltKey newValue
    if oldValue ≠ newValue ∧ (oldValue.isSome ∨ newValue.isSome) then add saltKey oldValue newValue) ()

def shiRehash (H : Hasher) (bucketId : ℕ) (newNonce : UInt32) (newCapacity : ℕ) : SessionProgram Unit :=
  if newCapacity > bucketSlotIdMask then .fail (.panic (.exceedsMaxBucketCapacity newCapacity))
  else do
    let oldMetadata ← metadata bucketId true
    let oldBucket ← readBucket bucketId oldMetadata.capacity
    if newCapacity < oldBucket.size then pure ()
    else
      let plainKvPairs : BytesMap Bytes := oldBucket.toList.foldl
        (fun m e ↦ m.insert e.2.key e.2.value) ∅
      let newBucket ← ofExcept (reinsert H bucketId newNonce newCapacity plainKvPairs.toList.reverse)
      recordRehash bucketId oldMetadata.capacity newCapacity oldBucket newBucket
      let newMetadata : BucketMeta := { oldMetadata with nonce := newNonce, capacity := newCapacity }
      let metadataKey ← ofExcept (bucketMetadataKey bucketId)
      updateValue metadataKey (some (SaltValue.ofMeta oldMetadata)) (some (SaltValue.ofMeta newMetadata))
      issue (.insertRehashed bucketId) .pure

def shiUpsert (H : Hasher) : ℕ → ℕ → Bytes → Bytes → SessionProgram Unit
  | 0, _, _, _ => .fail (.panic .diverges)
  | fuel + 1, bucketId, plainKey, plainVal => do
    let newSaltVal ← ofExcept (SaltValue.new plainKey plainVal)
    match ← tryDirectFind plainKey with
    | some (saltKey, oldSaltVal) => updateValue saltKey (some oldSaltVal) (some newSaltVal)
    | none =>
      let meta' ← metadata bucketId false
      let hashedKey := H.hashWithNonce plainKey meta'.nonce
      match ← shiUpsertLoop bucketId hashedKey meta'.capacity meta'.capacity 0 newSaltVal with
      | .updated => pure ()
      | .inserted =>
        issue (.usageCount bucketId) fun r ↦ do
          match ← attempted r with
          | some used =>
            if used > meta'.capacity * bucketResizeLoadFactorPct / 100 then
              let newCapacity ← ofExcept (computeResizeCapacity meta'.capacity used)
              shiRehash H bucketId meta'.nonce newCapacity
            else pure ()
          | none => pure ()
      | .exhausted displaced =>
        let newCapacity ← ofExcept (computeResizeCapacity meta'.capacity meta'.capacity)
        shiRehash H bucketId meta'.nonce newCapacity
        shiUpsert H fuel bucketId displaced.key displaced.value

def shiNextLoop (H : Hasher) (bucketId delSlot : ℕ) (nonce : UInt32) (capacity : ℕ) :
    ℕ → ℕ → SessionProgram (Option (ℕ × SaltValue))
  | 0, _ => pure none
  | n + 1, i => do
    let nextSlot := probe delSlot i capacity
    match ← value (SaltKey.ofPair bucketId nextSlot) with
    | some saltVal =>
      let idealSlot := H.hashWithNonce saltVal.key nonce
      if rank idealSlot nextSlot capacity > rank idealSlot delSlot capacity then pure (some (nextSlot, saltVal))
      else shiNextLoop H bucketId delSlot nonce capacity n (i + 1)
    | none => pure none

def shiNext (H : Hasher) (bucketId delSlot : ℕ) (nonce : UInt32) (capacity : ℕ) :
    SessionProgram (Option (ℕ × SaltValue)) :=
  shiNextLoop H bucketId delSlot nonce capacity (capacity - 1) 1

def shiDeleteLoop (H : Hasher) (bucketId : ℕ) (nonce : UInt32) (capacity : ℕ) :
    ℕ → ℕ → SaltValue → SessionProgram Unit
  | 0, _, _ => .fail (.panic .diverges)
  | n + 1, delSlot, delValue => do
    let suitable ← shiNext H bucketId delSlot nonce capacity
    let saltKey := SaltKey.ofPair bucketId delSlot
    match suitable with
    | some (slot, saltValue) =>
      updateValue saltKey (some delValue) (some saltValue)
      shiDeleteLoop H bucketId nonce capacity n slot saltValue
    | none => updateValue saltKey (some delValue) none

def shiDelete (H : Hasher) (bucketId : ℕ) (key : Bytes) : SessionProgram Unit := do
  let meta' ← metadata bucketId false
  match ← shiFind H bucketId meta'.nonce meta'.capacity key with
  | some (slot, saltVal) =>
    shiDeleteLoop H bucketId meta'.nonce meta'.capacity (meta'.capacity * meta'.capacity) slot saltVal
  | none => pure ()

def updateEach (H : Hasher) (fuel : ℕ) (kvs : List (Bytes × Option Bytes)) : SessionProgram Unit :=
  kvs.foldlM (fun _ kv ↦
    match kv.2 with
    | some plainVal => shiUpsert H fuel (H.bucketId kv.1) kv.1 plainVal
    | none => shiDelete H (H.bucketId kv.1) kv.1) ()

def update (H : Hasher) (fuel : ℕ) (kvs : List (Bytes × Option Bytes)) : SessionProgram StateUpdates := do
  let outer ← replaceUpdates .empty
  updateEach H fuel kvs
  replaceUpdates outer

def drainBucket (bucketId capacity : ℕ) : SessionProgram (List SaltValue) :=
  (List.range capacity).foldlM (fun (kvPairs : List SaltValue) slot ↦ do
    let saltKey := SaltKey.ofPair bucketId slot
    match ← value saltKey with
    | some v =>
      cacheInsert saltKey none
      add saltKey (some v) none
      pure (kvPairs ++ [v])
    | none => pure kvPairs) []

def canonicalizeBucket (H : Hasher) (fuel bucketId : ℕ) : SessionProgram Unit := do
  let oldMetadata ← metadata bucketId false
  let kvPairs ← drainBucket bucketId oldMetadata.capacity
  let metadataKey ← ofExcept (bucketMetadataKey bucketId)
  issue (.cacheRemove metadataKey) fun _ ↦ do
    let newMetadata ← metadata bucketId false
    add metadataKey (some (SaltValue.ofMeta oldMetadata)) (some (SaltValue.ofMeta newMetadata))
    issue (.lowerUsage bucketId kvPairs.length) fun _ ↦
      kvPairs.foldlM (fun _ v ↦ shiUpsert H fuel bucketId v.key v.value) ()

def canonicalize (H : Hasher) (fuel : ℕ) (order : List ℕ → List ℕ) : SessionProgram StateUpdates := do
  let outer ← replaceUpdates .empty
  issue .takeRehashed fun buckets ↦ do
    (order buckets).foldlM (fun _ b ↦ canonicalizeBucket H fuel b) ()
    issue .clearRehashed fun _ ↦ replaceUpdates outer

def updateFin (H : Hasher) (fuel : ℕ) (order : List ℕ → List ℕ) (kvs : List (Bytes × Option Bytes)) :
    SessionProgram StateUpdates := do
  let updates ← update H fuel kvs
  let canonical ← canonicalize H fuel order
  ofExcept (updates.merge canonical)

def shiRehashInto (H : Hasher) (bucketId : ℕ) (newNonce : UInt32) (newCapacity : ℕ) (out : StateUpdates) :
    SessionProgram StateUpdates := do
  let outer ← replaceUpdates out
  shiRehash H bucketId newNonce newCapacity
  replaceUpdates outer

def setNonce (H : Hasher) (bucketId : ℕ) (newNonce : UInt32) : SessionProgram StateUpdates := do
  let meta' ← metadata bucketId false
  shiRehashInto H bucketId newNonce meta'.capacity .empty

end Interaction

end Salt
