import Salt.State.History
import Salt.Proof.Prover

namespace Salt

open Std (ExtTreeMap)
open Library.OrderedTable Library.GreedyLayout Library.Triple
open EphemeralSaltState

/-- A subset of the state: `some none` is a slot witnessed as empty, `none` an unknown one. -/
structure SaltWitness (C : Type) where
  kvs : ExtTreeMap SaltKey (Option SaltValue)
  proof : SaltProof C

namespace SaltWitness

variable {C : Type}

def value (w : SaltWitness C) (key : SaltKey) : Except Fault (Option SaltValue) :=
  match w.kvs[key]? with
  | some v => .ok v
  | none => .error (.err (.notInWitness "Key"))

def metadata (w : SaltWitness C) (bucketId : ℕ) : Except Fault BucketMeta := do
  let metadataKey ← bucketMetadataKey bucketId
  match w.kvs[metadataKey]? with
  | some (some saltValue) =>
    match BucketMeta.tryFrom saltValue with
    | .ok m => .ok m
    | .error _ => .error (.err (.invalidFormat "Failed to decode metadata from SaltValue"))
  | some none => .error (.panic .metadataNone)
  | none => .error (.err (.notInWitness "Metadata"))

/-- Counts the occupied slots; a single unknown slot makes the count unavailable. -/
def bucketUsedSlots (w : SaltWitness C) (bucketId : ℕ) : Except Fault ℕ :=
  if isValidDataBucket bucketId then do
    let metadata ← w.metadata bucketId
    (List.range metadata.capacity).foldlM (fun usedCount slot ↦ do
      let v ← w.value (SaltKey.ofPair bucketId slot)
      .ok (if v.isSome then usedCount + 1 else usedCount)) 0
  else .ok 0

def getSubtreeLevels (w : SaltWitness C) (bucketId : ℕ) : Except Fault ℕ :=
  match w.proof.levels[bucketId]? with
  | some n => .ok n
  | none => .error (.err (.notInWitness "Bucket root"))

def commitment (w : SaltWitness C) (nodeId : ℕ) : Except Fault C :=
  match w.proof.parentsCommitments[nodeId]? with
  | some c => .ok c
  | none => .error (.err (.notInWitness "Trie node"))

def reader (w : SaltWitness C) : StateReader where
  value := w.value
  metadata := w.metadata
  bucketUsedSlots := w.bucketUsedSlots
  plainValueFast _ := .error (.err (.unsupportedOperation "SaltWitness::plain_value_fast"))
  getSubtreeLevels := w.getSubtreeLevels

end SaltWitness

/-- A witness with an index from plain keys to their slots. -/
structure Witness (C : Type) where
  directLookupTbl : BytesMap SaltKey
  saltWitness : SaltWitness C

namespace Witness

variable {C : Type}

def indexEntry (tbl : BytesMap SaltKey) (e : SaltKey × Option SaltValue) : BytesMap SaltKey :=
  if e.1.isInMetaBucket then tbl
  else
    match e.2 with
    | some saltValue => tbl.insert saltValue.key e.1
    | none => tbl

def ofSaltWitness (w : SaltWitness C) : Witness C where
  directLookupTbl := w.kvs.toList.foldl indexEntry ∅
  saltWitness := w

def plainValueFast (w : Witness C) (plainKey : Bytes) : Except Fault SaltKey :=
  match w.directLookupTbl[plainKey]? with
  | some saltKey => .ok saltKey
  | none => .error (.err (.notInWitness "Plain key"))

def reader (w : Witness C) : StateReader :=
  { w.saltWitness.reader with plainValueFast := w.plainValueFast }

theorem indexEntry_data {tbl : BytesMap SaltKey} (h : ∀ (k : Bytes) (sk : SaltKey),
    tbl[k]? = some sk → sk.isInMetaBucket = false) (e : SaltKey × Option SaltValue) {k : Bytes} {sk : SaltKey}
    (hk : (indexEntry tbl e)[k]? = some sk) : sk.isInMetaBucket = false := by
  unfold indexEntry at hk
  split at hk
  · exact h k sk hk
  · rename_i hm
    split at hk
    · rw [ExtTreeMap.getElem?_insert] at hk
      split at hk
      · cases hk
        simpa using hm
      · exact h k sk hk
    · exact h k sk hk

theorem ofSaltWitness_data (w : SaltWitness C) {k : Bytes} {sk : SaltKey}
    (hk : (ofSaltWitness w).directLookupTbl[k]? = some sk) : sk.isInMetaBucket = false := by
  have key : ∀ (l : List (SaltKey × Option SaltValue)) (tbl : BytesMap SaltKey),
      (∀ (k : Bytes) (sk : SaltKey), tbl[k]? = some sk → sk.isInMetaBucket = false) →
      ∀ (k : Bytes) (sk : SaltKey), (l.foldl indexEntry tbl)[k]? = some sk → sk.isInMetaBucket = false := by
    intro l
    induction l with
    | nil => exact fun _ h ↦ h
    | cons e l ih => exact fun tbl h ↦ ih _ fun _ _ ↦ indexEntry_data h e
  exact key _ ∅ (fun k sk h ↦ by simp at h) k sk hk

end Witness

/-- The witnessed entries are those of the store, metadata with its real value. -/
structure SubMap {C : Type} (w : SaltWitness C) (s : StateStore) : Prop where
  data : ∀ (k : SaltKey) (v : Option SaltValue), k.isInMetaBucket = false → w.kvs[k]? = some v → v = s.kvs[k]?
  metadata : ∀ b, isValidDataBucket b → ∀ v, w.kvs[metadataKey b]? = some v →
    v = some (SaltValue.ofMeta (metaAt s.content b))

theorem tryFrom_ofMeta_unused {m : BucketMeta} (h : m.capacity < 2 ^ 64) (hu : m.used = none) :
    BucketMeta.tryFrom (SaltValue.ofMeta m) = .ok m := by
  rw [BucketMeta.tryFrom_ofMeta h, ← hu]

theorem unused_eq {m m' : BucketMeta} (hu : m'.used = none) (h : m = m') :
    { m with used := none } = m' := by
  rw [h, ← hu]

def ReadError (e : Fault) : Prop := ∃ x, e = .err x

section Reads

variable {C : Type} {w : SaltWitness C} {s : StateStore} {H : Hasher} {M : Bytes → Option Bytes}
  {A : Fault → Prop}

theorem SubMap.value (h : SubMap w s) (hA : ∀ e, ReadError e → A e) {k : SaltKey}
    (hk : k.isInMetaBucket = false) : Sat (w.value k) A (fun v ↦ v = s.full.kv k) := by
  unfold SaltWitness.value
  cases hv : w.kvs[k]? with
  | none => exact Sat.error (hA _ ⟨_, rfl⟩)
  | some v => exact Sat.ok (h.data k v hk hv)

theorem SubMap.metadata_spec (h : SubMap w s) (hA : ∀ e, ReadError e → A e) {b : ℕ}
    (hb : isValidDataBucket b) : Sat (w.metadata b) A (fun m ↦ m = metaAt s.content b) := by
  rw [SaltWitness.metadata, bucketMetadataKey, if_pos hb, ok_bind]
  cases hv : w.kvs[metadataKey b]? with
  | none => exact Sat.error (hA _ ⟨_, rfl⟩)
  | some v =>
    obtain rfl := h.metadata b hb v hv
    have hm : (metaAt s.content b).capacity < 2 ^ 64 := (metaOf_bounds _).1
    have hu := metaAt_used s.content b
    generalize metaAt s.content b = m at hm hu ⊢
    simp only [tryFrom_ofMeta_unused hm hu]
    exact Sat.ok rfl

theorem SubMap.bucketUsedSlots (h : SubMap w s) (hs : StateStore.Canonical H M s)
    (hA : ∀ e, ReadError e → A e) {b : ℕ} (hb : isValidDataBucket b) :
    Sat (w.bucketUsedSlots b) A (fun n ↦ n = s.full.used b) := by
  have hcap := (hs.good b hb).capacity_lt
  rw [SaltWitness.bucketUsedSlots, if_pos hb, hs.used b hb, count]
  refine (h.metadata_spec hA hb).bind fun m hm ↦ ?_
  subst hm
  refine Sat.foldlM_range (fun i n ↦ n = (occupied i (slots s.content b)).card) _ 0 rfl ?_
  rintro i hi n rfl
  have hi' : i < 2 ^ 40 := hi.trans hcap
  have hk := ofPair_not_inMeta hb hi'
  refine (h.value hA hk).bind fun v hv ↦ Sat.ok ?_
  have hslot : v = slots s.content b i := by
    rw [slots_eq hi', StateStore.content, normalize_data hk, hv]
  rw [← length_entries, ← length_entries, entries_succ, List.length_append, ← hslot]
  cases v <;> rfl

theorem SubMap.reads (h : SubMap w s) (hs : StateStore.Canonical H M s)
    (hA : ∀ e, ReadError e → A e) {rd : StateReader} (hrd : rd = w.reader ∨
      rd = (Witness.ofSaltWitness w).reader) : Reads rd s.full A := by
  have hbase : ∀ f, (∀ k, (∃ sk : SaltKey, f k = .ok sk ∧ sk.isInMetaBucket = false) ∨
      ∃ e, f k = .error (.err e)) → Reads { w.reader with plainValueFast := f } s.full A := by
    intro f hf
    refine ⟨⟨fun k hk ↦ h.value hA hk, fun b hb ↦ ?_, hf⟩, fun b hb ↦ h.bucketUsedSlots hs hA hb⟩
    refine (h.metadata_spec hA hb).mono fun m hm ↦ ?_
    have hu := metaAt_used s.content b
    rw [← metaAt_normalize s.full.kv hb]
    exact unused_eq hu hm
  rcases hrd with rfl | rfl
  · exact hbase _ fun k ↦ .inr ⟨_, rfl⟩
  · refine hbase _ fun k ↦ ?_
    unfold Witness.plainValueFast
    cases hk : (Witness.ofSaltWitness w).directLookupTbl[k]? with
    | none => exact .inr ⟨_, rfl⟩
    | some sk => exact .inl ⟨sk, rfl, Witness.ofSaltWitness_data w hk⟩

end Reads

end Salt
