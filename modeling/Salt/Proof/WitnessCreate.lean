import Salt.State.InteractionRuns
import Salt.State.Recording
import Salt.Proof.Witness

namespace Salt

open Std (ExtTreeMap)
open Library.Commands Library.Commands.Program Library.Triple
open Library.ProbeRing (probe probe_lt)

def stateReadFault {α : Type} (reason : SaltError → String) : Except Fault α → Except ProofFault α
  | .ok a => .ok a
  | .error (.err e) => .error (.err (.stateReadError (reason e)))
  | .error (.panic p) => .error (.panic p)

section Create

variable {C : Type} (H : Hasher) (fuel : ℕ) (debug : SaltError → String)
  (createProof : List SaltKey → Except ProofFault (SaltProof C)) (store : StateReader)

def witnessedEntry (saltKey : SaltKey) : Except Fault (Option SaltValue) :=
  if saltKey.isInMetaBucket then do
    let meta' ← store.metadata (bucketIdFromMetadataKey saltKey)
    .ok (some (SaltValue.ofMeta meta'))
  else store.value saltKey

def addEntry (kvs : ExtTreeMap SaltKey (Option SaltValue)) (saltKey : SaltKey) :
    Except ProofFault (ExtTreeMap SaltKey (Option SaltValue)) := do
  let value ← stateReadFault (fun e ↦ s!"Failed to read key: {debug e}") (witnessedEntry store saltKey)
  .ok (kvs.insert saltKey value)

/-- `SaltWitness::create` over any store; `createProof` stands for `SaltProof::create`. -/
def SaltWitness.createFrom (keys : List SaltKey) : Except ProofFault (SaltWitness C) := do
  let kvs ← keys.foldlM (addEntry debug store) ∅
  let proof ← createProof kvs.keys
  .ok ⟨kvs, proof⟩

/-- The search that decides how a key is witnessed. The session that runs it neither writes nor caches. -/
def searchStore (plainKey : Bytes) : Except Fault (Option SaltKey) := do
  let bucketId := H.bucketId plainKey
  let metadata ← store.metadata bucketId
  let (_, found) ← (EphemeralSaltState.new store).shiFind H bucketId metadata.nonce metadata.capacity plainKey
  .ok (found.map fun r ↦ SaltKey.ofPair bucketId r.1)

structure Gathered where
  directLookupTbl : BytesMap SaltKey
  witnessedKeys : List SaltKey
  recorder : OpenSession

def Gathered.witness (g : Gathered) (plainKey : Bytes) (saltKey : SaltKey) : Gathered :=
  { g with
    directLookupTbl := g.directLookupTbl.insert plainKey saltKey
    witnessedKeys := g.witnessedKeys ++ [saltKey] }

def gatherLookup (g : Gathered) (plainKey : Bytes) : Except Fault Gathered := do
  match ← searchStore H store plainKey with
  | some saltKey => .ok (g.witness plainKey saltKey)
  | none =>
    let (_, recorder) ← run handle (Interaction.plainValue H plainKey) g.recorder
    .ok { g with recorder }

/-- The closure of `filter_map`: `.ok()?` on a failed read drops the key. -/
def gatherUpdate (acc : Gathered × List (Bytes × Option Bytes)) (kv : Bytes × Option Bytes) :
    Except Fault (Gathered × List (Bytes × Option Bytes)) := do
  match ← attempt (searchStore H store kv.1) with
  | none => .ok acc
  | some found =>
    match found, kv.2 with
    | some saltKey, some _ => .ok (acc.1.witness kv.1 saltKey, acc.2)
    | _, _ => .ok (acc.1, acc.2 ++ [kv])

def oldCapacity (e : SaltKey × Option SaltValue × Option SaltValue) : Option (ℕ × ℕ) :=
  if e.1.isInMetaBucket then
    match e.2.1.map BucketMeta.tryFrom with
    | some (.ok meta') => some (bucketIdFromMetadataKey e.1, meta'.capacity)
    | _ => none
  else none

def oldCapacities (stateUpdates : StateUpdates) : ExtTreeMap ℕ ℕ :=
  (stateUpdates.data.toList.filterMap oldCapacity).foldl (fun m e ↦ m.insert e.1 e.2) ∅

def belowOldCapacity (capacities : ExtTreeMap ℕ ℕ) (key : SaltKey) : Bool :=
  match capacities[key.bucketId]? with
  | some oldCap => key.slotId < oldCap
  | none => true

/-- The closure of `Witness::create`: the keys to witness and the lookup table. -/
def gather (lookups : List Bytes) (updates : BytesMap (Option Bytes)) :
    Except Fault (BytesMap SaltKey × List SaltKey) := do
  let start : Gathered := ⟨∅, [], ((EphemeralSaltState.new store).withCacheRead, .empty)⟩
  let g ← lookups.foldlM (gatherLookup H store) start
  let (g, insertsOrDeletes) ← updates.toList.foldlM (gatherUpdate H store) (g, [])
  let (stateUpdates, recorder) ← run handle (Interaction.update H fuel insertsOrDeletes) g.recorder
  let recorded := recorder.1.cache.keys.filter (belowOldCapacity (oldCapacities stateUpdates))
  .ok (g.directLookupTbl, g.witnessedKeys ++ recorded)

def Witness.create (bucketIds : List ℕ) (lookups : List Bytes) (updates : BytesMap (Option Bytes)) :
    Except ProofFault (Witness C) := do
  let metadataKeys ← stateReadFault debug (bucketIds.mapM bucketMetadataKey)
  let (directLookupTbl, witnessedKeys) ← stateReadFault debug (gather H fuel store lookups updates)
  let saltWitness ← SaltWitness.createFrom debug createProof store (metadataKeys ++ witnessedKeys)
  .ok ⟨directLookupTbl, saltWitness⟩

end Create

section Specification

variable (H : Hasher) (fuel : ℕ) (store : StateReader)

/-- The slots that the search for a key visits, up to the one that decides it or fails. -/
def slotPath (bucketId hashedKey capacity : ℕ) (plainKey : Bytes) : ℕ → ℕ → List SaltKey
  | 0, _ => []
  | n + 1, step =>
    let saltKey := SaltKey.ofPair bucketId (probe hashedKey step capacity)
    match store.value saltKey with
    | .ok (some v) =>
      if v.key < plainKey ∨ v.key = plainKey then [saltKey]
      else saltKey :: slotPath bucketId hashedKey capacity plainKey n (step + 1)
    | _ => [saltKey]

def searchPath (plainKey : Bytes) : List SaltKey :=
  metadataKey (H.bucketId plainKey) ::
    match store.metadata (H.bucketId plainKey) with
    | .ok m => slotPath store (H.bucketId plainKey) (H.hashWithNonce plainKey m.nonce) m.capacity plainKey m.capacity 0
    | .error _ => []

def Readable (plainKey : Bytes) : Prop := ∀ key ∈ searchPath H store plainKey, store.Answers key

def StateReader.Holds (key : SaltKey) : Prop :=
  store.Answers key ∧
    (key.isInMetaBucket = false → ∀ m, store.metadata key.bucketId = .ok m → key.slotId < m.capacity)

def isInsertOrDelete (kv : Bytes × Option Bytes) : Bool :=
  match searchStore H store kv.1 with
  | .ok (some _) => kv.2.isNone
  | .ok none => true
  | .error _ => false

/-- An update in place has its slot in the witness; an insertion or deletion takes part in the recorded run, and all
that the run looks up is in the witness. -/
def Witnessed (kvs : ExtTreeMap SaltKey (Option SaltValue)) (updates : BytesMap (Option Bytes))
    (kv : Bytes × Option Bytes) : Prop :=
  (kv.2.isSome ∧ ∃ saltKey ∈ kvs, searchStore H store kv.1 = .ok (some saltKey)) ∨
    (isInsertOrDelete H store kv ∧
      ∀ key ∈ log handle lookedUp
          (Interaction.updateEach H fuel (updates.toList.filter (isInsertOrDelete H store)))
          (EphemeralSaltState.new store, .empty),
        store.Holds key → key ∈ kvs)

/-- A lookup that goes through: the search succeeds and, when it finds nothing, so does the read of a fresh session. -/
def Served (plainKey : Bytes) : Prop :=
  Readable H store plainKey ∧
    (searchStore H store plainKey = .ok none →
      ∃ r, (EphemeralSaltState.new store).plainValue H plainKey = .ok r)

def ReadFor {α : Type} (p : SessionProgram α) (key : SaltKey) : Prop :=
  key ∈ log handle lookedUp p (EphemeralSaltState.new store, .empty) ∧ store.Answers key

/-- The keys to prove: the metadata asked for, the slots that were found, and what fresh sessions look
up for the missing
keys and look up or write for the insertions and deletions, unless a resize has only just made room for it. -/
def Demanded (bucketIds : List ℕ) (lookups : List Bytes) (updates : BytesMap (Option Bytes))
    (after : EphemeralSaltState × StateUpdates) (key : SaltKey) : Prop :=
  (∃ b ∈ bucketIds, key = metadataKey b) ∨
    (∃ plainKey ∈ lookups, searchStore H store plainKey = .ok (some key)) ∨
    (∃ kv ∈ updates.toList, kv.2.isSome ∧ searchStore H store kv.1 = .ok (some key)) ∨
    ((∃ plainKey ∈ lookups, searchStore H store plainKey = .ok none ∧
        ReadFor store (Interaction.plainValue H plainKey) key) ∨
      key ∈ after.1.cache ∨
      ReadFor store (Interaction.updateEach H fuel (updates.toList.filter (isInsertOrDelete H store))) key) ∧
    belowOldCapacity (oldCapacities after.2) key

/-- A call that nothing stops, once the update keys without a readable path are left out. -/
structure Servable {C : Type} (createProof : List SaltKey → Except ProofFault (SaltProof C)) (bucketIds : List ℕ)
    (lookups : List Bytes) (updates : BytesMap (Option Bytes)) : Prop where
  buckets : ∀ b ∈ bucketIds, isValidDataBucket b
  served : ∀ plainKey ∈ lookups, Served H store plainKey
  searches : ∀ kv ∈ updates.toList, ∀ p, searchStore H store kv.1 ≠ .error (.panic p)
  proof : ∃ after, (EphemeralSaltState.new store).update H fuel (updates.toList.filter (isInsertOrDelete H store)) =
      .ok after ∧
    ∃ keys, keys.Pairwise (fun k k' ↦ compare k k' = .lt) ∧
      (∀ key, key ∈ keys ↔ Demanded H fuel store bucketIds lookups updates after key) ∧
      (∀ key ∈ keys, ∃ v, witnessedEntry store key = .ok v) ∧ ∃ proof, createProof keys = .ok proof

/-- No witness is returned when an update key cannot be read, and one that is returned covers every update key. -/
def Reports {C : Type} (updates : BytesMap (Option Bytes)) (result : Except ProofFault (Witness C)) : Prop :=
  ((∃ kv ∈ updates.toList, ¬ Readable H store kv.1) → ∀ w, result ≠ .ok w) ∧
    ∀ w, result = .ok w → ∀ kv ∈ updates.toList, Witnessed H fuel store w.saltWitness.kvs updates kv

def storeCapacities : CapacityRule where
  fits b c := ∃ m, store.metadata b = .ok m ∧ m.capacity ≤ c ∧ c ≤ bucketSlotIdMask
  key_lt b c hb h := by
    obtain ⟨m, -, -, hc⟩ := h
    rw [dataBucket_iff] at hb
    change c ≤ 2 ^ 40 - 1 at hc
    omega
  grow b c c' _ h hle hmask := by
    obtain ⟨m, hm, hmc, -⟩ := h
    exact ⟨m, hm, hmc.trans hle, hmask⟩
  calls := False

end Specification

section Search

variable {H : Hasher} {store : StateReader} {plainKey : Bytes}

theorem answers_slot {b c slot : ℕ} (hb : isValidDataBucket b) (hc : c ≤ bucketSlotIdMask) (hslot : slot < c) :
    store.Answers (SaltKey.ofPair b slot) ↔ ∃ v, store.value (SaltKey.ofPair b slot) = .ok v := by
  have hdata : (SaltKey.ofPair b slot).isInMetaBucket = false :=
    ofPair_not_inMeta hb (show slot < 2 ^ 40 by change c ≤ 2 ^ 40 - 1 at hc; omega)
  constructor
  · rintro (⟨-, h⟩ | ⟨b', m, hb', hbb', -⟩)
    · exact h
    · rw [hbb', metadataKey_inMeta hb'] at hdata
      cases hdata
  · exact fun h ↦ .inl ⟨hdata, h⟩

theorem shiSearchLoop_ok_iff {b c h : ℕ} (hb : isValidDataBucket b) (hc : c ≤ bucketSlotIdMask) (n step : ℕ)
    (hn : n ≤ c) :
    (∃ r, shiSearchLoop EphemeralSaltState.value b h c plainKey n step (EphemeralSaltState.new store) = .ok r) ↔
      ∀ key ∈ slotPath store b h c plainKey n step, store.Answers key := by
  induction n generalizing step with
  | zero => exact ⟨fun _ _ hkey ↦ (by cases hkey), fun _ ↦ ⟨_, rfl⟩⟩
  | succ n ih =>
    have hslot : store.Answers (SaltKey.ofPair b (probe h step c)) ↔ _ :=
      answers_slot hb hc (probe_lt (by omega) h step)
    have hvalue : (EphemeralSaltState.new store).value (SaltKey.ofPair b (probe h step c)) =
        store.value (SaltKey.ofPair b (probe h step c)) >>= fun v ↦ .ok (EphemeralSaltState.new store, v) :=
      value_plain (by simp [EphemeralSaltState.new]) rfl
    rw [shiSearchLoop, slotPath, hvalue]
    generalize SaltKey.ofPair b (probe h step c) = key at *
    rcases hv : store.value key with e | _ | v
    · have hfails : ¬ store.Answers key := by
        rw [hslot, hv]
        rintro ⟨v, hv⟩
        cases hv
      refine ⟨?_, fun hpath ↦ absurd (hpath key (List.mem_singleton_self key)) hfails⟩
      rintro ⟨r, hr⟩
      cases hr
    · refine ⟨fun _ key' hkey' ↦ ?_, fun _ ↦ ⟨_, rfl⟩⟩
      rw [List.mem_singleton.mp hkey']
      exact hslot.mpr ⟨none, hv⟩
    · have hanswers : store.Answers key := hslot.mpr ⟨some v, hv⟩
      simp only [ok_bind]
      by_cases hstop : v.key < plainKey ∨ v.key = plainKey
      · rw [if_pos hstop]
        refine ⟨fun _ key' hkey' ↦ (by rwa [List.mem_singleton.mp hkey']), fun _ ↦ ?_⟩
        rcases hstop with hlt | heq
        · rw [if_pos hlt]
          exact ⟨_, rfl⟩
        · rw [if_neg (by rw [heq]; exact List.lt_irrefl _), if_pos heq]
          exact ⟨_, rfl⟩
      · rw [if_neg hstop, if_neg fun hlt ↦ hstop (.inl hlt), if_neg fun heq ↦ hstop (.inr heq), List.forall_mem_cons]
        exact (ih (step + 1) (by omega)).trans ⟨fun hpath ↦ ⟨hanswers, hpath⟩, fun hpath ↦ hpath.2⟩

theorem searchStore_ok_iff (hstore : store.Obeys (storeCapacities store)) :
    (∃ r, searchStore H store plainKey = .ok r) ↔ Readable H store plainKey := by
  have hb := H.bucketId_data plainKey
  unfold searchStore Readable searchPath
  dsimp only
  cases hm : store.metadata (H.bucketId plainKey) with
  | error e =>
    refine ⟨fun ⟨r, hr⟩ ↦ (by cases hr), fun hpath ↦ ?_⟩
    obtain ⟨m, hm'⟩ := CachesReads.metadata_of_answers hb (hpath _ (List.mem_cons_self ..))
    rw [hm] at hm'
    cases hm'
  | ok m =>
    obtain ⟨_, -, -, hc⟩ := hstore.capacity _ m hb hm
    have hloop : (∃ r, (EphemeralSaltState.new store).shiFind H (H.bucketId plainKey) m.nonce m.capacity plainKey =
        .ok r) ↔ _ := shiSearchLoop_ok_iff hb hc m.capacity 0 le_rfl
    have hmeta : store.Answers (metadataKey (H.bucketId plainKey)) := .inr ⟨_, m, hb, rfl, hm⟩
    rw [List.forall_mem_cons]
    simp only [ok_bind]
    constructor
    · rintro ⟨r, hr⟩
      obtain ⟨found, hfound, -⟩ := ok_of_bind hr
      exact ⟨hmeta, hloop.mp ⟨found, hfound⟩⟩
    · rintro ⟨-, hpath⟩
      obtain ⟨found, hfound⟩ := hloop.mpr hpath
      rw [hfound]
      exact ⟨_, rfl⟩

end Search

section Gathering

variable {H : Hasher} {fuel : ℕ} {store : StateReader}

theorem run_ok_iff {α : Type} {p : SessionProgram α} {s : OpenSession} :
    (∃ r, run handle p s = .ok r) ↔ ∃ a, (exec handle p s).1 = .ok a := by
  unfold run
  rcases exec handle p s with ⟨_ | a, s'⟩
  · exact iff_of_false (fun ⟨r, hr⟩ ↦ by cases hr) fun ⟨a, ha⟩ ↦ by cases ha
  · exact iff_of_true ⟨_, rfl⟩ ⟨a, rfl⟩

theorem exec_of_run {α : Type} {p : SessionProgram α} {s s' : OpenSession} {a : α} (h : run handle p s = .ok (a, s')) :
    exec handle p s = (.ok a, s') := by
  unfold run at h
  split at h
  · rename_i a' s'' hexec
    cases h
    exact hexec
  · cases h

def Gathered.Reading (store : StateReader) (g : Gathered) : Prop :=
  CachesReads (storeCapacities store) g.recorder (EphemeralSaltState.new store, .empty)

theorem gatherLookup_reading {g g' : Gathered} {plainKey : Bytes} (hg : g.Reading store)
    (h : gatherLookup H store g plainKey = .ok g') : g'.Reading store := by
  unfold gatherLookup at h
  obtain ⟨found, -, h⟩ := ok_of_bind h
  rcases found with _ | saltKey
  · obtain ⟨⟨r, recorder⟩, hrun, h⟩ := ok_of_bind h
    cases h
    have hexec := exec_of_run hrun
    have hrel := (CachesReads.agrees.exec (Interaction.keeps_plainValue (H := H) plainKey) hg).2
    rw [hexec, (Interaction.readOnly_plainValue plainKey).exec rfl] at hrel
    exact hrel
  · cases h
    exact hg

theorem plainValue_ok_iff {g : Gathered} (hg : g.Reading store) (plainKey : Bytes) :
    (∃ r, run handle (Interaction.plainValue H plainKey) g.recorder = .ok r) ↔
      ∃ r, (EphemeralSaltState.new store).plainValue H plainKey = .ok r := by
  have hplain : (∃ r, run handle (Interaction.plainValue H plainKey) (EphemeralSaltState.new store, .empty) = .ok r) ↔
      ∃ r, (EphemeralSaltState.new store).plainValue H plainKey = .ok r := by
    rw [Interaction.run_plainValue]
    cases (EphemeralSaltState.new store).plainValue H plainKey with
    | error e => exact iff_of_false (fun ⟨r, hr⟩ ↦ by cases hr) fun ⟨r, hr⟩ ↦ by cases hr
    | ok r => exact iff_of_true ⟨_, rfl⟩ ⟨r, rfl⟩
  rw [← hplain, run_ok_iff, run_ok_iff,
    (CachesReads.agrees.exec (Interaction.keeps_plainValue (H := H) plainKey) hg).1]

theorem gatherLookup_ok_iff (hstore : store.Obeys (storeCapacities store)) {g : Gathered} (hg : g.Reading store)
    (plainKey : Bytes) : (∃ g', gatherLookup H store g plainKey = .ok g') ↔ Served H store plainKey := by
  unfold gatherLookup Served
  rw [← searchStore_ok_iff hstore]
  rcases hsearch : searchStore H store plainKey with e | _ | saltKey
  · refine iff_of_false ?_ ?_
    · rintro ⟨g', hg'⟩
      cases hg'
    · rintro ⟨⟨r, hr⟩, -⟩
      cases hr
  · simp only [ok_bind, true_implies, Except.ok.injEq, exists_eq', true_and]
    rw [← plainValue_ok_iff hg]
    constructor
    · rintro ⟨g', hg'⟩
      obtain ⟨r, hrun, -⟩ := ok_of_bind hg'
      exact ⟨r, hrun⟩
    · rintro ⟨r, hrun⟩
      rw [hrun]
      exact ⟨_, rfl⟩
  · exact iff_of_true ⟨_, rfl⟩ ⟨⟨_, rfl⟩, fun h ↦ by cases h⟩

theorem gatherLookup_witnesses {g g' : Gathered} {plainKey : Bytes} (h : gatherLookup H store g plainKey = .ok g')
    (key : SaltKey) :
    key ∈ g'.witnessedKeys ↔ key ∈ g.witnessedKeys ∨ searchStore H store plainKey = .ok (some key) := by
  unfold gatherLookup at h
  obtain ⟨found, hsearch, h⟩ := ok_of_bind h
  rw [hsearch]
  rcases found with _ | saltKey
  · obtain ⟨r, -, h⟩ := ok_of_bind h
    cases h
    simp
  · cases h
    simp [Gathered.witness, eq_comm]

theorem gatherLookup_records {g g' : Gathered} {plainKey : Bytes} (hg : g.Reading store)
    (h : gatherLookup H store g plainKey = .ok g') (key : SaltKey) :
    key ∈ g'.recorder.1.cache ↔ key ∈ g.recorder.1.cache ∨
      searchStore H store plainKey = .ok none ∧ ReadFor store (Interaction.plainValue H plainKey) key := by
  unfold gatherLookup at h
  obtain ⟨found, hsearch, h⟩ := ok_of_bind h
  rw [hsearch]
  rcases found with _ | saltKey
  · obtain ⟨⟨r, recorder⟩, hrun, h⟩ := ok_of_bind h
    cases h
    have hrecorded := CachesReads.recorded_iff (x := key) id (Interaction.keeps_plainValue (H := H) plainKey) hg
    rw [exec_of_run hrun, (Interaction.readOnly_plainValue plainKey).exec rfl] at hrecorded
    simpa [EphemeralSaltState.new, ReadFor] using hrecorded
  · cases h
    simp [Gathered.witness]

def gatherStart (store : StateReader) : Gathered := ⟨∅, [], ((EphemeralSaltState.new store).withCacheRead, .empty)⟩

theorem gatherStart_reading (hstore : store.Obeys (storeCapacities store)) : (gatherStart store).Reading store :=
  CachesReads.start hstore .empty

theorem gatherLookups_reading {lookups : List Bytes} {g g' : Gathered} (hg : g.Reading store)
    (h : lookups.foldlM (gatherLookup H store) g = .ok g') : g'.Reading store := by
  induction lookups generalizing g with
  | nil =>
    cases h
    exact hg
  | cons plainKey lookups ih =>
    rw [List.foldlM_cons] at h
    obtain ⟨g₁, hg₁, h⟩ := ok_of_bind h
    exact ih (gatherLookup_reading hg hg₁) h

structure Classified (H : Hasher) (store : StateReader) (l : List (Bytes × Option Bytes))
    (acc acc' : Gathered × List (Bytes × Option Bytes)) : Prop where
  pending : acc'.2 = acc.2 ++ l.filter (isInsertOrDelete H store)
  recorder : acc'.1.recorder = acc.1.recorder
  witnessed : ∀ key, key ∈ acc'.1.witnessedKeys ↔ key ∈ acc.1.witnessedKeys ∨
    ∃ kv ∈ l, kv.2.isSome ∧ searchStore H store kv.1 = .ok (some key)

theorem gatherUpdate_classified {acc acc' : Gathered × List (Bytes × Option Bytes)} {kv : Bytes × Option Bytes}
    (h : gatherUpdate H store acc kv = .ok acc') : Classified H store [kv] acc acc' := by
  rcases kv with ⟨plainKey, newValue⟩
  unfold gatherUpdate at h
  dsimp only at h
  have hleft : ∀ pending, (∀ saltKey, searchStore H store plainKey = .ok (some saltKey) → newValue.isSome = false) →
      pending = acc.2 ++ [(plainKey, newValue)].filter (isInsertOrDelete H store) →
      Classified H store [(plainKey, newValue)] acc (acc.1, pending) := by
    intro pending hnone hpending
    refine ⟨hpending, rfl, fun key ↦ ⟨.inl, ?_⟩⟩
    rintro (hkey | ⟨kv, hkv, hsome, hfound⟩)
    · exact hkey
    · obtain rfl := List.mem_singleton.mp hkv
      rw [hnone key hfound] at hsome
      cases hsome
  rcases hsearch : searchStore H store plainKey with (e | p) | _ | saltKey
  · rw [hsearch] at h
    cases h
    exact hleft _ (fun _ hfound ↦ by rw [hsearch] at hfound; cases hfound) (by simp [isInsertOrDelete, hsearch])
  · rw [hsearch] at h
    cases h
  · rw [hsearch] at h
    cases h
    exact hleft _ (fun _ hfound ↦ by rw [hsearch] at hfound; cases hfound) (by simp [isInsertOrDelete, hsearch])
  · rw [hsearch] at h
    rcases newValue with _ | newValue
    · cases h
      exact hleft _ (fun _ _ ↦ rfl) (by simp [isInsertOrDelete, hsearch])
    · cases h
      refine ⟨by simp [isInsertOrDelete, hsearch], rfl, fun key ↦ ?_⟩
      simp only [Gathered.witness, List.mem_append, List.mem_singleton, exists_eq_left, hsearch, Option.isSome_some,
        true_and, Except.ok.injEq, Option.some.injEq, eq_comm]

theorem gatherUpdates_classified {l : List (Bytes × Option Bytes)} {acc acc' : Gathered × List (Bytes × Option Bytes)}
    (h : l.foldlM (gatherUpdate H store) acc = .ok acc') : Classified H store l acc acc' := by
  induction l generalizing acc with
  | nil =>
    cases h
    exact ⟨(List.append_nil _).symm, rfl, fun key ↦ by simp⟩
  | cons kv l ih =>
    rw [List.foldlM_cons] at h
    obtain ⟨acc₁, hstep, h⟩ := ok_of_bind h
    have hfirst := gatherUpdate_classified hstep
    have hrest := ih h
    refine ⟨?_, hrest.recorder.trans hfirst.recorder, fun key ↦ ?_⟩
    · rw [hrest.pending, hfirst.pending, List.append_assoc, ← List.filter_append, List.singleton_append]
    · rw [hrest.witnessed, hfirst.witnessed, or_assoc]
      simp

theorem gatherUpdate_ok_iff (acc : Gathered × List (Bytes × Option Bytes)) (kv : Bytes × Option Bytes) :
    (∃ acc', gatherUpdate H store acc kv = .ok acc') ↔ ∀ p, searchStore H store kv.1 ≠ .error (.panic p) := by
  unfold gatherUpdate
  rcases searchStore H store kv.1 with (e | p) | found
  · exact iff_of_true ⟨_, rfl⟩ fun _ h ↦ by cases h
  · refine iff_of_false ?_ fun h ↦ h p rfl
    rintro ⟨acc', h⟩
    cases h
  · refine iff_of_true ?_ fun _ h ↦ by cases h
    rcases found with _ | saltKey
    · exact ⟨_, rfl⟩
    · rcases kv.2 with _ | newValue <;> exact ⟨_, rfl⟩

theorem exec_updateEach_of_run {pending : List (Bytes × Option Bytes)} {s s' : OpenSession} {u : StateUpdates}
    (h : run handle (Interaction.update H fuel pending) s = .ok (u, s')) :
    exec handle (Interaction.updateEach H fuel pending) (s.1, .empty) = (.ok (), (s'.1, u)) := by
  change run handle (Interaction.updateEach H fuel pending >>= fun _ ↦ Interaction.replaceUpdates s.2) (s.1, .empty) =
    _ at h
  rw [run_bind] at h
  obtain ⟨⟨⟨⟩, st, out⟩, hrun, h⟩ := ok_of_bind h
  cases h
  exact exec_of_run hrun

end Gathering

section Filter

variable {store : StateReader}

theorem foldl_insert_some {l : List (ℕ × ℕ)} {b c : ℕ} {m : ExtTreeMap ℕ ℕ}
    (h : (l.foldl (fun m e ↦ m.insert e.1 e.2) m)[b]? = some c) : (b, c) ∈ l ∨ m[b]? = some c := by
  induction l generalizing m with
  | nil => exact .inr h
  | cons e l ih =>
    rcases ih h with hmem | hm
    · exact .inl (List.mem_cons_of_mem e hmem)
    · rw [ExtTreeMap.getElem?_insert] at hm
      split_ifs at hm with hcmp
      · rw [Std.LawfulEqCmp.compare_eq_iff_eq] at hcmp
        cases hm
        exact .inl (hcmp ▸ List.mem_cons_self ..)
      · exact .inr hm

/-- The recorded changes of metadata start from capacities that the buckets reached from the store. -/
theorem le_oldCapacity {u : StateUpdates} (hu : OldFits (storeCapacities store) u) {b c : ℕ}
    (h : (oldCapacities u)[b]? = some c) :
    isValidDataBucket b ∧ ∃ m, store.metadata b = .ok m ∧ m.capacity ≤ c := by
  have hmem : (b, c) ∈ u.data.toList.filterMap oldCapacity := by
    rcases foldl_insert_some h with hmem | hnone
    · exact hmem
    · simp at hnone
  obtain ⟨⟨k, o, n⟩, he, hold⟩ := List.mem_filterMap.mp hmem
  have hentry : u.data[k]? = some (o, n) := ExtTreeMap.mem_toList_iff_getElem?_eq_some.mp he
  unfold oldCapacity at hold
  split_ifs at hold with hmeta
  rcases hu k o n hentry with hdata | ⟨b', m, hb', rfl, rfl, hfits⟩
  · rw [hdata] at hmeta
    cases hmeta
  · obtain ⟨m₀, hm₀, hle, hmask⟩ := hfits
    have hlt : m.capacity < 2 ^ 64 := by
      change m.capacity ≤ 2 ^ 40 - 1 at hmask
      omega
    simp only [Option.map_some, BucketMeta.tryFrom_ofMeta hlt, bucketIdFromMetadataKey_metadataKey hb',
      Option.some.injEq, Prod.mk.injEq] at hold
    obtain ⟨rfl, rfl⟩ := hold
    exact ⟨hb', m₀, hm₀, hle⟩

theorem belowOldCapacity_of_holds {u : StateUpdates} (hu : OldFits (storeCapacities store) u) {key : SaltKey}
    (hkey : store.Holds key) : belowOldCapacity (oldCapacities u) key = true := by
  unfold belowOldCapacity
  cases hc : (oldCapacities u)[key.bucketId]? with
  | none => rfl
  | some c =>
    obtain ⟨hb, m, hm, hle⟩ := le_oldCapacity hu hc
    have hdata : key.isInMetaBucket = false := by
      rw [dataBucket_iff] at hb
      exact decide_eq_false (show ¬ key.bucketId < 2 ^ 16 by omega)
    have hslot := hkey.2 hdata m hm
    exact decide_eq_true (by omega)

end Filter

section Covering

variable {C : Type} {H : Hasher} {fuel : ℕ} {debug : SaltError → String}
  {createProof : List SaltKey → Except ProofFault (SaltProof C)} {store : StateReader}

theorem ok_of_stateReadFault {α : Type} {reason : SaltError → String} {r : Except Fault α} {a : α}
    (h : stateReadFault reason r = .ok a) : r = .ok a := by
  rcases r with (_ | _) | b
  · cases h
  · cases h
  · cases h
    rfl

theorem addEntry_ok_iff (key : SaltKey) (kvs : ExtTreeMap SaltKey (Option SaltValue)) :
    (∃ kvs', addEntry debug store kvs key = .ok kvs') ↔ ∃ v, witnessedEntry store key = .ok v := by
  unfold addEntry
  constructor
  · rintro ⟨kvs', h⟩
    obtain ⟨v, hv, -⟩ := ok_of_bind h
    exact ⟨v, ok_of_stateReadFault hv⟩
  · rintro ⟨v, hv⟩
    rw [hv]
    exact ⟨_, rfl⟩

theorem addEntry_gains (x key : SaltKey) (kvs kvs' : ExtTreeMap SaltKey (Option SaltValue))
    (h : addEntry debug store kvs key = .ok kvs') : x ∈ kvs' ↔ x ∈ kvs ∨ x = key := by
  unfold addEntry at h
  obtain ⟨v, -, h⟩ := ok_of_bind h
  cases h
  rw [ExtTreeMap.mem_insert, Std.LawfulEqCmp.compare_eq_iff_eq, or_comm, eq_comm]

theorem addEntries_ok_iff (keys : List SaltKey) :
    (∃ kvs, keys.foldlM (addEntry debug store) ∅ = .ok kvs) ↔ ∀ key ∈ keys, ∃ v, witnessedEntry store key = .ok v :=
  foldlM_ok_iff (I := fun _ ↦ True) (fun key kvs _ ↦ addEntry_ok_iff key kvs) (fun _ _ _ _ _ ↦ trivial) keys trivial

theorem mem_addEntries {keys : List SaltKey} {kvs : ExtTreeMap SaltKey (Option SaltValue)}
    (h : keys.foldlM (addEntry debug store) ∅ = .ok kvs) (key : SaltKey) : key ∈ kvs ↔ key ∈ keys := by
  rw [foldlM_gains (I := fun _ ↦ True) (P := fun m ↦ key ∈ m) (fun a m m' _ h ↦ addEntry_gains key a m m' h)
    (fun _ _ _ _ _ ↦ trivial) trivial h]
  simp

theorem createFrom_ok {keys : List SaltKey} {w : SaltWitness C}
    (h : SaltWitness.createFrom debug createProof store keys = .ok w) :
    (∀ key, key ∈ w.kvs ↔ key ∈ keys) ∧ ∀ key ∈ keys, ∃ v, witnessedEntry store key = .ok v := by
  unfold SaltWitness.createFrom at h
  obtain ⟨kvs, hkvs, h⟩ := ok_of_bind h
  obtain ⟨proof, -, h⟩ := ok_of_bind h
  cases h
  exact ⟨mem_addEntries hkvs, (addEntries_ok_iff keys).mp ⟨kvs, hkvs⟩⟩

theorem eq_of_ordered {l l' : List SaltKey} (h : l.Pairwise fun k k' ↦ compare k k' = .lt)
    (h' : l'.Pairwise fun k k' ↦ compare k k' = .lt) (hmem : ∀ key, key ∈ l ↔ key ∈ l') : l = l' := by
  have hirrefl : Std.Irrefl fun k k' : SaltKey ↦ compare k k' = .lt := ⟨fun k h ↦ by simp at h⟩
  have hantisymm : Std.Antisymm fun k k' : SaltKey ↦ compare k k' = .lt :=
    ⟨fun k k' h h' ↦ absurd (Std.TransCmp.lt_trans h h') (hirrefl.irrefl k)⟩
  exact List.Pairwise.eq_of_mem_iff h h' hmem

/-- A witness is made of keys that the store can read, when their proof can be made. -/
theorem createFrom_ok_iff {keys : List SaltKey} :
    (∃ w, SaltWitness.createFrom debug createProof store keys = .ok w) ↔
      ∃ sorted : List SaltKey, sorted.Pairwise (fun k k' ↦ compare k k' = .lt) ∧ (∀ key, key ∈ sorted ↔ key ∈ keys) ∧
        (∀ key ∈ sorted, ∃ v, witnessedEntry store key = .ok v) ∧ ∃ proof, createProof sorted = .ok proof := by
  constructor
  · rintro ⟨w, h⟩
    have hall := (createFrom_ok h).2
    unfold SaltWitness.createFrom at h
    obtain ⟨kvs, hkvs, h⟩ := ok_of_bind h
    obtain ⟨proof, hproof, -⟩ := ok_of_bind h
    have hmem : ∀ key, key ∈ kvs.keys ↔ key ∈ keys := fun key ↦
      ExtTreeMap.mem_keys.trans (mem_addEntries hkvs key)
    exact ⟨kvs.keys, ExtTreeMap.ordered_keys, hmem, fun key hkey ↦ hall key ((hmem key).mp hkey), proof, hproof⟩
  · rintro ⟨sorted, hsorted, hmem, hall, proof, hproof⟩
    obtain ⟨kvs, hkvs⟩ : ∃ kvs, keys.foldlM (addEntry debug store) ∅ = .ok kvs :=
      (addEntries_ok_iff keys).mpr fun key hkey ↦ hall key ((hmem key).mpr hkey)
    have hkeys : kvs.keys = sorted := eq_of_ordered ExtTreeMap.ordered_keys hsorted fun key ↦
      (ExtTreeMap.mem_keys.trans (mem_addEntries hkvs key)).trans (hmem key).symm
    unfold SaltWitness.createFrom
    rw [hkvs, ok_bind, hkeys, hproof]
    exact ⟨_, rfl⟩

section Gather

variable {lookups : List Bytes} {updates : BytesMap (Option Bytes)} {pending : List (Bytes × Option Bytes)}

theorem exec_update {after : EphemeralSaltState × StateUpdates}
    (h : (EphemeralSaltState.new store).update H fuel pending = .ok after) :
    exec handle (Interaction.updateEach H fuel pending) (EphemeralSaltState.new store, .empty) = (.ok (), after) := by
  apply exec_of_run
  rw [Interaction.run_updateEach]
  change Interaction.within ((EphemeralSaltState.new store).update H fuel pending) = _
  rw [h]
  rfl

theorem update_ok_iff :
    (∃ after, (EphemeralSaltState.new store).update H fuel pending = .ok after) ↔
      (exec handle (Interaction.updateEach H fuel pending) (EphemeralSaltState.new store, .empty)).1 = .ok () := by
  constructor
  · rintro ⟨after, h⟩
    rw [exec_update h]
  · intro h
    obtain ⟨r, hrun⟩ := run_ok_iff.mpr ⟨(), h⟩
    rw [Interaction.run_updateEach] at hrun
    obtain ⟨after, hafter, -⟩ := ok_of_bind hrun
    exact ⟨after, hafter⟩

theorem run_update_ok_iff {s : OpenSession} :
    (∃ r, run handle (Interaction.update H fuel pending) s = .ok r) ↔
      (exec handle (Interaction.updateEach H fuel pending) (s.1, .empty)).1 = .ok () := by
  constructor
  · rintro ⟨⟨u, recorder⟩, h⟩
    rw [exec_updateEach_of_run h]
  · intro h
    obtain ⟨⟨⟨⟩, r⟩, hrun⟩ := run_ok_iff.mpr ⟨(), h⟩
    change ∃ r, run handle (Interaction.updateEach H fuel pending >>= fun _ ↦ Interaction.replaceUpdates s.2)
      (s.1, .empty) = .ok r
    rw [run_bind, hrun]
    exact ⟨_, rfl⟩

theorem gather_steps {table : BytesMap SaltKey} {keys : List SaltKey}
    (h : gather H fuel store lookups updates = .ok (table, keys)) :
    ∃ g g' u recorder, lookups.foldlM (gatherLookup H store) (gatherStart store) = .ok g ∧
      Classified H store updates.toList (g, []) (g', updates.toList.filter (isInsertOrDelete H store)) ∧
      run handle (Interaction.update H fuel (updates.toList.filter (isInsertOrDelete H store))) g'.recorder =
        .ok (u, recorder) ∧
      keys = g'.witnessedKeys ++ recorder.1.cache.keys.filter (belowOldCapacity (oldCapacities u)) := by
  unfold gather at h
  obtain ⟨g, hlookups, h⟩ := ok_of_bind h
  obtain ⟨⟨g', pending⟩, hupdates, h⟩ := ok_of_bind h
  obtain ⟨⟨u, recorder⟩, hrun, h⟩ := ok_of_bind h
  cases h
  have hclass := gatherUpdates_classified hupdates
  obtain rfl : pending = updates.toList.filter (isInsertOrDelete H store) := hclass.pending
  exact ⟨g, g', u, recorder, hlookups, hclass, hrun, rfl⟩

theorem gather_ok_iff (hstore : store.Obeys (storeCapacities store)) :
    (∃ r, gather H fuel store lookups updates = .ok r) ↔
      (∀ plainKey ∈ lookups, Served H store plainKey) ∧
        (∀ kv ∈ updates.toList, ∀ p, searchStore H store kv.1 ≠ .error (.panic p)) ∧
        ∃ after, (EphemeralSaltState.new store).update H fuel (updates.toList.filter (isInsertOrDelete H store)) =
          .ok after := by
  have hlookups := foldlM_ok_iff (fun plainKey g hg ↦ gatherLookup_ok_iff (H := H) hstore hg plainKey)
    (fun _ _ _ hg h ↦ gatherLookup_reading hg h) lookups (gatherStart_reading hstore)
  have hupdates : ∀ g, (∃ r, updates.toList.foldlM (gatherUpdate H store) (g, []) = .ok r) ↔ _ := fun g ↦
    foldlM_ok_iff (I := fun _ ↦ True) (fun kv acc _ ↦ gatherUpdate_ok_iff acc kv) (fun _ _ _ _ _ ↦ trivial)
      updates.toList trivial
  have hrecorder : ∀ {g : Gathered} {pending : List (Bytes × Option Bytes)}, g.Reading store →
      ((∃ r, run handle (Interaction.update H fuel pending) g.recorder = .ok r) ↔
        ∃ after, (EphemeralSaltState.new store).update H fuel pending = .ok after) := by
    intro g pending hg
    rw [run_update_ok_iff, update_ok_iff,
      (CachesReads.agrees.exec (Interaction.keeps_updateEach (H := H) fuel pending) (hg.with_updates .empty)).1]
  constructor
  · rintro ⟨⟨table, keys⟩, h⟩
    obtain ⟨g, g', u, recorder, hg, hclass, hrun, -⟩ := gather_steps h
    unfold gather at h
    obtain ⟨g₁, hg₁, h⟩ := ok_of_bind h
    obtain ⟨acc, hacc, -⟩ := ok_of_bind h
    refine ⟨hlookups.mp ⟨g, hg⟩, (hupdates g₁).mp ⟨acc, hacc⟩, (hrecorder (g := g') ?_).mp ⟨_, hrun⟩⟩
    unfold Gathered.Reading
    rw [hclass.recorder]
    exact gatherLookups_reading (gatherStart_reading hstore) hg
  · rintro ⟨hserved, hsearches, hafter⟩
    obtain ⟨g, hg⟩ := hlookups.mpr hserved
    obtain ⟨⟨g', pending⟩, hacc⟩ := (hupdates g).mpr hsearches
    have hclass := gatherUpdates_classified hacc
    obtain rfl : pending = updates.toList.filter (isInsertOrDelete H store) := hclass.pending
    have hreading : g'.Reading store := by
      unfold Gathered.Reading
      rw [hclass.recorder]
      exact gatherLookups_reading (gatherStart_reading hstore) hg
    obtain ⟨r, hrun⟩ := (hrecorder hreading).mpr hafter
    unfold gather
    change ∃ r, (lookups.foldlM (gatherLookup H store) (gatherStart store) >>= _) = .ok r
    rw [hg, ok_bind, hacc, ok_bind]
    dsimp only
    rw [hrun]
    exact ⟨_, rfl⟩

theorem mem_gather (hstore : store.Obeys (storeCapacities store)) {table : BytesMap SaltKey} {keys : List SaltKey}
    (h : gather H fuel store lookups updates = .ok (table, keys)) {after : EphemeralSaltState × StateUpdates}
    (hafter : (EphemeralSaltState.new store).update H fuel (updates.toList.filter (isInsertOrDelete H store)) =
      .ok after) (bucketIds : List ℕ) (key : SaltKey) :
    (∃ b ∈ bucketIds, key = metadataKey b) ∨ key ∈ keys ↔
      Demanded H fuel store bucketIds lookups updates after key := by
  obtain ⟨g, g', u, recorder, hg, hclass, hrun, rfl⟩ := gather_steps h
  have hreading := gatherLookups_reading (gatherStart_reading hstore) hg
  have hkeeps : (storeCapacities store).Keeps
      (Interaction.updateEach H fuel (updates.toList.filter (isInsertOrDelete H store))) fun _ ↦ True :=
    Interaction.keeps_updateEach fuel _
  have hexec := exec_updateEach_of_run hrun
  rw [hclass.recorder] at hexec
  have hsame := (CachesReads.agrees.exec hkeeps (hreading.with_updates .empty)).2.updates_eq
  have hrecorded := CachesReads.recorded_iff (x := key) id hkeeps (hreading.with_updates .empty)
  rw [hexec, exec_update hafter] at hsame hrecorded
  have hfound := foldlM_gains (P := fun g ↦ key ∈ g.witnessedKeys)
    (fun _ _ _ _ h ↦ gatherLookup_witnesses h key) (fun _ _ _ hg h ↦ gatherLookup_reading hg h)
    (gatherStart_reading hstore) hg
  have hread := foldlM_gains (P := fun g ↦ key ∈ g.recorder.1.cache)
    (fun _ _ _ hg h ↦ gatherLookup_records hg h key) (fun _ _ _ hg h ↦ gatherLookup_reading hg h)
    (gatherStart_reading hstore) hg
  have hnone : key ∉ (gatherStart store).witnessedKeys ∧ key ∉ (gatherStart store).recorder.1.cache :=
    ⟨List.not_mem_nil, ExtTreeMap.not_mem_empty⟩
  rw [or_iff_right hnone.1] at hfound
  rw [or_iff_right hnone.2] at hread
  obtain rfl : u = after.2 := hsame
  unfold Demanded
  rw [List.mem_append, List.mem_filter, ExtTreeMap.mem_keys, hclass.witnessed, hfound, hrecorded, hread, or_assoc]
  rfl

end Gather

theorem gather_covers (hstore : store.Obeys (storeCapacities store)) {lookups : List Bytes}
    {updates : BytesMap (Option Bytes)} {table : BytesMap SaltKey} {keys : List SaltKey}
    (h : gather H fuel store lookups updates = .ok (table, keys)) :
    (∀ kv ∈ updates.toList, kv.2.isSome → ∀ saltKey, searchStore H store kv.1 = .ok (some saltKey) →
      saltKey ∈ keys) ∧
      ∀ key ∈ log handle lookedUp
          (Interaction.updateEach H fuel (updates.toList.filter (isInsertOrDelete H store)))
          (EphemeralSaltState.new store, .empty),
        store.Holds key → key ∈ keys := by
  obtain ⟨g, g', u, recorder, hg, hclass, hrun, rfl⟩ := gather_steps h
  have hreading := gatherLookups_reading (gatherStart_reading hstore) hg
  have hkeeps : (storeCapacities store).Keeps
      (Interaction.updateEach H fuel (updates.toList.filter (isInsertOrDelete H store))) fun _ ↦ True :=
    Interaction.keeps_updateEach fuel _
  have hexec := exec_updateEach_of_run hrun
  rw [hclass.recorder] at hexec
  have hfits := oldFits_empty.exec id hkeeps (hreading.with_updates .empty)
  rw [hexec] at hfits
  refine ⟨fun kv hkv hsome saltKey hfound ↦ ?_, fun key hkey hholds ↦ ?_⟩
  · exact List.mem_append_left _ ((hclass.witnessed saltKey).mpr (.inr ⟨kv, hkv, hsome, hfound⟩))
  · have hcached := (hreading.with_updates .empty).recorded id hkeeps hkey hholds.1
    rw [hexec] at hcached
    refine List.mem_append_right _ (List.mem_filter.mpr ⟨ExtTreeMap.mem_keys.mpr hcached, ?_⟩)
    exact belowOldCapacity_of_holds hfits hholds

/-- A key that the store cannot read is in no witness. -/
theorem not_mem_of_not_answers {keys : List SaltKey} {w : SaltWitness C}
    (h : SaltWitness.createFrom debug createProof store keys = .ok w) {key : SaltKey}
    (hkey : key.isInMetaBucket = false ∨ ∃ b, isValidDataBucket b ∧ key = metadataKey b)
    (hanswers : ¬ store.Answers key) :
    key ∉ w.kvs := by
  intro hmem
  obtain ⟨hkeys, hall⟩ := createFrom_ok h
  obtain ⟨v, hv⟩ := hall key ((hkeys key).mp hmem)
  unfold witnessedEntry at hv
  apply hanswers
  rcases hkey with hdata | ⟨b, hb, rfl⟩
  · rw [hdata] at hv
    exact .inl ⟨hdata, v, hv⟩
  · rw [metadataKey_inMeta hb, if_pos rfl, bucketIdFromMetadataKey_metadataKey hb] at hv
    obtain ⟨m, hm, -⟩ := ok_of_bind hv
    exact .inr ⟨b, m, hb, rfl, hm⟩

theorem slotPath_data {b c h : ℕ} {plainKey : Bytes} (hb : isValidDataBucket b) (hc : c ≤ bucketSlotIdMask) (n step : ℕ)
    (hn : n ≤ c) : ∀ key ∈ slotPath store b h c plainKey n step, key.isInMetaBucket = false := by
  induction n generalizing step with
  | zero => exact fun _ hkey ↦ by cases hkey
  | succ n ih =>
    have hdata : (SaltKey.ofPair b (probe h step c)).isInMetaBucket = false := by
      have hslot : probe h step c < c := probe_lt (by omega) h step
      change c ≤ 2 ^ 40 - 1 at hc
      exact ofPair_not_inMeta hb (by omega)
    intro key hkey
    rw [slotPath] at hkey
    split at hkey
    · split_ifs at hkey
      · rwa [List.mem_singleton.mp hkey]
      · rcases List.mem_cons.mp hkey with rfl | hkey
        · exact hdata
        · exact ih (step + 1) (by omega) key hkey
    · rwa [List.mem_singleton.mp hkey]

theorem searchPath_kind (hstore : store.Obeys (storeCapacities store)) {plainKey : Bytes} {key : SaltKey}
    (hkey : key ∈ searchPath H store plainKey) :
    key.isInMetaBucket = false ∨ ∃ b, isValidDataBucket b ∧ key = metadataKey b := by
  have hb := H.bucketId_data plainKey
  rcases List.mem_cons.mp hkey with rfl | hkey
  · exact .inr ⟨_, hb, rfl⟩
  · split at hkey
    · rename_i m hm
      obtain ⟨_, -, -, hc⟩ := hstore.capacity _ m hb hm
      exact .inl (slotPath_data hb hc m.capacity 0 le_rfl key hkey)
    · cases hkey

def searchable (H : Hasher) (store : StateReader) (plainKey : Bytes) : Bool :=
  match searchStore H store plainKey with
  | .error (.err _) => false
  | _ => true

theorem gatherUpdates_filter (l : List (Bytes × Option Bytes)) (acc : Gathered × List (Bytes × Option Bytes)) :
    (l.filter fun kv ↦ searchable H store kv.1).foldlM (gatherUpdate H store) acc =
      l.foldlM (gatherUpdate H store) acc := by
  induction l generalizing acc with
  | nil => rfl
  | cons kv l ih =>
    rw [List.filter_cons, List.foldlM_cons]
    by_cases hkv : searchable H store kv.1
    · rw [if_pos hkv, List.foldlM_cons]
      congr 1
      funext acc'
      exact ih acc'
    · rw [if_neg hkv, ih]
      unfold searchable at hkv
      split at hkv
      · rename_i e hsearch
        have hstep : gatherUpdate H store acc kv = .ok acc := by
          unfold gatherUpdate
          rw [hsearch]
          rfl
        rw [hstep, ok_bind]
      · exact absurd rfl hkv

theorem create_filter (bucketIds : List ℕ) (lookups : List Bytes) (updates : BytesMap (Option Bytes)) :
    Witness.create H fuel debug createProof store bucketIds lookups (updates.filter fun k _ ↦ searchable H store k) =
      Witness.create H fuel debug createProof store bucketIds lookups updates := by
  unfold Witness.create gather
  rw [ExtTreeMap.toList_filter]
  simp only [gatherUpdates_filter]

theorem metadataKeys_ok_iff (bucketIds : List ℕ) :
    (∃ keys, bucketIds.mapM bucketMetadataKey = .ok keys) ↔ ∀ b ∈ bucketIds, isValidDataBucket b := by
  induction bucketIds with
  | nil => exact iff_of_true ⟨[], rfl⟩ (List.forall_mem_nil _)
  | cons b bucketIds ih =>
    rw [List.mapM_cons, List.forall_mem_cons, ← ih]
    by_cases hb : isValidDataBucket b
    · rw [bucketMetadataKey, if_pos hb, ok_bind, and_iff_right hb]
      constructor
      · rintro ⟨keys, h⟩
        obtain ⟨rest, hrest, -⟩ := ok_of_bind h
        exact ⟨rest, hrest⟩
      · rintro ⟨rest, hrest⟩
        rw [hrest]
        exact ⟨_, rfl⟩
    · rw [bucketMetadataKey, if_neg hb]
      constructor
      · rintro ⟨keys, h⟩
        cases h
      · exact fun h ↦ absurd h.1 hb

theorem metadataKeys_of_data {bucketIds : List ℕ} (h : ∀ b ∈ bucketIds, isValidDataBucket b) :
    bucketIds.mapM bucketMetadataKey = .ok (bucketIds.map metadataKey) :=
  mapM_eq_ok bucketIds fun b hb ↦ by rw [bucketMetadataKey, if_pos (h b hb)]

/-- The calls that return a witness. -/
theorem create_ok_iff (hstore : store.Obeys (storeCapacities store)) (bucketIds : List ℕ) (lookups : List Bytes)
    (updates : BytesMap (Option Bytes)) :
    (∃ w, Witness.create H fuel debug createProof store bucketIds lookups updates = .ok w) ↔
      Servable H fuel store createProof bucketIds lookups updates := by
  have hkeys : ∀ {table : BytesMap SaltKey} {keys : List SaltKey},
      gather H fuel store lookups updates = .ok (table, keys) → ∀ {after : EphemeralSaltState × StateUpdates},
      (EphemeralSaltState.new store).update H fuel (updates.toList.filter (isInsertOrDelete H store)) = .ok after →
      ∀ key, key ∈ bucketIds.map metadataKey ++ keys ↔ Demanded H fuel store bucketIds lookups updates after key := by
    intro table keys hgather after hafter key
    rw [← mem_gather hstore hgather hafter bucketIds key, List.mem_append, List.mem_map]
    simp only [eq_comm]
  unfold Witness.create
  constructor
  · rintro ⟨w, hw⟩
    obtain ⟨metadataKeys, hmeta, hw⟩ := ok_of_bind hw
    obtain ⟨⟨table, keys⟩, hgather, hw⟩ := ok_of_bind hw
    obtain ⟨sw, hsw, -⟩ := ok_of_bind hw
    have hdata := (metadataKeys_ok_iff bucketIds).mp ⟨_, ok_of_stateReadFault hmeta⟩
    obtain ⟨hserved, hsearches, after, hafter⟩ := (gather_ok_iff hstore).mp ⟨_, ok_of_stateReadFault hgather⟩
    obtain rfl : bucketIds.map metadataKey = metadataKeys :=
      Except.ok.inj ((metadataKeys_of_data hdata).symm.trans (ok_of_stateReadFault hmeta))
    obtain ⟨sorted, hsorted, hmem, hall, hproof⟩ := createFrom_ok_iff.mp ⟨sw, hsw⟩
    exact ⟨hdata, hserved, hsearches, after, hafter, sorted, hsorted,
      fun key ↦ (hmem key).trans (hkeys (ok_of_stateReadFault hgather) hafter key), hall, hproof⟩
  · rintro ⟨hdata, hserved, hsearches, after, hafter, sorted, hsorted, hmem, hall, hproof⟩
    obtain ⟨⟨table, keys⟩, hgather⟩ := (gather_ok_iff hstore).mpr ⟨hserved, hsearches, after, hafter⟩
    obtain ⟨sw, hsw⟩ := createFrom_ok_iff.mpr ⟨sorted, hsorted,
      fun key ↦ (hmem key).trans (hkeys hgather hafter key).symm, hall, hproof⟩
    rw [metadataKeys_of_data hdata, hgather]
    change ∃ w, (SaltWitness.createFrom debug createProof store (bucketIds.map metadataKey ++ keys) >>= _) = .ok w
    rw [hsw]
    exact ⟨_, rfl⟩

/-- A returned witness covers the update keys whose search succeeds. -/
theorem witnessed_of_readable (hstore : store.Obeys (storeCapacities store)) {bucketIds : List ℕ} {lookups : List Bytes}
    {updates : BytesMap (Option Bytes)} {w : Witness C}
    (hw : Witness.create H fuel debug createProof store bucketIds lookups updates = .ok w) {kv : Bytes × Option Bytes}
    (hkv : kv ∈ updates.toList) (hreadable : Readable H store kv.1) :
    Witnessed H fuel store w.saltWitness.kvs updates kv := by
  unfold Witness.create at hw
  obtain ⟨metadataKeys, -, hw⟩ := ok_of_bind hw
  obtain ⟨⟨table, keys⟩, hgather, hw⟩ := ok_of_bind hw
  obtain ⟨sw, hsw, hw⟩ := ok_of_bind hw
  cases hw
  obtain ⟨hinPlace, hrun⟩ := gather_covers hstore (ok_of_stateReadFault hgather)
  have hkeys : ∀ key ∈ keys, key ∈ sw.kvs := fun key hkey ↦
    ((createFrom_ok hsw).1 key).mpr (List.mem_append_right _ hkey)
  obtain ⟨found, hfound⟩ := (searchStore_ok_iff hstore).mpr hreadable
  by_cases hplace : kv.2.isSome ∧ found.isSome
  · obtain ⟨saltKey, rfl⟩ := Option.isSome_iff_exists.mp hplace.2
    exact .inl ⟨hplace.1, saltKey, hkeys _ (hinPlace kv hkv hplace.1 saltKey hfound), hfound⟩
  · refine .inr ⟨?_, fun key hkey hholds ↦ hkeys key (hrun key hkey hholds)⟩
    unfold isInsertOrDelete
    rw [hfound]
    rcases found with _ | saltKey
    · rfl
    · simpa using hplace

theorem not_witnessed_of_unreadable (hstore : store.Obeys (storeCapacities store))
    {kvs : ExtTreeMap SaltKey (Option SaltValue)} {updates : BytesMap (Option Bytes)} {kv : Bytes × Option Bytes}
    (h : ¬ Readable H store kv.1) : ¬ Witnessed H fuel store kvs updates kv := by
  rw [← searchStore_ok_iff hstore] at h
  rintro (⟨-, saltKey, -, hfound⟩ | ⟨hpending, -⟩)
  · exact h ⟨_, hfound⟩
  · unfold isInsertOrDelete at hpending
    split at hpending
    · exact h ⟨_, by assumption⟩
    · exact h ⟨_, by assumption⟩
    · cases hpending

/-- Failed reads are reported exactly when there are none, or when something else stops the call: unreadable update keys
are left out as if they had not been given, and a key of their path is missing from every witness. -/
theorem witness_create_reports_iff (hstore : store.Obeys (storeCapacities store)) (bucketIds : List ℕ)
    (lookups : List Bytes) (updates : BytesMap (Option Bytes)) :
    (Reports H fuel store updates (Witness.create H fuel debug createProof store bucketIds lookups updates) ↔
      (∀ kv ∈ updates.toList, Readable H store kv.1) ∨ ¬ Servable H fuel store createProof bucketIds lookups updates) ∧
      Witness.create H fuel debug createProof store bucketIds lookups updates =
        Witness.create H fuel debug createProof store bucketIds lookups
          (updates.filter fun k _ ↦ searchable H store k) ∧
      ∀ w, Witness.create H fuel debug createProof store bucketIds lookups updates = .ok w →
        ∀ kv ∈ updates.toList, (Witnessed H fuel store w.saltWitness.kvs updates kv ↔ Readable H store kv.1) ∧
          (¬ Readable H store kv.1 →
            ∃ key ∈ searchPath H store kv.1, ¬ store.Answers key ∧ key ∉ w.saltWitness.kvs) := by
  refine ⟨?_, (create_filter bucketIds lookups updates).symm, fun w hw kv hkv ↦ ⟨⟨fun hwitnessed ↦ ?_,
    witnessed_of_readable hstore hw hkv⟩, fun hunreadable ↦ ?_⟩⟩
  · have hok : (∃ w, Witness.create H fuel debug createProof store bucketIds lookups updates = .ok w) ↔ _ :=
      create_ok_iff hstore bucketIds lookups updates
    rw [← hok]
    constructor
    · intro hreports
      by_contra hneither
      push Not at hneither
      obtain ⟨⟨kv, hkv, hunreadable⟩, w, hw⟩ := hneither
      exact hreports.1 ⟨kv, hkv, hunreadable⟩ w hw
    · rintro (hall | hfails)
      · refine ⟨fun ⟨kv, hkv, hunreadable⟩ ↦ absurd (hall kv hkv) hunreadable, fun w hw kv hkv ↦ ?_⟩
        exact witnessed_of_readable hstore hw hkv (hall kv hkv)
      · exact ⟨fun _ w hw ↦ hfails ⟨w, hw⟩, fun w hw ↦ absurd ⟨w, hw⟩ hfails⟩
  · by_contra hunreadable
    exact not_witnessed_of_unreadable hstore hunreadable hwitnessed
  · unfold Witness.create at hw
    obtain ⟨metadataKeys, -, hw⟩ := ok_of_bind hw
    obtain ⟨⟨table, keys⟩, -, hw⟩ := ok_of_bind hw
    obtain ⟨sw, hsw, hw⟩ := ok_of_bind hw
    cases hw
    unfold Readable at hunreadable
    push Not at hunreadable
    obtain ⟨key, hkey, hanswers⟩ := hunreadable
    exact ⟨key, hkey, hanswers, not_mem_of_not_answers hsw (searchPath_kind hstore hkey) hanswers⟩

end Covering

section Dropped

def secondBucketHasher : Hasher := ⟨fun _ _ ↦ 0, fun _ ↦ 65537, fun _ ↦ rfl⟩

def firstBucketReader : StateReader where
  value _ := .error (.err (.notInWitness "Key"))
  metadata b := if b = 65536 then .ok BucketMeta.default else .error (.err (.notInWitness "Metadata"))
  bucketUsedSlots _ := .error (.err (.notInWitness "Key"))
  plainValueFast _ := .error (.err (.notInWitness "Plain key"))
  getSubtreeLevels _ := .error (.err (.notInWitness "Bucket root"))

def firstBucketProof : SaltProof Unit :=
  ⟨ExtTreeMap.ofList [(0, ()), (1, ()), (258, ()), (66049, ())], ExtTreeMap.ofList [(256, 1)]⟩

def oneInsertion : BytesMap (Option Bytes) := (∅ : BytesMap (Option Bytes)).insert [1] (some [2])

def createFirstBucket : Except ProofFault (Witness Unit) :=
  Witness.create secondBucketHasher 1 (fun _ ↦ "") (fun _ ↦ .ok firstBucketProof) firstBucketReader [65536] []
    oneInsertion

theorem firstBucketReader_obeys : firstBucketReader.Obeys (storeCapacities firstBucketReader) where
  capacity := by
    intro b m _ hm
    refine ⟨m, hm, le_rfl, ?_⟩
    simp only [firstBucketReader] at hm
    split_ifs at hm
    cases hm
    decide
  direct := fun _ _ hkey ↦ by cases hkey

theorem searchStore_second (plainKey : Bytes) :
    searchStore secondBucketHasher firstBucketReader plainKey = .error (.err (.notInWitness "Metadata")) := by
  have hmeta : firstBucketReader.metadata (secondBucketHasher.bucketId plainKey) =
      .error (.err (.notInWitness "Metadata")) :=
    if_neg (c := (65537 : ℕ) = 65536) (t := Except.ok BucketMeta.default) (by decide)
  unfold searchStore
  dsimp only
  rw [hmeta]
  rfl

theorem gather_second {fuel : ℕ} (updates : BytesMap (Option Bytes)) :
    gather secondBucketHasher fuel firstBucketReader [] updates = .ok (∅, []) := by
  have hnone : updates.toList.filter (fun kv ↦ searchable secondBucketHasher firstBucketReader kv.1) = [] := by
    refine List.filter_eq_nil_iff.mpr fun kv _ ↦ ?_
    unfold searchable
    rw [searchStore_second]
    exact Bool.false_ne_true
  unfold gather
  simp only [← gatherUpdates_filter updates.toList, hnone]
  rfl

theorem createFirstBucket_ok :
    createFirstBucket = .ok ⟨∅, ⟨(∅ : ExtTreeMap SaltKey (Option SaltValue)).insert (metadataKey 65536)
      (some (SaltValue.ofMeta BucketMeta.default)), firstBucketProof⟩⟩ := by
  have hkeys : [65536].mapM bucketMetadataKey = .ok [metadataKey 65536] := rfl
  have hentry : witnessedEntry firstBucketReader (metadataKey 65536) =
      .ok (some (SaltValue.ofMeta BucketMeta.default)) := by
    have hmeta : firstBucketReader.metadata 65536 = .ok BucketMeta.default := rfl
    unfold witnessedEntry
    rw [metadataKey_inMeta (by decide), if_pos rfl, bucketIdFromMetadataKey_metadataKey (by decide), hmeta]
    rfl
  unfold createFirstBucket Witness.create SaltWitness.createFrom
  rw [hkeys, gather_second]
  simp only [stateReadFault, ok_bind, List.append_nil, List.foldlM_cons, List.foldlM_nil, addEntry, hentry]
  rfl

theorem not_readable_second (plainKey : Bytes) : ¬ Readable secondBucketHasher firstBucketReader plainKey := by
  rw [← searchStore_ok_iff firstBucketReader_obeys, searchStore_second]
  rintro ⟨r, hr⟩
  cases hr

theorem mem_oneInsertion : ([1], some [2]) ∈ oneInsertion.toList :=
  ExtTreeMap.mem_toList_iff_getElem?_eq_some.mpr ExtTreeMap.getElem?_insert_self

/-- An insertion whose bucket cannot be read is left out of a witness that is returned. -/
theorem witness_create_unreadable_dropped :
    (∃ kv ∈ oneInsertion.toList, ¬ Readable secondBucketHasher firstBucketReader kv.1) ∧
      (∃ w, createFirstBucket = .ok w) ∧
      ¬ Reports secondBucketHasher 1 firstBucketReader oneInsertion createFirstBucket := by
  refine ⟨⟨_, mem_oneInsertion, not_readable_second _⟩, ⟨_, createFirstBucket_ok⟩, fun hreports ↦ ?_⟩
  exact hreports.1 ⟨_, mem_oneInsertion, not_readable_second _⟩ _ createFirstBucket_ok

/-- Nothing stops the call, which therefore drops the insertion; were its key among the lookups, that would stop it. -/
theorem witness_create_reports_iff_firstBucket :
    Servable secondBucketHasher 1 firstBucketReader (fun _ ↦ .ok firstBucketProof) [65536] [] oneInsertion ∧
      Reports secondBucketHasher 1 firstBucketReader oneInsertion
        (Witness.create secondBucketHasher 1 (fun _ ↦ "") (fun _ ↦ .ok firstBucketProof) firstBucketReader [65536] [[1]]
          oneInsertion) := by
  constructor
  · by_contra hstopped
    have hreports : Reports secondBucketHasher 1 firstBucketReader oneInsertion createFirstBucket :=
      (witness_create_reports_iff firstBucketReader_obeys [65536] [] oneInsertion).1.mpr (.inr hstopped)
    exact hreports.1 ⟨_, mem_oneInsertion, not_readable_second _⟩ _ createFirstBucket_ok
  · refine (witness_create_reports_iff firstBucketReader_obeys [65536] [[1]] oneInsertion).1.mpr (.inr ?_)
    exact fun h ↦ not_readable_second [1] (h.served [1] (List.mem_singleton_self _)).1

end Dropped

end Salt
