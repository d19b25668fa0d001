import Salt.Proof.Paths
import Salt.Proof.SlotHash
import Salt.Proof.Witness
import Salt.Library.Workers
import Salt.Multipoint.MultiproofComplete

namespace Salt

open Std (ExtTreeMap ExtTreeSet)
open Library.Triple Library.Workers Library.Chunks
open Multipoint (CRS Codec PrecomputedWeights MultiPointProof MultipointPanic divCeil label)

/-! The check of an untrusted witness. Records arrive as 94 arbitrary bytes, so here the slices of
`key` and `value` are checked. -/

namespace SaltValue

def keySlice (v : SaltValue) : Except Panic Bytes :=
  if 2 + v.keyLen ≤ maxSaltValueBytes then .ok v.key else .error .sliceOutOfRange

def valueSlice (v : SaltValue) : Except Panic Bytes :=
  if 2 + v.keyLen + v.valueLen ≤ maxSaltValueBytes then .ok v.value else .error .sliceOutOfRange

def Fits (v : SaltValue) : Prop := 2 + v.keyLen + v.valueLen ≤ maxSaltValueBytes

end SaltValue

structure ProofSystem (F E : Type) [Field F] [DecidableEq F] where
  mapToScalarField : E → F
  hashCommitment : E → Bytes
  digest : Bytes → F
  emptySlotHash : F
  codec : Codec F E
  crs : CRS E
  precomp : PrecomputedWeights F
  precomputed : PrecomputedWeights.new F crs.n = .ok precomp

/-- The number of threads, and the pieces of work whose results come first. -/
structure ProofSchedule where
  threads : ℕ
  threads_pos : 0 < threads
  internalFirst : List ℕ
  leafFirst : List ℕ

section Queries

variable {C F : Type} (hash : C → F) (digest : Bytes → F) (emptySlotHash : F)
  (pathCommitments : ExtTreeMap ℕ C)

def slotToFieldChecked : Option SaltValue → Except Panic F
  | none => .ok emptySlotHash
  | some saltValue => do
    let key ← saltValue.keySlice
    let value ← saltValue.valueSlice
    .ok (digest (key ++ value))

def nodeQueries (childMap : ExtTreeMap ℕ F) (e : ℕ × ExtTreeSet ℕ) :
    Except ProofFault (List (VerifierQuery C F)) := do
  let commitment ← getCommitmentSafe pathCommitments (connectParentId e.1)
  e.2.toList.mapM fun point ↦ do
    let parent ← unpanicked (logicParentId e.1)
    let childId := getChildNode parent point
    match childMap[childId]? with
    | some fr => .ok ⟨commitment, point, fr⟩
    | none => .error (missingCommitment childId)

def chunkQueries (nodes : List (ℕ × ExtTreeSet ℕ)) : Except ProofFault (List (VerifierQuery C F)) := do
  let children ← childrenCommitments pathCommitments nodes
  let childMap : ExtTreeMap ℕ F := children.foldl (fun m e ↦ m.insert e.1 (hash e.2)) ∅
  let queries ← nodes.mapM (nodeQueries pathCommitments childMap)
  .ok queries.flatten

theorem createInternalNodeQueries_eq (m : Points) :
    createInternalNodeQueries hash pathCommitments m = chunkQueries hash pathCommitments m.toList := rfl

def internalQueriesPar (S : ProofSchedule) (internalNodes : Points) :
    Except ProofFault (List (VerifierQuery C F)) := do
  let nodes := internalNodes.toList
  let chunkSize := divCeil nodes.length S.threads
  if chunkSize = 0 then .error (.panic (.unwrap "chunk size must be non-zero"))
  else
    let queries ← parMapM S.internalFirst (chunkQueries hash pathCommitments) (chunks chunkSize nodes)
    .ok queries.flatten

def slotKey (p : ℕ × ℕ) : SaltKey := SaltKey.ofPair 0 (leafStartKey p.1 + p.2)

def leafQueries (kvs : ExtTreeMap SaltKey (Option SaltValue)) (e : ℕ × ExtTreeSet ℕ) :
    Except ProofFault (List (VerifierQuery C F)) := do
  let commitment ← getCommitmentSafe pathCommitments (connectParentId e.1)
  e.2.toList.mapM fun point ↦
    let saltKey := slotKey (e.1, point)
    match kvs[saltKey]? with
    | some saltVal => do
      let result ← unpanicked (slotToFieldChecked digest emptySlotHash saltVal)
      .ok ⟨commitment, point, result⟩
    | none => .error (.err (.stateReadError
        s!"Missing key-value entry for salt_key: SaltKey({saltKey.val})"))

def leafQueriesPar (S : ProofSchedule) (leafNodes : Points)
    (kvs : ExtTreeMap SaltKey (Option SaltValue)) : Except ProofFault (List (VerifierQuery C F)) := do
  let queries ← parMapM S.leafFirst (leafQueries digest emptySlotHash pathCommitments kvs) leafNodes.toList
  .ok queries.flatten

end Queries

variable {F E : Type} [Field F] [DecidableEq F]

namespace SaltProof

/-- `create_verifier_queries` on several threads. -/
def verifierQueriesPar (sys : ProofSystem F E) (S : ProofSchedule) (p : SaltProof E)
    (kvs : ExtTreeMap SaltKey (Option SaltValue)) : Except ProofFault (List (VerifierQuery E F)) := do
  if kvs.isEmpty then .error (.err (.stateReadError "kvs is empty"))
  else if p.levels.keys.toFinset ≠ (kvs.keys.map SaltKey.bucketId).toFinset then
    .error (.err (.stateReadError "buckets_top_level in proof contains unknown bucket level info"))
  else
    let (internalNodes, leafNodes) ← unpanicked (parentsAndPoints kvs.keys p.levels)
    let required := ((internalNodes.keys ++ leafNodes.keys).map connectParentId).toFinset
    if p.parentsCommitments.keys.toFinset ≠ required then
      .error (.err (.stateReadError "path_commitments in proof contains unknown node commitment"))
    else
      let internalQueries ← internalQueriesPar sys.mapToScalarField p.parentsCommitments S internalNodes
      let leafQueries ← leafQueriesPar sys.digest sys.emptySlotHash p.parentsCommitments S leafNodes kvs
      .ok (internalQueries ++ leafQueries)

variable [AddCommGroup E] [Module F E] [DecidableEq E]

def multipointPanics {α : Type} : Except MultipointPanic α → Except ProofFault α
  | .ok a => .ok a
  | .error _ => .error (.panic (.unwrap "multipoint"))

def check (sys : ProofSystem F E) (S : ProofSchedule) (p : SaltProof E) (opening : MultiPointProof F E)
    (data : ExtTreeMap SaltKey (Option SaltValue)) (stateRoot : Bytes) : Except ProofFault Unit := do
  let queries ← p.verifierQueriesPar sys S data
  match p.parentsCommitments[0]? with
  | none => .error (.err .missingRootCommitment)
  | some root =>
    let trieRoot := sys.hashCommitment root
    if stateRoot ≠ trieRoot then .error (.err (.rootMismatch trieRoot stateRoot))
    else
      let (accepted, _) ← multipointPanics (opening.check S.threads sys.codec sys.crs sys.precomp
        (queries.map fun q ↦ ⟨q.commitment, (q.point : F), q.result⟩) ⟨label "st"⟩)
      if accepted then .ok () else .error (.err .multiPointProofFailed)

end SaltProof

namespace SaltWitness

def stateRoot (sys : ProofSystem F E) (w : SaltWitness E) : Except ProofFault Bytes :=
  match w.proof.parentsCommitments[0]? with
  | some root => .ok (sys.hashCommitment root)
  | none => .error (.err .missingRootCommitment)

variable [AddCommGroup E] [Module F E] [DecidableEq E]

def verifyProof (sys : ProofSystem F E) (S : ProofSchedule) (w : SaltWitness E)
    (opening : MultiPointProof F E) : Except ProofFault Unit := do
  let root ← w.stateRoot sys
  w.proof.check sys S opening w.kvs root

end SaltWitness

def EphemeralSaltState.directFindSliced (st : EphemeralSaltState) (plainKey : Bytes) :
    Except Fault (EphemeralSaltState × Option (SaltKey × SaltValue)) := do
  match ← attempt (st.store.plainValueFast plainKey) with
  | some saltKey =>
    let (st, entry) ← st.value saltKey
    match entry with
    | some saltVal =>
      match saltVal.keySlice with
      | .ok key => if key = plainKey then .ok (st, some (saltKey, saltVal)) else .ok (st, none)
      | .error p => .error (.panic p)
    | none => .ok (st, none)
  | none => .ok (st, none)

namespace Witness

def sliceEntry (tbl : BytesMap SaltKey) (e : SaltKey × Option SaltValue) :
    Except Panic (BytesMap SaltKey) :=
  if e.1.isInMetaBucket then .ok tbl
  else
    match e.2 with
    | some saltValue => do
      let plainKey ← saltValue.keySlice
      .ok (tbl.insert plainKey e.1)
    | none => .ok tbl

def fromSaltWitness (w : SaltWitness E) : Except Panic (Witness E) := do
  let tbl ← w.kvs.toList.foldlM sliceEntry ∅
  .ok ⟨tbl, w⟩

def verifyEntry (st : EphemeralSaltState) (e : Bytes × SaltKey) : Except ProofFault EphemeralSaltState :=
  match st.directFindSliced e.1 with
  | .ok (st, some (k, _)) =>
    if k = e.2 then .ok st else .error (.err (.invalidLookupTable "Key found in wrong location" e.1))
  | .ok (_, none) => .error (.err (.invalidLookupTable "Key claimed to exist but not found" e.1))
  | .error (.err _) => .error (.err (.invalidLookupTable "Key claimed to exist but not found" e.1))
  | .error (.panic p) => .error (.panic p)

variable [AddCommGroup E] [Module F E] [DecidableEq E]

def verify (sys : ProofSystem F E) (S : ProofSchedule) (w : Witness E) (opening : MultiPointProof F E) :
    Except ProofFault Unit := do
  w.saltWitness.verifyProof sys S opening
  let _ ← w.directLookupTbl.toList.foldlM verifyEntry (EphemeralSaltState.new w.reader)
  .ok ()

/-- What a receiver does with a witness from the network. -/
def verifyUntrusted (sys : ProofSystem F E) (S : ProofSchedule) (w : SaltWitness E)
    (opening : MultiPointProof F E) : Except ProofFault Unit := do
  let witness ← unpanicked (fromSaltWitness w)
  witness.verify sys S opening

end Witness

def Refusal (e : ProofFault) : Prop := ∃ x, e = .err x

theorem sat_refusal_iff {α : Type} {m : Except ProofFault α} :
    Sat m Refusal (fun _ ↦ True) ↔ ∀ p, m ≠ .error (.panic p) := by
  constructor
  · intro h p hp
    obtain ⟨x, hx⟩ := h.of_eq_error hp
    cases hx
  · intro h
    cases hm : m with
    | ok a => exact Sat.ok trivial
    | error e =>
      cases e with
      | err x => exact Sat.error ⟨x, rfl⟩
      | panic p => exact absurd hm (h p)

section Slices

variable {K : Type} {v : SaltValue} {digest : Bytes → K} {emptySlotHash : K}

theorem slotToFieldChecked_ok {entry : Option SaltValue} (h : ∀ v, entry = some v → v.Fits) :
    slotToFieldChecked digest emptySlotHash entry = .ok (kvHash digest emptySlotHash entry) := by
  cases entry with
  | none => rfl
  | some v =>
    have hv := h v rfl
    rw [SaltValue.Fits] at hv
    simp only [slotToFieldChecked, SaltValue.keySlice, SaltValue.valueSlice]
    rw [if_pos (by omega), ok_bind, if_pos hv, ok_bind, kvHash]

theorem slotToFieldChecked_panics (h : ¬ v.Fits) :
    slotToFieldChecked digest emptySlotHash (some v) = .error .sliceOutOfRange := by
  rw [SaltValue.Fits] at h
  simp only [slotToFieldChecked, SaltValue.keySlice, SaltValue.valueSlice]
  by_cases hk : 2 + v.keyLen ≤ maxSaltValueBytes
  · rw [if_pos hk, ok_bind, if_neg h]
    rfl
  · rw [if_neg hk]
    rfl

end Slices

def KeysInRange (w : SaltWitness E) : Prop :=
  ∀ (k : SaltKey) (v : SaltValue), k.isInMetaBucket = false → w.kvs[k]? = some (some v) →
    2 + v.keyLen ≤ maxSaltValueBytes

section Index

variable {w : SaltWitness E}

theorem sliceEntry_ok {tbl : BytesMap SaltKey} {e : SaltKey × Option SaltValue}
    (h : ∀ v, e.1.isInMetaBucket = false → e.2 = some v → 2 + v.keyLen ≤ maxSaltValueBytes) :
    Witness.sliceEntry tbl e = .ok (Witness.indexEntry tbl e) := by
  obtain ⟨k, entry⟩ := e
  rw [Witness.sliceEntry, Witness.indexEntry]
  by_cases hm : k.isInMetaBucket
  · rw [if_pos hm, if_pos hm]
  · rw [if_neg hm, if_neg hm]
    cases entry with
    | none => rfl
    | some v =>
      simp only [SaltValue.keySlice]
      rw [if_pos (h v (by simpa using hm) rfl), ok_bind]

theorem fromSaltWitness_ok (h : KeysInRange w) :
    Witness.fromSaltWitness w = .ok (Witness.ofSaltWitness w) := by
  have key : ∀ (l : List (SaltKey × Option SaltValue)) (tbl : BytesMap SaltKey),
      (∀ e ∈ l, w.kvs[e.1]? = some e.2) →
      l.foldlM Witness.sliceEntry tbl = .ok (l.foldl Witness.indexEntry tbl) := by
    intro l
    induction l with
    | nil => exact fun _ _ ↦ rfl
    | cons e l ih =>
      intro tbl hl
      have hv : ∀ v, e.1.isInMetaBucket = false → e.2 = some v → 2 + v.keyLen ≤ maxSaltValueBytes :=
        fun v hm hv ↦ h e.1 v hm (hv ▸ hl e (List.mem_cons_self ..))
      rw [List.foldlM_cons, List.foldl_cons, sliceEntry_ok hv, ok_bind]
      exact ih _ fun e he ↦ hl e (List.mem_cons_of_mem _ he)
  have hrun := key w.kvs.toList ∅ fun e he ↦ ExtTreeMap.mem_toList_iff_getElem?_eq_some.mp he
  rw [Witness.fromSaltWitness, hrun]
  rfl

theorem fromSaltWitness_panics (h : ¬ KeysInRange w) :
    ∃ p, Witness.fromSaltWitness w = .error p := by
  simp only [KeysInRange, not_forall] at h
  obtain ⟨k, v, hmeta, hkv, hlen⟩ := h
  cases hrun : Witness.fromSaltWitness w with
  | error p => exact ⟨p, rfl⟩
  | ok r =>
    rw [Witness.fromSaltWitness] at hrun
    obtain ⟨tbl, htbl, -⟩ := ok_of_bind hrun
    have hmem : (k, some v) ∈ w.kvs.toList := ExtTreeMap.mem_toList_iff_getElem?_eq_some.mpr hkv
    obtain ⟨pre, post, hsplit⟩ := List.append_of_mem hmem
    rw [hsplit, List.foldlM_append] at htbl
    obtain ⟨tbl', -, htbl⟩ := ok_of_bind htbl
    rw [List.foldlM_cons] at htbl
    obtain ⟨tbl'', hstep, -⟩ := ok_of_bind htbl
    simp only [Witness.sliceEntry, hmeta, Bool.false_eq_true, if_false, SaltValue.keySlice,
      if_neg hlen] at hstep
    cases hstep

theorem verifyLoop_sat (h : KeysInRange w) :
    Sat ((Witness.ofSaltWitness w).directLookupTbl.toList.foldlM Witness.verifyEntry
      (EphemeralSaltState.new (Witness.ofSaltWitness w).reader)) Refusal fun _ ↦ True := by
  refine (Sat.foldlM (fun _ st ↦ st = EphemeralSaltState.new (Witness.ofSaltWitness w).reader)
    _ _ rfl ?_).mono fun _ _ ↦ trivial
  rintro done ⟨plainKey, claimed⟩ rest - st rfl
  have hread : ∀ r, (EphemeralSaltState.new (Witness.ofSaltWitness w).reader).directFindSliced plainKey = r →
      (∃ x, r = .error (.err x)) ∨
        ∃ found, r = .ok (EphemeralSaltState.new (Witness.ofSaltWitness w).reader, found) := by
    rintro r rfl
    simp only [EphemeralSaltState.directFindSliced, EphemeralSaltState.new, Witness.reader,
      Witness.plainValueFast]
    cases htbl : (Witness.ofSaltWitness w).directLookupTbl[plainKey]? with
    | none => exact .inr ⟨none, rfl⟩
    | some saltKey =>
      have hdata := Witness.ofSaltWitness_data w htbl
      have hempty : (∅ : ExtTreeMap SaltKey (Option SaltValue))[saltKey]? = none := by simp
      simp only [attempt, ok_bind, EphemeralSaltState.value, hempty, SaltWitness.reader, SaltWitness.value,
        Witness.ofSaltWitness]
      cases hkv : w.kvs[saltKey]? with
      | none => exact .inl ⟨_, rfl⟩
      | some entry =>
        cases entry with
        | none => exact .inr ⟨none, rfl⟩
        | some v =>
          have hv := h saltKey v hdata hkv
          simp only [ok_bind, SaltValue.keySlice, if_pos hv, Bool.false_eq_true, if_false]
          split
          · exact .inr ⟨_, rfl⟩
          · exact .inr ⟨_, rfl⟩
  rw [Witness.verifyEntry]
  rcases hread _ rfl with ⟨x, hx⟩ | ⟨found, hfound⟩
  · rw [hx]
    exact Sat.error ⟨_, rfl⟩
  · rw [hfound]
    cases found with
    | none => exact Sat.error ⟨_, rfl⟩
    | some e =>
      simp only
      split
      · exact Sat.ok rfl
      · exact Sat.error ⟨_, rfl⟩

end Index

end Salt
