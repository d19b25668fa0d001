import Salt.Trie.MemStore
import Salt.Proof.PanicFree
import Salt.Library.Overlay

namespace Salt

open Std (ExtTreeMap ExtTreeSet)
open Library.Triple Library.Workers Library.Chunks Library.Overlay
open Multipoint (ProverQuery divCeil)

/-- `Vec::dedup`: one element of each run of equal ones. -/
def dedupRuns {α : Type} [DecidableEq α] : List α → List α
  | a :: b :: l => if a = b then dedupRuns (b :: l) else a :: dedupRuns (b :: l)
  | l => l

def outOfOrder : List SaltKey → Bool
  | a :: b :: l => a.val > b.val || outOfOrder (b :: l)
  | _ => false

def stateRead {α : Type} (reason : String) : Except Fault α → Except ProofFault α
  | .ok a => .ok a
  | .error (.err _) => .error (.err (.stateReadError reason))
  | .error (.panic p) => .error (.panic p)

section Prover

variable {C F : Type} (hash : C → F) (slotToField : Option SaltValue → F) (D : DefaultCommitments C)
  (s : MemStore C)

/-- The commitments of the 256 children of a node; the first child of the root has a default of its
own. -/
def childCommitments (nodeId : ℕ) : Except ProofFault (List C) := do
  let parent ← unpanicked (logicParentId nodeId)
  let childIdx := getChildNode parent 0
  let children := s.nodeEntries childIdx (childIdx + trieWidth)
  let defaultIdx := if childIdx = 1 then childIdx + 1 else childIdx
  let d ← unpanicked (defaultCommitment D defaultIdx)
  let defaults ← if childIdx = 1 then do
      let d₀ ← unpanicked (defaultCommitment D childIdx)
      .ok ((List.replicate trieWidth d).set 0 d₀)
    else .ok (List.replicate trieWidth d)
  .ok (overlay (fun e ↦ e.1 - childIdx) Prod.snd children defaults)

def multiCommitmentsToScalars (nodes : List (ℕ × ExtTreeSet ℕ)) : Except ProofFault (List F) := do
  let parts ← nodes.mapM fun e ↦ childCommitments D s e.1
  .ok (parts.flatten.map hash)

def createProverQueries (commitment : C) (poly : List F) (points : ExtTreeSet ℕ) :
    Except ProofFault (List (ProverQuery F C)) :=
  points.toList.mapM fun i ↦
    match poly[i]? with
    | some result => .ok ⟨commitment, ⟨poly⟩, i, result⟩
    | none => .error (.panic .indexOutOfRange)

def chunkProverQueries (nodes : List (ℕ × ExtTreeSet ℕ)) : Except ProofFault (List (ProverQuery F C)) := do
  let childrenScalars ← multiCommitmentsToScalars hash D s nodes
  let parts ← (List.zip nodes (chunks trieWidth childrenScalars)).mapM fun e ↦ do
    let commitment ← unpanicked (s.commitment D (connectParentId e.1.1))
    createProverQueries commitment e.2 e.1.2
  .ok parts.flatten

def leafStart (parent : ℕ) : ℕ × ℕ :=
  if parent < bucketSlotIdMask then ((parent - leftmostNode 3) % 2 ^ 32, 0)
  else (parent / 2 ^ bucketSlotBits, (SaltKey.ofPair 0 (subtreeLeafStartKey parent)).slotId)

def processLeafNode (parent : ℕ) (parentCommitment : C) (points : ExtTreeSet ℕ) :
    Except ProofFault (List (ProverQuery F C)) :=
  let bucketId := (leafStart parent).1
  let slotStart := (leafStart parent).2
  let entries := s.entries (SaltKey.ofPair bucketId slotStart)
    (SaltKey.ofPair bucketId (slotStart + trieWidth - 1))
  let defaultCoefficient := if bucketId < numMetaBuckets then
      slotToField (some (SaltValue.ofMeta BucketMeta.default))
    else slotToField none
  createProverQueries parentCommitment
    (overlay (fun e ↦ e.1.slotId % 256) (fun e ↦ slotToField (some e.2)) entries
      (List.replicate trieWidth defaultCoefficient)) points

def validateKey (key : SaltKey) : Except ProofFault Unit := do
  let capacity ← if key.isInMetaBucket then .ok metaBucketSize
    else do
      let meta' ← stateRead s!"Failed to read metadata for bucket {key.bucketId}"
        (s.state.metadata key.bucketId)
      .ok meta'.capacity
  if key.slotId < capacity then .ok () else .error (.err (.invalidSaltKey key capacity))

def bucketLevel (bucketId : ℕ) : Except ProofFault ℕ :=
  if bucketId < numMetaBuckets then .ok 1
  else do
    let meta' ← stateRead s!"Failed to read metadata for bucket {bucketId}" (s.state.metadata bucketId)
    -- a capacity beyond the deepest tree panics, nothing else goes wrong here
    let rootLevel ← stateRead "" (subtreeRootLevel meta'.capacity)
    .ok (maxSubtreeLevels - rootLevel)

def createSubTrie (S : ProofSchedule) (saltKeys : List SaltKey) :
    Except ProofFault (List (ProverQuery F C) × ExtTreeMap ℕ C × ExtTreeMap ℕ ℕ) := do
  if saltKeys.isEmpty then .error (.err (.stateReadError "empty key set"))
  else
    saltKeys.forM (validateKey s)
    let bucketIds := dedupRuns (saltKeys.map SaltKey.bucketId)
    let levels ← bucketIds.foldlM (fun (levels : ExtTreeMap ℕ ℕ) bucketId ↦ do
      let level ← bucketLevel s bucketId
      .ok (levels.insert bucketId level)) ∅
    let (internalNodes, leafNodes) ← unpanicked (parentsAndPoints saltKeys levels)
    let parentsCommitments ← (internalNodes.keys ++ leafNodes.keys).foldlM
      (fun (m : ExtTreeMap ℕ C) parent ↦ do
        let commitment ← unpanicked (s.commitment D (connectParentId parent))
        .ok (m.insert (connectParentId parent) commitment)) ∅
    let nodes := internalNodes.toList
    let chunkSize := divCeil nodes.length S.threads
    if chunkSize = 0 then .error (.panic (.unwrap "chunk size must be non-zero"))
    else
      let queries ← parMapM S.internalFirst (chunkProverQueries hash D s) (chunks chunkSize nodes)
      let leafQueries ← parMapM S.leafFirst (fun e : ℕ × ExtTreeSet ℕ ↦ do
        let parentCommitment ← unpanicked (s.commitment D (connectParentId e.1))
        processLeafNode slotToField s e.1 parentCommitment e.2) leafNodes.toList
      .ok (queries.flatten ++ leafQueries.flatten, parentsCommitments, levels)

/-- The queries that are handed to the multipoint prover, and the proof without their opening. -/
def SaltProof.create (S : ProofSchedule) (keys : List SaltKey) :
    Except ProofFault (List (ProverQuery F C) × SaltProof C) := do
  let keys := if outOfOrder keys then keys.mergeSort (fun a b ↦ a.val ≤ b.val) else keys
  let (proverQueries, parentsCommitments, levels) ← createSubTrie hash slotToField D s S (dedupRuns keys)
  .ok (proverQueries, ⟨parentsCommitments, levels⟩)

/-- The value of a key as the witness records it, metadata always explicit. -/
def witnessedValue (key : SaltKey) : Except ProofFault (Option SaltValue) :=
  if key.isInMetaBucket then do
    let meta' ← stateRead "Failed to read key" (s.state.metadata (bucketIdFromMetadataKey key))
    .ok (some (SaltValue.ofMeta meta'))
  else .ok s.state.kvs[key]?

def SaltWitness.create (S : ProofSchedule) (keys : List SaltKey) :
    Except ProofFault (SaltWitness C × List (ProverQuery F C)) := do
  let kvs ← keys.foldlM (fun (kvs : ExtTreeMap SaltKey (Option SaltValue)) saltKey ↦ do
    let value ← witnessedValue s saltKey
    .ok (kvs.insert saltKey value)) ∅
  let (proverQueries, proof) ← SaltProof.create hash slotToField D s S kvs.keys
  .ok (⟨kvs, proof⟩, proverQueries)

end Prover

section Lists

theorem mem_dedupRuns {α : Type} [DecidableEq α] {a : α} {l : List α} : a ∈ dedupRuns l ↔ a ∈ l := by
  fun_induction dedupRuns l with
  | case1 b l ih =>
    rw [ih]
    simp
  | case2 b c l hne ih =>
    rw [List.mem_cons, ih, List.mem_cons (a := a) (b := b)]
  | case3 l => rfl

theorem dedupRuns_eq {α : Type} [DecidableEq α] {l : List α} (h : l.Pairwise (· ≠ ·)) :
    dedupRuns l = l := by
  fun_induction dedupRuns l with
  | case1 b l ih =>
    rw [List.pairwise_cons] at h
    exact absurd rfl (h.1 b (List.mem_cons_self ..))
  | case2 b c l hne ih =>
    rw [List.pairwise_cons] at h
    rw [ih h.2]
  | case3 l => rfl

theorem outOfOrder_eq_false {l : List SaltKey} (h : l.Pairwise fun a b ↦ a.val < b.val) :
    outOfOrder l = false := by
  fun_induction outOfOrder l with
  | case1 a b l ih =>
    rw [List.pairwise_cons] at h
    have hab := h.1 b (List.mem_cons_self ..)
    rw [ih h.2, Bool.or_false, decide_eq_false_iff_not]
    omega
  | case2 l => rfl

theorem foldlM_insert_eq {α β γ : Type} [Ord α] [Std.TransOrd α] [Std.LawfulEqOrd α] [DecidableEq α]
    {ε : Type} (key : γ → α) {f : γ → Except ε β} (g : α → β) {l : List γ}
    (h : ∀ a ∈ l, f a = .ok (g (key a))) (m : ExtTreeMap α β) :
    ∃ m', l.foldlM (fun (m : ExtTreeMap α β) a ↦ do
        let b ← f a
        .ok (m.insert (key a) b)) m = .ok m' ∧
      ∀ k, m'[k]? = if k ∈ l.map key then some (g k) else m[k]? := by
  induction l generalizing m with
  | nil => exact ⟨m, rfl, fun k ↦ by simp⟩
  | cons a l ih =>
    obtain ⟨m', hm', hget⟩ := ih (fun b hb ↦ h b (List.mem_cons_of_mem _ hb)) (m.insert (key a) (g (key a)))
    refine ⟨m', ?_, fun k ↦ ?_⟩
    · rw [List.foldlM_cons, h a (List.mem_cons_self ..)]
      exact hm'
    · rw [hget, ExtTreeMap.getElem?_insert, List.map_cons]
      by_cases hk : k ∈ l.map key
      · rw [if_pos hk, if_pos (List.mem_cons_of_mem _ hk)]
      · by_cases hka : key a = k
        · subst hka
          simp [hk]
        · rw [if_neg hk, if_neg (by simpa [Std.LawfulEqCmp.compare_eq_iff_eq] using hka),
            if_neg (by simp [hk, Ne.symm hka])]

end Lists

end Salt
