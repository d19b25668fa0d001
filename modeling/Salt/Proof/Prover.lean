import Salt.Proof.Shape
import Mathlib.Data.Finset.Dedup

namespace Salt

open Std (ExtTreeMap ExtTreeSet)
open Library.Triple

inductive ProofError
  | stateReadError (reason : String)
  | missingRootCommitment
  | rootMismatch (expected actual : Bytes)
  | multiPointProofFailed
  | invalidLookupTable (reason : String) (plainKey : Bytes)
  | invalidSaltKey (key : SaltKey) (capacity : ℕ)
deriving DecidableEq

inductive ProofFault
  | err (e : ProofError)
  | panic (p : Panic)
deriving DecidableEq

def unpanicked {α : Type} : Except Panic α → Except ProofFault α
  | .ok a => .ok a
  | .error p => .error (.panic p)

/-- The proof part of a witness: the commitments of the opened nodes and the number of subtree
levels of each witnessed bucket. The polynomial opening itself is left out. -/
structure SaltProof (C : Type) where
  parentsCommitments : ExtTreeMap ℕ C
  levels : ExtTreeMap ℕ ℕ

structure VerifierQuery (C F : Type) where
  commitment : C
  point : ℕ
  result : F

section Queries

variable {C F : Type} (hash : C → F) (slotToField : Option SaltValue → F)
  (pathCommitments : ExtTreeMap ℕ C)

def missingCommitment (nodeId : ℕ) : ProofFault :=
  .err (.stateReadError s!"Missing commitment for node ID {nodeId}")

def getCommitmentSafe (nodeId : ℕ) : Except ProofFault C :=
  match pathCommitments[nodeId]? with
  | some c => .ok c
  | none => .error (missingCommitment nodeId)

def childrenCommitments (nodes : List (ℕ × ExtTreeSet ℕ)) : Except ProofFault (List (ℕ × C)) := do
  let parts ← nodes.mapM fun e ↦ e.2.toList.mapM fun point ↦ do
    let parent ← unpanicked (logicParentId e.1)
    let childId := getChildNode parent point
    let c ← getCommitmentSafe pathCommitments childId
    .ok (childId, c)
  .ok parts.flatten

/-- One query for each opened child: the parent's vector holds the child's hash. -/
def createInternalNodeQueries (internalNodes : Points) :
    Except ProofFault (List (VerifierQuery C F)) := do
  let nodes := internalNodes.toList
  let children ← childrenCommitments pathCommitments nodes
  let childMap : ExtTreeMap ℕ F := children.foldl (fun m e ↦ m.insert e.1 (hash e.2)) ∅
  let queries ← nodes.mapM fun e ↦ do
    let commitment ← getCommitmentSafe pathCommitments (connectParentId e.1)
    e.2.toList.mapM fun point ↦ do
      let parent ← unpanicked (logicParentId e.1)
      let childId := getChildNode parent point
      match childMap[childId]? with
      | some fr => .ok ⟨commitment, point, fr⟩
      | none => .error (missingCommitment childId)
  .ok queries.flatten

/-- The first key of a leaf: a main trie bucket below the 40-bit mask, a subtree segment above. -/
def leafStartKey (parentNode : ℕ) : ℕ :=
  if parentNode < bucketSlotIdMask then
    (SaltKey.ofPair ((parentNode - leftmostNode 3) % 2 ^ 32) 0).val
  else subtreeLeafStartKey parentNode

/-- One query for each slot position: the leaf's vector holds the value of the key found there. -/
def createLeafNodeQueries (leafNodes : Points) (kvs : ExtTreeMap SaltKey (Option SaltValue)) :
    Except ProofFault (List (VerifierQuery C F)) := do
  let queries ← leafNodes.toList.mapM fun e ↦ do
    let commitment ← getCommitmentSafe pathCommitments (connectParentId e.1)
    e.2.toList.mapM fun point ↦
      let saltKey := SaltKey.ofPair 0 (leafStartKey e.1 + point)
      match kvs[saltKey]? with
      | some saltVal => .ok ⟨commitment, point, slotToField saltVal⟩
      | none => .error (.err (.stateReadError
          s!"Missing key-value entry for salt_key: SaltKey({saltKey.val})"))
  .ok queries.flatten

end Queries

namespace SaltProof

variable {C F : Type} (hash : C → F) (slotToField : Option SaltValue → F)

def createVerifierQueries (p : SaltProof C) (kvs : ExtTreeMap SaltKey (Option SaltValue)) :
    Except ProofFault (List (VerifierQuery C F)) := do
  if kvs.isEmpty then .error (.err (.stateReadError "kvs is empty"))
  else if p.levels.keys.toFinset ≠ (kvs.keys.map SaltKey.bucketId).toFinset then
    .error (.err (.stateReadError "buckets_top_level in proof contains unknown bucket level info"))
  else
    let (internalNodes, leafNodes) ← unpanicked (parentsAndPoints kvs.keys p.levels)
    let required := ((internalNodes.keys ++ leafNodes.keys).map connectParentId).toFinset
    if p.parentsCommitments.keys.toFinset ≠ required then
      .error (.err (.stateReadError "path_commitments in proof contains unknown node commitment"))
    else
      let internalQueries ← createInternalNodeQueries hash p.parentsCommitments internalNodes
      let leafQueries ← createLeafNodeQueries slotToField p.parentsCommitments leafNodes kvs
      .ok (internalQueries ++ leafQueries)

end SaltProof

section Truth

variable {C F : Type} {hash : C → F} {slotToField : Option SaltValue → F} {vec : C → ℕ → F}
  {pc : ExtTreeMap ℕ C} {qs : List (VerifierQuery C F)} {m : Points}
  {kvs : ExtTreeMap SaltKey (Option SaltValue)}

variable (vec) in
def Truthful (q : VerifierQuery C F) : Prop := vec q.commitment q.point = q.result

theorem getCommitmentSafe_ok {n : ℕ} {c : C} (h : getCommitmentSafe pc n = .ok c) :
    pc[n]? = some c := by
  rw [getCommitmentSafe] at h
  cases hc : pc[n]? with
  | none =>
    rw [hc] at h
    cases h
  | some c' =>
    rw [hc] at h
    cases h
    rfl

theorem unpanicked_ok {α : Type} {x : Except Panic α} {a : α} (h : unpanicked x = .ok a) :
    x = .ok a := by
  cases x with
  | ok b =>
    cases h
    rfl
  | error p => cases h

theorem Points.Opens.mem {n q : ℕ} (h : m.Opens (n, q)) : ∃ s, (n, s) ∈ m.toList ∧ q ∈ s.toList := by
  obtain ⟨s, hs, hq⟩ := h
  exact ⟨s, ExtTreeMap.mem_toList_iff_getElem?_eq_some.mpr hs, ExtTreeSet.mem_toList.mpr hq⟩

theorem childMap_hash {nodes : List (ℕ × ExtTreeSet ℕ)} {children : List (ℕ × C)}
    (h : childrenCommitments pc nodes = .ok children) {i : ℕ} {fr : F}
    (hi : (children.foldl (fun m e ↦ m.insert e.1 (hash e.2)) (∅ : ExtTreeMap ℕ F))[i]? = some fr) :
    ∃ c, pc[i]? = some c ∧ fr = hash c := by
  have hmem : ∀ e ∈ children, pc[e.1]? = some e.2 := by
    rw [childrenCommitments] at h
    obtain ⟨parts, hparts, h⟩ := ok_of_bind h
    cases h
    intro e he
    obtain ⟨part, hpart, he⟩ := List.mem_flatten.mp he
    obtain ⟨a, -, ha⟩ := (mapM_ok hparts).2 part hpart
    obtain ⟨point, -, hpoint⟩ := (mapM_ok ha).2 e he
    obtain ⟨lp, -, hpoint⟩ := ok_of_bind hpoint
    obtain ⟨c, hc, hpoint⟩ := ok_of_bind hpoint
    cases hpoint
    exact getCommitmentSafe_ok hc
  have key : ∀ (l : List (ℕ × C)) (acc : ExtTreeMap ℕ F), (∀ e ∈ l, pc[e.1]? = some e.2) →
      (∀ (j : ℕ) (f : F), acc[j]? = some f → ∃ c, pc[j]? = some c ∧ f = hash c) →
      ∀ (j : ℕ) (f : F), (l.foldl (fun m e ↦ m.insert e.1 (hash e.2)) acc)[j]? = some f →
        ∃ c, pc[j]? = some c ∧ f = hash c := by
    intro l
    induction l with
    | nil => exact fun acc _ hacc ↦ hacc
    | cons e l ih =>
      intro acc hl hacc
      refine ih _ (fun e' he' ↦ hl e' (List.mem_cons_of_mem _ he')) fun j f hj ↦ ?_
      rw [ExtTreeMap.getElem?_insert] at hj
      split at hj
      · rename_i heq
        rw [Std.LawfulEqCmp.compare_eq_iff_eq] at heq
        cases hj
        exact ⟨e.2, heq ▸ hl e (List.mem_cons_self ..), rfl⟩
      · exact hacc j f hj
  exact key children ∅ hmem (fun j f hj ↦ by simp at hj) i fr hi

theorem internal_truth (h : createInternalNodeQueries hash pc m = .ok qs)
    (ht : ∀ q ∈ qs, Truthful vec q) {n q : ℕ} (ho : m.Opens (n, q)) :
    ∃ parent c c', logicParentId n = .ok parent ∧ pc[connectParentId n]? = some c ∧
      pc[getChildNode parent q]? = some c' ∧ vec c q = hash c' := by
  obtain ⟨s, hs, hq⟩ := ho.mem
  rw [createInternalNodeQueries] at h
  obtain ⟨children, hchildren, h⟩ := ok_of_bind h
  obtain ⟨queries, hqueries, h⟩ := ok_of_bind h
  cases h
  obtain ⟨part, hpart, he⟩ := (mapM_ok hqueries).1 _ hs
  obtain ⟨c, hc, he⟩ := ok_of_bind he
  obtain ⟨query, hquery, he⟩ := (mapM_ok he).1 q hq
  obtain ⟨parent, hparent, he⟩ := ok_of_bind he
  have htrue := ht query (List.mem_flatten.mpr ⟨part, hpart, hquery⟩)
  simp only at he
  split at he
  · rename_i fr hfr
    obtain ⟨c', hc', rfl⟩ := childMap_hash hchildren hfr
    cases he
    exact ⟨parent, c, c', unpanicked_ok hparent, getCommitmentSafe_ok hc, hc', htrue⟩
  · cases he

theorem leaf_truth (h : createLeafNodeQueries slotToField pc m kvs = .ok qs)
    (ht : ∀ q ∈ qs, Truthful vec q) {n q : ℕ} (ho : m.Opens (n, q)) :
    ∃ c v, pc[connectParentId n]? = some c ∧ kvs[SaltKey.ofPair 0 (leafStartKey n + q)]? = some v ∧
      vec c q = slotToField v := by
  obtain ⟨s, hs, hq⟩ := ho.mem
  rw [createLeafNodeQueries] at h
  obtain ⟨queries, hqueries, h⟩ := ok_of_bind h
  cases h
  obtain ⟨part, hpart, he⟩ := (mapM_ok hqueries).1 _ hs
  obtain ⟨c, hc, he⟩ := ok_of_bind he
  obtain ⟨query, hquery, he⟩ := (mapM_ok he).1 q hq
  have htrue := ht query (List.mem_flatten.mpr ⟨part, hpart, hquery⟩)
  simp only at he
  split at he
  · rename_i v hv
    cases he
    exact ⟨c, v, getCommitmentSafe_ok hc, hv, htrue⟩
  · cases he

end Truth

end Salt
