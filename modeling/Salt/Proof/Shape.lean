import Salt.Trie.NodeUtils
import Salt.Library.Triple
import Mathlib.Tactic.Linarith

namespace Salt

open Std (ExtTreeMap ExtTreeSet)
open Library.Triple

abbrev Points := ExtTreeMap ℕ (ExtTreeSet ℕ)

namespace Points

def insertPoint (m : Points) (node position : ℕ) : Points :=
  m.insert node (((m[node]?).getD ∅).insert position)

def extendEntry (acc : Points) (e : ℕ × ExtTreeSet ℕ) : Points :=
  acc.insert e.1 (((acc[e.1]?).getD ∅).insertMany e.2.toList)

def extend (acc m : Points) : Points := m.toList.foldl extendEntry acc

def Opens (m : Points) (p : ℕ × ℕ) : Prop := ∃ s, m[p.1]? = some s ∧ p.2 ∈ s

variable {m acc : Points} {p : ℕ × ℕ} {node position : ℕ}

theorem opens_insertPoint :
    (m.insertPoint node position).Opens p ↔ p = (node, position) ∨ m.Opens p := by
  obtain ⟨n, q⟩ := p
  by_cases h : node = n
  · subst h
    have hself : (m.insertPoint node position)[node]? = some (((m[node]?).getD ∅).insert position) := by
      simp [insertPoint]
    simp only [Opens, hself, Option.some.injEq, exists_eq_left', Prod.mk.injEq, true_and,
      ExtTreeSet.mem_insert, Std.LawfulEqCmp.compare_eq_iff_eq]
    cases hm : m[node]? with
    | none => simp [eq_comm]
    | some s => simp [eq_comm]
  · have hother : (m.insertPoint node position)[n]? = m[n]? := by
      simp [insertPoint, ExtTreeMap.getElem?_insert, h]
    simp only [Opens, hother, Prod.mk.injEq, Ne.symm h, false_and, false_or]

theorem opens_extendEntry {e : ℕ × ExtTreeSet ℕ} :
    (acc.extendEntry e).Opens p ↔ p.1 = e.1 ∧ p.2 ∈ e.2 ∨ acc.Opens p := by
  obtain ⟨n, q⟩ := p
  obtain ⟨node, s⟩ := e
  by_cases h : node = n
  · subst h
    have hself : (acc.extendEntry (node, s))[node]? = some (((acc[node]?).getD ∅).insertMany s.toList) := by
      simp [extendEntry]
    simp only [Opens, hself, Option.some.injEq, exists_eq_left', true_and]
    cases hm : acc[node]? with
    | none => simp [ExtTreeSet.mem_insertMany_list]
    | some s' => simp [ExtTreeSet.mem_insertMany_list, or_comm]
  · have hother : (acc.extendEntry (node, s))[n]? = acc[n]? := by
      simp [extendEntry, ExtTreeMap.getElem?_insert, h]
    simp only [Opens, hother, Ne.symm h, false_and, false_or]

theorem opens_extend : (acc.extend m).Opens p ↔ m.Opens p ∨ acc.Opens p := by
  have key : ∀ (l : List (ℕ × ExtTreeSet ℕ)) (acc : Points),
      Opens (l.foldl extendEntry acc) p ↔ (∃ s, (p.1, s) ∈ l ∧ p.2 ∈ s) ∨ acc.Opens p := by
    intro l
    induction l with
    | nil => simp
    | cons e l ih =>
      intro acc
      rw [List.foldl_cons, ih, opens_extendEntry]
      constructor
      · rintro (⟨s, hs, hp⟩ | ⟨he, hp⟩ | h)
        · exact .inl ⟨s, List.mem_cons_of_mem _ hs, hp⟩
        · exact .inl ⟨e.2, by rw [he]; exact List.mem_cons_self .., hp⟩
        · exact .inr h
      · rintro (⟨s, hs, hp⟩ | h)
        · rcases List.mem_cons.mp hs with rfl | hs
          · exact .inr (.inl ⟨rfl, hp⟩)
          · exact .inl ⟨s, hs, hp⟩
        · exact .inr (.inr h)
  rw [extend, key]
  simp only [ExtTreeMap.mem_toList_iff_getElem?_eq_some]
  rfl

end Points

/-- Puts the depth of a bucket tree into the bits above the bucket's main trie node. -/
def encodeParent (parent level : ℕ) : ℕ := parent ||| level <<< 33

def isEncodedNode (maybeEncodedNode : ℕ) : Bool := maybeEncodedNode / 2 ^ 33 % 8 ≠ 0

def connectParentId (maybeEncodedNode : ℕ) : ℕ :=
  if isEncodedNode maybeEncodedNode then maybeEncodedNode % 2 ^ 33 else maybeEncodedNode

/-- The subtree root of an encoded parent; a depth above 5 has no starting node. -/
def logicParentId (maybeEncodedNode : ℕ) : Except Panic ℕ :=
  if isEncodedNode maybeEncodedNode then
    let connectParent := maybeEncodedNode % 2 ^ 33
    let levels := maybeEncodedNode / 2 ^ 33 % 256
    let bucketId := connectParent - leftmostNode 3
    if maxSubtreeLevels < levels then .error .underflow
    else .ok (leftmostNode (maxSubtreeLevels - levels) ||| bucketId <<< bucketSlotBits)
  else .ok maybeEncodedNode

def mainTriePoints : ℕ → ℕ → Points → Except Panic Points
  | 0, _, _ => .error .diverges
  | fuel + 1, node, internalNodes =>
    if node = 0 then .ok internalNodes
    else do
      let parentNode ← getParentNode node
      mainTriePoints fuel parentNode (internalNodes.insertPoint parentNode (vcPositionInParent node))

/-- Bucket tree traversal: climbs while more than two levels are left. -/
def subtreePoints : ℕ → ℕ → Points → Except Panic (ℕ × Points)
  | count + 3, node, internalNodes => do
    let parentNode ← getParentNode node
    subtreePoints (count + 2) parentNode
      (internalNodes.insertPoint parentNode (vcPositionInParent node))
  | _, node, internalNodes => .ok (node, internalNodes)

def keyPoints (levels : ExtTreeMap ℕ ℕ) (saltKey : SaltKey) : Except Panic (Points × Points) := do
  let bucketId := saltKey.bucketId
  match levels[bucketId]? with
  | none => .error .indexOutOfRange
  | some level =>
    let internalNodes ← mainTriePoints mainTrieLevels (bucketRootNodeId bucketId) ∅
    let (node, internalNodes) ← subtreePoints level (subtreeLeafForKey saltKey) internalNodes
    -- the loop leaves two levels exactly when there were at least two
    let internalNodes := if 2 ≤ level then
        internalNodes.insertPoint (encodeParent (bucketRootNodeId bucketId) level)
          (vcPositionInParent node)
      else internalNodes
    let node := if level = 1 then bucketRootNodeId bucketId else subtreeLeafForKey saltKey
    .ok (internalNodes, (∅ : Points).insertPoint node (saltKey.slotId % 256))

def parentsAndPoints (saltKeys : List SaltKey) (levels : ExtTreeMap ℕ ℕ) :
    Except Panic (Points × Points) :=
  saltKeys.foldlM (fun acc saltKey ↦ do
    let (internalMap, slotMap) ← keyPoints levels saltKey
    .ok (acc.1.extend internalMap, acc.2.extend slotMap)) (∅, ∅)

theorem or_shiftLeft {a i : ℕ} (h : a < 2 ^ i) (n : ℕ) : a ||| n <<< i = n * 2 ^ i + a := by
  rw [Nat.or_comm, Nat.shiftLeft_eq, Nat.mul_comm, Nat.two_pow_add_eq_or_of_lt h]

section Encoded

variable {b level : ℕ}

theorem encodeParent_eq (hb : b < 2 ^ 24) (level : ℕ) :
    encodeParent (bucketRootNodeId b) level = level * 2 ^ 33 + nodeAt 0 3 b := by
  rw [bucketRootNodeId_eq, encodeParent, or_shiftLeft]
  have := local_lt (show 3 ≤ 4 by omega) (show b < 256 ^ 3 by omega)
  rw [nodeAt]
  omega

theorem connectParentId_encodeParent (hb : b < 2 ^ 24) (hl : 2 ≤ level) (hl' : level ≤ 6) :
    connectParentId (encodeParent (bucketRootNodeId b) level) = nodeAt 0 3 b := by
  have hlt := local_lt (show 3 ≤ 4 by omega) (show b < 256 ^ 3 by omega)
  have hnode : nodeAt 0 3 b = leftmostNode 3 + b := by
    rw [nodeAt]
    omega
  rw [encodeParent_eq hb, connectParentId, if_pos]
  · omega
  · simp only [isEncodedNode, decide_eq_true_eq]
    omega

theorem logicParentId_encodeParent (hb : b < 2 ^ 24) (hl : 2 ≤ level) (hl' : level ≤ 5) :
    logicParentId (encodeParent (bucketRootNodeId b) level) = .ok (nodeAt b (5 - level) 0) := by
  have hlt := local_lt (show 3 ≤ 4 by omega) (show b < 256 ^ 3 by omega)
  have hnode : nodeAt 0 3 b = leftmostNode 3 + b := by
    rw [nodeAt]
    omega
  have hleft := leftmostNode_lt (show 5 - level ≤ 5 by omega)
  rw [encodeParent_eq hb, logicParentId, if_pos]
  · have hlevel : (level * 2 ^ 33 + nodeAt 0 3 b) / 2 ^ 33 % 256 = level := by omega
    have hbucket : (level * 2 ^ 33 + nodeAt 0 3 b) % 2 ^ 33 - leftmostNode 3 = b := by omega
    simp only [hlevel, hbucket, maxSubtreeLevels, Nat.not_lt.mpr hl', if_false]
    rw [or_shiftLeft (hleft.trans (by norm_num)), nodeAt, Nat.add_zero]
  · simp only [isEncodedNode, decide_eq_true_eq]
    omega

theorem logicParentId_encodeParent_six (hb : b < 2 ^ 24) :
    logicParentId (encodeParent (bucketRootNodeId b) 6) = .error .underflow := by
  have hlt := local_lt (show 3 ≤ 4 by omega) (show b < 256 ^ 3 by omega)
  have hnode : nodeAt 0 3 b = leftmostNode 3 + b := by
    rw [nodeAt]
    omega
  rw [encodeParent_eq hb, logicParentId, if_pos]
  · have hlevel : (6 * 2 ^ 33 + nodeAt 0 3 b) / 2 ^ 33 % 256 = 6 := by omega
    simp only [hlevel]
    rfl
  · simp only [isEncodedNode, decide_eq_true_eq]
    omega

theorem isEncodedNode_nodeAt {l x : ℕ} (hl : l ≤ 4) (hx : x < 256 ^ l) :
    isEncodedNode (nodeAt b l x) = false := by
  have := local_lt hl hx
  rw [isEncodedNode, decide_eq_false_iff_not, not_not, nodeAt]
  omega

theorem connectParentId_nodeAt {l x : ℕ} (hl : l ≤ 4) (hx : x < 256 ^ l) :
    connectParentId (nodeAt b l x) = nodeAt b l x := by
  rw [connectParentId, isEncodedNode_nodeAt hl hx]
  rfl

theorem logicParentId_nodeAt {l x : ℕ} (hl : l ≤ 4) (hx : x < 256 ^ l) :
    logicParentId (nodeAt b l x) = .ok (nodeAt b l x) := by
  rw [logicParentId, isEncodedNode_nodeAt hl hx]
  rfl

end Encoded

def Climbed (m : Points) (b l x n : ℕ) : Prop :=
  ∀ i < n, m.Opens (nodeAt b (l - 1 - i) (x / 256 ^ (i + 1)), x / 256 ^ i % 256)

theorem Climbed.mono {m m' : Points} {b l x n : ℕ} (h : Climbed m b l x n)
    (hm : ∀ p, m.Opens p → m'.Opens p) : Climbed m' b l x n := fun i hi ↦ hm _ (h i hi)

theorem Climbed.step {m : Points} {b l x n : ℕ} (h₀ : m.Opens (nodeAt b l (x / 256), x % 256))
    (h : Climbed m b l (x / 256) n) : Climbed m b (l + 1) x (n + 1) := by
  intro i hi
  cases i with
  | zero => simpa using h₀
  | succ i =>
    have hstep := h i (by omega)
    rw [Nat.div_div_eq_div_mul, Nat.div_div_eq_div_mul, ← pow_succ', ← pow_succ'] at hstep
    rwa [show l + 1 - 1 - (i + 1) = l - 1 - i by omega]

theorem mainTriePoints_spec {l x : ℕ} (hl : l ≤ 4) (hx : x < 256 ^ l) (m : Points) :
    Sat (mainTriePoints (l + 1) (nodeAt 0 l x) m) (fun _ ↦ True)
      (fun m' ↦ (∀ p, m.Opens p → m'.Opens p) ∧ Climbed m' 0 l x l) := by
  induction l generalizing x m with
  | zero =>
    have hnode : nodeAt 0 0 x = 0 := by
      have : x = 0 := by simpa using hx
      subst this
      decide
    rw [mainTriePoints, if_pos hnode]
    exact Sat.ok ⟨fun _ ↦ id, fun i hi ↦ by omega⟩
  | succ l ih =>
    have hnode : nodeAt 0 (l + 1) x ≠ 0 := by
      have := leftmostNode_mono (show 1 ≤ l + 1 by omega) (by omega)
      rw [show leftmostNode 1 = 1 from rfl] at this
      rw [nodeAt]
      omega
    rw [mainTriePoints, if_neg hnode, getParentNode_nodeAt (by omega) hx, ok_bind,
      vcPositionInParent_nodeAt hl hx]
    refine (ih (by omega) (by rw [pow_succ] at hx; omega) _).mono fun m' hm' ↦ ?_
    have hstep : m'.Opens (nodeAt 0 l (x / 256), x % 256) :=
      hm'.1 _ (Points.opens_insertPoint.mpr (.inl rfl))
    exact ⟨fun p hp ↦ hm'.1 p (Points.opens_insertPoint.mpr (.inr hp)), .step hstep hm'.2⟩

theorem subtreePoints_spec {b l x : ℕ} (hl : l ≤ 4) (hx : x < 256 ^ l) (count : ℕ) (m : Points) :
    Sat (subtreePoints count (nodeAt b l x) m) (fun _ ↦ True)
      (fun r ↦ count - 2 ≤ l ∧ r.1 = nodeAt b (l - (count - 2)) (x / 256 ^ (count - 2)) ∧
        (∀ p, m.Opens p → r.2.Opens p) ∧ Climbed r.2 b l x (count - 2)) := by
  induction count generalizing l x m with
  | zero => exact Sat.ok ⟨by omega, by simp, fun _ ↦ id, fun i hi ↦ by omega⟩
  | succ count ih =>
    rcases Nat.lt_or_ge count 2 with hc | hc
    · obtain rfl | rfl : count = 0 ∨ count = 1 := by omega
      · exact Sat.ok ⟨by omega, by simp, fun _ ↦ id, fun i hi ↦ by omega⟩
      · exact Sat.ok ⟨by omega, by simp, fun _ ↦ id, fun i hi ↦ by omega⟩
    · obtain ⟨n, rfl⟩ : ∃ n, count = n + 2 := ⟨count - 2, by omega⟩
      rw [subtreePoints]
      cases l with
      | zero =>
        obtain rfl : x = 0 := by simpa using hx
        rw [getParentNode_root]
        exact Sat.error trivial
      | succ l =>
        rw [getParentNode_nodeAt (by omega) hx, ok_bind, vcPositionInParent_nodeAt hl hx]
        refine (ih (by omega) (by rw [pow_succ] at hx; omega) _).mono ?_
        intro r ⟨hle, hnode, hmono, hclimb⟩
        simp only [Nat.add_sub_cancel] at hle hnode hclimb
        have hstep : r.2.Opens (nodeAt b l (x / 256), x % 256) :=
          hmono _ (Points.opens_insertPoint.mpr (.inl rfl))
        refine ⟨by omega, ?_, fun p hp ↦ hmono p (Points.opens_insertPoint.mpr (.inr hp)),
          .step hstep hclimb⟩
        rw [hnode, Nat.div_div_eq_div_mul, ← pow_succ', show n + 2 + 1 - 2 = n + 1 by omega,
          show l + 1 - (n + 1) = l - n by omega]

structure KeyOpened (levels : ExtTreeMap ℕ ℕ) (key : SaltKey) (internal leaf : Points) (level : ℕ) :
    Prop where
  found : levels[key.bucketId]? = some level
  level_le : level ≤ 6
  main : Climbed internal 0 3 key.bucketId 3
  subtree : Climbed internal key.bucketId 4 (key.slotId / 256) (level - 2)
  bridge : 2 ≤ level → internal.Opens (encodeParent (bucketRootNodeId key.bucketId) level,
    key.slotId / 256 / 256 ^ (level - 2) % 256)
  slot : leaf.Opens (if level = 1 then bucketRootNodeId key.bucketId else subtreeLeafForKey key,
    key.slotId % 256)

theorem KeyOpened.mono {levels : ExtTreeMap ℕ ℕ} {key : SaltKey} {i i' l l' : Points} {level : ℕ}
    (h : KeyOpened levels key i l level) (hi : ∀ p, i.Opens p → i'.Opens p)
    (hl : ∀ p, l.Opens p → l'.Opens p) : KeyOpened levels key i' l' level :=
  ⟨h.found, h.level_le, h.main.mono hi, h.subtree.mono hi, fun h2 ↦ hi _ (h.bridge h2), hl _ h.slot⟩

theorem keyPoints_spec (levels : ExtTreeMap ℕ ℕ) (key : SaltKey) :
    Sat (keyPoints levels key) (fun _ ↦ True)
      (fun r ↦ ∃ level, KeyOpened levels key r.1 r.2 level) := by
  have hb : key.bucketId < 256 ^ 3 := key.bucketId_lt
  have hs : key.slotId / 256 < 256 ^ 4 := by
    have := key.slotId_lt
    omega
  rw [keyPoints]
  cases hlev : levels[key.bucketId]? with
  | none => exact Sat.error trivial
  | some level =>
    simp only
    rw [bucketRootNodeId_eq, subtreeLeafForKey_eq]
    refine (mainTriePoints_spec (by omega) hb ∅).bind fun m₁ ⟨_, hmain⟩ ↦ ?_
    refine (subtreePoints_spec le_rfl hs level m₁).bind ?_
    intro ⟨node, m₂⟩ ⟨hle, hnode, hmono, hclimb⟩
    simp only at hnode hmono hclimb ⊢
    subst hnode
    have hdiv : key.slotId / 256 / 256 ^ (level - 2) < 256 ^ (4 - (level - 2)) := by
      rw [Nat.div_lt_iff_lt_mul (by positivity), ← pow_add]
      rwa [Nat.sub_add_cancel hle]
    have hkeep : ∀ p, m₂.Opens p → Points.Opens (if 2 ≤ level then
        m₂.insertPoint (encodeParent (nodeAt 0 3 key.bucketId) level)
          (vcPositionInParent (nodeAt key.bucketId (4 - (level - 2))
            (key.slotId / 256 / 256 ^ (level - 2)))) else m₂) p := by
      intro p hp
      split
      · exact Points.opens_insertPoint.mpr (.inr hp)
      · exact hp
    refine Sat.ok ⟨level, hlev, by omega, (hmain.mono hmono).mono hkeep, hclimb.mono hkeep,
      fun h2 ↦ ?_, ?_⟩
    · rw [if_pos h2, vcPositionInParent_nodeAt (by omega) hdiv, bucketRootNodeId_eq]
      exact Points.opens_insertPoint.mpr (.inl rfl)
    · rw [bucketRootNodeId_eq, subtreeLeafForKey_eq]
      exact Points.opens_insertPoint.mpr (.inl rfl)

theorem parentsAndPoints_spec (keys : List SaltKey) (levels : ExtTreeMap ℕ ℕ) :
    Sat (parentsAndPoints keys levels) (fun _ ↦ True)
      (fun r ↦ ∀ key ∈ keys, ∃ level, KeyOpened levels key r.1 r.2 level) := by
  refine Sat.foldlM (fun done (r : Points × Points) ↦ ∀ key ∈ done, ∃ level,
    KeyOpened levels key r.1 r.2 level) keys (∅, ∅) (fun key hkey ↦ by cases hkey) ?_
  intro done key rest _ acc hacc
  refine (keyPoints_spec levels key).bind fun r ⟨level, hr⟩ ↦ Sat.ok fun key' hkey' ↦ ?_
  rcases List.mem_append.mp hkey' with hmem | hmem
  · obtain ⟨level', h'⟩ := hacc key' hmem
    exact ⟨level', h'.mono (fun p hp ↦ Points.opens_extend.mpr (.inr hp))
      fun p hp ↦ Points.opens_extend.mpr (.inr hp)⟩
  · obtain rfl := List.mem_singleton.mp hmem
    exact ⟨level, hr.mono (fun p hp ↦ Points.opens_extend.mpr (.inl hp))
      fun p hp ↦ Points.opens_extend.mpr (.inl hp)⟩

end Salt
