import Salt.Trie.Depth
import Salt.Multipoint.Ipa

namespace Salt

open Library.Triple
open Multipoint (divCeil)

/-- The nodes of one level that a contraction resets; those below the boundary are propagated to their parents. -/
structure LevelContractionOp where
  level : ℕ
  updateRange : ℕ × ℕ
  immediateBoundary : ℕ

def contractionOps (newTopLevel : ℕ) : List ℕ → ℕ → ℕ → List LevelContractionOp
  | [], _, _ => []
  | level :: levels, start, last =>
    let last := divCeil last minBucketSize
    if newTopLevel < level then
      let start := divCeil start minBucketSize
      ⟨level, (start, last), min (divCeil (start - 1) minBucketSize * minBucketSize) last⟩ ::
        contractionOps newTopLevel levels start last
    else ⟨level, (0, last), 0⟩ :: contractionOps newTopLevel levels 0 last

def levelsBelow (topLevel : ℕ) : List ℕ := ((List.range maxSubtreeLevels).filter (topLevel < ·)).reverse

def computeContractionOps (oldCapacity newCapacity : ℕ) : Except Fault (List LevelContractionOp) := do
  let oldTopLevel ← subtreeRootLevel oldCapacity
  let newTopLevel ← subtreeRootLevel newCapacity
  .ok (contractionOps newTopLevel (levelsBelow oldTopLevel) newCapacity oldCapacity)

section Specification

def nodesAt (capacity level : ℕ) : ℕ := divCeil capacity (256 ^ (5 - level))

def InSubtree (capacity level i : ℕ) : Prop :=
  ∃ top, subtreeRootLevel capacity = .ok top ∧ top ≤ level ∧ i < nodesAt capacity level

/-- The root of the subtree is stored in the main trie, the nodes below it under their own ids. -/
def StoredInSubtree (capacity level i : ℕ) : Prop :=
  ∃ top, subtreeRootLevel capacity = .ok top ∧ top < level ∧ i < nodesAt capacity level

def RangeExact (oldCapacity newCapacity : ℕ) (op : LevelContractionOp) : Prop :=
  ∀ i, op.updateRange.1 ≤ i ∧ i < op.updateRange.2 ↔
    InSubtree oldCapacity op.level i ∧ ¬ StoredInSubtree newCapacity op.level i

def BoundaryExact (newCapacity : ℕ) (op : LevelContractionOp) : Prop :=
  ∀ i, op.updateRange.1 ≤ i → i < op.updateRange.2 →
    (i < op.immediateBoundary ↔ InSubtree newCapacity (op.level - 1) (i / 256))

end Specification

section Rounding

theorem divCeil_le_iff {n d k : ℕ} (hd : 0 < d) : divCeil n d ≤ k ↔ n ≤ d * k := by
  rw [divCeil, ← Nat.lt_succ_iff, Nat.div_lt_iff_lt_mul hd, Nat.succ_mul, Nat.mul_comm k d]
  omega

theorem lt_divCeil_iff {n d k : ℕ} (hd : 0 < d) : k < divCeil n d ↔ d * k < n := by
  rw [← not_le, divCeil_le_iff hd, not_le]

theorem divCeil_divCeil {n d e : ℕ} (hd : 0 < d) (he : 0 < e) : divCeil (divCeil n d) e = divCeil n (d * e) := by
  refine eq_of_forall_ge_iff fun k ↦ ?_
  rw [divCeil_le_iff he, divCeil_le_iff hd, divCeil_le_iff (Nat.mul_pos hd he), Nat.mul_assoc]

variable {capacity level : ℕ}

theorem divCeil_nodesAt (hl : level ≤ 4) : divCeil (nodesAt capacity (level + 1)) 256 = nodesAt capacity level := by
  rw [nodesAt, divCeil_divCeil (by positivity) (by omega), nodesAt, ← pow_succ]
  congr 2
  omega

theorem nodesAt_five : nodesAt capacity 5 = capacity := by
  rw [nodesAt, Nat.sub_self, Nat.pow_zero, divCeil, Nat.div_one, Nat.add_sub_cancel]

theorem RootLevel.lt_iff {top : ℕ} (h : RootLevel capacity top) (hl : level ≤ 4) :
    top < level ↔ 1 < nodesAt capacity level := by
  rw [nodesAt, lt_divCeil_iff (by positivity), Nat.mul_one]
  constructor
  · intro hlt
    by_contra hle
    have := h.deepest level hl (not_lt.mp hle)
    omega
  · intro hlt
    by_contra hle
    have hpow : 256 ^ (5 - top) ≤ 256 ^ (5 - level) := Nat.pow_le_pow_right (by omega) (by omega)
    have := h.reaches
    omega

end Rounding

section Loop

variable {oldCapacity newCapacity newTopLevel : ℕ}

def contractionOp (oldCapacity newCapacity newTopLevel level : ℕ) : LevelContractionOp :=
  if newTopLevel < level then
    ⟨level, (nodesAt newCapacity level, nodesAt oldCapacity level),
      min (divCeil (nodesAt newCapacity level - 1) 256 * 256) (nodesAt oldCapacity level)⟩
  else ⟨level, (0, nodesAt oldCapacity level), 0⟩

def levelsUp (level n : ℕ) : List ℕ := (List.range n).map (level - ·)

theorem levelsUp_succ (level n : ℕ) : levelsUp level (n + 1) = level :: levelsUp (level - 1) n := by
  rw [levelsUp, List.range_succ_eq_map, List.map_cons, List.map_map, levelsUp]
  refine congrArg (_ :: ·) (List.map_congr_left fun i _ ↦ ?_)
  simp only [Function.comp_apply]
  omega

theorem levelsBelow_eq {top : ℕ} (h : top ≤ 4) : levelsBelow top = levelsUp 4 (4 - top) := by
  interval_cases top <;> decide

theorem contractionOps_eq (n : ℕ) {level start last : ℕ} (hn : n ≤ level) (hl : level ≤ 4)
    (hlast : last = nodesAt oldCapacity (level + 1)) (hstart : newTopLevel < level → start = nodesAt
    newCapacity (level + 1)) :
    contractionOps newTopLevel (levelsUp level n) start last =
      (levelsUp level n).map (contractionOp oldCapacity newCapacity newTopLevel) := by
  induction n generalizing level start last with
  | zero => rfl
  | succ n ih =>
    have hup : level - 1 + 1 = level := by omega
    have hlast' : divCeil last minBucketSize = nodesAt oldCapacity level := by
      rw [hlast]
      exact divCeil_nodesAt hl
    rw [levelsUp_succ, contractionOps, List.map_cons, contractionOp, hlast']
    by_cases htop : newTopLevel < level
    · have hstart' : divCeil start minBucketSize = nodesAt newCapacity level := by
        rw [hstart htop]
        exact divCeil_nodesAt hl
      rw [if_pos htop, if_pos htop, hstart']
      exact congrArg (_ :: ·) (ih (by omega) (by omega) (by rw [hup]) fun _ ↦ by rw [hup])
    · rw [if_neg htop, if_neg htop]
      exact congrArg (_ :: ·) (ih (by omega) (by omega) (by rw [hup]) fun hlt ↦ by omega)

theorem computeContractionOps_eq (hnew : newCapacity ≤ 2 ^ 40) (hold : oldCapacity ≤ 2 ^ 40) :
    ∃ oldTop newTop, subtreeRootLevel oldCapacity = .ok oldTop ∧ RootLevel oldCapacity oldTop ∧
      subtreeRootLevel newCapacity = .ok newTop ∧ RootLevel newCapacity newTop ∧
      computeContractionOps oldCapacity newCapacity =
        .ok ((levelsBelow oldTop).map (contractionOp oldCapacity newCapacity newTop)) := by
  obtain ⟨oldTop, hrunOld, hOld⟩ := subtreeRootLevel_rootLevel hold
  obtain ⟨newTop, hrunNew, hNew⟩ := subtreeRootLevel_rootLevel hnew
  refine ⟨oldTop, newTop, hrunOld, hOld, hrunNew, hNew, ?_⟩
  rw [computeContractionOps, hrunOld, ok_bind, hrunNew, ok_bind, levelsBelow_eq hOld.le]
  exact congrArg Except.ok (contractionOps_eq (4 - oldTop) (by omega) le_rfl nodesAt_five.symm fun _ ↦
    nodesAt_five.symm)

theorem mem_levelsBelow {top level : ℕ} : level ∈ levelsBelow top ↔ top < level ∧ level ≤ 4 := by
  simp only [levelsBelow, List.mem_reverse, List.mem_filter, List.mem_range, decide_eq_true_eq, maxSubtreeLevels]
  omega

end Loop

section Exactness

variable {oldCapacity newCapacity oldTop newTop level : ℕ}

theorem inSubtree_iff (h : subtreeRootLevel newCapacity = .ok newTop) {i : ℕ} :
    InSubtree newCapacity level i ↔ newTop ≤ level ∧ i < nodesAt newCapacity level := by
  constructor
  · rintro ⟨top, htop, hin⟩
    rw [h] at htop
    cases htop
    exact hin
  · exact fun hin ↦ ⟨newTop, h, hin⟩

theorem storedInSubtree_iff (h : subtreeRootLevel newCapacity = .ok newTop) {i : ℕ} :
    StoredInSubtree newCapacity level i ↔ newTop < level ∧ i < nodesAt newCapacity level := by
  constructor
  · rintro ⟨top, htop, hin⟩
    rw [h] at htop
    cases htop
    exact hin
  · exact fun hin ↦ ⟨newTop, h, hin⟩

theorem contractionOp_rangeExact (hOld : subtreeRootLevel oldCapacity = .ok oldTop)
    (hNew : subtreeRootLevel newCapacity = .ok newTop) (hl : oldTop < level) :
    RangeExact oldCapacity newCapacity (contractionOp oldCapacity newCapacity newTop level) := by
  intro i
  unfold contractionOp
  split
  · rename_i htop
    simp only [inSubtree_iff hOld, storedInSubtree_iff hNew]
    omega
  · rename_i htop
    simp only [inSubtree_iff hOld, storedInSubtree_iff hNew]
    omega

/-- Rounding up from one less differs only after a multiple of 256. -/
theorem boundary_iff {start last : ℕ} (hs : 1 < start) :
    (∀ i, start ≤ i → i < last → (i < min (divCeil (start - 1) 256 * 256) last ↔ i / 256 < divCeil start 256)) ↔
      (start < last → start % 256 ≠ 1) := by
  simp only [divCeil]
  constructor
  · intro h hlt hmod
    have := h start le_rfl hlt
    omega
  · intro h i hi hlast
    have := h (by omega)
    omega

theorem contractionOp_boundaryExact (hRoot : RootLevel newCapacity newTop)
    (hNew : subtreeRootLevel newCapacity = .ok newTop) (hl : oldTop < level) (hl' : level ≤ 4) :
    BoundaryExact newCapacity (contractionOp oldCapacity newCapacity newTop level) ↔
      (1 < nodesAt newCapacity level → nodesAt newCapacity level < nodesAt oldCapacity level →
        nodesAt newCapacity level % 256 ≠ 1) := by
  unfold BoundaryExact contractionOp
  split
  · rename_i htop
    have hmany := (hRoot.lt_iff hl').mp htop
    have hup : level - 1 + 1 = level := by omega
    have hparents : nodesAt newCapacity (level - 1) = divCeil (nodesAt newCapacity level) 256 := by
      rw [← divCeil_nodesAt (show level - 1 ≤ 4 by omega), hup]
    have hstays : newTop ≤ level - 1 := by omega
    simp only [inSubtree_iff hNew, hstays, true_and, hparents, boundary_iff hmany, hmany, true_imp_iff]
  · rename_i htop
    have hfew : ¬ 1 < nodesAt newCapacity level := fun h ↦ htop ((hRoot.lt_iff hl').mpr h)
    have hgone : ¬ newTop ≤ level - 1 := by omega
    simp only [inSubtree_iff hNew, hgone, false_and, not_lt_zero, implies_true, hfew, false_imp_iff]

/-- The ranges are exact for every pair of capacities; the boundaries are, unless a level of the new subtree ends
with a node that is the only child of its parent there and the old subtree has more nodes on that level. -/
theorem contraction_ranges_exact_iff {oldCapacity newCapacity : ℕ} (hlt : newCapacity < oldCapacity)
    (hold : oldCapacity ≤ 2 ^ 40) :
    ∃ ops top, computeContractionOps oldCapacity newCapacity = .ok ops ∧ subtreeRootLevel oldCapacity = .ok top ∧
      ops.map LevelContractionOp.level = levelsBelow top ∧ (∀ op ∈ ops, RangeExact oldCapacity newCapacity op) ∧
      ((∀ op ∈ ops, RangeExact oldCapacity newCapacity op ∧ BoundaryExact newCapacity op) ↔
        ∀ level ≤ 4, 1 < nodesAt newCapacity level → nodesAt newCapacity level < nodesAt oldCapacity level →
          nodesAt newCapacity level % 256 ≠ 1) := by
  obtain ⟨oldTop, newTop, hrunOld, hOld, hrunNew, hNew, hops⟩ := computeContractionOps_eq (hlt.le.trans hold) hold
  have hrange : ∀ level ∈ levelsBelow oldTop,
      RangeExact oldCapacity newCapacity (contractionOp oldCapacity newCapacity newTop level) := by
    intro level hlevel
    exact contractionOp_rangeExact hrunOld hrunNew (mem_levelsBelow.mp hlevel).1
  refine ⟨_, oldTop, hops, hrunOld, ?_, by simpa using hrange, ?_⟩
  · rw [List.map_map]
    refine (List.map_congr_left fun level _ ↦ ?_).trans (List.map_id _)
    simp only [Function.comp_apply, contractionOp]
    split <;> rfl
  · rw [List.forall_mem_map]
    constructor
    · intro hall level hl hmany
      have hbelow : oldTop < level := lt_of_le_of_lt (hNew.antitone hOld hlt.le) ((hNew.lt_iff hl).mpr hmany)
      exact (contractionOp_boundaryExact hNew hrunNew hbelow hl).mp
        (hall level (mem_levelsBelow.mpr ⟨hbelow, hl⟩)).2 hmany
    · intro hall level hlevel
      obtain ⟨hbelow, hl⟩ := mem_levelsBelow.mp hlevel
      exact ⟨hrange level hlevel, (contractionOp_boundaryExact hNew hrunNew hbelow hl).mpr (hall level hl)⟩

/-- From four leaves to two: every boundary is exact. -/
theorem contraction_ranges_exact_iff_four :
    ∃ ops, computeContractionOps 1024 512 = .ok ops ∧ ∀ op ∈ ops, RangeExact 1024 512 op ∧ BoundaryExact 512 op := by
  obtain ⟨ops, -, hops, -, -, -, hexact⟩ := contraction_ranges_exact_iff (show 512 < 1024 by norm_num) (by norm_num)
  exact ⟨ops, hops, hexact.mpr (by decide)⟩

/-- From 258 leaves to 257: leaf 257 is reset, and its parent, which still holds leaf 256, is not told. -/
theorem contraction_boundary_misses_parent :
    ∃ ops, computeContractionOps 66048 65537 = .ok ops ∧ ∃ op ∈ ops, ¬ BoundaryExact 65537 op := by
  refine ⟨_, rfl, ⟨4, (257, 258), 256⟩, List.mem_cons_self .., fun h ↦ ?_⟩
  have hkept : InSubtree 65537 3 1 := ⟨2, rfl, by decide, by decide⟩
  exact absurd ((h 257 le_rfl (by decide)).mpr hkept) (by decide)

end Exactness

end Salt
