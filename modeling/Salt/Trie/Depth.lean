import Salt.State.Resize
import Salt.Trie.MemStore

namespace Salt

open Library.Triple

section Arithmetic

def mulU64 (a b : ℕ) : Except Fault ℕ :=
  if a * b < 2 ^ 64 then .ok (a * b) else .error (.panic (.unwrap "attempt to multiply with overflow"))

def resizeLoopU64 : ℕ → ℕ → ℕ → Except Fault ℕ
  | 0, _, _ => .error (.panic .diverges)
  | fuel + 1, capacity, used => do
    let load ← mulU64 used 100
    let bound ← mulU64 capacity bucketResizeLoadFactorPct
    if load > bound then do
      let capacity ← mulU64 capacity bucketResizeMultiplier
      resizeLoopU64 fuel capacity used
    else .ok capacity

def computeResizeCapacityU64 (capacity used : ℕ) : Except Fault ℕ := resizeLoopU64 (used + 2) capacity used

def capacityAfterInsertion (capacity used : ℕ) : Except Fault ℕ :=
  if used > capacity * bucketResizeLoadFactorPct / 100 then computeResizeCapacity capacity used else .ok capacity

/-- The capacity after insertions that raise the number of used slots from `first` to `last`. -/
def growOneByOne (capacity first last : ℕ) : Except Fault ℕ :=
  (List.range' first (last + 1 - first)).foldlM capacityAfterInsertion capacity

theorem mulU64_ok {a b : ℕ} (h : a * b < 2 ^ 64) : mulU64 a b = .ok (a * b) := if_pos h

/-- Only a capacity that is still too small is doubled, so the products stay small. -/
theorem resizeLoopU64_eq {used : ℕ} (hused : used ≤ 2 ^ 40) (fuel : ℕ) {capacity : ℕ} (hc : capacity * 80 < 2 ^ 64) :
    resizeLoopU64 fuel capacity used = resizeLoop fuel capacity used := by
  induction fuel generalizing capacity with
  | zero => rfl
  | succ fuel ih =>
    have hload : used * 100 < 2 ^ 64 := by omega
    rw [resizeLoopU64, resizeLoop, mulU64_ok hload, mulU64_ok hc, ok_bind, ok_bind]
    split
    · rename_i hover
      change used * 100 > capacity * 80 at hover
      have hdouble : capacity * 2 < 2 ^ 64 := by omega
      rw [mulU64_ok hdouble, ok_bind]
      apply ih
      omega
    · rfl

theorem computeResizeCapacityU64_eq {capacity used : ℕ} (hused : used ≤ 2 ^ 40) (hc : capacity * 80 < 2 ^ 64) :
    computeResizeCapacityU64 capacity used = computeResizeCapacity capacity used :=
  resizeLoopU64_eq hused (used + 2) hc

theorem Resized.lt_iff {capacity used result : ℕ} (hc : 0 < capacity) (h : Resized capacity used result) :
    used > capacity * bucketResizeLoadFactorPct / 100 ↔ result > capacity := by
  have htrigger := load_le_iff (n := used) (c := capacity)
  constructor
  · intro hused
    have hne : result ≠ capacity := by
      rintro rfl
      exact absurd (htrigger.mpr h.load) (not_not.mpr hused)
    exact lt_of_le_of_ne h.le (Ne.symm hne)
  · intro hgrows
    by_contra hused
    have hself := h.unique (resized_self (htrigger.mp hused))
    omega

theorem capacityAfterInsertion_spec {capacity : ℕ} (hc : 0 < capacity) (used : ℕ) :
    ∃ result, capacityAfterInsertion capacity used = .ok result ∧ Resized capacity used result := by
  unfold capacityAfterInsertion
  split
  · exact computeResizeCapacity_spec hc used
  · rename_i hused
    exact ⟨capacity, rfl, resized_self (load_le_iff.mp hused)⟩

/-- Each insertion starts from the capacity that the insertions before it left. -/
theorem foldlM_capacityAfterInsertion (n : ℕ) {capacity current first : ℕ} (hc : 0 < current)
    (h : Resized capacity first current) :
    ∃ result, (List.range' (first + 1) n).foldlM capacityAfterInsertion current = .ok result ∧
      Resized capacity (first + n) result := by
  induction n generalizing current first with
  | zero => exact ⟨current, rfl, h⟩
  | succ n ih =>
    obtain ⟨next, hnext, hresized⟩ := capacityAfterInsertion_spec hc (first + 1)
    have hpos : 0 < next := lt_of_lt_of_le hc hresized.le
    obtain ⟨result, hrun, hall⟩ := ih hpos (h.trans (Nat.le_succ first) hresized)
    refine ⟨result, ?_, ?_⟩
    · rw [List.range'_succ, List.foldlM_cons, hnext, ok_bind]
      exact hrun
    · rwa [Nat.succ_add_eq_add_succ] at hall

theorem growOneByOne_eq {capacity first last : ℕ} (hc : 0 < capacity) (h : first ≤ last) :
    growOneByOne capacity first last = computeResizeCapacity capacity last := by
  obtain ⟨start, hstart, hresized⟩ := capacityAfterInsertion_spec hc first
  have hpos : 0 < start := lt_of_lt_of_le hc hresized.le
  obtain ⟨result, hrun, hall⟩ := foldlM_capacityAfterInsertion (last - first) hpos hresized
  rw [Nat.add_sub_cancel' h] at hall
  rw [(computeResizeCapacity_eq_iff hc).mpr hall, growOneByOne, Nat.succ_sub h, List.range'_succ, List.foldlM_cons,
    hstart, ok_bind]
  exact hrun

end Arithmetic

section Levels

theorem subtreeRootLevelLoop_deepest (level : ℕ) {capacity l : ℕ} (h : subtreeRootLevelLoop level capacity = .ok l)
    {l' : ℕ} (hl : l < l') (hl' : l' ≤ level) : 256 ^ (level + 1 - l') < capacity := by
  induction level generalizing capacity with
  | zero => omega
  | succ level ih =>
    rw [subtreeRootLevelLoop] at h
    split at h
    · rename_i hc
      simp only [minBucketSize] at h hc
      rcases Nat.lt_or_ge level l' with hlast | hinner
      · obtain rfl : l' = level + 1 := by omega
        simpa using hc
      · have hsmall := ih h hinner
        rw [show level + 1 + 1 - l' = level + 1 - l' + 1 by omega, pow_succ]
        omega
    · cases h
      omega

/-- `level` is the deepest of the levels 0 to 4 whose root reaches all slots below the capacity. -/
structure RootLevel (capacity level : ℕ) : Prop where
  le : level ≤ 4
  reaches : capacity ≤ 256 ^ (5 - level)
  deepest : ∀ l ≤ 4, capacity ≤ 256 ^ (5 - l) → l ≤ level

variable {capacity level : ℕ}

theorem subtreeRootLevel_rootLevel (h : capacity ≤ 2 ^ 40) :
    ∃ level, subtreeRootLevel capacity = .ok level ∧ RootLevel capacity level := by
  obtain ⟨level, hle, hrun, hreaches⟩ := subtreeRootLevel_spec h
  refine ⟨level, hrun, hle, hreaches, fun l hl hcap ↦ ?_⟩
  by_contra hlt
  have hsmall := subtreeRootLevelLoop_deepest 4 hrun (not_le.mp hlt) hl
  change 256 ^ (5 - l) < capacity at hsmall
  omega

theorem RootLevel.unique (h : RootLevel capacity level) {level' : ℕ} (h' : RootLevel capacity level') :
    level = level' :=
  le_antisymm (h'.deepest level h.le h.reaches) (h.deepest level' h'.le h'.reaches)

theorem RootLevel.antitone (h : RootLevel capacity level) {capacity' level' : ℕ} (h' : RootLevel capacity' level')
    (hle : capacity ≤ capacity') : level' ≤ level :=
  h.deepest level' h'.le (hle.trans h'.reaches)

theorem getSubtreeLevels_eq {s : StateStore} {b : ℕ} {m : BucketMeta} (hb : isValidDataBucket b)
    (hm : s.metadata b = .ok m) (hl : subtreeRootLevel m.capacity = .ok level) :
    s.getSubtreeLevels b = .ok (5 - level) := by
  rw [dataBucket_iff] at hb
  rw [StateStore.getSubtreeLevels, if_neg (by simp only [numMetaBuckets]; omega), hm, ok_bind, hl]
  rfl

end Levels

/-- The trigger, the resize loop, growth in steps and the depth of the bucket tree against their specification. -/
theorem resize_and_depth_exact (capacity : ℕ) (hc : 1 ≤ capacity) (hcap : capacity ≤ 2 ^ 40) :
    (∀ used ≤ 2 ^ 40, ∃ result, computeResizeCapacity capacity used = .ok result ∧ Resized capacity used result ∧
      (used > capacity * bucketResizeLoadFactorPct / 100 ↔ result > capacity) ∧
      (∀ first ≤ used, growOneByOne capacity first used = .ok result) ∧
      mulU64 capacity bucketResizeLoadFactorPct = .ok (capacity * bucketResizeLoadFactorPct) ∧
      computeResizeCapacityU64 capacity used = .ok result) ∧
    ∃ level, subtreeRootLevel capacity = .ok level ∧ RootLevel capacity level ∧
      (∀ capacity' level', capacity ≤ capacity' → capacity' ≤ 2 ^ 40 → subtreeRootLevel capacity' = .ok level' →
        level' ≤ level) ∧
      ∀ (s : StateStore) (b : ℕ) (m : BucketMeta), isValidDataBucket b → s.metadata b = .ok m → m.capacity = capacity →
        s.getSubtreeLevels b = .ok (5 - level) ∧ ∀ slot < capacity, slot < 256 ^ (5 - level) := by
  have hproduct : capacity * 80 < 2 ^ 64 := by omega
  constructor
  · intro used hused
    obtain ⟨result, hresult, hresized⟩ := computeResizeCapacity_spec hc used
    refine ⟨result, hresult, hresized, hresized.lt_iff hc, fun first hfirst ↦ ?_, mulU64_ok hproduct, ?_⟩
    · rw [growOneByOne_eq hc hfirst, hresult]
    · rw [computeResizeCapacityU64_eq hused hproduct, hresult]
  · obtain ⟨level, hrun, hlevel⟩ := subtreeRootLevel_rootLevel hcap
    refine ⟨level, hrun, hlevel, fun capacity' level' hle hcap' hrun' ↦ ?_, fun s b m hb hm hmc ↦ ⟨?_, ?_⟩⟩
    · obtain ⟨level'', hrun'', hlevel''⟩ := subtreeRootLevel_rootLevel hcap'
      rw [hrun'] at hrun''
      cases hrun''
      exact hlevel.antitone hlevel'' hle
    · exact getSubtreeLevels_eq hb hm (by rw [hmc]; exact hrun)
    · exact fun slot hslot ↦ lt_of_lt_of_le hslot hlevel.reaches

/-- One entry above 80% of the initial capacity makes the bucket grow. -/
theorem resize_and_depth_exact_minimum : ∃ result, computeResizeCapacity 256 205 = .ok result ∧ result > 256 := by
  obtain ⟨hresize, -⟩ := resize_and_depth_exact 256 (by norm_num) (by norm_num)
  obtain ⟨result, hrun, -, htrigger, -⟩ := hresize 205 (by norm_num)
  exact ⟨result, hrun, htrigger.mp (by decide)⟩

end Salt
