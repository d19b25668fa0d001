import Salt.Trie.Blocks

namespace Salt

open Library.ChangeList

/-- Sums of the entries of a node with the given weights. -/
def sums (weight : ℕ → ℤ) : Committer ℤ ℤ := .ofGenerators weight id fun v ↦ v.elim 0 fun v ↦ v.keyLen + 1

theorem sums_empty (weight : ℕ → ℤ) : (sums weight).EmptyDefaults := emptyDefaults_ofGenerators ..

def defaultSlotSum : ℤ := (sums fun _ ↦ 0).kvHash (some (SaltValue.ofMeta BucketMeta.default))

/-- The same scheme with the default commitments in closed form, which is what a run can be computed with. -/
def closedSums (weight : ℕ → ℤ) (total : ℤ) : Committer ℤ ℤ :=
  { sums weight with
    defaults :=
      { left := fun l ↦ if l = 0 then weight 0 * (defaultSlotSum * total ^ 3) else defaultSlotSum * total ^ (3 - l + 1)
        right := fun _ ↦ 0
        subtree := fun _ ↦ 0 } }

variable {weight : ℕ → ℤ} {total : ℤ}

theorem commit_sums_replicate (h : ∑ i ∈ Finset.range 256, weight i = total) (a : ℤ) :
    (sums weight).commit (List.replicate 256 a) = a * total := by
  rw [Committer.commit_replicate, vec, ← h, Finset.mul_sum]
  rfl

theorem uniformTree_sums (h : ∑ i ∈ Finset.range 256, weight i = total) (slot : ℤ) (height : ℕ) :
    uniformTree (sums weight).commit (sums weight).hash slot height = slot * total ^ (height + 1) := by
  induction height with
  | zero => rw [uniformTree, commit_sums_replicate h, zero_add, pow_one]
  | succ height ih =>
    have hid : ∀ c, (sums weight).hash c = c := fun _ ↦ rfl
    rw [uniformTree, ih, hid, commit_sums_replicate h, mul_assoc, ← pow_succ]

theorem commit_sums_cons (a : ℤ) : (sums weight).commit (a :: List.replicate 255 0) = weight 0 * a := by
  have hfirst : ∀ i < 256, (a :: List.replicate 255 (0 : ℤ)).getD i 0 = if i = 0 then a else 0 := by
    intro i hi
    cases i with
    | zero => rfl
    | succ i =>
      rw [List.getD_cons_succ, List.getD_eq_getElem?_getD, List.getElem?_replicate, if_pos (by omega), if_neg i.succ_ne_zero]
      rfl
  rw [Committer.commit, vec_congr hfirst, vec, Finset.sum_eq_single 0 (fun i _ hi ↦ ?_) (fun h ↦ ?_)]
  · rw [if_pos rfl, smul_eq_mul, mul_comm]
    rfl
  · rw [if_neg hi, zero_smul]
  · exact absurd (Finset.mem_range.mpr (by norm_num)) h

theorem sums_eq_closed (h : ∑ i ∈ Finset.range 256, weight i = total) : sums weight = closedSums weight total := by
  have hleft := uniformTree_sums h defaultSlotSum
  have hright : ∀ height, uniformTree (sums weight).commit (sums weight).hash 0 height = 0 := fun height ↦ by
    rw [uniformTree_sums h, zero_mul]
  have hroot : (sums weight).commit (uniformTree (sums weight).commit (sums weight).hash defaultSlotSum 2 ::
      List.replicate 255 (uniformTree (sums weight).commit (sums weight).hash 0 2)) =
        weight 0 * (defaultSlotSum * total ^ 3) := by
    rw [hright, commit_sums_cons, hleft]
  have hdefaults : (sums weight).defaults = (closedSums weight total).defaults := by
    rw [sums_empty weight, DefaultCommitments.ofEmptyTree, closedSums, DefaultCommitments.mk.injEq]
    refine ⟨funext fun l ↦ ?_, funext fun l ↦ hright (3 - l), funext fun l ↦ hright (4 - l)⟩
    by_cases hl : l = 0
    · rw [if_pos hl, if_pos hl]
      exact hroot
    · rw [if_neg hl, if_neg hl]
      exact hleft (3 - l)
  exact congrArg (fun D ↦ { sums weight with defaults := D }) hdefaults

theorem weightedSums_closed : weightedSums = closedSums (fun i ↦ (i : ℤ) + 1) 32896 := sums_eq_closed (by decide +kernel)

open MemStore StateRoot

end Salt
