import Salt.Trie.Deltas
import Salt.Trie.Reference
import Salt.Trie.Engine

namespace Salt.StateRoot

open Library.Triple Library.Chunks Library.ChangeList

section Reading

variable {C : Type} {st : StateRoot C} {A : Prop}

def Knows (A : Prop) (st : StateRoot C) (n : ℕ) (c : C) : Prop := Sat (st.commitment n) (fun _ ↦ A) (· = c)

theorem parBatchSize_pos (hmin : 1 ≤ st.minParBatchSize) (threads n : ℕ) : 1 ≤ st.parBatchSize threads n :=
  hmin.trans (le_max_left ..)

theorem Pieces.covers {nodes : List ℕ} {first : ℕ} {pieces : List (ℕ × ℕ)} (h : Pieces nodes first pieces) {i : ℕ}
    (hi : first ≤ i) (hi' : i < nodes.length) : ∃ c ∈ pieces, c.1 ≤ i ∧ i < c.2 := by
  induction h with
  | last h => exact ⟨_, List.mem_cons_self .., hi, hi'⟩
  | @next first boundary rest hle hcut h ih =>
    rcases Nat.lt_or_ge i boundary with hlt | hge
    · exact ⟨_, List.mem_cons_self .., hi, hlt⟩
    · obtain ⟨c, hc, hci⟩ := ih hge
      exact ⟨c, List.mem_cons_of_mem _ hc, hci⟩

variable [AddCommMonoid C]

theorem reads_of_foldlM {l : List (ℕ × C)} {acc r : TrieUpdates C × ℕ}
    (h : l.foldlM (accumulateDelta st) acc = .ok r)
    (hacc : acc.2 = 2 ^ 64 - 1 ∨ ∃ c, st.commitment acc.2 = .ok c) {e : ℕ × C} (he : e ∈ l) (hid : e.1 < 2 ^ 64 - 1) :
    ∃ c, st.commitment e.1 = .ok c := by
  induction l generalizing acc with
  | nil => simp at he
  | cons f l ih =>
    rw [List.foldlM_cons] at h
    obtain ⟨acc', hstep, hrest⟩ := ok_of_bind h
    rw [accumulateDelta] at hstep
    split at hstep
    · rename_i hsame
      cases hstep
      rcases List.mem_cons.mp he with rfl | he
      · rcases hacc with hlast | hread
        · omega
        · rwa [← hsame] at hread
      · exact ih hrest hacc he
    · obtain ⟨old, hread, hstep⟩ := ok_of_bind hstep
      cases hstep
      rcases List.mem_cons.mp he with rfl | he
      · exact ⟨old, hread⟩
      · exact ih hrest (.inr ⟨old, hread⟩) he

theorem reads_of_addCommitmentDeltas {deltas : List (ℕ × C)} {taskSize : ℕ} {r : TrieUpdates C} (htask : 1 ≤ taskSize)
    (h : st.addCommitmentDeltas deltas taskSize = .ok r) {e : ℕ × C} (he : e ∈ deltas) (hid : e.1 < 2 ^ 64 - 1) :
    ∃ c, st.commitment e.1 = .ok c := by
  set sorted := deltas.mergeSort fun a b ↦ decide (a.1 ≤ b.1) with hsorted
  obtain ⟨pieces, hpieces, hcover⟩ := createNodeAlignedChunks_pieces (sorted.map Prod.fst) htask
  rw [addCommitmentDeltas] at h
  simp only [← hsorted, hpieces, ok_bind] at h
  obtain ⟨results, hresults, -⟩ := ok_of_bind h
  obtain ⟨i, hi, hei⟩ := List.mem_iff_getElem.mp ((List.mergeSort_perm deltas _).mem_iff.mpr he : e ∈ sorted)
  obtain ⟨c, hc, hfirst, hlast⟩ := hcover.covers (Nat.zero_le i) (by rwa [List.length_map])
  obtain ⟨l, -, hl⟩ := (mapM_ok hresults).1 c hc
  rw [accumulateChunkDeltas] at hl
  obtain ⟨acc, hfold, -⟩ := ok_of_bind hl
  refine reads_of_foldlM hfold (.inl rfl) ?_ hid
  have hget : ((sorted.drop c.1).take (c.2 - c.1))[i - c.1]? = some e := by
    rw [List.getElem?_take_of_lt (by omega), List.getElem?_drop, Nat.add_sub_cancel' hfirst,
      List.getElem?_eq_getElem hi, hei]
  exact List.mem_of_getElem? hget

end Reading

section Adding

variable {C : Type} [AddCommGroup C] {st : StateRoot C} {A : Prop}

theorem addCommitmentDeltas_sat (com : ℕ → C) {deltas : List (ℕ × C)} {taskSize : ℕ} (htask : 1 ≤ taskSize)
    (hid : ∀ e ∈ deltas, e.1 < 2 ^ 64 - 1) (hcom : ∀ e ∈ deltas, Knows A st e.1 (com e.1)) :
    Sat (st.addCommitmentDeltas deltas taskSize) (fun _ ↦ A) (· = parentChanges com deltas) := by
  by_cases hall : ∀ e ∈ deltas, st.commitment e.1 = .ok (com e.1)
  · rw [addCommitmentDeltas_eq htask hid hall]
    exact Sat.ok rfl
  · push Not at hall
    obtain ⟨e, he, hne⟩ := hall
    have hfails : A ∧ ∀ c, st.commitment e.1 ≠ .ok c := by
      have hk := hcom e he
      rw [Knows] at hk
      cases hread : st.commitment e.1 with
      | ok c =>
        rw [hread] at hk hne
        exact absurd (congrArg _ hk) hne
      | error x =>
        rw [hread] at hk
        exact ⟨hk, fun c hc ↦ by cases hc⟩
    cases hrun : st.addCommitmentDeltas deltas taskSize with
    | ok r =>
      obtain ⟨c, hc⟩ := reads_of_addCommitmentDeltas htask hrun he (hid e he)
      exact absurd hc (hfails.2 c)
    | error x => exact Sat.error hfails.1

end Adding

section Levels

variable {F C : Type} [CommRing F] [AddCommGroup C] [Module F C] {K : Committer F C} {threads : ℕ} {st : StateRoot C}
  {A : Prop} {Dp : ℕ → Prop}

theorem updateLeafNodes_sat {D : SaltKey → Prop} {before after : SaltKey → Option SaltValue}
    {l : List StateChange} {toNodeId : SaltKey → ℕ} {child : ℕ → ℕ → SaltKey} (hmin : 1 ≤ st.minParBatchSize)
    (hl : Lists D before after l) (hc : Children Dp D 256 toNodeId (fun k ↦ k.slotId % 256) child)
    (hid : ∀ n, Dp n → n < 2 ^ 64 - 1)
    (hcom : ∀ k ∈ l.map Prod.fst,
      Knows A st (toNodeId k) (vec 256 K.gen fun i ↦ K.kvHash (before (child (toNodeId k) i)))) :
    Sat (st.updateLeafNodes K threads l toNodeId) (fun _ ↦ A) fun r ↦
      Lists Dp (fun n ↦ vec 256 K.gen fun i ↦ K.kvHash (before (child n i)))
        (fun n ↦ vec 256 K.gen fun i ↦ K.kvHash (after (child n i))) r ∧
      ∀ n, n ∈ r.map Prod.fst ↔ ∃ k ∈ l.map Prod.fst, toNodeId k = n := by
  set sorted := l.mergeSort fun a b ↦ decide (a.1.slotId % 256 ≤ b.1.slotId % 256) with hsorted
  have hperm : sorted.Perm l := List.mergeSort_perm _ _
  have hs := hl.perm hperm.symm
  have hkeys : ∀ k, k ∈ sorted.map Prod.fst ↔ k ∈ l.map Prod.fst := fun k ↦ (hperm.map Prod.fst).mem_iff
  change Sat (st.addCommitmentDeltas (deltas K.gen K.kvHash toNodeId (fun k ↦ k.slotId % 256) sorted) _) _ _
  refine (addCommitmentDeltas_sat (fun n ↦ vec 256 K.gen fun i ↦ K.kvHash (before (child n i)))
    (parBatchSize_pos hmin _ _) ?_ ?_).mono ?_
  · intro e he
    obtain ⟨a, ha, rfl⟩ := List.mem_map.mp he
    exact hid _ (hc.parent_mem _ (hs.mem a ha).1)
  · intro e he
    obtain ⟨a, ha, rfl⟩ := List.mem_map.mp he
    exact hcom _ ((hkeys _).mp (List.mem_map_of_mem ha))
  · rintro r rfl
    refine ⟨hs.parents K.gen K.kvHash _ hc fun k _ ↦ rfl, fun n ↦ ?_⟩
    simp only [← hkeys]
    exact mem_parents

variable {D : ℕ → Prop} {before after : ℕ → C} {l : TrieUpdates C}

theorem updateInternalNodes_sat (hmin : 1 ≤ st.minParBatchSize) (hl : Lists D before after l)
    (hc : Children Dp D 256 parentOf vcPositionInParent getChildNode)
    (hparent : ∀ k, D k → getParentNode k = .ok (parentOf k)) (hid : ∀ n, Dp n → n < 2 ^ 64 - 1)
    (hcom : ∀ k ∈ l.map Prod.fst,
      Knows A st (parentOf k) (vec 256 K.gen fun i ↦ K.hash (before (getChildNode (parentOf k) i)))) :
    Sat (st.updateInternalNodes K threads l) (fun _ ↦ A) fun r ↦
      Lists Dp (fun n ↦ vec 256 K.gen fun i ↦ K.hash (before (getChildNode n i)))
        (fun n ↦ vec 256 K.gen fun i ↦ K.hash (after (getChildNode n i))) r ∧
      ∀ n, n ∈ r.map Prod.fst ↔ ∃ k ∈ l.map Prod.fst, parentOf k = n := by
  set sorted := l.mergeSort fun a b ↦ decide (vcPositionInParent a.1 ≤ vcPositionInParent b.1) with hsorted
  have hperm : sorted.Perm l := List.mergeSort_perm _ _
  have hs := hl.perm hperm.symm
  have hkeys : ∀ k, k ∈ sorted.map Prod.fst ↔ k ∈ l.map Prod.fst := fun k ↦ (hperm.map Prod.fst).mem_iff
  have hsize : 0 < st.parBatchSize threads sorted.length := parBatchSize_pos hmin _ _
  have hdeltas : ∀ piece ∈ chunks (st.parBatchSize threads sorted.length) sorted,
      piece.mapM (childDelta K) = .ok (deltas K.gen K.hash parentOf vcPositionInParent piece) := by
    intro piece hpiece
    refine mapM_eq_ok piece fun e he ↦ ?_
    have hmem : e ∈ sorted := by
      rw [← flatten_chunks hsize sorted]
      exact List.mem_flatten.mpr ⟨piece, hpiece, he⟩
    rw [childDelta, hparent _ (hs.mem e hmem).1]
    rfl
  simp only [updateInternalNodes, ← hsorted]
  rw [if_neg (by omega), mapM_eq_ok _ hdeltas, ok_bind]
  have hflat : ((chunks (st.parBatchSize threads sorted.length) sorted).map
      (deltas K.gen K.hash parentOf vcPositionInParent)).flatten =
      deltas K.gen K.hash parentOf vcPositionInParent sorted := by
    conv_rhs => rw [← flatten_chunks hsize sorted, deltas, List.map_flatten]
    rfl
  rw [hflat]
  refine (addCommitmentDeltas_sat (fun n ↦ vec 256 K.gen fun i ↦ K.hash (before (getChildNode n i)))
    (parBatchSize_pos hmin _ _) ?_ ?_).mono ?_
  · intro e he
    obtain ⟨a, ha, rfl⟩ := List.mem_map.mp he
    exact hid _ (hc.parent_mem _ (hs.mem a ha).1)
  · intro e he
    obtain ⟨a, ha, rfl⟩ := List.mem_map.mp he
    exact hcom _ ((hkeys _).mp (List.mem_map_of_mem ha))
  · rintro r rfl
    refine ⟨hs.parents K.gen K.hash _ hc fun k _ ↦ rfl, fun n ↦ ?_⟩
    simp only [← hkeys]
    exact mem_parents

end Levels

end Salt.StateRoot
