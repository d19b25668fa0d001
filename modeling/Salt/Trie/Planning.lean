import Salt.Trie.Scan

namespace Salt

open Std (ExtTreeMap ExtTreeSet)
open Library.Triple Library.ChangeList

section Regions

variable {w w' : SaltKey → Option SaltValue} {b l x : ℕ}

/-- A node of the old bucket tree below its root that the new one does not use. -/
def Dropped (w w' : SaltKey → Option SaltValue) (b l x : ℕ) : Prop :=
  topLevel w b < l ∧ x < nodesAt (capacityAt w b) l ∧ ¬ (topLevel w' b < l ∧ x < nodesAt (capacityAt w' b) l)

def Climbs (w' : SaltKey → Option SaltValue) (b l x : ℕ) : Prop :=
  topLevel w' b < l ∧ x / 256 < nodesAt (capacityAt w' b) (l - 1)

instance : Decidable (Climbs w' b l x) := by
  unfold Climbs
  infer_instance

theorem nodesAt_mono {c c' : ℕ} (h : c ≤ c') : nodesAt c l ≤ nodesAt c' l :=
  (divCeil_le_iff (by positivity)).mpr (h.trans ((divCeil_le_iff (by positivity)).mp le_rfl))

theorem Dropped.contracts (hw : Regular w) (hw' : Regular w') (hb : isValidDataBucket b) (h : Dropped w w' b l x) :
    capacityAt w' b < capacityAt w b := by
  by_contra hle
  have hle := not_lt.mp hle
  exact h.2.2 ⟨(hw.topLevel_antitone hw' hb hle).trans_lt h.1, h.2.1.trans_le (nodesAt_mono hle)⟩

theorem Dropped.lt_pow (hw : Regular w) (hb : isValidDataBucket b) (hl : l ≤ 4) (h : Dropped w w' b l x) :
    x < 256 ^ l :=
  h.2.1.trans_le ((nodesAt_le_pow (hw.top hb).2 hl).trans (Nat.pow_le_pow_right (by norm_num) (Nat.sub_le ..)))

theorem Climbs.lt_pow (hw' : Regular w') (hb : isValidDataBucket b) (hl : l ≤ 4) (h : Climbs w' b l x) :
    x < 256 ^ l := by
  obtain ⟨htop, hx⟩ := h
  have hle := nodesAt_le_pow (hw'.top hb).2 (show l - 1 ≤ 4 by omega)
  have hpow : 256 ^ (l - 1 - topLevel w' b) ≤ 256 ^ (l - 1) := Nat.pow_le_pow_right (by norm_num) (Nat.sub_le ..)
  have hx' : x / 256 < 256 ^ (l - 1) := hx.trans_le (hle.trans hpow)
  rwa [div_lt_pow_iff, show l - 1 + 1 = l by omega] at hx'

theorem Climbs.slot_lt (hw' : Regular w') (hb : isValidDataBucket b) (hl : l ≤ 4) (h : Climbs w' b l x) {s : ℕ}
    (hs : s < 256 ^ (5 - l) * (x + 1)) : s < 256 ^ (5 - topLevel w' b) := by
  obtain ⟨htop, hx⟩ := h
  have hle := hx.trans_le (nodesAt_le_pow (hw'.top hb).2 (show l - 1 ≤ 4 by omega))
  have hx' : x + 1 ≤ 256 ^ (l - topLevel w' b) := by
    have := div_lt_pow_iff.mp hle
    rwa [show l - 1 - topLevel w' b + 1 = l - topLevel w' b by omega] at this
  calc s < 256 ^ (5 - l) * (x + 1) := hs
    _ ≤ 256 ^ (5 - l) * 256 ^ (l - topLevel w' b) := Nat.mul_le_mul_left _ hx'
    _ = 256 ^ (5 - topLevel w' b) := by
      rw [← pow_add]
      congr 1
      omega

variable {F C : Type} [CommRing F] [AddCommGroup C] [Module F C] {K : Committer F C}

theorem Dropped.empty (hK : K.EmptyDefaults) (hw' : Regular w') (hb : isValidDataBucket b) (hl : l ≤ 4)
    (h : Dropped w w' b l x) : K.subtreeNode w' b l x = K.defaults.subtree l := by
  by_cases htop : topLevel w' b < l
  · exact hw'.subtreeNode_dropped hK hb hl (not_lt.mp fun hx ↦ h.2.2 ⟨htop, hx⟩)
  · exact Committer.subtreeNode_unused (not_lt.mp htop)

variable {u : StateUpdates}

/-- Below the common reach of the roots, a bucket that is not handled keeps its slots. -/
theorem Records.slots_unhandled (h : Records u w w') (hb : isValidDataBucket b) (hexp : Expanded w w' b)
    (hn : ¬ StateRoot.Handled w w' u.data.toList b) {s : ℕ} (hs : s < commonReach w w' b) :
    slots w b s = slots w' b s := by
  by_contra hne
  have hlt : s < 2 ^ 40 := by
    by_contra hge
    rw [slots, slots, if_neg hge, if_neg hge] at hne
    exact hne rfl
  rw [slots_eq hlt, slots_eq hlt] at hne
  obtain ⟨e, he, hek⟩ := List.mem_map.mp (h.lists.cover _ trivial hne)
  refine hn ⟨hb, hexp, e, he, ?_, ?_⟩
  · rw [hek, SaltKey.bucketId_ofPair (dataBucket_lt hb) hlt]
  · rwa [hek, SaltKey.slotId_ofPair (dataBucket_lt hb) hlt]

theorem Dropped.unhandled (hK : K.EmptyDefaults) (hrec : Records u w w') (hw : Regular w) (hw' : Regular w')
    (hb : isValidDataBucket b) (hl : l ≤ 4) (h : Dropped w w' b l x) (hc : Climbs w' b l x)
    (hn : ¬ StateRoot.Handled w w' u.data.toList b) : K.subtreeNode w b l x = K.defaults.subtree l := by
  have hlt := h.contracts hw hw' hb
  have hexp : Expanded w w' b := fun he ↦ hlt.ne' he.1
  have hreach : commonReach w w' b = 256 ^ (5 - topLevel w' b) := by
    rw [commonReach, max_eq_right (hw'.topLevel_antitone hw hb hlt.le)]
  rw [Committer.subtreeNode_below h.1, ← h.empty hK hw' hb hl, Committer.subtreeNode_below hc.1]
  refine Committer.bucketNode_congr hl fun s _ hs ↦ hrec.slots_unhandled hb hexp hn ?_
  rw [hreach]
  exact hc.slot_lt hw' hb hl hs

theorem Records.root_grown (hrec : Records u w w') (hb : isValidDataBucket b)
    (hn : ¬ StateRoot.Handled w w' u.data.toList b)
    (hlt : topLevel w' b < topLevel w b) (htop : topLevel w b ≤ 4) :
    K.bucketNode w b (topLevel w b) 0 = K.bucketNode w' b (topLevel w b) 0 := by
  have hexp : Expanded w w' b := fun h ↦ hlt.ne (topLevel_eq_of_capacity h.1).symm
  refine Committer.bucketNode_congr htop fun s _ hs ↦ hrec.slots_unhandled hb hexp hn ?_
  rwa [commonReach, max_eq_left hlt.le, ← Nat.mul_one (256 ^ _)]

theorem Records.root_contracted (hrec : Records u w w') (hb : isValidDataBucket b)
    (hn : ¬ StateRoot.Handled w w' u.data.toList b) (hlt : topLevel w b < topLevel w' b) (htop : topLevel w' b ≤ 4) :
    K.bucketNode w b (topLevel w' b) 0 = K.bucketNode w' b (topLevel w' b) 0 := by
  have hexp : Expanded w w' b := fun h ↦ hlt.ne (topLevel_eq_of_capacity h.1)
  refine Committer.bucketNode_congr htop fun s _ hs ↦ hrec.slots_unhandled hb hexp hn ?_
  rwa [commonReach, max_eq_right hlt.le, ← Nat.mul_one (256 ^ _)]

end Regions

namespace StateRoot

variable {F C : Type} [CommRing F] [AddCommGroup C] [Module F C] {K : Committer F C} {A : Prop}
  {w w' : SaltKey → Option SaltValue} {T : ℕ → ℕ → Prop} {st : StateRoot C} {u : StateUpdates}

section Contraction

variable {b l : ℕ}

theorem contractionOp_range (hw : Regular w) (hw' : Regular w') (hb : isValidDataBucket b) (hlt : topLevel w b < l)
    (hl : l ≤ 4) {op : LevelContractionOp}
    (hop : op = contractionOp (capacityAt w b) (capacityAt w' b) (topLevel w' b) l)
    {i : ℕ} : (op.updateRange.1 ≤ i ∧ i < op.updateRange.2 ↔ Dropped w w' b l i) ∧
      (Dropped w w' b l i → (i < op.immediateBoundary ↔ Climbs w' b l i)) := by
  obtain ⟨hrun, -⟩ := hw.top hb
  obtain ⟨hrun', hroot'⟩ := hw'.top hb
  have hlevel : op.level = l := by
    rw [hop, contractionOp]
    split <;> rfl
  have hrange := contractionOp_rangeExact hrun hrun' hlt i
  have hexact : BoundaryExact (capacityAt w' b) (contractionOp (capacityAt w b) (capacityAt w' b) (topLevel w' b) l) :=
    (contractionOp_boundaryExact hroot' hrun' hlt hl).mpr fun hmany _ ↦ (hw'.aligned b hb).nodesAt_mod hl hmany
  have hboundary := hexact i
  rw [← hop, hlevel, inSubtree_iff hrun, storedInSubtree_iff hrun'] at hrange
  rw [← hop, hlevel, inSubtree_iff hrun'] at hboundary
  have hdropped : op.updateRange.1 ≤ i ∧ i < op.updateRange.2 ↔ Dropped w w' b l i := by
    rw [hrange, Dropped]
    constructor
    · rintro ⟨⟨-, hi⟩, hn⟩
      exact ⟨hlt, hi, hn⟩
    · rintro ⟨-, hi, hn⟩
      exact ⟨⟨hlt.le, hi⟩, hn⟩
  refine ⟨hdropped, fun hd ↦ ?_⟩
  obtain ⟨hfirst, hlast⟩ := hdropped.mpr hd
  rw [hboundary hfirst hlast, Climbs]
  exact and_congr_left fun _ ↦ by omega

structure Resets (K : Committer F C) (w w' : SaltKey → Option SaltValue) (b l : ℕ) (p : ℕ → Prop)
    (r : TrieUpdates C) : Prop where
  lists : Lists (fun n ↦ ∃ x, n = nodeAt b l x ∧ Dropped w w' b l x ∧ p x) (K.trieOf w) (K.trieOf w') r
  differ : ∀ e ∈ r, e.2.1 ≠ e.2.2

theorem contractionUpdates_sat [DecidableEq C] (hK : K.EmptyDefaults) (hw : Regular w) (hw' : Regular w')
    (hb : isValidDataBucket b)
    (hst : Mirrors K A w T st) (hT : ∀ l, T b l → l < topLevel w b) (hlt : topLevel w b < l) (hl : l ≤ 4) :
    Sat (contractionUpdates K st b (contractionOp (capacityAt w b) (capacityAt w' b) (topLevel w' b) l)) (fun _ ↦ A)
      fun r ↦ Resets K w w' b l (Climbs w' b l) r.1 ∧ Resets K w w' b l (fun x ↦ ¬ Climbs w' b l x) r.2 := by
  set op := contractionOp (capacityAt w b) (capacityAt w' b) (topLevel w' b) l with hop
  have hlevel : op.level = l := by
    rw [hop, contractionOp]
    split <;> rfl
  set positions := List.range' op.updateRange.1 (op.updateRange.2 - op.updateRange.1) with hpositions
  have hmem : ∀ i, i ∈ positions ↔ Dropped w w' b l i := by
    intro i
    rw [hpositions, List.mem_range'_1, ← (contractionOp_range hw hw' hb hlt hl hop).1]
    omega
  have hpow : ∀ i, Dropped w w' b l i → i < 256 ^ l := fun i hi ↦ hi.lt_pow hw hb hl
  have hread : ∀ i ∈ positions, Sat (do
      let nodeId := b * 2 ^ bucketSlotBits + i + leftmostNode op.level
      let old ← expectOk "node should exist in trie" (st.commitment nodeId)
      let new ← asFault (defaultCommitment K.defaults nodeId)
      .ok (if new ≠ old then some (nodeId, old, new) else none)) (fun _ ↦ A)
      (· = if K.trieOf w' (nodeAt b l i) ≠ K.trieOf w (nodeAt b l i) then
        some (nodeAt b l i, K.trieOf w (nodeAt b l i), K.trieOf w' (nodeAt b l i)) else none) := by
    intro i hi
    have hd := (hmem i).mp hi
    have hx := hpow i hd
    have hid : b * 2 ^ bucketSlotBits + i + leftmostNode op.level = nodeAt b l i := by
      rw [hlevel, nodeAt]
      exact Nat.add_right_comm ..
    have hn : ¬ (i = 0 ∧ (l = topLevel w b ∨ T b l)) := by
      rintro ⟨-, rfl | hstale⟩
      · exact lt_irrefl _ hlt
      · exact lt_asymm hlt (hT l hstale)
    have hdefault : asFault (defaultCommitment K.defaults (nodeAt b l i)) = .ok (K.defaults.subtree l) := by
      rw [defaultCommitment_data hb hl hx]
      rfl
    simp only [hid, Committer.trieOf_subtree hb hl hx, hd.empty hK hw' hb hl, hdefault]
    refine (expectOk_sat (hst.node b l i hb hl hx hn)).bind fun c hc ↦ Sat.ok ?_
    rw [hc]
  rw [contractionUpdates]
  refine (Sat.mapM positions hread).bind fun updates hupdates ↦ Sat.ok ?_
  subst hupdates
  set keys := positions.map (nodeAt b l) with hkeys
  have hlist : (positions.map fun i ↦ if K.trieOf w' (nodeAt b l i) ≠ K.trieOf w (nodeAt b l i) then
      some (nodeAt b l i, K.trieOf w (nodeAt b l i), K.trieOf w' (nodeAt b l i)) else none).reduceOption =
      differences (K.trieOf w) (K.trieOf w') keys := by
    have hreduce : ∀ l : List (Option (NodeChange C)), l.reduceOption = l.filterMap id := fun _ ↦ rfl
    rw [hkeys, differences, List.filterMap_map, hreduce, List.filterMap_map]
    rfl
  have hsorted : keys.Pairwise (· < ·) := by
    rw [hkeys, List.pairwise_map]
    refine (List.pairwise_lt_range' 1).imp fun h ↦ ?_
    rw [nodeAt, nodeAt]
    omega
  set stop := op.immediateBoundary + b * 2 ^ bucketSlotBits + leftmostNode op.level with hstop
  have hcut : (differences (K.trieOf w) (K.trieOf w') keys).Pairwise fun e f ↦
      decide (f.1 < stop) = true → decide (e.1 < stop) = true := by
    have hfst : ((differences (K.trieOf w) (K.trieOf w') keys).map Prod.fst).Pairwise (· < ·) := by
      rw [map_fst_differences]
      exact hsorted.sublist List.filter_sublist
    refine (List.pairwise_map.mp hfst).imp fun hef hf ↦ ?_
    rw [decide_eq_true_eq] at hf ⊢
    omega
  have hside : ∀ i, Dropped w w' b l i → (nodeAt b l i < stop ↔ Climbs w' b l i) := by
    intro i hd
    rw [← (contractionOp_range hw hw' hb hlt hl hop).2 hd, hstop, hlevel, nodeAt]
    simp only [bucketSlotBits]
    omega
  have hdomain : ∀ n, n ∈ keys ↔ ∃ i, n = nodeAt b l i ∧ Dropped w w' b l i := by
    intro n
    simp only [hkeys, List.mem_map, hmem]
    exact exists_congr fun i ↦ by rw [and_comm, eq_comm]
  have hlists : Lists (· ∈ keys) (K.trieOf w) (K.trieOf w') (differences (K.trieOf w) (K.trieOf w') keys) :=
    lists_differences (hsorted.imp fun h ↦ h.ne)
  have hdiffer : ∀ e ∈ differences (K.trieOf w) (K.trieOf w') keys, e.2.1 ≠ e.2.2 := by
    intro e he
    obtain ⟨-, hne, hv⟩ := mem_differences.mp he
    rwa [hv]
  rw [hlist, takeWhile_eq_filter hcut, dropWhile_eq_filter hcut]
  refine ⟨⟨?_, fun e he ↦ hdiffer e (List.mem_of_mem_filter he)⟩,
    ⟨?_, fun e he ↦ hdiffer e (List.mem_of_mem_filter he)⟩⟩
  · refine (hlists.filter (· < stop)).congr (fun n ↦ ?_) (fun _ _ ↦ rfl) fun _ _ ↦ rfl
    rw [hdomain]
    constructor
    · rintro ⟨⟨i, rfl, hd⟩, hn⟩
      exact ⟨i, rfl, hd, (hside i hd).mp hn⟩
    · rintro ⟨i, rfl, hd, hc⟩
      exact ⟨⟨i, rfl, hd⟩, (hside i hd).mpr hc⟩
  · simp only [decide_eq_true_eq]
    refine (hlists.filter (fun n ↦ ¬ n < stop)).congr (fun n ↦ ?_) (fun _ _ ↦ rfl) fun _ _ ↦ rfl
    rw [hdomain]
    constructor
    · rintro ⟨⟨i, rfl, hd⟩, hn⟩
      exact ⟨i, rfl, hd, fun hc ↦ hn ((hside i hd).mpr hc)⟩
    · rintro ⟨i, rfl, hd, hc⟩
      exact ⟨⟨i, rfl, hd⟩, fun hn ↦ hc ((hside i hd).mp hn)⟩

end Contraction

section Resetting

variable {b l : ℕ} {P Q : ℕ → ℕ → Prop} {p : Plan C} {needHandle : ExtTreeSet ℕ}

structure ResetsPlanned (K : Committer F C) (w w' : SaltKey → Option SaltValue) (needHandle : ExtTreeSet ℕ)
    (P : ℕ → ℕ → Prop) (p : Plan C) : Prop where
  bounds : ∀ b l, P b l → isValidDataBucket b ∧ l ≤ 4
  extra : ∀ m, Lists (fun n ↦ ∃ b x, n = nodeAt b m x ∧ P b m ∧ Dropped w w' b m x ∧ Climbs w' b m x) (K.trieOf w)
    (K.trieOf w') (p.extra m)
  differ : ∀ m, ∀ e ∈ p.extra m, e.2.1 ≠ e.2.2
  uncomputed : Lists (fun n ↦ ∃ b l x, n = nodeAt b l x ∧ P b l ∧ Dropped w w' b l x ∧ ¬ Climbs w' b l x) (K.trieOf w)
    (K.trieOf w') p.uncomputed
  triggers : ∀ m, p.triggers m = ∅
  needHandle_eq : p.needHandle = needHandle

theorem ResetsPlanned.congr (h : ResetsPlanned K w w' needHandle P p) (hPQ : ∀ b l, P b l ↔ Q b l) :
    ResetsPlanned K w w' needHandle Q p := by
  have heq : P = Q := funext fun b ↦ funext fun l ↦ propext (hPQ b l)
  exact heq ▸ h

theorem ResetsPlanned.add (hw : Regular w) (h : ResetsPlanned K w w' needHandle P p) (hb : isValidDataBucket b)
    (hl : l ≤ 4) (hnew : ¬ P b l) {immediate deferred : TrieUpdates C}
    (himmediate : Resets K w w' b l (Climbs w' b l) immediate)
    (hdeferred : Resets K w w' b l (fun x ↦ ¬ Climbs w' b l x) deferred) :
    ResetsPlanned K w w' needHandle (fun b' l' ↦ P b' l' ∨ b' = b ∧ l' = l)
      ((p.addUncomputed deferred).addExtra l immediate) where
  bounds b' l' := by
    rintro (hP | ⟨rfl, rfl⟩)
    · exact h.bounds b' l' hP
    · exact ⟨hb, hl⟩
  extra m := by
    by_cases hm : m = l
    · subst hm
      have hextra : ((p.addUncomputed deferred).addExtra m immediate).extra m = p.extra m ++ immediate :=
        Function.update_self ..
      rw [hextra]
      refine ((h.extra m).append himmediate.lists ?_).congr (fun n ↦ ?_) (fun _ _ ↦ rfl) fun _ _ ↦ rfl
      · rintro n ⟨b', x', hn, hP, hd', -⟩ ⟨x, hn', hd, -⟩
        have hb' := (h.bounds b' m hP).1
        obtain ⟨rfl, -, -⟩ := (nodeAt_inj hl (hd'.lt_pow hw hb' hl) hl (hd.lt_pow hw hb hl)).mp (hn.symm.trans hn')
        exact hnew hP
      · constructor
        · rintro (⟨b', x, hn, hP, hd⟩ | ⟨x, hn, hd⟩)
          · exact ⟨b', x, hn, .inl hP, hd⟩
          · exact ⟨b, x, hn, .inr ⟨rfl, rfl⟩, hd⟩
        · rintro ⟨b', x, hn, hP | ⟨rfl, -⟩, hd⟩
          · exact .inl ⟨b', x, hn, hP, hd⟩
          · exact .inr ⟨x, hn, hd⟩
    · simp only [Plan.addExtra, Plan.addUncomputed, Function.update_of_ne hm, hm, and_false, or_false]
      exact h.extra m
  differ m e he := by
    by_cases hm : m = l
    · subst hm
      simp only [Plan.addExtra, Plan.addUncomputed, Function.update_self, List.mem_append] at he
      exact he.elim (h.differ m e) (himmediate.differ e)
    · simp only [Plan.addExtra, Plan.addUncomputed, Function.update_of_ne hm] at he
      exact h.differ m e he
  uncomputed := by
    refine (h.uncomputed.append hdeferred.lists ?_).congr (fun n ↦ ?_) (fun _ _ ↦ rfl) fun _ _ ↦ rfl
    · rintro n ⟨b', l', x', hn, hP, hd', -⟩ ⟨x, hn', hd, -⟩
      obtain ⟨hb', hl'⟩ := h.bounds b' l' hP
      obtain ⟨rfl, rfl, -⟩ := (nodeAt_inj hl' (hd'.lt_pow hw hb' hl') hl (hd.lt_pow hw hb hl)).mp (hn.symm.trans hn')
      exact hnew hP
    · constructor
      · rintro (⟨b', l', x, hn, hP, hd⟩ | ⟨x, hn, hd⟩)
        · exact ⟨b', l', x, hn, .inl hP, hd⟩
        · exact ⟨b, l, x, hn, .inr ⟨rfl, rfl⟩, hd⟩
      · rintro ⟨b', l', x, hn, hP | ⟨rfl, rfl⟩, hd⟩
        · exact .inl ⟨b', l', x, hn, hP, hd⟩
        · exact .inr ⟨x, hn, hd⟩
  triggers := h.triggers
  needHandle_eq := h.needHandle_eq

/-- One contracted bucket, level by level. -/
theorem resetContracted_sat [DecidableEq C] (hK : K.EmptyDefaults) (hw : Regular w) (hw' : Regular w')
    (hb : isValidDataBucket b)
    (hst : Mirrors K A w T st) (hT : ∀ l, T b l → l < topLevel w b) (hnew : ∀ l, ¬ P b l) {info : SubtrieChangeInfo}
    (hinfo : info.Shapes w w' b) (h : ResetsPlanned K w w' needHandle P p) :
    Sat (resetContracted K st p (b, info)) (fun _ ↦ A) (ResetsPlanned K w w' needHandle fun b' l ↦
      P b' l ∨ b' = b ∧ capacityAt w' b < capacityAt w b ∧ topLevel w b < l ∧ l ≤ 4) := by
  rw [resetContracted]
  by_cases hlt : capacityAt w' b < capacityAt w b
  · have hcapacities : info.oldCapacity = capacityAt w b ∧ info.newCapacity = capacityAt w' b := by
      rcases hinfo.capacities with h | ⟨-, h, -⟩
      · exact h
      · omega
    obtain ⟨hold, hnewc⟩ := hcapacities
    obtain ⟨oldTop, newTop, hrunOld, -, hrunNew, -, hops⟩ :=
      computeContractionOps_eq (hw'.aligned b hb).le (hw.aligned b hb).le
    obtain rfl : oldTop = topLevel w b := by simpa [(hw.top hb).1] using hrunOld.symm
    obtain rfl : newTop = topLevel w' b := by simpa [(hw'.top hb).1] using hrunNew.symm
    rw [if_neg (by rw [hold, hnewc]; omega), hold, hnewc, hops, ok_bind]
    have hlevels : ∀ ls : List ℕ, (ls.map (contractionOp (capacityAt w b) (capacityAt w' b) (topLevel w' b))).map
        LevelContractionOp.level = ls := by
      intro ls
      rw [List.map_map]
      refine (List.map_congr_left fun l _ ↦ ?_).trans (List.map_id _)
      simp only [Function.comp_apply, contractionOp]
      split <;> rfl
    have hnodup : (levelsBelow (topLevel w b)).Nodup := by
      simp only [levelsBelow, List.nodup_reverse]
      exact List.nodup_range.filter _
    refine (Sat.foldlM (fun done p ↦ ResetsPlanned K w w' needHandle
      (fun b' l ↦ P b' l ∨ b' = b ∧ l ∈ done.map LevelContractionOp.level) p) _ p (h.congr fun b' l ↦ by simp) ?_).mono
      fun p hp ↦ hp.congr fun b' l ↦ ?_
    · intro done op rest hsplit p hp
      obtain ⟨before, after, hbefore, rfl, hafter⟩ := List.map_eq_append_iff.mp hsplit
      obtain ⟨l, after, rfl, rfl, rfl⟩ := List.map_eq_cons_iff.mp hafter
      obtain ⟨hlt', hl⟩ := mem_levelsBelow.mp (by rw [hbefore]; simp : l ∈ levelsBelow (topLevel w b))
      rw [hlevels] at hp
      refine (contractionUpdates_sat hK hw hw' hb hst hT hlt' hl).bind fun r hr ↦ Sat.ok ?_
      have hlevel : (contractionOp (capacityAt w b) (capacityAt w' b) (topLevel w' b) l).level = l := by
        rw [contractionOp]
        split <;> rfl
      have hfresh : ¬ (P b l ∨ b = b ∧ l ∈ before) := by
        rintro (hP | ⟨-, hmem⟩)
        · exact hnew l hP
        · rw [hbefore, List.nodup_append'] at hnodup
          exact hnodup.2.2 hmem (List.mem_cons_self ..)
      rw [hlevel]
      refine (hp.add hw hb hl hfresh hr.1 hr.2).congr fun b' l' ↦ ?_
      rw [List.map_append, hlevels, List.map_cons, List.map_nil, hlevel, List.mem_append,
        List.mem_singleton, and_or_left,
        or_assoc]
    · rw [hlevels, mem_levelsBelow]
      simp [hlt]
  · have hge : info.newCapacity ≥ info.oldCapacity := by
      rcases hinfo.capacities with h | ⟨h, -, -⟩
      · omega
      · omega
    rw [if_pos hge]
    exact Sat.ok (h.congr fun b' l ↦ by simp [hlt])

structure Tracked (w w' : SaltKey → Option SaltValue) (changes : ExtTreeMap ℕ SubtrieChangeInfo) : Prop where
  shapes : ∀ b info, changes[b]? = some info → isValidDataBucket b ∧ info.Shapes w w' b
  present : ∀ b, isValidDataBucket b → capacityAt w b ≠ capacityAt w' b → changes[b]? ≠ none

variable {changes : ExtTreeMap ℕ SubtrieChangeInfo} {done rest : List (ℕ × SubtrieChangeInfo)}
  {e : ℕ × SubtrieChangeInfo}

theorem Tracked.entry (h : Tracked w w' changes) (hsplit : changes.toList = done ++ e :: rest) :
    isValidDataBucket e.1 ∧ e.2.Shapes w w' e.1 ∧ e.1 ∉ done.map Prod.fst := by
  have hget : changes[e.1]? = some e.2 := ExtTreeMap.mem_toList_iff_getElem?_eq_some.mp (by rw [hsplit]; simp)
  have hsorted := hsplit ▸ Library.Entries.toList_sorted changes
  refine ⟨(h.shapes _ _ hget).1, (h.shapes _ _ hget).2, fun hmem ↦ ?_⟩
  obtain ⟨f, hf, hfe⟩ := List.mem_map.mp hmem
  exact absurd hfe ((List.pairwise_append.mp hsorted).2.2 f hf e (by simp)).ne

theorem Tracked.mem_keys (h : Tracked w w' changes) (hb : isValidDataBucket b)
    (hne : capacityAt w b ≠ capacityAt w' b) : b ∈ changes.toList.map Prod.fst := by
  obtain ⟨info, hinfo⟩ := Option.ne_none_iff_exists'.mp (h.present b hb hne)
  exact List.mem_map_of_mem (ExtTreeMap.mem_toList_iff_getElem?_eq_some.mpr hinfo)

theorem Tracked.valid (h : Tracked w w' changes) (hmem : b ∈ changes.toList.map Prod.fst) : isValidDataBucket b := by
  obtain ⟨f, hf, rfl⟩ := List.mem_map.mp hmem
  exact (h.shapes _ _ (ExtTreeMap.mem_toList_iff_getElem?_eq_some.mp hf)).1

/-- After the loop over the contracted buckets the plan has every dropped node. -/
theorem resets_sat [DecidableEq C] (hK : K.EmptyDefaults) (hw : Regular w) (hw' : Regular w')
    (hst : Mirrors K A w T st) (hT : ∀ b l, T b l → l < topLevel w b) (hchanges : Tracked w w' changes) :
    Sat (changes.toList.foldlM (resetContracted K st) ⟨fun _ ↦ [], [], fun _ ↦ ∅, needHandle⟩) (fun _ ↦ A)
      (ResetsPlanned K w w' needHandle fun b l ↦ isValidDataBucket b ∧ l ≤ 4) := by
  have hbegin : ResetsPlanned K w w' needHandle
      (fun b l ↦ b ∈ ([] : List (ℕ × SubtrieChangeInfo)).map Prod.fst ∧ capacityAt w' b < capacityAt w b ∧
        topLevel w b < l ∧ l ≤ 4)
      ⟨fun _ ↦ [], [], fun _ ↦ ∅, needHandle⟩ :=
    ⟨fun b l hP ↦ absurd hP.1 (by simp), fun m ↦ .nil (by rintro n ⟨b, x, -, ⟨hP, -⟩, -⟩; simp at hP),
      fun m e he ↦ absurd he (by simp), .nil (by rintro n ⟨b, l, x, -, ⟨hP, -⟩, -⟩; simp at hP), fun _ ↦ rfl, rfl⟩
  refine (Sat.foldlM (fun done p ↦ ResetsPlanned K w w' needHandle
    (fun b l ↦ b ∈ done.map Prod.fst ∧ capacityAt w' b < capacityAt w b ∧ topLevel w b < l ∧ l ≤ 4) p) _ _ hbegin
    fun done e rest hsplit p hp ↦ ?_).mono fun p hp ↦ ?_
  · obtain ⟨hb, hinfo, hfresh⟩ := hchanges.entry hsplit
    refine (resetContracted_sat hK hw hw' hb hst (hT e.1) (fun l hP ↦ hfresh hP.1) hinfo hp).mono fun p hp ↦
      hp.congr fun b l ↦ ?_
    rw [List.map_append, List.mem_append, List.map_singleton, List.mem_singleton, or_and_right]
    refine or_congr Iff.rfl (and_congr_right ?_)
    rintro rfl
    exact Iff.rfl
  · have hlevels : ∀ b l x, Dropped w w' b l x → ((b ∈ changes.toList.map Prod.fst ∧ capacityAt w' b < capacityAt w b ∧
        topLevel w b < l ∧ l ≤ 4) ↔ isValidDataBucket b ∧ l ≤ 4) := by
      intro b l x hd
      constructor
      · rintro ⟨hmem, -, -, hl⟩
        exact ⟨hchanges.valid hmem, hl⟩
      · rintro ⟨hb, hl⟩
        have hlt := hd.contracts hw hw' hb
        exact ⟨hchanges.mem_keys hb hlt.ne', hlt, hd.1, hl⟩
    refine ⟨fun b l h ↦ h, fun m ↦ ?_, hp.differ, ?_, hp.triggers, hp.needHandle_eq⟩
    · refine (hp.extra m).congr (fun n ↦ ?_) (fun _ _ ↦ rfl) fun _ _ ↦ rfl
      exact exists_congr fun b ↦ exists_congr fun x ↦ and_congr_right fun _ ↦
        and_congr_left fun hd ↦ hlevels b m x hd.1
    · refine hp.uncomputed.congr (fun n ↦ ?_) (fun _ _ ↦ rfl) fun _ _ ↦ rfl
      exact exists_congr fun b ↦ exists_congr fun l ↦ exists_congr fun x ↦ and_congr_right fun _ ↦
        and_congr_left fun hd ↦ hlevels b l x hd.1

end Resetting

section Triggering

variable {b m : ℕ} {D : ℕ → Prop} {l : List StateChange} {p : Plan C} {info : SubtrieChangeInfo}

/-- A bucket whose tree is climbed: some of its keys are handled, or its root moves up. -/
def Active (w w' : SaltKey → Option SaltValue) (l : List StateChange) (b : ℕ) : Prop :=
  Handled w w' l b ∨ isValidDataBucket b ∧ topLevel w' b < topLevel w b

def AtTop (w w' : SaltKey → Option SaltValue) (b m : ℕ) : Prop :=
  topLevel w' b = m ∨ topLevel w b = m ∧ topLevel w' b < topLevel w b

structure Planned (K : Committer F C) (w w' : SaltKey → Option SaltValue) (l : List StateChange) (D : ℕ → Prop)
    (p : Plan C) : Prop where
  needHandle : ∀ b, b ∈ p.needHandle ↔ Handled w w' l b ∨ D b ∧ isValidDataBucket b ∧ topLevel w' b < topLevel w b
  trigger : ∀ m b info, (p.triggers m)[b]? = some info → info.Shapes w w' b ∧ Active w w' l b ∧ AtTop w w' b m
  triggered : ∀ m b, D b → Active w w' l b → AtTop w w' b m → (p.triggers m)[b]? ≠ none
  extra : ∀ m, Lists (fun n ↦ ∃ b x, n = nodeAt b m x ∧ isValidDataBucket b ∧ m ≤ 4 ∧
    (Dropped w w' b m x ∧ Climbs w' b m x ∧ Handled w w' l b ∨
      D b ∧ x = 0 ∧ m = topLevel w b ∧ topLevel w' b < topLevel w b ∧ ¬ Handled w w' l b))
    (K.trieOf w) (K.trieOf w') (p.extra m)
  grown : ∀ b, D b → isValidDataBucket b → topLevel w' b < topLevel w b → ¬ Handled w w' l b →
    nodeAt b (topLevel w b) 0 ∈ (p.extra (topLevel w b)).map Prod.fst
  uncomputed : Lists (fun n ↦ (∃ b l x, n = nodeAt b l x ∧ isValidDataBucket b ∧ l ≤ 4 ∧ Dropped w w' b l x ∧
      ¬ Climbs w' b l x) ∨
    ∃ b, n = nodeAt 0 3 b ∧ D b ∧ isValidDataBucket b ∧ topLevel w b < topLevel w' b ∧ ¬ Handled w w' l b)
    (K.trieOf w) (K.trieOf w') p.uncomputed

/-- Only handled buckets have dropped nodes that climb and change. -/
theorem ResetsPlanned.planned (hK : K.EmptyDefaults) (hrec : Records u w w') (hw : Regular w) (hw' : Regular w')
    {needHandle : ExtTreeSet ℕ} (h : ResetsPlanned K w w' needHandle (fun b l ↦ isValidDataBucket b ∧ l ≤ 4) p)
    (hneed : ∀ b, b ∈ needHandle ↔ Handled w w' u.data.toList b) :
    Planned K w w' u.data.toList (fun _ ↦ False) p where
  needHandle b := by rw [h.needHandle_eq, hneed, false_and, or_false]
  trigger m b info hinfo := by
    rw [h.triggers] at hinfo
    simp at hinfo
  triggered m b hD := hD.elim
  extra m := by
    refine (h.extra m).restrict ?_ ?_
    · rintro n ⟨b, x, hn, hb, hm, ⟨hd, hc, -⟩ | ⟨hD, -⟩⟩
      · exact ⟨b, x, hn, ⟨hb, hm⟩, hd, hc⟩
      · exact hD.elim
    · intro n hn
      obtain ⟨e, he, rfl⟩ := List.mem_map.mp hn
      obtain ⟨⟨b, x, hn, ⟨hb, hm⟩, hd, hc⟩, hv⟩ := (h.extra m).mem e he
      refine ⟨b, x, hn, hb, hm, .inl ⟨hd, hc, ?_⟩⟩
      by_contra hnot
      have hdiffer := h.differ m e he
      have hx := hd.lt_pow hw hb hm
      rw [hv, hn, Committer.trieOf_subtree hb hm hx, Committer.trieOf_subtree hb hm hx,
        hd.unhandled hK hrec hw hw' hb hm hc hnot, hd.empty hK hw' hb hm] at hdiffer
      exact hdiffer rfl
  grown b hD := hD.elim
  uncomputed := by
    refine h.uncomputed.congr (fun n ↦ ?_) (fun _ _ ↦ rfl) fun _ _ ↦ rfl
    simp only [false_and, and_false, exists_false, or_false, and_assoc]

theorem Planned.congr {D' : ℕ → Prop} (h : Planned K w w' l D p) (hD : ∀ b, D b ↔ D' b) : Planned K w w' l D' p := by
  have heq : D = D' := funext fun b ↦ propext (hD b)
  exact heq ▸ h

theorem addTrigger_getElem? {C : Type} {p : Plan C} {m' b' : ℕ} : ((p.addTrigger m b info).triggers m')[b']? =
    if m' = m ∧ b' = b then some info else (p.triggers m')[b']? := by
  by_cases hm : m' = m
  · subst hm
    have hinsert : (p.addTrigger m' b info).triggers m' = (p.triggers m').insert b info := Function.update_self ..
    rw [hinsert]
    by_cases hb : b' = b
    · rw [hb, ExtTreeMap.getElem?_insert_self, if_pos ⟨rfl, rfl⟩]
    · rw [if_neg fun h ↦ hb h.2, ExtTreeMap.getElem?_insert, if_neg]
      rwa [Nat.compare_eq_eq, eq_comm]
  · have hsame : (p.addTrigger m b info).triggers m' = p.triggers m' := Function.update_of_ne hm ..
    rw [hsame, if_neg fun h ↦ hm h.1]

instance (b m : ℕ) : Decidable (AtTop w w' b m) := by
  unfold AtTop
  infer_instance

theorem Planned.triggers_step {p' : Plan C} (h : Planned K w w' l D p) (hinfo : info.Shapes w w' b)
    (hactive : Active w w' l b) (hp' : ∀ m b', (p'.triggers m)[b']? =
      if b' = b ∧ AtTop w w' b m then some info else (p.triggers m)[b']?) :
    (∀ m b' info', (p'.triggers m)[b']? = some info' → info'.Shapes w w' b' ∧ Active w w' l b' ∧ AtTop w w' b' m) ∧
      ∀ m b', D b' ∨ b' = b → Active w w' l b' → AtTop w w' b' m → (p'.triggers m)[b']? ≠ none := by
  constructor
  · intro m b' info' hget
    rw [hp'] at hget
    split at hget
    · rename_i hat
      obtain ⟨rfl, hat⟩ := hat
      cases hget
      exact ⟨hinfo, hactive, hat⟩
    · exact h.trigger m b' info' hget
  · intro m b' hD hactive' hat
    rw [hp']
    split
    · exact Option.some_ne_none _
    · rename_i hnot
      refine h.triggered m b' (hD.resolve_right ?_) hactive' hat
      rintro rfl
      exact hnot ⟨rfl, hat⟩

theorem triggers_grown {C : Type} {p : Plan C} (hinfo : info.Shapes w w' b) (hlt : topLevel w' b < topLevel w b)
    (m b' : ℕ) : (((p.addTrigger info.oldTopLevel b info).addTrigger info.newTopLevel b info).triggers m)[b']? =
      if b' = b ∧ AtTop w w' b m then some info else (p.triggers m)[b']? := by
  rw [addTrigger_getElem?, addTrigger_getElem?, hinfo.oldTopLevel, hinfo.newTopLevel]
  by_cases hb : b' = b
  · by_cases hnew : m = topLevel w' b
    · rw [if_pos ⟨hnew, hb⟩, if_pos ⟨hb, .inl hnew.symm⟩]
    · by_cases hold : m = topLevel w b
      · rw [if_neg fun h ↦ hnew h.1, if_pos ⟨hold, hb⟩, if_pos ⟨hb, .inr ⟨hold.symm, hlt⟩⟩]
      · rw [if_neg fun h ↦ hnew h.1, if_neg fun h ↦ hold h.1,
          if_neg fun h ↦ h.2.elim (fun h ↦ hnew h.symm) fun h ↦ hold h.1.symm]
  · rw [if_neg fun h ↦ hb h.2, if_neg fun h ↦ hb h.2, if_neg fun h ↦ hb h.1]

theorem triggers_handled {C : Type} {p : Plan C} (hinfo : info.Shapes w w' b) (m b' : ℕ) :
    ((if info.oldTopLevel > info.newTopLevel then
        (p.addTrigger info.newTopLevel b info).addTrigger info.oldTopLevel b info
      else p.addTrigger info.newTopLevel b info).triggers m)[b']? =
      if b' = b ∧ AtTop w w' b m then some info else (p.triggers m)[b']? := by
  rw [hinfo.oldTopLevel, hinfo.newTopLevel]
  by_cases hlt : topLevel w b > topLevel w' b
  · rw [if_pos hlt, ← triggers_grown hinfo hlt, addTrigger_getElem?, addTrigger_getElem?, addTrigger_getElem?,
      addTrigger_getElem?, hinfo.oldTopLevel, hinfo.newTopLevel]
    by_cases hnew : m = topLevel w' b ∧ b' = b
    · rw [if_pos hnew, if_pos hnew, ite_self]
    · rw [if_neg hnew, if_neg hnew]
  · rw [if_neg hlt, addTrigger_getElem?]
    refine if_congr ?_ rfl rfl
    rw [AtTop]
    constructor
    · rintro ⟨rfl, rfl⟩
      exact ⟨rfl, .inl rfl⟩
    · rintro ⟨rfl, rfl | ⟨-, h⟩⟩
      · exact ⟨rfl, rfl⟩
      · exact absurd h hlt

theorem Planned.widen {p' : Plan C} (h : Planned K w w' l D p) (hneed : p'.needHandle = p.needHandle)
    (hextra : p'.extra = p.extra) (huncomputed : p'.uncomputed = p.uncomputed)
    (htrigger : ∀ m b' info', (p'.triggers m)[b']? = some info' →
      info'.Shapes w w' b' ∧ Active w w' l b' ∧ AtTop w w' b' m)
    (htriggered : ∀ m b', D b' ∨ b' = b → Active w w' l b' → AtTop w w' b' m → (p'.triggers m)[b']? ≠ none)
    (hb : Handled w w' l b ∨ topLevel w b = topLevel w' b) : Planned K w w' l (fun b' ↦ D b' ∨ b' = b) p' := by
  have hold : ∀ b', ¬ Handled w w' l b' → topLevel w b' ≠ topLevel w' b' → D b' ∨ b' = b → D b' := by
    intro b' hn hne hD
    refine hD.resolve_right ?_
    rintro rfl
    exact hb.elim hn hne
  refine ⟨fun b' ↦ ?_, htrigger, htriggered, fun m ↦ ?_, fun b' hD hb' hlt hn ↦ ?_, ?_⟩
  · rw [hneed, h.needHandle]
    by_cases hn : Handled w w' l b'
    · simp only [hn, true_or]
    · refine or_congr Iff.rfl ⟨fun hD ↦ ⟨.inl hD.1, hD.2⟩, fun hD ↦ ⟨hold b' hn hD.2.2.ne' hD.1, hD.2⟩⟩
  · rw [hextra]
    refine (h.extra m).congr (fun n ↦ ?_) (fun _ _ ↦ rfl) fun _ _ ↦ rfl
    refine exists_congr fun b' ↦ exists_congr fun x ↦ and_congr_right fun _ ↦ and_congr_right fun _ ↦
      and_congr_right fun _ ↦ or_congr Iff.rfl ⟨fun hD ↦ ⟨.inl hD.1, hD.2⟩, fun hD ↦ ⟨?_, hD.2⟩⟩
    exact hold b' hD.2.2.2.2 hD.2.2.2.1.ne' hD.1
  · rw [hextra]
    exact h.grown b' (hold b' hn hlt.ne' hD) hb' hlt hn
  · rw [huncomputed]
    refine h.uncomputed.congr (fun n ↦ or_congr Iff.rfl ?_) (fun _ _ ↦ rfl) fun _ _ ↦ rfl
    refine exists_congr fun b' ↦ and_congr_right fun _ ↦ ⟨fun hD ↦ ⟨.inl hD.1, hD.2⟩, fun hD ↦ ⟨?_, hD.2⟩⟩
    exact hold b' hD.2.2.2 hD.2.2.1.ne hD.1

theorem Planned.handled (h : Planned K w w' l D p) (hinfo : info.Shapes w w' b) (hb : Handled w w' l b) :
    Planned K w w' l (fun b' ↦ D b' ∨ b' = b)
      (if info.oldTopLevel > info.newTopLevel then
          (p.addTrigger info.newTopLevel b info).addTrigger info.oldTopLevel b info
        else p.addTrigger info.newTopLevel b info) := by
  obtain ⟨htrigger, htriggered⟩ := h.triggers_step hinfo (.inl hb) (triggers_handled hinfo)
  refine h.widen ?_ ?_ ?_ htrigger htriggered (.inl hb)
  all_goals split <;> rfl

/-- The root of a bucket moves up past nodes without changes: the old root becomes a node. -/
theorem Planned.grow (hrec : Records u w w') (hw : Regular w) (h : Planned K w w' u.data.toList D p)
    (hinfo : info.Shapes w w' b) (hb : isValidDataBucket b) (hfresh : ¬ D b) (hn : ¬ Handled w w' u.data.toList b)
    (hlt : topLevel w' b < topLevel w b) :
    Planned K w w' u.data.toList (fun b' ↦ D b' ∨ b' = b)
      (({ p.addExtra info.oldTopLevel [(info.oldTopId, K.defaults.subtree (topLevel w b), K.mainNode w 3 b)] with
        needHandle := p.needHandle.insert b }.addTrigger info.oldTopLevel b info).addTrigger
        info.newTopLevel b info) := by
  set p₁ : Plan C :=
    { p.addExtra info.oldTopLevel [(info.oldTopId, K.defaults.subtree (topLevel w b), K.mainNode w 3 b)] with
      needHandle := p.needHandle.insert b } with hp₁
  have htop := (hw.top hb).2.le
  have hpos : 0 < 256 ^ topLevel w b := by positivity
  have hbefore : K.trieOf w (nodeAt b (topLevel w b) 0) = K.defaults.subtree (topLevel w b) := by
    rw [Committer.trieOf_subtree hb htop hpos, Committer.subtreeNode_unused le_rfl]
  have hafter : K.trieOf w' (nodeAt b (topLevel w b) 0) = K.mainNode w 3 b := by
    rw [Committer.trieOf_subtree hb htop hpos, Committer.subtreeNode_below hlt, Committer.mainNode_bucket,
      hrec.root_grown hb hn hlt htop]
  have hentry : (info.oldTopId, K.defaults.subtree (topLevel w b), K.mainNode w 3 b) =
      (nodeAt b (topLevel w b) 0, K.trieOf w (nodeAt b (topLevel w b) 0), K.trieOf w' (nodeAt b (topLevel w b) 0)) := by
    rw [hbefore, hafter, hinfo.oldTopId]
  obtain ⟨htrigger, htriggered⟩ := h.triggers_step hinfo (.inr ⟨hb, hlt⟩) (triggers_grown hinfo hlt)
  have hextra : ∀ m, m ≠ topLevel w b → p₁.extra m = p.extra m := by
    intro m hm
    rw [← hinfo.oldTopLevel] at hm
    exact Function.update_of_ne hm ..
  have hextra' : p₁.extra (topLevel w b) = p.extra (topLevel w b) ++
      [(nodeAt b (topLevel w b) 0, K.trieOf w (nodeAt b (topLevel w b) 0),
        K.trieOf w' (nodeAt b (topLevel w b) 0))] := by
    have hupdate : p₁.extra info.oldTopLevel = p.extra info.oldTopLevel ++
        [(info.oldTopId, K.defaults.subtree (topLevel w b), K.mainNode w 3 b)] := Function.update_self ..
    rwa [hentry, hinfo.oldTopLevel] at hupdate
  refine ⟨fun b' ↦ ?_, htrigger, htriggered, fun m ↦ ?_, fun b' hD hb' hlt' hn' ↦ ?_, ?_⟩
  · change b' ∈ p.needHandle.insert b ↔ _
    rw [ExtTreeSet.mem_insert, h.needHandle, Nat.compare_eq_eq]
    constructor
    · rintro (rfl | hH | ⟨hD, hgrow⟩)
      · exact .inr ⟨.inr rfl, hb, hlt⟩
      · exact .inl hH
      · exact .inr ⟨.inl hD, hgrow⟩
    · rintro (hH | ⟨hD | rfl, hgrow⟩)
      · exact .inr (.inl hH)
      · exact .inr (.inr ⟨hD, hgrow⟩)
      · exact .inl rfl
  · change Lists _ _ _ (p₁.extra m)
    by_cases hm : m = topLevel w b
    · subst hm
      rw [hextra']
      refine ((h.extra _).append (Lists.single (D := fun n ↦ n = nodeAt b (topLevel w b) 0) rfl fun _ hk ↦ hk)
        ?_).congr (fun n ↦ ?_) (fun _ _ ↦ rfl) fun _ _ ↦ rfl
      · rintro n ⟨b', x, hn', hb', -, ⟨hd, -, hH⟩ | ⟨hD, rfl, hl, -⟩⟩ rfl
        · obtain ⟨rfl, -, -⟩ := (nodeAt_inj htop hpos htop (hd.lt_pow hw hb' htop)).mp hn'
          exact hn hH
        · obtain ⟨rfl, -, -⟩ := (nodeAt_inj htop hpos htop hpos).mp hn'
          exact hfresh hD
      · constructor
        · rintro (⟨b', x, hn', hb', hl, hd | ⟨hD, hrest⟩⟩ | rfl)
          · exact ⟨b', x, hn', hb', hl, .inl hd⟩
          · exact ⟨b', x, hn', hb', hl, .inr ⟨.inl hD, hrest⟩⟩
          · exact ⟨b, 0, rfl, hb, htop, .inr ⟨.inr rfl, rfl, rfl, hlt, hn⟩⟩
        · rintro ⟨b', x, hn', hb', hl, hd | ⟨hD | rfl, rfl, hrest⟩⟩
          · exact .inl ⟨b', x, hn', hb', hl, .inl hd⟩
          · exact .inl ⟨b', 0, hn', hb', hl, .inr ⟨hD, rfl, hrest⟩⟩
          · exact .inr hn'
    · rw [hextra m hm]
      refine (h.extra m).congr (fun n ↦ ?_) (fun _ _ ↦ rfl) fun _ _ ↦ rfl
      refine exists_congr fun b' ↦ exists_congr fun x ↦ and_congr_right fun _ ↦ and_congr_right fun _ ↦
        and_congr_right fun _ ↦ or_congr Iff.rfl ⟨fun hD ↦ ⟨.inl hD.1, hD.2⟩, fun hD ↦ ⟨hD.1.resolve_right ?_, hD.2⟩⟩
      rintro rfl
      exact hm hD.2.2.1
  · change nodeAt b' (topLevel w b') 0 ∈ (p₁.extra (topLevel w b')).map Prod.fst
    by_cases hm : topLevel w b' = topLevel w b
    · rw [hm, hextra', List.map_append, List.mem_append]
      rcases hD with hD | rfl
      · left
        rw [← hm]
        exact h.grown b' hD hb' hlt' hn'
      · right
        exact List.mem_singleton_self _
    · rw [hextra _ hm]
      refine h.grown b' (hD.resolve_right ?_) hb' hlt' hn'
      rintro rfl
      exact hm rfl
  · change Lists _ _ _ p.uncomputed
    refine h.uncomputed.congr (fun n ↦ or_congr Iff.rfl ?_) (fun _ _ ↦ rfl) fun _ _ ↦ rfl
    refine exists_congr fun b' ↦ and_congr_right fun _ ↦ ⟨fun hD ↦ ⟨.inl hD.1, hD.2⟩,
      fun hD ↦ ⟨hD.1.resolve_right ?_, hD.2⟩⟩
    rintro rfl
    exact absurd hD.2.2.1 (not_lt.mpr hlt.le)

/-- The root of a bucket moves down to a node without changes. -/
theorem Planned.shrink (hrec : Records u w w') (hw : Regular w) (hw' : Regular w')
    (h : Planned K w w' u.data.toList D p) (hb : isValidDataBucket b) (hfresh : ¬ D b)
    (hn : ¬ Handled w w' u.data.toList b) (hlt : topLevel w b < topLevel w' b) :
    Planned K w w' u.data.toList (fun b' ↦ D b' ∨ b' = b)
      (p.addUncomputed [(nodeAt 0 3 b, K.mainNode w 3 b, K.subtreeNode w b (topLevel w' b) 0)]) := by
  have hpow : b < 256 ^ 3 := dataBucket_lt hb
  have hentry : (nodeAt 0 3 b, K.mainNode w 3 b, K.subtreeNode w b (topLevel w' b) 0) =
      (nodeAt 0 3 b, K.trieOf w (nodeAt 0 3 b), K.trieOf w' (nodeAt 0 3 b)) := by
    rw [Committer.trieOf_main le_rfl hpow, Committer.trieOf_main le_rfl hpow, Committer.subtreeNode_below hlt,
      Committer.mainNode_bucket (w := w'), hrec.root_contracted hb hn hlt (hw'.top hb).2.le]
  have hinactive : ∀ b', Active w w' u.data.toList b' → b' ≠ b := by
    rintro b' (hH | ⟨-, hgrow⟩) rfl
    · exact hn hH
    · exact lt_asymm hgrow hlt
  refine ⟨fun b' ↦ ?_, h.trigger, fun m b' hD hactive ↦ ?_, fun m ↦ ?_, fun b' hD hb' hgrow ↦ ?_, ?_⟩
  · refine (h.needHandle b').trans (or_congr Iff.rfl ⟨fun hD ↦ ⟨.inl hD.1, hD.2⟩,
      fun hD ↦ ⟨hD.1.resolve_right ?_, hD.2⟩⟩)
    exact hinactive b' (.inr hD.2)
  · exact h.triggered m b' (hD.resolve_right (hinactive b' hactive)) hactive
  · refine (h.extra m).congr (fun n ↦ ?_) (fun _ _ ↦ rfl) fun _ _ ↦ rfl
    refine exists_congr fun b' ↦ exists_congr fun x ↦ and_congr_right fun _ ↦ and_congr_right fun hb' ↦
      and_congr_right fun _ ↦ or_congr Iff.rfl ⟨fun hD ↦ ⟨.inl hD.1, hD.2⟩, fun hD ↦ ⟨hD.1.resolve_right ?_, hD.2⟩⟩
    exact hinactive b' (.inr ⟨hb', hD.2.2.2.1⟩)
  · exact h.grown b' (hD.resolve_right (hinactive b' (.inr ⟨hb', hgrow⟩))) hb' hgrow
  · change Lists _ _ _ (p.uncomputed ++ [_])
    rw [hentry]
    refine (h.uncomputed.append (Lists.single (D := fun n ↦ n = nodeAt 0 3 b) rfl fun _ hk ↦ hk) ?_).congr
      (fun n ↦ ?_) (fun _ _ ↦ rfl) fun _ _ ↦ rfl
    · rintro n (⟨b', l, x, hn', hb', hl, hd, -⟩ | ⟨b', hn', hD, hb', -⟩) rfl
      · exact subtree_ne_main hb' hl (hd.lt_pow hw hb' hl) (dataBucket_lt hb) hn'
      · obtain ⟨-, -, rfl⟩ := (nodeAt_inj (by norm_num) hpow (by norm_num) (dataBucket_lt hb')).mp hn'
        exact hfresh hD
    · rw [or_assoc]
      refine or_congr Iff.rfl ?_
      constructor
      · rintro (⟨b', hn', hD, hrest⟩ | rfl)
        · exact ⟨b', hn', .inl hD, hrest⟩
        · exact ⟨b, rfl, .inr rfl, hb, hlt, hn⟩
      · rintro ⟨b', hn', hD | rfl, hrest⟩
        · exact .inl ⟨b', hn', hD, hrest⟩
        · exact .inr hn'

theorem setTriggers_sat (hrec : Records u w w') (hw : Regular w) (hw' : Regular w') (hst : Mirrors K A w T st)
    (hT : ∀ b l, T b l → l < topLevel w b) (h : Planned K w w' u.data.toList D p) (hb : isValidDataBucket b)
    (hinfo : info.Shapes w w' b) (hfresh : ¬ D b) :
    Sat (setTriggers K st p (b, info)) (fun _ ↦ A) (Planned K w w' u.data.toList fun b' ↦ D b' ∨ b' = b) := by
  rw [setTriggers]
  by_cases hH : Handled w w' u.data.toList b
  · rw [if_pos ((h.needHandle b).mpr (.inl hH))]
    exact Sat.ok (h.handled hinfo hH)
  · have hmem : b ∉ p.needHandle := fun hmem ↦ ((h.needHandle b).mp hmem).elim hH fun hD ↦ hfresh hD.1
    have hroot := hst.root b (dataBucket_lt hb)
    rw [← hinfo.rootId] at hroot
    rw [if_neg hmem]
    rcases lt_trichotomy (topLevel w b) (topLevel w' b) with hlt | heq | hgt
    · have hcmp : compare info.oldTopLevel info.newTopLevel = .lt := by
        rw [hinfo.oldTopLevel, hinfo.newTopLevel]
        exact Nat.compare_eq_lt.mpr hlt
      have hn : ¬ (0 = 0 ∧ (topLevel w' b = topLevel w b ∨ T b (topLevel w' b))) := by
        rintro ⟨-, heq | hstale⟩
        · exact hlt.ne' heq
        · exact lt_asymm hlt (hT b _ hstale)
      have hnewTop := hst.node b (topLevel w' b) 0 hb (hw'.top hb).2.le (by positivity) hn
      rw [← hinfo.newTopId] at hnewTop
      simp only [hcmp]
      refine hroot.bind fun c hc ↦ hnewTop.bind fun c' hc' ↦ Sat.ok ?_
      subst hc hc'
      rw [hinfo.rootId]
      exact h.shrink hrec hw hw' hb hfresh hH hlt
    · have hcmp : compare info.oldTopLevel info.newTopLevel = .eq := by
        rw [hinfo.oldTopLevel, hinfo.newTopLevel]
        exact Nat.compare_eq_eq.mpr heq
      simp only [hcmp]
      have hinactive : ¬ Active w w' u.data.toList b := by
        rintro (hH' | ⟨-, hgrow⟩)
        · exact hH hH'
        · exact hgrow.ne heq.symm
      refine Sat.ok (h.widen rfl rfl rfl h.trigger
        (fun m b' hD hactive ↦ h.triggered m b' (hD.resolve_right ?_) hactive)
        (.inr heq))
      rintro rfl
      exact hinactive hactive
    · have hcmp : compare info.oldTopLevel info.newTopLevel = .gt := by
        rw [hinfo.oldTopLevel, hinfo.newTopLevel]
        exact Nat.compare_eq_gt.mpr hgt
      have hdefault :
          asFault (defaultCommitment K.defaults info.oldTopId) = .ok (K.defaults.subtree (topLevel w b)) := by
        rw [hinfo.oldTopId, defaultCommitment_data hb (hw.top hb).2.le (by positivity)]
        rfl
      simp only [hcmp]
      rw [hdefault, ok_bind]
      refine hroot.bind fun c hc ↦ Sat.ok ?_
      subst hc
      exact h.grow hrec hw hinfo hb hfresh hH hgt

/-- A plan for all buckets that matter is a plan for all buckets. -/
theorem Planned.complete (h : Planned K w w' l D p)
    (hD : ∀ b, isValidDataBucket b → Handled w w' l b ∨ capacityAt w b ≠ capacityAt w' b → D b) :
    Planned K w w' l (fun _ ↦ True) p := by
  have hgrow : ∀ b, isValidDataBucket b → topLevel w' b < topLevel w b → D b := fun b hb hlt ↦
    hD b hb (.inr fun heq ↦ hlt.ne (topLevel_eq_of_capacity heq).symm)
  have hshrink : ∀ b, isValidDataBucket b → topLevel w b < topLevel w' b → D b := fun b hb hlt ↦
    hD b hb (.inr fun heq ↦ hlt.ne (topLevel_eq_of_capacity heq))
  refine ⟨fun b ↦ (h.needHandle b).trans (or_congr Iff.rfl ?_), h.trigger,
    fun m b _ hactive ↦ h.triggered m b ?_ hactive,
    fun m ↦ (h.extra m).congr (fun n ↦ ?_) (fun _ _ ↦ rfl) fun _ _ ↦ rfl,
    fun b _ hb hlt ↦ h.grown b (hgrow b hb hlt) hb hlt,
    h.uncomputed.congr (fun n ↦ or_congr Iff.rfl ?_) (fun _ _ ↦ rfl) fun _ _ ↦ rfl⟩
  · exact ⟨fun h ↦ ⟨trivial, h.2⟩, fun h ↦ ⟨hgrow b h.2.1 h.2.2, h.2⟩⟩
  · exact hactive.elim (fun hH ↦ hD b hH.1 (.inl hH)) fun hlt ↦ hgrow b hlt.1 hlt.2
  · exact exists_congr fun b ↦ exists_congr fun x ↦ and_congr_right fun _ ↦ and_congr_right fun hb ↦
      and_congr_right fun _ ↦ or_congr Iff.rfl
        ⟨fun h ↦ ⟨trivial, h.2⟩, fun h ↦ ⟨hgrow b hb h.2.2.2.1, h.2⟩⟩
  · exact exists_congr fun b ↦ and_congr_right fun _ ↦
      ⟨fun h ↦ ⟨trivial, h.2⟩, fun h ↦ ⟨hshrink b h.2.1 h.2.2.1, h.2⟩⟩

/-- The complete plan. -/
theorem planChanges_sat [DecidableEq C] (hK : K.EmptyDefaults) (hrec : Records u w w') (hw : Regular w)
    (hw' : Regular w')
    (hst : Mirrors K A w T st) (hT : ∀ b l, T b l → l < topLevel w b) {changes : ExtTreeMap ℕ SubtrieChangeInfo}
    (hchanges : Tracked w w' changes) {needHandle : ExtTreeSet ℕ}
    (hneed : ∀ b, b ∈ needHandle ↔ Handled w w' u.data.toList b) :
    Sat (planChanges K st changes needHandle) (fun _ ↦ A)
      (Planned K w w' u.data.toList fun b ↦ b ∈ changes.toList.map Prod.fst) := by
  refine (resets_sat hK hw hw' hst hT hchanges).bind fun p hp ↦ ?_
  have hbegin := hp.planned hK hrec hw hw' hneed
  refine Sat.foldlM (fun done p ↦ Planned K w w' u.data.toList (fun b ↦ b ∈ done.map Prod.fst) p) _ _
    (hbegin.congr fun b ↦ by simp) fun done e rest hsplit p hp ↦ ?_
  obtain ⟨hb, hinfo, hfresh⟩ := hchanges.entry hsplit
  refine (setTriggers_sat hrec hw hw' hst hT hp hb hinfo hfresh).mono fun p hp ↦ hp.congr fun b ↦ ?_
  rw [List.map_append, List.mem_append, List.map_singleton, List.mem_singleton]

end Triggering

end StateRoot

end Salt
