import Salt.Proof.Prover

namespace Salt

open Std (ExtTreeMap ExtTreeSet)
open Library.Triple

namespace Points

/-- The positions to open are those of the predicate, and no node stands there without one. -/
structure Exactly (m : Points) (P : ℕ × ℕ → Prop) : Prop where
  opens : ∀ p, m.Opens p ↔ P p
  inhabited : ∀ n ∈ m, ∃ q, m.Opens (n, q)

variable {m acc : Points} {P Q : ℕ × ℕ → Prop}

theorem Opens.mem_keys {n q : ℕ} (h : m.Opens (n, q)) : n ∈ m := by
  obtain ⟨s, hs, -⟩ := h
  exact ExtTreeMap.mem_iff_isSome_getElem?.mpr (by rw [hs]; rfl)

theorem Exactly.empty : Exactly ∅ fun _ ↦ False := by
  refine ⟨fun p ↦ ?_, fun n hn ↦ ?_⟩
  · simp [Opens]
  · simp at hn

theorem Exactly.congr (h : m.Exactly P) (hPQ : ∀ p, P p ↔ Q p) : m.Exactly Q :=
  ⟨fun p ↦ (h.opens p).trans (hPQ p), h.inhabited⟩

theorem Exactly.mem_iff (h : m.Exactly P) {n : ℕ} : n ∈ m ↔ ∃ q, P (n, q) := by
  constructor
  · intro hn
    obtain ⟨q, hq⟩ := h.inhabited n hn
    exact ⟨q, (h.opens _).mp hq⟩
  · rintro ⟨q, hq⟩
    exact ((h.opens _).mpr hq).mem_keys

theorem Exactly.insertPoint (h : m.Exactly P) (node position : ℕ) :
    (m.insertPoint node position).Exactly fun p ↦ p = (node, position) ∨ P p := by
  refine ⟨fun p ↦ ?_, fun n hn ↦ ?_⟩
  · rw [opens_insertPoint, h.opens]
  · rw [Points.insertPoint, ExtTreeMap.mem_insert, Std.LawfulEqCmp.compare_eq_iff_eq] at hn
    rcases hn with rfl | hn
    · exact ⟨position, opens_insertPoint.mpr (.inl rfl)⟩
    · obtain ⟨q, hq⟩ := h.inhabited n hn
      exact ⟨q, opens_insertPoint.mpr (.inr hq)⟩

theorem mem_extend {n : ℕ} : n ∈ acc.extend m ↔ n ∈ m ∨ n ∈ acc := by
  have key : ∀ (l : List (ℕ × ExtTreeSet ℕ)) (acc : Points),
      n ∈ l.foldl extendEntry acc ↔ n ∈ l.map Prod.fst ∨ n ∈ acc := by
    intro l
    induction l with
    | nil => simp
    | cons e l ih =>
      intro acc
      rw [List.foldl_cons, ih, extendEntry, ExtTreeMap.mem_insert, Std.LawfulEqCmp.compare_eq_iff_eq,
        List.map_cons, List.mem_cons]
      tauto
  rw [extend, key, ExtTreeMap.map_fst_toList_eq_keys, ExtTreeMap.mem_keys]

theorem Exactly.extend (h : m.Exactly P) (hacc : acc.Exactly Q) :
    (acc.extend m).Exactly fun p ↦ P p ∨ Q p := by
  refine ⟨fun p ↦ ?_, fun n hn ↦ ?_⟩
  · rw [opens_extend, h.opens, hacc.opens]
  · rcases mem_extend.mp hn with hn | hn
    · obtain ⟨q, hq⟩ := h.inhabited n hn
      exact ⟨q, opens_extend.mpr (.inl hq)⟩
    · obtain ⟨q, hq⟩ := hacc.inhabited n hn
      exact ⟨q, opens_extend.mpr (.inr hq)⟩

theorem Exactly.unique {m' : Points} (h : m.Exactly P) (h' : m'.Exactly P) : m = m' := by
  have hopens : ∀ p, m.Opens p ↔ m'.Opens p := fun p ↦ (h.opens p).trans (h'.opens p).symm
  have hsub : ∀ {a b : Points} {n : ℕ} {s t : ExtTreeSet ℕ}, (∀ p, a.Opens p ↔ b.Opens p) →
      a[n]? = some s → b[n]? = some t → ∀ q, q ∈ s → q ∈ t := by
    intro a b n s t hab hs ht q hq
    obtain ⟨t', ht', hq'⟩ := (hab (n, q)).mp ⟨s, hs, hq⟩
    obtain rfl : t = t' := Option.some.inj (ht.symm.trans ht')
    exact hq'
  refine ExtTreeMap.ext_getElem? fun n ↦ ?_
  have hmem : n ∈ m ↔ n ∈ m' := h.mem_iff.trans h'.mem_iff.symm
  cases hs : m[n]? with
  | none =>
    have hn : n ∉ m' := fun hn ↦ by simpa [hs] using ExtTreeMap.mem_iff_isSome_getElem?.mp (hmem.mpr hn)
    exact (ExtTreeMap.getElem?_eq_none hn).symm
  | some s =>
    have hn : n ∈ m' := hmem.mp (ExtTreeMap.mem_iff_isSome_getElem?.mpr (by rw [hs]; rfl))
    obtain ⟨t, ht⟩ := Option.isSome_iff_exists.mp (ExtTreeMap.mem_iff_isSome_getElem?.mp hn)
    rw [ht, Option.some.injEq]
    exact ExtTreeSet.ext_mem fun q ↦
      ⟨hsub hopens hs ht q, hsub (fun p ↦ (hopens p).symm) ht hs q⟩

end Points

def climbPositions (b l x n : ℕ) : List (ℕ × ℕ) :=
  (List.range n).map fun i ↦ (nodeAt b (l - 1 - i) (x / 256 ^ (i + 1)), x / 256 ^ i % 256)

theorem climbPositions_succ (b l x n : ℕ) :
    climbPositions b (l + 1) x (n + 1) =
      (nodeAt b l (x / 256), x % 256) :: climbPositions b l (x / 256) n := by
  rw [climbPositions, List.range_succ_eq_map, List.map_cons, List.map_map]
  congr 1
  · simp
  · refine List.map_congr_left fun i _ ↦ ?_
    simp only [Function.comp_apply, Nat.succ_eq_add_one]
    rw [Nat.div_div_eq_div_mul, Nat.div_div_eq_div_mul, ← pow_succ', ← pow_succ',
      show l + 1 - 1 - (i + 1) = l - 1 - i by omega]

/-- The internal positions that a key in a bucket tree of the given depth needs opened. -/
def pathPositions (key : SaltKey) (level : ℕ) : List (ℕ × ℕ) :=
  climbPositions 0 3 key.bucketId 3 ++ climbPositions key.bucketId 4 (key.slotId / 256) (level - 2) ++
    if 2 ≤ level then
      [(encodeParent (bucketRootNodeId key.bucketId) level, key.slotId / 256 / 256 ^ (level - 2) % 256)]
    else []

def slotPosition (key : SaltKey) (level : ℕ) : ℕ × ℕ :=
  (if level = 1 then bucketRootNodeId key.bucketId else subtreeLeafForKey key, key.slotId % 256)

section Climbs

variable {P : ℕ × ℕ → Prop} {m : Points} {b l x : ℕ}

theorem mainTriePoints_exactly (hl : l ≤ 4) (hx : x < 256 ^ l) (hm : m.Exactly P) :
    ∃ m', mainTriePoints (l + 1) (nodeAt 0 l x) m = .ok m' ∧
      m'.Exactly fun p ↦ p ∈ climbPositions 0 l x l ∨ P p := by
  induction l generalizing x m P with
  | zero =>
    obtain rfl : x = 0 := by simpa using hx
    exact ⟨m, rfl, hm.congr fun p ↦ by simp [climbPositions]⟩
  | succ l ih =>
    have hnode : nodeAt 0 (l + 1) x ≠ 0 := by
      have := leftmostNode_mono (show 1 ≤ l + 1 by omega) (by omega)
      rw [show leftmostNode 1 = 1 from rfl] at this
      rw [nodeAt]
      omega
    rw [mainTriePoints, if_neg hnode, getParentNode_nodeAt (by omega) hx, ok_bind,
      vcPositionInParent_nodeAt hl hx]
    obtain ⟨m', hm', hexact⟩ := ih (x := x / 256) (by omega) (by rw [pow_succ] at hx; omega)
      (hm.insertPoint (nodeAt 0 l (x / 256)) (x % 256))
    refine ⟨m', hm', hexact.congr fun p ↦ ?_⟩
    rw [climbPositions_succ, List.mem_cons]
    tauto

theorem subtreePoints_exactly (n : ℕ) (hl : l ≤ 4) (hx : x < 256 ^ l) (hn : n ≤ l)
    (hm : m.Exactly P) :
    ∃ m', subtreePoints (n + 2) (nodeAt b l x) m = .ok (nodeAt b (l - n) (x / 256 ^ n), m') ∧
      m'.Exactly fun p ↦ p ∈ climbPositions b l x n ∨ P p := by
  induction n generalizing l x m P with
  | zero => exact ⟨m, by simp [subtreePoints], hm.congr fun p ↦ by simp [climbPositions]⟩
  | succ n ih =>
    obtain ⟨l, rfl⟩ : ∃ l', l = l' + 1 := ⟨l - 1, by omega⟩
    rw [subtreePoints, getParentNode_nodeAt (by omega) hx, ok_bind, vcPositionInParent_nodeAt hl hx]
    obtain ⟨m', hm', hexact⟩ := ih (l := l) (x := x / 256) (by omega) (by rw [pow_succ] at hx; omega)
      (by omega) (hm.insertPoint (nodeAt b l (x / 256)) (x % 256))
    refine ⟨m', ?_, hexact.congr fun p ↦ ?_⟩
    · rw [hm', Nat.div_div_eq_div_mul, ← pow_succ', show l + 1 - (n + 1) = l - n by omega]
    · rw [climbPositions_succ, List.mem_cons]
      tauto

theorem subtreePoints_shallow {level : ℕ} (h : level < 2) (node : ℕ) (m : Points) :
    subtreePoints level node m = .ok (node, m) := by
  obtain rfl | rfl : level = 0 ∨ level = 1 := by omega
  · rfl
  · rfl

end Climbs

section Keys

variable {levels : ExtTreeMap ℕ ℕ} {key : SaltKey} {level : ℕ}

theorem slotId_segment_lt (key : SaltKey) : key.slotId / 256 < 256 ^ 4 := by
  have := key.slotId_lt
  omega

theorem keyPoints_exactly (hfound : levels[key.bucketId]? = some level) (hl : level ≤ 6) :
    ∃ r, keyPoints levels key = .ok r ∧ r.1.Exactly (· ∈ pathPositions key level) ∧
      r.2.Exactly (· = slotPosition key level) := by
  have hx := slotId_segment_lt key
  obtain ⟨m₁, hm₁, hmain⟩ := mainTriePoints_exactly (by omega)
    (show key.bucketId < 256 ^ 3 from key.bucketId_lt) Points.Exactly.empty
  have hleaf : ((∅ : Points).insertPoint (slotPosition key level).1 (slotPosition key level).2).Exactly
      (· = slotPosition key level) :=
    (Points.Exactly.empty.insertPoint ..).congr fun p ↦ by simp
  rw [keyPoints, hfound]
  simp only
  rw [bucketRootNodeId_eq, subtreeLeafForKey_eq, hm₁, ok_bind]
  rcases Nat.lt_or_ge level 2 with h2 | h2
  · rw [subtreePoints_shallow h2, ok_bind]
    refine ⟨_, rfl, ?_, ?_⟩
    · rw [if_neg (by omega)]
      refine hmain.congr fun p ↦ ?_
      rw [pathPositions, if_neg (by omega), show level - 2 = 0 by omega]
      simp [climbPositions]
    · simpa only [slotPosition, bucketRootNodeId_eq, subtreeLeafForKey_eq] using hleaf
  · obtain ⟨n, rfl⟩ : ∃ n, level = n + 2 := ⟨level - 2, by omega⟩
    obtain ⟨m₂, hm₂, hsub⟩ := subtreePoints_exactly (b := key.bucketId) n le_rfl hx (by omega) hmain
    have hdiv : key.slotId / 256 / 256 ^ n < 256 ^ (4 - n) := by
      rw [Nat.div_lt_iff_lt_mul (by positivity), ← pow_add]
      rwa [Nat.sub_add_cancel (by omega)]
    rw [hm₂, ok_bind]
    refine ⟨_, rfl, ?_, ?_⟩
    · have hbridge := hsub.insertPoint (encodeParent (nodeAt 0 3 key.bucketId) (n + 2))
        (key.slotId / 256 / 256 ^ n % 256)
      simp only [if_pos h2]
      rw [vcPositionInParent_nodeAt (by omega) hdiv]
      refine hbridge.congr fun p ↦ ?_
      simp only [pathPositions, if_pos h2, bucketRootNodeId_eq, Nat.add_sub_cancel, List.mem_append,
        List.mem_singleton, or_false]
      rw [or_comm, or_comm (a := p ∈ climbPositions key.bucketId _ _ _)]
    · simpa only [slotPosition, bucketRootNodeId_eq, subtreeLeafForKey_eq] using hleaf

end Keys

section Positions

variable {b l x n level : ℕ} {p : ℕ × ℕ} {key : SaltKey}

theorem climb_lt (hx : x < 256 ^ l) {i : ℕ} (hi : i ≤ l) : x / 256 ^ i < 256 ^ (l - i) := by
  rw [Nat.div_lt_iff_lt_mul (by positivity), ← pow_add, Nat.sub_add_cancel hi]
  exact hx

theorem mem_climbPositions : p ∈ climbPositions b l x n ↔
    ∃ i < n, p = (nodeAt b (l - 1 - i) (x / 256 ^ (i + 1)), x / 256 ^ i % 256) := by
  rw [climbPositions, List.mem_map]
  simp only [List.mem_range, eq_comm]

theorem climbPositions_logic (hl : l ≤ 4) (hx : x < 256 ^ l) (hn : n ≤ l) (hp : p ∈ climbPositions b l x n) :
    connectParentId p.1 = p.1 ∧ logicParentId p.1 = .ok p.1 := by
  obtain ⟨i, hi, rfl⟩ := mem_climbPositions.mp hp
  have hlt := climb_lt hx (show i + 1 ≤ l by omega)
  rw [show l - (i + 1) = l - 1 - i by omega] at hlt
  exact ⟨connectParentId_nodeAt (by omega) hlt, logicParentId_nodeAt (by omega) hlt⟩

theorem mem_pathPositions : p ∈ pathPositions key level ↔
    p ∈ climbPositions 0 3 key.bucketId 3 ∨
    p ∈ climbPositions key.bucketId 4 (key.slotId / 256) (level - 2) ∨
    2 ≤ level ∧ p = (encodeParent (bucketRootNodeId key.bucketId) level,
      key.slotId / 256 / 256 ^ (level - 2) % 256) := by
  rw [pathPositions, List.mem_append, List.mem_append, or_assoc]
  split
  · rename_i h
    simp [h]
  · rename_i h
    simp [h]

theorem exists_logicParentId (hl : level ≤ 5) (hp : p ∈ pathPositions key level) :
    ∃ parent, logicParentId p.1 = .ok parent := by
  rcases mem_pathPositions.mp hp with hp | hp | ⟨h2, rfl⟩
  · exact ⟨_, (climbPositions_logic (by omega) key.bucketId_lt le_rfl hp).2⟩
  · exact ⟨_, (climbPositions_logic le_rfl (slotId_segment_lt key) (by omega) hp).2⟩
  · exact ⟨_, logicParentId_encodeParent key.bucketId_lt h2 hl⟩

end Positions

section Shape

variable {levels : ExtTreeMap ℕ ℕ} {keys : List SaltKey}

def PathOf (levels : ExtTreeMap ℕ ℕ) (keys : List SaltKey) (p : ℕ × ℕ) : Prop :=
  ∃ key ∈ keys, ∃ level, levels[key.bucketId]? = some level ∧ p ∈ pathPositions key level

def SlotOf (levels : ExtTreeMap ℕ ℕ) (keys : List SaltKey) (p : ℕ × ℕ) : Prop :=
  ∃ key ∈ keys, ∃ level, levels[key.bucketId]? = some level ∧ p = slotPosition key level

theorem parentsAndPoints_exactly
    (h : ∀ key ∈ keys, ∃ level, levels[key.bucketId]? = some level ∧ level ≤ 6) :
    ∃ r, parentsAndPoints keys levels = .ok r ∧ r.1.Exactly (PathOf levels keys) ∧
      r.2.Exactly (SlotOf levels keys) := by
  have hsat : Sat (parentsAndPoints keys levels) (fun _ ↦ False) fun r ↦
      r.1.Exactly (PathOf levels keys) ∧ r.2.Exactly (SlotOf levels keys) := by
    refine Sat.foldlM (fun done (r : Points × Points) ↦ r.1.Exactly (PathOf levels done) ∧
      r.2.Exactly (SlotOf levels done)) keys (∅, ∅) ?_ ?_
    · exact ⟨Points.Exactly.empty.congr fun p ↦ by simp [PathOf],
        Points.Exactly.empty.congr fun p ↦ by simp [SlotOf]⟩
    · intro done key rest hkeys acc ⟨hpath, hslot⟩
      obtain ⟨level, hfound, hl⟩ := h key (by rw [hkeys]; simp)
      obtain ⟨r, hr, hpath', hslot'⟩ := keyPoints_exactly hfound hl
      rw [hr]
      refine Sat.ok ⟨(hpath'.extend hpath).congr fun p ↦ ?_, (hslot'.extend hslot).congr fun p ↦ ?_⟩
      · simp only [PathOf, List.mem_append, List.mem_singleton, or_and_right, exists_or,
          exists_eq_left, hfound, Option.some.injEq, exists_eq_left']
        exact or_comm
      · simp only [SlotOf, List.mem_append, List.mem_singleton, or_and_right, exists_or,
          exists_eq_left, hfound, Option.some.injEq, exists_eq_left']
        exact or_comm
  exact hsat.exists_ok

theorem parentsAndPoints_deep
    (h : ∃ key ∈ keys, ∃ level, levels[key.bucketId]? = some level ∧ 6 < level) :
    ∃ e, parentsAndPoints keys levels = .error e := by
  obtain ⟨key, hkey, level, hfound, hl⟩ := h
  cases hr : parentsAndPoints keys levels with
  | error e => exact ⟨e, rfl⟩
  | ok r =>
    obtain ⟨level', hopened⟩ := (parentsAndPoints_spec keys levels).of_eq_ok hr key hkey
    obtain rfl : level = level' := Option.some.inj (hfound.symm.trans hopened.found)
    have := hopened.level_le
    omega

end Shape

end Salt
