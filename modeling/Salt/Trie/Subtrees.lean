import Salt.Trie.Climbing

namespace Salt.StateRoot

open Std (ExtTreeMap ExtTreeSet)
open Library.Triple Library.ChangeList

variable {F C : Type} [CommRing F] [AddCommGroup C] [Module F C] {K : Committer F C} {A : Prop}
  {w w' : SaltKey → Option SaltValue} {T : ℕ → ℕ → Prop} {st : StateRoot C} {u : StateUpdates} {p : Plan C}
  {l : List StateChange} {b m n : ℕ} {threads : ℕ}

section Levels

variable {r : TrieUpdates C}

def InLevels (w w' : SaltKey → Option SaltValue) (l : List StateChange) (m n : ℕ) : Prop :=
  (∃ k < m, RootsAt w w' l k n) ∨ ∃ k < m, At (InLevel w w' l k) k n

theorem rootsAt_ne_level {k : ℕ} (hw' : Regular w') (hk : k ≤ 4) (h : RootsAt w w' l m n) :
    ¬ At (InLevel w w' l k) k n := by
  rintro ⟨b', x, hin, hn⟩
  obtain ⟨b, rfl, hactive, -⟩ := h
  exact subtree_ne_main hin.1.valid hk (hin.lt_pow hw' hk) (dataBucket_lt hactive.valid) hn

theorem inLevels_succ : InLevels w w' l (m + 1) n ↔
    (RootsAt w w' l m n ∨ At (InLevel w w' l m) m n) ∨ InLevels w w' l m n := by
  simp only [InLevels, Nat.lt_succ_iff_lt_or_eq, or_and_right, exists_or, exists_eq_left]
  rw [or_or_or_comm, or_comm]

theorem level_disjoint (hw' : Regular w') (hm : m ≤ 4) (h : RootsAt w w' l m n ∨ At (InLevel w w' l m) m n) :
    ¬ InLevels w w' l m n := by
  rintro (⟨k, hk, hroots⟩ | ⟨k, hk, hlevel⟩)
  · rcases h with ⟨b, rfl, hactive, htop⟩ | hlevel
    · obtain ⟨b', hn, hactive', htop'⟩ := hroots
      obtain ⟨-, -, rfl⟩ := (nodeAt_inj (by norm_num) (dataBucket_lt hactive.valid) (by norm_num)
        (dataBucket_lt hactive'.valid)).mp hn
      omega
    · exact rootsAt_ne_level hw' hm hroots hlevel
  · rcases h with hroots | ⟨b, x, hin, rfl⟩
    · exact rootsAt_ne_level hw' (by omega) hroots hlevel
    · obtain ⟨b', x', hin', hn⟩ := hlevel
      have hk4 : k ≤ 4 := by omega
      have := ((nodeAt_inj hm (hin.lt_pow hw' hm) hk4 (hin'.lt_pow hw' hk4)).mp hn).2.1
      omega

/-- A bucket has a trigger where its climb ends. -/
theorem le_topLevel_of_empty (hp : Planned K w w' l (fun _ ↦ True) p) (h : ∀ k < m, (p.triggers k).isEmpty = true)
    (hactive : Active w w' l b) : m ≤ topLevel w' b := by
  by_contra hlt
  refine hp.triggered _ b trivial hactive (.inl rfl) ?_
  rw [ExtTreeMap.isEmpty_iff.mp (h _ (not_le.mp hlt))]
  exact ExtTreeMap.getElem?_empty

theorem inLevels_of_empty (hp : Planned K w w' l (fun _ ↦ True) p) (h : ∀ k < m, (p.triggers k).isEmpty = true) :
    ¬ InLevels w w' l m n := by
  rintro (⟨k, hk, b, -, hactive, htop⟩ | ⟨k, hk, b, x, hin, -⟩)
  · exact absurd (le_topLevel_of_empty hp h hactive) (not_le.mpr (htop ▸ hk))
  · exact absurd (le_topLevel_of_empty hp h hin.1) (not_le.mpr (hin.2.1.trans hk))

theorem root_mem_roots (hm : m ≤ 4) (hr : Raw K w w' l p m r) (hactive : Active w w' l b)
    (hsame : capacityAt w b = capacityAt w' b) (htop : topLevel w' b = m) :
    nodeAt 0 3 b ∈ (roots K w w' m r).map Prod.fst := by
  obtain ⟨y, hy, hmem⟩ := hr.steady b hactive hsame htop.le
  rw [map_fst_roots]
  refine List.mem_map.mpr ⟨nodeAt b m y, List.mem_filter.mpr ⟨hmem, ?_⟩, ?_⟩
  · rw [bucketOf_nodeAt hm hy]
    exact decide_eq_true htop
  · rw [bucketOf_nodeAt hm hy]

/-- The levels give all changes of the active bucket trees and of their roots. -/
theorem climbSubtrees_sat (hK : K.EmptyDefaults) (hw : Regular w) (hw' : Regular w') (hmin : 1 ≤ st.minParBatchSize)
    (hst : Mirrors K A w T st) (hT : Stale w w' T)
    (hroot : ∀ b, Handled w w' l b → st.commitment (nodeAt b (topLevel w b) 0) = .ok (K.mainNode w 3 b))
    (hp : Planned K w w' l (fun _ ↦ True) p) (hm : m ≤ 4) (hr : Raw K w w' l p m r) (acc : TrieUpdates C) :
    Sat (climbSubtrees K threads st p (m + 1) r acc) (fun _ ↦ A) fun out ↦
      ∃ tail, out = acc ++ tail ∧ Lists (InLevels w w' l (m + 1)) (K.trieOf w) (K.trieOf w') tail ∧
        (∀ b, Active w w' l b → topLevel w' b < topLevel w b → topLevel w b ≤ m →
          nodeAt b (topLevel w b) 0 ∈ tail.map Prod.fst) ∧
        ∀ b, Active w w' l b → capacityAt w b = capacityAt w' b → topLevel w' b ≤ m →
          nodeAt 0 3 b ∈ tail.map Prod.fst := by
  have hlevel : ∀ {m r}, m ≤ 4 → Raw K w w' l p m r →
      Lists (fun n ↦ RootsAt w w' l m n ∨ At (InLevel w w' l m) m n) (K.trieOf w) (K.trieOf w')
        (roots K w w' m r ++ (kept K w w' m r ++ p.extra m)) := fun hm hr ↦
    (roots_lists hw' hm hr).append (level_lists hK hw hw' hp hm hr) fun n hn ↦ rootsAt_ne_level hw' hm hn
  -- a level without triggers below it is the last one
  have hlast : ∀ {m r}, m ≤ 4 → Raw K w w' l p m r → (∀ k < m, (p.triggers k).isEmpty = true) →
      Lists (InLevels w w' l (m + 1)) (K.trieOf w) (K.trieOf w')
        (roots K w w' m r ++ (kept K w w' m r ++ p.extra m)) := fun hm hr hempty ↦
    (hlevel hm hr).congr (fun n ↦ by rw [inLevels_succ, or_iff_left (inLevels_of_empty hp hempty)]) (fun _ _ ↦ rfl)
      fun _ _ ↦ rfl
  have hgrown : ∀ {m r}, m ≤ 4 → Raw K w w' l p m r → ∀ b, Active w w' l b → topLevel w' b < topLevel w b →
      topLevel w b = m → nodeAt b (topLevel w b) 0 ∈ (roots K w w' m r ++ (kept K w w' m r ++ p.extra m)).map
        Prod.fst := by
    rintro m r hm hr b hactive hlt rfl
    rw [List.map_append, List.mem_append]
    right
    rw [mem_level hm (by positivity) hlt.ne]
    by_cases hH : Handled w w' l b
    · obtain ⟨y, hy, hmem⟩ := (hr.below b hactive hlt le_rfl).mp hH
      rw [Nat.sub_self, Nat.pow_zero] at hy
      obtain rfl : y = 0 := by omega
      exact .inl hmem
    · exact .inr (hp.grown b trivial hactive.valid hlt hH)
  have hgrownLast : ∀ {m r}, m ≤ 4 → Raw K w w' l p m r → (∀ k < m, (p.triggers k).isEmpty = true) → ∀ b,
      Active w w' l b → topLevel w' b < topLevel w b → topLevel w b ≤ m →
        nodeAt b (topLevel w b) 0 ∈ (roots K w w' m r ++ (kept K w w' m r ++ p.extra m)).map Prod.fst := by
    intro m r hm hr hempty b hactive hlt hle
    exact hgrown hm hr b hactive hlt (hle.antisymm ((le_topLevel_of_empty hp hempty hactive).trans hlt.le))
  have hsteady : ∀ {m r}, m ≤ 4 → Raw K w w' l p m r → ∀ b, Active w w' l b → capacityAt w b = capacityAt w' b →
      topLevel w' b = m →
        nodeAt 0 3 b ∈ (roots K w w' m r ++ (kept K w w' m r ++ p.extra m)).map Prod.fst := by
    intro m r hm hr b hactive hsame htop
    rw [List.map_append, List.mem_append]
    exact .inl (root_mem_roots hm hr hactive hsame htop)
  have hsteadyLast : ∀ {m r}, m ≤ 4 → Raw K w w' l p m r → (∀ k < m, (p.triggers k).isEmpty = true) → ∀ b,
      Active w w' l b → capacityAt w b = capacityAt w' b → topLevel w' b ≤ m →
        nodeAt 0 3 b ∈ (roots K w w' m r ++ (kept K w w' m r ++ p.extra m)).map Prod.fst :=
    fun hm hr hempty b hactive hsame hle ↦
      hsteady hm hr b hactive hsame (hle.antisymm (le_topLevel_of_empty hp hempty hactive))
  induction m generalizing r acc with
  | zero =>
    rw [climbSubtrees]
    refine (redirectLevel_sat hK hw hw' hst hp hm hr).bind fun q hq ↦ ?_
    subst hq
    have hempty : ∀ k < 0, (p.triggers k).isEmpty = true := fun k hk ↦ absurd hk (Nat.not_lt_zero k)
    simp only
    rw [if_pos hempty]
    exact Sat.ok ⟨_, List.append_assoc .., hlast hm hr hempty, hgrownLast hm hr hempty, hsteadyLast hm hr hempty⟩
  | succ m ih =>
    rw [climbSubtrees]
    refine (redirectLevel_sat hK hw hw' hst hp hm hr).bind fun q hq ↦ ?_
    subst hq
    simp only
    by_cases hempty : ∀ k < m + 1, (p.triggers k).isEmpty = true
    · rw [if_pos hempty]
      exact Sat.ok ⟨_, List.append_assoc .., hlast hm hr hempty, hgrownLast hm hr hempty, hsteadyLast hm hr hempty⟩
    · rw [if_neg hempty]
      refine (expectOk_sat (raw_step hK hw hw' hmin hst hT hroot hp hm hr)).bind fun r' hr' ↦ ?_
      refine (ih (by omega) hr' _).mono ?_
      rintro out ⟨tail, rfl, htail, hgrownTail, hsteadyTail⟩
      refine ⟨(roots K w w' (m + 1) r ++ (kept K w w' (m + 1) r ++ p.extra (m + 1))) ++ tail, by simp, ?_,
        fun b hactive hlt hle ↦ ?_, fun b hactive hsame hle ↦ ?_⟩
      · exact ((hlevel hm hr).append htail fun n hn ↦ level_disjoint hw' hm hn).congr (fun n ↦ inLevels_succ.symm)
          (fun _ _ ↦ rfl) fun _ _ ↦ rfl
      · rw [List.map_append, List.mem_append]
        rcases Nat.lt_or_ge m (topLevel w b) with hgt | hle'
        · exact .inl (hgrown hm hr b hactive hlt (by omega))
        · exact .inr (hgrownTail b hactive hlt hle')
      · rw [List.map_append, List.mem_append]
        rcases Nat.lt_or_ge m (topLevel w' b) with hgt | hle'
        · exact .inl (hsteady hm hr b hactive hsame (by omega))
        · exact .inr (hsteadyTail b hactive hsame hle')

end Levels

section Single

structure Single (w w' : SaltKey → Option SaltValue) (l : List StateChange) (b : ℕ) : Prop where
  lt : b < 2 ^ 24
  touched : Touched l b
  small : isValidDataBucket b → ¬ Expanded w w' b

theorem topLevel_single (hw : Regular w) (hb : b < 2 ^ 24) (h : isValidDataBucket b → capacityAt w b ≤ 256) :
    topLevel w b = 4 := by
  rcases Nat.lt_or_ge b (2 ^ 16) with hmeta | hdata
  · exact topLevel_meta hmeta
  · have hvalid : isValidDataBucket b := dataBucket_iff.mpr ⟨hdata, hb⟩
    have hroot := (hw.top hvalid).2
    have hnot : ¬ topLevel w b < 4 := by
      rw [hroot.lt_iff le_rfl, nodesAt_leaf, lt_divCeil_iff (by norm_num)]
      have := h hvalid
      omega
    have := hroot.le
    omega

theorem small_capacity (h : ¬ Expanded w w' b) : capacityAt w b = capacityAt w' b ∧ capacityAt w b ≤ 256 := by
  rwa [Expanded, not_not] at h

theorem topLevel_small (hw : Regular w) (hw' : Regular w') (hb : b < 2 ^ 24)
    (h : isValidDataBucket b → ¬ Expanded w w' b) :
    topLevel w b = 4 ∧ topLevel w' b = 4 :=
  ⟨topLevel_single hw hb fun hvalid ↦ (small_capacity (h hvalid)).2,
    topLevel_single hw' hb fun hvalid ↦ (small_capacity (h hvalid)).1 ▸ (small_capacity (h hvalid)).2⟩

theorem Single.levels (hw : Regular w) (hw' : Regular w') (h : Single w w' l b) :
    topLevel w b = 4 ∧ topLevel w' b = 4 :=
  topLevel_small hw hw' h.lt h.small

def rootSlotAt (n i : ℕ) : SaltKey := SaltKey.ofPair (relativePosition n) i

theorem children_single : Children (fun n ↦ ∃ b, n = nodeAt 0 3 b ∧ Single w w' l b)
    (fun k : SaltKey ↦ Single w w' l k.bucketId ∧ k.slotId < 256) 256 (fun k ↦ bucketRootNodeId k.bucketId)
    (fun k ↦ k.slotId % 256) rootSlotAt := by
  have hslot : ∀ {b i}, b < 2 ^ 24 → i < 256 →
      (rootSlotAt (nodeAt 0 3 b) i).bucketId = b ∧ (rootSlotAt (nodeAt 0 3 b) i).slotId = i := by
    intro b i hb hi
    have hi' : i < 2 ^ 40 := by omega
    have hpow : b < 256 ^ 3 := hb
    rw [rootSlotAt, nodeAt_relativePosition (by norm_num) hpow]
    exact ⟨SaltKey.bucketId_ofPair hb hi', SaltKey.slotId_ofPair hb hi'⟩
  constructor
  · exact fun k hk ↦ ⟨_, bucketRootNodeId_eq _, hk.1⟩
  · exact fun k _ ↦ Nat.mod_lt _ (by norm_num)
  · intro k hk
    have hpow : k.bucketId < 256 ^ 3 := k.bucketId_lt
    rw [bucketRootNodeId_eq, rootSlotAt, nodeAt_relativePosition (by norm_num) hpow, Nat.mod_eq_of_lt hk.2,
      k.ofPair_eta]
  · rintro n ⟨b, rfl, hb⟩ i hi
    rw [(hslot hb.1 hi).1, (hslot hb.1 hi).2]
    exact ⟨hb, hi⟩
  · rintro n ⟨b, rfl, hb⟩ i hi
    rw [bucketRootNodeId_eq, (hslot hb.1 hi).1]
  · rintro n ⟨b, rfl, hb⟩ i hi
    rw [(hslot hb.1 hi).2, Nat.mod_eq_of_lt hi]

theorem vec_single (hb : b < 2 ^ 24) (htop : topLevel w b = 4) :
    vec 256 K.gen (fun i ↦ K.kvHash (w (rootSlotAt (nodeAt 0 3 b) i))) = K.trieOf w (nodeAt 0 3 b) := by
  have hpow : b < 256 ^ 3 := hb
  rw [Committer.trieOf_main le_rfl hpow, Committer.mainNode_bucket, htop, Committer.bucketNode_leaf, Committer.segment]
  refine vec_congr fun i hi ↦ ?_
  rw [slots_eq (show 256 * 0 + i < 2 ^ 40 by omega), rootSlotAt, nodeAt_relativePosition (by norm_num) hpow,
    Nat.mul_zero, Nat.zero_add]

theorem single_sat (hrec : Records u w w') (hw : Regular w) (hw' : Regular w') (hmin : 1 ≤ st.minParBatchSize)
    (hst : Mirrors K A w T st) {kvs : List StateChange} (hkvs : kvs = u.data.toList.filter fun e ↦ InSmall w w' e.1) :
    Sat (st.updateLeafNodes K threads kvs fun key ↦ bucketRootNodeId key.bucketId) (fun _ ↦ A) fun r ↦
      Lists (fun n ↦ ∃ b, n = nodeAt 0 3 b ∧ Single w w' u.data.toList b) (K.trieOf w) (K.trieOf w') r ∧
        ∀ e ∈ u.data.toList, InSmall w w' e.1 → nodeAt 0 3 e.1.bucketId ∈ r.map Prod.fst := by
  have hlists : Lists (fun k ↦ Single w w' u.data.toList k.bucketId ∧ k.slotId < 256) w w' kvs := by
    rw [hkvs]
    refine (hrec.lists.filter (InSmall w w')).restrict ?_ ?_
    · rintro k ⟨hk, -⟩
      refine ⟨trivial, ?_⟩
      rw [InSmall, ← Bool.not_eq_false, not_meta_iff, ← imp_iff_not_or]
      exact hk.small
    · intro k hk
      obtain ⟨e, he, rfl⟩ := List.mem_map.mp hk
      obtain ⟨hel, hsmall⟩ := List.mem_filter.mp he
      have hsmall : InSmall w w' e.1 := of_decide_eq_true hsmall
      have htouched : Touched u.data.toList e.1.bucketId := ⟨e, hel, rfl⟩
      cases hmeta : e.1.isInMetaBucket with
      | true =>
        obtain ⟨-, b, hb, hkey⟩ := hrec.mem_meta hel hmeta
        refine ⟨⟨e.1.bucketId_lt, htouched, fun hvalid ↦ ?_⟩, ?_⟩
        · rw [not_meta_iff.mpr hvalid] at hmeta
          cases hmeta
        · rw [hkey, metadataKey_slotId hb]
          exact Nat.mod_lt _ (by norm_num)
      | false =>
        have hexp : ¬ Expanded w w' e.1.bucketId := hsmall.resolve_left (by rw [hmeta]; exact Bool.false_ne_true)
        have hslot := hrec.slot_lt hw hw' hel hmeta
        obtain ⟨hsame, hle⟩ := small_capacity hexp
        rw [← hsame, max_self] at hslot
        exact ⟨⟨e.1.bucketId_lt, htouched, fun _ ↦ hexp⟩, hslot.trans_le hle⟩
  refine (updateLeafNodes_sat (A := A) hmin hlists children_single ?_ ?_).mono ?_
  · rintro n ⟨b, rfl, hb⟩
    exact nodeAt_lt (by norm_num) (by norm_num) hb.lt
  · intro k hk
    have hb := (hlists.domain hk).1
    have hpow : k.bucketId < 256 ^ 3 := hb.1
    rw [bucketRootNodeId_eq, vec_single hb.1 (hb.levels hw hw').1, Committer.trieOf_main le_rfl hpow]
    exact hst.root _ hb.1
  · rintro r ⟨hr, hkeys⟩
    refine ⟨hr.congr (fun _ ↦ Iff.rfl) ?_ ?_, fun e he hsmall ↦ ?_⟩
    · rintro n ⟨b, rfl, hb⟩
      exact vec_single hb.1 (hb.levels hw hw').1
    · rintro n ⟨b, rfl, hb⟩
      exact vec_single hb.1 (hb.levels hw hw').2
    · have hmem : e ∈ kvs := by
        rw [hkvs]
        exact List.mem_filter.mpr ⟨he, decide_eq_true hsmall⟩
      exact (hkeys _).mpr ⟨e.1, List.mem_map_of_mem hmem, bucketRootNodeId_eq _⟩

end Single

section Complete

def BucketNode (n : ℕ) : Prop :=
  (∃ b < 2 ^ 24, n = nodeAt 0 3 b) ∨ ∃ b l x, isValidDataBucket b ∧ l ≤ 4 ∧ x < 256 ^ l ∧ n = nodeAt b l x

def Computed (w w' : SaltKey → Option SaltValue) (l : List StateChange) (n : ℕ) : Prop :=
  (∃ b, n = nodeAt 0 3 b ∧ Single w w' l b) ∨ InLevels w w' l 5 n

def Uncomputed (w w' : SaltKey → Option SaltValue) (l : List StateChange) (n : ℕ) : Prop :=
  (∃ b l x, n = nodeAt b l x ∧ isValidDataBucket b ∧ l ≤ 4 ∧ Dropped w w' b l x ∧ ¬ Climbs w' b l x) ∨
    ∃ b, n = nodeAt 0 3 b ∧ True ∧ isValidDataBucket b ∧ topLevel w b < topLevel w' b ∧ ¬ Handled w w' l b

def Covered (w w' : SaltKey → Option SaltValue) (l : List StateChange) (n : ℕ) : Prop :=
  Computed w w' l n ∨ Uncomputed w w' l n

theorem covered_disjoint (hw : Regular w) (hw' : Regular w') (h : Computed w w' l n) : ¬ Uncomputed w w' l n := by
  rcases h with ⟨b, rfl, hb⟩ | ⟨k, -, b, rfl, hactive, -⟩ | ⟨k, hk, b, x, hin, rfl⟩
  · rintro (⟨b', k, x, hn, hb', hk, hd, -⟩ | ⟨b', hn, -, hb', hlt, -⟩)
    · exact subtree_ne_main hb' hk (hd.lt_pow hw hb' hk) hb.1 hn
    · obtain ⟨-, -, rfl⟩ := (nodeAt_inj (by norm_num) hb.1 (by norm_num) (dataBucket_lt hb')).mp hn
      rw [(hb.levels hw hw').1, (hb.levels hw hw').2] at hlt
      exact lt_irrefl _ hlt
  · rintro (⟨b', k', x, hn, hb', hk', hd, -⟩ | ⟨b', hn, -, hb', hlt, hH⟩)
    · exact subtree_ne_main hb' hk' (hd.lt_pow hw hb' hk') (dataBucket_lt hactive.valid) hn
    · obtain ⟨-, -, rfl⟩ := (nodeAt_inj (by norm_num) (dataBucket_lt hactive.valid) (by norm_num)
        (dataBucket_lt hb')).mp hn
      exact hH (hactive.handled hlt.le)
  · have hk4 : k ≤ 4 := by omega
    have hx := hin.lt_pow hw' hk4
    rintro (⟨b', k', x', hn, hb', hk', hd, hc⟩ | ⟨b', hn, -, hb', -⟩)
    · obtain ⟨rfl, rfl, rfl⟩ := (nodeAt_inj hk4 hx hk' (hd.lt_pow hw hb' hk')).mp hn
      exact hc hin.2
    · exact subtree_ne_main hin.1.valid hk4 hx (dataBucket_lt hb') hn.symm

theorem Covered.bucketNode (hw : Regular w) (hw' : Regular w') (h : Covered w w' l n) : BucketNode n := by
  rcases h with (⟨b, rfl, hb⟩ | ⟨k, -, b, rfl, hactive, -⟩ | ⟨k, hk, b, x, hin, rfl⟩) |
    ⟨b, k, x, rfl, hb, hk, hd, -⟩ | ⟨b, rfl, -, hb, -⟩
  · exact .inl ⟨b, hb.1, rfl⟩
  · exact .inl ⟨b, dataBucket_lt hactive.valid, rfl⟩
  · have hk4 : k ≤ 4 := by omega
    exact .inr ⟨b, k, x, hin.1.valid, hk4, hin.lt_pow hw' hk4, rfl⟩
  · exact .inr ⟨b, k, x, hb, hk, hd.lt_pow hw hb hk, rfl⟩
  · exact .inl ⟨b, dataBucket_lt hb, rfl⟩

theorem root_uncovered (hrec : Records u w w') (hw : Regular w) (hw' : Regular w') (hb : b < 2 ^ 24)
    (hn : ¬ Covered w w' u.data.toList (nodeAt 0 3 b)) : K.mainNode w 3 b = K.mainNode w' 3 b := by
  rw [Committer.mainNode_bucket, Committer.mainNode_bucket]
  by_cases hexp : isValidDataBucket b ∧ Expanded w w' b
  · obtain ⟨hvalid, hexp⟩ := hexp
    have hinactive : ¬ Active w w' u.data.toList b := fun hactive ↦
      hn (.inl (.inr (.inl ⟨_, Nat.lt_succ_of_le (hw'.top hvalid).2.le, b, rfl, hactive, rfl⟩)))
    have hH : ¬ Handled w w' u.data.toList b := fun hH ↦ hinactive (.inl hH)
    have htop : topLevel w b = topLevel w' b := by
      rcases lt_trichotomy (topLevel w b) (topLevel w' b) with hlt | heq | hgt
      · exact absurd (.inr (.inr ⟨b, rfl, trivial, hvalid, hlt, hH⟩)) hn
      · exact heq
      · exact absurd (.inr ⟨hvalid, hgt⟩) hinactive
    rw [← htop]
    refine Committer.bucketNode_congr (hw.top hvalid).2.le fun s _ hs ↦ hrec.slots_unhandled hvalid hexp hH ?_
    rwa [commonReach, ← htop, max_self, ← Nat.mul_one (256 ^ _)]
  · -- a bucket with a single node would be covered if it had a key
    have hsmall : isValidDataBucket b → ¬ Expanded w w' b := fun hvalid h ↦ hexp ⟨hvalid, h⟩
    have huntouched : ¬ Touched u.data.toList b := fun h ↦ hn (.inl (.inl ⟨b, rfl, hb, h, hsmall⟩))
    have hslots : slots w b = slots w' b := hrec.slots_untouched hb fun e he hbucket ↦ huntouched ⟨e, he, hbucket⟩
    rw [(topLevel_small hw hw' hb hsmall).1, (topLevel_small hw hw' hb hsmall).2]
    exact Committer.bucketNode_congr le_rfl fun s _ _ ↦ by rw [hslots]

theorem node_uncovered (hK : K.EmptyDefaults) (hrec : Records u w w') (hw : Regular w) (hw' : Regular w') {k x : ℕ}
    (hb : isValidDataBucket b) (hk : k ≤ 4) (hn : ¬ Covered w w' u.data.toList (nodeAt b k x)) :
    K.subtreeNode w b k x = K.subtreeNode w' b k x := by
  have hlevel : Active w w' u.data.toList b → ¬ Climbs w' b k x := fun hactive hc ↦
    hn (.inl (.inr (.inr ⟨k, Nat.lt_succ_of_le hk, b, x, ⟨hactive, hc⟩, rfl⟩)))
  have hdropped : Dropped w w' b k x → Climbs w' b k x := by
    intro hd
    by_contra hc
    exact hn (.inr (.inl ⟨b, k, x, rfl, hb, hk, hd, hc⟩))
  by_cases hkept : topLevel w' b < k ∧ x < nodesAt (capacityAt w' b) k
  · -- a node of the new tree, of an inactive bucket
    have hinactive : ¬ Active w w' u.data.toList b := by
      intro hactive
      have hin : InClimb w w' u.data.toList k b x := ⟨hactive, hkept.1.le, hkept.2⟩
      exact hlevel hactive (hin.climbs hk hkept.1)
    have hH : ¬ Handled w w' u.data.toList b := fun hH ↦ hinactive (.inl hH)
    have hle : topLevel w b ≤ topLevel w' b := not_lt.mp fun hlt ↦ hinactive (.inr ⟨hb, hlt⟩)
    have hexp : Expanded w w' b := by
      intro hsmall
      have htop := topLevel_single hw' (dataBucket_lt hb) fun _ ↦ hsmall.1 ▸ hsmall.2
      omega
    rw [Committer.subtreeNode_below (hle.trans_lt hkept.1), Committer.subtreeNode_below hkept.1]
    refine Committer.bucketNode_congr hk fun s _ hs ↦ hrec.slots_unhandled hb hexp hH ?_
    rw [commonReach, max_eq_right hle]
    have hx' := hkept.2.trans_le (nodesAt_le_pow (hw'.top hb).2 hk)
    calc s < 256 ^ (5 - k) * (x + 1) := hs
      _ ≤ 256 ^ (5 - k) * 256 ^ (k - topLevel w' b) := Nat.mul_le_mul_left _ hx'
      _ = 256 ^ (5 - topLevel w' b) := by
        rw [← pow_add]
        congr 1
        omega
  · -- beyond the new tree, where the old one has nothing either
    have hempty' : K.subtreeNode w' b k x = K.defaults.subtree k := by
      by_cases htop : topLevel w' b < k
      · exact hw'.subtreeNode_dropped hK hb hk (not_lt.mp fun hlt ↦ hkept ⟨htop, hlt⟩)
      · exact Committer.subtreeNode_unused (not_lt.mp htop)
    rw [hempty']
    by_cases hold : topLevel w b < k ∧ x < nodesAt (capacityAt w b) k
    · have hd : Dropped w w' b k x := ⟨hold.1, hold.2, hkept⟩
      have hc := hdropped hd
      have hH : ¬ Handled w w' u.data.toList b := fun hH ↦ hlevel (.inl hH) hc
      exact hd.unhandled hK hrec hw hw' hb hk hc hH
    · by_cases htop : topLevel w b < k
      · exact hw.subtreeNode_dropped hK hb hk (not_lt.mp fun hlt ↦ hold ⟨htop, hlt⟩)
      · exact Committer.subtreeNode_unused (not_lt.mp htop)

def Concerns (u : StateUpdates) (b : ℕ) : Prop := Touched u.data.toList b ∨ metadataKey b ∈ u.data

/-- The nodes of a bucket: its root in the main trie and its subtree. -/
def NodeOf (b n : ℕ) : Prop := n = nodeAt 0 3 b ∨ ∃ l x, isValidDataBucket b ∧ l ≤ 4 ∧ x < 256 ^ l ∧ n = nodeAt b l x

theorem concerns_of_capacity (hrec : Records u w w') (hb : isValidDataBucket b) (h : capacityAt w b ≠ capacityAt w' b) :
    Concerns u b := by
  right
  by_contra hmeta
  exact h (by rw [capacityAt, capacityAt, hrec.metaAt_eq hb hmeta])

theorem capacity_ne_of_dropped {k x : ℕ} (h : Dropped w w' b k x) : capacityAt w b ≠ capacityAt w' b := by
  intro he
  refine h.2.2 ⟨?_, he ▸ h.2.1⟩
  rw [← topLevel_eq_of_capacity he]
  exact h.1

theorem Covered.concerns (hrec : Records u w w') (hw : Regular w) (hw' : Regular w')
    (h : Covered w w' u.data.toList n) : ∃ b < 2 ^ 24, Concerns u b ∧ NodeOf b n := by
  have hlevel : ∀ {b}, isValidDataBucket b → topLevel w b ≠ topLevel w' b → Concerns u b := fun hb hne ↦
    concerns_of_capacity hrec hb fun he ↦ hne (topLevel_eq_of_capacity he)
  have hactive : ∀ {b}, Active w w' u.data.toList b → Concerns u b := by
    rintro b (⟨-, -, e, he, hbucket, -⟩ | ⟨hb, hlt⟩)
    · exact .inl ⟨e, he, hbucket⟩
    · exact hlevel hb hlt.ne'
  rcases h with (⟨b, rfl, hb⟩ | ⟨k, -, b, rfl, ha, -⟩ | ⟨k, hk, b, x, hin, rfl⟩) |
    ⟨b, k, x, rfl, hb, hk, hd, -⟩ | ⟨b, rfl, -, hb, hlt, -⟩
  · exact ⟨b, hb.lt, .inl hb.touched, .inl rfl⟩
  · exact ⟨b, dataBucket_lt ha.valid, hactive ha, .inl rfl⟩
  · have hk4 : k ≤ 4 := by omega
    exact ⟨b, dataBucket_lt hin.1.valid, hactive hin.1, .inr ⟨k, x, hin.1.valid, hk4, hin.lt_pow hw' hk4, rfl⟩⟩
  · exact ⟨b, dataBucket_lt hb, concerns_of_capacity hrec hb (capacity_ne_of_dropped hd),
      .inr ⟨k, x, hb, hk, hd.lt_pow hw hb hk, rfl⟩⟩
  · exact ⟨b, dataBucket_lt hb, hlevel hb hlt.ne, .inl rfl⟩

end Complete

section Update

structure Prepared (K : Committer F C) (A : Prop) (w w' : SaltKey → Option SaltValue) (T : ℕ → ℕ → Prop)
    (u : StateUpdates) (st st' : StateRoot C) : Prop where
  mirrors : Mirrors K A w T st'
  fields : st' = { st with cache := st'.cache, bucketCapacityCache := st'.bucketCapacityCache }
  main : ∀ n < 2 ^ 40, st'.commitment n = st.commitment n
  capacities : ∀ b, isValidDataBucket b → st'.bucketCapacityCache[b]? =
    if metadataKey b ∈ u.data then some (capacityAt w' b) else st.bucketCapacityCache[b]?

theorem cacheCapacities_getElem? {C : Type} {st : StateRoot C} {changes : ExtTreeMap ℕ SubtrieChangeInfo}
    (hchanges : ∀ b info, changes[b]? = some info ↔
      isValidDataBucket b ∧ metadataKey b ∈ u.data ∧ info = changeShape w w' b) (hb : isValidDataBucket b) :
    (st.cacheCapacities changes).bucketCapacityCache[b]? =
      if metadataKey b ∈ u.data then some (capacityAt w' b) else st.bucketCapacityCache[b]? := by
  have hnodup : (changes.toList.map Prod.fst).Nodup :=
    List.pairwise_map.mpr ((Library.Entries.toList_sorted changes).imp fun h ↦ h.ne)
  rw [cacheCapacities]
  by_cases hmeta : metadataKey b ∈ u.data
  · have hmem : (b, changeShape w w' b) ∈ changes.toList :=
      ExtTreeMap.mem_toList_iff_getElem?_eq_some.mpr ((hchanges b _).mpr ⟨hb, hmeta, rfl⟩)
    rw [if_pos hmeta]
    exact Library.Entries.getElem?_insertAll (fun e ↦ e.2.newCapacity) hnodup hmem _
  · rw [if_neg hmeta]
    refine Library.Entries.getElem?_insertAll_of_notMem (fun hmem ↦ hmeta ?_) _
    obtain ⟨e, he, rfl⟩ := List.mem_map.mp hmem
    exact ((hchanges _ _).mp (ExtTreeMap.mem_toList_iff_getElem?_eq_some.mp he)).2.1

theorem updateSubtreeLeaves_sat (hK : K.EmptyDefaults) (hrec : Records u w w') (hw : Regular w) (hw' : Regular w')
    (hmin : 1 ≤ st.minParBatchSize) (hst : Mirrors K A w T st) (hT : Stale w w' T)
    (hroot : ∀ b, isValidDataBucket b → Expanded w w' b → Touched u.data.toList b →
      st.commitment (nodeAt b (topLevel w b) 0) = .ok (K.mainNode w 3 b))
    (hp : Planned K w w' u.data.toList (fun _ ↦ True) p) (hvisible : Visible K w w') {kvs : List StateChange}
    (hkvs : kvs = u.data.toList.filter fun e ↦ InExpansion w w' e.1) :
    Sat (updateSubtreeLeaves K threads st p kvs) (fun _ ↦ A) (Raw K w w' u.data.toList p 4) := by
  rw [updateSubtreeLeaves]
  by_cases hempty : p.needHandle.isEmpty = true
  · have hnone : ∀ b, ¬ Active w w' u.data.toList b := by
      intro b hactive
      have hmem := (hp.needHandle b).mpr (hactive.imp_right fun h ↦ ⟨trivial, h⟩)
      rw [ExtTreeSet.isEmpty_iff.mp hempty] at hmem
      exact ExtTreeSet.not_mem_empty hmem
    rw [if_pos hempty]
    exact Sat.ok ⟨.nil fun n ⟨b, y, hin, _⟩ ↦ absurd hin.1 (hnone b), fun b h ↦ absurd h (hnone b),
      fun b h ↦ absurd h (hnone b), fun b h ↦ absurd h (hnone b), fun b h ↦ absurd h (hnone b)⟩
  · rw [if_neg hempty]
    exact raw_start hK hrec hw hw' hmin hst hT hroot hp hvisible hkvs

/-- What `update_bucket_subtrees` returns: the changes of all bucket nodes, none of another bucket, the old root of
every expanded bucket as a node of its own, and for each updated key the root of some bucket. -/
structure BucketChanges (K : Committer F C) (w w' : SaltKey → Option SaltValue) (u : StateUpdates)
    (r : TrieUpdates C) : Prop where
  lists : Lists BucketNode (K.trieOf w) (K.trieOf w') r
  concerns : ∀ n ∈ r.map Prod.fst, ∃ b < 2 ^ 24, Concerns u b ∧ NodeOf b n
  grown : ∀ b, isValidDataBucket b → topLevel w' b < topLevel w b → nodeAt b (topLevel w b) 0 ∈ r.map Prod.fst
  reached : u.data.toList ≠ [] → ∃ b < 2 ^ 24, nodeAt 0 3 b ∈ r.map Prod.fst

/-- An updated key lies in a bucket with a single node or in an active one, unless a capacity changes with it. -/
theorem touched_cases (hrec : Records u w w') (hw : Regular w) (hw' : Regular w') {e : StateChange}
    (he : e ∈ u.data.toList) :
    (∃ f ∈ u.data.toList, InSmall w w' f.1) ∨
      ∃ b, Active w w' u.data.toList b ∧ capacityAt w b = capacityAt w' b := by
  by_cases hsmall : ∃ f ∈ u.data.toList, InSmall w w' f.1
  · exact .inl hsmall
  · right
    have hexp : ¬ InSmall w w' e.1 := fun h ↦ hsmall ⟨e, he, h⟩
    obtain ⟨hdata, hexp⟩ := not_or.mp hexp
    have hdata : e.1.isInMetaBucket = false := Bool.not_eq_true _ ▸ hdata
    have hb := not_meta_iff.mp hdata
    have hmeta : metadataKey e.1.bucketId ∉ u.data := by
      intro hmem
      obtain ⟨f, hf⟩ := Option.isSome_iff_exists.mp (ExtTreeMap.mem_iff_isSome_getElem?.mp hmem)
      exact hsmall ⟨(_, f), ExtTreeMap.mem_toList_iff_getElem?_eq_some.mpr hf, .inl (metadataKey_inMeta hb)⟩
    have hsame : capacityAt w e.1.bucketId = capacityAt w' e.1.bucketId := by
      rw [capacityAt, capacityAt, hrec.metaAt_eq hb hmeta]
    refine ⟨e.1.bucketId, .inl ⟨hb, not_not.mp hexp, e, he, rfl, ?_⟩, hsame⟩
    have hslot := hrec.slot_lt hw hw' he hdata
    rw [hsame, max_self] at hslot
    rw [commonReach, topLevel_eq_of_capacity hsame, max_self]
    exact hslot.trans_le (hw'.top hb).2.reaches

theorem updateBucketSubtrees_sat [DecidableEq C] (hK : K.EmptyDefaults) (hrec : Records u w w') (hw : Regular w)
    (hw' : Regular w') (hmin : 1 ≤ st.minParBatchSize) (hst : Mirrors K A w T st) (hT : Stale w w' T)
    (hcapacity : ∀ b, isValidDataBucket b → metadataKey b ∉ u.data → KnowsCapacity A w st b)
    (hvisible : Visible K w w') :
    Sat (st.updateBucketSubtrees K threads u) (fun _ ↦ A) fun r ↦
      Prepared K A w w' T u st r.1 ∧ BucketChanges K w w' u r.2 := by
  obtain ⟨changes, hrun, hchanges⟩ := metadataChanges_ok hrec hw hw'
  rw [updateBucketSubtrees, hrun, ok_bind]
  have hcapacities : ∀ b, isValidDataBucket b → (st.cacheCapacities changes).bucketCapacityCache[b]? =
      if metadataKey b ∈ u.data then some (capacityAt w' b) else st.bucketCapacityCache[b]? :=
    fun b hb ↦ cacheCapacities_getElem? hchanges hb
  have hst₁ : Mirrors K A w T (st.cacheCapacities changes) := ⟨hst.root, hst.node, hst.fails⟩
  refine (scanUpdates_sat hK hrec hw hw' (fun b hb hmeta ↦ ?_) hst₁ hchanges).bind fun sc ⟨hscan, hdiv⟩ ↦ ?_
  · rw [KnowsCapacity, hcapacities b hb, if_neg hmeta]
    exact hcapacity b hb hmeta
  have htracked : Tracked w w' sc.changes := by
    refine ⟨hscan.shapes, fun b hb hne ↦ hscan.present b hb (.inl ?_)⟩
    by_contra hmeta
    exact hne (by rw [capacityAt, capacityAt, hrec.metaAt_eq hb hmeta])
  have hmin' : 1 ≤ sc.st.minParBatchSize := by
    rw [hscan.fields]
    exact hmin
  refine (single_sat hrec hw hw' hmin' hscan.mirrors hdiv.nonExpansionKvs).bind ?_
  rintro bucketUpdates ⟨hbucket, hsingle⟩
  refine (planChanges_sat hK hrec hw hw' hscan.mirrors (fun b l h ↦ (hT b l h).1) htracked hscan.needHandle).bind
    fun p hplan ↦ ?_
  have hp : Planned K w w' u.data.toList (fun _ ↦ True) p := by
    refine hplan.complete fun b hb hor ↦ ?_
    rcases hor with ⟨-, hexp, e, he, hbucket, -⟩ | hne
    · obtain ⟨info, hinfo⟩ := Option.ne_none_iff_exists'.mp (hscan.present b hb (.inr ⟨hexp, e, he, hbucket⟩))
      exact List.mem_map_of_mem (ExtTreeMap.mem_toList_iff_getElem?_eq_some.mpr hinfo)
    · exact htracked.mem_keys hb hne
  refine (updateSubtreeLeaves_sat hK hrec hw hw' hmin' hscan.mirrors hT hscan.root hp hvisible hdiv.expansionKvs).bind
    fun commitments hraw ↦ ?_
  have hroot : ∀ b, Handled w w' u.data.toList b →
      sc.st.commitment (nodeAt b (topLevel w b) 0) = .ok (K.mainNode w 3 b) := by
    rintro b ⟨hb, hexp, e, he, hbucket, -⟩
    exact hscan.root b hb hexp ⟨e, he, hbucket⟩
  refine (climbSubtrees_sat hK hw hw' hmin' hscan.mirrors hT hroot hp le_rfl hraw bucketUpdates).bind ?_
  rintro out ⟨tail, rfl, htail, hgrown, hsteady⟩
  have hcovered : Lists (Covered w w' u.data.toList) (K.trieOf w) (K.trieOf w')
      (bucketUpdates ++ tail ++ p.uncomputed) := by
    refine (hbucket.append htail ?_).append hp.uncomputed ?_
    · rintro n ⟨b, rfl, hb⟩ (⟨k, -, b', hn, hactive, -⟩ | ⟨k, hk, b', x, hin, hn⟩)
      · obtain ⟨-, -, rfl⟩ := (nodeAt_inj (by norm_num) hb.1 (by norm_num) (dataBucket_lt hactive.valid)).mp hn
        exact hb.small hactive.valid hactive.expanded
      · have hk4 : k ≤ 4 := by omega
        exact subtree_ne_main hin.1.valid hk4 (hin.lt_pow hw' hk4) hb.1 hn
    · exact fun n hn ↦ covered_disjoint hw hw' hn
  refine Sat.ok ⟨⟨hscan.mirrors, ?_, hscan.main, fun b hb ↦ ?_⟩, ?_, ?_, ?_, fun hne ↦ ?_⟩
  · rw [hscan.fields]
    rfl
  · have hsame : sc.st.bucketCapacityCache = (st.cacheCapacities changes).bucketCapacityCache := by rw [hscan.fields]
    rw [hsame, hcapacities b hb]
  · refine hcovered.extend (fun n hn ↦ Covered.bucketNode hw hw' hn) ?_
    rintro n (⟨b, hb, rfl⟩ | ⟨b, k, x, hb, hk, hx, rfl⟩) hn
    · have hpow : b < 256 ^ 3 := hb
      rw [Committer.trieOf_main le_rfl hpow, Committer.trieOf_main le_rfl hpow]
      exact root_uncovered hrec hw hw' hb hn
    · rw [Committer.trieOf_subtree hb hk hx, Committer.trieOf_subtree hb hk hx]
      exact node_uncovered hK hrec hw hw' hb hk hn
  · exact fun n hn ↦ Covered.concerns hrec hw hw' (hcovered.domain hn)
  · intro b hb hlt
    rw [List.map_append, List.map_append, List.mem_append, List.mem_append]
    exact .inl (.inr (hgrown b (.inr ⟨hb, hlt⟩) hlt (topLevel_le w b)))
  · obtain ⟨e, he⟩ := List.exists_mem_of_ne_nil _ hne
    simp only [List.map_append, List.mem_append]
    rcases touched_cases hrec hw hw' he with ⟨f, hf, hsmall⟩ | ⟨b, hactive, hsame⟩
    · exact ⟨_, f.1.bucketId_lt, .inl (.inl (hsingle f hf hsmall))⟩
    · exact ⟨b, dataBucket_lt hactive.valid, .inl (.inr (hsteady b hactive hsame (topLevel_le w' b)))⟩

end Update

end Salt.StateRoot
