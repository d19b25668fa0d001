import Salt.Proof.Prover
import Salt.Library.VectorOpening

namespace Salt

open Std (ExtTreeMap)
open Library.Triple Library.VectorOpening

section Bound

variable {C F : Type} (vec : C → ℕ → F) (hash : C → F) (slotToField : Option SaltValue → F)
  (p : SaltProof C)

/-- An entry bound to the root: a chain of openings from the commitment of node 0, down the main
trie along the digits of the bucket id and down a bucket tree of the claimed depth along the digits
of the slot, ends at a leaf vector that holds the value. -/
def Bound (key : SaltKey) (value : Option SaltValue) : Prop :=
  ∃ level root leaf, p.levels[key.bucketId]? = some level ∧ 1 ≤ level ∧ level ≤ 5 ∧
    key.slotId < 256 ^ level ∧ p.parentsCommitments[0]? = some root ∧
    Opening vec hash root (digits 3 key.bucketId ++ digits (level - 1) (key.slotId / 256)) leaf ∧
    vec leaf (key.slotId % 256) = slotToField value

/-- The key whose value the leaf query of a deep key of bucket 0 compares: the leaf is taken for a
main trie bucket. -/
def mistakenKey (key : SaltKey) : SaltKey :=
  SaltKey.ofPair (key.slotId / 256 % 2 ^ 24) (key.slotId % 256)

def Covered (kvs : ExtTreeMap SaltKey (Option SaltValue)) (key : SaltKey) (value : Option SaltValue) :
    Prop :=
  ∃ level, p.levels[key.bucketId]? = some level ∧ 1 ≤ level ∧ key.slotId < 256 ^ level ∧
    (key.bucketId = 0 → 2 ≤ level →
      (kvs[mistakenKey key]?).map slotToField = some (slotToField value))

end Bound

section Chain

variable {C F : Type} {vec : C → ℕ → F} {hash : C → F} {slotToField : Option SaltValue → F}
  {pc : ExtTreeMap ℕ C} {m : Points} {qs : List (VerifierQuery C F)} {b l x n level : ℕ}
  {kvs : ExtTreeMap SaltKey (Option SaltValue)} {key : SaltKey}

theorem Climbed.unstep (h : Climbed m b (l + 1) x (n + 1)) :
    m.Opens (nodeAt b l (x / 256), x % 256) ∧ Climbed m b l (x / 256) n := by
  constructor
  · simpa using h 0 (by omega)
  · intro i hi
    have hstep := h (i + 1) (by omega)
    rw [Nat.div_div_eq_div_mul, Nat.div_div_eq_div_mul, ← pow_succ', ← pow_succ']
    rwa [show l + 1 - 1 - (i + 1) = l - 1 - i by omega] at hstep

/-- The truthful queries along a climb form a chain of openings from its top to its bottom. -/
theorem Climbed.opening (hm : createInternalNodeQueries hash pc m = .ok qs)
    (ht : ∀ q ∈ qs, Truthful vec q) (hl : l ≤ 4) (hx : x < 256 ^ l) (hn : n ≤ l)
    (h : Climbed m b l x n) {c : C} (hc : pc[nodeAt b (l - n) (x / 256 ^ n)]? = some c) :
    ∃ c', pc[nodeAt b l x]? = some c' ∧ Opening vec hash c (digits n x) c' := by
  induction n generalizing l x with
  | zero => exact ⟨c, by simpa using hc, rfl⟩
  | succ n ih =>
    obtain ⟨l, rfl⟩ : ∃ l', l = l' + 1 := ⟨l - 1, by omega⟩
    have hx' : x / 256 < 256 ^ l := by
      rw [pow_succ] at hx
      omega
    obtain ⟨hopen, hclimb⟩ := h.unstep
    have hdiv : x / 256 / 256 ^ n = x / 256 ^ (n + 1) := by
      rw [Nat.div_div_eq_div_mul, pow_succ']
    obtain ⟨c₁, hc₁, hchain⟩ := ih (l := l) (by omega) hx' (by omega) hclimb
      (by rwa [hdiv, show l - n = l + 1 - (n + 1) by omega])
    obtain ⟨parent, c₂, c', hparent, hc₂, hc', hvec⟩ := internal_truth hm ht hopen
    rw [logicParentId_nodeAt (by omega) hx', Except.ok.injEq] at hparent
    subst hparent
    rw [connectParentId_nodeAt (by omega) hx', hc₁, Option.some.injEq] at hc₂
    subst hc₂
    rw [getChildNode_nodeAt (by omega) hx', Nat.div_add_mod'] at hc'
    exact ⟨c', hc', hchain.snoc hvec⟩

theorem leafStartKey_root (hb : b < 2 ^ 24) :
    leafStartKey (nodeAt 0 3 b) = b * 2 ^ 40 := by
  have h3 : leftmostNode 3 = 65793 := rfl
  have hnode : nodeAt 0 3 b = 65793 + b := by
    rw [nodeAt, h3]
    omega
  rw [leafStartKey, hnode, if_pos (by simp only [bucketSlotIdMask]; omega), h3,
    Nat.mod_eq_of_lt (by omega), SaltKey.ofPair_val (by omega) (by norm_num)]
  omega

theorem leafStartKey_subtree (hb : 1 ≤ b) (hx : x < 256 ^ 4) :
    leafStartKey (nodeAt b 4 x) = b * 2 ^ 40 + x * 256 := by
  have hlocal := nodeAt_local (b := b) le_rfl hx
  rw [leafStartKey, if_neg, subtreeLeafStartKey, hlocal]
  · simp only [nodeAt, maxSubtreeLevels, minBucketSize, show 5 - 1 = 4 from rfl]
    omega
  · simp only [nodeAt, bucketSlotIdMask]
    omega

/-- Bucket 0 has no bits above the local number, so its leaves look like main trie buckets. -/
theorem leafStartKey_zero (hx : x < 256 ^ 4) :
    leafStartKey (nodeAt 0 4 x) = x % 2 ^ 24 * 2 ^ 40 := by
  have h3 : leftmostNode 3 = 65793 := rfl
  have h4 : leftmostNode 4 = 16843009 := rfl
  have hnode : nodeAt 0 4 x = 16843009 + x := by
    rw [nodeAt, h4]
    omega
  rw [leafStartKey, hnode, if_pos (by simp only [bucketSlotIdMask]; omega), h3]
  simp only [SaltKey.ofPair, bucketSlotBits]
  omega

theorem leafKey_eq (hlevel : 1 ≤ level) (hslot : key.slotId < 256 ^ level) :
    SaltKey.ofPair 0 (leafStartKey (if level = 1 then bucketRootNodeId key.bucketId
      else subtreeLeafForKey key) + key.slotId % 256) =
      if key.bucketId = 0 ∧ 2 ≤ level then mistakenKey key else key := by
  have hb := key.bucketId_lt
  have hs := key.slotId_lt
  have hx : key.slotId / 256 < 256 ^ 4 := by omega
  have hval : key.val = key.bucketId * 2 ^ 40 + key.slotId := by
    rw [SaltKey.bucketId_eq, SaltKey.slotId_eq]
    omega
  apply SaltKey.ext
  by_cases h1 : level = 1
  · subst h1
    rw [if_pos rfl, if_neg (by omega), bucketRootNodeId_eq, leafStartKey_root hb, hval]
    simp only [SaltKey.ofPair, bucketSlotBits]
    omega
  · rw [if_neg h1, subtreeLeafForKey_eq]
    by_cases h0 : key.bucketId = 0
    · rw [if_pos ⟨h0, by omega⟩, h0, leafStartKey_zero hx, mistakenKey]
      simp only [SaltKey.ofPair, bucketSlotBits]
      omega
    · rw [if_neg (by simp [h0]), leafStartKey_subtree (by omega) hx, hval]
      simp only [SaltKey.ofPair, bucketSlotBits]
      omega

theorem KeyOpened.level_le_five {p : SaltProof C} {leaf : Points}
    (hm : createInternalNodeQueries hash pc m = .ok qs) (ht : ∀ q ∈ qs, Truthful vec q)
    (h : KeyOpened p.levels key m leaf level) : level ≤ 5 := by
  by_contra hlt
  obtain rfl : level = 6 := by
    have := h.level_le
    omega
  obtain ⟨parent, c, c', hparent, -⟩ := internal_truth hm ht (h.bridge (by omega))
  rw [logicParentId_encodeParent_six key.bucketId_lt] at hparent
  cases hparent

theorem KeyOpened.mainChain {p : SaltProof C} {leaf : Points}
    (hm : createInternalNodeQueries hash pc m = .ok qs) (ht : ∀ q ∈ qs, Truthful vec q)
    (h : KeyOpened p.levels key m leaf level) :
    ∃ root c, pc[0]? = some root ∧ pc[nodeAt 0 3 key.bucketId]? = some c ∧
      Opening vec hash root (digits 3 key.bucketId) c := by
  have hb : key.bucketId < 256 ^ 3 := key.bucketId_lt
  have hzero : key.bucketId / 256 ^ 3 = 0 := Nat.div_eq_of_lt hb
  have htop := h.main 2 (by omega)
  rw [show 3 - 1 - 2 = 0 from rfl, hzero] at htop
  obtain ⟨-, root, -, -, hroot, -⟩ := internal_truth hm ht htop
  rw [connectParentId_nodeAt (by omega) (by norm_num)] at hroot
  obtain ⟨c, hc, hchain⟩ := h.main.opening hm ht (by omega) hb le_rfl
    (by rwa [hzero, show 3 - 3 = 0 from rfl])
  exact ⟨root, c, hroot, hc, hchain⟩

/-- The chain from the bucket root to the leaf of a covered key. -/
theorem KeyOpened.bucketChain {p : SaltProof C} {leaf : Points}
    (hm : createInternalNodeQueries hash pc m = .ok qs) (ht : ∀ q ∈ qs, Truthful vec q)
    (h : KeyOpened p.levels key m leaf level) (hlevel : 1 ≤ level) (hslot : key.slotId < 256 ^ level)
    {c : C} (hc : pc[nodeAt 0 3 key.bucketId]? = some c) :
    ∃ c', pc[if level = 1 then bucketRootNodeId key.bucketId else subtreeLeafForKey key]? = some c' ∧
      Opening vec hash c (digits (level - 1) (key.slotId / 256)) c' := by
  by_cases h1 : level = 1
  · subst h1
    exact ⟨c, by rw [if_pos rfl, bucketRootNodeId_eq, hc], rfl⟩
  · have hle := h.level_le_five hm ht
    obtain ⟨n, rfl⟩ : ∃ n, level = n + 2 := ⟨level - 2, by omega⟩
    have hx : key.slotId / 256 < 256 ^ (n + 1) := by
      rw [Nat.div_lt_iff_lt_mul (by norm_num), ← pow_succ]
      exact hslot
    have hx4 : key.slotId / 256 < 256 ^ 4 := by
      have := key.slotId_lt
      omega
    have htop : key.slotId / 256 / 256 ^ n < 256 := by
      rw [Nat.div_lt_iff_lt_mul (by positivity), ← pow_succ']
      exact hx
    obtain ⟨parent, c₁, c₂, hparent, hc₁, hc₂, hvec⟩ := internal_truth hm ht (h.bridge (by omega))
    rw [connectParentId_encodeParent key.bucketId_lt (by omega) (by omega), hc,
      Option.some.injEq] at hc₁
    subst hc₁
    rw [logicParentId_encodeParent key.bucketId_lt (by omega) hle, Except.ok.injEq] at hparent
    subst hparent
    rw [Nat.add_sub_cancel, Nat.mod_eq_of_lt htop] at hc₂ hvec
    rw [getChildNode_nodeAt (by omega) (by positivity), Nat.zero_mul, Nat.zero_add,
      show 5 - (n + 2) + 1 = 4 - n by omega] at hc₂
    obtain ⟨c', hc', hchain⟩ := h.subtree.opening hm ht le_rfl hx4 (by omega)
      (by rw [Nat.add_sub_cancel]; exact hc₂)
    refine ⟨c', by rw [if_neg h1, subtreeLeafForKey_eq, hc'], ?_⟩
    rw [show n + 2 - 1 = n + 1 by omega, digits_succ, Nat.mod_eq_of_lt htop]
    exact ⟨c₂, hvec, hchain⟩

end Chain

section Verified

variable {C F : Type} {vec : C → ℕ → F} {hash : C → F} {slotToField : Option SaltValue → F}
  {p : SaltProof C} {kvs : ExtTreeMap SaltKey (Option SaltValue)} {qs : List (VerifierQuery C F)}
  {key : SaltKey}

/-- What accepted queries establish for a key whose slot its depth covers. -/
theorem verified_chain (h : p.createVerifierQueries hash slotToField kvs = .ok qs)
    (ht : ∀ q ∈ qs, Truthful vec q) (hkey : key ∈ kvs) :
    ∃ level, p.levels[key.bucketId]? = some level ∧ level ≤ 5 ∧
      (1 ≤ level → key.slotId < 256 ^ level →
        ∃ root leaf v, p.parentsCommitments[0]? = some root ∧
          Opening vec hash root (digits 3 key.bucketId ++ digits (level - 1) (key.slotId / 256)) leaf ∧
          kvs[if key.bucketId = 0 ∧ 2 ≤ level then mistakenKey key else key]? = some v ∧
          vec leaf (key.slotId % 256) = slotToField v) := by
  rw [SaltProof.createVerifierQueries] at h
  split_ifs at h
  obtain ⟨⟨internal, leaves⟩, hshape, h⟩ := ok_of_bind h
  simp only at h
  split_ifs at h
  obtain ⟨qs₁, hqs₁, h⟩ := ok_of_bind h
  obtain ⟨qs₂, hqs₂, h⟩ := ok_of_bind h
  cases h
  have ht₁ : ∀ q ∈ qs₁, Truthful vec q := fun q hq ↦ ht q (List.mem_append_left _ hq)
  have ht₂ : ∀ q ∈ qs₂, Truthful vec q := fun q hq ↦ ht q (List.mem_append_right _ hq)
  obtain ⟨level, hopen⟩ := (parentsAndPoints_spec kvs.keys p.levels).of_eq_ok (unpanicked_ok hshape)
    key (ExtTreeMap.mem_keys.mpr hkey)
  refine ⟨level, hopen.found, hopen.level_le_five hqs₁ ht₁, fun h1 hslot ↦ ?_⟩
  obtain ⟨root, c, hroot, hc, hmain⟩ := hopen.mainChain hqs₁ ht₁
  obtain ⟨leaf, hleaf, hbucket⟩ := hopen.bucketChain hqs₁ ht₁ h1 hslot hc
  obtain ⟨c', v, hc', hv, hvec⟩ := leaf_truth hqs₂ ht₂ hopen.slot
  rw [leafKey_eq h1 hslot] at hv
  have hconnect : connectParentId (if level = 1 then bucketRootNodeId key.bucketId
      else subtreeLeafForKey key) =
      if level = 1 then bucketRootNodeId key.bucketId else subtreeLeafForKey key := by
    have hs := key.slotId_lt
    have hb : key.bucketId < 256 ^ 3 := key.bucketId_lt
    split
    · rw [bucketRootNodeId_eq, connectParentId_nodeAt (by omega) hb]
    · rw [subtreeLeafForKey_eq, connectParentId_nodeAt le_rfl (by omega)]
  rw [hconnect, hleaf, Option.some.injEq] at hc'
  subst hc'
  exact ⟨root, leaf, v, hroot, opening_append.mpr ⟨c, hmain, hbucket⟩, hv, hvec⟩

/-- Accepted entries are bound to the root exactly when each claimed depth covers its slots and no
deep key of bucket 0 differs from the key that it is mistaken for. -/
theorem verified_entries_bound_iff (hinj : Function.Injective hash)
    (h : p.createVerifierQueries hash slotToField kvs = .ok qs) (ht : ∀ q ∈ qs, Truthful vec q) :
    (∀ (key : SaltKey) (v : Option SaltValue), kvs[key]? = some v →
      Bound vec hash slotToField p key v) ↔
    ∀ (key : SaltKey) (v : Option SaltValue), kvs[key]? = some v →
      Covered slotToField p kvs key v := by
  have hmem : ∀ {key : SaltKey} {v : Option SaltValue}, kvs[key]? = some v → key ∈ kvs :=
    fun hv ↦ by
      rw [ExtTreeMap.mem_iff_isSome_getElem?, hv]
      rfl
  refine forall_congr' fun key ↦ forall_congr' fun v ↦ imp_congr_right fun hv ↦ ?_
  obtain ⟨level, hlevel, hle, hchain⟩ := verified_chain h ht (hmem hv)
  constructor
  · rintro ⟨level', root, leaf, hlevel', h1, -, hslot, hroot, hopening, hvec⟩
    rw [hlevel, Option.some.injEq] at hlevel'
    subst hlevel'
    refine ⟨level, hlevel, h1, hslot, fun h0 h2 ↦ ?_⟩
    obtain ⟨root', leaf', v', hroot', hopening', hv', hvec'⟩ := hchain h1 hslot
    rw [hroot, Option.some.injEq] at hroot'
    subst hroot'
    obtain rfl := hopening.unique hinj hopening'
    rw [if_pos ⟨h0, h2⟩] at hv'
    rw [hv', Option.map_some, ← hvec', hvec]
  · intro ⟨level', hlevel', h1, hslot, hzero⟩
    rw [hlevel, Option.some.injEq] at hlevel'
    subst hlevel'
    obtain ⟨root, leaf, v', hroot, hopening, hv', hvec⟩ := hchain h1 hslot
    refine ⟨level, root, leaf, hlevel, h1, hle, hslot, hroot, hopening, ?_⟩
    by_cases h0 : key.bucketId = 0 ∧ 2 ≤ level
    · rw [if_pos h0] at hv'
      have hsame := hzero h0.1 h0.2
      rw [hv', Option.map_some, Option.some.injEq] at hsame
      rw [hvec, hsame]
    · rw [if_neg h0, hv, Option.some.injEq] at hv'
      rw [hvec, hv']

end Verified

/-! A proof for bucket 65536 that claims depth 1, with the empty slot 44 committed, and a data map
that adds a value at slot 300. -/

def slotProof : SaltProof ℕ where
  parentsCommitments := (((∅ : ExtTreeMap ℕ ℕ).insert 0 0).insert 2 2).insert 513 513 |>.insert 131329 131329
  levels := (∅ : ExtTreeMap ℕ ℕ).insert 65536 1

/-- Commitments are node ids; only the way to the bucket root is filled in. -/
def slotVec (c _d : ℕ) : ℕ :=
  if c = 0 then 2 else if c = 2 then 513 else if c = 513 then 131329 else 0

def presence (v : Option SaltValue) : ℕ := if v.isSome then 1 else 0

def slotKvs : ExtTreeMap SaltKey (Option SaltValue) :=
  (∅ : ExtTreeMap SaltKey (Option SaltValue)).insert (SaltKey.ofPair 65536 44) none

def forgedKvs : ExtTreeMap SaltKey (Option SaltValue) :=
  slotKvs.insert (SaltKey.ofPair 65536 300) (some (SaltValue.ofMeta .default))

def accepts (vec : ℕ → ℕ → ℕ) (r : Except ProofFault (List (VerifierQuery ℕ ℕ))) : Bool :=
  match r with
  | .ok qs => qs.all fun q ↦ decide (vec q.commitment q.point = q.result)
  | .error _ => false

theorem exists_of_accepts (vec : ℕ → ℕ → ℕ) {r : Except ProofFault (List (VerifierQuery ℕ ℕ))}
    (h : accepts vec r = true) : ∃ qs, r = .ok qs ∧ ∀ q ∈ qs, Truthful vec q := by
  cases r with
  | error e => cases h
  | ok qs =>
    refine ⟨qs, rfl, fun q hq ↦ ?_⟩
    have hq' : decide (vec q.commitment q.point = q.result) = true := List.all_eq_true.mp h q hq
    rwa [decide_eq_true_eq] at hq'

theorem verified_entries_bound_iff_slot :
    ∃ qs, slotProof.createVerifierQueries id presence slotKvs = .ok qs ∧
      (∀ q ∈ qs, Truthful slotVec q) ∧
      ((∀ (key : SaltKey) (v : Option SaltValue), slotKvs[key]? = some v →
          Bound slotVec id presence slotProof key v) ↔
        ∀ (key : SaltKey) (v : Option SaltValue), slotKvs[key]? = some v →
          Covered presence slotProof slotKvs key v) := by
  obtain ⟨qs, hqs, ht⟩ := exists_of_accepts slotVec
    (r := slotProof.createVerifierQueries id presence slotKvs) (by decide +kernel)
  exact ⟨qs, hqs, ht, verified_entries_bound_iff Function.injective_id hqs ht⟩

/-- The added value is accepted, although nothing binds it to the root. -/
theorem verified_entry_escapes :
    Function.Injective (id : ℕ → ℕ) ∧
    ∃ qs, slotProof.createVerifierQueries id presence forgedKvs = .ok qs ∧
      (∀ q ∈ qs, Truthful slotVec q) ∧
      ¬ ∀ (key : SaltKey) (v : Option SaltValue), forgedKvs[key]? = some v →
        Bound slotVec id presence slotProof key v := by
  obtain ⟨qs, hqs, ht⟩ := exists_of_accepts slotVec
    (r := slotProof.createVerifierQueries id presence forgedKvs) (by decide +kernel)
  refine ⟨Function.injective_id, qs, hqs, ht, fun hall ↦ ?_⟩
  obtain ⟨level, root, leaf, hlevel, -, -, hslot, -⟩ := hall (SaltKey.ofPair 65536 300)
    (some (SaltValue.ofMeta .default)) (by simp [forgedKvs])
  have hone : level = 1 := by
    have hfound : slotProof.levels[(SaltKey.ofPair 65536 300).bucketId]? = some 1 := by decide +kernel
    rw [hfound] at hlevel
    exact (Option.some.inj hlevel).symm
  subst hone
  exact absurd hslot (by decide)

end Salt
