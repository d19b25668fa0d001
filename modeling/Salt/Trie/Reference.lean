import Salt.Trie.StateRoot
import Salt.Trie.Contraction
import Salt.Library.ChangeList

namespace Salt

open Library.Triple Library.ChangeList

section Numbering

variable {b b' l l' x x' : ℕ}

theorem nodeAt_bucket (hl : l ≤ 4) (hx : x < 256 ^ l) : nodeAt b l x / 2 ^ 40 = b := by
  have := local_lt hl hx
  rw [nodeAt]
  omega

theorem nodeAt_inj (hl : l ≤ 4) (hx : x < 256 ^ l) (hl' : l' ≤ 4) (hx' : x' < 256 ^ l') :
    nodeAt b l x = nodeAt b' l' x' ↔ b = b' ∧ l = l' ∧ x = x' := by
  constructor
  · intro h
    have hb : b = b' := by rw [← nodeAt_bucket (b := b) hl hx, h, nodeAt_bucket hl' hx']
    have hlevel : l = l' := by rw [← nodeAt_level (b := b) hl hx, h, nodeAt_level hl' hx']
    have hpos : x = x' := by rw [← nodeAt_relativePosition (b := b) hl hx, h, nodeAt_relativePosition hl' hx']
    exact ⟨hb, hlevel, hpos⟩
  · rintro ⟨rfl, rfl, rfl⟩
    rfl

def parentOf (nodeId : ℕ) : ℕ := (getParentNode nodeId).toOption.getD 0

theorem parentOf_nodeAt (hl : l < 4) (hx : x < 256 ^ (l + 1)) :
    parentOf (nodeAt b (l + 1) x) = nodeAt b l (x / 256) := by
  rw [parentOf, getParentNode_nodeAt hl hx]
  rfl

theorem div_lt_pow_iff : x / 256 < 256 ^ l ↔ x < 256 ^ (l + 1) := by
  rw [Nat.div_lt_iff_lt_mul (by norm_num), pow_succ]

def At (R : ℕ → ℕ → Prop) (l n : ℕ) : Prop := ∃ b x, R b x ∧ n = nodeAt b l x

variable {R : ℕ → ℕ → Prop}

theorem children_at (hl : l < 4) (hR : ∀ b x, R b x → x < 256 ^ l) :
    Children (At R l) (At (fun b x ↦ R b (x / 256)) (l + 1)) 256 parentOf vcPositionInParent getChildNode := by
  have hbelow : ∀ {b x i}, R b x → i < 256 → x * 256 + i < 256 ^ (l + 1) := fun h hi ↦ by
    rw [← div_lt_pow_iff]
    have := hR _ _ h
    omega
  constructor
  · rintro _ ⟨b, x, h, rfl⟩
    exact ⟨b, x / 256, h, parentOf_nodeAt hl (div_lt_pow_iff.mp (hR _ _ h))⟩
  · rintro _ ⟨b, x, h, rfl⟩
    rw [vcPositionInParent_nodeAt hl (div_lt_pow_iff.mp (hR _ _ h))]
    exact Nat.mod_lt _ (by norm_num)
  · rintro _ ⟨b, x, h, rfl⟩
    have hx := div_lt_pow_iff.mp (hR _ _ h)
    rw [parentOf_nodeAt hl hx, vcPositionInParent_nodeAt hl hx, getChildNode_nodeAt hl (hR _ _ h)]
    congr 1
    omega
  · rintro _ ⟨b, x, h, rfl⟩ i hi
    rw [getChildNode_nodeAt hl (hR _ _ h)]
    have hup : (x * 256 + i) / 256 = x := by omega
    exact ⟨b, x * 256 + i, by simpa only [hup] using h, rfl⟩
  · rintro _ ⟨b, x, h, rfl⟩ i hi
    rw [getChildNode_nodeAt hl (hR _ _ h), parentOf_nodeAt hl (hbelow h hi)]
    congr 1
    omega
  · rintro _ ⟨b, x, h, rfl⟩ i hi
    rw [getChildNode_nodeAt hl (hR _ _ h), vcPositionInParent_nodeAt hl (hbelow h hi)]
    omega

end Numbering

variable {F C : Type} [CommRing F] [AddCommGroup C] [Module F C]

namespace Committer

variable (K : Committer F C)

def commit (l : List F) : C := vec 256 K.gen fun i ↦ l.getD i 0

def EmptyDefaults : Prop := K.defaults = .ofEmptyTree K.commit K.hash K.kvHash

end Committer

def capacityAt (w : SaltKey → Option SaltValue) (b : ℕ) : ℕ := (metaAt w b).capacity

/-- The level of the root of a bucket tree; metadata buckets have leaves only. -/
def topLevel (w : SaltKey → Option SaltValue) (b : ℕ) : ℕ :=
  if b < numMetaBuckets then 4 else (subtreeRootLevel (capacityAt w b)).toOption.getD 4

namespace Committer

variable (K : Committer F C) (w : SaltKey → Option SaltValue)

def segment (b y : ℕ) : C := vec 256 K.gen fun i ↦ K.kvHash (slots w b (256 * y + i))

def bucketNode (b l x : ℕ) : C := tree 256 K.gen K.hash (K.segment w b) (4 - l) x

/-- What is stored for the node: levels from the root of the bucket tree upwards are unused. -/
def subtreeNode (b l x : ℕ) : C := if topLevel w b < l then K.bucketNode w b l x else K.defaults.subtree l

/-- Node `x` of level `l` of the main trie; on level 3 stand the roots of the bucket trees. -/
def mainNode (l x : ℕ) : C := tree 256 K.gen K.hash (fun b ↦ K.bucketNode w b (topLevel w b) 0) (3 - l) x

def trieOf (nodeId : ℕ) : C :=
  let level := getBfsLevel (getLocalNumber nodeId)
  if nodeId / 2 ^ 40 = 0 then K.mainNode w level (relativePosition nodeId)
  else K.subtreeNode w (nodeId / 2 ^ 40) level (relativePosition nodeId)

variable {K w} {w' : SaltKey → Option SaltValue} {b l x : ℕ}

theorem trieOf_main (hl : l ≤ 3) (hx : x < 256 ^ l) : K.trieOf w (nodeAt 0 l x) = K.mainNode w l x := by
  have hl' : l ≤ 4 := by omega
  simp only [trieOf, nodeAt_bucket hl' hx, nodeAt_level hl' hx, nodeAt_relativePosition hl' hx, if_true]

theorem trieOf_subtree (hb : isValidDataBucket b) (hl : l ≤ 4) (hx : x < 256 ^ l) :
    K.trieOf w (nodeAt b l x) = K.subtreeNode w b l x := by
  rw [dataBucket_iff] at hb
  simp only [trieOf, nodeAt_bucket hl hx, nodeAt_level hl hx, nodeAt_relativePosition hl hx]
  rw [if_neg (by omega)]

theorem bucketNode_leaf : K.bucketNode w b 4 x = K.segment w b x := rfl

theorem bucketNode_inner (hl : l < 4) :
    K.bucketNode w b l x = vec 256 K.gen fun i ↦ K.hash (K.bucketNode w b (l + 1) (256 * x + i)) := by
  rw [bucketNode, show 4 - l = 4 - (l + 1) + 1 by omega, tree]
  rfl

theorem mainNode_bucket : K.mainNode w 3 b = K.bucketNode w b (topLevel w b) 0 := rfl

theorem mainNode_inner (hl : l < 3) :
    K.mainNode w l x = vec 256 K.gen fun i ↦ K.hash (K.mainNode w (l + 1) (256 * x + i)) := by
  rw [mainNode, show 3 - l = 3 - (l + 1) + 1 by omega, tree]
  rfl

theorem bucketNode_congr (hl : l ≤ 4)
    (h : ∀ s, 256 ^ (5 - l) * x ≤ s → s < 256 ^ (5 - l) * (x + 1) → slots w b s = slots w' b s) :
    K.bucketNode w b l x = K.bucketNode w' b l x := by
  have hpow : 256 ^ (5 - l) = 256 * 256 ^ (4 - l) := by
    rw [← pow_succ']
    congr 1
    omega
  refine tree_congr (4 - l) fun y hle hlt ↦ vec_congr fun i hi ↦ ?_
  rw [h (256 * y + i)]
  · rw [hpow, Nat.mul_assoc]
    omega
  · rw [hpow, Nat.mul_assoc]
    omega

theorem commit_replicate (a : F) : K.commit (List.replicate 256 a) = vec 256 K.gen fun _ ↦ a :=
  vec_congr fun i hi ↦ by
    rw [List.getD_eq_getElem?_getD, List.getElem?_replicate, if_pos hi, Option.getD_some]

theorem EmptyDefaults.subtree_leaf (hK : K.EmptyDefaults) :
    K.defaults.subtree 4 = vec 256 K.gen fun _ ↦ K.kvHash none := by
  rw [hK]
  exact commit_replicate _

theorem EmptyDefaults.subtree_inner (hK : K.EmptyDefaults) (hl : l < 4) :
    K.defaults.subtree l = vec 256 K.gen fun _ ↦ K.hash (K.defaults.subtree (l + 1)) := by
  rw [hK]
  simp only [DefaultCommitments.ofEmptyTree]
  rw [show 4 - l = 4 - (l + 1) + 1 by omega, uniformTree, commit_replicate]

/-- A node over free slots is the default one. -/
theorem EmptyDefaults.bucketNode_eq (hK : K.EmptyDefaults) (hl : l ≤ 4)
    (h : ∀ s, 256 ^ (5 - l) * x ≤ s → s < 256 ^ (5 - l) * (x + 1) → slots w b s = none) :
    K.bucketNode w b l x = K.defaults.subtree l := by
  have hfree : K.bucketNode w b l x = K.bucketNode (fun _ ↦ none) b l x := by
    refine bucketNode_congr hl fun s hle hlt ↦ ?_
    rw [h s hle hlt, slots, ite_self]
  suffices ∀ k ≤ 4, ∀ x, K.bucketNode (fun _ ↦ none) b (4 - k) x = K.defaults.subtree (4 - k) by
    have hk := this (4 - l) (by omega) x
    rwa [show 4 - (4 - l) = l by omega, ← hfree] at hk
  intro k hk
  induction k with
  | zero =>
    intro x
    rw [Nat.sub_zero, bucketNode_leaf, segment, hK.subtree_leaf]
    exact vec_congr fun i _ ↦ by rw [slots, ite_self]
  | succ k ih =>
    intro x
    rw [bucketNode_inner (by omega), hK.subtree_inner (by omega), show 4 - (k + 1) + 1 = 4 - k by omega]
    exact vec_congr fun i _ ↦ by rw [ih (by omega)]

theorem subtreeNode_below (h : topLevel w b < l) : K.subtreeNode w b l x = K.bucketNode w b l x := if_pos h

theorem subtreeNode_unused (h : l ≤ topLevel w b) : K.subtreeNode w b l x = K.defaults.subtree l :=
  if_neg (not_lt.mpr h)

end Committer

section Regularity

/-- A capacity whose subtree has full nodes only: on no level does a node end before its last slot. -/
structure Aligned (capacity : ℕ) : Prop where
  pos : 0 < capacity
  le : capacity ≤ 2 ^ 40
  unit : 256 ∣ capacity
  full : ∀ l ≤ 4, 1 < nodesAt capacity l → 256 ^ (5 - l) ∣ capacity

/-- The states that the trie is about: metadata explicit, aligned capacities and no entry outside of them. -/
structure Regular (w : SaltKey → Option SaltValue) : Prop where
  normal : normalize w = w
  aligned : ∀ b, isValidDataBucket b → Aligned (capacityAt w b)
  outside : ∀ b, isValidDataBucket b → ∀ s, capacityAt w b ≤ s → slots w b s = none

variable {w : SaltKey → Option SaltValue} {b l x capacity : ℕ}

theorem Aligned.nodesAt_mul (h : Aligned capacity) (hl : l ≤ 4) (hmany : 1 < nodesAt capacity l) :
    256 ^ (5 - l) * nodesAt capacity l = capacity := by
  obtain ⟨k, hk⟩ := h.full l hl hmany
  have hpos : 0 < 256 ^ (5 - l) := by positivity
  rw [nodesAt, Multipoint.divCeil, hk]
  congr 1
  rw [Nat.add_sub_assoc hpos, Nat.mul_add_div hpos, Nat.div_eq_of_lt (by omega), Nat.add_zero]

/-- All boundaries of a contraction to an aligned capacity are exact. -/
theorem Aligned.nodesAt_mod (h : Aligned capacity) (hl : l ≤ 4) (hmany : 1 < nodesAt capacity l) :
    nodesAt capacity l % 256 ≠ 1 := by
  intro hmod
  have hmul := h.nodesAt_mul hl hmany
  rcases Nat.eq_zero_or_pos l with rfl | hpos
  · have := h.le
    norm_num at hmul
    omega
  · have hup : l - 1 + 1 = l := by omega
    have hdiv : Multipoint.divCeil (nodesAt capacity l) 256 = nodesAt capacity (l - 1) := by
      rw [← divCeil_nodesAt (show l - 1 ≤ 4 by omega), hup]
    have hmany' : 1 < nodesAt capacity (l - 1) := by
      rw [← hdiv, lt_divCeil_iff (by norm_num)]
      omega
    have hmul' := h.nodesAt_mul (by omega) hmany'
    rw [show 5 - (l - 1) = 5 - l + 1 by omega, pow_succ] at hmul'
    have hcancel : nodesAt capacity l = 256 * nodesAt capacity (l - 1) := by
      have hp : 0 < 256 ^ (5 - l) := by positivity
      apply Nat.eq_of_mul_eq_mul_left hp
      rw [hmul, ← Nat.mul_assoc, hmul']
    omega

theorem Aligned.le_parent (h : Aligned capacity) {top : ℕ} (htop : RootLevel capacity top) (hl : l < 4) (hlt : top < l)
    (hx : nodesAt capacity (l + 1) ≤ x) : nodesAt capacity l ≤ x / 256 := by
  have hmul := h.nodesAt_mul hl.le ((htop.lt_iff hl.le).mp hlt)
  have hmul' := h.nodesAt_mul (Nat.succ_le_of_lt hl) ((htop.lt_iff (Nat.succ_le_of_lt hl)).mp (by omega))
  have hpow : 256 ^ (5 - l) = 256 ^ (5 - l.succ) * 256 := by
    rw [← pow_succ]
    congr 1
    omega
  rw [hpow, Nat.mul_assoc] at hmul
  have hcancel := Nat.eq_of_mul_eq_mul_left (show 0 < 256 ^ (5 - l.succ) by positivity) (hmul.trans hmul'.symm)
  rw [Nat.succ_eq_add_one] at hcancel
  omega

theorem nodesAt_leaf : nodesAt capacity 4 = Multipoint.divCeil capacity 256 := rfl

theorem nodesAt_top {top : ℕ} (h : RootLevel capacity top) (hpos : 0 < capacity) (hl : l ≤ top) :
    nodesAt capacity l = 1 := by
  have hle : l ≤ 4 := hl.trans h.le
  have hfew : ¬ 1 < nodesAt capacity l := fun hmany ↦ by
    have := (h.lt_iff hle).mpr hmany
    omega
  have hone : 0 < nodesAt capacity l := by
    rw [nodesAt, lt_divCeil_iff (by positivity)]
    omega
  omega

theorem nodesAt_le_pow {top : ℕ} (h : RootLevel capacity top) (hl : l ≤ 4) : nodesAt capacity l ≤ 256 ^ (l - top) := by
  rw [nodesAt, divCeil_le_iff (by positivity), ← pow_add]
  exact h.reaches.trans (Nat.pow_le_pow_right (by norm_num) (by omega))

theorem Regular.top (h : Regular w) (hb : isValidDataBucket b) :
    subtreeRootLevel (capacityAt w b) = .ok (topLevel w b) ∧ RootLevel (capacityAt w b) (topLevel w b) := by
  obtain ⟨level, hrun, hroot⟩ := subtreeRootLevel_rootLevel (h.aligned b hb).le
  have htop : topLevel w b = level := by
    rw [dataBucket_iff] at hb
    rw [topLevel, if_neg (by simp only [numMetaBuckets]; omega), hrun]
    rfl
  rw [htop]
  exact ⟨hrun, hroot⟩

theorem topLevel_meta (hb : b < 2 ^ 16) : topLevel w b = 4 := if_pos hb

theorem subtreeRootLevelLoop_le (level : ℕ) (h : subtreeRootLevelLoop level capacity = .ok l) : l ≤ level := by
  induction level generalizing capacity with
  | zero =>
    rw [subtreeRootLevelLoop] at h
    split at h
    · cases h
    · exact (Except.ok.inj h).ge
  | succ level ih =>
    rw [subtreeRootLevelLoop] at h
    split at h
    · exact (ih h).trans (Nat.le_succ level)
    · exact (Except.ok.inj h).ge

theorem topLevel_le (w : SaltKey → Option SaltValue) (b : ℕ) : topLevel w b ≤ 4 := by
  rw [topLevel]
  split
  · rfl
  · cases h : subtreeRootLevel (capacityAt w b) with
    | error e => rfl
    | ok level => exact subtreeRootLevelLoop_le 4 h

variable {F C : Type} [CommRing F] [AddCommGroup C] [Module F C] {K : Committer F C}

theorem Regular.bucketNode_outside (h : Regular w) (hK : K.EmptyDefaults) (hb : isValidDataBucket b) (hl : l ≤ 4)
    (hx : capacityAt w b ≤ 256 ^ (5 - l) * x) : K.bucketNode w b l x = K.defaults.subtree l :=
  hK.bucketNode_eq hl fun s hle _ ↦ h.outside b hb s (hx.trans hle)

theorem Regular.bucketNode_dropped (h : Regular w) (hK : K.EmptyDefaults) (hb : isValidDataBucket b) (hl : l ≤ 4)
    (hx : nodesAt (capacityAt w b) l ≤ x) : K.bucketNode w b l x = K.defaults.subtree l :=
  h.bucketNode_outside hK hb hl ((divCeil_le_iff (by positivity)).mp hx)

theorem Regular.subtreeNode_dropped (h : Regular w) (hK : K.EmptyDefaults) (hb : isValidDataBucket b) (hl : l ≤ 4)
    (hx : nodesAt (capacityAt w b) l ≤ x) : K.subtreeNode w b l x = K.defaults.subtree l := by
  rw [Committer.subtreeNode, h.bucketNode_dropped hK hb hl hx, ite_self]

end Regularity

end Salt
