import Salt.Trie.Mirrors

namespace Salt.StateRoot

open Std (ExtTreeMap ExtTreeSet)
open Library.Triple Library.ChangeList

section Capacity

variable {C : Type} {st : StateRoot C} {A : Prop} {w : SaltKey → Option SaltValue} {b : ℕ}

def KnowsCapacity (A : Prop) (w : SaltKey → Option SaltValue) (st : StateRoot C) (b : ℕ) : Prop :=
  match st.bucketCapacityCache[b]? with
  | some capacity => capacity = capacityAt w b
  | none => Sat (st.store.getSubtreeLevels b) (fun _ ↦ A) (· = 5 - topLevel w b)

structure Stands (w : SaltKey → Option SaltValue) (b capacity : ℕ) : Prop where
  le : capacityAt w b ≤ capacity
  level : subtreeRootLevel capacity = .ok (topLevel w b)
  small : capacity ≤ 256 ↔ capacityAt w b ≤ 256

theorem stands_levels (hw : Regular w) (hb : isValidDataBucket b) : Stands w b (256 ^ (5 - topLevel w b)) := by
  obtain ⟨hrun, hroot⟩ := hw.top hb
  have hle : 256 ^ (5 - topLevel w b) ≤ 2 ^ 40 := by
    calc 256 ^ (5 - topLevel w b) ≤ 256 ^ 5 := Nat.pow_le_pow_right (by norm_num) (Nat.sub_le ..)
      _ = 2 ^ 40 := by norm_num
  refine ⟨hroot.reaches, ?_, ?_⟩
  · obtain ⟨level, hrun', hroot'⟩ := subtreeRootLevel_rootLevel hle
    rw [hrun', hroot'.unique ⟨hroot.le, le_rfl, fun l hl hpow ↦ ?_⟩]
    have := (Nat.pow_le_pow_iff_right (by norm_num)).mp hpow
    have := hroot.le
    omega
  · have hmany := hroot.lt_iff (le_refl 4)
    rw [nodesAt_leaf, lt_divCeil_iff (by norm_num)] at hmany
    change topLevel w b < 4 ↔ 256 * 1 < capacityAt w b at hmany
    have hpow : 256 ^ (5 - topLevel w b) ≤ 256 ^ 1 ↔ 5 - topLevel w b ≤ 1 := Nat.pow_le_pow_iff_right (by norm_num)
    have := hroot.le
    omega

theorem currentCapacity_sat (hw : Regular w) (hb : isValidDataBucket b) (h : KnowsCapacity A w st b) :
    Sat (st.currentCapacity b) (fun _ ↦ A) (Stands w b) := by
  rw [KnowsCapacity] at h
  rw [currentCapacity]
  cases hc : st.bucketCapacityCache[b]? with
  | some c =>
    simp only [hc] at h
    subst h
    exact Sat.ok ⟨le_rfl, (hw.top hb).1, Iff.rfl⟩
  | none =>
    simp only [hc] at h
    refine h.bind fun level hlevel ↦ Sat.ok ?_
    subst hlevel
    exact stands_levels hw hb

end Capacity

section Dividing

variable {C : Type} {w w' : SaltKey → Option SaltValue} {sc sc' : Scan C} {key : SaltKey} {l : List StateChange}
  {e : StateChange}

/-- The bucket is handled when it is expanded and its first key lies under both roots. -/
def Handles (w w' : SaltKey → Option SaltValue) (key : SaltKey) (sc sc' : Scan C) : Prop :=
  ∀ b, b ∈ sc'.needHandle ↔
    b ∈ sc.needHandle ∨ b = key.bucketId ∧ Expanded w w' b ∧ key.slotId < commonReach w w' b

theorem handles_handleIf {handled : Bool} (hsc : sc'.needHandle = sc.needHandle)
    (h : handled = true ↔ Expanded w w' key.bucketId ∧ key.slotId < commonReach w w' key.bucketId) :
    Handles w w' key sc (sc'.handleIf key.bucketId handled) := by
  intro b
  have hmem : b ∈ (sc'.handleIf key.bucketId handled).needHandle ↔
      b ∈ sc'.needHandle ∨ b = key.bucketId ∧ handled = true := by
    cases handled with
    | true =>
      simp only [Scan.handleIf, if_true, ExtTreeSet.mem_insert, Nat.compare_eq_eq, and_true]
      exact or_comm.trans (or_congr Iff.rfl eq_comm)
    | false => simp [Scan.handleIf]
  rw [hmem, hsc, h]
  refine or_congr Iff.rfl (and_congr_right fun hb ↦ ?_)
  rw [hb]

def InExpansion (w w' : SaltKey → Option SaltValue) (k : SaltKey) : Prop :=
  k.isInMetaBucket = false ∧ Expanded w w' k.bucketId ∧ k.slotId < capacityAt w' k.bucketId

instance (w w' : SaltKey → Option SaltValue) (k : SaltKey) : Decidable (InExpansion w w' k) := by
  unfold InExpansion
  infer_instance

def InSmall (w w' : SaltKey → Option SaltValue) (k : SaltKey) : Prop :=
  k.isInMetaBucket = true ∨ ¬ Expanded w w' k.bucketId

instance (w w' : SaltKey → Option SaltValue) (k : SaltKey) : Decidable (InSmall w w' k) := by
  unfold InSmall
  infer_instance

def Touched (l : List StateChange) (b : ℕ) : Prop := ∃ e ∈ l, e.1.bucketId = b

def Handled (w w' : SaltKey → Option SaltValue) (l : List StateChange) (b : ℕ) : Prop :=
  isValidDataBucket b ∧ Expanded w w' b ∧ ∃ e ∈ l, e.1.bucketId = b ∧ e.1.slotId < commonReach w w' b

structure Divided (w w' : SaltKey → Option SaltValue) (l : List StateChange) (sc : Scan C) : Prop where
  expansionKvs : sc.expansionKvs = l.filter fun e ↦ InExpansion w w' e.1
  nonExpansionKvs : sc.nonExpansionKvs = l.filter fun e ↦ InSmall w w' e.1

inductive Current (w w' : SaltKey → Option SaltValue) (l : List StateChange) (sc : Scan C) : Prop
  | metadata (keys : ∀ e ∈ l, e.1.isInMetaBucket = true) (last : sc.lastBucketId = 2 ^ 32 - 1)
      (small : sc.isExpanded = false)
  | data (b : ℕ) (touched : Touched l b) (valid : isValidDataBucket b) (le : ∀ e ∈ l, e.1.bucketId ≤ b)
      (last : sc.lastBucketId = b) (expanded : sc.isExpanded = decide (Expanded w w' b))
      (capacity : Expanded w w' b → ∀ s < max (capacityAt w b) (capacityAt w' b),
        s < sc.curBucketCap ↔ s < capacityAt w' b)

theorem touched_append {b : ℕ} : Touched (l ++ [e]) b ↔ Touched l b ∨ e.1.bucketId = b := by
  simp [Touched, or_and_right, exists_or]

theorem handled_append {b : ℕ} : Handled w w' (l ++ [e]) b ↔
    Handled w w' l b ∨ isValidDataBucket b ∧ Expanded w w' b ∧ e.1.bucketId = b ∧ e.1.slotId < commonReach w w' b := by
  simp only [Handled, List.mem_append, List.mem_singleton, or_and_right, exists_or, exists_eq_left, and_or_left]

theorem Divided.push (h : Divided w w' l sc)
    (hexp : sc.isExpanded = true ↔ ¬ InSmall w w' e.1)
    (hslot : ¬ InSmall w w' e.1 → (e.1.slotId < sc.curBucketCap ↔ InExpansion w w' e.1)) :
    Divided w w' (l ++ [e]) (sc.push e) := by
  obtain ⟨hlarge, hsmall⟩ := h
  by_cases hs : InSmall w w' e.1
  · have hn : ¬ InExpansion w w' e.1 := fun he ↦ hs.elim (fun hm ↦ by simp [he.1] at hm) (absurd he.2.1)
    have hf : sc.isExpanded = false := by
      rw [← Bool.not_eq_true, hexp]
      exact not_not.mpr hs
    rw [Scan.push, if_pos hf]
    constructor
    · simp [hlarge, hn]
    · simp [hsmall, hs]
  · have hf : sc.isExpanded = true := hexp.mpr hs
    rw [Scan.push, hf, if_neg (by simp)]
    by_cases hlt : e.1.slotId < sc.curBucketCap
    · have he := (hslot hs).mp hlt
      rw [if_pos hlt]
      constructor
      · simp [hlarge, he]
      · simp [hsmall, hs]
    · have he : ¬ InExpansion w w' e.1 := fun he ↦ hlt ((hslot hs).mpr he)
      rw [if_neg hlt]
      constructor
      · simp [hlarge, he]
      · simp [hsmall, hs]

theorem Current.push (h : Current w w' l sc) : Current w w' l (sc.push e) := by
  unfold Scan.push
  split_ifs
  all_goals
    cases h with
    | metadata keys last small => exact .metadata keys last small
    | data b touched valid le last expanded capacity => exact .data b touched valid le last expanded capacity

theorem bucketId_mono {k k' : SaltKey} (h : k.val < k'.val) : k.bucketId ≤ k'.bucketId := Nat.div_le_div_right h.le

theorem slotId_lt_of_lt {k k' : SaltKey} (h : k.val < k'.val) (hb : k.bucketId = k'.bucketId) :
    k.slotId < k'.slotId := by
  rw [SaltKey.bucketId_eq, SaltKey.bucketId_eq] at hb
  rw [SaltKey.slotId_eq, SaltKey.slotId_eq]
  omega

theorem Current.sees (h : Current w w' (l ++ [e]) sc) (hsorted : ∀ f ∈ l, f.1.val < e.1.val)
    (hslot : e.1.isInMetaBucket = false →
      e.1.slotId < max (capacityAt w e.1.bucketId) (capacityAt w' e.1.bucketId)) :
    (sc.isExpanded = true ↔ ¬ InSmall w w' e.1) ∧
      (¬ InSmall w w' e.1 → (e.1.slotId < sc.curBucketCap ↔ InExpansion w w' e.1)) := by
  cases h with
  | metadata keys last small =>
    have hmeta := keys e (by simp)
    have hsmall : InSmall w w' e.1 := .inl hmeta
    exact ⟨by simp [small, hsmall], fun hn ↦ absurd hsmall hn⟩
  | data b touched valid le last expanded capacity =>
    have hb : e.1.bucketId = b := by
      obtain ⟨f, hf, rfl⟩ := touched
      refine le_antisymm (le e (by simp)) ?_
      rcases List.mem_append.mp hf with hf | hf
      · exact bucketId_mono (hsorted f hf)
      · rw [List.mem_singleton.mp hf]
    subst hb
    have hdata : e.1.isInMetaBucket = false := not_meta_iff.mpr valid
    constructor
    · rw [expanded, decide_eq_true_eq, InSmall, hdata]
      simp
    · intro hn
      have hexp : Expanded w w' e.1.bucketId := by
        by_contra hne
        exact hn (.inr hne)
      rw [capacity hexp _ (hslot hdata), InExpansion]
      exact ⟨fun h ↦ ⟨hdata, hexp, h⟩, fun h ↦ h.2.2⟩

end Dividing

variable {F C : Type} [CommRing F] [AddCommGroup C] [Module F C] {K : Committer F C} {A : Prop}
  {w w' : SaltKey → Option SaltValue} {T : ℕ → ℕ → Prop} {st st' : StateRoot C}

section Entering

variable {b : ℕ} {sc : Scan C} {key : SaltKey}

structure Entered (K : Committer F C) (A : Prop) (w w' : SaltKey → Option SaltValue) (T : ℕ → ℕ → Prop) (key : SaltKey)
    (sc sc' : Scan C) : Prop where
  mirrors : Mirrors K A w T sc'.st
  caches : CachesIn key.bucketId sc.st sc'.st
  root : Expanded w w' key.bucketId →
    sc'.st.commitment (nodeAt key.bucketId (topLevel w key.bucketId) 0) = .ok (K.mainNode w 3 key.bucketId)
  changesOther : ∀ b, b ≠ key.bucketId → sc'.changes[b]? = sc.changes[b]?
  shapes : ∀ info, sc'.changes[key.bucketId]? = some info → info.Shapes w w' key.bucketId
  present : Expanded w w' key.bucketId ∨ sc.changes[key.bucketId]? ≠ none → sc'.changes[key.bucketId]? ≠ none
  lastBucketId : sc'.lastBucketId = sc.lastBucketId
  isExpanded : sc'.isExpanded = decide (Expanded w w' key.bucketId)
  curBucketCap : Expanded w w' key.bucketId → ∀ s < max (capacityAt w key.bucketId) (capacityAt w' key.bucketId),
    s < sc'.curBucketCap ↔ s < capacityAt w' key.bucketId
  expansionKvs : sc'.expansionKvs = sc.expansionKvs
  nonExpansionKvs : sc'.nonExpansionKvs = sc.nonExpansionKvs

theorem Entered.handleIf {sc' : Scan C} {handled : Bool} (h : Entered K A w w' T key sc sc') :
    Entered K A w w' T key sc (sc'.handleIf b handled) := by
  cases handled with
  | true => exact ⟨h.1, h.2, h.3, h.4, h.5, h.6, h.7, h.8, h.9, h.10, h.11⟩
  | false => exact h

theorem enterChanged_sat (hK : K.EmptyDefaults) (hw : Regular w) (hw' : Regular w')
    (hb : isValidDataBucket key.bucketId) (hst : Mirrors K A w T sc.st)
    (hslot : key.slotId < max (capacityAt w key.bucketId) (capacityAt w' key.bucketId))
    (hchanges : sc.changes[key.bucketId]? = some (changeShape w w' key.bucketId)) :
    Sat (enterChanged K sc key (changeShape w w' key.bucketId)) (fun _ ↦ A) fun sc' ↦
      Entered K A w w' T key sc sc' ∧ Handles w w' key sc sc' := by
  set b := key.bucketId with hbk
  have htop := (hw.top hb).2.le
  have hpos : 0 < 256 ^ topLevel w b := by positivity
  refine (hst.root b (dataBucket_lt hb)).bind fun c hc ↦ ?_
  subst hc
  set st₁ := sc.st.cacheNode (nodeAt b (topLevel w b) 0) (K.mainNode w 3 b) with hst₁def
  have hst₁ : Mirrors K A w T st₁ := hst.cacheNode hb htop hpos fun hn ↦ absurd ⟨rfl, .inl rfl⟩ hn
  have hcaches₁ : CachesIn b sc.st st₁ := cachesIn_cacheNode htop hpos
  have hroot₁ : st₁.commitment (nodeAt b (topLevel w b) 0) = .ok (K.mainNode w 3 b) := by
    rw [commitment_cacheNode, if_pos rfl]
  have hshape : ∀ info, sc.changes[b]? = some info → info.Shapes w w' b := by
    intro info hinfo
    rw [hchanges, Option.some.injEq] at hinfo
    exact hinfo ▸ shapes_changeShape
  have hpresent : sc.changes[b]? ≠ none := by
    rw [hchanges]
    exact Option.some_ne_none _
  have hentered : ∀ st₂, Warmed K A w T b st₁ st₂ → ∀ expanded, expanded = decide (Expanded w w' b) →
      Entered K A w w' T key sc { sc with st := st₂, isExpanded := expanded, curBucketCap := capacityAt w' b } := by
    intro st₂ hwarm expanded hexpanded
    exact ⟨hwarm.mirrors, hcaches₁.trans hwarm.caches, fun _ ↦ hwarm.known _ _ hroot₁, fun _ _ ↦ rfl, hshape,
      fun _ ↦ hpresent, rfl, hexpanded, fun _ _ _ ↦ Iff.rfl, rfl, rfl⟩
  rcases lt_trichotomy (capacityAt w b) (capacityAt w' b) with hlt | heq | hgt
  · have hexp : Expanded w w' b := fun h ↦ hlt.ne h.1
    have hreach : commonReach w w' b = 256 ^ (5 - topLevel w b) := by
      rw [commonReach, max_eq_left (hw.topLevel_antitone hw' hb hlt.le)]
    have hcmp : compare (changeShape w w' b).newCapacity (changeShape w w' b).oldCapacity = .gt :=
      Nat.compare_eq_gt.mpr hlt
    rw [hcmp]
    refine (warmSegments_sat hK hw hw' hb hst₁ hroot₁).bind fun st₂ hwarm ↦ Sat.ok ⟨?_, ?_⟩
    · exact (hentered st₂ hwarm true (by simpa using hexp)).handleIf
    · refine handles_handleIf rfl ?_
      rw [decide_eq_true_eq, ← hbk, hreach]
      exact ⟨fun h ↦ ⟨hexp, h⟩, And.right⟩
  · have hcmp : compare (changeShape w w' b).newCapacity (changeShape w w' b).oldCapacity = .eq :=
      Nat.compare_eq_eq.mpr heq.symm
    have hexp : Expanded w w' b ↔ capacityAt w' b > 256 := by
      rw [Expanded]
      omega
    have hreach : key.slotId < commonReach w w' b := by
      rw [commonReach, topLevel_eq_of_capacity heq, max_self]
      rw [heq, max_self] at hslot
      exact hslot.trans_le (hw'.top hb).2.reaches
    rw [hcmp]
    refine Sat.ok ⟨?_, ?_⟩
    · exact (hentered st₁ (.refl hst₁) _ (decide_eq_decide.mpr hexp).symm).handleIf
    · refine handles_handleIf rfl ?_
      rw [decide_eq_true_eq, ← hbk, hexp]
      exact ⟨fun h ↦ ⟨h, hreach⟩, And.left⟩
  · have hexp : Expanded w w' b := fun h ↦ hgt.ne' h.1
    have hreach : commonReach w w' b = 256 ^ (5 - topLevel w' b) := by
      rw [commonReach, max_eq_right (hw'.topLevel_antitone hw hb hgt.le)]
    have hcmp : compare (changeShape w w' b).newCapacity (changeShape w w' b).oldCapacity = .lt :=
      Nat.compare_eq_lt.mpr hgt
    rw [hcmp]
    refine Sat.ok ⟨?_, ?_⟩
    · exact (hentered st₁ (.refl hst₁) true (by simpa using hexp)).handleIf
    · refine handles_handleIf rfl ?_
      rw [decide_eq_true_eq, ← hbk, hreach]
      exact ⟨fun h ↦ ⟨hexp, h⟩, And.right⟩

theorem enterUnchanged_sat (hw : Regular w) (hb : isValidDataBucket key.bucketId) (hst : Mirrors K A w T sc.st)
    (hsame : capacityAt w key.bucketId = capacityAt w' key.bucketId) (hslot : key.slotId < capacityAt w key.bucketId)
    (hcapacity : KnowsCapacity A w sc.st key.bucketId) (hnone : sc.changes[key.bucketId]? = none) :
    Sat (enterUnchanged sc key.bucketId) (fun _ ↦ A) fun sc' ↦
      Entered K A w w' T key sc sc' ∧ Handles w w' key sc sc' := by
  set b := key.bucketId with hbk
  have htop := (hw.top hb).2.le
  have hpos : 0 < 256 ^ topLevel w b := by positivity
  rw [enterUnchanged]
  refine (currentCapacity_sat hw hb hcapacity).bind fun capacity hcap ↦ ?_
  have hexp : Expanded w w' b ↔ capacity > 256 := by
    have := hcap.small
    rw [Expanded]
    omega
  have hreach : key.slotId < commonReach w w' b := by
    rw [commonReach, topLevel_eq_of_capacity hsame.symm, max_self]
    exact hslot.trans_le (hw.top hb).2.reaches
  have hshape : SubtrieChangeInfo.new b capacity capacity =
      .ok ⟨capacity, topLevel w b, nodeAt b (topLevel w b) 0, capacity, topLevel w b, nodeAt b (topLevel w b) 0,
        nodeAt 0 3 b⟩ := newShape hcap.level hcap.level
  have hcur : ∀ s < max (capacityAt w b) (capacityAt w' b), s < capacity ↔ s < capacityAt w' b := by
    have := hcap.le
    intro s hs
    omega
  have hhandles : ∀ sc' : Scan C, sc'.needHandle = sc.needHandle →
      ∀ handled, handled = decide (capacity > minBucketSize) →
      Handles w w' key sc (sc'.handleIf b handled) := by
    rintro sc' hsc' handled rfl
    refine handles_handleIf hsc' ?_
    rw [decide_eq_true_eq, ← hbk, hexp]
    exact ⟨fun h ↦ ⟨h, hreach⟩, And.left⟩
  by_cases hbig : capacity > 256
  · have hdec : decide (capacity > minBucketSize) = true := decide_eq_true hbig
    simp only [hdec, if_true, hshape, ok_bind]
    refine (hst.root b (dataBucket_lt hb)).bind fun c hc ↦ Sat.ok ⟨?_, ?_⟩
    · subst hc
      refine ⟨hst.cacheNode hb htop hpos fun hn ↦ absurd ⟨rfl, .inl rfl⟩ hn, cachesIn_cacheNode htop hpos, fun _ ↦ ?_,
        fun b' hb' ↦ ?_, fun info hinfo ↦ ?_, fun _ ↦ ?_, rfl, (decide_eq_true (hexp.mpr hbig)).symm, fun _ ↦ hcur, rfl,
        rfl⟩
      · rw [commitment_cacheNode, if_pos rfl]
      · rw [ExtTreeMap.getElem?_insert, if_neg]
        · rfl
        · rwa [Nat.compare_eq_eq, eq_comm]
      · rw [← hbk, ExtTreeMap.getElem?_insert_self, Option.some.injEq] at hinfo
        have hlevel := topLevel_eq_of_capacity hsame
        subst hinfo
        exact ⟨rfl, rfl, hlevel, by rw [hlevel], rfl, .inr ⟨rfl, hsame, hsame ▸ hcap.le⟩⟩
      · rw [← hbk, ExtTreeMap.getElem?_insert_self]
        exact Option.some_ne_none _
    · exact hhandles _ rfl true hdec.symm
  · have hdec : decide (capacity > minBucketSize) = false := decide_eq_false hbig
    have hsmall : ¬ Expanded w w' b := fun h ↦ hbig (hexp.mp h)
    simp only [hdec]
    refine Sat.ok ⟨⟨hst, .refl b sc.st, fun h ↦ absurd h hsmall, fun _ _ ↦ rfl, fun info hinfo ↦ ?_,
      fun h ↦ (h.elim (absurd · hsmall) (absurd hnone)), rfl, (decide_eq_false hsmall).symm, fun _ ↦ hcur, rfl, rfl⟩,
      hhandles _ rfl false hdec.symm⟩
    rw [← hbk] at hinfo
    exact absurd (hnone.symm.trans hinfo) (by simp)

end Entering

section Loop

variable {u : StateUpdates} {sc sc' : Scan C} {l : List StateChange} {e : StateChange}

structure Scanned (K : Committer F C) (A : Prop) (w w' : SaltKey → Option SaltValue) (T : ℕ → ℕ → Prop)
    (u : StateUpdates) (st : StateRoot C) (l : List StateChange) (sc : Scan C) : Prop where
  mirrors : Mirrors K A w T sc.st
  fields : sc.st = { st with cache := sc.st.cache }
  main : ∀ n < 2 ^ 40, sc.st.commitment n = st.commitment n
  root : ∀ b, isValidDataBucket b → Expanded w w' b → Touched l b →
    sc.st.commitment (nodeAt b (topLevel w b) 0) = .ok (K.mainNode w 3 b)
  shapes : ∀ b info, sc.changes[b]? = some info → isValidDataBucket b ∧ info.Shapes w w' b
  present : ∀ b, isValidDataBucket b → metadataKey b ∈ u.data ∨ Expanded w w' b ∧ Touched l b → sc.changes[b]? ≠ none
  untouched : ∀ b, isValidDataBucket b → ¬ Touched l b →
    sc.changes[b]? = if metadataKey b ∈ u.data then some (changeShape w w' b) else none
  needHandle : ∀ b, b ∈ sc.needHandle ↔ Handled w w' l b

theorem Scanned.skip (h : Scanned K A w w' T u st l sc)
    (htouched : ∀ b, isValidDataBucket b → e.1.bucketId = b → Touched l b)
    (hhandled : ∀ b, isValidDataBucket b → Expanded w w' b → e.1.bucketId = b → e.1.slotId < commonReach w w' b →
      Handled w w' l b) : Scanned K A w w' T u st (l ++ [e]) sc := by
  have ht : ∀ b, isValidDataBucket b → (Touched (l ++ [e]) b ↔ Touched l b) := by
    intro b hb
    rw [touched_append]
    exact or_iff_left_of_imp (htouched b hb)
  refine ⟨h.mirrors, h.fields, h.main, fun b hb hexp hb' ↦ h.root b hb hexp ((ht b hb).mp hb'), h.shapes,
    fun b hb hor ↦ h.present b hb ?_, fun b hb hn ↦ h.untouched b hb fun hb' ↦ hn ((ht b hb).mpr hb'), fun b ↦ ?_⟩
  · exact hor.imp_right fun hor ↦ ⟨hor.1, (ht b hb).mp hor.2⟩
  · rw [h.needHandle, handled_append]
    exact (or_iff_left_of_imp fun ⟨hb, hexp, hbucket, hslot⟩ ↦ hhandled b hb hexp hbucket hslot).symm

theorem Scanned.enter (sc₁ : Scan C) (hw : Regular w) (h : Scanned K A w w' T u st l sc)
    (hb : isValidDataBucket e.1.bucketId) (hst : sc₁.st = sc.st)
    (hchanges : sc₁.changes = sc.changes) (hneed : sc₁.needHandle = sc.needHandle)
    (hentered : Entered K A w w' T e.1 sc₁ sc') (hhandles : Handles w w' e.1 sc₁ sc') :
    Scanned K A w w' T u st (l ++ [e]) sc' := by
  have hother : ∀ b, b ≠ e.1.bucketId → (Touched (l ++ [e]) b ↔ Touched l b) := by
    intro b hne
    rw [touched_append]
    exact or_iff_left (Ne.symm hne)
  have hcaches := hst ▸ hentered.caches
  refine ⟨hentered.mirrors, ?_, fun n hn ↦ ?_, fun b hb' hexp ht ↦ ?_, fun b info hinfo ↦ ?_, fun b hb' hor ↦ ?_,
    fun b hb' hn ↦ ?_, fun b ↦ ?_⟩
  · rw [hcaches.fields, h.fields]
  · rw [hcaches.other, h.main n hn]
    rw [Nat.div_eq_of_lt hn]
    rw [dataBucket_iff] at hb
    omega
  · by_cases hbe : b = e.1.bucketId
    · rw [hbe] at hexp ⊢
      exact hentered.root hexp
    · rw [hcaches.other, h.root b hb' hexp ((hother b hbe).mp ht)]
      rwa [nodeAt_bucket (hw.top hb').2.le (by positivity)]
  · by_cases hbe : b = e.1.bucketId
    · subst hbe
      exact ⟨hb, hentered.shapes info hinfo⟩
    · rw [hentered.changesOther b hbe, hchanges] at hinfo
      exact h.shapes b info hinfo
  · by_cases hbe : b = e.1.bucketId
    · subst hbe
      refine hentered.present ?_
      rcases hor with hmeta | ⟨hexp, -⟩
      · rw [hchanges]
        exact .inr (h.present _ hb (.inl hmeta))
      · exact .inl hexp
    · rw [hentered.changesOther b hbe, hchanges]
      exact h.present b hb' (hor.imp_right fun hor ↦ ⟨hor.1, (hother b hbe).mp hor.2⟩)
  · have hbe : b ≠ e.1.bucketId := fun hbe ↦ hn (touched_append.mpr (.inr hbe.symm))
    rw [hentered.changesOther b hbe, hchanges]
    exact h.untouched b hb' fun ht ↦ hn (touched_append.mpr (.inl ht))
  · rw [hhandles, hneed, h.needHandle, handled_append]
    refine or_congr Iff.rfl ⟨?_, ?_⟩
    · rintro ⟨rfl, hexp, hslot⟩
      exact ⟨hb, hexp, rfl, hslot⟩
    · rintro ⟨-, hexp, hbe, hslot⟩
      exact ⟨hbe.symm, hexp, hslot⟩

theorem Scanned.push (h : Scanned K A w w' T u st l sc) : Scanned K A w w' T u st l (sc.push e) := by
  unfold Scan.push
  split_ifs <;> exact ⟨h.1, h.2, h.3, h.4, h.5, h.6, h.7, h.8⟩

theorem enterBucket_sat (hK : K.EmptyDefaults) (hrec : Records u w w') (hw : Regular w) (hw' : Regular w')
    (hcapacity : ∀ b, isValidDataBucket b → metadataKey b ∉ u.data → KnowsCapacity A w st b)
    (he : e ∈ u.data.toList) (hsorted : ∀ f ∈ l, f.1.val < e.1.val) (h : Scanned K A w w' T u st l sc)
    (hcur : Current w w' l sc) (hdiv : Divided w w' l sc) :
    Sat (enterBucket K sc e.1) (fun _ ↦ A) fun sc' ↦
      Scanned K A w w' T u st (l ++ [e]) sc' ∧ Current w w' (l ++ [e]) sc' ∧ Divided w w' l sc' := by
  cases hk : e.1.isInMetaBucket with
  | true =>
    have hinvalid : ∀ b, isValidDataBucket b → e.1.bucketId = b → False := by
      rintro b hb rfl
      rw [not_meta_iff.mpr hb] at hk
      cases hk
    have hle : e.1.bucketId < numMetaBuckets := by simpa [SaltKey.isInMetaBucket] using hk
    rw [enterBucket, if_neg (fun hn ↦ absurd hle (not_lt.mpr hn.2))]
    refine Sat.ok ⟨h.skip (fun b hb hbe ↦ (hinvalid b hb hbe).elim) fun b hb _ hbe ↦ (hinvalid b hb hbe).elim, ?_, hdiv⟩
    cases hcur with
    | metadata keys last small =>
      exact .metadata (by simpa [or_imp, forall_and, hk] using keys) last small
    | data b touched valid le last expanded capacity =>
      obtain ⟨f, hf, rfl⟩ := touched
      have hmono := bucketId_mono (hsorted f hf)
      exact absurd (dataBucket_iff.mp valid).1 (not_le.mpr (hmono.trans_lt hle))
  | false =>
    have hb := not_meta_iff.mp hk
    have hslot := hrec.slot_lt hw hw' he hk
    have hle : ∀ f ∈ l ++ [e], f.1.bucketId ≤ e.1.bucketId := by
      intro f hf
      rcases List.mem_append.mp hf with hf | hf
      · exact bucketId_mono (hsorted f hf)
      · rw [List.mem_singleton.mp hf]
    by_cases hlast : sc.lastBucketId = e.1.bucketId
    · -- a further key of the same bucket
      rw [enterBucket, if_neg (fun hn ↦ hn.1 hlast)]
      cases hcur with
      | metadata keys last small =>
        have := e.1.bucketId_lt
        omega
      | data b touched valid _ last expanded capacity =>
        obtain rfl : b = e.1.bucketId := by rw [← last, hlast]
        refine Sat.ok ⟨h.skip (fun b _ hbe ↦ hbe ▸ touched) ?_,
          .data _ (touched_append.mpr (.inr rfl)) valid hle last expanded capacity, hdiv⟩
        rintro b hb' hexp rfl hreach
        obtain ⟨f, hf, hfb⟩ := touched
        exact ⟨hb', hexp, f, hf, hfb, (slotId_lt_of_lt (hsorted f hf) hfb).trans hreach⟩
    · have hfirst : ¬ Touched l e.1.bucketId := by
        rintro ⟨f, hf, hfb⟩
        cases hcur with
        | metadata keys last small =>
          have hdata := not_meta_iff.mpr (hfb ▸ hb : isValidDataBucket f.1.bucketId)
          rw [keys f hf] at hdata
          cases hdata
        | data b touched valid le last expanded capacity =>
          obtain ⟨g, hg, hgb⟩ := touched
          have h₁ := le f hf
          have h₂ := bucketId_mono (hsorted g hg)
          omega
      rw [enterBucket, if_pos ⟨hlast, (dataBucket_iff.mp hb).1⟩]
      have hchanges := h.untouched _ hb hfirst
      have hpost : ∀ sc', Entered K A w w' T e.1 { sc with lastBucketId := e.1.bucketId } sc' ∧
          Handles w w' e.1 { sc with lastBucketId := e.1.bucketId } sc' →
          Scanned K A w w' T u st (l ++ [e]) sc' ∧ Current w w' (l ++ [e]) sc' ∧ Divided w w' l sc' := by
        rintro sc' ⟨hentered, hhandles⟩
        refine ⟨h.enter { sc with lastBucketId := e.1.bucketId } hw hb rfl rfl rfl hentered hhandles,
          .data _ (touched_append.mpr (.inr rfl)) hb hle hentered.lastBucketId hentered.isExpanded
            hentered.curBucketCap, ?_, ?_⟩
        · rw [hentered.expansionKvs, hdiv.expansionKvs]
        · rw [hentered.nonExpansionKvs, hdiv.nonExpansionKvs]
      by_cases hmeta : metadataKey e.1.bucketId ∈ u.data
      · rw [if_pos hmeta] at hchanges
        simp only [hchanges]
        refine Sat.mono ?_ hpost
        exact enterChanged_sat hK hw hw' hb h.mirrors hslot hchanges
      · rw [if_neg hmeta] at hchanges
        simp only [hchanges]
        have hsame : capacityAt w e.1.bucketId = capacityAt w' e.1.bucketId := by
          rw [capacityAt, capacityAt, hrec.metaAt_eq hb hmeta]
        have hcap := hcapacity _ hb hmeta
        rw [← hsame, max_self] at hslot
        refine Sat.mono ?_ hpost
        refine enterUnchanged_sat hw hb h.mirrors hsame hslot ?_ hchanges
        change KnowsCapacity A w sc.st _
        rw [h.fields]
        exact hcap

/-- The loop over the updates divides the keys, finds the buckets to climb and caches their roots. -/
theorem scanUpdates_sat (hK : K.EmptyDefaults) (hrec : Records u w w') (hw : Regular w) (hw' : Regular w')
    (hcapacity : ∀ b, isValidDataBucket b → metadataKey b ∉ u.data → KnowsCapacity A w st b)
    (hst : Mirrors K A w T st) {changes : ExtTreeMap ℕ SubtrieChangeInfo}
    (hchanges : ∀ b info, changes[b]? = some info ↔
      isValidDataBucket b ∧ metadataKey b ∈ u.data ∧ info = changeShape w w' b) :
    Sat (scanUpdates K st changes u) (fun _ ↦ A) fun sc ↦
      Scanned K A w w' T u st u.data.toList sc ∧ Divided w w' u.data.toList sc := by
  refine (Sat.foldlM (fun l sc ↦ Scanned K A w w' T u st l sc ∧ Current w w' l sc ∧ Divided w w' l sc) _ _
    ⟨⟨hst, rfl, fun _ _ ↦ rfl, ?_, ?_, ?_, ?_, ?_⟩, .metadata (by simp) rfl rfl, ⟨rfl, rfl⟩⟩ ?_).mono
      fun sc h ↦ ⟨h.1, h.2.2⟩
  · rintro b - - ⟨e, he, -⟩
    cases he
  · rintro b info hinfo
    obtain ⟨hb, -, rfl⟩ := (hchanges b info).mp hinfo
    exact ⟨hb, shapes_changeShape⟩
  · rintro b hb (hmeta | ⟨-, e, he, -⟩)
    · rw [(hchanges b _).mpr ⟨hb, hmeta, rfl⟩]
      exact Option.some_ne_none _
    · cases he
  · rintro b hb -
    by_cases hmeta : metadataKey b ∈ u.data
    · rw [if_pos hmeta]
      exact (hchanges b _).mpr ⟨hb, hmeta, rfl⟩
    · rw [if_neg hmeta, Option.eq_none_iff_forall_ne_some]
      exact fun info hinfo ↦ hmeta ((hchanges b info).mp hinfo).2.1
  · intro b
    refine ⟨fun h ↦ by simp at h, ?_⟩
    rintro ⟨-, -, e, he, -⟩
    cases he
  · rintro l e rest hsplit sc ⟨h, hcur, hdiv⟩
    have he : e ∈ u.data.toList := by rw [hsplit]; simp
    have hsorted : ∀ f ∈ l, f.1.val < e.1.val := by
      have hpair := hsplit ▸ StateUpdates.sorted_keys u.data
      exact fun f hf ↦ (List.pairwise_append.mp hpair).2.2 f hf e (by simp)
    have hslot := fun hk ↦ hrec.slot_lt hw hw' he hk
    rw [scanKey]
    refine (enterBucket_sat hK hrec hw hw' hcapacity he hsorted h hcur hdiv).bind fun sc' ⟨h', hcur', hdiv'⟩ ↦
      Sat.ok ⟨h'.push, hcur'.push, ?_⟩
    obtain ⟨hexp, hin⟩ := hcur'.sees hsorted hslot
    exact hdiv'.push hexp hin

end Loop

end Salt.StateRoot
