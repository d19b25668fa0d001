import Salt.Trie.Planning

namespace Salt.StateRoot

open Std (ExtTreeMap ExtTreeSet)
open Library.Triple Library.ChangeList

variable {F C : Type} [CommRing F] [AddCommGroup C] [Module F C] {K : Committer F C} {A : Prop}
  {w w' : SaltKey → Option SaltValue} {T : ℕ → ℕ → Prop} {st : StateRoot C} {u : StateUpdates} {p : Plan C}
  {l : List StateChange} {b m n y : ℕ}

section Active

def InClimb (w w' : SaltKey → Option SaltValue) (l : List StateChange) (m b y : ℕ) : Prop :=
  Active w w' l b ∧ topLevel w' b ≤ m ∧ y < nodesAt (capacityAt w' b) m

theorem Active.valid (h : Active w w' l b) : isValidDataBucket b := h.elim And.left And.left

theorem Active.expanded (h : Active w w' l b) : Expanded w w' b := by
  rcases h with ⟨-, hexp, -⟩ | ⟨-, hlt⟩
  · exact hexp
  · exact fun h ↦ hlt.ne (topLevel_eq_of_capacity h.1).symm

theorem Active.handled (h : Active w w' l b) (hle : topLevel w b ≤ topLevel w' b) : Handled w w' l b :=
  h.resolve_right fun hgrow ↦ absurd hgrow.2 (not_lt.mpr hle)

theorem InClimb.lt_pow (hw' : Regular w') (hm : m ≤ 4) (h : InClimb w w' l m b y) : y < 256 ^ m := by
  refine h.2.2.trans_le ((nodesAt_le_pow (hw'.top h.1.valid).2 hm).trans ?_)
  exact Nat.pow_le_pow_right (by norm_num) (Nat.sub_le ..)

theorem inClimb_div : InClimb w w' l m b (y / 256) ↔ Active w w' l b ∧ Climbs w' b (m + 1) y := by
  rw [InClimb, Climbs, Nat.add_sub_cancel, Nat.lt_succ_iff]

theorem InClimb.climbs (hm : m ≤ 4) (hlt : topLevel w' b < m) (h : InClimb w w' l m b y) : Climbs w' b m y := by
  refine ⟨hlt, ?_⟩
  have hup : m - 1 + 1 = m := by omega
  rw [← divCeil_nodesAt (show m - 1 ≤ 4 by omega), hup, lt_divCeil_iff (by norm_num)]
  have := h.2.2
  omega

end Active

section Raw

def bucketOf (nodeId : ℕ) : ℕ := nodeId / 2 ^ 40

theorem bucketOf_nodeAt (hm : m ≤ 4) (hy : y < 256 ^ m) : bucketOf (nodeAt b m y) = b := nodeAt_bucket hm hy

/-- The value before the update that a node of a level has while the levels are climbed: above the old root the tree
is empty. -/
def rawBefore (K : Committer F C) (w : SaltKey → Option SaltValue) (m n : ℕ) : C :=
  if topLevel w (bucketOf n) ≤ m then K.bucketNode w (bucketOf n) m (relativePosition n) else K.defaults.subtree m

def rawAfter (K : Committer F C) (w' : SaltKey → Option SaltValue) (m n : ℕ) : C :=
  K.bucketNode w' (bucketOf n) m (relativePosition n)

theorem rawBefore_nodeAt (hm : m ≤ 4) (hy : y < 256 ^ m) : rawBefore K w m (nodeAt b m y) =
    if topLevel w b ≤ m then K.bucketNode w b m y else K.defaults.subtree m := by
  rw [rawBefore, bucketOf_nodeAt hm hy, nodeAt_relativePosition hm hy]

theorem rawAfter_nodeAt (hm : m ≤ 4) (hy : y < 256 ^ m) :
    rawAfter K w' m (nodeAt b m y) = K.bucketNode w' b m y := by
  rw [rawAfter, bucketOf_nodeAt hm hy, nodeAt_relativePosition hm hy]

theorem rawBefore_eq_trieOf (hK : K.EmptyDefaults) (hw : Regular w) (hb : isValidDataBucket b) (hm : m ≤ 4)
    (hy : y < 256 ^ m) (h : m = topLevel w b → y ≠ 0) :
    rawBefore K w m (nodeAt b m y) = K.trieOf w (nodeAt b m y) := by
  rw [rawBefore_nodeAt hm hy, Committer.trieOf_subtree hb hm hy, Committer.subtreeNode]
  rcases lt_trichotomy (topLevel w b) m with hlt | heq | hgt
  · rw [if_pos hlt.le, if_pos hlt]
  · rw [if_pos heq.le, if_neg heq.not_lt]
    refine hw.bucketNode_dropped hK hb hm ?_
    rw [nodesAt_top (hw.top hb).2 (hw.aligned b hb).pos heq.ge]
    exact Nat.one_le_iff_ne_zero.mpr (h heq.symm)
  · rw [if_neg (not_le.mpr hgt), if_neg (lt_asymm hgt)]

theorem rawAfter_eq_trieOf (hb : isValidDataBucket b) (hm : m ≤ 4) (hy : y < 256 ^ m) (h : topLevel w' b < m) :
    rawAfter K w' m (nodeAt b m y) = K.trieOf w' (nodeAt b m y) := by
  rw [rawAfter_nodeAt hm hy, Committer.trieOf_subtree hb hm hy, Committer.subtreeNode_below h]

/-- The changes on a level before the roots are taken out. For buckets whose root moves it matters which nodes are
listed, since their value before the update is not the stored one. A bucket that keeps its capacity lists a node on
every level. -/
structure Raw (K : Committer F C) (w w' : SaltKey → Option SaltValue) (l : List StateChange) (p : Plan C) (m : ℕ)
    (r : TrieUpdates C) : Prop where
  lists : Lists (At (InClimb w w' l m) m) (rawBefore K w m) (rawAfter K w' m) r
  above : ∀ b, Active w w' l b → topLevel w' b ≤ m → m < topLevel w b → nodeAt b m 0 ∈ r.map Prod.fst
  below : ∀ b, Active w w' l b → topLevel w' b < topLevel w b → topLevel w b ≤ m →
    (Handled w w' l b ↔ ∃ y < 256 ^ (m - topLevel w b), nodeAt b m y ∈ r.map Prod.fst)
  shrunk : ∀ b, Active w w' l b → topLevel w b < topLevel w' b → topLevel w' b ≤ m →
    (∃ y, nodeAt b m y ∈ r.map Prod.fst ∧ y < 256 ^ m) ∨
      ∃ k ≤ m, topLevel w' b < k ∧ ∃ x < 256 ^ k, nodeAt b k x ∈ (p.extra k).map Prod.fst
  steady : ∀ b, Active w w' l b → capacityAt w b = capacityAt w' b → topLevel w' b ≤ m →
    ∃ y < 256 ^ m, nodeAt b m y ∈ r.map Prod.fst

end Raw

section Redirecting

variable {r : TrieUpdates C}

def moved (K : Committer F C) (w w' : SaltKey → Option SaltValue) (m : ℕ) (e : NodeChange C) :
    NodeChange C ⊕ NodeChange C :=
  if topLevel w' (bucketOf e.1) = m then
    .inr (nodeAt 0 3 (bucketOf e.1), K.trieOf w (nodeAt 0 3 (bucketOf e.1)), K.trieOf w' (nodeAt 0 3 (bucketOf e.1)))
  else .inl (e.1, K.trieOf w e.1, K.trieOf w' e.1)

theorem redirect_sat (hK : K.EmptyDefaults) (hw : Regular w) (hw' : Regular w') (hst : Mirrors K A w T st)
    (hp : Planned K w w' l (fun _ ↦ True) p) (hm : m ≤ 4) (hr : Raw K w w' l p m r) {e : NodeChange C} (he : e ∈ r) :
    Sat (redirect K st m (p.triggers m) e) (fun _ ↦ A) (· = moved K w w' m e) := by
  obtain ⟨⟨b, y, hin, hn⟩, hv⟩ := hr.lists.mem e he
  obtain ⟨n, v⟩ := e
  simp only at hn hv
  subst hn hv
  have hb := hin.1.valid
  have hy := hin.lt_pow hw' hm
  have hlt : b < 256 ^ 3 := dataBucket_lt hb
  have hbucket : nodeAt b m y / 2 ^ bucketSlotBits = b := nodeAt_bucket hm hy
  have hbucket' : bucketOf (nodeAt b m y) = b := bucketOf_nodeAt hm hy
  simp only [redirect, moved, hbucket, hbucket']
  cases htrigger : (p.triggers m)[b]? with
  | none =>
    have hnot : ¬ AtTop w w' b m := fun hat ↦ hp.triggered m b trivial hin.1 hat htrigger
    have hne : topLevel w' b ≠ m := fun heq ↦ hnot (.inl heq)
    have hbelow : topLevel w' b < m := lt_of_le_of_ne hin.2.1 hne
    rw [if_neg hne, rawBefore_eq_trieOf hK hw hb hm hy, rawAfter_eq_trieOf hb hm hy hbelow]
    · exact Sat.ok rfl
    · intro heq
      exact absurd (.inr ⟨heq.symm, heq ▸ hbelow⟩) hnot
  | some info =>
    obtain ⟨hinfo, -, hat⟩ := hp.trigger m b info htrigger
    simp only [hinfo.newTopLevel, hinfo.newTopId, hinfo.rootId, hinfo.oldTopId]
    by_cases hnew : topLevel w' b = m
    · have hy0 : y = 0 := by
        have hone := hin.2.2
        rw [nodesAt_top (hw'.top hb).2 (hw'.aligned b hb).pos hnew.ge] at hone
        omega
      subst hnew hy0
      rw [if_pos rfl, if_pos rfl, if_pos rfl]
      refine (expectOk_sat (hst.root b hlt)).bind fun c hc ↦ Sat.ok ?_
      rw [hc, Committer.trieOf_main le_rfl hlt, Committer.trieOf_main le_rfl hlt, rawAfter_nodeAt hm hy,
        Committer.mainNode_bucket (w := w')]
    · have hold := hat.resolve_left hnew
      have hdefault : asFault (defaultCommitment K.defaults (nodeAt b (topLevel w b) 0)) =
          .ok (K.defaults.subtree (topLevel w b)) := by
        rw [defaultCommitment_data hb (hw.top hb).2.le (by positivity)]
        rfl
      have hbelow : topLevel w' b < m := hold.1 ▸ hold.2
      have hstored : K.trieOf w (nodeAt b m y) = K.defaults.subtree m := by
        rw [Committer.trieOf_subtree hb hm hy, Committer.subtreeNode_unused hold.1.ge]
      rw [if_neg hnew, if_neg hnew, hdefault, ok_bind, rawAfter_eq_trieOf hb hm hy hbelow, hstored, hold.1]
      exact Sat.ok rfl

def kept (K : Committer F C) (w w' : SaltKey → Option SaltValue) (m : ℕ) (r : TrieUpdates C) : TrieUpdates C :=
  (r.map (moved K w w' m)).filterMap Sum.getLeft?

def roots (K : Committer F C) (w w' : SaltKey → Option SaltValue) (m : ℕ) (r : TrieUpdates C) : TrieUpdates C :=
  (r.map (moved K w w' m)).filterMap Sum.getRight?

theorem redirectLevel_sat (hK : K.EmptyDefaults) (hw : Regular w) (hw' : Regular w') (hst : Mirrors K A w T st)
    (hp : Planned K w w' l (fun _ ↦ True) p) (hm : m ≤ 4) (hr : Raw K w w' l p m r) :
    Sat (redirectLevel K st m (p.triggers m) r) (fun _ ↦ A) (· = (kept K w w' m r, roots K w w' m r)) := by
  have hmoved : ∀ e ∈ r, Sat (redirect K st m (p.triggers m) e) (fun _ ↦ A) (· = moved K w w' m e) :=
    fun e he ↦ redirect_sat hK hw hw' hst hp hm hr he
  rw [redirectLevel]
  by_cases hempty : (p.triggers m).isEmpty = true
  · rw [if_pos hempty]
    have hsame : r.map (moved K w w' m) = r.map Sum.inl := by
      refine List.map_congr_left fun e he ↦ ?_
      have hnone : (p.triggers m)[e.1 / 2 ^ bucketSlotBits]? = none := by
        rw [ExtTreeMap.isEmpty_iff.mp hempty]
        exact ExtTreeMap.getElem?_empty
      have hinl : redirect K st m (p.triggers m) e = .ok (.inl e) := by
        rw [redirect, hnone]
      have hsat := hmoved e he
      rw [hinl] at hsat
      exact hsat.symm
    refine Sat.ok ?_
    rw [kept, roots, hsame, List.filterMap_map, List.filterMap_map]
    simp [Function.comp_def]
  · rw [if_neg hempty]
    exact (Sat.mapM r hmoved).bind fun l hl ↦ Sat.ok (by rw [hl]; rfl)

theorem mem_kept {e : NodeChange C} : e ∈ kept K w w' m r ↔
    ∃ f ∈ r, topLevel w' (bucketOf f.1) ≠ m ∧ e = (f.1, K.trieOf w f.1, K.trieOf w' f.1) := by
  rw [kept, List.filterMap_map, List.mem_filterMap]
  refine exists_congr fun f ↦ and_congr_right fun _ ↦ ?_
  rw [Function.comp_apply, moved]
  by_cases hm : topLevel w' (bucketOf f.1) = m
  · simp [hm]
  · rw [if_neg hm, Sum.getLeft?_inl, Option.some.injEq, eq_comm]
    exact (and_iff_right hm).symm

theorem mem_roots {e : NodeChange C} : e ∈ roots K w w' m r ↔
    ∃ f ∈ r, topLevel w' (bucketOf f.1) = m ∧ e = (nodeAt 0 3 (bucketOf f.1), K.trieOf w (nodeAt 0 3 (bucketOf f.1)),
      K.trieOf w' (nodeAt 0 3 (bucketOf f.1))) := by
  rw [roots, List.filterMap_map, List.mem_filterMap]
  refine exists_congr fun f ↦ and_congr_right fun _ ↦ ?_
  rw [Function.comp_apply, moved]
  by_cases hm : topLevel w' (bucketOf f.1) = m
  · rw [if_pos hm, Sum.getRight?_inr, Option.some.injEq, eq_comm]
    exact (and_iff_right hm).symm
  · simp [hm]

theorem map_fst_kept : (kept K w w' m r).map Prod.fst =
    (r.map Prod.fst).filter fun n ↦ topLevel w' (bucketOf n) ≠ m := by
  induction r with
  | nil => rfl
  | cons e r ih =>
    simp only [kept, List.map_cons, List.filterMap_cons, List.filter_cons] at ih ⊢
    by_cases hm : topLevel w' (bucketOf e.1) = m
    · simpa [moved, hm] using ih
    · simpa [moved, hm] using ih

theorem map_fst_roots : (roots K w w' m r).map Prod.fst =
    ((r.map Prod.fst).filter fun n ↦ topLevel w' (bucketOf n) = m).map fun n ↦ nodeAt 0 3 (bucketOf n) := by
  induction r with
  | nil => rfl
  | cons e r ih =>
    simp only [roots, List.map_cons, List.filterMap_cons, List.filter_cons] at ih ⊢
    by_cases hm : topLevel w' (bucketOf e.1) = m
    · simpa [moved, hm] using ih
    · simpa [moved, hm] using ih

def Enters (w w' : SaltKey → Option SaltValue) (l : List StateChange) (m b y : ℕ) : Prop :=
  y = 0 ∧ m = topLevel w b ∧ topLevel w' b < topLevel w b ∧ ¬ Handled w w' l b

theorem kept_lists (hK : K.EmptyDefaults) (hw : Regular w) (hw' : Regular w') (hm : m ≤ 4) (hr : Raw K w w' l p m r) :
    Lists (At (fun b y ↦ InClimb w w' l m b y ∧ topLevel w' b < m ∧ ¬ Enters w w' l m b y) m) (K.trieOf w) (K.trieOf w')
      (kept K w w' m r) where
  nodup := by
    rw [map_fst_kept]
    exact hr.lists.nodup.filter _
  mem e he := by
    obtain ⟨f, hf, hne, rfl⟩ := mem_kept.mp he
    obtain ⟨⟨b, y, hin, hn⟩, -⟩ := hr.lists.mem f hf
    have hy := hin.lt_pow hw' hm
    rw [hn, bucketOf_nodeAt hm hy] at hne
    refine ⟨⟨b, y, ⟨hin, lt_of_le_of_ne hin.2.1 hne, ?_⟩, hn⟩, rfl⟩
    rintro ⟨rfl, rfl, hlt, hnot⟩
    refine hnot ((hr.below b hin.1 hlt le_rfl).mpr ⟨0, by positivity, ?_⟩)
    rw [← hn]
    exact List.mem_map_of_mem hf
  cover n hn hne := by
    obtain ⟨b, y, ⟨hin, hlt, henter⟩, rfl⟩ := hn
    have hb := hin.1.valid
    have hy := hin.lt_pow hw' hm
    have hmem : nodeAt b m y ∈ r.map Prod.fst := by
      by_cases hroot : m = topLevel w b ∧ y = 0
      · -- the old root, which is listed when the bucket is handled
        obtain ⟨rfl, rfl⟩ := hroot
        have hH : Handled w w' l b := by
          by_contra hnot
          exact henter ⟨rfl, rfl, hlt, hnot⟩
        obtain ⟨y', hy', hmem⟩ := (hr.below b hin.1 hlt le_rfl).mp hH
        rw [Nat.sub_self, Nat.pow_zero, Nat.lt_one_iff] at hy'
        rwa [hy'] at hmem
      · refine hr.lists.cover _ ⟨b, y, hin, rfl⟩ ?_
        rwa [rawBefore_eq_trieOf hK hw hb hm hy fun heq hy0 ↦ hroot ⟨heq, hy0⟩, rawAfter_eq_trieOf hb hm hy hlt]
    rw [map_fst_kept, List.mem_filter]
    refine ⟨hmem, ?_⟩
    rw [bucketOf_nodeAt hm hy]
    exact decide_eq_true hlt.ne

def RootsAt (w w' : SaltKey → Option SaltValue) (l : List StateChange) (m n : ℕ) : Prop :=
  ∃ b, n = nodeAt 0 3 b ∧ Active w w' l b ∧ topLevel w' b = m

theorem InClimb.eq_zero (hw' : Regular w') (h : InClimb w w' l m b y) (hm : topLevel w' b = m) : y = 0 := by
  have hb := h.1.valid
  have hone := h.2.2
  rw [nodesAt_top (hw'.top hb).2 (hw'.aligned b hb).pos hm.ge] at hone
  omega

theorem roots_lists (hw' : Regular w') (hm : m ≤ 4) (hr : Raw K w w' l p m r) :
    Lists (RootsAt w w' l m) (K.trieOf w) (K.trieOf w') (roots K w w' m r) where
  nodup := by
    rw [map_fst_roots]
    refine List.Nodup.map_on (fun n hn n' hn' heq ↦ ?_) (hr.lists.nodup.filter _)
    have hroot : ∀ n ∈ (r.map Prod.fst).filter (fun n ↦ decide (topLevel w' (bucketOf n) = m)),
        n = nodeAt (bucketOf n) m 0 ∧ bucketOf n < 256 ^ 3 := by
      intro n hn
      obtain ⟨hmem, htop⟩ := List.mem_filter.mp hn
      obtain ⟨b, y, hin, rfl⟩ := hr.lists.domain hmem
      rw [bucketOf_nodeAt hm (hin.lt_pow hw' hm)] at htop ⊢
      rw [hin.eq_zero hw' (of_decide_eq_true htop)]
      exact ⟨rfl, dataBucket_lt hin.1.valid⟩
    obtain ⟨-, -, hbucket⟩ := (nodeAt_inj (by norm_num) (hroot n hn).2 (by norm_num) (hroot n' hn').2).mp heq
    rw [(hroot n hn).1, (hroot n' hn').1, hbucket]
  mem e he := by
    obtain ⟨f, hf, htop, rfl⟩ := mem_roots.mp he
    obtain ⟨⟨b, y, hin, hn⟩, -⟩ := hr.lists.mem f hf
    rw [hn, bucketOf_nodeAt hm (hin.lt_pow hw' hm)] at htop ⊢
    exact ⟨⟨b, rfl, hin.1, htop⟩, rfl⟩
  cover n hn hne := by
    obtain ⟨b, rfl, hactive, htop⟩ := hn
    have hb := hactive.valid
    have hpos : 0 < 256 ^ m := by positivity
    have hlt : b < 256 ^ 3 := dataBucket_lt hb
    rw [Committer.trieOf_main le_rfl hlt, Committer.trieOf_main le_rfl hlt, Committer.mainNode_bucket,
      Committer.mainNode_bucket] at hne
    have hin : InClimb w w' l m b 0 := by
      refine ⟨hactive, htop.le, ?_⟩
      rw [nodesAt_top (hw'.top hb).2 (hw'.aligned b hb).pos htop.ge]
      exact Nat.one_pos
    have hmem : nodeAt b m 0 ∈ r.map Prod.fst := by
      rcases lt_trichotomy (topLevel w b) m with hlt | heq | hgt
      · rcases hr.shrunk b hactive (hlt.trans_eq htop.symm) htop.le with ⟨y, hmem, hy⟩ | ⟨k, hk, hkt, -⟩
        · obtain ⟨b', y', hin', hn'⟩ := hr.lists.domain hmem
          obtain ⟨rfl, -, rfl⟩ := (nodeAt_inj hm hy hm (hin'.lt_pow hw' hm)).mp hn'
          rwa [hin'.eq_zero hw' htop] at hmem
        · omega
      · refine hr.lists.cover _ ⟨b, 0, hin, rfl⟩ ?_
        rw [rawBefore_nodeAt hm hpos, if_pos heq.le, rawAfter_nodeAt hm hpos]
        rwa [heq, htop] at hne
      · exact hr.above b hactive htop.le hgt
    rw [map_fst_roots]
    refine List.mem_map.mpr ⟨nodeAt b m 0, List.mem_filter.mpr ⟨hmem, ?_⟩, ?_⟩
    · rw [bucketOf_nodeAt hm hpos]
      exact decide_eq_true htop
    · rw [bucketOf_nodeAt hm hpos]

def InLevel (w w' : SaltKey → Option SaltValue) (l : List StateChange) (m b x : ℕ) : Prop :=
  Active w w' l b ∧ Climbs w' b m x

theorem InLevel.lt_pow (hw' : Regular w') (hm : m ≤ 4) (h : InLevel w w' l m b y) : y < 256 ^ m :=
  h.2.lt_pow hw' h.1.valid hm

/-- With the planned changes a level is complete. -/
theorem level_lists (hK : K.EmptyDefaults) (hw : Regular w) (hw' : Regular w')
    (hp : Planned K w w' l (fun _ ↦ True) p) (hm : m ≤ 4) (hr : Raw K w w' l p m r) :
    Lists (At (InLevel w w' l m) m) (K.trieOf w) (K.trieOf w') (kept K w w' m r ++ p.extra m) := by
  refine ((kept_lists hK hw hw' hm hr).append (hp.extra m) ?_).extend ?_ ?_
  · rintro n ⟨b, y, ⟨hin, hlt, henter⟩, hn⟩ ⟨b', x, hn', hb', -, hor⟩
    have hy := hin.lt_pow hw' hm
    have hx : x < 256 ^ m := by
      rcases hor with ⟨hd, -⟩ | ⟨-, rfl, -⟩
      · exact hd.lt_pow hw hb' hm
      · positivity
    obtain ⟨rfl, -, rfl⟩ := (nodeAt_inj hm hy hm hx).mp (hn.symm.trans hn')
    rcases hor with ⟨hd, -⟩ | ⟨-, hrest⟩
    · exact hd.2.2 ⟨hlt, hin.2.2⟩
    · exact henter hrest
  · rintro n (⟨b, y, ⟨hin, hlt, -⟩, hn⟩ | ⟨b, x, hn, hb, -, ⟨-, hc, hH⟩ | ⟨-, rfl, rfl, hlt, -⟩⟩)
    · exact ⟨b, y, ⟨hin.1, hin.climbs hm hlt⟩, hn⟩
    · exact ⟨b, x, ⟨.inl hH, hc⟩, hn⟩
    · refine ⟨b, 0, ⟨.inr ⟨hb, hlt⟩, hlt, ?_⟩, hn⟩
      rw [Nat.zero_div, nodesAt, lt_divCeil_iff (by positivity), Nat.mul_zero]
      exact (hw'.aligned b hb).pos
  · rintro n ⟨b, x, hin, rfl⟩ hn
    have hb := hin.1.valid
    have hx := hin.lt_pow hw' hm
    obtain ⟨hlt, -⟩ := hin.2
    -- what is left lies beyond the new capacity, and beyond the old one or above the old root
    have hbeyond : nodesAt (capacityAt w' b) m ≤ x := by
      by_contra hlt'
      have hclimb : InClimb w w' l m b x := ⟨hin.1, hlt.le, not_le.mp hlt'⟩
      by_cases henter : Enters w w' l m b x
      · exact hn (.inr ⟨b, x, rfl, hb, hm, .inr ⟨trivial, henter⟩⟩)
      · exact hn (.inl ⟨b, x, ⟨hclimb, hlt, henter⟩, rfl⟩)
    have hunused : topLevel w b < m → nodesAt (capacityAt w b) m ≤ x := by
      intro htop
      by_contra hlt'
      have hd : Dropped w w' b m x := ⟨htop, not_le.mp hlt', fun h ↦ absurd h.2 (not_lt.mpr hbeyond)⟩
      have hcontracts := hd.contracts hw hw' hb
      have hH := hin.1.handled (hw'.topLevel_antitone hw hb hcontracts.le)
      exact hn (.inr ⟨b, x, rfl, hb, hm, .inl ⟨hd, hin.2, hH⟩⟩)
    rw [Committer.trieOf_subtree hb hm hx, Committer.trieOf_subtree hb hm hx, hw'.subtreeNode_dropped hK hb hm hbeyond]
    by_cases htop : topLevel w b < m
    · exact hw.subtreeNode_dropped hK hb hm (hunused htop)
    · exact Committer.subtreeNode_unused (not_lt.mp htop)

end Redirecting

section Step

variable {r : TrieUpdates C} {threads : ℕ}

theorem child_lt {i : ℕ} (hy : y < 256 ^ m) (hi : i < 256) : y * 256 + i < 256 ^ (m + 1) := by
  rw [← div_lt_pow_iff]
  omega

/-- The stored children of a node give the value it has while the levels are climbed. -/
theorem vec_before (hK : K.EmptyDefaults) (hb : isValidDataBucket b) (hm : m < 4) (hy : y < 256 ^ m) :
    vec 256 K.gen (fun i ↦ K.hash (K.trieOf w (getChildNode (nodeAt b m y) i))) = rawBefore K w m (nodeAt b m y) := by
  rw [rawBefore_nodeAt hm.le hy]
  by_cases htop : topLevel w b ≤ m
  · rw [if_pos htop, Committer.bucketNode_inner hm]
    refine vec_congr fun i hi ↦ ?_
    rw [getChildNode_nodeAt hm hy, Committer.trieOf_subtree hb hm (child_lt hy hi),
      Committer.subtreeNode_below (Nat.lt_succ_of_le htop), Nat.mul_comm y]
  · rw [if_neg htop, hK.subtree_inner hm]
    refine vec_congr fun i hi ↦ ?_
    rw [getChildNode_nodeAt hm hy, Committer.trieOf_subtree hb hm (child_lt hy hi),
      Committer.subtreeNode_unused (Nat.succ_le_of_lt (not_le.mp htop))]

theorem vec_after (hb : isValidDataBucket b) (hm : m < 4) (hy : y < 256 ^ m) (htop : topLevel w' b ≤ m) :
    vec 256 K.gen (fun i ↦ K.hash (K.trieOf w' (getChildNode (nodeAt b m y) i))) = rawAfter K w' m (nodeAt b m y) := by
  rw [rawAfter_nodeAt hm.le hy, Committer.bucketNode_inner hm]
  refine vec_congr fun i hi ↦ ?_
  rw [getChildNode_nodeAt hm hy, Committer.trieOf_subtree hb hm (child_lt hy hi),
    Committer.subtreeNode_below (Nat.lt_succ_of_le htop), Nat.mul_comm y]

/-- Former roots that the cache may still hold lie above both roots. -/
def Stale (w w' : SaltKey → Option SaltValue) (T : ℕ → ℕ → Prop) : Prop :=
  ∀ b l, T b l → l < topLevel w b ∧ l < topLevel w' b

/-- The engine reads the value of a climbing node; the old root itself must have been cached. -/
theorem knows_rawBefore (hK : K.EmptyDefaults) (hw : Regular w) (hw' : Regular w') (hst : Mirrors K A w T st)
    (hT : Stale w w' T) (hm : m ≤ 4) (hin : InClimb w w' l m b y)
    (hroot : m = topLevel w b → y = 0 → st.commitment (nodeAt b m 0) = .ok (K.mainNode w 3 b)) :
    Knows A st (nodeAt b m y) (rawBefore K w m (nodeAt b m y)) := by
  have hb := hin.1.valid
  have hy := hin.lt_pow hw' hm
  by_cases htop : m = topLevel w b ∧ y = 0
  · obtain ⟨htop, rfl⟩ := htop
    rw [Knows, hroot htop rfl, rawBefore_nodeAt hm hy, if_pos htop.ge, Committer.mainNode_bucket, htop]
    exact Sat.ok rfl
  · rw [rawBefore_eq_trieOf hK hw hb hm hy fun heq hy0 ↦ htop ⟨heq, hy0⟩, Committer.trieOf_subtree hb hm hy]
    refine hst.node b m y hb hm hy ?_
    rintro ⟨hy0, heq | hstale⟩
    · exact htop ⟨heq, hy0⟩
    · exact absurd hin.2.1 (not_le.mpr (hT b m hstale).2)

theorem nodeAt_lt (hb : b < 2 ^ 24) (hm : m ≤ 4) (hy : y < 256 ^ m) : nodeAt b m y < 2 ^ 64 - 1 := by
  have := local_lt hm hy
  rw [nodeAt]
  omega

theorem mem_level (hm : m ≤ 4) (hy : y < 256 ^ m) (hne : topLevel w' b ≠ m) :
    nodeAt b m y ∈ (kept K w w' m r ++ p.extra m).map Prod.fst ↔
      nodeAt b m y ∈ r.map Prod.fst ∨ nodeAt b m y ∈ (p.extra m).map Prod.fst := by
  rw [List.map_append, List.mem_append, map_fst_kept, List.mem_filter, bucketOf_nodeAt hm hy]
  exact or_congr (and_iff_left (decide_eq_true hne)) Iff.rfl

theorem extra_domain (hw : Regular w) (hp : Planned K w w' l (fun _ ↦ True) p) (hm : m ≤ 4) (hy : y < 256 ^ m)
    (h : nodeAt b m y ∈ (p.extra m).map Prod.fst) : Handled w w' l b ∨ Enters w w' l m b y := by
  obtain ⟨b', x, hn, hb', -, hor⟩ := (hp.extra m).domain h
  have hx : x < 256 ^ m := by
    rcases hor with ⟨hd, -⟩ | ⟨-, rfl, -⟩
    · exact hd.lt_pow hw hb' hm
    · positivity
  obtain ⟨rfl, -, rfl⟩ := (nodeAt_inj hm hy hm hx).mp hn
  exact hor.imp (fun h ↦ h.2.2) fun h ↦ h.2

theorem raw_step (hK : K.EmptyDefaults) (hw : Regular w) (hw' : Regular w') (hmin : 1 ≤ st.minParBatchSize)
    (hst : Mirrors K A w T st) (hT : Stale w w' T)
    (hroot : ∀ b, Handled w w' l b → st.commitment (nodeAt b (topLevel w b) 0) = .ok (K.mainNode w 3 b))
    (hp : Planned K w w' l (fun _ ↦ True) p) (hm : m < 4) (hr : Raw K w w' l p (m + 1) r) :
    Sat (st.updateInternalNodes K threads (kept K w w' (m + 1) r ++ p.extra (m + 1))) (fun _ ↦ A)
    (Raw K w w' l p m) := by
  have hm' : m + 1 ≤ 4 := hm
  have hbound : ∀ b y, InClimb w w' l m b y → y < 256 ^ m := fun b y h ↦ h.lt_pow hw' hm.le
  set cs := kept K w w' (m + 1) r ++ p.extra (m + 1) with hcs
  have hlevel : Lists (At (fun b x ↦ InClimb w w' l m b (x / 256)) (m + 1)) (K.trieOf w) (K.trieOf w') cs :=
    (level_lists hK hw hw' hp hm' hr).congr
      (fun n ↦ exists_congr fun b ↦ exists_congr fun x ↦ and_congr_left fun _ ↦ inClimb_div.symm) (fun _ _ ↦ rfl)
      fun _ _ ↦ rfl
  have hchild : ∀ k, At (fun b x ↦ InClimb w w' l m b (x / 256)) (m + 1) k → ∃ b x, k = nodeAt b (m + 1) x ∧
      InClimb w w' l m b (x / 256) ∧ x < 256 ^ (m + 1) := by
    rintro k ⟨b, x, hin, rfl⟩
    exact ⟨b, x, rfl, hin, div_lt_pow_iff.mp (hbound b _ hin)⟩
  refine (updateInternalNodes_sat (A := A) hmin hlevel (children_at hm hbound) ?_ ?_ ?_).mono ?_
  · intro k hk
    obtain ⟨b, x, rfl, -, hx⟩ := hchild k hk
    rw [getParentNode_nodeAt hm hx, parentOf_nodeAt hm hx]
  · rintro n ⟨b, y, hin, rfl⟩
    exact nodeAt_lt (dataBucket_lt hin.1.valid) hm.le (hbound b y hin)
  · intro k hk
    obtain ⟨b, x, rfl, hin, hx⟩ := hchild k (hlevel.domain hk)
    have hy := hbound b _ hin
    rw [parentOf_nodeAt hm hx, vec_before hK hin.1.valid hm hy]
    refine knows_rawBefore hK hw hw' hst hT hm.le hin fun htop hy0 ↦ ?_
    rw [htop]
    refine hroot b (hin.1.elim id fun ⟨_, hlt⟩ ↦ ?_)
    rcases (mem_level hm' hx (by omega)).mp hk with hmem | hmem
    · refine (hr.below b hin.1 hlt (by omega)).mpr ⟨x, ?_, hmem⟩
      rw [← htop, Nat.add_sub_cancel_left, pow_one]
      omega
    · exact (extra_domain hw hp hm' hx hmem).resolve_right fun henter ↦ absurd henter.2.1 (by omega)
  · rintro r' ⟨hlists, hkeys⟩
    have hup : ∀ {b x}, x < 256 ^ (m + 1) → nodeAt b (m + 1) x ∈ cs.map Prod.fst →
        nodeAt b m (x / 256) ∈ r'.map Prod.fst := by
      intro b x hx hmem
      exact (hkeys _).mpr ⟨_, hmem, parentOf_nodeAt hm hx⟩
    refine ⟨hlists.congr (fun _ ↦ Iff.rfl) ?_ ?_, fun b hactive htop hlt ↦ ?_, fun b hactive hlt hle ↦ ?_,
      fun b hactive hlt hle ↦ ?_, fun b hactive hsame hle ↦ ?_⟩
    · rintro n ⟨b, y, hin, rfl⟩
      exact vec_before hK hin.1.valid hm (hbound b y hin)
    · rintro n ⟨b, y, hin, rfl⟩
      exact vec_after hin.1.valid hm (hbound b y hin) hin.2.1
    · have hmem : nodeAt b (m + 1) 0 ∈ cs.map Prod.fst := by
        rw [mem_level hm' (by positivity) (by omega)]
        rcases Nat.lt_or_ge (m + 1) (topLevel w b) with hlow | hge
        · exact .inl (hr.above b hactive (by omega) hlow)
        · obtain heq : m + 1 = topLevel w b := by omega
          by_cases hH : Handled w w' l b
          · obtain ⟨y, hy, hmem⟩ := (hr.below b hactive (by omega) hge).mp hH
            rw [heq, Nat.sub_self, Nat.pow_zero] at hy
            obtain rfl : y = 0 := by omega
            exact .inl hmem
          · rw [heq]
            exact .inr (hp.grown b trivial hactive.valid (by omega) hH)
      have hparent := hup (by positivity) hmem
      rwa [Nat.zero_div] at hparent
    · have hpow : 256 ^ (m + 1 - topLevel w b) = 256 * 256 ^ (m - topLevel w b) := by
        rw [← pow_succ']
        congr 1
        omega
      have hle' : 256 ^ (m + 1 - topLevel w b) ≤ 256 ^ (m + 1) := Nat.pow_le_pow_right (by norm_num) (Nat.sub_le ..)
      constructor
      · intro hH
        obtain ⟨x, hx, hmem⟩ := (hr.below b hactive hlt (by omega)).mp hH
        refine ⟨x / 256, by omega, hup (by omega) ?_⟩
        rw [mem_level hm' (by omega) (by omega)]
        exact .inl hmem
      · rintro ⟨y, hy, hmem⟩
        obtain ⟨k, hk, hparent⟩ := (hkeys _).mp hmem
        obtain ⟨b', x, rfl, hin, hx⟩ := hchild k (hlevel.domain hk)
        have hy' : y < 256 ^ m := hy.trans_le (Nat.pow_le_pow_right (by norm_num) (Nat.sub_le ..))
        rw [parentOf_nodeAt hm hx] at hparent
        obtain ⟨rfl, -, rfl⟩ := (nodeAt_inj hm.le (div_lt_pow_iff.mpr hx) hm.le hy').mp hparent
        rcases (mem_level hm' hx (by omega)).mp hk with hmem | hmem
        · exact (hr.below b' hactive hlt (by omega)).mpr ⟨x, by omega, hmem⟩
        · exact (extra_domain hw hp hm' hx hmem).resolve_right fun henter ↦ absurd henter.2.1 (by omega)
    · have hlisted : ∀ x < 256 ^ (m + 1), nodeAt b (m + 1) x ∈ cs.map Prod.fst →
          ∃ y, nodeAt b m y ∈ r'.map Prod.fst ∧ y < 256 ^ m :=
        fun x hx hmem ↦ ⟨x / 256, hup hx hmem, div_lt_pow_iff.mpr hx⟩
      rcases hr.shrunk b hactive hlt (by omega) with ⟨x, hmem, hx⟩ | ⟨k, hk, hkt, x, hx, hmem⟩
      · exact .inl (hlisted x hx ((mem_level hm' hx (by omega)).mpr (.inl hmem)))
      · rcases Nat.lt_or_ge m k with hgt | hle'
        · obtain rfl : k = m + 1 := by omega
          exact .inl (hlisted x hx ((mem_level hm' hx (by omega)).mpr (.inr hmem)))
        · exact .inr ⟨k, hle', hkt, x, hx, hmem⟩
    · obtain ⟨x, hx, hmem⟩ := hr.steady b hactive hsame (by omega)
      exact ⟨x / 256, div_lt_pow_iff.mpr hx, hup hx ((mem_level hm' hx (by omega)).mpr (.inl hmem))⟩

end Step

section Start

/-- No node of a bucket whose root moves down looks empty while it holds an entry. -/
def Visible (K : Committer F C) (w w' : SaltKey → Option SaltValue) : Prop :=
  ∀ b, isValidDataBucket b → topLevel w b < topLevel w' b → ∀ l ≤ 4, ∀ x,
    K.bucketNode w b l x = K.defaults.subtree l →
      ∀ s, 256 ^ (5 - l) * x ≤ s → s < 256 ^ (5 - l) * (x + 1) → slots w b s = none

variable {R : ℕ → ℕ → Prop} {k : SaltKey} {threads : ℕ}

def slotAt (n i : ℕ) : SaltKey := SaltKey.ofPair (bucketOf n) (256 * relativePosition n + i)

theorem slotAt_nodeAt {i : ℕ} (hb : b < 2 ^ 24) (hy : y < 256 ^ 4) (hi : i < 256) :
    (slotAt (nodeAt b 4 y) i).bucketId = b ∧ (slotAt (nodeAt b 4 y) i).slotId = 256 * y + i := by
  have hs : 256 * y + i < 2 ^ 40 := by omega
  rw [slotAt, bucketOf_nodeAt le_rfl hy, nodeAt_relativePosition le_rfl hy]
  exact ⟨SaltKey.bucketId_ofPair hb hs, SaltKey.slotId_ofPair hb hs⟩

theorem expansionNodeId_eq (k : SaltKey) : expansionNodeId k = nodeAt k.bucketId 4 (k.slotId / 256) :=
  Nat.add_right_comm ..

theorem leaf_lt (k : SaltKey) : k.slotId / 256 < 256 ^ 4 := by
  have := k.slotId_lt
  omega

theorem children_leaves (hR : ∀ b y, R b y → b < 2 ^ 24 ∧ y < 256 ^ 4) :
    Children (At R 4) (fun k ↦ R k.bucketId (k.slotId / 256)) 256 expansionNodeId (fun k ↦ k.slotId % 256) slotAt where
  parent_mem k hk := ⟨_, _, hk, expansionNodeId_eq k⟩
  pos_lt k _ := Nat.mod_lt _ (by norm_num)
  child_parent k _ := by
    rw [expansionNodeId_eq, slotAt, bucketOf_nodeAt le_rfl (leaf_lt k), nodeAt_relativePosition le_rfl (leaf_lt k),
      Nat.div_add_mod, k.ofPair_eta]
  child_mem n hn i hi := by
    obtain ⟨b, y, hin, rfl⟩ := hn
    obtain ⟨hbucket, hslot⟩ := slotAt_nodeAt (hR b y hin).1 (hR b y hin).2 hi
    rw [hbucket, hslot, show (256 * y + i) / 256 = y by omega]
    exact hin
  parent_child n hn i hi := by
    obtain ⟨b, y, hin, rfl⟩ := hn
    obtain ⟨hbucket, hslot⟩ := slotAt_nodeAt (hR b y hin).1 (hR b y hin).2 hi
    rw [expansionNodeId_eq, hbucket, hslot, show (256 * y + i) / 256 = y by omega]
  pos_child n hn i hi := by
    obtain ⟨b, y, hin, rfl⟩ := hn
    obtain ⟨-, hslot⟩ := slotAt_nodeAt (hR b y hin).1 (hR b y hin).2 hi
    rw [hslot]
    omega

theorem vec_leaf (hy : y < 256 ^ 4) :
    vec 256 K.gen (fun i ↦ K.kvHash (w (slotAt (nodeAt b 4 y) i))) = K.bucketNode w b 4 y := by
  rw [Committer.bucketNode_leaf, Committer.segment]
  refine vec_congr fun i hi ↦ ?_
  rw [slots_eq (show 256 * y + i < 2 ^ 40 by omega), slotAt, bucketOf_nodeAt le_rfl hy,
    nodeAt_relativePosition le_rfl hy]

theorem lt_capacity_iff (hw : Regular w) (hb : isValidDataBucket b) {s : ℕ} :
    s / 256 < nodesAt (capacityAt w b) 4 ↔ s < capacityAt w b := by
  obtain ⟨c, hc⟩ := (hw.aligned b hb).unit
  rw [nodesAt_leaf, lt_divCeil_iff (by norm_num), hc]
  omega

/-- Somewhere on the way from a cut-off leaf to the new root lies a dropped node whose parent stays. -/
theorem exists_dropped (hw' : Regular w') (hb : isValidDataBucket b) (hlt : topLevel w b < topLevel w' b)
    {s : ℕ} (hold : s < capacityAt w b) (hcut : capacityAt w' b ≤ s) (hreach : s < 256 ^ (5 - topLevel w' b)) :
    ∃ k ≤ 4, topLevel w' b < k ∧ Dropped w w' b k (s / 256 ^ (5 - k)) ∧ Climbs w' b k (s / 256 ^ (5 - k)) := by
  have htop := (hw'.top hb).2.le
  have hleaf : nodesAt (capacityAt w' b) 4 ≤ s / 256 ^ (5 - 4) := by
    by_contra hn
    have := (lt_capacity_iff hw' hb).mp (not_le.mp hn)
    omega
  have hroot : ¬ nodesAt (capacityAt w' b) (topLevel w' b) ≤ s / 256 ^ (5 - topLevel w' b) := by
    rw [nodesAt_top (hw'.top hb).2 (hw'.aligned b hb).pos le_rfl, Nat.div_eq_of_lt hreach]
    exact Nat.not_succ_le_zero 0
  have hex : ∃ k, topLevel w' b ≤ k ∧ nodesAt (capacityAt w' b) k ≤ s / 256 ^ (5 - k) := ⟨4, htop, hleaf⟩
  obtain ⟨hle, hbeyond⟩ := Nat.find_spec hex
  have hk4 : Nat.find hex ≤ 4 := Nat.find_min' hex ⟨htop, hleaf⟩
  set k := Nat.find hex with hk
  have hltk : topLevel w' b < k := by
    refine lt_of_le_of_ne hle ?_
    intro heq
    rw [← heq] at hbeyond
    exact hroot hbeyond
  have hbefore : ¬ (topLevel w' b ≤ k - 1 ∧ nodesAt (capacityAt w' b) (k - 1) ≤ s / 256 ^ (5 - (k - 1))) :=
    Nat.find_min hex (by omega)
  have hparent : s / 256 ^ (5 - k) / 256 = s / 256 ^ (5 - (k - 1)) := by
    rw [Nat.div_div_eq_div_mul, ← pow_succ]
    congr 2
    omega
  have hpos : 0 < 256 ^ (5 - k) := by positivity
  refine ⟨k, hk4, hltk, ⟨hlt.trans hltk, ?_, fun h ↦ absurd h.2 (not_lt.mpr hbeyond)⟩, hltk, ?_⟩
  · rw [nodesAt, lt_divCeil_iff hpos]
    exact (Nat.mul_div_le s _).trans_lt hold
  · rw [hparent]
    by_contra hn
    exact hbefore ⟨by omega, not_lt.mp hn⟩

theorem raw_start (hK : K.EmptyDefaults) (hrec : Records u w w') (hw : Regular w) (hw' : Regular w')
    (hmin : 1 ≤ st.minParBatchSize) (hst : Mirrors K A w T st) (hT : Stale w w' T)
    (hroot : ∀ b, isValidDataBucket b → Expanded w w' b → Touched u.data.toList b →
      st.commitment (nodeAt b (topLevel w b) 0) = .ok (K.mainNode w 3 b))
    (hp : Planned K w w' u.data.toList (fun _ ↦ True) p) (hvisible : Visible K w w') {kvs : List StateChange}
    (hkvs : kvs = u.data.toList.filter fun e ↦ InExpansion w w' e.1) :
    Sat (st.updateLeafNodes K threads kvs expansionNodeId) (fun _ ↦ A) (Raw K w w' u.data.toList p 4) := by
  have htop : ∀ b, isValidDataBucket b → topLevel w b ≤ 4 := fun b hb ↦ (hw.top hb).2.le
  have hbound : ∀ b y, InClimb w w' u.data.toList 4 b y → b < 2 ^ 24 ∧ y < 256 ^ 4 :=
    fun b y h ↦ ⟨dataBucket_lt h.1.valid, h.lt_pow hw' le_rfl⟩
  have hmem : ∀ e, e ∈ kvs ↔ e ∈ u.data.toList ∧ InExpansion w w' e.1 := by
    intro e
    rw [hkvs, List.mem_filter, decide_eq_true_eq]
  have hactive : ∀ e ∈ kvs, InClimb w w' u.data.toList 4 e.1.bucketId (e.1.slotId / 256) := by
    intro e he
    obtain ⟨hel, hdata, hexp, hslot⟩ := (hmem e).mp he
    have hb := not_meta_iff.mp hdata
    refine ⟨?_, (hw'.top hb).2.le, (lt_capacity_iff hw' hb).mpr hslot⟩
    by_cases hlt : topLevel w' e.1.bucketId < topLevel w e.1.bucketId
    · exact .inr ⟨hb, hlt⟩
    · refine .inl ⟨hb, hexp, e, hel, rfl, ?_⟩
      rw [commonReach, max_eq_right (not_lt.mp hlt)]
      exact hslot.trans_le (hw'.top hb).2.reaches
  have hlists : Lists (fun k ↦ InClimb w w' u.data.toList 4 k.bucketId (k.slotId / 256)) w w' kvs := by
    rw [hkvs]
    refine (hrec.lists.filter (InExpansion w w')).restrict ?_ ?_
    · intro k hk
      refine ⟨trivial, not_meta_iff.mpr hk.1.valid, hk.1.expanded, (lt_capacity_iff hw' hk.1.valid).mp hk.2.2⟩
    · intro k hk
      rw [← hkvs] at hk
      obtain ⟨e, he, rfl⟩ := List.mem_map.mp hk
      exact hactive e he
  refine (updateLeafNodes_sat (A := A) hmin hlists (children_leaves hbound) ?_ ?_).mono ?_
  · rintro n ⟨b, y, hin, rfl⟩
    exact nodeAt_lt (hbound b y hin).1 le_rfl (hbound b y hin).2
  · intro k hk
    obtain ⟨e, he, rfl⟩ := List.mem_map.mp hk
    have hin := hactive e he
    have hy := (hbound _ _ hin).2
    rw [expansionNodeId_eq, vec_leaf hy]
    have hknows := knows_rawBefore hK hw hw' hst hT le_rfl hin fun ht _ ↦ ?_
    · rwa [rawBefore_nodeAt le_rfl hy, if_pos (htop _ hin.1.valid)] at hknows
    · rw [ht]
      exact hroot _ hin.1.valid hin.1.expanded ⟨e, ((hmem e).mp he).1, rfl⟩
  · rintro r ⟨hr, hkeys⟩
    have hlisted : ∀ e ∈ kvs, nodeAt e.1.bucketId 4 (e.1.slotId / 256) ∈ r.map Prod.fst := fun e he ↦
      (hkeys _).mpr ⟨e.1, List.mem_map_of_mem he, expansionNodeId_eq e.1⟩
    refine ⟨hr.congr (fun _ ↦ Iff.rfl) ?_ ?_, fun b hactive _ hlt ↦ ?_, fun b hactive hlt _ ↦ ?_,
      fun b hactive hlt _ ↦ ?_, fun b hactive hsame _ ↦ ?_⟩
    · rintro n ⟨b, y, hin, rfl⟩
      have hy := (hbound b y hin).2
      rw [vec_leaf hy, rawBefore_nodeAt le_rfl hy, if_pos (htop b hin.1.valid)]
    · rintro n ⟨b, y, hin, rfl⟩
      have hy := (hbound b y hin).2
      rw [vec_leaf hy, rawAfter_nodeAt le_rfl hy]
    · exact absurd (htop b hactive.valid) (not_le.mpr hlt)
    · have hb := hactive.valid
      have htop' := htop b hb
      have hreach : commonReach w w' b = 256 ^ (5 - topLevel w b) := by rw [commonReach, max_eq_left hlt.le]
      have hpow : 256 ^ (5 - topLevel w b) = 256 * 256 ^ (4 - topLevel w b) := by
        rw [← pow_succ']
        congr 1
        omega
      constructor
      · rintro ⟨-, hexp, e, hel, rfl, hslot⟩
        have hdata := not_meta_iff.mpr hb
        have hcap : capacityAt w e.1.bucketId < capacityAt w' e.1.bucketId := by
          by_contra hle
          exact absurd (hw'.topLevel_antitone hw hb (not_lt.mp hle)) (not_le.mpr hlt)
        have hbelow := hrec.slot_lt hw hw' hel hdata
        rw [max_eq_right hcap.le] at hbelow
        rw [hreach, hpow] at hslot
        exact ⟨e.1.slotId / 256, by omega, hlisted e ((hmem e).mpr ⟨hel, hdata, hexp, hbelow⟩)⟩
      · rintro ⟨y, hy, hmem'⟩
        obtain ⟨k, hk, hkn⟩ := (hkeys _).mp hmem'
        obtain ⟨e, he, rfl⟩ := List.mem_map.mp hk
        have hy4 : y < 256 ^ 4 := hy.trans_le (Nat.pow_le_pow_right (by norm_num) (Nat.sub_le ..))
        rw [expansionNodeId_eq] at hkn
        obtain ⟨rfl, -, rfl⟩ := (nodeAt_inj le_rfl (leaf_lt e.1) le_rfl hy4).mp hkn
        refine ⟨hb, hactive.expanded, e, ((hmem e).mp he).1, rfl, ?_⟩
        rw [hreach, hpow]
        omega
    · obtain ⟨hb, hexp, e, hel, rfl, hslot⟩ := hactive.handled hlt.le
      rw [commonReach, max_eq_right hlt.le] at hslot
      have hdata := not_meta_iff.mpr hb
      by_cases hcut : e.1.slotId < capacityAt w' e.1.bucketId
      · exact .inl ⟨_, hlisted e ((hmem e).mpr ⟨hel, hdata, hexp, hcut⟩), leaf_lt e.1⟩
      · -- the key is cut off, so it lies under a dropped node, which does not look empty
        have hcut := not_lt.mp hcut
        have hold : e.1.slotId < capacityAt w e.1.bucketId :=
          ((lt_max_iff.mp (hrec.slot_lt hw hw' hel hdata)).resolve_right (not_lt.mpr hcut))
        obtain ⟨k, hk, hkt, hd, hc⟩ := exists_dropped hw' hb hlt hold hcut hslot
        have hx := hd.lt_pow hw hb hk
        refine .inr ⟨k, hk, hkt, _, hx, (hp.extra k).cover _
          ⟨_, _, rfl, hb, hk, .inl ⟨hd, hc, hactive.handled hlt.le⟩⟩ fun hsame ↦ ?_⟩
        rw [Committer.trieOf_subtree hb hk hx, Committer.trieOf_subtree hb hk hx, hd.empty hK hw' hb hk,
          Committer.subtreeNode_below hd.1] at hsame
        have hpos : 0 < 256 ^ (5 - k) := by positivity
        have hfree := hvisible _ hb hlt k hk _ hsame e.1.slotId (Nat.mul_div_le ..) (Nat.lt_mul_div_succ _ hpos)
        have hchange := hrec.mem_data hel hdata
        rw [slots_key] at hfree
        rw [hfree, ← slots_key (w := w'), hw'.outside _ hb _ hcut] at hchange
        exact hchange.1 rfl
    · obtain ⟨hb, hexp, e, hel, rfl, -⟩ := hactive.handled (topLevel_eq_of_capacity hsame).le
      have hdata := not_meta_iff.mpr hb
      have hslot := hrec.slot_lt hw hw' hel hdata
      rw [hsame, max_self] at hslot
      exact ⟨_, leaf_lt e.1, hlisted e ((hmem e).mpr ⟨hel, hdata, hexp, hslot⟩)⟩

end Start

end Salt.StateRoot
