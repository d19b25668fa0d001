import Salt.Trie.Stores

namespace Salt

open Std (ExtTreeMap ExtTreeSet)
open Library.Triple Library.ChangeList

variable {F C : Type} [CommRing F] [AddCommGroup C] [Module F C]

section Engine

open StateRoot

variable {K : Committer F C} {s : MemStore C} {w' : SaltKey → Option SaltValue} {u : StateUpdates} {st : StateRoot C}
  {m d threads : ℕ} {order : TrieUpdates C → TrieUpdates C} [DecidableEq C]

namespace MemStore

/-- On a store in sync the bucket trees change exactly as the state does, and only those that an update is about:
with any mix of written slots, growing buckets and shrinking buckets. -/
theorem bucket_changes_exact (hK : K.EmptyDefaults) (hs : s.InSync K) (hrec : Records u s.state.content w')
    (hw' : Regular w') (hvisible : Visible K s.state.content w') (hm : 1 ≤ m)
    (hst : ((StateRoot.new (s.trieReader K.defaults)).withMinParBatchSize m).withDeferredLevels d = .ok st) :
    ∃ st' L, st.updateBucketSubtrees K threads u = .ok (st', L) ∧
      Lists BucketNode (K.trieOf s.state.content) (K.trieOf w') L ∧
      ∀ n ∈ L.map Prod.fst, ∃ b < 2 ^ 24, Concerns u b ∧ NodeOf b n := by
  have htracks := tracks_new hs.commits.holds hm hst
  have hlevels : ∀ b, isValidDataBucket b → metadataKey b ∉ u.data → KnowsCapacity False s.state.content st b :=
    fun b hb _ ↦ knowsCapacity_new (hasLevels K.defaults hs.metaOk hb (hs.regular.top hb).1) hst
  obtain ⟨⟨st', L⟩, hrun, -, hchanges⟩ := (updateBucketSubtrees_sat hK hrec hs.regular hw' htracks.batch htracks.mirrors
    (fun _ _ h ↦ h.elim) hlevels hvisible).exists_ok
  exact ⟨st', L, hrun, hchanges.lists, hchanges.concerns⟩

/-- The empty store, with updates that grow a bucket and fill it. -/
theorem bucket_changes_growth : ∃ st' L, (StateRoot.new ((MemStore.empty : MemStore ℤ).trieReader
      weightedSums.defaults)).updateBucketSubtrees weightedSums 4 growth = .ok (st', L) ∧
    Lists BucketNode (weightedSums.trieOf (MemStore.empty : MemStore ℤ).state.content)
      (weightedSums.trieOf grownState) L ∧
    ∀ n ∈ L.map Prod.fst, ∃ b < 2 ^ 24, Concerns growth b ∧ NodeOf b n :=
  bucket_changes_exact weightedSums_empty (inSync_empty weightedSums_empty)
    (by rw [content_empty]; exact records_of_isDiff isDiff_growth metaOfBuckets_grown) regular_grown
    (weightedSums_visible _ _) (show 1 ≤ 64 by norm_num) (d := 1) rfl

omit [DecidableEq C] in
theorem InSync.unchanged_levels (hs : s.InSync K) (hrec : Records u s.state.content w') (hw' : Regular w')
    {t : StateStore} (ht : t = s.state ∨ t = s.state.updateState u) {b : ℕ} (hb : isValidDataBucket b)
    (hmeta : metadataKey b ∉ u.data) :
    (({ s with state := t } : MemStore C).trieReader K.defaults).HasLevels False s.state.content b := by
  rcases ht with rfl | rfl
  · exact hasLevels K.defaults hs.metaOk hb (hs.regular.top hb).1
  · obtain ⟨hmetaOk, -, -, hcontent⟩ := StateStore.updateState_content hs.metaOk hs.metaPlaced hs.exact hrec hw'
    have hsame : s.state.content (metadataKey b) = w' (metadataKey b) :=
      hrec.same _ (metadataKey_inMeta hb) (ExtTreeMap.getElem?_eq_none hmeta)
    have hcapacity : capacityAt s.state.content b = capacityAt w' b := by
      rw [capacityAt, capacityAt, metaAt, metaAt, hsame]
    have hread := hasLevels (s := { s with state := s.state.updateState u }) K.defaults hmetaOk hb
      (by rw [hcontent]; exact (hw'.top hb).1)
    rw [hcontent, TrieReader.HasLevels, ← topLevel_eq_of_capacity hcapacity] at hread
    exact hread

/-- One batch on a new engine gives the root hash of the new state and the changes of all nodes, whatever levels are
deferred, however the work is split and in whatever order pending nodes are taken. -/
theorem update_fin_exact (hK : K.EmptyDefaults) (horder : ∀ l, (order l).Perm l) (hs : s.InSync K)
    (hrec : Records u s.state.content w') (hw' : Regular w') (hvisible : Visible K s.state.content w') {t : StateStore}
    (ht : t = s.state ∨ t = s.state.updateState u) (hm : 1 ≤ m)
    (hst : ((StateRoot.new (({ s with state := t } : MemStore C).trieReader K.defaults)).withMinParBatchSize
      m).withDeferredLevels d = .ok st) :
    ∃ st' L, st.updateFin K threads order u = .ok (st', K.hash (K.mainNode w' 0 0), L) ∧
      Lists (NodeFrom 0) (K.trieOf s.state.content) (K.trieOf w') L := by
  have hholds : (({ s with state := t } : MemStore C).trieReader K.defaults).Holds K False s.state.content :=
    hs.commits.holds
  obtain ⟨⟨st', rootHash, L⟩, hrun, hroot, hL⟩ := (updateFin_sat hK hrec hs.regular hw' hvisible horder hholds
    (fun b hb hmeta ↦ hs.unchanged_levels hrec hw' ht hb hmeta) hm hst).exists_ok
  exact ⟨st', L, by rw [hrun, ← hroot], hL⟩

/-- The growing bucket again, with the state written first and two levels deferred. -/
theorem update_fin_growth : ∃ st st' L,
    ((StateRoot.new (({ (MemStore.empty : MemStore ℤ) with
      state := (MemStore.empty : MemStore ℤ).state.updateState growth } : MemStore ℤ).trieReader
      weightedSums.defaults)).withMinParBatchSize 3).withDeferredLevels 2 = .ok st ∧
    st.updateFin weightedSums 4 List.reverse growth =
      .ok (st', weightedSums.hash (weightedSums.mainNode grownState 0 0), L) ∧
    Lists (NodeFrom 0) (weightedSums.trieOf (MemStore.empty : MemStore ℤ).state.content)
      (weightedSums.trieOf grownState) L :=
  ⟨_, (update_fin_exact weightedSums_empty List.reverse_perm (inSync_empty weightedSums_empty)
    (by rw [content_empty]; exact records_of_isDiff isDiff_growth metaOfBuckets_grown) regular_grown
    (weightedSums_visible _ _) (.inr rfl) (show 1 ≤ 3 by norm_num) (d := 2) rfl).imp fun _ h ↦ h.imp fun _ h ↦ ⟨rfl, h⟩⟩

/-- Every `finalize` on one engine reports the root hash of the state reached so far and what has changed since the
report before, for any calls in any order that fit the states. -/
theorem reports_exact (hK : K.EmptyDefaults) (horder : ∀ l, (order l).Perm l) (hs : s.InSync K) (hm : 1 ≤ m)
    (hst : ((StateRoot.new (s.trieReader K.defaults)).withMinParBatchSize m).withDeferredLevels d = .ok st)
    {calls : List Call} (h : Allowed K (K.mainNode s.state.content 0 0) s.state.content s.state.content
      (fun _ _ ↦ False) calls) :
    ∃ st' reports, perform K threads order st calls = .ok (st', reports) ∧
      List.Forall₂ (IsReport K) (intervals s.state.content s.state.content calls) reports := by
  have hcapacity : ∀ b, isValidDataBucket b → KnowsCapacity False s.state.content st b :=
    fun b hb ↦ knowsCapacity_new (hasLevels K.defaults hs.metaOk hb (hs.regular.top hb).1) hst
  obtain ⟨⟨st', reports⟩, hrun, hreports⟩ := (perform_sat hK horder hs.regular hcapacity
    (tracks_new hs.commits.holds hm hst) h).exists_ok
  exact ⟨st', reports, hrun, hreports⟩

/-- Reports before any change, and after the bucket has grown and shrunk again. -/
theorem reports_growth : ∃ st' reports, perform weightedSums 4 List.reverse
      (StateRoot.new ((MemStore.empty : MemStore ℤ).trieReader weightedSums.defaults))
      [.finalize, .update growth, .update growth.inverse, .finalize] = .ok (st', reports) ∧
    List.Forall₂ (IsReport weightedSums)
      (intervals (MemStore.empty : MemStore ℤ).state.content (MemStore.empty : MemStore ℤ).state.content
        [.finalize, .update growth, .update growth.inverse, .finalize]) reports := by
  refine reports_exact weightedSums_empty List.reverse_perm (inSync_empty weightedSums_empty) (show 1 ≤ 64 by norm_num)
    (d := 1) rfl ?_
  rw [content_empty]
  refine ⟨.inl rfl, admissible_growth, ?_⟩
  rw [apply_growth]
  exact ⟨admissible_shrink, .inl rfl, trivial⟩

end MemStore

end Engine

namespace StateRoot

def applyAll (w : SaltKey → Option SaltValue) (us : List StateUpdates) : SaltKey → Option SaltValue :=
  us.foldl (fun w u ↦ u.apply w) w

/-- Batches that one engine can take one after the other. -/
def Chain (K : Committer F C) : (SaltKey → Option SaltValue) → (ℕ → ℕ → Prop) → List StateUpdates → Prop
  | _, _, [] => True
  | w, T, u :: us => Admissible K w T u ∧ Chain K (u.apply w) (retire w (u.apply w) T) us

variable {K : Committer F C} {A : Prop} {w₀ w : SaltKey → Option SaltValue} {T : ℕ → ℕ → Prop} {root : C}
  {st : StateRoot C} {us : List StateUpdates} {threads : ℕ}

theorem chain_single {u : StateUpdates} (h : Admissible K w (fun _ _ ↦ False) u) :
    Chain K w (fun _ _ ↦ False) [u] := ⟨h, trivial⟩

theorem Chain.regular (hw : Regular w) (h : Chain K w T us) : Regular (applyAll w us) := by
  induction us generalizing w T with
  | nil => exact hw
  | cons u us ih => exact ih h.1.regular h.2

theorem Chain.metaOfBuckets (h : Chain K w T us) : MetaOfBuckets w (applyAll w us) := by
  induction us generalizing w T with
  | nil => exact fun k _ hne ↦ absurd rfl hne
  | cons u us ih => exact h.1.metadata.trans (ih h.2)

theorem updates_sat [DecidableEq C] (hK : K.EmptyDefaults) (hw : Regular w)
    (hcapacity : ∀ b, isValidDataBucket b → KnowsCapacity A w st b) (hst : Tracks K A w₀ w T root st)
    (h : Chain K w T us) :
    Sat (us.foldlM (fun st u ↦ st.update K threads u) st) (fun _ ↦ A) fun st' ↦
      ∃ T', Tracks K A w₀ (applyAll w us) T' root st' := by
  induction us generalizing st w T with
  | nil => exact Sat.ok ⟨T, hst⟩
  | cons u us ih =>
    obtain ⟨hu, hus⟩ := h
    rw [List.foldlM_cons]
    refine (update_sat hK hu.records hw hu.regular hu.visible hu.left (fun b hb _ ↦ hcapacity b hb) hst).bind
      fun st' ⟨hst', hcapacity', _⟩ ↦ ?_
    exact ih hu.regular hcapacity' hst' hus

/-- The batches merge to the difference between the first and the last state. -/
theorem Chain.merge (h : Chain K w T us) {acc : StateUpdates} (hacc : acc.IsDiff w₀ w) :
    ∃ u, us.foldlM StateUpdates.merge acc = .ok u ∧ u.IsDiff w₀ (applyAll w us) := by
  induction us generalizing w T acc with
  | nil => exact ⟨acc, rfl, hacc⟩
  | cons u us ih =>
    obtain ⟨acc', hmerge, hacc'⟩ := hacc.merge h.1.diff
    obtain ⟨v, hrest, hv⟩ := ih h.2 hacc'
    exact ⟨v, by rw [List.foldlM_cons, hmerge, ok_bind, hrest], hv⟩

end StateRoot

namespace MemStore

open StateRoot

section Model

variable [DecidableEq C] (K : Committer F C) (threads : ℕ) (order : TrieUpdates C → TrieUpdates C)

/-- A block as its producer handles it: a new engine takes the batches, then state and trie are written. -/
def applyBlock (s : MemStore C) (batches : List StateUpdates) : Except Fault (MemStore C × F) := do
  let st ← batches.foldlM (fun st u ↦ st.update K threads u) (StateRoot.new (s.trieReader K.defaults))
  let (_, rootHash, trieUpdates) ← st.finalize K threads order
  let stateUpdates ← batches.foldlM StateUpdates.merge .empty
  .ok ({ s with state := s.state.updateState stateUpdates }.updateTrie trieUpdates, rootHash)

def applyBlocks (s : MemStore C) : List (List StateUpdates) → Except Fault (MemStore C × List F)
  | [] => .ok (s, [])
  | block :: blocks => do
    let (s, rootHash) ← applyBlock K threads order s block
    let (s, rootHashes) ← applyBlocks s blocks
    .ok (s, rootHash :: rootHashes)

end Model

def BlockChain (K : Committer F C) : (SaltKey → Option SaltValue) → List (List StateUpdates) → Prop
  | _, [] => True
  | w, block :: blocks => Chain K w (fun _ _ ↦ False) block ∧ BlockChain K (applyAll w block) blocks

def rootHashes (K : Committer F C) : (SaltKey → Option SaltValue) → List (List StateUpdates) → List F
  | _, [] => []
  | w, block :: blocks => K.hash (K.mainNode (applyAll w block) 0 0) :: rootHashes K (applyAll w block) blocks

variable {K : Committer F C} {s : MemStore C} {threads : ℕ} {order : TrieUpdates C → TrieUpdates C}
  {blocks : List (List StateUpdates)} {block : List StateUpdates} [DecidableEq C]

theorem applyBlock_ok (threads : ℕ) (hK : K.EmptyDefaults) (horder : ∀ l, (order l).Perm l) (hs : s.InSync K)
    (h : Chain K s.state.content (fun _ _ ↦ False) block) :
    ∃ s', applyBlock K threads order s block = .ok (s', K.hash (K.mainNode (applyAll s.state.content block) 0 0)) ∧
      s'.InSync K ∧ s'.state.content = applyAll s.state.content block := by
  have hnew : ((StateRoot.new (s.trieReader K.defaults)).withMinParBatchSize 64).withDeferredLevels 1 =
      .ok (StateRoot.new (s.trieReader K.defaults)) := rfl
  have hcapacity : ∀ b, isValidDataBucket b →
      KnowsCapacity False s.state.content (StateRoot.new (s.trieReader K.defaults)) b :=
    fun b hb ↦ knowsCapacity_new (hasLevels K.defaults hs.metaOk hb (hs.regular.top hb).1) hnew
  have hupdates : Sat (block.foldlM (fun st u ↦ st.update K threads u) (StateRoot.new (s.trieReader K.defaults)))
      (fun _ ↦ False) _ :=
    updates_sat hK hs.regular hcapacity (tracks_new hs.commits.holds (by norm_num) hnew) h
  obtain ⟨st, hst, T, htracks⟩ := hupdates.exists_ok
  have hfinalize : Sat (st.finalize K threads order) (fun _ ↦ False) _ := finalize_sat horder (.inl rfl) htracks
  obtain ⟨⟨st', rootHash, L⟩, hfinal, -, -, hhash, hL⟩ := hfinalize.exists_ok
  obtain ⟨u, hmerge, hu⟩ := h.merge (StateUpdates.isDiff_empty _)
  obtain ⟨hsync, hcontent⟩ := hs.write (records_of_isDiff hu h.metaOfBuckets) (h.regular hs.regular) hL
  refine ⟨_, ?_, hsync, hcontent⟩
  rw [applyBlock, hst, ok_bind, hfinal, ok_bind]
  simp only [hmerge, ok_bind]
  rw [← hhash]

theorem applyBlocks_ok (threads : ℕ) (hK : K.EmptyDefaults) (horder : ∀ l, (order l).Perm l) (hs : s.InSync K)
    (h : BlockChain K s.state.content blocks) :
    ∃ s', applyBlocks K threads order s blocks = .ok (s', rootHashes K s.state.content blocks) ∧ s'.InSync K ∧
      s'.state.content = applyAll s.state.content blocks.flatten := by
  induction blocks generalizing s with
  | nil => exact ⟨s, rfl, hs, rfl⟩
  | cons block blocks ih =>
    obtain ⟨s₁, hblock, hs₁, hcontent⟩ := applyBlock_ok threads hK horder hs h.1
    have hrest := h.2
    rw [← hcontent] at hrest
    obtain ⟨s₂, hblocks, hs₂, hcontent₂⟩ := ih hs₁ hrest
    refine ⟨s₂, ?_, hs₂, ?_⟩
    · rw [applyBlocks, hblock, ok_bind]
      simp only [hblocks, ok_bind]
      rw [rootHashes, hcontent]
    · rw [hcontent₂, hcontent, List.flatten_cons, applyAll, applyAll, applyAll, List.foldl_append]

/-- The batches of a block may be merged before they are handled: the store and the root hash are the same, also
when the work is split differently. -/
theorem split_batches_agree {threads' : ℕ} {order' : TrieUpdates C → TrieUpdates C} (hK : K.EmptyDefaults)
    (horder : ∀ l, (order l).Perm l) (horder' : ∀ l, (order' l).Perm l) (hs : s.InSync K)
    (h : Chain K s.state.content (fun _ _ ↦ False) block)
    (hvisible : Visible K s.state.content (applyAll s.state.content block)) :
    ∃ u s₁ s₂ rootHash, block.foldlM StateUpdates.merge .empty = .ok u ∧
      applyBlock K threads order s block = .ok (s₁, rootHash) ∧
      applyBlock K threads' order' s [u] = .ok (s₂, rootHash) ∧ s₁.Agrees K s₂ := by
  obtain ⟨u, hmerge, hu⟩ := h.merge (StateUpdates.isDiff_empty _)
  have happly : u.apply s.state.content = applyAll s.state.content block := isDiff_apply hu
  have hmerged : Admissible K s.state.content (fun _ _ ↦ False) u :=
    ⟨happly ▸ hu, happly ▸ h.metaOfBuckets, happly ▸ h.regular hs.regular, happly ▸ hvisible, fun _ _ h ↦ h.elim⟩
  obtain ⟨s₁, hrun₁, hs₁, hcontent₁⟩ := applyBlock_ok threads hK horder hs h
  obtain ⟨s₂, hrun₂, hs₂, hcontent₂⟩ := applyBlock_ok threads' hK horder' hs (chain_single hmerged)
  have hsame : applyAll s.state.content [u] = applyAll s.state.content block := happly
  rw [hsame] at hrun₂ hcontent₂
  exact ⟨u, s₁, s₂, _, hmerge, hrun₁, hrun₂, hs₁.agrees hs₂ (hcontent₂.trans hcontent₁.symm)⟩

/-- The bucket grows and shrinks again within one block. -/
theorem split_batches_growth : ∃ u s₁ s₂ rootHash,
    [growth, growth.inverse].foldlM StateUpdates.merge .empty = .ok u ∧
    applyBlock weightedSums 4 List.reverse MemStore.empty [growth, growth.inverse] = .ok (s₁, rootHash) ∧
    applyBlock weightedSums 1 id MemStore.empty [u] = .ok (s₂, rootHash) ∧ s₁.Agrees weightedSums s₂ := by
  refine split_batches_agree weightedSums_empty List.reverse_perm List.Perm.refl (inSync_empty weightedSums_empty) ?_
    (weightedSums_visible _ _)
  rw [content_empty]
  refine ⟨admissible_growth, ?_⟩
  rw [apply_growth]
  exact ⟨admissible_shrink, trivial⟩

/-- A block and then its inverse: the store is as it was. -/
theorem rollback_restores {u : StateUpdates} (hK : K.EmptyDefaults) (horder : ∀ l, (order l).Perm l) (hs : s.InSync K)
    (hu : Admissible K s.state.content (fun _ _ ↦ False) u)
    (hvisible : Visible K (u.apply s.state.content) s.state.content) :
    ∃ s₁ s₂ rootHash, applyBlock K threads order s [u] = .ok (s₁, rootHash) ∧
      applyBlock K threads order s₁ [u.inverse] = .ok (s₂, K.hash (K.mainNode s.state.content 0 0)) ∧
      s.Agrees K s₂ := by
  obtain ⟨s₁, hrun₁, hs₁, hcontent₁⟩ := applyBlock_ok threads hK horder hs (chain_single hu)
  have hcontent : s₁.state.content = u.apply s.state.content := hcontent₁
  have hback : u.inverse.IsDiff s₁.state.content s.state.content := hcontent ▸ isDiff_inverse hu.diff
  have happly : u.inverse.apply s₁.state.content = s.state.content := isDiff_apply hback
  have hinverse : Admissible K s₁.state.content (fun _ _ ↦ False) u.inverse := by
    refine ⟨happly.symm ▸ hback, fun k hk hne ↦ ?_, happly.symm ▸ hs.regular, ?_, fun _ _ h ↦ h.elim⟩
    · rw [happly, hcontent] at hne
      exact hu.metadata k hk hne.symm
    · rw [happly, hcontent]
      exact hvisible
  obtain ⟨s₂, hrun₂, hs₂, hcontent₂⟩ := applyBlock_ok threads hK horder hs₁ (chain_single hinverse)
  have hsame : applyAll s₁.state.content [u.inverse] = s.state.content := happly
  rw [hsame] at hrun₂ hcontent₂
  exact ⟨s₁, s₂, _, hrun₁, hrun₂, hs.agrees hs₂ hcontent₂⟩

theorem rollback_growth : ∃ s₁ s₂ rootHash,
    applyBlock weightedSums 4 List.reverse MemStore.empty [growth] = .ok (s₁, rootHash) ∧
    applyBlock weightedSums 4 List.reverse s₁ [growth.inverse] =
      .ok (s₂, weightedSums.hash (weightedSums.mainNode (MemStore.empty : MemStore ℤ).state.content 0 0)) ∧
    (MemStore.empty : MemStore ℤ).Agrees weightedSums s₂ := by
  refine rollback_restores weightedSums_empty List.reverse_perm (inSync_empty weightedSums_empty) ?_
    (weightedSums_visible _ _)
  rw [content_empty]
  exact admissible_growth

end MemStore

end Salt
