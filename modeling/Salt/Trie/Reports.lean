import Salt.Trie.Schemes

namespace Salt

open Std (ExtTreeMap ExtTreeSet)
open Library.Triple Library.ChangeList Library.Entries

namespace StateRoot

variable {F C : Type} [CommRing F] [AddCommGroup C] [Module F C] (K : Committer F C)

/-- Batches that one engine can take one after the other, with reports at any time. -/
def Follows : (SaltKey → Option SaltValue) → (ℕ → ℕ → Prop) → List Call → Prop
  | _, _, [] => True
  | w, T, .update u :: calls => Admissible K w T u ∧ Follows (u.apply w) (retire w (u.apply w) T) calls
  | w, T, .finalize :: calls => Follows w T calls

/-- For each `finalize` whether a batch with a change has come since the one before, and the state it sees. -/
def stations : Bool → (SaltKey → Option SaltValue) → List Call → List (Bool × (SaltKey → Option SaltValue))
  | _, _, [] => []
  | news, w, .update u :: calls => stations (news || !u.data.toList.isEmpty) (u.apply w) calls
  | news, w, .finalize :: calls => (news, w) :: stations false w calls

/-- The report is right exactly if there is news, or if the root hash is the one of the store. -/
def CurrentIf (root : C) (i : Bool × (SaltKey → Option SaltValue)) (r : F × TrieUpdates C) : Prop :=
  r.1 = K.hash (K.mainNode i.2 0 0) ↔ i.1 = true ∨ K.hash (K.mainNode i.2 0 0) = K.hash root

variable {K} {A : Prop} {w₀ w : SaltKey → Option SaltValue} {T : ℕ → ℕ → Prop} {root : C} {st : StateRoot C}
  {calls : List Call} {threads : ℕ} {order : TrieUpdates C → TrieUpdates C} {news : Bool}

variable [DecidableEq C]

theorem perform_current_sat (hK : K.EmptyDefaults) (horder : ∀ l, (order l).Perm l) (hw : Regular w)
    (hcapacity : ∀ b, isValidDataBucket b → KnowsCapacity A w st b) (hst : Tracks K A w₀ w T root st)
    (hnews : news = true ∧ st.Waits ∨ news = false ∧ st.updates = ∅) (h : Follows K w T calls) :
    Sat (perform K threads order st calls) (fun _ ↦ A) fun r ↦
      List.Forall₂ (CurrentIf K root) (stations news w calls) r.2 := by
  induction calls generalizing st w₀ w T news with
  | nil => exact Sat.ok .nil
  | cons call calls ih =>
    cases call with
    | update u =>
      obtain ⟨hu, hrest⟩ := h
      rw [perform]
      refine (update_sat hK hu.records hw hu.regular hu.visible hu.left (fun b hb _ ↦ hcapacity b hb) hst).bind ?_
      rintro st' ⟨hst', hcapacity', hsame, hwaits⟩
      refine ih hu.regular hcapacity' hst' ?_ hrest
      rcases hnews with ⟨rfl, hpending⟩ | ⟨rfl, hempty⟩
      · exact .inl ⟨Bool.true_or _, hwaits (.inl hpending)⟩
      · by_cases hnone : u.data.toList = []
        · exact .inr ⟨by rw [hnone]; rfl, by rw [hsame hnone, hempty]⟩
        · exact .inl ⟨by rw [List.isEmpty_eq_false_iff.mpr hnone]; rfl, hwaits (.inr hnone)⟩
    | finalize =>
      rw [perform]
      refine (finalize_tracks horder hst).bind ?_
      rintro ⟨st', rootHash, trieUpdates⟩ ⟨hst', hcapacity', hempty, hcurrent, hstored, -⟩
      refine (ih hw (fun b hb ↦ hcapacity' b (hcapacity b hb)) hst' (.inr ⟨rfl, hempty⟩) h).bind ?_
      rintro ⟨st'', reports⟩ hreports
      refine Sat.ok (.cons ?_ hreports)
      rcases hnews with ⟨rfl, hpending⟩ | ⟨rfl, hnone⟩
      · exact iff_of_true (hcurrent hpending) (.inl rfl)
      · have hnot : ¬ st.Waits := by
          rintro ⟨n, hmem, -⟩
          rw [hnone] at hmem
          exact ExtTreeMap.not_mem_empty hmem
        rw [CurrentIf, (hstored hnot).1, or_iff_right Bool.false_ne_true]
        exact eq_comm

end StateRoot

namespace MemStore

open StateRoot

variable {F C : Type} [CommRing F] [AddCommGroup C] [Module F C] {K : Committer F C} {s : MemStore C} {st : StateRoot C}
  {m d threads : ℕ} {order : TrieUpdates C → TrieUpdates C} [DecidableEq C]

/-- Among all calls that fit the states, a report gives the root hash of the state reached exactly if some batch with
a change has come since the report before, or if this root hash is still the one in the store. -/
theorem finalize_current_iff (threads : ℕ) (hK : K.EmptyDefaults) (horder : ∀ l, (order l).Perm l) (hs : s.InSync K)
    (hm : 1 ≤ m) (hst : ((StateRoot.new (s.trieReader K.defaults)).withMinParBatchSize m).withDeferredLevels d = .ok st)
    {calls : List Call} (h : Follows K s.state.content (fun _ _ ↦ False) calls) :
    ∃ st' reports, perform K threads order st calls = .ok (st', reports) ∧
      List.Forall₂ (CurrentIf K (K.mainNode s.state.content 0 0)) (stations false s.state.content calls) reports := by
  have hcapacity : ∀ b, isValidDataBucket b → KnowsCapacity False s.state.content st b :=
    fun b hb ↦ knowsCapacity_new (hasLevels K.defaults hs.metaOk hb (hs.regular.top hb).1) hst
  have hempty : st.updates = ∅ := by
    rw [withDeferredLevels] at hst
    split at hst
    · cases hst
      rfl
    · cases hst
  obtain ⟨⟨st', reports⟩, hrun, hreports⟩ := (perform_current_sat hK horder hs.regular hcapacity
    (tracks_new hs.commits.holds hm hst) (.inr ⟨rfl, hempty⟩) h).exists_ok
  exact ⟨st', reports, hrun, hreports⟩

theorem follows_growth : Follows weightedSums (MemStore.empty : MemStore ℤ).state.content (fun _ _ ↦ False)
    [.update growth, .finalize, .finalize, .update growth.inverse, .finalize] := by
  rw [content_empty]
  refine ⟨admissible_growth, ?_⟩
  rw [apply_growth]
  exact ⟨admissible_shrink, trivial⟩

/-- Two reports after the bucket has grown, the second without news, and one after it has shrunk again. -/
theorem finalize_current_growth : ∃ st' reports, perform weightedSums 4 List.reverse
      (StateRoot.new ((MemStore.empty : MemStore ℤ).trieReader weightedSums.defaults))
      [.update growth, .finalize, .finalize, .update growth.inverse, .finalize] = .ok (st', reports) ∧
    List.Forall₂ (CurrentIf weightedSums (weightedSums.mainNode (MemStore.empty : MemStore ℤ).state.content 0 0))
      (stations false (MemStore.empty : MemStore ℤ).state.content
        [.update growth, .finalize, .finalize, .update growth.inverse, .finalize]) reports :=
  finalize_current_iff 4 weightedSums_empty List.reverse_perm (inSync_empty weightedSums_empty)
    (show 1 ≤ 64 by norm_num) (d := 1) rfl follows_growth

/-- The second report gives the root hash of the store. -/
theorem finalize_repeated_reports : (perform weightedSums 1 id
      (StateRoot.new ((MemStore.empty : MemStore ℤ).trieReader weightedSums.defaults))
      [.update growth, .finalize, .finalize]).map (fun r ↦ r.2.map Prod.fst) =
    .ok [462777921571108, 462777921568768] := by
  rw [weightedSums_closed]
  -- with the plain sort the engine runs in the kernel
  delta perform perform._f StateRoot.finalize StateRoot.update StateRoot.propagate StateRoot.propagate._f
    StateRoot.updateMainTrie StateRoot.climbMainTrie StateRoot.climbMainTrie._f StateRoot.updateBucketSubtrees
    StateRoot.updateLeafNodes StateRoot.climbSubtrees StateRoot.climbSubtrees._f StateRoot.updateInternalNodes
    StateRoot.updateSubtreeLeaves StateRoot.addCommitmentDeltas
  simp only [mergeSort_eq_insertionSort]
  decide +kernel

theorem finalize_repeated_stale : Follows weightedSums (MemStore.empty : MemStore ℤ).state.content (fun _ _ ↦ False)
      [.update growth, .finalize, .finalize] ∧
    ∃ st' reports, perform weightedSums 1 id
        (StateRoot.new ((MemStore.empty : MemStore ℤ).trieReader weightedSums.defaults))
        [.update growth, .finalize, .finalize] = .ok (st', reports) ∧
      ¬ List.Forall₂ (fun i r ↦ r.1 = weightedSums.hash (weightedSums.mainNode i.2 0 0))
        (stations false (MemStore.empty : MemStore ℤ).state.content [.update growth, .finalize, .finalize]) reports := by
  refine ⟨⟨follows_growth.1, trivial⟩, ?_⟩
  have hrun := finalize_repeated_reports
  cases hperform : perform weightedSums 1 id
      (StateRoot.new ((MemStore.empty : MemStore ℤ).trieReader weightedSums.defaults))
      [.update growth, .finalize, .finalize] with
  | error e =>
    rw [hperform] at hrun
    cases hrun
  | ok r =>
    rw [hperform] at hrun
    refine ⟨r.1, r.2, rfl, fun hall ↦ ?_⟩
    obtain ⟨st', reports⟩ := r
    -- both reports are about the same state, but differ
    cases hall with
    | cons hfirst hall =>
      cases hall with
      | cons hsecond hall =>
        cases hall
        have hvalues := Except.ok.inj hrun
        simp only [List.map_cons, List.cons.injEq] at hvalues
        have hsame := hfirst.trans hsecond.symm
        rw [hvalues.1, hvalues.2.1] at hsame
        exact absurd hsame (by norm_num)

end MemStore

end Salt
