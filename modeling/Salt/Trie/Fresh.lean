import Salt.Trie.Updating

namespace Salt

open Std (ExtTreeMap ExtTreeSet)
open Library.Triple Library.ChangeList

variable {F C : Type} [CommRing F] [AddCommGroup C] [Module F C] {K : Committer F C} {A : Prop}
  {w w' : SaltKey → Option SaltValue} {u : StateUpdates} {st : StateRoot C} {s : TrieReader C} {m d n b threads : ℕ}

/-- The reader gives the trie of a state; it may fail where `A` allows it. -/
def TrieReader.Holds (K : Committer F C) (A : Prop) (w : SaltKey → Option SaltValue) (s : TrieReader C) : Prop :=
  ∀ n, NodeFrom 0 n → Sat (s.commitment n) (fun _ ↦ A) (· = K.trieOf w n)

def TrieReader.HasLevels (A : Prop) (w : SaltKey → Option SaltValue) (s : TrieReader C) (b : ℕ) : Prop :=
  Sat (s.getSubtreeLevels b) (fun _ ↦ A) (· = 5 - topLevel w b)

namespace StateRoot

theorem rootNode : NodeFrom 0 0 := .inr ⟨0, le_rfl, by norm_num, mainAt_nodeAt (l := 0) (x := 0) (by norm_num)⟩

theorem trieOf_root : K.trieOf w 0 = K.mainNode w 0 0 :=
  Committer.trieOf_main (l := 0) (x := 0) (by norm_num) (by norm_num)

theorem tracks_new (hs : s.Holds K A w) (hm : 1 ≤ m)
    (hst : ((StateRoot.new s).withMinParBatchSize m).withDeferredLevels d = .ok st) :
    Tracks K A w w (fun _ _ ↦ False) (K.mainNode w 0 0) st := by
  have hread : ∀ n, NodeFrom 0 n →
      Knows A { StateRoot.new s with minParBatchSize := m, deferredLevels := d } n (K.trieOf w n) := by
    intro n hn
    rw [Knows, commitment]
    simp only [StateRoot.new, ExtTreeMap.getElem?_empty]
    exact hs n hn
  rw [withDeferredLevels] at hst
  split at hst
  · rename_i hd
    cases hst
    have hmain : ∀ l < 3, ∀ x < 256 ^ l,
        Knows A { StateRoot.new s with minParBatchSize := m, deferredLevels := d } (nodeAt 0 l x)
          (K.mainNode w l x) := by
      intro l hl x hx
      rw [← Committer.trieOf_main (by omega) hx]
      exact hread _ (.inr ⟨l, Nat.zero_le l, hl, mainAt_nodeAt hx⟩)
    constructor
    · constructor
      · intro b hb
        have hpow : b < 256 ^ 3 := hb
        rw [← Committer.trieOf_main le_rfl hpow]
        exact hread _ (.inl (.inl ⟨b, hb, rfl⟩))
      · intro b l x hb hl hx _
        rw [← Committer.trieOf_subtree hb hl hx]
        exact hread _ (.inl (.inr ⟨b, l, x, hb, hl, hx, rfl⟩))
      · exact fun b l x hb hl hx ↦ (hread _ (.inl (.inr ⟨b, l, x, hb, hl, hx, rfl⟩))).mono fun _ _ ↦ trivial
    · exact fun l _ hl ↦ hmain l hl
    · exact fun l hl ↦ hmain l (hl.trans_le (Nat.le_of_lt_succ hd.2))
    · exact .empty _ _
    · rw [← trieOf_root]
      exact hs 0 rootNode
    · exact hd
    · exact hm
    · exact fun _ _ h ↦ h.elim
  · cases hst

omit [AddCommGroup C] in
theorem knowsCapacity_new (hb : s.HasLevels A w b)
    (hst : ((StateRoot.new s).withMinParBatchSize m).withDeferredLevels d = .ok st) : KnowsCapacity A w st b := by
  rw [withDeferredLevels] at hst
  split at hst
  · cases hst
    exact hb
  · cases hst

/-- One batch on a new engine: the root hash of the new trie and all its changes. The state in the store may be
the old or already the new one. -/
theorem updateFin_sat [DecidableEq C] {order : TrieUpdates C → TrieUpdates C} (hK : K.EmptyDefaults)
    (hrec : Records u w w') (hw : Regular w) (hw' : Regular w') (hvisible : Visible K w w')
    (horder : ∀ l, (order l).Perm l) (hs : s.Holds K A w)
    (hlevels : ∀ b, isValidDataBucket b → metadataKey b ∉ u.data → s.HasLevels A w b) (hm : 1 ≤ m)
    (hst : ((StateRoot.new s).withMinParBatchSize m).withDeferredLevels d = .ok st) :
    Sat (st.updateFin K threads order u) (fun _ ↦ A) fun r ↦
      r.2.1 = K.hash (K.mainNode w' 0 0) ∧ Lists (NodeFrom 0) (K.trieOf w) (K.trieOf w') r.2.2 := by
  rw [updateFin]
  refine (update_sat hK hrec hw hw' hvisible (fun _ _ h ↦ h.elim)
    (fun b hb hmeta ↦ knowsCapacity_new (hlevels b hb hmeta) hst) (tracks_new hs hm hst)).bind fun st' ⟨hst', _⟩ ↦ ?_
  exact (finalize_sat horder (.inl rfl) hst').mono fun r hr ↦ hr.2.2

end StateRoot

end Salt
