import Salt.Trie.Records

namespace Salt.StateRoot

open Std (ExtTreeMap ExtTreeSet)
open Library.Triple Library.ChangeList

section Caching

variable {C : Type} {st st' : StateRoot C} {A : Prop} {b l x n m : ℕ} {c : C}

theorem commitment_cacheNode : (st.cacheNode n c).commitment m = if m = n then .ok c else st.commitment m := by
  have hget : (st.cacheNode n c).cache[m]? = if m = n then some c else st.cache[m]? := by
    by_cases hm : m = n
    · rw [if_pos hm, hm, cacheNode, ExtTreeMap.getElem?_insert_self]
    · rw [if_neg hm, cacheNode, ExtTreeMap.getElem?_insert, if_neg]
      rwa [Nat.compare_eq_eq, eq_comm]
  rw [commitment, hget]
  by_cases hm : m = n
  · rw [if_pos hm, if_pos hm]
  · rw [if_neg hm, if_neg hm]
    rfl

theorem Knows.cacheNode (h : m ≠ n → Knows A st m c) {c' : C} (hc : m = n → c' = c) :
    Knows A (st.cacheNode n c') m c := by
  rw [Knows, commitment_cacheNode]
  by_cases hm : m = n
  · rw [if_pos hm]
    exact Sat.ok (hc hm)
  · rw [if_neg hm]
    exact h hm

theorem Knows.congr (h : Knows A st m c) (he : st'.commitment m = st.commitment m) : Knows A st' m c := by
  rwa [Knows, he]

structure CachesIn (b : ℕ) (st st' : StateRoot C) : Prop where
  fields : st' = { st with cache := st'.cache }
  other : ∀ n, n / 2 ^ 40 ≠ b → st'.commitment n = st.commitment n

theorem CachesIn.refl (b : ℕ) (st : StateRoot C) : CachesIn b st st := ⟨rfl, fun _ _ ↦ rfl⟩

theorem CachesIn.trans {st₂ : StateRoot C} (h : CachesIn b st st') (h' : CachesIn b st' st₂) : CachesIn b st st₂ where
  fields := by rw [h'.fields, h.fields]
  other n hn := by rw [h'.other n hn, h.other n hn]

theorem cachesIn_cacheNode (hl : l ≤ 4) (hx : x < 256 ^ l) : CachesIn b st (st.cacheNode (nodeAt b l x) c) where
  fields := rfl
  other n hn := by
    rw [commitment_cacheNode, if_neg]
    rintro rfl
    exact hn (nodeAt_bucket hl hx)

theorem attempt_sat {α : Type} {m : Except Fault α} (h : Sat m (fun _ ↦ A) fun _ ↦ True) :
    Sat (attempt m) (fun _ ↦ A) fun o ↦ ∀ a, m = .ok a ↔ o = some a := by
  cases m with
  | ok a => exact Sat.ok fun a' ↦ by simp
  | error e =>
    cases e with
    | err e => exact Sat.ok fun a' ↦ by simp
    | panic p => exact Sat.error h

theorem expectOk_sat {α : Type} {m : Except Fault α} {post : α → Prop} {message : String} (h : Sat m (fun _ ↦ A) post) :
    Sat (expectOk message m) (fun _ ↦ A) post := by
  cases m with
  | ok a => exact h
  | error e =>
    cases e with
    | err e => exact h
    | panic p => exact h

theorem subtree_ne_main {b' : ℕ} (hb : isValidDataBucket b) (hl : l ≤ 4) (hx : x < 256 ^ l) (hb' : b' < 2 ^ 24) :
    nodeAt 0 3 b' ≠ nodeAt b l x := by
  rw [Ne, nodeAt_inj (by norm_num) (by norm_num; exact hb') hl hx]
  rw [dataBucket_iff] at hb
  omega

end Caching

variable {F C : Type} [CommRing F] [AddCommGroup C] [Module F C] {K : Committer F C} {A : Prop}
  {w w' : SaltKey → Option SaltValue} {T : ℕ → ℕ → Prop} {st st' : StateRoot C}

/-- The engine sees the trie of a state. At the leftmost node of a level the cache may hold something else: the root,
which is stored in the main trie, or a former root, which `T` records. -/
structure Mirrors (K : Committer F C) (A : Prop) (w : SaltKey → Option SaltValue) (T : ℕ → ℕ → Prop)
    (st : StateRoot C) : Prop where
  root : ∀ b < 2 ^ 24, Knows A st (nodeAt 0 3 b) (K.mainNode w 3 b)
  node : ∀ b l x, isValidDataBucket b → l ≤ 4 → x < 256 ^ l → ¬ (x = 0 ∧ (l = topLevel w b ∨ T b l)) →
    Knows A st (nodeAt b l x) (K.subtreeNode w b l x)
  fails : ∀ b l x, isValidDataBucket b → l ≤ 4 → x < 256 ^ l →
    Sat (st.commitment (nodeAt b l x)) (fun _ ↦ A) fun _ ↦ True

section Warming

variable {b l x capacity : ℕ} {c : C}

/-- Caching the right value, or anything at the leftmost node of an exempt level, changes nothing. -/
theorem Mirrors.cacheNode (h : Mirrors K A w T st) (hb : isValidDataBucket b) (hl : l ≤ 4) (hx : x < 256 ^ l)
    (hc : ¬ (x = 0 ∧ (l = topLevel w b ∨ T b l)) → c = K.subtreeNode w b l x) :
    Mirrors K A w T (st.cacheNode (nodeAt b l x) c) where
  root b' hb' := by
    refine Knows.cacheNode (fun _ ↦ h.root b' hb') fun he ↦ absurd he (subtree_ne_main hb hl hx hb')
  node b' l' x' hb' hl' hx' hn := by
    refine Knows.cacheNode (fun _ ↦ h.node b' l' x' hb' hl' hx' hn) fun he ↦ ?_
    obtain ⟨rfl, rfl, rfl⟩ := (nodeAt_inj hl' hx' hl hx).mp he
    exact hc hn
  fails b' l' x' hb' hl' hx' := by
    rw [commitment_cacheNode]
    split
    · exact Sat.ok trivial
    · exact h.fails b' l' x' hb' hl' hx'

structure Warmed (K : Committer F C) (A : Prop) (w : SaltKey → Option SaltValue) (T : ℕ → ℕ → Prop) (b : ℕ)
    (st st' : StateRoot C) : Prop where
  mirrors : Mirrors K A w T st'
  caches : CachesIn b st st'
  known : ∀ n c, st.commitment n = .ok c → st'.commitment n = .ok c

theorem Warmed.trans {st₂ : StateRoot C} (h : Warmed K A w T b st st') (h' : Warmed K A w T b st' st₂) :
    Warmed K A w T b st st₂ :=
  ⟨h'.mirrors, h.caches.trans h'.caches, fun n c hn ↦ h'.known n c (h.known n c hn)⟩

theorem Warmed.refl (h : Mirrors K A w T st) : Warmed K A w T b st st := ⟨h, .refl b st, fun _ _ hn ↦ hn⟩

/-- A walk up from a new node. It ends at the latest at the new root, which is the only node of its level. -/
theorem warmPath_sat (hK : K.EmptyDefaults) (hw : Regular w) (hb : isValidDataBucket b) {newTop : ℕ}
    (hnewTop : RootLevel capacity newTop) (hpos : 0 < capacity) {fuel : ℕ} (hl : l ≤ 4) (hfuel : l < newTop + fuel)
    (htop : newTop ≤ l) (hx : x < nodesAt capacity l)
    (hnew : topLevel w b < l → nodesAt (capacityAt w b) l ≤ x) {acc : StateRoot C × ExtTreeSet ℕ}
    (hst : Mirrors K A w T acc.1) (hroot : ∃ r, acc.1.commitment (nodeAt b (topLevel w b) 0) = .ok r) :
    Sat (warmPath K (nodeAt b newTop 0) fuel (nodeAt b l x) acc) (fun _ ↦ A) fun r ↦ Warmed K A w T b acc.1 r.1 := by
  obtain ⟨st, visited⟩ := acc
  induction fuel generalizing l x st visited with
  | zero => omega
  | succ fuel ih =>
    have hxl : x < 256 ^ l := lt_of_lt_of_le hx ((nodesAt_le_pow hnewTop hl).trans
      (Nat.pow_le_pow_right (by norm_num) (Nat.sub_le ..)))
    have hempty : K.subtreeNode w b l x = K.defaults.subtree l := by
      rcases Nat.lt_or_ge (topLevel w b) l with hlt | hge
      · exact hw.subtreeNode_dropped hK hb hl (hnew hlt)
      · exact Committer.subtreeNode_unused hge
    rw [warmPath]
    split
    · exact Sat.ok (.refl hst)
    · refine (attempt_sat (hst.fails b l x hb hl hxl)).bind fun o ho ↦ ?_
      cases o with
      | some c => exact Sat.ok (.refl hst)
      | none =>
        have hunknown : ∀ c, st.commitment (nodeAt b l x) ≠ .ok c := fun c hc ↦ by simpa using (ho c).mp hc
        have hst' : Mirrors K A w T (st.cacheNode (nodeAt b l x) (K.defaults.subtree l)) :=
          hst.cacheNode hb hl hxl fun _ ↦ hempty.symm
        have hwarm : Warmed K A w T b st (st.cacheNode (nodeAt b l x) (K.defaults.subtree l)) := by
          refine ⟨hst', cachesIn_cacheNode hl hxl, fun n c hn ↦ ?_⟩
          rw [commitment_cacheNode, if_neg]
          · exact hn
          · rintro rfl
            exact hunknown c hn
        have hdefault : asFault (defaultCommitment K.defaults (nodeAt b l x)) = .ok (K.defaults.subtree l) := by
          rw [defaultCommitment_data hb hl hxl]
          rfl
        rw [hdefault, ok_bind]
        by_cases hend : nodeAt b l x = nodeAt b newTop 0
        · rw [if_pos hend]
          exact Sat.ok hwarm
        · rw [if_neg hend]
          have hlt : newTop < l := by
            by_contra hge
            obtain rfl : l = newTop := by omega
            rw [nodesAt_top hnewTop hpos le_rfl] at hx
            obtain rfl : x = 0 := by omega
            exact hend rfl
          obtain ⟨l, rfl⟩ : ∃ k, l = k + 1 := ⟨l - 1, by omega⟩
          have hxl' : x / 256 < 256 ^ l := div_lt_pow_iff.mpr hxl
          have hx' : x / 256 < nodesAt capacity l := by
            rw [← divCeil_nodesAt (by omega), lt_divCeil_iff (by norm_num)]
            omega
          obtain ⟨r, hr⟩ := hroot
          rw [getParentNode_nodeAt (by omega) hxl]
          refine (ih (by omega) (by omega) (by omega) hx' (fun hlt' ↦ ?_) _ _ hst' ⟨r, hwarm.known _ _ hr⟩).mono
            fun r hr ↦ hwarm.trans hr
          exact (hw.aligned b hb).le_parent (hw.top hb).2 (by omega) hlt' (hnew (by omega))

theorem warmSegments_sat (hK : K.EmptyDefaults) (hw : Regular w) (hw' : Regular w') (hb : isValidDataBucket b)
    (hst : Mirrors K A w T st) (hroot : st.commitment (nodeAt b (topLevel w b) 0) = .ok c) :
    Sat (warmSegments K st b (changeShape w w' b)) (fun _ ↦ A) fun st' ↦ Warmed K A w T b st st' := by
  refine (Sat.foldlM (fun _ acc ↦ Warmed K A w T b st acc.1) _ _ (.refl hst)
    fun done y rest hsplit acc hacc ↦ ?_).bind fun acc hacc ↦ Sat.ok hacc
  have hy : y ∈ List.range' (nodesAt (capacityAt w b) 4)
      (nodesAt (capacityAt w' b) 4 - nodesAt (capacityAt w b) 4) := by
    rw [nodesAt_leaf, nodesAt_leaf]
    simp only [changeShape] at hsplit
    rw [hsplit]
    simp
  obtain ⟨hle, hlt⟩ := List.mem_range'_1.mp hy
  refine (warmPath_sat (l := 4) (x := y) hK hw hb (hw'.top hb).2 (hw'.aligned b hb).pos le_rfl (by omega)
    (hw'.top hb).2.le
    (show y < nodesAt (capacityAt w' b) 4 by omega) (fun _ ↦ hle) hacc.mirrors ⟨c, hacc.known _ _ hroot⟩).mono
    fun r hr ↦ hacc.trans hr

end Warming

end Salt.StateRoot
