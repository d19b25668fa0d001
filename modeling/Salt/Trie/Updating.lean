import Salt.Trie.Subtrees

namespace Salt

open Std (ExtTreeMap ExtTreeSet)
open Library.Triple Library.ChangeList

def MainAt (l n : ℕ) : Prop := At (fun b x ↦ b = 0 ∧ x < 256 ^ l) l n

def MainRange (d l n : ℕ) : Prop := ∃ k, d ≤ k ∧ k < l ∧ MainAt k n

def NodeFrom (d n : ℕ) : Prop := StateRoot.BucketNode n ∨ MainRange d 3 n

section Nodes

variable {l l' n b x d : ℕ}

theorem mainAt_nodeAt (hx : x < 256 ^ l) : MainAt l (nodeAt 0 l x) := ⟨0, x, ⟨rfl, hx⟩, rfl⟩

theorem mainAt_root (h : MainAt 3 n) : ∃ b < 2 ^ 24, n = nodeAt 0 3 b := by
  obtain ⟨_, b, ⟨rfl, hb⟩, rfl⟩ := h
  exact ⟨b, hb, rfl⟩

theorem MainAt.unique (hl : l ≤ 4) (hl' : l' ≤ 4) (h : MainAt l n) (h' : MainAt l' n) : l = l' := by
  obtain ⟨_, x, ⟨rfl, hx⟩, rfl⟩ := h
  obtain ⟨_, x', ⟨rfl, hx'⟩, hn⟩ := h'
  exact ((nodeAt_inj hl hx hl' hx').mp hn).2.1

theorem MainAt.lt_iff (hl : l ≤ 4) (hl' : l' ≤ 4) (h : MainAt l n) : n < leftmostNode l' ↔ l < l' := by
  obtain ⟨_, x, ⟨rfl, hx⟩, rfl⟩ := h
  have hsucc := leftmostNode_succ hl
  rw [nodeAt, Nat.zero_mul, Nat.zero_add]
  constructor
  · intro hlt
    by_contra hge
    have := leftmostNode_mono (show l' ≤ l by omega) (by omega)
    omega
  · intro hlt
    have := leftmostNode_mono (Nat.succ_le_of_lt hlt) (by omega)
    rw [Nat.succ_eq_add_one] at this
    omega

theorem leftmostNode_le_subtree (hb : isValidDataBucket b) (hl' : l' ≤ 5) : leftmostNode l' ≤ nodeAt b l x := by
  have := leftmostNode_lt hl'
  rw [dataBucket_iff] at hb
  rw [nodeAt]
  omega

theorem mainAt_bucket (h : StateRoot.BucketNode n) (hl : l ≤ 4) (hn : n < leftmostNode l) : MainAt 3 n := by
  rcases h with ⟨b, hb, rfl⟩ | ⟨b, k, x, hb, hk, hx, rfl⟩
  · exact mainAt_nodeAt hb
  · exact absurd hn (not_lt.mpr (leftmostNode_le_subtree hb (by omega)))

theorem bucketNode_main (h : StateRoot.BucketNode n) (hl : l ≤ 4) (hn : MainAt l n) : l = 3 := by
  have hlt := (hn.lt_iff hl hl).not.mpr (lt_irrefl l)
  rcases h with ⟨b, hb, rfl⟩ | ⟨b, k, x, hb, hk, hx, rfl⟩
  · exact hn.unique hl (by norm_num) (mainAt_nodeAt hb)
  · obtain ⟨_, y, ⟨rfl, hy⟩, hn⟩ := hn
    obtain ⟨rfl, -⟩ := (nodeAt_inj hk hx hl hy).mp hn
    rw [dataBucket_iff] at hb
    omega

theorem nodeFrom_below (hd : d ≤ 3) : NodeFrom d n ∧ n < leftmostNode (d + 1) ↔ MainAt d n := by
  constructor
  · rintro ⟨hb | ⟨l, hdl, hl, hn⟩, hlt⟩
    · have hmain := mainAt_bucket hb (by omega) hlt
      have := (hmain.lt_iff (by norm_num) (by omega)).mp hlt
      obtain rfl : d = 3 := by omega
      exact hmain
    · have := (hn.lt_iff (by omega) (by omega)).mp hlt
      obtain rfl : l = d := by omega
      exact hn
  · intro hn
    refine ⟨?_, (hn.lt_iff (by omega) (by omega)).mpr (Nat.lt_succ_self d)⟩
    rcases Nat.lt_or_ge d 3 with hlt | hge
    · exact .inr ⟨d, le_rfl, hlt, hn⟩
    · obtain rfl : d = 3 := by omega
      exact .inl (.inl (mainAt_root hn))

theorem nodeFrom_above (hd : d ≤ 3) : NodeFrom 0 n ∧ n < leftmostNode d ↔ MainRange 0 d n := by
  constructor
  · rintro ⟨hb | ⟨l, -, hl, hn⟩, hlt⟩
    · have := ((mainAt_bucket hb (by omega) hlt).lt_iff (by norm_num) (by omega)).mp hlt
      omega
    · exact ⟨l, Nat.zero_le l, (hn.lt_iff (by omega) (by omega)).mp hlt, hn⟩
  · rintro ⟨l, -, hl, hn⟩
    exact ⟨.inr ⟨l, Nat.zero_le l, by omega, hn⟩, (hn.lt_iff (by omega) (by omega)).mpr hl⟩

theorem children_main (hl : l < 3) :
    Children (MainAt l) (MainAt (l + 1)) 256 parentOf vcPositionInParent getChildNode := by
  have h := children_at (R := fun b x ↦ b = 0 ∧ x < 256 ^ l) (show l < 4 by omega) fun _ _ h ↦ h.2
  have hiff : MainAt (l + 1) = At (fun b x ↦ b = 0 ∧ x / 256 < 256 ^ l) (l + 1) := by
    funext n
    simp only [MainAt, div_lt_pow_iff]
  rw [hiff]
  exact h

end Nodes

namespace StateRoot

variable {F C : Type} [CommRing F] [AddCommGroup C] [Module F C] {K : Committer F C} {A : Prop}
  {w₀ w w' : SaltKey → Option SaltValue} {T : ℕ → ℕ → Prop} {st : StateRoot C} {u : StateUpdates}
  {l n d threads : ℕ} {L : TrieUpdates C}

section Applying

variable {C : Type} {st : StateRoot C} {L : TrieUpdates C} {n : ℕ} {D : ℕ → Prop} {before now after : ℕ → C} {A : Prop}

theorem applyUpdatesToCaches_fields :
    st.applyUpdatesToCaches L = { st with
      cache := L.foldl (fun m e ↦ m.insert e.1 e.2.2) st.cache
      updates := L.foldl record st.updates } := by
  induction L generalizing st with
  | nil => rfl
  | cons e L ih => exact ih

theorem commitment_apply_of_notMem (hn : n ∉ L.map Prod.fst) :
    (st.applyUpdatesToCaches L).commitment n = st.commitment n := by
  rw [applyUpdatesToCaches_fields, commitment]
  simp only
  rw [Library.Entries.getElem?_insertAll_of_notMem hn]
  rfl

theorem commitment_apply (hL : Lists D before after L) (hn : n ∈ L.map Prod.fst) :
    (st.applyUpdatesToCaches L).commitment n = .ok (after n) := by
  have hget := Library.Entries.getElem?_insertAll (fun e : NodeChange C ↦ e.2.2) hL.nodup (hL.entry hn) st.cache
  rw [applyUpdatesToCaches_fields, commitment]
  simp only at hget ⊢
  rw [hget]

theorem Knows.apply (hL : Lists D before after L) (hD : D n) (h : Knows A st n (before n)) :
    Knows A (st.applyUpdatesToCaches L) n (after n) := by
  by_cases hn : n ∈ L.map Prod.fst
  · rw [Knows, commitment_apply hL hn]
    exact Sat.ok rfl
  · rw [Knows, commitment_apply_of_notMem hn, ← hL.kept hD hn]
    exact h

theorem KnowsCapacity.congr {w w' : SaltKey → Option SaltValue} {st' : StateRoot C} {b : ℕ} (h : KnowsCapacity A w st b)
    (hcache : st'.bucketCapacityCache[b]? = st.bucketCapacityCache[b]?) (hstore : st'.store = st.store)
    (hcapacity : capacityAt w b = capacityAt w' b) : KnowsCapacity A w' st' b := by
  rw [KnowsCapacity] at h ⊢
  rw [hcache, hstore, ← hcapacity, ← topLevel_eq_of_capacity hcapacity]
  exact h

theorem cacheNodes_fields : st.cacheNodes L =
    { st with cache := L.foldl (fun m e ↦ m.insert e.1 e.2.2) st.cache } := by
  induction L generalizing st with
  | nil => rfl
  | cons e L ih => exact ih

theorem dropUpdatesBelowLevel_lists {d : ℕ} (hL : Lists (NodeFrom d) before after L) (hd : d ≤ 3) :
    Lists (MainAt d) before after (dropUpdatesBelowLevel L (d + 1)) :=
  (hL.filter (· < leftmostNode (d + 1))).congr (fun _ ↦ nodeFrom_below hd) (fun _ _ ↦ rfl) fun _ _ ↦ rfl

end Applying

section Main

theorem mainLevel_sat (hmin : 1 ≤ st.minParBatchSize) (hl : l < 3)
    (hL : Lists (MainAt (l + 1)) (K.trieOf w) (K.trieOf w') L)
    (hmain : ∀ x < 256 ^ l, Knows A st (nodeAt 0 l x) (K.mainNode w l x)) :
    Sat (st.updateInternalNodes K threads L) (fun _ ↦ A) fun r ↦
      Lists (MainAt l) (K.trieOf w) (K.trieOf w') r ∧ (r = [] ↔ L = []) := by
  have hvec : ∀ {v : SaltKey → Option SaltValue} {x}, x < 256 ^ l →
      vec 256 K.gen (fun i ↦ K.hash (K.trieOf v (getChildNode (nodeAt 0 l x) i))) = K.mainNode v l x := by
    intro v x hx
    rw [Committer.mainNode_inner hl]
    refine vec_congr fun i hi ↦ ?_
    have hpow : x * 256 + i < 256 ^ (l + 1) := by
      rw [← div_lt_pow_iff]
      omega
    rw [getChildNode_nodeAt (by omega) hx, Committer.trieOf_main (by omega) hpow, Nat.mul_comm]
  refine (updateInternalNodes_sat (A := A) hmin hL (children_main hl) ?_ ?_ ?_).mono ?_
  · rintro _ ⟨_, x, ⟨rfl, hx⟩, rfl⟩
    rw [getParentNode_nodeAt (by omega) hx, parentOf_nodeAt (by omega) hx]
  · rintro _ ⟨_, x, ⟨rfl, hx⟩, rfl⟩
    exact nodeAt_lt (by norm_num) (by omega) hx
  · intro k hk
    obtain ⟨_, x, ⟨rfl, hx⟩, rfl⟩ := hL.domain hk
    have hx' := div_lt_pow_iff.mpr hx
    rw [parentOf_nodeAt (by omega) hx, hvec hx']
    exact hmain _ hx'
  · rintro r ⟨hr, hkeys⟩
    refine ⟨hr.congr (fun _ ↦ Iff.rfl) ?_ ?_, ?_⟩
    · rintro _ ⟨_, x, ⟨rfl, hx⟩, rfl⟩
      rw [hvec hx, Committer.trieOf_main (by omega) hx]
    · rintro _ ⟨_, x, ⟨rfl, hx⟩, rfl⟩
      rw [hvec hx, Committer.trieOf_main (by omega) hx]
    · rw [List.eq_nil_iff_forall_not_mem, List.eq_nil_iff_forall_not_mem]
      constructor
      · intro hnone e he
        obtain ⟨f, hf, -⟩ := List.mem_map.mp ((hkeys _).mpr ⟨e.1, List.mem_map_of_mem he, rfl⟩)
        exact hnone f hf
      · intro hnone e he
        obtain ⟨k, hk, -⟩ := (hkeys _).mp (List.mem_map_of_mem he)
        obtain ⟨f, hf, -⟩ := List.mem_map.mp hk
        exact hnone f hf

theorem mainRange_succ (h : d ≤ l) : MainRange d (l + 1) n ↔ MainAt l n ∨ MainRange d l n := by
  constructor
  · rintro ⟨k, hd, hk, hn⟩
    rcases Nat.lt_succ_iff_lt_or_eq.mp hk with hlt | rfl
    · exact .inr ⟨k, hd, hlt, hn⟩
    · exact .inl hn
  · rintro (hn | ⟨k, hd, hk, hn⟩)
    · exact ⟨l, h, Nat.lt_succ_self l, hn⟩
    · exact ⟨k, hd, by omega, hn⟩

theorem mainRange_disjoint (hl : l ≤ 4) (h : MainAt l n) : ¬ MainRange d l n := by
  rintro ⟨k, -, hk, hn⟩
  have := hn.unique (by omega) hl h
  omega

theorem lists_mainRange_self : Lists (MainRange d d) (K.trieOf w) (K.trieOf w') [] :=
  .nil fun _ ⟨_, hle, hlt, _⟩ ↦ absurd hlt (not_lt.mpr hle)

/-- The loop of `update` caches the changes of the main levels from `d` on. -/
theorem propagate_sat {k : ℕ} (hmin : 1 ≤ st.minParBatchSize) (hk : d + k ≤ 3)
    (hL : Lists (MainAt (d + k)) (K.trieOf w) (K.trieOf w') L)
    (hmain : ∀ l, d ≤ l → l < d + k → ∀ x < 256 ^ l, Knows A st (nodeAt 0 l x) (K.mainNode w l x)) :
    Sat (propagate K threads k st L) (fun _ ↦ A) fun st' ↦ ∃ tail, st' = st.applyUpdatesToCaches tail ∧
      Lists (MainRange d (d + k)) (K.trieOf w) (K.trieOf w') tail ∧ (L = [] → tail = []) ∧
      (L ≠ [] → ∃ n ∈ (L ++ tail).map Prod.fst, MainAt d n) := by
  induction k generalizing st L with
  | zero =>
    refine Sat.ok ⟨[], rfl, lists_mainRange_self, fun _ ↦ rfl, fun hne ↦ ?_⟩
    obtain ⟨e, he⟩ := List.exists_mem_of_ne_nil L hne
    rw [List.append_nil]
    exact ⟨e.1, List.mem_map_of_mem he, (hL.mem e he).1⟩
  | succ k ih =>
    rw [propagate]
    refine (mainLevel_sat (l := d + k) hmin (by omega) hL (hmain (d + k) (by omega) (by omega))).bind
      fun L' ⟨hL', hnil⟩ ↦ ?_
    have hmin' : 1 ≤ (st.applyUpdatesToCaches L').minParBatchSize := by
      rw [applyUpdatesToCaches_fields]
      exact hmin
    refine (ih hmin' (by omega) hL' ?_).mono ?_
    · intro l hd hl x hx
      refine (hmain l hd (by omega) x hx).congr (commitment_apply_of_notMem fun hmem ↦ ?_)
      have := (hL'.domain hmem).unique (by omega) (by omega) (mainAt_nodeAt hx)
      omega
    · rintro st' ⟨tail, rfl, htail, hnone, hsome⟩
      refine ⟨L' ++ tail, (List.foldl_append ..).symm, ?_, fun hempty ↦ ?_, fun hne ↦ ?_⟩
      · exact (hL'.append htail fun n hn ↦ mainRange_disjoint (by omega) hn).congr
          (fun n ↦ (mainRange_succ (by omega)).symm) (fun _ _ ↦ rfl) fun _ _ ↦ rfl
      · rw [hnil.mpr hempty, hnone (hnil.mpr hempty), List.append_nil]
      · obtain ⟨n, hn, hmain⟩ := hsome (mt hnil.mp hne)
        rw [List.map_append]
        exact ⟨n, List.mem_append_right _ hn, hmain⟩

/-- The loop of `update_main_trie` ends with the root, if there is any change below it. -/
theorem climbMainTrie_sat {k : ℕ} (hmin : 1 ≤ st.minParBatchSize) (hk : k ≤ 3)
    (hL : Lists (MainAt k) (K.trieOf w) (K.trieOf w') L) (acc : TrieUpdates C)
    (hmain : ∀ l < k, ∀ x < 256 ^ l, Knows A st (nodeAt 0 l x) (K.mainNode w l x)) :
    Sat (climbMainTrie K threads st k L acc) (fun _ ↦ A) fun out ↦ ∃ tail, out = acc ++ tail ∧
      Lists (MainRange 0 k) (K.trieOf w) (K.trieOf w') tail ∧
      (L = [] → tail = []) ∧
      (L ≠ [] → 0 < k → tail.getLast? = some (0, K.mainNode w 0 0, K.mainNode w' 0 0)) := by
  induction k generalizing L acc with
  | zero => exact Sat.ok ⟨[], by simp, lists_mainRange_self, fun _ ↦ rfl, fun _ h ↦ absurd h (lt_irrefl 0)⟩
  | succ k ih =>
    rw [climbMainTrie]
    refine (mainLevel_sat hmin (by omega) hL (hmain k (Nat.lt_succ_self k))).bind fun L' ⟨hL', hnil⟩ ↦ ?_
    refine (ih (by omega) hL' _ fun l hl ↦ hmain l (by omega)).mono ?_
    rintro out ⟨tail, rfl, htail, hnone, hlast⟩
    refine ⟨L' ++ tail, List.append_assoc .., ?_, fun hempty ↦ ?_, fun hne _ ↦ ?_⟩
    · exact (hL'.append htail fun n hn ↦ mainRange_disjoint (by omega) hn).congr
        (fun n ↦ (mainRange_succ (Nat.zero_le k)).symm) (fun _ _ ↦ rfl) fun _ _ ↦ rfl
    · rw [hnil.mpr hempty, hnone (hnil.mpr hempty), List.append_nil]
    · have hne' : L' ≠ [] := mt hnil.mp hne
      rcases Nat.eq_zero_or_pos k with rfl | hpos
      · -- the root is the only node of its level
        have htailNil : tail = [] := List.eq_nil_iff_forall_not_mem.mpr fun e he ↦ by
          obtain ⟨_, -, hlt, -⟩ := (htail.mem e he).1
          exact absurd hlt (Nat.not_lt_zero _)
        have hlast := List.getLast?_eq_some_getLast hne'
        obtain ⟨⟨_, x, ⟨rfl, hx⟩, hn⟩, hv⟩ := hL'.mem _ (List.getLast_mem hne')
        obtain rfl : x = 0 := by omega
        rw [htailNil, List.append_nil, hlast, ← Committer.trieOf_main (w := w) (by norm_num) hx,
          ← Committer.trieOf_main (w := w') (by norm_num) hx, ← hn]
        exact congrArg some (Prod.ext hn hv)
      · rw [List.getLast?_append, hlast hne' hpos, Option.some_or]

theorem nodeFrom_three : NodeFrom 3 n ↔ BucketNode n :=
  or_iff_left fun ⟨_, hle, hlt, _⟩ ↦ absurd hlt (not_lt.mpr hle)

theorem nodeFrom_split (hd : d ≤ 3) : NodeFrom d n ∨ MainRange 0 d n ↔ NodeFrom 0 n := by
  rw [NodeFrom, or_assoc]
  refine or_congr Iff.rfl ⟨?_, ?_⟩
  · rintro (⟨k, -, hk, hn⟩ | ⟨k, -, hk, hn⟩)
    · exact ⟨k, Nat.zero_le k, hk, hn⟩
    · exact ⟨k, Nat.zero_le k, by omega, hn⟩
  · rintro ⟨k, -, hk, hn⟩
    rcases Nat.lt_or_ge k d with hlt | hge
    · exact .inr ⟨k, Nat.zero_le k, hlt, hn⟩
    · exact .inl ⟨k, hge, hk, hn⟩

theorem nodeFrom_disjoint (hd : d ≤ 3) (h : NodeFrom d n) : ¬ MainRange 0 d n := by
  rintro ⟨k, -, hk, hn⟩
  rcases h with hb | ⟨l, hdl, hl, hn'⟩
  · have := bucketNode_main hb (by omega) hn
    omega
  · have := hn.unique (by omega) (by omega) hn'
    omega

/-- The list is completed up to the root. The root hash is that of the new trie, but without a change on the level
where the climb starts it is that of the stored root. -/
theorem updateMainTrie_sat {root : C} (hmin : 1 ≤ st.minParBatchSize) (hpos : 0 < d) (hd : d ≤ 3)
    (hL : Lists (NodeFrom d) (K.trieOf w₀) (K.trieOf w) L)
    (hmain : ∀ l < d, ∀ x < 256 ^ l, Knows A st (nodeAt 0 l x) (K.mainNode w₀ l x))
    (hstored : Sat (st.store.commitment 0) (fun _ ↦ A) (· = root)) :
    Sat (st.updateMainTrie K threads L (d + 1)) (fun _ ↦ A) fun r ↦
      (dropUpdatesBelowLevel L (d + 1) ≠ [] → r.1 = K.hash (K.mainNode w 0 0)) ∧
      (dropUpdatesBelowLevel L (d + 1) = [] → r.1 = K.hash root ∧ K.mainNode w₀ 0 0 = K.mainNode w 0 0) ∧
      Lists (NodeFrom 0) (K.trieOf w₀) (K.trieOf w) r.2 := by
  have hlevel := dropUpdatesBelowLevel_lists hL hd
  rw [updateMainTrie]
  refine (climbMainTrie_sat hmin hd hlevel L hmain).bind ?_
  rintro out ⟨tail, rfl, htail, hnone, hlast⟩
  have hall : Lists (NodeFrom 0) (K.trieOf w₀) (K.trieOf w) (L ++ tail) :=
    (hL.append htail fun n hn ↦ nodeFrom_disjoint hd hn).congr (fun n ↦ nodeFrom_split hd) (fun _ _ ↦ rfl) fun _ _ ↦ rfl
  by_cases hempty : dropUpdatesBelowLevel L (d + 1) = []
  · have hrootNode : MainAt 0 0 := mainAt_nodeAt (l := 0) (x := 0) (by norm_num)
    have hnotMem : ∀ e ∈ L ++ tail, e.1 ≠ 0 := by
      rw [hnone hempty, List.append_nil]
      intro e he hzero
      exact nodeFrom_disjoint hd (hL.mem e he).1 ⟨0, le_rfl, hpos, hzero ▸ hrootNode⟩
    have hsame : K.mainNode w₀ 0 0 = K.mainNode w 0 0 := by
      have hkept := hall.kept (k := 0) (.inr ⟨0, le_rfl, by norm_num, hrootNode⟩) fun hmem ↦ by
        obtain ⟨e, he, hzero⟩ := List.mem_map.mp hmem
        exact hnotMem e he hzero
      rwa [show (0 : ℕ) = nodeAt 0 0 0 from rfl, Committer.trieOf_main (by norm_num) (by norm_num),
        Committer.trieOf_main (by norm_num) (by norm_num)] at hkept
    have hread : Sat (st.store.commitment 0 >>= fun c ↦ .ok (K.hash c, L ++ tail)) (fun _ ↦ A) fun r ↦
        (dropUpdatesBelowLevel L (d + 1) ≠ [] → r.1 = K.hash (K.mainNode w 0 0)) ∧
        (dropUpdatesBelowLevel L (d + 1) = [] → r.1 = K.hash root ∧ K.mainNode w₀ 0 0 = K.mainNode w 0 0) ∧
        Lists (NodeFrom 0) (K.trieOf w₀) (K.trieOf w) r.2 :=
      hstored.bind fun c hc ↦ Sat.ok ⟨fun hne ↦ absurd hempty hne, fun _ ↦ ⟨congrArg K.hash hc, hsame⟩, hall⟩
    cases hget : (L ++ tail).getLast? with
    | none => exact hread
    | some e =>
      obtain ⟨_ | n, c⟩ := e
      · exact absurd rfl (hnotMem _ (List.mem_of_getLast? hget))
      · exact hread
  · rw [List.getLast?_append, hlast hempty hpos]
    exact Sat.ok ⟨fun _ ↦ rfl, fun h ↦ absurd h hempty, hall⟩

end Main

section Tracking

/-- The levels that the roots of bucket trees have left downwards. -/
def retire (w w' : SaltKey → Option SaltValue) (T : ℕ → ℕ → Prop) (b l : ℕ) : Prop :=
  T b l ∨ l = topLevel w b ∧ topLevel w b < topLevel w' b

/-- The engine follows the trie: from the deferred level downwards it reads the nodes of `w`, above those of
`w₀`, and the pending changes lead from the one to the other. -/
structure Tracks (K : Committer F C) (A : Prop) (w₀ w : SaltKey → Option SaltValue) (T : ℕ → ℕ → Prop) (root : C)
    (st : StateRoot C) : Prop where
  mirrors : Mirrors K A w T st
  tracked : ∀ l, st.deferredLevels ≤ l → l < 3 → ∀ x < 256 ^ l, Knows A st (nodeAt 0 l x) (K.mainNode w l x)
  deferred : ∀ l < st.deferredLevels, ∀ x < 256 ^ l, Knows A st (nodeAt 0 l x) (K.mainNode w₀ l x)
  pending : Pending (NodeFrom st.deferredLevels) (K.trieOf w₀) (K.trieOf w) st.updates
  stored : Sat (st.store.commitment 0) (fun _ ↦ A) (· = root)
  levels : 0 < st.deferredLevels ∧ st.deferredLevels < mainTrieLevels
  batch : 1 ≤ st.minParBatchSize
  left : ∀ b l, T b l → l < topLevel w b

/-- A change waits on the level from which `finalize` climbs. -/
def Waits {C : Type} (st : StateRoot C) : Prop := ∃ n ∈ st.updates, MainAt st.deferredLevels n

variable {root : C}

theorem Mirrors.congr {st' : StateRoot C} (hst : Mirrors K A w T st)
    (h : ∀ n, BucketNode n → st'.commitment n = st.commitment n) : Mirrors K A w T st' where
  root b hb := (hst.root b hb).congr (h _ (.inl ⟨b, hb, rfl⟩))
  node b l x hb hl hx hn := (hst.node b l x hb hl hx hn).congr (h _ (.inr ⟨b, l, x, hb, hl, hx, rfl⟩))
  fails b l x hb hl hx := by
    rw [h _ (.inr ⟨b, l, x, hb, hl, hx, rfl⟩)]
    exact hst.fails b l x hb hl hx

theorem Mirrors.apply (hst : Mirrors K A w T st) (hL : Lists (NodeFrom d) (K.trieOf w) (K.trieOf w') L)
    (hgrown : ∀ b, isValidDataBucket b → topLevel w' b < topLevel w b → nodeAt b (topLevel w b) 0 ∈ L.map Prod.fst) :
    Mirrors K A w' (retire w w' T) (st.applyUpdatesToCaches L) where
  root b hb := by
    have hpow : b < 256 ^ 3 := hb
    have h := hst.root b hb
    rw [← Committer.trieOf_main le_rfl hpow] at h ⊢
    exact Knows.apply hL (.inl (.inl ⟨b, hb, rfl⟩)) h
  node b l x hb hl hx hn := by
    have hD : NodeFrom d (nodeAt b l x) := .inl (.inr ⟨b, l, x, hb, hl, hx, rfl⟩)
    rw [← Committer.trieOf_subtree hb hl hx]
    by_cases hold : x = 0 ∧ (l = topLevel w b ∨ T b l)
    · -- the old root of a bucket that has grown is listed
      obtain ⟨rfl, hor⟩ := hold
      have hT : ¬ T b l := fun h ↦ hn ⟨rfl, .inr (.inl h)⟩
      obtain rfl := hor.resolve_right hT
      have hlt : topLevel w' b < topLevel w b := by
        rcases lt_trichotomy (topLevel w' b) (topLevel w b) with hlt | heq | hgt
        · exact hlt
        · exact absurd ⟨rfl, .inl heq.symm⟩ hn
        · exact absurd ⟨rfl, .inr (.inr ⟨rfl, hgt⟩)⟩ hn
      rw [Knows, commitment_apply hL (hgrown b hb hlt)]
      exact Sat.ok rfl
    · have h := hst.node b l x hb hl hx hold
      rw [← Committer.trieOf_subtree hb hl hx] at h
      exact Knows.apply hL hD h
  fails b l x hb hl hx := by
    by_cases hmem : nodeAt b l x ∈ L.map Prod.fst
    · rw [commitment_apply hL hmem]
      exact Sat.ok trivial
    · rw [commitment_apply_of_notMem hmem]
      exact hst.fails b l x hb hl hx

/-- The engine follows a batch of updates. A bucket tree must not come back to a level that it has left. -/
theorem update_sat [DecidableEq C] (hK : K.EmptyDefaults) (hrec : Records u w w') (hw : Regular w) (hw' : Regular w')
    (hvisible : Visible K w w') (hleft : ∀ b l, T b l → l < topLevel w' b)
    (hcapacity : ∀ b, isValidDataBucket b → metadataKey b ∉ u.data → KnowsCapacity A w st b)
    (hst : Tracks K A w₀ w T root st) :
    Sat (st.update K threads u) (fun _ ↦ A) fun st' ↦
      Tracks K A w₀ w' (retire w w' T) root st' ∧ (∀ b, isValidDataBucket b → KnowsCapacity A w' st' b) ∧
      (u.data.toList = [] → st'.updates = st.updates) ∧ (st.Waits ∨ u.data.toList ≠ [] → st'.Waits) := by
  obtain ⟨hpos, hd⟩ := hst.levels
  rw [mainTrieLevels] at hd
  rw [update]
  refine (updateBucketSubtrees_sat hK hrec hw hw' hst.batch hst.mirrors (fun b l h ↦ ⟨hst.left b l h, hleft b l h⟩)
    hcapacity hvisible).bind ?_
  rintro ⟨st₁, L⟩ ⟨hprepared, hlists, hconcerns, hgrown, hreached⟩
  obtain ⟨hmirrors, hfields, hmain, hcapacities⟩ := hprepared
  dsimp only at hmirrors hfields hmain hcapacities hlists hconcerns hgrown hreached
  have hsame : st₁.deferredLevels = st.deferredLevels ∧ st₁.store = st.store ∧ st₁.updates = st.updates ∧
      st₁.minParBatchSize = st.minParBatchSize := by
    rw [hfields]
    exact ⟨rfl, rfl, rfl, rfl⟩
  obtain ⟨hdeferred, hstore, hupdates, hbatch⟩ := hsame
  obtain ⟨k, hk⟩ : ∃ k, st.deferredLevels + k = 3 := ⟨3 - st.deferredLevels, by omega⟩
  have hread : ∀ {l x c}, l < 3 → x < 256 ^ l → Knows A st (nodeAt 0 l x) c → Knows A st₁ (nodeAt 0 l x) c := by
    intro l x c hl hx h
    refine h.congr (hmain _ ?_)
    have := local_lt (show l ≤ 4 by omega) hx
    rw [nodeAt]
    omega
  have hrootLevel : Lists (MainAt 3) (K.trieOf w) (K.trieOf w') (dropUpdatesBelowLevel L mainTrieLevels) :=
    dropUpdatesBelowLevel_lists (hlists.congr (fun _ ↦ nodeFrom_three.symm) (fun _ _ ↦ rfl) fun _ _ ↦ rfl) le_rfl
  have hsteps : mainTrieLevels - (st₁.deferredLevels + 1) = k := by
    rw [hdeferred, mainTrieLevels]
    omega
  have hmin₁ : 1 ≤ (st₁.applyUpdatesToCaches L).minParBatchSize := by
    rw [applyUpdatesToCaches_fields]
    exact hbatch ▸ hst.batch
  simp only [hsteps]
  refine (propagate_sat (d := st.deferredLevels) (k := k) hmin₁ hk.le (hk.symm ▸ hrootLevel) ?_).mono ?_
  · intro l hdl hl x hx
    refine (hread (by omega) hx (hst.tracked l hdl (by omega) x hx)).congr (commitment_apply_of_notMem fun hmem ↦ ?_)
    have := bucketNode_main (hlists.domain hmem) (show l ≤ 4 by omega) (mainAt_nodeAt hx)
    omega
  rintro st' ⟨tail, rfl, htail, hnone, hsome⟩
  rw [hk] at htail
  have hall : Lists (NodeFrom st.deferredLevels) (K.trieOf w) (K.trieOf w') (L ++ tail) := by
    refine hlists.append htail ?_
    rintro n hn ⟨l, -, hl, hmain⟩
    have := bucketNode_main hn (by omega) hmain
    omega
  have happly : (st₁.applyUpdatesToCaches L).applyUpdatesToCaches tail = st₁.applyUpdatesToCaches (L ++ tail) :=
    (List.foldl_append ..).symm
  have hd' : (st₁.applyUpdatesToCaches (L ++ tail)).deferredLevels = st.deferredLevels := by
    rw [applyUpdatesToCaches_fields]
    exact hdeferred
  have hpending : (st₁.applyUpdatesToCaches (L ++ tail)).updates = (L ++ tail).foldl record st.updates := by
    rw [applyUpdatesToCaches_fields]
    simp only
    rw [hupdates]
  rw [happly]
  refine ⟨⟨?_, ?_, ?_, ?_, ?_, ?_, ?_, ?_⟩, ?_, fun hempty ↦ ?_, fun hwaits ↦ ?_⟩
  · refine hmirrors.apply hall fun b hb hlt ↦ ?_
    rw [List.map_append, List.mem_append]
    exact .inl (hgrown b hb hlt)
  · intro l hdl hl x hx
    rw [hd'] at hdl
    have h := hread hl hx (hst.tracked l hdl hl x hx)
    rw [← Committer.trieOf_main (by omega) hx] at h ⊢
    exact Knows.apply hall (.inr ⟨l, hdl, hl, mainAt_nodeAt hx⟩) h
  · intro l hl x hx
    rw [hd'] at hl
    refine (hread (by omega) hx (hst.deferred l hl x hx)).congr (commitment_apply_of_notMem fun hmem ↦ ?_)
    exact nodeFrom_disjoint (by omega) (hall.domain hmem) ⟨l, Nat.zero_le l, hl, mainAt_nodeAt hx⟩
  · rw [hd', hpending]
    exact hst.pending.recordAll hall
  · rw [applyUpdatesToCaches_fields]
    simp only
    rw [hstore]
    exact hst.stored
  · rw [hd']
    exact hst.levels
  · rw [applyUpdatesToCaches_fields]
    exact hbatch ▸ hst.batch
  · rintro b l (h | ⟨rfl, hlt⟩)
    · exact hleft b l h
    · exact hlt
  · intro b hb
    have hcache := hcapacities b hb
    rw [applyUpdatesToCaches_fields]
    by_cases hmeta : metadataKey b ∈ u.data
    · rw [if_pos hmeta] at hcache
      simp only [KnowsCapacity, hcache]
    · rw [if_neg hmeta] at hcache
      exact (hcapacity b hb hmeta).congr hcache hstore (by rw [capacityAt, capacityAt, hrec.metaAt_eq hb hmeta])
  · have hL : L = [] := List.eq_nil_iff_forall_not_mem.mpr fun e he ↦ by
      obtain ⟨b, -, ⟨f, hf, -⟩ | hmeta, -⟩ := hconcerns e.1 (List.mem_map_of_mem he)
      · rw [hempty] at hf
        cases hf
      · rw [← ExtTreeMap.mem_keys, ← ExtTreeMap.map_fst_toList_eq_keys, hempty] at hmeta
        cases hmeta
    have htop : dropUpdatesBelowLevel L mainTrieLevels = [] := by
      rw [hL]
      rfl
    rw [hpending, hL, hnone htop]
    rfl
  · rcases hwaits with ⟨n, hn, hmainAt⟩ | hne
    · refine ⟨n, ?_, hd'.symm ▸ hmainAt⟩
      rw [hpending, mem_recordAll]
      exact .inl hn
    · obtain ⟨b, hb, hmem⟩ := hreached hne
      obtain ⟨e, he, hkey⟩ := List.mem_map.mp hmem
      have hlow : e ∈ dropUpdatesBelowLevel L mainTrieLevels := by
        have hpow : b < 256 ^ 3 := hb
        rw [dropUpdatesBelowLevel, List.mem_filter, hkey]
        exact ⟨he, decide_eq_true (((mainAt_nodeAt hpow).lt_iff (by norm_num) le_rfl).mpr (by norm_num))⟩
      obtain ⟨n, hn, hmainAt⟩ := hsome (List.ne_nil_of_mem hlow)
      refine ⟨n, ?_, hd'.symm ▸ hmainAt⟩
      rw [hpending, mem_recordAll]
      rw [List.map_append, List.mem_append] at hn ⊢
      exact .inr (hn.imp_left fun h ↦ (List.filter_sublist.map Prod.fst).subset h)

theorem Tracks.waits_iff (hst : Tracks K A w₀ w T root st) {L : TrieUpdates C} (hL : L.Perm st.updates.toList) :
    st.Waits ↔ dropUpdatesBelowLevel L (st.deferredLevels + 1) ≠ [] := by
  obtain ⟨-, hd⟩ := hst.levels
  rw [mainTrieLevels] at hd
  have hlists := dropUpdatesBelowLevel_lists (hst.pending.lists.perm hL.symm) (by omega)
  constructor
  · rintro ⟨n, hn, hmain⟩
    obtain ⟨p, hp⟩ := Option.isSome_iff_exists.mp (ExtTreeMap.mem_iff_isSome_getElem?.mp hn)
    refine List.ne_nil_of_mem (a := (n, p)) ?_
    rw [dropUpdatesBelowLevel, List.mem_filter, hL.mem_iff]
    exact ⟨ExtTreeMap.mem_toList_iff_getElem?_eq_some.mpr hp,
      decide_eq_true ((hmain.lt_iff (by omega) (by omega)).mpr (Nat.lt_succ_self _))⟩
  · intro hne
    obtain ⟨e, he⟩ := List.exists_mem_of_ne_nil _ hne
    refine ⟨e.1, ?_, (hlists.mem e he).1⟩
    have hmem := hL.subset (List.mem_of_mem_filter he)
    rw [ExtTreeMap.mem_iff_isSome_getElem?, ExtTreeMap.mem_toList_iff_getElem?_eq_some.mp hmem]
    rfl

theorem Tracks.cacheDeferred (hst : Tracks K A w₀ w T root st)
    (hL : Lists (MainRange 0 st.deferredLevels) (K.trieOf w₀) (K.trieOf w) L) :
    Tracks K A w w T root (cacheNodes { st with updates := ∅ } L) := by
  obtain ⟨hpos, hd⟩ := hst.levels
  rw [mainTrieLevels] at hd
  have hcommitment : ∀ n, (cacheNodes { st with updates := ∅ } L).commitment n =
      (st.applyUpdatesToCaches L).commitment n := by
    intro n
    rw [cacheNodes_fields, applyUpdatesToCaches_fields]
    rfl
  have hkept : ∀ n, NodeFrom st.deferredLevels n →
      (cacheNodes { st with updates := ∅ } L).commitment n = st.commitment n := by
    intro n hn
    rw [hcommitment, commitment_apply_of_notMem fun hmem ↦ nodeFrom_disjoint (by omega) hn (hL.domain hmem)]
  have hlevels : (cacheNodes { st with updates := ∅ } L).deferredLevels =
      st.deferredLevels := by rw [cacheNodes_fields]
  constructor
  · exact hst.mirrors.congr fun n hn ↦ hkept n (.inl hn)
  · intro l hdl hl x hx
    rw [hlevels] at hdl
    exact (hst.tracked l hdl hl x hx).congr (hkept _ (.inr ⟨l, hdl, hl, mainAt_nodeAt hx⟩))
  · intro l hl x hx
    rw [hlevels] at hl
    have h := hst.deferred l hl x hx
    rw [← Committer.trieOf_main (by omega) hx] at h ⊢
    exact (Knows.apply hL ⟨l, Nat.zero_le l, hl, mainAt_nodeAt hx⟩ h).congr (hcommitment _)
  · rw [cacheNodes_fields]
    exact .empty _ _
  · rw [cacheNodes_fields]
    exact hst.stored
  · rw [hlevels]
    exact hst.levels
  · rw [cacheNodes_fields]
    exact hst.batch
  · exact hst.left

/-- Finalizing gives all changes since the last time, and nothing is pending after it. The root hash is the one of the
new trie, but if no change waits it is the one in the store. -/
theorem finalize_tracks {order : TrieUpdates C → TrieUpdates C} (horder : ∀ l, (order l).Perm l)
    (hst : Tracks K A w₀ w T root st) :
    Sat (st.finalize K threads order) (fun _ ↦ A) fun r ↦ Tracks K A w w T root r.1 ∧
      (∀ b, KnowsCapacity A w st b → KnowsCapacity A w r.1 b) ∧ r.1.updates = ∅ ∧
      (st.Waits → r.2.1 = K.hash (K.mainNode w 0 0)) ∧
      (¬ st.Waits → r.2.1 = K.hash root ∧ K.mainNode w₀ 0 0 = K.mainNode w 0 0) ∧
      Lists (NodeFrom 0) (K.trieOf w₀) (K.trieOf w) r.2.2 := by
  obtain ⟨hpos, hd⟩ := hst.levels
  rw [mainTrieLevels] at hd
  have hL := hst.pending.lists.perm (horder st.updates.toList).symm
  rw [finalize]
  have hclimb : Sat (StateRoot.updateMainTrie K threads { st with updates := ∅ } (order st.updates.toList)
      (st.deferredLevels + 1)) (fun _ ↦ A) _ :=
    updateMainTrie_sat hst.batch hpos (by omega) hL hst.deferred hst.stored
  refine hclimb.bind ?_
  rintro ⟨rootHash, out⟩ ⟨hhash, hstored, hout⟩
  dsimp only at hhash hstored hout
  have hwaits := hst.waits_iff (horder st.updates.toList)
  have hdeferred : Lists (MainRange 0 st.deferredLevels) (K.trieOf w₀) (K.trieOf w)
      (dropUpdatesBelowLevel out st.deferredLevels) :=
    (hout.filter (· < leftmostNode st.deferredLevels)).congr (fun _ ↦ nodeFrom_above (by omega)) (fun _ _ ↦ rfl)
      fun _ _ ↦ rfl
  refine Sat.ok ⟨hst.cacheDeferred hdeferred, fun b hb ↦ ?_, ?_, fun h ↦ hhash (hwaits.mp h),
    fun h ↦ hstored (not_not.mp (mt hwaits.mpr h)), hout⟩
  · rw [cacheNodes_fields]
    exact hb
  · rw [cacheNodes_fields]

/-- The root hash is right where the root has changed, and where the store has the root of the last time. -/
theorem finalize_sat {order : TrieUpdates C → TrieUpdates C} (horder : ∀ l, (order l).Perm l)
    (hroot : K.mainNode w₀ 0 0 = root ∨ K.mainNode w₀ 0 0 ≠ K.mainNode w 0 0) (hst : Tracks K A w₀ w T root st) :
    Sat (st.finalize K threads order) (fun _ ↦ A) fun r ↦ Tracks K A w w T root r.1 ∧
      (∀ b, KnowsCapacity A w st b → KnowsCapacity A w r.1 b) ∧ r.2.1 = K.hash (K.mainNode w 0 0) ∧
      Lists (NodeFrom 0) (K.trieOf w₀) (K.trieOf w) r.2.2 := by
  refine (finalize_tracks horder hst).mono ?_
  rintro r ⟨htracks, hcapacity, -, hhash, hstored, hlists⟩
  refine ⟨htracks, hcapacity, ?_, hlists⟩
  by_cases hwaits : st.Waits
  · exact hhash hwaits
  · obtain ⟨hhash, hsame⟩ := hstored hwaits
    rw [hhash, ← hroot.resolve_right (not_not.mpr hsame), hsame]

end Tracking

end StateRoot

end Salt
