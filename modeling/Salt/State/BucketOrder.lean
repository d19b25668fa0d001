import Salt.State.SafeCommands
import Salt.Library.Footprint
import Salt.Library.Triple

namespace Salt

open Std (ExtTreeMap)
open Library.Commands Library.Commands.Program

/-- The bucket a key is about: the bucket of a slot, or the bucket that a metadata entry describes. -/
def owner (key : SaltKey) : ℕ := if key.isInMetaBucket then bucketIdFromMetadataKey key else key.bucketId

theorem owner_metadataKey {b : ℕ} (hb : isValidDataBucket b) : owner (metadataKey b) = b := by
  rw [owner, if_pos (metadataKey_inMeta hb), bucketIdFromMetadataKey_metadataKey hb]

def SessionCommand.Concerns (b : ℕ) : SessionCommand → Prop
  | .value key => owner key = b
  | .shapeOf b' => b' = b
  | .usageCount b' => b' = b
  | .plainValueFast _ => True
  | .updateValue key oldValue newValue =>
    owner key = b ∧ (key.isInMetaBucket = false ∨ oldValue.isSome = newValue.isSome)
  | .cacheInsert key _ => owner key = b
  | .cacheRemove key => owner key = b
  | .add key _ _ => owner key = b
  | .lowerUsage b' _ => b' = b
  | .insertRehashed b' => b' = b
  | .takeRehashed => False
  | .clearRehashed => False
  | .replaceUpdates _ => False

instance (b : ℕ) : (c : SessionCommand) → Decidable (c.Concerns b)
  | .value key => inferInstanceAs (Decidable (owner key = b))
  | .shapeOf b' => inferInstanceAs (Decidable (b' = b))
  | .usageCount b' => inferInstanceAs (Decidable (b' = b))
  | .plainValueFast _ => inferInstanceAs (Decidable True)
  | .updateValue key oldValue newValue => inferInstanceAs
    (Decidable (owner key = b ∧ (key.isInMetaBucket = false ∨ oldValue.isSome = newValue.isSome)))
  | .cacheInsert key _ => inferInstanceAs (Decidable (owner key = b))
  | .cacheRemove key => inferInstanceAs (Decidable (owner key = b))
  | .add key _ _ => inferInstanceAs (Decidable (owner key = b))
  | .lowerUsage b' _ => inferInstanceAs (Decidable (b' = b))
  | .insertRehashed b' => inferInstanceAs (Decidable (b' = b))
  | .takeRehashed => inferInstanceAs (Decidable False)
  | .clearRehashed => inferInstanceAs (Decidable False)
  | .replaceUpdates _ => inferInstanceAs (Decidable False)

structure SameBucket (b : ℕ) (s t : OpenSession) : Prop where
  store : s.1.store = t.1.store
  cacheRead : s.1.cacheRead = t.1.cacheRead
  cache : ∀ k : SaltKey, owner k = b → s.1.cache[k]? = t.1.cache[k]?
  delta : s.1.usageCountDelta[b]? = t.1.usageCountDelta[b]?
  rehashed : b ∈ s.1.rehashedBuckets ↔ b ∈ t.1.rehashedBuckets
  updates : ∀ k : SaltKey, owner k = b → s.2.data[k]? = t.2.data[k]?

namespace SameBucket

variable {b j : ℕ} {s t : OpenSession}

theorem equivalence (b : ℕ) : Equivalence (SameBucket b) where
  refl _ := ⟨rfl, rfl, fun _ _ ↦ rfl, rfl, Iff.rfl, fun _ _ ↦ rfl⟩
  symm h := ⟨h.store.symm, h.cacheRead.symm, fun k hk ↦ (h.cache k hk).symm, h.delta.symm, h.rehashed.symm,
    fun k hk ↦ (h.updates k hk).symm⟩
  trans h h' := ⟨h.store.trans h'.store, h.cacheRead.trans h'.cacheRead,
    fun k hk ↦ (h.cache k hk).trans (h'.cache k hk), h.delta.trans h'.delta, h.rehashed.trans h'.rehashed,
    fun k hk ↦ (h.updates k hk).trans (h'.updates k hk)⟩

theorem refl (b : ℕ) (s : OpenSession) : SameBucket b s s := (equivalence b).refl s

theorem insert (h : SameBucket b s t) (k : SaltKey) (v : Option SaltValue) :
    SameBucket b ({ s.1 with cache := s.1.cache.insert k v }, s.2)
      ({ t.1 with cache := t.1.cache.insert k v }, t.2) := by
  refine ⟨h.store, h.cacheRead, fun k' hk' ↦ ?_, h.delta, h.rehashed, h.updates⟩
  simp only [ExtTreeMap.getElem?_insert, h.cache k' hk']

theorem insert_other {k : SaltKey} (hk : owner k ≠ j) (v : Option SaltValue) :
    SameBucket j ({ s.1 with cache := s.1.cache.insert k v }, s.2) s := by
  refine ⟨rfl, rfl, fun k' hk' ↦ ?_, rfl, Iff.rfl, fun _ _ ↦ rfl⟩
  rw [ExtTreeMap.getElem?_insert, if_neg fun he ↦ hk ?_]
  rwa [Std.LawfulEqCmp.compare_eq_iff_eq.mp he]

theorem erase (h : SameBucket b s t) (k : SaltKey) :
    SameBucket b ({ s.1 with cache := s.1.cache.erase k }, s.2) ({ t.1 with cache := t.1.cache.erase k }, t.2) := by
  refine ⟨h.store, h.cacheRead, fun k' hk' ↦ ?_, h.delta, h.rehashed, h.updates⟩
  simp only [ExtTreeMap.getElem?_erase, h.cache k' hk']

theorem erase_other {k : SaltKey} (hk : owner k ≠ j) :
    SameBucket j ({ s.1 with cache := s.1.cache.erase k }, s.2) s := by
  refine ⟨rfl, rfl, fun k' hk' ↦ ?_, rfl, Iff.rfl, fun _ _ ↦ rfl⟩
  rw [ExtTreeMap.getElem?_erase, if_neg fun he ↦ hk ?_]
  rwa [Std.LawfulEqCmp.compare_eq_iff_eq.mp he]

theorem count (h : SameBucket b s t) (n : ℤ) :
    SameBucket b ({ s.1 with usageCountDelta := s.1.usageCountDelta.insert b n }, s.2)
      ({ t.1 with usageCountDelta := t.1.usageCountDelta.insert b n }, t.2) := by
  refine ⟨h.store, h.cacheRead, h.cache, ?_, h.rehashed, h.updates⟩
  simp only [ExtTreeMap.getElem?_insert, Std.compare_self, if_true]

theorem count_other (hj : j ≠ b) (n : ℤ) :
    SameBucket j ({ s.1 with usageCountDelta := s.1.usageCountDelta.insert b n }, s.2) s := by
  refine ⟨rfl, rfl, fun _ _ ↦ rfl, ?_, Iff.rfl, fun _ _ ↦ rfl⟩
  rw [ExtTreeMap.getElem?_insert, if_neg fun he ↦ hj (Std.LawfulEqCmp.compare_eq_iff_eq.mp he).symm]

theorem with_updates (h : SameBucket b s t) {u v : StateUpdates}
    (huv : ∀ k : SaltKey, owner k = b → u.data[k]? = v.data[k]?) :
    SameBucket b (s.1, u) (t.1, v) :=
  ⟨h.store, h.cacheRead, h.cache, h.delta, h.rehashed, huv⟩

def caching (s : OpenSession) (k : SaltKey) (v : Option SaltValue) : OpenSession :=
  (if s.1.cacheRead then { s.1 with cache := s.1.cache.insert k v } else s.1, s.2)

theorem caching_same (h : SameBucket b s t) (k : SaltKey) (v : Option SaltValue) :
    SameBucket b (caching s k v) (caching t k v) := by
  rw [caching, caching, h.cacheRead]
  split
  · exact h.insert k v
  · exact h

theorem caching_other {k : SaltKey} (hk : owner k ≠ j) (v : Option SaltValue) : SameBucket j (caching s k v) s := by
  rw [caching]
  split
  · exact insert_other hk v
  · exact refl j s

def counting (s : OpenSession) (b : ℕ) (d : ℤ) : OpenSession :=
  if d = 0 then s
  else ({ s.1 with usageCountDelta := s.1.usageCountDelta.insert b ((s.1.usageCountDelta[b]?).getD 0 + d) }, s.2)

theorem counting_same (h : SameBucket b s t) {b' : ℕ} {d : ℤ} (hd : d ≠ 0 → b' = b) :
    SameBucket b (counting s b' d) (counting t b' d) := by
  by_cases hzero : d = 0
  · rw [counting, counting, if_pos hzero, if_pos hzero]
    exact h
  · rw [counting, counting, if_neg hzero, if_neg hzero, hd hzero, h.delta]
    exact h.count _

theorem counting_other {b' : ℕ} {d : ℤ} (hd : d ≠ 0 → b' ≠ j) : SameBucket j (counting s b' d) s := by
  by_cases hzero : d = 0
  · rw [counting, if_pos hzero]
    exact refl j s
  · rw [counting, if_neg hzero]
    exact count_other (Ne.symm (hd hzero)) _

end SameBucket

theorem StateUpdates.add_congr {u v : StateUpdates} {k : SaltKey}
    (h : u.data[k]? = v.data[k]?) (o n : Option SaltValue) :
    (∃ e, u.add k o n = .error e ∧ v.add k o n = .error e) ∨
      ∃ u' v', u.add k o n = .ok u' ∧ v.add k o n = .ok v' ∧
        (∀ k' : SaltKey, u.data[k']? = v.data[k']? → u'.data[k']? = v'.data[k']?) ∧
        ∀ k' : SaltKey, k' ≠ k → u'.data[k']? = u.data[k']? := by
  have hinsert : ∀ (x : Option SaltValue × Option SaltValue) (k' : SaltKey), u.data[k']? = v.data[k']? →
      (u.data.insert k x)[k']? = (v.data.insert k x)[k']? := fun x k' hk' ↦ by
    rw [ExtTreeMap.getElem?_insert, ExtTreeMap.getElem?_insert, hk']
  have hinsert' : ∀ (x : Option SaltValue × Option SaltValue) (k' : SaltKey), k' ≠ k →
      (u.data.insert k x)[k']? = u.data[k']? := fun x k' hk' ↦ by
    rw [ExtTreeMap.getElem?_insert, if_neg fun he ↦ hk' (Std.LawfulEqCmp.compare_eq_iff_eq.mp he).symm]
  have herase : ∀ k' : SaltKey, u.data[k']? = v.data[k']? → (u.data.erase k)[k']? = (v.data.erase k)[k']? :=
    fun k' hk' ↦ by rw [ExtTreeMap.getElem?_erase, ExtTreeMap.getElem?_erase, hk']
  have herase' : ∀ k' : SaltKey, k' ≠ k → (u.data.erase k)[k']? = u.data[k']? := fun k' hk' ↦ by
    rw [ExtTreeMap.getElem?_erase, if_neg fun he ↦ hk' (Std.LawfulEqCmp.compare_eq_iff_eq.mp he).symm]
  rw [StateUpdates.add, StateUpdates.add, StateUpdates.tryAdd, StateUpdates.tryAdd, h]
  cases v.data[k]? with
  | none =>
    simp only
    split_ifs
    · exact .inr ⟨_, _, rfl, rfl, hinsert _, hinsert' _⟩
    · exact .inr ⟨u, v, rfl, rfl, fun _ hk' ↦ hk', fun _ _ ↦ rfl⟩
  | some c =>
    obtain ⟨old, new⟩ := c
    simp only
    split_ifs
    · exact .inl ⟨_, rfl, rfl⟩
    · exact .inr ⟨_, _, rfl, rfl, herase, herase'⟩
    · exact .inr ⟨_, _, rfl, rfl, hinsert _, hinsert' _⟩

section Local

variable {b : ℕ} {k : SaltKey}

theorem handle_value (s : OpenSession) : handle (.value k) s =
    match s.1.cache[k]? with
    | some v => (.ok v, s)
    | none =>
      match s.1.store.value k with
      | .ok v => (.ok v, SameBucket.caching s k v)
      | .error e => (.error e, s) := by
  simp only [handle, EphemeralSaltState.value]
  cases s.1.cache[k]? with
  | some v => rfl
  | none => cases s.1.store.value k <;> rfl

theorem local_value (hk : owner k = b) : Local handle SameBucket b (.value k) where
  respects s t h := by
    rw [handle_value, handle_value, h.cache k hk, h.store]
    cases t.1.cache[k]? with
    | some v => exact ⟨rfl, h⟩
    | none =>
      cases t.1.store.value k with
      | error e => exact ⟨rfl, h⟩
      | ok v => exact ⟨rfl, h.caching_same k v⟩
  frame s j hj := by
    rw [handle_value]
    cases s.1.cache[k]? with
    | some v => exact .refl j s
    | none =>
      cases s.1.store.value k with
      | error e => exact .refl j s
      | ok v => exact .caching_other (fun he ↦ hj (he.symm.trans hk)) v

theorem handle_shapeOf (hb : isValidDataBucket b) (s : OpenSession) : handle (.shapeOf b) s =
    match s.1.cache[metadataKey b]? with
    | some (some v) =>
      match BucketMeta.tryFrom v with
      | .ok m => (.ok { m with used := none }, s)
      | .error _ => (.error (.panic .metadataDecode), s)
    | some none => (.ok BucketMeta.default, s)
    | none =>
      match s.1.store.metadata b with
      | .ok m => (.ok { m with used := none },
          SameBucket.caching s (metadataKey b) (if m.isDefault then none else some (SaltValue.ofMeta m)))
      | .error e => (.error e, s) := by
  simp only [handle, EphemeralSaltState.shapeOf, bucketMetadataKey, hb, if_true, Library.Triple.ok_bind]
  rcases s.1.cache[metadataKey b]? with _ | _ | v
  · cases s.1.store.metadata b <;> rfl
  · rfl
  · simp only
    cases BucketMeta.tryFrom v <;> rfl

theorem handle_shapeOf_invalid (hb : ¬ isValidDataBucket b) (s : OpenSession) :
    handle (.shapeOf b) s = (.error (.panic (.notDataBucket b)), s) := by
  simp only [handle, EphemeralSaltState.shapeOf, bucketMetadataKey, hb]
  rfl

theorem local_shapeOf : Local handle SameBucket b (.shapeOf b) := by
  by_cases hb : isValidDataBucket b
  · have hk := owner_metadataKey hb
    refine ⟨fun s t h ↦ ?_, fun s j hj ↦ ?_⟩
    · rw [handle_shapeOf hb, handle_shapeOf hb, h.cache _ hk, h.store]
      rcases t.1.cache[metadataKey b]? with _ | _ | v
      · cases t.1.store.metadata b with
        | error e => exact ⟨rfl, h⟩
        | ok m => exact ⟨rfl, h.caching_same _ _⟩
      · exact ⟨rfl, h⟩
      · simp only
        cases BucketMeta.tryFrom v with
        | error e => exact ⟨rfl, h⟩
        | ok m => exact ⟨rfl, h⟩
    · rw [handle_shapeOf hb]
      rcases s.1.cache[metadataKey b]? with _ | _ | v
      · cases s.1.store.metadata b with
        | error e => exact .refl j s
        | ok m => exact .caching_other (fun he ↦ hj (he.symm.trans hk)) _
      · exact .refl j s
      · simp only
        cases BucketMeta.tryFrom v with
        | error e => exact .refl j s
        | ok m => exact .refl j s
  · refine ⟨fun s t h ↦ ?_, fun s _ _ ↦ ?_⟩
    · rw [handle_shapeOf_invalid hb, handle_shapeOf_invalid hb]
      exact ⟨rfl, h⟩
    · rw [handle_shapeOf_invalid hb]
      exact .refl _ s

theorem local_usageCount : Local handle SameBucket b (.usageCount b) where
  respects s t h := by
    simp only [handle, EphemeralSaltState.usageCount, h.store, h.delta]
    exact ⟨trivial, h⟩
  frame s j _ := .refl j s

theorem handle_updateValue (o n : Option SaltValue) (s : OpenSession) : handle (.updateValue k o n) s =
    if o = n then (.ok (), s)
    else
      let counted := SameBucket.counting s k.bucketId (n.isSome.toNat - o.isSome.toNat)
      match s.2.add k o n with
      | .ok out => (.ok (), ({ counted.1 with cache := counted.1.cache.insert k n }, out))
      | .error e => (.error e, counted) := by
  simp only [handle, recordValue, SameBucket.counting]
  by_cases hon : o = n
  · rw [if_pos hon, if_pos hon]
  · rw [if_neg hon, if_neg hon]
    by_cases hzero : (n.isSome.toNat - o.isSome.toNat : ℤ) = 0
    · cases hadd : s.2.add k o n <;> simp only [if_pos hzero]
    · cases hadd : s.2.add k o n <;> simp only [if_neg hzero]

theorem local_updateValue {o n : Option SaltValue} (hk : owner k = b)
    (hn : k.isInMetaBucket = false ∨ o.isSome = n.isSome) : Local handle SameBucket b (.updateValue k o n) := by
  have hbucket : (n.isSome.toNat - o.isSome.toNat : ℤ) ≠ 0 → k.bucketId = b := by
    intro hne
    rcases hn with hmeta | hsame
    · rw [← hk, owner, if_neg (by rw [hmeta]; decide)]
    · rw [hsame, sub_self] at hne
      exact absurd rfl hne
  refine ⟨fun s t h ↦ ?_, fun s j hj ↦ ?_⟩
  · rw [handle_updateValue, handle_updateValue]
    split_ifs
    · exact ⟨rfl, h⟩
    have hcounted := h.counting_same hbucket
    obtain ⟨e, hs, ht⟩ | ⟨u, v, hs, ht, hsame, -⟩ := StateUpdates.add_congr (h.updates k hk) o n
    · rw [hs, ht]
      exact ⟨rfl, hcounted⟩
    · rw [hs, ht]
      exact ⟨rfl, (hcounted.insert k n).with_updates fun k' hk' ↦ hsame k' (h.updates k' hk')⟩
  · have hother : owner k ≠ j := fun he ↦ hj (he.symm.trans hk)
    rw [handle_updateValue]
    split_ifs
    · exact .refl j s
    have hcounted : SameBucket j (SameBucket.counting s k.bucketId (n.isSome.toNat - o.isSome.toNat)) s :=
      .counting_other fun hne he ↦ hj (he.symm.trans (hbucket hne))
    obtain ⟨e, hs, -⟩ | ⟨u, v, hs, -, -, hrest⟩ := StateUpdates.add_congr (u := s.2) (v := s.2) (k := k) rfl o n
    · rw [hs]
      exact hcounted
    · rw [hs]
      have hinsert := (SameBucket.equivalence j).trans (SameBucket.insert_other hother n) hcounted
      refine hinsert.with_updates fun k' hk' ↦ hrest k' ?_
      rintro rfl
      exact hother hk'

theorem local_add {o n : Option SaltValue} (hk : owner k = b) : Local handle SameBucket b (.add k o n) where
  respects s t h := by
    simp only [handle, recordChange]
    obtain ⟨e, hs, ht⟩ | ⟨u, v, hs, ht, hsame, -⟩ := StateUpdates.add_congr (h.updates k hk) o n
    · rw [hs, ht]
      exact ⟨rfl, h⟩
    · rw [hs, ht]
      exact ⟨rfl, h.with_updates fun k' hk' ↦ hsame k' (h.updates k' hk')⟩
  frame s j hj := by
    simp only [handle, recordChange]
    obtain ⟨e, hs, -⟩ | ⟨u, v, hs, -, -, hother⟩ := StateUpdates.add_congr (u := s.2) (v := s.2) (k := k) rfl o n
    · rw [hs]
      exact .refl j s
    · rw [hs]
      refine (SameBucket.refl j s).with_updates fun k' hk' ↦ hother k' ?_
      rintro rfl
      exact hj (hk'.symm.trans hk)

theorem local_cacheInsert (hk : owner k = b) (v : Option SaltValue) : Local handle SameBucket b (.cacheInsert k v) where
  respects _ _ h := ⟨rfl, h.insert k v⟩
  frame _ _ hj := .insert_other (fun he ↦ hj (he.symm.trans hk)) v

theorem local_cacheRemove (hk : owner k = b) : Local handle SameBucket b (.cacheRemove k) where
  respects _ _ h := ⟨rfl, h.erase k⟩
  frame _ _ hj := .erase_other fun he ↦ hj (he.symm.trans hk)

theorem local_lowerUsage (n : ℕ) : Local handle SameBucket b (.lowerUsage b n) where
  respects s t h := by
    refine ⟨rfl, ?_⟩
    simp only [handle, h.delta]
    exact h.count _
  frame _ _ hj := .count_other hj _

theorem insertRehashed_rest (st : EphemeralSaltState) : st.insertRehashed b =
    { st with rehashedBuckets := (st.insertRehashed b).rehashedBuckets } := by
  unfold EphemeralSaltState.insertRehashed
  split_ifs <;> rfl

theorem local_insertRehashed : Local handle SameBucket b (.insertRehashed b) where
  respects s t h := by
    refine ⟨rfl, ?_⟩
    simp only [handle]
    rw [insertRehashed_rest s.1, insertRehashed_rest t.1]
    refine ⟨h.store, h.cacheRead, h.cache, h.delta, ?_, h.updates⟩
    rw [EphemeralSaltState.mem_insertRehashed, EphemeralSaltState.mem_insertRehashed]
    exact ⟨fun _ ↦ .inl rfl, fun _ ↦ .inl rfl⟩
  frame s j hj := by
    simp only [handle]
    rw [insertRehashed_rest s.1]
    refine ⟨rfl, rfl, fun _ _ ↦ rfl, rfl, ?_, fun _ _ ↦ rfl⟩
    rw [EphemeralSaltState.mem_insertRehashed]
    exact ⟨fun h ↦ h.resolve_left hj, .inr⟩

theorem SessionCommand.Concerns.local {c : SessionCommand} (h : c.Concerns b) : Local handle SameBucket b c := by
  cases c with
  | value k => exact local_value h
  | shapeOf b' => exact h ▸ local_shapeOf
  | usageCount b' => exact h ▸ local_usageCount
  | plainValueFast key =>
    refine ⟨fun s t hst ↦ ?_, fun s j _ ↦ .refl j s⟩
    simp only [handle, hst.store]
    exact ⟨trivial, hst⟩
  | updateValue k o n => exact local_updateValue h.1 h.2
  | cacheInsert k v => exact local_cacheInsert h v
  | cacheRemove k => exact local_cacheRemove h
  | add k o n => exact local_add h
  | lowerUsage b' n => exact h ▸ local_lowerUsage n
  | insertRehashed b' => exact h ▸ local_insertRehashed
  | takeRehashed => exact h.elim
  | clearRehashed => exact h.elim
  | replaceUpdates out => exact h.elim

end Local

section Canonicalize

variable {H : Hasher} {fuel : ℕ} {s t : OpenSession}

def drained (s : OpenSession) : OpenSession := ({ s.1 with rehashedBuckets := [] }, .empty)

theorem exec_canonicalize (order : List ℕ → List ℕ) (s : OpenSession) :
    exec handle (Interaction.canonicalize H fuel order) s =
      match exec handle ((order s.1.rehashedBuckets).foldlM (fun _ b ↦ Interaction.canonicalizeBucket H fuel b) ())
        (drained s) with
      | (.ok _, s') => (.ok s'.2, ({ s'.1 with rehashedBuckets := [] }, s.2))
      | (.error e, s') => (.error e, s') := by
  rw [Interaction.canonicalize, Interaction.replaceUpdates, exec_bind]
  change exec handle (_ >>= _) (drained s) = _
  rw [exec_bind]
  simp only [handle]
  rcases exec handle ((order s.1.rehashedBuckets).foldlM (fun _ b ↦ Interaction.canonicalizeBucket H fuel b) ())
    (drained s) with ⟨_ | _, s'⟩ <;> rfl

/-- The part of `canonicalize` for each rehashed bucket succeeds on its own and deals with that bucket only. -/
def Independent (H : Hasher) (fuel : ℕ) (s : OpenSession) : Prop :=
  ∀ b ∈ s.1.rehashedBuckets,
    (exec handle (Interaction.canonicalizeBucket H fuel b) (drained s)).1 = .ok () ∧
    ∀ c ∈ log handle (fun c ↦ [c]) (Interaction.canonicalizeBucket H fuel b) (drained s), c.Concerns b

theorem sessions_eq (h : ∀ b, SameBucket b s t) :
    s.2 = t.2 ∧ ({ s.1 with rehashedBuckets := [] } : EphemeralSaltState) = { t.1 with rehashedBuckets := [] } := by
  have hcache : s.1.cache = t.1.cache := ExtTreeMap.ext_getElem? fun k ↦ (h (owner k)).cache k rfl
  have hdelta : s.1.usageCountDelta = t.1.usageCountDelta := ExtTreeMap.ext_getElem? fun b ↦ (h b).delta
  have hupdates : s.2.data = t.2.data := ExtTreeMap.ext_getElem? fun k ↦ (h (owner k)).updates k rfl
  refine ⟨congrArg StateUpdates.mk hupdates, ?_⟩
  change EphemeralSaltState.mk s.1.store s.1.cache s.1.usageCountDelta [] s.1.cacheRead = _
  rw [hcache, hdelta, (h 0).store, (h 0).cacheRead]

theorem canonicalize_order {order order' : List ℕ → List ℕ} (hn : s.1.rehashedBuckets.Nodup)
    (ho : (order s.1.rehashedBuckets).Perm s.1.rehashedBuckets)
    (ho' : (order' s.1.rehashedBuckets).Perm s.1.rehashedBuckets) (h : Independent H fuel s) :
    exec handle (Interaction.canonicalize H fuel order) s = exec handle (Interaction.canonicalize H fuel order') s := by
  have hin : ∀ b ∈ order s.1.rehashedBuckets, b ∈ s.1.rehashedBuckets := fun b hb ↦ ho.mem_iff.mp hb
  obtain ⟨hok, hok', hsame⟩ := exec_foldlM_perm SameBucket.equivalence (ho.nodup_iff.mpr hn) (ho.trans ho'.symm)
    (fun b hb c hc ↦ ((h b (hin b hb)).2 c hc).local) fun b hb ↦ (h b (hin b hb)).1
  obtain ⟨hupdates, hstate⟩ := sessions_eq hsame
  rw [exec_canonicalize, exec_canonicalize]
  revert hok hok' hupdates hstate
  rcases exec handle ((order s.1.rehashedBuckets).foldlM (fun _ b ↦ Interaction.canonicalizeBucket H fuel b) ())
    (drained s) with ⟨_, s'⟩
  rcases exec handle ((order' s.1.rehashedBuckets).foldlM (fun _ b ↦ Interaction.canonicalizeBucket H fuel b) ())
    (drained s) with ⟨_, t'⟩
  rintro rfl rfl hupdates hstate
  simp only at hupdates hstate ⊢
  rw [hupdates, hstate]

theorem handle_nodup (c : SessionCommand) (s : OpenSession) (h : s.1.rehashedBuckets.Nodup) :
    (handle c s).2.1.rehashedBuckets.Nodup := by
  have hcaching : ∀ k v, (SameBucket.caching s k v).1.rehashedBuckets = s.1.rehashedBuckets := fun k v ↦ by
    rw [SameBucket.caching]
    split_ifs <;> rfl
  cases c with
  | value k =>
    rw [handle_value]
    cases s.1.cache[k]? with
    | some v => exact h
    | none =>
      cases s.1.store.value k with
      | error e => exact h
      | ok v => exact (hcaching k v).symm ▸ h
  | shapeOf b =>
    by_cases hb : isValidDataBucket b
    · rw [handle_shapeOf hb]
      rcases s.1.cache[metadataKey b]? with _ | _ | v
      · cases s.1.store.metadata b with
        | error e => exact h
        | ok m => exact (hcaching _ _).symm ▸ h
      · exact h
      · simp only
        cases BucketMeta.tryFrom v <;> exact h
    · rw [handle_shapeOf_invalid hb]
      exact h
  | usageCount b => exact h
  | plainValueFast key => exact h
  | updateValue k o n =>
    have hcounting : ∀ b d, (SameBucket.counting s b d).1.rehashedBuckets = s.1.rehashedBuckets := fun b d ↦ by
      rw [SameBucket.counting]
      split_ifs <;> rfl
    rw [handle_updateValue]
    split_ifs
    · exact h
    · cases s.2.add k o n <;> exact (hcounting _ _).symm ▸ h
  | cacheInsert k v => exact h
  | cacheRemove k => exact h
  | add k o n =>
    simp only [handle, recordChange]
    cases s.2.add k o n <;> exact h
  | lowerUsage b n => exact h
  | insertRehashed b =>
    simp only [handle, EphemeralSaltState.insertRehashed]
    split_ifs with hin
    · exact h
    · exact List.nodup_cons.mpr ⟨hin, h⟩
  | takeRehashed => exact List.nodup_nil
  | clearRehashed => exact List.nodup_nil
  | replaceUpdates out => exact h

end Canonicalize

end Salt
