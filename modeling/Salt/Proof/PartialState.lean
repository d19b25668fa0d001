import Salt.Proof.Witness
import Salt.State.Usage

namespace Salt

open Std (ExtTreeMap LawfulEqCmp)
open Library.OrderedTable Library.Triple
open EphemeralSaltState
open Library.ProbeRing (probe probe_lt)

variable {C : Type} {w : SaltWitness C} {s : StateStore} {H : Hasher} {M : Bytes → Option Bytes}
  {rd : StateReader} {F : Full} {st : EphemeralSaltState} {A : Fault → Prop} {fuel : ℕ}

theorem Located.unique {v : SaltKey → Option SaltValue} (hg : Good H v) {k : Bytes} {sk sk' : SaltKey}
    {x x' : SaltValue} (h : Located v k sk x) (h' : Located v k sk' x') : sk = sk' ∧ x = x' := by
  have hb := hg _ (H.bucketId_data k)
  obtain ⟨a, ha, rfl, hx⟩ := h.slot hg
  obtain ⟨a', ha', rfl, hx'⟩ := h'.slot hg
  obtain rfl := hb.ordered.slot_unique hb.capacity_pos ha ha' hx hx' (h.2.2.trans h'.2.2.symm)
  exact ⟨rfl, Option.some.inj (hx.symm.trans hx')⟩

def Answers (H : Hasher) (v : SaltKey → Option SaltValue) (k : Bytes) :
    Option (SaltKey × SaltValue) → Prop
  | some (sk, x) => Located v k sk x
  | none => ∀ x, Holds v (H.bucketId k) x → x.key ≠ k

theorem Answers.unique {v : SaltKey → Option SaltValue} (hg : Good H v) {k : Bytes}
    {r r' : Option (SaltKey × SaltValue)} (h : Answers H v k r) (h' : Answers H v k r') : r = r' := by
  have absent : ∀ {sk x}, Located v k sk x → ¬ Answers H v k none := by
    intro sk x hl hnone
    obtain ⟨a, ha, -, hx⟩ := hl.slot hg
    exact hnone x ⟨a, ha, hx⟩ hl.2.2
  rcases r with _ | ⟨sk, x⟩ <;> rcases r' with _ | ⟨sk', x'⟩
  · rfl
  · exact absurd h (absent h')
  · exact absurd h' (absent h)
  · obtain ⟨rfl, rfl⟩ := Located.unique hg h h'
    rfl

theorem find_answers (h : Steady H A F M st) (k : Bytes) :
    Sat (st.find H k) A (fun r ↦ Answers H (st.view F) k r.2) := by
  refine (find_spec h.live h.good k).mono fun r hr ↦ ?_
  have hr₂ := hr.2
  cases he : r.2 with
  | none =>
    rw [he] at hr₂
    exact hr₂
  | some e =>
    rw [he] at hr₂
    exact hr₂

/-- A lookup over any part of a canonical store fails, or gives the answer of the whole store. -/
theorem partial_reads_never_lie (hs : StateStore.Canonical H M s) (hw : SubMap w s)
    (hrd : rd = w.reader ∨ rd = (Witness.ofSaltWitness w).reader) (cacheFull cacheRead : Bool)
    (k : Bytes) :
    ∃ st found, (session s cacheFull).find H k = .ok (st, found) ∧
      (session s cacheFull).plainValue H k = .ok (st, found.map fun r ↦ r.2.value) ∧
      M k = found.map (fun r ↦ r.2.value) ∧
      ((∃ e, (sessionOver rd cacheRead).find H k = .error (.err e)) ∨
        ∃ st', (sessionOver rd cacheRead).find H k = .ok (st', found)) ∧
      ((∃ e, (sessionOver rd cacheRead).plainValue H k = .error (.err e)) ∨
        ∃ st', (sessionOver rd cacheRead).plainValue H k =
          .ok (st', found.map fun r ↦ r.2.value)) := by
  obtain ⟨hst, hview⟩ := session_steady hs (fun _ ↦ False) cacheFull
  obtain ⟨hst', hview'⟩ := sessionOver_steady hs (hw.reads hs (fun _ h ↦ h) hrd) cacheRead
  obtain ⟨⟨st, found⟩, hr, hans⟩ := (find_answers hst k).exists_ok
  have hplain : (session s cacheFull).plainValue H k = .ok (st, found.map fun r ↦ r.2.value) := by
    rw [plainValue, hr, ok_bind]
  refine ⟨st, found, hr, hplain, ?_, ?_⟩
  · obtain ⟨st₁, h₁⟩ := hst.plainValue_eq k
    rw [hplain] at h₁
    exact (congrArg Prod.snd (Except.ok.inj h₁)).symm
  · rcases sat_iff.mp (find_answers hst' k) with ⟨⟨st', found'⟩, hr', hans'⟩ | ⟨e, he, x, rfl⟩
    · rw [hview] at hans
      rw [hview'] at hans'
      obtain rfl := Answers.unique hs.good hans hans'
      exact ⟨.inr ⟨st', hr'⟩, .inr ⟨st', by rw [plainValue, hr', ok_bind]⟩⟩
    · refine ⟨.inl ⟨x, he⟩, .inl ⟨x, ?_⟩⟩
      rw [plainValue, he]
      rfl

section OnePair

variable {v : SaltValue} {b slot : ℕ}

theorem GoodBucket.place {u : SaltKey → Option SaltValue} (hg : GoodBucket H u b) (hb : isValidDataBucket b)
    (hv : v.WellFormed ∧ H.bucketId v.key = b) (hslot : slot = probe (home H u b v.key) 0 (metaAt u b).capacity)
    (hfree : slots u b slot = none) : GoodBucket H (Function.update u (SaltKey.ofPair b slot) (some v)) b := by
  have hlt : slot < (metaAt u b).capacity := hslot ▸ probe_lt hg.capacity_pos _ _
  have hlt' : slot < 2 ^ 40 := hlt.trans hg.capacity_lt
  have hmeta : metaAt (Function.update u (SaltKey.ofPair b slot) (some v)) b = metaAt u b := by
    refine metaAt_update_of_ne (fun heq ↦ ?_) _
    have hkey := ofPair_not_inMeta hb hlt'
    rw [heq, metadataKey_inMeta hb] at hkey
    cases hkey
  have hslots := slots_update (w := u) (dataBucket_lt hb) hlt' (some v)
  have hplaced : Ordered (metaAt u b).capacity (home H u b) SaltValue.key
      (Function.update (slots u b) slot (some v)) := by
    rw [hslot] at hfree ⊢
    exact hg.ordered.place hg.capacity_pos (fun i hi ↦ absurd hi (Nat.not_lt_zero i)) hfree
  have hhome : home H (Function.update u (SaltKey.ofPair b slot) (some v)) b = home H u b := by
    funext k
    rw [home, hmeta, home]
  refine ⟨hmeta ▸ hg.capacity_pos, hmeta ▸ hg.capacity_le, by rwa [hmeta, hhome, hslots], ?_, ?_⟩
  · intro a ha
    rw [hmeta] at ha
    rw [hslots, Function.update_of_ne (by omega)]
    exact hg.outside a ha
  · intro a x hx
    rw [hslots] at hx
    by_cases has : a = slot
    · rw [has, Function.update_self] at hx
      cases hx
      exact hv
    · rw [Function.update_of_ne has] at hx
      exact hg.entry a x hx

/-- A bucket of 512 slots with one pair, in its home slot. -/
def onePairStore (v : SaltValue) : StateStore :=
  (emptyTable (2 ^ 16) 0 512).updateState (singleUpdate (SaltKey.ofPair (2 ^ 16) 0) v)

theorem onePairStore_canonical (hv : v.WellFormed) :
    StateStore.Canonical flatHasher (Function.update (fun _ ↦ none) v.key (some v.value)) (onePairStore v) ∧
      (onePairStore v).content =
        Function.update (emptyTable (2 ^ 16) 0 512).content (SaltKey.ofPair (2 ^ 16) 0) (some v) := by
  have hb : isValidDataBucket (2 ^ 16) := by decide
  obtain ⟨hcan, hmeta⟩ := emptyTable_canonical (H := flatHasher) (b := 2 ^ 16) (c := 512) 0 hb (by decide) (by decide)
  change StateStore.Canonical flatHasher _ _ at hcan
  have hkey : (SaltKey.ofPair (2 ^ 16) 0).isInMetaBucket = false := ofPair_not_inMeta hb (by decide)
  have hnone : ∀ x, ¬ Holds (emptyTable (2 ^ 16) 0 512).content (2 ^ 16) x := by
    intro x hx
    have hsome := (hcan.represents x.key x.value).mpr ⟨x, hx, rfl, rfl⟩
    cases hsome
  have hfree : slots (emptyTable (2 ^ 16) 0 512).content (2 ^ 16) = fun _ ↦ none := by
    funext a
    refine Option.eq_none_iff_forall_ne_some.mpr fun x hx ↦ hnone x ?_
    exact (hcan.good _ hb).holds_iff.mpr ⟨a, hx⟩
  have hslot : (0 : ℕ) = probe (home flatHasher (emptyTable (2 ^ 16) 0 512).content (2 ^ 16) v.key) 0
      (metaAt (emptyTable (2 ^ 16) 0 512).content (2 ^ 16)).capacity := by
    rw [hmeta]
    rfl
  have hbucket : (SaltKey.ofPair (2 ^ 16) 0).bucketId = 2 ^ 16 := SaltKey.bucketId_ofPair (by norm_num) (by norm_num)
  have hraw : normalize (Function.update (emptyTable (2 ^ 16) 0 512).full.kv (SaltKey.ofPair (2 ^ 16) 0) (some v)) =
      Function.update (emptyTable (2 ^ 16) 0 512).content (SaltKey.ofPair (2 ^ 16) 0) (some v) := by
    rw [StateStore.content]
    funext k
    by_cases hk : k = SaltKey.ofPair (2 ^ 16) 0
    · rw [hk, normalize_data hkey, Function.update_self, Function.update_self]
    · rw [Function.update_of_ne hk, normalize, normalize, Function.update_of_ne hk]
  have hothers : ∀ b, isValidDataBucket b → b ≠ 2 ^ 16 →
      metaAt (Function.update (emptyTable (2 ^ 16) 0 512).content (SaltKey.ofPair (2 ^ 16) 0) (some v)) b =
        metaAt (emptyTable (2 ^ 16) 0 512).content b ∧
      slots (Function.update (emptyTable (2 ^ 16) 0 512).content (SaltKey.ofPair (2 ^ 16) 0) (some v)) b =
        slots (emptyTable (2 ^ 16) 0 512).content b := by
    intro b hb' hne
    refine ⟨metaAt_update_of_ne (fun heq ↦ ?_) _, slots_update_of_ne (dataBucket_lt hb')
      (by rw [hbucket]; exact Ne.symm hne) _⟩
    rw [heq, metadataKey_inMeta hb'] at hkey
    cases hkey
  rw [← hraw]
  refine hcan.commit (fun k ↦ ?_) (fun b hb' ↦ ?_) ?_
  · rw [hraw, singleUpdate]
    by_cases hk : k = SaltKey.ofPair (2 ^ 16) 0
    · have hempty := congrFun hfree 0
      rw [slots_eq (by norm_num)] at hempty
      rw [hk, ExtTreeMap.getElem?_insert_self, Function.update_self, hempty, if_neg (by simp)]
    · rw [ExtTreeMap.getElem?_insert, if_neg (by simpa using Ne.symm hk), ExtTreeMap.getElem?_empty,
        Function.update_of_ne hk, if_pos rfl]
  · rw [hraw]
    by_cases hne : b = 2 ^ 16
    · subst hne
      exact (hcan.good _ hb).place hb ⟨hv, rfl⟩ hslot (congrFun hfree 0)
    · obtain ⟨hm, hs⟩ := hothers b hb' hne
      exact (hcan.good b hb').congr hm hs
  · rw [hraw]
    refine hcan.represents.change (fun y hy ↦ ⟨v, by rw [← Option.some.inj hy]; exact hv.new_eq⟩)
      (fun b hb' hne x ↦ ?_) (fun x ↦ ?_)
    · obtain ⟨hm, hs⟩ := hothers b hb' hne
      rw [Holds, Holds, hm, hs]
    · rw [show flatHasher.bucketId v.key = 2 ^ 16 from rfl, or_iff_left fun h ↦ hnone x h.1, Holds,
        slots_update (by norm_num) (by norm_num), hfree]
      constructor
      · rintro ⟨a, -, hx⟩
        by_cases ha : a = 0
        · rw [ha, Function.update_self] at hx
          cases hx
          exact ⟨_, rfl, hv.new_eq⟩
        · rw [Function.update_of_ne ha] at hx
          cases hx
      · rintro ⟨y, hy, hx⟩
        obtain rfl := Option.some.inj hy
        rw [hv.new_eq] at hx
        cases hx
        refine ⟨0, ?_, Function.update_self ..⟩
        exact ((hcan.good _ hb).place hb ⟨hv, rfl⟩ hslot (congrFun hfree 0)).capacity_pos

def onePairWitness (v : SaltValue) : SaltWitness Unit where
  kvs := ((∅ : ExtTreeMap SaltKey (Option SaltValue)).insert (SaltKey.ofPair (2 ^ 16) 0) (some v)).insert
    (metadataKey (2 ^ 16)) (some (SaltValue.ofMeta ⟨0, 512, none⟩))
  proof := ⟨∅, ∅⟩

theorem onePairWitness_subMap (hv : v.WellFormed) : SubMap (onePairWitness v) (onePairStore v) := by
  have hb : isValidDataBucket (2 ^ 16) := by decide
  have hkey : (SaltKey.ofPair (2 ^ 16) 0).isInMetaBucket = false := ofPair_not_inMeta hb (by norm_num)
  obtain ⟨-, hcontent⟩ := onePairStore_canonical hv
  have hmeta := (emptyTable_canonical (H := flatHasher) (b := 2 ^ 16) (c := 512) 0 hb (by decide) (by decide)).2
  refine ⟨fun k x hk hx ↦ ?_, fun b hb' x hx ↦ ?_⟩
  · have hne : metadataKey (2 ^ 16) ≠ k := by
      rintro rfl
      rw [metadataKey_inMeta hb] at hk
      cases hk
    have hstored : (onePairStore v).kvs[k]? = (onePairStore v).content k := (normalize_data hk).symm
    rw [hstored, hcontent]
    simp only [onePairWitness, ExtTreeMap.getElem?_insert, LawfulEqCmp.compare_eq_iff_eq, hne, if_false] at hx
    split at hx
    · rename_i heq
      cases hx
      rw [← heq, Function.update_self]
    · simp at hx
  · have hne : SaltKey.ofPair (2 ^ 16) 0 ≠ metadataKey b := by
      rintro heq
      rw [heq, metadataKey_inMeta hb'] at hkey
      cases hkey
    simp only [onePairWitness, ExtTreeMap.getElem?_insert, LawfulEqCmp.compare_eq_iff_eq, hne, if_false] at hx
    split at hx
    · rename_i heq
      cases hx
      rw [← metadataKey_inj hb hb' heq, hcontent, metaAt_update_of_ne, hmeta]
      rwa [heq]
    · simp at hx

theorem partial_reads_never_lie_pair :
    ∃ v : SaltValue, v.key = [1] ∧ v.value = [2] ∧
    ∃ st found, (session (onePairStore v) true).find flatHasher [1] = .ok (st, found) ∧
      (session (onePairStore v) true).plainValue flatHasher [1] = .ok (st, found.map fun r ↦ r.2.value) ∧
      some [2] = found.map (fun r ↦ r.2.value) ∧
      ((∃ e, (sessionOver (Witness.ofSaltWitness (onePairWitness v)).reader false).find flatHasher [1] =
          .error (.err e)) ∨
        ∃ st', (sessionOver (Witness.ofSaltWitness (onePairWitness v)).reader false).find flatHasher [1] =
          .ok (st', found)) ∧
      ((∃ e, (sessionOver (Witness.ofSaltWitness (onePairWitness v)).reader false).plainValue flatHasher [1] =
          .error (.err e)) ∨
        ∃ st', (sessionOver (Witness.ofSaltWitness (onePairWitness v)).reader false).plainValue flatHasher [1] =
          .ok (st', found.map fun r ↦ r.2.value)) := by
  obtain ⟨v, hv, hkey, hvalue⟩ : ∃ v, SaltValue.new [1] [2] = .ok v ∧ v.key = [1] ∧ v.value = [2] :=
    SaltValue.new_ok (by simp)
  refine ⟨v, hkey, hvalue, ?_⟩
  have h := partial_reads_never_lie (onePairStore_canonical ⟨_, _, hv⟩).1 (onePairWitness_subMap ⟨_, _, hv⟩) (.inr rfl)
    true false [1]
  rw [hkey, hvalue, Function.update_self] at h
  exact h

end OnePair

def updateAll (H : Hasher) (fuel : ℕ) (st : EphemeralSaltState)
    (batches : List (List (Bytes × Option Bytes))) : Except Fault EphemeralSaltState :=
  batches.foldlM (fun st kvs ↦ do
    let (st, _) ← st.update H fuel kvs
    .ok st) st

/-- Failures of a session over a part of the store: a read error, or a resize beyond 40 bits. -/
def Unavailable (e : Fault) : Prop := ReadError e ∨ TooLarge e

theorem capped_unavailable (n : ℕ) : Capped Unavailable n := fun _ hc _ ↦ .inr (tooLarge_of_lt hc)

/-- A pair that does not fit into a record makes the update panic. -/
theorem applyOne_fits {kv : Bytes × Option Bytes} {acc r : EphemeralSaltState × StateUpdates}
    (h : applyOne H fuel acc kv = .ok r) (x : Bytes) (hx : kv.2 = some x) :
    kv.1.length + x.length ≤ 92 := by
  simp only [applyOne, hx] at h
  by_contra hlong
  have hnew : SaltValue.new kv.1 x = .error (.panic .sliceOutOfRange) := dif_neg hlong
  cases fuel with
  | zero => simp [shiUpsert] at h
  | succ n =>
    rw [shiUpsert, hnew] at h
    cases h

theorem update_fits {kvs : List (Bytes × Option Bytes)} {r : EphemeralSaltState × StateUpdates}
    (h : st.update H fuel kvs = .ok r) : Fits kvs := by
  have key : ∀ (l : List (Bytes × Option Bytes)) (acc : EphemeralSaltState × StateUpdates),
      l.foldlM (applyOne H fuel) acc = .ok r → Fits l := by
    intro l
    induction l with
    | nil => exact fun _ _ kv hkv ↦ by cases hkv
    | cons kv l ih =>
      intro acc hl
      rw [List.foldlM_cons] at hl
      cases hone : applyOne H fuel acc kv with
      | error e =>
        rw [hone] at hl
        cases hl
      | ok acc' =>
        rw [hone, ok_bind] at hl
        intro kv' hkv'
        rcases List.mem_cons.mp hkv' with rfl | hmem
        · exact applyOne_fits hone
        · exact ih acc' hl kv' hmem
  exact key kvs _ h

theorem updateAll_spec (hf : 2 ≤ fuel) (hA : ∀ n, Capped A n) (batches : List (List (Bytes × Option Bytes)))
    (h : Steady H A F M st) {st' : EphemeralSaltState} (hrun : updateAll H fuel st batches = .ok st') :
    Steady H A F (applyAll M batches.flatten) st' := by
  induction batches generalizing st M with
  | nil =>
    cases hrun
    exact h
  | cons kvs batches ih =>
    rw [updateAll, List.foldlM_cons] at hrun
    cases hone : st.update H fuel kvs with
    | error e =>
      rw [hone] at hrun
      cases hrun
    | ok r =>
      rw [hone, ok_bind, ok_bind] at hrun
      have hstep := (update_spec hf h (fun _ _ _ ↦ hA _) (update_fits hone).fitsOr).of_eq_ok hone
      rw [List.flatten_cons, applyAll, List.foldl_append]
      exact ih hstep.1.steady hrun

/-- Updates over any part of a canonical store: when all calls return, every key that can be read
has the value of the reference map, and no two readable slots hold the same key. -/
theorem sub_witness_replay_keeps_contents (hf : 2 ≤ fuel) (hs : StateStore.Canonical H M s)
    (hw : SubMap w s) (hrd : rd = w.reader ∨ rd = (Witness.ofSaltWitness w).reader)
    (cacheRead : Bool) (batches : List (List (Bytes × Option Bytes)))
    (hrun : updateAll H fuel (sessionOver rd cacheRead) batches = .ok st) :
    (∀ k st' x, st.plainValue H k = .ok (st', x) → x = applyAll M batches.flatten k) ∧
    ∀ (sk sk' : SaltKey) (st₁ st₂ : EphemeralSaltState) (v v' : SaltValue),
      sk.isInMetaBucket = false → sk'.isInMetaBucket = false → st.value sk = .ok (st₁, some v) →
      st.value sk' = .ok (st₂, some v') → v.key = v'.key → sk = sk' := by
  have hR := hw.reads hs (A := Unavailable) (fun _ h ↦ .inl h) hrd
  have hst := updateAll_spec hf capped_unavailable batches (sessionOver_steady hs hR cacheRead).1 hrun
  constructor
  · intro k st' x hx
    exact ((plainValue_spec hst.live hst.good hst.represents k).of_eq_ok hx).2
  · intro sk sk' st₁ st₂ v v' hsk hsk' hv hv' hkey
    have h₁ := ((value_spec hst.reads.toReadsSlots hsk).of_eq_ok hv).2
    have h₂ := ((value_spec hst.reads.toReadsSlots hsk').of_eq_ok hv').2
    exact (Located.unique hst.good ⟨hsk, h₁.symm, rfl⟩ ⟨hsk', h₂.symm, hkey.symm⟩).1

def slotWitness : SaltWitness Unit where
  kvs := ((∅ : ExtTreeMap SaltKey (Option SaltValue)).insert (SaltKey.ofPair (2 ^ 16) 0) none).insert
    (metadataKey (2 ^ 16)) (some (SaltValue.ofMeta .default))
  proof := ⟨∅, ∅⟩

theorem metaAt_empty {b : ℕ} (hb : isValidDataBucket b) :
    metaAt StateStore.empty.content b = .default := by
  rw [StateStore.content, metaAt_normalize _ hb, metaAt]
  simp [StateStore.full, StateStore.empty, metaOf]

theorem slotWitness_subMap : SubMap slotWitness .empty where
  data k v hk hv := by
    have hne : metadataKey (2 ^ 16) ≠ k := by
      rintro rfl
      exact absurd hk (by decide)
    simp only [slotWitness, ExtTreeMap.getElem?_insert, LawfulEqCmp.compare_eq_iff_eq, hne,
      if_false] at hv
    split at hv
    · cases hv
      simp [StateStore.empty]
    · simp at hv
  metadata b hb v hv := by
    rw [metaAt_empty hb]
    have hne : SaltKey.ofPair (2 ^ 16) 0 ≠ metadataKey b := fun h ↦ by
      have := metadataKey_inMeta hb
      rw [← h] at this
      exact absurd this (by decide)
    simp only [slotWitness, ExtTreeMap.getElem?_insert, LawfulEqCmp.compare_eq_iff_eq, hne,
      if_false] at hv
    split at hv
    · exact (Option.some.inj hv).symm
    · simp at hv

theorem exists_of_isOk {m : Except Fault EphemeralSaltState} (h : m.isOk = true) : ∃ st, m = .ok st := by
  cases m with
  | ok st => exact ⟨st, rfl⟩
  | error e => cases h

theorem sub_witness_replay_keeps_contents_slot :
    ∃ st, updateAll flatHasher 2 (sessionOver slotWitness.reader true)
        [[([1], some [2])], [([1], some [3])]] = .ok st ∧
      (∀ k st' x, st.plainValue flatHasher k = .ok (st', x) →
        x = applyAll (fun _ ↦ none) [([1], some [2]), ([1], some [3])] k) ∧
      ∀ (sk sk' : SaltKey) (st₁ st₂ : EphemeralSaltState) (v v' : SaltValue),
        sk.isInMetaBucket = false → sk'.isInMetaBucket = false → st.value sk = .ok (st₁, some v) →
        st.value sk' = .ok (st₂, some v') → v.key = v'.key → sk = sk' := by
  obtain ⟨st, hst⟩ := exists_of_isOk (m := updateAll flatHasher 2 (sessionOver slotWitness.reader true)
    [[([1], some [2])], [([1], some [3])]]) (by decide +kernel)
  exact ⟨st, hst, sub_witness_replay_keeps_contents (le_refl 2) canonical_empty slotWitness_subMap
    (.inl rfl) true _ hst⟩

end Salt
