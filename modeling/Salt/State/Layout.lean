import Salt.State.History

namespace Salt

open Std (ExtTreeMap)
open Library.ProbeRing Library.OrderedTable Library.GreedyLayout Library.Triple
open EphemeralSaltState

section OneBucket

/-- The same slot hash, with every key sent to one bucket. The operations on a given bucket do not
consult the bucket hash. -/
def Hasher.onBucket (H : Hasher) (b : ℕ) (hb : isValidDataBucket b) : Hasher where
  hashWithNonce := H.hashWithNonce
  bucketId _ := b
  bucketId_data _ := hb

variable (H : Hasher) (b : ℕ) (hb : isValidDataBucket b)

theorem shiRehash_onBucket : shiRehash (H.onBucket b hb) = shiRehash H := rfl

theorem shiUpsert_onBucket (fuel : ℕ) : shiUpsert (H.onBucket b hb) fuel = shiUpsert H fuel := by
  induction fuel with
  | zero => rfl
  | succ fuel ih =>
    funext st b' k x out
    rw [shiUpsert, shiUpsert, ih]
    rfl

theorem shiNextLoop_onBucket (b' g : ℕ) (nonce : UInt32) (c n i : ℕ) (st : EphemeralSaltState) :
    shiNextLoop (H.onBucket b hb) b' g nonce c n i st = shiNextLoop H b' g nonce c n i st := by
  induction n generalizing i st with
  | zero => rfl
  | succ n ih =>
    simp only [shiNextLoop, ih]
    rfl

theorem shiDeleteLoop_onBucket (b' : ℕ) (nonce : UInt32) (c n g : ℕ) (d : SaltValue)
    (st : EphemeralSaltState) (out : StateUpdates) :
    shiDeleteLoop (H.onBucket b hb) b' nonce c n g d st out = shiDeleteLoop H b' nonce c n g d st out := by
  induction n generalizing g d st out with
  | zero => rfl
  | succ n ih =>
    simp only [shiDeleteLoop, shiNext, ih, shiNextLoop_onBucket]

theorem shiDelete_onBucket (st : EphemeralSaltState) (b' : ℕ) (k : Bytes) (out : StateUpdates) :
    st.shiDelete (H.onBucket b hb) b' k out = st.shiDelete H b' k out := by
  simp only [shiDelete, shiDeleteLoop_onBucket]
  rfl

end OneBucket

inductive TableOp
  | upsert (k x : Bytes)
  | delete (k : Bytes)
  | rehash (nonce : UInt32) (capacity : ℕ)

def TableOp.run (H : Hasher) (fuel b : ℕ) (acc : EphemeralSaltState × StateUpdates) :
    TableOp → Except Fault (EphemeralSaltState × StateUpdates)
  | upsert k x => acc.1.shiUpsert H fuel b k x acc.2
  | delete k => acc.1.shiDelete H b k acc.2
  | rehash nonce capacity => acc.1.shiRehash H b nonce capacity acc.2

def runTable (H : Hasher) (fuel b : ℕ) (ops : List TableOp) (st : EphemeralSaltState) :
    Except Fault (EphemeralSaltState × StateUpdates) :=
  ops.foldlM (fun acc op ↦ op.run H fuel b acc) (st, .empty)

structure Table where
  nonce : UInt32
  capacity : ℕ
  pairs : Bytes → Option Bytes

namespace Table

noncomputable def size (T : Table) : ℕ := Set.ncard {k | (T.pairs k).isSome}

def apply (T : Table) : TableOp → Table
  | .upsert k x => { T with pairs := Function.update T.pairs k (some x) }
  | .delete k => { T with pairs := Function.update T.pairs k none }
  | .rehash nonce capacity => { T with nonce := nonce, capacity := capacity }

/-- The number of keys that trigger no resize: 80% of the capacity where used slots are counted, all of it where the
store does not count them. -/
def limit (counted : Bool) (T : Table) : ℕ :=
  if counted then T.capacity * bucketResizeLoadFactorPct / 100 else T.capacity

/-- The operation triggers no resize: a key that is new leaves the bucket within the limit, and a rehash, which reads
the number of used slots, asks for room for the keys there are. -/
def Admits (counted : Bool) (T : Table) : TableOp → Prop
  | .upsert k x => k.length + x.length ≤ 92 ∧ (T.pairs k = none → T.size + 1 ≤ T.limit counted)
  | .delete _ => True
  | .rehash _ capacity => counted = true ∧ 1 ≤ capacity ∧ capacity ≤ bucketSlotIdMask ∧ T.size ≤ capacity

def AdmitsAll (counted : Bool) : Table → List TableOp → Prop
  | _, [] => True
  | T, op :: ops => T.Admits counted op ∧ (T.apply op).AdmitsAll counted ops

end Table

def emptyTable (b : ℕ) (nonce : UInt32) (c : ℕ) : StateStore where
  kvs := (∅ : ExtTreeMap SaltKey SaltValue).insert (metadataKey b) (SaltValue.ofMeta ⟨nonce, c, none⟩)
  usedSlots := ∅

variable {H : Hasher} {fuel b c : ℕ} {nonce : UInt32} {M : Bytes → Option Bytes} {F : Full}
  {st : EphemeralSaltState} {A : Fault → Prop}

theorem emptyTable_canonical (nonce : UInt32) (hb : isValidDataBucket b) (hc : 1 ≤ c) (hc' : c ≤ bucketSlotIdMask) :
    StateStore.Canonical (H.onBucket b hb) (fun _ ↦ none) (emptyTable b nonce c) ∧
      metaAt (emptyTable b nonce c).content b = ⟨nonce, c, none⟩ := by
  have hlt : c < 2 ^ 64 := by
    simp only [bucketSlotIdMask] at hc'
    omega
  have hget : ∀ k, (emptyTable b nonce c).kvs[k]? =
      if k = metadataKey b then some (SaltValue.ofMeta ⟨nonce, c, none⟩) else none := by
    intro k
    by_cases hk : k = metadataKey b
    · subst hk
      simp [emptyTable]
    · simp [emptyTable, hk, Ne.symm hk]
  have hshape : ∀ b', isValidDataBucket b' → metaAt (emptyTable b nonce c).full.kv b' =
      if b' = b then ⟨nonce, c, none⟩ else BucketMeta.default := by
    intro b' hb'
    rw [metaAt, show (emptyTable b nonce c).full.kv (metadataKey b') = _ from hget _]
    by_cases he : b' = b
    · rw [if_pos (by rw [he]), if_pos he, metaOf_ofMeta hlt]
    · rw [if_neg (fun hk ↦ he (metadataKey_inj hb' hb hk)), if_neg he]
      rfl
  refine ⟨canonical_of_no_data (fun b' hb' v hv ↦ ?_) (fun b' hb' ↦ ?_) (fun k hk ↦ ?_)
    (fun b' _ ↦ by simp [emptyTable]), ?_⟩
  · rw [hget] at hv
    split at hv
    · exact ⟨_, (Option.some.inj hv).symm, hlt⟩
    · cases hv
  · rw [hshape b' hb']
    split
    · exact ⟨hc, hc'⟩
    · decide
  · rw [hget, if_neg]
    rintro rfl
    rw [metadataKey_inMeta hb] at hk
    cases hk
  · rw [StateStore.content, metaAt_normalize _ hb, hshape b hb, if_pos rfl]

/-- The slots of a bucket are those obtained by placing the pairs of a plain map in descending key
order, each in the first free slot of its probe sequence. -/
def LaidOut (H : Hasher) (b : ℕ) (nonce : UInt32) (c : ℕ) (M : Bytes → Option Bytes)
    (st : EphemeralSaltState) : Prop :=
  ∃ vs : List SaltValue, vs.Pairwise (fun v w ↦ w.key < v.key) ∧
    (∀ k x, M k = some x ↔ ∃ v ∈ vs, v.key = k ∧ v.value = x) ∧ vs.length ≤ c ∧
    ∀ a < 2 ^ 40, ∃ st', st.value (SaltKey.ofPair b a) =
      .ok (st', greedy c (fun k ↦ H.hashWithNonce k nonce) SaltValue.key vs a)

def Probing (H : Hasher) (b : ℕ) (nonce : UInt32) (c : ℕ) (st : EphemeralSaltState) : Prop :=
  ∀ a < c, ∀ st' v, st.value (SaltKey.ofPair b a) = .ok (st', some v) →
    ∀ i < rank (H.hashWithNonce v.key nonce) a c, ∃ st'' w,
      st.value (SaltKey.ofPair b (probe (H.hashWithNonce v.key nonce) i c)) = .ok (st'', some w) ∧
      v.key < w.key

def StoresPairs (c : ℕ) (t : ℕ → Option SaltValue) (M : Bytes → Option Bytes) : Prop :=
  (∀ v, Stored c t v → v.WellFormed) ∧
    ∀ k x, M k = some x ↔ ∃ v, Stored c t v ∧ v.key = k ∧ v.value = x

def OnlyLayout (H : Hasher) (b : ℕ) (nonce : UInt32) (c : ℕ) (M : Bytes → Option Bytes)
    (st : EphemeralSaltState) : Prop :=
  ∀ t, StoresPairs c t M → (Ordered c (fun k ↦ H.hashWithNonce k nonce) SaltValue.key t ↔
    ∀ a < c, ∃ st', st.value (SaltKey.ofPair b a) = .ok (st', t a))

theorem value_eq (h : ReadsSlots st.store F (fun _ ↦ False)) (hb : isValidDataBucket b) {a : ℕ}
    (ha : a < 2 ^ 40) : ∃ st', st.value (SaltKey.ofPair b a) = .ok (st', slots (st.view F) b a) := by
  obtain ⟨⟨st', x⟩, he, -, rfl⟩ := (slot_spec h hb ha).exists_ok
  exact ⟨st', he⟩

theorem StoresPairs.stored_iff {t t' : ℕ → Option SaltValue} (h : StoresPairs c t M)
    (h' : StoresPairs c t' M) (v : SaltValue) : Stored c t v ↔ Stored c t' v := by
  have aux : ∀ {u u' : ℕ → Option SaltValue}, StoresPairs c u M → StoresPairs c u' M →
      Stored c u v → Stored c u' v := by
    intro u u' hu hu' hv
    obtain ⟨v', hv', hk, hx⟩ := (hu'.2 v.key v.value).mp ((hu.2 _ _).mpr ⟨v, hv, rfl, rfl⟩)
    rwa [← (hu'.1 v' hv').ext (hu.1 v hv) hk hx]
  exact ⟨aux h h', aux h' h⟩

theorem exists_listing {t : ℕ → Option SaltValue} {home : Bytes → ℕ}
    (ho : Ordered c home SaltValue.key t) (hc : 0 < c) : ∃ vs : List SaltValue, Listing c t vs := by
  let le : SaltValue → SaltValue → Bool := fun v w ↦ decide (w.key ≤ v.key)
  have hperm := List.mergeSort_perm (entries c t) le
  have hsorted : ((entries c t).mergeSort le).Pairwise (fun v w ↦ w.key ≤ v.key) := by
    have hs := List.pairwise_mergeSort (fun x y z (hxy : le x y) (hyz : le y z) ↦ by
      simp only [le, decide_eq_true_eq] at hxy hyz ⊢
      exact hyz.trans hxy) (fun x y ↦ by
      simp only [le, Bool.or_eq_true, decide_eq_true_eq]
      exact le_total _ _) (entries c t)
    exact hs.imp fun h ↦ by simpa [le] using h
  have hne : ((entries c t).mergeSort le).Pairwise (fun v w ↦ v.key ≠ w.key) :=
    hperm.symm.pairwise (Ordered.pairwise_entries ho hc) (fun h ↦ h.symm)
  refine ⟨_, (hsorted.and hne).imp fun h ↦ lt_of_le_of_ne h.1 h.2.symm, fun x ↦ ?_⟩
  rw [hperm.mem_iff, mem_entries]

theorem GoodBucket.laidOut (hb : isValidDataBucket b) (hR : ReadsSlots st.store F (fun _ ↦ False))
    (hg : GoodBucket (H.onBucket b hb) (st.view F) b) (hM : Represents (H.onBucket b hb) (st.view F) M)
    (hm : metaAt (st.view F) b = ⟨nonce, c, none⟩) :
    LaidOut H b nonce c M st ∧ Probing H b nonce c st ∧ OnlyLayout H b nonce c M st := by
  have hcap : (metaAt (st.view F) b).capacity = c := by rw [hm]
  have hhome : home (H.onBucket b hb) (st.view F) b = fun k ↦ H.hashWithNonce k nonce := by
    funext k
    rw [home, hm]
    rfl
  have hpos := hg.capacity_pos
  have hlt := hg.capacity_lt
  have hord := hg.ordered
  rw [hcap] at hpos hlt hord
  rw [hhome] at hord
  obtain ⟨vs, hvs⟩ := exists_listing hord hpos
  have hlen : vs.length ≤ c := by
    rw [← card_occupied_of_list hord hpos hvs.desc hvs.mem, ← hcap]
    exact count_le (st.view F) b
  have hgreedy : ∀ a, slots (st.view F) b a =
      greedy c (fun k ↦ H.hashWithNonce k nonce) SaltValue.key vs a := by
    intro a
    by_cases ha : a < c
    · exact eq_greedy hord hpos hvs.desc hlen hvs.mem a ha
    · rw [hg.outside a (by omega), greedy_outside hpos vs (by omega)]
  have hpairs : StoresPairs c (slots (st.view F) b) M := by
    rw [← hcap]
    exact ⟨fun v hv ↦ (hg.holds_entry hv).1, hM⟩
  refine ⟨⟨vs, hvs.desc, fun k x ↦ ?_, hlen, fun a ha ↦ ?_⟩, fun a ha st' v hv i hi ↦ ?_,
    fun t ht ↦ ⟨fun ho a ha ↦ ?_, fun hread ↦ hord.congr hpos fun a ha ↦ ?_⟩⟩
  · rw [hpairs.2 k x]
    exact exists_congr fun v ↦ and_congr_left fun _ ↦ hvs.mem v
  · rw [← hgreedy a]
    exact value_eq hR hb ha
  · obtain ⟨st₁, hst₁⟩ := value_eq hR hb (ha.trans hlt)
    rw [hst₁] at hv
    have hslot := congrArg Prod.snd (Except.ok.inj hv)
    obtain ⟨w, hw, hkw⟩ := hord a ha v hslot i hi
    obtain ⟨st₂, hst₂⟩ := value_eq hR hb ((probe_lt hpos (H.hashWithNonce v.key nonce) i).trans hlt)
    exact ⟨st₂, w, by rw [hst₂, hw], hkw⟩
  · rw [ho.canonical hord hpos (ht.stored_iff hpairs) a ha]
    exact value_eq hR hb (ha.trans hlt)
  · obtain ⟨st', hst'⟩ := hread a ha
    obtain ⟨st'', hst''⟩ := value_eq hR hb (ha.trans hlt)
    rw [hst''] at hst'
    exact (congrArg Prod.snd (Except.ok.inj hst')).symm

theorem keysIn_onBucket (hb : isValidDataBucket b) (M : Bytes → Option Bytes) :
    keysIn (H.onBucket b hb) M b = {k | (M k).isSome} := by
  ext k
  exact ⟨And.right, fun h ↦ ⟨rfl, h⟩⟩

/-- A store without failing reads whose bucket `b` is a table with the probing property, possibly without a free slot.
Nothing is asked of the entries of other buckets. -/
structure TableStore (H : Hasher) (b : ℕ) (counted : Bool) (T : Table) (rd : StateReader) (F : Full) : Prop where
  reads : ReadsSlots rd F (fun _ ↦ False)
  counts : if counted then ∀ b', isValidDataBucket b' → rd.bucketUsedSlots b' = .ok (count F.kv b')
    else ∃ e, rd.bucketUsedSlots b = .error (.err e)
  shape : metaAt F.kv b = ⟨T.nonce, T.capacity, none⟩
  capacity_pos : 1 ≤ T.capacity
  capacity_le : T.capacity ≤ bucketSlotIdMask
  ordered : Ordered T.capacity (fun k ↦ H.hashWithNonce k T.nonce) SaltValue.key (slots F.kv b)
  outside : ∀ a, T.capacity ≤ a → slots F.kv b a = none
  pairs : StoresPairs T.capacity (slots F.kv b) T.pairs

structure Tabled (H : Hasher) (b : ℕ) (hb : isValidDataBucket b) (counted : Bool) (rd : StateReader) (F : Full)
    (start : SaltKey → Option SaltValue) (T : Table) (r : EphemeralSaltState × StateUpdates) : Prop where
  tracked : Tracked (fun _ ↦ False) F start r.1 r.2
  store : r.1.store = rd
  usage : r.1.UsageOk F
  shape : metaAt (r.1.view F) b = ⟨T.nonce, T.capacity, none⟩
  good : GoodBucket (H.onBucket b hb) (r.1.view F) b
  represents : Represents (H.onBucket b hb) (r.1.view F) T.pairs

section Tabled

variable {counted : Bool} {rd : StateReader} {start : SaltKey → Option SaltValue} {T : Table} {hb : isValidDataBucket b}
  {out : StateUpdates} {r : EphemeralSaltState × StateUpdates}

theorem Tabled.count_eq (h : Tabled H b hb counted rd F start T r) : count (r.1.view F) b = T.size := by
  rw [h.represents.count_eq h.good, keysIn_onBucket, Table.size]

theorem Tabled.arranged (h : Tabled H b hb counted rd F start T (st, out)) {k : Bytes} {x : Option Bytes}
    (hr : Arranged (H.onBucket b hb) (fun _ ↦ False) F start b st r)
    (hfit : ∀ y, x = some y → ∃ v, SaltValue.new k y = .ok v)
    (hsame : ∀ v, Holds (r.1.view F) b v ↔
      (∃ y, x = some y ∧ SaltValue.new k y = .ok v) ∨ Holds (st.view F) b v ∧ v.key ≠ k) :
    Tabled H b hb counted rd F start { T with pairs := Function.update T.pairs k x } r := by
  refine ⟨hr.tracked, hr.kept.store.trans h.store, hr.toMoved.usage h.usage, (hr.metaAt_eq hb hb).trans
    h.shape, hr.good,
    h.represents.change hfit (fun b' hb' hne v ↦ ?_) hsame⟩
  exact holds_congr (hr.metaAt_eq hb hb') (hr.slots_ne hb' hne) v

theorem Tabled.upsert (h : Tabled H b hb counted rd F start T (st, out))
    (hcounts : if counted then Reads rd F (fun _ ↦ False) else ∃ e, rd.bucketUsedSlots b = .error (.err e))
    {k x : Bytes} (ha : T.Admits counted (.upsert k x))
    (hdirect : ∀ sk, rd.plainValueFast k = .ok sk → sk.bucketId = b) :
    Sat (st.shiUpsert H (fuel + 1) b k x out) (fun _ ↦ False)
      (Tabled H b hb counted rd F start (T.apply (.upsert k x))) := by
  obtain ⟨hlen, hroom⟩ := ha
  obtain ⟨v, hv, rfl, rfl⟩ := SaltValue.new_ok hlen
  have hcap : (metaAt (st.view F) b).capacity = T.capacity := by rw [h.shape]
  have hfit : ∀ y, some v.value = some y → ∃ w, SaltValue.new v.key y = .ok w := fun y hy ↦
    ⟨v, Option.some.inj hy ▸ hv⟩
  have hnew : ∀ w, w = v ↔ ∃ y, some v.value = some y ∧ SaltValue.new v.key y = .ok w := by
    intro w
    constructor
    · rintro rfl
      exact ⟨_, rfl, hv⟩
    · rintro ⟨y, hy, hw⟩
      rw [← Option.some.inj hy, hv] at hw
      exact (Except.ok.inj hw).symm
  have hmore : (∀ y, Holds (st.view F) b y → y.key ≠ v.key) → count (st.view F) b + 1 ≤ T.limit counted := by
    intro hfresh
    rw [h.count_eq]
    refine hroom (Option.eq_none_iff_forall_ne_some.mpr fun y hy ↦ ?_)
    obtain ⟨w, hw, hkey, -⟩ := (h.represents v.key y).mp hy
    exact hfresh w hw hkey
  rw [← shiUpsert_onBucket H b hb]
  refine shiUpsert_round h.tracked h.good hb ⟨⟨_, _, hv⟩, rfl⟩ (fun sk o hloc hfast ↦ ?_) (fun r har hst _ ↦ ?_)
    (fun r har hfresh hst hcount ↦ ?_) (fun r d har hfresh _ _ _ hfull ↦ ?_)
  · have hsk := hdirect sk (h.store ▸ hfast)
    have hslot : slots (st.view F) b sk.slotId = some o := by
      rw [slots_eq sk.slotId_lt, ← hsk, sk.ofPair_eta]
      exact hloc.2.1
    exact ⟨sk.slotId, h.good.slot_lt hslot, by rw [← hsk, sk.ofPair_eta], hslot⟩
  · exact h.arranged har hfit fun y ↦ (hst y).trans (or_congr_left (hnew y))
  · have htabled := h.arranged har hfit fun y ↦ by
      rw [← hnew, hst]
      exact or_congr_right ⟨fun hy ↦ ⟨hy, hfresh y hy⟩, And.left⟩
    have hlimit := hmore hfresh
    rw [hcap]
    cases counted with
    | false =>
      obtain ⟨e, he⟩ := hcounts
      have hnone : r.1.usageCount b = .error (.err e) := by
        rw [usageCount, htabled.store, he]
        rfl
      rw [hnone]
      simp only [attempt, ok_bind]
      exact Sat.ok htabled
    | true =>
      rw [Table.limit, if_pos rfl] at hlimit
      refine (sat_attempt (usageCount_spec (htabled.store.symm ▸ hcounts) htabled.usage hb)).bind fun used hused ↦ ?_
      cases used with
      | none =>
        obtain ⟨-, hfalse⟩ := hused
        exact hfalse.elim
      | some used =>
        simp only at hused ⊢
        subst hused
        rw [if_neg (not_lt.mpr (hcount.trans_le hlimit))]
        exact Sat.ok htabled
  · have hle : T.limit counted ≤ T.capacity := by
      rw [Table.limit, bucketResizeLoadFactorPct]
      split <;> omega
    have := hmore hfresh
    simp only at hfull
    omega

theorem Tabled.delete (h : Tabled H b hb counted rd F start T (st, out)) (k : Bytes) :
    Sat (st.shiDelete H b k out) (fun _ ↦ False) (Tabled H b hb counted rd F start (T.apply (.delete k))) := by
  rw [← shiDelete_onBucket H b hb]
  refine (shiDelete_round h.tracked h.good hb k).mono fun r hr ↦ ?_
  refine h.arranged hr.1 (fun y hy ↦ by cases hy) fun y ↦ (hr.2.1 y).trans ⟨.inr, ?_⟩
  rintro (⟨z, hz, -⟩ | hy)
  · cases hz
  · exact hy

theorem Tabled.rehash (h : Tabled H b hb true rd F start T (st, out)) (hR : Reads rd F (fun _ ↦ False))
    {nonce : UInt32} (ha : T.Admits true (.rehash nonce c)) :
    Sat (st.shiRehash H b nonce c out) (fun _ ↦ False)
      (Tabled H b hb true rd F start (T.apply (.rehash nonce c))) := by
  obtain ⟨-, hpos, hmask, hsize⟩ := ha
  have hlive : Live (fun _ ↦ False) F start st out := ⟨h.tracked, h.store ▸ hR, h.usage⟩
  rw [← shiRehash_onBucket H b hb]
  refine (shiRehash_spec hlive h.good hb nonce hpos fun hlt ↦ absurd hlt (not_lt.mpr hmask)).mono fun r hr ↦ ?_
  rcases hr with ⟨hlt, -⟩ | ⟨-, hr⟩
  · rw [h.count_eq] at hlt
    exact absurd hlt (not_lt.mpr hsize)
  · refine ⟨hr.live.toTracked, hr.kept.store.trans h.store, hr.live.usage, hr.shape, hr.good,
      h.represents.congr fun b' hb' v ↦ ?_⟩
    by_cases hne : b' = b
    · subst hne
      exact hr.holds v
    · exact hr.holds_ne hb hb' hne v

end Tabled

variable {counted : Bool} {T : Table} {rd : StateReader}

theorem TableStore.tabled (h : TableStore H b counted T rd F) (hb : isValidDataBucket b) (cacheRead : Bool) :
    Tabled H b hb counted rd ⟨F.kv, count F.kv⟩ (normalize F.kv) T (sessionOver rd cacheRead, .empty) := by
  have hview : (sessionOver rd cacheRead).view ⟨F.kv, count F.kv⟩ = normalize F.kv := by
    cases cacheRead with
    | true => exact StateStore.view_new ⟨F.kv, count F.kv⟩ rd true
    | false => exact StateStore.view_new ⟨F.kv, count F.kv⟩ rd false
  have hstore : (sessionOver rd cacheRead).store = rd := by cases cacheRead <;> rfl
  have hnone : ∀ b', (sessionOver rd cacheRead).delta b' = 0 := by
    intro b'
    cases cacheRead <;> simp [sessionOver, EphemeralSaltState.delta, EphemeralSaltState.new, withCacheRead]
  have hcache : ∀ k : SaltKey, (sessionOver rd cacheRead).cache[k]? = none := by
    intro k
    cases cacheRead <;> simp [sessionOver, EphemeralSaltState.new, withCacheRead]
  have hmeta : metaAt (normalize F.kv) b = ⟨T.nonce, T.capacity, none⟩ := by rw [metaAt_normalize _ hb, h.shape]
  have hslots : slots (normalize F.kv) b = slots F.kv b := slots_normalize F.kv hb
  have hhome : home (H.onBucket b hb) (normalize F.kv) b = fun k ↦ H.hashWithNonce k T.nonce := by
    funext k
    rw [home, hmeta]
    rfl
  refine ⟨⟨?_, fun b' hb' v hv ↦ ?_, ?_⟩, hstore, fun b' hb' ↦ ?_, ?_, ?_, ?_⟩
  · rw [hstore]
    exact ⟨h.reads.value, h.reads.metadata, h.reads.fast⟩
  · rw [hcache] at hv
    cases hv
  · rw [hview]
    exact StateUpdates.isDiff_empty _
  · rw [hnone, hview]
    exact congrArg _ (count_normalize F.kv hb').symm
  · rw [hview, hmeta]
  · rw [hview]
    refine ⟨?_, ?_, ?_, ?_, fun a v hv ↦ ?_⟩
    · rw [hmeta]
      exact h.capacity_pos
    · rw [hmeta]
      exact h.capacity_le
    · rw [hmeta, hslots, hhome]
      exact h.ordered
    · rw [hmeta, hslots]
      exact h.outside
    · rw [hslots] at hv
      refine ⟨h.pairs.1 v ⟨a, ?_, hv⟩, rfl⟩
      by_contra ha
      rw [h.outside a (not_lt.mp ha)] at hv
      cases hv
  · rw [hview]
    intro k x
    rw [h.pairs.2 k x]
    refine exists_congr fun v ↦ and_congr_left fun _ ↦ ?_
    change _ ↔ Stored (metaAt (normalize F.kv) b).capacity (slots (normalize F.kv) b) v
    rw [hmeta, hslots]

theorem TableStore.counted_reads (h : TableStore H b counted T rd F) (hc : counted = true) :
    Reads rd ⟨F.kv, count F.kv⟩ (fun _ ↦ False) := by
  have hcounts := h.counts
  rw [if_pos hc] at hcounts
  refine ⟨⟨h.reads.value, h.reads.metadata, h.reads.fast⟩, fun b' hb' ↦ ?_⟩
  rw [hcounts b' hb']
  exact Sat.ok rfl

theorem Tabled.run {start : SaltKey → Option SaltValue} {hb : isValidDataBucket b}
    {r : EphemeralSaltState × StateUpdates} (h : Tabled H b hb counted rd F start T r)
    (hcounts : if counted then Reads rd F (fun _ ↦ False) else ∃ e, rd.bucketUsedSlots b = .error (.err e))
    (ops : List TableOp) (hdirect : ∀ k x, .upsert k x ∈ ops → ∀ sk, rd.plainValueFast k = .ok sk → sk.bucketId = b)
    (hops : T.AdmitsAll counted ops) :
    Sat (ops.foldlM (fun acc op ↦ op.run H (fuel + 1) b acc) r) (fun _ ↦ False)
      (Tabled H b hb counted rd F start (ops.foldl Table.apply T)) := by
  induction ops generalizing T r with
  | nil => exact Sat.ok h
  | cons op ops ih =>
    obtain ⟨st, out⟩ := r
    obtain ⟨ha, hops⟩ := hops
    rw [List.foldlM_cons, List.foldl_cons]
    have hstep : Sat (op.run H (fuel + 1) b (st, out)) (fun _ ↦ False)
        (Tabled H b hb counted rd F start (T.apply op)) := by
      cases op with
      | upsert k x => exact h.upsert hcounts ha (hdirect k x List.mem_cons_self)
      | delete k => exact h.delete k
      | rehash nonce c =>
        obtain rfl : counted = true := ha.1
        exact h.rehash hcounts ha
    exact hstep.bind fun r hr ↦ ih hr (fun k x hk ↦ hdirect k x (List.mem_cons_of_mem _ hk)) hops

/-- Over any store that holds a table of one bucket, every sequence of insertions, deletions and rehashes that triggers
no resize leaves the canonical layout of the pairs, at the nonce and capacity of the last rehash. -/
theorem shi_layout_canonical (hf : 1 ≤ fuel) (hb : isValidDataBucket b) (h : TableStore H b counted T rd F)
    (cacheRead : Bool) (ops : List TableOp)
    (hdirect : ∀ k x, .upsert k x ∈ ops → ∀ sk, rd.plainValueFast k = .ok sk → sk.bucketId = b)
    (hops : T.AdmitsAll counted ops) :
    ∃ st u, runTable H fuel b ops (sessionOver rd cacheRead) = .ok (st, u) ∧
      LaidOut H b (ops.foldl Table.apply T).nonce (ops.foldl Table.apply T).capacity
        (ops.foldl Table.apply T).pairs st ∧
      Probing H b (ops.foldl Table.apply T).nonce (ops.foldl Table.apply T).capacity st ∧
      OnlyLayout H b (ops.foldl Table.apply T).nonce (ops.foldl Table.apply T).capacity
        (ops.foldl Table.apply T).pairs st := by
  obtain ⟨fuel, rfl⟩ := Nat.exists_eq_add_of_le' hf
  have hcounts : if counted then Reads rd ⟨F.kv, count F.kv⟩ (fun _ ↦ False)
      else ∃ e, rd.bucketUsedSlots b = .error (.err e) := by
    cases counted with
    | true => exact h.counted_reads rfl
    | false => exact h.counts
  obtain ⟨⟨st, u⟩, hr, ht⟩ := ((h.tabled hb cacheRead).run hcounts ops hdirect hops).exists_ok
  exact ⟨st, u, hr, ht.good.laidOut hb ht.tracked.reads ht.represents ht.shape⟩

def uncountedTable (b : ℕ) (nonce : UInt32) (c : ℕ) : StateReader :=
  { (emptyTable b nonce c).reader with bucketUsedSlots := fun _ ↦ .error (.err (.notInWitness "Key")) }

theorem uncountedTable_tableStore (hb : isValidDataBucket b) (hc : 1 ≤ c) (hc' : c ≤ bucketSlotIdMask) :
    TableStore H b false ⟨nonce, c, fun _ ↦ none⟩ (uncountedTable b nonce c) (emptyTable b nonce c).full := by
  obtain ⟨hcan, hmeta⟩ := emptyTable_canonical (H := H) nonce hb hc hc'
  have hreads := StateStore.reads hcan.metaOk (fun _ ↦ False)
  have hslots : slots (emptyTable b nonce c).full.kv b = fun _ ↦ none := by
    rw [← slots_normalize _ hb]
    funext a
    refine Option.eq_none_iff_forall_ne_some.mpr fun v hv ↦ ?_
    have hholds := (hcan.good b hb).holds_iff.mpr ⟨a, hv⟩
    have hnone := (hcan.represents v.key v.value).mpr ⟨v, hholds, rfl, rfl⟩
    cases hnone
  refine ⟨⟨hreads.value, hreads.metadata, hreads.fast⟩, ⟨_, rfl⟩, ?_, hc, hc', ?_, ?_, ?_⟩
  · rw [← metaAt_normalize _ hb]
    exact hmeta
  · rw [hslots]
    exact ordered_empty
  · rw [hslots]
    exact fun _ _ ↦ rfl
  · rw [hslots]
    have hempty : ∀ v, ¬ Stored c (fun _ : ℕ ↦ (none : Option SaltValue)) v := fun v hv ↦ by
      obtain ⟨a, -, hv⟩ := hv
      cases hv
    refine ⟨fun v hv ↦ (hempty v hv).elim, fun k x ↦ ⟨fun hx ↦ ?_, fun hx ↦ ?_⟩⟩
    · cases hx
    · obtain ⟨v, hv, -⟩ := hx
      exact (hempty v hv).elim

theorem Table.size_le {T : Table} (l : List Bytes) (h : ∀ k, (T.pairs k).isSome → k ∈ l) : T.size ≤ l.length := by
  have hsub : {k | (T.pairs k).isSome} ⊆ (l.toFinset : Set Bytes) := fun k hk ↦ List.mem_toFinset.mpr (h k hk)
  have hcard := Set.ncard_le_ncard hsub (Finset.finite_toSet _)
  rw [Set.ncard_coe_finset] at hcard
  exact hcard.trans (List.toFinset_card_le l)

theorem Table.room {T : Table} (l : List Bytes) (h : ∀ k, (T.pairs k).isSome → k ∈ l) (hlen : l.length < T.capacity) :
    T.size + 1 ≤ T.limit false := (Nat.succ_le_succ (T.size_le l h)).trans hlen

theorem shi_layout_canonical_two_slots :
    let ops : List TableOp := [.upsert [1] [2], .upsert [3] [4], .delete [1], .upsert [5] [6]]
    let T := ops.foldl Table.apply ⟨7, 2, fun _ ↦ none⟩
    ∃ st u, runTable flatHasher 1 (2 ^ 16) ops (sessionOver (uncountedTable (2 ^ 16) 7 2) true) = .ok (st, u) ∧
      LaidOut flatHasher (2 ^ 16) T.nonce T.capacity T.pairs st ∧
      Probing flatHasher (2 ^ 16) T.nonce T.capacity st ∧
      OnlyLayout flatHasher (2 ^ 16) T.nonce T.capacity T.pairs st := by
  refine shi_layout_canonical (le_refl 1) (by decide) (uncountedTable_tableStore (by decide) (by decide) (by decide))
    true _ (fun k x _ sk hsk ↦ by cases hsk) ⟨⟨by decide, fun _ ↦ Table.room [] ?_ (by decide)⟩,
      ⟨by decide, fun _ ↦ Table.room [[1]] ?_ (by decide)⟩, trivial,
      ⟨by decide, fun _ ↦ Table.room [[3]] ?_ (by decide)⟩, trivial⟩
  all_goals
    intro k hk
    simp only [Table.apply, Function.update_apply] at hk
    grind

end Salt
