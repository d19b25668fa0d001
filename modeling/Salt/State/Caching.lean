import Salt.State.BucketOrder

namespace Salt

open Std (ExtTreeMap)
open Library.Commands Library.Commands.Program
open Library.Triple (ok_bind)

/-- What the sessions rely on: capacities within the rule, and direct lookups that lead to data slots. -/
structure StateReader.Obeys (store : StateReader) (R : CapacityRule) : Prop where
  capacity : ∀ b m, isValidDataBucket b → store.metadata b = .ok m → R.fits b m.capacity
  direct : ∀ plainKey saltKey, store.plainValueFast plainKey = .ok saltKey → saltKey.isInMetaBucket = false

def metadataEntry (m : BucketMeta) : Option SaltValue := if m.isDefault then none else some (SaltValue.ofMeta m)

def IsRead (store : StateReader) (key : SaltKey) (v : Option SaltValue) : Prop :=
  (key.isInMetaBucket = false ∧ store.value key = .ok v) ∨
    ∃ b m, isValidDataBucket b ∧ key = metadataKey b ∧ store.metadata b = .ok m ∧ v = metadataEntry m

/-- A session that caches its reads beside one that does not: the first holds what the second wrote and, beyond that,
only what was read. -/
structure CachesReads (R : CapacityRule) (s t : OpenSession) : Prop where
  store_eq : s.1.store = t.1.store
  reads : s.1.cacheRead = true
  plain : t.1.cacheRead = false
  delta_eq : s.1.usageCountDelta = t.1.usageCountDelta
  rehashed_eq : s.1.rehashedBuckets = t.1.rehashedBuckets
  updates_eq : s.2 = t.2
  written : ∀ (k : SaltKey) v, t.1.cache[k]? = some v → s.1.cache[k]? = some v
  read : ∀ (k : SaltKey) v, t.1.cache[k]? = none → s.1.cache[k]? = some v → IsRead t.1.store k v
  obeys : t.1.store.Obeys R
  fits : ∀ b, isValidDataBucket b → ∀ v, t.1.cache[metadataKey b]? = some v →
    ∃ m, v = some (SaltValue.ofMeta m) ∧ R.fits b m.capacity

section Answers

variable {st : EphemeralSaltState} {k : SaltKey} {b : ℕ}

theorem value_cached {v : Option SaltValue} (h : st.cache[k]? = some v) : st.value k = .ok (st, v) := by
  rw [EphemeralSaltState.value, h]

theorem value_plain (h : st.cache[k]? = none) (hplain : st.cacheRead = false) :
    st.value k = st.store.value k >>= fun v ↦ .ok (st, v) := by
  rw [EphemeralSaltState.value, h, hplain]
  rfl

theorem value_reading (h : st.cache[k]? = none) (hreads : st.cacheRead = true) :
    st.value k = st.store.value k >>= fun v ↦ .ok ({ st with cache := st.cache.insert k v }, v) := by
  rw [EphemeralSaltState.value, h]
  simp only [if_pos hreads]

theorem default_of_isDefault {m : BucketMeta} (h : m.isDefault = true) :
    BucketMeta.default = { m with used := none } := by
  rcases m with ⟨nonce, capacity, used⟩
  rw [BucketMeta.isDefault, decide_eq_true_iff] at h
  obtain ⟨rfl, rfl⟩ := h
  rfl

theorem shapeOf_invalid (hb : ¬ isValidDataBucket b) : st.shapeOf b = .error (.panic (.notDataBucket b)) := by
  rw [EphemeralSaltState.shapeOf, bucketMetadataKey, if_neg hb]
  rfl

theorem shapeOf_written (hb : isValidDataBucket b) {m : BucketMeta}
    (h : st.cache[metadataKey b]? = some (some (SaltValue.ofMeta m))) (hm : m.capacity < 2 ^ 64) :
    st.shapeOf b = .ok (st, { m with used := none }) := by
  rw [EphemeralSaltState.shapeOf, bucketMetadataKey, if_pos hb]
  simp only [ok_bind, h, BucketMeta.tryFrom_ofMeta hm]

theorem shapeOf_read (hb : isValidDataBucket b) {m : BucketMeta}
    (h : st.cache[metadataKey b]? = some (metadataEntry m)) (hm : m.capacity < 2 ^ 64) :
    st.shapeOf b = .ok (st, { m with used := none }) := by
  unfold metadataEntry at h
  split_ifs at h with hdefault
  · rw [EphemeralSaltState.shapeOf, bucketMetadataKey, if_pos hb]
    simp only [ok_bind, h, default_of_isDefault hdefault]
  · exact shapeOf_written hb h hm

theorem shapeOf_plain (hb : isValidDataBucket b) (h : st.cache[metadataKey b]? = none) (hplain : st.cacheRead = false) :
    st.shapeOf b = st.store.metadata b >>= fun m ↦ .ok (st, m) := by
  rw [EphemeralSaltState.shapeOf, bucketMetadataKey, if_pos hb, hplain]
  simp only [ok_bind, h]
  rfl

theorem shapeOf_reading (hb : isValidDataBucket b) (h : st.cache[metadataKey b]? = none)
    (hreads : st.cacheRead = true) :
    st.shapeOf b = st.store.metadata b >>= fun m ↦
      .ok ({ st with cache := st.cache.insert (metadataKey b) (metadataEntry m) }, m) := by
  rw [EphemeralSaltState.shapeOf, bucketMetadataKey, if_pos hb]
  simp only [ok_bind, h, if_pos hreads]
  rfl

theorem capacity_lt {R : CapacityRule} {c : ℕ} (hb : isValidDataBucket b) (h : R.fits b c) : c < 2 ^ 64 := by
  have hkey := R.key_lt b c hb h
  rw [dataBucket_iff] at hb
  omega

end Answers

namespace CachesReads

variable {R : CapacityRule} {s t : OpenSession}

theorem data_read (h : CachesReads R s t) {k : SaltKey} (hk : k.isInMetaBucket = false) {v : Option SaltValue}
    (ht : t.1.cache[k]? = none) (hs : s.1.cache[k]? = some v) : t.1.store.value k = .ok v := by
  rcases h.read k v ht hs with ⟨-, hv⟩ | ⟨b, m, hb, rfl, -⟩
  · exact hv
  · rw [metadataKey_inMeta hb] at hk
    cases hk

theorem metadata_read (h : CachesReads R s t) {b : ℕ} (hb : isValidDataBucket b) {v : Option SaltValue}
    (ht : t.1.cache[metadataKey b]? = none) (hs : s.1.cache[metadataKey b]? = some v) :
    ∃ m, t.1.store.metadata b = .ok m ∧ v = metadataEntry m := by
  rcases h.read _ v ht hs with ⟨hk, -⟩ | ⟨b', m, hb', hbb', hm, hv⟩
  · rw [metadataKey_inMeta hb] at hk
    cases hk
  · rw [metadataKey_inj hb hb' hbb']
    exact ⟨m, hm, hv⟩

theorem insert (h : CachesReads R s t) {k : SaltKey} {v : Option SaltValue}
    (hv : k.isInMetaBucket = false ∨
      ∃ b m, isValidDataBucket b ∧ k = metadataKey b ∧ v = some (SaltValue.ofMeta m) ∧ R.fits b m.capacity) :
    CachesReads R ({ s.1 with cache := s.1.cache.insert k v }, s.2)
      ({ t.1 with cache := t.1.cache.insert k v }, t.2) where
  store_eq := h.store_eq
  reads := h.reads
  plain := h.plain
  delta_eq := h.delta_eq
  rehashed_eq := h.rehashed_eq
  updates_eq := h.updates_eq
  obeys := h.obeys
  written := by
    intro k' v' hk'
    simp only [ExtTreeMap.getElem?_insert] at hk' ⊢
    split_ifs with hcmp
    · rwa [if_pos hcmp] at hk'
    · rw [if_neg hcmp] at hk'
      exact h.written k' v' hk'
  read := by
    intro k' v' hk' hs'
    simp only [ExtTreeMap.getElem?_insert] at hk' hs'
    split_ifs at hk' hs' with hcmp
    exact h.read k' v' hk' hs'
  fits := by
    intro b hb v' hv'
    simp only [ExtTreeMap.getElem?_insert] at hv'
    split_ifs at hv' with hcmp
    · rw [Std.LawfulEqCmp.compare_eq_iff_eq] at hcmp
      cases hv'
      rcases hv with hk | ⟨b', m, hb', hk, hm, hfits⟩
      · rw [hcmp, metadataKey_inMeta hb] at hk
        cases hk
      · rw [metadataKey_inj hb hb' (hcmp.symm.trans hk)]
        exact ⟨m, hm, hfits⟩
    · exact h.fits b hb v' hv'

theorem insert_read (h : CachesReads R s t) {k : SaltKey} {v : Option SaltValue} (hs : s.1.cache[k]? = none)
    (hv : IsRead t.1.store k v) : CachesReads R ({ s.1 with cache := s.1.cache.insert k v }, s.2) t where
  store_eq := h.store_eq
  reads := h.reads
  plain := h.plain
  delta_eq := h.delta_eq
  rehashed_eq := h.rehashed_eq
  updates_eq := h.updates_eq
  obeys := h.obeys
  fits := h.fits
  written := by
    intro k' v' hk'
    have hs' := h.written k' v' hk'
    have hne : k ≠ k' := by
      rintro rfl
      rw [hs] at hs'
      cases hs'
    simpa [ExtTreeMap.getElem?_insert, hne] using hs'
  read := by
    intro k' v' hk' hs'
    simp only [ExtTreeMap.getElem?_insert] at hs'
    split_ifs at hs' with hcmp
    · rw [Std.LawfulEqCmp.compare_eq_iff_eq] at hcmp
      cases hs'
      exact hcmp ▸ hv
    · exact h.read k' v' hk' hs'

def Agrees (R : CapacityRule) (s t : OpenSession) (c : SessionCommand) : Prop :=
  (handle c s).1 = (handle c t).1 ∧ R.Expects c (handle c t).1 ∧ CachesReads R (handle c s).2 (handle c t).2

theorem value (h : CachesReads R s t) {k : SaltKey} (hk : k.isInMetaBucket = false) : Agrees R s t (.value k) := by
  have hstore : s.1.store.value k = t.1.store.value k := by rw [h.store_eq]
  unfold Agrees
  simp only [handle]
  cases ht : t.1.cache[k]? with
  | some v =>
    rw [value_cached ht, value_cached (h.written k v ht)]
    exact ⟨rfl, trivial, h⟩
  | none =>
    rw [value_plain ht h.plain]
    cases hs : s.1.cache[k]? with
    | some v =>
      rw [value_cached hs, h.data_read hk ht hs]
      exact ⟨rfl, trivial, h⟩
    | none =>
      rw [value_reading hs h.reads, hstore]
      cases hv : t.1.store.value k with
      | error e => exact ⟨rfl, trivial, h⟩
      | ok v => exact ⟨rfl, trivial, h.insert_read hs (.inl ⟨hk, hv⟩)⟩

theorem shapeOf (h : CachesReads R s t) (b : ℕ) : Agrees R s t (.shapeOf b) := by
  have hstore : s.1.store.metadata b = t.1.store.metadata b := by rw [h.store_eq]
  unfold Agrees
  simp only [handle]
  by_cases hb : isValidDataBucket b
  · cases ht : t.1.cache[metadataKey b]? with
    | some v =>
      obtain ⟨m, rfl, hm⟩ := h.fits b hb v ht
      rw [shapeOf_written hb ht (capacity_lt hb hm), shapeOf_written hb (h.written _ _ ht) (capacity_lt hb hm)]
      refine ⟨rfl, fun m' hm' ↦ ?_, h⟩
      cases hm'
      exact ⟨hb, hm⟩
    | none =>
      rw [shapeOf_plain hb ht h.plain]
      have hexpects : ∀ m, t.1.store.metadata b = .ok m → isValidDataBucket b ∧ R.fits b m.capacity :=
        fun m hm ↦ ⟨hb, h.obeys.capacity b m hb hm⟩
      cases hs : s.1.cache[metadataKey b]? with
      | some v =>
        obtain ⟨m, hm, rfl⟩ := h.metadata_read hb ht hs
        rw [shapeOf_read hb hs (capacity_lt hb (hexpects m hm).2), hm]
        refine ⟨rfl, fun m' hm' ↦ ?_, h⟩
        cases hm'
        exact hexpects m hm
      | none =>
        rw [shapeOf_reading hb hs h.reads, hstore]
        cases hm : t.1.store.metadata b with
        | error e =>
          refine ⟨rfl, fun m' hm' ↦ ?_, h⟩
          cases hm'
        | ok m =>
          refine ⟨rfl, fun m' hm' ↦ ?_, h.insert_read hs (.inr ⟨b, m, hb, rfl, hm, rfl⟩)⟩
          cases hm'
          exact hexpects m hm
  · rw [shapeOf_invalid hb, shapeOf_invalid hb]
    refine ⟨rfl, fun m' hm' ↦ ?_, h⟩
    cases hm'

theorem with_delta (h : CachesReads R s t) (delta : ExtTreeMap ℕ ℤ) (out : StateUpdates) :
    CachesReads R ({ s.1 with usageCountDelta := delta }, out) ({ t.1 with usageCountDelta := delta }, out) :=
  ⟨h.store_eq, h.reads, h.plain, rfl, h.rehashed_eq, rfl, h.written, h.read, h.obeys, h.fits⟩

theorem with_rehashed (h : CachesReads R s t) (rehashed : List ℕ) :
    CachesReads R ({ s.1 with rehashedBuckets := rehashed }, s.2) ({ t.1 with rehashedBuckets := rehashed }, t.2) :=
  ⟨h.store_eq, h.reads, h.plain, h.delta_eq, rfl, h.updates_eq, h.written, h.read, h.obeys, h.fits⟩

theorem with_updates (h : CachesReads R s t) (out : StateUpdates) : CachesReads R (s.1, out) (t.1, out) :=
  ⟨h.store_eq, h.reads, h.plain, h.delta_eq, h.rehashed_eq, rfl, h.written, h.read, h.obeys, h.fits⟩

theorem updateValue (h : CachesReads R s t) {k : SaltKey} {o n : Option SaltValue} (hk : R.Recordable k o n) :
    Agrees R s t (.updateValue k o n) := by
  have hn : k.isInMetaBucket = false ∨
      ∃ b m, isValidDataBucket b ∧ k = metadataKey b ∧ n = some (SaltValue.ofMeta m) ∧ R.fits b m.capacity := by
    rcases hk with hk | ⟨b, -, m', hb, hk, -, hm', -, hn⟩
    · exact .inl hk
    · exact .inr ⟨b, m', hb, hk, hn, hm'⟩
  unfold Agrees
  simp only [handle, recordValue]
  by_cases hon : o = n
  · rw [if_pos hon, if_pos hon]
    exact ⟨rfl, trivial, h⟩
  · rw [if_neg hon, if_neg hon, h.updates_eq, h.delta_eq]
    cases t.2.add k o n with
    | error e => exact ⟨rfl, trivial, h.with_delta _ t.2⟩
    | ok out => exact ⟨rfl, trivial, (h.insert hn).with_delta _ out⟩

theorem add (h : CachesReads R s t) (k : SaltKey) (o n : Option SaltValue) : Agrees R s t (.add k o n) := by
  unfold Agrees
  simp only [handle, recordChange]
  rw [h.updates_eq]
  cases t.2.add k o n with
  | error e => exact ⟨rfl, trivial, h⟩
  | ok out => exact ⟨rfl, trivial, h.with_updates out⟩

theorem remove (h : CachesReads R s t) (k : SaltKey) :
    CachesReads R ({ s.1 with cache := s.1.cache.erase k }, s.2) ({ t.1 with cache := t.1.cache.erase k }, t.2) where
  store_eq := h.store_eq
  reads := h.reads
  plain := h.plain
  delta_eq := h.delta_eq
  rehashed_eq := h.rehashed_eq
  updates_eq := h.updates_eq
  obeys := h.obeys
  written := by
    intro k' v' hk'
    simp only [ExtTreeMap.getElem?_erase] at hk' ⊢
    split_ifs at hk' with hcmp
    rw [if_neg hcmp]
    exact h.written k' v' hk'
  read := by
    intro k' v' hk' hs'
    simp only [ExtTreeMap.getElem?_erase] at hk' hs'
    split_ifs at hk' hs' with hcmp
    exact h.read k' v' hk' hs'
  fits := by
    intro b hb v' hv'
    simp only [ExtTreeMap.getElem?_erase] at hv'
    split_ifs at hv'
    exact h.fits b hb v' hv'

theorem insertRehashed (h : CachesReads R s t) (b : ℕ) : Agrees R s t (.insertRehashed b) := by
  refine ⟨rfl, trivial, ?_⟩
  simp only [handle, EphemeralSaltState.insertRehashed]
  rw [h.rehashed_eq]
  split_ifs
  · exact h
  · exact h.with_rehashed _

theorem agrees : Simulates handle handle R.Admits R.Expects (CachesReads R) := by
  intro c s t hc h
  cases c with
  | value k => exact h.value hc
  | shapeOf b => exact h.shapeOf b
  | usageCount b =>
    refine ⟨?_, trivial, h⟩
    simp only [handle, EphemeralSaltState.usageCount]
    rw [h.store_eq, h.delta_eq]
  | plainValueFast key =>
    refine ⟨?_, fun saltKey hkey ↦ h.obeys.direct key saltKey hkey, h⟩
    simp only [handle]
    rw [h.store_eq]
  | updateValue k o n => exact h.updateValue hc
  | cacheInsert k v => exact ⟨rfl, trivial, h.insert (.inl hc)⟩
  | cacheRemove k => exact ⟨rfl, trivial, h.remove k⟩
  | add k o n => exact h.add k o n
  | lowerUsage b n =>
    refine ⟨rfl, trivial, ?_⟩
    simp only [handle]
    rw [h.delta_eq, h.updates_eq]
    exact h.with_delta _ t.2
  | insertRehashed b => exact h.insertRehashed b
  | takeRehashed => exact ⟨h.rehashed_eq, trivial, h.with_rehashed []⟩
  | clearRehashed => exact ⟨rfl, trivial, h.with_rehashed []⟩
  | replaceUpdates out => exact ⟨h.updates_eq, trivial, h.with_updates out⟩

theorem start {store : StateReader} (h : store.Obeys R) (out : StateUpdates) :
    CachesReads R ((EphemeralSaltState.new store).withCacheRead, out) (EphemeralSaltState.new store, out) where
  store_eq := rfl
  reads := rfl
  plain := rfl
  delta_eq := rfl
  rehashed_eq := rfl
  updates_eq := rfl
  obeys := h
  written := fun k v hk ↦ hk
  read := fun k v _ hk ↦ by simp [EphemeralSaltState.new, EphemeralSaltState.withCacheRead] at hk
  fits := fun b _ v hk ↦ by simp [EphemeralSaltState.new] at hk

end CachesReads

inductive SessionCall
  | find (plainKey : Bytes)
  | plainValue (plainKey : Bytes)
  | value (key : SaltKey) (data : key.isInMetaBucket = false)
  | update (kvs : List (Bytes × Option Bytes))
  | updateFin (kvs : List (Bytes × Option Bytes))
  | canonicalize
  | setNonce (bucketId : ℕ) (newNonce : UInt32)
  | shiRehash (bucketId : ℕ) (newNonce : UInt32) (newCapacity : ℕ) (outUpdates : StateUpdates)

inductive SessionAnswer
  | found (r : Option (SaltKey × SaltValue))
  | plain (r : Option Bytes)
  | slot (r : Option SaltValue)
  | updates (r : StateUpdates)

structure SetOrder where
  list : List ℕ → List ℕ
  perm : ∀ l, (list l).Perm l

section Calls

variable (H : Hasher) (fuel : ℕ)

def SessionCall.program (order : List ℕ → List ℕ) : SessionCall → SessionProgram SessionAnswer
  | .find plainKey => do return .found (← Interaction.find H plainKey)
  | .plainValue plainKey => do return .plain (← Interaction.plainValue H plainKey)
  | .value key _ => do return .slot (← Interaction.value key)
  | .update kvs => do return .updates (← Interaction.update H fuel kvs)
  | .updateFin kvs => do return .updates (← Interaction.updateFin H fuel order kvs)
  | .canonicalize => do return .updates (← Interaction.canonicalize H fuel order)
  | .setNonce b nonce => do return .updates (← Interaction.setNonce H b nonce)
  | .shiRehash b nonce c out => do return .updates (← Interaction.shiRehashInto H b nonce c out)

/-- One operation after the other on one session, also after an operation that failed. Each comes with the order in
which the set of rehashed buckets is iterated while it runs. -/
def runCalls : List (SessionCall × SetOrder) → OpenSession → List (Except Fault SessionAnswer) × OpenSession
  | [], s => ([], s)
  | (call, order) :: calls, s =>
    let r := exec handle (call.program H fuel order.list) s
    let rest := runCalls calls r.2
    (r.1 :: rest.1, rest.2)

/-- A call on two sessions whose hash sets may list the same elements in different orders. -/
structure PairedCall where
  call : SessionCall
  cachedOrder : SetOrder
  plainOrder : SetOrder

namespace PairedCall

def cached (c : PairedCall) : SessionCall × SetOrder := (c.call, c.cachedOrder)

def plain (c : PairedCall) : SessionCall × SetOrder := (c.call, c.plainOrder)

/-- The two orders agree on the rehashed buckets, or the buckets are processed independently of each other. -/
def OrderFree (c : PairedCall) (s : OpenSession) : Prop :=
  c.cachedOrder.list s.1.rehashedBuckets = c.plainOrder.list s.1.rehashedBuckets ∨ Independent H fuel s

def Orderly (c : PairedCall) (s : OpenSession) : Prop :=
  match c.call with
  | .canonicalize => c.OrderFree H fuel s
  | .updateFin kvs => ∀ u s', exec handle (Interaction.update H fuel kvs) s = (.ok u, s') → c.OrderFree H fuel s'
  | _ => True

def AllOrderly : List PairedCall → OpenSession → Prop
  | [], _ => True
  | c :: calls, s => c.Orderly H fuel s ∧
    AllOrderly calls (exec handle (c.call.program H fuel c.plainOrder.list) s).2

end PairedCall

def slotKeysFit : CapacityRule where
  fits b c := b * 2 ^ 40 + c ≤ 2 ^ 64
  key_lt _ _ _ h := h
  grow b c c' hb _ _ hmask := by
    rw [dataBucket_iff] at hb
    change c' ≤ 2 ^ 40 - 1 at hmask
    omega
  calls := True

open Interaction in
theorem SessionCall.keeps (order : List ℕ → List ℕ) (call : SessionCall) :
    slotKeysFit.Keeps (call.program H fuel order) fun _ ↦ True := by
  cases call with
  | find key => exact (keeps_find key).bind fun _ _ ↦ trivial
  | plainValue key => exact (keeps_plainValue key).bind fun _ _ ↦ trivial
  | value key data => exact (keeps_value data).bind fun _ _ ↦ trivial
  | update kvs => exact (keeps_update trivial fuel kvs).bind fun _ _ ↦ trivial
  | updateFin kvs => exact (keeps_updateFin trivial fuel order kvs).bind fun _ _ ↦ trivial
  | canonicalize => exact (keeps_canonicalize trivial fuel order).bind fun _ _ ↦ trivial
  | setNonce b nonce => exact (keeps_setNonce trivial b nonce).bind fun _ _ ↦ trivial
  | shiRehash b nonce c out =>
    refine (keeps_shiRehashInto trivial (fun old hb _ hmask ↦ ?_) out).bind fun _ _ ↦ trivial
    rw [dataBucket_iff] at hb
    change c ≤ 2 ^ 40 - 1 at hmask
    change b * 2 ^ 40 + c ≤ 2 ^ 64
    omega

variable {H fuel}

theorem PairedCall.OrderFree.exec_eq {c : PairedCall} {s : OpenSession} (h : c.OrderFree H fuel s)
    (hn : s.1.rehashedBuckets.Nodup) : exec handle (Interaction.canonicalize H fuel c.cachedOrder.list) s =
      exec handle (Interaction.canonicalize H fuel c.plainOrder.list) s := by
  rcases h with heq | h
  · rw [exec_canonicalize, exec_canonicalize, heq]
  · exact canonicalize_order hn (c.cachedOrder.perm _) (c.plainOrder.perm _) h

/-- One call without read caching, in either order. -/
theorem PairedCall.Orderly.exec_eq {c : PairedCall} {s : OpenSession} (h : c.Orderly H fuel s)
    (hn : s.1.rehashedBuckets.Nodup) : exec handle (c.call.program H fuel c.cachedOrder.list) s =
      exec handle (c.call.program H fuel c.plainOrder.list) s := by
  obtain ⟨call, cachedOrder, plainOrder⟩ := c
  cases call with
  | canonicalize =>
    simp only [SessionCall.program]
    rw [exec_bind, exec_bind, PairedCall.OrderFree.exec_eq h hn]
  | updateFin kvs =>
    simp only [SessionCall.program, Interaction.updateFin]
    rw [exec_bind, exec_bind, exec_bind, exec_bind]
    have hnodup := exec_keeps handle_nodup (Interaction.update H fuel kvs) hn
    have hcall := h
    simp only [PairedCall.Orderly] at hcall
    revert hnodup hcall
    rcases exec handle (Interaction.update H fuel kvs) s with ⟨e | u, s'⟩
    · exact fun _ _ ↦ rfl
    · intro hnodup hcall
      have heq := (hcall u s' rfl).exec_eq hnodup
      simp only at heq ⊢
      rw [exec_bind, exec_bind, heq]
  | _ => rfl

theorem CachesReads.runCalls (calls : List PairedCall) {s t : OpenSession} (h : CachesReads slotKeysFit s t)
    (hn : t.1.rehashedBuckets.Nodup) (horderly : PairedCall.AllOrderly H fuel calls t) :
    (runCalls H fuel (calls.map PairedCall.cached) s).1 = (runCalls H fuel (calls.map PairedCall.plain) t).1 ∧
      CachesReads slotKeysFit (runCalls H fuel (calls.map PairedCall.cached) s).2
        (runCalls H fuel (calls.map PairedCall.plain) t).2 := by
  induction calls generalizing s t with
  | nil => exact ⟨rfl, h⟩
  | cons c calls ih =>
    obtain ⟨hanswer, hnext⟩ := CachesReads.agrees.exec (c.call.keeps H fuel c.cachedOrder.list) h
    rw [horderly.1.exec_eq hn] at hanswer hnext
    obtain ⟨hrest, hlast⟩ := ih hnext (exec_keeps handle_nodup _ hn) horderly.2
    exact ⟨congrArg₂ List.cons hanswer hrest, hlast⟩

/-- Caching reads changes no answer, whatever fails on the way, as long as the order in which `canonicalize` takes the
rehashed buckets is the same or does not matter. -/
theorem cache_read_transparent (store : StateReader) (hstore : store.Obeys slotKeysFit) (calls : List PairedCall)
    (horderly : PairedCall.AllOrderly H fuel calls (EphemeralSaltState.new store, .empty)) :
    let cached := runCalls H fuel (calls.map PairedCall.cached) ((EphemeralSaltState.new store).withCacheRead, .empty)
    let plain := runCalls H fuel (calls.map PairedCall.plain) (EphemeralSaltState.new store, .empty)
    cached.1 = plain.1 ∧
      (∀ b needUsed, (exec handle (Interaction.metadata b needUsed) cached.2).1 =
        (exec handle (Interaction.metadata b needUsed) plain.2).1) ∧
      ∀ key : SaltKey, key.isInMetaBucket = false →
        (exec handle (Interaction.value key) cached.2).1 = (exec handle (Interaction.value key) plain.2).1 := by
  obtain ⟨hanswers, hlast⟩ := CachesReads.runCalls calls (CachesReads.start hstore .empty) List.nodup_nil horderly
  refine ⟨hanswers, fun b needUsed ↦ ?_, fun key hkey ↦ ?_⟩
  · exact (CachesReads.agrees.exec (Interaction.keeps_metadata needUsed) hlast).1
  · exact (CachesReads.agrees.exec (Interaction.keeps_value hkey) hlast).1

end Calls

section TwoBuckets

/-- Nonces are home slots, and `1` stands for the bucket after the first one. -/
def nonceHasher : Hasher where
  hashWithNonce _ nonce := nonce.toNat
  bucketId key := if key = [1] then 65537 else 65536
  bucketId_data key := by split <;> rfl

def pairRecord (key value : Bytes) : SaltValue := (SaltValue.new key value).toOption.getD (.ofMeta .default)

def twoBucketReader (v v' : SaltValue) (direct : Bytes → Option SaltKey) : StateReader where
  value key :=
    .ok (if key = SaltKey.ofPair 65536 0 then some v else if key = SaltKey.ofPair 65537 0 then some v' else none)
  metadata _ := .ok ⟨0, 2, none⟩
  bucketUsedSlots b := .ok (if b = 65536 ∨ b = 65537 then 1 else 0)
  plainValueFast key :=
    match direct key with
    | some saltKey => .ok saltKey
    | none => .error (.err (.notInWitness "Plain key"))
  getSubtreeLevels _ := .ok 1

theorem twoBucketReader_obeys (v v' : SaltValue) {direct : Bytes → Option SaltKey}
    (h : ∀ key saltKey, direct key = some saltKey → saltKey.isInMetaBucket = false) :
    (twoBucketReader v v' direct).Obeys slotKeysFit where
  capacity := by
    intro b m hb hm
    cases hm
    rw [dataBucket_iff] at hb
    change b * 2 ^ 40 + 2 ≤ 2 ^ 64
    omega
  direct := by
    intro key saltKey hkey
    simp only [twoBucketReader] at hkey
    split at hkey
    · rename_i hdirect
      cases hkey
      exact h key saltKey hdirect
    · cases hkey

def SetOrder.forward : SetOrder := ⟨id, fun l ↦ .refl l⟩

def SetOrder.backward : SetOrder := ⟨List.reverse, fun l ↦ l.reverse_perm⟩

def rehashBoth : List PairedCall :=
  [.setNonce 65536 7, .setNonce 65537 7, .canonicalize, .plainValue [1]].map fun call ↦ ⟨call, .forward, .backward⟩

def plainAnswers (answers : List (Except Fault SessionAnswer)) : List (Option Bytes) :=
  answers.filterMap fun answer ↦
    match answer with
    | .ok (.plain r) => some r
    | _ => none

theorem cache_read_transparent_backwards :
    let store := twoBucketReader (pairRecord [3] [4]) (pairRecord [1] [2]) fun _ ↦ none
    (runCalls nonceHasher 1 (rehashBoth.map PairedCall.cached)
    ((EphemeralSaltState.new store).withCacheRead, .empty)).1 =
      (runCalls nonceHasher 1 (rehashBoth.map PairedCall.plain) (EphemeralSaltState.new store, .empty)).1 := by
  refine (@cache_read_transparent nonceHasher 1 _ (twoBucketReader_obeys _ _ fun _ _ h ↦ by cases h)
    rehashBoth ⟨trivial, trivial, .inr ?_, trivial, trivial⟩).1
  unfold Independent
  decide +kernel

/-- A store that holds one key in two buckets, with a direct lookup of the key into the second: where its pair ends up
depends on the bucket that is restored first. -/
theorem cache_read_order_matters :
    let store := twoBucketReader (pairRecord [1] [2]) (pairRecord [1] [3]) fun key ↦
      if key = [1] then some (SaltKey.ofPair 65537 0) else none
    store.Obeys slotKeysFit ∧
      plainAnswers (runCalls nonceHasher 1 (rehashBoth.map PairedCall.cached)
        ((EphemeralSaltState.new store).withCacheRead, .empty)).1 = [some [2]] ∧
      plainAnswers (runCalls nonceHasher 1 (rehashBoth.map PairedCall.plain)
        (EphemeralSaltState.new store, .empty)).1 = [some [3]] := by
  refine ⟨twoBucketReader_obeys _ _ fun key saltKey h ↦ ?_, ?_, ?_⟩
  · split_ifs at h
    cases h
    decide
  · decide +kernel
  · decide +kernel

end TwoBuckets

end Salt
