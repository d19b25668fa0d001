import Salt.State.Commit

namespace Salt

open Library.ProbeRing Library.OrderedTable Library.GreedyLayout Library.Triple
open EphemeralSaltState

/-- The public operations of a session. The iteration order of the set of rehashed buckets is part
of the call that uses it. -/
inductive Op
  | update (kvs : List (Bytes × Option Bytes))
  | updateFin (kvs : List (Bytes × Option Bytes)) (order : List ℕ → List ℕ)
  | canonicalize (order : List ℕ → List ℕ)
  | setNonce (bucketId : ℕ) (nonce : UInt32)
  | shiRehash (bucketId : ℕ) (nonce : UInt32) (capacity : ℕ)

namespace Op

def run (H : Hasher) (fuel : ℕ) (st : EphemeralSaltState) :
    Op → Except Fault (EphemeralSaltState × StateUpdates)
  | update kvs => st.update H fuel kvs
  | updateFin kvs order => st.updateFin H fuel order kvs
  | canonicalize order => st.canonicalize H fuel order
  | setNonce b nonce => st.setNonce H b nonce
  | shiRehash b nonce capacity => st.shiRehash H b nonce capacity .empty

/-- Arguments the operation accepts: records that fit, data buckets, capacities up to the slot id
mask, and an order that lists the same buckets. -/
def Valid : Op → Prop
  | update kvs => Fits kvs
  | updateFin kvs order => Fits kvs ∧ ∀ l, (order l).Perm l
  | canonicalize order => ∀ l, (order l).Perm l
  | setNonce b _ => isValidDataBucket b
  | shiRehash b _ capacity => isValidDataBucket b ∧ 1 ≤ capacity ∧ capacity ≤ bucketSlotIdMask

def ValidFor (A : Fault → Prop) : Op → Prop
  | update kvs => FitsOr A kvs
  | updateFin kvs order => FitsOr A kvs ∧ ∀ l, (order l).Perm l
  | canonicalize order => ∀ l, (order l).Perm l
  | setNonce b _ => isValidDataBucket b
  | shiRehash b _ capacity => isValidDataBucket b ∧ 1 ≤ capacity

theorem Valid.validFor {op : Op} (h : op.Valid) (A : Fault → Prop) : op.ValidFor A := by
  cases op with
  | update kvs => exact Fits.fitsOr h
  | updateFin kvs order => exact ⟨Fits.fitsOr h.1, h.2⟩
  | canonicalize order => exact h
  | setNonce b nonce => exact h
  | shiRehash b nonce capacity => exact ⟨h.1, h.2.1⟩

def CapacityAllowed (A : Fault → Prop) : Op → Prop
  | shiRehash _ _ capacity => bucketSlotIdMask < capacity → A (.panic (.exceedsMaxBucketCapacity capacity))
  | _ => True

theorem Valid.capacityAllowed {op : Op} (h : op.Valid) (A : Fault → Prop) : op.CapacityAllowed A := by
  cases op with
  | shiRehash b nonce capacity => exact fun hlt ↦ absurd hlt (not_lt.mpr h.2.2)
  | _ => trivial

def plain : Op → List (Bytes × Option Bytes)
  | update kvs => kvs
  | updateFin kvs _ => kvs
  | _ => []

def apply (M : Bytes → Option Bytes) : Op → Bytes → Option Bytes
  | update kvs => applyAll M kvs
  | updateFin kvs _ => applyAll M kvs
  | _ => M

end Op

def applyOps (M : Bytes → Option Bytes) (ops : List Op) : Bytes → Option Bytes := ops.foldl Op.apply M

def plainUpdates (ops : List Op) : List (Bytes × Option Bytes) := ops.flatMap Op.plain

theorem Op.apply_eq (M : Bytes → Option Bytes) (op : Op) : op.apply M = applyAll M op.plain := by
  cases op <;> rfl

theorem applyOps_eq (M : Bytes → Option Bytes) (ops : List Op) : applyOps M ops = applyAll M (plainUpdates ops) := by
  induction ops generalizing M with
  | nil => rfl
  | cons op ops ih =>
    rw [plainUpdates, List.flatMap_cons, applyAll_append, ← op.apply_eq]
    exact ih _

def runOps (H : Hasher) (fuel : ℕ) (ops : List Op) (st : EphemeralSaltState) :
    Except Fault (EphemeralSaltState × List StateUpdates) :=
  ops.foldlM (fun (acc : EphemeralSaltState × List StateUpdates) op ↦ do
    let (st, updates) ← op.run H fuel acc.1
    .ok (st, acc.2 ++ [updates])) (st, [])

def sessionOver (rd : StateReader) (cacheRead : Bool) : EphemeralSaltState :=
  if cacheRead then (EphemeralSaltState.new rd).withCacheRead else EphemeralSaltState.new rd

def session (s : StateStore) (cacheRead : Bool) : EphemeralSaltState := sessionOver s.reader cacheRead

/-- Stores reached from the empty one by committing sessions, each session's updates one by one or
merged, together with the plain map that the sessions wrote. -/
inductive Reached (H : Hasher) (fuel : ℕ) : StateStore → (Bytes → Option Bytes) → Prop
  | empty : Reached H fuel .empty (fun _ ↦ none)
  | commit {s : StateStore} {M : Bytes → Option Bytes} {cacheRead : Bool} {ops : List Op}
    {st : EphemeralSaltState} {us : List StateUpdates} (hs : Reached H fuel s M)
    (hv : ∀ op ∈ ops, op.Valid) (hrun : runOps H fuel ops (session s cacheRead) = .ok (st, us)) :
    Reached H fuel (us.foldl StateStore.updateState s) (applyOps M ops)
  | commitMerged {s : StateStore} {M : Bytes → Option Bytes} {cacheRead : Bool} {ops : List Op}
    {st : EphemeralSaltState} {us : List StateUpdates} {u : StateUpdates} (hs : Reached H fuel s M)
    (hv : ∀ op ∈ ops, op.Valid) (hrun : runOps H fuel ops (session s cacheRead) = .ok (st, us))
    (hu : us.foldlM StateUpdates.merge .empty = .ok u) :
    Reached H fuel (s.updateState u) (applyOps M ops)

def TooLarge (e : Fault) : Prop := ∃ c, 2 ^ 40 ≤ c ∧ e = .panic (.exceedsMaxBucketCapacity c)

theorem tooLarge_of_lt {c : ℕ} (hc : bucketSlotIdMask < c) : TooLarge (.panic (.exceedsMaxBucketCapacity c)) := by
  change 2 ^ 40 - 1 < c at hc
  exact ⟨c, by omega, rfl⟩

theorem capped_tooLarge (n : ℕ) : Capped TooLarge n := fun _ hc _ ↦ tooLarge_of_lt hc

/-- The capacity assertion of `shi_rehash`, hit because after some of the plain updates a bucket holds so many keys
that a resize computes more than 40 bits of slots. -/
def Overflow (H : Hasher) (M : Bytes → Option Bytes) (kvs : List (Bytes × Option Bytes)) (e : Fault) : Prop :=
  ∃ c done b, 2 ^ 40 ≤ c ∧ done <+: kvs ∧ Needs (keysIn H (applyAll M done) b).ncard c ∧
    e = .panic (.exceedsMaxBucketCapacity c)

theorem cappedAfter_overflow (H : Hasher) (M : Bytes → Option Bytes) (kvs : List (Bytes × Option Bytes)) :
    CappedAfter (Overflow H M kvs) H M kvs := by
  intro done hdone b c hc hneeds
  change 2 ^ 40 - 1 < c at hc
  exact ⟨c, done, b, by omega, hdone, hneeds, rfl⟩

theorem isSome_of_applyAll {M : Bytes → Option Bytes} {kvs : List (Bytes × Option Bytes)} {k : Bytes}
    (h : (applyAll M kvs k).isSome) : (M k).isSome ∨ k ∈ kvs.map Prod.fst := by
  induction kvs generalizing M with
  | nil => exact .inl h
  | cons kv kvs ih =>
    rcases ih h with hk | hk
    · by_cases hne : k = kv.1
      · exact .inr (hne ▸ List.mem_cons_self)
      · refine .inl ?_
        simpa only [Function.update_of_ne hne] using hk
    · exact .inr (List.mem_cons_of_mem _ hk)

/-- Few updates of an empty map cannot make a bucket overflow: it takes over `2^41 / 5` keys. -/
theorem not_overflow_of_length {H : Hasher} {kvs : List (Bytes × Option Bytes)} (hlen : kvs.length * 5 ≤ 2 ^ 41)
    (e : Fault) : ¬ Overflow H (fun _ ↦ none) kvs e := by
  rintro ⟨c, done, b, hc, hdone, hneeds, -⟩
  have hsub : keysIn H (applyAll (fun _ ↦ none) done) b ⊆ ((done.map Prod.fst).toFinset : Set Bytes) := by
    rintro k ⟨-, hk⟩
    rcases isSome_of_applyAll hk with hk | hk
    · cases hk
    · exact List.mem_toFinset.mpr hk
  have hcard := Set.ncard_le_ncard hsub (Finset.finite_toSet _)
  rw [Set.ncard_coe_finset] at hcard
  have hkeys := (List.toFinset_card_le (done.map Prod.fst)).trans_eq (List.length_map Prod.fst)
  have := hdone.length_le
  have := hneeds.lt
  omega

variable {H : Hasher} {fuel : ℕ} {F : Full} {A : Fault → Prop} {M : Bytes → Option Bytes}
  {st : EphemeralSaltState} {s : StateStore}

theorem Op.run_spec (hf : 2 ≤ fuel) (hF : BaseShape F) (h : Steady H A F M st) (op : Op)
    (hA : CappedAfter A H M op.plain) (hv : op.ValidFor A) (hc : op.CapacityAllowed A) :
    Sat (op.run H fuel st) A (Stepped H A F (op.apply M) st) := by
  have horder : ∀ {order : List ℕ → List ℕ}, (∀ l, (order l).Perm l) → ∀ l b, b ∈ order l ↔ b ∈ l :=
    fun ho l _ ↦ (ho l).mem_iff
  cases op with
  | update kvs => exact (update_spec hf h hA hv).mono fun _ hr ↦ hr.1
  | updateFin kvs order => exact updateFin_spec hf hF (horder hv.2) h hA hv.1
  | canonicalize order =>
    exact (canonicalize_spec hf (hA [] List.prefix_rfl) hF (horder hv) h).mono fun _ hr ↦ hr.1
  | setNonce b nonce => exact setNonce_spec h hv nonce
  | shiRehash b nonce c => exact (shiRehash_stepped h hv.1 nonce hv.2 hc).mono fun _ hr ↦ hr.1

theorem sessionOver_steady (h : StateStore.Canonical H M s) {rd : StateReader}
    (hR : Reads rd s.full A) (cacheRead : Bool) :
    Steady H A s.full M (sessionOver rd cacheRead) ∧
      (sessionOver rd cacheRead).view s.full = s.content := by
  cases cacheRead with
  | true => exact ⟨h.steady hR true, StateStore.view_new s.full rd true⟩
  | false => exact ⟨h.steady hR false, StateStore.view_new s.full rd false⟩

theorem session_steady (h : StateStore.Canonical H M s) (A : Fault → Prop) (cacheRead : Bool) :
    Steady H A s.full M (session s cacheRead) ∧ (session s cacheRead).view s.full = s.content :=
  sessionOver_steady h (StateStore.reads h.metaOk A) cacheRead

/-- What a run leaves behind: the session invariant, the store after committing the updates one by
one, and the merged updates as the difference that the run made. -/
structure Ran (H : Hasher) (A : Fault → Prop) (s : StateStore) (start : EphemeralSaltState)
    (M : Bytes → Option Bytes) (r : EphemeralSaltState × List StateUpdates) : Prop where
  steady : Steady H A s.full M r.1
  kept : Kept start r.1
  canonical : StateStore.Canonical H M (r.2.foldl StateStore.updateState s)
  content : (r.2.foldl StateStore.updateState s).content = r.1.view s.full
  stray : ∀ k, Stray k → r.1.view s.full k = s.content k
  merged : ∃ u, r.2.foldlM StateUpdates.merge .empty = .ok u ∧ u.IsDiff s.content (r.1.view s.full)

theorem ran_start (h : StateStore.Canonical H M s) (A : Fault → Prop) (cacheRead : Bool) :
    Ran H A s (session s cacheRead) M (session s cacheRead, []) := by
  obtain ⟨hst, hview⟩ := session_steady h A cacheRead
  refine ⟨hst, .refl _, h, hview.symm, fun k _ ↦ by rw [hview], .empty, rfl, ?_⟩
  rw [show ((session s cacheRead, []) : EphemeralSaltState × List StateUpdates).1.view s.full =
    s.content from hview]
  exact StateUpdates.isDiff_empty _

theorem Ran.step {start : EphemeralSaltState} {us : List StateUpdates} {M' : Bytes → Option Bytes}
    {r : EphemeralSaltState × StateUpdates} (h : Ran H A s start M (st, us))
    (h' : Stepped H A s.full M' st r) : Ran H A s start M' (r.1, us ++ [r.2]) := by
  obtain ⟨u, hu, hd⟩ := h.merged
  obtain ⟨hcan, hcont⟩ := h.canonical.commit
    (show r.2.IsDiff _ (normalize (r.1.rawView s.full)) by rw [h.content]; exact h'.diff)
    h'.steady.good h'.steady.represents
  obtain ⟨w, hw, hdw⟩ := hd.merge h'.diff
  refine ⟨h'.steady, h.kept.trans h'.kept, ?_, ?_, fun k hk ↦ (h'.stray k hk).trans (h.stray k hk),
    w, ?_, hdw⟩
  · rw [List.foldl_append]
    exact hcan
  · rw [List.foldl_append]
    exact hcont
  · rw [List.foldlM_append, hu, ok_bind, List.foldlM_cons, hw]
    rfl

theorem session_store (s : StateStore) (cacheRead : Bool) : (session s cacheRead).store = s.reader := by
  cases cacheRead <;> rfl

theorem Ran.complete {cacheRead : Bool} {M' : Bytes → Option Bytes}
    {r : EphemeralSaltState × List StateUpdates} (h : Ran H A s (session s cacheRead) M r)
    (hs : StateStore.Canonical H M' s) : Steady H (fun _ ↦ False) s.full M r.1 := by
  apply h.steady.over
  rw [h.kept.store, session_store]
  exact StateStore.reads hs.metaOk _

theorem applyOps_append (M : Bytes → Option Bytes) (ops : List Op) (op : Op) :
    applyOps M (ops ++ [op]) = op.apply (applyOps M ops) := by
  rw [applyOps, List.foldl_append]
  rfl

/-- A run keeps the session invariant, and its updates can be committed one by one or merged. -/
theorem runOps_spec (hf : 2 ≤ fuel) (h : StateStore.Canonical H M s) (cacheRead : Bool) (ops : List Op)
    (hA : CappedAfter A H M (plainUpdates ops)) (hv : ∀ op ∈ ops, op.ValidFor A)
    (hc : ∀ op ∈ ops, op.CapacityAllowed A) :
    Sat (runOps H fuel ops (session s cacheRead)) A
      (Ran H A s (session s cacheRead) (applyOps M ops)) := by
  refine Sat.foldlM (fun done (r : EphemeralSaltState × List StateUpdates) ↦
    Ran H A s (session s cacheRead) (applyOps M done) r) ops (session s cacheRead, [])
    (ran_start h A cacheRead) ?_
  rintro done op rest rfl ⟨st₁, us⟩ h₁
  have hcapped : CappedAfter A H (applyOps M done) op.plain := by
    intro part hpart b
    rw [applyOps_eq, ← applyAll_append]
    refine hA _ ?_ b
    change plainUpdates done ++ part <+: List.flatMap Op.plain (done ++ op :: rest)
    rw [List.flatMap_append, List.flatMap_cons]
    exact (List.prefix_append_right_inj _).mpr (hpart.trans (List.prefix_append _ _))
  refine (op.run_spec hf h.baseShape h₁.steady hcapped (hv op (by simp)) (hc op (by simp))).bind ?_
  intro r hr
  rw [applyOps_append]
  exact Sat.ok (h₁.step hr)

theorem canonical_of_no_data (hm : s.MetaOk) (hs : BaseShape s.full)
    (hnone : ∀ k : SaltKey, k.isInMetaBucket = false → s.kvs[k]? = none)
    (hu : ∀ b, isValidDataBucket b → s.usedSlots[b]? = none) :
    StateStore.Canonical H (fun _ ↦ none) s := by
  have hslots : ∀ b, isValidDataBucket b → slots s.content b = fun _ ↦ none := by
    intro b hb
    funext a
    unfold slots
    split
    · rename_i ha
      have hk := ofPair_not_inMeta hb ha
      rw [StateStore.content, normalize_data hk]
      exact hnone _ hk
    · rfl
  have hshape := fun b (hb : isValidDataBucket b) ↦ metaAt_normalize s.full.kv hb
  refine ⟨hm, fun b hb ↦ ⟨?_, ?_, ?_, ?_, ?_⟩, fun k x ↦ ⟨fun h ↦ (by cases h), ?_⟩, fun b hb ↦ ?_⟩
  · rw [StateStore.content, hshape b hb]
    exact (hs b hb).1
  · rw [StateStore.content, hshape b hb]
    exact (hs b hb).2
  · rw [hslots b hb]
    exact ordered_empty
  · rw [hslots b hb]
    exact fun _ _ ↦ rfl
  · rw [hslots b hb]
    intro a v hv
    cases hv
  · rintro ⟨v, ⟨a, -, hv⟩, -⟩
    rw [hslots _ (H.bucketId_data k)] at hv
    cases hv
  · rw [count, hslots b hb, occupied_empty]
    simp [StateStore.full, hu b hb]

theorem canonical_empty : StateStore.Canonical H (fun _ ↦ none) .empty := by
  have hk : ∀ k : SaltKey, StateStore.empty.kvs[k]? = none := fun k ↦ by simp [StateStore.empty]
  refine canonical_of_no_data (fun b hb v hv ↦ ?_) (fun b hb ↦ ?_) (fun k _ ↦ hk k)
    (fun b _ ↦ by simp [StateStore.empty])
  · rw [hk] at hv
    cases hv
  · have hd : metaAt StateStore.empty.full.kv b = BucketMeta.default := by
      rw [metaAt, show StateStore.empty.full.kv (metadataKey b) = none from hk _]
      rfl
    rw [hd]
    decide

theorem Reached.canonical (hf : 2 ≤ fuel) (h : Reached H fuel s M) : StateStore.Canonical H M s := by
  induction h with
  | empty => exact canonical_empty
  | @commit s M cacheRead ops st us _ hv hrun ih =>
    exact ((runOps_spec hf ih cacheRead ops (fun _ _ _ ↦ capped_tooLarge _) (fun op hop ↦ (hv op hop).validFor _)
      fun op hop ↦ (hv op hop).capacityAllowed _).of_eq_ok hrun).canonical
  | @commitMerged s M cacheRead ops st us u _ hv hrun hu ih =>
    have hran := (runOps_spec hf ih cacheRead ops (fun _ _ _ ↦ capped_tooLarge _)
      (fun op hop ↦ (hv op hop).validFor _) fun op hop ↦ (hv op hop).capacityAllowed _).of_eq_ok hrun
    obtain ⟨u', hu', hd⟩ := hran.merged
    have hst := hran.steady
    rw [hu] at hu'
    cases hu'
    exact (ih.commit hd hst.good hst.represents).1

/-- A present key is the key of exactly one readable slot. -/
theorem slot_unique (h : Steady H (fun _ ↦ False) F M st) {k x : Bytes} (hk : M k = some x) :
    ∃! sk : SaltKey, sk.isInMetaBucket = false ∧
      ∃ st' v, st.value sk = .ok (st', some v) ∧ v.key = k := by
  have hb := H.bucketId_data k
  have hg := h.good _ hb
  obtain ⟨v, ⟨a, ha, hv⟩, hvk, -⟩ := (h.represents k x).mp hk
  have ha' := ha.trans hg.capacity_lt
  have hsk := ofPair_not_inMeta hb ha'
  refine ⟨SaltKey.ofPair (H.bucketId k) a, ⟨hsk, ?_⟩, ?_⟩
  · obtain ⟨st', hst'⟩ := h.value_eq hsk
    rw [slots_eq ha'] at hv
    exact ⟨st', v, by rw [hst', hv], hvk⟩
  · rintro sk ⟨hmeta, st', v', hread, hk'⟩
    obtain ⟨st'', hst''⟩ := h.value_eq hmeta
    rw [hst''] at hread
    have hloc : Located (st.view F) k sk v' := ⟨hmeta, congrArg Prod.snd (Except.ok.inj hread), hk'⟩
    obtain ⟨a', ha', rfl, hv'⟩ := hloc.slot h.good
    rw [hg.ordered.slot_unique hg.capacity_pos ha' ha hv' hv (hk'.trans hvk.symm)]

/-- A session over a store reached by earlier commits behaves like a plain map, as long as no
bucket grows beyond 40 bits of slots: every operation returns, every key reads as the last
update left it and sits in one slot, and a rehash to too small a capacity changes nothing. -/
theorem session_refines_plain_map (hf : 2 ≤ fuel) (hs : Reached H fuel s M) (cacheRead : Bool)
    (ops : List Op) (hv : ∀ op ∈ ops, op.Valid) :
    (∃ st us, runOps H fuel ops (session s cacheRead) = .ok (st, us) ∧
      (∀ k, ∃ st', st.plainValue H k = .ok (st', applyOps M ops k)) ∧
      (∀ k x, applyOps M ops k = some x → ∃! sk : SaltKey, sk.isInMetaBucket = false ∧
        ∃ st' v, st.value sk = .ok (st', some v) ∧ v.key = k) ∧
      ∀ b nonce c, isValidDataBucket b → 1 ≤ c → c < count (st.view s.full) b →
        ∃ st', st.shiRehash H b nonce c .empty = .ok (st', .empty) ∧
          st'.view s.full = st.view s.full) ∨
    ∃ e, Overflow H M (plainUpdates ops) e ∧ runOps H fuel ops (session s cacheRead) = .error e := by
  have hcan := hs.canonical hf
  have hspec := runOps_spec hf hcan cacheRead ops (cappedAfter_overflow H M _) (fun op hop ↦ (hv op hop).validFor _)
    fun op hop ↦ (hv op hop).capacityAllowed _
  rcases sat_iff.mp hspec with ⟨⟨st, us⟩, hr, hran⟩ | ⟨e, he, hover⟩
  · have hpure : Steady H (fun _ ↦ False) s.full (applyOps M ops) st := hran.complete hcan
    refine .inl ⟨st, us, hr, hpure.plainValue_eq, fun k x ↦ slot_unique hpure, fun b nonce c hb hc hlt ↦ ?_⟩
    have hle : c ≤ bucketSlotIdMask := by
      have := count_le (st.view s.full) b
      have := (hpure.good b hb).capacity_le
      omega
    obtain ⟨⟨st', u⟩, hr', -, hnoop⟩ :=
      (shiRehash_stepped hpure hb nonce hc fun h ↦ by omega).exists_ok
    obtain ⟨hview, rfl⟩ := hnoop hlt
    exact ⟨st', hr', hview⟩
  · exact .inr ⟨e, hover, he⟩

def flatHasher : Hasher where
  hashWithNonce _ _ := 0
  bucketId _ := 2 ^ 16
  bucketId_data _ := by decide

theorem session_refines_plain_map_flat :
    ∃ st us, runOps flatHasher 2 [.update [([1], some [2]), ([3], none)], .setNonce (2 ^ 16) 7]
        (session .empty true) = .ok (st, us) ∧
      (∀ k, ∃ st', st.plainValue flatHasher k = .ok (st', applyOps (fun _ ↦ none)
        [.update [([1], some [2]), ([3], none)], .setNonce (2 ^ 16) 7] k)) ∧
      (∀ k x, applyOps (fun _ ↦ none)
        [.update [([1], some [2]), ([3], none)], .setNonce (2 ^ 16) 7] k = some x →
        ∃! sk : SaltKey, sk.isInMetaBucket = false ∧
          ∃ st' v, st.value sk = .ok (st', some v) ∧ v.key = k) ∧
      ∀ b nonce c, isValidDataBucket b → 1 ≤ c → c < count (st.view StateStore.empty.full) b →
        ∃ st', st.shiRehash flatHasher b nonce c .empty = .ok (st', .empty) ∧
          st'.view StateStore.empty.full = st.view StateStore.empty.full := by
  refine (session_refines_plain_map (le_refl 2) .empty true _ fun op hop ↦ ?_).resolve_right fun ⟨e, hover, _⟩ ↦
    not_overflow_of_length (by decide) e hover
  simp only [List.mem_cons, List.not_mem_nil, or_false] at hop
  rcases hop with rfl | rfl
  · intro kv hkv x hx
    simp only [List.mem_cons, List.not_mem_nil, or_false] at hkv
    rcases hkv with rfl | rfl
    · cases hx
      decide
    · cases hx
  · exact (by decide : isValidDataBucket (2 ^ 16) = true)

end Salt
