import Salt.State.Committed
import Salt.State.Layout

namespace Salt

open Std (ExtTreeMap)
open Library.ProbeRing Library.OrderedTable Library.GreedyLayout Library.Triple
open EphemeralSaltState

/-- Every update records, for the data keys it changes, the values of the store it is applied to. -/
def StateStore.Chained : StateStore → List StateUpdates → Prop
  | _, [] => True
  | s, u :: us =>
    (∀ (k : SaltKey) (old new : Option SaltValue), u.data[k]? = some (old, new) →
      k.isInMetaBucket = false → old = s.kvs[k]?) ∧
      (s.updateState u).Chained us

def StateStore.keysOf (s : StateStore) (b : ℕ) : Set SaltKey :=
  { k | k.bucketId = b ∧ (s.kvs[k]?).isSome }

def EphemeralSaltState.occupiedBelow (st : EphemeralSaltState) (b capacity : ℕ) : ℕ :=
  ((List.range capacity).filter fun a ↦
    match st.value (SaltKey.ofPair b a) with
    | .ok (_, some _) => true
    | _ => false).length

def Light (F : Full) (st : EphemeralSaltState) : Prop :=
  ∀ b, isValidDataBucket b → count (st.view F) b * 100 ≤ (metaAt (st.view F) b).capacity * 80

def Op.Indirect : Op → Prop
  | shiRehash _ _ _ => False
  | _ => True

variable {H : Hasher} {fuel : ℕ} {F : Full} {A : Fault → Prop} {M : Bytes → Option Bytes}
  {st : EphemeralSaltState} {s : StateStore} {w : SaltKey → Option SaltValue} {b : ℕ}

section Store

theorem total_eq_ncard (hb : b < 2 ^ 24) : total s.full.kv b = (s.keysOf b).ncard := by
  classical
  have hset : s.keysOf b = ((occupied (2 ^ 40) (slots s.full.kv b)).image (SaltKey.ofPair b) :
      Finset SaltKey) := by
    ext k
    simp only [StateStore.keysOf, Set.mem_ofPred_eq, Finset.coe_image, Set.mem_image, Finset.mem_coe,
      mem_occupied]
    constructor
    · intro ⟨hk, hs⟩
      refine ⟨k.slotId, ⟨k.slotId_lt, ?_⟩, ?_⟩
      · rw [slots_eq k.slotId_lt, ← hk, k.ofPair_eta]
        exact hs
      · rw [← hk, k.ofPair_eta]
    · rintro ⟨a, ⟨ha, hs⟩, rfl⟩
      rw [slots_eq ha] at hs
      exact ⟨SaltKey.bucketId_ofPair hb ha, hs⟩
  rw [hset, Set.ncard_coe_finset, total, Finset.card_image_of_injOn]
  intro a ha a' ha' he
  rw [Finset.mem_coe, mem_occupied] at ha ha'
  exact ((SaltKey.ofPair_inj hb hb ha.1 ha'.1).mp he).2

theorem exact_empty : StateStore.empty.Exact := (canonical_empty (H := flatHasher)).exact

theorem StateStore.Exact.chained {us : List StateUpdates} (h : s.Exact) (hus : s.Chained us) :
    (us.foldl StateStore.updateState s).Exact := by
  induction us generalizing s with
  | nil => exact h
  | cons u us ih =>
    obtain ⟨hu, hus⟩ := hus
    apply ih _ hus
    apply (StateStore.updateState_spec h u _).1
    intro e he hk
    exact hu e.1 e.2.1 e.2.2 (Std.ExtTreeMap.mem_toList_iff_getElem?_eq_some.mp he) hk

theorem StateStore.Exact.used_eq (h : s.Exact) (hb : isValidDataBucket b) :
    s.reader.bucketUsedSlots b = .ok (s.keysOf b).ncard := by
  change (if isValidDataBucket b then _ else _) = _
  rw [if_pos hb, ← total_eq_ncard (dataBucket_lt hb), ← h b hb]
  rfl

theorem Good.exists_represents (h : Good H w) : ∃ M, Represents H w M := by
  classical
  refine ⟨fun k ↦ if hk : ∃ v, Holds w (H.bucketId k) v ∧ v.key = k then some hk.choose.value
    else none, fun k x ↦ ?_⟩
  have hg := h _ (H.bucketId_data k)
  constructor
  · intro hx
    by_cases hk : ∃ v, Holds w (H.bucketId k) v ∧ v.key = k
    · simp only [hk, dite_true, Option.some.injEq] at hx
      exact ⟨hk.choose, hk.choose_spec.1, hk.choose_spec.2, hx⟩
    · simp [hk] at hx
  · intro ⟨v, hv, hvk, hx⟩
    have hk : ∃ v, Holds w (H.bucketId k) v ∧ v.key = k := ⟨v, hv, hvk⟩
    simp only [hk, dite_true, Option.some.injEq]
    obtain ⟨⟨a, ha, hva⟩, hck⟩ := hk.choose_spec
    obtain ⟨a', ha', hva'⟩ := hv
    have hslot := hg.ordered.slot_unique hg.capacity_pos ha ha' hva hva' (hck.trans hvk.symm)
    rw [hslot, hva'] at hva
    rw [← Option.some.inj hva, hx]

/-- A store with exact counts and canonical buckets is canonical for the map it represents. -/
theorem StateStore.Exact.canonical (h : s.Exact) (hm : s.MetaOk) (hg : Good H s.content) :
    ∃ M, StateStore.Canonical H M s := by
  obtain ⟨M, hM⟩ := hg.exists_represents
  refine ⟨M, hm, hg, hM, fun b hb ↦ ?_⟩
  rw [h b hb, ← (hg b hb).total_eq]
  exact (total_congr hb fun k hk ↦ normalize_data hk).symm

end Store

section Session

theorem EphemeralSaltState.Steady.occupiedBelow_eq (h : Steady H (fun _ ↦ False) F M st) (hb : isValidDataBucket b) :
    st.occupiedBelow b (metaAt (st.view F) b).capacity = count (st.view F) b := by
  classical
  have hread : ∀ a < (metaAt (st.view F) b).capacity,
      (match st.value (SaltKey.ofPair b a) with
        | .ok (_, some _) => true
        | _ => false) = (slots (st.view F) b a).isSome := by
    intro a ha
    have ha' := ha.trans (h.good b hb).capacity_lt
    obtain ⟨st', he⟩ := h.value_eq (ofPair_not_inMeta hb ha')
    rw [he, slots_eq ha']
    cases st.view F (SaltKey.ofPair b a) <;> rfl
  rw [occupiedBelow, count, occupied, List.filter_congr fun a ha ↦ hread a (List.mem_range.mp ha),
    ← List.toFinset_card_of_nodup (List.nodup_range.filter _), List.toFinset_filter]
  congr 2
  ext a
  simp

theorem Light.rehashed {n : UInt32} {c : ℕ} {r : EphemeralSaltState × StateUpdates}
    {start : SaltKey → Option SaltValue} (h : Light F st) (hg : Good H (st.view F))
    (hb : isValidDataBucket b) (hr : Rehashed H A F start b ⟨n, c, none⟩ st r)
    (hc : c = (metaAt (st.view F) b).capacity) : Light F r.1 := by
  intro b' hb'
  by_cases hne : b' = b
  · subst hne
    rw [hr.count_eq (hg _ hb), hr.capacity_eq, hc]
    exact h _ hb
  · have hmeta := hr.metaAt_ne hb hb' hne
    rw [count_congr hmeta (hr.slots_ne hb hb' hne), hmeta]
    exact h b' hb'

theorem Light.quiet {st' : EphemeralSaltState} (h : Light F st) (hq : Quiet F st st') : Light F st' := by
  intro b hb
  rw [hq.view]
  exact h b hb

theorem setNonce_light (h : Steady H A F M st) (hl : Light F st)
    (hb : isValidDataBucket b) (nonce : UInt32) :
    Sat (st.setNonce H b nonce) A (fun r ↦ Light F r.1) := by
  rw [setNonce]
  refine (metadata_spec h.reads.toReadsSlots h.cacheMeta hb).bind ?_
  rintro ⟨st₁, m⟩ ⟨hq, hm⟩
  simp only at hq hm ⊢
  subst hm
  have h₁ := h.quiet hq
  refine (shiRehash_spec h₁.live (h₁.good b hb) hb nonce (h.good b hb).capacity_pos fun hlt ↦
    absurd hlt (not_lt.mpr (h.good b hb).capacity_le)).mono fun r hr ↦ ?_
  rcases hr with ⟨-, hq', -⟩ | ⟨-, hr⟩
  · exact (hl.quiet hq).quiet hq'
  · exact (hl.quiet hq).rehashed h₁.good hb hr (by rw [hq.view])

theorem EphemeralSaltState.Settled.light {st' : EphemeralSaltState} {u : StateUpdates} (hr : Settled A F st (st', u))
    (hC : Complete A) (hl : Light F st) : Light F st' := by
  intro b hb
  by_cases hin : b ∈ st.rehashedBuckets
  · exact ((hr.rebuilt b hin).2 hC).load
  · obtain ⟨hm, hs⟩ := hr.same b hb hin
    simp only at hm hs
    rw [count_congr hm hs, hm]
    exact hl b hb

theorem Op.capacityAllowed_of_indirect (op : Op) (ho : op.Indirect) (A : Fault → Prop) : op.CapacityAllowed A := by
  cases op with
  | shiRehash b nonce c => exact ho.elim
  | _ => trivial

/-- Every call other than a direct rehash keeps the load bound. -/
theorem Op.run_light (hf : 2 ≤ fuel) (hA : ∀ n, Capped A n) (hC : Complete A) (hF : BaseShape F)
    (h : Steady H A F M st) (hl : Light F st) (op : Op) (hv : op.ValidFor A) (ho : op.Indirect) :
    Sat (op.run H fuel st) A (fun r ↦ Light F r.1) := by
  have horder : ∀ {order : List ℕ → List ℕ}, (∀ l, (order l).Perm l) → ∀ l b, b ∈ order l ↔ b ∈ l :=
    fun ho l _ ↦ (ho l).mem_iff
  cases op with
  | update kvs =>
    exact (update_spec hf h (fun _ _ _ ↦ hA _) hv).mono fun r hr b hb ↦ hr.2.load hC b hb (hl b hb)
  | updateFin kvs order =>
    refine (update_spec hf h (fun _ _ _ ↦ hA _) hv.1).bind ?_
    rintro ⟨st₁, out₁⟩ ⟨h₁, hgrown⟩
    have hl₁ : Light F st₁ := fun b hb ↦ hgrown.load hC b hb (hl b hb)
    refine (canonicalize_spec hf (fun _ ↦ hA _) hF (horder hv.2) h₁.steady).bind ?_
    rintro ⟨st₂, out₂⟩ ⟨h₂, hsettled⟩
    obtain ⟨u, hu, -⟩ := h₁.diff.merge h₂.diff
    simp only [hu, ok_bind]
    exact Sat.ok (hsettled.light hC hl₁)
  | canonicalize order =>
    exact (canonicalize_spec hf (fun _ ↦ hA _) hF (horder hv) h).mono fun r hr ↦ hr.2.light hC hl
  | setNonce b nonce => exact setNonce_light h hl hv nonce
  | shiRehash b nonce c => exact ho.elim

theorem runOps_light (hf : 2 ≤ fuel) (hA : ∀ n, Capped A n) (hC : Complete A)
    (h : StateStore.Canonical H M s) (cacheRead : Bool) (ops : List Op)
    (hl : Light s.full (session s cacheRead)) (hv : ∀ op ∈ ops, op.ValidFor A)
    (ho : ∀ op ∈ ops, op.Indirect) :
    Sat (runOps H fuel ops (session s cacheRead)) A (fun r ↦ Light s.full r.1) := by
  rw [runOps]
  refine (Sat.foldlM (fun done (r : EphemeralSaltState × List StateUpdates) ↦
    Steady H A s.full (applyOps M done) r.1 ∧ Light s.full r.1) ops (session s cacheRead, [])
    ⟨(session_steady h A cacheRead).1, hl⟩ ?_).mono fun r hr ↦ hr.2
  · intro done op rest heq r hr
    have hop : op ∈ ops := by simp [heq]
    have hstep := (op.run_spec hf h.baseShape hr.1 (fun _ _ _ ↦ hA _) (hv op hop)
      (op.capacityAllowed_of_indirect (ho op hop) A)).and
      (op.run_light hf hA hC h.baseShape hr.1 hr.2 (hv op hop) (ho op hop))
    refine hstep.bind ?_
    intro r' hr'
    rw [applyOps_append]
    exact Sat.ok ⟨hr'.1.steady, hr'.2⟩

end Session

def UsageExact (st : EphemeralSaltState) : Prop :=
  ∀ b, isValidDataBucket b → ∃ st' m, st.metadata b false = .ok (st', m) ∧
    st.usageCount b = .ok (st.occupiedBelow b m.capacity)

def WithinLoad (st : EphemeralSaltState) : Prop :=
  ∀ b, isValidDataBucket b → ∃ st' m used, st.metadata b false = .ok (st', m) ∧
    st.usageCount b = .ok used ∧ used ≤ m.capacity * 80 / 100

theorem EphemeralSaltState.Steady.usageExact (h : Steady H (fun _ ↦ False) F M st) :
    UsageExact st := by
  intro b hb
  obtain ⟨st', he⟩ := h.metadata_eq hb
  exact ⟨st', _, he, by rw [h.usageCount_eq hb, h.occupiedBelow_eq hb]⟩

theorem EphemeralSaltState.Steady.withinLoad_iff (h : Steady H (fun _ ↦ False) F M st) :
    WithinLoad st ↔ Light F st := by
  refine forall_congr' fun b ↦ forall_congr' fun hb ↦ ?_
  obtain ⟨st₁, he⟩ := h.metadata_eq hb
  rw [h.usageCount_eq hb, he]
  constructor
  · rintro ⟨st', m, used, hm, hu, hle⟩
    cases hm
    cases hu
    omega
  · intro hl
    exact ⟨st₁, _, _, rfl, rfl, by omega⟩

/-- Updates that record the values they replace keep the used-slot counts exact. Over a store they
lead to, if its buckets are laid out canonically, every call of a session keeps the usage count of
every bucket exact, and without direct rehashes the load bound as well. -/
theorem usage_accounting_exact (hf : 2 ≤ fuel) {us : List StateUpdates}
    (hus : StateStore.empty.Chained us) (hs : s = us.foldl StateStore.updateState .empty) :
    (∀ b, isValidDataBucket b → s.reader.bucketUsedSlots b = .ok (s.keysOf b).ncard) ∧
    (s.MetaOk → Good H s.content → ∀ (cacheRead : Bool) (ops : List Op),
      (∀ op ∈ ops, op.ValidFor Refused) →
      (∃ st out, runOps H fuel ops (session s cacheRead) = .ok (st, out) ∧ UsageExact st ∧
        (WithinLoad (session s cacheRead) → (∀ op ∈ ops, op.Indirect) → WithinLoad st)) ∨
      ∃ e, Refused e ∧ runOps H fuel ops (session s cacheRead) = .error e) := by
  have hexact : s.Exact := hs ▸ exact_empty.chained hus
  refine ⟨fun b hb ↦ hexact.used_eq hb, fun hm hg cacheRead ops hv ↦ ?_⟩
  obtain ⟨M, hcan⟩ := hexact.canonical hm hg
  rcases sat_iff.mp (runOps_refused hf hcan cacheRead ops hv) with
    ⟨⟨st, out⟩, hr, hran⟩ | ⟨e, he, hrefused⟩
  · have hst := hran.complete hcan
    refine .inl ⟨st, out, hr, hst.usageExact, fun hload ho ↦ ?_⟩
    have hstart := (session_steady hcan (fun _ ↦ False) cacheRead).1
    rw [hstart.withinLoad_iff] at hload
    rw [hst.withinLoad_iff]
    exact (runOps_light hf capped_refused complete_refused hcan cacheRead ops hload hv ho).of_eq_ok hr
  · exact .inr ⟨e, hrefused, he⟩

def singleUpdate (k : SaltKey) (v : SaltValue) : StateUpdates :=
  ⟨(∅ : ExtTreeMap SaltKey (Option SaltValue × Option SaltValue)).insert k (none, some v)⟩

theorem chained_singleUpdate (k : SaltKey) (v : SaltValue) :
    StateStore.empty.Chained [singleUpdate k v] := by
  refine ⟨fun j old new hj _ ↦ ?_, trivial⟩
  simp only [singleUpdate, ExtTreeMap.getElem?_insert, ExtTreeMap.getElem?_empty] at hj
  split at hj
  · cases hj
    simp [StateStore.empty]
  · cases hj

theorem usage_accounting_exact_table :
    (∀ b, isValidDataBucket b → (emptyTable (2 ^ 16) 7 512).reader.bucketUsedSlots b =
      .ok ((emptyTable (2 ^ 16) 7 512).keysOf b).ncard) ∧
    ((∃ st out, runOps (flatHasher.onBucket (2 ^ 16) (by decide)) 2
        [.updateFin [([1], some [2])] id, .setNonce (2 ^ 16) 9]
        (session (emptyTable (2 ^ 16) 7 512) true) = .ok (st, out) ∧ UsageExact st ∧
        WithinLoad st) ∨
      ∃ e, Refused e ∧ runOps (flatHasher.onBucket (2 ^ 16) (by decide)) 2
        [.updateFin [([1], some [2])] id, .setNonce (2 ^ 16) 9]
        (session (emptyTable (2 ^ 16) 7 512) true) = .error e) := by
  obtain ⟨hcan, -⟩ := emptyTable_canonical (H := flatHasher) (b := 2 ^ 16) (c := 512) 7 (by decide)
    (by decide) (by decide)
  have hstore : emptyTable (2 ^ 16) 7 512 = [singleUpdate (metadataKey (2 ^ 16))
      (.ofMeta ⟨7, 512, none⟩)].foldl StateStore.updateState .empty := by
    rfl
  obtain ⟨hused, hrun⟩ := usage_accounting_exact (le_refl 2) (chained_singleUpdate _ _) hstore
  have hvalid : ∀ op ∈ [Op.updateFin [([1], some [2])] id, .setNonce (2 ^ 16) 9],
      op.ValidFor Refused := by
    intro op hop
    simp only [List.mem_cons, List.not_mem_nil, or_false] at hop
    rcases hop with rfl | rfl
    · exact ⟨fun kv _ x _ ↦ .inr (.inr rfl), fun l ↦ .refl l⟩
    · exact (by decide : isValidDataBucket (2 ^ 16) = true)
  refine ⟨hused, ?_⟩
  rcases hrun hcan.metaOk hcan.good true _ hvalid with ⟨st, out, hr, hexact, hload⟩ | hrefused
  · refine .inl ⟨st, out, hr, hexact, hload ?_ fun op hop ↦ ?_⟩
    · rw [(session_steady hcan (fun _ ↦ False) true).1.withinLoad_iff]
      intro b hb
      rw [(session_steady hcan (fun _ ↦ False) true).2, ← hcan.used b hb]
      simp [StateStore.full, emptyTable]
    · simp only [List.mem_cons, List.not_mem_nil, or_false] at hop
      rcases hop with rfl | rfl <;> exact trivial
  · exact .inr hrefused

/-- An entry above the capacity of its bucket is counted, although no slot below the capacity is
occupied. -/
theorem usage_counts_hidden_entry :
    StateStore.empty.Chained [singleUpdate (SaltKey.ofPair (2 ^ 16) 300) (.ofMeta .default)] ∧
    ¬ UsageExact (session ([singleUpdate (SaltKey.ofPair (2 ^ 16) 300)
      (.ofMeta .default)].foldl StateStore.updateState .empty) false) := by
  refine ⟨chained_singleUpdate _ _, fun hall ↦ ?_⟩
  obtain ⟨st', m, hm, hu⟩ := hall (2 ^ 16) (by decide)
  have hcap : m.capacity = 256 := by
    have hread : (match (session ([singleUpdate (SaltKey.ofPair (2 ^ 16) 300)
        (.ofMeta .default)].foldl StateStore.updateState .empty) false).metadata (2 ^ 16) false with
      | .ok (_, m) => m.capacity == 256
      | .error _ => false) = true := by decide +kernel
    rw [hm] at hread
    simpa using hread
  have hcount : (match (session ([singleUpdate (SaltKey.ofPair (2 ^ 16) 300)
      (.ofMeta .default)].foldl StateStore.updateState .empty) false).usageCount (2 ^ 16) with
    | .ok n => n == 1
    | .error _ => false) = true := by decide +kernel
  have hbelow : (session ([singleUpdate (SaltKey.ofPair (2 ^ 16) 300)
      (.ofMeta .default)].foldl StateStore.updateState .empty) false).occupiedBelow (2 ^ 16) 256 = 0 := by
    decide +kernel
  rw [hu, hcap, hbelow] at hcount
  cases hcount

end Salt
