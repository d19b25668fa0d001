import Salt.State.Refinement

namespace Salt

open Library.ProbeRing Library.OrderedTable Library.GreedyLayout Library.Triple
open EphemeralSaltState

variable {H : Hasher} {fuel : ℕ} {F : Full} {A A' : Fault → Prop} {M M' : Bytes → Option Bytes}
  {st : EphemeralSaltState} {s : StateStore} {w w' : SaltKey → Option SaltValue} {b : ℕ}

inductive Drive
  | updateFin (kvs : List (Bytes × Option Bytes)) (order : List ℕ → List ℕ)
  | updates (batches : List (List (Bytes × Option Bytes))) (order : List ℕ → List ℕ)

namespace Drive

def plain : Drive → List (Bytes × Option Bytes)
  | updateFin kvs _ => kvs
  | updates batches _ => batches.flatten

def order : Drive → List ℕ → List ℕ
  | updateFin _ order => order
  | updates _ order => order

def run (H : Hasher) (fuel : ℕ) (st : EphemeralSaltState) :
    Drive → Except Fault (EphemeralSaltState × StateUpdates)
  | updateFin kvs order => st.updateFin H fuel order kvs
  | updates batches order => do
    let (st, merged) ← batches.foldlM (fun (acc : EphemeralSaltState × StateUpdates) kvs ↦ do
      let (st, returned) ← acc.1.update H fuel kvs
      let merged ← acc.2.merge returned
      .ok (st, merged)) (st, .empty)
    let (st, canonical) ← st.canonicalize H fuel order
    let merged ← merged.merge canonical
    .ok (st, merged)

end Drive

/-- What a canonicalized session shows: the map, the shape every bucket gets from its base metadata
and its number of entries, and the difference from the base. -/
structure Final (H : Hasher) (A : Fault → Prop) (s : StateStore) (M : Bytes → Option Bytes)
    (r : EphemeralSaltState × StateUpdates) : Prop where
  steady : Steady H A s.full M r.1
  store : r.1.store = s.reader
  shape : ∀ b, isValidDataBucket b →
    (metaAt (r.1.view s.full) b).nonce = (metaAt s.content b).nonce ∧
    Resized (metaAt s.content b).capacity (count (r.1.view s.full) b)
      (metaAt (r.1.view s.full) b).capacity
  diff : r.2.IsDiff s.content (r.1.view s.full)
  stray : ∀ k, Stray k → r.1.view s.full k = s.content k

def Loaded (F : Full) (st : EphemeralSaltState) : Prop :=
  ∀ b, isValidDataBucket b → (b ∉ st.rehashedBuckets → metaAt (st.view F) b = metaAt F.kv b) ∧
    count (st.view F) b * 100 ≤ (metaAt (st.view F) b).capacity * 80

theorem Loaded.grown {st' : EphemeralSaltState} (h : Loaded F st) (hC : Complete A)
    (hg : Grown A F st st') : Loaded F st' := fun b hb ↦
  ⟨fun hn ↦ (hg.same b hb hn).trans ((h b hb).1 fun hin ↦ hn (hg.mono b hin)),
    hg.load hC b hb (h b hb).2⟩

structure Running (H : Hasher) (A : Fault → Prop) (s : StateStore) (M : Bytes → Option Bytes)
    (r : EphemeralSaltState × StateUpdates) : Prop where
  steady : Steady H A s.full M r.1
  store : r.1.store = s.reader
  loaded : Loaded s.full r.1
  diff : r.2.IsDiff s.content (r.1.view s.full)
  stray : ∀ k, Stray k → r.1.view s.full k = s.content k

theorem running_start (h : StateStore.Canonical H M s) (hload : ∀ b, isValidDataBucket b →
    count s.content b * 100 ≤ (metaAt s.content b).capacity * 80) (A : Fault → Prop) (cacheRead : Bool) :
    Running H A s M (session s cacheRead, .empty) := by
  obtain ⟨hst, hview⟩ := session_steady h A cacheRead
  refine ⟨hst, session_store s cacheRead, fun b hb ↦ ⟨fun _ ↦ ?_, ?_⟩, ?_, fun k _ ↦ by rw [hview]⟩
  · rw [hview, StateStore.content, metaAt_normalize _ hb]
  · rw [hview]
    exact hload b hb
  · rw [hview]
    exact StateUpdates.isDiff_empty _

theorem Running.update {r : EphemeralSaltState × StateUpdates} (hf : 2 ≤ fuel) (hC : Complete A)
    (h : Running H A s M r) {kvs : List (Bytes × Option Bytes)} (hA : CappedAfter A H M kvs)
    (hfit : FitsOr A kvs) :
    Sat (r.1.update H fuel kvs) A (fun r' ↦ ∃ u, r.2.merge r'.2 = .ok u ∧
      Running H A s (applyAll M kvs) (r'.1, u) ∧
      r'.2.IsDiff (r.1.view s.full) (r'.1.view s.full)) := by
  refine (update_spec hf h.steady hA hfit).mono fun r' hr' ↦ ?_
  obtain ⟨u, hu, hd⟩ := h.diff.merge hr'.1.diff
  exact ⟨u, hu, ⟨hr'.1.steady, hr'.1.kept.store.trans h.store, h.loaded.grown hC hr'.2, hd,
    fun k hk ↦ (hr'.1.stray k hk).trans (h.stray k hk)⟩, hr'.1.diff⟩

theorem Running.canonicalize {r : EphemeralSaltState × StateUpdates} (hf : 2 ≤ fuel)
    (hA : ∀ b, Capped A (keysIn H M b).ncard) (hC : Complete A) (hF : BaseShape s.full)
    (h : Running H A s M r) {order : List ℕ → List ℕ} (horder : ∀ l, (order l).Perm l) :
    Sat (r.1.canonicalize H fuel order) A (fun r' ↦ ∃ u, r.2.merge r'.2 = .ok u ∧
      Final H A s M (r'.1, u)) := by
  refine (canonicalize_spec hf hA hF (fun l _ ↦ (horder l).mem_iff) h.steady).mono fun r' hr' ↦ ?_
  obtain ⟨u, hu, hd⟩ := h.diff.merge hr'.1.diff
  refine ⟨u, hu, hr'.1.steady, hr'.1.kept.store.trans h.store, fun b hb ↦ ?_, hd,
    fun k hk ↦ (hr'.1.stray k hk).trans (h.stray k hk)⟩
  rw [StateStore.content, metaAt_normalize _ hb]
  by_cases hin : b ∈ r.1.rehashedBuckets
  · exact ⟨(hr'.2.rebuilt b hin).1, (hr'.2.rebuilt b hin).2 hC⟩
  · obtain ⟨hm, hs⟩ := hr'.2.same b hb hin
    obtain ⟨hbase, hload⟩ := h.loaded b hb
    simp only
    rw [count_congr hm hs, hm, hbase hin]
    rw [hbase hin] at hload
    exact ⟨rfl, resized_self hload⟩

theorem Drive.run_spec (hf : 2 ≤ fuel) (hC : Complete A)
    (h : StateStore.Canonical H M s) (hload : ∀ b, isValidDataBucket b →
      count s.content b * 100 ≤ (metaAt s.content b).capacity * 80) (cacheRead : Bool) (d : Drive)
    (hA : CappedAfter A H M d.plain) (hfit : Fits d.plain) (horder : ∀ l, (d.order l).Perm l) :
    Sat (d.run H fuel (session s cacheRead)) A (Final H A s (applyAll M d.plain)) := by
  have h₀ := running_start h hload A cacheRead
  cases d with
  | updateFin kvs order =>
    refine (h₀.update hf hC hA hfit.fitsOr).bind ?_
    rintro ⟨st₁, u₁⟩ ⟨u, hu, h₁, hd⟩
    rw [(session_steady h A cacheRead).2] at hd
    have hue : u = u₁ := h₁.diff.unique hd
    subst hue
    refine (h₁.canonicalize hf (hA kvs List.prefix_rfl) hC h.baseShape horder).bind ?_
    rintro ⟨st₂, u₂⟩ ⟨v, hv, h₂⟩
    simp only at hv ⊢
    rw [hv, ok_bind]
    exact Sat.ok h₂
  | updates batches order =>
    have hloop := Sat.foldlM (A := A)
      (f := fun (acc : EphemeralSaltState × StateUpdates) kvs ↦ do
        let (st, returned) ← acc.1.update H fuel kvs
        let merged ← acc.2.merge returned
        .ok (st, merged))
      (fun done (r : EphemeralSaltState × StateUpdates) ↦ Running H A s (applyAll M done.flatten) r)
      batches (session s cacheRead, .empty) h₀ ?_
    · refine hloop.bind ?_
      rintro ⟨st₁, u₁⟩ h₁
      refine (h₁.canonicalize hf (hA _ List.prefix_rfl) hC h.baseShape horder).bind ?_
      rintro ⟨st₂, u₂⟩ ⟨v, hv, h₂⟩
      simp only at hv ⊢
      rw [hv, ok_bind]
      exact Sat.ok h₂
    · rintro done kvs rest rfl ⟨st₁, u₁⟩ h₁
      have hkvs : Fits kvs := fun kv hkv ↦ hfit kv (by
        simp only [Drive.plain, List.flatten_append, List.flatten_cons, List.mem_append]
        exact .inr (.inl hkv))
      have hcapped : CappedAfter A H (applyAll M done.flatten) kvs := by
        intro part hpart b
        rw [← applyAll_append]
        refine hA _ ?_ b
        change done.flatten ++ part <+: (done ++ kvs :: rest).flatten
        rw [List.flatten_append, List.flatten_cons]
        exact (List.prefix_append_right_inj _).mpr (hpart.trans (List.prefix_append _ _))
      refine (h₁.update hf hC hcapped hkvs.fitsOr).bind ?_
      rintro ⟨st₂, u₂⟩ ⟨v, hv, h₂, -⟩
      simp only at hv ⊢
      rw [hv, ok_bind, List.flatten_append, List.flatten_singleton, applyAll_append]
      exact Sat.ok h₂

section Unique

variable {r r' : EphemeralSaltState × StateUpdates}

theorem metaAt_ext (hn : (metaAt w b).nonce = (metaAt w' b).nonce)
    (hc : (metaAt w b).capacity = (metaAt w' b).capacity) : metaAt w b = metaAt w' b := by
  have hu := metaAt_used w b
  have hu' := metaAt_used w' b
  revert hn hc hu hu'
  generalize metaAt w b = m
  generalize metaAt w' b = m'
  cases m
  cases m'
  rintro rfl rfl rfl rfl
  rfl

theorem Final.view_eq (h : Final H A s M r) (h' : Final H A' s M r') :
    r.1.view s.full = r'.1.view s.full := by
  have hholds : ∀ b, isValidDataBucket b → ∀ v,
      Holds (r.1.view s.full) b v ↔ Holds (r'.1.view s.full) b v := fun b hb ↦
    h.steady.represents.holds_iff h'.steady.represents h.steady.good h'.steady.good hb
  have hmeta : ∀ b, isValidDataBucket b →
      metaAt (r.1.view s.full) b = metaAt (r'.1.view s.full) b := by
    intro b hb
    obtain ⟨hn, hc⟩ := h.shape b hb
    obtain ⟨hn', hc'⟩ := h'.shape b hb
    rw [(h.steady.good b hb).count_eq (h'.steady.good b hb) (hholds b hb)] at hc
    exact metaAt_ext (hn.trans hn'.symm) (hc.unique hc')
  have hslots : ∀ b, isValidDataBucket b →
      slots (r.1.view s.full) b = slots (r'.1.view s.full) b := fun b hb ↦
    (h.steady.good b hb).slots_eq_of_holds (h'.steady.good b hb) (by rw [hmeta b hb])
      (by rw [hmeta b hb]) (hholds b hb)
  funext k
  by_cases hk : k.isInMetaBucket = true
  · by_cases hb : ∃ b, isValidDataBucket b ∧ k = metadataKey b
    · obtain ⟨b, hb, rfl⟩ := hb
      rw [view_meta hb, view_meta hb, hmeta b hb]
    · have hstray : Stray k := ⟨hk, fun b hbv he ↦ hb ⟨b, hbv, he⟩⟩
      rw [h.stray k hstray, h'.stray k hstray]
  · have hb : isValidDataBucket k.bucketId := by
      rw [dataBucket_iff]
      refine ⟨?_, k.bucketId_lt⟩
      simpa [SaltKey.isInMetaBucket, numMetaBuckets] using hk
    have hs := congrFun (hslots _ hb) k.slotId
    rwa [slots_eq k.slotId_lt, slots_eq k.slotId_lt, k.ofPair_eta] at hs

end Unique

theorem Final.pure {r : EphemeralSaltState × StateUpdates} (h : Final H A s M r)
    (hs : StateStore.Canonical H M' s) : Steady H (fun _ ↦ False) s.full M r.1 :=
  h.steady.over (h.store ▸ StateStore.reads hs.metaOk _)

/-- Two results that no reader of metadata, slots or updates can tell apart, with every capacity
computed from the base capacity and the number of keys of the bucket. -/
structure SameResult (H : Hasher) (s : StateStore) (M : Bytes → Option Bytes)
    (r r' : EphemeralSaltState × StateUpdates) : Prop where
  updates : r.2 = r'.2
  metadata : ∀ b, isValidDataBucket b → ∃ m : BucketMeta,
    (∃ st, r.1.metadata b false = .ok (st, m)) ∧ (∃ st, r'.1.metadata b false = .ok (st, m)) ∧
    m.nonce = (metaAt s.content b).nonce ∧
    computeResizeCapacity (metaAt s.content b).capacity (keysIn H M b).ncard = .ok m.capacity
  slots : ∀ k : SaltKey, k.isInMetaBucket = false → ∃ x,
    (∃ st, r.1.value k = .ok (st, x)) ∧ ∃ st, r'.1.value k = .ok (st, x)

theorem Final.sameResult {r r' : EphemeralSaltState × StateUpdates} (hs : StateStore.Canonical H M' s)
    (h : Final H A s M r) (h' : Final H A' s M r') : SameResult H s M r r' := by
  have hview := h.view_eq h'
  have hp := h.pure hs
  have hp' := h'.pure hs
  refine ⟨h.diff.unique (hview ▸ h'.diff), fun b hb ↦ ⟨metaAt (r.1.view s.full) b, hp.metadata_eq hb, ?_, ?_, ?_⟩,
    fun k hk ↦ ⟨r.1.view s.full k, hp.value_eq hk, ?_⟩⟩
  · rw [hview]
    exact hp'.metadata_eq hb
  · exact (h.shape b hb).1
  · rw [computeResizeCapacity_eq_iff (hs.good b hb).capacity_pos,
      ← h.steady.represents.count_eq (h.steady.good b hb)]
    exact (h.shape b hb).2
  · rw [hview]
    exact hp'.value_eq hk

/-- Sessions over the same base that leave the same plain map, whatever the order, the splits and
the detours of their updates, end with the same metadata, slots and updates, unless one of them fills a
bucket beyond 40 bits of slots on its way. -/
theorem committed_sessions_history_independent (hf : 2 ≤ fuel) (hs : StateStore.Canonical H M s)
    (hload : ∀ b, isValidDataBucket b →
      count s.content b * 100 ≤ (metaAt s.content b).capacity * 80)
    (cacheRead cacheRead' : Bool) (d d' : Drive) (hfit : Fits d.plain) (hfit' : Fits d'.plain)
    (horder : ∀ l, (d.order l).Perm l) (horder' : ∀ l, (d'.order l).Perm l)
    (hsame : applyAll M d.plain = applyAll M d'.plain) :
    (∃ r r', d.run H fuel (session s cacheRead) = .ok r ∧
      d'.run H fuel (session s cacheRead') = .ok r' ∧
      SameResult H s (applyAll M d.plain) r r') ∨
    (∃ e, Overflow H M d.plain e ∧ d.run H fuel (session s cacheRead) = .error e) ∨
      ∃ e, Overflow H M d'.plain e ∧ d'.run H fuel (session s cacheRead') = .error e := by
  have hC : ∀ kvs, Complete (Overflow H M kvs) := by
    rintro kvs e ⟨c, done, b, -, -, -, he⟩
    cases he
  rcases sat_iff.mp (d.run_spec hf (hC _) hs hload cacheRead (cappedAfter_overflow H M _) hfit horder) with
    ⟨r, hr, hfin⟩ | ⟨e, he, hover⟩
  · rcases sat_iff.mp (d'.run_spec hf (hC _) hs hload cacheRead' (cappedAfter_overflow H M _) hfit' horder') with
      ⟨r', hr', hfin'⟩ | ⟨e, he, hover⟩
    · rw [← hsame] at hfin'
      exact .inl ⟨r, r', hr, hr', hfin.sameResult hs hfin'⟩
    · exact .inr (.inr ⟨e, hover, he⟩)
  · exact .inr (.inl ⟨e, hover, he⟩)

theorem load_empty (b : ℕ) (hb : isValidDataBucket b) :
    count StateStore.empty.content b * 100 ≤ (metaAt StateStore.empty.content b).capacity * 80 := by
  have hc := (canonical_empty (H := flatHasher)).used b hb
  rw [← hc]
  simp [StateStore.full, StateStore.empty]

theorem committed_sessions_history_independent_detour :
    ∃ r r', (Drive.updates [[([1], some [2]), ([3], some [4])], [([1], none)]] id).run flatHasher 2
        (session .empty true) = .ok r ∧
      (Drive.updateFin [([3], some [4])] List.reverse).run flatHasher 2 (session .empty false) = .ok r' ∧
      SameResult flatHasher .empty (applyAll (fun _ ↦ none)
        (Drive.updates [[([1], some [2]), ([3], some [4])], [([1], none)]] id).plain) r r' := by
  refine (committed_sessions_history_independent (le_refl 2) canonical_empty load_empty true false
    (.updates [[([1], some [2]), ([3], some [4])], [([1], none)]] id)
    (.updateFin [([3], some [4])] List.reverse) ?_ ?_ (fun l ↦ .refl l) (fun l ↦ l.reverse_perm) ?_).resolve_right ?_
  · intro kv hkv x hx
    simp only [Drive.plain, List.flatten_cons, List.flatten_nil, List.append_nil, List.cons_append,
      List.nil_append, List.mem_cons, List.not_mem_nil, or_false] at hkv
    rcases hkv with rfl | rfl | rfl <;> cases hx <;> decide
  · intro kv hkv x hx
    simp only [Drive.plain, List.mem_cons, List.not_mem_nil, or_false] at hkv
    subst hkv
    cases hx
    decide
  · funext k
    simp only [applyAll, Drive.plain, List.flatten_cons, List.flatten_nil, List.append_nil,
      List.cons_append, List.nil_append, List.foldl_cons, List.foldl_nil]
    by_cases h₁ : k = [1]
    · subst h₁
      decide
    · by_cases h₃ : k = [3]
      · subst h₃
        decide
      · simp [Function.update_of_ne, h₁, h₃]
  · rintro (⟨e, hover, -⟩ | ⟨e, hover, -⟩)
    · exact not_overflow_of_length (by decide) e hover
    · exact not_overflow_of_length (by decide) e hover

section Crowded

def crowd (n : ℕ) (x : Option Bytes) : List (Bytes × Option Bytes) :=
  (List.range n).map fun i ↦ (toLeBytes 5 i, x)

theorem applyAll_crowd (M : Bytes → Option Bytes) (n : ℕ) (x : Option Bytes) (k : Bytes) :
    applyAll M (crowd n x) k = if ∃ i < n, toLeBytes 5 i = k then x else M k := by
  induction n with
  | zero => simp [crowd, applyAll]
  | succ n ih =>
    rw [crowd, List.range_succ, List.map_append, applyAll_append]
    change Function.update (applyAll M (crowd n x)) (toLeBytes 5 n) x k = _
    by_cases hk : toLeBytes 5 n = k
    · subst hk
      rw [Function.update_self, if_pos ⟨n, Nat.lt_succ_self n, rfl⟩]
    · rw [Function.update_of_ne (Ne.symm hk), ih]
      refine if_congr ⟨fun ⟨i, hi, he⟩ ↦ ⟨i, Nat.lt_succ_of_lt hi, he⟩, fun ⟨i, hi, he⟩ ↦ ⟨i, ?_, he⟩⟩ rfl rfl
      have : i ≠ n := fun h ↦ hk (h ▸ he)
      omega

theorem crowd_fits (n : ℕ) (x : Option Bytes) (hx : ∀ y, x = some y → y.length ≤ 87) : Fits (crowd n x) := by
  intro kv hkv y hy
  obtain ⟨i, -, rfl⟩ := List.mem_map.mp hkv
  have := hx y hy
  rw [toLeBytes_length]
  omega

/-- A bucket cannot be given more keys than a slot id counts. -/
theorem update_crowd_fails {n : ℕ} (hn : bucketSlotIdMask < n) (hlt : n ≤ 256 ^ 5) (cacheRead : Bool) :
    ∃ e, (session .empty cacheRead).update flatHasher 2 (crowd n (some [])) = .error e := by
  have hfit : Fits (crowd n (some [])) := crowd_fits n _ fun y hy ↦ by cases hy; decide
  obtain ⟨hst, -⟩ := session_steady (H := flatHasher) canonical_empty TooLarge cacheRead
  rcases sat_iff.mp (update_spec (le_refl 2) hst (fun _ _ _ ↦ capped_tooLarge _) hfit.fitsOr) with
    ⟨r, -, hr, -⟩ | ⟨e, he, -⟩
  · have hb : isValidDataBucket (2 ^ 16) := by decide
    have hg := hr.steady.good _ hb
    have hcount := hr.steady.represents.count_eq hg
    have hsub : (((List.range n).map (toLeBytes 5)).toFinset : Set Bytes) ⊆
        keysIn flatHasher (applyAll (fun _ ↦ none) (crowd n (some []))) (2 ^ 16) := by
      intro k hk
      simp only [List.coe_toFinset, Set.mem_ofPred_eq, List.mem_map, List.mem_range] at hk
      refine ⟨rfl, ?_⟩
      rw [applyAll_crowd, if_pos hk]
      rfl
    have hnodup : ((List.range n).map (toLeBytes 5)).Nodup := by
      refine List.Nodup.map_on (fun i hi j hj he ↦ ?_) List.nodup_range
      rw [← fromLeBytes_toLeBytes (n := 5) ((List.mem_range.mp hi).trans_le hlt), he,
        fromLeBytes_toLeBytes ((List.mem_range.mp hj).trans_le hlt)]
    have hfin : (keysIn flatHasher (applyAll (fun _ ↦ none) (crowd n (some []))) (2 ^ 16)).Finite := by
      rw [hr.steady.represents.keysIn_eq hg]
      exact Finset.finite_toSet _
    have hcard := Set.ncard_le_ncard hsub hfin
    rw [Set.ncard_coe_finset, List.toFinset_card_of_nodup hnodup, List.length_map, List.length_range,
      ← hcount] at hcard
    have := count_le (r.1.view StateStore.empty.full) (2 ^ 16)
    have := hg.capacity_le
    omega
  · exact ⟨e, he⟩

theorem committed_sessions_history_independent_crowded :
    applyAll (fun _ ↦ none) (Drive.updates [crowd (2 ^ 40) (some []), crowd (2 ^ 40) none] id).plain =
        applyAll (fun _ ↦ none) (Drive.updateFin [] id).plain ∧
      (∃ e, (Drive.updates [crowd (2 ^ 40) (some []), crowd (2 ^ 40) none] id).run flatHasher 2
        (session .empty true) = .error e) ∧
      ∃ r, (Drive.updateFin [] id).run flatHasher 2 (session .empty true) = .ok r := by
  refine ⟨?_, ?_, ?_⟩
  · funext k
    simp only [Drive.plain, List.flatten_cons, List.flatten_nil, List.append_nil, applyAll_append,
      applyAll_crowd]
    split <;> rfl
  · obtain ⟨e, he⟩ := update_crowd_fails (n := 2 ^ 40) (by decide) (by decide) true
    refine ⟨e, ?_⟩
    rw [Drive.run, List.foldlM_cons, he]
    rfl
  · exact ⟨_, rfl⟩

end Crowded

end Salt
