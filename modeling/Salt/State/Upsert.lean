import Salt.State.Operations
import Salt.State.Resize

namespace Salt

open Library.ProbeRing Library.OrderedTable Library.GreedyLayout Library.OrderedProbing Library.Triple

namespace EphemeralSaltState

variable {F : Full} {st st' : EphemeralSaltState} {A : Fault → Prop} {out : StateUpdates}
  {start : SaltKey → Option SaltValue} {b : ℕ} {H : Hasher}

def Located (w : SaltKey → Option SaltValue) (k : Bytes) (sk : SaltKey) (v : SaltValue) : Prop :=
  sk.isInMetaBucket = false ∧ w sk = some v ∧ v.key = k

theorem tryDirectFind_spec (hR : ReadsSlots st.store F A) (k : Bytes) :
    Sat (st.tryDirectFind k) A (fun r ↦ Quiet F st r.1 ∧
      ∀ sk v, r.2 = some (sk, v) → Located (st.view F) k sk v ∧ st.store.plainValueFast k = .ok sk) := by
  have hdirect : Sat (st.directFind k) A (fun r ↦ Quiet F st r.1 ∧
      ∀ sk v, r.2 = some (sk, v) → Located (st.view F) k sk v ∧ st.store.plainValueFast k = .ok sk) := by
    have hquiet : ∀ (P : SaltKey → SaltValue → Prop) st', Quiet F st st' → Sat (.ok (st', none) : Except Fault
        (EphemeralSaltState × Option (SaltKey × SaltValue))) A (fun r ↦ Quiet F st r.1 ∧
        ∀ sk v, r.2 = some (sk, v) → P sk v) :=
      fun _ st' hq ↦ Sat.ok ⟨hq, fun _ _ h ↦ by cases h⟩
    rw [directFind]
    obtain ⟨sk, hsk, hmeta⟩ | ⟨e, he⟩ := hR.fast k
    · rw [hsk, attempt, ok_bind]
      refine (value_spec hR hmeta).bind ?_
      rintro ⟨st', entry⟩ ⟨hq, hv⟩
      simp only at hq hv ⊢
      cases entry with
      | none => exact hquiet _ st' hq
      | some v =>
        simp only
        split
        · refine Sat.ok ⟨hq, fun _ _ h ↦ ?_⟩
          cases h
          exact ⟨⟨hmeta, hv.symm, by assumption⟩, rfl⟩
        · exact hquiet _ st' hq
    · rw [he, attempt, ok_bind]
      exact hquiet _ st (.refl F st)
  rw [tryDirectFind]
  refine (sat_attempt hdirect).bind fun r hr ↦ ?_
  cases r with
  | some r => exact Sat.ok hr
  | none => exact Sat.ok ⟨.refl F st, fun _ _ h ↦ by cases h⟩

theorem Located.slot {w : SaltKey → Option SaltValue} {k : Bytes} {sk : SaltKey} {v : SaltValue}
    (h : Located w k sk v) (hg : Good H w) : ∃ s < (metaAt w (H.bucketId k)).capacity,
      sk = SaltKey.ofPair (H.bucketId k) s ∧ slots w (H.bucketId k) s = some v := by
  obtain ⟨hmeta, hv, rfl⟩ := h
  have hb : isValidDataBucket sk.bucketId := by
    rw [SaltKey.isInMetaBucket, decide_eq_false_iff_not] at hmeta
    rw [dataBucket_iff]
    exact ⟨not_lt.mp hmeta, sk.bucketId_lt⟩
  have hs : slots w sk.bucketId sk.slotId = some v := by
    rw [slots_eq sk.slotId_lt, sk.ofPair_eta, hv]
  rw [((hg _ hb).entry _ _ hs).2]
  exact ⟨sk.slotId, (hg _ hb).slot_lt hs, sk.ofPair_eta.symm, hs⟩

structure Upserted (H : Hasher) (A : Fault → Prop) (F : Full) (start : SaltKey → Option SaltValue) (b : ℕ)
    (v : SaltValue) (st : EphemeralSaltState) (r : EphemeralSaltState × StateUpdates) : Prop
    extends Effect H A F start b st r where
  holds : ∀ y, Holds (r.1.view F) b y ↔ y = v ∨ Holds (st.view F) b y ∧ y.key ≠ v.key
  nonce : (metaAt (r.1.view F) b).nonce = (metaAt (st.view F) b).nonce
  rehashed : metaAt (r.1.view F) b = metaAt (st.view F) b ∧
      r.1.rehashedBuckets = st.rehashedBuckets ∨
    ∀ b', b' ∈ r.1.rehashedBuckets ↔ b' = b ∨ b' ∈ st.rehashedBuckets
  resized : Complete A → count (st.view F) b * 100 ≤ (metaAt (st.view F) b).capacity * 80 →
    Resized (metaAt (st.view F) b).capacity (count (r.1.view F) b) (metaAt (r.1.view F) b).capacity

variable {r r' : EphemeralSaltState × StateUpdates} {v : SaltValue}

theorem Quiet.upserted (hq : Quiet F st st') (h : Upserted H A F start b v st' r) :
    Upserted H A F start b v st r := by
  have hv := hq.view
  refine ⟨hq.effect_trans h.toEffect, ?_, ?_, ?_, ?_⟩
  · rw [← hv]
    exact h.holds
  · rw [← hv]
    exact h.nonce
  · rw [← hv, ← hq.rehashed]
    exact h.rehashed
  · rw [← hv]
    exact h.resized

theorem Arranged.upserted (h : Arranged H A F start b st r) (hl : Live A F start st out)
    (hb : isValidDataBucket b)
    (hst : ∀ y, Holds (r.1.view F) b y ↔ y = v ∨ Holds (st.view F) b y ∧ y.key ≠ v.key)
    (hcount : count (r.1.view F) b = count (st.view F) b) : Upserted H A F start b v st r := by
  have hm := h.metaAt_eq hb hb
  refine ⟨h.effect hl, hst, by rw [hm], .inl ⟨hm, h.rehashed⟩, fun _ hload ↦ ?_⟩
  rw [hm, hcount]
  exact resized_self hload

theorem replace_spec (h : Tracked A F start st out) (hb : isValidDataBucket b)
    (hg : GoodBucket H (st.view F) b) {s : ℕ} {o : SaltValue}
    (hs : s < (metaAt (st.view F) b).capacity) (ho : slots (st.view F) b s = some o)
    (hk : o.key = v.key) (hv : v.WellFormed ∧ H.bucketId v.key = b) :
    ∃ r, st.updateValue out (SaltKey.ofPair b s) (some o) (some v) = .ok r ∧
      Arranged H A F start b st r ∧
      (∀ y, Holds (r.1.view F) b y ↔ y = v ∨ Holds (st.view F) b y ∧ y.key ≠ v.key) ∧
      count (r.1.view F) b = count (st.view F) b := by
  obtain ⟨r, hr, hm⟩ := h.moved hb hs (hs.trans hg.capacity_lt) ho.symm (some v)
  have hst : ∀ y, Stored (metaAt (st.view F) b).capacity
      (Function.update (slots (st.view F) b) s (some v)) y ↔ y = v ∨ Holds (st.view F) b y ∧ y.key ≠ v.key := by
    intro y
    rw [hg.ordered.stored_update hg.capacity_pos hs ho, hk]
    rfl
  refine ⟨r, hr, hm.arranged hb hg (hg.ordered.update_same hs ho hk.symm) (fun a ha ↦ ?_) (fun y hy ↦ ?_),
    fun y ↦ (hm.holds_iff hb y).trans (hst y), ?_⟩
  · rw [Function.update_of_ne (by omega), hg.outside a ha]
  · rcases (hst y).mp hy with rfl | ⟨hy, -⟩
    · exact hv
    · exact hg.holds_entry hy
  · rw [hm.count_eq hb, card_occupied_replace hs ho, count]

theorem Rehashed.count_eq {m : BucketMeta} (h : Rehashed H A F start b m st r)
    (hg : GoodBucket H (st.view F) b) : count (r.1.view F) b = count (st.view F) b :=
  h.good.count_eq hg h.holds

theorem Rehashed.upserted {n : UInt32} {c : ℕ} (h : Rehashed H A F start b ⟨n, c, none⟩ r.1 r')
    (hu : Effect H A F start b st r)
    (hold : ∀ y, Holds (r.1.view F) b y ↔ y = v ∨ Holds (st.view F) b y ∧ y.key ≠ v.key)
    (hre : r.1.rehashedBuckets = st.rehashedBuckets) (hn : n = (metaAt (st.view F) b).nonce)
    (hc : Resized (metaAt (st.view F) b).capacity (count (r.1.view F) b) c) :
    Upserted H A F start b v st r' := by
  refine ⟨hu.trans h.toEffect, fun y ↦ (h.holds y).trans (hold y), ?_, .inr fun b' ↦ ?_, fun _ _ ↦ ?_⟩
  · rw [h.nonce_eq, hn]
  · rw [h.rehashed, hre]
  · rw [h.capacity_eq, h.count_eq hu.good]
    exact hc

def Bounds (w : SaltKey → Option SaltValue) (b : ℕ) (k : Bytes) (n : ℕ) : Prop :=
  count w b ≤ n ∧ ((∀ y, Holds w b y → y.key ≠ k) → count w b + 1 ≤ n)

theorem growth_spec {c n : ℕ} (hA : Capped A n) (hb : isValidDataBucket b) (hu : Effect H A F start b st r)
    (hold : ∀ y, Holds (r.1.view F) b y ↔ y = v ∨ Holds (st.view F) b y ∧ y.key ≠ v.key)
    (hm : metaAt (r.1.view F) b = metaAt (st.view F) b)
    (hre : r.1.rehashedBuckets = st.rehashedBuckets) (hc : c = (metaAt (st.view F) b).capacity)
    (hn : count (r.1.view F) b ≤ n) :
    Sat (do
      match ← attempt (r.1.usageCount b) with
      | some used =>
        if used > c * bucketResizeLoadFactorPct / 100 then
          let newCapacity ← computeResizeCapacity c used
          r.1.shiRehash H b (metaAt (st.view F) b).nonce newCapacity r.2
        else .ok (r.1, r.2)
      | none => .ok (r.1, r.2)) A (Upserted H A F start b v st) := by
  have hstay : (Complete A → count (r.1.view F) b * 100 ≤ c * 80) → Upserted H A F start b v st r :=
    fun hload ↦ ⟨hu, hold, by rw [hm], .inl ⟨hm, hre⟩, fun hp _ ↦ by
      rw [hm, ← hc]
      exact resized_self (hload hp)⟩
  refine (sat_attempt (usageCount_spec hu.live.counted hu.live.usage hb)).bind fun used hused ↦ ?_
  cases used with
  | none =>
    obtain ⟨e, he⟩ := hused
    exact Sat.ok (hstay fun hp ↦ absurd he (hp e))
  | some used =>
    simp only at hused ⊢
    subst hused
    have hpos : 0 < c := by
      rw [hc, ← hm]
      exact hu.good.capacity_pos
    split
    · rename_i hover
      obtain ⟨c', hc', hres⟩ := computeResizeCapacity_spec hpos (count (r.1.view F) b)
      have hneeds : Needs n c' := ⟨c, _, hn, not_le.mp fun hle ↦ load_le_iff.mpr hle hover, hc'⟩
      rw [hc', ok_bind]
      have hle := hres.le
      refine (shiRehash_spec hu.live hu.good hb _ (by omega) fun hmask ↦ hA c' hmask hneeds).mono fun r' hr' ↦ ?_
      rcases hr' with ⟨hlt, -, -⟩ | ⟨-, hr'⟩
      · have := count_le (r.1.view F) b
        rw [hm, ← hc] at this
        omega
      · exact hr'.upserted hu hold hre rfl (hc ▸ hres)
    · rename_i hle
      exact Sat.ok (hstay fun _ ↦ load_le_iff.mp hle)

/-- One round of `shi_upsert` up to the decision on a resize: the entry is updated in place, inserted, or another one
is left over by a bucket without free slots. -/
theorem shiUpsert_round {fuel : ℕ} (h : Tracked A F start st out) (hgb : GoodBucket H (st.view F) b)
    (hb : isValidDataBucket b) (hv : v.WellFormed ∧ H.bucketId v.key = b)
    (hdirect : ∀ sk o, Located (st.view F) v.key sk o → st.store.plainValueFast v.key = .ok sk →
      ∃ s < (metaAt (st.view F) b).capacity, sk = SaltKey.ofPair b s ∧ slots (st.view F) b s = some o)
    {post : EphemeralSaltState × StateUpdates → Prop}
    (hupdated : ∀ r, Arranged H A F start b st r →
      (∀ y, Holds (r.1.view F) b y ↔ y = v ∨ Holds (st.view F) b y ∧ y.key ≠ v.key) →
      count (r.1.view F) b = count (st.view F) b → post r)
    (hinserted : ∀ r, Arranged H A F start b st r → (∀ y, Holds (st.view F) b y → y.key ≠ v.key) →
      (∀ y, Holds (r.1.view F) b y ↔ y = v ∨ Holds (st.view F) b y) →
      count (r.1.view F) b = count (st.view F) b + 1 →
      Sat (do
        match ← attempt (r.1.usageCount b) with
        | some used =>
          if used > (metaAt (st.view F) b).capacity * bucketResizeLoadFactorPct / 100 then
            let newCapacity ← computeResizeCapacity (metaAt (st.view F) b).capacity used
            r.1.shiRehash H b (metaAt (st.view F) b).nonce newCapacity r.2
          else .ok (r.1, r.2)
        | none => .ok (r.1, r.2)) A post)
    (hexhausted : ∀ r d, Arranged H A F start b st r → (∀ y, Holds (st.view F) b y → y.key ≠ v.key) →
      (∀ y, y = d ∨ Holds (r.1.view F) b y ↔ y = v ∨ Holds (st.view F) b y) →
      (∀ y, Holds (r.1.view F) b y → y.key ≠ d.key) → count (r.1.view F) b = (metaAt (st.view F) b).capacity →
      count (st.view F) b = (metaAt (st.view F) b).capacity →
      Sat (do
        let newCapacity ← computeResizeCapacity (metaAt (st.view F) b).capacity (metaAt (st.view F) b).capacity
        let (st, out) ← r.1.shiRehash H b (metaAt (st.view F) b).nonce newCapacity r.2
        shiUpsert H fuel st b d.key d.value out) A post) :
    Sat (shiUpsert H (fuel + 1) st b v.key v.value out) A post := by
  rw [shiUpsert, hv.1.new_eq, ok_bind]
  refine (tryDirectFind_spec h.reads v.key).bind ?_
  rintro ⟨st₁, direct⟩ ⟨hq₁, hfound⟩
  simp only at hq₁ hfound ⊢
  have h₁ := h.quiet hq₁
  cases direct with
  | some e =>
    obtain ⟨sk, o⟩ := e
    obtain ⟨hloc, hfast⟩ := hfound sk o rfl
    obtain ⟨s, hs, rfl, ho⟩ := hdirect sk o hloc hfast
    obtain ⟨r, hr, har, hst, hcount⟩ := replace_spec (v := v) h₁ hb (by rw [hq₁.view]; exact hgb)
      (by rw [hq₁.view]; exact hs) (by rw [hq₁.view]; exact ho) hloc.2.2 hv
    simp only [hr]
    rw [hq₁.view] at hst hcount
    exact Sat.ok (hupdated r ⟨(hq₁.moved h b).trans har.toMoved, har.good⟩ hst hcount)
  | none =>
    simp only
    refine (metadata_spec h₁.reads h₁.cacheMeta hb).bind ?_
    rintro ⟨st₂, m⟩ ⟨hq₂, hm⟩
    simp only at hq₂ hm ⊢
    have hq : Quiet F st st₂ := hq₁.trans hq₂
    have h₂ := h.quiet hq
    rw [hq₁.view] at hm
    subst hm
    have hcap := hgb.capacity_lt
    refine (shiUpsertLoop_spec h₂ hb (by rw [hq.view]) hgb.capacity_pos (by omega) _ _ 0 v).bind ?_
    rintro ⟨probed, r⟩ ⟨hout, hmv⟩
    rw [hq.view] at hout hmv
    simp only at hout hmv ⊢
    have hins := insert_spec (v := v) hgb.ordered hgb.capacity_pos
    have hfin := hins.outcome
    rw [home] at hins hfin
    rw [← hout] at hfin
    have hmv' : Moved A F start b st _ r := (hq.moved h b).trans hmv
    have harranged : (∀ y, Stored (metaAt (st.view F) b).capacity (insertLoop (metaAt (st.view F) b).capacity
        SaltValue.key (H.hashWithNonce v.key (metaAt (st.view F) b).nonce)
        (metaAt (st.view F) b).capacity 0 v (slots (st.view F) b)).2 y →
          y = v ∨ Holds (st.view F) b y) → Arranged H A F start b st r := by
      intro hst
      refine hmv'.arranged hb hgb hins.ordered (fun s hs ↦ ?_) fun y hy ↦ ?_
      · rw [hins.outside s hs, hgb.outside s hs]
      · rcases hst y hy with rfl | hy
        · exact hv
        · exact hgb.holds_entry hy
    have hholds := hmv'.holds_iff hb
    have hcard := hmv'.count_eq hb
    cases probed with
    | updated =>
      obtain ⟨-, hst, hsame⟩ := hfin
      exact Sat.ok (hupdated r (harranged fun y hy ↦ ((hst y).mp hy).imp_right And.left)
        (fun y ↦ (hholds y).trans (hst y)) (hcard.trans hsame))
    | inserted =>
      obtain ⟨hfresh, hst, hmore⟩ := hfin
      exact hinserted r (harranged fun y hy ↦ (hst y).mp hy) hfresh (fun y ↦ (hholds y).trans (hst y))
        (hcard.trans hmore)
    | exhausted d =>
      obtain ⟨hfresh, hst, hd, hfull, hfull₀⟩ := hfin
      refine hexhausted r d (harranged fun y hy ↦ (hst y).mp (.inr hy)) hfresh (fun y ↦ ?_) (fun y hy ↦ ?_)
        (hcard.trans hfull) hfull₀
      · rw [hholds]
        exact hst y
      · exact hd y ((hholds y).mp hy)

/-- One round of `shi_upsert`. A full bucket is expanded and the displaced entry inserted by the
recursive call, whose behaviour on a bucket with room is assumed. -/
theorem shiUpsert_step {fuel n : ℕ} (hA : Capped A n) (h : Live A F start st out) (hg : Good H (st.view F))
    (hb : isValidDataBucket b) (hv : v.WellFormed ∧ H.bucketId v.key = b) (hn : Bounds (st.view F) b v.key n)
    (hrec : count (st.view F) b < (metaAt (st.view F) b).capacity ∨
      ∀ (st' : EphemeralSaltState) (out' : StateUpdates) (d : SaltValue), Live A F start st' out' →
        Good H (st'.view F) → d.WellFormed ∧ H.bucketId d.key = b → Bounds (st'.view F) b d.key n →
        count (st'.view F) b < (metaAt (st'.view F) b).capacity →
        Sat (shiUpsert H fuel st' b d.key d.value out') A (Upserted H A F start b d st')) :
    Sat (shiUpsert H (fuel + 1) st b v.key v.value out) A
      (Upserted H A F start b v st) := by
  have hgb := hg b hb
  refine shiUpsert_round h.toTracked hgb hb hv (fun sk o hloc _ ↦ ?_) (fun r har hst hcount ↦ ?_)
    (fun r har hfresh hst hcount ↦ ?_) (fun r d har hfresh hst hd hfull hfull₀ ↦ ?_)
  · obtain ⟨s, hs, hsk, ho⟩ := hloc.slot hg
    rw [hv.2] at hs hsk ho
    exact ⟨s, hs, hsk, ho⟩
  · exact har.upserted h hb hst hcount
  · refine growth_spec hA hb (har.effect h) (fun y ↦ ?_) (har.metaAt_eq hb hb) har.rehashed rfl ?_
    · rw [hst]
      exact or_congr_right ⟨fun hy ↦ ⟨hy, hfresh y hy⟩, And.left⟩
    · rw [hcount]
      exact hn.2 hfresh
  · rcases hrec with hroom | hrec
    · exact absurd hfull₀ (ne_of_lt hroom)
    have hu := har.effect h
    have hde : d.WellFormed ∧ H.bucketId d.key = b := by
      rcases (hst d).mp (.inl rfl) with rfl | hd'
      · exact hv
      · exact hgb.holds_entry hd'
    have hpos := hgb.capacity_pos
    have hroom := hn.2 hfresh
    obtain ⟨c', hc', hres⟩ := computeResizeCapacity_spec hpos (metaAt (st.view F) b).capacity
    have hload := hres.load
    have hneeds : Needs n c' := ⟨_, _, by omega, by omega, hc'⟩
    rw [hc', ok_bind]
    refine (shiRehash_spec hu.live hu.good hb _ (by omega) fun hmask ↦ hA c' hmask hneeds).bind fun r₃ hr₃ ↦ ?_
    rcases hr₃ with ⟨hlt, -, -⟩ | ⟨-, hr₃⟩
    · omega
    have hcount₃ := hr₃.count_eq hu.good
    refine (hrec r₃.1 r₃.2 d hr₃.live (hr₃.all_good hb (hu.all_good hb hg)) hde ⟨by omega, fun _ ↦ by omega⟩
      ?_).mono fun r₄ hr₄ ↦ ?_
    · rw [hcount₃, hr₃.capacity_eq]
      omega
    · refine ⟨hu.trans (hr₃.trans hr₄.toEffect), fun y ↦ ?_, ?_, .inr fun b' ↦ ?_, fun _ hl ↦ ?_⟩
      · rw [hr₄.holds, hr₃.holds]
        constructor
        · rintro (hy | ⟨hy, -⟩)
          · exact ((hst y).mp (.inl hy)).imp_right fun hy ↦ ⟨hy, hfresh y hy⟩
          · exact ((hst y).mp (.inr hy)).imp_right fun hy ↦ ⟨hy, hfresh y hy⟩
        · intro hy
          exact ((hst y).mpr (hy.imp_right And.left)).imp_right fun hy ↦ ⟨hy, hd y hy⟩
      · rw [hr₄.nonce, hr₃.nonce_eq]
      · rcases hr₄.rehashed with ⟨-, he⟩ | he
        · rw [he, hr₃.rehashed, har.rehashed]
        · rw [he, hr₃.rehashed, har.rehashed, ← or_assoc, or_self]
      · omega

/-- `shi_upsert` replaces the entry of its key or adds one; two levels of recursion are enough. -/
theorem shiUpsert_spec {fuel n : ℕ} (hf : 2 ≤ fuel) (hA : Capped A n) (h : Live A F start st out)
    (hg : Good H (st.view F)) (hb : isValidDataBucket b)
    (hv : v.WellFormed ∧ H.bucketId v.key = b) (hn : Bounds (st.view F) b v.key n) :
    Sat (shiUpsert H fuel st b v.key v.value out) A (Upserted H A F start b v st) := by
  obtain ⟨fuel, rfl⟩ := Nat.exists_eq_add_of_le hf
  rw [Nat.add_comm]
  exact shiUpsert_step hA h hg hb hv hn (.inr fun st' out' d h' hg' hd hn' hroom ↦
    shiUpsert_step hA h' hg' hb hd hn' (.inl hroom))

end EphemeralSaltState

end Salt
