import Salt.State.Writing
import Salt.Library.OrderedProbing

namespace Salt

open Library.ProbeRing Library.OrderedTable Library.GreedyLayout Library.OrderedProbing Library.Triple

theorem metadataKey_ne_bucket {b b' : ℕ} (hb : isValidDataBucket b) (hb' : isValidDataBucket b') :
    (metadataKey b').bucketId ≠ b := by
  rw [metadataKey_bucketId hb']
  rw [dataBucket_iff] at hb hb'
  omega

namespace EphemeralSaltState

variable {F : Full} {st st' st'' : EphemeralSaltState} {A : Fault → Prop} {out out' : StateUpdates}
  {start : SaltKey → Option SaltValue} {b c : ℕ} {t t' : ℕ → Option SaltValue}

structure Moved (A : Fault → Prop) (F : Full) (start : SaltKey → Option SaltValue) (b : ℕ)
    (st : EphemeralSaltState) (t : ℕ → Option SaltValue) (r : EphemeralSaltState × StateUpdates) :
    Prop where
  tracked : Tracked A F start r.1 r.2
  usage : st.UsageOk F → r.1.UsageOk F
  kept : Kept st r.1
  rehashed : r.1.rehashedBuckets = st.rehashedBuckets
  frame : ∀ k : SaltKey, k.bucketId ≠ b → r.1.view F k = st.view F k
  table : slots (r.1.view F) b = t

theorem Moved.live {r : EphemeralSaltState × StateUpdates} (h : Moved A F start b st t r)
    (hl : Live A F start st out) : Live A F start r.1 r.2 :=
  ⟨h.tracked, h.kept.store ▸ hl.counted, h.usage hl.usage⟩

theorem Quiet.moved (h : Quiet F st st') (hl : Tracked A F start st out) (b : ℕ) :
    Moved A F start b st (slots (st.view F) b) (st', out) :=
  ⟨hl.quiet h, h.usageOk, h.kept, h.rehashed, fun _ _ ↦ by rw [h.view], by rw [h.view]⟩

theorem Moved.trans {r r' : EphemeralSaltState × StateUpdates} (h : Moved A F start b st t r)
    (h' : Moved A F start b r.1 t' r') : Moved A F start b st t' r' :=
  ⟨h'.tracked, fun hu ↦ h'.usage (h.usage hu), h.kept.trans h'.kept, h'.rehashed.trans h.rehashed,
    fun k hk ↦ (h'.frame k hk).trans (h.frame k hk), h'.table⟩

theorem Moved.metaAt_eq {r : EphemeralSaltState × StateUpdates} (h : Moved A F start b st t r)
    (hb : isValidDataBucket b) {b' : ℕ} (hb' : isValidDataBucket b') :
    metaAt (r.1.view F) b' = metaAt (st.view F) b' := by
  rw [metaAt, h.frame _ (metadataKey_ne_bucket hb hb'), metaAt]

theorem Moved.slots_ne {r : EphemeralSaltState × StateUpdates} (h : Moved A F start b st t r)
    {b' : ℕ} (hb' : isValidDataBucket b') (hne : b' ≠ b) :
    slots (r.1.view F) b' = slots (st.view F) b' :=
  slots_congr (dataBucket_lt hb') fun k hk ↦ h.frame k (hk ▸ hne)

theorem Tracked.moved (h : Tracked A F start st out) (hb : isValidDataBucket b) {s : ℕ}
    (hs : s < (metaAt (st.view F) b).capacity) (hs' : s < 2 ^ 40) {old : Option SaltValue}
    (hold : old = slots (st.view F) b s) (x : Option SaltValue) :
    ∃ r, st.updateValue out (SaltKey.ofPair b s) old x = .ok r ∧
      Moved A F start b st (Function.update (slots (st.view F) b) s x) r := by
  subst hold
  obtain ⟨st', out', hr, hl, hu, hk, hre, hv⟩ := h.write hb hs hs' x
  refine ⟨_, hr, hl, hu, hk, hre, fun k hk ↦ ?_, ?_⟩
  · rw [hv, Function.update_of_ne]
    rintro rfl
    exact hk (SaltKey.bucketId_ofPair (dataBucket_lt hb) hs')
  · rw [hv, slots_update (dataBucket_lt hb) hs']

theorem shiSearchLoop_spec (hR : ReadsSlots st.store F A) (hb : isValidDataBucket b) (hc : 0 < c)
    (hc' : c ≤ 2 ^ 40) (hashed : ℕ) (k : Bytes) (n step : ℕ) :
    Sat (shiSearchLoop EphemeralSaltState.value b hashed c k n step st) A
      (fun r ↦ Quiet F st r.1 ∧
        r.2 = searchLoop c SaltValue.key (slots (st.view F) b) k hashed n step) := by
  induction n generalizing step st with
  | zero => exact Sat.ok ⟨.refl F st, rfl⟩
  | succ n ih =>
    have hs := probe_lt hc hashed step
    rw [shiSearchLoop, searchLoop]
    refine (slot_spec hR hb (by omega)).bind ?_
    rintro ⟨st', entry⟩ ⟨hq, he⟩
    simp only at hq he
    subst he
    cases slots (st.view F) b (probe hashed step c) with
    | none => exact Sat.ok ⟨hq, rfl⟩
    | some v =>
      simp only
      split
      · exact Sat.ok ⟨hq, rfl⟩
      · split
        · exact Sat.ok ⟨hq, rfl⟩
        · refine (ih (hq.store ▸ hR) (step + 1)).mono fun r hr ↦ ⟨hq.trans hr.1, ?_⟩
          rw [hr.2, hq.view]

def Probed.outcome : Probed → Outcome SaltValue
  | .updated => .updated
  | .inserted => .inserted
  | .exhausted d => .exhausted d

theorem shiUpsertLoop_spec (h : Tracked A F start st out) (hb : isValidDataBucket b)
    (hm : (metaAt (st.view F) b).capacity = c) (hc : 0 < c) (hc' : c ≤ 2 ^ 40) (hashed n step : ℕ)
    (v : SaltValue) :
    Sat (shiUpsertLoop b hashed c n step v st out) A (fun r ↦
      r.1.outcome = (insertLoop c SaltValue.key hashed n step v (slots (st.view F) b)).1 ∧
      Moved A F start b st (insertLoop c SaltValue.key hashed n step v (slots (st.view F) b)).2
        r.2) := by
  induction n generalizing step v st out with
  | zero => exact Sat.ok ⟨rfl, (Quiet.refl F st).moved h b⟩
  | succ n ih =>
    have hs := probe_lt hc hashed step
    rw [shiUpsertLoop, insertLoop]
    refine (slot_spec h.reads hb (by omega)).bind ?_
    rintro ⟨st', entry⟩ ⟨hq, he⟩
    simp only at hq he
    have hl := h.quiet hq
    have hqm := hq.moved h b
    have hold : entry = slots (st'.view F) b (probe hashed step c) := by rw [he, hq.view]
    have hwrite := fun x ↦ hl.moved hb (s := probe hashed step c)
      (by rw [hq.view, hm]; exact hs) (by omega) hold x
    rw [hq.view] at hwrite
    cases hent : slots (st.view F) b (probe hashed step c) with
    | none =>
      rw [hent] at he
      subst he
      obtain ⟨r, hr, hmv⟩ := hwrite (some v)
      simp only [hr]
      exact Sat.ok ⟨rfl, hqm.trans hmv⟩
    | some o =>
      rw [hent] at he
      subst he
      obtain ⟨r, hr, hmv⟩ := hwrite (some v)
      simp only
      split
      · simp only [hr]
        exact Sat.ok ⟨rfl, hqm.trans hmv⟩
      · split
        · simp only [hr]
          have hstep := ih hmv.tracked (by rw [hmv.metaAt_eq hb hb, hq.view, hm]) (step + 1) o
          rw [hmv.table] at hstep
          exact hstep.mono fun r' hr' ↦ ⟨hr'.1, hqm.trans (hmv.trans hr'.2)⟩
        · have hstep := ih hl (by rw [hq.view, hm]) (step + 1) v
          rw [hq.view] at hstep
          exact hstep.mono fun r' hr' ↦ ⟨hr'.1, hqm.trans hr'.2⟩

variable {H : Hasher}

theorem shiNextLoop_spec (hR : ReadsSlots st.store F A) (hb : isValidDataBucket b) (hc : 0 < c)
    (hc' : c ≤ 2 ^ 40) (g : ℕ) (nonce : UInt32) (n i : ℕ) :
    Sat (shiNextLoop H b g nonce c n i st) A (fun r ↦ Quiet F st r.1 ∧
      r.2 = nextLoop c (fun k ↦ H.hashWithNonce k nonce) SaltValue.key (slots (st.view F) b)
        g n i) := by
  induction n generalizing i st with
  | zero => exact Sat.ok ⟨.refl F st, rfl⟩
  | succ n ih =>
    have hs := probe_lt hc g i
    rw [shiNextLoop, nextLoop]
    refine (slot_spec hR hb (by omega)).bind ?_
    rintro ⟨st', entry⟩ ⟨hq, he⟩
    simp only at hq he
    subst he
    cases slots (st.view F) b (probe g i c) with
    | none => exact Sat.ok ⟨hq, rfl⟩
    | some v =>
      simp only
      split
      · exact Sat.ok ⟨hq, rfl⟩
      · refine (ih (hq.store ▸ hR) (i + 1)).mono fun r hr ↦ ⟨hq.trans hr.1, ?_⟩
        rw [hr.2, hq.view]

theorem shiDeleteLoop_spec (h : Tracked A F start st out) (hb : isValidDataBucket b)
    (hm : (metaAt (st.view F) b).capacity = c) (hc : 0 < c) (hc' : c ≤ 2 ^ 40) {nonce : UInt32}
    {n g : ℕ} {d : SaltValue} (hg : g < c) (hd : slots (st.view F) b g = some d)
    (ht : deleteLoop c (fun k ↦ H.hashWithNonce k nonce) SaltValue.key n g (slots (st.view F) b) =
      some t) :
    Sat (shiDeleteLoop H b nonce c n g d st out) A (Moved A F start b st t) := by
  induction n generalizing g d st out with
  | zero => cases ht
  | succ n ih =>
    rw [deleteLoop] at ht
    rw [shiDeleteLoop]
    refine (shiNextLoop_spec h.reads hb hc hc' g nonce (c - 1) 1).bind ?_
    rintro ⟨st', suitable⟩ ⟨hq, he⟩
    simp only at hq he
    have hl := h.quiet hq
    have hqm := hq.moved h b
    have hwrite := fun x ↦ hl.moved hb (s := g) (by rw [hq.view, hm]; exact hg) (by omega)
      (show some d = _ by rw [hq.view, hd]) x
    rw [hq.view] at hwrite
    cases hres : nextLoop c (fun k ↦ H.hashWithNonce k nonce) SaltValue.key (slots (st.view F) b)
      g (c - 1) 1 with
    | none =>
      rw [hres] at he ht
      subst he
      obtain ⟨r, hr, hmv⟩ := hwrite none
      simp only [hr]
      cases ht
      exact Sat.ok (hqm.trans hmv)
    | some e =>
      obtain ⟨s, y⟩ := e
      rw [hres] at he ht
      subst he
      obtain ⟨r, hr, hmv⟩ := hwrite (some y)
      have hspec := nextLoop_spec (fun k ↦ H.hashWithNonce k nonce) SaltValue.key
        (slots (st.view F) b) g (show c - 1 + 1 = c by omega) Nat.one_pos
        (fun i hi hi' ↦ by omega)
      rw [hres] at hspec
      obtain ⟨m, hm0, hmc, rfl, hy, -, -⟩ := hspec
      simp only [hr]
      refine (ih hmv.tracked (by rw [hmv.metaAt_eq hb hb, hq.view, hm]) (probe_lt hc g m) (d := y) ?_ ?_).mono
        fun r' hr' ↦ hqm.trans (hmv.trans hr')
      · rw [hmv.table, Function.update_of_ne (probe_ne_self hg hm0 hmc), hy]
      · rw [hmv.table]
        exact ht

end EphemeralSaltState

end Salt
