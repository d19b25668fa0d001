import Salt.State.Upsert

namespace Salt

open Library.ProbeRing Library.OrderedTable Library.GreedyLayout Library.OrderedProbing Library.Triple

/-- The plain map that a state represents. -/
def Represents (H : Hasher) (w : SaltKey → Option SaltValue) (M : Bytes → Option Bytes) : Prop :=
  ∀ k x, M k = some x ↔ ∃ v, Holds w (H.bucketId k) v ∧ v.key = k ∧ v.value = x

section Represents

variable {H : Hasher} {w w' : SaltKey → Option SaltValue} {M M' : Bytes → Option Bytes} {b : ℕ}

theorem Represents.congr (h : Represents H w M)
    (he : ∀ b, isValidDataBucket b → ∀ v, Holds w' b v ↔ Holds w b v) : Represents H w' M := by
  intro k x
  rw [h k x]
  exact exists_congr fun v ↦ and_congr_left fun _ ↦ (he _ (H.bucketId_data k) v).symm

theorem Represents.unique (h : Represents H w M) (h' : Represents H w M') : M = M' := by
  funext k
  exact Option.ext fun x ↦ (h k x).trans (h' k x).symm

/-- Two canonical states that represent the same map have the same entries. -/
theorem Represents.holds_iff (h : Represents H w M) (h' : Represents H w' M) (hg : Good H w)
    (hg' : Good H w') (hb : isValidDataBucket b) (v : SaltValue) :
    Holds w b v ↔ Holds w' b v := by
  have aux : ∀ {u u' : SaltKey → Option SaltValue}, Represents H u M → Represents H u' M →
      Good H u → Good H u' → Holds u b v → Holds u' b v := by
    intro u u' hu hu' gu gu' hv
    obtain ⟨hwf, hid⟩ := (gu b hb).holds_entry hv
    obtain ⟨v', hv', hk, hx⟩ := (hu' v.key v.value).mp ((hu _ _).mpr ⟨v, hid.symm ▸ hv, rfl, rfl⟩)
    rw [hid] at hv'
    rwa [← ((gu' b hb).holds_entry hv').1.ext hwf hk hx]
  exact ⟨aux h h' hg hg', aux h' h hg' hg⟩

theorem Represents.change (h : Represents H w M) {k : Bytes} {x : Option Bytes}
    (hfit : ∀ y, x = some y → ∃ v, SaltValue.new k y = .ok v)
    (hother : ∀ b, isValidDataBucket b → b ≠ H.bucketId k → ∀ v, Holds w' b v ↔ Holds w b v)
    (hsame : ∀ v, Holds w' (H.bucketId k) v ↔
      (∃ y, x = some y ∧ SaltValue.new k y = .ok v) ∨ Holds w (H.bucketId k) v ∧ v.key ≠ k) :
    Represents H w' (Function.update M k x) := by
  intro j y
  by_cases hj : j = k
  · subst hj
    rw [Function.update_self]
    constructor
    · rintro rfl
      obtain ⟨v, hv⟩ := hfit y rfl
      exact ⟨v, (hsame v).mpr (.inl ⟨y, rfl, hv⟩), SaltValue.key_of_new hv, SaltValue.value_of_new hv⟩
    · rintro ⟨v, hv, hk, hx⟩
      rcases (hsame v).mp hv with ⟨z, rfl, hz⟩ | ⟨-, hne⟩
      · rw [← hx, SaltValue.value_of_new hz]
      · exact absurd hk hne
  · rw [Function.update_of_ne hj, h j y]
    refine exists_congr fun v ↦ ?_
    by_cases hb : H.bucketId j = H.bucketId k
    · rw [hb, hsame]
      refine and_congr_left fun hv ↦ ⟨fun hh ↦ .inr ⟨hh, fun he ↦ hj (hv.1 ▸ he)⟩, ?_⟩
      rintro (⟨z, -, hz⟩ | hh)
      · exact absurd (hv.1 ▸ SaltValue.key_of_new hz) hj
      · exact hh.1
    · rw [hother _ (H.bucketId_data j) hb]

end Represents

namespace EphemeralSaltState

variable {F : Full} {st st' : EphemeralSaltState} {A : Fault → Prop} {out : StateUpdates}
  {start : SaltKey → Option SaltValue} {b : ℕ} {H : Hasher} {M : Bytes → Option Bytes}

theorem shiFind_spec (hR : ReadsSlots st.store F A) (hb : isValidDataBucket b)
    (hg : GoodBucket H (st.view F) b) (k : Bytes) :
    Sat (st.shiFind H b (metaAt (st.view F) b).nonce (metaAt (st.view F) b).capacity k) A
      (fun r ↦ Quiet F st r.1 ∧
        match r.2 with
        | some (s, v) => s < (metaAt (st.view F) b).capacity ∧ slots (st.view F) b s = some v ∧ v.key = k
        | none => ∀ v, Holds (st.view F) b v → v.key ≠ k) := by
  refine (shiSearchLoop_spec hR hb hg.capacity_pos (le_of_lt hg.capacity_lt) _ k _ 0).mono
    fun r hr ↦ ⟨hr.1, ?_⟩
  have hsearch := search_spec hg.ordered hg.capacity_pos k
  rw [home, ← hr.2] at hsearch
  cases he : r.2 with
  | none =>
    rw [he] at hsearch
    exact hsearch
  | some e =>
    rw [he] at hsearch
    exact hsearch

theorem find_spec (h : Live A F start st out) (hg : Good H (st.view F)) (k : Bytes) :
    Sat (st.find H k) A (fun r ↦ Quiet F st r.1 ∧
      match r.2 with
      | some (sk, v) => Located (st.view F) k sk v
      | none => ∀ v, Holds (st.view F) (H.bucketId k) v → v.key ≠ k) := by
  have hb := H.bucketId_data k
  rw [find]
  refine (tryDirectFind_spec h.reads k).bind ?_
  rintro ⟨st₁, direct⟩ ⟨hq₁, hdirect⟩
  simp only at hq₁ hdirect ⊢
  cases direct with
  | some e => exact Sat.ok ⟨hq₁, And.left (hdirect e.1 e.2 rfl)⟩
  | none =>
    have h₁ := h.quiet hq₁
    simp only
    refine (metadata_spec h₁.reads h₁.cacheMeta hb).bind ?_
    rintro ⟨st₂, m⟩ ⟨hq₂, rfl⟩
    simp only at hq₂ ⊢
    rw [← hq₂.view]
    refine (shiFind_spec (h₁.quiet hq₂).reads hb (by rw [hq₂.view, hq₁.view]; exact hg _ hb) k).bind ?_
    rintro ⟨st₃, found⟩ ⟨hq₃, hfound⟩
    have hq := (hq₁.trans hq₂).trans hq₃
    rw [hq₂.view, hq₁.view] at hfound
    simp only at hfound ⊢
    cases found with
    | none => exact Sat.ok ⟨hq, hfound⟩
    | some e =>
      obtain ⟨hs, hv, hk⟩ := hfound
      have hs' := hs.trans (hg _ hb).capacity_lt
      exact Sat.ok ⟨hq, ofPair_not_inMeta hb hs', (slots_eq hs').symm.trans hv, hk⟩

theorem plainValue_spec (h : Live A F start st out) (hg : Good H (st.view F))
    (hM : Represents H (st.view F) M) (k : Bytes) :
    Sat (st.plainValue H k) A (fun r ↦ Quiet F st r.1 ∧ r.2 = M k) := by
  refine (find_spec h hg k).bind fun r hr ↦ Sat.ok ⟨hr.1, ?_⟩
  have hr₂ := hr.2
  cases he : r.2 with
  | some e =>
    rw [he] at hr₂
    obtain ⟨s, hs, -, hv⟩ := hr₂.slot hg
    exact ((hM k e.2.value).mpr ⟨e.2, ⟨s, hs, hv⟩, hr₂.2.2, rfl⟩).symm
  | none =>
    rw [he] at hr₂
    cases hMk : M k with
    | none => rfl
    | some x =>
      obtain ⟨v, hv, hk, -⟩ := (hM k x).mp hMk
      exact absurd hk (hr₂ v hv)

structure Deleted (H : Hasher) (A : Fault → Prop) (F : Full) (start : SaltKey → Option SaltValue) (b : ℕ)
    (k : Bytes) (st : EphemeralSaltState) (r : EphemeralSaltState × StateUpdates) : Prop
    extends Effect H A F start b st r where
  holds : ∀ y, Holds (r.1.view F) b y ↔ Holds (st.view F) b y ∧ y.key ≠ k
  shape : metaAt (r.1.view F) b = metaAt (st.view F) b
  rehashed : r.1.rehashedBuckets = st.rehashedBuckets
  count_le : count (r.1.view F) b ≤ count (st.view F) b

theorem shiDelete_round (h : Tracked A F start st out) (hg : GoodBucket H (st.view F) b)
    (hb : isValidDataBucket b) (k : Bytes) :
    Sat (st.shiDelete H b k out) A (fun r ↦ Arranged H A F start b st r ∧
      (∀ y, Holds (r.1.view F) b y ↔ Holds (st.view F) b y ∧ y.key ≠ k) ∧
      count (r.1.view F) b ≤ count (st.view F) b) := by
  rw [shiDelete]
  refine (metadata_spec h.reads h.cacheMeta hb).bind ?_
  rintro ⟨st₁, m⟩ ⟨hq₁, rfl⟩
  simp only at hq₁ ⊢
  have h₁ := h.quiet hq₁
  rw [← hq₁.view] at hg ⊢
  refine (shiFind_spec h₁.reads hb hg k).bind ?_
  rintro ⟨st₂, found⟩ ⟨hq₂, hfound⟩
  have hq : Quiet F st st₂ := hq₁.trans hq₂
  have h₂ := h₁.quiet hq₂
  rw [hq₁.view] at hg hfound ⊢
  simp only at hfound ⊢
  cases found with
  | none =>
    have hview : (st₂, out).1.view F = st.view F := hq.view
    refine Sat.ok ⟨hq.arranged h hg, fun y ↦ ?_, ?_⟩
    · rw [hview]
      exact ⟨fun hy ↦ ⟨hy, hfound y hy⟩, And.left⟩
    · rw [hview]
  | some e =>
    obtain ⟨s, d⟩ := e
    obtain ⟨hs, hd, rfl⟩ := hfound
    obtain ⟨t, ht, hord, hst, hcard, hout⟩ := delete_spec hg.ordered hg.capacity_pos
      (Nat.le_mul_self (metaAt (st.view F) b).capacity) hs hd
    refine (shiDeleteLoop_spec h₂ hb (by rw [hq.view]) hg.capacity_pos (le_of_lt hg.capacity_lt) hs
      (by rw [hq.view]; exact hd) (by rw [hq.view]; exact ht)).mono fun r hr ↦ ?_
    have hmv : Moved A F start b st t r := (hq.moved h b).trans hr
    refine ⟨hmv.arranged hb hg hord (fun a ha ↦ by rw [hout a ha, hg.outside a ha])
      (fun y hy ↦ hg.holds_entry ((hst y).mp hy).1), fun y ↦ (hmv.holds_iff hb y).trans (hst y), ?_⟩
    rw [hmv.count_eq hb, count]
    omega

theorem shiDelete_spec (h : Live A F start st out) (hg : GoodBucket H (st.view F) b)
    (hb : isValidDataBucket b) (k : Bytes) :
    Sat (st.shiDelete H b k out) A (Deleted H A F start b k st) :=
  (shiDelete_round h.toTracked hg hb k).mono fun _ hr ↦
    ⟨hr.1.effect h, hr.2.1, hr.1.metaAt_eq hb hb, hr.1.rehashed, hr.2.2⟩

def applyAll (M : Bytes → Option Bytes) (kvs : List (Bytes × Option Bytes)) : Bytes → Option Bytes :=
  kvs.foldl (fun M kv ↦ Function.update M kv.1 kv.2) M

def Fits (kvs : List (Bytes × Option Bytes)) : Prop :=
  ∀ kv ∈ kvs, ∀ x, kv.2 = some x → kv.1.length + x.length ≤ 92

def FitsOr (A : Fault → Prop) (kvs : List (Bytes × Option Bytes)) : Prop :=
  ∀ kv ∈ kvs, ∀ x, kv.2 = some x → kv.1.length + x.length ≤ 92 ∨ A (.panic .sliceOutOfRange)

theorem Fits.fitsOr {kvs : List (Bytes × Option Bytes)} (h : Fits kvs) : FitsOr A kvs :=
  fun kv hkv x hx ↦ .inl (h kv hkv x hx)

theorem Effect.holds_ne {r : EphemeralSaltState × StateUpdates} (h : Effect H A F start b st r)
    (hb : isValidDataBucket b) {b' : ℕ} (hb' : isValidDataBucket b') (hne : b' ≠ b) (v : SaltValue) :
    Holds (r.1.view F) b' v ↔ Holds (st.view F) b' v :=
  holds_congr (h.metaAt_ne hb hb' hne) (h.slots_ne hb hb' hne) v

def applyOne (H : Hasher) (fuel : ℕ) (acc : EphemeralSaltState × StateUpdates)
    (kv : Bytes × Option Bytes) : Except Fault (EphemeralSaltState × StateUpdates) :=
  match kv.2 with
  | some plainVal => acc.1.shiUpsert H fuel (H.bucketId kv.1) kv.1 plainVal acc.2
  | none => acc.1.shiDelete H (H.bucketId kv.1) kv.1 acc.2

inductive Applied (H : Hasher) (A : Fault → Prop) (F : Full) (start : SaltKey → Option SaltValue)
    (kv : Bytes × Option Bytes) (st : EphemeralSaltState) (r : EphemeralSaltState × StateUpdates) :
    Prop
  | upserted (x : Bytes) (v : SaltValue) (hx : kv.2 = some x) (hv : SaltValue.new kv.1 x = .ok v)
    (h : Upserted H A F start (H.bucketId kv.1) v st r)
  | deleted (hx : kv.2 = none) (h : Deleted H A F start (H.bucketId kv.1) kv.1 st r)

theorem Applied.effect {kv : Bytes × Option Bytes} {r : EphemeralSaltState × StateUpdates}
    (h : Applied H A F start kv st r) : Effect H A F start (H.bucketId kv.1) st r := by
  cases h with
  | upserted x v hx hv h => exact h.toEffect
  | deleted hx h => exact h.toEffect

theorem Applied.represents {kv : Bytes × Option Bytes} {r : EphemeralSaltState × StateUpdates}
    (h : Applied H A F start kv st r) (hM : Represents H (st.view F) M) :
    Represents H (r.1.view F) (Function.update M kv.1 kv.2) := by
  have hb := H.bucketId_data kv.1
  have hother := fun (b' : ℕ) (hb' : isValidDataBucket b') hne ↦ h.effect.holds_ne hb hb' hne
  cases h with
  | upserted x v hx hv h =>
    refine hM.change (fun y hy ↦ ?_) hother fun y ↦ ?_
    · rw [hx] at hy
      cases hy
      exact ⟨v, hv⟩
    · rw [h.holds, SaltValue.key_of_new hv]
      refine or_congr_left ⟨fun hy ↦ ⟨x, hx, hy ▸ hv⟩, ?_⟩
      rintro ⟨z, hz, hzv⟩
      rw [hx] at hz
      cases hz
      rw [hv] at hzv
      exact (Except.ok.inj hzv).symm
  | deleted hx h =>
    refine hM.change (fun y hy ↦ by rw [hx] at hy; cases hy) hother fun y ↦ ?_
    rw [h.holds]
    refine ⟨.inr, ?_⟩
    rintro (⟨z, hz, -⟩ | hy)
    · rw [hx] at hz
      cases hz
    · exact hy

theorem applyOne_spec {fuel n : ℕ} (hf : 2 ≤ fuel) (hA : Capped A n) (h : Live A F start st out)
    (hg : Good H (st.view F)) {kv : Bytes × Option Bytes}
    (hn : kv.2.isSome → Bounds (st.view F) (H.bucketId kv.1) kv.1 n)
    (hfit : ∀ x, kv.2 = some x → kv.1.length + x.length ≤ 92 ∨ A (.panic .sliceOutOfRange)) :
    Sat (applyOne H fuel (st, out) kv) A (Applied H A F start kv st) := by
  have hb := H.bucketId_data kv.1
  rw [applyOne]
  cases hx : kv.2 with
  | none => exact (shiDelete_spec h (hg _ hb) hb kv.1).mono fun r hr ↦ .deleted hx hr
  | some x =>
    have hn' := hn (by rw [hx]; rfl)
    by_cases hlong : kv.1.length + x.length ≤ 92
    · obtain ⟨v, hv, hk, hvx⟩ := SaltValue.new_ok hlong
      have hspec := shiUpsert_spec (v := v) hf hA h hg hb ⟨⟨_, _, hv⟩, by rw [hk]⟩ (hk.symm ▸ hn')
      rw [hk, hvx] at hspec
      exact hspec.mono fun r hr ↦ .upserted x v hx hv hr
    · obtain ⟨n, rfl⟩ : ∃ n, fuel = n + 1 := ⟨fuel - 1, by omega⟩
      have hnew : SaltValue.new kv.1 x = .error (.panic .sliceOutOfRange) := dif_neg hlong
      simp only [shiUpsert, hnew]
      exact Sat.error ((hfit x hx).resolve_left hlong)

end EphemeralSaltState

end Salt
