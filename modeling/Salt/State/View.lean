import Salt.State.Ephemeral
import Salt.Library.GreedyLayout
import Salt.Library.Triple

namespace Salt

open Library.ProbeRing Library.OrderedTable Library.GreedyLayout Library.Triple

/-- What a complete store holds: every entry and the number of used slots of every bucket. -/
structure Full where
  kv : SaltKey → Option SaltValue
  used : ℕ → ℕ

def metaOf : Option SaltValue → BucketMeta
  | none => BucketMeta.default
  | some v =>
    match BucketMeta.tryFrom v with
    | .ok m => m
    | .error _ => BucketMeta.default

theorem fromLeBytes_lt (l : Bytes) : fromLeBytes l < 256 ^ l.length := by
  induction l with
  | nil => simp [fromLeBytes]
  | cons b l ih =>
    have hb := b.isLt
    rw [List.length_cons, Nat.pow_succ]
    simp only [fromLeBytes]
    omega

theorem tryFrom_capacity_lt {v : SaltValue} {m : BucketMeta} (h : BucketMeta.tryFrom v = .ok m) :
    m.capacity < 2 ^ 64 ∧ m.used = none := by
  rw [BucketMeta.tryFrom, BucketMeta.tryFromBytes] at h
  split at h
  · cases h
  · rename_i hl
    cases h
    have hlt := fromLeBytes_lt (v.key.drop 4)
    rw [List.length_drop, show v.key.length - 4 = 8 by omega] at hlt
    exact ⟨by simpa using hlt, rfl⟩

theorem metaOf_bounds (o : Option SaltValue) :
    (metaOf o).capacity < 2 ^ 64 ∧ (metaOf o).used = none := by
  unfold metaOf
  split
  · simp [BucketMeta.default, minBucketSize]
  · split
    · exact tryFrom_capacity_lt (by assumption)
    · simp [BucketMeta.default, minBucketSize]

theorem metaOf_ofMeta {m : BucketMeta} (h : m.capacity < 2 ^ 64) :
    metaOf (some (SaltValue.ofMeta m)) = { m with used := none } := by
  rw [metaOf, BucketMeta.tryFrom_ofMeta h]

@[simp]
theorem metaOf_metaOf (o : Option SaltValue) :
    metaOf (some (SaltValue.ofMeta (metaOf o))) = metaOf o := by
  obtain ⟨h₁, h₂⟩ := metaOf_bounds o
  rw [metaOf_ofMeta h₁, ← h₂]

/-- Entries with metadata made explicit, so that absence and the default look the same. -/
def normalize (w : SaltKey → Option SaltValue) (k : SaltKey) : Option SaltValue :=
  if k.isInMetaBucket then some (SaltValue.ofMeta (metaOf (w k))) else w k

theorem normalize_meta {w : SaltKey → Option SaltValue} {k : SaltKey} (h : k.isInMetaBucket = true) :
    normalize w k = some (SaltValue.ofMeta (metaOf (w k))) := by simp [normalize, h]

theorem normalize_data {w : SaltKey → Option SaltValue} {k : SaltKey}
    (h : k.isInMetaBucket = false) : normalize w k = w k := by simp [normalize, h]

def metaAt (w : SaltKey → Option SaltValue) (b : ℕ) : BucketMeta := metaOf (w (metadataKey b))

theorem metaAt_normalize (w : SaltKey → Option SaltValue) {b : ℕ} (hb : isValidDataBucket b) :
    metaAt (normalize w) b = metaAt w b := by
  rw [metaAt, normalize_meta (metadataKey_inMeta hb), metaOf_metaOf, metaAt]

def slots (w : SaltKey → Option SaltValue) (b s : ℕ) : Option SaltValue :=
  if s < 2 ^ 40 then w (SaltKey.ofPair b s) else none

theorem slots_eq {w : SaltKey → Option SaltValue} {b s : ℕ} (hs : s < 2 ^ 40) :
    slots w b s = w (SaltKey.ofPair b s) := if_pos hs

section Updates

variable {w w' : SaltKey → Option SaltValue} {b : ℕ}

theorem slots_update (hb : b < 2 ^ 24) {s : ℕ} (hs : s < 2 ^ 40) (x : Option SaltValue) :
    slots (Function.update w (SaltKey.ofPair b s) x) b = Function.update (slots w b) s x := by
  funext a
  by_cases has : a = s
  · subst has
    rw [slots_eq hs, Function.update_self, Function.update_self]
  · rw [Function.update_of_ne has]
    unfold slots
    split
    · rename_i ha
      rw [Function.update_of_ne]
      intro he
      exact has ((SaltKey.ofPair_inj hb hb ha hs).mp he).2
    · rfl

theorem slots_congr (hb : b < 2 ^ 24) (h : ∀ k : SaltKey, k.bucketId = b → w' k = w k) :
    slots w' b = slots w b := by
  funext s
  unfold slots
  split
  · exact h _ (SaltKey.bucketId_ofPair hb (by assumption))
  · rfl

theorem slots_update_of_ne (hb : b < 2 ^ 24) {k : SaltKey} (hk : k.bucketId ≠ b)
    (x : Option SaltValue) : slots (Function.update w k x) b = slots w b :=
  slots_congr hb fun j hj ↦ Function.update_of_ne (by rintro rfl; exact hk hj) _ _

theorem metaAt_update_of_ne {k : SaltKey} (hk : k ≠ metadataKey b) (x : Option SaltValue) :
    metaAt (Function.update w k x) b = metaAt w b := by
  rw [metaAt, Function.update_of_ne (Ne.symm hk), metaAt]

end Updates

variable (H : Hasher)

def home (w : SaltKey → Option SaltValue) (b : ℕ) (k : Bytes) : ℕ :=
  H.hashWithNonce k (metaAt w b).nonce

structure GoodBucket (w : SaltKey → Option SaltValue) (b : ℕ) : Prop where
  capacity_pos : 0 < (metaAt w b).capacity
  capacity_le : (metaAt w b).capacity ≤ bucketSlotIdMask
  ordered : Ordered (metaAt w b).capacity (home H w b) SaltValue.key (slots w b)
  outside : ∀ s, (metaAt w b).capacity ≤ s → slots w b s = none
  entry : ∀ s v, slots w b s = some v → v.WellFormed ∧ H.bucketId v.key = b

def Good (w : SaltKey → Option SaltValue) : Prop := ∀ b, isValidDataBucket b → GoodBucket H w b

def Holds (w : SaltKey → Option SaltValue) (b : ℕ) (v : SaltValue) : Prop :=
  Stored (metaAt w b).capacity (slots w b) v

def count (w : SaltKey → Option SaltValue) (b : ℕ) : ℕ :=
  (occupied (metaAt w b).capacity (slots w b)).card

variable {H} {w w' : SaltKey → Option SaltValue} {b : ℕ}

theorem GoodBucket.capacity_lt (h : GoodBucket H w b) : (metaAt w b).capacity < 2 ^ 40 := by
  have := h.capacity_le
  simp only [bucketSlotIdMask] at this
  omega

theorem GoodBucket.congr (h : GoodBucket H w b) (hm : metaAt w' b = metaAt w b)
    (hs : slots w' b = slots w b) : GoodBucket H w' b := by
  have hh : home H w' b = home H w b := by
    funext k
    rw [home, hm, home]
  exact ⟨hm ▸ h.capacity_pos, hm ▸ h.capacity_le, by rw [hm, hs, hh]; exact h.ordered,
    by rw [hm, hs]; exact h.outside, by rw [hs]; exact h.entry⟩

theorem GoodBucket.slot_lt (h : GoodBucket H w b) {s : ℕ} {v : SaltValue}
    (hv : slots w b s = some v) : s < (metaAt w b).capacity := by
  by_contra hn
  rw [h.outside s (by omega)] at hv
  cases hv

theorem GoodBucket.holds_iff (h : GoodBucket H w b) {v : SaltValue} :
    Holds w b v ↔ ∃ s, slots w b s = some v :=
  ⟨fun ⟨s, _, hv⟩ ↦ ⟨s, hv⟩, fun ⟨s, hv⟩ ↦ ⟨s, h.slot_lt hv, hv⟩⟩

theorem GoodBucket.holds_entry (h : GoodBucket H w b) {v : SaltValue} (hv : Holds w b v) :
    v.WellFormed ∧ H.bucketId v.key = b := by
  obtain ⟨s, _, hs⟩ := hv
  exact h.entry s v hs

theorem holds_congr (hm : metaAt w' b = metaAt w b) (hs : slots w' b = slots w b) (v : SaltValue) :
    Holds w' b v ↔ Holds w b v := by rw [Holds, Holds, hm, hs]

theorem count_congr (hm : metaAt w' b = metaAt w b) (hs : slots w' b = slots w b) :
    count w' b = count w b := by rw [count, count, hm, hs]

theorem slots_normalize (w : SaltKey → Option SaltValue) (hb : isValidDataBucket b) :
    slots (normalize w) b = slots w b := by
  funext a
  unfold slots
  split
  · exact normalize_data (ofPair_not_inMeta hb (by assumption))
  · rfl

theorem count_normalize (w : SaltKey → Option SaltValue) (hb : isValidDataBucket b) :
    count (normalize w) b = count w b :=
  count_congr (metaAt_normalize w hb) (slots_normalize w hb)

theorem GoodBucket.slots_eq_of_holds (h : GoodBucket H w b) (h' : GoodBucket H w' b)
    (hn : (metaAt w' b).nonce = (metaAt w b).nonce)
    (hc : (metaAt w' b).capacity = (metaAt w b).capacity)
    (he : ∀ v, Holds w b v ↔ Holds w' b v) : slots w b = slots w' b := by
  have hh : home H w' b = home H w b := by
    funext k
    rw [home, hn, home]
  have ho := h'.ordered
  rw [hh, hc] at ho
  have heq := h.ordered.canonical ho h.capacity_pos (by simpa only [Holds, hc] using he)
  funext s
  by_cases hs : s < (metaAt w b).capacity
  · exact heq s hs
  · rw [h.outside s (by omega), h'.outside s (by omega)]

end Salt
