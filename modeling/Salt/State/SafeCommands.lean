import Salt.State.Interaction

namespace Salt

open Std (ExtTreeMap)
open Library.Commands Library.Commands.Program
open Library.ProbeRing (probe probe_lt)

/-- Capacities that the buckets may have, and whether a program may be a whole call, which starts new updates or
forgets cached metadata. -/
structure CapacityRule where
  fits : ℕ → ℕ → Prop
  /-- Every slot of a bucket has a key of 64 bits. -/
  key_lt : ∀ b c, isValidDataBucket b → fits b c → b * 2 ^ 40 + c ≤ 2 ^ 64
  grow : ∀ b c c', isValidDataBucket b → fits b c → c ≤ c' → c' ≤ bucketSlotIdMask → fits b c'
  calls : Prop

namespace CapacityRule

variable (R : CapacityRule)

def Recordable (key : SaltKey) (oldValue newValue : Option SaltValue) : Prop :=
  key.isInMetaBucket = false ∨
    ∃ b m m', isValidDataBucket b ∧ key = metadataKey b ∧ R.fits b m.capacity ∧ R.fits b m'.capacity ∧
      oldValue = some (SaltValue.ofMeta m) ∧ newValue = some (SaltValue.ofMeta m')

def Admits : SessionCommand → Prop
  | .value key => key.isInMetaBucket = false
  | .updateValue key oldValue newValue => R.Recordable key oldValue newValue
  | .cacheInsert key _ => key.isInMetaBucket = false
  | .cacheRemove _ => R.calls
  | .replaceUpdates _ => R.calls
  | .add key oldValue newValue => R.Recordable key oldValue newValue
  | _ => True

def Expects : (c : SessionCommand) → c.Answer → Prop
  | .shapeOf b, r => ∀ m, r = .ok m → isValidDataBucket b ∧ R.fits b m.capacity
  | .plainValueFast _, r => ∀ saltKey, r = .ok saltKey → saltKey.isInMetaBucket = false
  | _, _ => True

def Keeps {α : Type} (p : SessionProgram α) (post : α → Prop) : Prop := p.Safe R.Admits R.Expects post

end CapacityRule

theorem ofPair_data {b c slot : ℕ} (hb : isValidDataBucket b) (hc : b * 2 ^ 40 + c ≤ 2 ^ 64) (hslot : slot < c) :
    (SaltKey.ofPair b slot).isInMetaBucket = false := by
  have hval : (SaltKey.ofPair b slot).val = b * 2 ^ 40 + slot := by
    change (b * 2 ^ 40 + slot) % 2 ^ 64 = _
    exact Nat.mod_eq_of_lt (by omega)
  rw [SaltKey.isInMetaBucket, SaltKey.bucketId_eq, hval]
  rw [dataBucket_iff] at hb
  exact decide_eq_false (show ¬ (b * 2 ^ 40 + slot) / 2 ^ 40 < 2 ^ 16 by omega)

theorem le_resizeLoop {fuel capacity used c : ℕ} (h : resizeLoop fuel capacity used = .ok c) : capacity ≤ c := by
  induction fuel generalizing capacity with
  | zero => cases h
  | succ fuel ih =>
    rw [resizeLoop] at h
    split_ifs at h
    · have := ih h
      change capacity * 2 ≤ c at this
      omega
    · cases h
      exact le_rfl

namespace Interaction

variable {R : CapacityRule} {H : Hasher} {b c : ℕ}

section Basic

theorem keeps_pure {α : Type} {post : α → Prop} {a : α} (h : post a) : R.Keeps (Pure.pure a) post := h

theorem keeps_ofExcept {α : Type} (r : Except Fault α) : R.Keeps (Program.ofExcept r) fun a ↦ r = .ok a :=
  Safe.ofExcept fun _ h ↦ h

theorem keeps_value {key : SaltKey} (h : key.isInMetaBucket = false) : R.Keeps (value key) fun _ ↦ True :=
  ⟨h, fun _ _ ↦ Safe.ofExcept fun _ _ ↦ trivial⟩

theorem keeps_slot (hb : isValidDataBucket b) (hc : R.fits b c) {slot : ℕ} (hslot : slot < c) :
    R.Keeps (value (SaltKey.ofPair b slot)) fun _ ↦ True :=
  keeps_value (ofPair_data hb (R.key_lt b c hb hc) hslot)

theorem keeps_updateValue {key : SaltKey} {o n : Option SaltValue} (h : R.Recordable key o n) :
    R.Keeps (updateValue key o n) fun _ ↦ True :=
  ⟨h, fun _ _ ↦ Safe.ofExcept fun _ _ ↦ trivial⟩

theorem keeps_add {key : SaltKey} {o n : Option SaltValue} (h : R.Recordable key o n) :
    R.Keeps (add key o n) fun _ ↦ True :=
  ⟨h, fun _ _ ↦ Safe.ofExcept fun _ _ ↦ trivial⟩

theorem keeps_metadataKey : R.Keeps (Program.ofExcept (bucketMetadataKey b)) fun key ↦ key = metadataKey b := by
  refine Safe.ofExcept fun key hkey ↦ ?_
  unfold bucketMetadataKey at hkey
  split_ifs at hkey
  cases hkey
  rfl

theorem keeps_updateSlot (hb : isValidDataBucket b) (hc : R.fits b c) {slot : ℕ} (hslot : slot < c)
    (o n : Option SaltValue) : R.Keeps (updateValue (SaltKey.ofPair b slot) o n) fun _ ↦ True :=
  keeps_updateValue (.inl (ofPair_data hb (R.key_lt b c hb hc) hslot))

theorem keeps_attempted {α : Type} {r : Except Fault α} {P : α → Prop} (h : ∀ a, r = .ok a → P a) :
    R.Keeps (attempted r) fun o ↦ ∀ a, o = some a → P a := by
  rcases r with (_ | _) | a
  · exact keeps_pure fun _ ha ↦ nomatch ha
  · trivial
  · exact keeps_pure fun a' ha ↦ h a' (by cases ha; rfl)

theorem keeps_metadata (needUsed : Bool) :
    R.Keeps (metadata b needUsed) fun m ↦ isValidDataBucket b ∧ R.fits b m.capacity := by
  refine ⟨trivial, fun r hr ↦ ?_⟩
  refine Safe.bind (Safe.ofExcept hr) fun m hm ↦ ?_
  cases needUsed with
  | false => exact hm
  | true => exact ⟨trivial, fun _ _ ↦ (Safe.ofExcept fun _ _ ↦ hm).bind fun _ _ ↦ hm⟩

theorem keeps_tryDirectFind (key : Bytes) :
    R.Keeps (tryDirectFind key) fun r ↦ ∀ saltKey v, r = some (saltKey, v) → saltKey.isInMetaBucket = false := by
  refine ⟨trivial, fun r hr ↦ ?_⟩
  refine (keeps_attempted hr).bind fun direct hdirect ↦ ?_
  rcases direct with _ | saltKey
  · exact keeps_pure fun _ _ h ↦ nomatch h
  refine ⟨hdirect saltKey rfl, fun r _ ↦ ?_⟩
  refine (keeps_attempted (P := fun _ ↦ True) fun _ _ ↦ trivial).bind fun entry _ ↦ ?_
  rcases entry with _ | _ | v
  · exact keeps_pure fun _ _ h ↦ nomatch h
  · exact keeps_pure fun _ _ h ↦ nomatch h
  · dsimp only
    split_ifs
    · refine keeps_pure fun saltKey' v' h ↦ ?_
      cases h
      exact hdirect saltKey rfl
    · exact keeps_pure fun _ _ h ↦ nomatch h

end Basic

section Reading

theorem keeps_shiSearchLoop (hb : isValidDataBucket b) (hc : R.fits b c) (h : ℕ) (key : Bytes) (n step : ℕ)
    (hn : n ≤ c) :
    R.Keeps (shiSearchLoop b h c key n step) fun r ↦ ∀ slot v, r = some (slot, v) → slot < c := by
  induction n generalizing step with
  | zero => exact keeps_pure fun _ _ h ↦ nomatch h
  | succ n ih =>
    have hslot : probe h step c < c := probe_lt (by omega) h step
    refine (keeps_slot hb hc hslot).bind fun entry _ ↦ ?_
    rcases entry with _ | v
    · exact keeps_pure fun _ _ h ↦ nomatch h
    · dsimp only
      split_ifs
      · exact keeps_pure fun _ _ h ↦ nomatch h
      · refine keeps_pure fun slot v' hv ↦ ?_
        cases hv
        exact hslot
      · exact ih (step + 1) (by omega)

theorem keeps_shiFind (hb : isValidDataBucket b) (hc : R.fits b c) (nonce : UInt32) (key : Bytes) :
    R.Keeps (shiFind H b nonce c key) fun r ↦ ∀ slot v, r = some (slot, v) → slot < c :=
  keeps_shiSearchLoop hb hc _ key c 0 le_rfl

theorem keeps_find (key : Bytes) : R.Keeps (find H key) fun _ ↦ True := by
  refine (keeps_tryDirectFind key).bind fun direct _ ↦ ?_
  rcases direct with _ | r
  · refine (keeps_metadata false).bind fun m hm ↦ ?_
    exact (keeps_shiFind hm.1 hm.2 m.nonce key).bind fun _ _ ↦ trivial
  · trivial

theorem keeps_plainValue (key : Bytes) : R.Keeps (plainValue H key) fun _ ↦ True :=
  (keeps_find key).bind fun _ _ ↦ trivial

theorem keeps_readBucket (hb : isValidDataBucket b) (hc : R.fits b c) : R.Keeps (readBucket b c) fun _ ↦ True := by
  refine Safe.foldlM trivial fun slot hslot bucket _ ↦ ?_
  refine (keeps_slot hb hc (List.mem_range.mp hslot)).bind fun entry _ ↦ ?_
  rcases entry with _ | v <;> trivial

end Reading

section Writing

theorem keeps_shiUpsertLoop (hb : isValidDataBucket b) (hc : R.fits b c) (h n step : ℕ) (v : SaltValue) (hn : n ≤ c) :
    R.Keeps (shiUpsertLoop b h c n step v) fun _ ↦ True := by
  induction n generalizing step v with
  | zero => trivial
  | succ n ih =>
    have hslot : probe h step c < c := probe_lt (by omega) h step
    refine (keeps_slot hb hc hslot).bind fun entry _ ↦ ?_
    rcases entry with _ | old
    · exact (keeps_updateSlot hb hc hslot _ _).bind fun _ _ ↦ trivial
    · dsimp only
      split_ifs
      · exact (keeps_updateSlot hb hc hslot _ _).bind fun _ _ ↦ trivial
      · exact (keeps_updateSlot hb hc hslot _ _).bind fun _ _ ↦ ih (step + 1) old (by omega)
      · exact ih (step + 1) v (by omega)

theorem keeps_recordRehash (hb : isValidDataBucket b) {c' : ℕ} (hc : R.fits b c) (hc' : R.fits b c')
    (old new : ExtTreeMap SaltKey SaltValue) : R.Keeps (recordRehash b c c' old new) fun _ ↦ True := by
  refine Safe.foldlM trivial fun slot hslot _ _ ↦ ?_
  have hdata : (SaltKey.ofPair b slot).isInMetaBucket = false := by
    rcases lt_max_iff.mp (List.mem_range.mp hslot) with hs | hs
    · exact ofPair_data hb (R.key_lt b c hb hc) hs
    · exact ofPair_data hb (R.key_lt b c' hb hc') hs
  dsimp only
  generalize (if slot < c then old[SaltKey.ofPair b slot]? else none) = o
  generalize (if slot < c' then new[SaltKey.ofPair b slot]? else none) = n
  split_ifs
  · exact ⟨hdata, fun _ _ ↦ keeps_add (.inl hdata)⟩
  · exact ⟨hdata, fun _ _ ↦ trivial⟩
  · exact keeps_add (.inl hdata)
  · trivial

theorem keeps_shiRehash {nonce : UInt32}
    (hc : ∀ old, isValidDataBucket b → R.fits b old → c ≤ bucketSlotIdMask → R.fits b c) :
    R.Keeps (shiRehash H b nonce c) fun _ ↦ True := by
  unfold shiRehash
  split_ifs with hmask
  · trivial
  refine (keeps_metadata true).bind fun m hm ↦ ?_
  have hfits := hc m.capacity hm.1 hm.2 (by omega)
  refine (keeps_readBucket hm.1 hm.2).bind fun bucket _ ↦ ?_
  dsimp only
  split_ifs
  · trivial
  refine (keeps_ofExcept _).bind fun new _ ↦ ?_
  refine (keeps_recordRehash hm.1 hm.2 hfits bucket new).bind fun _ _ ↦ ?_
  refine keeps_metadataKey.bind fun key hkey ↦ ?_
  refine (keeps_updateValue (.inr ⟨b, m, { m with nonce := nonce, capacity := c }, hm.1, hkey, hm.2, hfits, rfl,
    rfl⟩)).bind fun _ _ ↦ ?_
  exact ⟨trivial, fun _ _ ↦ trivial⟩

theorem keeps_grow {nonce : UInt32} {c' : ℕ} (hc : R.fits b c) (hle : c ≤ c') :
    R.Keeps (shiRehash H b nonce c') fun _ ↦ True :=
  keeps_shiRehash fun _ hb _ hmask ↦ R.grow b c c' hb hc hle hmask

theorem keeps_shiUpsert (fuel b : ℕ) (key val : Bytes) : R.Keeps (shiUpsert H fuel b key val) fun _ ↦ True := by
  induction fuel generalizing key val with
  | zero => trivial
  | succ fuel ih =>
    refine (keeps_ofExcept _).bind fun v _ ↦ ?_
    refine (keeps_tryDirectFind key).bind fun direct hdirect ↦ ?_
    rcases direct with _ | ⟨saltKey, old⟩
    · refine (keeps_metadata false).bind fun m hm ↦ ?_
      refine (keeps_shiUpsertLoop hm.1 hm.2 _ _ 0 v le_rfl).bind fun probed _ ↦ ?_
      cases probed with
      | updated => trivial
      | inserted =>
        refine ⟨trivial, fun r _ ↦ ?_⟩
        refine (keeps_attempted (P := fun _ ↦ True) fun _ _ ↦ trivial).bind fun used _ ↦ ?_
        rcases used with _ | used
        · trivial
        dsimp only
        split_ifs
        · refine (keeps_ofExcept _).bind fun c' hc' ↦ ?_
          exact keeps_grow hm.2 (le_resizeLoop hc')
        · trivial
      | exhausted displaced =>
        refine (keeps_ofExcept _).bind fun c' hc' ↦ ?_
        exact (keeps_grow hm.2 (le_resizeLoop hc')).bind fun _ _ ↦ ih _ _
    · exact keeps_updateValue (.inl (hdirect saltKey old rfl))

theorem keeps_shiNextLoop (hb : isValidDataBucket b) (hc : R.fits b c) (del : ℕ) (nonce : UInt32) (n i : ℕ)
    (hn : n ≤ c) :
    R.Keeps (shiNextLoop H b del nonce c n i) fun r ↦ ∀ slot v, r = some (slot, v) → slot < c := by
  induction n generalizing i with
  | zero => exact keeps_pure fun _ _ h ↦ nomatch h
  | succ n ih =>
    have hslot : probe del i c < c := probe_lt (by omega) del i
    refine (keeps_slot hb hc hslot).bind fun entry _ ↦ ?_
    rcases entry with _ | v
    · exact keeps_pure fun _ _ h ↦ nomatch h
    · dsimp only
      split_ifs
      · refine keeps_pure fun slot v' hv ↦ ?_
        cases hv
        exact hslot
      · exact ih (i + 1) (by omega)

theorem keeps_shiDeleteLoop (hb : isValidDataBucket b) (hc : R.fits b c) (nonce : UInt32) (n del : ℕ) (v : SaltValue)
    (hdel : del < c) : R.Keeps (shiDeleteLoop H b nonce c n del v) fun _ ↦ True := by
  induction n generalizing del v with
  | zero => trivial
  | succ n ih =>
    refine (keeps_shiNextLoop hb hc del nonce _ 1 (Nat.sub_le c 1)).bind fun suitable hsuitable ↦ ?_
    rcases suitable with _ | ⟨slot, moved⟩
    · exact keeps_updateSlot hb hc hdel _ _
    · exact (keeps_updateSlot hb hc hdel _ _).bind fun _ _ ↦ ih slot moved (hsuitable slot moved rfl)

theorem keeps_shiDelete (b : ℕ) (key : Bytes) : R.Keeps (shiDelete H b key) fun _ ↦ True := by
  refine (keeps_metadata false).bind fun m hm ↦ ?_
  refine (keeps_shiFind hm.1 hm.2 m.nonce key).bind fun found hfound ↦ ?_
  rcases found with _ | ⟨slot, v⟩
  · trivial
  · exact keeps_shiDeleteLoop hm.1 hm.2 m.nonce _ slot v (hfound slot v rfl)

theorem keeps_updateEach (fuel : ℕ) (kvs : List (Bytes × Option Bytes)) :
    R.Keeps (updateEach H fuel kvs) fun _ ↦ True := by
  refine Safe.foldlM trivial fun kv _ _ _ ↦ ?_
  rcases kv with ⟨key, _ | val⟩
  · exact keeps_shiDelete _ key
  · exact keeps_shiUpsert fuel _ key val

theorem keeps_update (h : R.calls) (fuel : ℕ) (kvs : List (Bytes × Option Bytes)) :
    R.Keeps (update H fuel kvs) fun _ ↦ True :=
  ⟨h, fun _ _ ↦ (keeps_updateEach fuel kvs).bind fun _ _ ↦ ⟨h, fun _ _ ↦ trivial⟩⟩

theorem keeps_drainBucket (hb : isValidDataBucket b) (hc : R.fits b c) :
    R.Keeps (drainBucket b c) fun _ ↦ True := by
  refine Safe.foldlM trivial fun slot hslot pairs _ ↦ ?_
  have hslot := List.mem_range.mp hslot
  have hdata := ofPair_data hb (R.key_lt b c hb hc) hslot
  refine (keeps_slot hb hc hslot).bind fun entry _ ↦ ?_
  rcases entry with _ | v
  · trivial
  · exact ⟨hdata, fun _ _ ↦ ⟨.inl hdata, fun _ _ ↦ (keeps_ofExcept _).bind fun _ _ ↦ trivial⟩⟩

theorem keeps_canonicalizeBucket (h : R.calls) (fuel b : ℕ) :
    R.Keeps (canonicalizeBucket H fuel b) fun _ ↦ True := by
  refine (keeps_metadata false).bind fun m hm ↦ ?_
  refine (keeps_drainBucket hm.1 hm.2).bind fun pairs _ ↦ ?_
  refine keeps_metadataKey.bind fun key hkey ↦ ?_
  refine ⟨h, fun _ _ ↦ ?_⟩
  refine (keeps_metadata false).bind fun m' hm' ↦ ?_
  refine (keeps_add (.inr ⟨b, m, m', hm.1, hkey, hm.2, hm'.2, rfl, rfl⟩)).bind fun _ _ ↦ ?_
  exact ⟨trivial, fun _ _ ↦ Safe.foldlM trivial fun v _ _ _ ↦ keeps_shiUpsert fuel b v.key v.value⟩

theorem keeps_canonicalize (h : R.calls) (fuel : ℕ) (order : List ℕ → List ℕ) :
    R.Keeps (canonicalize H fuel order) fun _ ↦ True := by
  refine ⟨h, fun _ _ ↦ ⟨trivial, fun buckets _ ↦ ?_⟩⟩
  have hbuckets : R.Keeps ((order buckets).foldlM (fun _ b ↦ canonicalizeBucket H fuel b) ()) fun _ ↦ True :=
    Safe.foldlM trivial fun b _ _ _ ↦ keeps_canonicalizeBucket h fuel b
  refine hbuckets.bind fun _ _ ↦ ?_
  exact ⟨trivial, fun _ _ ↦ ⟨h, fun _ _ ↦ trivial⟩⟩

theorem keeps_updateFin (h : R.calls) (fuel : ℕ) (order : List ℕ → List ℕ) (kvs : List (Bytes × Option Bytes)) :
    R.Keeps (updateFin H fuel order kvs) fun _ ↦ True :=
  (keeps_update h fuel kvs).bind fun _ _ ↦ (keeps_canonicalize h fuel order).bind fun _ _ ↦
    Safe.ofExcept fun _ _ ↦ trivial

theorem keeps_shiRehashInto (h : R.calls) {nonce : UInt32}
    (hc : ∀ old, isValidDataBucket b → R.fits b old → c ≤ bucketSlotIdMask → R.fits b c) (out : StateUpdates) :
    R.Keeps (shiRehashInto H b nonce c out) fun _ ↦ True :=
  ⟨h, fun _ _ ↦ (keeps_shiRehash hc).bind fun _ _ ↦ ⟨h, fun _ _ ↦ trivial⟩⟩

theorem keeps_setNonce (h : R.calls) (b : ℕ) (nonce : UInt32) : R.Keeps (setNonce H b nonce) fun _ ↦ True :=
  (keeps_metadata false).bind fun _ hm ↦ keeps_shiRehashInto h (fun _ _ _ _ ↦ hm.2) .empty

end Writing

end Interaction

end Salt
