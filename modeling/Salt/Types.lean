import Mathlib.Data.List.Lex
import Mathlib.Order.Fin.Basic
import Mathlib.Order.Compare
import Mathlib.Tactic.Common
import Mathlib.Tactic.NormNum

namespace Salt

open Std (ExtTreeMap)

abbrev Byte := Fin 256

instance neZero_byte : NeZero 256 := ⟨by decide⟩

abbrev Bytes := List Byte

def cmpBytes (a b : Bytes) : Ordering := (LinearOrder.toOrd (α := Bytes)).compare a b

instance : Std.TransCmp cmpBytes :=
  inferInstanceAs (Std.TransCmp (LinearOrder.toOrd (α := Bytes)).compare)

instance : Std.LawfulEqCmp cmpBytes where
  eq_of_compare h := (compare_eq_iff_eq (α := Bytes)).mp h

theorem cmpBytes_lt {a b : Bytes} : cmpBytes a b = .lt ↔ a < b := compare_lt_iff_lt (α := Bytes)

abbrev BytesMap (β : Type) := ExtTreeMap Bytes β cmpBytes

/-! Constants of the data structure. -/

abbrev minBucketSize : ℕ := 256
abbrev metaBucketSize : ℕ := 256
abbrev mainTrieLevels : ℕ := 4
abbrev maxSubtreeLevels : ℕ := 5
abbrev trieWidth : ℕ := 256
abbrev numBuckets : ℕ := 2 ^ 24
abbrev numMetaBuckets : ℕ := 2 ^ 16
abbrev bucketSlotBits : ℕ := 40
abbrev bucketSlotIdMask : ℕ := 2 ^ 40 - 1
abbrev bucketResizeLoadFactorPct : ℕ := 80
abbrev bucketResizeMultiplier : ℕ := 2
abbrev maxSaltValueBytes : ℕ := 94


/-- A 64-bit storage key: bucket id in the high 24 bits, slot id in the low 40. -/
structure SaltKey where
  val : ℕ
  lt : val < 2 ^ 64
deriving DecidableEq

namespace SaltKey

instance : Ord SaltKey := ⟨fun a b ↦ compare a.val b.val⟩

instance : Std.TransOrd SaltKey := inferInstanceAs (Std.TransCmp (compareOn SaltKey.val))

@[ext]
theorem ext {a b : SaltKey} (h : a.val = b.val) : a = b := by
  cases a
  cases b
  simp_all

instance : Std.LawfulEqOrd SaltKey where
  eq_of_compare h := ext (Std.LawfulEqOrd.eq_of_compare (α := ℕ) h)

theorem compare_lt {a b : SaltKey} : compare a b = .lt ↔ a.val < b.val :=
  Nat.compare_eq_lt

def bucketId (k : SaltKey) : ℕ := k.val / 2 ^ bucketSlotBits

def slotId (k : SaltKey) : ℕ := k.val % 2 ^ bucketSlotBits

def isInMetaBucket (k : SaltKey) : Bool := k.bucketId < numMetaBuckets

def ofPair (b : ℕ) (s : ℕ) : SaltKey :=
  ⟨(b * 2 ^ bucketSlotBits + s) % 2 ^ 64, Nat.mod_lt _ (by norm_num)⟩

theorem bucketId_eq (k : SaltKey) : k.bucketId = k.val / 2 ^ 40 := rfl

theorem slotId_eq (k : SaltKey) : k.slotId = k.val % 2 ^ 40 := rfl

theorem ofPair_val {b s : ℕ} (hb : b < 2 ^ 24) (hs : s < 2 ^ 40) :
    (ofPair b s).val = b * 2 ^ 40 + s :=
  Nat.mod_eq_of_lt (show b * 2 ^ 40 + s < 2 ^ 64 by omega)

@[simp]
theorem bucketId_ofPair {b s : ℕ} (hb : b < 2 ^ 24) (hs : s < 2 ^ 40) :
    (ofPair b s).bucketId = b := by
  rw [bucketId_eq, ofPair_val hb hs]
  omega

@[simp]
theorem slotId_ofPair {b s : ℕ} (hb : b < 2 ^ 24) (hs : s < 2 ^ 40) :
    (ofPair b s).slotId = s := by
  rw [slotId_eq, ofPair_val hb hs]
  omega

theorem bucketId_lt (k : SaltKey) : k.bucketId < 2 ^ 24 := by
  have := k.lt
  rw [bucketId_eq]
  omega

theorem slotId_lt (k : SaltKey) : k.slotId < 2 ^ 40 := Nat.mod_lt _ (by norm_num)

theorem ofPair_eta (k : SaltKey) : ofPair k.bucketId k.slotId = k := by
  apply ext
  rw [ofPair_val k.bucketId_lt k.slotId_lt, bucketId_eq, slotId_eq]
  omega

theorem ofPair_inj {b b' s s' : ℕ} (hb : b < 2 ^ 24) (hb' : b' < 2 ^ 24) (hs : s < 2 ^ 40)
    (hs' : s' < 2 ^ 40) : ofPair b s = ofPair b' s' ↔ b = b' ∧ s = s' := by
  constructor
  · intro h
    have h₁ := congrArg bucketId h
    have h₂ := congrArg slotId h
    rw [bucketId_ofPair hb hs, bucketId_ofPair hb' hs'] at h₁
    rw [slotId_ofPair hb hs, slotId_ofPair hb' hs'] at h₂
    exact ⟨h₁, h₂⟩
  · rintro ⟨rfl, rfl⟩
    rfl

end SaltKey

/-- A 94-byte record `key_len | value_len | key | value | padding`. -/
structure SaltValue where
  data : Bytes
  size : data.length = maxSaltValueBytes
deriving DecidableEq

inductive SaltError
  | invalidFormat (message : String)
  | notInWitness (what : String)
  | unsupportedOperation (operation : String)
  | unchainedTransition (key : SaltKey) (expected actual : Option SaltValue)
deriving DecidableEq

/-- The ways the code stops without returning: a failed assertion or `expect`, an out-of-range
slice, or a loop that never ends. -/
inductive Panic
  | exceedsMaxBucketCapacity (newCapacity : ℕ)
  | usageCountNegative
  | unchained (err : SaltError)
  | notDataBucket (bucketId : ℕ)
  | metadataDecode
  | metadataNone
  | sliceOutOfRange
  | underflow
  | indexOutOfRange
  | unwrap (message : String)
  | diverges
deriving DecidableEq

inductive Fault
  | err (e : SaltError)
  | panic (p : Panic)
deriving DecidableEq

/-- `if let Ok(..)` and `.ok()`: an error becomes `none`, a panic stays a panic. -/
def attempt {α : Type} : Except Fault α → Except Fault (Option α)
  | .ok a => .ok (some a)
  | .error (.err _) => .ok none
  | .error (.panic p) => .error (.panic p)

namespace SaltValue

/-- `copy_from_slice` past the end of the array panics. -/
def new (key value : Bytes) : Except Fault SaltValue :=
  if h : key.length + value.length ≤ 92 then
    .ok ⟨(Fin.ofNat 256 key.length :: Fin.ofNat 256 value.length :: key ++ value) ++
      List.replicate (92 - (key.length + value.length)) 0, by simp [maxSaltValueBytes]; omega⟩
  else .error (.panic .sliceOutOfRange)

def keyLen (v : SaltValue) : ℕ := (v.data.getD 0 0).val

def valueLen (v : SaltValue) : ℕ := (v.data.getD 1 0).val

/-- The key bytes; the slice is in range exactly when `2 + keyLen ≤ 94`. -/
def key (v : SaltValue) : Bytes := (v.data.drop 2).take v.keyLen

def value (v : SaltValue) : Bytes := (v.data.drop (2 + v.keyLen)).take v.valueLen

def WellFormed (v : SaltValue) : Prop := ∃ k x, new k x = .ok v

theorem new_ok {k x : Bytes} (h : k.length + x.length ≤ 92) :
    ∃ v, new k x = .ok v ∧ v.key = k ∧ v.value = x := by
  rw [new, dif_pos h]
  refine ⟨_, rfl, ?_, ?_⟩
  · have hk : k.length % 256 = k.length := Nat.mod_eq_of_lt (by omega)
    simp [key, keyLen, Fin.ofNat, hk]
  · have hk : k.length % 256 = k.length := Nat.mod_eq_of_lt (by omega)
    have hx : x.length % 256 = x.length := Nat.mod_eq_of_lt (by omega)
    have hd : ∀ (a b : Byte) (l : Bytes), (a :: b :: l).drop (2 + k.length) = l.drop k.length := by
      intro a b l
      rw [Nat.add_comm]
      rfl
    simp [value, keyLen, valueLen, Fin.ofNat, hk, hx, hd]

theorem fits_of_new {k x : Bytes} {v : SaltValue} (h : new k x = .ok v) :
    k.length + x.length ≤ 92 := by
  by_contra hn
  rw [new, dif_neg hn] at h
  cases h

theorem key_of_new {k x : Bytes} {v : SaltValue} (h : new k x = .ok v) : v.key = k := by
  obtain ⟨v', hv', hk, _⟩ := new_ok (fits_of_new h)
  rw [h] at hv'
  cases hv'
  exact hk

theorem value_of_new {k x : Bytes} {v : SaltValue} (h : new k x = .ok v) : v.value = x := by
  obtain ⟨v', hv', _, hx⟩ := new_ok (fits_of_new h)
  rw [h] at hv'
  cases hv'
  exact hx

theorem WellFormed.new_eq {v : SaltValue} (h : v.WellFormed) : new v.key v.value = .ok v := by
  obtain ⟨k, x, h⟩ := h
  rw [key_of_new h, value_of_new h, h]

theorem WellFormed.ext {v w : SaltValue} (hv : v.WellFormed) (hw : w.WellFormed)
    (hk : v.key = w.key) (hx : v.value = w.value) : v = w := by
  have h := hv.new_eq
  rw [hk, hx, hw.new_eq] at h
  exact (Except.ok.inj h).symm

end SaltValue

/-! Little-endian integers. -/

def toLeBytes : ℕ → ℕ → Bytes
  | 0, _ => []
  | n + 1, x => Fin.ofNat 256 x :: toLeBytes n (x / 256)

def fromLeBytes : Bytes → ℕ
  | [] => 0
  | b :: l => b.val + 256 * fromLeBytes l

theorem toLeBytes_length (n x : ℕ) : (toLeBytes n x).length = n := by
  induction n generalizing x with
  | zero => rfl
  | succ n ih => simp [toLeBytes, ih]

theorem fromLeBytes_toLeBytes {n x : ℕ} (h : x < 256 ^ n) : fromLeBytes (toLeBytes n x) = x := by
  induction n generalizing x with
  | zero =>
    rw [Nat.pow_zero] at h
    simp [toLeBytes, fromLeBytes]
    omega
  | succ n ih =>
    rw [Nat.pow_succ] at h
    simp only [toLeBytes, fromLeBytes, Fin.ofNat]
    rw [ih (by omega)]
    omega

theorem toLeBytes_fromLeBytes (l : Bytes) : toLeBytes l.length (fromLeBytes l) = l := by
  induction l with
  | nil => rfl
  | cons b l ih =>
    have hdiv : (b.val + 256 * fromLeBytes l) / 256 = fromLeBytes l := by omega
    have hhead : Fin.ofNat 256 (b.val + 256 * fromLeBytes l) = b := by
      apply Fin.ext
      simp only [Fin.ofNat]
      omega
    rw [List.length_cons, toLeBytes, fromLeBytes, hdiv, ih, hhead]

structure BucketMeta where
  nonce : UInt32
  capacity : ℕ
  used : Option ℕ
deriving DecidableEq

namespace BucketMeta

def default : BucketMeta := ⟨0, minBucketSize, none⟩

def toBytes (m : BucketMeta) : Bytes := toLeBytes 4 m.nonce.toNat ++ toLeBytes 8 m.capacity

def isDefault (m : BucketMeta) : Bool := m.nonce = 0 ∧ m.capacity = minBucketSize

def tryFromBytes (bytes : Bytes) : Except Fault BucketMeta :=
  if bytes.length ≠ 12 then
    .error (.err (.invalidFormat "BucketMeta requires exactly 12 bytes"))
  else
    .ok ⟨UInt32.ofNat (fromLeBytes (bytes.take 4)), fromLeBytes (bytes.drop 4), none⟩

def tryFrom (v : SaltValue) : Except Fault BucketMeta := tryFromBytes v.key

theorem toBytes_length (m : BucketMeta) : m.toBytes.length = 12 := by
  simp [toBytes, toLeBytes_length]

theorem tryFromBytes_toBytes {m : BucketMeta} (h : m.capacity < 2 ^ 64) :
    tryFromBytes m.toBytes = .ok { m with used := none } := by
  have hn : m.nonce.toNat < 256 ^ 4 := by simpa using m.nonce.toNat_lt
  rw [tryFromBytes, if_neg (by simp [toBytes_length])]
  have ht : m.toBytes.take 4 = toLeBytes 4 m.nonce.toNat := by
    rw [toBytes, List.take_left' (toLeBytes_length ..)]
  have hd : m.toBytes.drop 4 = toLeBytes 8 m.capacity := by
    rw [toBytes, List.drop_left' (toLeBytes_length ..)]
  rw [ht, hd, fromLeBytes_toLeBytes hn, fromLeBytes_toLeBytes (by simpa using h), UInt32.ofNat_toNat]

end BucketMeta

/-- `From<BucketMeta> for SaltValue`: the twelve metadata bytes as a key with an empty value. -/
def SaltValue.ofMeta (m : BucketMeta) : SaltValue :=
  ⟨(12 :: 0 :: m.toBytes) ++ List.replicate 80 0, by
    simp [BucketMeta.toBytes_length]⟩

theorem SaltValue.new_toBytes (m : BucketMeta) :
    SaltValue.new m.toBytes [] = .ok (SaltValue.ofMeta m) := by
  have h : m.toBytes.length = 12 := m.toBytes_length
  rw [SaltValue.new, dif_pos (by simp [h])]
  simp [SaltValue.ofMeta, h]

theorem SaltValue.key_ofMeta (m : BucketMeta) : (SaltValue.ofMeta m).key = m.toBytes :=
  SaltValue.key_of_new (SaltValue.new_toBytes m)

theorem BucketMeta.tryFrom_ofMeta {m : BucketMeta} (h : m.capacity < 2 ^ 64) :
    BucketMeta.tryFrom (SaltValue.ofMeta m) = .ok { m with used := none } := by
  rw [BucketMeta.tryFrom, SaltValue.key_ofMeta, BucketMeta.tryFromBytes_toBytes h]

theorem SaltValue.ofMeta_used (m : BucketMeta) (u : Option ℕ) :
    SaltValue.ofMeta { m with used := u } = SaltValue.ofMeta m := rfl

def isValidDataBucket (b : ℕ) : Bool := numMetaBuckets ≤ b ∧ b < numBuckets

def metadataKey (b : ℕ) : SaltKey := SaltKey.ofPair (b / 256) (b % minBucketSize)

def bucketMetadataKey (b : ℕ) : Except Fault SaltKey :=
  if isValidDataBucket b then .ok (metadataKey b) else .error (.panic (.notDataBucket b))

def bucketIdFromMetadataKey (k : SaltKey) : ℕ := k.bucketId * 256 + k.slotId

section DataBuckets

variable {b b' : ℕ}

theorem dataBucket_iff : isValidDataBucket b = true ↔ 2 ^ 16 ≤ b ∧ b < 2 ^ 24 := by
  simp [isValidDataBucket, numMetaBuckets, numBuckets]

theorem dataBucket_lt (hb : isValidDataBucket b) : b < 2 ^ 24 := (dataBucket_iff.mp hb).2

theorem metadataKey_bucketId (hb : isValidDataBucket b) : (metadataKey b).bucketId = b / 256 := by
  rw [dataBucket_iff] at hb
  exact SaltKey.bucketId_ofPair (by omega) (show b % 256 < 2 ^ 40 by omega)

theorem metadataKey_slotId (hb : isValidDataBucket b) : (metadataKey b).slotId = b % 256 := by
  rw [dataBucket_iff] at hb
  exact SaltKey.slotId_ofPair (by omega) (show b % 256 < 2 ^ 40 by omega)

theorem metadataKey_inMeta (hb : isValidDataBucket b) : (metadataKey b).isInMetaBucket = true := by
  rw [SaltKey.isInMetaBucket, metadataKey_bucketId hb]
  rw [dataBucket_iff] at hb
  exact decide_eq_true (show b / 256 < 2 ^ 16 by omega)

theorem metadataKey_inj (hb : isValidDataBucket b) (hb' : isValidDataBucket b')
    (h : metadataKey b = metadataKey b') : b = b' := by
  have h₁ := congrArg SaltKey.bucketId h
  have h₂ := congrArg SaltKey.slotId h
  rw [metadataKey_bucketId hb, metadataKey_bucketId hb'] at h₁
  rw [metadataKey_slotId hb, metadataKey_slotId hb'] at h₂
  omega

theorem bucketIdFromMetadataKey_metadataKey (hb : isValidDataBucket b) :
    bucketIdFromMetadataKey (metadataKey b) = b := by
  rw [bucketIdFromMetadataKey, metadataKey_bucketId hb, metadataKey_slotId hb]
  omega

theorem ofPair_not_inMeta (hb : isValidDataBucket b) {s : ℕ} (hs : s < 2 ^ 40) :
    (SaltKey.ofPair b s).isInMetaBucket = false := by
  rw [dataBucket_iff] at hb
  rw [SaltKey.isInMetaBucket, SaltKey.bucketId_ofPair hb.2 hs]
  exact decide_eq_false (show ¬ b < 2 ^ 16 by omega)

end DataBuckets

end Salt
