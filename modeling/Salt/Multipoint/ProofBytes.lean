import Salt.Multipoint.Multiproof
import Salt.Multipoint.IpaComplete
import Salt.Banderwagon.Encoding

namespace Salt.Multipoint

open Banderwagon Library.Triple

section Bytes

variable {q r : ℕ} [Fact q.Prime] (c : Curve q) (scalars : FieldCodec r)

/-- `next().unwrap()` on the iterator of 32-byte chunks: the chunk and what is left. -/
def nextChunk (bytes : Bytes) : Except DecodeError (Bytes × Bytes) :=
  if bytes.length < 32 then .error (.panic (.unwrap "called `Option::unwrap()` on a `None` value"))
  else .ok (bytes.take 32, bytes.drop 32)

def readPoints : ℕ → Bytes → Except DecodeError (List (Element q) × Bytes)
  | 0, bytes => .ok ([], bytes)
  | n + 1, bytes => do
    let next ← nextChunk bytes
    let point ← Element.fromBytes c next.1
    let others ← readPoints n next.2
    .ok (point :: others.1, others.2)

/-- The lengths are compared as `u32`. -/
def IPAProof.fromBytes (bytes : Bytes) (polyDegree : ℕ) :
    Except DecodeError (IPAProof (ZMod r) (Element q)) :=
  let numPoints := log2 polyDegree
  if (numPoints * 2 + 1) * 32 ≠ bytes.length % 2 ^ 32 then .error (.panic (.unwrap "assertion `left == right` failed"))
  else if bytes.length % 32 ≠ 0 then .error (.panic (.unwrap "assertion failed"))
  else do
    let left ← readPoints c numPoints bytes
    let right ← readPoints c numPoints left.2
    let last ← nextChunk right.2
    let a ← scalars.deserialize last.1
    .ok ⟨left.1, right.1, a⟩

def MultiPointProof.fromBytes (bytes : Bytes) (polyDegree : ℕ) :
    Except DecodeError (MultiPointProof (ZMod r) (Element q)) :=
  if bytes.length < 32 then .error (.panic .sliceOutOfRange)
  else do
    let gXComm ← Element.fromBytes c (bytes.take 32)
    let openProof ← IPAProof.fromBytes c scalars (bytes.drop 32) polyDegree
    .ok ⟨openProof, gXComm⟩

def encodePoints (points : List (Element q)) : Except Panic Bytes := do
  let parts ← points.mapM (Element.toBytes c)
  .ok parts.flatten

def IPAProof.toBytes (p : IPAProof (ZMod r) (Element q)) : Except Panic Bytes := do
  let left ← encodePoints c p.LVec
  let right ← encodePoints c p.RVec
  .ok (left ++ right ++ scalars.serialize p.a)

def MultiPointProof.toBytes (p : MultiPointProof (ZMod r) (Element q)) : Except Panic Bytes := do
  let gXComm ← p.gXComm.toBytes c
  let openProof ← p.openProof.toBytes c scalars
  .ok (gXComm ++ openProof)

def MultiPointProof.eq (p p' : MultiPointProof (ZMod r) (Element q)) : Bool :=
  p.openProof.LVec.isEqv p'.openProof.LVec Element.eq && p.openProof.RVec.isEqv p'.openProof.RVec Element.eq &&
    p.openProof.a = p'.openProof.a && p.gXComm.eq p'.gXComm

end Bytes

section Reading

variable {q r : ℕ} [Fact q.Prime] {c : Curve q} {scalars : FieldCodec r}

def chunk (bytes : Bytes) (i : ℕ) : Bytes := (bytes.drop (32 * i)).take 32

def IsPoint (c : Curve q) (bytes : Bytes) : Prop := ∃ e, Element.fromBytes c bytes = .ok e

def IsScalar (scalars : FieldCodec r) (bytes : Bytes) : Prop := ∃ a, scalars.deserialize bytes = .ok a

theorem chunk_drop (bytes : Bytes) (m i : ℕ) : chunk (bytes.drop (32 * m)) i = chunk bytes (m + i) := by
  rw [chunk, chunk, List.drop_drop, Nat.mul_add]

theorem take_succ_chunk (bytes : Bytes) (n : ℕ) :
    bytes.take (32 * (n + 1)) = bytes.take 32 ++ (bytes.drop 32).take (32 * n) := by
  rw [Nat.mul_succ, Nat.add_comm, List.take_add]

theorem fromBytes_cases (c : Curve q) (bytes : Bytes) :
    (∃ e, Element.fromBytes c bytes = .ok e) ∨
      (Element.fromBytes c bytes = .error .invalidData ∧ ¬ IsPoint c bytes) := by
  rcases h : Element.fromBytes c bytes with err | e
  · cases err with
    | invalidData =>
      refine Or.inr ⟨rfl, ?_⟩
      rintro ⟨e, he⟩
      rw [h] at he
      cases he
    | panic p => exact absurd h (Element.fromBytes_ne_panic c bytes p)
  · exact Or.inl ⟨e, rfl⟩

theorem deserialize_cases (scalars : FieldCodec r) (bytes : Bytes) :
    (∃ a, scalars.deserialize bytes = .ok a) ∨
      (scalars.deserialize bytes = .error .invalidData ∧ ¬ IsScalar scalars bytes) := by
  cases h : scalars.deserialize bytes with
  | ok a => exact Or.inl ⟨a, rfl⟩
  | error e =>
    obtain rfl := scalars.deserialize_error bytes e h
    refine Or.inr ⟨rfl, ?_⟩
    rintro ⟨a, ha⟩
    rw [h] at ha
    cases ha

theorem encodePoints_cons {e : Element q} {es : List (Element q)} {b bs : Bytes} (he : e.toBytes c = .ok b)
    (hes : encodePoints c es = .ok bs) : encodePoints c (e :: es) = .ok (b ++ bs) := by
  obtain ⟨parts, hparts, hbs⟩ := ok_of_bind hes
  cases hbs
  rw [encodePoints, List.mapM_cons, he, ok_bind, hparts]
  rfl

/-- Reading `n` points either takes `n` accepted chunks, which are the encoding of the points, or stops at
a rejected one. -/
theorem readPoints_cases (c : Curve q) (n : ℕ) (bytes : Bytes) (hlen : 32 * n ≤ bytes.length) :
    (∃ points, readPoints c n bytes = .ok (points, bytes.drop (32 * n)) ∧ points.length = n ∧
      encodePoints c points = .ok (bytes.take (32 * n)) ∧ ∀ i < n, IsPoint c (chunk bytes i)) ∨
    (readPoints c n bytes = .error .invalidData ∧ ∃ i < n, ¬ IsPoint c (chunk bytes i)) := by
  induction n generalizing bytes with
  | zero => exact Or.inl ⟨[], rfl, rfl, rfl, fun i hi ↦ absurd hi (Nat.not_lt_zero i)⟩
  | succ n ih =>
    have hnext : nextChunk bytes = .ok (bytes.take 32, bytes.drop 32) := if_neg (by omega)
    have hfirst : chunk bytes 0 = bytes.take 32 := rfl
    have hshift : ∀ i, chunk (bytes.drop 32) i = chunk bytes (i + 1) := by
      intro i
      rw [Nat.add_comm]
      exact chunk_drop bytes 1 i
    rw [readPoints, hnext, ok_bind]
    simp only
    rcases fromBytes_cases c (bytes.take 32) with ⟨e, he⟩ | ⟨herror, hnot⟩
    · rcases ih (bytes.drop 32) (by rw [List.length_drop]; omega) with
        ⟨points, hread, hlength, hencode, haccept⟩ | ⟨herror, i, hi, hnot⟩
      · refine Or.inl ⟨e :: points, ?_, by rw [List.length_cons, hlength], ?_, ?_⟩
        · rw [he, ok_bind, hread, ok_bind, List.drop_drop, Nat.mul_succ, Nat.add_comm]
        · rw [take_succ_chunk]
          exact encodePoints_cons (Element.fromBytes_sound he).2 hencode
        · intro i hi
          cases i with
          | zero => exact ⟨e, he⟩
          | succ i =>
            rw [← hshift]
            exact haccept i (by omega)
      · refine Or.inr ⟨by rw [he, ok_bind, herror]; rfl, i + 1, by omega, ?_⟩
        rwa [← hshift]
    · exact Or.inr ⟨by rw [herror]; rfl, 0, by omega, hnot⟩

theorem take_drop_append (bytes : Bytes) (n m : ℕ) :
    bytes.take (32 * n) ++ (bytes.drop (32 * n)).take (32 * m) = bytes.take (32 * (n + m)) := by
  rw [Nat.mul_add, List.take_add]

theorem ipa_fromBytes_cases (c : Curve q) (scalars : FieldCodec r) (k : ℕ) (bytes : Bytes)
    (hlen : bytes.length % 2 ^ 32 = (k * 2 + 1) * 32) :
    (∃ p, IPAProof.fromBytes c scalars bytes (2 ^ k) = .ok p ∧ p.LVec.length = k ∧ p.RVec.length = k ∧
      p.toBytes c scalars = .ok (bytes.take (32 * (2 * k + 1))) ∧ (∀ i < 2 * k, IsPoint c (chunk bytes i)) ∧
      IsScalar scalars (chunk bytes (2 * k))) ∨
    (IPAProof.fromBytes c scalars bytes (2 ^ k) = .error .invalidData ∧
      ((∃ i < 2 * k, ¬ IsPoint c (chunk bytes i)) ∨ ¬ IsScalar scalars (chunk bytes (2 * k)))) := by
  have hle : (k * 2 + 1) * 32 ≤ bytes.length := hlen ▸ Nat.mod_le _ _
  have hmod : bytes.length % 32 = 0 := by omega
  rw [IPAProof.fromBytes]
  simp only [log2_pow, hlen, ne_eq, not_true_eq_false, if_false, hmod]
  rcases readPoints_cases c k bytes (by omega) with ⟨L, hL, hLlen, hLbytes, hLpoints⟩ | ⟨herror, i, hi, hnot⟩
  · rcases readPoints_cases c k (bytes.drop (32 * k)) (by rw [List.length_drop]; omega) with
      ⟨R, hR, hRlen, hRbytes, hRpoints⟩ | ⟨herror, i, hi, hnot⟩
    · have hnext : nextChunk ((bytes.drop (32 * k)).drop (32 * k)) =
          .ok (chunk bytes (2 * k), ((bytes.drop (32 * k)).drop (32 * k)).drop 32) := by
        rw [nextChunk, if_neg (by rw [List.length_drop, List.length_drop]; omega), chunk, List.drop_drop,
          ← Nat.mul_add, ← two_mul]
      have hpoints : ∀ i < 2 * k, IsPoint c (chunk bytes i) := by
        intro i hi
        by_cases hik : i < k
        · exact hLpoints i hik
        · obtain ⟨j, rfl⟩ := Nat.exists_eq_add_of_le (Nat.not_lt.mp hik)
          rw [← chunk_drop]
          exact hRpoints j (by omega)
      rcases deserialize_cases scalars (chunk bytes (2 * k)) with ⟨a, ha⟩ | ⟨herror, hnot⟩
      · refine Or.inl ⟨⟨L, R, a⟩, ?_, hLlen, hRlen, ?_, hpoints, a, ha⟩
        · rw [hL, ok_bind, hR, ok_bind, hnext, ok_bind, ha]
          rfl
        · have hlast : scalars.serialize a = chunk bytes (2 * k) := (scalars.deserialize_iff _ _).mp ha
          have hall : bytes.take (32 * (k + k)) ++ chunk bytes (k + k) = bytes.take (32 * (k + k + 1)) :=
            take_drop_append bytes (k + k) 1
          rw [IPAProof.toBytes, hLbytes, ok_bind, hRbytes, ok_bind, hlast, take_drop_append, two_mul, hall]
      · exact Or.inr ⟨by rw [hL, ok_bind, hR, ok_bind, hnext, ok_bind, herror]; rfl, Or.inr hnot⟩
    · refine Or.inr ⟨by rw [hL, ok_bind, herror]; rfl, Or.inl ⟨k + i, by omega, ?_⟩⟩
      rwa [← chunk_drop]
  · exact Or.inr ⟨by rw [herror]; rfl, Or.inl ⟨i, by omega, hnot⟩⟩

/-- A proof's bytes as the format has them: the points, then the scalar, and nothing else. -/
structure WellFormed (c : Curve q) (scalars : FieldCodec r) (k : ℕ) (bytes : Bytes) : Prop where
  length_eq : bytes.length = 32 * (2 * k + 2)
  points : ∀ i < 2 * k + 1, IsPoint c (chunk bytes i)
  scalar : IsScalar scalars (chunk bytes (2 * k + 1))

/-- Decoding decides the format: it accepts what is well formed, refuses the rest with an error, and what it
accepts encodes to the input. -/
structure DecodesExactly (c : Curve q) (scalars : FieldCodec r) (k : ℕ) (bytes : Bytes) : Prop where
  accepts_iff : (∃ p, MultiPointProof.fromBytes c scalars bytes (2 ^ k) = .ok p) ↔ WellFormed c scalars k bytes
  total : ∀ p, MultiPointProof.fromBytes c scalars bytes (2 ^ k) ≠ .error (.panic p)
  inverse : ∀ p, MultiPointProof.fromBytes c scalars bytes (2 ^ k) = .ok p → p.toBytes c scalars = .ok bytes

theorem multi_fromBytes_cases (c : Curve q) (scalars : FieldCodec r) (k : ℕ) (hk : k < 64) (bytes : Bytes)
    (hlen : bytes.length % 2 ^ 32 = 32 * (2 * k + 2)) :
    (∃ p, MultiPointProof.fromBytes c scalars bytes (2 ^ k) = .ok p ∧ p.openProof.LVec.length = k ∧
      p.openProof.RVec.length = k ∧ p.toBytes c scalars = .ok (bytes.take (32 * (2 * k + 2))) ∧
      (∀ i < 2 * k + 1, IsPoint c (chunk bytes i)) ∧ IsScalar scalars (chunk bytes (2 * k + 1))) ∨
    (MultiPointProof.fromBytes c scalars bytes (2 ^ k) = .error .invalidData ∧
      ((∃ i < 2 * k + 1, ¬ IsPoint c (chunk bytes i)) ∨ ¬ IsScalar scalars (chunk bytes (2 * k + 1)))) := by
  have hle : 32 * (2 * k + 2) ≤ bytes.length := hlen ▸ Nat.mod_le _ _
  have hshift : ∀ i, chunk (bytes.drop 32) i = chunk bytes (i + 1) := by
    intro i
    rw [Nat.add_comm]
    exact chunk_drop bytes 1 i
  rw [MultiPointProof.fromBytes, if_neg (by omega)]
  rcases fromBytes_cases c (bytes.take 32) with ⟨e, he⟩ | ⟨herror, hnot⟩
  · rcases ipa_fromBytes_cases c scalars k (bytes.drop 32) (by rw [List.length_drop]; omega) with
      ⟨p, hp, hL, hR, hbytes, hpoints, hscalar⟩ | ⟨herror, hnot⟩
    · refine Or.inl ⟨⟨p, e⟩, ?_, hL, hR, ?_, ?_, ?_⟩
      · rw [he, ok_bind, hp]
        rfl
      · rw [MultiPointProof.toBytes, (Element.fromBytes_sound he).2, ok_bind, hbytes, ok_bind,
          ← take_succ_chunk]
      · intro i hi
        cases i with
        | zero => exact ⟨e, he⟩
        | succ i =>
          rw [← hshift]
          exact hpoints i (by omega)
      · rwa [← hshift]
    · refine Or.inr ⟨by rw [he, ok_bind, herror]; rfl, ?_⟩
      rcases hnot with ⟨i, hi, hnot⟩ | hnot
      · refine Or.inl ⟨i + 1, by omega, ?_⟩
        rwa [← hshift]
      · refine Or.inr ?_
        rwa [← hshift]
  · exact Or.inr ⟨by rw [herror]; rfl, Or.inl ⟨0, by omega, hnot⟩⟩

/-- A wrong length is a panic once the first point was accepted. -/
theorem multi_fromBytes_panics {k : ℕ} (hk : k < 64) {bytes : Bytes}
    (h : bytes.length < 32 ∨ (IsPoint c (chunk bytes 0) ∧ bytes.length % 2 ^ 32 ≠ 32 * (2 * k + 2))) :
    ∃ p, MultiPointProof.fromBytes c scalars bytes (2 ^ k) = .error (.panic p) := by
  rw [MultiPointProof.fromBytes]
  by_cases hshort : bytes.length < 32
  · exact ⟨_, if_pos hshort⟩
  · obtain ⟨⟨e, he⟩, hlen⟩ := h.resolve_left hshort
    have hassert : (k * 2 + 1) * 32 ≠ (bytes.drop 32).length % 2 ^ 32 := by
      rw [List.length_drop]
      omega
    have he' : Element.fromBytes c (bytes.take 32) = .ok e := he
    rw [if_neg hshort, he', ok_bind, IPAProof.fromBytes]
    simp only [log2_pow, if_pos hassert]
    exact ⟨_, rfl⟩

def Covered (c : Curve q) (scalars : FieldCodec r) (k : ℕ) (bytes : Bytes) : Prop :=
  32 ≤ bytes.length ∧ (¬ IsPoint c (chunk bytes 0) ∨ bytes.length = 32 * (2 * k + 2) ∨
    (bytes.length % 2 ^ 32 = 32 * (2 * k + 2) ∧
      ((∃ i < 2 * k + 1, ¬ IsPoint c (chunk bytes i)) ∨ ¬ IsScalar scalars (chunk bytes (2 * k + 1)))))

theorem decodesExactly_of_error {k : ℕ} {bytes : Bytes}
    (herror : MultiPointProof.fromBytes c scalars bytes (2 ^ k) = .error .invalidData)
    (hnot : (∃ i < 2 * k + 1, ¬ IsPoint c (chunk bytes i)) ∨ ¬ IsScalar scalars (chunk bytes (2 * k + 1))) :
    DecodesExactly c scalars k bytes := by
  constructor
  · constructor
    · rintro ⟨p, hp⟩
      rw [herror] at hp
      cases hp
    · intro hwf
      rcases hnot with ⟨i, hi, hnot⟩ | hnot
      · exact absurd (hwf.points i hi) hnot
      · exact absurd hwf.scalar hnot
  · intro p hp
    rw [herror] at hp
    cases hp
  · intro p hp
    rw [herror] at hp
    cases hp

theorem decodesExactly_iff (c : Curve q) (scalars : FieldCodec r) {k : ℕ} (hk : k < 64) (bytes : Bytes) :
    DecodesExactly c scalars k bytes ↔ Covered c scalars k bytes := by
  constructor
  · intro h
    have hnopanic : ¬ (bytes.length < 32 ∨
        (IsPoint c (chunk bytes 0) ∧ bytes.length % 2 ^ 32 ≠ 32 * (2 * k + 2))) := by
      intro hbad
      obtain ⟨p, hp⟩ := multi_fromBytes_panics hk hbad
      exact h.total p hp
    obtain ⟨hlong, hfirst⟩ := not_or.mp hnopanic
    refine ⟨by omega, ?_⟩
    by_cases hpoint : IsPoint c (chunk bytes 0)
    · have hlen : bytes.length % 2 ^ 32 = 32 * (2 * k + 2) := by
        by_contra hne
        exact hfirst ⟨hpoint, hne⟩
      rcases multi_fromBytes_cases c scalars k hk bytes hlen with ⟨p, hp, -⟩ | ⟨-, hnot⟩
      · exact Or.inr (Or.inl (h.accepts_iff.mp ⟨p, hp⟩).length_eq)
      · exact Or.inr (Or.inr ⟨hlen, hnot⟩)
    · exact Or.inl hpoint
  · rintro ⟨hlong, hpoint | hlen | ⟨hlen, hnot⟩⟩
    · rcases fromBytes_cases c (bytes.take 32) with he | ⟨herror, hnot⟩
      · exact absurd he hpoint
      · apply decodesExactly_of_error
        · rw [MultiPointProof.fromBytes, if_neg (by omega), herror]
          rfl
        · exact Or.inl ⟨0, by omega, hnot⟩
    · have hmod : bytes.length % 2 ^ 32 = 32 * (2 * k + 2) := by omega
      rcases multi_fromBytes_cases c scalars k hk bytes hmod with ⟨p, hp, -, -, hbytes, hpoints,
        hscalar⟩ | ⟨herror, hnot⟩
      · constructor
        · exact ⟨fun _ ↦ ⟨hlen, hpoints, hscalar⟩, fun _ ↦ ⟨p, hp⟩⟩
        · intro panic hpanic
          rw [hp] at hpanic
          cases hpanic
        · intro p' hp'
          rw [hp] at hp'
          cases hp'
          rw [hbytes, ← hlen, List.take_length]
      · exact decodesExactly_of_error herror hnot
    · rcases multi_fromBytes_cases c scalars k hk bytes hlen with ⟨p, -, -, -, -, hpoints, hscalar⟩ | ⟨herror, hnot⟩
      · rcases hnot with ⟨i, hi, hnot⟩ | hnot
        · exact absurd (hpoints i hi) hnot
        · exact absurd hscalar hnot
      · exact decodesExactly_of_error herror hnot

end Reading

section RoundTrip

variable {q r : ℕ} [Fact q.Prime] {c : Curve q} {scalars : FieldCodec r}

theorem readPoints_encodePoints {es : List (Element q)} (h : ∀ e ∈ es, Element.Valid c e) :
    ∃ bytes es', encodePoints c es = .ok bytes ∧ bytes.length = 32 * es.length ∧ es'.isEqv es Element.eq = true ∧
      ∀ rest, readPoints c es.length (bytes ++ rest) = .ok (es', rest) := by
  induction es with
  | nil => exact ⟨[], [], rfl, rfl, rfl, fun rest ↦ rfl⟩
  | cons e es ih =>
    obtain ⟨bs, es', hbs, hlen, heqv, hread⟩ := ih fun x hx ↦ h x (List.mem_cons_of_mem _ hx)
    obtain ⟨b, e', hb, hblen, hfrom, heq⟩ := Element.fromBytes_toBytes (h e (List.mem_cons_self ..))
    refine ⟨b ++ bs, e' :: es', encodePoints_cons hb hbs, ?_, ?_, ?_⟩
    · rw [List.length_append, hblen, hlen, List.length_cons]
      omega
    · simp only [List.isEqv, heq, heqv, Bool.and_self]
    · intro rest
      have hnext : nextChunk (b ++ bs ++ rest) = .ok (b, bs ++ rest) := by
        rw [nextChunk, if_neg (by rw [List.length_append, List.length_append, hblen]; omega), List.append_assoc,
          ← hblen, List.take_left', List.drop_left']
        · rfl
        · rfl
      rw [List.length_cons, readPoints, hnext, ok_bind]
      simp only [hfrom, hread rest, ok_bind]

theorem multi_fromBytes_toBytes (scalars : FieldCodec r) {k : ℕ} (hk : k < 64)
    (p : MultiPointProof (ZMod r) (Element q)) (hL : p.openProof.LVec.length = k)
    (hR : p.openProof.RVec.length = k) (hvL : ∀ e ∈ p.openProof.LVec, Element.Valid c e)
    (hvR : ∀ e ∈ p.openProof.RVec, Element.Valid c e) (hvg : Element.Valid c p.gXComm) :
    ∃ bytes p', p.toBytes c scalars = .ok bytes ∧ bytes.length = 32 * (2 * k + 2) ∧
      MultiPointProof.fromBytes c scalars bytes (2 ^ k) = .ok p' ∧ p'.eq p = true := by
  obtain ⟨bL, L, hbL, hlenL, heqL, hreadL⟩ := readPoints_encodePoints hvL
  obtain ⟨bR, R, hbR, hlenR, heqR, hreadR⟩ := readPoints_encodePoints hvR
  obtain ⟨bg, g, hbg, hleng, hfrom, heqg⟩ := Element.fromBytes_toBytes hvg
  rw [hL] at hlenL hreadL
  rw [hR] at hlenR hreadR
  have hlena := scalars.serialize_length p.openProof.a
  refine ⟨bg ++ (bL ++ bR ++ scalars.serialize p.openProof.a), ⟨⟨L, R, p.openProof.a⟩, g⟩, ?_, ?_, ?_, ?_⟩
  · rw [MultiPointProof.toBytes, hbg, ok_bind, IPAProof.toBytes, hbL, ok_bind, hbR]
    rfl
  · simp only [List.length_append, hleng, hlenL, hlenR, hlena]
    omega
  · have hipa : IPAProof.fromBytes c scalars (bL ++ bR ++ scalars.serialize p.openProof.a) (2 ^ k) =
        .ok ⟨L, R, p.openProof.a⟩ := by
      have hlen : (bL ++ bR ++ scalars.serialize p.openProof.a).length = (k * 2 + 1) * 32 := by
        rw [List.length_append, List.length_append, hlenL, hlenR, hlena]
        omega
      have hmod : (k * 2 + 1) * 32 % 2 ^ 32 = (k * 2 + 1) * 32 := Nat.mod_eq_of_lt (by omega)
      have hnext : nextChunk (scalars.serialize p.openProof.a) = .ok (scalars.serialize p.openProof.a, []) := by
        rw [nextChunk, if_neg (by omega), ← hlena, List.take_length, List.drop_length]
      rw [IPAProof.fromBytes]
      simp only [log2_pow, hlen, hmod, ne_eq, not_true_eq_false, if_false, Nat.mul_mod_left]
      rw [List.append_assoc, hreadL, ok_bind, hreadR, ok_bind, hnext, ok_bind, scalars.deserialize_serialize]
      rfl
    rw [MultiPointProof.fromBytes, if_neg (by rw [List.length_append, hleng]; omega), ← hleng, List.take_left',
      List.drop_left', hfrom, ok_bind, hipa]
    · rfl
    · rfl
    · rfl
  · simp only [MultiPointProof.eq, heqL, heqR, heqg, decide_true, Bool.and_self]

/-- Decoding does what the format says exactly on the covered strings; it inverts encoding. -/
theorem multipoint_decoding_exact_iff (c : Curve q) (scalars : FieldCodec r) {k : ℕ} (hk : k < 64) :
    (∀ bytes, DecodesExactly c scalars k bytes ↔ Covered c scalars k bytes) ∧
    ∀ p : MultiPointProof (ZMod r) (Element q), p.openProof.LVec.length = k → p.openProof.RVec.length = k →
      (∀ e ∈ p.openProof.LVec, Element.Valid c e) → (∀ e ∈ p.openProof.RVec, Element.Valid c e) →
      Element.Valid c p.gXComm →
      ∃ bytes p', p.toBytes c scalars = .ok bytes ∧ MultiPointProof.fromBytes c scalars bytes (2 ^ k) = .ok p' ∧
        p'.eq p = true := by
  refine ⟨decodesExactly_iff c scalars hk, fun p hL hR hvL hvR hvg ↦ ?_⟩
  obtain ⟨bytes, p', hbytes, -, hp', heq⟩ := multi_fromBytes_toBytes scalars hk p hL hR hvL hvR hvg
  exact ⟨bytes, p', hbytes, hp', heq⟩

theorem multipoint_decoding_exact_iff_trie : 2 ^ 8 = 256 ∧
    ∀ bytes, DecodesExactly bandersnatch scalarCodec 8 bytes ↔ Covered bandersnatch scalarCodec 8 bytes :=
  ⟨rfl, (multipoint_decoding_exact_iff bandersnatch scalarCodec (by norm_num)).1⟩

/-- The empty string makes the decoder panic. -/
theorem multipoint_decoding_empty : ¬ DecodesExactly bandersnatch scalarCodec 8 [] :=
  fun h ↦ h.total .sliceOutOfRange rfl

end RoundTrip

end Salt.Multipoint
