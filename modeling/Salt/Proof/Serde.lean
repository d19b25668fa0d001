import Salt.Multipoint.ProofBytes
import Salt.Library.Entries

namespace Salt.Serde

open Std (ExtTreeMap)
open Banderwagon Multipoint Library.Triple Library.Entries

/-- A hash map as it is iterated: one entry for each key, in any order. -/
structure FxHashMap where
  entries : List (ℕ × ℕ)
  nodup : (entries.map Prod.fst).Nodup

inductive Error
  | custom (message : String)
  | panic (p : Panic)
deriving DecidableEq

structure Wire where
  parentsCommitments : List (ℕ × Bytes)
  proof : Bytes
  levels : List (ℕ × ℕ)
deriving DecidableEq

/-- The ranges of the types that are transported: `u64` and `[u8; 32]`, lengths, `u32` and `u8`. -/
structure Wire.Fits (w : Wire) : Prop where
  nodes : ∀ e ∈ w.parentsCommitments, e.1 < 2 ^ 64 ∧ e.2.length = 32
  nodesLength : w.parentsCommitments.length < 2 ^ 64
  proofLength : w.proof.length < 2 ^ 64
  buckets : ∀ e ∈ w.levels, e.1 < 2 ^ 32 ∧ e.2 < 256
  bucketsLength : w.levels.length < 2 ^ 64

structure Format where
  encode : Wire → Bytes
  decode : Bytes → Except String Wire
  decode_encode : ∀ w : Wire, w.Fits → decode (encode w) = .ok w

section Bincode

def readInt (n : ℕ) (bytes : Bytes) : Except String (ℕ × Bytes) :=
  if bytes.length < n then .error "unexpected end of data"
  else .ok (fromLeBytes (bytes.take n), bytes.drop n)

def readBytes (n : ℕ) (bytes : Bytes) : Except String (Bytes × Bytes) :=
  if bytes.length < n then .error "unexpected end of data" else .ok (bytes.take n, bytes.drop n)

def readMany {α : Type} (read : Bytes → Except String (α × Bytes)) :
    ℕ → Bytes → Except String (List α × Bytes)
  | 0, bytes => .ok ([], bytes)
  | n + 1, bytes => do
    let one ← read bytes
    let others ← readMany read n one.2
    .ok (one.1 :: others.1, others.2)

def readCommitment (bytes : Bytes) : Except String ((ℕ × Bytes) × Bytes) := do
  let node ← readInt 8 bytes
  let point ← readBytes 32 node.2
  .ok ((node.1, point.1), point.2)

def readLevel (bytes : Bytes) : Except String ((ℕ × ℕ) × Bytes) := do
  let bucket ← readInt 4 bytes
  let level ← readInt 1 bucket.2
  .ok ((bucket.1, level.1), level.2)

def writeCommitment (e : ℕ × Bytes) : Bytes := toLeBytes 8 e.1 ++ e.2

def writeLevel (e : ℕ × ℕ) : Bytes := toLeBytes 4 e.1 ++ toLeBytes 1 e.2

def bincodeEncode (w : Wire) : Bytes :=
  toLeBytes 8 w.parentsCommitments.length ++ (w.parentsCommitments.flatMap writeCommitment ++
    (toLeBytes 8 w.proof.length ++ (w.proof ++
      (toLeBytes 8 w.levels.length ++ w.levels.flatMap writeLevel))))

def bincodeDecode (bytes : Bytes) : Except String Wire := do
  let nodes ← readInt 8 bytes
  let commitments ← readMany readCommitment nodes.1 nodes.2
  let length ← readInt 8 commitments.2
  let proof ← readBytes length.1 length.2
  let buckets ← readInt 8 proof.2
  let levels ← readMany readLevel buckets.1 buckets.2
  .ok ⟨commitments.1, proof.1, levels.1⟩

theorem readInt_append {n x : ℕ} (hx : x < 256 ^ n) (rest : Bytes) :
    readInt n (toLeBytes n x ++ rest) = .ok (x, rest) := by
  have hlen := toLeBytes_length n x
  rw [readInt, if_neg (by rw [List.length_append, hlen]; omega), List.take_left' hlen, List.drop_left' hlen,
    fromLeBytes_toLeBytes hx]

theorem readBytes_append {n : ℕ} {b : Bytes} (hb : b.length = n) (rest : Bytes) :
    readBytes n (b ++ rest) = .ok (b, rest) := by
  rw [readBytes, if_neg (by rw [List.length_append]; omega), List.take_left' hb, List.drop_left' hb]

theorem readMany_append {α : Type} {read : Bytes → Except String (α × Bytes)} {write : α → Bytes} {l : List α}
    (h : ∀ a ∈ l, ∀ rest, read (write a ++ rest) = .ok (a, rest)) (rest : Bytes) :
    readMany read l.length (l.flatMap write ++ rest) = .ok (l, rest) := by
  induction l with
  | nil => rfl
  | cons a l ih =>
    rw [List.length_cons, readMany, List.flatMap_cons, List.append_assoc, h a (List.mem_cons_self ..), ok_bind,
      ih fun x hx ↦ h x (List.mem_cons_of_mem _ hx)]
    rfl

theorem bincodeDecode_encode (w : Wire) (h : w.Fits) : bincodeDecode (bincodeEncode w) = .ok w := by
  have hcommitment : ∀ e ∈ w.parentsCommitments, ∀ rest, readCommitment (writeCommitment e ++ rest) =
    .ok (e, rest) := by
    intro e he rest
    obtain ⟨hnode, hlen⟩ := h.nodes e he
    rw [readCommitment, writeCommitment, List.append_assoc, readInt_append hnode, ok_bind,
      readBytes_append hlen]
    rfl
  have hlevel : ∀ e ∈ w.levels, ∀ rest, readLevel (writeLevel e ++ rest) = .ok (e, rest) := by
    intro e he rest
    obtain ⟨hbucket, hlt⟩ := h.buckets e he
    rw [readLevel, writeLevel, List.append_assoc, readInt_append hbucket, ok_bind, readInt_append hlt]
    rfl
  have hlevels := readMany_append hlevel []
  rw [List.append_nil] at hlevels
  rw [bincodeDecode, bincodeEncode, readInt_append h.nodesLength, ok_bind, readMany_append hcommitment, ok_bind,
    readInt_append h.proofLength, ok_bind, readBytes_append rfl, ok_bind, readInt_append h.bucketsLength, ok_bind,
    hlevels]
  rfl

/-- The format of the tests: fixed-size little-endian integers, lengths before sequences and maps. -/
def bincode : Format := ⟨bincodeEncode, bincodeDecode, bincodeDecode_encode⟩

end Bincode

section Proofs

variable {q r : ℕ} [Fact q.Prime]

structure SaltProof (q r : ℕ) where
  parentsCommitments : ExtTreeMap ℕ (Element q)
  proof : MultiPointProof (ZMod r) (Element q)
  levels : FxHashMap

def domainSize : ℕ := 256

def serializeCommitment (c : Curve q) (e : ℕ × Element q) : Except Panic (ℕ × Bytes) := do
  let bytes ← e.2.toBytes c
  .ok (e.1, bytes)

def serializeLevels (map : FxHashMap) : List (ℕ × ℕ) := map.entries.mergeSort fun a b ↦ decide (a.1 ≤ b.1)

def SaltProof.serialize (f : Format) (c : Curve q) (scalars : FieldCodec r) (p : SaltProof q r) :
    Except Panic Bytes := do
  let commitments ← p.parentsCommitments.toList.mapM (serializeCommitment c)
  let proof ← p.proof.toBytes c scalars
  .ok (f.encode ⟨commitments, proof, serializeLevels p.levels⟩)

def mapErr {α : Type} (message : String) : Except DecodeError α → Except Error α
  | .ok a => .ok a
  | .error .invalidData => .error (.custom message)
  | .error (.panic p) => .error (.panic p)

def deserializeCommitment (c : Curve q) (e : ℕ × Bytes) : Except Error (ℕ × Element q) := do
  let element ← mapErr "invalid element bytes" (Element.fromBytes c e.2)
  .ok (e.1, element)

/-- The raw map is built first: of several entries for a node the last one stays, and only what stays is
decompressed. -/
def deserializeCommitments (c : Curve q) (entries : List (ℕ × Bytes)) :
    Except Error (ExtTreeMap ℕ (Element q)) := do
  let raw : ExtTreeMap ℕ Bytes := ExtTreeMap.ofList entries
  let commitments ← raw.toList.mapM (deserializeCommitment c)
  .ok (ExtTreeMap.ofList commitments)

def insertLevel (map : FxHashMap) (e : ℕ × ℕ) : Except Error FxHashMap :=
  if h : e.1 ∈ map.entries.map Prod.fst then .error (.custom "duplicate BucketId in levels")
  else .ok ⟨map.entries ++ [e], by
    rw [List.map_append]
    exact map.nodup.append (List.nodup_singleton _) fun b hb hb' ↦ h (List.mem_singleton.mp hb' ▸ hb)⟩

def deserializeLevels (entries : List (ℕ × ℕ)) : Except Error FxHashMap :=
  entries.foldlM insertLevel ⟨[], List.nodup_nil⟩

def decodeFormat (f : Format) (bytes : Bytes) : Except Error Wire :=
  match f.decode bytes with
  | .ok w => .ok w
  | .error message => .error (.custom message)

def SaltProof.deserialize (f : Format) (c : Curve q) (scalars : FieldCodec r) (bytes : Bytes) :
    Except Error (SaltProof q r) := do
  let w ← decodeFormat f bytes
  let commitments ← deserializeCommitments c w.parentsCommitments
  let proof ← mapErr "invalid data" (MultiPointProof.fromBytes c scalars w.proof domainSize)
  let levels ← deserializeLevels w.levels
  .ok ⟨commitments, proof, levels⟩

/-- The derived `PartialEq`: commitments as group elements, levels as a map. -/
structure SameContent (p p' : SaltProof q r) : Prop where
  commitments : List.Forall₂ (fun a b ↦ a.1 = b.1 ∧ a.2.eq b.2 = true) p.parentsCommitments.toList
    p'.parentsCommitments.toList
  proof : p.proof.eq p'.proof = true
  levels : p.levels.entries.Perm p'.levels.entries

structure SaltProof.Valid (c : Curve q) (p : SaltProof q r) : Prop where
  commitments : ∀ e ∈ p.parentsCommitments.toList, Element.Valid c e.2 ∧ e.1 < 2 ^ 64
  commitmentsLength : p.parentsCommitments.toList.length < 2 ^ 64
  left : p.proof.openProof.LVec.length = 8
  right : p.proof.openProof.RVec.length = 8
  leftValid : ∀ e ∈ p.proof.openProof.LVec, Element.Valid c e
  rightValid : ∀ e ∈ p.proof.openProof.RVec, Element.Valid c e
  gXCommValid : Element.Valid c p.proof.gXComm
  levels : ∀ e ∈ p.levels.entries, e.1 < 2 ^ 32 ∧ e.2 < 256
  levelsLength : p.levels.entries.length < 2 ^ 64

end Proofs

end Salt.Serde
