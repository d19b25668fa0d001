import Salt.Types
import Salt.Banderwagon.BaseField
import Salt.Library.TwistedEdwards
import Salt.Library.Triple

namespace Salt.Banderwagon

open Library.TwistedEdwards Library.Triple

inductive DecodeError
  | invalidData
  | panic (p : Panic)
deriving DecidableEq

/-- The canonical bytes of a field element, as the field library writes and reads them. -/
structure FieldCodec (q : ℕ) where
  serialize : ZMod q → Bytes
  deserialize : Bytes → Except DecodeError (ZMod q)
  serialize_length : ∀ x, (serialize x).length = 32
  deserialize_iff : ∀ bytes x, deserialize bytes = .ok x ↔ serialize x = bytes
  deserialize_error : ∀ bytes e, deserialize bytes = .error e → e = .invalidData

/-- `EdwardsProjective`: the affine point is `(x / z, y / z)`, and `t` is `x * y / z`. -/
structure Element (q : ℕ) where
  x : ZMod q
  y : ZMod q
  t : ZMod q
  z : ZMod q
deriving DecidableEq

def Element.affine {q : ℕ} [Fact q.Prime] (e : Element q) : ZMod q × ZMod q := (e.x / e.z, e.y / e.z)

/-- The twisted Edwards curve over `ZMod q` with what the curve library provides. Which of two square roots it returns
is left open. -/
structure Curve (q : ℕ) [Fact q.Prime] extends FieldCodec q where
  coeffA : ZMod q
  coeffD : ZMod q
  sqrt : ZMod q → Option (ZMod q)
  isQr : ZMod q → Bool
  toAffine : Element q → Except Panic (ZMod q × ZMod q)
  normalizeBatch : List (Element q) → List (ZMod q × ZMod q)
  nonsquare : ¬ IsSquare coeffD
  sqrt_sound : ∀ z y, sqrt z = some y → y ^ 2 = z
  sqrt_complete : ∀ z, IsSquare z → sqrt z ≠ none
  isQr_iff : ∀ z, isQr z = true ↔ z ≠ 0 ∧ IsSquare z
  toAffine_eq : ∀ e, e.z ≠ 0 → toAffine e = .ok e.affine
  normalizeBatch_eq : ∀ points, (∀ e ∈ points, e.z ≠ 0) → normalizeBatch points = points.map Element.affine

def isPositive {q : ℕ} (coordinate : ZMod q) : Bool := (-coordinate).val < coordinate.val

namespace Element

variable {q : ℕ} [Fact q.Prime] (c : Curve q)

def eq (e e' : Element q) : Bool :=
  if e.x = 0 ∧ e.y = 0 then false
  else if e'.x = 0 ∧ e'.y = 0 then false
  else e.x * e'.y = e'.x * e.y

def zero : Element q := ⟨0, 1, 0, 1⟩

def ofAffine (x y : ZMod q) : Element q := ⟨x, y, x * y, 1⟩

def toBytes (e : Element q) : Except Panic Bytes := do
  let affine ← c.toAffine e
  let x := if isPositive affine.2 then affine.1 else -affine.1
  .ok (c.serialize x).reverse

def getPointFromX (x : ZMod q) : Except DecodeError (Option (Element q)) :=
  let xSq := x ^ 2
  let denominator := c.coeffD * xSq - 1
  if denominator = 0 then .error (.panic (.unwrap "called `Option::unwrap()` on a `None` value"))
  else
    match c.sqrt ((c.coeffA * xSq - 1) / denominator) with
    | none => .ok none
    | some y => .ok (some (ofAffine x (if isPositive y then y else -y)))

def subgroupCheck (point : Element q) : Bool := c.isQr (1 - c.coeffA * point.x ^ 2)

def fromBytes (bytes : Bytes) : Except DecodeError (Element q) := do
  let x ← c.deserialize bytes.reverse
  match ← getPointFromX c x with
  | none => .error .invalidData
  | some point => if subgroupCheck c point then .ok point else .error .invalidData

def affineToCanonicalBytes (affine : ZMod q × ZMod q) : Bytes :=
  let canonical := if isPositive affine.2 then affine else (-affine.1, -affine.2)
  c.serialize canonical.1 ++ c.serialize canonical.2

def toBytesUncompressed (e : Element q) : Except Panic Bytes := do
  let affine ← c.toAffine e
  .ok (affineToCanonicalBytes c affine)

def batchToCommitments (elements : List (Element q)) : List Bytes :=
  (c.normalizeBatch elements).map (affineToCanonicalBytes c)

/-- The field element that `map_to_scalar_field` reduces to a scalar. -/
def ratio (e : Element q) : Except Panic (ZMod q) :=
  if e.y = 0 then .error (.unwrap "called `Option::unwrap()` on a `None` value") else .ok (e.x / e.y)

/-- A point of the curve, in any representation, with `1 - a * x ^ 2` a nonzero square. -/
structure Valid (e : Element q) : Prop where
  z_ne_zero : e.z ≠ 0
  t_eq : e.t * e.z = e.x * e.y
  onCurve : OnCurve c.coeffA c.coeffD (e.x / e.z) (e.y / e.z)
  square : IsSquare (1 - c.coeffA * (e.x / e.z) ^ 2)
  ne_zero : 1 - c.coeffA * (e.x / e.z) ^ 2 ≠ 0

def SameClass (e e' : Element q) : Prop := e.affine = e'.affine ∨ e.affine = -e'.affine

end Element

end Salt.Banderwagon
