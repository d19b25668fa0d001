import Salt.Types

namespace Salt.Multipoint

structure TranscriptProtocol (T F E : Type) where
  challengeScalar : T → Bytes → F × T
  appendPoint : T → Bytes → E → T
  appendScalar : T → Bytes → F → T
  domainSep : T → Bytes → T

def label (s : String) : Bytes := s.toList.map fun c ↦ Fin.ofNat 256 c.toNat

/-- The encodings and the hash that a transcript uses: compressed points and scalars, and the
digest reduced to a scalar. -/
structure Codec (F E : Type) where
  pointBytes : E → Bytes
  scalarBytes : F → Bytes
  digest : Bytes → F

structure Transcript where
  state : Bytes

namespace Transcript

variable {F E : Type}

def appendMessage (t : Transcript) (message label : Bytes) : Transcript :=
  ⟨t.state ++ label ++ message⟩

def domainSep (t : Transcript) (label : Bytes) : Transcript := ⟨t.state ++ label⟩

def appendPoint (c : Codec F E) (t : Transcript) (label : Bytes) (point : E) : Transcript :=
  t.appendMessage (c.pointBytes point) label

def appendScalar (c : Codec F E) (t : Transcript) (label : Bytes) (scalar : F) : Transcript :=
  t.appendMessage (c.scalarBytes scalar) label

def challengeScalar (c : Codec F E) (t : Transcript) (label : Bytes) : F × Transcript :=
  let scalar := c.digest (t.domainSep label).state
  (scalar, appendScalar c ⟨[]⟩ label scalar)

def protocol (c : Codec F E) : TranscriptProtocol Transcript F E where
  challengeScalar := challengeScalar c
  appendPoint := appendPoint c
  appendScalar := appendScalar c
  domainSep := domainSep

end Transcript

end Salt.Multipoint
