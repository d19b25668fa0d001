import Salt.Multipoint.Transcript
import Salt.Library.Chunks
import Salt.Library.InnerProduct
import Salt.Library.Triple
import Mathlib.Data.Nat.Log

namespace Salt.Multipoint

open Library.Chunks Library.InnerProduct Library.Triple

inductive MultipointPanic
  | unequalLengths
  | notPowerOfTwo
  | inverseOfZero
  | indexOutOfRange
  | chunkSizeZero
  | emptyReduce
  | i32OutOfRange
  | subtractOverflow
  deriving DecidableEq

structure CRS (E : Type) where
  n : ℕ
  G : List E
  Q : E
  size : G.length = n

structure IPAProof (F E : Type) where
  LVec : List E
  RVec : List E
  a : F

section Arithmetic

variable {F E : Type} [Field F] [AddCommGroup E] [Module F E]

def innerProduct (a b : List F) : Except MultipointPanic F :=
  if a.length = b.length then .ok (List.zipWith (· * ·) a b).sum else .error .unequalLengths

def multiScalarMul (bases : List E) (scalars : List F) : Except MultipointPanic E :=
  if bases.length = scalars.length then .ok (List.zipWith (· • ·) scalars bases).sum
  else .error .unequalLengths

def slowVartimeMultiscalarMul (scalars : List F) (points : List E) : Except MultipointPanic E :=
  multiScalarMul points scalars

def sliceChunks {α : Type} (l : List α) (size : ℕ) : Except MultipointPanic (List (List α)) :=
  if size = 0 then .error .chunkSizeZero else .ok (chunks size l)

def divCeil (n d : ℕ) : ℕ := (n + d - 1) / d

def halve {α : Type} (scalars : List α) : List α × List α :=
  (scalars.take (scalars.length / 2), scalars.drop (scalars.length / 2))

def log2 (n : ℕ) : ℕ := Nat.clog 2 n

def inverse [DecidableEq F] (x : F) : Except MultipointPanic F :=
  if x = 0 then .error .inverseOfZero else .ok x⁻¹

def foldGenerators (threads : ℕ) (xInv : F) (GLeft GRight : List E) : Except MultipointPanic (List E) := do
  let chunkSize := divCeil GLeft.length threads
  let left ← sliceChunks GLeft chunkSize
  let right ← sliceChunks GRight chunkSize
  .ok (List.zipWith (List.zipWith fun gL gR ↦ gL + xInv • gR) left right).flatten

def toBits (n bitsNeeded : ℕ) : List ℕ := ((List.range bitsNeeded).map fun i ↦ (n >>> i) % 2).reverse

end Arithmetic

section Protocol

variable {T F E : Type} [Field F] [AddCommGroup E] [Module F E] [DecidableEq F] [DecidableEq E]
  (P : TranscriptProtocol T F E)

def createRound (Q : E) (a b : List F) (G : List E) (transcript : T) :
    Except MultipointPanic (E × E × F × T) := do
  let (aL, aR) := halve a
  let (bL, bR) := halve b
  let (GLeft, GRight) := halve G
  let zL ← innerProduct aR bL
  let L ← slowVartimeMultiscalarMul (aR ++ [zL]) (GLeft ++ [Q])
  let zR ← innerProduct aL bR
  let R ← slowVartimeMultiscalarMul (aL ++ [zR]) (GRight ++ [Q])
  let transcript := P.appendPoint transcript (label "L") L
  let transcript := P.appendPoint transcript (label "R") R
  let (x, transcript) := P.challengeScalar transcript (label "x")
  .ok (L, R, x, transcript)

def foldScalars (x : F) (a : List F) : List F :=
  let (aL, aR) := halve a
  List.zipWith (fun l r ↦ l + x * r) aL aR

def createRounds (threads : ℕ) (Q : E) : ℕ → List F → List F → List E → T →
    Except MultipointPanic (IPAProof F E × T)
  | 0, a, _, _, transcript =>
    match a with
    | a₀ :: _ => .ok (⟨[], [], a₀⟩, transcript)
    | [] => .error .indexOutOfRange
  | rounds + 1, a, b, G, transcript => do
    let (L, R, x, transcript) ← createRound P Q a b G transcript
    let xInv ← inverse x
    let (GLeft, GRight) := halve G
    let G ← foldGenerators threads xInv GLeft GRight
    let (proof, transcript) ←
      createRounds threads Q rounds (foldScalars x a) (foldScalars xInv b) G transcript
    .ok (⟨L :: proof.LVec, R :: proof.RVec, proof.a⟩, transcript)

/-- The transcript before the first round of `create`, with the factor of `Q`. -/
def absorbStatement (transcript : T) (aComm : E) (inputPoint outputPoint : F) : F × T :=
  let transcript := P.appendPoint transcript (label "C") aComm
  let transcript := P.appendScalar transcript (label "input point") inputPoint
  let transcript := P.appendScalar transcript (label "output point") outputPoint
  P.challengeScalar transcript (label "w")

def create (threads : ℕ) (transcript : T) (crs : CRS E) (a : List F) (aComm : E) (b : List F)
    (inputPoint : F) : Except MultipointPanic (IPAProof F E × T) := do
  let transcript := P.domainSep transcript (label "ipa")
  let n := crs.G.length
  if a.length ≠ n ∨ b.length ≠ n then .error .unequalLengths
  else if 2 ^ log2 n ≠ n then .error .notPowerOfTwo
  else
    let outputPoint ← innerProduct a b
    let (w, transcript) := absorbStatement P transcript aComm inputPoint outputPoint
    createRounds P threads (w • crs.Q) (log2 n) a b crs.G transcript

def generateChallenges : List E → List E → T → List F × T
  | L :: LVec, R :: RVec, transcript =>
    let transcript := P.appendPoint transcript (label "L") L
    let transcript := P.appendPoint transcript (label "R") R
    let (x, transcript) := P.challengeScalar transcript (label "x")
    let (xs, transcript) := generateChallenges LVec RVec transcript
    (x :: xs, transcript)
  | _, _, transcript => ([], transcript)

/-- The negated coefficient of one generator, from the bits of its index. -/
def indexCoefficient (challengesInv : List F) (logn index : ℕ) : F :=
  (List.zip (toBits index logn) challengesInv).foldl
    (fun b e ↦ if e.1 = 1 then b * e.2 else b) (-1)

def IPAProof.verifyMultiexp (proof : IPAProof F E) (transcript : T) (crs : CRS E) (b : List F)
    (aComm : E) (inputPoint outputPoint : F) : Except MultipointPanic (Bool × T) := do
  let transcript := P.domainSep transcript (label "ipa")
  let logn := proof.LVec.length
  if crs.n ≠ 2 ^ logn then .ok (false, transcript)
  else
    let (w, transcript) := absorbStatement P transcript aComm inputPoint outputPoint
    let (challenges, transcript) := generateChallenges P proof.LVec proof.RVec transcript
    let challengesInv := challenges.map (·⁻¹)
    -- the bits of an index are zipped with as many challenges
    if challengesInv.length ≠ logn then .error .unequalLengths
    else
      let bI := (List.range crs.n).map (indexCoefficient challengesInv logn)
      let gI := bI.map (proof.a * ·)
      let b₀ ← innerProduct b bI
      let qI := w * (outputPoint + proof.a * b₀)
      let result ← slowVartimeMultiscalarMul
        (challenges ++ challengesInv ++ [1] ++ [qI] ++ gI)
        (proof.LVec ++ proof.RVec ++ [aComm] ++ [crs.Q] ++ crs.G)
      .ok (decide (result = 0), transcript)

end Protocol

end Salt.Multipoint
