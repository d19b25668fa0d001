import Salt.Multipoint.Lagrange
import Salt.Library.Reduction

namespace Salt.Multipoint

open Library.Chunks Library.Reduction

structure ProverQuery (F E : Type) where
  commitment : E
  poly : LagrangeBasis F
  point : ℕ
  result : F

structure VerifierQuery (F E : Type) where
  commitment : E
  point : F
  result : F

structure MultiPointProof (F E : Type) where
  openProof : IPAProof F E
  gXComm : E

abbrev Group (F E : Type) := ℕ × List (ProverQuery F E × F)

/-- What a run leaves open: the number of threads, the iteration order of the map of groups, and how
the two parallel reductions split their input. -/
structure Schedule (F E : Type) where
  threads : ℕ
  order : List (Group F E) → List (Group F E)
  quotientPlan : Plan
  combinationPlan : Plan
  threads_pos : 0 < threads
  order_perm : ∀ l, (order l).Perm l

section Powers

variable {F E : Type} [Field F] [AddCommGroup E] [Module F E]

def powersFrom (point : F) : F → ℕ → List F
  | _, 0 => []
  | base, n + 1 => base :: powersFrom point (base * point) n

/-- The first power is pushed unconditionally. -/
def powersOf (point : F) (n : ℕ) : List F := powersFrom point 1 (max n 1)

/-- A chunk for which there is no base keeps what it holds. -/
def fillChunks (point : F) : List (List F) → List F → List (List F)
  | chunk :: pieces, base :: bases => powersFrom point base chunk.length :: fillChunks point pieces bases
  | pieces, _ => pieces

def powersOfPar (threads : ℕ) (point : F) (n : ℕ) : Except MultipointPanic (List F) := do
  let powers := List.replicate n (0 : F)
  let chunkSize := divCeil n threads
  let pieces ← sliceChunks powers chunkSize
  let basePowers := powersOf (point ^ chunkSize) (divCeil n chunkSize)
  .ok (fillChunks point pieces basePowers).flatten

def multiScalarMulPar (threads : ℕ) (bases : List E) (scalars : List F) :
    Except MultipointPanic E := do
  let chunkSize := divCeil bases.length threads
  let bases ← sliceChunks bases chunkSize
  let scalars ← sliceChunks scalars chunkSize
  let parts ← (List.zip bases scalars).mapM fun part ↦ multiScalarMul part.1 part.2
  .ok parts.sum

end Powers

section Queries

variable {F E : Type} [Field F]

def ProverQuery.toVerifier (q : ProverQuery F E) : VerifierQuery F E :=
  ⟨q.commitment, (q.point : F), q.result⟩

def queryBytes (c : Codec F E) (q : VerifierQuery F E) : Bytes :=
  label "C" ++ c.pointBytes q.commitment ++ (label "z" ++ c.scalarBytes q.point) ++
    (label "y" ++ c.scalarBytes q.result)

def recordQueryTranscript (c : Codec F E) (transcript : Transcript) (queries : List (VerifierQuery F E)) :
    Transcript := ⟨transcript.state ++ (queries.map (queryBytes c)).flatten⟩

def groupInsert : List (Group F E) → ProverQuery F E × F → List (Group F E)
  | [], entry => [(entry.1.point, [entry])]
  | (point, members) :: groups, entry =>
    if point = entry.1.point then (point, members ++ [entry]) :: groups
    else (point, members) :: groupInsert groups entry

def groupProverQueries (queries : List (ProverQuery F E)) (challenges : List F) : List (Group F E) :=
  (List.zip queries challenges).foldl groupInsert []

def aggregateGroup (group : Group F E) : Except MultipointPanic (ℕ × LagrangeBasis F) :=
  match group.2.map fun entry ↦ entry.1.poly.mul entry.2 with
  | [] => .error .emptyReduce
  | f :: fs => do
    let aggregated ← fs.foldlM LagrangeBasis.add f
    .ok (group.1, aggregated)

def aggregateQueries (threads : ℕ) (groups : List (Group F E)) :
    Except MultipointPanic (List (ℕ × LagrangeBasis F)) := do
  let pieces ← sliceChunks groups (divCeil groups.length threads)
  let parts ← pieces.mapM fun chunk ↦ chunk.mapM aggregateGroup
  .ok parts.flatten

end Queries

section Proofs

variable {F E : Type} [Field F] [AddCommGroup E] [Module F E] [DecidableEq F] [DecidableEq E]

def CRS.commitLagrangePoly (crs : CRS E) (polynomial : LagrangeBasis F) : Except MultipointPanic E :=
  slowVartimeMultiscalarMul polynomial.values crs.G

structure Quotient (F E : Type) where
  aggregated : List (ℕ × LagrangeBasis F)
  gX : LagrangeBasis F
  gXComm : E
  t : F
  transcript : Transcript

/-- The first part of `open`: the aggregated quotient `g(X)` and the challenge `t`. -/
def openQuotient (S : Schedule F E) (c : Codec F E) (crs : CRS E) (precomp : PrecomputedWeights F)
    (transcript : Transcript) (queries : List (ProverQuery F E)) :
    Except MultipointPanic (Quotient F E) := do
  let transcript := transcript.domainSep (label "multiproof")
  let transcript := recordQueryTranscript c transcript (queries.map ProverQuery.toVerifier)
  let (r, transcript) := transcript.challengeScalar c (label "r")
  let powersOfR ← powersOfPar S.threads r queries.length
  let groupedQueries := S.order (groupProverQueries queries powersOfR)
  let aggregated ← aggregateQueries S.threads groupedQueries
  let quotients ← aggregated.mapM fun e ↦ e.2.divideByLinearVanishing precomp e.1
  let gX ← reduce LagrangeBasis.add .zero S.quotientPlan quotients
  let gXComm ← crs.commitLagrangePoly gX
  let transcript := transcript.appendPoint c (label "D") gXComm
  let (t, transcript) := transcript.challengeScalar c (label "t")
  .ok ⟨aggregated, gX, gXComm, t, transcript⟩

/-- The second part: `g_1(X) - g(X)`, its commitment and the transcript with the one of `g_1`. -/
def openCombination (S : Schedule F E) (c : Codec F E) (crs : CRS E) (q : Quotient F E) :
    Except MultipointPanic (LagrangeBasis F × E × Transcript) := do
  let g1Den := q.aggregated.map fun e ↦ (q.t - (e.1 : F))⁻¹ * 1
  let terms := List.zipWith (fun e denInv ↦ ⟨e.2.values.map (denInv * ·)⟩) q.aggregated g1Den
  let g1 ← reduce LagrangeBasis.add .zero S.combinationPlan terms
  let g1Comm ← crs.commitLagrangePoly g1
  let transcript := q.transcript.appendPoint c (label "E") g1Comm
  let g3 ← g1.sub q.gX
  .ok (g3, g1Comm - q.gXComm, transcript)

def MultiPoint.open (S : Schedule F E) (c : Codec F E) (crs : CRS E) (precomp : PrecomputedWeights F)
    (transcript : Transcript) (queries : List (ProverQuery F E)) :
    Except MultipointPanic (MultiPointProof F E × Transcript) := do
  let q ← openQuotient S c crs precomp transcript queries
  let (g3, g3Comm, transcript) ← openCombination S c crs q
  let b ← LagrangeBasis.evaluateLagrangeCoefficients precomp crs.n q.t
  let (openProof, transcript) ←
    create (Transcript.protocol c) S.threads transcript crs g3.values g3Comm b q.t
  .ok (⟨openProof, q.gXComm⟩, transcript)

def MultiPointProof.check (proof : MultiPointProof F E) (threads : ℕ) (c : Codec F E) (crs : CRS E)
    (precomp : PrecomputedWeights F) (queries : List (VerifierQuery F E)) (transcript : Transcript) :
    Except MultipointPanic (Bool × Transcript) := do
  let transcript := transcript.domainSep (label "multiproof")
  let transcript := recordQueryTranscript c transcript queries
  let (r, transcript) := transcript.challengeScalar c (label "r")
  let powersOfR ← powersOfPar threads r queries.length
  let transcript := transcript.appendPoint c (label "D") proof.gXComm
  let (t, transcript) := transcript.challengeScalar c (label "t")
  let g2Den := queries.map fun query ↦ (t - query.point)⁻¹
  let helperScalars := List.zipWith (fun rI denInv ↦ denInv * rI) powersOfR g2Den
  let g2t := (List.zipWith (fun s query ↦ s * query.result) helperScalars queries).sum
  let g1Comm ← multiScalarMulPar threads (queries.map VerifierQuery.commitment) helperScalars
  let transcript := transcript.appendPoint c (label "E") g1Comm
  let b ← LagrangeBasis.evaluateLagrangeCoefficients precomp crs.n t
  proof.openProof.verifyMultiexp (Transcript.protocol c) transcript crs b (g1Comm - proof.gXComm) t g2t

end Proofs

end Salt.Multipoint
