import Salt.Multipoint.Ipa
import Salt.Library.Barycentric

namespace Salt.Multipoint

open Library.InnerProduct Library.Barycentric Library.Triple

/-- A polynomial by its values at `0, 1, ...`; the domain has one point for each value. -/
@[ext]
structure LagrangeBasis (F : Type) where
  values : List F

structure PrecomputedWeights (F : Type) where
  barycentricWeights : List F
  invertedDomain : List F

def indexed {α : Type} (l : List α) (i : ℕ) : Except MultipointPanic α :=
  match l[i]? with
  | some a => .ok a
  | none => .error .indexOutOfRange

/-- `i32::try_from(i).unwrap()`. -/
def toI32 (i : ℕ) : Except MultipointPanic ℤ :=
  if i < 2 ^ 31 then .ok i else .error .i32OutOfRange

namespace PrecomputedWeights

variable {F : Type} [Field F] [DecidableEq F]

def computeBarycentricWeightFor (F : Type) [Field F] (domainElement domainSize : ℕ) : F :=
  (((List.range domainSize).filter (· ≠ domainElement)).map
    fun element : ℕ ↦ (domainElement : F) - (element : F)).prod

/-- The weights followed by their inverses, and the inverses of `1, 2, ...` followed by their
negatives. -/
def new (F : Type) [Field F] [DecidableEq F] (domainSize : ℕ) :
    Except MultipointPanic (PrecomputedWeights F) := do
  let weights := (List.range domainSize).map fun i ↦ computeBarycentricWeightFor F i domainSize
  let inverses ← weights.mapM inverse
  if domainSize = 0 then .error .subtractOverflow
  else
    let inverted ← (List.range (domainSize - 1)).mapM fun i : ℕ ↦ inverse ((i + 1 : ℕ) : F)
    .ok ⟨weights ++ inverses, inverted ++ inverted.map (-·)⟩

def getInvertedElement (p : PrecomputedWeights F) (domainElement : ℕ) (isNegative : Bool) :
    Except MultipointPanic F :=
  if domainElement = 0 then .error .subtractOverflow
  else indexed p.invertedDomain
    (domainElement - 1 + if isNegative then p.invertedDomain.length / 2 else 0)

def getRatioOfBarycentricWeights (p : PrecomputedWeights F) (m i : ℕ) : Except MultipointPanic F := do
  let weight ← indexed p.barycentricWeights m
  let inv ← indexed p.barycentricWeights (i + p.barycentricWeights.length / 2)
  .ok (weight * inv)

def getBarycentricWeight (p : PrecomputedWeights F) (i : ℕ) : Except MultipointPanic F :=
  indexed p.barycentricWeights i

end PrecomputedWeights

namespace LagrangeBasis

variable {F : Type} [Field F] [DecidableEq F]

def domain (f : LagrangeBasis F) : ℕ := f.values.length

def zero : LagrangeBasis F := ⟨[]⟩

def add (f g : LagrangeBasis F) : Except MultipointPanic (LagrangeBasis F) :=
  if f.domain = 0 then .ok g
  else if g.domain = 0 then .ok f
  else if f.values.length = g.values.length then .ok ⟨List.zipWith (· + ·) f.values g.values⟩
  else .error .unequalLengths

def neg (f : LagrangeBasis F) : LagrangeBasis F := ⟨f.values.map (-·)⟩

def mul (f : LagrangeBasis F) (c : F) : LagrangeBasis F := ⟨f.values.map (· * c)⟩

def sub (f g : LagrangeBasis F) : Except MultipointPanic (LagrangeBasis F) := f.add g.neg

/-- One round of the division loop: the quotient at `i`, and its share in the quotient at `index`. -/
def divideStep (f : LagrangeBasis F) (precomp : PrecomputedWeights F) (index : ℕ) (y : F)
    (q : List F) (i : ℕ) : Except MultipointPanic (List F) := do
  if i ≠ index then
    let iInt ← toI32 i
    let indexInt ← toI32 index
    let den := iInt - indexInt
    let denInv ← precomp.getInvertedElement den.natAbs (decide (den < 0))
    let value ← indexed f.values i
    let qI := (value - y) * denInv
    let q := q.set i qI
    let weightRatio ← precomp.getRatioOfBarycentricWeights index i
    let qIndex ← indexed q index
    .ok (q.set index (qIndex - weightRatio * qI))
  else .ok q

/-- `(f(X) - f(x_m)) / (X - x_m)` for a point `x_m` of the domain, by its values. -/
def divideByLinearVanishing (f : LagrangeBasis F) (precomp : PrecomputedWeights F) (index : ℕ) :
    Except MultipointPanic (LagrangeBasis F) := do
  let y ← indexed f.values index
  let q ← (List.range f.domain).foldlM (f.divideStep precomp index y) (List.replicate f.domain 0)
  .ok ⟨q⟩

def evaluateLagrangeCoefficients (precomp : PrecomputedWeights F) (domainSize : ℕ) (point : F) :
    Except MultipointPanic (List F) := do
  let lagrangeEvaluations ← (List.range domainSize).mapM fun i : ℕ ↦ do
    let weight ← precomp.getBarycentricWeight i
    .ok (weight * (point - (i : F)))
  let aZ := ((List.range domainSize).map fun i : ℕ ↦ point - (i : F)).prod
  .ok (lagrangeEvaluations.map fun e ↦ e⁻¹ * aZ)

end LagrangeBasis

section Lists

variable {F E : Type} [Field F] [AddCommGroup E] [Module F E]

def weigh (n : ℕ) (g : ℕ → E) : (ℕ → F) →ₗ[F] E where
  toFun v := ∑ i ∈ Finset.range n, v i • g i
  map_add' v w := by simp [add_smul, Finset.sum_add_distrib]
  map_smul' c v := by simp [mul_smul, Finset.smul_sum]

theorem combine_map_range (n : ℕ) (f : ℕ → F) (g : ℕ → E) :
    combine ((List.range n).map f) ((List.range n).map g) = weigh n g f := by
  induction n with
  | zero => simp [weigh]
  | succ n ih =>
    rw [List.range_succ, List.map_append, List.map_append, combine_append (by simp), ih]
    simp [weigh, Finset.sum_range_succ]

omit [Module F E] in
theorem map_range_getD (l : List E) : (List.range l.length).map (fun i ↦ l.getD i 0) = l := by
  apply List.ext_getElem
  · simp
  · intro i h₁ h₂
    simp [h₂]

end Lists

section Indexing

variable {F : Type}

theorem set_map_range {n i : ℕ} (f : ℕ → F) (x : F) :
    ((List.range n).map f).set i x = (List.range n).map (Function.update f i x) := by
  apply List.ext_getElem
  · simp
  · intro j h₁ h₂
    simp only [List.getElem_set, List.getElem_map, List.getElem_range, Function.update_apply]
    simp only [eq_comm]

theorem indexed_map_range {n i : ℕ} (f : ℕ → F) (hi : i < n) :
    indexed ((List.range n).map f) i = .ok (f i) := by
  simp [indexed, hi]

theorem indexed_append_right (l l' : List F) (i : ℕ) : indexed (l ++ l') (i + l.length) = indexed l' i := by
  rw [indexed, List.getElem?_append_right (by omega), Nat.add_sub_cancel]
  rfl

theorem indexed_append_left (l l' : List F) {i : ℕ} (hi : i < l.length) :
    indexed (l ++ l') i = indexed l i := by
  rw [indexed, List.getElem?_append_left hi]
  rfl

end Indexing

section Precomputed

variable {F : Type} [Field F] {n : ℕ}

theorem computeBarycentricWeightFor_eq (i n : ℕ) :
    PrecomputedWeights.computeBarycentricWeightFor F i n = weight (Finset.range n) Nat.cast i := by
  have hset : ((List.range n).filter (· ≠ i)).toFinset = (Finset.range n).erase i := by
    ext j
    simp [and_comm]
  rw [PrecomputedWeights.computeBarycentricWeightFor, weight, ← hset,
    List.prod_toFinset _ (List.nodup_range.filter _)]

theorem mapM_inverse [DecidableEq F] {l r : List F} (h : l.mapM inverse = .ok r) :
    r = l.map (·⁻¹) ∧ ∀ x ∈ l, x ≠ 0 := by
  induction l generalizing r with
  | nil =>
    cases h
    simp
  | cons x l ih =>
    rw [List.mapM_cons] at h
    obtain ⟨y, hy, h⟩ := ok_of_bind h
    obtain ⟨ys, hys, h⟩ := ok_of_bind h
    cases h
    obtain ⟨rfl, hne⟩ := ih hys
    unfold inverse at hy
    split at hy
    · cases hy
    · rename_i hx
      cases hy
      refine ⟨rfl, fun z hz ↦ ?_⟩
      rcases List.mem_cons.mp hz with rfl | hz
      · exact hx
      · exact hne z hz

/-- The tables hold what their names say, and the points of the domain are different scalars. -/
structure PrecomputedFor (n : ℕ) (p : PrecomputedWeights F) : Prop where
  weights : p.barycentricWeights = (List.range n).map (weight (Finset.range n) Nat.cast) ++
    (List.range n).map fun i ↦ (weight (Finset.range n) Nat.cast i : F)⁻¹
  inverted : p.invertedDomain = (List.range (n - 1)).map (fun i ↦ ((i + 1 : ℕ) : F)⁻¹) ++
    (List.range (n - 1)).map fun i ↦ -((i + 1 : ℕ) : F)⁻¹
  injective : Set.InjOn (Nat.cast : ℕ → F) (Finset.range n)

theorem cast_injOn (h : ∀ i, 0 < i → i < n → (i : F) ≠ 0) :
    Set.InjOn (Nat.cast : ℕ → F) (Finset.range n) := by
  have aux : ∀ i j : ℕ, i < j → j < n → (i : F) ≠ j := by
    intro i j hij hj he
    apply h (j - i) (by omega) (by omega)
    rw [Nat.cast_sub hij.le, he, sub_self]
  intro i hi j hj he
  rw [Finset.coe_range, Set.mem_Iio] at hi hj
  rcases lt_trichotomy i j with hlt | rfl | hlt
  · exact absurd he (aux i j hlt hj)
  · rfl
  · exact absurd he.symm (aux j i hlt hi)

theorem PrecomputedWeights.new_spec [DecidableEq F] {p : PrecomputedWeights F}
    (h : PrecomputedWeights.new F n = .ok p) : PrecomputedFor n p := by
  obtain ⟨inverses, hinv, h⟩ := ok_of_bind h
  split at h
  · cases h
  obtain ⟨inverted, hinverted, h⟩ := ok_of_bind h
  cases h
  have hmap : ((List.range (n - 1)).map fun i ↦ ((i + 1 : ℕ) : F)).mapM inverse = .ok inverted := by
    rw [List.mapM_map]
    exact hinverted
  obtain ⟨rfl, -⟩ := mapM_inverse hinv
  obtain ⟨rfl, hne⟩ := mapM_inverse hmap
  refine ⟨?_, ?_, cast_injOn fun i hi hin ↦ ?_⟩
  · simp only [List.map_map, Function.comp_def, computeBarycentricWeightFor_eq]
  · simp only [List.map_map, Function.comp_def]
  · apply hne
    exact List.mem_map.mpr ⟨i - 1, List.mem_range.mpr (by omega), by rw [Nat.sub_add_cancel hi]⟩

variable {p : PrecomputedWeights F}

theorem PrecomputedFor.getBarycentricWeight (hp : PrecomputedFor n p) {i : ℕ} (hi : i < n) :
    p.getBarycentricWeight i = .ok (weight (Finset.range n) Nat.cast i) := by
  rw [PrecomputedWeights.getBarycentricWeight, hp.weights, indexed_append_left _ _ (by simpa using hi),
    indexed_map_range _ hi]

theorem PrecomputedFor.getRatio (hp : PrecomputedFor n p) {m i : ℕ} (hm : m < n) (hi : i < n) :
    p.getRatioOfBarycentricWeights m i =
      .ok (weight (Finset.range n) Nat.cast m * (weight (Finset.range n) Nat.cast i)⁻¹) := by
  have hlen : i + p.barycentricWeights.length / 2 =
      i + ((List.range n).map (weight (F := F) (Finset.range n) Nat.cast)).length := by
    rw [hp.weights]
    simp only [List.length_append, List.length_map, List.length_range]
    omega
  have hinv : indexed p.barycentricWeights (i + p.barycentricWeights.length / 2) =
      .ok (weight (Finset.range n) Nat.cast i)⁻¹ := by
    rw [hlen, hp.weights, indexed_append_right, indexed_map_range _ hi]
  rw [PrecomputedWeights.getRatioOfBarycentricWeights, hinv]
  have hm' := hp.getBarycentricWeight hm
  rw [PrecomputedWeights.getBarycentricWeight] at hm'
  rw [hm']
  rfl

theorem PrecomputedFor.getInvertedElement (hp : PrecomputedFor n p) {m i : ℕ} (hm : m < n) (hi : i < n)
    (hne : i ≠ m) :
    p.getInvertedElement ((i : ℤ) - m).natAbs (decide ((i : ℤ) - m < 0)) = .ok ((i : F) - m)⁻¹ := by
  have hpos : ((i : ℤ) - m).natAbs ≠ 0 := by omega
  rw [PrecomputedWeights.getInvertedElement, if_neg hpos]
  by_cases hlt : i < m
  · obtain ⟨d, rfl⟩ : ∃ d, m = i + (d + 1) := ⟨m - i - 1, by omega⟩
    have hneg : decide ((i : ℤ) - (i + (d + 1) : ℕ) < 0) = true := decide_eq_true (by omega)
    have hidx : ((i : ℤ) - (i + (d + 1) : ℕ)).natAbs - 1 + p.invertedDomain.length / 2 =
        d + ((List.range (n - 1)).map (fun i ↦ ((i + 1 : ℕ) : F)⁻¹)).length := by
      rw [hp.inverted]
      simp only [List.length_append, List.length_map, List.length_range]
      omega
    rw [hneg, if_pos rfl, hidx, hp.inverted, indexed_append_right, indexed_map_range _ (by omega)]
    congr 1
    push_cast
    rw [← inv_neg]
    congr 1
    ring
  · obtain ⟨d, rfl⟩ : ∃ d, i = m + (d + 1) := ⟨i - m - 1, by omega⟩
    have hneg : decide (((m + (d + 1) : ℕ) : ℤ) - m < 0) = false := decide_eq_false (by omega)
    have hidx : (((m + (d + 1) : ℕ) : ℤ) - m).natAbs - 1 + (if false = true then
        p.invertedDomain.length / 2 else 0) = d := by
      simp only [Bool.false_eq_true, if_false]
      omega
    rw [hneg, hidx, hp.inverted, indexed_append_left _ _ (by simp; omega),
      indexed_map_range _ (by omega)]
    congr 2
    push_cast
    ring

end Precomputed

section Division

variable {F : Type} [Field F] {n m : ℕ} {p : PrecomputedWeights F} {v : ℕ → F}

theorem toI32_eq {i : ℕ} (hn : n ≤ 2 ^ 31) (hi : i < n) : toI32 i = .ok (i : ℤ) :=
  if_pos (by omega)

def share (n m : ℕ) (v : ℕ → F) (i : ℕ) : F :=
  weight (Finset.range n) Nat.cast m * (weight (Finset.range n) Nat.cast i)⁻¹ *
    ((v i - v m) * ((i : F) - m)⁻¹)

theorem divideStep_eq (hp : PrecomputedFor n p) (hn : n ≤ 2 ^ 31) (hm : m < n) {i : ℕ} (hi : i < n)
    (hne : i ≠ m) (e : ℕ → F) :
    (⟨(List.range n).map v⟩ : LagrangeBasis F).divideStep p m (v m) ((List.range n).map e) i =
      .ok ((List.range n).map (Function.update (Function.update e i ((v i - v m) * ((i : F) - m)⁻¹)) m
        (e m - share n m v i))) := by
  simp only [LagrangeBasis.divideStep, if_pos hne, toI32_eq hn hi, toI32_eq hn hm, ok_bind,
    hp.getInvertedElement hm hi hne, indexed_map_range v hi, hp.getRatio hm hi, set_map_range,
    indexed_map_range _ hm, Function.update_of_ne (Ne.symm hne)]
  rfl

def partialQuotient (n m : ℕ) (v : ℕ → F) (k j : ℕ) : F :=
  if j = m then -∑ i ∈ (Finset.range k).erase m, share n m v i
  else if j < k then (v j - v m) * ((j : F) - m)⁻¹ else 0

theorem partialQuotient_succ {k : ℕ} (hne : k ≠ m) :
    Function.update (Function.update (partialQuotient n m v k) k ((v k - v m) * ((k : F) - m)⁻¹)) m
      (partialQuotient n m v k m - share n m v k) = partialQuotient n m v (k + 1) := by
  funext j
  by_cases hjm : j = m
  · subst hjm
    have hk : k ∉ (Finset.range k).erase j := by simp
    rw [Function.update_self, partialQuotient, if_pos rfl, partialQuotient, if_pos rfl, Finset.range_add_one,
      Finset.erase_insert_of_ne hne, Finset.sum_insert hk]
    ring
  · rw [Function.update_of_ne hjm]
    by_cases hjk : j = k
    · subst hjk
      rw [Function.update_self, partialQuotient, if_neg hjm, if_pos (by omega)]
    · rw [Function.update_of_ne hjk, partialQuotient, partialQuotient, if_neg hjm, if_neg hjm]
      by_cases hlt : j < k
      · rw [if_pos hlt, if_pos (by omega)]
      · rw [if_neg hlt, if_neg (by omega)]

theorem partialQuotient_self : partialQuotient n m v m = partialQuotient n m v (m + 1) := by
  funext j
  have hrange : (Finset.range (m + 1)).erase m = (Finset.range m).erase m := by
    rw [Finset.range_add_one, Finset.erase_insert (by simp), Finset.erase_eq_of_notMem (by simp)]
  rw [partialQuotient, partialQuotient, hrange]
  by_cases hjm : j = m
  · rw [if_pos hjm, if_pos hjm]
  · rw [if_neg hjm, if_neg hjm]
    by_cases hlt : j < m
    · rw [if_pos hlt, if_pos (by omega)]
    · rw [if_neg hlt, if_neg (by omega)]

theorem divideLoop_eq (hp : PrecomputedFor n p) (hn : n ≤ 2 ^ 31) (hm : m < n) (k : ℕ) (hk : k ≤ n) :
    (List.range k).foldlM ((⟨(List.range n).map v⟩ : LagrangeBasis F).divideStep p m (v m))
      (List.replicate n 0) = .ok ((List.range n).map (partialQuotient n m v k)) := by
  induction k with
  | zero =>
    have hzero : partialQuotient n m v 0 = fun _ ↦ 0 := by
      funext j
      simp [partialQuotient]
    rw [hzero, List.map_const', List.length_range]
    rfl
  | succ k ih =>
    rw [List.range_succ, List.foldlM_append, ih (by omega), ok_bind, List.foldlM_cons]
    by_cases hkm : k = m
    · subst hkm
      rw [LagrangeBasis.divideStep, if_neg (by simp), partialQuotient_self]
      rfl
    · rw [divideStep_eq hp hn hm (by omega) hkm, partialQuotient_succ hkm]
      rfl

theorem divideByLinearVanishing_eq (hp : PrecomputedFor n p) (hn : n ≤ 2 ^ 31) (hm : m < n) :
    (⟨(List.range n).map v⟩ : LagrangeBasis F).divideByLinearVanishing p m =
      .ok ⟨(List.range n).map (quotient (Finset.range n) Nat.cast v m)⟩ := by
  have hdomain : (⟨(List.range n).map v⟩ : LagrangeBasis F).domain = n := by simp [LagrangeBasis.domain]
  have hquotient : (List.range n).map (partialQuotient n m v n) =
      (List.range n).map (quotient (Finset.range n) Nat.cast v m) := by
    apply List.map_congr_left
    intro j hj
    rw [partialQuotient, quotient, if_pos (List.mem_range.mp hj)]
    rfl
  rw [LagrangeBasis.divideByLinearVanishing, indexed_map_range v hm, ok_bind, hdomain,
    divideLoop_eq hp hn hm n (le_refl n), ok_bind, hquotient]

theorem evaluateLagrangeCoefficients_eq (hp : PrecomputedFor n p) (t : F) :
    LagrangeBasis.evaluateLagrangeCoefficients p n t =
      .ok ((List.range n).map (coefficient (Finset.range n) Nat.cast t)) := by
  have hmap : ((List.range n).mapM fun i : ℕ ↦ do
      let weight ← p.getBarycentricWeight i
      .ok (weight * (t - (i : F)))) =
      .ok ((List.range n).map fun i : ℕ ↦ weight (Finset.range n) Nat.cast i * (t - (i : F))) := by
    apply mapM_eq_ok
    intro i hi
    rw [hp.getBarycentricWeight (List.mem_range.mp hi), ok_bind]
  have hprod : ((List.range n).map fun i : ℕ ↦ t - (i : F)).prod = ∏ i ∈ Finset.range n, (t - (i : F)) := by
    rw [← List.toFinset_range, List.prod_toFinset _ List.nodup_range]
  simp only [LagrangeBasis.evaluateLagrangeCoefficients, hmap, ok_bind, hprod, List.map_map]
  congr 1
  apply List.map_congr_left
  intro i _
  exact mul_comm _ _

end Division

end Salt.Multipoint
