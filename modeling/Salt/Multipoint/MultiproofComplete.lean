import Salt.Multipoint.Multiproof
import Salt.Multipoint.IpaComplete

namespace Salt.Multipoint

open Library.Chunks Library.InnerProduct Library.Barycentric Library.Reduction Library.Triple

section Powers

variable {F E : Type} [Field F] [AddCommGroup E] [Module F E]

theorem powersFrom_add (point base : F) (m n : ℕ) :
    powersFrom point base (m + n) = powersFrom point base m ++ powersFrom point (base * point ^ m) n := by
  induction m generalizing base with
  | zero => simp [powersFrom]
  | succ m ih =>
    rw [Nat.add_right_comm, powersFrom, powersFrom, ih, List.cons_append, pow_succ', mul_assoc]

theorem powersFrom_eq (point base : F) (n : ℕ) :
    powersFrom point base n = (List.range n).map fun i ↦ base * point ^ i := by
  induction n with
  | zero => rfl
  | succ n ih =>
    rw [powersFrom_add, ih, List.range_succ, List.map_append]
    simp [powersFrom]

theorem flatten_fillChunks {size : ℕ} (hs : 0 < size) (point base : F) (n : ℕ) (l : List F)
    (hl : l.length ≤ n) (m : ℕ) (hm : l.length ≤ m * size) :
    (fillChunks point (chunksUpTo size n l) (powersFrom (point ^ size) base m)).flatten =
      powersFrom point base l.length := by
  induction n generalizing l base m with
  | zero =>
    have hnil : l = [] := List.length_eq_zero_iff.mp (by omega)
    simp [chunksUpTo, hnil, powersFrom, fillChunks]
  | succ n ih =>
    cases l with
    | nil => simp [chunksUpTo, powersFrom, fillChunks]
    | cons a l =>
      cases m with
      | zero => simp at hm
      | succ m =>
        have hdrop' : ((a :: l).drop size).length ≤ m * size := by
          rw [List.length_drop]
          rw [Nat.succ_mul] at hm
          omega
        rw [chunksUpTo, powersFrom, fillChunks, List.flatten_cons, ih _ _ (length_drop_le hs hl) _ hdrop']
        by_cases hle : size ≤ (a :: l).length
        · have hlen : (a :: l).length = size + ((a :: l).drop size).length := by
            rw [List.length_drop]
            omega
          rw [List.length_take_of_le hle, hlen, powersFrom_add]
        · have hnil : (a :: l).drop size = [] := List.drop_eq_nil_of_le (by omega)
          rw [List.take_of_length_le (by omega), hnil]
          simp [powersFrom]

theorem le_divCeil_mul {n d : ℕ} (hd : 0 < d) : n ≤ divCeil n d * d := by
  have h := Nat.div_add_mod (n + d - 1) d
  have hlt := Nat.mod_lt (n + d - 1) hd
  rw [divCeil, Nat.mul_comm]
  omega

theorem powersOfPar_eq {threads n : ℕ} (ht : 0 < threads) (hn : 0 < n) (point : F) :
    powersOfPar threads point n = .ok ((List.range n).map (point ^ ·)) := by
  have hsize := divCeil_pos hn ht
  have hpieces : 1 ≤ divCeil n (divCeil n threads) := divCeil_pos hn hsize
  have hpowers := flatten_fillChunks hsize point 1 n (List.replicate n (0 : F)) (by simp)
    (divCeil n (divCeil n threads)) (by simpa using le_divCeil_mul hsize)
  rw [List.length_replicate] at hpowers
  simp only [powersOfPar, sliceChunks, if_neg (show divCeil n threads ≠ 0 by omega), ok_bind, powersOf,
    max_eq_left hpieces, chunks, List.length_replicate, hpowers]
  simp only [powersFrom_eq, one_mul]

theorem mapM_multiScalarMul {size : ℕ} (hs : 0 < size) (n : ℕ) (bases : List E) (scalars : List F)
    (hl : bases.length ≤ n) (hlen : bases.length = scalars.length) :
    ∃ parts, (List.zip (chunksUpTo size n bases) (chunksUpTo size n scalars)).mapM
        (fun part ↦ multiScalarMul part.1 part.2) = .ok parts ∧ parts.sum = combine scalars bases := by
  induction n generalizing bases scalars with
  | zero =>
    have hnil : bases = [] := List.length_eq_zero_iff.mp (by omega)
    subst hnil
    exact ⟨[], rfl, by simp⟩
  | succ n ih =>
    cases bases with
    | nil => exact ⟨[], rfl, by simp⟩
    | cons u bases =>
      cases scalars with
      | nil => simp at hlen
      | cons c scalars =>
        have hdrops : ((u :: bases).drop size).length = ((c :: scalars).drop size).length := by
          rw [List.length_drop, List.length_drop, hlen]
        have htakes : ((u :: bases).take size).length = ((c :: scalars).take size).length := by
          rw [List.length_take, List.length_take, hlen]
        obtain ⟨parts, hparts, hsum⟩ := ih _ _ (length_drop_le hs hl) hdrops
        refine ⟨combine ((c :: scalars).take size) ((u :: bases).take size) :: parts, ?_, ?_⟩
        · rw [chunksUpTo, chunksUpTo, List.zip_cons_cons, List.mapM_cons, hparts, multiScalarMul,
            if_pos htakes]
          rfl
        · rw [List.sum_cons, hsum, ← combine_append htakes.symm, List.take_append_drop,
            List.take_append_drop]

theorem multiScalarMulPar_eq {threads : ℕ} (ht : 0 < threads) {bases : List E} {scalars : List F}
    (hpos : 0 < bases.length) (hlen : bases.length = scalars.length) :
    multiScalarMulPar threads bases scalars = .ok (combine scalars bases) := by
  have hsize := divCeil_pos hpos ht
  obtain ⟨parts, hparts, hsum⟩ := mapM_multiScalarMul hsize bases.length bases scalars
    (Nat.le_refl _) hlen
  simp only [multiScalarMulPar, sliceChunks, if_neg (show divCeil bases.length threads ≠ 0 by omega),
    ok_bind, chunks, ← hlen, hparts, hsum]

end Powers

section Grouping

variable {F E : Type} {M : Type} [AddCommMonoid M] {groups : List (Group F E)}
  {entry : ProverQuery F E × F}

def groupSum (h : ProverQuery F E × F → M) (groups : List (Group F E)) : M :=
  (groups.map fun g ↦ (g.2.map h).sum).sum

theorem groupSum_insert (h : ProverQuery F E × F → M) :
    groupSum h (groupInsert groups entry) = groupSum h groups + h entry := by
  induction groups with
  | nil => simp [groupSum, groupInsert]
  | cons g groups ih =>
    obtain ⟨point, members⟩ := g
    rw [groupInsert]
    split
    · simp only [groupSum, List.map_cons, List.map_append, List.map_nil, List.sum_cons,
        List.sum_append, List.sum_nil, add_zero]
      rw [add_right_comm]
    · simp only [groupSum, List.map_cons, List.sum_cons] at ih ⊢
      rw [ih, add_assoc]

def Sorted (entries : List (ProverQuery F E × F)) (groups : List (Group F E)) : Prop :=
  ∀ g ∈ groups, g.2 ≠ [] ∧ ∀ e ∈ g.2, e ∈ entries ∧ e.1.point = g.1

theorem Sorted.insert {entries : List (ProverQuery F E × F)} (hg : Sorted entries groups)
    (he : entry ∈ entries) : Sorted entries (groupInsert groups entry) := by
  induction groups with
  | nil =>
    intro g hmem
    rw [groupInsert, List.mem_singleton] at hmem
    subst hmem
    simpa using he
  | cons g₀ groups ih =>
    obtain ⟨point, members⟩ := g₀
    have hhead := hg _ (List.mem_cons_self ..)
    have hrest : Sorted entries groups := fun g hmem ↦ hg g (List.mem_cons_of_mem _ hmem)
    intro g hmem
    rw [groupInsert] at hmem
    split at hmem
    · rename_i hpoint
      rcases List.mem_cons.mp hmem with rfl | hmem
      · refine ⟨by simp, fun e hin ↦ ?_⟩
        rcases List.mem_append.mp hin with hin | hin
        · exact hhead.2 e hin
        · rw [List.mem_singleton.mp hin]
          exact ⟨he, hpoint.symm⟩
      · exact hrest g hmem
    · rcases List.mem_cons.mp hmem with rfl | hmem
      · exact hhead
      · exact ih hrest g hmem

theorem groupProverQueries_spec [Field F] (queries : List (ProverQuery F E)) (challenges : List F) :
    Sorted (List.zip queries challenges) (groupProverQueries queries challenges) ∧
    ∀ h : ProverQuery F E × F → M, groupSum h (groupProverQueries queries challenges) =
      ((List.zip queries challenges).map h).sum := by
  have key : ∀ (l : List (ProverQuery F E × F)) (groups : List (Group F E)),
      (∀ e ∈ l, e ∈ List.zip queries challenges) → Sorted (List.zip queries challenges) groups →
      Sorted (List.zip queries challenges) (l.foldl groupInsert groups) ∧
      ∀ h : ProverQuery F E × F → M,
        groupSum h (l.foldl groupInsert groups) = groupSum h groups + (l.map h).sum := by
    intro l
    induction l with
    | nil => exact fun groups _ hg ↦ ⟨hg, fun h ↦ by simp⟩
    | cons e l ih =>
      intro groups hl hg
      obtain ⟨hsorted, hsum⟩ := ih (groupInsert groups e) (fun a ha ↦ hl a (List.mem_cons_of_mem _ ha))
        (hg.insert (hl e (List.mem_cons_self ..)))
      refine ⟨hsorted, fun h ↦ ?_⟩
      rw [List.foldl_cons, hsum, groupSum_insert, List.map_cons, List.sum_cons, add_assoc]
  obtain ⟨hsorted, hsum⟩ := key _ [] (fun _ ↦ id) fun g hg ↦ by cases hg
  refine ⟨hsorted, fun h ↦ ?_⟩
  rw [groupProverQueries, hsum]
  simp [groupSum]

end Grouping

section Polynomials

variable {F : Type} [Field F] {n : ℕ}

def tabulate (n : ℕ) (v : ℕ → F) : LagrangeBasis F := ⟨(List.range n).map v⟩

/-- A partial sum: nothing yet, or a polynomial with values on the whole domain. -/
def PartialSum (n : ℕ) (f : LagrangeBasis F) (v : (ℕ → F) × ℕ) : Prop :=
  f = .zero ∧ v = 0 ∨ f = tabulate n v.1 ∧ 0 < v.2

theorem add_tabulate (hn : 0 < n) (v w : ℕ → F) :
    (tabulate n v).add (tabulate n w) = .ok (tabulate n (v + w)) := by
  have hdomain : ∀ u : ℕ → F, (tabulate n u).domain ≠ 0 := by
    intro u
    simp only [tabulate, LagrangeBasis.domain, List.length_map, List.length_range]
    omega
  rw [LagrangeBasis.add, if_neg (hdomain v), if_neg (hdomain w), if_pos (by simp [tabulate])]
  simp only [tabulate, List.zipWith_map, List.zipWith_self]
  rfl

theorem PartialSum.add (hn : 0 < n) (f g : LagrangeBasis F) (v w : (ℕ → F) × ℕ)
    (hf : PartialSum n f v) (hg : PartialSum n g w) :
    ∃ h, f.add g = .ok h ∧ PartialSum n h (v + w) := by
  rcases hf with ⟨rfl, rfl⟩ | ⟨rfl, hv⟩
  · refine ⟨g, if_pos rfl, ?_⟩
    rw [zero_add]
    exact hg
  · rcases hg with ⟨rfl, rfl⟩ | ⟨rfl, hw⟩
    · refine ⟨tabulate n v.1, ?_, ?_⟩
      · rw [LagrangeBasis.add]
        split
        · rename_i hzero
          have hn' : n = 0 := by simpa [tabulate, LagrangeBasis.domain] using hzero
          omega
        · exact if_pos rfl
      · rw [add_zero]
        exact .inr ⟨rfl, hv⟩
    · exact ⟨_, add_tabulate hn v.1 w.1, .inr ⟨rfl, Nat.add_pos_left hv _⟩⟩

theorem reduce_tabulate (hn : 0 < n) (plan : Plan) {l : List (ℕ → F)} (hne : l ≠ []) :
    reduce LagrangeBasis.add .zero plan (l.map (tabulate n)) = .ok (tabulate n l.sum) := by
  have hall : List.Forall₂ (PartialSum n) (l.map (tabulate n)) (l.map fun v ↦ (v, 1)) := by
    rw [List.forall₂_map_left_iff, List.forall₂_map_right_iff, List.forall₂_same]
    exact fun v _ ↦ .inr ⟨rfl, Nat.one_pos⟩
  obtain ⟨c, hc, hsum⟩ := reduce_sum (R := PartialSum n) (.inl ⟨rfl, rfl⟩) (PartialSum.add hn) plan hall
  have hfst := map_list_sum (AddMonoidHom.fst (ℕ → F) ℕ) (l.map fun v ↦ (v, 1))
  have hsnd := map_list_sum (AddMonoidHom.snd (ℕ → F) ℕ) (l.map fun v ↦ (v, 1))
  simp only [AddMonoidHom.coe_fst, AddMonoidHom.coe_snd, List.map_map, Function.comp_def,
    List.map_id'] at hfst hsnd
  rcases hsum with ⟨-, hzero⟩ | ⟨rfl, -⟩
  · rw [hzero] at hsnd
    have hlen : l.length = 0 := by simpa using hsnd.symm
    exact absurd (List.length_eq_zero_iff.mp hlen) hne
  · rw [hc, hfst]

variable {E : Type} {groups : List (Group F E)} {entries : List (ProverQuery F E × F)}

def valuesOf (q : ProverQuery F E) (i : ℕ) : F := q.poly.values.getD i 0

def groupValues (g : Group F E) : ℕ → F := (g.2.map fun e ↦ e.2 • valuesOf e.1).sum

theorem mul_eq_tabulate {q : ProverQuery F E} (hq : q.poly.values.length = n) (c : F) :
    q.poly.mul c = tabulate n (c • valuesOf q) := by
  have hvalues : q.poly.values = (List.range n).map (valuesOf q) := by
    rw [← hq]
    exact (map_range_getD _).symm
  rw [LagrangeBasis.mul, hvalues, List.map_map, tabulate]
  congr 1
  apply List.map_congr_left
  intro i _
  simp [mul_comm]

theorem aggregateGroup_eq (hn : 0 < n) {g : Group F E} (hne : g.2 ≠ [])
    (hlen : ∀ e ∈ g.2, e.1.poly.values.length = n) :
    aggregateGroup g = .ok (g.1, tabulate n (groupValues g)) := by
  obtain ⟨point, members⟩ := g
  have hmap : (members.map fun entry ↦ entry.1.poly.mul entry.2) =
      (members.map fun e ↦ e.2 • valuesOf e.1).map (tabulate n) := by
    rw [List.map_map]
    exact List.map_congr_left fun e he ↦ mul_eq_tabulate (hlen e he) e.2
  have hfold : ∀ (vs : List (ℕ → F)) (v : ℕ → F),
      (vs.map (tabulate n)).foldlM LagrangeBasis.add (tabulate n v) = .ok (tabulate n (v + vs.sum)) := by
    intro vs
    induction vs with
    | nil => exact fun v ↦ by simp; rfl
    | cons w vs ih =>
      intro v
      rw [List.map_cons, List.foldlM_cons, add_tabulate hn, ok_bind, ih, List.sum_cons, add_assoc]
  cases members with
  | nil => exact absurd rfl hne
  | cons e members =>
    simp only [aggregateGroup, hmap]
    simp only [List.map_cons, groupValues, List.sum_cons]
    rw [hfold, ok_bind]

theorem aggregateQueries_eq {threads : ℕ} (ht : 0 < threads) (hn : 0 < n) (hgroups : groups ≠ [])
    (hsorted : Sorted entries groups) (hlen : ∀ e ∈ entries, e.1.poly.values.length = n) :
    aggregateQueries threads groups = .ok (groups.map fun g ↦ (g.1, tabulate n (groupValues g))) := by
  have hsize := divCeil_pos (List.length_pos_iff.mpr hgroups) ht
  have hpiece : ∀ chunk ∈ chunks (divCeil groups.length threads) groups,
      chunk.mapM aggregateGroup = .ok (chunk.map fun g ↦ (g.1, tabulate n (groupValues g))) := by
    intro chunk hchunk
    apply mapM_eq_ok
    intro g hg
    have hmem : g ∈ groups := by
      rw [← flatten_chunks hsize groups]
      exact List.mem_flatten.mpr ⟨chunk, hchunk, hg⟩
    obtain ⟨hne, hin⟩ := hsorted g hmem
    exact aggregateGroup_eq hn hne fun e he ↦ hlen e (hin e he).1
  rw [aggregateQueries, sliceChunks, if_neg (by omega), ok_bind, mapM_eq_ok _ hpiece, ok_bind,
    ← List.map_flatten, flatten_chunks hsize]

end Polynomials

section Sums

variable {F E : Type} [Field F] {entries : List (ProverQuery F E × F)} {groups : List (Group F E)}

def quotientValues (n : ℕ) (groups : List (Group F E)) : ℕ → F :=
  (groups.map fun g ↦ quotient (Finset.range n) Nat.cast (groupValues g) g.1).sum

def combinationValues (t : F) (groups : List (Group F E)) : ℕ → F :=
  (groups.map fun g ↦ (t - (g.1 : F))⁻¹ • groupValues g).sum

theorem map_combinationValues {M : Type} [AddCommGroup M] [Module F M] (φ : (ℕ → F) →ₗ[F] M)
    (t : F) (hsorted : Sorted entries groups) :
    φ (combinationValues t groups) =
      groupSum (fun e ↦ (t - (e.1.point : F))⁻¹ • e.2 • φ (valuesOf e.1)) groups := by
  rw [combinationValues, map_list_sum, List.map_map, groupSum]
  congr 1
  apply List.map_congr_left
  intro g hg
  rw [Function.comp_apply, map_smul, groupValues, map_list_sum, List.map_map, List.smul_sum,
    List.map_map]
  congr 1
  apply List.map_congr_left
  intro e he
  rw [((hsorted g hg).2 e he).2]
  simp

variable {t : F}

/-- Outside of the domain, combination and quotient differ by the results of the queries. -/
theorem evaluate_difference {n : ℕ} (hinj : Set.InjOn (Nat.cast : ℕ → F) (Finset.range n))
    (ht : ∀ i < n, t ≠ (i : F)) (hpoint : ∀ g ∈ groups, g.1 < n) (hsorted : Sorted entries groups) :
    weigh n (coefficient (Finset.range n) Nat.cast t) (combinationValues t groups - quotientValues n groups) =
      groupSum (fun e ↦ (t - (e.1.point : F))⁻¹ * (e.2 * valuesOf e.1 e.1.point)) groups := by
  have ht' : ∀ i ∈ Finset.range n, t ≠ (i : F) := fun i hi ↦ ht i (Finset.mem_range.mp hi)
  have hgroup : ∀ g ∈ groups,
      (t - (g.1 : F))⁻¹ * weigh n (coefficient (Finset.range n) Nat.cast t) (groupValues g) -
        weigh n (coefficient (Finset.range n) Nat.cast t)
          (quotient (Finset.range n) Nat.cast (groupValues g) g.1) =
      (g.2.map fun e ↦ (t - (e.1.point : F))⁻¹ * (e.2 * valuesOf e.1 e.1.point)).sum := by
    intro g hg
    have hsum := sum_quotient (f := groupValues g) hinj ht' (Finset.mem_range.mpr (hpoint g hg))
    have hne : t - (g.1 : F) ≠ 0 := sub_ne_zero.mpr (ht g.1 (hpoint g hg))
    have hvalue : groupValues g g.1 = (g.2.map fun e ↦ e.2 * valuesOf e.1 e.1.point).sum := by
      have hproj := map_list_sum (LinearMap.proj (R := F) (φ := fun _ : ℕ ↦ F) g.1)
        (g.2.map fun e ↦ e.2 • valuesOf e.1)
      rw [List.map_map] at hproj
      refine hproj.trans (congrArg List.sum (List.map_congr_left fun e he ↦ ?_))
      rw [((hsorted g hg).2 e he).2]
      rfl
    have hfactor : (g.2.map fun e ↦ (t - (e.1.point : F))⁻¹ * (e.2 * valuesOf e.1 e.1.point)) =
        (g.2.map fun e ↦ e.2 * valuesOf e.1 e.1.point).map ((t - (g.1 : F))⁻¹ * ·) := by
      rw [List.map_map]
      apply List.map_congr_left
      intro e he
      rw [Function.comp_apply, ((hsorted g hg).2 e he).2]
    rw [hfactor, List.sum_map_mul_left, List.map_id', ← hvalue]
    have hweigh : ∀ v : ℕ → F, weigh n (coefficient (Finset.range n) Nat.cast t) v =
        ∑ i ∈ Finset.range n, v i * coefficient (Finset.range n) Nat.cast t i := fun v ↦ rfl
    rw [hweigh, hweigh, ← mul_right_inj' hne, mul_sub, mul_inv_cancel_left₀ hne,
      mul_inv_cancel_left₀ hne, mul_comm (t - (g.1 : F)), hsum]
    ring
  rw [map_sub, combinationValues, quotientValues, map_list_sum, map_list_sum, List.map_map, List.map_map,
    groupSum, ← List.map_congr_left hgroup]
  simp only [Function.comp_def, map_smul, smul_eq_mul]
  exact (Multiset.sum_map_sub (m := (groups : Multiset (Group F E)))).symm

end Sums

section Honest

variable {F E : Type} [Field F] [AddCommGroup E] [Module F E]

structure HonestQueries (crs : CRS E) (queries : List (ProverQuery F E)) : Prop where
  nonempty : queries ≠ []
  commits : ∀ q ∈ queries, crs.commitLagrangePoly q.poly = .ok q.commitment
  point : ∀ q ∈ queries, q.point < crs.n
  result : ∀ q ∈ queries, q.poly.values[q.point]? = some q.result

variable {crs : CRS E} {queries : List (ProverQuery F E)} {q : ProverQuery F E}

def CRS.commit (crs : CRS E) : (ℕ → F) →ₗ[F] E := weigh crs.n fun i ↦ crs.G.getD i 0

theorem combine_generators (v : ℕ → F) :
    combine ((List.range crs.n).map v) crs.G = crs.commit v := by
  have hG : crs.G = (List.range crs.n).map fun i ↦ crs.G.getD i 0 := by
    rw [← crs.size]
    exact (map_range_getD _).symm
  conv_lhs => rw [hG]
  exact combine_map_range crs.n v _

theorem commitLagrangePoly_tabulate (v : ℕ → F) :
    crs.commitLagrangePoly (tabulate crs.n v) = .ok (crs.commit v) := by
  rw [CRS.commitLagrangePoly, slowVartimeMultiscalarMul_eq (by simp [tabulate, crs.size]), tabulate,
    combine_generators]

theorem HonestQueries.length_values (h : HonestQueries crs queries) (hq : q ∈ queries) :
    q.poly.values.length = crs.n := by
  have hc := h.commits q hq
  rw [← crs.size]
  by_contra hne
  rw [CRS.commitLagrangePoly, slowVartimeMultiscalarMul, multiScalarMul, if_neg (Ne.symm hne)] at hc
  cases hc

theorem HonestQueries.commit_eq (h : HonestQueries crs queries) (hq : q ∈ queries) :
    crs.commit (valuesOf q) = q.commitment := by
  have hvalues : q.poly = tabulate crs.n (valuesOf q) := by
    ext1
    rw [tabulate, ← h.length_values hq]
    exact (map_range_getD _).symm
  have hc := h.commits q hq
  rw [hvalues, commitLagrangePoly_tabulate] at hc
  exact Except.ok.inj hc

theorem HonestQueries.valuesOf_point (h : HonestQueries crs queries) (hq : q ∈ queries) :
    valuesOf q q.point = q.result := by
  rw [valuesOf, List.getD_eq_getElem?_getD, h.result q hq]
  rfl

end Honest

section Opening

variable {F E : Type} [Field F] [AddCommGroup E] [Module F E] {crs : CRS E}
  {queries : List (ProverQuery F E)} {precomp : PrecomputedWeights F} {c : Codec F E}
  {transcript : Transcript}

/-- The challenge `r`. -/
def firstChallenge (c : Codec F E) (transcript : Transcript) (queries : List (ProverQuery F E)) :
    F × Transcript :=
  (recordQueryTranscript c (transcript.domainSep (label "multiproof"))
    (queries.map ProverQuery.toVerifier)).challengeScalar c (label "r")

def challengedGroups (c : Codec F E) (transcript : Transcript) (queries : List (ProverQuery F E)) :
    List (Group F E) :=
  groupProverQueries queries
    ((List.range queries.length).map ((firstChallenge c transcript queries).1 ^ ·))

/-- The challenge `t`. -/
def secondChallenge (c : Codec F E) (crs : CRS E) (transcript : Transcript)
    (queries : List (ProverQuery F E)) : F × Transcript :=
  ((firstChallenge c transcript queries).2.appendPoint c (label "D")
    (crs.commit (quotientValues crs.n (challengedGroups c transcript queries)))).challengeScalar c (label "t")

theorem challengedGroups_spec (h : HonestQueries crs queries) {l : List (Group F E)}
    (hl : l.Perm (challengedGroups c transcript queries)) :
    l ≠ [] ∧ Sorted (List.zip queries
      ((List.range queries.length).map ((firstChallenge c transcript queries).1 ^ ·))) l ∧
    ∀ g ∈ l, g.1 < crs.n := by
  obtain ⟨hsorted, hsum⟩ := groupProverQueries_spec (M := ℕ) queries
    ((List.range queries.length).map ((firstChallenge c transcript queries).1 ^ ·))
  have hsorted' : Sorted (List.zip queries ((List.range queries.length).map
      ((firstChallenge c transcript queries).1 ^ ·))) l := fun g hg ↦ hsorted g (hl.mem_iff.mp hg)
  refine ⟨?_, hsorted', fun g hg ↦ ?_⟩
  · rintro rfl
    have hnil : challengedGroups c transcript queries = [] := hl.symm.eq_nil
    have hone := hsum fun _ ↦ 1
    rw [show groupProverQueries _ _ = [] from hnil] at hone
    have hlen : queries.length = 0 := by simpa [groupSum] using hone.symm
    exact h.nonempty (List.length_eq_zero_iff.mp hlen)
  · obtain ⟨hne, hmem⟩ := hsorted' g hg
    obtain ⟨e, he⟩ := List.exists_mem_of_ne_nil _ hne
    obtain ⟨hin, hpoint⟩ := hmem e he
    rw [← hpoint]
    exact h.point e.1 (List.of_mem_zip hin).1

/-- Whatever the schedule, the first part of `open` computes these values. -/
theorem openQuotient_eq (S : Schedule F E) (hp : PrecomputedFor crs.n precomp) (hn : 0 < crs.n)
    (hmax : crs.n ≤ 2 ^ 31) (h : HonestQueries crs queries) :
    openQuotient S c crs precomp transcript queries = .ok {
      aggregated := (S.order (challengedGroups c transcript queries)).map
        fun g ↦ (g.1, tabulate crs.n (groupValues g))
      gX := tabulate crs.n (quotientValues crs.n (challengedGroups c transcript queries))
      gXComm := crs.commit (quotientValues crs.n (challengedGroups c transcript queries))
      t := (secondChallenge c crs transcript queries).1
      transcript := (secondChallenge c crs transcript queries).2 } := by
  have hperm := S.order_perm (challengedGroups c transcript queries)
  obtain ⟨hne, hsorted, hpoint⟩ := challengedGroups_spec h hperm
  have hpowers := powersOfPar_eq S.threads_pos (List.length_pos_iff.mpr h.nonempty)
    (firstChallenge c transcript queries).1
  have haggregate := aggregateQueries_eq S.threads_pos hn hne hsorted fun e he ↦
    h.length_values (List.of_mem_zip he).1
  have hdivide : ((S.order (challengedGroups c transcript queries)).map
      fun g ↦ (g.1, tabulate crs.n (groupValues g))).mapM
        (fun e ↦ e.2.divideByLinearVanishing precomp e.1) =
      .ok (((S.order (challengedGroups c transcript queries)).map fun g ↦
        quotient (Finset.range crs.n) Nat.cast (groupValues g) g.1).map (tabulate crs.n)) := by
    rw [List.mapM_map, List.map_map]
    apply mapM_eq_ok
    intro g hg
    exact divideByLinearVanishing_eq hp hmax (hpoint g hg)
  have hreduce := reduce_tabulate hn S.quotientPlan (l := (S.order (challengedGroups c transcript
    queries)).map fun g ↦ quotient (Finset.range crs.n) Nat.cast (groupValues g) g.1) (by simpa using hne)
  have hsum : ((S.order (challengedGroups c transcript queries)).map fun g ↦
      quotient (Finset.range crs.n) Nat.cast (groupValues g) g.1).sum =
      quotientValues crs.n (challengedGroups c transcript queries) := (hperm.map _).sum_eq
  rw [hsum] at hreduce
  rw [openQuotient]
  change powersOfPar S.threads (firstChallenge c transcript queries).1 queries.length >>= _ = _
  rw [hpowers, ok_bind]
  change aggregateQueries S.threads (S.order (challengedGroups c transcript queries)) >>= _ = _
  rw [haggregate, ok_bind, hdivide, ok_bind, hreduce, ok_bind, commitLagrangePoly_tabulate, ok_bind]
  rfl

def differenceValues (c : Codec F E) (crs : CRS E) (transcript : Transcript)
    (queries : List (ProverQuery F E)) : ℕ → F :=
  combinationValues (secondChallenge c crs transcript queries).1 (challengedGroups c transcript queries) -
    quotientValues crs.n (challengedGroups c transcript queries)

def combinedTranscript (c : Codec F E) (crs : CRS E) (transcript : Transcript)
    (queries : List (ProverQuery F E)) : Transcript :=
  (secondChallenge c crs transcript queries).2.appendPoint c (label "E")
    (crs.commit (combinationValues (secondChallenge c crs transcript queries).1
      (challengedGroups c transcript queries)))

theorem openCombination_eq (S : Schedule F E) (hp : PrecomputedFor crs.n precomp) (hn : 0 < crs.n)
    (hmax : crs.n ≤ 2 ^ 31) (h : HonestQueries crs queries) :
    openQuotient S c crs precomp transcript queries >>= openCombination S c crs =
      .ok (tabulate crs.n (differenceValues c crs transcript queries),
        crs.commit (differenceValues c crs transcript queries),
        combinedTranscript c crs transcript queries) := by
  have hperm := S.order_perm (challengedGroups c transcript queries)
  obtain ⟨hne, -, -⟩ := challengedGroups_spec h hperm
  set t := (secondChallenge c crs transcript queries).1 with ht
  have hterms : List.zipWith (fun (e : ℕ × LagrangeBasis F) denInv ↦
        (⟨e.2.values.map (denInv * ·)⟩ : LagrangeBasis F))
      ((S.order (challengedGroups c transcript queries)).map
        fun g ↦ (g.1, tabulate crs.n (groupValues g)))
      (((S.order (challengedGroups c transcript queries)).map
        fun g ↦ (g.1, tabulate crs.n (groupValues g))).map fun e ↦ (t - (e.1 : F))⁻¹ * 1) =
      ((S.order (challengedGroups c transcript queries)).map
        fun g ↦ (t - (g.1 : F))⁻¹ • groupValues g).map (tabulate crs.n) := by
    rw [List.map_map, List.map_map, List.zipWith_map, List.zipWith_self]
    apply List.map_congr_left
    intro g _
    simp [tabulate]
  have hreduce := reduce_tabulate hn S.combinationPlan (l := (S.order (challengedGroups c transcript
    queries)).map fun g ↦ (t - (g.1 : F))⁻¹ • groupValues g) (by simpa using hne)
  have hsum : ((S.order (challengedGroups c transcript queries)).map fun g ↦
      (t - (g.1 : F))⁻¹ • groupValues g).sum =
      combinationValues t (challengedGroups c transcript queries) := (hperm.map _).sum_eq
  have hneg : (tabulate crs.n (quotientValues crs.n (challengedGroups c transcript queries))).neg =
      tabulate crs.n (-quotientValues crs.n (challengedGroups c transcript queries)) := by
    rw [LagrangeBasis.neg, tabulate, tabulate, List.map_map]
    rfl
  rw [hsum] at hreduce
  rw [openQuotient_eq S hp hn hmax h, ok_bind, openCombination]
  simp only [← ht, hterms]
  rw [hreduce, ok_bind, commitLagrangePoly_tabulate, ok_bind, LagrangeBasis.sub, hneg, add_tabulate hn,
    ok_bind, ← map_sub, ← sub_eq_add_neg]
  rfl

theorem zipWith_helperScalars (t : F) (queries : List (ProverQuery F E)) (powers : List F) :
    combine (List.zipWith (fun rI denInv ↦ denInv * rI) powers
        ((queries.map ProverQuery.toVerifier).map fun query ↦ (t - query.point)⁻¹))
      ((queries.map ProverQuery.toVerifier).map VerifierQuery.commitment) =
        ((List.zip queries powers).map
          fun e ↦ (t - (e.1.point : F))⁻¹ • e.2 • e.1.commitment).sum ∧
    (List.zipWith (fun s query ↦ s * VerifierQuery.result query) (List.zipWith (fun rI denInv ↦ denInv * rI) powers
        ((queries.map ProverQuery.toVerifier).map fun query ↦ (t - query.point)⁻¹))
      (queries.map ProverQuery.toVerifier)).sum =
        ((List.zip queries powers).map fun e ↦ (t - (e.1.point : F))⁻¹ * (e.2 * e.1.result)).sum := by
  induction queries generalizing powers with
  | nil => simp
  | cons q queries ih =>
    cases powers with
    | nil => simp
    | cons r powers =>
      obtain ⟨ih₁, ih₂⟩ := ih powers
      constructor
      · simp only [List.map_cons, List.zipWith_cons_cons, combine_cons, List.zip_cons_cons,
          List.sum_cons, ih₁, mul_smul]
        rfl
      · simp only [List.map_cons, List.zipWith_cons_cons, List.zip_cons_cons, List.sum_cons, ih₂,
          mul_assoc]
        rfl

variable {t : F}

theorem commit_combination (h : HonestQueries crs queries) (t : F) :
    crs.commit (combinationValues t (challengedGroups c transcript queries)) =
      ((List.zip queries ((List.range queries.length).map
        ((firstChallenge c transcript queries).1 ^ ·))).map
          fun e ↦ (t - (e.1.point : F))⁻¹ • e.2 • e.1.commitment).sum := by
  obtain ⟨-, hsorted, -⟩ := challengedGroups_spec h (.refl (challengedGroups c transcript queries))
  obtain ⟨-, hsum⟩ := groupProverQueries_spec (M := E) queries
    ((List.range queries.length).map ((firstChallenge c transcript queries).1 ^ ·))
  rw [map_combinationValues _ t hsorted, challengedGroups, hsum]
  congr 1
  apply List.map_congr_left
  intro e he
  rw [h.commit_eq (List.of_mem_zip he).1]

theorem evaluate_combination (h : HonestQueries crs queries) (hp : PrecomputedFor crs.n precomp)
    (ht : ∀ i < crs.n, (secondChallenge c crs transcript queries).1 ≠ (i : F)) :
    weigh crs.n (coefficient (Finset.range crs.n) Nat.cast (secondChallenge c crs transcript queries).1)
        (differenceValues c crs transcript queries) =
      ((List.zip queries ((List.range queries.length).map
        ((firstChallenge c transcript queries).1 ^ ·))).map fun e ↦
          ((secondChallenge c crs transcript queries).1 - (e.1.point : F))⁻¹ *
            (e.2 * e.1.result)).sum := by
  obtain ⟨-, hsorted, hpoint⟩ := challengedGroups_spec h (.refl (challengedGroups c transcript queries))
  obtain ⟨-, hsum⟩ := groupProverQueries_spec (M := F) queries
    ((List.range queries.length).map ((firstChallenge c transcript queries).1 ^ ·))
  rw [differenceValues, evaluate_difference hp.injective ht hpoint hsorted, challengedGroups, hsum]
  congr 1
  apply List.map_congr_left
  intro e he
  rw [h.valuesOf_point (List.of_mem_zip he).1]

section Accepted

/-- After the quotient and the combination, `open` runs the inner product argument. -/
theorem open_eq [DecidableEq F] (S : Schedule F E) (hp : PrecomputedFor crs.n precomp) (hn : 0 < crs.n)
    (hmax : crs.n ≤ 2 ^ 31) (h : HonestQueries crs queries) :
    MultiPoint.open S c crs precomp transcript queries = (do
      let (openProof, transcript') ← create (Transcript.protocol c) S.threads
        (combinedTranscript c crs transcript queries) crs
        ((List.range crs.n).map (differenceValues c crs transcript queries))
        (crs.commit (differenceValues c crs transcript queries))
        ((List.range crs.n).map (coefficient (Finset.range crs.n) Nat.cast
          (secondChallenge c crs transcript queries).1))
        (secondChallenge c crs transcript queries).1
      .ok (⟨openProof, crs.commit (quotientValues crs.n (challengedGroups c transcript queries))⟩,
        transcript')) := by
  have hcombine : openQuotient S c crs precomp transcript queries >>= openCombination S c crs = _ :=
    openCombination_eq S hp hn hmax h
  rw [openQuotient_eq S hp hn hmax h, ok_bind] at hcombine
  rw [MultiPoint.open, openQuotient_eq S hp hn hmax h, ok_bind, hcombine, ok_bind]
  simp only
  rw [evaluateLagrangeCoefficients_eq hp, ok_bind]
  rfl

/-- The verifier reduces its queries to the same inner product statement. -/
theorem check_eq [DecidableEq E] {threads : ℕ} (hthreads : 0 < threads)
    (hp : PrecomputedFor crs.n precomp) (h : HonestQueries crs queries)
    (ht : ∀ i < crs.n, (secondChallenge c crs transcript queries).1 ≠ (i : F)) (openProof : IPAProof F E) :
    (⟨openProof, crs.commit (quotientValues crs.n (challengedGroups c transcript queries))⟩ :
      MultiPointProof F E).check threads c crs precomp (queries.map ProverQuery.toVerifier) transcript =
    openProof.verifyMultiexp (Transcript.protocol c) (combinedTranscript c crs transcript queries) crs
      ((List.range crs.n).map (coefficient (Finset.range crs.n) Nat.cast
        (secondChallenge c crs transcript queries).1))
      (crs.commit (differenceValues c crs transcript queries))
      (secondChallenge c crs transcript queries).1
      (weigh crs.n (coefficient (Finset.range crs.n) Nat.cast
        (secondChallenge c crs transcript queries).1) (differenceValues c crs transcript queries)) := by
  have hlen : 0 < queries.length := List.length_pos_iff.mpr h.nonempty
  have hpowers := powersOfPar_eq hthreads hlen (firstChallenge c transcript queries).1
  obtain ⟨hcomm, hvalue⟩ := zipWith_helperScalars (secondChallenge c crs transcript queries).1 queries
    ((List.range queries.length).map ((firstChallenge c transcript queries).1 ^ ·))
  have hmsm : multiScalarMulPar threads
      ((queries.map ProverQuery.toVerifier).map VerifierQuery.commitment)
      (List.zipWith (fun rI denInv ↦ denInv * rI)
        ((List.range queries.length).map ((firstChallenge c transcript queries).1 ^ ·))
        ((queries.map ProverQuery.toVerifier).map fun query ↦
          ((secondChallenge c crs transcript queries).1 - query.point)⁻¹)) = _ :=
    multiScalarMulPar_eq hthreads (by simpa using hlen) (by simp)
  rw [hcomm, ← commit_combination h] at hmsm
  rw [← evaluate_combination h hp ht] at hvalue
  rw [MultiPointProof.check, List.length_map]
  change powersOfPar threads (firstChallenge c transcript queries).1 queries.length >>= _ = _
  rw [hpowers, ok_bind]
  change multiScalarMulPar threads ((queries.map ProverQuery.toVerifier).map VerifierQuery.commitment)
    (List.zipWith (fun rI denInv ↦ denInv * rI)
      ((List.range queries.length).map ((firstChallenge c transcript queries).1 ^ ·))
      ((queries.map ProverQuery.toVerifier).map fun query ↦
        ((secondChallenge c crs transcript queries).1 - query.point)⁻¹)) >>= _ = _
  rw [hmsm, ok_bind]
  change LagrangeBasis.evaluateLagrangeCoefficients precomp crs.n
    (secondChallenge c crs transcript queries).1 >>= _ = _
  rw [evaluateLagrangeCoefficients_eq hp, ok_bind, ← map_sub, ← hvalue]
  rfl

def openChallenges (S : Schedule F E) (c : Codec F E) (crs : CRS E) (precomp : PrecomputedWeights F)
    (transcript : Transcript) (queries : List (ProverQuery F E)) : Except MultipointPanic (List F) := do
  let q ← openQuotient S c crs precomp transcript queries
  let (g3, g3Comm, transcript) ← openCombination S c crs q
  let b ← LagrangeBasis.evaluateLagrangeCoefficients precomp crs.n q.t
  let outputPoint ← innerProduct g3.values b
  .ok (squeezedChallenges (Transcript.protocol c) transcript crs g3.values g3Comm b q.t outputPoint)

theorem openChallenges_eq (S : Schedule F E) (hp : PrecomputedFor crs.n precomp) (hn : 0 < crs.n)
    (hmax : crs.n ≤ 2 ^ 31) (h : HonestQueries crs queries) :
    openChallenges S c crs precomp transcript queries = .ok (squeezedChallenges (Transcript.protocol c)
      (combinedTranscript c crs transcript queries) crs
      ((List.range crs.n).map (differenceValues c crs transcript queries))
      (crs.commit (differenceValues c crs transcript queries))
      ((List.range crs.n).map (coefficient (Finset.range crs.n) Nat.cast
        (secondChallenge c crs transcript queries).1))
      (secondChallenge c crs transcript queries).1
      (weigh crs.n (coefficient (Finset.range crs.n) Nat.cast
        (secondChallenge c crs transcript queries).1) (differenceValues c crs transcript queries))) := by
  have hcombine : openQuotient S c crs precomp transcript queries >>= openCombination S c crs = _ :=
    openCombination_eq S hp hn hmax h
  rw [openQuotient_eq S hp hn hmax h, ok_bind] at hcombine
  rw [openChallenges, openQuotient_eq S hp hn hmax h, ok_bind, hcombine, ok_bind]
  simp only
  rw [evaluateLagrangeCoefficients_eq hp, ok_bind, tabulate, innerProduct_eq (by simp), ok_bind,
    combine_map_range]

/-- Honest queries, in any order and with any repetitions, over a domain whose size is a power of
two: unless `t` falls into the domain or a round of the inner product argument squeezes zero, `open`
returns the same proof under every schedule, and `check` accepts it with any number of threads. -/
theorem multipoint_completeness [DecidableEq F] [DecidableEq E] {k : ℕ} (hk : crs.n = 2 ^ k) (hmax : crs.n ≤ 2 ^ 31)
    (hp : PrecomputedWeights.new F crs.n = .ok precomp) (h : HonestQueries crs queries)
    (S : Schedule F E)
    (ht : ∀ q, openQuotient S c crs precomp transcript queries = .ok q → ∀ i < crs.n, q.t ≠ (i : F))
    (hx : ∀ xs, openChallenges S c crs precomp transcript queries = .ok xs → ∀ x ∈ xs, x ≠ 0) :
    ∃ proof transcript',
      (∀ S' : Schedule F E, MultiPoint.open S' c crs precomp transcript queries =
        .ok (proof, transcript')) ∧
      ∀ threads, 0 < threads → proof.check threads c crs precomp (queries.map ProverQuery.toVerifier)
        transcript = .ok (true, transcript') := by
  have hp' := PrecomputedWeights.new_spec hp
  have hn : 0 < crs.n := hk ▸ Nat.two_pow_pos k
  have ht' := ht _ (openQuotient_eq S hp' hn hmax h)
  have hx' := hx _ (openChallenges_eq S hp' hn hmax h)
  simp only at ht'
  rw [← combine_generators, ← combine_map_range] at hx'
  obtain ⟨openProof, transcript', hcreate, hverify⟩ := create_verifies S.threads_pos hk (by simp)
    (by simp) hx'
  rw [combine_generators] at hcreate
  rw [combine_generators, combine_map_range] at hverify
  refine ⟨⟨openProof, crs.commit (quotientValues crs.n (challengedGroups c transcript queries))⟩,
    transcript', fun S' ↦ ?_, fun threads hthreads ↦ ?_⟩
  · rw [open_eq S' hp' hn hmax h, create_threads S'.threads_pos S.threads_pos,
      hcreate, ok_bind]
  · rw [check_eq hthreads hp' h ht', hverify]

omit [Field F] [AddCommGroup E] [Module F E] in
theorem generateChallenges_length {T : Type} (P : TranscriptProtocol T F E) {LVec RVec : List E}
    (hlen : LVec.length = RVec.length) (t : T) :
    (generateChallenges P LVec RVec t).1.length = LVec.length := by
  induction LVec generalizing RVec t with
  | nil => rfl
  | cons L LVec ih =>
    cases RVec with
    | nil => cases hlen
    | cons R RVec =>
      rw [generateChallenges_cons, List.length_cons, List.length_cons, ih (by simpa using hlen)]

theorem verifyMultiexp_total [DecidableEq E] {T : Type} (P : TranscriptProtocol T F E)
    {proof : IPAProof F E} (hlen : proof.LVec.length = proof.RVec.length) (t : T) {b : List F}
    (hb : b.length = crs.n) (aComm : E) (inputPoint outputPoint : F) :
    ∃ r, proof.verifyMultiexp P t crs b aComm inputPoint outputPoint = .ok r := by
  rw [IPAProof.verifyMultiexp]
  split
  · exact ⟨_, rfl⟩
  · have hchallenges := generateChallenges_length P hlen
      (absorbStatement P (P.domainSep t (label "ipa")) aComm inputPoint outputPoint).2
    simp only
    rw [if_neg (by simpa using hchallenges), innerProduct_eq (by simp [hb]), ok_bind,
      slowVartimeMultiscalarMul_eq (by simp [hchallenges, ← hlen, crs.size])]
    exact ⟨_, rfl⟩

/-- The check of a proof whose rounds have two messages each returns, whatever the messages are. -/
theorem MultiPointProof.check_total [DecidableEq F] [DecidableEq E] {threads : ℕ} (hthreads : 0 < threads)
    (hp : PrecomputedFor crs.n precomp) {proof : MultiPointProof F E}
    (hlen : proof.openProof.LVec.length = proof.openProof.RVec.length)
    {queries : List (VerifierQuery F E)} (hne : queries ≠ []) (transcript : Transcript) :
    ∃ r, proof.check threads c crs precomp queries transcript = .ok r := by
  have hpos : 0 < queries.length := List.length_pos_iff.mpr hne
  rw [MultiPointProof.check]
  simp only
  rw [powersOfPar_eq hthreads hpos, ok_bind, multiScalarMulPar_eq hthreads (by simpa using hpos) (by simp),
    ok_bind, evaluateLagrangeCoefficients_eq hp, ok_bind]
  exact verifyMultiexp_total _ hlen _ (by simp) ..

end Accepted

end Opening

section Example

def constantCodec : Codec ℚ ℚ := ⟨fun _ ↦ [], fun _ ↦ [], fun _ ↦ 1 / 2⟩

def repeatedQueries : List (ProverQuery ℚ ℚ) :=
  [⟨43, ⟨[3, 4]⟩, 1, 4⟩, ⟨43, ⟨[3, 4]⟩, 0, 3⟩, ⟨43, ⟨[3, 4]⟩, 1, 4⟩]

def reversedSchedule : Schedule ℚ ℚ :=
  ⟨2, List.reverse, .split 1 .sequential .sequential, .sequential, by decide, fun l ↦ l.reverse_perm⟩

theorem multipoint_completeness_repeated :
    ∃ precomp, PrecomputedWeights.new ℚ 2 = .ok precomp ∧ ∃ proof transcript',
      (∀ S' : Schedule ℚ ℚ, MultiPoint.open S' constantCodec ⟨2, [5, 7], 11, rfl⟩ precomp ⟨[]⟩
        repeatedQueries = .ok (proof, transcript')) ∧
      ∀ threads, 0 < threads → proof.check threads constantCodec ⟨2, [5, 7], 11, rfl⟩ precomp
        (repeatedQueries.map ProverQuery.toVerifier) ⟨[]⟩ = .ok (true, transcript') := by
  obtain ⟨precomp, hp⟩ : ∃ precomp, PrecomputedWeights.new ℚ 2 = .ok precomp := by
    have hok : (PrecomputedWeights.new ℚ 2).isOk = true := by decide +kernel
    cases hnew : PrecomputedWeights.new ℚ 2 with
    | ok precomp => exact ⟨precomp, rfl⟩
    | error e =>
      rw [hnew] at hok
      cases hok
  have hp' := PrecomputedWeights.new_spec hp
  have h : HonestQueries ⟨2, [5, 7], 11, rfl⟩ repeatedQueries := by
    refine ⟨by simp [repeatedQueries], fun q hq ↦ ?_, fun q hq ↦ ?_, fun q hq ↦ ?_⟩
    all_goals
      simp only [repeatedQueries, List.mem_cons, List.not_mem_nil, or_false] at hq
      rcases hq with rfl | rfl | rfl
    all_goals norm_num [CRS.commitLagrangePoly, slowVartimeMultiscalarMul, multiScalarMul]
  refine ⟨precomp, hp, multipoint_completeness (k := 1) rfl (by decide) hp h reversedSchedule
    (fun q hq ↦ ?_) fun xs hxs ↦ ?_⟩
  · rw [openQuotient_eq reversedSchedule hp' (by decide) (by decide) h] at hq
    cases hq
    intro i hi
    change (1 / 2 : ℚ) ≠ i
    have hi' : i = 0 ∨ i = 1 := by
      simp only at hi
      omega
    rcases hi' with rfl | rfl
    · norm_num
    · norm_num
  · rw [openChallenges_eq reversedSchedule hp' (by decide) (by decide) h] at hxs
    cases hxs
    intro x hx
    have hhalf : x = 1 / 2 := by
      simpa [squeezedChallenges, absorbStatement, show log2 2 = 1 from log2_pow 1, roundChallenges,
        absorbMessages, Transcript.protocol, Transcript.challengeScalar, constantCodec] using hx
    rw [hhalf]
    norm_num

end Example

end Salt.Multipoint
