import Salt.Trie.StateRoot
import Salt.Library.Runs

namespace Salt.StateRoot

open Library.Triple Library.Runs

section Boundaries

variable {nodes : List ℕ} {taskSize : ℕ}

def Cut (nodes : List ℕ) (boundary : ℕ) : Prop :=
  0 < boundary ∧ boundary < nodes.length ∧ nodes[boundary]? ≠ nodes[boundary - 1]?

variable (nodes) in
theorem alignBoundary_le (fuel boundary : ℕ) : boundary ≤ alignBoundary nodes fuel boundary := by
  induction fuel generalizing boundary with
  | zero => exact le_rfl
  | succ fuel ih =>
    rw [alignBoundary]
    split
    · exact (Nat.le_succ _).trans (ih _)
    · exact le_rfl

theorem alignBoundary_cut {fuel boundary : ℕ} (hpos : 0 < boundary)
    (hfuel : nodes.length ≤ fuel + boundary) (h : alignBoundary nodes fuel boundary < nodes.length) :
    Cut nodes (alignBoundary nodes fuel boundary) := by
  induction fuel generalizing boundary with
  | zero =>
    rw [alignBoundary] at h
    omega
  | succ fuel ih =>
    rw [alignBoundary] at h ⊢
    split
    · rename_i hsame
      rw [if_pos hsame] at h
      exact ih (by omega) (by omega) h
    · rename_i hdiff
      rw [if_neg hdiff] at h
      exact ⟨hpos, h, fun he ↦ hdiff ⟨h, he⟩⟩

variable (nodes taskSize) in
theorem chunkBoundaries_spec (fuel next : ℕ) (hpos : 0 < next) :
    (∀ b ∈ chunkBoundaries nodes taskSize fuel next, next ≤ b ∧ Cut nodes b) ∧
      (chunkBoundaries nodes taskSize fuel next).Pairwise (· ≤ ·) := by
  induction fuel generalizing next with
  | zero => simp [chunkBoundaries]
  | succ fuel ih =>
    have hle := alignBoundary_le nodes nodes.length next
    rw [chunkBoundaries]
    split
    · simp only
      split
      · rename_i hlt
        have hcut := alignBoundary_cut hpos (Nat.le_add_right _ _) hlt
        obtain ⟨hrest, hsorted⟩ := ih (alignBoundary nodes nodes.length next + taskSize) (by omega)
        refine ⟨fun b hb ↦ ?_, List.pairwise_cons.mpr ⟨fun b hb ↦ ?_, hsorted⟩⟩
        · rcases List.mem_cons.mp hb with rfl | hb
          · exact ⟨hle, hcut⟩
          · exact ⟨by have := (hrest b hb).1; omega, (hrest b hb).2⟩
        · have := (hrest b hb).1
          omega
      · simp
    · simp

inductive Pieces (nodes : List ℕ) : ℕ → List (ℕ × ℕ) → Prop
  | last {first : ℕ} (h : first ≤ nodes.length) : Pieces nodes first [(first, nodes.length)]
  | next {first boundary : ℕ} {rest : List (ℕ × ℕ)} (hle : first ≤ boundary) (hcut : Cut nodes boundary)
      (h : Pieces nodes boundary rest) : Pieces nodes first ((first, boundary) :: rest)

theorem pieces_zip {first : ℕ} {inner : List ℕ} (hfirst : first ≤ nodes.length)
    (hinner : ∀ b ∈ inner, first ≤ b ∧ Cut nodes b) (hsorted : inner.Pairwise (· ≤ ·)) :
    Pieces nodes first (List.zip (first :: (inner ++ [nodes.length])) (inner ++ [nodes.length])) := by
  induction inner generalizing first with
  | nil => exact .last hfirst
  | cons b inner ih =>
    obtain ⟨hb, hsorted⟩ := List.pairwise_cons.mp hsorted
    obtain ⟨hle, hcut⟩ := hinner b (List.mem_cons_self ..)
    refine .next hle hcut (ih (le_of_lt hcut.2.1) (fun b' hb' ↦ ?_) hsorted)
    exact ⟨hb b' hb', (hinner b' (List.mem_cons_of_mem _ hb')).2⟩

variable (nodes) in
theorem createNodeAlignedChunks_pieces (h : 1 ≤ taskSize) :
    ∃ chunks, createNodeAlignedChunks nodes taskSize = .ok chunks ∧ Pieces nodes 0 chunks := by
  obtain ⟨hcuts, hsorted⟩ := chunkBoundaries_spec nodes taskSize nodes.length taskSize h
  rw [createNodeAlignedChunks, if_neg (by omega)]
  exact ⟨_, rfl, pieces_zip (Nat.zero_le _) (fun b hb ↦ ⟨Nat.zero_le _, (hcuts b hb).2⟩) hsorted⟩

variable {first : ℕ} {chunks : List (ℕ × ℕ)} {c : ℕ × ℕ}

theorem Pieces.head (h : Pieces nodes first chunks) : chunks.head?.map Prod.fst = some first := by
  cases h with
  | last h => rfl
  | next hle hcut h => rfl

theorem Pieces.getLast (h : Pieces nodes first chunks) :
    chunks.getLast?.map Prod.snd = some nodes.length := by
  induction h with
  | last h => rfl
  | next hle hcut h ih =>
    rw [List.getLast?_cons]
    cases hr : List.getLast? _ with
    | none =>
      rw [hr] at ih
      cases ih
    | some e =>
      rw [hr] at ih
      exact ih

theorem Pieces.chain (h : Pieces nodes first chunks) : chunks.IsChain fun a b ↦ a.2 = b.1 := by
  induction h with
  | last h => exact .singleton _
  | next hle hcut h ih =>
    cases h with
    | last h => exact .cons_cons rfl ih
    | next hle' hcut' h' => exact .cons_cons rfl ih

theorem Pieces.bounds (h : Pieces nodes first chunks) (hc : c ∈ chunks) :
    first ≤ c.1 ∧ c.1 ≤ c.2 ∧ c.2 ≤ nodes.length ∧ (c.1 = first ∨ Cut nodes c.1) ∧
      (c.2 = nodes.length ∨ Cut nodes c.2) := by
  induction h with
  | last h =>
    obtain rfl := List.mem_singleton.mp hc
    exact ⟨le_rfl, h, le_rfl, .inl rfl, .inl rfl⟩
  | next hle hcut h ih =>
    rcases List.mem_cons.mp hc with rfl | hc
    · exact ⟨le_rfl, hle, le_of_lt hcut.2.1, .inl rfl, .inr hcut⟩
    · obtain ⟨h₁, h₂, h₃, h₄, h₅⟩ := ih hc
      refine ⟨hle.trans h₁, h₂, h₃, .inr ?_, h₅⟩
      rcases h₄ with he | hcut'
      · rw [he]
        exact hcut
      · exact hcut'

theorem Cut.lt {b i j : ℕ} (h : Cut nodes b) (hs : nodes.Pairwise (· ≤ ·)) (hi : i < b) (hj : b ≤ j)
    {x y : ℕ} (hx : nodes[i]? = some x) (hy : nodes[j]? = some y) : x < y := by
  have hmono : ∀ {i j : ℕ} {x y : ℕ}, i ≤ j → nodes[i]? = some x → nodes[j]? = some y → x ≤ y := by
    intro i j x y hij hx hy
    obtain ⟨hil, rfl⟩ := List.getElem?_eq_some_iff.mp hx
    obtain ⟨hjl, rfl⟩ := List.getElem?_eq_some_iff.mp hy
    rcases Nat.lt_or_eq_of_le hij with hlt | rfl
    · exact List.pairwise_iff_getElem.mp hs i j hil hjl hlt
    · exact le_rfl
  obtain ⟨hpos, hlen, hne⟩ := h
  have hb := List.getElem?_eq_getElem hlen
  have hb' := List.getElem?_eq_getElem (show b - 1 < nodes.length by omega)
  have h₁ := hmono (show i ≤ b - 1 by omega) hx hb'
  have h₂ := hmono (show b - 1 ≤ b by omega) hb' hb
  have h₃ := hmono hj hb hy
  rw [hb, hb', ne_eq, Option.some.injEq] at hne
  omega

theorem Pieces.whole (h : Pieces nodes 0 chunks) (hs : nodes.Pairwise (· ≤ ·)) (hc : c ∈ chunks) {i j : ℕ}
    (hi : c.1 ≤ i) (hi' : i < c.2) (hj : j < nodes.length) (he : nodes[i]? = nodes[j]?) :
    c.1 ≤ j ∧ j < c.2 := by
  obtain ⟨-, -, hlen, hfirst, hlast⟩ := h.bounds hc
  have hx := List.getElem?_eq_getElem (show i < nodes.length by omega)
  have hy := List.getElem?_eq_getElem hj
  rw [hx, hy, Option.some.injEq] at he
  constructor
  · by_contra hlt
    rcases hfirst with hzero | hcut
    · omega
    · have := hcut.lt hs (by omega) hi hy hx
      omega
  · by_contra hge
    rcases hlast with hend | hcut
    · omega
    · have := hcut.lt hs hi' (by omega) hx hy
      omega

end Boundaries

section Accumulation

variable {C : Type} [AddCommMonoid C] {st : StateRoot C} {com : ℕ → C} {l : List (ℕ × C)}

def change (com : ℕ → C) (e : ℕ × C) : NodeChange C := (e.1, com e.1, com e.1 + e.2)

theorem addToLast_append (acc : TrieUpdates C) (n : ℕ) (old new d : C) :
    addToLast (acc ++ [(n, old, new)]) d = acc ++ [(n, old, new + d)] := by
  induction acc with
  | nil => rfl
  | cons e acc ih =>
    cases acc with
    | nil => rfl
    | cons f acc =>
      rw [List.cons_append, List.cons_append, addToLast, ← List.cons_append, ih]
      · rfl
      · intro n' old' new' _ h
        cases h

theorem addToLast_addToLast (acc : TrieUpdates C) (d s : C) :
    addToLast (addToLast acc d) s = addToLast acc (d + s) := by
  rcases List.eq_nil_or_concat acc with rfl | ⟨acc, e, rfl⟩
  · rfl
  · obtain ⟨n, old, new⟩ := e
    rw [List.concat_eq_append, addToLast_append, addToLast_append, addToLast_append, add_assoc]

def joinRuns (com : ℕ → C) (acc : TrieUpdates C × ℕ) : List (ℕ × C) → TrieUpdates C
  | [] => acc.1
  | (m, s) :: r => if m = acc.2 then addToLast acc.1 s ++ r.map (change com)
    else acc.1 ++ ((m, s) :: r).map (change com)

theorem foldlM_accumulateDelta (hcom : ∀ e ∈ l, st.commitment e.1 = .ok (com e.1))
    (acc : TrieUpdates C × ℕ) :
    ∃ last, l.foldlM (accumulateDelta st) acc = .ok (joinRuns com acc (runs l), last) := by
  induction l generalizing acc with
  | nil => exact ⟨acc.2, rfl⟩
  | cons e l ih =>
    obtain ⟨n, d⟩ := e
    have hl : ∀ e ∈ l, st.commitment e.1 = .ok (com e.1) := fun e he ↦ hcom e (List.mem_cons_of_mem _ he)
    rw [List.foldlM_cons, accumulateDelta, runs]
    by_cases hn : n = acc.2
    · obtain ⟨last, hrun⟩ := ih hl (addToLast acc.1 d, acc.2)
      refine ⟨last, ?_⟩
      rw [if_pos hn, ok_bind, hrun]
      cases runs l with
      | nil => simp [joinRuns, hn]
      | cons f r =>
        obtain ⟨m, s⟩ := f
        by_cases hm : n = m
        · subst hm
          simp [joinRuns, hn, addToLast_addToLast]
        · have hm' : m ≠ acc.2 := fun h ↦ hm (hn.trans h.symm)
          simp [joinRuns, hn, hm', Ne.symm hm']
    · have hc := hcom (n, d) (List.mem_cons_self ..)
      obtain ⟨last, hrun⟩ := ih hl (acc.1 ++ [(n, com n, com n + d)], n)
      refine ⟨last, ?_⟩
      rw [if_neg hn, hc, ok_bind, ok_bind, hrun]
      cases runs l with
      | nil => simp [joinRuns, hn, change]
      | cons f r =>
        obtain ⟨m, s⟩ := f
        by_cases hm : n = m
        · subst hm
          simp [joinRuns, hn, addToLast_append, change, add_assoc]
        · simp [joinRuns, hn, hm, Ne.symm hm, change]

theorem accumulateChunkDeltas_eq {c : ℕ × ℕ} (hcom : ∀ e ∈ l, st.commitment e.1 = .ok (com e.1))
    (hid : ∀ e ∈ l, e.1 < 2 ^ 64 - 1) :
    accumulateChunkDeltas st l c =
      .ok ((runs ((l.drop c.1).take (c.2 - c.1))).map (change com)) := by
  have hsub : ∀ e ∈ (l.drop c.1).take (c.2 - c.1), e ∈ l := fun e he ↦
    List.mem_of_mem_drop (List.mem_of_mem_take he)
  obtain ⟨last, hrun⟩ := foldlM_accumulateDelta (l := (l.drop c.1).take (c.2 - c.1))
    (fun e he ↦ hcom e (hsub e he)) ([], 2 ^ 64 - 1)
  rw [accumulateChunkDeltas, hrun, ok_bind]
  cases hslice : (l.drop c.1).take (c.2 - c.1) with
  | nil => rfl
  | cons e rest =>
    obtain ⟨s, r, hr⟩ := runs_head e rest
    have hlt := hid e (hsub e (by rw [hslice]; exact List.mem_cons_self ..))
    rw [hr, joinRuns, if_neg (by omega), List.nil_append]

theorem Pieces.accumulate {first : ℕ} {chunks : List (ℕ × ℕ)}
    (h : Pieces (l.map Prod.fst) first chunks)
    (hcom : ∀ e ∈ l, st.commitment e.1 = .ok (com e.1)) (hid : ∀ e ∈ l, e.1 < 2 ^ 64 - 1) :
    ∃ results, chunks.mapM (accumulateChunkDeltas st l) = .ok results ∧
      results.flatten = (runs (l.drop first)).map (change com) := by
  induction h with
  | @last first h =>
    refine ⟨_, mapM_eq_ok (g := fun c ↦ (runs ((l.drop c.1).take (c.2 - c.1))).map (change com)) _
      fun c _ ↦ accumulateChunkDeltas_eq hcom hid, ?_⟩
    rw [List.length_map]
    have hlen : l.length - first = (l.drop first).length := List.length_drop.symm
    simp only [List.map_cons, List.map_nil, List.flatten_cons, List.flatten_nil, List.append_nil, hlen,
      List.take_length]
  | @next first b rest hle hcut h ih =>
    obtain ⟨results, hresults, hflat⟩ := ih
    refine ⟨(runs ((l.drop first).take (b - first))).map (change com) :: results, ?_, ?_⟩
    · rw [List.mapM_cons, accumulateChunkDeltas_eq hcom hid, ok_bind, hresults]
      rfl
    · rw [List.flatten_cons, hflat, ← List.map_append]
      congr 1
      obtain ⟨hpos, hlen, hne⟩ := hcut
      rw [List.length_map] at hlen
      rcases Nat.eq_or_lt_of_le hle with rfl | hlt
      · simp [runs]
      have hsplit : l.drop first = (l.drop first).take (b - first) ++ l.drop b := by
        conv_lhs => rw [← List.take_append_drop (b - first) (l.drop first)]
        rw [List.drop_drop, Nat.add_sub_cancel' hle]
      have hpiece : (l.drop first).take (b - first) =
          (l.drop first).take (b - 1 - first) ++ [l[b - 1]] := by
        have hget : (l.drop first)[b - 1 - first]? = some l[b - 1] := by
          rw [List.getElem?_drop, show first + (b - 1 - first) = b - 1 by omega,
            List.getElem?_eq_getElem (by omega)]
        rw [show b - first = b - 1 - first + 1 by omega, List.take_add_one, hget]
        rfl
      conv_rhs => rw [hsplit, hpiece, List.append_assoc, List.singleton_append]
      rw [hpiece]
      refine (runs_append fun f hf he ↦ ?_).symm
      rw [List.head?_drop, Option.mem_def] at hf
      apply hne
      rw [List.getElem?_map, List.getElem?_map, hf, List.getElem?_eq_getElem (by omega)]
      simp [he]

/-- Deltas add up by node, whatever their order and however they are cut up. -/
theorem addCommitmentDeltas_eq {deltas : List (ℕ × C)} {taskSize : ℕ} (htask : 1 ≤ taskSize)
    (hid : ∀ e ∈ deltas, e.1 < 2 ^ 64 - 1) (hcom : ∀ e ∈ deltas, st.commitment e.1 = .ok (com e.1)) :
    st.addCommitmentDeltas deltas taskSize = .ok (((deltas.map Prod.fst).toFinset.sort (· ≤ ·)).map
      fun n ↦ (n, com n, com n + sumAt deltas n)) := by
  have hperm := List.mergeSort_perm deltas fun a b ↦ decide (a.1 ≤ b.1)
  have hsorted : (deltas.mergeSort fun a b ↦ decide (a.1 ≤ b.1)).Pairwise fun a b ↦ a.1 ≤ b.1 := by
    have h : (deltas.mergeSort fun a b ↦ decide (a.1 ≤ b.1)).Pairwise
        fun a b ↦ decide (a.1 ≤ b.1) = true :=
      List.pairwise_mergeSort (fun a b c ↦ by simpa using le_trans)
        (fun a b ↦ by simpa using le_total a.1 b.1) deltas
    exact h.imp fun h ↦ by simpa using h
  obtain ⟨chunks, hchunks, hpieces⟩ := createNodeAlignedChunks_pieces
    ((deltas.mergeSort fun a b ↦ decide (a.1 ≤ b.1)).map Prod.fst) htask
  have hread : ∀ e ∈ deltas.mergeSort fun a b ↦ decide (a.1 ≤ b.1), st.commitment e.1 = .ok (com e.1) :=
    fun e he ↦ hcom e (hperm.mem_iff.mp he)
  obtain ⟨results, hresults, hflat⟩ := hpieces.accumulate hread fun e he ↦ hid e (hperm.mem_iff.mp he)
  have hnodes : ((deltas.mergeSort fun a b ↦ decide (a.1 ≤ b.1)).map Prod.fst).toFinset =
      (deltas.map Prod.fst).toFinset := by
    ext n
    rw [List.mem_toFinset, List.mem_toFinset, (hperm.map Prod.fst).mem_iff]
  rw [addCommitmentDeltas]
  simp only [hchunks, ok_bind, hresults, hflat, List.drop_zero]
  rw [runs_eq hsorted, hnodes, List.map_map]
  refine congrArg Except.ok (List.map_congr_left fun n _ ↦ ?_)
  rw [Function.comp_apply, change, sumAt_perm hperm]

end Accumulation

section Exactness

variable {C : Type} [AddCommMonoid C] {st : StateRoot C} {com : ℕ → C} {deltas : List (ℕ × C)}
  {taskSize : ℕ}

/-- One change for each node, in ascending order, with all its deltas; the chunks are consecutive,
cover the list and keep the deltas of a node together. -/
theorem add_commitment_deltas_exact (htask : 1 ≤ taskSize) (hid : ∀ e ∈ deltas, e.1 < 2 ^ 64 - 1)
    (hcom : ∀ e ∈ deltas, st.commitment e.1 = .ok (com e.1)) :
    st.addCommitmentDeltas deltas taskSize = .ok (((deltas.map Prod.fst).toFinset.sort (· ≤ ·)).map
      fun n ↦ (n, com n, com n + ((deltas.filter (·.1 = n)).map Prod.snd).sum)) ∧
    (∀ deltas' taskSize', deltas'.Perm deltas → 1 ≤ taskSize' →
      st.addCommitmentDeltas deltas' taskSize' = st.addCommitmentDeltas deltas taskSize) ∧
    ∀ nodes : List ℕ, nodes.Pairwise (· ≤ ·) → ∃ chunks, createNodeAlignedChunks nodes taskSize = .ok chunks ∧
      chunks.head?.map Prod.fst = some 0 ∧ chunks.getLast?.map Prod.snd = some nodes.length ∧
      chunks.IsChain (fun a b ↦ a.2 = b.1) ∧
      ∀ c ∈ chunks, c.1 ≤ c.2 ∧ ∀ i j, c.1 ≤ i → i < c.2 → j < nodes.length → nodes[i]? = nodes[j]? →
        c.1 ≤ j ∧ j < c.2 := by
  have hexact := addCommitmentDeltas_eq htask hid hcom
  refine ⟨hexact, fun deltas' taskSize' hperm htask' ↦ ?_, fun nodes hs ↦ ?_⟩
  · have hnodes : (deltas'.map Prod.fst).toFinset = (deltas.map Prod.fst).toFinset := by
      ext n
      rw [List.mem_toFinset, List.mem_toFinset, (hperm.map Prod.fst).mem_iff]
    rw [hexact, addCommitmentDeltas_eq htask' (fun e he ↦ hid e (hperm.mem_iff.mp he))
      fun e he ↦ hcom e (hperm.mem_iff.mp he), hnodes]
    refine congrArg Except.ok (List.map_congr_left fun n _ ↦ ?_)
    rw [sumAt_perm hperm]
  · obtain ⟨chunks, hchunks, hpieces⟩ := createNodeAlignedChunks_pieces nodes htask
    refine ⟨chunks, hchunks, hpieces.head, hpieces.getLast, hpieces.chain, fun c hc ↦ ⟨?_, ?_⟩⟩
    · exact (hpieces.bounds hc).2.1
    · intro i j hi hi' hj he
      exact hpieces.whole hs hc hi hi' hj he

/-- Two deltas of node 7 around one of node 3, over a reader that knows every node as zero. -/
theorem add_commitment_deltas_exact_three :
    (StateRoot.new (C := ℤ) ⟨fun _ ↦ .ok 0, fun _ ↦ .ok 1⟩).addCommitmentDeltas [(7, 2), (3, 5), (7, 4)] 1 =
      .ok [(3, 0, 5), (7, 0, 6)] := by
  have hread : ∀ e ∈ [((7 : ℕ), (2 : ℤ)), (3, 5), (7, 4)],
      (StateRoot.new (C := ℤ) ⟨fun _ ↦ .ok 0, fun _ ↦ .ok 1⟩).commitment e.1 = .ok ((fun _ ↦ 0) e.1) :=
    fun e _ ↦ by simp [commitment, StateRoot.new]
  have hnodes : (([(7, 2), (3, 5), (7, 4)] : List (ℕ × ℤ)).map Prod.fst).toFinset.sort (· ≤ ·) = [3, 7] := by
    rw [show (([(7, 2), (3, 5), (7, 4)] : List (ℕ × ℤ)).map Prod.fst).toFinset = [3, 7].toFinset by decide]
    exact (List.toFinset_sort _ (by decide)).mpr (by decide)
  have hid : ∀ e ∈ [((7 : ℕ), (2 : ℤ)), (3, 5), (7, 4)], e.1 < 2 ^ 64 - 1 := by decide
  have h := (@add_commitment_deltas_exact ℤ _ _ (fun _ ↦ 0) _ _ (le_refl 1) hid hread).1
  rw [h, hnodes]
  decide +kernel

end Exactness

end Salt.StateRoot
