import Salt.Proof.Verify

namespace Salt

open Std (ExtTreeMap ExtTreeSet)
open Library.Triple Library.Workers Library.Chunks
open Multipoint (MultiPointProof divCeil)

def childOf (p : ℕ × ℕ) : ℕ := getChildNode ((logicParentId p.1).toOption.getD 0) p.2

theorem childOf_eq {n q parent : ℕ} (h : logicParentId n = .ok parent) :
    childOf (n, q) = getChildNode parent q := by
  rw [childOf, h]
  rfl

section Internal

variable {C F : Type} {hash : C → F} {pc : ExtTreeMap ℕ C} {nodes : List (ℕ × ExtTreeSet ℕ)}
  {com : ℕ → C} {m : Points}

theorem getCommitmentSafe_sat (n : ℕ) : Sat (getCommitmentSafe pc n) Refusal fun c ↦ pc[n]? = some c := by
  rw [getCommitmentSafe]
  cases hc : pc[n]? with
  | some c => exact Sat.ok rfl
  | none => exact Sat.error ⟨_, rfl⟩

theorem getCommitmentSafe_eq {n : ℕ} {c : C} (h : pc[n]? = some c) : getCommitmentSafe pc n = .ok c := by
  rw [getCommitmentSafe, h]

theorem childrenCommitments_sat (h : ∀ e ∈ nodes, ∃ parent, logicParentId e.1 = .ok parent) :
    Sat (childrenCommitments pc nodes) Refusal
      fun _ ↦ ∀ e ∈ nodes, ∀ q ∈ e.2.toList, childOf (e.1, q) ∈ pc := by
  have hpoint : ∀ e ∈ nodes, ∀ q, Sat (do
      let parent ← unpanicked (logicParentId e.1)
      let c ← getCommitmentSafe pc (getChildNode parent q)
      .ok (getChildNode parent q, c)) Refusal fun _ ↦ childOf (e.1, q) ∈ pc := by
    intro e he q
    obtain ⟨parent, hparent⟩ := h e he
    rw [hparent, childOf_eq hparent]
    refine (getCommitmentSafe_sat (getChildNode parent q)).bind fun c hc ↦ Sat.ok ?_
    exact ExtTreeMap.mem_iff_isSome_getElem?.mpr (by rw [hc]; rfl)
  refine (sat_mapM fun e he ↦ (sat_mapM fun q _ ↦ (hpoint e he q).mono fun _ _ ↦ trivial).mono
    fun _ _ ↦ trivial).bind fun parts hparts ↦ Sat.ok fun e he q hq ↦ ?_
  obtain ⟨part, -, hpart⟩ := (mapM_ok hparts).1 e he
  obtain ⟨child, -, hchild⟩ := (mapM_ok hpart).1 q hq
  exact (hpoint e he q).of_eq_ok hchild

theorem childrenCommitments_eq (h : ∀ e ∈ nodes, ∃ parent, logicParentId e.1 = .ok parent)
    (hchild : ∀ e ∈ nodes, ∀ q ∈ e.2.toList, pc[childOf (e.1, q)]? = some (com (childOf (e.1, q)))) :
    childrenCommitments pc nodes = .ok (nodes.flatMap fun e ↦
      e.2.toList.map fun q ↦ (childOf (e.1, q), com (childOf (e.1, q)))) := by
  have hnode : ∀ e ∈ nodes, e.2.toList.mapM (fun point ↦ do
      let parent ← unpanicked (logicParentId e.1)
      let c ← getCommitmentSafe pc (getChildNode parent point)
      .ok (getChildNode parent point, c)) =
      .ok (e.2.toList.map fun q ↦ (childOf (e.1, q), com (childOf (e.1, q)))) := by
    intro e he
    obtain ⟨parent, hparent⟩ := h e he
    apply mapM_eq_ok
    intro q hq
    have hc := hchild e he q hq
    rw [childOf_eq hparent] at hc ⊢
    rw [hparent]
    simp only [unpanicked, ok_bind, getCommitmentSafe_eq hc]
  rw [childrenCommitments, mapM_eq_ok nodes hnode, ok_bind, List.flatMap]

theorem childMap_getElem (hash : C → F) (children : List (ℕ × C)) (acc : ExtTreeMap ℕ F) {i : ℕ}
    (hi : i ∈ acc ∨ i ∈ children.map Prod.fst) :
    i ∈ children.foldl (fun m e ↦ m.insert e.1 (hash e.2)) acc := by
  induction children generalizing acc with
  | nil => simpa using hi
  | cons e children ih =>
    rw [List.foldl_cons]
    apply ih
    rw [List.map_cons, List.mem_cons] at hi
    rw [ExtTreeMap.mem_insert, Std.LawfulEqCmp.compare_eq_iff_eq]
    tauto

theorem chunkQueries_sat (h : ∀ e ∈ nodes, ∃ parent, logicParentId e.1 = .ok parent) :
    Sat (chunkQueries hash pc nodes) Refusal
      fun _ ↦ ∀ e ∈ nodes, ∀ q ∈ e.2.toList, childOf (e.1, q) ∈ pc := by
  refine (childrenCommitments_sat h).bind fun children hchildren ↦ ?_
  refine Sat.bind (sat_mapM fun e he ↦ ?_) fun queries _ ↦ Sat.ok hchildren
  obtain ⟨parent, hparent⟩ := h e he
  refine (getCommitmentSafe_sat _).bind fun c _ ↦ (sat_mapM fun q _ ↦ ?_).mono fun _ _ ↦ trivial
  rw [hparent]
  simp only [unpanicked, ok_bind]
  split
  · exact Sat.ok trivial
  · exact Sat.error ⟨_, rfl⟩

theorem chunkQueries_eq (h : ∀ e ∈ nodes, ∃ parent, logicParentId e.1 = .ok parent)
    (hparent : ∀ e ∈ nodes, pc[connectParentId e.1]? = some (com (connectParentId e.1)))
    (hchild : ∀ e ∈ nodes, ∀ q ∈ e.2.toList, pc[childOf (e.1, q)]? = some (com (childOf (e.1, q)))) :
    chunkQueries hash pc nodes = .ok (nodes.flatMap fun e ↦
      e.2.toList.map fun q ↦ ⟨com (connectParentId e.1), q, hash (com (childOf (e.1, q)))⟩) := by
  have hchildren := childrenCommitments_eq h hchild
  rw [chunkQueries, hchildren, ok_bind]
  simp only
  rw [mapM_eq_ok (g := fun e ↦ e.2.toList.map fun q ↦
    ⟨com (connectParentId e.1), q, hash (com (childOf (e.1, q)))⟩), ok_bind, List.flatMap]
  intro e he
  obtain ⟨parent, hp⟩ := h e he
  rw [nodeQueries, getCommitmentSafe_eq (hparent e he), ok_bind]
  apply mapM_eq_ok
  intro q hq
  have hc := hchild e he q hq
  have hmem := childMap_getElem hash (nodes.flatMap fun e ↦ e.2.toList.map fun q ↦
    (childOf (e.1, q), com (childOf (e.1, q)))) ∅ (i := childOf (e.1, q))
    (.inr (by
      simp only [List.mem_map, List.mem_flatMap]
      exact ⟨_, ⟨e, he, q, hq, rfl⟩, rfl⟩))
  obtain ⟨fr, hfr⟩ := Option.isSome_iff_exists.mp (ExtTreeMap.mem_iff_isSome_getElem?.mp hmem)
  obtain ⟨c, hc', rfl⟩ := childMap_hash hchildren hfr
  obtain rfl : com (childOf (e.1, q)) = c := Option.some.inj (hc.symm.trans hc')
  rw [hp]
  simp only [unpanicked, ok_bind]
  rw [childOf_eq hp] at hfr
  rw [hfr, childOf_eq hp]

theorem chunkQueries_panics {e : ℕ × ExtTreeSet ℕ} {p : Panic} (h : logicParentId e.1 = .error p)
    {q : ℕ} (hq : q ∈ e.2.toList) : chunkQueries hash pc [e] = .error (.panic p) := by
  have hpoints : e.2.toList.mapM (fun point ↦ do
      let parent ← unpanicked (logicParentId e.1)
      let c ← getCommitmentSafe pc (getChildNode parent point)
      .ok (getChildNode parent point, c)) = .error (.panic p) := by
    obtain ⟨q₀, rest, hlist⟩ := List.exists_cons_of_ne_nil (List.ne_nil_of_mem hq)
    rw [hlist, List.mapM_cons, h]
    rfl
  rw [chunkQueries, childrenCommitments, List.mapM_cons, hpoints]
  rfl

theorem mem_of_mem_chunks {α : Type} {size : ℕ} (hs : 0 < size) {l chunk : List α} {a : α}
    (hchunk : chunk ∈ chunks size l) (ha : a ∈ chunk) : a ∈ l := by
  rw [← flatten_chunks hs l]
  exact List.mem_flatten.mpr ⟨chunk, hchunk, ha⟩

theorem internalQueriesPar_sat (S : ProofSchedule) (hne : m.toList ≠ [])
    (h : ∀ e ∈ m.toList, ∃ parent, logicParentId e.1 = .ok parent) :
    Sat (internalQueriesPar hash pc S m) Refusal
      fun _ ↦ ∀ p, m.Opens p → childOf p ∈ pc := by
  have hsize := Multipoint.divCeil_pos (List.length_pos_iff.mpr hne) S.threads_pos
  have hchunk : ∀ chunk ∈ chunks (divCeil m.toList.length S.threads) m.toList,
      Sat (chunkQueries hash pc chunk) Refusal
        fun _ ↦ ∀ e ∈ chunk, ∀ q ∈ e.2.toList, childOf (e.1, q) ∈ pc :=
    fun chunk hchunk ↦ chunkQueries_sat fun e he ↦ h e (mem_of_mem_chunks hsize hchunk he)
  rw [internalQueriesPar]
  simp only [if_neg hsize.ne']
  refine (sat_parMapM S.internalFirst fun chunk hmem ↦ (hchunk chunk hmem).mono fun _ _ ↦ trivial).bind
    fun queries hqueries ↦ Sat.ok fun p hp ↦ ?_
  obtain ⟨n, q⟩ := p
  obtain ⟨s, hs, hq⟩ := hp.mem
  rw [← flatten_chunks hsize m.toList] at hs
  obtain ⟨chunk, hmem, hs⟩ := List.mem_flatten.mp hs
  obtain ⟨part, -, hpart⟩ := (mapM_ok hqueries).1 chunk hmem
  exact (hchunk chunk hmem).of_eq_ok hpart _ hs q hq

theorem internalQueriesPar_eq (S : ProofSchedule) (com : ℕ → C) (hne : m.toList ≠ [])
    (h : ∀ e ∈ m.toList, ∃ parent, logicParentId e.1 = .ok parent)
    (hparent : ∀ e ∈ m.toList, pc[connectParentId e.1]? = some (com (connectParentId e.1)))
    (hchild : ∀ e ∈ m.toList, ∀ q ∈ e.2.toList, pc[childOf (e.1, q)]? = some (com (childOf (e.1, q)))) :
    internalQueriesPar hash pc S m = .ok (m.toList.flatMap fun e ↦
      e.2.toList.map fun q ↦ ⟨com (connectParentId e.1), q, hash (com (childOf (e.1, q)))⟩) := by
  have hsize := Multipoint.divCeil_pos (List.length_pos_iff.mpr hne) S.threads_pos
  have hchunk : ∀ chunk ∈ chunks (divCeil m.toList.length S.threads) m.toList,
      chunkQueries hash pc chunk = .ok (chunk.flatMap fun e ↦ e.2.toList.map fun q ↦
        ⟨com (connectParentId e.1), q, hash (com (childOf (e.1, q)))⟩) := by
    intro chunk hchunk
    exact chunkQueries_eq (fun e he ↦ h e (mem_of_mem_chunks hsize hchunk he))
      (fun e he ↦ hparent e (mem_of_mem_chunks hsize hchunk he))
      fun e he ↦ hchild e (mem_of_mem_chunks hsize hchunk he)
  rw [internalQueriesPar]
  simp only [if_neg hsize.ne']
  rw [parMapM_eq_ok _ hchunk, ok_bind, ← List.flatMap, ← List.flatMap_assoc, List.flatMap_id',
    flatten_chunks hsize]

theorem chunks_one {α : Type} (l : List α) : chunks 1 l = l.map fun a ↦ [a] := by
  have key : ∀ (n : ℕ) (l : List α), l.length ≤ n → chunksUpTo 1 n l = l.map fun a ↦ [a] := by
    intro n
    induction n with
    | zero =>
      intro l hl
      rw [List.length_eq_zero_iff.mp (Nat.le_zero.mp hl)]
      rfl
    | succ n ih =>
      intro l hl
      cases l with
      | nil => rfl
      | cons a l =>
        rw [chunksUpTo, List.map_cons, List.drop_one, List.tail_cons, ih l (by simpa using hl)]
        rfl
  exact key _ l le_rfl

/-- With one thread for each node, a node without logical parent can be reached first. -/
theorem exists_internal_panic (hash : C → F) (pc : ExtTreeMap ℕ C) {n q : ℕ} {p : Panic} (hopen : m.Opens (n, q))
    (h : logicParentId n = .error p) :
    ∃ S, internalQueriesPar hash pc S m = .error (.panic p) := by
  obtain ⟨s, hs, hq⟩ := hopen.mem
  have hpos : 0 < m.toList.length := List.length_pos_of_mem hs
  have hsize : divCeil m.toList.length m.toList.length = 1 := by
    rw [divCeil]
    exact Nat.div_eq_of_lt_le (by omega) (by omega)
  obtain ⟨first, hfirst⟩ := exists_parMapM_error (f := chunkQueries hash pc)
    (l := chunks 1 m.toList) (a := [(n, s)]) (e := .panic p)
    (by rw [chunks_one]; exact List.mem_map_of_mem hs) (chunkQueries_panics h hq)
  refine ⟨⟨m.toList.length, hpos, first, []⟩, ?_⟩
  rw [internalQueriesPar]
  simp only [hsize, Nat.one_ne_zero, if_false, hfirst]
  rfl

end Internal

section Leaves

variable {C F : Type} {digest : Bytes → F} {emptySlotHash : F} {pc : ExtTreeMap ℕ C}
  {kvs : ExtTreeMap SaltKey (Option SaltValue)} {m : Points} {e : ℕ × ExtTreeSet ℕ}

theorem sat_mapM_prefix {ε α β : Type} {A : ε → Prop} {f : α → Except ε β} {l : List α}
    (h : ∀ pre a post, l = pre ++ a :: post → (∀ b ∈ pre, ∃ r, f b = .ok r) →
      Sat (f a) A fun _ ↦ True) : Sat (l.mapM f) A fun _ ↦ True := by
  induction l with
  | nil => exact Sat.ok trivial
  | cons a l ih =>
    rw [List.mapM_cons]
    have ha := h [] a l rfl fun b hb ↦ by cases hb
    cases hfa : f a with
    | error x => exact Sat.error (ha.of_eq_error hfa)
    | ok r =>
      rw [ok_bind]
      refine (ih fun pre b post hl hpre ↦ ?_).bind fun _ _ ↦ Sat.ok trivial
      refine h (a :: pre) b post (by rw [hl]; rfl) fun c hc ↦ ?_
      rcases List.mem_cons.mp hc with rfl | hc
      · exact ⟨r, hfa⟩
      · exact hpre c hc

theorem mapM_panics_of_prefix {α β : Type} {f : α → Except ProofFault β} {pre post : List α} {a : α} {p : Panic}
    (hpre : ∀ b ∈ pre, Sat (f b) (fun y ↦ ∃ p, y = .panic p) fun _ ↦ True) (ha : f a = .error (.panic p)) :
    ∃ p, (pre ++ a :: post).mapM f = .error (.panic p) := by
  induction pre with
  | nil =>
    refine ⟨p, ?_⟩
    rw [List.nil_append, List.mapM_cons, ha]
    rfl
  | cons b pre ih =>
    have hb := hpre b (List.mem_cons_self ..)
    cases hfb : f b with
    | error y =>
      obtain ⟨p', rfl⟩ := hb.of_eq_error hfb
      refine ⟨p', ?_⟩
      rw [List.cons_append, List.mapM_cons, hfb]
      rfl
    | ok r =>
      obtain ⟨p', hp'⟩ := ih fun c hc ↦ hpre c (List.mem_cons_of_mem _ hc)
      refine ⟨p', ?_⟩
      rw [List.cons_append, List.mapM_cons, hfb, ok_bind, hp']
      rfl

theorem mem_prefix_iff {s : ExtTreeSet ℕ} {pre post : List ℕ} {q r : ℕ}
    (h : s.toList = pre ++ q :: post) : r ∈ pre ↔ r ∈ s ∧ r < q := by
  have hord : (pre ++ q :: post).Pairwise (· < ·) := by
    rw [← h]
    exact s.ordered_toList.imp fun hlt ↦ Nat.compare_eq_lt.mp hlt
  rw [List.pairwise_append, List.pairwise_cons] at hord
  obtain ⟨-, ⟨hpost, -⟩, hcross⟩ := hord
  have hmem : r ∈ s ↔ r ∈ pre ++ q :: post := by rw [← h, ExtTreeSet.mem_toList]
  rw [hmem, List.mem_append, List.mem_cons]
  constructor
  · intro hr
    exact ⟨.inl hr, hcross r hr q (List.mem_cons_self ..)⟩
  · rintro ⟨hr | rfl | hr, hlt⟩
    · exact hr
    · omega
    · have := hpost r hr
      omega

/-- Wherever the smaller positions of the leaf are all witnessed, a record found at the position
fits its 94 bytes. -/
def LeafFits (kvs : ExtTreeMap SaltKey (Option SaltValue)) (m : Points) : Prop :=
  ∀ n q, m.Opens (n, q) → (∀ r < q, m.Opens (n, r) → slotKey (n, r) ∈ kvs) →
    ∀ v, kvs[slotKey (n, q)]? = some (some v) → v.Fits

theorem leafQueries_sat (he : e ∈ m.toList) (h : LeafFits kvs m) :
    Sat (leafQueries digest emptySlotHash pc kvs e) Refusal fun _ ↦ True := by
  obtain ⟨n, s⟩ := e
  have hs : m[n]? = some s := ExtTreeMap.mem_toList_iff_getElem?_eq_some.mp he
  have hopens : ∀ r, m.Opens (n, r) ↔ r ∈ s := by
    intro r
    simp [Points.Opens, hs]
  refine (getCommitmentSafe_sat _).bind fun c _ ↦ sat_mapM_prefix fun pre q post hl hpre ↦ ?_
  simp only
  cases hkv : kvs[slotKey (n, q)]? with
  | none => exact Sat.error ⟨_, rfl⟩
  | some entry =>
    have hq : q ∈ s := by
      rw [← ExtTreeSet.mem_toList]
      exact hl ▸ List.mem_append_right _ (List.mem_cons_self ..)
    have hfits : ∀ v, entry = some v → v.Fits := by
      rintro v rfl
      refine h n q ((hopens q).mpr hq) (fun r hr hopen ↦ ?_) v hkv
      obtain ⟨x, hx⟩ := hpre r ((mem_prefix_iff hl).mpr ⟨(hopens r).mp hopen, hr⟩)
      simp only at hx
      split at hx
      · rename_i heq
        exact ExtTreeMap.mem_iff_isSome_getElem?.mpr (by rw [heq]; rfl)
      · cases hx
    simp only [slotToFieldChecked_ok hfits]
    exact Sat.ok trivial

theorem leafQueriesPar_sat (S : ProofSchedule) (h : LeafFits kvs m) :
    Sat (leafQueriesPar digest emptySlotHash pc S m kvs) Refusal fun _ ↦ True :=
  (sat_parMapM S.leafFirst fun _ he ↦ leafQueries_sat he h).bind fun _ _ ↦ Sat.ok trivial

theorem exists_leaf_panic (digest : Bytes → F) (emptySlotHash : F) (hpc : ∀ n ∈ m, connectParentId n ∈ pc)
    (h : ¬ LeafFits kvs m)
    (threads : ℕ) (hthreads : 0 < threads) (internalFirst : List ℕ) :
    ∃ leafFirst p, leafQueriesPar digest emptySlotHash pc ⟨threads, hthreads, internalFirst, leafFirst⟩
      m kvs = .error (.panic p) := by
  simp only [LeafFits, not_forall] at h
  obtain ⟨n, q, hopen, hsmaller, v, hkv, hfits⟩ := h
  obtain ⟨s, hs, hq⟩ := hopen
  have hmem : (n, s) ∈ m.toList := ExtTreeMap.mem_toList_iff_getElem?_eq_some.mpr hs
  obtain ⟨c, hc⟩ := Option.isSome_iff_exists.mp (ExtTreeMap.mem_iff_isSome_getElem?.mp
    (hpc n (ExtTreeMap.mem_iff_isSome_getElem?.mpr (by rw [hs]; rfl))))
  obtain ⟨pre, post, hl⟩ := List.append_of_mem (ExtTreeSet.mem_toList.mpr hq)
  have hleaf : ∃ p, leafQueries digest emptySlotHash pc kvs (n, s) = .error (.panic p) := by
    rw [leafQueries, getCommitmentSafe_eq hc, ok_bind, hl]
    refine mapM_panics_of_prefix (p := .sliceOutOfRange) (fun r hr ↦ ?_) ?_
    · obtain ⟨hrs, hrq⟩ := (mem_prefix_iff hl).mp hr
      have hkey := hsmaller r hrq ⟨s, hs, hrs⟩
      obtain ⟨entry, hentry⟩ := Option.isSome_iff_exists.mp (ExtTreeMap.mem_iff_isSome_getElem?.mp hkey)
      simp only [hentry]
      cases slotToFieldChecked digest emptySlotHash entry with
      | ok a => exact Sat.ok trivial
      | error p => exact Sat.error ⟨p, rfl⟩
    · simp only [hkv, slotToFieldChecked_panics hfits]
      rfl
  obtain ⟨p, hp⟩ := hleaf
  obtain ⟨first, hfirst⟩ := exists_parMapM_error hmem hp
  refine ⟨first, p, ?_⟩
  simp only [leafQueriesPar, hfirst]
  rfl

end Leaves

section Untrusted

variable {F E : Type} [Field F] [DecidableEq F] {sys : ProofSystem F E} {w : SaltWitness E}

def TurnedAway (w : SaltWitness E) : Prop :=
  0 ∉ w.proof.parentsCommitments ∨ w.kvs.isEmpty ∨
    ¬ ∀ b, b ∈ w.proof.levels ↔ ∃ key ∈ w.kvs.keys, key.bucketId = b

def Matching (w : SaltWitness E) : Prop :=
  ∀ n, n ∈ w.proof.parentsCommitments ↔
    ∃ p, (PathOf w.proof.levels w.kvs.keys p ∨ SlotOf w.proof.levels w.kvs.keys p) ∧ connectParentId p.1 = n

def Linked (w : SaltWitness E) : Prop :=
  ∀ p, PathOf w.proof.levels w.kvs.keys p → childOf p ∈ w.proof.parentsCommitments

/-- What keeps the check of a witness from panicking, stage by stage: the index, the climb of the
bucket trees, the translation of bridge nodes, the hashes of the slots. -/
structure Checkable (w : SaltWitness E) : Prop where
  keys : KeysInRange w
  depth : ¬ TurnedAway w → ∀ b level : ℕ, w.proof.levels[b]? = some level → level ≤ 6
  bridge : ¬ TurnedAway w → Matching w → ∀ b : ℕ, w.proof.levels[b]? ≠ some 6
  values : ¬ TurnedAway w → Matching w → Linked w →
    ∀ n q : ℕ, SlotOf w.proof.levels w.kvs.keys (n, q) →
      (∀ r < q, SlotOf w.proof.levels w.kvs.keys (n, r) → slotKey (n, r) ∈ w.kvs) →
      ∀ v, w.kvs[slotKey (n, q)]? = some (some v) → v.Fits

theorem exists_key_of_level (hw : ¬ TurnedAway w) {b level : ℕ} (hb : w.proof.levels[b]? = some level) :
    ∃ key ∈ w.kvs.keys, key.bucketId = b := by
  simp only [TurnedAway, not_or, not_not] at hw
  exact (hw.2.2 b).mp (ExtTreeMap.mem_iff_isSome_getElem?.mpr (by rw [hb]; rfl))

theorem exists_level_of_key (hw : ¬ TurnedAway w) {key : SaltKey} (hkey : key ∈ w.kvs.keys) :
    ∃ level, w.proof.levels[key.bucketId]? = some level := by
  simp only [TurnedAway, not_or, not_not] at hw
  exact Option.isSome_iff_exists.mp (ExtTreeMap.mem_iff_isSome_getElem?.mp
    ((hw.2.2 key.bucketId).mpr ⟨key, hkey, rfl⟩))

theorem verifierQueriesPar_turned (S : ProofSchedule) (hroot : 0 ∈ w.proof.parentsCommitments)
    (hw : TurnedAway w) :
    Sat (w.proof.verifierQueriesPar sys S w.kvs) Refusal fun qs ↦ qs ≠ [] := by
  rw [SaltProof.verifierQueriesPar]
  split
  · exact Sat.error ⟨_, rfl⟩
  · rename_i hempty
    rw [if_pos]
    · exact Sat.error ⟨_, rfl⟩
    · intro heq
      rcases hw with hw | hw | hw
      · exact hw hroot
      · exact hempty hw
      · refine hw fun b ↦ ?_
        have hb := Finset.ext_iff.mp heq b
        simpa only [List.mem_toFinset, ExtTreeMap.mem_keys, List.mem_map] using hb

theorem verifierQueriesPar_eq (S : ProofSchedule) (hw : ¬ TurnedAway w) :
    w.proof.verifierQueriesPar sys S w.kvs = (do
      let r ← unpanicked (parentsAndPoints w.kvs.keys w.proof.levels)
      if w.proof.parentsCommitments.keys.toFinset ≠
          ((r.1.keys ++ r.2.keys).map connectParentId).toFinset then
        .error (.err (.stateReadError "path_commitments in proof contains unknown node commitment"))
      else
        let internalQueries ← internalQueriesPar sys.mapToScalarField w.proof.parentsCommitments S r.1
        let leafQueries ← leafQueriesPar sys.digest sys.emptySlotHash w.proof.parentsCommitments S r.2 w.kvs
        .ok (internalQueries ++ leafQueries)) := by
  simp only [TurnedAway, not_or, not_not] at hw
  have hset : w.proof.levels.keys.toFinset = (w.kvs.keys.map SaltKey.bucketId).toFinset := by
    ext b
    simpa only [List.mem_toFinset, ExtTreeMap.mem_keys, List.mem_map] using hw.2.2 b
  rw [SaltProof.verifierQueriesPar, if_neg hw.2.1, if_neg (not_not.mpr hset)]

theorem matching_iff {r : Points × Points} (hpath : r.1.Exactly (PathOf w.proof.levels w.kvs.keys))
    (hslot : r.2.Exactly (SlotOf w.proof.levels w.kvs.keys)) :
    w.proof.parentsCommitments.keys.toFinset = ((r.1.keys ++ r.2.keys).map connectParentId).toFinset ↔
      Matching w := by
  rw [Finset.ext_iff, Matching]
  refine forall_congr' fun n ↦ ?_
  simp only [List.mem_toFinset, ExtTreeMap.mem_keys, List.mem_map, List.mem_append, hpath.mem_iff,
    hslot.mem_iff]
  refine iff_congr Iff.rfl ⟨?_, ?_⟩
  · rintro ⟨a, ⟨q, hq⟩ | ⟨q, hq⟩, rfl⟩
    · exact ⟨(a, q), .inl hq, rfl⟩
    · exact ⟨(a, q), .inr hq, rfl⟩
  · rintro ⟨p, hp | hp, rfl⟩
    · exact ⟨p.1, .inl ⟨p.2, hp⟩, rfl⟩
    · exact ⟨p.1, .inr ⟨p.2, hp⟩, rfl⟩

theorem exists_shape (hw : ¬ TurnedAway w) (hdepth : ∀ b level : ℕ, w.proof.levels[b]? = some level → level ≤ 6) :
    ∃ r, parentsAndPoints w.kvs.keys w.proof.levels = .ok r ∧
      r.1.Exactly (PathOf w.proof.levels w.kvs.keys) ∧ r.2.Exactly (SlotOf w.proof.levels w.kvs.keys) := by
  refine parentsAndPoints_exactly fun key hkey ↦ ?_
  obtain ⟨level, hlevel⟩ := exists_level_of_key hw hkey
  exact ⟨level, hlevel, hdepth _ _ hlevel⟩

theorem leafFits_iff {leaf : Points} (hslot : leaf.Exactly (SlotOf w.proof.levels w.kvs.keys)) :
    LeafFits w.kvs leaf ↔ ∀ n q : ℕ, SlotOf w.proof.levels w.kvs.keys (n, q) →
      (∀ r < q, SlotOf w.proof.levels w.kvs.keys (n, r) → slotKey (n, r) ∈ w.kvs) →
      ∀ v, w.kvs[slotKey (n, q)]? = some (some v) → v.Fits := by
  simp only [LeafFits, hslot.opens]

/-- The internal nodes of a witness with matching nodes: their own commitments are there, and a
witness with keys opens some. -/
theorem internal_nodes (hw : ¬ TurnedAway w) (hm : Matching w) {internal : Points}
    (hpath : internal.Exactly (PathOf w.proof.levels w.kvs.keys)) :
    internal.toList ≠ [] ∧ ∀ e ∈ internal.toList, connectParentId e.1 ∈ w.proof.parentsCommitments ∧
      ∃ q, PathOf w.proof.levels w.kvs.keys (e.1, q) := by
  have hnode : ∀ e ∈ internal.toList, ∃ q, PathOf w.proof.levels w.kvs.keys (e.1, q) := by
    intro e he
    have hget := ExtTreeMap.mem_toList_iff_getElem?_eq_some.mp (show (e.1, e.2) ∈ internal.toList from he)
    exact hpath.mem_iff.mp (ExtTreeMap.mem_iff_isSome_getElem?.mpr (by rw [hget]; rfl))
  refine ⟨?_, fun e he ↦ ?_⟩
  · have hkeys : w.kvs.keys ≠ [] := by
      intro hnil
      refine hw (.inr (.inl ?_))
      rw [ExtTreeMap.isEmpty_eq_size_beq_zero, ← ExtTreeMap.length_keys, hnil]
      rfl
    obtain ⟨key, hkey⟩ := List.exists_mem_of_ne_nil _ hkeys
    obtain ⟨level, hlevel⟩ := exists_level_of_key hw hkey
    have hroot : (nodeAt 0 2 (key.bucketId / 256), key.bucketId % 256) ∈ pathPositions key level :=
      mem_pathPositions.mpr (.inl (mem_climbPositions.mpr ⟨0, by omega, by simp⟩))
    obtain ⟨s, hs, -⟩ := ((hpath.opens _).mpr ⟨key, hkey, level, hlevel, hroot⟩).mem
    exact List.ne_nil_of_mem hs
  · obtain ⟨q, hq⟩ := hnode e he
    exact ⟨(hm _).mpr ⟨(e.1, q), .inl hq, rfl⟩, q, hq⟩

theorem internal_logic (hdepth : ∀ b level : ℕ, w.proof.levels[b]? = some level → level ≤ 6)
    (hbridge : ∀ b : ℕ, w.proof.levels[b]? ≠ some 6) {internal : Points}
    (hpath : internal.Exactly (PathOf w.proof.levels w.kvs.keys)) :
    ∀ e ∈ internal.toList, ∃ parent, logicParentId e.1 = .ok parent := by
  intro e he
  have hget := ExtTreeMap.mem_toList_iff_getElem?_eq_some.mp (show (e.1, e.2) ∈ internal.toList from he)
  obtain ⟨q, key, hkey, level, hlevel, hp⟩ :=
    hpath.mem_iff.mp (ExtTreeMap.mem_iff_isSome_getElem?.mpr (by rw [hget]; rfl))
  have hle := hdepth _ _ hlevel
  have hne6 : level ≠ 6 := fun heq ↦ hbridge _ (heq ▸ hlevel)
  exact exists_logicParentId (by omega) hp

theorem exists_internalQueries (sys : ProofSystem F E)
    (hdepth : ∀ b level : ℕ, w.proof.levels[b]? = some level → level ≤ 6)
    (hbridge : ∀ b : ℕ, w.proof.levels[b]? ≠ some 6) (hw : ¬ TurnedAway w) (hm : Matching w)
    (hlinked : Linked w) {internal : Points}
    (hpath : internal.Exactly (PathOf w.proof.levels w.kvs.keys)) (S : ProofSchedule) :
    ∃ qs, internalQueriesPar sys.mapToScalarField w.proof.parentsCommitments S internal = .ok qs ∧
      qs ≠ [] := by
  obtain ⟨hne, hnodes⟩ := internal_nodes hw hm hpath
  obtain ⟨e, he⟩ := List.exists_mem_of_ne_nil _ hne
  obtain ⟨root, -⟩ := Option.isSome_iff_exists.mp (ExtTreeMap.mem_iff_isSome_getElem?.mp (hnodes e he).1)
  let com (n : ℕ) : E := (w.proof.parentsCommitments[n]?).getD root
  have hget : ∀ n ∈ w.proof.parentsCommitments, w.proof.parentsCommitments[n]? = some (com n) := by
    intro n hn
    obtain ⟨c, hc⟩ := Option.isSome_iff_exists.mp (ExtTreeMap.mem_iff_isSome_getElem?.mp hn)
    simp only [com, hc]
    rfl
  have hchild : ∀ e ∈ internal.toList, ∀ q ∈ e.2.toList,
      childOf (e.1, q) ∈ w.proof.parentsCommitments := by
    intro e he q hq
    exact hlinked _ ((hpath.opens _).mp ⟨e.2, ExtTreeMap.mem_toList_iff_getElem?_eq_some.mp he,
      ExtTreeSet.mem_toList.mp hq⟩)
  refine ⟨_, internalQueriesPar_eq S com hne (internal_logic hdepth hbridge hpath)
    (fun e he ↦ hget _ (hnodes e he).1) fun e he q hq ↦ hget _ (hchild e he q hq), ?_⟩
  obtain ⟨q, hq⟩ := (hnodes e he).2
  obtain ⟨s, hs, hqs⟩ := ((hpath.opens _).mpr hq).mem
  exact List.ne_nil_of_mem (List.mem_flatMap.mpr ⟨_, hs, List.mem_map_of_mem hqs⟩)

theorem verifierQueriesPar_sat (S : ProofSchedule) (hroot : 0 ∈ w.proof.parentsCommitments)
    (h : Checkable w) :
    Sat (w.proof.verifierQueriesPar sys S w.kvs) Refusal fun qs ↦ qs ≠ [] := by
  by_cases hw : TurnedAway w
  · exact verifierQueriesPar_turned S hroot hw
  obtain ⟨r, hr, hpath, hslot⟩ := exists_shape hw (h.depth hw)
  rw [verifierQueriesPar_eq S hw, hr]
  simp only [unpanicked, ok_bind]
  by_cases hm : Matching w
  · rw [if_neg (not_not.mpr ((matching_iff hpath hslot).mpr hm))]
    by_cases hlinked : Linked w
    · obtain ⟨qs, hqs, hne⟩ := exists_internalQueries sys (h.depth hw) (h.bridge hw hm) hw hm hlinked hpath S
      rw [hqs, ok_bind]
      exact (leafQueriesPar_sat S ((leafFits_iff hslot).mpr (h.values hw hm hlinked))).bind
        fun leafQueries _ ↦ Sat.ok (List.append_ne_nil_of_left_ne_nil hne _)
    · have hlogic := internal_logic (h.depth hw) (h.bridge hw hm) hpath
      refine (internalQueriesPar_sat S (internal_nodes hw hm hpath).1 hlogic).bind fun qs hqs ↦ ?_
      exact absurd (fun p hp ↦ hqs p ((hpath.opens p).mpr hp)) hlinked
  · rw [if_pos fun heq ↦ hm ((matching_iff hpath hslot).mp heq)]
    exact Sat.error ⟨_, rfl⟩

def ProofSchedule.sequential : ProofSchedule := ⟨1, Nat.one_pos, [], []⟩

theorem exists_depth_panic (hw : ¬ TurnedAway w) {b level : ℕ} (hb : w.proof.levels[b]? = some level)
    (hl : 6 < level) (S : ProofSchedule) :
    ∃ p, w.proof.verifierQueriesPar sys S w.kvs = .error (.panic p) := by
  obtain ⟨key, hkey, rfl⟩ := exists_key_of_level hw hb
  obtain ⟨p, hp⟩ := parentsAndPoints_deep ⟨key, hkey, level, hb, hl⟩
  refine ⟨p, ?_⟩
  rw [verifierQueriesPar_eq S hw, hp]
  rfl

theorem exists_bridge_panic (hw : ¬ TurnedAway w)
    (hdepth : ∀ b level : ℕ, w.proof.levels[b]? = some level → level ≤ 6) (hm : Matching w) {b : ℕ}
    (hb : w.proof.levels[b]? = some 6) :
    ∃ S p, w.proof.verifierQueriesPar sys S w.kvs = .error (.panic p) := by
  obtain ⟨key, hkey, rfl⟩ := exists_key_of_level hw hb
  obtain ⟨r, hr, hpath, hslot⟩ := exists_shape hw hdepth
  have hbridge := (hpath.opens _).mpr ⟨key, hkey, 6, hb, mem_pathPositions.mpr (.inr (.inr ⟨by omega, rfl⟩))⟩
  obtain ⟨S, hS⟩ := exists_internal_panic sys.mapToScalarField w.proof.parentsCommitments hbridge
    (logicParentId_encodeParent_six key.bucketId_lt)
  refine ⟨S, .underflow, ?_⟩
  rw [verifierQueriesPar_eq S hw, hr]
  simp only [unpanicked, ok_bind]
  rw [if_neg (not_not.mpr ((matching_iff hpath hslot).mpr hm)), hS]
  rfl

theorem exists_value_panic (hw : ¬ TurnedAway w)
    (hdepth : ∀ b level : ℕ, w.proof.levels[b]? = some level → level ≤ 6) (hm : Matching w)
    (hbridge : ∀ b : ℕ, w.proof.levels[b]? ≠ some 6) (hlinked : Linked w)
    (hvalues : ¬ ∀ n q : ℕ, SlotOf w.proof.levels w.kvs.keys (n, q) →
      (∀ r < q, SlotOf w.proof.levels w.kvs.keys (n, r) → slotKey (n, r) ∈ w.kvs) →
      ∀ v, w.kvs[slotKey (n, q)]? = some (some v) → v.Fits) :
    ∃ S p, w.proof.verifierQueriesPar sys S w.kvs = .error (.panic p) := by
  obtain ⟨r, hr, hpath, hslot⟩ := exists_shape hw hdepth
  have hleaf : ∀ n ∈ r.2, connectParentId n ∈ w.proof.parentsCommitments := by
    intro n hn
    obtain ⟨q, hq⟩ := hslot.mem_iff.mp hn
    exact (hm _).mpr ⟨(n, q), .inr hq, rfl⟩
  obtain ⟨first, p, hp⟩ := exists_leaf_panic sys.digest sys.emptySlotHash hleaf
    (fun h ↦ hvalues ((leafFits_iff hslot).mp h)) 1 Nat.one_pos []
  refine ⟨⟨1, Nat.one_pos, [], first⟩, p, ?_⟩
  rw [verifierQueriesPar_eq _ hw, hr]
  simp only [unpanicked, ok_bind]
  rw [if_neg (not_not.mpr ((matching_iff hpath hslot).mpr hm))]
  obtain ⟨qs, hqs⟩ := exists_internalQueries sys hdepth hbridge hw hm hlinked hpath
    ⟨1, Nat.one_pos, [], first⟩
  rw [hqs.1, ok_bind, hp]
  rfl

section Verdict

variable [AddCommGroup E] [Module F E] [DecidableEq E] {opening : MultiPointProof F E}

theorem verifyProof_sat (S : ProofSchedule) (h : Checkable w)
    (hlen : opening.openProof.LVec.length = opening.openProof.RVec.length) :
    Sat (w.verifyProof sys S opening) Refusal fun _ ↦ True := by
  rw [SaltWitness.verifyProof, SaltWitness.stateRoot]
  cases hroot : w.proof.parentsCommitments[0]? with
  | none => exact Sat.error ⟨_, rfl⟩
  | some root =>
    rw [ok_bind, SaltProof.check]
    have hmem : 0 ∈ w.proof.parentsCommitments :=
      ExtTreeMap.mem_iff_isSome_getElem?.mpr (by rw [hroot]; rfl)
    refine (verifierQueriesPar_sat S hmem h).bind fun qs hqs ↦ ?_
    simp only [hroot, ne_eq, not_true_eq_false, if_false]
    obtain ⟨⟨accepted, t⟩, hr⟩ := MultiPointProof.check_total (c := sys.codec) S.threads_pos
      (Multipoint.PrecomputedWeights.new_spec sys.precomputed) hlen
      (show (qs.map fun q ↦ (⟨q.commitment, (q.point : F), q.result⟩ : Multipoint.VerifierQuery F E)) ≠ []
        by simpa using hqs) ⟨Multipoint.label "st"⟩
    rw [hr]
    simp only [SaltProof.multipointPanics, ok_bind]
    split
    · exact Sat.ok trivial
    · exact Sat.error ⟨_, rfl⟩

theorem verifyUntrusted_panic {S : ProofSchedule} {p : Panic} (hkeys : KeysInRange w)
    (hw : ¬ TurnedAway w) (h : w.proof.verifierQueriesPar sys S w.kvs = .error (.panic p)) :
    Witness.verifyUntrusted sys S w opening = .error (.panic p) := by
  simp only [TurnedAway, not_or, not_not] at hw
  obtain ⟨root, hroot⟩ := Option.isSome_iff_exists.mp (ExtTreeMap.mem_iff_isSome_getElem?.mp hw.1)
  rw [Witness.verifyUntrusted, fromSaltWitness_ok hkeys]
  simp only [unpanicked, ok_bind, Witness.verify, Witness.ofSaltWitness, SaltWitness.verifyProof,
    SaltWitness.stateRoot, hroot, SaltProof.check, h]
  rfl

/-- Checking a witness from the network, with any number of threads and in any order of their
results, returns or refuses exactly when the witness is checkable. -/
theorem untrusted_check_panic_free_iff (sys : ProofSystem F E) (w : SaltWitness E)
    (opening : MultiPointProof F E)
    (hlen : opening.openProof.LVec.length = opening.openProof.RVec.length) :
    (∀ S p, Witness.verifyUntrusted sys S w opening ≠ .error (.panic p)) ↔ Checkable w := by
  constructor
  · intro h
    have hqueries : KeysInRange w → ¬ TurnedAway w →
        ¬ ∃ S p, w.proof.verifierQueriesPar sys S w.kvs = .error (.panic p) :=
      fun hkeys hw ⟨S, p, hp⟩ ↦ h S p (verifyUntrusted_panic hkeys hw hp)
    have hkeys : KeysInRange w := by
      by_contra hkeys
      obtain ⟨p, hp⟩ := fromSaltWitness_panics hkeys
      refine h .sequential p ?_
      rw [Witness.verifyUntrusted, hp]
      rfl
    have hdepth : ¬ TurnedAway w → ∀ b level : ℕ, w.proof.levels[b]? = some level → level ≤ 6 := by
      intro hw b level hb
      by_contra hl
      exact hqueries hkeys hw ⟨.sequential, exists_depth_panic hw hb (by omega) _⟩
    have hbridge : ¬ TurnedAway w → Matching w → ∀ b : ℕ, w.proof.levels[b]? ≠ some 6 :=
      fun hw hm b hb ↦ hqueries hkeys hw (exists_bridge_panic hw (hdepth hw) hm hb)
    refine ⟨hkeys, hdepth, hbridge, fun hw hm hlinked ↦ ?_⟩
    by_contra hvalues
    exact hqueries hkeys hw (exists_value_panic hw (hdepth hw) hm (hbridge hw hm) hlinked hvalues)
  · intro h S
    rw [← sat_refusal_iff, Witness.verifyUntrusted, fromSaltWitness_ok h.keys]
    simp only [unpanicked, ok_bind, Witness.verify]
    exact (verifyProof_sat S h hlen).bind fun _ _ ↦ (verifyLoop_sat h.keys).bind fun _ _ ↦ Sat.ok trivial

end Verdict

end Untrusted

section Example

def rationalSystem : ProofSystem ℚ ℚ where
  mapToScalarField := id
  hashCommitment _ := []
  digest _ := 1
  emptySlotHash := 0
  codec := Multipoint.constantCodec
  crs := ⟨1, [1], 1, rfl⟩
  precomp := ⟨[1, 1], []⟩
  precomputed := by
    have hinv : Multipoint.inverse (1 : ℚ) = .ok 1 := by norm_num [Multipoint.inverse]
    rw [Multipoint.PrecomputedWeights.new]
    simp [Multipoint.PrecomputedWeights.computeBarycentricWeightFor, hinv, ok_bind, List.filter]

def leveledWitness (level : ℕ) (entry : Option SaltValue) : SaltWitness ℚ where
  kvs := ExtTreeMap.empty.insert (SaltKey.ofPair 65536 0) entry
  proof :=
    { parentsCommitments := ExtTreeMap.empty.insertMany [(0, 1), (2, 1), (513, 1), (131329, 1)]
      levels := ExtTreeMap.empty.insert 65536 level }

def longKeyRecord : SaltValue := ⟨200 :: List.replicate 93 0, rfl⟩

theorem untrusted_check_panic_free_iff_slot :
    Checkable (leveledWitness 1 none) ∧
      ∀ S p, Witness.verifyUntrusted rationalSystem S (leveledWitness 1 none) ⟨⟨[], [], 0⟩, 0⟩ ≠
        .error (.panic p) := by
  have hkvs : ∀ (k : SaltKey) (v : SaltValue), (leveledWitness 1 none).kvs[k]? ≠ some (some v) := by
    intro k v h
    simp only [leveledWitness, ExtTreeMap.getElem?_insert] at h
    split at h
    · cases h
    · simp at h
  have hlevels : ∀ b level : ℕ, (leveledWitness 1 none).proof.levels[b]? = some level → level = 1 := by
    intro b level h
    simp only [leveledWitness, ExtTreeMap.getElem?_insert] at h
    split at h
    · exact (Option.some.inj h).symm
    · simp at h
  have hcheckable : Checkable (leveledWitness 1 none) := by
    refine ⟨fun k v _ h ↦ absurd h (hkvs k v), fun _ b level h ↦ ?_, fun _ _ b h ↦ ?_,
      fun _ _ _ n q _ _ v h ↦ absurd h (hkvs _ v)⟩
    · have := hlevels b level h
      omega
    · have := hlevels b 6 h
      omega
  exact ⟨hcheckable,
    (untrusted_check_panic_free_iff rationalSystem (leveledWitness 1 none) ⟨⟨[], [], 0⟩, 0⟩ rfl).mpr hcheckable⟩

/-- A length byte of 200 makes the index panic, a depth of 7 the climb. -/
theorem untrusted_check_panics :
    (¬ ∀ S p, Witness.verifyUntrusted rationalSystem S (leveledWitness 1 (some longKeyRecord))
      ⟨⟨[], [], 0⟩, 0⟩ ≠ .error (.panic p)) ∧
    ¬ ∀ S p, Witness.verifyUntrusted rationalSystem S (leveledWitness 7 none) ⟨⟨[], [], 0⟩, 0⟩ ≠
      .error (.panic p) := by
  constructor
  · intro h
    exact h .sequential .sliceOutOfRange (by decide +kernel)
  · intro h
    exact h .sequential .underflow (by decide +kernel)

end Example

end Salt
