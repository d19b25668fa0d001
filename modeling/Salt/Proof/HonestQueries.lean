import Salt.Trie.Blocks

namespace Salt

open Std (ExtTreeMap)
open Library.Triple
open Multipoint (MultiPointProof label)

section Agreement

variable {C F : Type} {commit : List F → C} {hash : C → F} {slotToField : Option SaltValue → F}
  {D : DefaultCommitments C} {s : MemStore C} {keys : List SaltKey}

/-- Prover and verifier build the same openings, all of them true, in the same order; so an honest
witness is accepted whenever the opening of its queries is. -/
theorem prover_verifier_queries_agree (hs : s.Consistent commit hash slotToField D) (S : ProofSchedule)
    (hne : keys ≠ []) (hkeys : ∀ key ∈ keys, s.Witnessable key) :
    ∃ w qs, SaltWitness.create hash slotToField D s S keys = .ok (w, qs) ∧
      (∀ key, key ∈ w.kvs ↔ key ∈ keys) ∧
      createSubTrie hash slotToField D s S keys =
        .ok (qs, w.proof.parentsCommitments, w.proof.levels) ∧
      w.proof.createVerifierQueries hash slotToField w.kvs =
        .ok (qs.map fun q ↦ ⟨q.commitment, q.point, q.result⟩) ∧
      (∀ q ∈ qs, q.commitment = commit q.poly.values ∧ q.poly.values[q.point]? = some q.result) ∧
      ∀ [Field F] [DecidableEq F] [AddCommGroup C] [Module F C] [DecidableEq C] (sys : ProofSystem F C)
        (S' : ProofSchedule) (opening : MultiPointProof F C) (t : Multipoint.Transcript),
        sys.mapToScalarField = hash → kvHash sys.digest sys.emptySlotHash = slotToField →
        (∀ key ∈ keys, ∀ v, s.state.content key = some v → v.Fits) →
        opening.check S'.threads sys.codec sys.crs sys.precomp
          (qs.map fun q ↦ ⟨q.commitment, (q.point : F), q.result⟩) ⟨label "st"⟩ = .ok (true, t) →
        w.verifyProof sys S' opening = .ok () := by
  obtain ⟨w, r, hcreate, hsub, hmem, hkvs⟩ := SaltWitness.create_eq hs S hne hkeys
  obtain ⟨r', pc', levels', hsub', hcreate'⟩ := createSubTrie_eq hs S hne hkeys
  obtain ⟨rfl, rfl, rfl⟩ := hsub'.unique hsub fun key ↦ (hmem key).symm
  have hplaced : ∀ key ∈ w.kvs.keys, Placed s key := fun key hkey ↦ hs.placed (hkeys key ((hmem key).mp hkey))
  have hkeysne : w.kvs.keys ≠ [] := by
    obtain ⟨key, hkey⟩ := List.exists_mem_of_ne_nil keys hne
    exact List.ne_nil_of_mem ((hmem key).mpr hkey)
  refine ⟨w, _, hcreate, fun key ↦ ?_, hcreate', hsub.createVerifierQueries_eq hkeysne hplaced hkvs,
    fun q hq ↦ hs.queries_hold hsub hplaced hq, ?_⟩
  · rw [← ExtTreeMap.mem_keys]
    exact hmem key
  · intro _ _ _ _ _ sys S' opening t hhash hslot hfits hopening
    subst hhash hslot
    exact hsub.verifyProof_eq S' hkeysne hplaced hkvs
      (fun key hkey ↦ hfits key ((hmem key).mp hkey)) hopening

end Agreement

section Grown

open MemStore

def grownKeys : List SaltKey := [SaltKey.ofPair 65536 300, metadataKey 65536, SaltKey.ofPair 65536 300]

theorem capacityAt_grown : capacityAt grownState 65536 = 512 := by
  have hb : isValidDataBucket 65536 := by decide
  rw [grownState, capacityAt_write (ofPair_not_inMeta hb (by norm_num)) hb, capacityAt_resize (by norm_num) 65536 hb hb,
    if_pos rfl]

theorem grownKeys_witnessable {s : MemStore ℤ} (hs : s.state.content = grownState) :
    ∀ key ∈ grownKeys, s.Witnessable key := by
  have hb : isValidDataBucket 65536 := by decide
  have hslot : s.Witnessable (SaltKey.ofPair 65536 300) := by
    refine .inr ⟨by decide, ?_⟩
    rw [hs, show (SaltKey.ofPair 65536 300).bucketId = 65536 by decide]
    change _ < capacityAt grownState 65536
    rw [capacityAt_grown]
    decide
  intro key hkey
  simp only [grownKeys, List.mem_cons, List.not_mem_nil, or_false] at hkey
  rcases hkey with rfl | rfl | rfl
  · exact hslot
  · exact .inl ⟨65536, hb, rfl⟩
  · exact hslot

theorem prover_verifier_queries_agree_grown :
    ∃ s rootHash w qs, applyBlock weightedSums 4 List.reverse MemStore.empty [growth] = .ok (s, rootHash) ∧
      s.state.content (SaltKey.ofPair 65536 300) = some (SaltValue.ofMeta .default) ∧
      SaltWitness.create weightedSums.hash weightedSums.kvHash weightedSums.defaults s .sequential grownKeys =
        .ok (w, qs) ∧
      (∀ key, key ∈ w.kvs ↔ key ∈ grownKeys) ∧
      w.proof.createVerifierQueries weightedSums.hash weightedSums.kvHash w.kvs =
        .ok (qs.map fun q ↦ ⟨q.commitment, q.point, q.result⟩) := by
  have hchain : StateRoot.Chain weightedSums (MemStore.empty : MemStore ℤ).state.content
    (fun _ _ ↦ False) [growth] := by
    rw [content_empty]
    exact StateRoot.chain_single admissible_growth
  obtain ⟨s, hrun, hsync, hcontent⟩ := applyBlock_ok 4 weightedSums_empty List.reverse_perm
    (inSync_empty weightedSums_empty) hchain
  have hgrown : s.state.content = grownState := by
    rw [hcontent, content_empty]
    exact apply_growth
  obtain ⟨w, qs, hcreate, hkeys, -, hqueries, -⟩ := prover_verifier_queries_agree hsync.consistent .sequential
    (show grownKeys ≠ [] by simp [grownKeys]) (grownKeys_witnessable hgrown)
  exact ⟨s, _, w, qs, hrun, by rw [hgrown, grownState, Function.update_self], hcreate, hkeys, hqueries⟩

end Grown

end Salt
