import Salt.State.Refinement

namespace Salt

open Library.OrderedTable Library.Triple
open EphemeralSaltState

/-- The panics that calls with arbitrary arguments may stop with: the capacity assertion, and a
record that does not fit. -/
def Refused (e : Fault) : Prop := TooLarge e ∨ e = .panic .sliceOutOfRange

theorem capped_refused (n : ℕ) : Capped Refused n := fun _ hc _ ↦ .inl (tooLarge_of_lt hc)

theorem Op.capacityAllowed_refused (op : Op) : op.CapacityAllowed Refused := by
  cases op with
  | shiRehash b nonce c => exact fun hc ↦ .inl (tooLarge_of_lt hc)
  | _ => trivial

theorem complete_refused : Complete Refused := by
  rintro e (⟨c, -, he⟩ | he) <;> cases he

def StateStore.entry (s : StateStore) (k : SaltKey) : Option SaltValue :=
  if k.isInMetaBucket then some ((s.kvs[k]?).getD (.ofMeta .default)) else s.kvs[k]?

/-- The session and the store show the same slots, the same metadata and the same usage. -/
structure Shows (st : EphemeralSaltState) (s : StateStore) : Prop where
  value : ∀ k : SaltKey, k.isInMetaBucket = false → ∃ st', st.value k = .ok (st', s.kvs[k]?)
  metadata : ∀ b, isValidDataBucket b → ∃ st' m m', st.metadata b false = .ok (st', m) ∧
    s.metadata b = .ok m' ∧ m.nonce = m'.nonce ∧ m.capacity = m'.capacity
  usage : ∀ b, isValidDataBucket b → ∃ n, st.usageCount b = .ok n ∧ s.reader.bucketUsedSlots b = .ok n

variable {H : Hasher} {fuel : ℕ} {A : Fault → Prop} {M M' : Bytes → Option Bytes}
  {st : EphemeralSaltState} {s s' : StateStore} {u : StateUpdates} {w : SaltKey → Option SaltValue}

theorem StateStore.Canonical.entry_eq (h : StateStore.Canonical H M s) {k : SaltKey}
    (hk : ¬ Stray k) : s.content k = s.entry k := by
  by_cases hm : k.isInMetaBucket = true
  · rw [StateStore.content, normalize_meta hm, StateStore.entry, if_pos hm]
    obtain ⟨b, hb, rfl⟩ : ∃ b, isValidDataBucket b ∧ k = metadataKey b := by
      by_contra hnone
      exact hk ⟨hm, fun b hb he ↦ hnone ⟨b, hb, he⟩⟩
    change some (SaltValue.ofMeta (metaOf s.kvs[metadataKey b]?)) = _
    cases hv : s.kvs[metadataKey b]? with
    | none => rfl
    | some v =>
      obtain ⟨m, rfl, hcap⟩ := h.metaOk b hb v hv
      rw [metaOf_ofMeta hcap]
      rfl
  · rw [StateStore.content, normalize_data (by simpa using hm), StateStore.entry, if_neg hm]
    rfl

/-- Recorded old values are those of the store, since keys that are not metadata keys of data
buckets never change. -/
theorem StateStore.Canonical.old_eq (h : StateStore.Canonical H M s) (hd : u.IsDiff s.content w)
    (hstray : ∀ k, Stray k → w k = s.content k) {k : SaltKey} {old new : Option SaltValue}
    (hk : u.data[k]? = some (old, new)) : old = s.entry k := by
  rw [hd k] at hk
  split at hk
  · cases hk
  · rename_i hne
    cases hk
    exact h.entry_eq fun hs ↦ hne (hstray k hs).symm

/-- A store with the content that the session views shows what the session shows. -/
theorem shows_of_content (hst : Steady H (fun _ ↦ False) s.full M st)
    (hs' : StateStore.Canonical H M' s') (hc : s'.content = st.view s.full) : Shows st s' := by
  refine ⟨fun k hk ↦ ?_, fun b hb ↦ ?_, fun b hb ↦ ?_⟩
  · obtain ⟨st', he⟩ := hst.value_eq hk
    rw [← hc, StateStore.content, normalize_data hk] at he
    exact ⟨st', he⟩
  · obtain ⟨st', he⟩ := hst.metadata_eq hb
    obtain ⟨m', he', hm'⟩ := ((StateStore.reads hs'.metaOk (fun _ ↦ False)).metadata b hb).exists_ok
    rw [← hc, StateStore.content, metaAt_normalize _ hb, ← hm'] at he
    exact ⟨st', _, m', he, he', rfl, rfl⟩
  · obtain ⟨n, he', hn⟩ := ((StateStore.reads hs'.metaOk (fun _ ↦ False)).used b hb).exists_ok
    refine ⟨n, ?_, he'⟩
    rw [hst.usageCount_eq hb, hn, hs'.used b hb, hc]

theorem runOps_refused (hf : 2 ≤ fuel) (h : StateStore.Canonical H M s) (cacheRead : Bool) (ops : List Op)
    (hv : ∀ op ∈ ops, op.ValidFor Refused) :
    Sat (runOps H fuel ops (session s cacheRead)) Refused
      (Ran H Refused s (session s cacheRead) (applyOps M ops)) :=
  runOps_spec hf h cacheRead ops (fun _ _ _ ↦ capped_refused _) hv fun op _ ↦ op.capacityAllowed_refused

/-- Committing the merged updates of a session to the store it was opened over: the updates merge,
they record the entries of the store, and the new store shows what the session showed. -/
theorem committed_session_shows_view (hf : 2 ≤ fuel) (hs : Reached H fuel s M) (cacheRead : Bool)
    (ops : List Op) (hv : ∀ op ∈ ops, op.ValidFor Refused) :
    (∃ st us u, runOps H fuel ops (session s cacheRead) = .ok (st, us) ∧
      us.foldlM StateUpdates.merge .empty = .ok u ∧
      (∀ k old new, u.data[k]? = some (old, new) → old = s.entry k) ∧
      Shows st (s.updateState u)) ∨
    ∃ e, Refused e ∧ runOps H fuel ops (session s cacheRead) = .error e := by
  have hcan := hs.canonical hf
  rcases sat_iff.mp (runOps_refused hf hcan cacheRead ops hv) with
    ⟨⟨st, us⟩, hr, hran⟩ | ⟨e, he, hrefused⟩
  · obtain ⟨u, hu, hd⟩ := hran.merged
    obtain ⟨hcan', hcontent⟩ := hcan.commit hd hran.steady.good hran.steady.represents
    exact .inl ⟨st, us, u, hr, hu, fun k old new hk ↦ hcan.old_eq hd hran.stray hk,
      shows_of_content (hran.complete hcan) hcan' hcontent⟩
  · exact .inr ⟨e, hrefused, he⟩

theorem committed_session_shows_view_shrunk :
    (∃ st us u, runOps flatHasher 2 [.update [([1], some [2])], .shiRehash (2 ^ 16) 7 1,
        .canonicalize List.reverse] (session .empty true) = .ok (st, us) ∧
      us.foldlM StateUpdates.merge .empty = .ok u ∧
      (∀ k old new, u.data[k]? = some (old, new) → old = StateStore.empty.entry k) ∧
      Shows st (StateStore.empty.updateState u)) ∨
    ∃ e, Refused e ∧ runOps flatHasher 2 [.update [([1], some [2])], .shiRehash (2 ^ 16) 7 1,
      .canonicalize List.reverse] (session .empty true) = .error e := by
  refine committed_session_shows_view (le_refl 2) .empty true _ fun op hop ↦ ?_
  simp only [List.mem_cons, List.not_mem_nil, or_false] at hop
  rcases hop with rfl | rfl | rfl
  · exact fun kv _ x _ ↦ .inr (.inr rfl)
  · exact ⟨by decide, le_refl 1⟩
  · exact fun l ↦ l.reverse_perm

end Salt
