import Salt.State.Committed

namespace Salt

open Std (ExtTreeMap)
open Library.OrderedTable Library.Triple
open EphemeralSaltState

/-- The calls return, or stop with one of the panics that arguments may cause: they do not run
forever. -/
def Ends {α : Type} (m : Except Fault α) : Prop := Sat m Refused fun _ ↦ True

structure UpdatesEnd (H : Hasher) (st : EphemeralSaltState) : Prop where
  upsert : ∀ fuel, 2 ≤ fuel → ∀ k x, Ends (st.shiUpsert H fuel (H.bucketId k) k x .empty)
  delete : ∀ k, Ends (st.shiDelete H (H.bucketId k) k .empty)
  resize : ∀ b, isValidDataBucket b → ∃ st' m, st.metadata b false = .ok (st', m) ∧
    ∀ used, ∃ c, computeResizeCapacity m.capacity used = .ok c

variable {H : Hasher} {fuel : ℕ} {F : Full} {M : Bytes → Option Bytes} {st : EphemeralSaltState}
  {s : StateStore}

theorem EphemeralSaltState.Steady.updatesEnd (h : Steady H (fun _ ↦ False) F M st)
    (hr : Steady H Refused F M st) : UpdatesEnd H st := by
  refine ⟨fun fuel hf k x ↦ ?_, fun k ↦ ?_, fun b hb ↦ ?_⟩
  · have hspec : Sat (applyOne H fuel (st, .empty) (k, some x)) Refused _ :=
      applyOne_spec hf (capped_refused _) hr.live hr.good (fun _ ↦ hr.represents.bounds hr.good k x)
        fun y _ ↦ .inr (.inr rfl)
    exact hspec.mono fun _ _ ↦ trivial
  · have hb := H.bucketId_data k
    exact (shiDelete_spec hr.live (hr.good _ hb) hb k).mono fun _ _ ↦ trivial
  · obtain ⟨st', he⟩ := h.metadata_eq hb
    refine ⟨st', _, he, fun used ↦ ?_⟩
    obtain ⟨c, hc, -⟩ := computeResizeCapacity_spec (h.good b hb).capacity_pos used
    exact ⟨c, hc⟩

/-- Every run whose rehashes ask for at least one slot ends, and in the state it reaches every
further update ends as well. -/
theorem updates_end_with_slots (hf : 2 ≤ fuel) (hs : Reached H fuel s M) (cacheRead : Bool)
    (ops : List Op) (hv : ∀ op ∈ ops, op.ValidFor Refused) :
    Ends (runOps H fuel ops (session s cacheRead)) ∧
    ∀ st us, runOps H fuel ops (session s cacheRead) = .ok (st, us) → UpdatesEnd H st := by
  have hcan := hs.canonical hf
  have hspec := runOps_refused hf hcan cacheRead ops hv
  refine ⟨hspec.mono fun _ _ ↦ trivial, fun st us hr ↦ ?_⟩
  have hran := hspec.of_eq_ok hr
  exact (hran.complete hcan).updatesEnd hran.steady

theorem updates_end_with_slots_single :
    Ends (runOps flatHasher 2 [.shiRehash (2 ^ 16) 7 1, .update [([1], some [2]), ([3], some [4])]]
      (session .empty false)) ∧
    ∀ st us, runOps flatHasher 2 [.shiRehash (2 ^ 16) 7 1, .update [([1], some [2]), ([3], some [4])]]
      (session .empty false) = .ok (st, us) → UpdatesEnd flatHasher st := by
  refine updates_end_with_slots (le_refl 2) .empty false _ fun op hop ↦ ?_
  simp only [List.mem_cons, List.not_mem_nil, or_false] at hop
  rcases hop with rfl | rfl
  · exact ⟨by decide, le_refl 1⟩
  · exact fun kv _ x _ ↦ .inr (.inr rfl)

section NoSlots

variable {b : ℕ} {nonce : UInt32} {used : ℕ}

structure Slotless (st : EphemeralSaltState) (b : ℕ) (nonce : UInt32) (used : ℕ) : Prop where
  shape : st.metadata b false = .ok (st, ⟨nonce, 0, none⟩)
  usage : st.metadata b true = .ok (st, ⟨nonce, 0, some used⟩)
  rehashed : b ∈ st.rehashedBuckets
  direct : ∀ k, st.tryDirectFind k = .ok (st, none)

theorem Slotless.shiRehash (h : Slotless st b nonce used) (hb : isValidDataBucket b)
    (out : StateUpdates) : st.shiRehash H b nonce 0 out = .ok (st, out) := by
  have hmask : ¬ 0 > bucketSlotIdMask := by decide
  rw [EphemeralSaltState.shiRehash, if_neg hmask, h.usage, ok_bind]
  have hread : st.readBucket b 0 = .ok (st, ∅) := rfl
  have hnew : reinsert H b nonce 0 [] = .ok ∅ := rfl
  have hrecord : st.recordRehash b 0 0 ∅ ∅ out = .ok (st, out) := rfl
  have hkey : bucketMetadataKey b = .ok (metadataKey b) := if_pos hb
  have hempty : ((∅ : ExtTreeMap SaltKey SaltValue).toList.foldl
      (fun (m : BytesMap Bytes) e ↦ m.insert e.2.key e.2.value) ∅).toList.reverse = [] := rfl
  simp only [hread, ok_bind, ExtTreeMap.size_empty, lt_self_iff_false, if_false, hempty, hnew, hrecord,
    hkey, updateValue, if_true]
  rw [insertRehashed, if_pos h.rehashed]

/-- Growing a bucket without slots leaves it without slots, so the insertion starts over forever. -/
theorem Slotless.shiUpsert (h : Slotless st b nonce used) (hb : isValidDataBucket b) {k x : Bytes}
    (hlen : k.length + x.length ≤ 92) (out : StateUpdates) (fuel : ℕ) :
    st.shiUpsert H fuel b k x out = .error (.panic .diverges) := by
  induction fuel with
  | zero => rfl
  | succ fuel ih =>
    obtain ⟨v, hv, hk, hx⟩ := SaltValue.new_ok hlen
    rw [EphemeralSaltState.shiUpsert, hv, ok_bind, h.direct, ok_bind]
    simp only
    rw [h.shape, ok_bind]
    simp only [shiUpsertLoop, ok_bind]
    rw [show computeResizeCapacity 0 0 = .ok 0 from rfl, ok_bind, h.shiRehash hb, ok_bind, hk, hx]
    exact ih

def slotlessState : EphemeralSaltState where
  store := StateStore.empty.reader
  cache := (∅ : ExtTreeMap SaltKey (Option SaltValue)).insert (metadataKey (2 ^ 16))
    (some (.ofMeta ⟨0, 0, none⟩))
  usageCountDelta := ∅
  rehashedBuckets := [2 ^ 16]
  cacheRead := false

theorem slotless_slotlessState : Slotless slotlessState (2 ^ 16) 0 0 := by
  refine ⟨?_, ?_, List.mem_singleton_self _, fun k ↦ ?_⟩
  · rfl
  · rfl
  · rfl

theorem shiRehash_no_slots : ∃ u, (session .empty false).shiRehash flatHasher (2 ^ 16) 0 0 .empty =
    .ok (slotlessState, u) := by
  have hmask : ¬ 0 > bucketSlotIdMask := by decide
  have hmeta : (session .empty false).metadata (2 ^ 16) true =
      .ok (session .empty false, ⟨0, 256, some 0⟩) := rfl
  have hread : (session .empty false).readBucket (2 ^ 16) 256 = .ok (session .empty false, ∅) :=
    foldlM_eq_ok _ fun a _ ↦ rfl
  have hempty : ((∅ : ExtTreeMap SaltKey SaltValue).toList.foldl
      (fun (m : BytesMap Bytes) e ↦ m.insert e.2.key e.2.value) ∅).toList.reverse = [] := rfl
  have hnew : reinsert flatHasher (2 ^ 16) 0 0 [] = .ok ∅ := rfl
  have hrecord : (session .empty false).recordRehash (2 ^ 16) 256 0 ∅ ∅ .empty =
      .ok (session .empty false, .empty) := by
    apply foldlM_eq_ok
    intro a ha
    have hlt : ¬ 256 ≤ a := by simpa using ha
    simp [hlt]
  rw [EphemeralSaltState.shiRehash, if_neg hmask, hmeta, ok_bind]
  simp only [hread, ok_bind, ExtTreeMap.size_empty, lt_self_iff_false, if_false, hempty, hnew, hrecord]
  exact ⟨_, rfl⟩

/-- After it the first insertion never returns. -/
theorem upsert_diverges_without_slots :
    ∃ st us, runOps flatHasher 2 [.shiRehash (2 ^ 16) 0 0] (session .empty false) = .ok (st, us) ∧
      ∀ fuel, st.shiUpsert flatHasher fuel (flatHasher.bucketId [1]) [1] [2] .empty =
        .error (.panic .diverges) := by
  obtain ⟨u, hu⟩ := shiRehash_no_slots
  refine ⟨slotlessState, [u], ?_, fun fuel ↦ ?_⟩
  · simp only [runOps, List.foldlM_cons, List.foldlM_nil, Op.run, hu]
    rfl
  · exact slotless_slotlessState.shiUpsert (by decide) (by decide) .empty fuel

end NoSlots

end Salt
