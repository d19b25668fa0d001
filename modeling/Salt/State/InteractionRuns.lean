import Salt.State.Interaction
import Salt.Library.Triple

namespace Salt.Interaction

open Std (ExtTreeMap)
open Library.Commands Library.Commands.Program
open Library.Triple (ok_bind)
open Library.ProbeRing (probe rank)

variable {α : Type} (H : Hasher) (st : EphemeralSaltState) (out : StateUpdates)

def beside (out : StateUpdates) (x : Except Fault (EphemeralSaltState × α)) : Except Fault (α × OpenSession) :=
  x >>= fun r ↦ .ok (r.2, (r.1, out))

def within (x : Except Fault OpenSession) : Except Fault (Unit × OpenSession) := x >>= fun r ↦ .ok ((), r)

theorem run_value (key : SaltKey) : run handle (value key) (st, out) = beside out (st.value key) := by
  change run handle (ofExcept (orKeep (st, out) out (st.value key)).1) (orKeep (st, out) out (st.value key)).2 = _
  cases st.value key <;> rfl

theorem run_usageCount (b : ℕ) :
    run handle (usageCount b) (st, out) = st.usageCount b >>= fun n ↦ .ok (n, (st, out)) :=
  run_ofExcept handle _ _

theorem run_attempted (r : Except Fault α) (s : OpenSession) :
    run handle (attempted r) s = attempt r >>= fun a ↦ .ok (a, s) := by
  rcases r with (_ | _) | _ <;> rfl

theorem run_updateValue (key : SaltKey) (o n : Option SaltValue) :
    run handle (updateValue key o n) (st, out) = within (st.updateValue out key o n) := by
  change run handle (ofExcept (recordValue (st, out) key o n).1) (recordValue (st, out) key o n).2 = _
  unfold recordValue EphemeralSaltState.updateValue within
  by_cases hon : o = n
  · rw [if_pos hon, if_pos hon]
    rfl
  · rw [if_neg hon, if_neg hon]
    cases out.add key o n <;> rfl

theorem run_add (key : SaltKey) (o n : Option SaltValue) :
    run handle (add key o n) (st, out) = out.add key o n >>= fun out' ↦ .ok ((), (st, out')) := by
  change run handle (ofExcept (recordChange (st, out) key o n).1) (recordChange (st, out) key o n).2 = _
  unfold recordChange
  cases out.add key o n <;> rfl

theorem run_metadata (b : ℕ) (needUsed : Bool) :
    run handle (metadata b needUsed) (st, out) = beside out (st.metadata b needUsed) := by
  unfold metadata EphemeralSaltState.metadata
  rw [run_issue]
  cases hm : st.shapeOf b with
  | error e =>
    simp only [handle, hm]
    rfl
  | ok r =>
    simp only [handle, hm]
    cases needUsed with
    | false => rfl
    | true =>
      change run handle (usageCount b >>= _) (r.1, out) = _
      rw [run_bind, run_usageCount]
      cases hu : r.1.usageCount b <;> simp [beside, hu, ok_bind] <;> rfl

theorem run_shiSearchLoop (b h c : ℕ) (key : Bytes) (n step : ℕ) :
    run handle (shiSearchLoop b h c key n step) (st, out) =
      beside out (Salt.shiSearchLoop EphemeralSaltState.value b h c key n step st) := by
  induction n generalizing st step with
  | zero => rfl
  | succ n ih =>
    rw [shiSearchLoop, Salt.shiSearchLoop, run_bind, run_value]
    rcases st.value (SaltKey.ofPair b (probe h step c)) with e | ⟨st', _ | v⟩
    · rfl
    · rfl
    · simp only [beside, ok_bind]
      split_ifs
      · rfl
      · rfl
      · exact ih st' (step + 1)

theorem run_shiFind (b : ℕ) (nonce : UInt32) (c : ℕ) (key : Bytes) :
    run handle (shiFind H b nonce c key) (st, out) = beside out (st.shiFind H b nonce c key) :=
  run_shiSearchLoop st out b _ c key c 0

theorem run_tryDirectFind (key : Bytes) :
    run handle (tryDirectFind key) (st, out) = beside out (st.tryDirectFind key) := by
  unfold tryDirectFind EphemeralSaltState.tryDirectFind EphemeralSaltState.directFind
  rw [run_issue, run_bind, run_attempted]
  change (attempt (st.store.plainValueFast key) >>= _) >>= _ = _
  rcases st.store.plainValueFast key with (_ | _) | saltKey
  · rfl
  · rfl
  · change run handle (issue _ _) (st, out) = _
    rw [run_issue, run_bind, run_attempted]
    change ((attempt (orKeep (st, out) out (st.value saltKey)).1) >>= fun a ↦
      .ok (a, (orKeep (st, out) out (st.value saltKey)).2)) >>= _ = _
    simp only [attempt, ok_bind]
    rcases st.value saltKey with (_ | _) | ⟨st', _ | v⟩
    · rfl
    · rfl
    · rfl
    · simp only [orKeep, ok_bind]
      by_cases hv : v.key = key
      · simp only [hv, if_true]
        rfl
      · simp only [hv, if_false]
        rfl

theorem run_find (key : Bytes) : run handle (find H key) (st, out) = beside out (st.find H key) := by
  unfold find EphemeralSaltState.find
  rw [run_bind, run_tryDirectFind]
  rcases st.tryDirectFind key with e | ⟨st₁, _ | r⟩
  · rfl
  · simp only [beside, ok_bind]
    rw [run_bind, run_metadata]
    rcases st₁.metadata (H.bucketId key) false with e | ⟨st₂, m⟩
    · rfl
    · simp only [beside, ok_bind]
      rw [run_bind, run_shiFind]
      rcases st₂.shiFind H (H.bucketId key) m.nonce m.capacity key with e | ⟨st₃, _ | f⟩ <;> rfl
  · rfl

theorem run_plainValue (key : Bytes) : run handle (plainValue H key) (st, out) = beside out (st.plainValue H key) := by
  unfold plainValue EphemeralSaltState.plainValue
  rw [run_bind, run_find]
  cases st.find H key <;> rfl

theorem run_shiUpsertLoop (b h c n step : ℕ) (v : SaltValue) :
    run handle (shiUpsertLoop b h c n step v) (st, out) =
      EphemeralSaltState.shiUpsertLoop b h c n step v st out := by
  induction n generalizing st out step v with
  | zero => rfl
  | succ n ih =>
    rw [shiUpsertLoop, EphemeralSaltState.shiUpsertLoop, run_bind, run_value]
    rcases st.value (SaltKey.ofPair b (probe h step c)) with e | ⟨st', _ | old⟩
    · rfl
    · simp only [beside, ok_bind]
      rw [run_bind, run_updateValue]
      cases st'.updateValue out (SaltKey.ofPair b (probe h step c)) none (some v) <;> rfl
    · simp only [beside, ok_bind]
      split_ifs
      · rw [run_bind, run_updateValue]
        cases st'.updateValue out (SaltKey.ofPair b (probe h step c)) (some old) (some v) <;> rfl
      · rw [run_bind, run_updateValue]
        rcases st'.updateValue out (SaltKey.ofPair b (probe h step c)) (some old) (some v) with e | r
        · rfl
        · exact ih r.1 r.2 (step + 1) old
      · exact ih st' out (step + 1) v

theorem run_readBucket (b c : ℕ) : run handle (readBucket b c) (st, out) = beside out (st.readBucket b c) := by
  refine run_foldlM handle (fun acc : EphemeralSaltState × ExtTreeMap SaltKey SaltValue ↦ (acc.2, (acc.1, out))) ?_ _
    (st, ∅)
  rintro ⟨st, bucket⟩ slot
  dsimp only
  rw [run_bind, run_value]
  rcases st.value (SaltKey.ofPair b slot) with e | ⟨st', _ | v⟩ <;> rfl

theorem run_recordRehash (b c c' : ℕ) (old new : ExtTreeMap SaltKey SaltValue) :
    run handle (recordRehash b c c' old new) (st, out) = within (st.recordRehash b c c' old new out) := by
  refine run_foldlM handle (fun acc : OpenSession ↦ ((), acc)) ?_ _ (st, out)
  rintro ⟨st, out⟩ slot
  dsimp only
  generalize (if slot < c then old[SaltKey.ofPair b slot]? else none) = o
  generalize (if slot < c' then new[SaltKey.ofPair b slot]? else none) = n
  have hsecond : ∀ st : EphemeralSaltState,
      run handle (if o ≠ n ∧ (o.isSome ∨ n.isSome) then add (SaltKey.ofPair b slot) o n else Pure.pure ()) (st, out) =
        (if o ≠ n ∧ (o.isSome ∨ n.isSome) then out.add (SaltKey.ofPair b slot) o n >>= fun out' ↦ .ok (st, out')
          else .ok (st, out)) >>= fun r ↦ .ok ((), r) := by
    intro st
    split_ifs
    · rw [run_add]
      cases out.add (SaltKey.ofPair b slot) o n <;> rfl
    · rfl
  by_cases hfirst : o ≠ n ∨ c ≤ slot
  · simp only [if_pos hfirst]
    exact hsecond _
  · simp only [if_neg hfirst]
    exact hsecond st

theorem run_shiRehash (b : ℕ) (nonce : UInt32) (c : ℕ) :
    run handle (shiRehash H b nonce c) (st, out) = within (st.shiRehash H b nonce c out) := by
  unfold shiRehash EphemeralSaltState.shiRehash
  by_cases hc : c > bucketSlotIdMask
  · rw [if_pos hc, if_pos hc]
    rfl
  rw [if_neg hc, if_neg hc, run_bind, run_metadata]
  rcases st.metadata b true with e | ⟨st₁, m⟩
  · rfl
  simp only [beside, ok_bind]
  rw [run_bind, run_readBucket]
  rcases st₁.readBucket b m.capacity with e | ⟨st₂, bucket⟩
  · rfl
  simp only [beside, ok_bind]
  by_cases hsize : c < bucket.size
  · rw [if_pos hsize, if_pos hsize]
    rfl
  rw [if_neg hsize, if_neg hsize, run_bind, run_ofExcept]
  rcases EphemeralSaltState.reinsert H b nonce c _ with e | new
  · rfl
  simp only [ok_bind]
  rw [run_bind, run_recordRehash]
  rcases st₂.recordRehash b m.capacity c bucket new out with e | ⟨st₃, out₃⟩
  · rfl
  simp only [within, ok_bind]
  rw [run_bind, run_ofExcept]
  rcases bucketMetadataKey b with e | metadataKey
  · rfl
  simp only [ok_bind]
  rw [run_bind, run_updateValue]
  rcases st₃.updateValue out₃ metadataKey _ _ with e | r <;> rfl

theorem run_shiUpsert (fuel b : ℕ) (key val : Bytes) :
    run handle (shiUpsert H fuel b key val) (st, out) = within (st.shiUpsert H fuel b key val out) := by
  induction fuel generalizing st out key val with
  | zero => rfl
  | succ fuel ih =>
    rw [shiUpsert, EphemeralSaltState.shiUpsert, run_bind, run_ofExcept]
    rcases SaltValue.new key val with e | v
    · rfl
    simp only [ok_bind]
    rw [run_bind, run_tryDirectFind]
    rcases st.tryDirectFind key with e | ⟨st₁, _ | ⟨saltKey, old⟩⟩
    · rfl
    · simp only [beside, ok_bind]
      rw [run_bind, run_metadata]
      rcases st₁.metadata b false with e | ⟨st₂, m⟩
      · rfl
      simp only [beside, ok_bind]
      rw [run_bind, run_shiUpsertLoop]
      rcases EphemeralSaltState.shiUpsertLoop b _ m.capacity m.capacity 0 v st₂ out with e | ⟨probed, st₃, out₃⟩
      · rfl
      simp only [ok_bind]
      cases probed with
      | updated => rfl
      | inserted =>
        dsimp only
        rw [run_issue, run_bind, run_attempted]
        change (attempt (st₃.usageCount b) >>= _) >>= _ = within (attempt (st₃.usageCount b) >>= _)
        rcases attempt (st₃.usageCount b) with e | _ | used
        · rfl
        · rfl
        · simp only [ok_bind]
          by_cases hused : used > m.capacity * bucketResizeLoadFactorPct / 100
          · simp only [if_pos hused]
            rw [run_bind, run_ofExcept]
            rcases computeResizeCapacity m.capacity used with e | c
            · rfl
            · exact run_shiRehash H st₃ out₃ b m.nonce c
          · simp only [if_neg hused]
            rfl
      | exhausted displaced =>
        dsimp only
        rw [run_bind, run_ofExcept]
        rcases computeResizeCapacity m.capacity m.capacity with e | c
        · rfl
        simp only [ok_bind]
        rw [run_bind, run_shiRehash]
        rcases st₃.shiRehash H b m.nonce c out₃ with e | r
        · rfl
        · exact ih r.1 r.2 displaced.key displaced.value
    · exact run_updateValue st₁ out saltKey _ _

theorem run_shiNextLoop (b del : ℕ) (nonce : UInt32) (c n i : ℕ) :
    run handle (shiNextLoop H b del nonce c n i) (st, out) =
      beside out (EphemeralSaltState.shiNextLoop H b del nonce c n i st) := by
  induction n generalizing st i with
  | zero => rfl
  | succ n ih =>
    rw [shiNextLoop, EphemeralSaltState.shiNextLoop, run_bind, run_value]
    rcases st.value (SaltKey.ofPair b (probe del i c)) with e | ⟨st', _ | v⟩
    · rfl
    · rfl
    · simp only [beside, ok_bind]
      split_ifs
      · rfl
      · exact ih st' (i + 1)

theorem run_shiDeleteLoop (b : ℕ) (nonce : UInt32) (c n del : ℕ) (v : SaltValue) :
    run handle (shiDeleteLoop H b nonce c n del v) (st, out) =
      within (EphemeralSaltState.shiDeleteLoop H b nonce c n del v st out) := by
  induction n generalizing st out del v with
  | zero => rfl
  | succ n ih =>
    rw [shiDeleteLoop, EphemeralSaltState.shiDeleteLoop, run_bind, shiNext, run_shiNextLoop]
    change beside out (st.shiNext H b del nonce c) >>= _ = _
    rcases st.shiNext H b del nonce c with e | ⟨st₁, _ | ⟨slot, moved⟩⟩
    · rfl
    · exact run_updateValue st₁ out _ _ _
    · simp only [beside, ok_bind]
      rw [run_bind, run_updateValue]
      rcases st₁.updateValue out (SaltKey.ofPair b del) (some v) (some moved) with e | r
      · rfl
      · exact ih r.1 r.2 slot moved

theorem run_shiDelete (b : ℕ) (key : Bytes) :
    run handle (shiDelete H b key) (st, out) = within (st.shiDelete H b key out) := by
  unfold shiDelete EphemeralSaltState.shiDelete
  rw [run_bind, run_metadata]
  rcases st.metadata b false with e | ⟨st₁, m⟩
  · rfl
  simp only [beside, ok_bind]
  rw [run_bind, run_shiFind]
  rcases st₁.shiFind H b m.nonce m.capacity key with e | ⟨st₂, _ | ⟨slot, v⟩⟩
  · rfl
  · rfl
  · exact run_shiDeleteLoop H st₂ out b m.nonce m.capacity (m.capacity * m.capacity) slot v

theorem run_updateEach (fuel : ℕ) (kvs : List (Bytes × Option Bytes)) :
    run handle (updateEach H fuel kvs) (st, out) =
      within (EphemeralSaltState.updateFrom H fuel kvs (st, out)) := by
  refine run_foldlM handle (fun acc : OpenSession ↦ ((), acc)) ?_ kvs (st, out)
  rintro ⟨st, out⟩ ⟨key, _ | val⟩
  · exact run_shiDelete H st out (H.bucketId key) key
  · exact run_shiUpsert H st out fuel (H.bucketId key) key val

theorem run_update (fuel : ℕ) (kvs : List (Bytes × Option Bytes)) :
    run handle (update H fuel kvs) (st, out) = beside out (st.update H fuel kvs) := by
  unfold update EphemeralSaltState.update
  rw [run_bind]
  change run handle (updateEach H fuel kvs >>= fun _ ↦ replaceUpdates out) (st, .empty) = _
  rw [run_bind, run_updateEach]
  cases EphemeralSaltState.updateFrom H fuel kvs (st, .empty) <;> rfl

theorem run_drainBucket (b c : ℕ) :
    run handle (drainBucket b c) (st, out) =
      st.drainBucket b c out >>= fun r ↦ .ok (r.2.2, (r.1, r.2.1)) := by
  refine run_foldlM handle
    (fun acc : EphemeralSaltState × StateUpdates × List SaltValue ↦ (acc.2.2, (acc.1, acc.2.1))) ?_ _ (st, out, [])
  rintro ⟨st, out, pairs⟩ slot
  dsimp only
  rw [run_bind, run_value]
  rcases st.value (SaltKey.ofPair b slot) with e | ⟨st', _ | v⟩
  · rfl
  · rfl
  · simp only [beside, ok_bind]
    change run handle (add _ _ _ >>= _) ({ st' with cache := st'.cache.insert (SaltKey.ofPair b slot) none }, out) = _
    rw [run_bind, run_add]
    cases out.add (SaltKey.ofPair b slot) (some v) none <;> rfl

theorem run_canonicalizeBucket (fuel b : ℕ) :
    run handle (canonicalizeBucket H fuel b) (st, out) = within (st.canonicalizeBucket H fuel out b) := by
  unfold canonicalizeBucket EphemeralSaltState.canonicalizeBucket
  rw [run_bind, run_metadata]
  rcases st.metadata b false with e | ⟨st₁, m⟩
  · rfl
  simp only [beside, ok_bind]
  rw [run_bind, run_drainBucket]
  rcases st₁.drainBucket b m.capacity out with e | ⟨st₂, out₂, pairs⟩
  · rfl
  simp only [ok_bind]
  rw [run_bind, run_ofExcept]
  rcases bucketMetadataKey b with e | metadataKey
  · rfl
  simp only [ok_bind]
  rw [run_issue]
  change run handle (_ >>= _) ({ st₂ with cache := st₂.cache.erase metadataKey }, out₂) = _
  rw [run_bind, run_metadata]
  rcases EphemeralSaltState.metadata { st₂ with cache := st₂.cache.erase metadataKey } b false with e | ⟨st₃, m'⟩
  · rfl
  simp only [beside, ok_bind]
  rw [run_bind, run_add]
  rcases out₂.add metadataKey (some (SaltValue.ofMeta m)) (some (SaltValue.ofMeta m')) with e | out₃
  · rfl
  simp only [ok_bind]
  rw [run_issue]
  refine run_foldlM handle (fun acc : OpenSession ↦ ((), acc)) ?_ pairs (_, out₃)
  rintro ⟨st, out⟩ v
  exact run_shiUpsert H st out fuel b v.key v.value

theorem run_canonicalize (fuel : ℕ) (order : List ℕ → List ℕ) :
    run handle (canonicalize H fuel order) (st, out) = beside out (st.canonicalize H fuel order) := by
  unfold canonicalize EphemeralSaltState.canonicalize
  rw [run_bind]
  change run handle ((order st.rehashedBuckets).foldlM _ _ >>= fun _ ↦
    issue .clearRehashed fun _ ↦ replaceUpdates out) ({ st with rehashedBuckets := [] }, StateUpdates.empty) = _
  rw [run_bind, run_foldlM handle (fun acc : OpenSession ↦ ((), acc)) (g := fun acc b ↦
    acc.1.canonicalizeBucket H fuel acc.2 b) (fun acc b ↦ run_canonicalizeBucket H acc.1 acc.2 fuel b) _
    ({ st with rehashedBuckets := [] }, StateUpdates.empty)]
  cases (order st.rehashedBuckets).foldlM (fun (acc : OpenSession) b ↦ acc.1.canonicalizeBucket H fuel acc.2 b)
    ({ st with rehashedBuckets := [] }, StateUpdates.empty) <;> rfl

theorem run_updateFin (fuel : ℕ) (order : List ℕ → List ℕ) (kvs : List (Bytes × Option Bytes)) :
    run handle (updateFin H fuel order kvs) (st, out) = beside out (st.updateFin H fuel order kvs) := by
  unfold updateFin EphemeralSaltState.updateFin
  rw [run_bind, run_update]
  rcases st.update H fuel kvs with e | ⟨st₁, updates⟩
  · rfl
  simp only [beside, ok_bind]
  rw [run_bind, run_canonicalize]
  rcases st₁.canonicalize H fuel order with e | ⟨st₂, canonical⟩
  · rfl
  simp only [beside, ok_bind]
  rw [run_ofExcept]
  cases updates.merge canonical <;> rfl

theorem run_shiRehashInto (b : ℕ) (nonce : UInt32) (c : ℕ) (out' : StateUpdates) :
    run handle (shiRehashInto H b nonce c out') (st, out) = beside out (st.shiRehash H b nonce c out') := by
  unfold shiRehashInto
  rw [run_bind]
  change run handle (shiRehash H b nonce c >>= fun _ ↦ replaceUpdates out) (st, out') = _
  rw [run_bind, run_shiRehash]
  cases st.shiRehash H b nonce c out' <;> rfl

theorem run_setNonce (b : ℕ) (nonce : UInt32) :
    run handle (setNonce H b nonce) (st, out) = beside out (st.setNonce H b nonce) := by
  unfold setNonce EphemeralSaltState.setNonce
  rw [run_bind, run_metadata]
  rcases st.metadata b false with e | ⟨st₁, m⟩
  · rfl
  · exact run_shiRehashInto H st₁ out b nonce m.capacity .empty

end Salt.Interaction
