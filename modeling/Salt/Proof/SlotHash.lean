import Salt.Proof.Binding

namespace Salt

open Library.VectorOpening

variable {F : Type}

/-- The scalar committed for a slot: a fixed one for an empty slot, else the reduced digest of the
key bytes followed by the value bytes. -/
def kvHash (digest : Bytes → F) (emptySlotHash : F) : Option SaltValue → F
  | none => emptySlotHash
  | some saltValue => digest (saltValue.key ++ saltValue.value)

section Binding

variable {digest : Bytes → F} {emptySlotHash : F} {k x k' x' : Bytes} {a b : SaltValue}

theorem kvHash_new (ha : SaltValue.new k x = .ok a) :
    kvHash digest emptySlotHash (some a) = digest (k ++ x) := by
  rw [kvHash, SaltValue.key_of_new ha, SaltValue.value_of_new ha]

theorem Bound.hash_eq {C : Type} {vec : C → ℕ → F} {hash : C → F} {slotToField : Option SaltValue → F}
    {p p' : SaltProof C} {key : SaltKey} {v v' : Option SaltValue} (hinj : Function.Injective hash)
    (hroot : p.parentsCommitments[0]? = p'.parentsCommitments[0]?)
    (hlevel : p.levels[key.bucketId]? = p'.levels[key.bucketId]?)
    (h : Bound vec hash slotToField p key v) (h' : Bound vec hash slotToField p' key v') :
    slotToField v = slotToField v' := by
  obtain ⟨level, root, leaf, hl, -, -, -, hr, hopen, hvec⟩ := h
  obtain ⟨level', root', leaf', hl', -, -, -, hr', hopen', hvec'⟩ := h'
  obtain rfl : level = level' := Option.some.inj (hl.symm.trans (hlevel.trans hl'))
  obtain rfl : root = root' := Option.some.inj (hr.symm.trans (hroot.trans hr'))
  obtain rfl := hopen.unique hinj hopen'
  exact hvec.symm.trans hvec'

/-- The slot hash binds a pair, and so does a committed slot, exactly when no other split of the
same bytes is at hand. -/
theorem kv_hash_binds_iff (hinj : Function.Injective digest) (hempty : ∀ bytes, digest bytes ≠ emptySlotHash)
    {C : Type} {vec : C → ℕ → F} {hash : C → F} (hhash : Function.Injective hash)
    (ha : SaltValue.new k x = .ok a) (hb : SaltValue.new k' x' = .ok b) :
    ((kvHash digest emptySlotHash (some a) = kvHash digest emptySlotHash (some b) →
        a.key = b.key ∧ a.value = b.value) ∧
      kvHash digest emptySlotHash (some a) ≠ kvHash digest emptySlotHash none ∧
      ∀ (p p' : SaltProof C) (key : SaltKey),
        p.parentsCommitments[0]? = p'.parentsCommitments[0]? →
        p.levels[key.bucketId]? = p'.levels[key.bucketId]? →
        Bound vec hash (kvHash digest emptySlotHash) p key (some a) →
        Bound vec hash (kvHash digest emptySlotHash) p' key (some b) →
          a.key = b.key ∧ a.value = b.value) ↔
    (k ++ x = k' ++ x' → k.length = k'.length) := by
  rw [kvHash_new ha, kvHash_new hb, hinj.eq_iff, SaltValue.key_of_new ha, SaltValue.value_of_new ha,
    SaltValue.key_of_new hb, SaltValue.value_of_new hb]
  constructor
  · intro h heq
    rw [(h.1 heq).1]
  · intro hlen
    have hsame : k ++ x = k' ++ x' → k = k' ∧ x = x' := fun heq ↦ List.append_inj heq (hlen heq)
    refine ⟨hsame, hempty _, fun p p' key hroot hlevel h h' ↦ ?_⟩
    have hhashes := h.hash_eq hhash hroot hlevel h'
    rw [kvHash_new ha, kvHash_new hb] at hhashes
    exact hsame (hinj hhashes)

end Binding

theorem kv_hash_binds_iff_equal_lengths :
    ∃ a b, SaltValue.new [1, 2] [3] = .ok a ∧ SaltValue.new [1, 3] [2] = .ok b ∧
      (((kvHash some none (some a) = kvHash some none (some b) → a.key = b.key ∧ a.value = b.value) ∧
        kvHash some none (some a) ≠ kvHash some none none ∧
        ∀ (p p' : SaltProof (Option Bytes)) (key : SaltKey),
          p.parentsCommitments[0]? = p'.parentsCommitments[0]? →
          p.levels[key.bucketId]? = p'.levels[key.bucketId]? →
          Bound (fun c _ ↦ c) id (kvHash some none) p key (some a) →
          Bound (fun c _ ↦ c) id (kvHash some none) p' key (some b) →
            a.key = b.key ∧ a.value = b.value) ↔
      (([1, 2] ++ [3] : Bytes) = [1, 3] ++ [2] → ([1, 2] : Bytes).length = ([1, 3] : Bytes).length)) :=
  ⟨_, _, rfl, rfl, kv_hash_binds_iff (Option.some_injective _) (fun _ ↦ by simp)
    Function.injective_id rfl rfl⟩

/-- Moving a byte from the key to the value leaves the hash as it is. -/
theorem kv_hash_moved_byte :
    Function.Injective (some : Bytes → Option Bytes) ∧ (∀ bytes : Bytes, some bytes ≠ none) ∧
    ∃ a b, SaltValue.new [1, 2] [3] = .ok a ∧ SaltValue.new [1] [2, 3] = .ok b ∧
      ¬ (kvHash some none (some a) = kvHash some none (some b) →
        a.key = b.key ∧ a.value = b.value) := by
  refine ⟨Option.some_injective _, fun _ ↦ by simp, _, _, rfl, rfl, fun h ↦ ?_⟩
  exact absurd (h (by decide)).1 (by decide)

end Salt
