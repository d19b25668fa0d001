import Salt.Trie.Fresh
import Salt.State.Transitions

namespace Salt

open Std (ExtTreeMap ExtTreeSet)
open Library.Triple Library.ChangeList

section States

variable {w w' : SaltKey → Option SaltValue} {u : StateUpdates}

def MetaOfBuckets (w w' : SaltKey → Option SaltValue) : Prop :=
  ∀ k, k.isInMetaBucket = true → w k ≠ w' k → ∃ b, isValidDataBucket b ∧ k = metadataKey b

theorem MetaOfBuckets.trans {w'' : SaltKey → Option SaltValue} (h : MetaOfBuckets w w') (h' : MetaOfBuckets w' w'') :
    MetaOfBuckets w w'' := by
  intro k hk hne
  by_cases he : w k = w' k
  · exact h' k hk (he ▸ hne)
  · exact h k hk he

theorem records_of_isDiff (h : u.IsDiff w w') (hmeta : MetaOfBuckets w w') : Records u w w' where
  data k _ := h k
  same k _ hk := by
    rw [h k] at hk
    by_contra hne
    rw [if_neg hne] at hk
    cases hk
  changed k p hk hp := by
    rw [h k] at hp
    split at hp
    · cases hp
    · exact ⟨(Option.some.inj hp).symm, hmeta k hk ‹_›⟩

theorem inverse_get {k : SaltKey} (h : u.data[k]? = if w k = w' k then none else some (w k, w' k)) :
    u.inverse.data[k]? = if w' k = w k then none else some (w' k, w k) := by
  rw [StateUpdates.inverse_data, h]
  by_cases he : w k = w' k
  · rw [if_pos he, if_pos he.symm]
    rfl
  · rw [if_neg he, if_neg (Ne.symm he)]
    rfl

theorem isDiff_inverse (h : u.IsDiff w w') : u.inverse.IsDiff w' w := fun k ↦ inverse_get (h k)

theorem Records.inverse (h : Records u w w') : Records u.inverse w' w where
  data k hk := inverse_get (h.data k hk)
  same k hk hnone := by
    rw [StateUpdates.inverse_data, Option.map_eq_none_iff] at hnone
    exact (h.same k hk hnone).symm
  changed k p hk hp := by
    rw [StateUpdates.inverse_data] at hp
    obtain ⟨p', hp', rfl⟩ := Option.map_eq_some_iff.mp hp
    obtain ⟨rfl, hb⟩ := h.changed k p' hk hp'
    exact ⟨rfl, hb⟩

end States

namespace StateRoot

variable {F C : Type} [CommRing F] [AddCommGroup C] [Module F C]

inductive Call
  | update (u : StateUpdates)
  | finalize

section Perform

variable [DecidableEq C] (K : Committer F C) (threads : ℕ) (order : TrieUpdates C → TrieUpdates C)

def perform (st : StateRoot C) : List Call → Except Fault (StateRoot C × List (F × TrieUpdates C))
  | [] => .ok (st, [])
  | .update u :: calls => do
    let st ← st.update K threads u
    perform st calls
  | .finalize :: calls => do
    let (st, rootHash, trieUpdates) ← st.finalize K threads order
    let (st, reports) ← perform st calls
    .ok (st, (rootHash, trieUpdates) :: reports)

end Perform

variable (K : Committer F C)

/-- A batch that fits the state. It leads to a regular state, hides no node of a bucket that contracts, and
brings no bucket tree back to a level that it has left. -/
structure Admissible (w : SaltKey → Option SaltValue) (T : ℕ → ℕ → Prop) (u : StateUpdates) : Prop where
  diff : u.IsDiff w (u.apply w)
  metadata : MetaOfBuckets w (u.apply w)
  regular : Regular (u.apply w)
  visible : Visible K w (u.apply w)
  left : ∀ b l, T b l → l < topLevel (u.apply w) b

/-- Calls that fit: batches follow each other, and a root that is reported has changed since the last report,
or is still compared with the root in the store. -/
def Allowed (root : C) : (SaltKey → Option SaltValue) → (SaltKey → Option SaltValue) → (ℕ → ℕ → Prop) → List Call → Prop
  | _, _, _, [] => True
  | w₀, w, T, .update u :: calls => Admissible K w T u ∧ Allowed root w₀ (u.apply w) (retire w (u.apply w) T) calls
  | w₀, w, T, .finalize :: calls =>
    (K.mainNode w₀ 0 0 = root ∨ K.mainNode w₀ 0 0 ≠ K.mainNode w 0 0) ∧ Allowed root w w T calls

/-- For each `finalize` the state at the one before and the state it sees. -/
def intervals : (SaltKey → Option SaltValue) → (SaltKey → Option SaltValue) → List Call →
    List ((SaltKey → Option SaltValue) × (SaltKey → Option SaltValue))
  | _, _, [] => []
  | w₀, w, .update u :: calls => intervals w₀ (u.apply w) calls
  | w₀, w, .finalize :: calls => (w₀, w) :: intervals w w calls

def IsReport (i : (SaltKey → Option SaltValue) × (SaltKey → Option SaltValue)) (r : F × TrieUpdates C) : Prop :=
  r.1 = K.hash (K.mainNode i.2 0 0) ∧ Lists (NodeFrom 0) (K.trieOf i.1) (K.trieOf i.2) r.2

variable {K} {A : Prop} {w₀ w w' : SaltKey → Option SaltValue} {T : ℕ → ℕ → Prop} {root : C} {st : StateRoot C}
  {s : TrieReader C} {calls : List Call} {m d threads : ℕ} {order : TrieUpdates C → TrieUpdates C}

theorem Admissible.records {u : StateUpdates} (h : Admissible K w T u) : Records u w (u.apply w) :=
  records_of_isDiff h.diff h.metadata

theorem Admissible.fresh {u : StateUpdates} (h : Admissible K w T u) : Admissible K w (fun _ _ ↦ False) u :=
  { h with left := fun _ _ hleft ↦ hleft.elim }

variable [DecidableEq C]

theorem perform_sat (hK : K.EmptyDefaults) (horder : ∀ l, (order l).Perm l) (hw : Regular w)
    (hcapacity : ∀ b, isValidDataBucket b → KnowsCapacity A w st b) (hst : Tracks K A w₀ w T root st)
    (h : Allowed K root w₀ w T calls) :
    Sat (perform K threads order st calls) (fun _ ↦ A) fun r ↦
      List.Forall₂ (IsReport K) (intervals w₀ w calls) r.2 := by
  induction calls generalizing st w₀ w T with
  | nil => exact Sat.ok .nil
  | cons call calls ih =>
    cases call with
    | update u =>
      obtain ⟨hu, hrest⟩ := h
      rw [perform]
      refine (update_sat hK hu.records hw hu.regular hu.visible hu.left (fun b hb _ ↦ hcapacity b hb) hst).bind
        fun st' ⟨hst', hcapacity', _⟩ ↦ ?_
      exact ih hu.regular hcapacity' hst' hrest
    | finalize =>
      obtain ⟨hroot, hrest⟩ := h
      rw [perform]
      refine (finalize_sat horder hroot hst).bind ?_
      rintro ⟨st', rootHash, trieUpdates⟩ ⟨hst', hcapacity', hreport⟩
      refine (ih hw (fun b hb ↦ hcapacity' b (hcapacity b hb)) hst' hrest).bind ?_
      rintro ⟨st'', reports⟩ hreports
      exact Sat.ok (.cons hreport hreports)

end StateRoot

end Salt
