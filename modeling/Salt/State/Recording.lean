import Salt.State.Caching

namespace Salt

open Std (ExtTreeMap)
open Library.Commands Library.Commands.Program
open Library.Triple (ok_bind)

def lookedUp : SessionCommand → List SaltKey
  | .value key => [key]
  | .shapeOf b => if isValidDataBucket b then [metadataKey b] else []
  | _ => []

def StateReader.Answers (store : StateReader) (key : SaltKey) : Prop :=
  (key.isInMetaBucket = false ∧ ∃ v, store.value key = .ok v) ∨
    ∃ b m, isValidDataBucket b ∧ key = metadataKey b ∧ store.metadata b = .ok m

theorem IsRead.answers {store : StateReader} {k : SaltKey} {v : Option SaltValue} (h : IsRead store k v) :
    store.Answers k := by
  rcases h with ⟨hk, hv⟩ | ⟨b, m, hb, hk, hm, -⟩
  · exact .inl ⟨hk, v, hv⟩
  · exact .inr ⟨b, m, hb, hk, hm⟩

namespace CachesReads

variable {R : CapacityRule} {s t : OpenSession}

theorem mem_of_getElem? {k : SaltKey} {v : Option SaltValue} (h : s.1.cache[k]? = some v) : k ∈ s.1.cache :=
  ExtTreeMap.mem_iff_isSome_getElem?.mpr (by rw [h]; rfl)

theorem mem_recordValue {k x : SaltKey} {o n : Option SaltValue} (hx : x ∈ s.1.cache) :
    x ∈ (recordValue s k o n).2.1.cache := by
  unfold recordValue
  split_ifs
  · exact hx
  · dsimp only
    cases s.2.add k o n with
    | error e => exact hx
    | ok out => exact ExtTreeMap.mem_insert.mpr (.inr hx)

theorem mem_recordChange {k x : SaltKey} {o n : Option SaltValue} :
    x ∈ (recordChange s k o n).2.1.cache ↔ x ∈ s.1.cache := by
  unfold recordChange
  cases s.2.add k o n <;> rfl

theorem value_cache (s : OpenSession) (k : SaltKey) :
    (handle (.value k) s).2.1.cache = s.1.cache ∨
      ∃ v, (handle (.value k) s).2.1.cache = s.1.cache.insert k v := by
  simp only [handle, EphemeralSaltState.value]
  cases s.1.cache[k]? with
  | some v => exact .inl rfl
  | none =>
    dsimp only
    cases s.1.store.value k with
    | error e => exact .inl rfl
    | ok v =>
      cases hread : s.1.cacheRead with
      | false => exact .inl rfl
      | true => exact .inr ⟨v, rfl⟩

theorem shapeOf_cache (s : OpenSession) (b : ℕ) :
    (handle (.shapeOf b) s).2.1.cache = s.1.cache ∨
      isValidDataBucket b ∧ ∃ v, (handle (.shapeOf b) s).2.1.cache = s.1.cache.insert (metadataKey b) v := by
  by_cases hb : isValidDataBucket b
  · simp only [handle, EphemeralSaltState.shapeOf, bucketMetadataKey, if_pos hb, ok_bind]
    rcases s.1.cache[metadataKey b]? with _ | _ | v
    · dsimp only
      cases s.1.store.metadata b with
      | error e => exact .inl rfl
      | ok m =>
        cases hread : s.1.cacheRead with
        | false => exact .inl rfl
        | true => exact .inr ⟨hb, _, rfl⟩
    · exact .inl rfl
    · dsimp only
      cases BucketMeta.tryFrom v <;> exact .inl rfl
  · simp only [handle]
    rw [shapeOf_invalid hb]
    exact .inl rfl

/-- Only `cacheRemove` takes keys out of a cache. -/
theorem cache_grows (hcalls : ¬ R.calls) {c : SessionCommand} (hc : R.Admits c) {x : SaltKey}
    (hx : x ∈ s.1.cache) : x ∈ (handle c s).2.1.cache := by
  have hinsert : ∀ {k : SaltKey} {v : Option SaltValue}, x ∈ s.1.cache.insert k v :=
    fun {k v} ↦ ExtTreeMap.mem_insert.mpr (.inr hx)
  cases c with
  | value k =>
    rcases value_cache s k with h | ⟨v, h⟩
    · rwa [h]
    · rw [h]
      exact hinsert
  | shapeOf b =>
    rcases shapeOf_cache s b with h | ⟨-, v, h⟩
    · rwa [h]
    · rw [h]
      exact hinsert
  | updateValue k o n => exact mem_recordValue hx
  | cacheInsert k v => exact hinsert
  | cacheRemove k => exact absurd hc hcalls
  | add k o n => exact mem_recordChange.mpr hx
  | insertRehashed b =>
    simp only [handle, EphemeralSaltState.insertRehashed]
    split_ifs <;> exact hx
  | _ => exact hx

/-- A key comes into the cache as the other session writes it, or by being looked up. -/
theorem cache_gains (h : CachesReads R s t) {c : SessionCommand} (hc : R.Admits c) {x : SaltKey}
    (hx : x ∈ (handle c s).2.1.cache) :
    x ∈ s.1.cache ∨ x ∈ (handle c t).2.1.cache ∨ x ∈ lookedUp c := by
  have hinsert : ∀ {m : ExtTreeMap SaltKey (Option SaltValue)} {k : SaltKey} {v : Option SaltValue},
      x ∈ m.insert k v → x = k ∨ x ∈ m := by
    intro m k v hmem
    rw [ExtTreeMap.mem_insert, Std.LawfulEqCmp.compare_eq_iff_eq] at hmem
    exact hmem.imp_left Eq.symm
  cases c with
  | value k =>
    rcases value_cache s k with heq | ⟨v, heq⟩
    · exact .inl (heq ▸ hx)
    · rw [heq] at hx
      rcases hinsert hx with rfl | hx
      · exact .inr (.inr (List.mem_singleton_self _))
      · exact .inl hx
  | shapeOf b =>
    rcases shapeOf_cache s b with heq | ⟨hb, v, heq⟩
    · exact .inl (heq ▸ hx)
    · rw [heq] at hx
      rcases hinsert hx with rfl | hx
      · refine .inr (.inr ?_)
        change _ ∈ if isValidDataBucket b then [metadataKey b] else []
        rw [if_pos hb]
        exact List.mem_singleton_self _
      · exact .inl hx
  | updateValue k o n =>
    simp only [handle, recordValue, h.updates_eq] at hx ⊢
    by_cases hon : o = n
    · rw [if_pos hon] at hx
      exact .inl hx
    · rw [if_neg hon] at hx ⊢
      cases hadd : t.2.add k o n with
      | error e =>
        rw [hadd] at hx
        exact .inl hx
      | ok out =>
        rw [hadd] at hx
        rcases hinsert hx with rfl | hx
        · exact .inr (.inl ExtTreeMap.mem_insert_self)
        · exact .inl hx
  | cacheInsert k v =>
    rcases hinsert hx with rfl | hx
    · exact .inr (.inl ExtTreeMap.mem_insert_self)
    · exact .inl hx
  | cacheRemove k => exact .inl (ExtTreeMap.mem_of_mem_erase hx)
  | add k o n => exact .inl (mem_recordChange.mp hx)
  | insertRehashed b =>
    simp only [handle, EphemeralSaltState.insertRehashed] at hx
    split_ifs at hx <;> exact .inl hx
  | _ => exact .inl hx

theorem value_recorded (h : CachesReads R s t) {k : SaltKey} (hk : k.isInMetaBucket = false)
    (hanswers : t.1.store.Answers k) : k ∈ (handle (.value k) s).2.1.cache := by
  simp only [handle]
  cases hs : s.1.cache[k]? with
  | some v =>
    rw [value_cached hs]
    exact mem_of_getElem? hs
  | none =>
    rw [value_reading hs h.reads, h.store_eq]
    rcases hanswers with ⟨-, v, hv⟩ | ⟨b, m, hb, rfl, -⟩
    · rw [hv]
      exact ExtTreeMap.mem_insert_self
    · rw [metadataKey_inMeta hb] at hk
      cases hk

theorem metadata_of_answers {store : StateReader} {b : ℕ} (hb : isValidDataBucket b)
    (h : store.Answers (metadataKey b)) : ∃ m, store.metadata b = .ok m := by
  rcases h with ⟨hk, -⟩ | ⟨b', m, hb', hbb', hm⟩
  · rw [metadataKey_inMeta hb] at hk
    cases hk
  · exact ⟨m, metadataKey_inj hb hb' hbb' ▸ hm⟩

theorem shapeOf_recorded (h : CachesReads R s t) {b : ℕ} (hb : isValidDataBucket b)
    (hanswers : t.1.store.Answers (metadataKey b)) : metadataKey b ∈ (handle (.shapeOf b) s).2.1.cache := by
  cases hs : s.1.cache[metadataKey b]? with
  | some v =>
    rcases shapeOf_cache s b with heq | ⟨-, v, heq⟩
    · rw [heq]
      exact mem_of_getElem? hs
    · rw [heq]
      exact ExtTreeMap.mem_insert_self
  | none =>
    obtain ⟨m, hm⟩ := metadata_of_answers hb hanswers
    simp only [handle]
    rw [shapeOf_reading hb hs h.reads, h.store_eq, hm]
    exact ExtTreeMap.mem_insert_self

theorem handle_store (c : SessionCommand) (s : OpenSession) : (handle c s).2.1.store = s.1.store := by
  cases c with
  | value k =>
    simp only [handle, EphemeralSaltState.value]
    cases s.1.cache[k]? with
    | some v => rfl
    | none =>
      dsimp only
      cases s.1.store.value k with
      | error e => rfl
      | ok v => cases hread : s.1.cacheRead <;> simp [orKeep, ok_bind]
  | shapeOf b =>
    simp only [handle, EphemeralSaltState.shapeOf]
    cases bucketMetadataKey b with
    | error e => rfl
    | ok key =>
      simp only [ok_bind]
      cases s.1.cache[key]? with
      | none =>
        dsimp only
        cases s.1.store.metadata b with
        | error e => rfl
        | ok m => cases hread : s.1.cacheRead <;> simp [orKeep, ok_bind]
      | some v =>
        rcases v with _ | v
        · rfl
        · dsimp only
          cases BucketMeta.tryFrom v <;> rfl
  | updateValue k o n =>
    simp only [handle, recordValue]
    by_cases hon : o = n
    · rw [if_pos hon]
    · rw [if_neg hon]
      cases s.2.add k o n <;> rfl
  | add k o n =>
    simp only [handle, recordChange]
    cases s.2.add k o n <;> rfl
  | insertRehashed b =>
    simp only [handle, EphemeralSaltState.insertRehashed]
    split_ifs <;> rfl
  | _ => rfl

theorem agrees_at (store : StateReader) :
    Simulates handle handle R.Admits R.Expects fun s t ↦ CachesReads R s t ∧ t.1.store = store := by
  intro c s t hc h
  obtain ⟨hanswer, hexpects, hrel⟩ := agrees c s t hc h.1
  exact ⟨hanswer, hexpects, hrel, (handle_store c t).trans h.2⟩

/-- A run leaves every key in the cache that a session without cached reads looks up, as far as the store answers. -/
theorem recorded (hcalls : ¬ R.calls) {α : Type} {post : α → Prop} {p : SessionProgram α} (hp : R.Keeps p post)
    (h : CachesReads R s t) {x : SaltKey} (hx : x ∈ log handle lookedUp p t) (hanswers : t.1.store.Answers x) :
    x ∈ (exec handle p s).2.1.cache := by
  have hold : ∀ c (s' t' : OpenSession) x, R.Admits c → CachesReads R s' t' ∧ t'.1.store = t.1.store →
      (t.1.store.Answers x → x ∈ s'.1.cache) → t.1.store.Answers x → x ∈ (handle c s').2.1.cache :=
    fun c s' t' x hc _ hx' ha ↦ cache_grows hcalls hc (hx' ha)
  have hnew : ∀ c (s' t' : OpenSession), R.Admits c → CachesReads R s' t' ∧ t'.1.store = t.1.store →
      ∀ x ∈ lookedUp c, t.1.store.Answers x → x ∈ (handle c s').2.1.cache := by
    intro c s' t' hc h' x hx ha
    rw [← h'.2] at ha
    cases c with
    | value k =>
      obtain rfl := List.mem_singleton.mp hx
      exact h'.1.value_recorded hc ha
    | shapeOf b =>
      change x ∈ (if isValidDataBucket b then [metadataKey b] else []) at hx
      split_ifs at hx with hb
      · obtain rfl := List.mem_singleton.mp hx
        exact h'.1.shapeOf_recorded hb ha
      · cases hx
    | _ => cases hx
  exact ((agrees_at t.1.store).keeps_log hold hnew hp ⟨h, rfl⟩).2 x hx hanswers

/-- The cache after a run: what it held, what the session without cached reads has written, and what that one looks up
and the store answers. -/
theorem recorded_iff (hcalls : ¬ R.calls) {α : Type} {post : α → Prop} {p : SessionProgram α} (hp : R.Keeps p post)
    (h : CachesReads R s t) {x : SaltKey} :
    x ∈ (exec handle p s).2.1.cache ↔
      x ∈ s.1.cache ∨ x ∈ (exec handle p t).2.1.cache ∨
        x ∈ log handle lookedUp p t ∧ t.1.store.Answers x := by
  have hend := ((agrees_at t.1.store).exec hp ⟨h, rfl⟩).2
  constructor
  · intro hx
    have hgains := ((agrees_at t.1.store).gains_log (fun s ↦ x ∈ s.1.cache) (fun t ↦ x ∈ t.1.cache)
      (fun _ _ _ hc h' hx ↦ h'.1.cache_gains hc hx) (fun _ _ hc hx ↦ cache_grows hcalls hc hx) hp ⟨h, rfl⟩).2 hx
    by_cases hwritten : x ∈ (exec handle p t).2.1.cache
    · exact .inr (.inl hwritten)
    · obtain ⟨v, hv⟩ := Option.isSome_iff_exists.mp (ExtTreeMap.mem_iff_isSome_getElem?.mp hx)
      have hnone : (exec handle p t).2.1.cache[x]? = none := ExtTreeMap.getElem?_eq_none hwritten
      have hanswers := (hend.1.read x v hnone hv).answers
      rw [hend.2] at hanswers
      rcases hgains with hx | hx | hx
      · exact .inl hx
      · exact absurd hx hwritten
      · exact .inr (.inr ⟨hx, hanswers⟩)
  · rintro (hx | hx | ⟨hx, hanswers⟩)
    · have hold : ∀ c (s' t' : OpenSession) (y : SaltKey), R.Admits c → CachesReads R s' t' →
          y ∈ s'.1.cache → y ∈ (handle c s').2.1.cache := fun c s' t' y hc _ hy ↦ cache_grows hcalls hc hy
      have hnone : ∀ c (s' t' : OpenSession), R.Admits c → CachesReads R s' t' →
          ∀ y ∈ ([] : List SaltKey), y ∈ (handle c s').2.1.cache := fun _ _ _ _ _ _ hy ↦ nomatch hy
      exact (agrees.keeps_log hold hnone hp h).1 x hx
    · obtain ⟨v, hv⟩ := Option.isSome_iff_exists.mp (ExtTreeMap.mem_iff_isSome_getElem?.mp hx)
      exact mem_of_getElem? (hend.1.written x v hv)
    · exact recorded hcalls hp h hx hanswers

end CachesReads

section OldCapacities

def OldFits (R : CapacityRule) (out : StateUpdates) : Prop :=
  ∀ (k : SaltKey) o n, out.data[k]? = some (o, n) → k.isInMetaBucket = false ∨
    ∃ b m, isValidDataBucket b ∧ k = metadataKey b ∧ o = some (SaltValue.ofMeta m) ∧ R.fits b m.capacity

variable {R : CapacityRule} {out out' : StateUpdates} {k : SaltKey} {o n : Option SaltValue}

theorem oldFits_empty : OldFits R .empty := by
  intro k o n h
  simp [StateUpdates.empty] at h

theorem OldFits.insert (h : OldFits R out) {old new : Option SaltValue} (hold : k.isInMetaBucket = false ∨
    ∃ b m, isValidDataBucket b ∧ k = metadataKey b ∧ old = some (SaltValue.ofMeta m) ∧ R.fits b m.capacity) :
    OldFits R ⟨out.data.insert k (old, new)⟩ := by
  intro k' o' n' hentry
  rw [ExtTreeMap.getElem?_insert] at hentry
  split_ifs at hentry with hcmp
  · rw [Std.LawfulEqCmp.compare_eq_iff_eq] at hcmp
    cases hentry
    exact hcmp ▸ hold
  · exact h k' o' n' hentry

theorem OldFits.erase (h : OldFits R out) : OldFits R ⟨out.data.erase k⟩ := by
  intro k' o' n' hentry
  rw [ExtTreeMap.getElem?_erase] at hentry
  split_ifs at hentry
  exact h k' o' n' hentry

theorem OldFits.add (h : OldFits R out) (hk : R.Recordable k o n) (hadd : out.add k o n = .ok out') :
    OldFits R out' := by
  have hold : k.isInMetaBucket = false ∨
      ∃ b m, isValidDataBucket b ∧ k = metadataKey b ∧ o = some (SaltValue.ofMeta m) ∧ R.fits b m.capacity := by
    rcases hk with hk | ⟨b, m, -, hb, hk, hm, -, ho, -⟩
    · exact .inl hk
    · exact .inr ⟨b, m, hb, hk, ho, hm⟩
  unfold StateUpdates.add StateUpdates.tryAdd at hadd
  cases hentry : out.data[k]? with
  | none =>
    simp only [hentry] at hadd
    split_ifs at hadd
    · cases hadd
      exact h.insert hold
    · cases hadd
      exact h
  | some entry =>
    simp only [hentry] at hadd
    split_ifs at hadd
    · cases hadd
    · cases hadd
      exact h.erase
    · cases hadd
      exact h.insert (h k entry.1 entry.2 hentry)

theorem OldFits.handle (hcalls : ¬ R.calls) {c : SessionCommand} (hc : R.Admits c) {s : OpenSession}
    (h : OldFits R s.2) :
    OldFits R (handle c s).2.2 := by
  cases c with
  | value k =>
    simp only [Salt.handle]
    cases s.1.value k <;> exact h
  | shapeOf b =>
    simp only [Salt.handle]
    cases s.1.shapeOf b <;> exact h
  | updateValue k o n =>
    simp only [Salt.handle, recordValue]
    by_cases hon : o = n
    · rw [if_pos hon]
      exact h
    · rw [if_neg hon]
      cases hadd : s.2.add k o n with
      | error e => exact h
      | ok out => exact h.add hc hadd
  | add k o n =>
    simp only [Salt.handle, recordChange]
    cases hadd : s.2.add k o n with
    | error e => exact h
    | ok out => exact h.add hc hadd
  | replaceUpdates out => exact absurd hc hcalls
  | _ => exact h

theorem OldFits.exec (hcalls : ¬ R.calls) {α : Type} {post : α → Prop} {p : SessionProgram α} (hp : R.Keeps p post)
    {s t : OpenSession} (hst : CachesReads R s t) (h : OldFits R s.2) : OldFits R (exec Salt.handle p s).2.2 := by
  have hsim : Simulates Salt.handle Salt.handle R.Admits R.Expects fun s t ↦ CachesReads R s t ∧ OldFits R s.2 := by
    intro c s t hc h
    obtain ⟨hanswer, hexpects, hrel⟩ := CachesReads.agrees c s t hc h.1
    exact ⟨hanswer, hexpects, hrel, h.2.handle hcalls hc⟩
  exact (hsim.exec hp ⟨hst, h⟩).2.2

end OldCapacities

section ReadOnly

def SessionCommand.Reading : SessionCommand → Prop
  | .value _ => True
  | .shapeOf _ => True
  | .usageCount _ => True
  | .plainValueFast _ => True
  | _ => False

def ReadOnly {α : Type} (p : SessionProgram α) : Prop :=
  p.Safe SessionCommand.Reading (fun _ _ ↦ True) fun _ ↦ True

theorem handle_reading {t : OpenSession} (ht : t.1.cacheRead = false) {c : SessionCommand} (hc : c.Reading) :
    (handle c t).2 = t := by
  cases c with
  | value k =>
    simp only [handle]
    cases hk : t.1.cache[k]? with
    | some v =>
      rw [value_cached hk]
      rfl
    | none =>
      rw [value_plain hk ht]
      cases t.1.store.value k <;> rfl
  | shapeOf b =>
    simp only [handle]
    by_cases hb : isValidDataBucket b
    · cases hk : t.1.cache[metadataKey b]? with
      | some v =>
        rw [EphemeralSaltState.shapeOf, bucketMetadataKey, if_pos hb]
        simp only [ok_bind, hk]
        rcases v with _ | v
        · rfl
        · dsimp only
          cases BucketMeta.tryFrom v <;> rfl
      | none =>
        rw [shapeOf_plain hb hk ht]
        cases t.1.store.metadata b <;> rfl
    · rw [shapeOf_invalid hb]
      rfl
  | usageCount b => rfl
  | plainValueFast key => rfl
  | _ => cases hc

theorem ReadOnly.exec {α : Type} {p : SessionProgram α} (hp : ReadOnly p) {t : OpenSession}
    (ht : t.1.cacheRead = false) :
    (exec handle p t).2 = t := by
  induction p with
  | pure a => rfl
  | fail e => rfl
  | issue c next ih =>
    rw [Program.exec, handle_reading ht hp.1]
    exact ih _ (hp.2 _ trivial)

namespace Interaction

variable {H : Hasher}

theorem readOnly_ofExcept {α : Type} (r : Except Fault α) : ReadOnly (Program.ofExcept r) :=
  Safe.ofExcept fun _ _ ↦ trivial

theorem readOnly_attempted {α : Type} (r : Except Fault α) : ReadOnly (attempted r) := by
  rcases r with (_ | _) | a <;> trivial

theorem readOnly_value (k : SaltKey) : ReadOnly (value k) := ⟨trivial, fun r _ ↦ readOnly_ofExcept r⟩

theorem readOnly_metadata (b : ℕ) (needUsed : Bool) : ReadOnly (metadata b needUsed) := by
  refine ⟨trivial, fun r _ ↦ (readOnly_ofExcept r).bind fun m _ ↦ ?_⟩
  cases needUsed with
  | false => trivial
  | true => exact ⟨trivial, fun n _ ↦ (readOnly_ofExcept n).bind fun _ _ ↦ trivial⟩

theorem readOnly_shiSearchLoop (b h c : ℕ) (key : Bytes) (n step : ℕ) : ReadOnly (shiSearchLoop b h c key n step) := by
  induction n generalizing step with
  | zero => trivial
  | succ n ih =>
    refine (readOnly_value _).bind fun entry _ ↦ ?_
    rcases entry with _ | v
    · trivial
    · dsimp only
      split_ifs
      · trivial
      · trivial
      · exact ih (step + 1)

theorem readOnly_tryDirectFind (key : Bytes) : ReadOnly (tryDirectFind key) := by
  refine ⟨trivial, fun r _ ↦ (readOnly_attempted r).bind fun direct _ ↦ ?_⟩
  rcases direct with _ | saltKey
  · trivial
  refine ⟨trivial, fun r _ ↦ (readOnly_attempted r).bind fun entry _ ↦ ?_⟩
  rcases entry with _ | _ | v
  · trivial
  · trivial
  · dsimp only
    split_ifs <;> trivial

theorem readOnly_plainValue (key : Bytes) : ReadOnly (plainValue H key) := by
  have hfind : ReadOnly (find H key) := by
    refine (readOnly_tryDirectFind key).bind fun direct _ ↦ ?_
    rcases direct with _ | r
    · refine (readOnly_metadata _ false).bind fun m _ ↦ ?_
      exact (readOnly_shiSearchLoop _ _ _ key _ 0).bind fun _ _ ↦ trivial
    · trivial
  exact hfind.bind fun _ _ ↦ trivial

end Interaction

end ReadOnly

end Salt
