import Salt.State.InteractionRuns

namespace Salt

open Std (ExtTreeMap)
open Library.Commands Library.Commands.Program
open Library.ProbeRing
open Library.Triple (ok_bind)

def peek (s : OpenSession) (k : SaltKey) : Option SaltValue :=
  match s.1.cache[k]? with
  | some v => v
  | none =>
    match s.1.store.value k with
    | .ok v => v
    | .error _ => none

section Peek

variable {s s' : OpenSession} {k : SaltKey} {v : Option SaltValue}

theorem peek_insert (s : OpenSession) (k j : SaltKey) (v : Option SaltValue) :
    peek ({ s.1 with cache := s.1.cache.insert k v }, s.2) j = if k = j then v else peek s j := by
  unfold peek
  simp only [ExtTreeMap.getElem?_insert, Std.LawfulEqCmp.compare_eq_iff_eq]
  by_cases h : k = j
  · simp only [if_pos h]
  · simp only [if_neg h]

theorem exec_value {r : Except Fault (Option SaltValue)} (h : exec handle (Interaction.value k) s = (r, s')) :
    peek s' = peek s ∧ ∀ v, r = .ok v → peek s k = v := by
  have hexec : exec handle (Interaction.value k) s =
      ((orKeep s s.2 (s.1.value k)).1, (orKeep s s.2 (s.1.value k)).2) := by
    change exec handle (ofExcept (orKeep s s.2 (s.1.value k)).1) (orKeep s s.2 (s.1.value k)).2 = _
    cases (orKeep s s.2 (s.1.value k)).1 <;> rfl
  rw [hexec, EphemeralSaltState.value] at h
  cases hc : s.1.cache[k]? with
  | some w =>
    simp only [hc, orKeep] at h
    cases h
    refine ⟨rfl, fun v hv ↦ ?_⟩
    cases hv
    rw [peek, hc]
  | none =>
    cases hr : s.1.store.value k with
    | error e =>
      simp only [hc, hr] at h
      cases h
      exact ⟨rfl, fun v hv ↦ by cases hv⟩
    | ok w =>
      simp only [hc, hr, ok_bind, orKeep] at h
      cases h
      have hkw : peek s k = w := by
        rw [peek, hc]
        simp only [hr]
      refine ⟨?_, fun v hv ↦ by cases hv; exact hkw⟩
      split_ifs
      · funext j
        rw [peek_insert]
        split_ifs with hj
        · rw [← hj, hkw]
        · rfl
      · rfl

theorem exec_updateValue {o n : Option SaltValue} {u : Unit} (ho : peek s k = o)
    (h : exec handle (Interaction.updateValue k o n) s = (.ok u, s')) (j : SaltKey) :
    peek s' j = if k = j then n else peek s j := by
  change exec handle (ofExcept (recordValue s k o n).1) (recordValue s k o n).2 = _ at h
  unfold recordValue at h
  by_cases hon : o = n
  · rw [if_pos hon] at h
    cases h
    split_ifs with hj
    · rw [← hj, ho, hon]
    · rfl
  · rw [if_neg hon] at h
    cases hadd : s.2.add k o n with
    | error e =>
      simp only [hadd] at h
      cases h
    | ok out =>
      simp only [hadd] at h
      cases h
      exact peek_insert s k j n

end Peek

section Rounds

variable {H : Hasher} {b c : ℕ} {nonce : UInt32} {s s' : OpenSession}

theorem ofPair_inj_of_lt {a a' : ℕ} (ha : a < 2 ^ 64) (ha' : a' < 2 ^ 64)
    (h : SaltKey.ofPair b a = SaltKey.ofPair b a') : a = a' := by
  have hval : (b * 2 ^ 40 + a) % 2 ^ 64 = (b * 2 ^ 40 + a') % 2 ^ 64 := congrArg SaltKey.val h
  omega

theorem exec_shiNextLoop {del n i : ℕ} {r : Except Fault (Option (ℕ × SaltValue))} (hi : 0 < i) (hn : n + i ≤ c)
    (h : exec handle (Interaction.shiNextLoop H b del nonce c n i) s = (r, s')) :
    peek s' = peek s ∧ ∀ slot y, r = .ok (some (slot, y)) → ∃ j, 0 < j ∧ j < c ∧ slot = probe del j c ∧
      peek s (SaltKey.ofPair b slot) = some y ∧
      rank (H.hashWithNonce y.key nonce) del c < rank (H.hashWithNonce y.key nonce) slot c := by
  induction n generalizing i s with
  | zero =>
    cases h
    exact ⟨rfl, fun slot y hr ↦ by cases hr⟩
  | succ n ih =>
    rw [Interaction.shiNextLoop, exec_bind] at h
    rcases hv : exec handle (Interaction.value (SaltKey.ofPair b (probe del i c))) s with ⟨e | entry, s₁⟩
    · rw [hv] at h
      cases h
      exact ⟨(exec_value hv).1, fun slot y hr ↦ by cases hr⟩
    obtain ⟨hpeek, hentry⟩ := exec_value hv
    rw [hv] at h
    simp only at h
    cases entry with
    | none =>
      cases h
      exact ⟨hpeek, fun slot y hr ↦ by cases hr⟩
    | some v =>
      simp only at h
      split_ifs at h with hrank
      · cases h
        refine ⟨hpeek, fun slot y hr ↦ ?_⟩
        cases hr
        exact ⟨i, hi, by omega, rfl, hentry _ rfl, hrank⟩
      · obtain ⟨hrest, hfound⟩ := ih (by omega) (by omega) h
        rw [hpeek] at hrest hfound
        exact ⟨hrest, hfound⟩

/-- With more rounds than the detour of the entries beside the gap, the number of rounds makes no difference: every
round moves an entry nearer to its home. -/
theorem exec_shiDeleteLoop_rounds {n n' del : ℕ} {v : SaltValue} (hc : c ≤ 2 ^ 64) (hdel : del < c)
    (hv : peek s (SaltKey.ofPair b del) = some v)
    (hn : detour c (fun y : SaltValue ↦ H.hashWithNonce y.key nonce) (fun a ↦ peek s (SaltKey.ofPair b a)) del < n)
    (hn' : detour c (fun y : SaltValue ↦ H.hashWithNonce y.key nonce) (fun a ↦ peek s (SaltKey.ofPair b a)) del < n') :
    exec handle (Interaction.shiDeleteLoop H b nonce c n del v) s =
      exec handle (Interaction.shiDeleteLoop H b nonce c n' del v) s := by
  induction n generalizing n' del v s with
  | zero => omega
  | succ n ih =>
    obtain ⟨n', rfl⟩ : ∃ k, n' = k + 1 := ⟨n' - 1, by omega⟩
    rw [Interaction.shiDeleteLoop, Interaction.shiDeleteLoop, exec_bind, exec_bind]
    rcases hnext : exec handle (Interaction.shiNext H b del nonce c) s with ⟨e | _ | ⟨slot, y⟩, s₁⟩
    · rfl
    · rfl
    obtain ⟨hpeek, hfound⟩ := exec_shiNextLoop Nat.one_pos (show c - 1 + 1 ≤ c by omega) hnext
    obtain ⟨i, hi, hic, rfl, hy, hnear⟩ := hfound slot y rfl
    have hslot : probe del i c < c := probe_lt (by omega) del i
    have hne : probe del i c ≠ del := by
      intro he
      have hrank := rank_probe (h := del) hic
      rw [he, rank, Nat.mod_eq_of_lt hdel, if_pos le_rfl] at hrank
      omega
    simp only
    rw [exec_bind, exec_bind]
    rcases hupd : exec handle (Interaction.updateValue (SaltKey.ofPair b del) (some v) (some y)) s₁ with ⟨e | u, s₂⟩
    · rfl
    have hpeek₂ : ∀ a < c, peek s₂ (SaltKey.ofPair b a) = if del = a then some y else peek s (SaltKey.ofPair b a) := by
      intro a ha
      rw [exec_updateValue (by rw [hpeek, hv]) hupd, hpeek]
      refine if_congr ⟨fun he ↦ ofPair_inj_of_lt (by omega) (by omega) he, fun he ↦ by rw [he]⟩ rfl rfl
    have hshorter : detour c (fun y : SaltValue ↦ H.hashWithNonce y.key nonce)
        (fun a ↦ peek s₂ (SaltKey.ofPair b a)) (probe del i c) <
        detour c (fun y : SaltValue ↦ H.hashWithNonce y.key nonce) (fun a ↦ peek s (SaltKey.ofPair b a)) del :=
      detour_move_lt hdel hslot hne hy (by rw [hpeek₂ del hdel, if_pos rfl])
        (fun a ha had ↦ by rw [hpeek₂ a ha, if_neg (Ne.symm had)]) hnear
    exact ih hslot (by rw [hpeek₂ _ hslot, if_neg (Ne.symm hne), hy]) (by omega) (by omega)

end Rounds

namespace EphemeralSaltState

variable {H : Hasher} {b c : ℕ} {nonce : UInt32} {st : EphemeralSaltState}

theorem peek_of_value {st' : EphemeralSaltState} {k : SaltKey} {v : Option SaltValue} (out : StateUpdates)
    (h : st.value k = .ok (st', v)) : peek (st, out) k = v ∧ peek (st', out) = peek (st, out) := by
  have hrun := Interaction.run_value st out k
  rw [h] at hrun
  unfold run at hrun
  split at hrun
  · rename_i a s' hexec
    cases hrun
    obtain ⟨hpeek, hval⟩ := exec_value hexec
    exact ⟨hval _ rfl, hpeek⟩
  · cases hrun

theorem value_again {st' : EphemeralSaltState} {k : SaltKey} {v : Option SaltValue} (h : st.value k = .ok (st', v)) :
    ∃ st'', st'.value k = .ok (st'', v) := by
  unfold EphemeralSaltState.value at h
  cases hc : st.cache[k]? with
  | some w =>
    simp only [hc] at h
    cases h
    exact ⟨st, by simp only [EphemeralSaltState.value, hc]⟩
  | none =>
    simp only [hc] at h
    obtain ⟨w, hw, h⟩ := Library.Triple.ok_of_bind h
    cases h
    split_ifs with hread
    · exact ⟨_, by simp only [EphemeralSaltState.value, ExtTreeMap.getElem?_insert_self]; rfl⟩
    · exact ⟨_, by simp only [EphemeralSaltState.value, hc, hw, ok_bind]; rfl⟩

theorem shiSearchLoop_found {h n step slot : ℕ} {k : Bytes} {st' : EphemeralSaltState} {v : SaltValue} (hc : 0 < c)
    (hs : shiSearchLoop EphemeralSaltState.value b h c k n step st = .ok (st', some (slot, v))) :
    slot < c ∧ ∃ st'', st'.value (SaltKey.ofPair b slot) = .ok (st'', some v) := by
  induction n generalizing st step with
  | zero => cases hs
  | succ n ih =>
    rw [shiSearchLoop] at hs
    obtain ⟨⟨st₁, entry⟩, hv, hs⟩ := Library.Triple.ok_of_bind hs
    rcases entry with _ | w
    · cases hs
    · simp only at hs
      split_ifs at hs
      · cases hs
      · cases hs
        exact ⟨probe_lt hc h step, value_again hv⟩
      · exact ih hs

/-- `capacity * capacity` rounds are enough for every bucket, whatever it holds: more of them change nothing. -/
theorem shiDeleteLoop_rounds {n del : ℕ} {v : SaltValue} (hc : c ≤ 2 ^ 64) (hdel : del < c)
    (hv : ∃ st', st.value (SaltKey.ofPair b del) = .ok (st', some v)) (hn : c * c ≤ n) (out : StateUpdates) :
    shiDeleteLoop H b nonce c n del v st out = shiDeleteLoop H b nonce c (c * c) del v st out := by
  obtain ⟨st', hv⟩ := hv
  have hlt := detour_lt (show 0 < c by omega) (fun y : SaltValue ↦ H.hashWithNonce y.key nonce)
    (fun a ↦ peek (st, out) (SaltKey.ofPair b a)) del
  have hexec := exec_shiDeleteLoop_rounds hc hdel (peek_of_value out hv).1 (hlt.trans_le hn) hlt
  have hrun : run handle (Interaction.shiDeleteLoop H b nonce c n del v) (st, out) =
      run handle (Interaction.shiDeleteLoop H b nonce c (c * c) del v) (st, out) := by
    unfold run
    rw [hexec]
  rw [Interaction.run_shiDeleteLoop, Interaction.run_shiDeleteLoop] at hrun
  unfold Interaction.within at hrun
  generalize shiDeleteLoop H b nonce c n del v st out = x at hrun ⊢
  generalize shiDeleteLoop H b nonce c (c * c) del v st out = y at hrun ⊢
  rcases x with e | r <;> rcases y with e' | r' <;> cases hrun <;> rfl

/-- The loop of `shi_delete` has no bound; any bound from `capacity * capacity` on gives the same result. -/
theorem shiDelete_rounds {rounds : ℕ} (key : Bytes) (out : StateUpdates)
    (hrounds : ∀ st' m, st.metadata b false = .ok (st', m) →
      m.capacity ≤ 2 ^ 64 ∧ m.capacity * m.capacity ≤ rounds) :
    st.shiDelete H b key out = (do
      let (st, meta') ← st.metadata b false
      let (st, found) ← st.shiFind H b meta'.nonce meta'.capacity key
      match found with
      | some (slot, saltVal) => shiDeleteLoop H b meta'.nonce meta'.capacity rounds slot saltVal st out
      | none => .ok (st, out)) := by
  rw [shiDelete]
  rcases hm : st.metadata b false with e | ⟨st₁, m⟩
  · rfl
  obtain ⟨hcap, hle⟩ := hrounds st₁ m hm
  simp only [ok_bind]
  rcases hfind : st₁.shiFind H b m.nonce m.capacity key with e | ⟨st₂, _ | ⟨slot, v⟩⟩
  · rfl
  · rfl
  rcases Nat.eq_zero_or_pos m.capacity with hzero | hpos
  · rw [hzero] at hfind
    cases hfind
  · obtain ⟨hslot, hv⟩ := shiSearchLoop_found hpos hfind
    exact (shiDeleteLoop_rounds hcap hslot hv hle out).symm

end EphemeralSaltState

end Salt
