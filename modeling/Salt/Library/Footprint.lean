import Salt.Library.Commands
import Mathlib.Data.List.Nodup

namespace Salt.Library.Commands.Program

variable {C : Type} {A : C → Type} {ε α σ ι : Type} {handle : (c : C) → σ → A c × σ} {agree : ι → σ → σ → Prop}
  {i j : ι} {s t : σ}

/-- A command of one region of the state: its answer and what it leaves there depend on that region only, and it leaves
the other regions alone. -/
structure Local (handle : (c : C) → σ → A c × σ) (agree : ι → σ → σ → Prop) (i : ι) (c : C) : Prop where
  respects : ∀ s t, agree i s t → (handle c s).1 = (handle c t).1 ∧ agree i (handle c s).2 (handle c t).2
  frame : ∀ s j, j ≠ i → agree j (handle c s).2 s

def Within (handle : (c : C) → σ → A c × σ) (agree : ι → σ → σ → Prop) (i : ι) (p : Program A ε α) (s : σ) : Prop :=
  ∀ c ∈ log handle (fun c ↦ [c]) p s, Local handle agree i c

theorem Within.locality {p : Program A ε α} (h : Within handle agree i p s) (hst : agree i s t) :
    (exec handle p s).1 = (exec handle p t).1 ∧ agree i (exec handle p s).2 (exec handle p t).2 ∧
      Within handle agree i p t := by
  induction p generalizing s t with
  | pure a => exact ⟨rfl, hst, h⟩
  | fail e => exact ⟨rfl, hst, h⟩
  | issue c next ih =>
    have hc := h c List.mem_cons_self
    obtain ⟨hanswer, heffect⟩ := hc.respects s t hst
    have hnext : Within handle agree i (next (handle c s).1) (handle c s).2 :=
      fun c' hc' ↦ h c' (List.mem_cons_of_mem c hc')
    obtain ⟨hresult, hleft, hwithin⟩ := ih _ hnext heffect
    rw [exec, exec, ← hanswer]
    refine ⟨hresult, hleft, fun c' hc' ↦ ?_⟩
    rw [log, List.singleton_append, List.mem_cons, ← hanswer] at hc'
    rcases hc' with rfl | hc'
    · exact hc
    · exact hwithin c' hc'

theorem Within.frame (he : ∀ i, Equivalence (agree i)) {p : Program A ε α} (h : Within handle agree i p s)
    (hj : j ≠ i) : agree j (exec handle p s).2 s := by
  induction p generalizing s with
  | pure a => exact (he j).refl s
  | fail e => exact (he j).refl s
  | issue c next ih =>
    have hnext : Within handle agree i (next (handle c s).1) (handle c s).2 :=
      fun c' hc' ↦ h c' (List.mem_cons_of_mem c hc')
    exact (he j).trans (ih _ hnext) ((h c List.mem_cons_self).frame s j hj)

section Sequence

variable {P : ι → Program A ε Unit} {l l' : List ι}

/-- Programs of different regions, each of which would succeed alone, succeed one after the other, and each region ends
as its own program would leave it. -/
theorem exec_foldlM_within (he : ∀ i, Equivalence (agree i)) (hl : l.Nodup)
    (h : ∀ i ∈ l, Within handle agree i (P i) s) (hok : ∀ i ∈ l, (exec handle (P i) s).1 = .ok ()) :
    (exec handle (l.foldlM (fun _ i ↦ P i) ()) s).1 = .ok () ∧
      (∀ i ∈ l, agree i (exec handle (l.foldlM (fun _ i ↦ P i) ()) s).2 (exec handle (P i) s).2) ∧
      ∀ i ∉ l, agree i (exec handle (l.foldlM (fun _ i ↦ P i) ()) s).2 s := by
  induction l generalizing s with
  | nil => exact ⟨rfl, fun _ hi ↦ absurd hi List.not_mem_nil, fun i _ ↦ (he i).refl s⟩
  | cons i l ih =>
    obtain ⟨hnot, hl⟩ := List.nodup_cons.mp hl
    have hi := h i List.mem_cons_self
    obtain ⟨s', hs'⟩ : ∃ s', exec handle (P i) s = (.ok (), s') :=
      ⟨_, Prod.ext (hok i List.mem_cons_self) rfl⟩
    have hframe : ∀ j, j ≠ i → agree j s s' := fun j hj ↦ by
      have := hi.frame he hj
      rw [hs'] at this
      exact (he j).symm this
    have hmoved : ∀ j ∈ l, (exec handle (P j) s').1 = .ok () ∧
        agree j (exec handle (P j) s').2 (exec handle (P j) s).2 ∧ Within handle agree j (P j) s' := fun j hj ↦ by
      have hne : j ≠ i := fun e ↦ hnot (e ▸ hj)
      obtain ⟨hresult, hleft, hwithin⟩ := (h j (List.mem_cons_of_mem i hj)).locality (hframe j hne)
      exact ⟨hresult ▸ hok j (List.mem_cons_of_mem i hj), (he j).symm hleft, hwithin⟩
    obtain ⟨hresult, hin, hout⟩ := ih hl (fun j hj ↦ (hmoved j hj).2.2) fun j hj ↦ (hmoved j hj).1
    rw [List.foldlM_cons, exec_bind, hs']
    refine ⟨hresult, fun j hj ↦ ?_, fun j hj ↦ ?_⟩
    · rcases List.mem_cons.mp hj with rfl | hj
      · rw [hs']
        exact hout j hnot
      · exact (he j).trans (hin j hj) (hmoved j hj).2.1
    · rw [List.mem_cons, not_or] at hj
      exact (he j).trans (hout j hj.2) ((he j).symm (hframe j hj.1))

/-- The order of such programs does not matter. -/
theorem exec_foldlM_perm (he : ∀ i, Equivalence (agree i)) (hl : l.Nodup) (hp : l.Perm l')
    (h : ∀ i ∈ l, Within handle agree i (P i) s) (hok : ∀ i ∈ l, (exec handle (P i) s).1 = .ok ()) :
    (exec handle (l.foldlM (fun _ i ↦ P i) ()) s).1 = .ok () ∧
      (exec handle (l'.foldlM (fun _ i ↦ P i) ()) s).1 = .ok () ∧
      ∀ i, agree i (exec handle (l.foldlM (fun _ i ↦ P i) ()) s).2
        (exec handle (l'.foldlM (fun _ i ↦ P i) ()) s).2 := by
  obtain ⟨hresult, hin, hout⟩ := exec_foldlM_within he hl h hok
  obtain ⟨hresult', hin', hout'⟩ := exec_foldlM_within he (hp.nodup_iff.mp hl) (fun i hi ↦ h i (hp.mem_iff.mpr hi))
    fun i hi ↦ hok i (hp.mem_iff.mpr hi)
  refine ⟨hresult, hresult', fun i ↦ ?_⟩
  by_cases hi : i ∈ l
  · exact (he i).trans (hin i hi) ((he i).symm (hin' i (hp.mem_iff.mp hi)))
  · exact (he i).trans (hout i hi) ((he i).symm (hout' i fun hi' ↦ hi (hp.mem_iff.mpr hi')))

end Sequence

theorem exec_keeps {I : σ → Prop} (h : ∀ c s, I s → I (handle c s).2) (p : Program A ε α) (hs : I s) :
    I (exec handle p s).2 := by
  induction p generalizing s with
  | pure a => exact hs
  | fail e => exact hs
  | issue c next ih => exact ih _ (h c s hs)

end Salt.Library.Commands.Program
