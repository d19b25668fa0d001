import Salt.Library.Triple

namespace Salt.Library.Workers

open Triple

variable {ε α β : Type} {A : ε → Prop} {f : α → Except ε β} {l : List α}

def visit (f : α → Except ε β) (l : List α) (i : ℕ) : Except ε Unit :=
  match l[i]? with
  | some a => do
    let _ ← f a
    .ok ()
  | none => .ok ()

/-- A map over a list by several workers: the elements of `first` are reached before the others,
and the first fault that is reached ends the map. -/
def parMapM (first : List ℕ) (f : α → Except ε β) (l : List α) : Except ε (List β) := do
  first.forM (visit f l)
  l.mapM f

theorem sat_mapM (h : ∀ a ∈ l, Sat (f a) A fun _ ↦ True) :
    Sat (l.mapM f) A fun r ↦ l.mapM f = .ok r := by
  cases hm : l.mapM f with
  | ok r => exact Sat.ok rfl
  | error e =>
    have hfault : ∀ l : List α, (∀ a ∈ l, Sat (f a) A fun _ ↦ True) → l.mapM f = .error e → A e := by
      intro l
      induction l with
      | nil => intro _ hm; cases hm
      | cons a l ih =>
        intro h hm
        rw [List.mapM_cons] at hm
        have ha := h a (List.mem_cons_self ..)
        cases hfa : f a with
        | error e' =>
          rw [hfa] at hm
          cases hm
          exact ha.of_eq_error hfa
        | ok b =>
          rw [hfa, ok_bind] at hm
          cases hl : l.mapM f with
          | ok r =>
            rw [hl] at hm
            cases hm
          | error e' =>
            rw [hl] at hm
            cases hm
            exact ih (fun a' ha' ↦ h a' (List.mem_cons_of_mem _ ha')) hl
    exact Sat.error (hfault l h hm)

theorem sat_parMapM (first : List ℕ) (h : ∀ a ∈ l, Sat (f a) A fun _ ↦ True) :
    Sat (parMapM first f l) A fun r ↦ l.mapM f = .ok r := by
  have hvisit : ∀ i, Sat (visit f l i) A fun _ ↦ True := by
    intro i
    rw [visit]
    cases hi : l[i]? with
    | none => exact Sat.ok trivial
    | some a => exact (h a (List.mem_of_getElem? hi)).bind fun _ _ ↦ Sat.ok trivial
  have hfirst : Sat (first.forM (visit f l)) A fun _ ↦ True := by
    induction first with
    | nil => exact Sat.ok trivial
    | cons i first ih => exact (hvisit i).bind fun _ _ ↦ ih
  exact hfirst.bind fun _ _ ↦ sat_mapM h

theorem parMapM_eq_ok {g : α → β} (first : List ℕ) (h : ∀ a ∈ l, f a = .ok (g a)) :
    parMapM first f l = .ok (l.map g) := by
  have hsat : Sat (parMapM first f l) (fun _ ↦ False) fun r ↦ l.mapM f = .ok r :=
    sat_parMapM first fun a ha ↦ by
      rw [h a ha]
      exact Sat.ok trivial
  obtain ⟨r, hr, hmap⟩ := hsat.exists_ok
  rw [mapM_eq_ok l h, Except.ok.injEq] at hmap
  rw [hr, hmap]

/-- Any faulty element can be the one that is reached first. -/
theorem exists_parMapM_error {a : α} {e : ε} (ha : a ∈ l) (hf : f a = .error e) :
    ∃ first, parMapM first f l = .error e := by
  obtain ⟨i, hi⟩ := List.mem_iff_getElem?.mp ha
  have hvisit : visit f l i = .error e := by
    rw [visit, hi]
    simp only [hf]
    rfl
  refine ⟨[i], ?_⟩
  change ((visit f l i >>= fun _ ↦ [].forM (visit f l)) >>= fun _ ↦ l.mapM f) = .error e
  rw [hvisit]
  rfl

end Salt.Library.Workers
