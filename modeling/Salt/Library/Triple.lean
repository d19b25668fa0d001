import Mathlib.Data.List.Basic
import Mathlib.Tactic.Common

namespace Salt.Library.Triple

universe u v

variable {ε : Type u} {α β : Type v}

/-- A computation that either returns a value satisfying `post` or fails in an allowed way. -/
def Sat (m : Except ε α) (A : ε → Prop) (post : α → Prop) : Prop :=
  match m with
  | .ok a => post a
  | .error e => A e

variable {m : Except ε α} {f : α → Except ε β} {A : ε → Prop}
  {post post' : α → Prop} {post₂ : β → Prop}

theorem Sat.ok {a : α} (h : post a) : Sat (.ok a : Except ε α) A post := h

theorem Sat.error {e : ε} (h : A e) : Sat (.error e : Except ε α) A post := h

theorem Sat.of_eq_ok {a : α} (h : Sat m A post) (hm : m = .ok a) : post a := by
  subst hm
  exact h

theorem Sat.of_eq_error {e : ε} (h : Sat m A post) (hm : m = .error e) : A e := by
  subst hm
  exact h

theorem sat_iff : Sat m A post ↔
    (∃ a, m = .ok a ∧ post a) ∨ ∃ e, m = .error e ∧ A e := by
  cases m <;> simp [Sat]

theorem Sat.exists_ok (h : Sat m (fun _ ↦ False) post) : ∃ a, m = .ok a ∧ post a := by
  cases m with
  | ok a => exact ⟨a, rfl, h⟩
  | error e => exact h.elim

theorem ok_bind (a : α) (f : α → Except ε β) : (Except.ok a >>= f) = f a := rfl

theorem Sat.bind (h : Sat m A post) (hf : ∀ a, post a → Sat (f a) A post₂) :
    Sat (m >>= f) A post₂ := by
  cases m with
  | ok a => exact hf a h
  | error e => exact h

theorem Sat.mono (h : Sat m A post) (hp : ∀ a, post a → post' a) : Sat m A post' := by
  cases m with
  | ok a => exact hp a h
  | error e => exact h

theorem Sat.and (h : Sat m A post) (h' : Sat m A post') :
    Sat m A (fun a ↦ post a ∧ post' a) := by
  cases m with
  | ok a => exact ⟨h, h'⟩
  | error e => exact h

/-- The rule for a loop over a list: the invariant speaks of the part already processed. -/
theorem Sat.foldlM {f : β → α → Except ε β} (I : List α → β → Prop) (l : List α) (b : β)
    (h₀ : I [] b)
    (hs : ∀ done a rest, l = done ++ a :: rest → ∀ b, I done b →
      Sat (f b a) A (I (done ++ [a]))) :
    Sat (l.foldlM f b) A (I l) := by
  suffices ∀ rest done b, l = done ++ rest → I done b →
      Sat (rest.foldlM f b) A (I l) from this l [] b rfl h₀
  intro rest
  induction rest with
  | nil =>
    intro done b hl hb
    rw [List.append_nil] at hl
    exact Sat.ok (hl ▸ hb)
  | cons a rest ih =>
    intro done b hl hb
    rw [List.foldlM_cons]
    exact (hs done a rest hl b hb).bind fun b' hb' ↦ ih (done ++ [a]) b' (by simp [hl]) hb'

theorem Sat.foldlM_range {f : β → ℕ → Except ε β} (I : ℕ → β → Prop) (n : ℕ) (b : β) (h₀ : I 0 b)
    (hs : ∀ i < n, ∀ b, I i b → Sat (f b i) A (I (i + 1))) :
    Sat ((List.range n).foldlM f b) A (I n) := by
  induction n with
  | zero => exact Sat.ok h₀
  | succ n ih =>
    rw [List.range_succ, List.foldlM_append]
    refine (ih fun i hi ↦ hs i (by omega)).bind fun b' hb' ↦ ?_
    rw [List.foldlM_cons]
    exact (hs n (by omega) b' hb').bind fun b'' hb'' ↦ Sat.ok hb''

theorem foldlM_eq_ok {f : β → α → Except ε β} {b : β} (l : List α) (h : ∀ a ∈ l, f b a = .ok b) :
    l.foldlM f b = .ok b := by
  induction l with
  | nil => rfl
  | cons a l ih =>
    rw [List.foldlM_cons, h a (List.mem_cons_self ..), ok_bind]
    exact ih fun a' ha' ↦ h a' (List.mem_cons_of_mem _ ha')

theorem ok_of_bind {b : β} (h : m >>= f = .ok b) : ∃ a, m = .ok a ∧ f a = .ok b := by
  cases m with
  | ok a => exact ⟨a, rfl, h⟩
  | error e => cases h

theorem foldlM_ok_iff {f : β → α → Except ε β} {I : β → Prop} {Good : α → Prop}
    (hstep : ∀ a b, I b → ((∃ b', f b a = .ok b') ↔ Good a)) (hkeep : ∀ a b b', I b → f b a = .ok b' → I b')
    (l : List α) {b : β} (hb : I b) : (∃ b', l.foldlM f b = .ok b') ↔ ∀ a ∈ l, Good a := by
  induction l generalizing b with
  | nil => exact iff_of_true ⟨b, rfl⟩ fun _ ha ↦ nomatch ha
  | cons a l ih =>
    rw [List.foldlM_cons, List.forall_mem_cons, ← hstep a b hb]
    constructor
    · rintro ⟨r, h⟩
      obtain ⟨b', hfirst, hrest⟩ := ok_of_bind h
      exact ⟨⟨b', hfirst⟩, (ih (hkeep a b b' hb hfirst)).mp ⟨r, hrest⟩⟩
    · rintro ⟨⟨b', hfirst⟩, hrest⟩
      rw [hfirst]
      exact (ih (hkeep a b b' hb hfirst)).mpr hrest

/-- What holds after a loop held before, or came with one of its elements. -/
theorem foldlM_gains {f : β → α → Except ε β} {I P : β → Prop} {T : α → Prop}
    (hstep : ∀ a b b', I b → f b a = .ok b' → (P b' ↔ P b ∨ T a)) (hkeep : ∀ a b b', I b → f b a = .ok b' → I b')
    {l : List α} {b r : β} (hb : I b) (h : l.foldlM f b = .ok r) : P r ↔ P b ∨ ∃ a ∈ l, T a := by
  induction l generalizing b with
  | nil =>
    cases h
    simp
  | cons a l ih =>
    rw [List.foldlM_cons] at h
    obtain ⟨b', hfirst, hrest⟩ := ok_of_bind h
    simp only [ih (hkeep a b b' hb hfirst) hrest, hstep a b b' hb hfirst, List.mem_cons, exists_eq_or_imp, or_assoc]

theorem mapM_eq_ok {f : α → Except ε β} {g : α → β} (l : List α) (h : ∀ a ∈ l, f a = .ok (g a)) :
    l.mapM f = .ok (l.map g) := by
  induction l with
  | nil => rfl
  | cons a l ih =>
    rw [List.mapM_cons, h a (List.mem_cons_self ..), ok_bind,
      ih fun a' ha' ↦ h a' (List.mem_cons_of_mem _ ha')]
    rfl

theorem Sat.mapM {f : α → Except ε β} {g : α → β} (l : List α) (h : ∀ a ∈ l, Sat (f a) A (· = g a)) :
    Sat (l.mapM f) A (· = l.map g) := by
  induction l with
  | nil => exact Sat.ok rfl
  | cons a l ih =>
    rw [List.mapM_cons]
    refine (h a (List.mem_cons_self ..)).bind fun b hb ↦ ?_
    refine (ih fun a' ha' ↦ h a' (List.mem_cons_of_mem _ ha')).bind fun l' hl' ↦ Sat.ok ?_
    rw [hb, hl', List.map_cons]

theorem Sat.mapM_forall₂ {f : α → Except ε β} {P : α → β → Prop} (l : List α) (h : ∀ a ∈ l, Sat (f a) A (P a)) :
    Sat (l.mapM f) A (List.Forall₂ P l) := by
  induction l with
  | nil => exact Sat.ok .nil
  | cons a l ih =>
    rw [List.mapM_cons]
    refine (h a (List.mem_cons_self ..)).bind fun b hb ↦ ?_
    exact (ih fun a' ha' ↦ h a' (List.mem_cons_of_mem _ ha')).bind fun l' hl' ↦ Sat.ok (.cons hb hl')

theorem forM_eq_ok {f : α → Except ε Unit} (l : List α) (h : ∀ a ∈ l, f a = .ok ()) :
    l.forM f = .ok () := by
  induction l with
  | nil => rfl
  | cons a l ih =>
    change (f a >>= fun _ ↦ l.forM f) = .ok ()
    rw [h a (List.mem_cons_self ..), ok_bind]
    exact ih fun b hb ↦ h b (List.mem_cons_of_mem _ hb)

theorem mapM_ok {f : α → Except ε β} {l : List α} {r : List β} (h : l.mapM f = .ok r) :
    (∀ a ∈ l, ∃ b ∈ r, f a = .ok b) ∧ ∀ b ∈ r, ∃ a ∈ l, f a = .ok b := by
  induction l generalizing r with
  | nil =>
    cases h
    exact ⟨fun a ha ↦ (by cases ha), fun b hb ↦ (by cases hb)⟩
  | cons x l ih =>
    rw [List.mapM_cons] at h
    obtain ⟨y, hy, h⟩ := ok_of_bind h
    obtain ⟨ys, hys, h⟩ := ok_of_bind h
    cases h
    obtain ⟨ih₁, ih₂⟩ := ih hys
    constructor
    · intro a ha
      rcases List.mem_cons.mp ha with rfl | ha
      · exact ⟨y, List.mem_cons_self .., hy⟩
      · obtain ⟨b, hb, hf⟩ := ih₁ a ha
        exact ⟨b, List.mem_cons_of_mem _ hb, hf⟩
    · intro b hb
      rcases List.mem_cons.mp hb with rfl | hb
      · exact ⟨x, List.mem_cons_self .., hy⟩
      · obtain ⟨a, ha, hf⟩ := ih₂ b hb
        exact ⟨a, List.mem_cons_of_mem _ ha, hf⟩

theorem mapM_getElem? {f : α → Except ε β} {l : List α} {r : List β} (h : l.mapM f = .ok r) {i : ℕ} {a : α}
    (ha : l[i]? = some a) : ∃ b, r[i]? = some b ∧ f a = .ok b := by
  induction l generalizing r i with
  | nil => cases ha
  | cons x l ih =>
    rw [List.mapM_cons] at h
    obtain ⟨y, hy, h⟩ := ok_of_bind h
    obtain ⟨ys, hys, h⟩ := ok_of_bind h
    cases h
    cases i with
    | zero =>
      cases ha
      exact ⟨y, rfl, hy⟩
    | succ i => exact ih hys ha

theorem mapM_error {f : α → Except ε β} {err : ε} {l : List α}
    (hcases : ∀ a ∈ l, (∃ b, f a = .ok b) ∨ f a = .error err) (h : ∃ a ∈ l, f a = .error err) :
    l.mapM f = .error err := by
  induction l with
  | nil =>
    obtain ⟨a, ha, -⟩ := h
    cases ha
  | cons x l ih =>
    rw [List.mapM_cons]
    rcases hcases x (List.mem_cons_self ..) with ⟨b, hb⟩ | hx
    · obtain ⟨a, ha, herror⟩ := h
      have htail : a ∈ l := by
        rcases List.mem_cons.mp ha with rfl | ha
        · rw [hb] at herror
          cases herror
        · exact ha
      rw [hb, ok_bind, ih (fun y hy ↦ hcases y (List.mem_cons_of_mem _ hy)) ⟨a, htail, herror⟩]
      rfl
    · rw [hx]
      rfl

theorem exists_mapM_ok {f : α → Except ε β} {l : List α} (h : ∀ a ∈ l, ∃ b, f a = .ok b) :
    ∃ r, l.mapM f = .ok r := by
  induction l with
  | nil => exact ⟨[], rfl⟩
  | cons x l ih =>
    obtain ⟨b, hb⟩ := h x (List.mem_cons_self ..)
    obtain ⟨r, hr⟩ := ih fun a ha ↦ h a (List.mem_cons_of_mem _ ha)
    rw [List.mapM_cons, hb, ok_bind, hr]
    exact ⟨_, rfl⟩

end Salt.Library.Triple
