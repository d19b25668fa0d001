import Mathlib.Tactic.Common

namespace Salt.Library.Commands

/-- A program issues commands, goes on with their answers, and returns or fails in the end. -/
inductive Program {C : Type} (A : C → Type) (ε α : Type) : Type
  | pure (a : α)
  | fail (e : ε)
  | issue (c : C) (next : A c → Program A ε α)

variable {C : Type} {A : C → Type} {ε α β σ τ γ : Type}

namespace Program

def bind : Program A ε α → (α → Program A ε β) → Program A ε β
  | .pure a, f => f a
  | .fail e, _ => .fail e
  | .issue c next, f => .issue c fun r ↦ (next r).bind f

instance : Monad (Program A ε) where
  pure := .pure
  bind := .bind

def call (c : C) : Program A ε (A c) := .issue c .pure

def ofExcept : Except ε α → Program A ε α
  | .ok a => .pure a
  | .error e => .fail e

section Execution

variable (handle : (c : C) → σ → A c × σ)

def exec : Program A ε α → σ → Except ε α × σ
  | .pure a, s => (.ok a, s)
  | .fail e, s => (.error e, s)
  | .issue c next, s => exec (next (handle c s).1) (handle c s).2

def run (p : Program A ε α) (s : σ) : Except ε (α × σ) :=
  match exec handle p s with
  | (.ok a, s') => .ok (a, s')
  | (.error e, _) => .error e

def log (observe : C → List γ) : Program A ε α → σ → List γ
  | .pure _, _ => []
  | .fail _, _ => []
  | .issue c next, s => observe c ++ log observe (next (handle c s).1) (handle c s).2

theorem run_issue (c : C) (next : A c → Program A ε α) (s : σ) :
    run handle (issue c next) s = run handle (next (handle c s).1) (handle c s).2 := rfl

theorem exec_bind (p : Program A ε α) (f : α → Program A ε β) (s : σ) :
    exec handle (p >>= f) s =
      match exec handle p s with
      | (.ok a, s') => exec handle (f a) s'
      | (.error e, s') => (.error e, s') := by
  induction p generalizing s with
  | pure a => rfl
  | fail e => rfl
  | issue c next ih => exact ih (handle c s).1 (handle c s).2

theorem run_bind (p : Program A ε α) (f : α → Program A ε β) (s : σ) :
    run handle (p >>= f) s = run handle p s >>= fun r ↦ run handle (f r.1) r.2 := by
  unfold run
  rw [exec_bind]
  rcases exec handle p s with ⟨a | e, s'⟩ <;> rfl

theorem run_ofExcept (r : Except ε α) (s : σ) :
    run handle (ofExcept r : Program A ε α) s = r >>= fun a ↦ .ok (a, s) := by
  cases r <;> rfl

/-- A loop runs like the loop over `g`, whose accumulator holds the state as well. -/
theorem run_foldlM {f : β → α → Program A ε β} {g : γ → α → Except ε γ} (φ : γ → β × σ)
    (h : ∀ c a, run handle (f (φ c).1 a) (φ c).2 = g c a >>= fun c' ↦ .ok (φ c')) (l : List α) (c : γ) :
    run handle (l.foldlM f (φ c).1) (φ c).2 = l.foldlM g c >>= fun c' ↦ .ok (φ c') := by
  induction l generalizing c with
  | nil => rfl
  | cons a l ih =>
    rw [List.foldlM_cons, List.foldlM_cons, run_bind, h]
    cases g c a with
    | error e => rfl
    | ok c' => exact ih c'

end Execution

/-- A program that only issues admitted commands, as long as their answers are as expected, and whose result satisfies
`post`. -/
def Safe (admits : C → Prop) (expects : (c : C) → A c → Prop) (post : α → Prop) :
    Program A ε α → Prop
  | .pure a => post a
  | .fail _ => True
  | .issue c next => admits c ∧ ∀ r, expects c r → Safe admits expects post (next r)

section Safe

variable {admits : C → Prop} {expects : (c : C) → A c → Prop} {post post' : α → Prop}

theorem Safe.mono {p : Program A ε α} (h : Safe admits expects post p) (hpost : ∀ a, post a → post' a) :
    Safe admits expects post' p := by
  induction p with
  | pure a => exact hpost a h
  | fail e => trivial
  | issue c next ih => exact ⟨h.1, fun r hr ↦ ih r (h.2 r hr)⟩

theorem Safe.bind {p : Program A ε α} {f : α → Program A ε β} {post₂ : β → Prop} (h : Safe admits expects post p)
    (hf : ∀ a, post a → Safe admits expects post₂ (f a)) : Safe admits expects post₂ (p >>= f) := by
  induction p with
  | pure a => exact hf a h
  | fail e => trivial
  | issue c next ih => exact ⟨h.1, fun r hr ↦ ih r (h.2 r hr)⟩

theorem Safe.call {c : C} (h : admits c) :
    Safe admits expects (expects c) (call c : Program A ε (A c)) := ⟨h, fun _ hr ↦ hr⟩

theorem Safe.ofExcept {r : Except ε α} (h : ∀ a, r = .ok a → post a) :
    Safe admits expects post (ofExcept r : Program A ε α) := by
  cases r with
  | ok a => exact h a rfl
  | error e => trivial

theorem Safe.foldlM {f : β → α → Program A ε β} {I : β → Prop} {l : List α} {b : β} (hb : I b)
    (hf : ∀ a ∈ l, ∀ b, I b → Safe admits expects I (f b a)) : Safe admits expects I (l.foldlM f b) := by
  induction l generalizing b with
  | nil => exact hb
  | cons a l ih =>
    rw [List.foldlM_cons]
    exact (hf a List.mem_cons_self b hb).bind fun b' hb' ↦ ih hb' fun a' ha' ↦ hf a' (List.mem_cons_of_mem _ ha')

end Safe

section Simulation

variable {handle : (c : C) → σ → A c × σ} {handle' : (c : C) → τ → A c × τ}
  {admits : C → Prop} {expects : (c : C) → A c → Prop} {post : α → Prop} {R : σ → τ → Prop}

/-- Two ways of handling commands that give the same answers in related states. -/
def Simulates (handle : (c : C) → σ → A c × σ) (handle' : (c : C) → τ → A c × τ)
    (admits : C → Prop) (expects : (c : C) → A c → Prop) (R : σ → τ → Prop) : Prop :=
  ∀ c s t, admits c → R s t →
    (handle c s).1 = (handle' c t).1 ∧ expects c (handle' c t).1 ∧ R (handle c s).2 (handle' c t).2

theorem Simulates.exec (hsim : Simulates handle handle' admits expects R) {p : Program A ε α}
    (hp : Safe admits expects post p) {s : σ} {t : τ} (hst : R s t) :
    (exec handle p s).1 = (exec handle' p t).1 ∧ R (exec handle p s).2 (exec handle' p t).2 := by
  induction p generalizing s t with
  | pure a => exact ⟨rfl, hst⟩
  | fail e => exact ⟨rfl, hst⟩
  | issue c next ih =>
    obtain ⟨hanswer, hexpects, hrel⟩ := hsim c s t hp.1 hst
    rw [Program.exec, Program.exec, hanswer]
    exact ih _ (hp.2 _ hexpects) hrel

/-- What one run sees, the other keeps, when every command keeps what it had and what is seen of the command. -/
theorem Simulates.keeps_log (hsim : Simulates handle handle' admits expects R) {observe : C → List γ}
    {K : γ → σ → Prop} (hold : ∀ c s t x, admits c → R s t → K x s → K x (handle c s).2)
    (hnew : ∀ c s t, admits c → R s t → ∀ x ∈ observe c, K x (handle c s).2) {p : Program A ε α}
    (hp : Safe admits expects post p) {s : σ} {t : τ} (hst : R s t) :
    (∀ x, K x s → K x (Program.exec handle p s).2) ∧
      ∀ x ∈ log handle' observe p t, K x (Program.exec handle p s).2 := by
  induction p generalizing s t with
  | pure a => exact ⟨fun _ h ↦ h, fun _ hx ↦ nomatch hx⟩
  | fail e => exact ⟨fun _ h ↦ h, fun _ hx ↦ nomatch hx⟩
  | issue c next ih =>
    obtain ⟨hanswer, hexpects, hrel⟩ := hsim c s t hp.1 hst
    rw [Program.exec, log, hanswer]
    obtain ⟨hkept, hseen⟩ := ih _ (hp.2 _ hexpects) hrel
    refine ⟨fun x hx ↦ hkept x (hold c s t x hp.1 hst hx), fun x hx ↦ ?_⟩
    rcases List.mem_append.mp hx with hx | hx
    · exact hkept x (hnew c s t hp.1 hst x hx)
    · exact hseen x hx

/-- What one run ends with, it began with, or the other run ends with it, or sees it. -/
theorem Simulates.gains_log (hsim : Simulates handle handle' admits expects R) {observe : C → List γ} {x : γ}
    (K : σ → Prop) (L : τ → Prop)
    (hnew : ∀ c s t, admits c → R s t → K (handle c s).2 → K s ∨ L (handle' c t).2 ∨ x ∈ observe c)
    (hold : ∀ c t, admits c → L t → L (handle' c t).2) {p : Program A ε α} (hp : Safe admits expects post p)
    {s : σ} {t : τ} (hst : R s t) :
    (L t → L (Program.exec handle' p t).2) ∧
      (K (Program.exec handle p s).2 → K s ∨ L (Program.exec handle' p t).2 ∨ x ∈ log handle' observe p t) := by
  induction p generalizing s t with
  | pure a => exact ⟨fun h ↦ h, .inl⟩
  | fail e => exact ⟨fun h ↦ h, .inl⟩
  | issue c next ih =>
    obtain ⟨hanswer, hexpects, hrel⟩ := hsim c s t hp.1 hst
    rw [Program.exec, Program.exec, log, hanswer, List.mem_append]
    obtain ⟨hkept, hgained⟩ := ih _ (hp.2 _ hexpects) hrel
    refine ⟨fun h ↦ hkept (hold c t hp.1 h), fun h ↦ ?_⟩
    rcases hgained h with h | h | h
    · rcases hnew c s t hp.1 hst h with h | h | h
      · exact .inl h
      · exact .inr (.inl (hkept h))
      · exact .inr (.inr (.inl h))
    · exact .inr (.inl h)
    · exact .inr (.inr (.inr h))

end Simulation

end Program

end Salt.Library.Commands
