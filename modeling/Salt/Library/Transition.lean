import Mathlib.Data.Option.Basic
import Mathlib.Data.Prod.Basic
import Mathlib.Tactic.Common

namespace Salt.Library.Transition

variable {V : Type*} [DecidableEq V]

/-- Appends a step `o → n` to the net transition of a cell, where `none` stands for no change. The
result is `none` when the step does not start where the transition ends. -/
def link : Option (V × V) → V → V → Option (Option (V × V))
  | none, o, n => some (if o = n then none else some (o, n))
  | some (a, b), o, n => if o ≠ b then none else some (if a = n then none else some (a, n))

def chain (x : Option (V × V)) : Option (V × V) → Option (Option (V × V))
  | none => some x
  | some (o, n) => link x o n

def Proper (x : Option (V × V)) : Prop := ∀ p, x = some p → p.1 ≠ p.2

def Fits (x : Option (V × V)) (v : V) : Prop := ∀ p, x = some p → p.1 = v

def move (x : Option (V × V)) (v : V) : V := x.elim v Prod.snd

variable {x y z w : Option (V × V)} {o n v : V}

theorem link_proper (hx : Proper x) (h : link x o n = some w) : Proper w := by
  rcases x with _ | ⟨a, b⟩
  · rw [link, Option.some.injEq] at h
    subst h
    intro p hp
    split at hp
    · cases hp
    · cases hp
      assumption
  · rw [link] at h
    split at h
    · cases h
    · rw [Option.some.injEq] at h
      subst h
      intro p hp
      split at hp
      · cases hp
      · cases hp
        assumption

theorem chain_proper (hx : Proper x) (h : chain x y = some w) : Proper w := by
  rcases y with _ | ⟨o, n⟩
  · cases h
    exact hx
  · exact link_proper hx h

/-- Transitions that follow each other compose, and the composition does both. -/
theorem chain_fits (hx : Fits x v) (hy : Fits y (move x v)) :
    ∃ w, chain x y = some w ∧ Fits w v ∧ move w v = move y (move x v) := by
  rcases y with _ | ⟨o, n⟩
  · exact ⟨x, rfl, hx, rfl⟩
  · obtain rfl : o = move x v := hy _ rfl
    rcases x with _ | ⟨a, b⟩
    · by_cases h : v = n
      · exact ⟨none, by simp [chain, link, move, h], fun p hp ↦ (by cases hp), by simp [move, h]⟩
      · refine ⟨some (v, n), by simp [chain, link, move, h], fun p hp ↦ ?_, rfl⟩
        cases hp
        rfl
    · obtain rfl : a = v := hx _ rfl
      by_cases h : a = n
      · exact ⟨none, by simp [chain, link, move, h], fun p hp ↦ (by cases hp), by simp [move, h]⟩
      · refine ⟨some (a, n), by simp [chain, link, move, h], fun p hp ↦ ?_, rfl⟩
        cases hp
        rfl

theorem chain_some_some {a b o n : V} :
    chain (some (a, b)) (some (o, n)) =
      if o ≠ b then none else some (if a = n then none else some (a, n)) := rfl

theorem chain_none_left (hy : Proper y) : chain none y = some y := by
  rcases y with _ | ⟨o, n⟩
  · rfl
  · simp [chain, link, hy _ rfl]

theorem chain_assoc {xy yz l r : Option (V × V)} (hx : Proper x) (hy : Proper y) (hz : Proper z)
    (hxy : chain x y = some xy) (hl : chain xy z = some l) (hyz : chain y z = some yz)
    (hr : chain x yz = some r) : l = r := by
  rcases z with _ | ⟨o₃, n₃⟩
  · cases hl
    cases hyz
    exact Option.some.inj (hxy.symm.trans hr)
  rcases y with _ | ⟨o₂, n₂⟩
  · cases hxy
    rw [chain_none_left hz] at hyz
    cases hyz
    exact Option.some.inj (hl.symm.trans hr)
  rcases x with _ | ⟨o₁, n₁⟩
  · rw [chain_none_left hy] at hxy
    cases hxy
    rw [chain_none_left (chain_proper hy hyz)] at hr
    cases hr
    exact Option.some.inj (hl.symm.trans hyz)
  rw [chain_some_some] at hxy hyz
  split at hxy
  · cases hxy
  split at hyz
  · cases hyz
  rename_i h₂ h₃
  rw [ne_eq, not_not] at h₂ h₃
  subst h₂ h₃
  have hne : o₃ ≠ n₃ := hz _ rfl
  have hne' : o₁ ≠ o₂ := hx _ rfl
  cases hxy
  cases hyz
  by_cases h₁ : o₁ = o₃ <;> by_cases h₄ : o₂ = n₃ <;> simp_all [chain, link]

theorem chain_swap (hx : Proper x) (hy : Proper y) :
    (chain x y).map (Option.map Prod.swap) =
      chain (y.map Prod.swap) (x.map Prod.swap) := by
  rcases x with _ | ⟨o₁, n₁⟩ <;> rcases y with _ | ⟨o₂, n₂⟩
  · rfl
  · have := hy _ rfl
    simp [chain, link, this]
  · have := hx _ rfl
    simp [chain, link, Ne.symm this]
  · simp only [chain, link, Option.map_some, Prod.swap_prod_mk]
    by_cases h : o₂ = n₁
    · subst h
      by_cases h' : o₁ = n₂
      · simp [h']
      · simp [h', Ne.symm h']
    · simp [h, Ne.symm h]

theorem chain_self_swap : chain x (x.map Prod.swap) = some none := by
  rcases x with _ | ⟨a, b⟩
  · rfl
  · simp [chain, link]

end Salt.Library.Transition
