import Mathlib.Data.List.Basic

namespace Salt.Library.Overlay

variable {α β : Type*} {idx : α → ℕ} {val : α → β} {l : List α} {base : List β} {i : ℕ}

def overlay (idx : α → ℕ) (val : α → β) (l : List α) (base : List β) : List β :=
  l.foldl (fun acc e ↦ acc.set (idx e) (val e)) base

theorem overlay_length : (overlay idx val l base).length = base.length := by
  induction l generalizing base with
  | nil => rfl
  | cons e l ih => exact ih.trans (List.length_set ..)

theorem overlay_untouched (h : ∀ e ∈ l, idx e ≠ i) : (overlay idx val l base)[i]? = base[i]? := by
  induction l generalizing base with
  | nil => rfl
  | cons e l ih =>
    refine (ih fun e' he' ↦ h e' (List.mem_cons_of_mem _ he')).trans ?_
    exact List.getElem?_set_ne (h e (List.mem_cons_self ..))

theorem overlay_touched {v : β} (hi : i < base.length) (hex : ∃ e ∈ l, idx e = i)
    (h : ∀ e ∈ l, idx e = i → val e = v) : (overlay idx val l base)[i]? = some v := by
  induction l generalizing base with
  | nil =>
    obtain ⟨e, he, -⟩ := hex
    cases he
  | cons e l ih =>
    by_cases hl : ∃ e' ∈ l, idx e' = i
    · exact ih (by rwa [List.length_set]) hl fun e' he' ↦ h e' (List.mem_cons_of_mem _ he')
    · -- the last write to the place
      have hrest : ∀ e' ∈ l, idx e' ≠ i := fun e' he' hi' ↦ hl ⟨e', he', hi'⟩
      have hidx : idx e = i := by
        obtain ⟨e', he', hi'⟩ := hex
        rcases List.mem_cons.mp he' with rfl | he'
        · exact hi'
        · exact absurd hi' (hrest e' he')
      have hlast : (overlay idx val l (base.set (idx e) (val e)))[i]? = _ := overlay_untouched hrest
      refine hlast.trans ?_
      rw [hidx, List.getElem?_set_self hi, h e (List.mem_cons_self ..) hidx]

theorem overlay_replicate {n : ℕ} {d : β} (f : ℕ → β)
    (hval : ∀ e ∈ l, val e = f (idx e)) (hd : ∀ j < n, (∀ e ∈ l, idx e ≠ j) → f j = base.getD j d)
    (hn : base.length = n) : overlay idx val l base = (List.range n).map f := by
  apply List.ext_getElem?
  intro j
  rcases Nat.lt_or_ge j n with hj | hj
  · rw [List.getElem?_map, List.getElem?_range hj, Option.map_some]
    by_cases hex : ∃ e ∈ l, idx e = j
    · exact overlay_touched (hn ▸ hj) hex fun e he hi ↦ hi ▸ hval e he
    · have hnone : ∀ e ∈ l, idx e ≠ j := fun e he hi ↦ hex ⟨e, he, hi⟩
      rw [overlay_untouched hnone, hd j hj hnone]
      rw [List.getD_eq_getElem?_getD, List.getElem?_eq_getElem (hn ▸ hj)]
      rfl
  · rw [List.getElem?_eq_none (by rw [overlay_length, hn]; exact hj),
      List.getElem?_eq_none (by simpa using hj)]

end Salt.Library.Overlay
