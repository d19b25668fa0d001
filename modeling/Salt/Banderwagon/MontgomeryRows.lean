import Salt.Banderwagon.ScalarMultiAsm
import Salt.Banderwagon.BaseField
import Mathlib.Data.Nat.Digits.Defs
import Mathlib.Tactic.LinearCombination
import Mathlib.Tactic.Zify

namespace Salt.Banderwagon

open Library.X86 Library.X86.Instr Library.X86.Reg

def limbs4 (a b c d : ℕ) : ℕ := a + W * b + W ^ 2 * c + W ^ 3 * d

theorem limbs4_modulus : limbs4 p0 p1 p2 p3 = modulus := by decide +kernel

theorem limbs4_lt {a b c d : ℕ} (ha : a < W) (hb : b < W) (hc : c < W) (hd : d < W) : limbs4 a b c d < W ^ 4 := by
  norm_num [limbs4] at *
  omega

section Reduction

/-- Four registers reduced modulo the prime; the scratch registers are lost, nothing else changes. -/
structure Canonical (e0 e1 e2 e3 : Reg) (scratch : List Reg) (s s' : Machine) : Prop where
  value : limbs4 (s'.get e0) (s'.get e1) (s'.get e2) (s'.get e3) =
    limbs4 (s.get e0) (s.get e1) (s.get e2) (s.get e3) % modulus
  bounds : s'.get e0 < W ∧ s'.get e1 < W ∧ s'.get e2 < W ∧ s'.get e3 < W
  regs : ∀ r, r ∉ [e0, e1, e2, e3, r15] → r ∉ scratch → s'.get r = s.get r
  mem : s'.mem = s.mem
  stack : s'.stack = s.stack

theorem conditional_subtract {a0 a1 a2 a3 w0 w1 w2 w3 u0 u1 u2 u3 : ℕ} (hw0 : w0 < W) (hw1 : w1 < W) (hw2 : w2 < W)
    (hw3 : w3 < W) (f0 : w0 + p0 = a0 + W * u0) (f1 : w1 + p1 + u0 = a1 + W * u1)
    (f2 : w2 + p2 + u1 = a2 + W * u2) (f3 : w3 + p3 + u2 = a3 + W * u3) (hu3 : u3 ≤ 1)
    (hlt : limbs4 a0 a1 a2 a3 < 2 * modulus) :
    (u3 = 1 ∧ limbs4 a0 a1 a2 a3 % modulus = limbs4 a0 a1 a2 a3) ∨
      (u3 = 0 ∧ limbs4 a0 a1 a2 a3 % modulus = limbs4 w0 w1 w2 w3) := by
  have htotal : limbs4 w0 w1 w2 w3 + limbs4 p0 p1 p2 p3 = limbs4 a0 a1 a2 a3 + W ^ 4 * u3 := by
    unfold limbs4
    zify at *
    linear_combination f0 + W * f1 + W ^ 2 * f2 + W ^ 3 * f3
  rw [limbs4_modulus] at htotal
  have hw := limbs4_lt hw0 hw1 hw2 hw3
  rcases Nat.le_one_iff_eq_zero_or_eq_one.mp hu3 with rfl | rfl
  · rw [Nat.mul_zero, Nat.add_zero] at htotal
    refine Or.inr ⟨rfl, ?_⟩
    rw [← htotal, Nat.add_mod_right, Nat.mod_eq_of_lt (by omega)]
  · refine Or.inl ⟨rfl, Nat.mod_eq_of_lt ?_⟩
    omega

theorem run_reduceMacro {e0 e1 e2 e3 t0 t1 t2 t3 : Reg} (hdistinct : [e0, e1, e2, e3, t0, t1, t2, t3, r15].Nodup)
    {s : Machine} (hb : s.get e0 < W ∧ s.get e1 < W ∧ s.get e2 < W ∧ s.get e3 < W)
    (hlt : limbs4 (s.get e0) (s.get e1) (s.get e2) (s.get e3) < 2 * modulus) :
    Canonical e0 e1 e2 e3 [t0, t1, t2, t3] s (run (reduceMacro e0 e1 e2 e3 t0 t1 t2 t3) s) := by
  have hdistinct' := List.nodup_reverse.mpr hdistinct
  simp only [List.reverse_cons, List.reverse_nil, List.nil_append, List.cons_append, List.nodup_cons,
    List.mem_cons, List.not_mem_nil, or_false, not_or, not_false_eq_true, List.nodup_nil, and_true]
    at hdistinct hdistinct'
  have hp0 : p0 ≤ W := by decide
  have hp1 : p1 + 1 ≤ W := by decide
  have hp2 : p2 + 1 ≤ W := by decide
  have hp3 : p3 + 1 ≤ W := by decide
  rw [reduceMacro]
  apply run_cons
  apply run_cons
  apply run_sub (by simpa [step, hdistinct, hdistinct'] using hb.1) (by simpa [step] using hp0)
  intro w0 u0 o0 hw0 hu0 f0
  apply run_cons
  apply run_cons
  apply run_sbb (by simpa [step, hdistinct, hdistinct'] using hb.2.1) (by simp [step]; omega)
  intro w1 u1 o1 hw1 hu1 f1
  apply run_cons
  apply run_cons
  apply run_sbb (by simpa [step, hdistinct, hdistinct'] using hb.2.2.1) (by simp [step]; omega)
  intro w2 u2 o2 hw2 hu2 f2
  apply run_cons
  apply run_cons
  apply run_sbb (by simpa [step, hdistinct, hdistinct'] using hb.2.2.2) (by simp [step]; omega)
  intro w3 u3 o3 hw3 hu3 f3
  apply run_cons
  apply run_cons
  apply run_cons
  apply run_cons
  simp [step, hdistinct, hdistinct'] at f0 f1 f2 f3
  rcases conditional_subtract hw0 hw1 hw2 hw3 f0 f1 f2 f3 hu3 hlt with ⟨rfl, hvalue⟩ | ⟨rfl, hvalue⟩
  · refine ⟨?_, ?_, ?_, ?_, ?_⟩
    · simp [step, run, hdistinct, hdistinct', hvalue]
    · simpa [step, run, hdistinct, hdistinct'] using hb
    · intro r hr ht
      simp only [List.mem_cons, List.not_mem_nil, or_false, not_or] at hr ht
      simp [step, run, hr, ht]
    · simp [step, run]
    · simp [step, run]
  · refine ⟨?_, ?_, ?_, ?_, ?_⟩
    · simp [step, run, hdistinct, hdistinct', hvalue]
    · simpa [step, run, hdistinct, hdistinct'] using ⟨hw0, hw1, hw2, hw3⟩
    · intro r hr ht
      simp only [List.mem_cons, List.not_mem_nil, or_false, not_or] at hr ht
      simp [step, run, hr, ht]
    · simp [step, run]
    · simp [step, run]

end Reduction

section Rows

structure RowFrame (s s' : Machine) : Prop where
  regs : ∀ r ∈ [r8, r9, r10, r11, r12, rdi], s'.get r = s.get r
  mem : s'.mem = s.mem
  stack : s'.stack = s.stack

def accumulator (s : Machine) : ℕ := limbs4 (s.get r14) (s.get r13) (s.get rcx) (s.get rbx)

def operand (s : Machine) : ℕ := limbs4 (s.get r12) (s.get r8) (s.get r9) (s.get r10)

def Fits (s : Machine) : Prop := s.get r14 < W ∧ s.get r13 < W ∧ s.get rcx < W ∧ s.get rbx < W

/-- The accumulator with its fifth limb; the flags are what both carry chains leave over. -/
structure Multiplied (t y : ℕ) (s s' : Machine) : Prop where
  total : accumulator s' + W ^ 4 * s'.get rbp + W ^ 5 * (s'.cf + s'.ovf) = t + operand s * y
  fits : Fits s'
  frame : RowFrame s s'

theorem run_multiplyFirstRow (s : Machine) :
    Multiplied 0 (s.mem (s.get r11 + 0)) s (run multiplyFirstRow s) := by
  rw [multiplyFirstRow]
  apply run_cons
  apply run_cons
  apply run_mulx
  intro t0 hi0 ht0 e0
  apply run_mulx
  intro lo1 hi1 hlo1 e1
  apply run_adox
  intro t1 c1 ht1 f1
  apply run_mulx
  intro lo2 hi2 hlo2 e2
  apply run_adox
  intro t2 c2 ht2 f2
  apply run_mulx
  intro lo3 hi3 hlo3 e3
  apply run_adox
  intro t3 c3 ht3 f3
  apply run_cons
  apply run_adox
  intro A c4 hA f4
  simp [step] at e0 e1 e2 e3 f1 f2 f3 f4
  refine ⟨?_, ?_, ⟨?_, ?_, ?_⟩⟩
  · simp [run, step, accumulator, operand, limbs4]
    zify at *
    linear_combination e0 + W * (f1 + e1) + W ^ 2 * (f2 + e2) + W ^ 3 * (f3 + e3) + W ^ 4 * f4
  · simpa [run, step, Fits] using ⟨ht0, ht1, ht2, ht3⟩
  · simp [run, step]
  · simp [run, step]
  · simp [run, step]

theorem run_multiplyRow (s : Machine) (offset : ℕ) :
    Multiplied (accumulator s) (s.mem (s.get r11 + offset)) s (run (multiplyRow offset) s) := by
  rw [multiplyRow]
  apply run_cons
  apply run_cons
  apply run_mulx
  intro lo0 hi0 hlo0 e0
  apply run_adox
  intro t0 c0 ht0 f0
  apply run_adcx
  intro a1 d1 ha1 g1
  apply run_mulx
  intro lo1 hi1 hlo1 e1
  apply run_adox
  intro t1 c1 ht1 f1
  apply run_adcx
  intro a2 d2 ha2 g2
  apply run_mulx
  intro lo2 hi2 hlo2 e2
  apply run_adox
  intro t2 c2 ht2 f2
  apply run_adcx
  intro a3 d3 ha3 g3
  apply run_mulx
  intro lo3 hi3 hlo3 e3
  apply run_adox
  intro t3 c3 ht3 f3
  apply run_cons
  apply run_adcx
  intro b d4 hb g4
  apply run_adox
  intro A c4 hA f4
  simp [step] at e0 e1 e2 e3 f0 f1 f2 f3 f4 g1 g2 g3 g4
  refine ⟨?_, ?_, ⟨?_, ?_, ?_⟩⟩
  · simp [run, step, accumulator, operand, limbs4]
    zify at *
    linear_combination f0 + e0 + W * (g1 + f1 + e1) + W ^ 2 * (g2 + f2 + e2) + W ^ 3 * (g3 + f3 + e3) +
      W ^ 4 * (g4 + f4)
  · simpa [run, step, Fits] using ⟨ht0, ht1, ht2, ht3⟩
  · simp [run, step]
  · simp [run, step]
  · simp [run, step]

structure RowReduced (q : ℕ) (s s' : Machine) : Prop where
  total : ∃ m < W, W * (accumulator s' + W ^ 4 * (s'.cf + s'.ovf)) = accumulator s + W ^ 4 * s.get rbp + m * q
  fits : Fits s'
  frame : RowFrame s s'

theorem reduceRow_total {t0 t1 t2 t3 A m q0 q1 q2 q3 lo0 lo1 lo2 lo3 hi0 hi1 hi2 hi3 a0 a1 a2 a3 u0 u1 u2 u3 c1 c2 c3
    c4 d0 d1 d2 d3 d4 : ℕ} (e0 : lo0 + W * hi0 = q0 * m) (e1 : lo1 + W * hi1 = q1 * m)
    (e2 : lo2 + W * hi2 = q2 * m) (e3 : lo3 + W * hi3 = q3 * m) (g0 : 0 + W * d0 = lo0 + t0)
    (g1 : a0 + W * d1 = hi0 + t1 + d0) (f1 : u0 + W * c1 = a0 + lo1) (g2 : a1 + W * d2 = hi1 + t2 + d1)
    (f2 : u1 + W * c2 = a1 + lo2 + c1) (g3 : a2 + W * d3 = hi2 + t3 + d2) (f3 : u2 + W * c3 = a2 + lo3 + c2)
    (g4 : a3 + W * d4 = hi3 + d3) (f4 : u3 + W * c4 = a3 + A + c3) :
    W * (limbs4 u0 u1 u2 u3 + W ^ 4 * (d4 + c4)) = limbs4 t0 t1 t2 t3 + W ^ 4 * A + m * limbs4 q0 q1 q2 q3 := by
  unfold limbs4
  zify at *
  linear_combination e0 + g0 + W * (g1 + f1 + e1) + W ^ 2 * (g2 + f2 + e2) + W ^ 3 * (g3 + f3 + e3) +
    W ^ 4 * (g4 + f4)

theorem run_reduceRowBy {q' q0 q1 q2 q3 : ℕ} (s : Machine)
    (hvanish : ∀ lo hi v c, lo + W * hi = q0 * (s.get r14 * q' % W) → v + W * c = lo + s.get r14 → v < W → v = 0) :
    RowReduced (limbs4 q0 q1 q2 q3) s (run (reduceRowBy q' q0 q1 q2 q3) s) := by
  rw [reduceRowBy]
  apply run_cons
  apply run_cons
  apply run_cons
  apply run_cons
  apply run_mulx
  intro lo0 hi0 hlo0 e0
  apply run_adcx
  intro v d0 hv g0
  apply run_cons
  apply run_adcx
  intro a0 d1 ha0 g1
  apply run_cons
  apply run_mulx
  intro lo1 hi1 hlo1 e1
  apply run_adox
  intro u0 c1 hu0 f1
  apply run_adcx
  intro a1 d2 ha1 g2
  apply run_cons
  apply run_mulx
  intro lo2 hi2 hlo2 e2
  apply run_adox
  intro u1 c2 hu1 f2
  apply run_adcx
  intro a2 d3 ha2 g3
  apply run_cons
  apply run_mulx
  intro lo3 hi3 hlo3 e3
  apply run_adox
  intro u2 c3 hu2 f3
  apply run_cons
  apply run_adcx
  intro a3 d4 ha3 g4
  apply run_adox
  intro u3 c4 hu3 f4
  have hm : s.get r14 * q' % W < W := Nat.mod_lt _ (by norm_num)
  simp [step] at e0 e1 e2 e3 f1 f2 f3 f4 g0 g1 g2 g3 g4
  obtain rfl := hvanish _ _ _ _ e0 g0 hv
  refine ⟨⟨s.get r14 * q' % W, hm, ?_⟩, ?_, ⟨?_, ?_, ?_⟩⟩
  · simpa [run, step, accumulator] using reduceRow_total e0 e1 e2 e3 g0 g1 f1 g2 f2 g3 f3 g4 f4
  · simpa [run, step, Fits] using ⟨hu0, hu1, hu2, hu3⟩
  · simp [run, step]
  · simp [run, step]
  · simp [run, step]

theorem lowest_limb_vanishes {t lo hi v c : ℕ} (e : lo + W * hi = p0 * (t * qInv % W)) (f : v + W * c = lo + t)
    (hv : v < W) : v = 0 := by
  norm_num [qInv, p0] at *
  omega

theorem run_reduceRow (s : Machine) : RowReduced modulus s (run reduceRow s) := by
  rw [← limbs4_modulus]
  exact run_reduceRowBy s fun _ _ _ _ => lowest_limb_vanishes

/-- The accumulator between two rows: below twice the prime, with no carry left over. -/
structure Settled (s : Machine) : Prop where
  lt : accumulator s < 2 * modulus
  fits : Fits s
  cf_eq : s.cf = 0
  ovf_eq : s.ovf = 0

structure RowDone (t y : ℕ) (s s' : Machine) : Prop where
  total : ∃ m, W * accumulator s' = t + operand s * y + m * modulus
  settled : Settled s'
  frame : RowFrame s s'

theorem RowFrame.trans {s s' s'' : Machine} (h : RowFrame s s') (h' : RowFrame s' s'') : RowFrame s s'' :=
  ⟨fun r hr => (h'.regs r hr).trans (h.regs r hr), h'.mem.trans h.mem, h'.stack.trans h.stack⟩

theorem RowFrame.operand_eq {s s' : Machine} (h : RowFrame s s') : operand s' = operand s := by
  unfold operand
  rw [h.regs r12 (by simp), h.regs r8 (by simp), h.regs r9 (by simp), h.regs r10 (by simp)]

theorem Multiplied.no_carry {t y : ℕ} {s s' : Machine} (h : Multiplied t y s s') (ht : t < 2 * modulus)
    (hx : operand s < modulus) (hy : y < W) : s'.cf = 0 ∧ s'.ovf = 0 := by
  have hxy : operand s * y ≤ modulus * W := Nat.mul_le_mul hx.le hy.le
  have htotal := h.total
  have hsize : 2 * modulus + modulus * W < W ^ 5 := by decide +kernel
  have hcarry : s'.cf + s'.ovf = 0 := by
    by_contra hne
    have hle : W ^ 5 * 1 ≤ W ^ 5 * (s'.cf + s'.ovf) := Nat.mul_le_mul_left _ (by omega)
    omega
  omega

theorem Multiplied.reduced {t y : ℕ} {s s' s'' : Machine} (h : Multiplied t y s s') (hr : RowReduced modulus s' s'')
    (ht : t < 2 * modulus) (hx : operand s < modulus) (hy : y < W) : RowDone t y s s'' := by
  obtain ⟨hcf, hovf⟩ := h.no_carry ht hx hy
  have htotal := h.total
  rw [hcf, hovf, Nat.mul_zero, Nat.add_zero] at htotal
  obtain ⟨m, hm, hreduced⟩ := hr.total
  rw [htotal] at hreduced
  have hxy : operand s * y ≤ modulus * (W - 1) := Nat.mul_le_mul hx.le (by omega)
  have hmp : m * modulus ≤ (W - 1) * modulus := Nat.mul_le_mul_right _ (by omega)
  have hsize : 2 * modulus + modulus * (W - 1) + (W - 1) * modulus = W * (2 * modulus) := by decide +kernel
  have hbound : accumulator s'' + W ^ 4 * (s''.cf + s''.ovf) < 2 * modulus := by
    apply Nat.lt_of_mul_lt_mul_left (a := W)
    omega
  have hcarry : s''.cf + s''.ovf = 0 := by
    by_contra hne
    have hle : W ^ 4 * 1 ≤ W ^ 4 * (s''.cf + s''.ovf) := Nat.mul_le_mul_left _ (by omega)
    have hsize' : 2 * modulus < W ^ 4 := by decide +kernel
    omega
  rw [hcarry, Nat.mul_zero, Nat.add_zero] at hreduced hbound
  exact ⟨⟨m, hreduced⟩, ⟨hbound, hr.fits, by omega, by omega⟩, h.frame.trans hr.frame⟩

structure RowsDone (t : ℕ) (ys : List ℕ) (s s' : Machine) : Prop where
  total : ∃ m, W ^ ys.length * accumulator s' = t + operand s * Nat.ofDigits W ys + m * modulus
  settled : Settled s'
  frame : RowFrame s s'

theorem RowDone.cons {t y : ℕ} {ys : List ℕ} {s s' s'' : Machine} (h : RowDone t y s s')
    (hrest : RowsDone (accumulator s') ys s' s'') : RowsDone t (y :: ys) s s'' := by
  refine ⟨?_, hrest.settled, h.frame.trans hrest.frame⟩
  obtain ⟨m, hm⟩ := h.total
  obtain ⟨n, hn⟩ := hrest.total
  rw [h.frame.operand_eq] at hn
  refine ⟨m + W * n, ?_⟩
  rw [List.length_cons, Nat.ofDigits_cons]
  calc W ^ (ys.length + 1) * accumulator s''
      = W * (W ^ ys.length * accumulator s'') := by ring
    _ = W * accumulator s' + W * (operand s * Nat.ofDigits W ys) + W * n * modulus := by rw [hn]; ring
    _ = t + operand s * (y + W * Nat.ofDigits W ys) + (m + W * n) * modulus := by rw [hm]; ring

def rowStates : List (List Instr) → Machine → List Machine
  | [], _ => []
  | row :: rows, s => run row s :: rowStates rows (run row s)

def NoCarry (s : Machine) : Prop := s.cf = 0 ∧ s.ovf = 0

def limbRows (offset : ℕ) : List (List Instr) := [multiplyRow offset, reduceRow]

theorem run_limbRows (offsets : List ℕ) (s : Machine) (hs : Settled s) (hx : operand s < modulus)
    (hy : ∀ o ∈ offsets, s.mem (s.get r11 + o) < W) :
    RowsDone (accumulator s) (offsets.map fun o => s.mem (s.get r11 + o)) s
        (run (offsets.flatMap limbRows).flatten s) ∧
      ∀ t ∈ rowStates (offsets.flatMap limbRows) s, NoCarry t := by
  induction offsets generalizing s with
  | nil => exact ⟨⟨⟨0, by simp [run]⟩, hs, ⟨fun _ _ => rfl, rfl, rfl⟩⟩, by simp [rowStates]⟩
  | cons o offsets ih =>
    have hmul := run_multiplyRow s o
    have hyo := hy o List.mem_cons_self
    have hdone := hmul.reduced (run_reduceRow _) hs.lt hx hyo
    obtain ⟨hrest, hcarry⟩ := ih _ hdone.settled (hdone.frame.operand_eq ▸ hx) (by
      intro o' ho'
      rw [hdone.frame.mem, hdone.frame.regs r11 (by simp)]
      exact hy o' (List.mem_cons_of_mem o ho'))
    rw [hdone.frame.mem, hdone.frame.regs r11 (by simp)] at hrest
    rw [List.flatMap_cons, limbRows, List.cons_append, List.cons_append, List.nil_append, List.flatten_cons,
      List.flatten_cons, run_append, run_append]
    refine ⟨hdone.cons hrest, ?_⟩
    intro t ht
    rw [rowStates, rowStates, List.mem_cons, List.mem_cons] at ht
    rcases ht with rfl | rfl | ht
    · exact hmul.no_carry hs.lt hx hyo
    · exact ⟨hdone.settled.cf_eq, hdone.settled.ovf_eq⟩
    · exact hcarry t ht

theorem run_montMulRows (s : Machine) (hx : operand s < modulus)
    (hy : ∀ o ∈ [0, 8, 16, 24], s.mem (s.get r11 + o) < W) :
    RowsDone 0 ([0, 8, 16, 24].map fun o => s.mem (s.get r11 + o)) s (run montMulRows.flatten s) ∧
      ∀ t ∈ rowStates montMulRows s, NoCarry t := by
  have hmul := run_multiplyFirstRow s
  have hy0 := hy 0 (by simp)
  have hdone := hmul.reduced (run_reduceRow _) (by decide +kernel) hx hy0
  obtain ⟨hrest, hcarry⟩ := run_limbRows [8, 16, 24] _ hdone.settled (hdone.frame.operand_eq ▸ hx) (by
    intro o ho
    rw [hdone.frame.mem, hdone.frame.regs r11 (by simp)]
    exact hy o (List.mem_cons_of_mem 0 ho))
  rw [hdone.frame.mem, hdone.frame.regs r11 (by simp)] at hrest
  have hrows : montMulRows = multiplyFirstRow :: reduceRow :: [8, 16, 24].flatMap limbRows := rfl
  rw [hrows, List.flatten_cons, List.flatten_cons, run_append, run_append]
  refine ⟨hdone.cons hrest, ?_⟩
  intro t ht
  rw [rowStates, rowStates, List.mem_cons, List.mem_cons] at ht
  rcases ht with rfl | rfl | ht
  · exact hmul.no_carry (by decide +kernel) hx hy0
  · exact ⟨hdone.settled.cf_eq, hdone.settled.ovf_eq⟩
  · exact hcarry t ht

end Rows

end Salt.Banderwagon
