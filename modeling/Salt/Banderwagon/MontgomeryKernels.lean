import Salt.Banderwagon.MontgomeryRows

namespace Salt.Banderwagon

open Library.X86 Library.X86.Instr Library.X86.Reg

section Kernels

def loadElement (mem : ℕ → ℕ) (a : ℕ) : ℕ := limbs4 (mem a) (mem (a + 8)) (mem (a + 16)) (mem (a + 24))

structure IsElement (mem : ℕ → ℕ) (a : ℕ) : Prop where
  word : ∀ o ∈ [0, 8, 16, 24], mem (a + o) < W
  lt : loadElement mem a < modulus

def OnlyResult (a : ℕ) (mem mem' : ℕ → ℕ) : Prop := ∀ b, b ∉ [a, a + 8, a + 16, a + 24] → mem' b = mem b

def saveElement (mem : ℕ → ℕ) (a v0 v1 v2 v3 : ℕ) : ℕ → ℕ :=
  Function.update (Function.update (Function.update (Function.update mem a v0) (a + 8) v1) (a + 16) v2) (a + 24) v3

theorem loadElement_saveElement (mem : ℕ → ℕ) (a v0 v1 v2 v3 : ℕ) :
    loadElement (saveElement mem a v0 v1 v2 v3) a = limbs4 v0 v1 v2 v3 := by
  simp [loadElement, saveElement]

theorem isElement_saveElement {mem : ℕ → ℕ} {a v0 v1 v2 v3 : ℕ} (hv : v0 < W ∧ v1 < W ∧ v2 < W ∧ v3 < W)
    (hlt : limbs4 v0 v1 v2 v3 < modulus) : IsElement (saveElement mem a v0 v1 v2 v3) a := by
  refine ⟨?_, by rwa [loadElement_saveElement]⟩
  intro o ho
  simp only [List.mem_cons, List.not_mem_nil, or_false] at ho
  rcases ho with rfl | rfl | rfl | rfl
  all_goals simp [saveElement, hv]

theorem onlyResult_saveElement (mem : ℕ → ℕ) (a v0 v1 v2 v3 : ℕ) :
    OnlyResult a mem (saveElement mem a v0 v1 v2 v3) := by
  intro b hb
  simp only [List.mem_cons, List.not_mem_nil, or_false, not_or] at hb
  simp [saveElement, hb]

theorem run_montMulEpilogue {s : Machine} {saved : List ℕ} {b c d e f g h : ℕ}
    (hstack : s.stack = b :: c :: d :: e :: f :: g :: h :: saved) (hfits : Fits s)
    (hlt : accumulator s < 2 * modulus) :
    loadElement (run montMulEpilogue s).mem (s.get rdi) = accumulator s % modulus ∧
      IsElement (run montMulEpilogue s).mem (s.get rdi) ∧
      OnlyResult (s.get rdi) s.mem (run montMulEpilogue s).mem ∧
      [rbx, rcx, rbp, r12, r13, r14, r15, rdi].map (run montMulEpilogue s).get = [b, c, d, e, f, g, h, s.get rdi] ∧
      (run montMulEpilogue s).stack = saved := by
  have hreduce : Canonical r14 r13 rcx rbx [rsi, r12, r11, rax] s _ := run_reduceMacro (by decide) hfits hlt
  rw [montMulEpilogue, run_append]
  generalize run (reduceMacro r14 r13 rcx rbx rsi r12 r11 rax) s = t at hreduce
  have hrdi : t.get rdi = s.get rdi := hreduce.regs rdi (by decide) (by decide)
  have hmem : (run [store r14 0 rdi, store r13 8 rdi, store rcx 16 rdi, store rbx 24 rdi, pop rbx, pop rcx, pop rbp,
      pop r12, pop r13, pop r14, pop r15] t).mem =
      saveElement s.mem (s.get rdi) (t.get r14) (t.get r13) (t.get rcx) (t.get rbx) := by
    simp [run, step, saveElement, hreduce.mem, hrdi]
  have hvalue : limbs4 (t.get r14) (t.get r13) (t.get rcx) (t.get rbx) = accumulator s % modulus := hreduce.value
  rw [hmem]
  refine ⟨?_, ?_, onlyResult_saveElement _ _ _ _ _ _, ?_, ?_⟩
  · rw [loadElement_saveElement, hvalue]
  · exact isElement_saveElement hreduce.bounds (hvalue ▸ Nat.mod_lt _ (by decide +kernel))
  · simp [run, step, hreduce.stack, hstack, hrdi]
  · simp [run, step, hreduce.stack, hstack]

theorem loadElement_eq_ofDigits (mem : ℕ → ℕ) (a : ℕ) :
    Nat.ofDigits W ([0, 8, 16, 24].map fun o => mem (a + o)) = loadElement mem a := by
  simp only [List.map_cons, List.map_nil, Nat.ofDigits_cons, Nat.ofDigits_nil, Nat.add_zero,
    loadElement, limbs4]
  ring

/-- What a caller of `mont_mul_asm` relies on. -/
structure MontMul (s s' : Machine) : Prop where
  product : loadElement s'.mem (s.get rdi) * 2 ^ 256 ≡
    loadElement s.mem (s.get rsi) * loadElement s.mem (s.get rdx) [MOD modulus]
  canonical : IsElement s'.mem (s.get rdi)
  only : OnlyResult (s.get rdi) s.mem s'.mem
  regs : ∀ r ∈ [rbx, rcx, rbp, r12, r13, r14, r15, rdi], s'.get r = s.get r
  stack : s'.stack = s.stack

theorem run_montMulAsm {s : Machine} (hx : IsElement s.mem (s.get rsi)) (hy : IsElement s.mem (s.get rdx)) :
    MontMul s (run montMulAsm s) ∧ ∀ t ∈ rowStates montMulRows (run montMulPrologue s), NoCarry t := by
  have hoperand : operand (run montMulPrologue s) = loadElement s.mem (s.get rsi) := by
    simp [run, step, montMulPrologue, operand, loadElement]
  have hr11 : (run montMulPrologue s).get r11 = s.get rdx := by simp [run, step, montMulPrologue]
  have hrdi : (run montMulPrologue s).get rdi = s.get rdi := by simp [run, step, montMulPrologue]
  have hmem : (run montMulPrologue s).mem = s.mem := by simp [run, step, montMulPrologue]
  have hstack : (run montMulPrologue s).stack =
      [rbx, rcx, rbp, r12, r13, r14, r15].map s.get ++ s.stack := by simp [run, step, montMulPrologue]
  rw [montMulAsm, run_append, run_append]
  generalize run montMulPrologue s = t at *
  obtain ⟨hrows, hcarry⟩ := run_montMulRows t (hoperand ▸ hx.lt) (by rw [hmem, hr11]; exact hy.word)
  rw [hmem, hr11] at hrows
  refine ⟨?_, hcarry⟩
  generalize run montMulRows.flatten t = u at *
  obtain ⟨m, hm⟩ := hrows.total
  rw [loadElement_eq_ofDigits, hoperand, Nat.zero_add] at hm
  have hrdi' : u.get rdi = s.get rdi := (hrows.frame.regs rdi (by simp)).trans hrdi
  have hmem' : u.mem = s.mem := hrows.frame.mem.trans hmem
  obtain ⟨hvalue, hcanonical, honly, hregs, hstack'⟩ := run_montMulEpilogue
    (hrows.frame.stack.trans hstack) hrows.settled.fits hrows.settled.lt
  rw [hrdi'] at hvalue hcanonical honly hregs
  rw [hmem'] at honly
  refine ⟨?_, hcanonical, honly, ?_, hstack'⟩
  · have hmont : accumulator u * 2 ^ 256 = loadElement s.mem (s.get rsi) * loadElement s.mem (s.get rdx) +
      m * modulus := by
      have hradix : (2 : ℕ) ^ 256 = W ^ 4 := by norm_num
      rw [← hm, hradix, Nat.mul_comm, List.length_map, List.length_cons, List.length_cons, List.length_cons,
        List.length_cons, List.length_nil]
    rw [hvalue]
    calc accumulator u % modulus * 2 ^ 256
        ≡ accumulator u * 2 ^ 256 [MOD modulus] := (Nat.mod_modEq _ _).mul_right _
      _ = loadElement s.mem (s.get rsi) * loadElement s.mem (s.get rdx) + m * modulus := hmont
      _ ≡ loadElement s.mem (s.get rsi) * loadElement s.mem (s.get rdx) [MOD modulus] :=
        Nat.add_mul_modulus_modEq_iff.mpr rfl
  · simpa using hregs

theorem montgomery_unique {a b n : ℕ} (ha : a < modulus) (hb : b < modulus) (hna : a * 2 ^ 256 ≡ n [MOD modulus])
    (hnb : b * 2 ^ 256 ≡ n [MOD modulus]) : a = b := by
  have hcoprime : Nat.Coprime modulus (2 ^ 256) := by decide +kernel
  have hab : a ≡ b [MOD modulus] := Nat.ModEq.cancel_right_of_coprime hcoprime (hna.trans hnb.symm)
  exact Nat.ModEq.eq_of_lt_of_lt hab ha hb

section By5

def by5Element (s : Machine) : ℕ := limbs4 (s.get rdx) (s.get rcx) (s.get rbx) (s.get rsi)

def by5Fits (s : Machine) : Prop := s.get rdx < W ∧ s.get rcx < W ∧ s.get rbx < W ∧ s.get rsi < W

structure Added (v : ℕ) (s s' : Machine) : Prop where
  total : by5Element s' + W ^ 4 * s'.cf = by5Element s + v
  fits : by5Fits s'
  rdi_eq : s'.get rdi = s.get rdi
  mem : s'.mem = s.mem
  stack : s'.stack = s.stack

theorem run_doubleElement (s : Machine) : Added (by5Element s) s (run doubleElement s) := by
  rw [doubleElement]
  apply run_add
  intro v0 u0 o0 hv0 f0
  apply run_adc
  intro v1 u1 o1 hv1 f1
  apply run_adc
  intro v2 u2 o2 hv2 f2
  apply run_adc
  intro v3 u3 o3 hv3 f3
  simp at f0 f1 f2 f3
  refine ⟨?_, ?_, ?_, ?_, ?_⟩
  · simp [run, by5Element, limbs4]
    zify at *
    linear_combination f0 + W * f1 + W ^ 2 * f2 + W ^ 3 * f3
  · simpa [run, by5Fits] using ⟨hv0, hv1, hv2, hv3⟩
  · simp [run]
  · simp [run]
  · simp [run]

theorem run_addElement (s : Machine) : Added (loadElement s.mem (s.get rdi)) s (run addElement s) := by
  rw [addElement]
  apply run_addMem
  intro v0 u0 o0 hv0 f0
  apply run_adcMem
  intro v1 u1 o1 hv1 f1
  apply run_adcMem
  intro v2 u2 o2 hv2 f2
  apply run_adcMem
  intro v3 u3 o3 hv3 f3
  simp at f0 f1 f2 f3
  refine ⟨?_, ?_, ?_, ?_, ?_⟩
  · simp [run, by5Element, loadElement, limbs4]
    zify at *
    linear_combination f0 + W * f1 + W ^ 2 * f2 + W ^ 3 * f3
  · simpa [run, by5Fits] using ⟨hv0, hv1, hv2, hv3⟩
  · simp [run]
  · simp [run]
  · simp [run]

/-- The element in the registers between two additions, and what the rounds leave alone. -/
structure Holds (v : ℕ) (s₀ s : Machine) : Prop where
  value : by5Element s = v
  lt : v < modulus
  rdi_eq : s.get rdi = s₀.get rdi
  mem : s.mem = s₀.mem
  stack : s.stack = s₀.stack
  fits : by5Fits s

theorem Holds.round {v w : ℕ} {s₀ s s' : Machine} (h : Holds v s₀ s) (hadd : Added w s s') (hw : w < modulus) :
    s'.cf = 0 ∧ Holds ((v + w) % modulus) s₀ (run (reduceMacro rdx rcx rbx rsi rax r8 r9 r10) s') := by
  have htotal := hadd.total
  have hlt := h.lt
  rw [h.value] at htotal
  have hcf : s'.cf = 0 := by
    by_contra hne
    have hle : W ^ 4 * 1 ≤ W ^ 4 * s'.cf := Nat.mul_le_mul_left _ (by omega)
    have hsize : 2 * modulus < W ^ 4 := by decide +kernel
    omega
  rw [hcf, Nat.mul_zero, Nat.add_zero] at htotal
  have hreduce : Canonical rdx rcx rbx rsi [rax, r8, r9, r10] s' _ :=
    run_reduceMacro (by decide) hadd.fits (by change by5Element s' < _; omega)
  refine ⟨hcf, ?_, Nat.mod_lt _ (by omega), ?_, ?_, ?_, hreduce.bounds⟩
  · rw [← htotal]
    exact hreduce.value
  · exact (hreduce.regs rdi (by decide) (by decide)).trans (hadd.rdi_eq.trans h.rdi_eq)
  · exact hreduce.mem.trans (hadd.mem.trans h.mem)
  · exact hreduce.stack.trans (hadd.stack.trans h.stack)

theorem run_by5Rows {x : ℕ} {s : Machine} (h : Holds x s s) (hx : loadElement s.mem (s.get rdi) = x) :
    Holds (5 * x % modulus) s (run by5Rows.flatten s) ∧
      ∀ row t, (row, t) ∈ by5Rows.zip (rowStates by5Rows s) → row ∈ [doubleElement, addElement] → t.cf = 0 := by
  obtain ⟨hcf1, h1⟩ := h.round (run_doubleElement s) (h.value ▸ h.lt)
  rw [h.value] at h1
  obtain ⟨hcf2, h2⟩ := h1.round (run_doubleElement _) (h1.value ▸ h1.lt)
  rw [h1.value] at h2
  obtain ⟨hcf3, h3⟩ := h2.round (run_addElement _) (by rw [h2.mem, h2.rdi_eq, hx]; exact h.lt)
  rw [h2.mem, h2.rdi_eq, hx] at h3
  have hfive : (((x + x) % modulus + (x + x) % modulus) % modulus + x) % modulus = 5 * x % modulus := by
    rw [← Nat.add_mod, Nat.mod_add_mod]
    congr 1
    ring
  rw [hfive] at h3
  refine ⟨?_, ?_⟩
  · simpa only [by5Rows, List.flatten_cons, List.flatten_nil, List.append_nil, run_append] using h3
  · intro row t ht hrow
    simp only [by5Rows, rowStates, List.zip_cons_cons, List.zip_nil_right, List.mem_cons, Prod.mk.injEq,
      List.not_mem_nil, or_false] at ht hrow
    rcases ht with ⟨-, rfl⟩ | ⟨rfl, -⟩ | ⟨-, rfl⟩ | ⟨rfl, -⟩ | ⟨-, rfl⟩ | ⟨rfl, -⟩
    · exact hcf1
    · simp [reduceMacro, doubleElement, addElement] at hrow
    · exact hcf2
    · simp [reduceMacro, doubleElement, addElement] at hrow
    · exact hcf3
    · simp [reduceMacro, doubleElement, addElement] at hrow

structure MontMulBy5 (s s' : Machine) : Prop where
  product : loadElement s'.mem (s.get rdi) = 5 * loadElement s.mem (s.get rdi) % modulus
  canonical : IsElement s'.mem (s.get rdi)
  only : OnlyResult (s.get rdi) s.mem s'.mem
  regs : ∀ r ∈ [rdx, rcx, rbx, rsi, r15, rdi], s'.get r = s.get r
  stack : s'.stack = s.stack

theorem run_montMulBy5Asm {s : Machine} (hx : IsElement s.mem (s.get rdi)) :
    MontMulBy5 s (run montMulBy5Asm s) ∧
      ∀ row t, (row, t) ∈ by5Rows.zip (rowStates by5Rows (run by5Prologue s)) → row ∈ [doubleElement, addElement] →
        t.cf = 0 := by
  have hvalue : by5Element (run by5Prologue s) = loadElement s.mem (s.get rdi) := by
    simp [run, step, by5Prologue, by5Element, loadElement]
  have hfits : by5Fits (run by5Prologue s) := by
    simpa [run, step, by5Prologue, by5Fits] using hx.word
  have hrdi : (run by5Prologue s).get rdi = s.get rdi := by simp [run, step, by5Prologue]
  have hmem : (run by5Prologue s).mem = s.mem := by simp [run, step, by5Prologue]
  have hstack : (run by5Prologue s).stack = [r15, rsi, rbx, rcx, rdx].map s.get ++ s.stack := by
    simp [run, step, by5Prologue]
  rw [montMulBy5Asm, run_append, run_append]
  generalize run by5Prologue s = t at *
  obtain ⟨hrows, hcarry⟩ := run_by5Rows ⟨hvalue, hx.lt, rfl, rfl, rfl, hfits⟩ (by rw [hmem, hrdi])
  refine ⟨?_, hcarry⟩
  generalize run by5Rows.flatten t = u at *
  have hmem' : (run by5Epilogue u).mem =
      saveElement s.mem (s.get rdi) (u.get rdx) (u.get rcx) (u.get rbx) (u.get rsi) := by
    simp [run, step, by5Epilogue, saveElement, hrows.mem, hrows.rdi_eq, hmem, hrdi]
  have hvalue' : limbs4 (u.get rdx) (u.get rcx) (u.get rbx) (u.get rsi) =
      5 * loadElement s.mem (s.get rdi) % modulus := hrows.value
  refine ⟨?_, ?_, ?_, ?_, ?_⟩
  · rw [hmem', loadElement_saveElement, hvalue']
  · rw [hmem']
    exact isElement_saveElement hrows.fits (hvalue' ▸ hrows.lt)
  · rw [hmem']
    exact onlyResult_saveElement _ _ _ _ _ _
  · simp [run, step, by5Epilogue, hrows.stack, hstack, hrows.rdi_eq, hrdi]
  · simp [run, step, by5Epilogue, hrows.stack, hstack]

end By5

/-- Both kernels leave the canonical result of their operands, and no row loses a carry. -/
theorem montgomery_kernels_exact (s s' : Machine) (hx : IsElement s.mem (s.get rsi)) (hy : IsElement s.mem (s.get rdx))
    (hx' : IsElement s'.mem (s'.get rdi)) :
    (MontMul s (run montMulAsm s) ∧
      (∀ r < modulus, r * 2 ^ 256 ≡ loadElement s.mem (s.get rsi) * loadElement s.mem (s.get rdx) [MOD modulus] →
        r = loadElement (run montMulAsm s).mem (s.get rdi)) ∧
      ∀ t ∈ rowStates montMulRows (run montMulPrologue s), NoCarry t) ∧
    (MontMulBy5 s' (run montMulBy5Asm s') ∧
      ∀ row t, (row, t) ∈ by5Rows.zip (rowStates by5Rows (run by5Prologue s')) → row ∈ [doubleElement, addElement] →
        t.cf = 0) := by
  obtain ⟨hmul, hcarry⟩ := run_montMulAsm hx hy
  refine ⟨⟨hmul, ?_, hcarry⟩, run_montMulBy5Asm hx'⟩
  intro r hr hproduct
  exact montgomery_unique hr hmul.canonical.lt hproduct hmul.product

def twoElements (result : ℕ) : Machine where
  regs := Function.update (Function.update (fun _ => 0) rdx 32) rdi result
  cf := 0
  ovf := 0
  mem a := if a < 32 then 2 ^ 256 % modulus / W ^ (a / 8) % W else
    if a < 64 then (modulus - 1) / W ^ ((a - 32) / 8) % W else 0
  stack := []

theorem montgomery_kernels_exact_one :
    loadElement (run montMulAsm (twoElements 64)).mem 64 = modulus - 1 ∧
      loadElement (run montMulBy5Asm (twoElements 32)).mem 32 = modulus - 5 := by
  have hone : IsElement (twoElements 64).mem 0 := ⟨by decide +kernel, by decide +kernel⟩
  have hlast : IsElement (twoElements 64).mem 32 := ⟨by decide +kernel, by decide +kernel⟩
  obtain ⟨⟨-, hunique, -⟩, ⟨hby5, -⟩⟩ := montgomery_kernels_exact (twoElements 64) (twoElements 32) hone hlast hlast
  refine ⟨(hunique (modulus - 1) (by decide +kernel) ?_).symm, hby5.product.trans ?_⟩
  · have h0 : loadElement (twoElements 64).mem 0 = 2 ^ 256 % modulus := by decide +kernel
    have h32 : loadElement (twoElements 64).mem 32 = modulus - 1 := by decide +kernel
    change _ ≡ loadElement (twoElements 64).mem 0 * loadElement (twoElements 64).mem 32 [MOD modulus]
    rw [h0, h32, Nat.mul_comm]
    exact (Nat.mod_modEq _ _).symm.mul_right _
  · decide +kernel

end Kernels

end Salt.Banderwagon
