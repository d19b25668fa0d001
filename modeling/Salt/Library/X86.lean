import Mathlib.Logic.Function.Basic
import Mathlib.Order.Basic
import Mathlib.Tactic.NormNum

namespace Salt.Library.X86

abbrev W : ℕ := 2 ^ 64

inductive Reg
  | rax | rbx | rcx | rdx | rsi | rdi | rbp | r8 | r9 | r10 | r11 | r12 | r13 | r14 | r15
deriving DecidableEq

/-- The registers but for the stack pointer, the two flags as numbers, the memory as 64-bit words by their
address, and what was pushed. -/
structure Machine where
  regs : Reg → ℕ
  cf : ℕ
  ovf : ℕ
  mem : ℕ → ℕ
  stack : List ℕ

def Machine.get (s : Machine) (r : Reg) : ℕ := s.regs r

def Machine.set (s : Machine) (r : Reg) (v : ℕ) : Machine := { s with regs := Function.update s.regs r v }

def Machine.push (s : Machine) (v : ℕ) : Machine := { s with stack := v :: s.stack }

def Machine.drop (s : Machine) : Machine := { s with stack := s.stack.tail }

def Machine.write (s : Machine) (address v : ℕ) : Machine := { s with mem := Function.update s.mem address v }

def Machine.setCf (s : Machine) (c : ℕ) : Machine := { s with cf := c }

def Machine.setOvf (s : Machine) (c : ℕ) : Machine := { s with ovf := c }

section Access

@[simp]
theorem get_set (s : Machine) (r r' : Reg) (v : ℕ) :
    (s.set r v).get r' = if r' = r then v else s.get r' :=
  Function.update_apply s.regs r v r'

@[simp]
theorem get_setCf (s : Machine) (r : Reg) (c : ℕ) : (s.setCf c).get r = s.get r := rfl

@[simp]
theorem get_setOvf (s : Machine) (r : Reg) (c : ℕ) : (s.setOvf c).get r = s.get r := rfl

@[simp]
theorem get_push (s : Machine) (r : Reg) (v : ℕ) : (s.push v).get r = s.get r := rfl

@[simp]
theorem get_drop (s : Machine) (r : Reg) : s.drop.get r = s.get r := rfl

@[simp]
theorem get_write (s : Machine) (r : Reg) (a v : ℕ) : (s.write a v).get r = s.get r := rfl

@[simp]
theorem cf_set (s : Machine) (r : Reg) (v : ℕ) : (s.set r v).cf = s.cf := rfl

@[simp]
theorem cf_setCf (s : Machine) (c : ℕ) : (s.setCf c).cf = c := rfl

@[simp]
theorem cf_setOvf (s : Machine) (c : ℕ) : (s.setOvf c).cf = s.cf := rfl

@[simp]
theorem ovf_set (s : Machine) (r : Reg) (v : ℕ) : (s.set r v).ovf = s.ovf := rfl

@[simp]
theorem ovf_setCf (s : Machine) (c : ℕ) : (s.setCf c).ovf = s.ovf := rfl

@[simp]
theorem ovf_setOvf (s : Machine) (c : ℕ) : (s.setOvf c).ovf = c := rfl

@[simp]
theorem mem_set (s : Machine) (r : Reg) (v : ℕ) : (s.set r v).mem = s.mem := rfl

@[simp]
theorem mem_setCf (s : Machine) (c : ℕ) : (s.setCf c).mem = s.mem := rfl

@[simp]
theorem mem_setOvf (s : Machine) (c : ℕ) : (s.setOvf c).mem = s.mem := rfl

@[simp]
theorem mem_push (s : Machine) (v : ℕ) : (s.push v).mem = s.mem := rfl

@[simp]
theorem mem_drop (s : Machine) : s.drop.mem = s.mem := rfl

@[simp]
theorem mem_write (s : Machine) (a v : ℕ) : (s.write a v).mem = Function.update s.mem a v := rfl

@[simp]
theorem stack_set (s : Machine) (r : Reg) (v : ℕ) : (s.set r v).stack = s.stack := rfl

@[simp]
theorem stack_setCf (s : Machine) (c : ℕ) : (s.setCf c).stack = s.stack := rfl

@[simp]
theorem stack_setOvf (s : Machine) (c : ℕ) : (s.setOvf c).stack = s.stack := rfl

@[simp]
theorem stack_push (s : Machine) (v : ℕ) : (s.push v).stack = v :: s.stack := rfl

@[simp]
theorem stack_drop (s : Machine) : s.drop.stack = s.stack.tail := rfl

@[simp]
theorem stack_write (s : Machine) (a v : ℕ) : (s.write a v).stack = s.stack := rfl

end Access

/-- Operands in the order of the AT&T syntax: sources first. -/
inductive Instr
  | push (r : Reg)
  | pop (r : Reg)
  | load (offset : ℕ) (base dst : Reg)
  | store (src : Reg) (offset : ℕ) (base : Reg)
  | mov (src dst : Reg)
  | movImm (imm : ℕ) (dst : Reg)
  | xor (src dst : Reg)
  | mulx (src lo hi : Reg)
  | imul (src dst : Reg)
  | adcx (src dst : Reg)
  | adox (src dst : Reg)
  | add (src dst : Reg)
  | adc (src dst : Reg)
  | addMem (offset : ℕ) (base dst : Reg)
  | adcMem (offset : ℕ) (base dst : Reg)
  | sub (src dst : Reg)
  | sbb (src dst : Reg)
  | cmovc (src dst : Reg)

def signBit (a : ℕ) : Bool := 2 ^ 63 ≤ a

def signed (a : ℕ) : ℤ := if signBit a then Int.ofNat a - Int.ofNat W else Int.ofNat a

def flag (b : Bool) : ℕ := if b then 1 else 0

def addOverflow (a b v : ℕ) : ℕ := flag (signBit a == signBit b && signBit v != signBit a)

def subOverflow (a b v : ℕ) : ℕ := flag (signBit a != signBit b && signBit v != signBit a)

def imulOverflow (a b : ℕ) : ℕ := flag (signed (a * b % W) != signed a * signed b)

def Machine.addInto (s : Machine) (dst : Reg) (src c : ℕ) : Machine :=
  let v := (s.get dst + src + c) % W
  ((s.set dst v).setCf ((s.get dst + src + c) / W)).setOvf (addOverflow (s.get dst) src v)

/-- `dst - src - c`, with the borrow in the carry flag. -/
def Machine.subFrom (s : Machine) (dst : Reg) (src c : ℕ) : Machine :=
  let borrow := flag (s.get dst < src + c)
  let v := s.get dst + W * borrow - (src + c)
  ((s.set dst v).setCf borrow).setOvf (subOverflow (s.get dst) src v)

def step (s : Machine) : Instr → Machine
  | .push r => s.push (s.get r)
  | .pop r => (s.set r (s.stack.headD 0)).drop
  | .load offset base dst => s.set dst (s.mem (s.get base + offset))
  | .store src offset base => s.write (s.get base + offset) (s.get src)
  | .mov src dst => s.set dst (s.get src)
  | .movImm imm dst => s.set dst imm
  | .xor src dst => ((s.set dst (s.get src ^^^ s.get dst)).setCf 0).setOvf 0
  | .mulx src lo hi =>
    let product := s.get src * s.get .rdx
    (s.set lo (product % W)).set hi (product / W)
  | .imul src dst =>
    let overflow := imulOverflow (s.get src) (s.get dst)
    ((s.set dst (s.get src * s.get dst % W)).setCf overflow).setOvf overflow
  | .adcx src dst =>
    (s.set dst ((s.get dst + s.get src + s.cf) % W)).setCf ((s.get dst + s.get src + s.cf) / W)
  | .adox src dst =>
    (s.set dst ((s.get dst + s.get src + s.ovf) % W)).setOvf ((s.get dst + s.get src + s.ovf) / W)
  | .add src dst => s.addInto dst (s.get src) 0
  | .adc src dst => s.addInto dst (s.get src) s.cf
  | .addMem offset base dst => s.addInto dst (s.mem (s.get base + offset)) 0
  | .adcMem offset base dst => s.addInto dst (s.mem (s.get base + offset)) s.cf
  | .sub src dst => s.subFrom dst (s.get src) 0
  | .sbb src dst => s.subFrom dst (s.get src) s.cf
  | .cmovc src dst => if s.cf = 1 then s.set dst (s.get src) else s

def run (program : List Instr) (s : Machine) : Machine := program.foldl step s

theorem run_append (p p' : List Instr) (s : Machine) : run (p ++ p') s = run p' (run p s) := List.foldl_append

section Rules

variable {P : Machine → Prop} {p : List Instr} {s : Machine}

theorem run_cons (i : Instr) (h : P (run p (step s i))) : P (run (i :: p) s) := h

theorem run_mulx {src lo hi : Reg}
    (h : ∀ l u, l < W → l + W * u = s.get src * s.get .rdx → P (run p ((s.set lo l).set hi u))) :
    P (run (.mulx src lo hi :: p) s) :=
  h _ _ (Nat.mod_lt _ (by norm_num)) (Nat.mod_add_div _ _)

theorem run_adcx {src dst : Reg}
    (h : ∀ v c, v < W → v + W * c = s.get dst + s.get src + s.cf → P (run p ((s.set dst v).setCf c))) :
    P (run (.adcx src dst :: p) s) :=
  h _ _ (Nat.mod_lt _ (by norm_num)) (Nat.mod_add_div _ _)

theorem run_adox {src dst : Reg}
    (h : ∀ v c, v < W → v + W * c = s.get dst + s.get src + s.ovf → P (run p ((s.set dst v).setOvf c))) :
    P (run (.adox src dst :: p) s) :=
  h _ _ (Nat.mod_lt _ (by norm_num)) (Nat.mod_add_div _ _)

theorem addInto_rule {dst : Reg} {src c : ℕ}
    (h : ∀ v u o, v < W → v + W * u = s.get dst + src + c → P (run p (((s.set dst v).setCf u).setOvf o))) :
    P (run p (s.addInto dst src c)) :=
  h _ _ _ (Nat.mod_lt _ (by norm_num)) (Nat.mod_add_div _ _)

theorem run_add {src dst : Reg}
    (h : ∀ v u o, v < W → v + W * u = s.get dst + s.get src → P (run p (((s.set dst v).setCf u).setOvf o))) :
    P (run (.add src dst :: p) s) := addInto_rule h

theorem run_adc {src dst : Reg}
    (h : ∀ v u o, v < W → v + W * u = s.get dst + s.get src + s.cf → P (run p (((s.set dst v).setCf u).setOvf o))) :
    P (run (.adc src dst :: p) s) := addInto_rule h

theorem run_addMem {offset : ℕ} {base dst : Reg}
    (h : ∀ v u o, v < W → v + W * u = s.get dst + s.mem (s.get base + offset) →
      P (run p (((s.set dst v).setCf u).setOvf o))) :
    P (run (.addMem offset base dst :: p) s) := addInto_rule h

theorem run_adcMem {offset : ℕ} {base dst : Reg}
    (h : ∀ v u o, v < W → v + W * u = s.get dst + s.mem (s.get base + offset) + s.cf →
      P (run p (((s.set dst v).setCf u).setOvf o))) :
    P (run (.adcMem offset base dst :: p) s) := addInto_rule h

theorem subFrom_rule {dst : Reg} {src c : ℕ} (hdst : s.get dst < W) (hsrc : src + c ≤ W)
    (h : ∀ v u o, v < W → u ≤ 1 → v + src + c = s.get dst + W * u → P (run p (((s.set dst v).setCf u).setOvf o))) :
    P (run p (s.subFrom dst src c)) := by
  by_cases hborrow : s.get dst < src + c
  · have hflag : flag (decide (s.get dst < src + c)) = 1 := by rw [flag, decide_eq_true hborrow, if_pos rfl]
    unfold Machine.subFrom
    rw [hflag]
    exact h _ _ _ (by omega) (le_refl 1) (by omega)
  · have hflag : flag (decide (s.get dst < src + c)) = 0 := by
      rw [flag, decide_eq_false hborrow]
      rfl
    unfold Machine.subFrom
    rw [hflag]
    exact h _ _ _ (by omega) (Nat.zero_le 1) (by omega)

theorem run_sub {src dst : Reg} (hdst : s.get dst < W) (hsrc : s.get src ≤ W)
    (h : ∀ v u o, v < W → u ≤ 1 → v + s.get src = s.get dst + W * u →
      P (run p (((s.set dst v).setCf u).setOvf o))) :
    P (run (.sub src dst :: p) s) := subFrom_rule hdst hsrc h

theorem run_sbb {src dst : Reg} (hdst : s.get dst < W) (hsrc : s.get src + s.cf ≤ W)
    (h : ∀ v u o, v < W → u ≤ 1 → v + s.get src + s.cf = s.get dst + W * u →
      P (run p (((s.set dst v).setCf u).setOvf o))) :
    P (run (.sbb src dst :: p) s) := subFrom_rule hdst hsrc h

end Rules

end Salt.Library.X86
