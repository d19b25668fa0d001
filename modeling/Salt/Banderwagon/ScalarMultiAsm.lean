import Salt.Library.X86

namespace Salt.Banderwagon

open Library.X86 Library.X86.Instr Library.X86.Reg

def p0 : ℕ := 0xffffffff00000001

def p1 : ℕ := 0x53bda402fffe5bfe

def p2 : ℕ := 0x3339d80809a1d805

def p3 : ℕ := 0x73eda753299d7d48

def qInv : ℕ := 0xfffffffeffffffff

/-- Subtracts the prime from four registers and takes the saved values back on a borrow. -/
def reduceMacro (e0 e1 e2 e3 t0 t1 t2 t3 : Reg) : List Instr := [
  mov e0 t0, movImm p0 r15, sub r15 e0,
  mov e1 t1, movImm p1 r15, sbb r15 e1,
  mov e2 t2, movImm p2 r15, sbb r15 e2,
  mov e3 t3, movImm p3 r15, sbb r15 e3,
  cmovc t0 e0, cmovc t1 e1, cmovc t2 e2, cmovc t3 e3]

/-- `(A, t) := x * y[0]` -/
def multiplyFirstRow : List Instr := [
  xor rax rax, load 0 r11 rdx,
  mulx r12 r14 r13,
  mulx r8 rax rcx, adox rax r13,
  mulx r9 rax rbx, adox rax rcx,
  mulx r10 rax rbp, adox rax rbx,
  movImm 0 rax, adox rax rbp]

/-- `(A, t) := t + x * y[i]`, the limb of `y` at the given offset -/
def multiplyRow (offset : ℕ) : List Instr := [
  xor rax rax, load offset r11 rdx,
  mulx r12 rax rbp, adox rax r14,
  adcx rbp r13, mulx r8 rax rbp, adox rax r13,
  adcx rbp rcx, mulx r9 rax rbp, adox rax rcx,
  adcx rbp rbx, mulx r10 rax rbp, adox rax rbx,
  movImm 0 rax, adcx rax rbp, adox rax rbp]

/-- `m := t[0] * q' mod W`, then `t := (t + m * q) / W` -/
def reduceRowBy (q' q0 q1 q2 q3 : ℕ) : List Instr := [
  movImm q' rdx, imul r14 rdx,
  xor rax rax,
  movImm q0 r15, mulx r15 rax rsi, adcx r14 rax, mov rsi r14,
  adcx r13 r14, movImm q1 r15, mulx r15 rax r13, adox rax r14,
  adcx rcx r13, movImm q2 r15, mulx r15 rax rcx, adox rax r13,
  adcx rbx rcx, movImm q3 r15, mulx r15 rax rbx, adox rax rcx,
  movImm 0 rax, adcx rax rbx, adox rbp rbx]

def reduceRow : List Instr := reduceRowBy qInv p0 p1 p2 p3

def montMulPrologue : List Instr := [
  push r15, push r14, push r13, push r12, push rbp, push rcx, push rbx,
  load 0 rsi r12, load 8 rsi r8, load 16 rsi r9, load 24 rsi r10,
  mov rdx r11]

def montMulRows : List (List Instr) := [
  multiplyFirstRow, reduceRow, multiplyRow 8, reduceRow, multiplyRow 16, reduceRow, multiplyRow 24, reduceRow]

def montMulEpilogue : List Instr :=
  reduceMacro r14 r13 rcx rbx rsi r12 r11 rax ++ [
  store r14 0 rdi, store r13 8 rdi, store rcx 16 rdi, store rbx 24 rdi,
  pop rbx, pop rcx, pop rbp, pop r12, pop r13, pop r14, pop r15]

/-- `mont_mul_asm`: `rdi` points to the result, `rsi` to `x` and `rdx` to `y`. -/
def montMulAsm : List Instr := montMulPrologue ++ (montMulRows.flatten ++ montMulEpilogue)

def doubleElement : List Instr := [add rdx rdx, adc rcx rcx, adc rbx rbx, adc rsi rsi]

def addElement : List Instr := [addMem 0 rdi rdx, adcMem 8 rdi rcx, adcMem 16 rdi rbx, adcMem 24 rdi rsi]

def by5Prologue : List Instr := [
  push rdx, push rcx, push rbx, push rsi, push r15,
  load 0 rdi rdx, load 8 rdi rcx, load 16 rdi rbx, load 24 rdi rsi]

def by5Rows : List (List Instr) := [
  doubleElement, reduceMacro rdx rcx rbx rsi rax r8 r9 r10,
  doubleElement, reduceMacro rdx rcx rbx rsi rax r8 r9 r10,
  addElement, reduceMacro rdx rcx rbx rsi rax r8 r9 r10]

def by5Epilogue : List Instr := [
  store rdx 0 rdi, store rcx 8 rdi, store rbx 16 rdi, store rsi 24 rdi,
  pop r15, pop rsi, pop rbx, pop rcx, pop rdx]

/-- `mont_mul_by5_asm`: `rdi` points to the element. -/
def montMulBy5Asm : List Instr := by5Prologue ++ (by5Rows.flatten ++ by5Epilogue)

end Salt.Banderwagon
