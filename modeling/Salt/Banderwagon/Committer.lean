import Salt.Types
import Salt.Multipoint.Ipa
import Salt.Library.Limbs
import Salt.Library.SignedDigits
import Salt.Library.Triple

namespace Salt.Banderwagon

open Library.Limbs Library.SignedDigits Library.Triple
open Multipoint (divCeil)

/-- Indexing; outside of the slice it panics, and `get_unchecked` has no meaning there. -/
def slot {α : Type} (l : List α) (i : ℕ) : Except Panic α :=
  match l[i]? with
  | some a => .ok a
  | none => .error .indexOutOfRange

theorem slot_eq_ok {α : Type} {l : List α} {i : ℕ} {a : α} : slot l i = .ok a ↔ l[i]? = some a := by
  rw [slot]
  cases l[i]? <;> simp

/-- `1 << shift` as an `i32`: only the low bits of the shift count when overflow is not checked. -/
def i32OneShl (overflowChecks : Bool) (shift : ℕ) : Except Panic (BitVec 32) :=
  if shift < 32 then .ok ((1 : BitVec 32) <<< shift)
  else if overflowChecks then .error (.unwrap "attempt to shift left with overflow")
  else .ok ((1 : BitVec 32) <<< (shift % 32))

structure Committer (A : Type) where
  windowSize : ℕ
  tables : List (List A)

section Tables

variable {A : Type} [AddCommGroup A]

def pushMultiple (base : A) (st : List A × A) : List A × A := (st.1 ++ [st.2 + base], st.2 + base)

def pushWindow (rounds : ℕ) (st : List A × A) : List A × A :=
  let filled := (pushMultiple st.2)^[rounds] (st.1 ++ [0, st.2], st.2)
  (filled.1, filled.2 + filled.2)

/-- The inner loop runs over `1..(1 << (window_size - 1))`. Its counter is used nowhere, so that the
range is one of `i32`. -/
def precomputeTable (overflowChecks : Bool) (windowSize : ℕ) (base : A) : Except Panic (List A) := do
  let winNum := 253 / windowSize + 1
  let bound ← i32OneShl overflowChecks (windowSize - 1)
  .ok ((pushWindow (bound.toInt - 1).toNat)^[winNum] ([], base)).1

def Committer.new (overflowChecks : Bool) (bases : List A) (windowSize : ℕ) : Except Panic (Committer A) :=
  if windowSize = 0 then .error (.unwrap "attempt to divide by zero")
  else do
    let tables ← bases.mapM (precomputeTable overflowChecks windowSize)
    .ok ⟨windowSize, tables⟩

end Tables

def prefetchDigit (sourceVec : List (BitVec 64)) (w startBit : ℕ) : Except Panic (BitVec 64) := do
  let sourceI := startBit >>> 6
  let offsetInI := startBit &&& 63
  let word ← slot sourceVec sourceI
  let d := (word >>> offsetInI) &&& (((1 : BitVec 64) <<< w) - 1)
  if offsetInI + w > 64 ∧ sourceI < sourceVec.length - 1 then
    let left := w - (64 - offsetInI)
    let next ← slot sourceVec (sourceI + 1)
    .ok (d ||| ((next &&& (((1 : BitVec 64) <<< left) - 1)) <<< (64 - offsetInI)))
  else .ok d

def calculatePrefetchIndex (sourceVec : List (BitVec 64)) (w : ℕ) : Except Panic (List (BitVec 64)) :=
  ((List.range (divCeil 254 w)).map (w * ·)).mapM (prefetchDigit sourceVec w)

namespace Committer

variable {A : Type} [AddCommGroup A]

def collectPoint (w : ℕ) (precomTable : List A) (chunks : List (BitVec 64)) (st : List A × ℕ) (i : ℕ) :
    Except Panic (List A × ℕ) := do
  let halfWin := 2 ^ (w - 1)
  let chunk ← slot chunks i
  let index := chunk.toNat + st.2
  if index = 0 then .ok st
  else if index > halfWin then
    let index := 2 ^ w - index
    if index ≠ 0 then
      let point ← slot precomTable (index + i * (halfWin + 1))
      .ok (st.1 ++ [-point], 1)
    else .ok (st.1, 1)
  else
    let point ← slot precomTable (index + i * (halfWin + 1))
    .ok (st.1 ++ [point], 0)

def collectPoints (committer : Committer A) (scalar : List (BitVec 64)) (gI : ℕ) :
    Except Panic (List A × ℕ) := do
  let chunks ← calculatePrefetchIndex scalar committer.windowSize
  let precomTable ← slot committer.tables gI
  (List.range chunks.length).foldlM (collectPoint committer.windowSize precomTable chunks) ([], 0)

def mulIndex (committer : Committer A) (scalar : List (BitVec 64)) (gI : ℕ) : Except Panic A := do
  let collected ← committer.collectPoints scalar gI
  .ok (collected.1.foldl (· + ·) 0)

/-- A pointer may be formed up to one past the end. -/
def prefetch (precompTable : List A) (idx : ℕ) : Except Panic Unit :=
  if idx ≤ precompTable.length then .ok () else .error .indexOutOfRange

def addPending (precompTable : List A) (result : A) (idx carry : ℕ) : Except Panic A := do
  let point ← slot precompTable idx
  .ok (if carry > 0 then result + -point else result + point)

/-- What the x86-64 variant keeps between rounds: `idx` and `c_next` belong to the pending point. -/
structure Pipeline (A : Type) where
  result : A
  idx : ℕ
  cNext : ℕ

def firstPoint (w : ℕ) (precompTable : List A) (chunks : List (BitVec 64)) : Except Panic (Pipeline A) := do
  let halfWnd := 2 ^ (w - 1) + 1
  let data0 ← slot chunks 0
  let st : Pipeline A :=
    if data0.toNat ≥ halfWnd then ⟨0, 2 ^ w - data0.toNat, 1⟩ else ⟨0, data0.toNat, 0⟩
  prefetch precompTable st.idx
  .ok st

def nextPoint (w : ℕ) (precompTable : List A) (chunks : List (BitVec 64)) (st : Pipeline A) (i : ℕ) :
    Except Panic (Pipeline A) := do
  let halfWnd := 2 ^ (w - 1) + 1
  let chunk ← slot chunks i
  let idxNext := chunk.toNat + st.cNext
  let carry := st.cNext
  let next : ℕ × ℕ :=
    if idxNext ≥ halfWnd then (2 ^ w - idxNext + i * halfWnd, 1) else (idxNext + i * halfWnd, 0)
  prefetch precompTable next.1
  let result ← addPending precompTable st.result st.idx carry
  .ok ⟨result, next.1, next.2⟩

def pipeline (committer : Committer A) (scalar : List (BitVec 64)) (gI : ℕ) : Except Panic (Pipeline A) := do
  let chunks ← calculatePrefetchIndex scalar committer.windowSize
  let precompTable ← slot committer.tables gI
  let st ← firstPoint committer.windowSize precompTable chunks
  (List.range' 1 (chunks.length - 1)).foldlM (nextPoint committer.windowSize precompTable chunks) st

def mulIndexPrefetching (committer : Committer A) (scalar : List (BitVec 64)) (gI : ℕ) : Except Panic A := do
  let st ← committer.pipeline scalar gI
  let precompTable ← slot committer.tables gI
  addPending precompTable st.result st.idx st.cNext

end Committer

end Salt.Banderwagon
