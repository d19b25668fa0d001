import Salt.Banderwagon.Committer

namespace Salt.Banderwagon

open Finset (range)
open Library.Limbs Library.SignedDigits Library.Triple
open Multipoint (divCeil)

section Digits

variable {w : ℕ}

theorem getLsbD_mask (hw : w < 64) (j : ℕ) : (((1 : BitVec 64) <<< w) - 1).getLsbD j = decide (j < w) := by
  have hlt : 2 ^ w < 2 ^ 64 := Nat.pow_lt_pow_right (by norm_num) hw
  have hpos : 0 < 2 ^ w := by positivity
  have hval : (((1 : BitVec 64) <<< w) - 1).toNat = 2 ^ w - 1 := by
    have hone : BitVec.toNat (1 : BitVec 64) = 1 := rfl
    rw [BitVec.toNat_sub, BitVec.toNat_shiftLeft, hone, Nat.shiftLeft_eq, one_mul, Nat.mod_eq_of_lt hlt]
    omega
  rw [← BitVec.testBit_toNat, hval, Nat.testBit_two_pow_sub_one]

variable {sourceVec : List (BitVec 64)}

theorem slot_eq_getD {i : ℕ} (hi : i < sourceVec.length) : slot sourceVec i = .ok (sourceVec.getD i 0) := by
  rw [slot_eq_ok, List.getD_eq_getElem?_getD, List.getElem?_eq_getElem hi, Option.getD_some]

theorem prefetchDigit_eq (hlen : sourceVec.length = 4) (hw : w < 64) {startBit : ℕ} (hstart : startBit < 256) :
    prefetchDigit sourceVec w startBit = .ok (BitVec.ofNat 64 (ofLimbs sourceVec / 2 ^ startBit % 2 ^ w)) := by
  have hi : startBit >>> 6 = startBit / 64 := Nat.shiftRight_eq_div_pow startBit 6
  have ho : startBit &&& 63 = startBit % 64 := Nat.and_two_pow_sub_one_eq_mod startBit 6
  have hbit : ∀ j < 64, (BitVec.ofNat 64 (ofLimbs sourceVec / 2 ^ startBit % 2 ^ w)).getLsbD j =
      (decide (j < w) && (sourceVec.getD ((startBit + j) / 64) 0).getLsbD ((startBit + j) % 64)) := by
    intro j hj
    rw [BitVec.getLsbD_ofNat, Nat.testBit_mod_two_pow, Nat.testBit_div_two_pow,
      testBit_ofLimbs (by norm_num), Nat.add_comm j, decide_eq_true hj, Bool.true_and]
  have hlow : ∀ j, ((sourceVec.getD (startBit / 64) 0 >>> (startBit % 64)) &&&
      (((1 : BitVec 64) <<< w) - 1)).getLsbD j = (decide (j < w) && (sourceVec.getD (startBit / 64) 0).getLsbD
        (startBit % 64 + j)) := by
    intro j
    rw [BitVec.getLsbD_and, getLsbD_mask hw, BitVec.getLsbD_ushiftRight, Bool.and_comm]
  rw [prefetchDigit, hi, ho]
  simp only [slot_eq_getD (show startBit / 64 < sourceVec.length by omega), ok_bind]
  split
  · rename_i hstraddle
    simp only [slot_eq_getD (show startBit / 64 + 1 < sourceVec.length by omega), ok_bind]
    refine congrArg Except.ok (BitVec.eq_of_getLsbD_eq fun j hj ↦ ?_)
    rw [hbit j hj, BitVec.getLsbD_or, hlow, BitVec.getLsbD_shiftLeft, BitVec.getLsbD_and,
      getLsbD_mask (by omega)]
    by_cases hin : startBit % 64 + j < 64
    · have hd : (startBit + j) / 64 = startBit / 64 := by omega
      have hm : (startBit + j) % 64 = startBit % 64 + j := by omega
      rw [hd, hm, decide_eq_true (show j < 64 - startBit % 64 by omega)]
      simp
    · have hd : (startBit + j) / 64 = startBit / 64 + 1 := by omega
      have hm : (startBit + j) % 64 = j - (64 - startBit % 64) := by omega
      have hleft : (j - (64 - startBit % 64) < w - (64 - startBit % 64)) ↔ j < w := by omega
      rw [hd, hm, BitVec.getLsbD_of_ge _ (startBit % 64 + j) (by omega),
        decide_eq_false (show ¬ j < 64 - startBit % 64 by omega), Bool.decide_congr hleft]
      simp [hj, Bool.and_comm]
  · rename_i hwithin
    refine congrArg Except.ok (BitVec.eq_of_getLsbD_eq fun j hj ↦ ?_)
    rw [hbit j hj, hlow]
    by_cases hin : startBit % 64 + j < 64
    · have hd : (startBit + j) / 64 = startBit / 64 := by omega
      have hm : (startBit + j) % 64 = startBit % 64 + j := by omega
      rw [hd, hm]
    · -- the window leaves the last limb
      by_cases hj' : j < w
      · rw [BitVec.getLsbD_of_ge _ (startBit % 64 + j) (by omega), List.getD_eq_getElem?_getD,
          List.getElem?_eq_none (by omega)]
        simp
      · rw [decide_eq_false hj', Bool.false_and, Bool.false_and]

theorem divCeil_windows (hw : 1 ≤ w) : divCeil 254 w = 253 / w + 1 := by
  rw [divCeil, show 254 + w - 1 = 253 + w by omega, Nat.add_div_right _ hw]

theorem calculatePrefetchIndex_eq (hlen : sourceVec.length = 4) (hw : 1 ≤ w) (hw' : w < 64) :
    calculatePrefetchIndex sourceVec w =
      .ok ((List.range (253 / w + 1)).map fun i ↦ BitVec.ofNat 64 (digit w (ofLimbs sourceVec) i)) := by
  rw [calculatePrefetchIndex, divCeil_windows hw, List.mapM_map]
  apply mapM_eq_ok
  intro i hi
  have hle : i ≤ 253 / w := Nat.lt_succ_iff.mp (List.mem_range.mp hi)
  have hmul : w * i ≤ 253 := (Nat.mul_le_mul_left w hle).trans (Nat.mul_div_le 253 w)
  rw [Function.comp_apply, prefetchDigit_eq hlen hw' (by omega)]
  rfl

end Digits

section Tables

variable {A : Type} [AddCommGroup A]

theorem pushMultiple_iterate (base : A) (rounds : ℕ) (table : List A) (element : A) :
    (pushMultiple base)^[rounds] (table, element) =
      (table ++ (List.range rounds).map (fun j ↦ element + (j + 1) • base), element + rounds • base) := by
  induction rounds with
  | zero => simp
  | succ rounds ih =>
    rw [Function.iterate_succ_apply', ih, pushMultiple, List.range_succ, List.map_append]
    simp only [List.map_cons, List.map_nil, List.append_assoc, succ_nsmul, add_assoc]

theorem pushWindow_eq (rounds : ℕ) (table : List A) (base : A) :
    pushWindow rounds (table, base) =
      (table ++ (List.range (rounds + 2)).map (· • base), (2 * (rounds + 1)) • base) := by
  have hmultiples : (List.range (rounds + 2)).map (· • base) =
      [0, base] ++ (List.range rounds).map fun j ↦ base + (j + 1) • base := by
    rw [List.range_succ_eq_map, List.range_succ_eq_map]
    simp only [List.map_cons, List.map_map, zero_nsmul, List.cons_append, List.nil_append, one_nsmul]
    refine congrArg _ (congrArg _ (List.map_congr_left fun j _ ↦ ?_))
    exact succ_nsmul' base (j + 1)
  have hlast : base + rounds • base = (rounds + 1) • base := (succ_nsmul' base rounds).symm
  rw [pushWindow, pushMultiple_iterate, hmultiples]
  simp only [List.append_assoc, hlast, two_mul, add_nsmul]

def windowMultiples (rounds : ℕ) (base : A) (i : ℕ) : List A :=
  (List.range (rounds + 2)).map fun j ↦ (j * (2 * (rounds + 1)) ^ i) • base

theorem pushWindow_iterate (rounds winNum : ℕ) (base : A) :
    (pushWindow rounds)^[winNum] ([], base) =
      ((List.range winNum).flatMap (windowMultiples rounds base), (2 * (rounds + 1)) ^ winNum • base) := by
  induction winNum with
  | zero => simp
  | succ n ih =>
    rw [Function.iterate_succ_apply', ih, pushWindow_eq, @List.range_succ n, List.flatMap_append,
      List.flatMap_singleton, windowMultiples]
    simp only [smul_smul, pow_succ']

theorem length_windowMultiples (rounds : ℕ) (base : A) (i : ℕ) :
    (windowMultiples rounds base i).length = rounds + 2 := by
  rw [windowMultiples, List.length_map, List.length_range]

theorem length_flatMap_windowMultiples (rounds winNum : ℕ) (base : A) :
    ((List.range winNum).flatMap (windowMultiples rounds base)).length = winNum * (rounds + 2) := by
  rw [List.length_flatMap, List.map_congr_left fun i _ ↦ length_windowMultiples rounds base i]
  simp

theorem getElem?_flatMap_windowMultiples {rounds winNum i j : ℕ} (base : A) (hi : i < winNum)
    (hj : j < rounds + 2) :
    ((List.range winNum).flatMap (windowMultiples rounds base))[j + i * (rounds + 2)]? =
      some ((j * (2 * (rounds + 1)) ^ i) • base) := by
  induction winNum with
  | zero => omega
  | succ n ih =>
    rw [List.range_succ, List.flatMap_append, List.flatMap_singleton]
    have hlen := length_flatMap_windowMultiples rounds n base
    rcases Nat.lt_succ_iff_lt_or_eq.mp hi with hin | rfl
    · have hle : (i + 1) * (rounds + 2) ≤ n * (rounds + 2) := Nat.mul_le_mul_right _ hin
      rw [List.getElem?_append_left (by rw [hlen]; linarith), ih hin]
    · rw [List.getElem?_append_right (by rw [hlen]; omega), hlen, Nat.add_sub_cancel, windowMultiples,
        List.getElem?_map, List.getElem?_range hj]
      rfl

variable {w : ℕ}

theorem toInt_one_shiftLeft {n : ℕ} (hn : n ≤ 30) : ((1 : BitVec 32) <<< n).toInt = 2 ^ n := by
  have hlt : 2 ^ n < 2 ^ 31 := Nat.pow_lt_pow_right (by norm_num) (by omega)
  have hone : BitVec.toNat (1 : BitVec 32) = 1 := rfl
  have hval : ((1 : BitVec 32) <<< n).toNat = 2 ^ n := by
    rw [BitVec.toNat_shiftLeft, hone, Nat.shiftLeft_eq, one_mul, Nat.mod_eq_of_lt (by omega)]
  rw [BitVec.toInt_eq_toNat_of_lt (by omega), hval]
  norm_cast

/-- The inner loop is right while its bound fits in an `i32`. -/
theorem precomputeTable_eq (overflowChecks : Bool) (hw : 1 ≤ w) (hw' : w ≤ 31) (base : A) :
    precomputeTable overflowChecks w base =
      .ok ((List.range (253 / w + 1)).flatMap (windowMultiples (2 ^ (w - 1) - 1) base)) := by
  have hbound : i32OneShl overflowChecks (w - 1) = .ok ((1 : BitVec 32) <<< (w - 1)) := if_pos (by omega)
  have hrounds : (((1 : BitVec 32) <<< (w - 1)).toInt - 1).toNat = 2 ^ (w - 1) - 1 := by
    rw [toInt_one_shiftLeft (by omega)]
    have hcast : ((2 ^ (w - 1) : ℕ) : ℤ) = 2 ^ (w - 1) := by norm_cast
    omega
  rw [precomputeTable]
  simp only [hbound, ok_bind, hrounds, pushWindow_iterate]

end Tables

section Loops

variable {A : Type} [AddCommGroup A] {w k n i : ℕ} {G : A} {table : List A}

structure IsTable (w n : ℕ) (G : A) (table : List A) : Prop where
  length_eq : table.length = n * (2 ^ (w - 1) + 1)
  multiple : ∀ i < n, ∀ j ≤ 2 ^ (w - 1), table[j + i * (2 ^ (w - 1) + 1)]? = some ((j * 2 ^ (w * i)) • G)

theorem isTable_precompute (hw : 1 ≤ w) (G : A) :
    IsTable w n G ((List.range n).flatMap (windowMultiples (2 ^ (w - 1) - 1) G)) := by
  have hpos : 0 < 2 ^ (w - 1) := by positivity
  have hrow : 2 ^ (w - 1) - 1 + 2 = 2 ^ (w - 1) + 1 := by omega
  have hbase : 2 * (2 ^ (w - 1) - 1 + 1) = 2 ^ w := by rw [two_pow_half hw]; omega
  constructor
  · rw [length_flatMap_windowMultiples, hrow]
  · intro i hi j hj
    have h := getElem?_flatMap_windowMultiples G hi (show j < 2 ^ (w - 1) - 1 + 2 by omega)
    rwa [hrow, hbase, ← pow_mul] at h

def partialSum (w k : ℕ) (G : A) (i : ℕ) : A := (∑ j ∈ range i, signed w k j * 2 ^ (w * j)) • G

theorem partialSum_succ (w k : ℕ) (G : A) (i : ℕ) :
    partialSum w k G (i + 1) = partialSum w k G i + (signed w k i * 2 ^ (w * i)) • G := by
  rw [partialSum, Finset.sum_range_succ, add_smul, ← partialSum]

theorem partialSum_eq (hk : k < 2 ^ (w * n)) (hc : carry w k n = 0) : partialSum w k G n = k • G := by
  rw [partialSum, sum_signed, hc, Nat.mod_eq_of_lt hk, Nat.cast_zero, zero_mul, sub_zero, natCast_zsmul]

theorem natAbs_smul_of_nonneg (h : 0 ≤ signed w k i) :
    ((signed w k i).natAbs * 2 ^ (w * i)) • G = (signed w k i * 2 ^ (w * i)) • G := by
  rw [← natCast_zsmul]
  push_cast
  rw [abs_of_nonneg h]

theorem neg_natAbs_smul_of_nonpos (h : signed w k i ≤ 0) :
    -(((signed w k i).natAbs * 2 ^ (w * i)) • G) = (signed w k i * 2 ^ (w * i)) • G := by
  rw [← natCast_zsmul, ← neg_smul]
  push_cast
  rw [abs_of_nonpos h, neg_mul, neg_neg]

theorem IsTable.slot_signed (ht : IsTable w n G table) (hw : 1 ≤ w) (hi : i < n) :
    slot table ((signed w k i).natAbs + i * (2 ^ (w - 1) + 1)) =
      .ok (((signed w k i).natAbs * 2 ^ (w * i)) • G) :=
  slot_eq_ok.mpr (ht.multiple i hi _ (natAbs_signed_le hw))

theorem slot_digits (hi : i < n) :
    slot ((List.range n).map fun i ↦ BitVec.ofNat 64 (digit w k i)) i = .ok (BitVec.ofNat 64 (digit w k i)) := by
  rw [slot_eq_ok, List.getElem?_map, List.getElem?_range hi]
  rfl

theorem toNat_digit (hw : w < 64) : (BitVec.ofNat 64 (digit w k i)).toNat = digit w k i := by
  have hlt : 2 ^ w < 2 ^ 64 := Nat.pow_lt_pow_right (by norm_num) hw
  rw [BitVec.toNat_ofNat, Nat.mod_eq_of_lt (digit_lt.trans hlt)]

namespace Committer

theorem collectPoint_spec (hw : 1 ≤ w) (hw' : w < 64) (ht : IsTable w n G table) (hi : i < n)
    (st : List A × ℕ) (hst : st.1.sum = partialSum w k G i ∧ st.2 = carry w k i) :
    Sat (collectPoint w table ((List.range n).map fun i ↦ BitVec.ofNat 64 (digit w k i)) st i) (fun _ ↦ False)
      fun st' ↦ st'.1.sum = partialSum w k G (i + 1) ∧ st'.2 = carry w k (i + 1) := by
  obtain ⟨hsum, hcarry⟩ := hst
  rw [collectPoint]
  simp only [slot_digits hi, ok_bind, toNat_digit hw', hcarry]
  split
  · -- a zero digit is skipped, and there was no carry into it
    rename_i hzero
    have hnot : ¬ 2 ^ (w - 1) < digit w k i + carry w k i := by rw [hzero]; exact Nat.not_lt_zero _
    apply Sat.ok
    rw [partialSum_succ, signed_of_not_carry hnot, hzero, carry, if_neg hnot, hcarry, hsum]
    simp only [Nat.cast_zero, zero_mul, zero_smul, add_zero, true_and]
    omega
  · rename_i hne
    split
    · rename_i hbig
      obtain ⟨habs, hnonpos⟩ := natAbs_signed_of_carry hbig
      have hnext : carry w k (i + 1) = 1 := if_pos hbig
      rw [← habs]
      split
      · rw [ht.slot_signed hw hi, ok_bind]
        apply Sat.ok
        rw [partialSum_succ, ← neg_natAbs_smul_of_nonpos hnonpos, List.sum_append, hsum, hnext]
        simp
      · rename_i h0
        have hs : signed w k i = 0 := Int.natAbs_eq_zero.mp (not_not.mp h0)
        apply Sat.ok
        rw [partialSum_succ, hs, hsum, hnext]
        simp
    · rename_i hsmall
      have hs := signed_of_not_carry hsmall
      have habs : (signed w k i).natAbs = digit w k i + carry w k i := by rw [hs, Int.natAbs_natCast]
      have hnext : carry w k (i + 1) = 0 := if_neg hsmall
      rw [← habs, ht.slot_signed hw hi, ok_bind]
      apply Sat.ok
      rw [partialSum_succ, ← natAbs_smul_of_nonneg (by omega), List.sum_append, hsum, hnext]
      simp

theorem collectPoints_spec (hw : 1 ≤ w) (hw' : w < 64) (ht : IsTable w n G table) :
    ∃ st : List A × ℕ, (List.range n).foldlM
      (collectPoint w table ((List.range n).map fun i ↦ BitVec.ofNat 64 (digit w k i))) ([], 0) = .ok st ∧
      st.1.sum = partialSum w k G n ∧ st.2 = carry w k n := by
  refine (Sat.foldlM_range (fun i st ↦ st.1.sum = partialSum w k G i ∧ st.2 = carry w k i) n ([], 0) ?_ ?_).exists_ok
  · exact ⟨by simp [partialSum], rfl⟩
  · intro i hi st hst
    exact collectPoint_spec hw hw' ht hi st hst

/-- What the pipeline holds while digit `i` is pending. -/
structure Pending (w k : ℕ) (G : A) (i : ℕ) (st : Pipeline A) : Prop where
  result_eq : st.result = partialSum w k G i
  idx_eq : st.idx = (signed w k i).natAbs + i * (2 ^ (w - 1) + 1)
  cNext_eq : st.cNext = carry w k (i + 1)

theorem recode_eq (w k i : ℕ) (offset : ℕ) :
    (if digit w k i + carry w k i ≥ 2 ^ (w - 1) + 1 then (2 ^ w - (digit w k i + carry w k i) + offset, 1)
      else (digit w k i + carry w k i + offset, 0)) =
    ((signed w k i).natAbs + offset, carry w k (i + 1)) := by
  split
  · rename_i h
    have hbig : 2 ^ (w - 1) < digit w k i + carry w k i := h
    rw [(natAbs_signed_of_carry hbig).1, carry, if_pos hbig]
  · rename_i h
    have hnot : ¬ 2 ^ (w - 1) < digit w k i + carry w k i := h
    rw [signed_of_not_carry hnot, carry, if_neg hnot, Int.natAbs_natCast]

theorem prefetch_signed (ht : IsTable w n G table) (hw : 1 ≤ w) (hi : i < n) :
    prefetch table ((signed w k i).natAbs + i * (2 ^ (w - 1) + 1)) = .ok () := by
  have hle := @natAbs_signed_le w k i hw
  have hrow : (i + 1) * (2 ^ (w - 1) + 1) ≤ n * (2 ^ (w - 1) + 1) := Nat.mul_le_mul_right _ hi
  apply if_pos
  rw [ht.length_eq]
  linarith

theorem Pending.add {st : Pipeline A} (hst : Pending w k G i st) (ht : IsTable w n G table) (hw : 1 ≤ w)
    (hi : i < n) : addPending table st.result st.idx st.cNext = .ok (partialSum w k G (i + 1)) := by
  rw [addPending, hst.idx_eq, ht.slot_signed hw hi, ok_bind, hst.result_eq, hst.cNext_eq, partialSum_succ]
  by_cases h : 2 ^ (w - 1) < digit w k i + carry w k i
  · rw [carry, if_pos h, if_pos Nat.one_pos, ← neg_natAbs_smul_of_nonpos (natAbs_signed_of_carry h).2]
  · have hs := signed_of_not_carry h
    rw [carry, if_neg h, if_neg (Nat.not_lt_zero 0), natAbs_smul_of_nonneg (by omega)]

theorem firstPoint_spec (hw : 1 ≤ w) (hw' : w < 64) (ht : IsTable w n G table) (hn : 0 < n) :
    ∃ st, firstPoint w table ((List.range n).map fun i ↦ BitVec.ofNat 64 (digit w k i)) = .ok st ∧
      Pending w k G 0 st := by
  have hprefetch := @prefetch_signed _ _ w k n 0 G table ht hw hn
  rw [Nat.zero_mul, Nat.add_zero] at hprefetch
  have hfirst : (if digit w k 0 ≥ 2 ^ (w - 1) + 1 then (⟨0, 2 ^ w - digit w k 0, 1⟩ : Pipeline A)
      else ⟨0, digit w k 0, 0⟩) = ⟨0, (signed w k 0).natAbs, carry w k 1⟩ := by
    split
    · rename_i h
      have hbig : 2 ^ (w - 1) < digit w k 0 + carry w k 0 := h
      have hnext : carry w k 1 = 1 := if_pos hbig
      rw [(natAbs_signed_of_carry hbig).1, hnext]
      rfl
    · rename_i h
      have hnot : ¬ 2 ^ (w - 1) < digit w k 0 + carry w k 0 := h
      have hnext : carry w k 1 = 0 := if_neg hnot
      rw [signed_of_not_carry hnot, hnext]
      rfl
  refine ⟨⟨0, (signed w k 0).natAbs, carry w k 1⟩, ?_, ⟨by simp [partialSum], by simp, rfl⟩⟩
  rw [firstPoint]
  simp only [slot_digits hn, ok_bind, toNat_digit hw', hfirst, hprefetch]

theorem nextPoint_spec (hw : 1 ≤ w) (hw' : w < 64) (ht : IsTable w n G table) (hi : i + 1 < n)
    {st : Pipeline A} (hst : Pending w k G i st) :
    ∃ st', nextPoint w table ((List.range n).map fun i ↦ BitVec.ofNat 64 (digit w k i)) st (i + 1) = .ok st' ∧
      Pending w k G (i + 1) st' := by
  refine ⟨⟨partialSum w k G (i + 1), (signed w k (i + 1)).natAbs + (i + 1) * (2 ^ (w - 1) + 1),
    carry w k (i + 2)⟩, ?_, ⟨rfl, rfl, rfl⟩⟩
  have hadd := hst.add ht hw (by omega)
  rw [nextPoint]
  simp only [slot_digits hi, ok_bind, toNat_digit hw', hadd]
  rw [hst.cNext_eq, recode_eq, prefetch_signed ht hw hi]
  rfl

theorem pipeline_spec (hw : 1 ≤ w) (hw' : w < 64) (ht : IsTable w (n + 1) G table) {st : Pipeline A}
    (hst : Pending w k G 0 st) :
    ∃ st', (List.range' 1 n).foldlM
      (nextPoint w table ((List.range (n + 1)).map fun i ↦ BitVec.ofNat 64 (digit w k i))) st = .ok st' ∧
      Pending w k G n st' := by
  have hrounds : ∀ m ≤ n, ∃ st', (List.range' 1 m).foldlM
      (nextPoint w table ((List.range (n + 1)).map fun i ↦ BitVec.ofNat 64 (digit w k i))) st = .ok st' ∧
      Pending w k G m st' := by
    intro m
    induction m with
    | zero => exact fun _ ↦ ⟨st, rfl, hst⟩
    | succ m ih =>
      intro hm
      obtain ⟨st', hrun, hpending⟩ := ih (by omega)
      obtain ⟨st'', hnext, hpending'⟩ := nextPoint_spec hw hw' ht (by omega) hpending
      refine ⟨st'', ?_, hpending'⟩
      rw [List.range'_1_concat, List.foldlM_append, hrun, ok_bind, Nat.add_comm 1 m, List.foldlM_cons, hnext]
      rfl
  exact hrounds n (le_refl n)

end Committer

end Loops

section Exactness

variable {A : Type} [AddCommGroup A] {w gI : ℕ} {bases : List A} {G : A} {scalar : List (BitVec 64)}

theorem carry_windows {k : ℕ} (hw : 1 ≤ w) (hk : k < 2 ^ 253) : carry w k (253 / w + 1) = 0 := by
  apply carry_eq_zero
  have htop : digit w k (253 / w) < 2 ^ (253 % w) := digit_lt_of_lt (by rwa [Nat.div_add_mod])
  have hmod : 253 % w ≤ w - 1 := by
    have hlt := Nat.mod_lt 253 hw
    omega
  exact htop.trans_le (Nat.pow_le_pow_right (by norm_num) hmod)

theorem lt_windows {k : ℕ} (hw : 1 ≤ w) (hk : k < 2 ^ 253) : k < 2 ^ (w * (253 / w + 1)) :=
  hk.trans_le (Nat.pow_le_pow_right (by norm_num) (Nat.lt_mul_div_succ 253 hw).le)

theorem new_eq_ok (overflowChecks : Bool) (hw : 1 ≤ w) (hw' : w ≤ 31) (bases : List A) :
    Committer.new overflowChecks bases w = .ok ⟨w, bases.map fun base ↦
      (List.range (253 / w + 1)).flatMap (windowMultiples (2 ^ (w - 1) - 1) base)⟩ := by
  rw [Committer.new, if_neg (by omega),
    mapM_eq_ok bases fun base _ ↦ precomputeTable_eq overflowChecks hw hw' base]
  rfl

/-- What windowed multiplication has to do for a scalar. An index outside of the table is an error, in
both variants. -/
structure MulIndexExact (overflowChecks : Bool) (bases : List A) (w gI : ℕ) (G : A)
    (scalar : List (BitVec 64)) : Prop where
  digits : ∃ digits, calculatePrefetchIndex scalar w = .ok digits ∧
    Nat.ofDigits (2 ^ w) (digits.map BitVec.toNat) = ofLimbs scalar
  product : ∃ committer, Committer.new overflowChecks bases w = .ok committer ∧
    committer.mulIndex scalar gI = .ok (ofLimbs scalar • G) ∧
    committer.mulIndexPrefetching scalar gI = .ok (ofLimbs scalar • G) ∧
    (∃ points, committer.collectPoints scalar gI = .ok (points, 0)) ∧
    ∃ st, committer.pipeline scalar gI = .ok st ∧ st.cNext = 0

theorem digits_recombine (hlen : scalar.length = 4) (hk : ofLimbs scalar < 2 ^ 253) (hw : 1 ≤ w) (hw' : w < 64) :
    ∃ digits, calculatePrefetchIndex scalar w = .ok digits ∧
      Nat.ofDigits (2 ^ w) (digits.map BitVec.toNat) = ofLimbs scalar := by
  refine ⟨_, calculatePrefetchIndex_eq hlen hw hw', ?_⟩
  have hvalues : (BitVec.toNat ∘ fun i ↦ BitVec.ofNat 64 (digit w (ofLimbs scalar) i)) =
      digit w (ofLimbs scalar) := funext fun i ↦ toNat_digit hw'
  rw [List.map_map, hvalues]
  exact ofDigits_digit (lt_windows hw hk)

theorem mulIndexExact_of_le (overflowChecks : Bool) (hw : 1 ≤ w) (hw' : w ≤ 31) (hG : bases[gI]? = some G)
    (hlen : scalar.length = 4) (hk : ofLimbs scalar < 2 ^ 253) :
    MulIndexExact overflowChecks bases w gI G scalar := by
  refine ⟨digits_recombine hlen hk hw (by omega), ?_⟩
  have ht := @isTable_precompute _ _ w (253 / w + 1) hw G
  have hchunks := calculatePrefetchIndex_eq hlen hw (show w < 64 by omega)
  have hcarry := carry_windows hw hk
  have hsum : partialSum w (ofLimbs scalar) G (253 / w + 1) = ofLimbs scalar • G :=
    partialSum_eq (lt_windows hw hk) hcarry
  have htable : slot (bases.map fun base ↦
      (List.range (253 / w + 1)).flatMap (windowMultiples (2 ^ (w - 1) - 1) base)) gI =
      .ok ((List.range (253 / w + 1)).flatMap (windowMultiples (2 ^ (w - 1) - 1) G)) := by
    rw [slot_eq_ok, List.getElem?_map, hG]
    rfl
  obtain ⟨points, hpoints, hpsum, hpcarry⟩ :=
    @Committer.collectPoints_spec _ _ w (ofLimbs scalar) _ G _ hw (by omega) ht
  obtain ⟨st₀, hfirst, hpending₀⟩ :=
    @Committer.firstPoint_spec _ _ w (ofLimbs scalar) _ G _ hw (by omega) ht (Nat.succ_pos _)
  obtain ⟨st, hrun, hpending⟩ := Committer.pipeline_spec hw (by omega) ht hpending₀
  refine ⟨_, new_eq_ok overflowChecks hw hw' bases, ?_⟩
  have hcollect : Committer.collectPoints ⟨w, bases.map fun base ↦
      (List.range (253 / w + 1)).flatMap (windowMultiples (2 ^ (w - 1) - 1) base)⟩ scalar gI = .ok points := by
    rw [Committer.collectPoints]
    simp only [hchunks, htable, ok_bind, List.length_map, List.length_range, hpoints]
  have hpipeline : Committer.pipeline ⟨w, bases.map fun base ↦
      (List.range (253 / w + 1)).flatMap (windowMultiples (2 ^ (w - 1) - 1) base)⟩ scalar gI = .ok st := by
    rw [Committer.pipeline]
    simp only [hchunks, htable, ok_bind, List.length_map, List.length_range, hfirst, Nat.add_sub_cancel, hrun]
  refine ⟨?_, ?_, ⟨points.1, ?_⟩, st, hpipeline, ?_⟩
  · rw [Committer.mulIndex, hcollect, ok_bind, ← List.sum_eq_foldl, hpsum, hsum]
  · rw [Committer.mulIndexPrefetching, hpipeline, ok_bind, htable, ok_bind,
      hpending.add ht hw (Nat.lt_succ_self _), hsum]
  · rw [hcollect, ← hcarry, ← hpcarry]
  · rw [hpending.cNext_eq, hcarry]

theorem precomputeTable_short {overflowChecks : Bool} (hw : 32 ≤ w) (hw' : w ≤ 63) {base : A} {table : List A}
    (h : precomputeTable overflowChecks w base = .ok table) : table.length < 2 ^ (w - 1) := by
  obtain ⟨bound, hbound, htable⟩ := ok_of_bind h
  cases htable
  have hrounds : (bound.toInt - 1).toNat + 1 ≤ 2 ^ (w - 33) := by
    rw [i32OneShl] at hbound
    split at hbound
    · cases hbound
      obtain rfl : w = 32 := by omega
      decide
    · split at hbound
      · cases hbound
      · cases hbound
        rw [show (w - 1) % 32 = w - 33 by omega, toInt_one_shiftLeft (by omega)]
        have hcast : ((2 ^ (w - 33) : ℕ) : ℤ) = 2 ^ (w - 33) := by norm_cast
        have hpos : 0 < 2 ^ (w - 33) := by positivity
        omega
  have hwin : 253 / w ≤ 7 := Nat.lt_succ_iff.mp (Nat.div_lt_of_lt_mul (by omega))
  have hpow : 2 ^ 31 * 2 ^ (w - 33) ≤ 2 ^ (w - 1) := by
    rw [← pow_add]
    exact Nat.pow_le_pow_right (by norm_num) (by omega)
  rw [pushWindow_iterate, length_flatMap_windowMultiples]
  calc (253 / w + 1) * ((bound.toInt - 1).toNat + 2) ≤ 8 * (2 ^ (w - 33) + 1) :=
        Nat.mul_le_mul (by omega) (by omega)
    _ < 2 ^ 31 * 2 ^ (w - 33) := by
      have hpos : 0 < 2 ^ (w - 33) := by positivity
      omega
    _ ≤ 2 ^ (w - 1) := hpow

theorem collectPoints_short {committer : Committer A} {table : List A} (hw : 1 ≤ committer.windowSize)
    (hw' : committer.windowSize < 64) (htable : slot committer.tables gI = .ok table)
    (hshort : table.length < 2 ^ (committer.windowSize - 1)) (hlen : scalar.length = 4)
    (hk : ofLimbs scalar = 2 ^ (committer.windowSize - 1)) :
    committer.collectPoints scalar gI = .error .indexOutOfRange := by
  have hdigit : digit committer.windowSize (ofLimbs scalar) 0 = 2 ^ (committer.windowSize - 1) := by
    rw [digit, hk, Nat.mul_zero, pow_zero, Nat.div_one, Nat.mod_eq_of_lt]
    exact Nat.pow_lt_pow_right (by norm_num) (by omega)
  have hpos : 0 < 2 ^ (committer.windowSize - 1) := by positivity
  have hslot : slot table (2 ^ (committer.windowSize - 1)) = .error .indexOutOfRange := by
    rw [slot, List.getElem?_eq_none hshort.le]
  have hstep : Committer.collectPoint committer.windowSize table
      ((List.range (253 / committer.windowSize + 1)).map fun i ↦
        BitVec.ofNat 64 (digit committer.windowSize (ofLimbs scalar) i)) ([], 0) 0 =
      .error .indexOutOfRange := by
    rw [Committer.collectPoint]
    simp only [slot_digits (Nat.succ_pos _), ok_bind, toNat_digit hw', Nat.add_zero, Nat.zero_mul]
    rw [hdigit]
    rw [if_neg hpos.ne', if_neg (lt_irrefl _), hslot]
    rfl
  rw [Committer.collectPoints]
  simp only [calculatePrefetchIndex_eq hlen hw hw', htable, ok_bind, List.length_map, List.length_range]
  rw [List.range_succ_eq_map, List.foldlM_cons, ← List.range_succ_eq_map, hstep]
  rfl

theorem slot_tables {overflowChecks : Bool} {committer : Committer A}
    (hnew : Committer.new overflowChecks bases w = .ok committer) (hG : bases[gI]? = some G) :
    committer.windowSize = w ∧ ∃ table, slot committer.tables gI = .ok table ∧
      precomputeTable overflowChecks w G = .ok table := by
  rw [Committer.new] at hnew
  split at hnew
  · cases hnew
  · obtain ⟨tables, htables, hnew⟩ := ok_of_bind hnew
    cases hnew
    obtain ⟨table, htable, hprecompute⟩ := mapM_getElem? htables hG
    exact ⟨rfl, table, slot_eq_ok.mpr htable, hprecompute⟩

/-- The table and both variants of the multiplication are exact for every window size that leaves the
bound of the inner loop in the range of `i32`, and for no larger one. -/
theorem mul_index_exact_iff (overflowChecks : Bool) (hw : 1 ≤ w) (hw' : w ≤ 63) (hG : bases[gI]? = some G) :
    (∀ scalar : List (BitVec 64), scalar.length = 4 → ofLimbs scalar < 2 ^ 253 →
      MulIndexExact overflowChecks bases w gI G scalar) ↔ w ≤ 31 := by
  constructor
  · intro hexact
    by_contra hbig
    have hpow : 2 ^ (w - 1) < 2 ^ 253 := Nat.pow_lt_pow_right (by norm_num) (by omega)
    have hk : ofLimbs (toLimbs 64 4 (2 ^ (w - 1))) = 2 ^ (w - 1) :=
      ofLimbs_toLimbs (hpow.trans (by norm_num))
    obtain ⟨-, committer, hnew, -, -, ⟨points, hpoints⟩, -⟩ :=
      hexact _ (length_toLimbs 4 _) (by rw [hk]; exact hpow)
    obtain ⟨rfl, table, htable, hprecompute⟩ := slot_tables hnew hG
    have hshort := precomputeTable_short (by omega) hw' hprecompute
    rw [collectPoints_short hw (by omega) htable hshort (length_toLimbs 4 _) hk] at hpoints
    cases hpoints
  · intro hle scalar hlen hk
    exact mulIndexExact_of_le overflowChecks hw hle hG hlen hk

theorem mul_index_exact_iff_eleven : ([1, 7] : List ℤ)[1]? = some 7 ∧
    ((∀ scalar : List (BitVec 64), scalar.length = 4 → ofLimbs scalar < 2 ^ 253 →
      MulIndexExact false ([1, 7] : List ℤ) 11 1 7 scalar) ↔ 11 ≤ 31) :=
  ⟨rfl, mul_index_exact_iff false (by norm_num) (by norm_num) rfl⟩

/-- With windows of 32 bits a window of the table has two entries, and twice the base comes out as the
identity, in a build with overflow checks as in one without. -/
theorem mul_index_wide_window : ¬ MulIndexExact true [(1 : ℤ)] 32 0 1 (toLimbs 64 4 2) ∧
    ¬ MulIndexExact false [(1 : ℤ)] 32 0 1 (toLimbs 64 4 2) := by
  have hwrong : ∀ checks, ¬ MulIndexExact checks [(1 : ℤ)] 32 0 1 (toLimbs 64 4 2) := by
    rintro checks ⟨-, committer, hnew, hmul, -⟩
    have hnew' : Committer.new checks [(1 : ℤ)] 32 =
        .ok ⟨32, [[0, 1, 0, 2, 0, 4, 0, 8, 0, 16, 0, 32, 0, 64, 0, 128]]⟩ := rfl
    rw [hnew'] at hnew
    cases hnew
    have hzero : Committer.mulIndex ⟨32, [[0, 1, 0, 2, 0, 4, 0, 8, 0, 16, 0, 32, 0, 64, 0, 128]]⟩
        (toLimbs 64 4 2) 0 = .ok (0 : ℤ) := rfl
    rw [hzero] at hmul
    have hne : (0 : ℤ) ≠ ofLimbs (toLimbs 64 4 2) • 1 := by decide
    exact hne (Except.ok.inj hmul)
  exact ⟨hwrong true, hwrong false⟩

end Exactness

end Salt.Banderwagon
