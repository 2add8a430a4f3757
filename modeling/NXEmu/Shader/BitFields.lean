/-
# Bit fields of words

The functions that the folds evaluate against the meaning of the operations, and the arithmetic of
products made of halves of words.
-/

import NXEmu.Shader.ConstantPropagation
import NXEmu.Shader.Semantics
import Mathlib.Algebra.Group.Nat.Defs
import Mathlib.Data.BitVec
import Mathlib.Tactic.Ring

namespace NXEmu
namespace Shader

/-! ### Extraction -/

/-- The low bits of a word from `offset` on, as the code computes them. -/
theorem ushiftRight_and_eq (base : BitVec 32) (offset : ℕ) {count : ℕ} (hc : count ≤ 32) :
    (base >>> offset) &&& (~~~0#32 >>> (32 - count)) = (base.extractLsb' offset count).setWidth 32 := by
  refine BitVec.eq_of_getLsbD_eq fun k hk => ?_
  rw [BitVec.getLsbD_and, BitVec.getLsbD_ushiftRight, BitVec.getLsbD_ushiftRight,
    BitVec.getLsbD_not, BitVec.getLsbD_zero, BitVec.getLsbD_setWidth, BitVec.getLsbD_extractLsb']
  by_cases h : k < count
  · simp [hk, h, show 32 - count + k < 32 by omega]
  · simp [hk, h, show ¬ 32 - count + k < 32 by omega]

/-- Flipping the sign bit of a field and subtracting it extends the sign. -/
theorem xor_sub_eq_signExtend {n : ℕ} (hn : n < 32) (y : BitVec (n + 1)) :
    (y.setWidth 32 ^^^ 1#32 <<< n) - 1#32 <<< n = y.signExtend 32 := by
  have ht : (1#32 <<< n).toNat = 2 ^ n := by
    rw [← BitVec.twoPow_eq, BitVec.toNat_twoPow_of_lt hn]
  have hbit : ∀ k, (1#32 <<< n).getLsbD k = decide (n = k) := fun k => by
    rw [← BitVec.twoPow_eq, BitVec.getLsbD_twoPow]
    simp [hn]
  have hmsb : y.msb = y.getLsbD n := by simp [BitVec.msb_eq_getLsbD_last]
  have hsign : (y.setWidth 32).getLsbD n = y.getLsbD n := by simp [hn]
  cases hy : y.msb with
  | false =>
    rw [hmsb] at hy
    have hand : y.setWidth 32 &&& 1#32 <<< n = 0#32 := by
      refine BitVec.eq_of_getLsbD_eq fun k hk => ?_
      rw [BitVec.getLsbD_and, hbit, BitVec.getLsbD_zero]
      by_cases h : n = k
      · subst h
        rw [hsign, hy, Bool.false_and]
      · rw [decide_eq_false h, Bool.and_false]
    have hxor : y.setWidth 32 ^^^ 1#32 <<< n = y.setWidth 32 + 1#32 <<< n := by
      rw [BitVec.add_eq_or_of_and_eq_zero _ _ hand]
      refine BitVec.eq_of_getLsbD_eq fun k hk => ?_
      have h := congrArg (fun x : BitVec 32 => x.getLsbD k) hand
      simp only [BitVec.getLsbD_and, BitVec.getLsbD_zero] at h
      rw [BitVec.getLsbD_xor, BitVec.getLsbD_or]
      cases h1 : (y.setWidth 32).getLsbD k <;> cases h2 : (1#32 <<< n).getLsbD k <;> simp [h1, h2] at h ⊢
    rw [hxor, BitVec.add_sub_cancel, BitVec.signExtend_eq_setWidth_of_msb_false (hmsb.trans hy)]
  | true =>
    have hy' := hmsb.symm.trans hy
    have hxor : (y.setWidth 32 ^^^ 1#32 <<< n) + 1#32 <<< n = y.setWidth 32 := by
      rw [BitVec.add_eq_or_of_and_eq_zero]
      · refine BitVec.eq_of_getLsbD_eq fun k hk => ?_
        rw [BitVec.getLsbD_or, BitVec.getLsbD_xor, hbit]
        by_cases h : n = k
        · subst h
          rw [hsign, hy']
          simp
        · simp [h]
      · refine BitVec.eq_of_getLsbD_eq fun k hk => ?_
        rw [BitVec.getLsbD_and, BitVec.getLsbD_xor, hbit, BitVec.getLsbD_zero]
        by_cases h : n = k
        · subst h
          rw [hsign, hy']
          simp
        · simp [h]
    have hsum := congrArg BitVec.toNat hxor
    rw [BitVec.toNat_add, ht, BitVec.toNat_setWidth] at hsum
    have hylt := y.isLt
    have hpow : 2 ^ (n + 1) ≤ 2 ^ 32 := Nat.pow_le_pow_right (by decide) hn
    have hhigh : 2 ^ n ≤ y.toNat := Nat.ge_two_pow_of_testBit hy'
    have hxlt := (y.setWidth 32 ^^^ 1#32 <<< n).isLt
    refine BitVec.eq_of_toNat_eq ?_
    rw [BitVec.toNat_signExtend, hy, if_pos rfl, BitVec.toNat_sub, ht, BitVec.toNat_setWidth]
    have hdbl : 2 ^ (n + 1) = 2 * 2 ^ n := by rw [pow_succ, mul_comm]
    omega

/-- **`BitFieldUExtract` and `BitFieldSExtract` are folded to the field** that they mean. -/
theorem bitFieldExtractImm_eq (isSigned : Bool) (base : BitVec 32) {shift count : BitVec 32}
    (h : shift.toNat + count.toNat ≤ 32) :
    bitFieldExtractImm isSigned base shift count = .ret (bitField isSigned base shift.toNat count.toNat) true := by
  have h32 : (32 - count).toNat = 32 - count.toNat := by bv_omega
  have hdef : ¬(shift > 32 ∨ count > 32 - shift) := by bv_omega
  rw [bitFieldExtractImm, if_neg hdef]
  by_cases hc : count = 0
  · subst hc
    rw [if_pos rfl, Exec.pure_eq]
    congr 1
    have hw : ∀ y : BitVec 0, (if isSigned then y.signExtend 32 else y.setWidth 32) = 0#32 :=
      fun y => by
        rw [BitVec.eq_nil y]
        cases isSigned <;> rfl
    exact (hw _).symm
  · have hpos : count.toNat ≠ 0 := fun h0 => hc (BitVec.eq_of_toNat_eq (by simpa using h0))
    rw [if_neg hc, h32, ushiftRight_and_eq base _ (by omega)]
    cases isSigned with
    | false => rfl
    | true =>
      have h1 : (count - 1).toNat = count.toNat - 1 := by bv_omega
      obtain ⟨n, hn⟩ := Nat.exists_eq_succ_of_ne_zero hpos
      rw [h1]
      simp only [bitField, Bool.not_true, Bool.false_eq_true, ↓reduceIte, Exec.pure_eq]
      rw [hn, Nat.succ_sub_one, xor_sub_eq_signExtend (by omega)]

/-! ### Insertion -/

/-- When the fold of `BitFieldInsert` gives the word with the new field: the field is smaller than a
word, starts inside it, and the bits of `insert` above the field are all set in `base` already. -/
def InsertFits (base insert offset bits : BitVec 32) : Prop :=
  bits.toNat < 32 ∧ offset.toNat < 32 ∧ ∀ k, bits.toNat ≤ k → offset.toNat + k < 32 →
    insert.getLsbD k = true → base.getLsbD (offset.toNat + k) = true

theorem getLsbD_mask {count offset k : ℕ} (hk : k < 32) :
    ((BitVec.allOnes count).setWidth 32 <<< offset).getLsbD k = decide (offset ≤ k ∧ k < offset + count) := by
  rw [BitVec.getLsbD_shiftLeft, BitVec.getLsbD_setWidth, BitVec.getLsbD_allOnes]
  by_cases h : k < offset
  · simp [h, show ¬offset ≤ k by omega]
  · simp only [hk, h, show offset ≤ k by omega, show k - offset < 32 by omega, decide_true,
      decide_false, Bool.not_false, Bool.true_and, true_and]
    exact decide_eq_decide.2 (by omega)

theorem not_allOnes_shiftLeft {bits : ℕ} (h : bits < 32) :
    ~~~(~~~0#32 <<< bits) = (BitVec.allOnes bits).setWidth 32 := by
  refine BitVec.eq_of_getLsbD_eq fun k hk => ?_
  rw [BitVec.getLsbD_not, BitVec.getLsbD_shiftLeft, BitVec.getLsbD_not, BitVec.getLsbD_setWidth,
    BitVec.getLsbD_allOnes, BitVec.getLsbD_zero]
  by_cases hkb : k < bits
  · simp [hk, hkb]
  · simp [hk, hkb, show k - bits < 32 by omega]

/-- The word with the new field, bit by bit. -/
theorem getLsbD_withBitField (base insert : BitVec 32) {offset count k : ℕ} (hk : k < 32) :
    (withBitField base insert offset count).getLsbD k =
      if offset ≤ k ∧ k < offset + count then insert.getLsbD (k - offset) else base.getLsbD k := by
  simp only [withBitField]
  rw [BitVec.getLsbD_or, BitVec.getLsbD_and, BitVec.getLsbD_and, BitVec.getLsbD_not,
    getLsbD_mask hk, BitVec.getLsbD_shiftLeft]
  by_cases h : offset ≤ k ∧ k < offset + count
  · simp [h, hk, show ¬k < offset by omega]
  · simp [h, hk]

/-- **`BitFieldInsert` is folded to the word with the new field** if and only if that fits; otherwise
the fold throws or sets other bits. -/
theorem bitFieldInsertImm_eq_iff (base insert offset bits : BitVec 32) :
    bitFieldInsertImm base insert offset bits = .ret (withBitField base insert offset.toNat bits.toNat) true ↔
      InsertFits base insert offset bits := by
  rw [bitFieldInsertImm]
  by_cases hdef : bits ≥ 32 ∨ offset ≥ 32
  · rw [if_pos hdef]
    refine iff_of_false (fun h => by cases h) fun h => ?_
    have h1 := h.1
    have h2 := h.2.1
    bv_omega
  have hbits : bits.toNat < 32 := by bv_omega
  have hoffset : offset.toNat < 32 := by bv_omega
  rw [if_neg hdef, not_allOnes_shiftLeft hbits, Exec.pure_eq, Exec.ret.injEq, and_iff_left rfl]
  constructor
  · intro h
    refine ⟨hbits, hoffset, fun k hk hok hins => ?_⟩
    have hbit := congrArg (fun x : BitVec 32 => x.getLsbD (offset.toNat + k)) h
    rw [getLsbD_withBitField _ _ hok, if_neg (by omega), BitVec.getLsbD_or, BitVec.getLsbD_shiftLeft,
      show offset.toNat + k - offset.toNat = k by omega, hins] at hbit
    simpa [hok] using hbit.symm
  · rintro ⟨-, -, h⟩
    refine BitVec.eq_of_getLsbD_eq fun k hk => ?_
    rw [getLsbD_withBitField _ _ hk, BitVec.getLsbD_or, BitVec.getLsbD_and, BitVec.getLsbD_not,
      getLsbD_mask hk, BitVec.getLsbD_shiftLeft]
    by_cases hlow : k < offset.toNat
    · simp [hk, hlow, show ¬offset.toNat ≤ k by omega]
    by_cases hin : k < offset.toNat + bits.toNat
    · simp [hk, hlow, hin, show offset.toNat ≤ k by omega]
    · have hk' := h (k - offset.toNat) (by omega) (by omega)
      rw [show offset.toNat + (k - offset.toNat) = k by omega] at hk'
      cases hb : base.getLsbD k with
      | true => simp [hk, hin]
      | false =>
        cases hi : insert.getLsbD (k - offset.toNat) with
        | true => exact absurd (hk' hi) (by rw [hb]; decide)
        | false => simp [hk, hin]

/-! ### Products of halves -/

/-- The low half of a word. -/
abbrev lowHalf (x : BitVec 32) : BitVec 32 := bitField false x 0 16

/-- The high half of a word. -/
abbrev highHalf (x : BitVec 32) : BitVec 32 := bitField false x 16 16

/-- A word is made of its halves. -/
theorem halves_eq (x : BitVec 32) : highHalf x * 65536#32 + lowHalf x = x := by
  have hl : (lowHalf x).toNat = x.toNat % 65536 := by
    simp [bitField, BitVec.extractLsb'_toNat]
    omega
  have hh : (highHalf x).toNat = x.toNat / 65536 := by
    simp [bitField, BitVec.extractLsb'_toNat, Nat.shiftRight_eq_div_pow]
    omega
  refine BitVec.eq_of_toNat_eq ?_
  rw [BitVec.toNat_add, BitVec.toNat_mul, hl, hh]
  have := x.isLt
  simp only [BitVec.toNat_ofNat]
  omega

theorem shiftLeft_half (x : BitVec 32) : x <<< 16 = x * 65536#32 := by
  rw [BitVec.shiftLeft_eq_mul_twoPow]
  rfl

/-- The pattern of two multiplications. -/
theorem mul_halves (a b : BitVec 32) : (highHalf a * b) <<< 16 + lowHalf a * b = a * b := by
  rw [shiftLeft_half]
  conv_rhs => rw [← halves_eq a]
  ring

/-- A word with another high half, shifted up. -/
theorem withBitField_shiftLeft (x y : BitVec 32) : withBitField x y 16 16 <<< 16 = x <<< 16 := by
  refine BitVec.eq_of_getLsbD_eq fun k hk => ?_
  rw [BitVec.getLsbD_shiftLeft, BitVec.getLsbD_shiftLeft]
  by_cases h : k < 16
  · simp [h]
  · rw [getLsbD_withBitField _ _ (by omega), if_neg (by omega)]

/-- The high half that has been put into a word. -/
theorem highHalf_withBitField (x y : BitVec 32) :
    highHalf (withBitField x (lowHalf y) 16 16) = lowHalf y := by
  refine BitVec.eq_of_getLsbD_eq fun k hk => ?_
  have hbit : ∀ z : BitVec 32, ∀ o, (bitField false z o 16).getLsbD k =
      (decide (k < 16) && z.getLsbD (o + k)) := fun z o => by
    simp [bitField, hk]
  rw [hbit]
  by_cases h : k < 16
  · rw [getLsbD_withBitField _ _ (by omega), if_pos (by omega)]
    simp [h]
  · rw [hbit]
    simp [h]

/-- **The pattern of a multiplication and an addition**, made of halves. -/
theorem mul_add_halves (a b c : BitVec 32) :
    (highHalf b * highHalf (withBitField (lowHalf b * highHalf a) (lowHalf a) 16 16)) <<< 16 +
        (withBitField (lowHalf b * highHalf a) (lowHalf a) 16 16 <<< 16 +
          (lowHalf b * lowHalf a + c)) = a * b + c := by
  rw [highHalf_withBitField, withBitField_shiftLeft, shiftLeft_half, shiftLeft_half]
  have hsq : highHalf a * highHalf b * (65536#32 * 65536#32) = 0 := by
    rw [show 65536#32 * 65536#32 = 0 by decide, mul_zero]
  calc highHalf b * lowHalf a * 65536#32 + (lowHalf b * highHalf a * 65536#32 + (lowHalf b * lowHalf a + c))
      = (highHalf a * 65536#32 + lowHalf a) * (highHalf b * 65536#32 + lowHalf b) + c -
          highHalf a * highHalf b * (65536#32 * 65536#32) := by ring
    _ = a * b + c := by rw [halves_eq, halves_eq, hsq, sub_zero]

end Shader
end NXEmu
