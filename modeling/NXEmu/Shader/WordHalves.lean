/-
# The halves of 64-bit words

A 64-bit word is lowered to the pair of its low and its high word.  Sums, differences and negations
carry one bit from the low word to the high one; shifts move a field of one word into the other, or,
from the width of a word on, a whole word into the place of the other.
-/

import NXEmu.Shader.BitFields

variable {k s : ℕ}

namespace NXEmu
namespace Shader

open BitVec

/-- The low half, `static_cast<u32>(value)`. -/
def lowWord (x : BitVec 64) : BitVec 32 := x.setWidth 32

/-- The high half, `static_cast<u32>(value >> 32)`. -/
def highWord (x : BitVec 64) : BitVec 32 := (x >>> 32).setWidth 32

theorem toNat_lowWord (x : BitVec 64) : (lowWord x).toNat = x.toNat % 2 ^ 32 := by
  simp [lowWord]

theorem toNat_highWord (x : BitVec 64) : (highWord x).toNat = x.toNat / 2 ^ 32 := by
  have hx := x.isLt
  rw [highWord, toNat_setWidth, toNat_ushiftRight, Nat.shiftRight_eq_div_pow]
  omega

/-! ### Sums -/

theorem lowWord_add (x y : BitVec 64) : lowWord (x + y) = lowWord x + lowWord y := by
  refine eq_of_toNat_eq ?_
  rw [toNat_lowWord, toNat_add, toNat_add, toNat_lowWord, toNat_lowWord]
  omega

/-- The carry is the one of the low words. -/
theorem highWord_add (x y : BitVec 64) : highWord (x + y) =
    highWord x + highWord y + if (lowWord x).uaddOverflow (lowWord y) then 1#32 else 0#32 := by
  have hx := x.isLt
  have hy := y.isLt
  refine eq_of_toNat_eq ?_
  by_cases h : (lowWord x).toNat + (lowWord y).toNat ≥ 2 ^ 32
  · rw [if_pos (by simpa [uaddOverflow] using h), toNat_highWord, toNat_add,
      toNat_add, toNat_add, toNat_highWord, toNat_highWord]
    rw [toNat_lowWord, toNat_lowWord] at h
    simp only [toNat_ofNat]
    omega
  · rw [if_neg (by simpa [uaddOverflow] using h), toNat_highWord, toNat_add,
      toNat_add, toNat_add, toNat_highWord, toNat_highWord]
    rw [toNat_lowWord, toNat_lowWord] at h
    simp only [toNat_ofNat]
    omega

theorem lowWord_sub (x y : BitVec 64) : lowWord (x - y) = lowWord x - lowWord y := by
  have hy := y.isLt
  refine eq_of_toNat_eq ?_
  rw [toNat_lowWord, toNat_sub, toNat_sub, toNat_lowWord, toNat_lowWord]
  omega

/-- The low words borrow when their difference is above the first one. -/
theorem highWord_sub (x y : BitVec 64) : highWord (x - y) =
    highWord x - highWord y - if (lowWord x - lowWord y).toNat > (lowWord x).toNat then 1#32 else 0#32 := by
  have hx := x.isLt
  have hy := y.isLt
  have hd : (lowWord x - lowWord y).toNat = (2 ^ 32 - y.toNat % 2 ^ 32 + x.toNat % 2 ^ 32) % 2 ^ 32 := by
    rw [toNat_sub, toNat_lowWord, toNat_lowWord]
  refine eq_of_toNat_eq ?_
  split
  · next h =>
    rw [hd, toNat_lowWord] at h
    simp only [toNat_highWord, toNat_sub, toNat_ofNat]
    omega
  · next h =>
    rw [hd, toNat_lowWord] at h
    simp only [toNat_highWord, toNat_sub, toNat_ofNat]
    omega

theorem lowWord_neg (x : BitVec 64) : lowWord (-x) = ~~~lowWord x + 1#32 := by
  have hx := x.isLt
  refine eq_of_toNat_eq ?_
  simp only [toNat_lowWord, toNat_neg, toNat_add, toNat_not, toNat_ofNat]
  omega

/-- Adding one to the complement carries out of a low word of zero only. -/
theorem highWord_neg (x : BitVec 64) :
    highWord (-x) = ~~~highWord x + if (~~~lowWord x).uaddOverflow 1#32 then 1#32 else 0#32 := by
  have hx := x.isLt
  refine eq_of_toNat_eq ?_
  by_cases h : x.toNat % 2 ^ 32 = 0
  · have hc : (~~~lowWord x).uaddOverflow 1#32 = true := by
      simp [uaddOverflow, toNat_lowWord]
      omega
    rw [hc]
    simp only [if_true, toNat_highWord, toNat_neg, toNat_add, toNat_not, toNat_ofNat]
    omega
  · have hc : (~~~lowWord x).uaddOverflow 1#32 = false := by
      simp [uaddOverflow, toNat_lowWord]
      omega
    rw [hc]
    simp only [Bool.false_eq_true, if_false, toNat_highWord, toNat_neg, toNat_add, toNat_not, toNat_ofNat]
    omega

/-! ### Bits -/

theorem getLsbD_lowWord (x : BitVec 64) (hk : k < 32) :
    (lowWord x).getLsbD k = x.getLsbD k := by
  simp [lowWord, hk]

theorem getLsbD_highWord (x : BitVec 64) (hk : k < 32) :
    (highWord x).getLsbD k = x.getLsbD (32 + k) := by
  simp [highWord, hk]

theorem getLsbD_bitField (base : BitVec 32) (offset count : ℕ) (hk : k < 32) :
    (bitField false base offset count).getLsbD k = (decide (k < count) && base.getLsbD (offset + k)) := by
  simp [bitField, hk]

/-! ### Shifts to the left -/

section

variable (x : BitVec 64)

theorem lowWord_shiftLeft (s : ℕ) : lowWord (x <<< s) = lowWord x <<< s := by
  refine eq_of_getLsbD_eq fun k hk => ?_
  rw [getLsbD_lowWord _ hk, getLsbD_shiftLeft, getLsbD_shiftLeft]
  by_cases h : k < s
  · simp [h]
  · rw [getLsbD_lowWord _ (by omega)]
    simp [hk, h, show k < 64 by omega]

/-- A shift by less than a word takes a field of the low word over. -/
theorem highWord_shiftLeft_short (hs : s < 32) :
    highWord (x <<< s) = highWord x <<< s ||| bitField false (lowWord x) (32 - s) s := by
  refine eq_of_getLsbD_eq fun k hk => ?_
  rw [getLsbD_highWord _ hk, getLsbD_shiftLeft, getLsbD_or, getLsbD_shiftLeft, getLsbD_bitField _ _ _ hk]
  by_cases h : k < s
  · rw [getLsbD_lowWord _ (by omega), show 32 + k - s = 32 - s + k by omega]
    simp [h, show 32 + k < 64 by omega, show ¬32 + k < s by omega]
  · rw [getLsbD_highWord _ (by omega), show 32 + k - s = 32 + (k - s) by omega]
    simp [h, hk, show 32 + k < 64 by omega, show ¬32 + k < s by omega]

theorem highWord_shiftLeft_long (hs : 32 ≤ s) :
    highWord (x <<< s) = lowWord x <<< (s - 32) := by
  refine eq_of_getLsbD_eq fun k hk => ?_
  rw [getLsbD_highWord _ hk, getLsbD_shiftLeft, getLsbD_shiftLeft]
  by_cases h : k < s - 32
  · simp [h, show 32 + k < s by omega]
  · rw [getLsbD_lowWord _ (by omega), show k - (s - 32) = 32 + k - s by omega]
    simp [h, hk, show 32 + k < 64 by omega, show ¬32 + k < s by omega]

theorem lowWord_shiftLeft_long (hs : 32 ≤ s) :
    lowWord (x <<< s) = 0#32 := by
  rw [lowWord_shiftLeft]
  exact shiftLeft_eq_zero hs

/-! ### Shifts to the right -/

theorem highWord_ushiftRight (s : ℕ) :
    highWord (x >>> s) = highWord x >>> s := by
  refine eq_of_getLsbD_eq fun k hk => ?_
  rw [getLsbD_highWord _ hk, getLsbD_ushiftRight, getLsbD_ushiftRight]
  by_cases h : s + k < 32
  · rw [getLsbD_highWord _ h]
    congr 1
    omega
  · rw [getLsbD_of_ge _ (s + k) (by omega), getLsbD_of_ge x _ (by omega)]

/-- A shift by less than a word puts a field of the high word on top of the low one. -/
theorem lowWord_ushiftRight_short (hs : s < 32) :
    lowWord (x >>> s) = withBitField (lowWord x >>> s) (bitField false (highWord x) 0 s) (32 - s) s := by
  refine eq_of_getLsbD_eq fun k hk => ?_
  rw [getLsbD_lowWord _ hk, getLsbD_withBitField _ _ hk, getLsbD_ushiftRight]
  by_cases h : 32 - s ≤ k
  · rw [if_pos ⟨h, by omega⟩, getLsbD_bitField _ _ _ (by omega), getLsbD_highWord _ (by omega)]
    simp [show k - (32 - s) < s by omega, show 32 + (k - (32 - s)) = s + k by omega]
  · rw [if_neg (by omega), getLsbD_ushiftRight, getLsbD_lowWord _ (by omega)]

theorem lowWord_ushiftRight_long (hs : 32 ≤ s) :
    lowWord (x >>> s) = highWord x >>> (s - 32) := by
  refine eq_of_getLsbD_eq fun k hk => ?_
  rw [getLsbD_lowWord _ hk, getLsbD_ushiftRight, getLsbD_ushiftRight]
  by_cases h : s - 32 + k < 32
  · rw [getLsbD_highWord _ h]
    congr 1
    omega
  · rw [getLsbD_of_ge _ (s - 32 + k) (by omega), getLsbD_of_ge x _ (by omega)]

theorem highWord_ushiftRight_long (hs : 32 ≤ s) :
    highWord (x >>> s) = 0#32 := by
  rw [highWord_ushiftRight]
  exact ushiftRight_eq_zero hs

theorem msb_highWord : (highWord x).msb = x.msb := by
  rw [msb_eq_getLsbD_last, msb_eq_getLsbD_last, getLsbD_highWord _ (by omega)]

end

theorem getLsbD_sshiftRight_of_lt {w k : ℕ} (x : BitVec w) (s : ℕ) (hk : k < w) :
    (x.sshiftRight s).getLsbD k = if s + k < w then x.getLsbD (s + k) else x.msb := by
  rw [getLsbD_sshiftRight]
  simp [Nat.not_le.2 hk]

theorem highWord_sshiftRight (x : BitVec 64) (s : ℕ) :
    highWord (x.sshiftRight s) = (highWord x).sshiftRight s := by
  refine eq_of_getLsbD_eq fun k hk => ?_
  rw [getLsbD_highWord _ hk, getLsbD_sshiftRight_of_lt _ _ hk, getLsbD_sshiftRight_of_lt _ _ (by omega), msb_highWord]
  by_cases h : s + k < 32
  · rw [if_pos h, if_pos (by omega), getLsbD_highWord _ h]
    congr 1
    omega
  · rw [if_neg h, if_neg (by omega)]

/-- The sign does not reach the low word in a shift by less than a word. -/
theorem lowWord_sshiftRight_short (x : BitVec 64) (hs : s < 32) :
    lowWord (x.sshiftRight s) = withBitField (lowWord x >>> s) (bitField false (highWord x) 0 s) (32 - s) s := by
  rw [← lowWord_ushiftRight_short x hs]
  refine eq_of_getLsbD_eq fun k hk => ?_
  rw [getLsbD_lowWord _ hk, getLsbD_lowWord _ hk, 
    getLsbD_sshiftRight_of_lt _ _ (by omega), if_pos (by omega), getLsbD_ushiftRight]

theorem lowWord_sshiftRight_long (x : BitVec 64) (hs : 32 ≤ s) :
    lowWord (x.sshiftRight s) = (highWord x).sshiftRight (s - 32) := by
  refine eq_of_getLsbD_eq fun k hk => ?_
  rw [getLsbD_lowWord _ hk, getLsbD_sshiftRight_of_lt _ _ (by omega), getLsbD_sshiftRight_of_lt _ _ hk, msb_highWord]
  by_cases h : s - 32 + k < 32
  · rw [if_pos h, if_pos (by omega), getLsbD_highWord _ h]
    congr 1
    omega
  · rw [if_neg h, if_neg (by omega)]

/-- From the width of a word on, nothing but the sign is left of the high word. -/
theorem highWord_sshiftRight_long (x : BitVec 64) (hs : 32 ≤ s) :
    highWord (x.sshiftRight s) = (highWord x).sshiftRight 31 := by
  rw [highWord_sshiftRight]
  refine eq_of_getLsbD_eq fun k hk => ?_
  rw [getLsbD_sshiftRight_of_lt _ _ hk, getLsbD_sshiftRight_of_lt _ _ hk, if_neg (by omega)]
  split
  · obtain rfl : k = 0 := by omega
    rw [msb_eq_getLsbD_last]
  · rfl

end Shader
end NXEmu
