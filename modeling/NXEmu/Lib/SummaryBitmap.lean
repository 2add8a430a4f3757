/-
# Bitmaps with summaries

A bitmap in words of 64 bits, with levels above it: a bit of a level stands for the word of the level
below that has its number, and is set when that word has a bit.  A bit of any level is then set just
when the part of the bitmap under it has one (`Summarizes.bit_iff`), which is what a search relies on
that climbs over empty words.
-/

import Mathlib.Logic.Function.Basic
import Mathlib.Data.Nat.Notation
import Mathlib.Algebra.Group.Nat.Defs
import Mathlib.Order.Nat
import Mathlib.Tactic.Common

namespace NXEmu
namespace SummaryBitmap

open BitVec

/-- The words of the levels. -/
abbrev Levels : Type := ℕ → ℕ → BitVec 64

variable {b : Levels} {level n w i j count shift : ℕ} {v : Bool} {word mask : BitVec 64}

/-- A bit of a level. -/
def bit (b : Levels) (level i : ℕ) : Bool := (b level (i / 64)).getLsbD (i % 64)

/-- The levels below `n` summarize each other. -/
def Summarizes (n : ℕ) (b : Levels) : Prop :=
  ∀ level, level + 1 < n → ∀ w, bit b (level + 1) w = true ↔ b level w ≠ 0

/-- The first bit of a word that has one. -/
def firstBit (word : BitVec 64) : ℕ := word.ctz.toNat

theorem firstBit_spec (h : word ≠ 0) : firstBit word < 64 ∧ word.getLsbD (firstBit word) = true ∧
    ∀ j < firstBit word, word.getLsbD j = false := by
  refine ⟨?_, getLsbD_true_ctz_of_ne_zero h, fun j hj => getLsbD_false_of_lt_ctz hj⟩
  exact lt_def.1 (ctz_lt_iff_ne_zero.2 h)

theorem bit_word (hj : j < 64) : bit b level (w * 64 + j) = (b level w).getLsbD j := by
  rw [bit, show (w * 64 + j) / 64 = w by omega, show (w * 64 + j) % 64 = j by omega]

theorem word_ne_zero_iff : b level w ≠ 0 ↔ ∃ i, i / 64 = w ∧ bit b level i = true := by
  constructor
  · intro h
    obtain ⟨hlt, hbit, -⟩ := firstBit_spec h
    exact ⟨w * 64 + firstBit (b level w), by omega, by rwa [bit_word hlt]⟩
  · rintro ⟨i, rfl, hbit⟩ hzero
    rw [bit, hzero, ofNat_eq_ofNat, getLsbD_zero] at hbit
    exact Bool.false_ne_true hbit

/-- **What a bit of a level says of the bitmap.** -/
theorem Summarizes.bit_iff (h : Summarizes n b) (hlevel : level < n) :
    bit b level i = true ↔ ∃ p, p / 64 ^ level = i ∧ bit b 0 p = true := by
  induction level generalizing i with
  | zero => simp
  | succ level ih =>
    rw [h level hlevel, word_ne_zero_iff]
    constructor
    · rintro ⟨j, rfl, hj⟩
      obtain ⟨p, rfl, hp⟩ := (ih (by omega)).1 hj
      exact ⟨p, by rw [Nat.pow_succ, Nat.div_div_eq_div_mul], hp⟩
    · rintro ⟨p, rfl, hp⟩
      exact ⟨p / 64 ^ level, by rw [Nat.pow_succ, Nat.div_div_eq_div_mul], (ih (by omega)).2 ⟨p, rfl, hp⟩⟩

/-! ### Masks -/

theorem getLsbD_one_shiftLeft (hj : j < 64) : (1#64 <<< j).getLsbD i = decide (i = j) := by
  rw [← twoPow_eq, getLsbD_twoPow, decide_eq_true hj, Bool.true_and]
  exact decide_eq_decide.2 eq_comm

/-- A bit of a word is clear when the mask of it meets nothing. -/
theorem and_bit_eq_zero_iff (hj : j < 64) : word &&& 1#64 <<< j = 0 ↔ word.getLsbD j = false := by
  constructor
  · intro h
    have hbit := congrArg (fun v : BitVec 64 => v.getLsbD j) h
    simpa [BitVec.getLsbD_and, getLsbD_one_shiftLeft hj] using hbit
  · intro h
    refine eq_of_getLsbD_eq fun i hi => ?_
    rw [BitVec.getLsbD_and, getLsbD_one_shiftLeft hj]
    by_cases hij : i = j
    · simp [hij, h]
    · simp [hij]

/-- The mask of the first bits of a word. -/
theorem getLsbD_lowMask (hcount : count < 64) :
    ((1#64 <<< count) - 1).getLsbD i = decide (i < count) := by
  have hpow : (2 : ℕ) ^ count < 2 ^ 64 := Nat.pow_lt_pow_right (by decide) hcount
  have hpos : 0 < (2 : ℕ) ^ count := Nat.two_pow_pos count
  have hone : (1#64 <<< count).toNat = 2 ^ count := by
    rw [← twoPow_eq, toNat_twoPow_of_lt hcount]
  have hsub : ((1#64 <<< count) - 1).toNat = 2 ^ count - 1 := by
    rw [toNat_sub_of_le (le_def.2 (by rw [hone]; exact hpos)), hone]
    rfl
  rw [getLsbD, hsub, Nat.testBit_two_pow_sub_one]

/-- The mask of a range of a word. -/
theorem getLsbD_rangeMask (hcount : count < 64) (hrange : shift + count ≤ 64) :
    (((1#64 <<< count) - 1) <<< shift).getLsbD i = decide (shift ≤ i ∧ i < shift + count) := by
  rw [getLsbD_shiftLeft, getLsbD_lowMask hcount, Bool.eq_iff_iff]
  simp only [Bool.and_eq_true, decide_eq_true_eq, Bool.not_eq_true', decide_eq_false_iff_not]
  omega

theorem and_eq_mask_iff :
    word &&& mask = mask ↔ ∀ i, mask.getLsbD i = true → word.getLsbD i = true := by
  constructor
  · intro h i hi
    rw [← h, BitVec.getLsbD_and, Bool.and_eq_true] at hi
    exact hi.1
  · intro h
    refine eq_of_getLsbD_eq fun i _ => ?_
    rw [BitVec.getLsbD_and]
    cases hmask : mask.getLsbD i with
    | false => rw [Bool.and_false]
    | true => rw [h i hmask, Bool.and_true]

theorem getLsbD_and_not (hi : i < 64) :
    (word &&& ~~~mask).getLsbD i = (word.getLsbD i && !mask.getLsbD i) := by
  rw [BitVec.getLsbD_and, getLsbD_not, decide_eq_true hi, Bool.true_and]

/-- Taking one off a word takes its first bit off. -/
theorem getLsbD_and_sub_one (h : word ≠ 0) :
    (word &&& (word - 1)).getLsbD i = (word.getLsbD i && decide (i ≠ firstBit word)) := by
  obtain ⟨hlt, hbit, hbelow⟩ := firstBit_spec h
  set k := firstBit word with hk
  have hrest : ∀ j, (word &&& ~~~(1#64 <<< k)).getLsbD j = (word.getLsbD j && decide (j ≠ k)) := by
    intro j
    by_cases hj : j < 64
    · rw [getLsbD_and_not hj, getLsbD_one_shiftLeft hlt]
      simp
    · simp [getLsbD_of_ge _ _ (not_lt.1 hj)]
  have hdisjoint : (word &&& ~~~(1#64 <<< k)) &&& (1#64 <<< k) = 0#64 := by
    refine eq_of_getLsbD_eq fun j hj => ?_
    rw [BitVec.getLsbD_and, hrest, getLsbD_one_shiftLeft hlt]
    by_cases hjk : j = k <;> simp [hjk]
  have hdisjoint' : (word &&& ~~~(1#64 <<< k)) &&& (1#64 <<< k - 1) = 0#64 := by
    refine eq_of_getLsbD_eq fun j hj => ?_
    rw [BitVec.getLsbD_and, hrest, getLsbD_lowMask hlt]
    by_cases hjk : j < k
    · simp [hbelow j hjk]
    · simp [hjk]
  have hsplit : word = (word &&& ~~~(1#64 <<< k)) + 1#64 <<< k := by
    rw [BitVec.add_eq_or_of_and_eq_zero _ _ hdisjoint]
    refine eq_of_getLsbD_eq fun j hj => ?_
    rw [BitVec.getLsbD_or, hrest, getLsbD_one_shiftLeft hlt]
    by_cases hjk : j = k
    · simp [hjk, hbit]
    · simp [hjk]
  have hsub : word - 1 = (word &&& ~~~(1#64 <<< k)) + (1#64 <<< k - 1) := by
    conv_lhs => rw [hsplit]
    rw [BitVec.sub_eq_add_neg, BitVec.add_assoc, ← BitVec.sub_eq_add_neg]
  rw [hsub, BitVec.add_eq_or_of_and_eq_zero _ _ hdisjoint', BitVec.getLsbD_and, BitVec.getLsbD_or, hrest,
    getLsbD_lowMask hlt]
  by_cases hik : i < k
  · simp [hbelow i hik]
  · simp [hik]

/-! ### Changing a bit -/

/-- A word with a bit changed. -/
def putWord (word : BitVec 64) (j : ℕ) (v : Bool) : BitVec 64 :=
  if v then word ||| (1#64 <<< j) else word &&& ~~~(1#64 <<< j)

theorem getLsbD_putWord (hj : j < 64) :
    (putWord word j v).getLsbD i = if i = j then v else word.getLsbD i := by
  rw [putWord]
  cases v with
  | true =>
    rw [if_pos rfl, BitVec.getLsbD_or, getLsbD_one_shiftLeft hj]
    by_cases hij : i = j <;> simp [hij]
  | false =>
    rw [if_neg (by decide), BitVec.getLsbD_and, getLsbD_not, getLsbD_one_shiftLeft hj]
    by_cases hij : i = j
    · simp [hij]
    · by_cases hi : i < 64
      · simp [hij, hi]
      · simp [hij, getLsbD_of_ge word i (not_lt.1 hi)]

/-- The levels with a bit changed. -/
def put (b : Levels) (level i : ℕ) (v : Bool) : Levels :=
  Function.update b level (Function.update (b level) (i / 64) (putWord (b level (i / 64)) (i % 64) v))

theorem put_word (b : Levels) (level i : ℕ) (v : Bool) (level' w : ℕ) :
    put b level i v level' w =
      if level' = level ∧ w = i / 64 then putWord (b level (i / 64)) (i % 64) v else b level' w := by
  by_cases hlevel : level' = level
  · subst hlevel
    by_cases hw : w = i / 64
    · rw [if_pos ⟨rfl, hw⟩, hw, put, Function.update_self, Function.update_self]
    · rw [if_neg fun h => hw h.2, put, Function.update_self, Function.update_of_ne hw]
  · rw [if_neg fun h => hlevel h.1, put, Function.update_of_ne hlevel]

theorem bit_put (b : Levels) (level i : ℕ) (v : Bool) (level' i' : ℕ) :
    bit (put b level i v) level' i' = if level' = level ∧ i' = i then v else bit b level' i' := by
  rw [bit, put_word]
  by_cases hword : level' = level ∧ i' / 64 = i / 64
  · rw [if_pos hword, getLsbD_putWord (Nat.mod_lt _ (by decide)), bit, hword.1, hword.2]
    refine if_congr ?_ rfl rfl
    omega
  · rw [if_neg hword, if_neg fun h => hword ⟨h.1, by rw [h.2]⟩, bit]

end SummaryBitmap
end NXEmu
