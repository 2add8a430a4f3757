/-
# Bitmaps in words

A bitmap in words of 64 bits, changed and asked a span at a time: the number of a word and a mask of its bits.
Spans are put into the bitmap (`bit_insertSpans`) and taken out of it (`bit_eraseSpans`) bit by bit, and a
question for spans is one for the bits of them (`meetsSpans_iff`).  Two spellings of the mask of a range are
computed, from two words of ones (`getLsbD_onesMask`) and from a power of two (`getLsbD_powerMask`).
-/

import NXEmu.Lib.SummaryBitmap

namespace NXEmu
namespace WordBitmap

/-- The words of a bitmap. -/
abbrev Words : Type := ℕ → BitVec 64

/-- A word and some of its bits. -/
abbrev Span : Type := ℕ × BitVec 64

variable {w : Words} {s : Span} {spans : List Span} {lo hi i j : ℕ}

/-- A bit. -/
def bit (w : Words) (i : ℕ) : Bool := (w (i / 64)).getLsbD (i % 64)

/-- A bit that a span has. -/
def InSpan (s : Span) (i : ℕ) : Prop := i / 64 = s.1 ∧ s.2.getLsbD (i % 64) = true

instance (s : Span) (i : ℕ) : Decidable (InSpan s i) := inferInstanceAs (Decidable (_ ∧ _))

/-- A bit that one of the spans has. -/
def InSpans (spans : List Span) (i : ℕ) : Prop := ∃ s ∈ spans, InSpan s i

@[simp] theorem inSpans_nil : ¬InSpans [] i := by simp [InSpans]

@[simp] theorem inSpans_cons : InSpans (s :: spans) i ↔ InSpan s i ∨ InSpans spans i := by simp [InSpans]

theorem inSpans_append {spans' : List Span} :
    InSpans (spans ++ spans') i ↔ InSpans spans i ∨ InSpans spans' i := by
  simp [InSpans, or_and_right, exists_or]

/-! ### Masks -/

theorem getLsbD_onesMask (hhi : hi ≤ 64) :
    ((BitVec.allOnes 64 <<< lo) &&& (BitVec.allOnes 64 >>> (64 - hi))).getLsbD j = decide (lo ≤ j ∧ j < hi) := by
  rw [BitVec.getLsbD_and, BitVec.getLsbD_shiftLeft, BitVec.getLsbD_ushiftRight, BitVec.getLsbD_allOnes,
    BitVec.getLsbD_allOnes, Bool.eq_iff_iff]
  simp only [Bool.and_eq_true, decide_eq_true_eq, Bool.not_eq_true', decide_eq_false_iff_not]
  omega

theorem getLsbD_powerMask (hhi : hi ≤ 64) :
    ((BitVec.allOnes 64 <<< lo) &&& (if hi = 64 then BitVec.allOnes 64 else (1#64 <<< hi) - 1)).getLsbD j =
      decide (lo ≤ j ∧ j < hi) := by
  have hlow : (if hi = 64 then BitVec.allOnes 64 else (1#64 <<< hi) - 1).getLsbD j = decide (j < hi) := by
    split_ifs with hfull
    · rw [BitVec.getLsbD_allOnes, hfull]
    · exact SummaryBitmap.getLsbD_lowMask (by omega)
  rw [BitVec.getLsbD_and, hlow, BitVec.getLsbD_shiftLeft, BitVec.getLsbD_allOnes, Bool.eq_iff_iff]
  simp only [Bool.and_eq_true, decide_eq_true_eq, Bool.not_eq_true', decide_eq_false_iff_not]
  omega

/-! ### Changes -/

/-- The bits of a span are set. -/
def insertSpan (w : Words) (s : Span) : Words := Function.update w s.1 (w s.1 ||| s.2)

/-- The bits of a span are cleared. -/
def eraseSpan (w : Words) (s : Span) : Words := Function.update w s.1 (w s.1 &&& ~~~s.2)

theorem bit_insertSpan : bit (insertSpan w s) i = true ↔ bit w i = true ∨ InSpan s i := by
  rw [bit, bit, insertSpan, InSpan, Function.update_apply]
  by_cases hword : i / 64 = s.1
  · rw [if_pos hword, BitVec.getLsbD_or, Bool.or_eq_true, hword]
    simp
  · rw [if_neg hword]
    simp [hword]

theorem bit_eraseSpan : bit (eraseSpan w s) i = true ↔ bit w i = true ∧ ¬InSpan s i := by
  rw [bit, bit, eraseSpan, InSpan, Function.update_apply]
  by_cases hword : i / 64 = s.1
  · rw [if_pos hword, SummaryBitmap.getLsbD_and_not (Nat.mod_lt i (by decide)), Bool.and_eq_true, hword]
    simp
  · rw [if_neg hword]
    simp [hword]

/-- **Spans that are put in.** -/
theorem bit_insertSpans : bit (spans.foldl insertSpan w) i = true ↔ bit w i = true ∨ InSpans spans i := by
  induction spans generalizing w with
  | nil => simp
  | cons s spans ih => rw [List.foldl_cons, ih, bit_insertSpan, inSpans_cons, or_assoc]

/-- **Spans that are taken out.** -/
theorem bit_eraseSpans : bit (spans.foldl eraseSpan w) i = true ↔ bit w i = true ∧ ¬InSpans spans i := by
  induction spans generalizing w with
  | nil => simp
  | cons s spans ih => rw [List.foldl_cons, ih, bit_eraseSpan, inSpans_cons, not_or, and_assoc]

/-- A span whose bits are set already. -/
theorem insertSpan_of_and_eq (h : w s.1 &&& s.2 = s.2) : insertSpan w s = w := by
  have hor : w s.1 ||| s.2 = w s.1 := by
    refine BitVec.eq_of_getLsbD_eq fun k _ => ?_
    rw [BitVec.getLsbD_or]
    cases hbit : s.2.getLsbD k with
    | false => rw [Bool.or_false]
    | true => rw [SummaryBitmap.and_eq_mask_iff.1 h k hbit, Bool.or_true]
  rw [insertSpan, hor, Function.update_eq_self]

/-- A span whose bits are clear already. -/
theorem eraseSpan_of_and_eq (h : w s.1 &&& s.2 = 0) : eraseSpan w s = w := by
  have hand : w s.1 &&& ~~~s.2 = w s.1 := by
    refine BitVec.eq_of_getLsbD_eq fun k hk => ?_
    have hbit : (w s.1 &&& s.2).getLsbD k = false := by rw [h]; exact BitVec.getLsbD_zero
    rw [BitVec.getLsbD_and] at hbit
    rw [SummaryBitmap.getLsbD_and_not hk]
    cases hword : (w s.1).getLsbD k <;> simp_all
  rw [eraseSpan, hand, Function.update_eq_self]

/-! ### Questions -/

/-- A bit of the span is set. -/
def meetsSpan (w : Words) (s : Span) : Bool := decide (w s.1 &&& s.2 ≠ 0)

theorem meetsSpan_iff : meetsSpan w s = true ↔ ∃ i, InSpan s i ∧ bit w i = true := by
  rw [meetsSpan, decide_eq_true_eq]
  constructor
  · intro hne
    obtain ⟨hlt, hbit, -⟩ := SummaryBitmap.firstBit_spec hne
    rw [BitVec.getLsbD_and, Bool.and_eq_true] at hbit
    obtain ⟨hword, hmask⟩ := hbit
    have hdiv : (s.1 * 64 + SummaryBitmap.firstBit (w s.1 &&& s.2)) / 64 = s.1 := by omega
    have hmod : (s.1 * 64 + SummaryBitmap.firstBit (w s.1 &&& s.2)) % 64 =
        SummaryBitmap.firstBit (w s.1 &&& s.2) := by omega
    refine ⟨s.1 * 64 + SummaryBitmap.firstBit (w s.1 &&& s.2), ⟨hdiv, ?_⟩, ?_⟩
    · rw [hmod, hmask]
    · rw [bit, hdiv, hmod, hword]
  · rintro ⟨i, ⟨hword, hmask⟩, hbit⟩ hzero
    have hand := congrArg (fun v : BitVec 64 => v.getLsbD (i % 64)) hzero
    rw [bit, hword] at hbit
    rw [BitVec.getLsbD_and, hbit, hmask] at hand
    exact absurd hand (by simp)

/-- **A question for spans.** -/
theorem meetsSpans_iff : spans.any (meetsSpan w) = true ↔ ∃ i, InSpans spans i ∧ bit w i = true := by
  rw [List.any_eq_true]
  constructor
  · rintro ⟨s, hs, hmeets⟩
    obtain ⟨i, hi, hbit⟩ := meetsSpan_iff.1 hmeets
    exact ⟨i, ⟨s, hs, hi⟩, hbit⟩
  · rintro ⟨i, ⟨s, hs, hi⟩, hbit⟩
    exact ⟨s, hs, meetsSpan_iff.2 ⟨i, hi, hbit⟩⟩

end WordBitmap
end NXEmu
