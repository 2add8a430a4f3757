/-
# The summaries of a page bitmap

`SetBit` and `ClearBit` change a bit of the last depth and go up while the word they changed has become
the first or the last of its kind.  On the way every summary is right but one, the bit above the word
last written (`SummarizedBut`), and writing that bit moves the exception up (`SummarizedBut.put`) until
the loop leaves or the top is passed.  `ClearRange` does the same for every word that it empties.

A bitmap so kept is a set of numbers (`KPageBitmap.bits`): each routine has one lemma that says what it
does to the set, and what is done at the words is not seen after them.
-/

import NXEmu.Kernel.PageBitmap
import Mathlib.Data.Finset.Card
import Mathlib.Order.Interval.Finset.Nat
import Mathlib.Tactic.Ring

namespace NXEmu
namespace Kernel

open SummaryBitmap Exec Function Finset BitVec

variable {used n depth offset count ind i w : ℕ} {words : ℕ → ℕ} {s : Levels} {v : Bool}

/-! ### Summaries -/

/-- The bits above the last depth say which words of the next depth have a bit. -/
def Summarized (used : ℕ) (s : Levels) : Prop :=
  ∀ depth, depth + 1 < used → ∀ w, bit s depth w = true ↔ s (depth + 1) w ≠ 0

/-- They do, but perhaps the bit `offset` of the depth above `n`. -/
def SummarizedBut (used : ℕ) (s : Levels) (n offset : ℕ) : Prop :=
  ∀ depth, depth + 1 < used → ∀ w, ¬(depth + 1 = n ∧ w = offset) →
    (bit s depth w = true ↔ s (depth + 1) w ≠ 0)

/-- Nothing is set past the words of a depth. -/
def Within (used : ℕ) (words : ℕ → ℕ) (s : Levels) : Prop :=
  ∀ depth < used, ∀ ind, words depth ≤ ind → s depth ind = 0

/-- The words of the depths: one at the top, and under each at most as many as it has bits. -/
structure Shaped (used : ℕ) (words : ℕ → ℕ) : Prop where
  depths : 0 < used
  supported : used ≤ maxDepth
  top : words 0 = 1
  under : ∀ depth, depth + 1 < used → words (depth + 1) ≤ 64 * words depth

theorem SummarizedBut.done (h : SummarizedBut used s n offset)
    (hbit : ∀ depth, n = depth + 1 → (bit s depth offset = true ↔ s n offset ≠ 0)) :
    Summarized used s := by
  intro depth hdepth w
  by_cases hat : depth + 1 = n ∧ w = offset
  · obtain ⟨rfl, rfl⟩ := hat
    exact hbit depth rfl
  · exact h depth hdepth w hat

/-- **Writing a bit moves the exception up.** -/
theorem SummarizedBut.put (h : SummarizedBut used s (depth + 1) offset)
    (hv : depth + 1 < used → (v = true ↔ s (depth + 1) offset ≠ 0)) :
    SummarizedBut used (put s depth offset v) depth (offset / 64) := by
  intro d hd w hat
  rw [bit_put, put_word, if_neg hat]
  by_cases hbit : d = depth ∧ w = offset
  · obtain ⟨rfl, rfl⟩ := hbit
    rw [if_pos ⟨rfl, rfl⟩]
    exact hv hd
  · rw [if_neg hbit]
    exact h d hd w fun hsame => hbit ⟨by omega, hsame.2⟩

theorem Within.put (h : Within used words s) (hoffset : offset < 64 * words depth) :
    Within used words (put s depth offset v) := by
  intro d hd ind hind
  rw [put_word, if_neg, h d hd ind hind]
  rintro ⟨rfl, rfl⟩
  omega

theorem put_of_ne {d : ℕ} (h : d ≠ depth) : put s depth offset v d = s d := by
  rw [SummaryBitmap.put, update_of_ne h]

namespace KPageBitmap

variable {b : KPageBitmap}

theorem word_eq (h : ind < b.words depth) : b.word depth ind = .ret (b.storages depth ind) true :=
  if_pos h

/-- What a loop that started at depth `n - 1` leaves: the summaries are right, and that depth has the
bit it wrote while the depths below are as they were. -/
structure Wrote (used : ℕ) (words : ℕ → ℕ) (s s' : Levels) (n offset : ℕ) (v : Bool) : Prop where
  summarized : Summarized used s'
  within : Within used words s'
  here : ∀ depth, n = depth + 1 → s' depth = put s depth offset v depth
  below : ∀ depth, n ≤ depth → s' depth = s depth

/-- What the loops need: the exception is the bit to write, which has the other value. -/
structure Writable (used : ℕ) (words : ℕ → ℕ) (s : Levels) (n offset : ℕ) (v : Bool) : Prop where
  within : Within used words s
  but : SummarizedBut used s n offset
  le : n ≤ used
  word : n < used → (v = true ↔ s n offset ≠ 0)
  bit : ∀ depth, n = depth + 1 → offset < 64 * words depth ∧ SummaryBitmap.bit s depth offset = !v

/-- The loop leaves, since the bit above the word it wrote is right as it is. -/
theorem Writable.leave (h : Writable used words s (depth + 1) offset v)
    (hsame : put s depth offset v depth (offset / 64) ≠ 0 ↔ s depth (offset / 64) ≠ 0) :
    Wrote used words s (put s depth offset v) (depth + 1) offset v := by
  refine ⟨(h.but.put h.word).done ?_, h.within.put (h.bit depth rfl).1, ?_, ?_⟩
  · rintro d rfl
    have hle := h.le
    rw [bit_put, if_neg (by omega), hsame]
    exact h.but d (by omega) _ (by omega)
  · intro d hd
    obtain rfl : depth = d := by omega
    rfl
  · exact fun d hd => put_of_ne (by omega)

/-- The loop goes on, since the word it wrote has become empty or is so no longer. -/
theorem Writable.goOn (h : Writable used words s (depth + 1) offset v) (hshape : Shaped used words)
    (hv : v = true ↔ put s depth offset v depth (offset / 64) ≠ 0) (hold : v = false ↔ s depth (offset / 64) ≠ 0) :
    Writable used words (put s depth offset v) depth (offset / 64) v := by
  have hle := h.le
  refine ⟨h.within.put (h.bit depth rfl).1, h.but.put h.word, by omega, fun _ => hv, ?_⟩
  rintro d rfl
  have hoffset := (h.bit (d + 1) rfl).1
  have hunder := hshape.under d (by omega)
  refine ⟨by omega, ?_⟩
  rw [bit_put, if_neg (by omega)]
  have habove := h.but d (by omega) (offset / 64) (by omega)
  rw [← hold] at habove
  cases v with
  | true => simpa using habove
  | false => simpa using habove

theorem Wrote.up {s' : Levels} (h : Wrote used words (put s depth offset v) s' depth (offset / 64) v) :
    Wrote used words s s' (depth + 1) offset v := by
  refine ⟨h.summarized, h.within, ?_, ?_⟩
  · intro d hd
    obtain rfl : depth = d := by omega
    exact h.below depth le_rfl
  · intro d hd
    rw [h.below d (by omega), put_of_ne (by omega)]

/-- **The private `SetBit`.** -/
theorem setBitFrom_spec (hshape : Shaped b.usedDepths b.words) :
    ∀ n offset s, Writable b.usedDepths b.words s n offset true →
      wp (setBitFrom { b with storages := s } n offset) fun b' held => held = true ∧
        ∃ s', b' = { b with storages := s' } ∧ Wrote b.usedDepths b.words s s' n offset true := by
  intro n
  induction n with
  | zero =>
    intro offset s h
    rw [setBitFrom, pure_eq, wp_ret]
    exact ⟨rfl, s, rfl, h.but.done (by omega), h.within, by omega, fun _ _ => rfl⟩
  | succ depth ih =>
    intro offset s h
    obtain ⟨hoffset, hbit⟩ := h.bit depth rfl
    have hmod : offset % 64 < 64 := Nat.mod_lt _ (by decide)
    have hput : (setWord { b with storages := s } depth (offset / 64)
        (s depth (offset / 64) ||| 1#64 <<< (offset % 64))) =
        { b with storages := put s depth offset true } := rfl
    have hnonzero : put s depth offset true depth (offset / 64) ≠ 0 := by
      rw [word_ne_zero_iff]
      exact ⟨offset, rfl, by rw [bit_put, if_pos ⟨rfl, rfl⟩]⟩
    have hassert : s depth (offset / 64) &&& 1#64 <<< (offset % 64) = 0 :=
      (and_bit_eq_zero_iff hmod).2 hbit
    rw [setBitFrom, word_eq (by show offset / 64 < b.words depth; omega), ret_true_bind, wp_bind, wp_assert]
    show wp (if s depth (offset / 64) ≠ 0 then _ else _) _
    rw [hput]
    by_cases hzero : s depth (offset / 64) = 0
    · rw [if_neg (not_not.2 hzero)]
      refine wp_mono (ih _ _ (h.goOn hshape (by simpa using hnonzero) (by simpa using hzero))) ?_
      rintro b' held ⟨rfl, s', rfl, hwrote⟩
      exact ⟨by simpa using hassert, s', rfl, hwrote.up⟩
    · rw [if_pos hzero, pure_eq, wp_ret]
      exact ⟨by simpa using hassert, _, rfl, h.leave (iff_of_true hnonzero hzero)⟩

/-- **The private `ClearBit`.** -/
theorem clearBitFrom_spec (hshape : Shaped b.usedDepths b.words) :
    ∀ n offset s, Writable b.usedDepths b.words s n offset false →
      wp (clearBitFrom { b with storages := s } n offset) fun b' held => held = true ∧
        ∃ s', b' = { b with storages := s' } ∧ Wrote b.usedDepths b.words s s' n offset false := by
  intro n
  induction n with
  | zero =>
    intro offset s h
    rw [clearBitFrom, pure_eq, wp_ret]
    exact ⟨rfl, s, rfl, h.but.done (by omega), h.within, by omega, fun _ _ => rfl⟩
  | succ depth ih =>
    intro offset s h
    obtain ⟨hoffset, hbit⟩ := h.bit depth rfl
    have hmod : offset % 64 < 64 := Nat.mod_lt _ (by decide)
    have hput : (setWord { b with storages := s } depth (offset / 64)
        (s depth (offset / 64) &&& ~~~(1#64 <<< (offset % 64)))) =
        { b with storages := put s depth offset false } := rfl
    have hword : put s depth offset false depth (offset / 64) =
        s depth (offset / 64) &&& ~~~(1#64 <<< (offset % 64)) := by
      rw [put_word, if_pos ⟨rfl, rfl⟩]
      rfl
    have hold : s depth (offset / 64) ≠ 0 := word_ne_zero_iff.2 ⟨offset, rfl, hbit⟩
    have hassert : s depth (offset / 64) &&& 1#64 <<< (offset % 64) ≠ 0 := by
      rw [ne_eq, and_bit_eq_zero_iff hmod]
      exact ne_of_eq_of_ne hbit (by decide)
    rw [clearBitFrom, word_eq (by show offset / 64 < b.words depth; omega), ret_true_bind, wp_bind, wp_assert]
    show wp (if s depth (offset / 64) &&& ~~~(1#64 <<< (offset % 64)) ≠ 0 then _ else _) _
    rw [hput, ← hword]
    by_cases hzero : put s depth offset false depth (offset / 64) = 0
    · rw [if_neg (not_not.2 hzero)]
      refine wp_mono (ih _ _ (h.goOn hshape (by simpa using hzero) (by simpa using hold))) ?_
      rintro b' held ⟨rfl, s', rfl, hwrote⟩
      exact ⟨by simpa using hassert, s', rfl, hwrote.up⟩
    · rw [if_pos hzero, pure_eq, wp_ret]
      exact ⟨by simpa using hassert, _, rfl, h.leave (iff_of_true hzero hold)⟩

/-! ### The set -/

/-- How many bits the last depth has. -/
def capacity (b : KPageBitmap) : ℕ := 64 * b.words b.getHighestDepthIndex

/-- Whether the bitmap has a number. -/
def has (b : KPageBitmap) (i : ℕ) : Bool := bit b.storages b.getHighestDepthIndex i

/-- The set that the bitmap stands for. -/
def bits (b : KPageBitmap) : Finset ℕ := (Finset.range b.capacity).filter fun i => b.has i = true

/-- What every routine keeps. -/
structure Kept (b : KPageBitmap) : Prop where
  shape : Shaped b.usedDepths b.words
  within : Within b.usedDepths b.words b.storages
  summarized : Summarized b.usedDepths b.storages
  count : b.numBits = b.bits.card

/-- The parts of the bitmap that only `Initialize` writes. -/
def SameShape (b b' : KPageBitmap) : Prop := b'.words = b.words ∧ b'.usedDepths = b.usedDepths

section

variable (h : Kept b)

include h

theorem Kept.highest_lt : b.getHighestDepthIndex < b.usedDepths :=
  Nat.sub_one_lt (Nat.pos_iff_ne_zero.1 h.shape.depths)

theorem Kept.highest_succ : b.getHighestDepthIndex + 1 = b.usedDepths :=
  Nat.sub_add_cancel h.shape.depths

theorem Kept.mem_bits : i ∈ b.bits ↔ b.has i = true := by
  rw [bits, mem_filter, mem_range, capacity]
  refine ⟨And.right, fun hi => ⟨?_, hi⟩⟩
  by_contra hge
  have hzero := h.within _ h.highest_lt (i / 64) (by omega)
  rw [has, bit, hzero, ofNat_eq_ofNat, getLsbD_zero] at hi
  exact Bool.false_ne_true hi

/-- A bitmap whose words have been rewritten stands for the set that its bits say. -/
theorem Kept.rewritten {X : Finset ℕ} (hsummarized : Summarized b.usedDepths s)
    (hwithin : Within b.usedDepths b.words s) (hbits : ∀ i, bit s b.getHighestDepthIndex i = true ↔ i ∈ X) :
    Kept { b with storages := s, numBits := X.card } ∧ bits { b with storages := s, numBits := X.card } = X := by
  have hX : bits { b with storages := s, numBits := X.card } = X := by
    ext i
    rw [bits, mem_filter, mem_range]
    refine ⟨fun hi => (hbits i).1 hi.2, fun hi => ⟨?_, (hbits i).2 hi⟩⟩
    by_contra hge
    have hzero := hwithin _ h.highest_lt (i / 64) (by
      simp only [capacity, getHighestDepthIndex] at hge ⊢
      omega)
    have hbit := (hbits i).2 hi
    rw [bit, hzero, ofNat_eq_ofNat, getLsbD_zero] at hbit
    exact Bool.false_ne_true hbit
  exact ⟨⟨h.shape, hwithin, hsummarized, by rw [hX]⟩, hX⟩

/-- What the loops of `SetBit` and `ClearBit` start from. -/
theorem Kept.writable (hi : i < b.capacity) (hbit : b.has i = !v) :
    Writable b.usedDepths b.words b.storages b.usedDepths i v := by
  refine ⟨h.within, fun depth hdepth w _ => h.summarized depth hdepth w, le_rfl,
    fun hlt => absurd hlt (lt_irrefl _), fun depth hdepth => ?_⟩
  obtain rfl : b.getHighestDepthIndex = depth := by rw [getHighestDepthIndex]; omega
  exact ⟨hi, hbit⟩

theorem Kept.bit_wrote (hwrote : Wrote b.usedDepths b.words b.storages s b.usedDepths i v) (j : ℕ) :
    bit s b.getHighestDepthIndex j = if j = i then v else b.has j := by
  rw [bit, hwrote.here _ h.highest_succ.symm]
  refine (bit_put b.storages b.getHighestDepthIndex i v b.getHighestDepthIndex j).trans ?_
  exact if_congr (and_iff_right rfl) rfl rfl

/-- **`SetBit` adds the number.** -/
theorem Kept.setBit_spec (hi : i < b.capacity) (hnot : i ∉ b.bits) :
    wp (b.setBit i) fun b' held => held = true ∧ Kept b' ∧ SameShape b b' ∧ b'.rng = b.rng ∧
      b'.bits = insert i b.bits := by
  have hclear : b.has i = !true := by
    rw [h.mem_bits, Bool.not_eq_true] at hnot
    exact hnot
  rw [setBit, wp_bind]
  refine wp_mono (setBitFrom_spec h.shape b.usedDepths i b.storages (h.writable hi hclear)) ?_
  rintro b' held ⟨rfl, s', rfl, hwrote⟩
  rw [pure_eq, wp_ret]
  have hcount : b.numBits + 1 = (insert i b.bits).card := by
    rw [card_insert_of_notMem hnot, h.count]
  obtain ⟨hkept, hbits⟩ := h.rewritten (X := insert i b.bits) hwrote.summarized hwrote.within fun j => by
    rw [h.bit_wrote hwrote, mem_insert, h.mem_bits]
    by_cases hj : j = i <;> simp [hj]
  rw [← hcount] at hkept hbits
  exact ⟨rfl, hkept, ⟨rfl, rfl⟩, rfl, hbits⟩

/-- **`ClearBit` takes the number out.** -/
theorem Kept.clearBit_spec (hi : i ∈ b.bits) :
    wp (b.clearBit i) fun b' held => held = true ∧ Kept b' ∧ SameShape b b' ∧ b'.rng = b.rng ∧
      b'.bits = b.bits.erase i := by
  have hset : b.has i = !false := h.mem_bits.1 hi
  have hlt : i < b.capacity := mem_range.1 (mem_filter.1 hi).1
  rw [clearBit, wp_bind]
  refine wp_mono (clearBitFrom_spec h.shape b.usedDepths i b.storages (h.writable hlt hset)) ?_
  rintro b' held ⟨rfl, s', rfl, hwrote⟩
  rw [pure_eq, wp_ret]
  have hcount : b.numBits - 1 = (b.bits.erase i).card := by
    rw [card_erase_of_mem hi, h.count]
  obtain ⟨hkept, hbits⟩ := h.rewritten (X := b.bits.erase i) hwrote.summarized hwrote.within fun j => by
    rw [h.bit_wrote hwrote, mem_erase, h.mem_bits]
    by_cases hj : j = i <;> simp [hj]
  rw [← hcount] at hkept hbits
  exact ⟨rfl, hkept, ⟨rfl, rfl⟩, rfl, hbits⟩

end

/-! ### Ranges -/

/-- The storage with a word replaced. -/
def putWordAt (s : Levels) (depth ind : ℕ) (word : BitVec 64) : Levels :=
  Function.update s depth (Function.update (s depth) ind word)

theorem putWordAt_word (s : Levels) (depth ind : ℕ) (word : BitVec 64) (d w : ℕ) :
    putWordAt s depth ind word d w = if d = depth ∧ w = ind then word else s d w := by
  rw [putWordAt]
  by_cases hd : d = depth
  · subst hd
    by_cases hw : w = ind
    · rw [if_pos ⟨rfl, hw⟩, hw, update_self, update_self]
    · rw [if_neg fun h => hw h.2, update_self, update_of_ne hw]
  · rw [if_neg fun h => hd h.1, update_of_ne hd]

theorem within_putWordAt {word : BitVec 64} (h : Within used words s) (hind : ind < words depth) :
    Within used words (putWordAt s depth ind word) := by
  intro d hd w hw
  rw [putWordAt_word, if_neg, h d hd w hw]
  rintro ⟨rfl, rfl⟩
  omega

/-- A word of the last depth may be replaced, and then the bit above it is the only one to look at. -/
theorem summarizedBut_putWordAt {word : BitVec 64} (h : Summarized used s) (hdepth : depth + 1 = used) :
    SummarizedBut used (putWordAt s depth ind word) depth ind := by
  intro d hd w hat
  rw [putWordAt_word, if_neg hat, bit, putWordAt_word, if_neg (by omega)]
  exact h d hd w

/-- Emptying a word of the last depth leaves the bit above it to clear. -/
theorem writable_emptied (hshape : Shaped used words) (hsummarized : Summarized used s)
    (hwithin : Within used words s) (hdepth : depth + 1 = used) (hind : ind < words depth)
    (hword : s depth ind ≠ 0) : Writable used words (putWordAt s depth ind 0) depth ind false := by
  refine ⟨within_putWordAt hwithin hind, summarizedBut_putWordAt hsummarized hdepth, by omega, ?_, ?_⟩
  · intro _
    rw [putWordAt_word, if_pos ⟨rfl, rfl⟩]
    simp
  · rintro d rfl
    have hunder := hshape.under d (by omega)
    refine ⟨by omega, ?_⟩
    rw [bit, putWordAt_word, if_neg (by omega)]
    exact (hsummarized d (by omega) ind).2 hword

/-- The summaries are right as they are when a word of the last depth stays as empty as it was. -/
theorem summarized_putWordAt {word : BitVec 64} (h : Summarized used s) (hdepth : depth + 1 = used)
    (hword : word ≠ 0 ↔ s depth ind ≠ 0) : Summarized used (putWordAt s depth ind word) := by
  refine (summarizedBut_putWordAt h hdepth).done ?_
  rintro d rfl
  rw [bit, putWordAt_word, if_neg (by omega), putWordAt_word, if_pos ⟨rfl, rfl⟩, hword]
  exact h d (by omega) ind

/-- Clearing bits that are clear fails assertions, and changes nothing. -/
theorem clearBitFrom_clear (hshape : Shaped b.usedDepths b.words)
    (hsummarized : Summarized b.usedDepths b.storages) : ∀ n offset, n ≤ b.usedDepths →
      (∀ depth, n = depth + 1 → offset < 64 * b.words depth ∧ bit b.storages depth offset = false) →
      wp (clearBitFrom b n offset) fun b' _ => b' = b := by
  intro n
  induction n with
  | zero =>
    intro offset _ _
    rw [clearBitFrom, pure_eq, wp_ret]
  | succ depth ih =>
    intro offset hle hbit
    obtain ⟨hoffset, hclear⟩ := hbit depth rfl
    have hmod : offset % 64 < 64 := Nat.mod_lt _ (by decide)
    have hsame : b.storages depth (offset / 64) &&& ~~~(1#64 <<< (offset % 64)) = b.storages depth (offset / 64) := by
      refine eq_of_getLsbD_eq fun i hi => ?_
      rw [getLsbD_and_not hi, getLsbD_one_shiftLeft hmod]
      by_cases hij : i = offset % 64
      · rw [hij]
        exact (congrArg (· && _) hclear).trans hclear.symm
      · simp [hij]
    have hset : b.setWord depth (offset / 64) (b.storages depth (offset / 64)) = b := by
      rw [setWord, update_eq_self, update_eq_self]
    rw [clearBitFrom, word_eq (by omega), ret_true_bind, wp_bind, wp_assert]
    show wp (if b.storages depth (offset / 64) &&& ~~~(1#64 <<< (offset % 64)) ≠ 0 then _ else _) _
    rw [hsame, hset]
    split_ifs with hzero
    · exact wp_ret.2 rfl
    · refine ih (offset / 64) (by omega) ?_
      rintro d rfl
      have hunder := hshape.under d (by omega)
      refine ⟨by omega, ?_⟩
      rw [← Bool.not_eq_true, hsummarized d (by omega)]
      exact hzero

/-- What is left when a word of the last depth has been emptied. -/
structure Emptied (used : ℕ) (words : ℕ → ℕ) (s s' : Levels) (depth ind : ℕ) : Prop where
  summarized : Summarized used s'
  within : Within used words s'
  here : s' depth = putWordAt s depth ind 0 depth

/-- **Emptying a word** of the last depth and clearing the bit above it, which an assertion misses when
the word was empty. -/
theorem emptyWord_spec (s : Levels) (depth ind : ℕ) (hshape : Shaped b.usedDepths b.words)
    (hsummarized : Summarized b.usedDepths s) (hwithin : Within b.usedDepths b.words s) (hdepth : depth + 1 = b.usedDepths)
    (hind : ind < b.words depth) :
    wp (clearBitFrom { b with storages := putWordAt s depth ind 0 } depth ind) fun b' held =>
      (s depth ind ≠ 0 → held = true) ∧
        ∃ s', b' = { b with storages := s' } ∧ Emptied b.usedDepths b.words s s' depth ind := by
  by_cases hempty : s depth ind = 0
  · have hsame : putWordAt s depth ind 0 = s := by
      rw [putWordAt, ← hempty, update_eq_self, update_eq_self]
    rw [hsame]
    refine wp_mono (clearBitFrom_clear (b := { b with storages := s }) hshape hsummarized depth ind
      (by show depth ≤ b.usedDepths; omega) ?_) ?_
    · rintro d rfl
      have hunder := hshape.under d (by omega)
      refine ⟨by show ind < 64 * b.words d; omega, ?_⟩
      rw [← Bool.not_eq_true, hsummarized d (by omega)]
      exact not_not.2 hempty
    · rintro b' held rfl
      exact ⟨fun hne => absurd hempty hne, s, rfl, hsummarized, hwithin, by rw [hsame]⟩
  · refine wp_mono (clearBitFrom_spec hshape depth ind _
      (writable_emptied hshape hsummarized hwithin hdepth hind hempty)) ?_
    rintro b' held ⟨hheld, s', rfl, hwrote⟩
    exact ⟨fun _ => hheld, s', rfl, hwrote.summarized, hwrote.within, hwrote.below depth le_rfl⟩

/-- The alignment that `ClearRange` asserts. -/
def RangeAligned (offset count : ℕ) : Prop :=
  if count < 64 then offset % 64 + count ≤ 64 else offset % 64 = 0 ∧ count % 64 = 0

instance : Decidable (RangeAligned offset count) := by
  unfold RangeAligned
  infer_instance

/-- What `ClearRange` returns and leaves. -/
structure RangeCleared (b : KPageBitmap) (offset count : ℕ) (r : Bool × KPageBitmap) : Prop where
  iff : r.1 = true ↔ Finset.Ico offset (offset + count) ⊆ b.bits
  unchanged : r.1 = false → r.2 = b
  kept : Kept r.2
  shape : SameShape b r.2
  rng : r.2.rng = b.rng
  bits : r.1 = true → r.2.bits = b.bits \ Finset.Ico offset (offset + count)

theorem RangeCleared.refused (h : Kept b) (hnot : ¬Finset.Ico offset (offset + count) ⊆ b.bits) :
    RangeCleared b offset count (false, b) :=
  ⟨iff_of_false Bool.false_ne_true hnot, fun _ => rfl, h, ⟨rfl, rfl⟩, rfl,
    fun hfalse => absurd hfalse Bool.false_ne_true⟩

theorem RangeCleared.cleared (h : Kept b) (hall : Finset.Ico offset (offset + count) ⊆ b.bits)
    (hsummarized : Summarized b.usedDepths s) (hwithin : Within b.usedDepths b.words s)
    (hbits : ∀ i, bit s b.getHighestDepthIndex i = true ↔ i ∈ b.bits ∧ ¬(offset ≤ i ∧ i < offset + count)) :
    RangeCleared b offset count (true, { b with storages := s, numBits := b.numBits - count }) := by
  have hcount : b.numBits - count = (b.bits \ Finset.Ico offset (offset + count)).card := by
    rw [card_sdiff_of_subset hall, Nat.card_Ico, h.count, Nat.add_sub_cancel_left]
  obtain ⟨hkept, hset⟩ := h.rewritten (X := b.bits \ Finset.Ico offset (offset + count)) hsummarized
    hwithin fun i => by rw [hbits, mem_sdiff, mem_Ico]
  rw [← hcount] at hkept hset
  exact ⟨iff_of_true rfl hall, fun hfalse => absurd hfalse.symm Bool.false_ne_true, hkept, ⟨rfl, rfl⟩,
    rfl, fun _ => hset⟩

section

variable (h : Kept b) (hcount : count < 64) (hrange : offset % 64 + count ≤ 64)

include h hcount hrange

/-- A range within a word has all its bits just when the word has those of the mask. -/
theorem Kept.mask_iff :
    b.storages b.getHighestDepthIndex (offset / 64) &&&
        ((1#64 <<< count) - 1) <<< (offset % 64) = ((1#64 <<< count) - 1) <<< (offset % 64) ↔
      Finset.Ico offset (offset + count) ⊆ b.bits := by
  rw [and_eq_mask_iff]
  constructor
  · intro hall i hi
    rw [mem_Ico] at hi
    rw [h.mem_bits, has, bit, show i / 64 = offset / 64 by omega]
    refine hall _ ?_
    rw [getLsbD_rangeMask hcount hrange, decide_eq_true_eq]
    omega
  · intro hall j hj
    rw [getLsbD_rangeMask hcount hrange, decide_eq_true_eq] at hj
    have hi := hall (mem_Ico.2 (⟨by omega, by omega⟩ :
      offset ≤ offset / 64 * 64 + j ∧ offset / 64 * 64 + j < offset + count))
    rwa [h.mem_bits, has, bit_word (by omega)] at hi

/-- The bits that are left when a range within a word has been cleared. -/
theorem Kept.bit_cleared :
    bit (putWordAt b.storages b.getHighestDepthIndex (offset / 64)
      (b.storages b.getHighestDepthIndex (offset / 64) &&&
        ~~~(((1#64 <<< count) - 1) <<< (offset % 64)))) b.getHighestDepthIndex i = true ↔
      i ∈ b.bits ∧ ¬(offset ≤ i ∧ i < offset + count) := by
  rw [bit, putWordAt_word, h.mem_bits, has, bit]
  by_cases hword : i / 64 = offset / 64
  · rw [if_pos ⟨rfl, hword⟩, getLsbD_and_not (Nat.mod_lt _ (by decide)),
      getLsbD_rangeMask hcount hrange, hword, Bool.and_eq_true, Bool.not_eq_true', decide_eq_false_iff_not]
    refine and_congr_right fun _ => not_congr ?_
    omega
  · rw [if_neg fun hsame => hword hsame.2]
    refine (and_iff_left ?_).symm
    omega

/-- **`ClearRange` within a word.** -/
theorem Kept.clearBitsOfWord_spec (hoffset : offset < b.capacity) :
    wp (b.clearBitsOfWord offset count) fun r held =>
      (0 < count → held = true) ∧ RangeCleared b offset count r := by
  have hind : offset / 64 < b.words b.getHighestDepthIndex := by
    rw [capacity] at hoffset
    omega
  rw [clearBitsOfWord, wp_bind, wp_assert, word_eq hind, ret_true_bind, decide_eq_true hrange]
  generalize hold : b.storages b.getHighestDepthIndex (offset / 64) = old
  have hmask := h.mask_iff hcount hrange
  have hcleared := fun i => h.bit_cleared (i := i) hcount hrange
  rw [hold] at hmask hcleared
  by_cases hall : old &&& ((1#64 <<< count) - 1) <<< (offset % 64) = ((1#64 <<< count) - 1) <<< (offset % 64)
  · rw [if_neg (not_not.2 hall)]
    set new := old &&& ~~~(((1#64 <<< count) - 1) <<< (offset % 64)) with hnew
    have hsub := hmask.1 hall
    have hwithin : Within b.usedDepths b.words
        (putWordAt b.storages b.getHighestDepthIndex (offset / 64) new) := within_putWordAt h.within hind
    show wp (if new = 0 then _ else _) _
    by_cases hzero : new = 0
    · rw [if_pos hzero, wp_bind]
      rw [hzero] at hcleared ⊢
      refine wp_mono (emptyWord_spec b.storages b.getHighestDepthIndex (offset / 64) h.shape
        h.summarized h.within h.highest_succ hind) ?_
      rintro b' held ⟨hheld, s', rfl, hemptied⟩
      rw [pure_eq, wp_ret]
      refine ⟨fun hpos => ?_, RangeCleared.cleared h hsub hemptied.summarized hemptied.within fun i => ?_⟩
      · have hbit := hsub (mem_Ico.2 (⟨le_rfl, by omega⟩ :
          offset ≤ offset ∧ offset < offset + count))
        rw [h.mem_bits] at hbit
        rw [hheld (word_ne_zero_iff.2 ⟨offset, rfl, hbit⟩)]
        rfl
      · show (s' b.getHighestDepthIndex (i / 64)).getLsbD (i % 64) = true ↔ _
        rw [hemptied.here]
        exact hcleared i
    · rw [if_neg hzero, pure_eq, wp_ret]
      have hne : old ≠ 0 := by
        rintro rfl
        exact hzero (by rw [hnew]; exact zero_and)
      exact ⟨fun _ => rfl, RangeCleared.cleared h hsub
        (summarized_putWordAt h.summarized h.highest_succ (iff_of_true hzero (by rwa [hold]))) hwithin
        hcleared⟩
  · rw [if_pos hall, pure_eq, wp_ret]
    exact ⟨fun _ => rfl, RangeCleared.refused h fun hsub => hall (hmask.2 hsub)⟩

end

/-- A depth has at most this many words. -/
theorem shaped_words_le (h : Shaped used words) : ∀ depth < used, words depth ≤ 64 ^ depth
  | 0, _ => h.top.le
  | depth + 1, hdepth => by
    have hunder := h.under depth hdepth
    have hrest := shaped_words_le h depth (by omega)
    rw [Nat.pow_succ]
    omega

theorem Kept.words_lt (h : Kept b) : b.words b.getHighestDepthIndex ≤ 64 ^ 3 := by
  have hdepth : b.getHighestDepthIndex ≤ 3 := by
    have hused := h.shape.supported
    rw [maxDepth] at hused
    rw [getHighestDepthIndex]
    omega
  exact (shaped_words_le h.shape _ h.highest_lt).trans (Nat.pow_le_pow_right (by decide) hdepth)

theorem remainingAfter_words {k : ℕ} (hk : k + 1 ≤ 64 ^ 3) : remainingAfter (64 * (k + 1)) = 64 * k := by
  rw [remainingAfter]
  omega

/-- **The loop that checks whole words.** -/
theorem checkWords_spec (h : Kept b) : ∀ k rounds ind, k < rounds → ind + k < b.words b.getHighestDepthIndex →
      wp (b.checkWords rounds ind (64 * (k + 1))) fun full held => held = true ∧
        (full = true ↔ ∀ w, ind ≤ w → w ≤ ind + k → b.storages b.getHighestDepthIndex w = allOnes 64) := by
  intro k
  induction k with
  | zero =>
    intro rounds ind hrounds hind
    obtain ⟨rounds, rfl⟩ : ∃ r, rounds = r + 1 := ⟨rounds - 1, by omega⟩
    rw [checkWords, word_eq (by omega), ret_true_bind, remainingAfter_words (by decide)]
    have hone : (∀ w, ind ≤ w → w ≤ ind + 0 → b.storages b.getHighestDepthIndex w = allOnes 64) ↔
        b.storages b.getHighestDepthIndex ind = allOnes 64 :=
      ⟨fun hall => hall ind le_rfl le_rfl, fun hind w hle hge => by rwa [show w = ind by omega]⟩
    rw [hone]
    by_cases hword : b.storages b.getHighestDepthIndex ind = allOnes 64
    · rw [if_neg (not_not.2 hword), if_neg (lt_irrefl 0), pure_eq, wp_ret]
      exact ⟨rfl, iff_of_true rfl hword⟩
    · rw [if_pos hword, pure_eq, wp_ret]
      exact ⟨rfl, iff_of_false Bool.false_ne_true hword⟩
  | succ k ih =>
    intro rounds ind hrounds hind
    obtain ⟨rounds, rfl⟩ : ∃ r, rounds = r + 1 := ⟨rounds - 1, by omega⟩
    have hsmall : k + 1 + 1 ≤ 64 ^ 3 := (by omega : k + 1 + 1 ≤ _).trans h.words_lt
    rw [checkWords, word_eq (by omega), ret_true_bind, remainingAfter_words hsmall]
    by_cases hword : b.storages b.getHighestDepthIndex ind = allOnes 64
    · rw [if_neg (not_not.2 hword), if_pos (by omega)]
      refine wp_mono (ih rounds (ind + 1) (by omega) (by omega)) ?_
      rintro full held ⟨hheld, hfull⟩
      refine ⟨hheld, hfull.trans ⟨fun hall w hle hge => ?_, fun hall w hle hge => ?_⟩⟩
      · rcases Nat.eq_or_lt_of_le hle with rfl | hlt
        · exact hword
        · exact hall w hlt (by omega)
      · exact hall w (by omega) (by omega)
    · rw [if_pos hword, pure_eq, wp_ret]
      exact ⟨rfl, iff_of_false Bool.false_ne_true fun hall => hword (hall ind le_rfl (by omega))⟩

/-- What is left when some words of the last depth have been emptied. -/
structure EmptiedFrom (used : ℕ) (words : ℕ → ℕ) (s s' : Levels) (depth ind k : ℕ) : Prop where
  summarized : Summarized used s'
  within : Within used words s'
  here : ∀ w, s' depth w = if ind ≤ w ∧ w ≤ ind + k then 0 else s depth w

/-- **The loop that clears whole words.** -/
theorem clearWords_spec (h : Kept b) : ∀ k rounds ind s, k < rounds →
    ind + k < b.words b.getHighestDepthIndex → Summarized b.usedDepths s → Within b.usedDepths b.words s →
      (∀ w, ind ≤ w → w ≤ ind + k → s b.getHighestDepthIndex w ≠ 0) →
      wp (clearWords { b with storages := s } rounds ind (64 * (k + 1))) fun b' held =>
        held = true ∧ ∃ s', b' = { b with storages := s' } ∧
          EmptiedFrom b.usedDepths b.words s s' b.getHighestDepthIndex ind k := by
  intro k
  induction k with
  | zero =>
    intro rounds ind s hrounds hind hsummarized hwithin hfull
    obtain ⟨rounds, rfl⟩ : ∃ r, rounds = r + 1 := ⟨rounds - 1, by omega⟩
    rw [clearWords, word_eq (by show ind < b.words b.getHighestDepthIndex; omega), ret_true_bind,
      wp_bind, remainingAfter_words (by decide)]
    refine wp_mono (emptyWord_spec s b.getHighestDepthIndex ind h.shape hsummarized hwithin
      h.highest_succ (by omega)) ?_
    rintro b' held ⟨hheld, s', rfl, hemptied⟩
    rw [if_neg (lt_irrefl 0), pure_eq, wp_ret, hheld (hfull ind le_rfl le_rfl)]
    refine ⟨rfl, s', rfl, hemptied.summarized, hemptied.within, fun w => ?_⟩
    rw [hemptied.here, putWordAt_word]
    exact if_congr ⟨fun hw => by omega, fun hw => ⟨rfl, by omega⟩⟩ rfl rfl
  | succ k ih =>
    intro rounds ind s hrounds hind hsummarized hwithin hfull
    obtain ⟨rounds, rfl⟩ : ∃ r, rounds = r + 1 := ⟨rounds - 1, by omega⟩
    have hsmall : k + 1 + 1 ≤ 64 ^ 3 := (by omega : k + 1 + 1 ≤ _).trans h.words_lt
    have hlt : ind < b.words b.getHighestDepthIndex := by omega
    rw [clearWords, word_eq (by exact hlt), ret_true_bind, wp_bind, remainingAfter_words hsmall]
    refine wp_mono (emptyWord_spec s b.getHighestDepthIndex ind h.shape hsummarized hwithin
      h.highest_succ hlt) ?_
    rintro b' held ⟨hheld, s₁, rfl, hemptied⟩
    rw [if_pos (by omega), hheld (hfull ind le_rfl (by omega))]
    refine wp_mono (ih rounds (ind + 1) s₁ (by omega) (by omega) hemptied.summarized
      hemptied.within fun w hle hge => ?_) ?_
    · rw [hemptied.here, putWordAt_word, if_neg (by omega)]
      exact hfull w (by omega) (by omega)
    · rintro b' held' ⟨rfl, s', rfl, hrest⟩
      refine ⟨rfl, s', rfl, hrest.summarized, hrest.within, fun w => ?_⟩
      rw [hrest.here, hemptied.here, putWordAt_word]
      by_cases hw : w = ind
      · rw [if_neg (by omega), if_pos ⟨rfl, hw⟩, if_pos (by omega)]
      · rw [if_neg (fun hsame : _ = _ ∧ w = ind => hw hsame.2)]
        exact if_congr (by omega) rfl rfl

/-- A range of whole words has all its bits just when its words do. -/
theorem Kept.words_iff (h : Kept b) {k : ℕ} (hoffset : offset % 64 = 0) (hcount : count = 64 * (k + 1)) :
    (∀ w, offset / 64 ≤ w → w ≤ offset / 64 + k → b.storages b.getHighestDepthIndex w = allOnes 64) ↔
      Finset.Ico offset (offset + count) ⊆ b.bits := by
  constructor
  · intro hall i hi
    rw [mem_Ico] at hi
    rw [h.mem_bits, has, bit, hall (i / 64) (by omega) (by omega), getLsbD_allOnes, decide_eq_true_eq]
    omega
  · intro hall w hle hge
    refine eq_of_getLsbD_eq fun j hj => ?_
    have hi := hall (mem_Ico.2 (⟨by omega, by omega⟩ :
      offset ≤ w * 64 + j ∧ w * 64 + j < offset + count))
    rw [h.mem_bits, has, bit_word hj] at hi
    rw [hi, getLsbD_allOnes, decide_eq_true hj]

/-- **`ClearRange` over whole words.** -/
theorem Kept.clearWholeWords_spec (h : Kept b) (hcount : 64 ≤ count) (hoffset : offset % 64 = 0)
    (hwhole : count % 64 = 0) (hrange : offset + count ≤ b.capacity) :
    wp (b.clearWholeWords offset count) fun r held =>
      held = true ∧ RangeCleared b offset count r := by
  obtain ⟨k, hk⟩ : ∃ k, count = 64 * (k + 1) := ⟨count / 64 - 1, by omega⟩
  have hind : offset / 64 + k < b.words b.getHighestDepthIndex := by
    rw [capacity] at hrange
    omega
  have hiff := h.words_iff hoffset hk
  rw [clearWholeWords, wp_bind, wp_assert, wp_bind, wp_assert, wp_bind, decide_eq_true hoffset, decide_eq_true hwhole]
  rw [show (count : ℕ) = 64 * (k + 1) from hk]
  refine wp_mono (checkWords_spec h k _ (offset / 64) (by omega) hind) ?_
  rintro full held ⟨rfl, hfull⟩
  rw [← hk]
  rw [hiff] at hfull
  cases full with
  | false =>
    rw [Bool.not_false, if_pos rfl, pure_eq, wp_ret]
    exact ⟨rfl, RangeCleared.refused h fun hsub => Bool.false_ne_true (hfull.2 hsub)⟩
  | true =>
    have hsub := hfull.1 rfl
    rw [Bool.not_true, if_neg Bool.false_ne_true, wp_bind, hk]
    refine wp_mono (clearWords_spec h k _ (offset / 64) b.storages (by omega) hind h.summarized
      h.within fun w hle hge => ?_) ?_
    · rw [hiff.2 hsub w hle hge]
      decide
    · rintro b' held ⟨rfl, s', rfl, hemptied⟩
      rw [pure_eq, wp_ret, ← hk]
      refine ⟨rfl, RangeCleared.cleared h hsub hemptied.summarized hemptied.within fun i => ?_⟩
      show (s' b.getHighestDepthIndex (i / 64)).getLsbD (i % 64) = true ↔ _
      rw [hemptied.here, h.mem_bits, has, bit]
      by_cases hin : offset / 64 ≤ i / 64 ∧ i / 64 ≤ offset / 64 + k
      · rw [if_pos hin, ofNat_eq_ofNat, getLsbD_zero]
        exact iff_of_false Bool.false_ne_true fun hi => hi.2 (by omega)
      · rw [if_neg hin]
        refine (and_iff_left ?_).symm
        omega

/-- **`ClearRange`**: it returns true just when the range has all its bits, and takes them out. -/
theorem Kept.clearRange_spec (h : Kept b) (haligned : RangeAligned offset count)
    (hoffset : offset < b.capacity) (hrange : offset + count ≤ b.capacity) :
    wp (b.clearRange offset count) fun r held =>
      (0 < count → held = true) ∧ RangeCleared b offset count r := by
  rw [RangeAligned] at haligned
  rw [clearRange]
  split_ifs with hcount
  · rw [if_pos hcount] at haligned
    exact h.clearBitsOfWord_spec hcount haligned hoffset
  · rw [if_neg hcount] at haligned
    refine wp_mono (h.clearWholeWords_spec (not_lt.1 hcount) haligned.1 haligned.2 hrange) ?_
    exact fun r held hr => ⟨fun _ => hr.1, hr.2⟩

end KPageBitmap

end Kernel
end NXEmu
