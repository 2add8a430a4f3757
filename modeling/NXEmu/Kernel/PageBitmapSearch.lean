/-
# The search of a page bitmap

`FindFreeBlock` goes down from the top, at each depth to a bit of the word it is at, the first or a
random one.  While the summaries are right that bit leads to a word that has one too, so only the top
word can be empty, and then all of the bitmap is (`Summarized.empty`).

With the lemmas for the routines that change the bitmap this makes a page bitmap of any supported
capacity the set that a run of its routines has made (`Reached.hierarchical`).
-/

import NXEmu.Kernel.PageBitmapSummaries
import Mathlib.Algebra.BigOperators.Intervals

namespace NXEmu
namespace Kernel

open SummaryBitmap Exec

variable {used depth offset count ind i size : ℕ} {words : ℕ → ℕ} {s : Levels}

namespace RandomBitGenerator

variable {g : RandomBitGenerator} {bitmap : BitVec 64}

/-- The numbers of bits that `SelectRandomBit` halves by, in a word of `2 ^ n`. -/
def halves : ℕ → List ℕ
  | 0 => []
  | n + 1 => 2 ^ n :: halves n

theorem getLsbD_low (bitmap : BitVec 64) (n j : ℕ) :
    (bitmap &&& ~~~(BitVec.allOnes 64 <<< n)).getLsbD j = (bitmap.getLsbD j && decide (j < n)) := by
  rw [BitVec.getLsbD_and, BitVec.getLsbD_not, BitVec.getLsbD_shiftLeft, BitVec.getLsbD_allOnes]
  by_cases hj : j < 64
  · by_cases hn : j < n
    · simp [hj, hn]
    · simp [hj, hn, show j - n < 64 by omega]
  · simp [BitVec.getLsbD_of_ge bitmap j (not_lt.1 hj)]

/-- **The loop of `SelectRandomBit`** ends at a bit of the word, whatever is drawn. -/
theorem selectFrom_spec : ∀ n g (bitmap : BitVec 64) selected, bitmap ≠ 0 →
    (∀ j, 2 ^ n ≤ j → bitmap.getLsbD j = false) →
      ∃ j, bitmap.getLsbD j = true ∧ (selectFrom (halves n) g bitmap selected).1 = selected + j := by
  intro n
  induction n with
  | zero =>
    intro g bitmap selected hne hsmall
    obtain ⟨-, hbit, -⟩ := firstBit_spec hne
    refine ⟨0, ?_, rfl⟩
    by_cases hzero : firstBit bitmap = 0
    · rwa [hzero] at hbit
    · rw [hsmall (firstBit bitmap) (by omega)] at hbit
      exact absurd hbit Bool.false_ne_true
  | succ n ih =>
    intro g bitmap selected hne hsmall
    have hlow : ∀ g, bitmap &&& ~~~(BitVec.allOnes 64 <<< 2 ^ n) ≠ 0 → ∃ j, bitmap.getLsbD j = true ∧
        (selectFrom (halves n) g (bitmap &&& ~~~(BitVec.allOnes 64 <<< 2 ^ n)) selected).1 = selected + j := by
      intro g hlow
      obtain ⟨j, hj, hselect⟩ := ih g _ selected hlow fun j hj => by
        rw [getLsbD_low, decide_eq_false (not_lt.2 hj), Bool.and_false]
      rw [getLsbD_low, Bool.and_eq_true] at hj
      exact ⟨j, hj.1, hselect⟩
    have hhigh : ∀ g, bitmap >>> 2 ^ n ≠ 0 → ∃ j, bitmap.getLsbD j = true ∧
        (selectFrom (halves n) g (bitmap >>> 2 ^ n) (selected + 2 ^ n)).1 = selected + j := by
      intro g hhigh
      obtain ⟨j, hj, hselect⟩ := ih g _ (selected + 2 ^ n) hhigh fun j hj => by
        rw [BitVec.getLsbD_ushiftRight]
        exact hsmall _ (by rw [Nat.pow_succ]; omega)
      rw [BitVec.getLsbD_ushiftRight] at hj
      exact ⟨2 ^ n + j, hj, by rw [hselect, Nat.add_assoc]⟩
    rw [halves, selectFrom]
    by_cases hzero : bitmap >>> 2 ^ n = 0
    · rw [if_pos hzero]
      refine hlow g fun hnone => hne (BitVec.eq_of_getLsbD_eq fun j _ => ?_)
      have hbit := congrArg (fun v : BitVec 64 => v.getLsbD j) hnone
      have hshift := congrArg (fun v : BitVec 64 => v.getLsbD (j - 2 ^ n)) hzero
      simp only [getLsbD_low, BitVec.getLsbD_ushiftRight, BitVec.ofNat_eq_ofNat, BitVec.getLsbD_zero] at hbit hshift ⊢
      by_cases hj : j < 2 ^ n
      · rwa [decide_eq_true hj, Bool.and_true] at hbit
      · rwa [Nat.add_sub_cancel' (not_lt.1 hj)] at hshift
    · rw [if_neg hzero]
      split_ifs with hnone
      · exact hhigh g hzero
      · obtain ⟨chosen, g'⟩ := g.generateRandomBit
        cases chosen with
        | true => exact hhigh g' hzero
        | false => exact hlow g' hnone

/-- **`SelectRandomBit`.** -/
theorem selectRandomBit_spec (g : RandomBitGenerator) (hne : bitmap ≠ 0) :
    bitmap.getLsbD (g.selectRandomBit bitmap).1 = true := by
  obtain ⟨j, hj, hselect⟩ := selectFrom_spec 6 g bitmap 0 hne fun j hj =>
    BitVec.getLsbD_of_ge bitmap j hj
  have hselect' : (g.selectRandomBit bitmap).1 = j := hselect.trans (Nat.zero_add j)
  rwa [hselect']

end RandomBitGenerator

namespace KPageBitmap

variable {b : KPageBitmap}

theorem selectBit_spec (g : RandomBitGenerator) (random : Bool) {v : BitVec 64} (hne : v ≠ 0) :
    v.getLsbD (selectBit g random v).1 = true := by
  cases random with
  | true => exact g.selectRandomBit_spec hne
  | false => exact (firstBit_spec hne).2.1

/-- **Under an empty top word** nothing is set. -/
theorem Kept.empty (h : Kept b) (htop : b.storages 0 0 = 0) :
    ∀ depth < b.usedDepths, ∀ w, b.storages depth w = 0
  | 0, hdepth, w => by
    by_cases hw : w = 0
    · rw [hw, htop]
    · exact h.within 0 hdepth w (by rw [h.shape.top]; omega)
  | depth + 1, hdepth, w => by
    have habove := empty h htop depth (by omega) (w / 64)
    by_contra hne
    have hbit := (h.summarized depth hdepth w).2 hne
    rw [bit, habove, BitVec.ofNat_eq_ofNat, BitVec.getLsbD_zero] at hbit
    exact Bool.false_ne_true hbit

/-- **The loop of `FindFreeBlock`**, at a word that has a bit: it ends at a member. -/
theorem findFreeFrom_spec (h : Kept b) (random : Bool) : ∀ below depth offset g,
    depth + below = b.getHighestDepthIndex → b.storages depth offset ≠ 0 →
      wp (b.findFreeFrom random g below depth offset) fun r held => held = true ∧ ∃ i ∈ b.bits, r.1 = some i := by
  have hbound : ∀ depth offset, depth ≤ b.getHighestDepthIndex → b.storages depth offset ≠ 0 →
      offset < b.words depth := fun depth offset hdepth hword => by
    by_contra hge
    exact hword (h.within depth (by have := h.highest_lt; omega) offset (not_lt.1 hge))
  intro below
  induction below with
  | zero =>
    intro depth offset g hdepth hword
    obtain rfl : depth = b.getHighestDepthIndex := hdepth
    have hbit := selectBit_spec g random hword
    rw [findFreeFrom, word_eq (hbound _ _ le_rfl hword), ret_true_bind, if_neg hword]
    generalize selectBit g random (b.storages b.getHighestDepthIndex offset) = chosen at hbit ⊢
    obtain ⟨j, g'⟩ := chosen
    have hlt : j < 64 := BitVec.lt_of_getLsbD hbit
    exact wp_ret.2 ⟨rfl, _, h.mem_bits.2 (by rwa [has, bit_word hlt]), rfl⟩
  | succ below ih =>
    intro depth offset g hdepth hword
    have hbit := selectBit_spec g random hword
    rw [findFreeFrom, word_eq (hbound _ _ (by omega) hword), ret_true_bind, if_neg hword]
    generalize selectBit g random (b.storages depth offset) = chosen at hbit ⊢
    obtain ⟨j, g'⟩ := chosen
    have hlt : j < 64 := BitVec.lt_of_getLsbD hbit
    refine ih (depth + 1) (offset * 64 + j) g' (by omega) ?_
    rw [← h.summarized depth (by have := h.highest_lt; omega), bit_word hlt]
    exact hbit

/-- What `FindFreeBlock` returns and leaves. -/
structure Found (b : KPageBitmap) (r : Option ℕ × KPageBitmap) : Prop where
  none : r.1 = none ↔ b.bits = ∅
  some : ∀ i, r.1 = some i → i ∈ b.bits
  storages : r.2.storages = b.storages
  bits : r.2.bits = b.bits
  kept : Kept r.2
  shape : SameShape b r.2

/-- **`FindFreeBlock`**: a member, or none of the empty set. -/
theorem Kept.findFreeBlock_spec (h : Kept b) (random : Bool) :
    wp (b.findFreeBlock random) fun r held => held = true ∧ Found b r := by
  rw [findFreeBlock, wp_bind]
  by_cases htop : b.storages 0 0 = 0
  · have hnone : b.bits = ∅ := by
      refine Finset.eq_empty_of_forall_notMem fun i hi => ?_
      rw [h.mem_bits, has, bit, h.empty htop _ h.highest_lt, BitVec.ofNat_eq_ofNat, BitVec.getLsbD_zero] at hi
      exact Bool.false_ne_true hi
    have hloop : b.findFreeFrom random b.rng b.getHighestDepthIndex 0 0 = .ret (none, b.rng) true := by
      cases b.getHighestDepthIndex with
      | zero => rw [findFreeFrom, word_eq (by rw [h.shape.top]; decide), ret_true_bind, if_pos htop]; rfl
      | succ n => rw [findFreeFrom, word_eq (by rw [h.shape.top]; decide), ret_true_bind, if_pos htop]; rfl
    rw [hloop, wp_ret]
    exact wp_ret.2 ⟨rfl, iff_of_true rfl hnone, fun i hi => (Option.some_ne_none i hi.symm).elim, rfl,
      rfl, { h with }, rfl, rfl⟩
  · refine wp_mono (findFreeFrom_spec h random b.getHighestDepthIndex 0 0 b.rng (Nat.zero_add _)
      htop) ?_
    rintro ⟨result, rng⟩ held ⟨rfl, i, hi, rfl⟩
    refine wp_ret.2 ⟨rfl, iff_of_false (Option.some_ne_none i) (Finset.ne_empty_of_mem hi), ?_, rfl,
      rfl, { h with }, rfl, rfl⟩
    rintro j hj
    obtain rfl := Option.some_inj.1 hj
    exact hi

/-! ### A new bitmap -/

theorem le_wordsFor (size : ℕ) : size ≤ 64 * wordsFor size := by
  rw [wordsFor]
  omega

/-- As many depths as are required leave one word at the top. -/
theorem wordsFor_iterate : ∀ n size, 0 < size → size ≤ 64 ^ n → wordsFor^[n] size = 1
  | 0, size, hpos, hle => by
    rw [Function.iterate_zero, id]
    omega
  | n + 1, size, hpos, hle => by
    rw [Nat.pow_succ] at hle
    have hwords : wordsFor size = (size + 63) / 64 := rfl
    exact wordsFor_iterate n (wordsFor size) (by omega) (by omega)

theorem lt_of_requiredDepthFrom : ∀ rounds size, requiredDepthFrom rounds size < rounds →
    0 < requiredDepthFrom rounds size ∧ size < 64 ^ requiredDepthFrom rounds size := by
  intro rounds
  induction rounds with
  | zero => exact fun size h => absurd h (Nat.not_lt_zero _)
  | succ rounds ih =>
    intro size h
    rw [requiredDepthFrom] at h ⊢
    split_ifs at h ⊢ with hzero
    · exact ⟨Nat.one_pos, by omega⟩
    · have hrest := (ih (size / 64) (by omega)).2
      rw [Nat.pow_succ]
      exact ⟨Nat.succ_pos _, by omega⟩

theorem layOut_of_le : ∀ n size (words : ℕ → ℕ) depth, n ≤ depth → layOut n size words depth = words depth
  | 0, _, _, _, _ => rfl
  | n + 1, size, words, depth, hdepth => by
    rw [layOut, layOut_of_le n _ _ depth (by omega), Function.update_of_ne (by omega)]

/-- How many words the depths are given. -/
theorem layOut_words : ∀ n size (words : ℕ → ℕ) depth, depth < n →
    layOut n size words depth = wordsFor^[n - depth] size
  | n + 1, size, words, depth, hdepth => by
    rw [layOut]
    rcases Nat.eq_or_lt_of_le (Nat.lt_succ_iff.1 hdepth) with rfl | hlt
    · rw [layOut_of_le depth _ _ depth le_rfl, Function.update_self, Nat.add_sub_cancel_left, Function.iterate_one]
    · rw [layOut_words n (wordsFor size) _ depth hlt, ← Function.iterate_succ_apply wordsFor, Nat.succ_sub hlt.le]

/-- The overhead is what the depths take up. -/
theorem overheadWords_eq : ∀ n size (words : ℕ → ℕ),
    overheadWords n size = ∑ depth ∈ Finset.range n, layOut n size words depth
  | 0, _, _ => rfl
  | n + 1, size, words => by
    rw [overheadWords, Finset.sum_range_succ, layOut, overheadWords_eq n, layOut_of_le n _ _ n le_rfl,
      Function.update_self, Nat.add_comm]

/-- **`Initialize`** makes the empty set, with room for the size. -/
theorem initialized_spec (rng : RandomBitGenerator) (hpos : 0 < size) (hdepth : getRequiredDepth size ≤ maxDepth) :
    wp (initialized rng size) fun b held => held = true ∧ Kept b ∧ b.bits = ∅ ∧
      size ≤ b.capacity ∧ calculateManagementOverheadSize size =
        8 * ∑ depth ∈ Finset.range b.usedDepths, b.words depth := by
  have hrequired := lt_of_requiredDepthFrom 11 size (hdepth.trans_lt (by decide))
  rw [← getRequiredDepth] at hrequired
  rw [initialized, wp_bind, wp_assert, pure_eq, wp_ret]
  have hwords := layOut_words (getRequiredDepth size) size fun _ => 0
  have hshape : Shaped (getRequiredDepth size) (layOut (getRequiredDepth size) size fun _ => 0) := by
    refine ⟨hrequired.1, hdepth, ?_, fun depth hdepth => ?_⟩
    · rw [hwords 0 hrequired.1]
      exact wordsFor_iterate _ size hpos hrequired.2.le
    · rw [hwords _ hdepth, hwords _ (by omega),
        show getRequiredDepth size - depth = getRequiredDepth size - (depth + 1) + 1 by omega,
        Function.iterate_succ_apply']
      exact le_wordsFor _
  have hbits : ∀ i, bit (fun _ _ => 0) (getRequiredDepth size - 1) i = false := fun i => by simp [bit]
  have hempty : bits ⟨fun _ _ => 0, layOut (getRequiredDepth size) size fun _ => 0, rng, 0,
      getRequiredDepth size⟩ = ∅ :=
    Finset.filter_false_of_mem fun i _ => ne_true_of_eq_false (hbits i)
  refine ⟨by simpa using hdepth, ⟨hshape, fun _ _ _ _ => rfl, fun depth _ w => ?_, by rw [hempty]; rfl⟩,
    hempty, ?_, ?_⟩
  · show bit (fun _ _ => 0) depth w = true ↔ (0 : BitVec 64) ≠ 0
    simp [bit]
  · show size ≤ 64 * layOut (getRequiredDepth size) size (fun _ => 0) (getRequiredDepth size - 1)
    rw [hwords _ (Nat.sub_one_lt (Nat.pos_iff_ne_zero.1 hrequired.1)),
      Nat.sub_sub_self hrequired.1, Function.iterate_one]
    exact le_wordsFor size
  · rw [calculateManagementOverheadSize, overheadWords_eq _ _ fun _ => 0, Nat.mul_comm]

/-! ### Runs -/

/-- The bitmaps of a capacity: a new one, and what the routines leave of one when they are given a clear
bit to set, a set one to clear, or a range as aligned as they assert. -/
inductive Reached (size : ℕ) : KPageBitmap → Prop
  | initialized {b : KPageBitmap} (rng : RandomBitGenerator) (hpos : 0 < size)
      (h : KPageBitmap.initialized rng size = .ret b true) : Reached size b
  | setBit {b b' : KPageBitmap} {held : Bool} (offset : ℕ) (run : Reached size b)
      (hoffset : offset < b.capacity) (hclear : b.has offset = false)
      (h : b.setBit offset = .ret b' held) : Reached size b'
  | clearBit {b b' : KPageBitmap} {held : Bool} (offset : ℕ) (run : Reached size b)
      (hset : offset < b.capacity ∧ b.has offset = true)
      (h : b.clearBit offset = .ret b' held) : Reached size b'
  | clearRange {b b' : KPageBitmap} {cleared held : Bool} (offset count : ℕ) (run : Reached size b)
      (haligned : RangeAligned offset count) (hoffset : offset < b.capacity)
      (hrange : offset + count ≤ b.capacity)
      (h : b.clearRange offset count = .ret (cleared, b') held) : Reached size b'
  | findFreeBlock {b b' : KPageBitmap} {found : Option ℕ} {held : Bool} (random : Bool)
      (run : Reached size b) (h : b.findFreeBlock random = .ret (found, b') held) : Reached size b'

section

variable {b : KPageBitmap} (h : Reached size b)

include h

/-- Every bitmap reached is kept, and has room for its size. -/
theorem Reached.kept : Kept b ∧ size ≤ b.capacity := by
  have hsame : ∀ {b b' : KPageBitmap}, SameShape b b' → b'.capacity = b.capacity := fun hshape => by
    rw [capacity, capacity, getHighestDepthIndex, getHighestDepthIndex, hshape.1, hshape.2]
  induction h with
  | initialized rng hpos h =>
    have hdepth : getRequiredDepth size ≤ maxDepth := by
      have hassert : wp (KPageBitmap.initialized rng size) fun _ held =>
          held = true → getRequiredDepth size ≤ maxDepth := by
        rw [KPageBitmap.initialized, wp_bind, wp_assert, pure_eq, wp_ret, Bool.and_true]
        exact of_decide_eq_true
      rw [h, wp_ret] at hassert
      exact hassert rfl
    have hspec := initialized_spec rng hpos hdepth
    rw [h, wp_ret] at hspec
    exact ⟨hspec.2.1, hspec.2.2.2.1⟩
  | setBit offset run hoffset hclear h ih =>
    have hspec := ih.1.setBit_spec hoffset (by rw [ih.1.mem_bits, hclear]; exact Bool.false_ne_true)
    rw [h, wp_ret] at hspec
    exact ⟨hspec.2.1, by rw [hsame hspec.2.2.1]; exact ih.2⟩
  | clearBit offset run hset h ih =>
    have hspec := ih.1.clearBit_spec (ih.1.mem_bits.2 hset.2)
    rw [h, wp_ret] at hspec
    exact ⟨hspec.2.1, by rw [hsame hspec.2.2.1]; exact ih.2⟩
  | clearRange offset count run haligned hoffset hrange h ih =>
    have hspec := ih.1.clearRange_spec haligned hoffset hrange
    rw [h, wp_ret] at hspec
    exact ⟨hspec.2.kept, by rw [hsame hspec.2.shape]; exact ih.2⟩
  | findFreeBlock random run h ih =>
    have hspec := ih.1.findFreeBlock_spec random
    rw [h, wp_ret] at hspec
    exact ⟨hspec.2.kept, by rw [hsame hspec.2.shape]; exact ih.2⟩

theorem Reached.size_pos : 0 < size := by
  induction h with
  | initialized rng hpos h => exact hpos
  | setBit offset run hoffset hclear h ih => exact ih
  | clearBit offset run hset h ih => exact ih
  | clearRange offset count run haligned hoffset hrange h ih => exact ih
  | findFreeBlock random run h ih => exact ih

theorem Reached.words_pos :
    0 < b.words b.getHighestDepthIndex := by
  have hpos := h.size_pos
  have hroom := h.kept.2
  rw [capacity] at hroom
  omega

end

/-- A correct hierarchical set: its count and its summaries are right, and no routine faults or does
anything else to it than what it does to a set. -/
structure Correct (b : KPageBitmap) : Prop where
  numBits : b.numBits = b.bits.card
  summaries : ∀ depth, depth + 1 < b.usedDepths → ∀ w,
    bit b.storages depth w = true ↔ b.storages (depth + 1) w ≠ 0
  setBit : ∀ offset < b.capacity, b.has offset = false → Exec.wp (b.setBit offset) fun b' held =>
    held = true ∧ b'.bits = insert offset b.bits
  clearBit : ∀ offset < b.capacity, b.has offset = true → Exec.wp (b.clearBit offset) fun b' held =>
    held = true ∧ b'.bits = b.bits.erase offset
  clearRange : ∀ offset count, RangeAligned offset count → offset < b.capacity →
    offset + count ≤ b.capacity → Exec.wp (b.clearRange offset count) fun r held =>
      (0 < count → held = true) ∧ (r.1 = true ↔ Finset.Ico offset (offset + count) ⊆ b.bits) ∧
        (r.1 = true → r.2.bits = b.bits \ Finset.Ico offset (offset + count)) ∧
        (r.1 = false → r.2 = b)
  findFreeBlock : ∀ random, Exec.wp (b.findFreeBlock random) fun r held =>
    held = true ∧ (r.1 = none ↔ b.bits = ∅) ∧ (∀ i, r.1 = some i → i ∈ b.bits) ∧
      r.2.storages = b.storages

/-- **A page bitmap is a hierarchical set**, for every capacity and whatever is done to it. -/
theorem Reached.hierarchical {b : KPageBitmap} (h : Reached size b) : Correct b := by
  obtain ⟨hkept, -⟩ := h.kept
  refine ⟨hkept.count, hkept.summarized, fun offset hoffset hclear => ?_, fun offset hoffset hset => ?_,
    fun offset count haligned hoffset hrange => ?_, fun random => ?_⟩
  · refine Exec.wp_mono (hkept.setBit_spec hoffset ?_) fun b' held hr => ⟨hr.1, hr.2.2.2.2⟩
    rw [hkept.mem_bits, hclear]
    exact Bool.false_ne_true
  · exact Exec.wp_mono (hkept.clearBit_spec (hkept.mem_bits.2 hset)) fun b' held hr => ⟨hr.1, hr.2.2.2.2⟩
  · exact Exec.wp_mono (hkept.clearRange_spec haligned hoffset hrange) fun r held hr =>
      ⟨hr.1, hr.2.iff, hr.2.bits, hr.2.unchanged⟩
  · exact Exec.wp_mono (hkept.findFreeBlock_spec random) fun r held hr =>
      ⟨hr.1, hr.2.none, hr.2.some, hr.2.storages⟩

/-- A bitmap of 8192 bits has three depths.  After three bits are set and two of them cleared as a range, their word
and its bit in the summary are clear, and so is the bit of that summary at the top. -/
theorem hierarchical_of_8192 : ∃ b, Reached 8192 b ∧ b.usedDepths = 3 ∧ b.numBits = 1 ∧
    b.storages 2 65 = 0 ∧ b.storages 1 1 = 0 ∧ b.storages 0 0 = 1 ∧ Correct b := by
  have hstart : Reached 8192 ⟨fun _ _ => 0, layOut 3 8192 fun _ => 0, ⟨fun _ => 0, 0, 0⟩, 0, 3⟩ :=
    .initialized ⟨fun _ => 0, 0, 0⟩ (by decide) rfl
  have hset := ((hstart.setBit 70 (by decide) (by decide) rfl).setBit 4161 (by decide) (by decide) rfl).setBit 4160
    (by decide) (by decide) rfl
  have hcleared := hset.clearRange 4160 2 (by decide) (by decide) (by decide) rfl
  exact ⟨_, hcleared, rfl, rfl, by decide, by decide, by decide, hcleared.hierarchical⟩

end KPageBitmap

end Kernel
end NXEmu
