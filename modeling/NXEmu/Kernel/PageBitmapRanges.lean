/-
# Ranges in a page bitmap

`FindFreeRange` looks at every word for runs of `count` set bits at a multiple of `count`, and keeps one
of those it finds at random.  Its mask is `(1 << count) - 1`, and its guard lets a count of 64 pass, at
which the shift is by the whole width: the mask is then empty and fits every word.

For a smaller count the search is right whatever is drawn (`findFreeRange_of_lt`).  For 64 it takes any
word there is, and for every word some stream of random bits makes it take that one (`takes_word`): the
bits of a draw are laid out from the last draw to the first, each in front of those that follow it.
-/

import NXEmu.Kernel.PageBitmapSearch

variable {i : ℕ} {g' : RandomBitGenerator}

namespace NXEmu
namespace Kernel

open SummaryBitmap

variable {count storageIndex left option n r size : ℕ} {b : KPageBitmap} {o : KPageBitmap.Options}

namespace KPageBitmap

/-! ### What is to be found -/

/-- A slot of `count` bits: within one word, at a multiple of `count`. -/
def IsSlot (b : KPageBitmap) (count r : ℕ) : Prop :=
  ∃ storageIndex option, storageIndex < b.words b.getHighestDepthIndex ∧ option * count + count ≤ 64 ∧
    r = storageIndex * 64 + option * count

/-- What a search for a slot owes: one whose bits are all set, and none only if there is none. -/
structure SlotFound (b : KPageBitmap) (count : ℕ) (result : Option ℕ) : Prop where
  sound : ∀ r, result = some r → IsSlot b count r ∧ ∀ i < count, b.has (r + i) = true
  complete : result = none → ∀ r, IsSlot b count r → ¬∀ i < count, b.has (r + i) = true

/-- The search only takes random bits. -/
theorem findFreeRange_snd (b : KPageBitmap) (count : ℕ) :
    ∃ rng, (b.findFreeRange count).2 = { b with rng := rng } := by
  simp only [findFreeRange]
  split_ifs
  · exact ⟨b.rng, rfl⟩
  · exact ⟨_, rfl⟩

/-- Nothing is found that does not fit in a word. -/
theorem findFreeRange_le (b : KPageBitmap) (hfound : (b.findFreeRange count).1 = some r) : count ≤ 64 := by
  simp only [findFreeRange] at hfound
  split_ifs at hfound with hguard
  by_contra hgt
  refine hguard ?_
  rw [decide_eq_false hgt, Bool.and_false]
  rfl

/-- A slot meets the alignment that `ClearRange` asserts, and lies in the bitmap. -/
theorem IsSlot.aligned (h : IsSlot b count r) (hpos : 0 < count) :
    RangeAligned r count ∧ r + count ≤ b.capacity := by
  obtain ⟨storageIndex, option, hindex, hoption, rfl⟩ := h
  refine ⟨?_, by rw [capacity]; omega⟩
  rw [RangeAligned]
  split_ifs with hlt
  · omega
  · obtain rfl : count = 64 := by omega
    omega

theorem Kept.withRng (h : Kept b) {rng : RandomBitGenerator} : Kept { b with rng := rng } :=
  { h with }

/-! ### Counts below the width -/

/-- What the options found so far say of the slots that were free among those looked at. -/
structure Options.Over (o : Options) (free : ℕ → Prop) : Prop where
  chosen : ∀ r, o.chosenOffset = some r → free r
  nothing : o.chosenOffset = none → ∀ r, ¬free r
  number : o.numValidOptions = 0 ↔ o.chosenOffset = none

theorem Options.Over.congr {free free' : ℕ → Prop} (h : o.Over free) (hiff : ∀ r, free r ↔ free' r) :
    o.Over free' :=
  ⟨fun r hr => (hiff r).1 (h.chosen r hr), fun hr r hfree => h.nothing hr r ((hiff r).2 hfree), h.number⟩

/-- The mask fits a word just when it has the bits of the slot. -/
theorem freeMask_iff (hcount : count < 64) (word : BitVec 64) :
    word &&& (shiftLeft64 1 count - 1) = shiftLeft64 1 count - 1 ↔ ∀ i < count, word.getLsbD i = true := by
  have hmask : shiftLeft64 1 count - 1 = (1#64 <<< count) - 1 := by
    rw [shiftLeft64, Nat.mod_eq_of_lt hcount]
    rfl
  rw [hmask, and_eq_mask_iff]
  refine forall_congr' fun i => ?_
  rw [getLsbD_lowMask hcount, decide_eq_true_eq]

/-- **The options of a word.** -/
theorem optionsOfWord_spec (storageIndex : ℕ) (hcount : count < 64) (word : BitVec 64) :
    ∀ left option o (free : ℕ → Prop),
    o.Over free → (optionsOfWord count storageIndex left option (word >>> (option * count)) o).Over
      fun r => free r ∨ ∃ k, option ≤ k ∧ k < option + left ∧ r = storageIndex * 64 + k * count ∧
        ∀ i < count, word.getLsbD (k * count + i) = true := by
  intro left
  induction left with
  | zero =>
    intro option o free h
    refine h.congr fun r => (or_iff_left ?_).symm
    rintro ⟨k, hle, hlt, -⟩
    omega
  | succ left ih =>
    intro option o free h
    have hshift : shiftRight64 (word >>> (option * count)) count = word >>> ((option + 1) * count) := by
      rw [shiftRight64, Nat.mod_eq_of_lt hcount, ← BitVec.shiftRight_add, Nat.succ_mul]
    have hfree := freeMask_iff hcount (word >>> (option * count))
    simp only [BitVec.getLsbD_ushiftRight] at hfree
    rw [optionsOfWord, hshift]
    have hmore : ∀ r, (∃ k, option ≤ k ∧ k < option + (left + 1) ∧ r = storageIndex * 64 + k * count ∧
        ∀ i < count, word.getLsbD (k * count + i) = true) ↔
        (r = storageIndex * 64 + option * count ∧ ∀ i < count, word.getLsbD (option * count + i) = true) ∨
        ∃ k, option + 1 ≤ k ∧ k < option + 1 + left ∧ r = storageIndex * 64 + k * count ∧
          ∀ i < count, word.getLsbD (k * count + i) = true := by
      intro r
      constructor
      · rintro ⟨k, hle, hlt, hr, hbits⟩
        rcases Nat.eq_or_lt_of_le hle with rfl | hgt
        · exact .inl ⟨hr, hbits⟩
        · exact .inr ⟨k, hgt, by omega, hr, hbits⟩
      · rintro (⟨hr, hbits⟩ | ⟨k, hle, hlt, hr, hbits⟩)
        · exact ⟨option, le_rfl, by omega, hr, hbits⟩
        · exact ⟨k, by omega, by omega, hr, hbits⟩
    -- the option looked at, then those that are left
    have hstep : ∀ o' : Options, o'.Over (fun r => free r ∨ r = storageIndex * 64 + option * count ∧
        ∀ i < count, word.getLsbD (option * count + i) = true) →
        (optionsOfWord count storageIndex left (option + 1) (word >>> ((option + 1) * count)) o').Over
          fun r => free r ∨ ∃ k, option ≤ k ∧ k < option + (left + 1) ∧
            r = storageIndex * 64 + k * count ∧ ∀ i < count, word.getLsbD (k * count + i) = true := by
      intro o' h'
      refine (ih (option + 1) o' _ h').congr fun r => ?_
      rw [hmore, or_assoc]
    refine hstep _ ?_
    by_cases hfit : ∀ i < count, word.getLsbD (option * count + i) = true
    · rw [if_pos (hfree.2 hfit)]
      have hnew : ∀ r, r = storageIndex * 64 + option * count → (free r ∨ r = storageIndex * 64 + option * count ∧
            ∀ i < count, word.getLsbD (option * count + i) = true) := fun r hr => .inr ⟨hr, hfit⟩
      by_cases hone : o.numValidOptions + 1 = 1
      · rw [if_pos hone]
        exact ⟨fun r hr => hnew r (Option.some_inj.1 hr).symm, fun hr => (Option.some_ne_none _ hr).elim,
          iff_of_false (Nat.succ_ne_zero _) (Option.some_ne_none _)⟩
      · rw [if_neg hone]
        have hsome : o.chosenOffset ≠ none := fun hnone => hone (by rw [h.number.2 hnone, Nat.zero_add])
        obtain ⟨rnd, rng⟩ := o.rng.generateRandom (BitVec.ofNat 64 (o.numValidOptions + 1))
        by_cases hzero : rnd = 0
        · refine ⟨fun r hr => hnew r ?_, fun hr => ?_, iff_of_false (Nat.succ_ne_zero _) ?_⟩
          · exact (Option.some_inj.1 ((if_pos hzero).symm.trans hr)).symm
          · exact (Option.some_ne_none _ ((if_pos hzero).symm.trans hr)).elim
          · exact fun hr => Option.some_ne_none _ ((if_pos hzero).symm.trans hr)
        · refine ⟨fun r hr => .inl (h.chosen r ((if_neg hzero).symm.trans hr)), fun hr => ?_,
            iff_of_false (Nat.succ_ne_zero _) ?_⟩
          · exact (hsome ((if_neg hzero).symm.trans hr)).elim
          · exact fun hr => hsome ((if_neg hzero).symm.trans hr)
    · rw [if_neg fun hmask => hfit (hfree.1 hmask)]
      refine h.congr fun r => (or_iff_left ?_).symm
      exact fun hr => hfit hr.2

/-- **A count below the width** is searched for rightly, whatever is drawn. -/
theorem findFreeRange_of_lt (hpos : 0 < count) (hcount : count < 64) :
    SlotFound b count (b.findFreeRange count).1 := by
  have hoptions : max (64 / count) 1 = 64 / count :=
    max_eq_left ((Nat.one_le_div_iff hpos).2 hcount.le)
  have hlt : ∀ k, k < 64 / count ↔ k * count + count ≤ 64 := fun k => by
    rw [← Nat.succ_mul, ← Nat.succ_le_iff, Nat.le_div_iff_mul_le hpos]
  by_cases hwords : 0 < b.words b.getHighestDepthIndex
  · have hloop : ∀ n, ((List.range n).foldl (fun o storageIndex =>
        optionsOfWord count storageIndex (64 / count) 0
          (b.storages b.getHighestDepthIndex storageIndex) o) ⟨b.rng, 0, none⟩).Over fun r =>
        ∃ storageIndex < n, ∃ k, k * count + count ≤ 64 ∧ r = storageIndex * 64 + k * count ∧
          ∀ i < count, (b.storages b.getHighestDepthIndex storageIndex).getLsbD (k * count + i) = true := by
      intro n
      induction n with
      | zero =>
        refine ⟨fun r hr => (Option.some_ne_none r hr.symm).elim, fun _ r => ?_, iff_of_true rfl rfl⟩
        rintro ⟨storageIndex, hindex, -⟩
        omega
      | succ n ih =>
        rw [List.range_succ, List.foldl_append]
        have hword := optionsOfWord_spec n hcount
          (b.storages b.getHighestDepthIndex n) (64 / count) 0 _ _ ih
        rw [Nat.zero_mul, BitVec.ushiftRight_zero] at hword
        refine hword.congr fun r => ?_
        constructor
        · rintro (⟨storageIndex, hindex, hslot⟩ | ⟨k, -, hk, hslot⟩)
          · exact ⟨storageIndex, by omega, hslot⟩
          · exact ⟨n, by omega, k, (hlt k).1 (by omega), hslot⟩
        · rintro ⟨storageIndex, hindex, k, hk, hslot⟩
          rcases Nat.eq_or_lt_of_le (Nat.lt_succ_iff.1 hindex) with rfl | hbelow
          · exact .inr ⟨k, Nat.zero_le k, by have := (hlt k).2 hk; omega, hslot⟩
          · exact .inl ⟨storageIndex, hbelow, k, hk, hslot⟩
    have hspec := hloop (b.words b.getHighestDepthIndex)
    have hbit : ∀ storageIndex k i, k * count + count ≤ 64 → i < count → b.has (storageIndex * 64 + k * count + i) =
          (b.storages b.getHighestDepthIndex storageIndex).getLsbD (k * count + i) := by
      intro storageIndex k i hk hi
      rw [has, Nat.add_assoc, bit_word (by omega)]
    have hguard : (!(decide (0 < b.words b.getHighestDepthIndex) && decide (count ≤ 64))) = false := by
      rw [decide_eq_true hwords, decide_eq_true hcount.le]
      rfl
    simp only [findFreeRange, hguard, hoptions, max_eq_left (Nat.succ_le_of_lt hwords), Bool.false_eq_true, if_false]
    refine ⟨fun r hr => ?_, fun hnone r => ?_⟩
    · obtain ⟨storageIndex, hindex, k, hk, rfl, hall⟩ := hspec.chosen r hr
      refine ⟨⟨storageIndex, k, hindex, hk, rfl⟩, fun i hi => ?_⟩
      rw [hbit storageIndex k i hk hi]
      exact hall i hi
    · rintro ⟨storageIndex, k, hindex, hk, rfl⟩ hall
      refine hspec.nothing hnone _ ⟨storageIndex, hindex, k, hk, rfl, fun i hi => ?_⟩
      rw [← hbit storageIndex k i hk hi]
      exact hall i hi
  · have hguard : (!(decide (0 < b.words b.getHighestDepthIndex) && decide (count ≤ 64))) = true := by
      rw [decide_eq_false hwords]
      rfl
    simp only [findFreeRange, hguard, if_true]
    refine ⟨fun r hr => (Option.some_ne_none r hr.symm).elim, fun _ r => ?_⟩
    rintro ⟨storageIndex, k, hindex, -⟩
    omega

end KPageBitmap

/-! ### Steering the random bits -/

namespace RandomBitGenerator

/-- A generator as it is after a draw: some bits of a word are left, and no others. -/
structure Ready (g : RandomBitGenerator) : Prop where
  lt : g.bitsAvailable < 32
  rest : ∀ j, g.bitsAvailable ≤ j → g.entropy.getLsbD j = false

theorem randomBitsFrom_zero (rounds : ℕ) (g : RandomBitGenerator) (result : BitVec 64) :
    randomBitsFrom rounds g 0 result = (result, g) := by
  cases rounds with
  | zero => rfl
  | succ rounds => rw [randomBitsFrom, if_pos rfl]

/-- A round that takes all the bits left of a word with enough of them. -/
theorem randomBitsFrom_last (rounds : ℕ) {g : RandomBitGenerator} (hn : n ≠ 0)
    (hle : n ≤ g.refreshed.bitsAvailable) (result : BitVec 64) :
    randomBitsFrom (rounds + 1) g n result =
      ((result <<< n) ||| (g.refreshed.entropy.zeroExtend 64 &&& ((1#64 <<< n) - 1)),
        ⟨g.refreshed.stream, g.refreshed.entropy >>> n, g.refreshed.bitsAvailable - n⟩) := by
  rw [randomBitsFrom, if_neg hn]
  simp only [min_eq_left hle, Nat.sub_self]
  exact randomBitsFrom_zero _ _ _

/-- The bits that a round adds below those it has. -/
theorem getLsbD_round (hn : n ≤ 32) (result : BitVec 64) (entropy : BitVec 32) (hi : i < 64) :
    ((result <<< n) ||| (entropy.zeroExtend 64 &&& ((1#64 <<< n) - 1))).getLsbD i =
      if i < n then entropy.getLsbD i else result.getLsbD (i - n) := by
  rw [BitVec.getLsbD_or, BitVec.getLsbD_shiftLeft, BitVec.getLsbD_and, getLsbD_lowMask (by omega),
    BitVec.getLsbD_setWidth]
  by_cases hlt : i < n
  · simp [hlt, hi]
  · simp [hlt, hi]

/-- The bits of a word with others put below them. -/
theorem getLsbD_below (entropy : BitVec 32) (v : BitVec 64) (hv : ∀ j, n ≤ j → v.getLsbD j = false) (hi : i < 32) :
    ((entropy <<< n) ||| v.setWidth 32).getLsbD i = if i < n then v.getLsbD i else entropy.getLsbD (i - n) := by
  rw [BitVec.getLsbD_or, BitVec.getLsbD_shiftLeft, BitVec.getLsbD_setWidth]
  by_cases hlt : i < n
  · simp [hlt, hi]
  · simp [hlt, hi, hv i (not_lt.1 hlt)]

/-- A generator that has to go on to its next word. -/
def spent (entropy : BitVec 32) (word : BitVec 32) (g : RandomBitGenerator) : RandomBitGenerator :=
  ⟨fun i => if i = 0 then word else g.stream (i - 1), entropy, 0⟩

theorem refreshed_spent (entropy word : BitVec 32) (g : RandomBitGenerator) :
    (spent entropy word g).refreshed = ⟨g.stream, word, 32⟩ := if_pos rfl

/-- The end of a draw that begins a word: the low bits of the value come from the word, which has in
front of them those that the generator has left. -/
theorem exists_word {c : ℕ} (hc : 0 < c) (v : BitVec 64) (h : Ready g')
    (havail : g'.bitsAvailable + c = 32) : ∃ word, ∀ entropy rounds,
      randomBitsFrom (rounds + 1) (spent entropy word g') c (v >>> c) = (v, g') := by
  have hlow : ∀ j, (v &&& ((1#64 <<< c) - 1)).getLsbD j = (v.getLsbD j && decide (j < c)) := fun j => by
    rw [BitVec.getLsbD_and, getLsbD_lowMask (by omega)]
  have hv : ∀ j, c ≤ j → (v &&& ((1#64 <<< c) - 1)).getLsbD j = false := fun j hj => by
    rw [hlow, decide_eq_false (not_lt.2 hj), Bool.and_false]
  refine ⟨(g'.entropy <<< c) ||| (v &&& ((1#64 <<< c) - 1)).setWidth 32, fun entropy rounds => ?_⟩
  rw [randomBitsFrom_last rounds hc.ne' (by rw [refreshed_spent]; simp only; omega), refreshed_spent,
    Prod.mk.injEq, mk.injEq]
  refine ⟨BitVec.eq_of_getLsbD_eq fun i hi => ?_, rfl, BitVec.eq_of_getLsbD_eq fun i hi => ?_, ?_⟩
  · rw [getLsbD_round (by omega) _ _ hi]
    by_cases hic : i < c
    · rw [if_pos hic, getLsbD_below _ _ hv (by omega), if_pos hic, hlow, decide_eq_true hic, Bool.and_true]
    · rw [if_neg hic, BitVec.getLsbD_ushiftRight, Nat.add_sub_cancel' (not_lt.1 hic)]
  · rw [BitVec.getLsbD_ushiftRight]
    by_cases hin : c + i < 32
    · rw [getLsbD_below _ _ hv hin, if_neg (by omega), Nat.add_sub_cancel_left]
    · rw [BitVec.getLsbD_of_ge _ _ (not_lt.1 hin), h.rest i (by omega)]
  · exact Nat.sub_eq_of_eq_add havail.symm

/-- **Any value can be drawn**, and any generator be left by the draw. -/
theorem exists_draw (hpos : 0 < n) (hn : n ≤ 32) (v : BitVec 64)
    (hv : ∀ j, n ≤ j → v.getLsbD j = false) (h : Ready g') :
    ∃ g, Ready g ∧ g.generateRandomBits n = (v, g') := by
  have hrest := h.rest
  have hlt := h.lt
  obtain ⟨m, rfl⟩ : ∃ m, n = m + 1 := ⟨n - 1, by omega⟩
  by_cases hroom : g'.bitsAvailable + (m + 1) < 32
  · -- the word at hand had the bits in front of those that it has left
    refine ⟨⟨g'.stream, (g'.entropy <<< (m + 1)) ||| v.setWidth 32, g'.bitsAvailable + (m + 1)⟩,
      ⟨hroom, fun j hj => ?_⟩, ?_⟩
    · by_cases hj32 : j < 32
      · rw [getLsbD_below _ _ hv hj32, if_neg (by simp only at hj; omega)]
        exact hrest _ (by simp only at hj; omega)
      · exact BitVec.getLsbD_of_ge _ _ (not_lt.1 hj32)
    · have hrefreshed : refreshed ⟨g'.stream, (g'.entropy <<< (m + 1)) ||| v.setWidth 32,
          g'.bitsAvailable + (m + 1)⟩ = ⟨g'.stream, (g'.entropy <<< (m + 1)) ||| v.setWidth 32,
          g'.bitsAvailable + (m + 1)⟩ := if_neg (by simp only; omega)
      rw [generateRandomBits, randomBitsFrom_last m hpos.ne' (by rw [hrefreshed]; simp only; omega),
        hrefreshed, Prod.mk.injEq, mk.injEq]
      refine ⟨BitVec.eq_of_getLsbD_eq fun i hi => ?_, rfl, BitVec.eq_of_getLsbD_eq fun i hi => ?_,
        Nat.add_sub_cancel _ _⟩
      · rw [getLsbD_round hn _ _ hi]
        by_cases him : i < m + 1
        · rw [if_pos him, getLsbD_below _ _ hv (by omega), if_pos him]
        · rw [if_neg him, hv i (by omega)]
          exact BitVec.getLsbD_zero
      · rw [BitVec.getLsbD_ushiftRight]
        by_cases hin : m + 1 + i < 32
        · rw [getLsbD_below _ _ hv hin, if_neg (by omega), Nat.add_sub_cancel_left]
        · rw [BitVec.getLsbD_of_ge _ _ (not_lt.1 hin), hrest i (by omega)]
  · -- the draw ends in the next word, with as many bits as the generator does not have left
    obtain ⟨c, hc⟩ : ∃ c, g'.bitsAvailable + c = 32 := ⟨32 - g'.bitsAvailable, by omega⟩
    obtain ⟨word, hword⟩ := exists_word (by omega) v h hc
    have hhigh : ∀ j, m + 1 - c ≤ j → ((v >>> c).setWidth 32 : BitVec 32).getLsbD j = false := by
      intro j hj
      rw [BitVec.getLsbD_setWidth, BitVec.getLsbD_ushiftRight, hv _ (by omega), Bool.and_false]
    by_cases hfirst : m + 1 = c
    · refine ⟨spent 0 word g', ⟨Nat.zero_lt_succ 31, fun j _ => BitVec.getLsbD_zero⟩, ?_⟩
      have hzero : v >>> c = 0 := BitVec.eq_of_getLsbD_eq fun i _ => by
        rw [BitVec.getLsbD_ushiftRight, hv _ (by omega)]
        exact BitVec.getLsbD_zero.symm
      rw [generateRandomBits, hfirst, ← hzero, show c = m + 1 from hfirst.symm]
      rw [← hfirst] at hword
      exact hword 0 m
    · obtain ⟨k, rfl⟩ : ∃ k, m = k + 1 := ⟨m - 1, by omega⟩
      refine ⟨⟨(spent 0 word g').stream, (v >>> c).setWidth 32, k + 1 + 1 - c⟩, ⟨by simp only; omega, hhigh⟩, ?_⟩
      have hrefreshed : refreshed ⟨(spent 0 word g').stream, (v >>> c).setWidth 32, k + 1 + 1 - c⟩ =
          ⟨(spent 0 word g').stream, (v >>> c).setWidth 32, k + 1 + 1 - c⟩ :=
        if_neg (by simp only; omega)
      have htaken : ((0 : BitVec 64) <<< (k + 1 + 1 - c)) |||
          (((v >>> c).setWidth 32).zeroExtend 64 &&& ((1#64 <<< (k + 1 + 1 - c)) - 1)) = v >>> c := by
        refine BitVec.eq_of_getLsbD_eq fun i hi => ?_
        rw [getLsbD_round (by omega) _ _ hi, BitVec.getLsbD_ushiftRight]
        by_cases hik : i < k + 1 + 1 - c
        · rw [if_pos hik, BitVec.getLsbD_setWidth, BitVec.getLsbD_ushiftRight,
            decide_eq_true (by omega : i < 32), Bool.true_and]
        · rw [if_neg hik, hv _ (by omega)]
          exact BitVec.getLsbD_zero
      rw [generateRandomBits, randomBitsFrom, if_neg (Nat.succ_ne_zero _), hrefreshed]
      simp only [min_eq_right (by omega : k + 1 + 1 - c ≤ k + 1 + 1), Nat.sub_self]
      rw [htaken, show k + 1 + 1 - (k + 1 + 1 - c) = c by omega]
      exact hword _ k

/-- What a draw below `max` makes of a value. -/
theorem exists_generateRandom (max : ℕ) (hmax : 2 ≤ max) (hlt : max < 2 ^ 31) (zero : Bool)
    (h : Ready g') : ∃ g, Ready g ∧ g.generateRandom (BitVec.ofNat 64 max) = (if zero then 0 else 1, g') := by
  have htoNat : (BitVec.ofNat 64 max).toNat = max := by
    rw [BitVec.toNat_ofNat, Nat.mod_eq_of_lt (by omega)]
  have hne : BitVec.ofNat 64 max ≠ 0#64 := fun hzero => by
    rw [hzero] at htoNat
    exact absurd htoNat (by simp; omega)
  have hneeded : 64 - (BitVec.ofNat 64 max).clz.toNat < 32 := by
    have hle := BitVec.two_pow_sub_clz_le_toNat_of_ne_zero (by decide) hne
    rw [htoNat] at hle
    have hexp := (Nat.pow_lt_pow_iff_right (by decide : 1 < 2)).1 (hle.trans_lt hlt)
    omega
  obtain ⟨g, hg, hdraw⟩ := exists_draw (n := 1 + (64 - (BitVec.ofNat 64 max).clz.toNat)) (by omega)
    (by omega) (if zero then 0 else 1) (fun j hj => by
      cases zero with
      | true => exact BitVec.getLsbD_zero
      | false =>
        show (1#64).getLsbD j = false
        rw [BitVec.getLsbD_one, decide_eq_false (by omega : ¬j = 0), Bool.and_false]) h
  refine ⟨g, hg, ?_⟩
  rw [generateRandom, hdraw]
  have hdiv : (if zero then (0 : BitVec 64) else 1) / BitVec.ofNat 64 max = 0 := by
    refine BitVec.eq_of_toNat_eq ?_
    rw [BitVec.toNat_udiv, htoNat]
    cases zero with
    | true => exact Nat.zero_div _
    | false => exact Nat.div_eq_of_lt (by show 1 < max; omega)
  simp only [hdiv]
  rw [Prod.mk.injEq]
  exact ⟨by simp, rfl⟩

end RandomBitGenerator

/-! ### A count of the whole width -/

namespace KPageBitmap

open RandomBitGenerator

/-- With a count of 64 every word has its one option, whatever is in it. -/
theorem optionsOfWord_whole (word : BitVec 64) (o : Options) :
    optionsOfWord 64 storageIndex 1 0 word o =
      if o.numValidOptions + 1 = 1 then ⟨o.rng, o.numValidOptions + 1, some (storageIndex * 64)⟩
      else
        ⟨(o.rng.generateRandom (BitVec.ofNat 64 (o.numValidOptions + 1))).2, o.numValidOptions + 1,
          if (o.rng.generateRandom (BitVec.ofNat 64 (o.numValidOptions + 1))).1 = 0 then
            some (storageIndex * 64) else o.chosenOffset⟩ := by
  have hmask : word &&& (shiftLeft64 1 64 - 1) = shiftLeft64 1 64 - 1 := by
    rw [show shiftLeft64 1 64 - 1 = 0#64 by decide, BitVec.and_zero]
  rw [optionsOfWord, if_pos hmask, optionsOfWord]
  rfl

/-- Some generator makes the words from `k` on choose a given one of them, and no other. -/
theorem exists_choice (words : ℕ → BitVec 64) (w : ℕ) : ∀ m k, 0 < k → k + m < 2 ^ 31 →
    ∃ g : RandomBitGenerator, g.Ready ∧ ∀ x, ((List.range' k m).foldl (fun o storageIndex =>
      optionsOfWord 64 storageIndex 1 0 (words storageIndex) o) ⟨g, k, x⟩).chosenOffset =
        if k ≤ w ∧ w < k + m then some (w * 64) else x := by
  intro m
  induction m with
  | zero =>
    intro k _ _
    refine ⟨⟨fun _ => 0, 0, 0⟩, ⟨by decide, fun _ _ => BitVec.getLsbD_zero⟩, fun x => ?_⟩
    rw [if_neg (by omega)]
    rfl
  | succ m ih =>
    intro k hk hlt
    obtain ⟨g', hg', hrest⟩ := ih (k + 1) (Nat.succ_pos k) (by omega)
    obtain ⟨g, hg, hdraw⟩ := exists_generateRandom (k + 1) (by omega) (by omega) (decide (k = w)) hg'
    refine ⟨g, hg, fun x => ?_⟩
    rw [List.range'_succ, List.foldl_cons, optionsOfWord_whole, if_neg (by simp only; omega)]
    simp only [hdraw]
    rw [hrest]
    by_cases hkw : k = w
    · subst hkw
      rw [if_neg (by omega), decide_eq_true (rfl : k = k), if_pos rfl, if_pos rfl, if_pos (by omega)]
    · have hpass : (if (if decide (k = w) = true then (0 : BitVec 64) else 1) = 0 then some (k * 64)
          else x) = x := by
        rw [decide_eq_false hkw]
        exact if_neg (by decide)
      rw [hpass]
      exact if_congr (by omega) rfl rfl

/-- With a count of 64 the search takes some word, and none only if there is none. -/
theorem whole_spec (words : ℕ → BitVec 64) (rng : RandomBitGenerator) : ∀ n,
    ((List.range n).foldl (fun o storageIndex =>
      optionsOfWord 64 storageIndex 1 0 (words storageIndex) o) ⟨rng, 0, none⟩).Over
        fun r => ∃ storageIndex < n, r = storageIndex * 64 := by
  intro n
  induction n with
  | zero =>
    refine ⟨fun r hr => (Option.some_ne_none r hr.symm).elim, fun _ r => ?_, iff_of_true rfl rfl⟩
    rintro ⟨storageIndex, hindex, -⟩
    omega
  | succ n ih =>
    rw [List.range_succ, List.foldl_append, List.foldl_cons, List.foldl_nil, optionsOfWord_whole]
    generalize (List.range n).foldl _ _ = o at ih ⊢
    have hold : ∀ r, (∃ storageIndex < n, r = storageIndex * 64) → ∃ storageIndex < n + 1, r = storageIndex * 64 := by
      rintro r ⟨storageIndex, hindex, hr⟩
      exact ⟨storageIndex, Nat.lt_succ_of_lt hindex, hr⟩
    have hnew : ∀ r, some (n * 64) = some r → ∃ storageIndex < n + 1, r = storageIndex * 64 :=
      fun r hr => ⟨n, Nat.lt_succ_self n, (Option.some_inj.1 hr).symm⟩
    split_ifs with hone hzero
    · exact ⟨hnew, fun hr => (Option.some_ne_none _ hr).elim,
        iff_of_false (Nat.succ_ne_zero _) (Option.some_ne_none _)⟩
    · exact ⟨hnew, fun hr => (Option.some_ne_none _ hr).elim,
        iff_of_false (Nat.succ_ne_zero _) (Option.some_ne_none _)⟩
    · have hsome : o.chosenOffset ≠ none := fun hnone => hone (by rw [ih.number.2 hnone, Nat.zero_add])
      exact ⟨fun r hr => hold r (ih.chosen r hr), fun hr => (hsome hr).elim, iff_of_false (Nat.succ_ne_zero _) hsome⟩

/-- The search for 64 bits, as the loop over the words. -/
theorem findFreeRange_whole (rng : RandomBitGenerator) (hwords : 0 < b.words b.getHighestDepthIndex) :
    (findFreeRange { b with rng := rng } 64).1 =
      ((List.range (b.words b.getHighestDepthIndex)).foldl (fun o storageIndex =>
        optionsOfWord 64 storageIndex 1 0 (b.storages b.getHighestDepthIndex storageIndex) o)
          ⟨rng, 0, none⟩).chosenOffset := by
  have hguard : (!(decide (0 < b.words b.getHighestDepthIndex) && decide (64 ≤ 64))) = false := by
    rw [decide_eq_true hwords]
    rfl
  show (if (!(decide (0 < b.words b.getHighestDepthIndex) && decide (64 ≤ 64))) = true then
    (none, _) else _ : Option ℕ × KPageBitmap).1 = _
  rw [hguard, if_neg Bool.false_ne_true]
  show ((List.range (max (b.words b.getHighestDepthIndex) 1)).foldl (fun o storageIndex =>
    optionsOfWord 64 storageIndex 1 0 (b.storages b.getHighestDepthIndex storageIndex) o)
      ⟨rng, 0, none⟩).chosenOffset = _
  rw [max_eq_left (Nat.succ_le_of_lt hwords)]

/-- **A count of 64 takes any word**: for each there is a generator with which it is the one. -/
theorem takes_word {w : ℕ} (hw : w < b.words b.getHighestDepthIndex)
    (hwords : b.words b.getHighestDepthIndex < 2 ^ 31) :
    ∃ rng, (findFreeRange { b with rng := rng } 64).1 = some (w * 64) := by
  obtain ⟨m, hm⟩ : ∃ m, b.words b.getHighestDepthIndex = m + 1 :=
    ⟨b.words b.getHighestDepthIndex - 1, by omega⟩
  obtain ⟨g, -, hchoice⟩ := exists_choice (b.storages b.getHighestDepthIndex) w m 1 Nat.one_pos (by omega)
  refine ⟨g, (findFreeRange_whole g (by omega)).trans ?_⟩
  rw [hm, List.range_eq_range', List.range'_succ, List.foldl_cons, optionsOfWord_whole, if_pos rfl, hchoice]
  by_cases hzero : w = 0
  · rw [if_neg (by omega), hzero]
  · rw [if_pos (by omega)]

/-- **`FindFreeRange`** is right for a count below 64, and for 64 in a bitmap that is full. -/
theorem findFreeRange_spec (rng : RandomBitGenerator) (hpos : 0 < count) (hcount : count ≤ 64)
    (hwords : 0 < b.words b.getHighestDepthIndex) (hfull : count = 64 → ∀ w < b.words b.getHighestDepthIndex,
      b.storages b.getHighestDepthIndex w = BitVec.allOnes 64) :
    SlotFound b count (findFreeRange { b with rng := rng } count).1 := by
  rcases Nat.eq_or_lt_of_le hcount with rfl | hlt
  · have hspec := whole_spec (b.storages b.getHighestDepthIndex) rng (b.words b.getHighestDepthIndex)
    rw [findFreeRange_whole rng hwords]
    refine ⟨fun r hr => ?_, fun hnone => (hspec.nothing hnone 0 ⟨0, hwords, rfl⟩).elim⟩
    obtain ⟨storageIndex, hindex, rfl⟩ := hspec.chosen r hr
    refine ⟨⟨storageIndex, 0, hindex, by decide, by omega⟩, fun i hi => ?_⟩
    rw [has, bit_word hi, hfull rfl _ hindex, BitVec.getLsbD_allOnes, decide_eq_true hi]
  · have hfound := findFreeRange_of_lt (b := { b with rng := rng }) hpos hlt
    exact ⟨hfound.sound, hfound.complete⟩

/-- **When `FindFreeRange` is right**: for a count below 64, and for 64 only in a bitmap that is full. -/
theorem Reached.findFreeRange_iff (h : Reached size b) (hpos : 0 < count) (hcount : count ≤ 64) :
    (∀ rng, SlotFound b count (findFreeRange { b with rng := rng } count).1) ↔
      count < 64 ∨ ∀ w < b.words b.getHighestDepthIndex,
        b.storages b.getHighestDepthIndex w = BitVec.allOnes 64 := by
  constructor
  · intro hfound
    rcases Nat.lt_or_ge count 64 with hlt | hge
    · exact .inl hlt
    · refine .inr fun w hw => BitVec.eq_of_getLsbD_eq fun i hi => ?_
      obtain rfl : count = 64 := by omega
      obtain ⟨rng, hrng⟩ := takes_word hw (h.kept.1.words_lt.trans_lt (by decide))
      have hbit := ((hfound rng).sound _ hrng).2 i hi
      rw [has, bit_word hi] at hbit
      rw [hbit, BitVec.getLsbD_allOnes, decide_eq_true hi]
  · rintro hor rng
    refine findFreeRange_spec rng hpos hcount h.words_pos fun heq => hor.resolve_left ?_
    omega

/-- The bits 3, 4, 5 and 8 of a bitmap of 128 are set: the slot of three bits from 3 on is found. -/
theorem findFreeRange_iff_of_three : ∃ b, Reached 128 b ∧ b.numBits = 4 ∧ (∀ i < 3, b.has (3 + i) = true) ∧
    (b.findFreeRange 3).1 = some 3 ∧ ∀ rng, SlotFound b 3 (findFreeRange { b with rng := rng } 3).1 := by
  have hstart : Reached 128 ⟨fun _ _ => 0, layOut 2 128 fun _ => 0, ⟨fun _ => 0, 0, 0⟩, 0, 2⟩ :=
    .initialized ⟨fun _ => 0, 0, 0⟩ (by decide) rfl
  have hset := (((hstart.setBit 3 (by decide) (by decide) rfl).setBit 4 (by decide) (by decide) rfl).setBit 5
    (by decide) (by decide) rfl).setBit 8 (by decide) (by decide) rfl
  have hspec : ∀ b, Reached 128 b → (b.findFreeRange 3).1 = some 3 → (∀ i < 3, b.has (3 + i) = true) ∧
      (b.findFreeRange 3).1 = some 3 ∧ ∀ rng, SlotFound b 3 (findFreeRange { b with rng := rng } 3).1 := by
    intro b hreached hresult
    have hfound : ∀ rng, SlotFound b 3 (findFreeRange { b with rng := rng } 3).1 :=
      (hreached.findFreeRange_iff (by decide) (by decide)).2 (.inl (by decide))
    exact ⟨((hfound b.rng).sound 3 hresult).2, hresult, hfound⟩
  exact ⟨_, hset, rfl, hspec _ hset (by decide +kernel)⟩

/-- A new bitmap of one word, in which 64 bits are found that are all clear. -/
theorem empty_word_found : ∃ b, Reached 64 b ∧ ¬SlotFound b 64 (b.findFreeRange 64).1 := by
  refine ⟨⟨fun _ _ => 0, layOut 2 64 fun _ => 0, ⟨fun _ => 0, 0, 0⟩, 0, 2⟩,
    .initialized ⟨fun _ => 0, 0, 0⟩ (by decide) rfl, fun hfound => ?_⟩
  have hbit := (hfound.sound 0 (by decide)).2 0 (by decide)
  exact absurd hbit (by decide)

end KPageBitmap

end Kernel
end NXEmu
