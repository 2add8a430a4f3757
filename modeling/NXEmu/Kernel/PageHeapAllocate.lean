/-
# Allocation from a page heap

Both ways to allocate pop a block of the size asked for or a larger one, and free what is left over: by
linear search what follows the request, by random what is before and after a random place in the block.
So what is free afterwards is what was free without the range that is returned (`Allocated`).

When nothing is returned, no size from the one asked for on has a free block (`Refused`).  By random that
is so because a size is weighed by its free blocks, so the size decided on has one whenever any has
(`decideIndex_spec`).
-/

import Mathlib.Algebra.Order.BigOperators.Group.Finset
import NXEmu.Kernel.PageHeapBooks

variable {k v addr : ℕ}

namespace NXEmu
namespace Kernel

open Common Buddies Exec Finset Nat

/-! ### Machine arithmetic -/

/-- A random value is below its bound. -/
theorem RandomBitGenerator.generateRandom_lt (g : RandomBitGenerator) (max : BitVec 64) (hmax : max ≠ 0) :
    (g.generateRandom max).1.toNat < max.toNat := by
  rw [RandomBitGenerator.generateRandom]
  obtain ⟨rnd, g'⟩ := g.generateRandomBits (1 + (64 - max.clz.toNat))
  have hpos : 0 < max.toNat := pos_of_ne_zero fun hzero => hmax (BitVec.eq_of_toNat_eq hzero)
  have hdiv := div_add_mod' rnd.toNat max.toNat
  have hmod := mod_lt rnd.toNat hpos
  have hlt := rnd.isLt
  have hmul : (rnd / max * max).toNat = rnd.toNat / max.toNat * max.toNat := by
    rw [BitVec.toNat_mul, BitVec.toNat_udiv, mod_eq_of_lt (by omega)]
  have hsub : (rnd - rnd / max * max).toNat = rnd.toNat - rnd.toNat / max.toNat * max.toNat := by
    rw [BitVec.toNat_sub_of_le (BitVec.le_def.2 (by rw [hmul]; omega)), hmul]
  show (rnd - rnd / max * max).toNat < max.toNat
  omega

theorem sizeSub_of_le {a b : ℕ} (hle : b ≤ a) (ha : a < 2 ^ 64) : sizeSub a b = a - b := by
  rw [sizeSub]
  omega

theorem sizeShiftRight_of_lt (a : ℕ) (hk : k < 64) : sizeShiftRight a k = a / 2 ^ k := by
  rw [sizeShiftRight, mod_eq_of_lt hk, shiftRight_eq_div_pow]

theorem sizeShiftLeft_of_lt {a k : ℕ} (hk : k < 64) (ha : a * 2 ^ k < 2 ^ 64) :
    sizeShiftLeft a k = a * 2 ^ k := by
  rw [sizeShiftLeft, mod_eq_of_lt hk, shiftLeft_eq, mod_eq_of_lt ha]

theorem two_pow_dvd_iff : 2 ^ k ∣ v ↔ ∀ j < k, v.testBit j = false := by
  rw [dvd_iff_mod_eq_zero]
  constructor
  · intro hzero j hj
    have hbit := testBit_mod_two_pow v k j
    rwa [hzero, zero_testBit, decide_eq_true hj, Bool.true_and, eq_comm] at hbit
  · intro hbits
    refine eq_of_testBit_eq fun j => ?_
    rw [testBit_mod_two_pow, zero_testBit]
    by_cases hj : j < k
    · rw [hbits j hj, Bool.and_false]
    · rw [decide_eq_false hj, Bool.false_and]

/-- The powers of two that divide a word are those up to its number of trailing zeros. -/
theorem two_pow_dvd_iff_le_countrZero (hpos : 0 < v) (hv : v < 2 ^ 64) :
    2 ^ k ∣ v ↔ k ≤ countrZero v := by
  have hword : (BitVec.ofNat 64 v).toNat = v := by rw [BitVec.toNat_ofNat, mod_eq_of_lt hv]
  have hne : BitVec.ofNat 64 v ≠ 0 := fun hzero => by
    rw [hzero] at hword
    exact absurd hword (Nat.ne_of_lt hpos)
  obtain ⟨-, hbit, hbelow⟩ := SummaryBitmap.firstBit_spec hne
  simp only [BitVec.getLsbD, hword] at hbit hbelow
  rw [two_pow_dvd_iff]
  constructor
  · intro hbits
    by_contra hlt
    have hclear : v.testBit (countrZero v) = false := hbits _ (not_le.1 hlt)
    exact Bool.false_ne_true (hclear.symm.trans hbit)
  · exact fun hle j hj => hbelow j (hj.trans_le hle)

theorem getBlockSize_le {i : ℕ} (hi : i < numMemoryBlockPageShifts) : getBlockSize i ≤ 2 ^ 30 := by
  have hshifts : ∀ i < 8, blockShift i ≤ 30 := by decide
  exact Nat.pow_le_pow_right (by decide) (hshifts i hi)

namespace KPageHeap

variable {h h' : KPageHeap} {i j index a x start finish needed align : ℕ}

/-! ### Outcomes -/

/-- What a routine does that returns a range. -/
structure Allocated (h : KPageHeap) (addr bytes align : ℕ) (h' : KPageHeap) : Prop where
  books : Books h'
  region : SameRegion h h'
  nonzero : addr ≠ 0
  aligned : align ∣ addr
  wasFree : ∀ x, addr ≤ x → x < addr + bytes → h.IsFree x
  inside : h.heapAddress ≤ addr ∧ addr + bytes ≤ h.getEndAddress
  free : ∀ x, h'.IsFree x ↔ h.IsFree x ∧ ¬(addr ≤ x ∧ x < addr + bytes)

/-- What a routine does that returns none. -/
structure Refused (h : KPageHeap) (index : ℕ) (h' : KPageHeap) : Prop where
  books : Books h'
  region : SameRegion h h'
  free : ∀ x, h'.IsFree x ↔ h.IsFree x
  none : ∀ j < numMemoryBlockPageShifts, index ≤ j → h.books j = ∅

/-- The outcomes of an allocation from the size `index` on. -/
def Outcome (h : KPageHeap) (index bytes align : ℕ) (r : ℕ × KPageHeap) : Prop :=
  (r.1 = 0 ∧ Refused h index r.2) ∨ Allocated h r.1 bytes align r.2

/-- What popping a block leaves. -/
structure Popped (h : KPageHeap) (i addr : ℕ) (h' : KPageHeap) : Prop where
  books : Books h'
  region : SameRegion h h'
  mem : addr ∈ h.books i
  inside : h.heapAddress ≤ addr ∧ addr + getBlockSize i ≤ h.getEndAddress
  dvd : getBlockSize i ∣ addr
  wasFree : ∀ x, addr ≤ x → x < addr + getBlockSize i → h.IsFree x
  free : ∀ x, h'.IsFree x ↔ h.IsFree x ∧ ¬(addr ≤ x ∧ x < addr + getBlockSize i)

/-- **Popping a block of a size.** -/
theorem Books.popBlock_spec (hbooks : Books h) (hi : i < numMemoryBlockPageShifts) (random : Bool) :
    wp ((h.blocks i).popBlock random) fun r held => held = true ∧ r.2.getSize = getBlockSize i ∧
      ((r.1 = 0 ∧ h.books i = ∅ ∧ Books (h.setBlock i r.2) ∧ (h.setBlock i r.2).books = h.books) ∨
        (r.1 ≠ 0 ∧ Popped h i r.1 (h.setBlock i r.2))) := by
  refine wp_mono ((hbooks.blocks i hi).popBlock_spec random) ?_
  rintro ⟨addr, b⟩ held ⟨rfl, hat, houtcome⟩
  have hblocks := hbooks.blocks_setBlock hat
  have hset := books_setBlock h i b
  refine ⟨rfl, hat.getSize, ?_⟩
  rcases houtcome with ⟨hempty, hzero, hfree⟩ | ⟨hmem, hfree⟩
  · simp only at hzero hfree
    have hsame : (h.setBlock i b).books = h.books := by
      rw [hset, hfree]
      exact Function.update_eq_self i h.books
    refine .inl ⟨hzero, hempty, ⟨hbooks.numBlocks, hbooks.nonzero, hbooks.pages, hblocks, ?_, ?_⟩, hsame⟩
    · rw [hsame]
      exact hbooks.tidy
    · intro j hj c hc
      rw [hsame] at hc
      exact hbooks.inside j hj c hc
  · simp only at hmem hfree
    have hmem' : addr ∈ h.books i := hmem
    have hinside := hbooks.inside i hi addr hmem'
    have hnonzero := hbooks.nonzero
    rw [hfree] at hset
    have hbooks' : Books (h.setBlock i b) := by
      refine ⟨hbooks.numBlocks, hbooks.nonzero, hbooks.pages, hblocks, ?_, ?_⟩
      · rw [hset]
        exact hbooks.tidy.erase
      · intro j hj c hc
        rw [hset, mem_put] at hc
        split_ifs at hc with hji
        · subst hji
          exact hbooks.inside j hj c (mem_of_mem_erase hc)
        · exact hbooks.inside j hj c hc
    refine .inr ⟨by simp only; omega, hbooks', ⟨rfl, rfl⟩, hmem', hinside,
      hbooks.tidy.aligned i hi addr hmem', fun x hlow hhigh => ⟨i, hi, addr, hmem', hlow, hhigh⟩,
      fun x => ?_⟩
    rw [IsFree, hset]
    exact covers_erase hbooks.tidy hi hmem'

/-- Nothing of a popped block is free until it is freed again. -/
theorem Popped.used (hpopped : Popped h i addr h') :
    Used h' addr (addr + getBlockSize i) := by
  refine ⟨by rw [hpopped.region.address]; exact hpopped.inside.1,
    by rw [hpopped.region.getEndAddress]; exact hpopped.inside.2, fun x hlow hhigh hfree => ?_⟩
  exact ((hpopped.free x).1 hfree).2 ⟨hlow, hhigh⟩

/-! ### By linear search -/

/-- **The loop of `AllocateByLinearSearch`.** -/
theorem linearSearchFrom_spec (hindex : index < numMemoryBlockPageShifts) :
    ∀ rounds (h : KPageHeap) i, Books h → index ≤ i → i + rounds = numMemoryBlockPageShifts →
      (∀ j < i, index ≤ j → h.books j = ∅) →
      wp (linearSearchFrom (getBlockSize index) rounds h i) fun r held =>
        held = true ∧ Outcome h index (getBlockSize index) (getBlockSize index) r := by
  intro rounds
  induction rounds with
  | zero =>
    intro h i hbooks hle hrounds hnone
    exact wp_ret.2 ⟨rfl, .inl ⟨rfl, hbooks, ⟨rfl, rfl⟩, fun _ => Iff.rfl, fun j hj =>
      hnone j (by omega)⟩⟩
  | succ rounds ih =>
    intro h i hbooks hle hrounds hnone
    have hi : i < numMemoryBlockPageShifts := by omega
    rw [linearSearchFrom, block_eq h hi, ret_true_bind, wp_bind]
    refine wp_mono (hbooks.popBlock_spec hi false) ?_
    rintro ⟨addr, b⟩ held ⟨rfl, hsize, houtcome⟩
    show wp (if addr ≠ 0 then _ else _) _
    rcases houtcome with ⟨hzero, hempty, hbooks', hsame⟩ | ⟨hne, hpopped⟩
    · simp only at hzero
      rw [if_neg (not_not.2 hzero)]
      have hfree : ∀ x, (h.setBlock i b).IsFree x ↔ h.IsFree x := fun x => by rw [IsFree, hsame]; exact Iff.rfl
      refine wp_mono (ih (h.setBlock i b) (i + 1) hbooks' (by omega) (by omega) fun j hj hij => ?_) ?_
      · rw [hsame]
        rcases Nat.eq_or_lt_of_le (Nat.lt_succ_iff.1 hj) with rfl | hlt
        · exact hempty
        · exact hnone j hlt hij
      · rintro r held ⟨rfl, hrest | hrest⟩
        · refine ⟨rfl, .inl ⟨hrest.1, hrest.2.books, ⟨hrest.2.region.address, hrest.2.region.size⟩,
            fun x => (hrest.2.free x).trans (hfree x), ?_⟩⟩
          rw [← hsame]
          exact hrest.2.none
        · refine ⟨rfl, .inr ⟨hrest.books, ⟨hrest.region.address, hrest.region.size⟩, hrest.nonzero,
            hrest.aligned, fun x hlow hhigh => (hfree x).1 (hrest.wasFree x hlow hhigh), hrest.inside,
            fun x => ?_⟩⟩
          rw [hrest.free, hfree]
    · simp only at hne hpopped hsize
      have hdvd : getBlockSize index ∣ getBlockSize i := dvd_of_le graded_getBlockSize hle hi
      have hsmall := le_of_dvd (getBlockSize_pos i) hdvd
      have hwasFree := hpopped.wasFree
      have hinside := hpopped.inside
      rw [if_pos hne, hsize]
      split_ifs with hlarger
      · -- what follows the request is freed again
        have hpages : (getBlockSize i - getBlockSize index) / PageSize * PageSize =
            getBlockSize i - getBlockSize index :=
          Nat.div_mul_cancel (Nat.dvd_sub (pageSize_dvd_getBlockSize hi) (pageSize_dvd_getBlockSize hindex))
        have hstart : PageSize ∣ addr + getBlockSize index :=
          Nat.dvd_add ((pageSize_dvd_getBlockSize hi).trans hpopped.dvd) (pageSize_dvd_getBlockSize hindex)
        rw [wp_bind]
        refine wp_mono (hpopped.books.free_spec _ hstart (hpopped.used.mono (by omega) (by omega))) ?_
        rintro h' held ⟨rfl, hfreed⟩
        refine wp_ret.2 ⟨rfl, .inr ⟨hfreed.books, ⟨hfreed.region.address, hfreed.region.size⟩, hne,
          hdvd.trans hpopped.dvd, fun x hlow hhigh => hwasFree x hlow (by omega), by simp only; omega, fun x => ?_⟩⟩
        rw [hfreed.free, hpopped.free, hpages]
        constructor
        · rintro (⟨hfree, hout⟩ | hin)
          · exact ⟨hfree, fun hx => hout ⟨hx.1, by omega⟩⟩
          · exact ⟨hwasFree x (by omega) (by omega), by omega⟩
        · rintro ⟨hfree, hout⟩
          by_cases hin : addr ≤ x ∧ x < addr + getBlockSize i
          · exact .inr (by omega)
          · exact .inl ⟨hfree, hin⟩
      · have hequal : getBlockSize i = getBlockSize index := by omega
        refine wp_ret.2 ⟨rfl, .inr ⟨hpopped.books, hpopped.region, hne, hdvd.trans hpopped.dvd,
          fun x hlow hhigh => hwasFree x hlow (by omega), by simp only; omega, fun x => ?_⟩⟩
        rw [hpopped.free, hequal]

/-! ### By random -/

/-- A size is weighed by its free blocks. -/
theorem Books.weight_spec (hbooks : Books h) (hi : i < numMemoryBlockPageShifts)
    (hneeded : needed ≤ getBlockSize i) (hk : k < 64) :
    (h.blocks i).possibleAlignments needed k < 2 ^ 60 ∧
      (0 < (h.blocks i).possibleAlignments needed k ↔ h.books i ≠ ∅) := by
  have hat := hbooks.blocks i hi
  have hsize := getBlockSize_le hi
  have hcard := hat.card_free
  have hcount : (h.blocks i).getNumFreeBlocks ≤ 2 ^ 24 := by
    rw [Block.getNumFreeBlocks, hat.kept.count]
    have hsub : (h.blocks i).bitmap.bits.card ≤ (h.blocks i).bitmap.capacity :=
      (card_filter_le _ _).trans (card_range _).le
    have hwords := hat.kept.words_lt
    rw [KPageBitmap.capacity] at hsub
    omega
  rw [Block.possibleAlignments, hat.getSize, sizeSub_of_le hneeded (by omega), sizeShiftRight_of_lt _ hk]
  have hdiv : (getBlockSize i - needed) / 2 ^ k ≤ 2 ^ 30 :=
    (div_le_self _ _).trans ((sub_le _ _).trans hsize)
  generalize (getBlockSize i - needed) / 2 ^ k = places at hdiv ⊢
  constructor
  · have hmul := mul_le_mul (by omega : 1 + places ≤ 2 ^ 31) hcount
    omega
  · rw [books, ← card_pos.trans nonempty_iff_ne_empty, hcard]
    exact ⟨fun hpos => Nat.pos_of_mul_pos_left hpos, fun hpos => Nat.mul_pos (by omega) hpos⟩

/-- The weight of the sizes of a range. -/
def weight (h : KPageHeap) (needed k first last : ℕ) : ℕ :=
  ∑ j ∈ Finset.Ico first last, (h.blocks j).possibleAlignments needed k

theorem weight_succ (h : KPageHeap) (needed k : ℕ) {first last : ℕ} (hle : first ≤ last) :
    h.weight needed k first (last + 1) = h.weight needed k first last + (h.blocks last).possibleAlignments needed k :=
  sum_Ico_succ_top hle _

theorem weight_mono (h : KPageHeap) (needed k first : ℕ) {last last' : ℕ} (hle : last ≤ last') :
    h.weight needed k first last ≤ h.weight needed k first last' :=
  sum_le_sum_of_subset (Finset.Ico_subset_Ico le_rfl hle)

/-- **The first loop of `AllocateByRandom`** weighs the sizes until there are enough alignments. -/
theorem maxBlocksFrom_spec (hbooks : Books h) (hneeded : needed ≤ getBlockSize index)
    (hk : k < 64) : ∀ rounds i possible, index ≤ i → i + rounds = numMemoryBlockPageShifts →
      possible = h.weight needed k index i → possible < 4 →
      wp (h.maxBlocksFrom needed k rounds i possible) fun r held => held = true ∧
        r.1 = h.weight needed k index r.2 ∧ r.1 < 2 ^ 61 ∧ i ≤ r.2 ∧ r.2 ≤ numMemoryBlockPageShifts ∧
        (0 < rounds → i < r.2) ∧ (r.2 < numMemoryBlockPageShifts → 4 ≤ r.1) := by
  intro rounds
  induction rounds with
  | zero =>
    intro i possible hle hrounds hpossible hfew
    rw [maxBlocksFrom, pure_eq, wp_ret, hbooks.numBlocks]
    have hi : i = numMemoryBlockPageShifts := hrounds
    subst hi
    exact ⟨rfl, hpossible, by omega, le_rfl, le_rfl, fun hpos => absurd hpos (lt_irrefl 0),
      fun hlt => absurd hlt (lt_irrefl _)⟩
  | succ rounds ih =>
    intro i possible hle hrounds hpossible hfew
    have hi : i < numMemoryBlockPageShifts := by omega
    have hsmall : needed ≤ getBlockSize i :=
      hneeded.trans (le_of_dvd (getBlockSize_pos i) (dvd_of_le graded_getBlockSize hle hi))
    obtain ⟨hbound, -⟩ := hbooks.weight_spec hi hsmall hk
    have hnext : (possible + (h.blocks i).possibleAlignments needed k) % 2 ^ 64 =
        h.weight needed k index (i + 1) := by
      rw [weight_succ h needed k hle, ← hpossible, mod_eq_of_lt (by omega)]
    have hlt : h.weight needed k index (i + 1) < 2 ^ 61 := by
      rw [weight_succ h needed k hle, ← hpossible]
      omega
    rw [maxBlocksFrom, block_eq h hi, ret_true_bind, hnext]
    show wp (if 4 ≤ h.weight needed k index (i + 1) then _ else _) _
    split_ifs with hmany
    · exact wp_ret.2 ⟨rfl, rfl, hlt, le_succ i, hi, fun _ => lt_succ_self i, fun _ => hmany⟩
    · refine wp_mono (ih (i + 1) _ (by omega) (by omega) rfl (by omega)) ?_
      rintro r held ⟨hheld, hr, hrlt, hile, hrle, -, hfull⟩
      exact ⟨hheld, hr, hrlt, by omega, hrle, fun _ => by omega, hfull⟩

/-- **The second loop of `AllocateByRandom`** ends at a size that has weight. -/
theorem selectIndexFrom_spec {k rnd maxBlocks : ℕ} (hmax : maxBlocks ≤ numMemoryBlockPageShifts)
    (hrnd : rnd < h.weight needed k index maxBlocks) (hlt : h.weight needed k index maxBlocks < 2 ^ 61) :
    ∀ rounds i possible, index ≤ i → i + rounds = maxBlocks → possible = h.weight needed k index i → possible ≤ rnd →
      wp (h.selectIndexFrom needed k rnd index rounds i possible) fun r held => held = true ∧
        index ≤ r ∧ r < maxBlocks ∧ 0 < (h.blocks r).possibleAlignments needed k := by
  intro rounds
  induction rounds with
  | zero =>
    intro i possible hle hrounds hpossible hbelow
    obtain rfl : i = maxBlocks := hrounds
    omega
  | succ rounds ih =>
    intro i possible hle hrounds hpossible hbelow
    have hi : i < numMemoryBlockPageShifts := by omega
    have hmono := weight_mono h needed k index (by omega : i + 1 ≤ maxBlocks)
    have hsucc := weight_succ h needed k hle
    have hnext : (possible + (h.blocks i).possibleAlignments needed k) % 2 ^ 64 =
        h.weight needed k index (i + 1) := by
      rw [hsucc, ← hpossible, mod_eq_of_lt (by omega)]
    rw [selectIndexFrom, block_eq h hi, ret_true_bind, hnext]
    show wp (if rnd < h.weight needed k index (i + 1) then _ else _) _
    split_ifs with hthis
    · exact wp_ret.2 ⟨rfl, hle, by omega, by omega⟩
    · exact ih (i + 1) _ (by omega) (by omega) rfl (by omega)

theorem Books.withRng (hbooks : Books h) (rng : RandomBitGenerator) : Books { h with rng := rng } :=
  { hbooks with }

/-- **The size decided on** has a free block whenever one of the sizes from `index` on has. -/
theorem Books.decideIndex_spec (hbooks : Books h) (hindex : index < numMemoryBlockPageShifts)
    (hneeded : needed ≤ getBlockSize index) (hk : k < 64) :
    wp (h.decideIndex index needed k) fun r held => held = true ∧
      (∃ rng, r.2 = { h with rng := rng }) ∧ index ≤ r.1 ∧ r.1 < numMemoryBlockPageShifts ∧
      (h.books r.1 = ∅ → ∀ j < numMemoryBlockPageShifts, index ≤ j → h.books j = ∅) := by
  have hsmall : ∀ j < numMemoryBlockPageShifts, index ≤ j → needed ≤ getBlockSize j := fun j hj hle =>
    hneeded.trans (le_of_dvd (getBlockSize_pos j) (dvd_of_le graded_getBlockSize hle hj))
  have hrounds : index + (h.numBlocks - index) = numMemoryBlockPageShifts := by
    rw [hbooks.numBlocks]
    omega
  rw [decideIndex, wp_bind]
  refine wp_mono (maxBlocksFrom_spec hbooks hneeded hk _ index 0 le_rfl hrounds
    (by rw [weight, Finset.Ico_self, sum_empty]) (by decide)) ?_
  rintro ⟨possible, maxBlocks⟩ held ⟨rfl, hpossible, hlt, -, hmax, hpos, hmany⟩
  simp only at hpossible hlt hmax hpos hmany
  have hfirst := hpos (by omega)
  show wp (if 0 < possible ∧ index + 1 < maxBlocks then _ else _) _
  split_ifs with hlarger
  · have hword : (BitVec.ofNat 64 possible).toNat = possible := by
      rw [BitVec.toNat_ofNat, mod_eq_of_lt (by omega)]
    have hnonzero : BitVec.ofNat 64 possible ≠ 0 := fun hzero => by
      rw [hzero] at hword
      exact absurd hword (Nat.ne_of_lt hlarger.1)
    have hrnd := h.rng.generateRandom_lt _ hnonzero
    rw [hword] at hrnd
    generalize h.rng.generateRandom (BitVec.ofNat 64 possible) = drawn at hrnd ⊢
    obtain ⟨rnd, rng⟩ := drawn
    simp only [hpossible] at hrnd
    show wp (h.selectIndexFrom needed k rnd.toNat index (maxBlocks - index) index 0 >>= _) _
    rw [wp_bind]
    refine wp_mono (selectIndexFrom_spec hmax hrnd (by rw [← hpossible]; exact hlt) _ index 0 le_rfl
      (by omega) (by rw [weight, Finset.Ico_self, sum_empty]) (zero_le _)) ?_
    rintro i held ⟨rfl, hle, hi, hweight⟩
    refine wp_ret.2 ⟨rfl, ⟨rng, rfl⟩, hle, by simp only; omega, fun hempty => ?_⟩
    exact absurd hempty ((hbooks.weight_spec (by omega) (hsmall i (by omega) hle) hk).2.1 hweight)
  · refine wp_ret.2 ⟨rfl, ⟨h.rng, rfl⟩, le_rfl, hindex, fun hempty => ?_⟩
    have hweight := (hbooks.weight_spec hindex hneeded hk).2.not.2 (not_not.2 hempty)
    -- the size asked for has no weight, so the loop went on, and to the end
    have hnone : possible = 0 := by
      by_contra hsome
      have hone : maxBlocks = index + 1 := by omega
      rw [hpossible, hone, weight_succ h needed k le_rfl, weight, Finset.Ico_self, sum_empty] at hsome
      omega
    intro j hj hle
    by_contra hbook
    have hpositive := (hbooks.weight_spec hj (hsmall j hj hle) hk).2.2 hbook
    have hend : maxBlocks = numMemoryBlockPageShifts := by
      by_contra hne
      have := hmany (by omega)
      omega
    have hsum : (h.blocks j).possibleAlignments needed k ≤ h.weight needed k index maxBlocks :=
      single_le_sum (f := fun j => (h.blocks j).possibleAlignments needed k) (fun _ _ => zero_le _)
        (mem_Ico.2 ⟨hle, by omega⟩)
    omega

theorem Popped.withRng (hpopped : Popped h i addr h') (rng : RandomBitGenerator) :
    Popped h i addr { h' with rng := rng } :=
  ⟨hpopped.books.withRng rng, ⟨hpopped.region.address, hpopped.region.size⟩, hpopped.mem, hpopped.inside,
    hpopped.dvd, hpopped.wasFree, hpopped.free⟩

theorem Books.freeLeftover_spec (hbooks : Books h) {addr size : ℕ} (haddr : PageSize ∣ addr)
    (hsize : PageSize ∣ size) (hused : Used h addr (addr + size)) :
    wp (h.freeLeftover addr size) fun h' held => held = true ∧ Freed h h' addr (addr + size) := by
  have hpages : size / PageSize * PageSize = size := Nat.div_mul_cancel hsize
  rw [freeLeftover]
  split_ifs with hzero
  · have hfree := hbooks.free_spec (size / PageSize) haddr (by rw [hpages]; exact hused)
    rw [hpages] at hfree
    exact hfree
  · exact wp_ret.2 ⟨rfl, Freed.refl hbooks (by omega)⟩

/-- **The place in a popped block**: what is before and after it is free again. -/
theorem Popped.placeIn_spec {b : Block} (hpopped : Popped h i addr h')
    (hi : i < numMemoryBlockPageShifts) (hne : addr ≠ 0) (hsize : b.getSize = getBlockSize i)
    (hneeded : needed ≤ getBlockSize i) (hpages : PageSize ∣ needed) (hk : k < 64)
    (hpage : PageSize ∣ 2 ^ k) (halign : 2 ^ k ∣ getBlockSize i) :
    wp (h'.placeIn b addr needed k) fun r held =>
      held = true ∧ Allocated h r.1 needed (2 ^ k) r.2 := by
  have hbound := getBlockSize_le hi
  have hinside := hpopped.inside
  have hwasFree := hpopped.wasFree
  have haddr : PageSize ∣ addr := (pageSize_dvd_getBlockSize hi).trans hpopped.dvd
  have hleft : sizeSub b.getSize needed = getBlockSize i - needed := by
    rw [hsize, sizeSub_of_le hneeded (by omega)]
  rw [placeIn, hleft]
  show wp (if 0 < getBlockSize i - needed then _ else _) _
  split_ifs with hlarger
  · have hdiv : (getBlockSize i - needed) / 2 ^ k * 2 ^ k ≤ getBlockSize i - needed :=
      div_mul_le_self _ _
    have hplaces : (getBlockSize i - needed) / 2 ^ k ≤ getBlockSize i - needed := div_le_self _ _
    rw [sizeShiftRight_of_lt _ hk]
    dsimp only
    have hword : (BitVec.ofNat 64 (1 + (getBlockSize i - needed) / 2 ^ k)).toNat =
        1 + (getBlockSize i - needed) / 2 ^ k := by
      rw [BitVec.toNat_ofNat, mod_eq_of_lt (by omega)]
    have hnonzero : BitVec.ofNat 64 (1 + (getBlockSize i - needed) / 2 ^ k) ≠ 0 := fun hzero => by
      rw [hzero] at hword
      exact absurd hword (Nat.ne_of_lt (Nat.add_pos_left Nat.one_pos _))
    have hrnd := h'.rng.generateRandom_lt _ hnonzero
    rw [hword] at hrnd
    generalize h'.rng.generateRandom (BitVec.ofNat 64 (1 + (getBlockSize i - needed) / 2 ^ k)) = drawn
      at hrnd ⊢
    obtain ⟨rnd, rng⟩ := drawn
    have hoffset : rnd.toNat * 2 ^ k ≤ getBlockSize i - needed :=
      (Nat.mul_le_mul_right _ (by simp only at hrnd; omega)).trans hdiv
    have hoffsetPages : PageSize ∣ rnd.toNat * 2 ^ k := hpage.trans (dvd_mul_left _ _)
    have halignOffset : 2 ^ k ∣ rnd.toNat * 2 ^ k := dvd_mul_left _ _
    show wp (freeLeftover { h' with rng := rng } addr (sizeShiftLeft rnd.toNat k) >>= _) _
    rw [sizeShiftLeft_of_lt hk (by omega), sizeSub_of_le hoffset (by omega)]
    generalize rnd.toNat * 2 ^ k = offset at hoffset hoffsetPages halignOffset ⊢
    have hpopped' := hpopped.withRng rng
    rw [wp_bind]
    refine wp_mono (hpopped'.books.freeLeftover_spec haddr hoffsetPages
      (hpopped'.used.mono le_rfl (by omega))) ?_
    rintro h₁ held ⟨rfl, hbefore⟩
    show wp (h₁.freeLeftover (addr + offset + needed) (getBlockSize i - needed - offset) >>= _) _
    rw [wp_bind]
    refine wp_mono (hbefore.books.freeLeftover_spec
      (Nat.dvd_add (Nat.dvd_add haddr hoffsetPages) hpages)
      (Nat.dvd_sub (Nat.dvd_sub (pageSize_dvd_getBlockSize hi) hpages) hoffsetPages)
      ((hpopped'.used.mono (by omega) (by omega)).beside hbefore fun x _ _ => by omega)) ?_
    rintro h₂ held ⟨rfl, hafter⟩
    refine wp_ret.2 ⟨rfl, hafter.books, ?_, by simp only; omega, Nat.dvd_add (halign.trans hpopped.dvd) halignOffset,
      fun x hlow hhigh => hwasFree x (by omega) (by omega), by simp only; omega, fun x => ?_⟩
    · exact ⟨hafter.region.address.trans (hbefore.region.address.trans hpopped'.region.address),
        hafter.region.size.trans (hbefore.region.size.trans hpopped'.region.size)⟩
    · rw [hafter.free, hbefore.free, hpopped'.free]
      constructor
      · rintro ((⟨hfree, hout⟩ | hin) | hin)
        · exact ⟨hfree, fun hx => hout (by omega)⟩
        · exact ⟨hwasFree x (by omega) (by omega), by omega⟩
        · exact ⟨hwasFree x (by omega) (by omega), by omega⟩
      · rintro ⟨hfree, hout⟩
        by_cases hin : addr ≤ x ∧ x < addr + getBlockSize i
        · by_cases hlow : x < addr + offset
          · exact .inl (.inr (by omega))
          · exact .inr (by omega)
        · exact .inl (.inl ⟨hfree, hin⟩)
  · have hequal : getBlockSize i = needed := by omega
    subst hequal
    exact wp_ret.2 ⟨rfl, hpopped.books, hpopped.region, hne, halign.trans hpopped.dvd, hwasFree, hinside,
      hpopped.free⟩

/-- **`AllocateByRandom`.** -/
theorem Books.allocateByRandom_spec (hbooks : Books h) (hindex : index < numMemoryBlockPageShifts)
    {numPages alignPages : ℕ} (hneeded : numPages * PageSize ≤ getBlockSize index)
    (hpos : 0 < alignPages) (halign : alignPages * PageSize ≤ getBlockSize index) :
    wp (h.allocateByRandom index numPages alignPages) fun r held => held = true ∧
      Outcome h index (numPages * PageSize) (2 ^ countrZero (alignPages * PageSize)) r := by
  have hbound := getBlockSize_le hindex
  have hposSize : 0 < alignPages * PageSize := Nat.mul_pos hpos (by decide)
  have hshift := fun k => two_pow_dvd_iff_le_countrZero (k := k) hposSize (by omega)
  have hpage : PageSize ∣ 2 ^ countrZero (alignPages * PageSize) :=
    Nat.pow_dvd_pow 2 ((hshift 12).1 (dvd_mul_left _ _))
  have hpow : 2 ^ countrZero (alignPages * PageSize) ≤ alignPages * PageSize :=
    le_of_dvd hposSize ((hshift _).2 le_rfl)
  show wp (h.decideIndex index (numPages * PageSize % 2 ^ 64)
    (countrZero (alignPages * PageSize % 2 ^ 64)) >>= _) _
  rw [mod_eq_of_lt (by omega : numPages * PageSize < 2 ^ 64),
    mod_eq_of_lt (by omega : alignPages * PageSize < 2 ^ 64), wp_bind]
  generalize countrZero (alignPages * PageSize) = k at hpage hpow ⊢
  have hpowSize := hpow.trans halign
  have hk : k ≤ 30 := (Nat.pow_le_pow_iff_right (by decide)).1 (hpowSize.trans hbound)
  refine wp_mono (hbooks.decideIndex_spec hindex hneeded (by omega : k < 64)) ?_
  rintro ⟨i, h₁⟩ held ⟨rfl, ⟨rng, hsame⟩, hle, hi, hnone⟩
  simp only at hsame hle hi hnone
  subst hsame
  have hbooks₁ := hbooks.withRng rng
  have hdvd : getBlockSize index ∣ getBlockSize i := dvd_of_le graded_getBlockSize hle hi
  have hsmall := le_of_dvd (getBlockSize_pos i) hdvd
  show wp (block { h with rng := rng } i >>= _) _
  rw [block_eq _ hi, ret_true_bind, wp_bind]
  refine wp_mono (hbooks₁.popBlock_spec hi true) ?_
  rintro ⟨addr, b⟩ held ⟨rfl, hsize, houtcome⟩
  show wp (if addr ≠ 0 then placeIn (setBlock { h with rng := rng } i b) b addr _ _ else _) _
  rcases houtcome with ⟨hzero, hempty, hbooks₂, hsameBooks⟩ | ⟨hne, hpopped⟩
  · simp only at hzero
    rw [if_neg (not_not.2 hzero)]
    refine wp_ret.2 ⟨rfl, .inl ⟨rfl, hbooks₂, ⟨rfl, rfl⟩, fun x => ?_, hnone hempty⟩⟩
    rw [IsFree, hsameBooks]
    exact Iff.rfl
  · simp only at hne hpopped hsize
    rw [if_pos hne]
    refine wp_mono (hpopped.placeIn_spec hi hne hsize (hneeded.trans hsmall) (dvd_mul_left _ _)
      (by omega) hpage ?_) ?_
    · exact (Nat.pow_dvd_pow 2 ((Nat.pow_le_pow_iff_right (by decide)).1 hpowSize)).trans hdvd
    · rintro r held ⟨rfl, hallocated⟩
      exact ⟨rfl, .inr ⟨hallocated.books, ⟨hallocated.region.address, hallocated.region.size⟩,
        hallocated.nonzero, hallocated.aligned, hallocated.wasFree, hallocated.inside, hallocated.free⟩⟩

/-- **`AllocateBlock`**, by linear search or by random. -/
theorem Books.allocateBlock_spec (hbooks : Books h) (hindex : index < numMemoryBlockPageShifts) (random : Bool) :
    wp (h.allocateBlock index random) fun r held =>
      held = true ∧ Outcome h index (getBlockSize index) (getBlockSize index) r := by
  have hpages : getBlockNumPages index * PageSize = getBlockSize index :=
    Nat.div_mul_cancel (pageSize_dvd_getBlockSize hindex)
  unfold allocateBlock
  split_ifs with hrandom
  · show wp (h.block index >>= _) _
    rw [block_eq h hindex, ret_true_bind, Block.getNumPages, hbooks.getSize hindex]
    have hpagesPos : 0 < getBlockNumPages index :=
      Nat.pos_of_mul_pos_right (hpages.symm ▸ getBlockSize_pos index)
    have hbound := getBlockSize_le hindex
    have hrandomly := hbooks.allocateByRandom_spec hindex hpages.le hpagesPos hpages.le
    rw [hpages] at hrandomly
    have hshift : 2 ^ countrZero (getBlockSize index) = getBlockSize index :=
      le_antisymm (le_of_dvd (getBlockSize_pos index)
        ((two_pow_dvd_iff_le_countrZero (getBlockSize_pos index) (by omega)).2 le_rfl))
        (Nat.pow_le_pow_right (by decide)
          ((two_pow_dvd_iff_le_countrZero (getBlockSize_pos index) (by omega)).1 (dvd_refl _)))
    rw [hshift] at hrandomly
    exact hrandomly
  · show wp (h.block index >>= _) _
    rw [block_eq h hindex, ret_true_bind, hbooks.getSize hindex, hbooks.numBlocks]
    exact linearSearchFrom_spec hindex _ h index hbooks le_rfl (by omega) fun j hj hle => by omega

end KPageHeap

end Kernel
end NXEmu
