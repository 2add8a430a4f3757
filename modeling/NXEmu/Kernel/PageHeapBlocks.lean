/-
# The blocks of a page heap

The bits of a size stand for its free blocks by their addresses (`Block.free`).  `PushBlock` adds a block
to them, or takes out the blocks of the group that it completes and returns what the group makes up
(`Block.At.pushBlock_spec`); `PopBlock` takes one out (`Block.At.popBlock_spec`).  The region of a size is
widened to whole blocks of the next one, so the group of a block is always in its bitmap.
-/

import NXEmu.Kernel.PageHeap
import NXEmu.Kernel.PageBitmapSearch
import NXEmu.Lib.Buddies

variable {offset : ℕ} {bitmap : KPageBitmap}

namespace NXEmu
namespace Kernel

open Common Buddies Exec Finset Nat

variable {i a c address size : ℕ} {b : Block}

/-! ### Sizes -/

theorem getBlockSize_pos (i : ℕ) : 0 < getBlockSize i := Nat.two_pow_pos _

theorem blockShift_lt (hi : i + 1 < numMemoryBlockPageShifts) : blockShift i < blockShift (i + 1) := by
  have hshifts : ∀ i < 7, blockShift i < blockShift (i + 1) := by decide
  exact hshifts i (lt_of_succ_lt_succ hi)

/-- The sizes of the blocks divide one another. -/
theorem graded_getBlockSize : Graded numMemoryBlockPageShifts getBlockSize :=
  ⟨fun i _ => getBlockSize_pos i, fun _ hi => pow_dvd_pow 2 (blockShift_lt hi).le⟩

theorem pageSize_dvd_getBlockSize (hi : i < numMemoryBlockPageShifts) : PageSize ∣ getBlockSize i :=
  dvd_of_le graded_getBlockSize (zero_le i) hi

/-- How many blocks of a size make up one of the next. -/
def groupOf (i : ℕ) : ℕ := 2 ^ (blockShift (i + 1) - blockShift i)

theorem groupOf_mul (hi : i + 1 < numMemoryBlockPageShifts) :
    groupOf i * getBlockSize i = getBlockSize (i + 1) := by
  rw [groupOf, getBlockSize, getBlockSize, ← Nat.pow_add, Nat.sub_add_cancel (blockShift_lt hi).le]

/-- A group is a part of a word. -/
theorem groupOf_lt (hi : i + 1 < numMemoryBlockPageShifts) : groupOf i < 64 ∧ groupOf i ∣ 64 := by
  have hgroups : ∀ i < 7, groupOf i < 64 ∧ groupOf i ∣ 64 := by decide
  exact hgroups i (lt_of_succ_lt_succ hi)

/-- What the region of a size is widened to. -/
def alignOf (i : ℕ) : ℕ := if i + 1 < numMemoryBlockPageShifts then getBlockSize (i + 1) else getBlockSize i

theorem dvd_alignOf (i : ℕ) : getBlockSize i ∣ alignOf i := by
  rw [alignOf]
  split_ifs with hlt
  · exact graded_getBlockSize.dvd i hlt
  · exact Nat.dvd_refl _

theorem alignOf_pos (i : ℕ) : 0 < alignOf i := by
  rw [alignOf]
  split_ifs <;> exact getBlockSize_pos _

/-! ### The blocks of a size -/

namespace Block

/-- The addresses of the free blocks. -/
def free (b : Block) : Finset ℕ := b.bitmap.bits.image fun offset => b.heapAddress + offset * b.getSize

/-- The blocks of the size `i` of a region. -/
structure At (address size i : ℕ) (b : Block) : Prop where
  kept : KPageBitmap.Kept b.bitmap
  shift : b.blockShift = Kernel.blockShift i
  next : b.nextBlockShift = if i + 1 < numMemoryBlockPageShifts then Kernel.blockShift (i + 1) else 0
  base : b.heapAddress = alignDown address (alignOf i)
  room : alignUp (address + size) (alignOf i) ≤ b.heapAddress + b.bitmap.capacity * getBlockSize i

section

variable (h : At address size i b)

include h

theorem At.getSize : b.getSize = getBlockSize i := by
  rw [Block.getSize, getBlockSize, h.shift]

theorem At.base_dvd : getBlockSize i ∣ b.heapAddress := by
  rw [h.base]
  exact (dvd_alignOf i).trans (dvd_alignDown _ _)

theorem At.base_le : b.heapAddress ≤ address := by
  rw [h.base]
  exact alignDown_le _ _

/-- The block of a bit is free just when the bit is set. -/
theorem At.mem_free :
    b.heapAddress + offset * getBlockSize i ∈ b.free ↔ offset ∈ b.bitmap.bits := by
  rw [Block.free, mem_image, h.getSize]
  constructor
  · rintro ⟨o, ho, heq⟩
    have hmul : o * getBlockSize i = offset * getBlockSize i := add_left_cancel heq
    rwa [← eq_of_mul_eq_mul_right (getBlockSize_pos i) hmul]
  · exact fun ho => ⟨offset, ho, rfl⟩

/-- An aligned block of the region has a bit. -/
theorem At.exists_offset (ha : getBlockSize i ∣ a) (hle : b.heapAddress ≤ a) :
    ∃ offset, a = b.heapAddress + offset * getBlockSize i ∧ (a - b.heapAddress) >>> b.blockShift = offset := by
  obtain ⟨k, hk⟩ := dvd_sub ha h.base_dvd
  refine ⟨k, ?_, ?_⟩
  · rw [Nat.mul_comm k, ← hk]
    omega
  · rw [hk, h.shift, shiftRight_eq_div_pow]
    exact Nat.mul_div_cancel_left k (getBlockSize_pos i)

/-- The bits of the blocks of the region are in the bitmap. -/
theorem At.offset_lt (hin : b.heapAddress + offset * getBlockSize i + getBlockSize i ≤ address + size) :
    offset < b.bitmap.capacity := by
  have hroom := h.room
  have hup := le_alignUp (address + size) (alignOf_pos i)
  have hmul : (offset + 1) * getBlockSize i ≤ b.bitmap.capacity * getBlockSize i := by
    rw [succ_mul]
    omega
  exact le_of_mul_le_mul_right hmul (getBlockSize_pos i)

theorem At.withBitmap (hkept : KPageBitmap.Kept bitmap)
    (hshape : KPageBitmap.SameShape b.bitmap bitmap) : At address size i { b with bitmap := bitmap } := by
  have hcapacity : bitmap.capacity = b.bitmap.capacity := by
    rw [KPageBitmap.capacity, KPageBitmap.capacity, KPageBitmap.getHighestDepthIndex,
      KPageBitmap.getHighestDepthIndex, hshape.1, hshape.2]
  refine ⟨hkept, h.shift, h.next, h.base, ?_⟩
  show _ ≤ b.heapAddress + bitmap.capacity * _
  rw [hcapacity]
  exact h.room

end

/-- Where the group of a block begins. -/
def groupStart (i a : ℕ) : ℕ := alignDown a (getBlockSize (i + 1))

theorem groupStart_spec (i a : ℕ) : getBlockSize (i + 1) ∣ groupStart i a ∧ groupStart i a ≤ a ∧
    a < groupStart i a + getBlockSize (i + 1) :=
  ⟨dvd_alignDown _ _, alignDown_le _ _, lt_alignDown a (getBlockSize_pos _)⟩

/-- The block completes its group. -/
def Full (b : Block) (i a : ℕ) : Prop :=
  i + 1 < numMemoryBlockPageShifts ∧ ∀ c, getBlockSize i ∣ c → groupStart i a ≤ c →
    c < groupStart i a + getBlockSize (i + 1) → c = a ∨ c ∈ b.free

section

variable (h : At address size i b) (hi : i + 1 < numMemoryBlockPageShifts)

include h hi

/-- The group of a bit, as a range of the bitmap. -/
theorem At.groupStart_eq (offset : ℕ) :
    groupStart i (b.heapAddress + offset * getBlockSize i) =
      b.heapAddress + alignDown offset (groupOf i) * getBlockSize i := by
  have hbase : getBlockSize (i + 1) ∣ b.heapAddress := by
    rw [h.base, alignOf, if_pos hi]
    exact dvd_alignDown _ _
  obtain ⟨m, hm⟩ := hbase
  have hpos := getBlockSize_pos i
  rw [groupStart, alignDown_eq, alignDown_eq, hm, mul_add_div (getBlockSize_pos _), add_mul,
    Nat.mul_comm m, ← groupOf_mul hi, Nat.mul_div_mul_right _ _ hpos]
  ring

/-- The range of a group lies in the bitmap, within a word. -/
theorem At.group_range (hin : b.heapAddress + offset * getBlockSize i + getBlockSize i ≤ address + size) :
    KPageBitmap.RangeAligned (alignDown offset (groupOf i)) (groupOf i) ∧
      alignDown offset (groupOf i) + groupOf i ≤ b.bitmap.capacity := by
  obtain ⟨hlt, k, hk⟩ := groupOf_lt hi
  have hpos : 0 < groupOf i := Nat.two_pow_pos _
  constructor
  · rw [KPageBitmap.RangeAligned, if_pos hlt, alignDown_eq, Nat.mul_comm, hk, mul_mod_mul_left]
    have hmod : offset / groupOf i % k < k := mod_lt _ (pos_of_ne_zero fun hzero => by
      rw [hzero, mul_zero] at hk
      exact absurd hk (by decide))
    have hmul := mul_le_mul_left (groupOf i) (succ_le_of_lt hmod)
    rwa [mul_succ] at hmul
  · -- the end of the region is aligned up to whole groups
    have hroom := h.room
    have hstart := h.groupStart_eq hi offset
    obtain ⟨hdvd, hle, hafter⟩ := groupStart_spec i (b.heapAddress + offset * getBlockSize i)
    rw [hstart] at hdvd hle hafter
    have hup := le_alignUp (address + size) (alignOf_pos i)
    have hdvdUp := dvd_alignUp (address + size) (alignOf i)
    rw [alignOf, if_pos hi] at hroom hup hdvdUp
    have hsizePos := getBlockSize_pos i
    have hbelow : b.heapAddress + alignDown offset (groupOf i) * getBlockSize i + getBlockSize (i + 1) ≤
        alignUp (address + size) (getBlockSize (i + 1)) :=
      Nat.le_of_lt_add_of_dvd (by omega) (Nat.dvd_add hdvd (Nat.dvd_refl _)) hdvdUp
    have hmul : (alignDown offset (groupOf i) + groupOf i) * getBlockSize i ≤ b.bitmap.capacity * getBlockSize i := by
      rw [add_mul, groupOf_mul hi]
      omega
    exact le_of_mul_le_mul_right hmul hsizePos

/-- A group is complete just when the range of it is in the bitmap, with the bit of the block. -/
theorem At.full_iff (offset : ℕ) :
    Full b i (b.heapAddress + offset * getBlockSize i) ↔
      Finset.Ico (alignDown offset (groupOf i)) (alignDown offset (groupOf i) + groupOf i) ⊆
        insert offset b.bitmap.bits := by
  have hstart := h.groupStart_eq hi offset
  have hpos := getBlockSize_pos i
  have hmul := groupOf_mul hi
  rw [Full, and_iff_right hi, hstart, ← hmul]
  have hend : b.heapAddress + alignDown offset (groupOf i) * getBlockSize i + groupOf i * getBlockSize i =
      b.heapAddress + (alignDown offset (groupOf i) + groupOf i) * getBlockSize i := by ring
  rw [hend]
  constructor
  · intro hall k hk
    rw [mem_Ico] at hk
    have hlow := mul_le_mul_right (getBlockSize i) hk.1
    have hhigh := mul_lt_mul_of_pos_right hk.2 hpos
    rw [mem_insert, ← h.mem_free]
    refine (hall (b.heapAddress + k * getBlockSize i)
      (Nat.dvd_add h.base_dvd (Nat.dvd_mul_left _ _)) (by omega) (by omega)).imp (fun heq => ?_) id
    exact eq_of_mul_eq_mul_right hpos (add_left_cancel heq)
  · intro hall c hc hlow hhigh
    obtain ⟨k, rfl, -⟩ := h.exists_offset hc (by omega)
    have hk := hall (mem_Ico.2 (⟨le_of_mul_le_mul_right (by omega) hpos,
      Nat.lt_of_mul_lt_mul_right (by omega : k * getBlockSize i < _ * getBlockSize i)⟩ :
      alignDown offset (groupOf i) ≤ k ∧ k < alignDown offset (groupOf i) + groupOf i))
    rw [h.mem_free]
    refine (mem_insert.1 hk).imp (fun heq => ?_) id
    rw [heq]

/-- The free blocks when the bits of a group have been cleared. -/
theorem At.free_cleared (offset : ℕ) (hbits : bitmap.bits = insert offset b.bitmap.bits \
      Finset.Ico (alignDown offset (groupOf i)) (alignDown offset (groupOf i) + groupOf i)) :
    free { b with bitmap := bitmap } =
      outside b.free (groupStart i (b.heapAddress + offset * getBlockSize i)) (getBlockSize (i + 1)) := by
  have hpos := getBlockSize_pos i
  have hgroup : 0 < groupOf i := Nat.two_pow_pos _
  have hmod := mod_lt offset hgroup
  have hown : alignDown offset (groupOf i) ≤ offset ∧ offset < alignDown offset (groupOf i) + groupOf i := by
    have hle := mod_le offset (groupOf i)
    rw [alignDown]
    omega
  ext c
  rw [outside, mem_filter, h.groupStart_eq hi offset, ← groupOf_mul hi]
  simp only [free, mem_image]
  show (∃ o ∈ bitmap.bits, b.heapAddress + o * b.getSize = c) ↔ _
  rw [hbits, h.getSize]
  have hend : b.heapAddress + alignDown offset (groupOf i) * getBlockSize i + groupOf i * getBlockSize i =
      b.heapAddress + (alignDown offset (groupOf i) + groupOf i) * getBlockSize i := by ring
  rw [hend]
  have hin : ∀ o, (b.heapAddress + alignDown offset (groupOf i) * getBlockSize i ≤
      b.heapAddress + o * getBlockSize i ∧ b.heapAddress + o * getBlockSize i <
        b.heapAddress + (alignDown offset (groupOf i) + groupOf i) * getBlockSize i) ↔
      (alignDown offset (groupOf i) ≤ o ∧ o < alignDown offset (groupOf i) + groupOf i) := fun o => by
    rw [Nat.add_le_add_iff_left, Nat.add_lt_add_iff_left, Nat.mul_le_mul_right_iff hpos, Nat.mul_lt_mul_right hpos]
  constructor
  · rintro ⟨o, ho, rfl⟩
    rw [mem_sdiff, mem_Ico, mem_insert] at ho
    rw [hin]
    exact ⟨⟨o, ho.1.resolve_left fun heq => ho.2 (heq ▸ hown), rfl⟩, ho.2⟩
  · rintro ⟨⟨o, ho, rfl⟩, hout⟩
    rw [hin] at hout
    exact ⟨o, mem_sdiff.2 ⟨mem_insert_of_mem ho, by rwa [mem_Ico]⟩, rfl⟩

end

section

variable (h : At address size i b)

include h

theorem At.free_insert (offset : ℕ) (hbits : bitmap.bits = insert offset b.bitmap.bits) :
    free { b with bitmap := bitmap } = insert (b.heapAddress + offset * getBlockSize i) b.free := by
  show bitmap.bits.image _ = _
  rw [hbits, image_insert, free, show ({ b with bitmap := bitmap } : Block).getSize = b.getSize from rfl,
    h.getSize]

/-- **`PushBlock`**: the block is added, or the group that it completes is taken out and returned. -/
theorem At.pushBlock_spec (ha : getBlockSize i ∣ a) (hle : address ≤ a)
    (hin : a + getBlockSize i ≤ address + size) (hnot : a ∉ b.free) :
    wp (b.pushBlock a) fun r held => held = true ∧ At address size i r.2 ∧
      ((¬Full b i a ∧ r.1 = 0 ∧ r.2.free = insert a b.free) ∨ (Full b i a ∧ r.1 = groupStart i a ∧
          r.2.free = outside b.free (groupStart i a) (getBlockSize (i + 1)))) := by
  obtain ⟨offset, rfl, hshift⟩ := h.exists_offset ha (h.base_le.trans hle)
  rw [h.mem_free] at hnot
  rw [pushBlock, hshift, wp_bind]
  refine wp_mono (h.kept.setBit_spec (h.offset_lt hin) hnot) ?_
  rintro bitmap held ⟨rfl, hkept, hshape, -, hbits⟩
  have hat := h.withBitmap hkept hshape
  by_cases hi : i + 1 < numMemoryBlockPageShifts
  · have hnext : b.nextBlockShift = Kernel.blockShift (i + 1) := by rw [h.next, if_pos hi]
    have hne : b.nextBlockShift ≠ 0 := by
      rw [hnext]
      exact (zero_le _).trans_lt (blockShift_lt hi) |>.ne'
    have hdiff : 2 ^ (b.nextBlockShift - b.blockShift) = groupOf i := by rw [hnext, h.shift, groupOf]
    have hgroup := hat.group_range hi hin
    have haligned : KPageBitmap.RangeAligned (alignDown offset (groupOf i)) (groupOf i) := hgroup.1
    have hrange : alignDown offset (groupOf i) + groupOf i ≤ bitmap.capacity := hgroup.2
    have hpos : 0 < groupOf i := Nat.two_pow_pos _
    rw [if_pos hne, hdiff, wp_bind]
    refine wp_mono (hkept.clearRange_spec haligned (by omega) hrange) ?_
    rintro ⟨cleared, bitmap'⟩ held ⟨hheld, hcleared⟩
    have hfull : Full b i (b.heapAddress + offset * getBlockSize i) ↔ cleared = true := by
      rw [h.full_iff hi offset, ← hbits]
      exact hcleared.iff.symm
    have hat' := hat.withBitmap hcleared.kept hcleared.shape
    cases cleared with
    | true =>
      refine wp_ret.2 ⟨by rw [hheld hpos]; rfl, hat', .inr ⟨hfull.2 rfl, ?_, ?_⟩⟩
      · show b.heapAddress + alignDown offset (groupOf i) <<< b.blockShift = _
        rw [h.groupStart_eq hi offset, shiftLeft_eq, h.shift, getBlockSize]
      · exact h.free_cleared hi offset (by rw [hcleared.bits rfl, hbits])
    | false =>
      have hsame : bitmap' = bitmap := hcleared.unchanged rfl
      refine wp_ret.2 ⟨by rw [hheld hpos]; rfl, hat', .inl ⟨fun hf => ?_, rfl, ?_⟩⟩
      · exact Bool.false_ne_true (hfull.1 hf)
      · exact h.free_insert offset (by rw [hsame, hbits])
  · rw [if_neg (by rw [h.next, if_neg hi]; exact not_not.2 rfl)]
    exact wp_ret.2 ⟨rfl, hat, .inl ⟨fun hf => hi hf.1, rfl, h.free_insert offset hbits⟩⟩

/-- The bits count the free blocks. -/
theorem At.card_free : b.free.card = b.getNumFreeBlocks := by
  rw [free, Finset.card_image_of_injective, getNumFreeBlocks, h.kept.count]
  intro o o' heq
  rw [h.getSize] at heq
  exact eq_of_mul_eq_mul_right (getBlockSize_pos i) (add_left_cancel heq)

/-- **`PopBlock`**: a free block is taken out, or there is none. -/
theorem At.popBlock_spec (random : Bool) :
    wp (b.popBlock random) fun r held => held = true ∧ At address size i r.2 ∧
      ((b.free = ∅ ∧ r.1 = 0 ∧ r.2.free = b.free) ∨ (r.1 ∈ b.free ∧ r.2.free = b.free.erase r.1)) := by
  rw [popBlock, wp_bind]
  refine wp_mono (h.kept.findFreeBlock_spec random) ?_
  rintro ⟨soffset, bitmap⟩ held ⟨rfl, hfound⟩
  have hbits : bitmap.bits = b.bitmap.bits := hfound.bits
  have hat := h.withBitmap hfound.kept hfound.shape
  cases soffset with
  | none =>
    refine wp_ret.2 ⟨rfl, hat, .inl ⟨?_, rfl, ?_⟩⟩
    · rw [free, hfound.none.1 rfl, image_empty]
    · show bitmap.bits.image _ = _
      rw [hbits]
      rfl
  | some offset =>
    have hoffset : offset ∈ b.bitmap.bits := hfound.some offset rfl
    show wp (bitmap.clearBit offset >>= _) _
    rw [wp_bind]
    refine wp_mono (hfound.kept.clearBit_spec (by rw [hbits]; exact hoffset)) ?_
    rintro bitmap' held ⟨rfl, hkept, hshape, -, hbits'⟩
    have hshift : offset <<< b.blockShift = offset * getBlockSize i := by
      rw [shiftLeft_eq, h.shift, getBlockSize]
    refine wp_ret.2 ⟨rfl, hat.withBitmap hkept hshape, .inr ?_⟩
    rw [hshift, h.mem_free]
    refine ⟨hoffset, ?_⟩
    show bitmap'.bits.image (fun o => b.heapAddress + o * b.getSize) = _
    rw [hbits', hbits, erase_eq, erase_eq, free, h.getSize, image_sdiff, image_singleton]
    intro o o' heq
    exact eq_of_mul_eq_mul_right (getBlockSize_pos i) (add_left_cancel heq)

end

/-- **`Initialize`** makes a size without free blocks, when its assertion holds. -/
theorem initialized_spec (rng : RandomBitGenerator) (hsize : 0 < size) :
    wp (Block.initialized rng address size (Kernel.blockShift i)
      (if i + 1 < numMemoryBlockPageShifts then Kernel.blockShift (i + 1) else 0)) fun b held =>
        held = true → At address size i b ∧ b.free = ∅ := by
  have halign : (if (if i + 1 < numMemoryBlockPageShifts then Kernel.blockShift (i + 1) else 0) ≠ 0 then
      2 ^ (if i + 1 < numMemoryBlockPageShifts then Kernel.blockShift (i + 1) else 0)
      else 2 ^ Kernel.blockShift i) = alignOf i := by
    rw [alignOf]
    split_ifs with hi hzero
    · rfl
    · exact absurd ((zero_le _).trans_lt (blockShift_lt hi)).ne' hzero
    · exact absurd rfl ‹0 ≠ 0›
    · rfl
  have hsizePos := getBlockSize_pos i
  have hup := le_alignUp (address + size) (alignOf_pos i)
  have hdown := alignDown_le address (alignOf i)
  obtain ⟨k, hk⟩ : getBlockSize i ∣ alignUp (address + size) (alignOf i) - alignDown address (alignOf i) :=
    dvd_sub ((dvd_alignOf i).trans (dvd_alignUp _ _)) ((dvd_alignOf i).trans (dvd_alignDown _ _))
  have hpos : 0 < k := by
    refine pos_of_ne_zero fun hzero => ?_
    rw [hzero, mul_zero] at hk
    omega
  have hend : (alignUp (address + size) (alignOf i) - alignDown address (alignOf i)) /
      2 ^ Kernel.blockShift i = k := by
    rw [hk]
    exact Nat.mul_div_cancel_left k hsizePos
  rw [Block.initialized, halign, wp_bind, hend]
  by_cases hdepth : getRequiredDepth k ≤ maxDepth
  · refine wp_mono (KPageBitmap.initialized_spec rng hpos hdepth) ?_
    rintro bitmap held ⟨rfl, hkept, hempty, hcapacity, -⟩
    refine wp_ret.2 fun _ => ⟨⟨hkept, rfl, rfl, rfl, ?_⟩, ?_⟩
    · have hmul := mul_le_mul_left (getBlockSize i) hcapacity
      show alignUp (address + size) (alignOf i) ≤ alignDown address (alignOf i) + bitmap.capacity * getBlockSize i
      rw [Nat.mul_comm bitmap.capacity]
      omega
    · show bitmap.bits.image _ = ∅
      rw [hempty, image_empty]
  · rw [KPageBitmap.initialized, wp_bind, wp_assert, pure_eq, wp_ret]
    refine wp_ret.2 fun hheld => ?_
    rw [decide_eq_false hdepth, Bool.false_and, Bool.false_and] at hheld
    exact absurd hheld Bool.false_ne_true

end Block

end Kernel
end NXEmu
