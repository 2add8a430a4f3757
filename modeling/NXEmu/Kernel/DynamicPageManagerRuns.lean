/-
# Runs of the dynamic page manager

Where the guest base lies whole pages above its aligned base, page `i` of the backing memory has the bit
`i` places after the first (`Holds`), and the pages with a bit are those that nobody holds.  Each operation
that meets its condition moves pages from one side to the other (`Holds.allocate`, `Holds.allocateCount`,
`Holds.free`), so every run leaves a correct pool (`Run.pool`).
-/

import NXEmu.Kernel.DynamicPageManager

namespace NXEmu
namespace Kernel

open Common

namespace KDynamicPageManager

open Exec List

variable {m : KDynamicPageManager} {held pages : List ℕ} {backingMemory memory size align count i p : ℕ}

/-- The bit of the first page. -/
def first (m : KDynamicPageManager) : ℕ := (m.address - m.alignedAddress) / PageSize

/-- The pool whose pages with the given numbers are held. -/
structure Holds (m : KDynamicPageManager) (held pages : List ℕ) : Prop where
  kept : KPageBitmap.Kept m.pageBitmap
  words : 0 < m.pageBitmap.words m.pageBitmap.getHighestDepthIndex
  aligned_le : m.alignedAddress ≤ m.address
  whole : PageSize ∣ m.address - m.alignedAddress
  room : m.first + m.count ≤ m.pageBitmap.capacity
  size : m.size = m.count * PageSize
  guest : m.address < 2 ^ 64
  host : m.backingMemory + m.size < 2 ^ 64
  held : held = pages.map fun i => m.backingMemory + i * PageSize
  nodup : pages.Nodup
  lt : ∀ i ∈ pages, i < m.count
  bits : ∀ offset, offset ∈ m.pageBitmap.bits ↔ ∃ i < m.count, i ∉ pages ∧ offset = m.first + i
  used : m.used = pages.length

theorem page_injective (base : ℕ) : Function.Injective fun i => base + i * PageSize := by
  intro i j hij
  simp only [PageSize] at hij
  omega

section

variable (h : Holds m held pages)

include h

theorem Holds.first_mul :
    m.first * PageSize = m.address - m.alignedAddress := Nat.div_mul_cancel h.whole

/-- **The pointer of a bit** is that of its page. -/
theorem Holds.pointerAt (hi : i < m.count) :
    m.pointerAt (m.first + i) = m.backingMemory + i * PageSize := by
  have hfirst := h.first_mul
  have hle := h.aligned_le
  have hguest := h.guest
  have hhost := h.host
  have hsize := h.size
  rw [KDynamicPageManager.pointerAt, getPointer, Nat.add_mul, hfirst]
  simp only [PageSize] at *
  omega

/-- A page that is given has the number that its pointer says. -/
theorem Holds.bit_of_pointer (hi : i < m.count)
    (hbase : m.address ≤ m.backingMemory) (hbelow : m.backingMemory < m.address + PageSize) :
    (m.backingMemory + i * PageSize + 2 ^ 64 - m.alignedAddress) % 2 ^ 64 / PageSize = m.first + i := by
  have hfirst := h.first_mul
  have hle := h.aligned_le
  have hguest := h.guest
  have hhost := h.host
  have hsize := h.size
  simp only [PageSize] at *
  omega

/-- **What holding pages makes of a pool**: it is correct. -/
theorem Holds.correct : Correct m held := by
  have hsize := h.size
  refine ⟨?_, fun p hp => ?_, ?_, fun p => ?_⟩
  · rw [h.held, pairwise_map]
    refine h.nodup.imp fun {i j} hij => ?_
    simp only [PageSize] at *
    omega
  · rw [h.held, mem_map] at hp
    obtain ⟨i, hi, rfl⟩ := hp
    have hlt := h.lt i hi
    simp only [PageSize] at *
    omega
  · rw [getUsed, h.used, h.held, length_map]
  · have hmem : ∀ i, m.backingMemory + i * PageSize ∈ held ↔ i ∈ pages := fun i => by
      rw [h.held]
      exact mem_map_of_injective (page_injective _)
    constructor
    · rintro ⟨offset, hoffset, rfl⟩
      obtain ⟨i, hi, hnot, rfl⟩ := (h.bits offset).1 hoffset
      rw [h.pointerAt hi, hmem]
      exact ⟨⟨i, hi, rfl⟩, hnot⟩
    · rintro ⟨⟨i, hi, rfl⟩, hnot⟩
      rw [hmem] at hnot
      exact ⟨m.first + i, (h.bits _).2 ⟨i, hi, hnot, rfl⟩, (h.pointerAt hi).symm⟩

/-! ### The operations -/

/-- The pool after pages have been taken. -/
theorem Holds.taken (i count : ℕ) {bitmap : KPageBitmap} (hkept : KPageBitmap.Kept bitmap)
    (hshape : KPageBitmap.SameShape m.pageBitmap bitmap) (hpos : i + count ≤ m.count)
    (hbits : ∀ offset, offset ∈ bitmap.bits ↔
      offset ∈ m.pageBitmap.bits ∧ ¬(m.first + i ≤ offset ∧ offset < m.first + i + count))
    (hfree : ∀ j < count, i + j ∉ pages) (peak : ℕ) :
    Holds { m with pageBitmap := bitmap, used := m.used + count, peak := peak }
      (bufferPages count (some (m.backingMemory + i * PageSize)) ++ held)
      ((range count).map (i + ·) ++ pages) := by
  have hhighest : bitmap.getHighestDepthIndex = m.pageBitmap.getHighestDepthIndex := by
    rw [KPageBitmap.getHighestDepthIndex, KPageBitmap.getHighestDepthIndex, hshape.2]
  have hmem : ∀ k, k ∈ (range count).map (i + ·) ↔ i ≤ k ∧ k < i + count := by
    intro k
    rw [mem_map]
    constructor
    · rintro ⟨j, hj, rfl⟩
      rw [mem_range] at hj
      omega
    · intro hk
      exact ⟨k - i, mem_range.2 (by omega), by omega⟩
  refine ⟨hkept, ?_, h.aligned_le, h.whole, ?_, h.size, h.guest, h.host, ?_, ?_, ?_, ?_, ?_⟩
  · show 0 < bitmap.words bitmap.getHighestDepthIndex
    rw [hshape.1, hhighest]
    exact h.words
  · show m.first + m.count ≤ 64 * bitmap.words bitmap.getHighestDepthIndex
    rw [hshape.1, hhighest]
    exact h.room
  · rw [h.held, map_append, bufferPages, map_map]
    congr 1
    refine map_congr_left fun j _ => ?_
    simp only [Function.comp_apply, Nat.add_mul]
    omega
  · refine nodup_append.2 ⟨nodup_range.map fun j j' hjj => by simpa using hjj, h.nodup, ?_⟩
    rintro k hk k' hk' rfl
    obtain ⟨j, hj, rfl⟩ := mem_map.1 hk
    exact hfree j (mem_range.1 hj) hk'
  · intro k hk
    rcases mem_append.1 hk with hk | hk
    · rw [hmem] at hk
      show k < m.count
      omega
    · exact h.lt k hk
  · intro offset
    show offset ∈ bitmap.bits ↔ ∃ k < m.count, k ∉ (range count).map (i + ·) ++ pages ∧ offset = m.first + k
    rw [hbits, h.bits]
    constructor
    · rintro ⟨⟨k, hk, hnot, rfl⟩, hout⟩
      refine ⟨k, hk, fun hin => ?_, rfl⟩
      rcases mem_append.1 hin with hin | hin
      · rw [hmem] at hin
        omega
      · exact hnot hin
    · rintro ⟨k, hk, hnot, rfl⟩
      rw [mem_append, not_or, hmem] at hnot
      exact ⟨⟨k, hk, hnot.2, rfl⟩, by omega⟩
  · show m.used + count = _
    rw [length_append, length_map, length_range, h.used, Nat.add_comm]

/-- The pool after a search that only took random bits. -/
theorem Holds.searched {bitmap : KPageBitmap} (hkept : KPageBitmap.Kept bitmap)
    (hshape : KPageBitmap.SameShape m.pageBitmap bitmap) (hbits : bitmap.bits = m.pageBitmap.bits) :
    Holds { m with pageBitmap := bitmap } held pages := by
  have htaken := h.taken 0 0 hkept hshape (Nat.zero_le _) (fun offset => by
    rw [hbits]
    exact (and_iff_left (by omega)).symm) (fun j hj => absurd hj (Nat.not_lt_zero j)) m.peak
  exact htaken

/-- The allocated bit is that of a page that nobody holds. -/
theorem Holds.of_bits {offset : ℕ} (hoffset : offset ∈ m.pageBitmap.bits) :
    ∃ i < m.count, i ∉ pages ∧ offset = m.first + i := (h.bits offset).1 hoffset

/-- **`Allocate()`.** -/
theorem Holds.allocate :
    wp m.allocate fun r ok => ok = true ∧ ∃ pages, Holds r.2 (bufferPages 1 r.1 ++ held) pages := by
  rw [KDynamicPageManager.allocate, wp_bind]
  refine wp_mono (h.kept.findFreeBlock_spec true) ?_
  rintro ⟨soffset, bitmap⟩ ok ⟨rfl, hfound⟩
  have hbits : bitmap.bits = m.pageBitmap.bits := hfound.bits
  cases soffset with
  | none => exact wp_ret.2 ⟨rfl, pages, h.searched hfound.kept hfound.shape hbits⟩
  | some offset =>
    have hoffset := hfound.some offset rfl
    obtain ⟨i, hi, hnot, rfl⟩ := h.of_bits hoffset
    show wp (bitmap.clearBit (m.first + i) >>= _) _
    rw [wp_bind]
    refine wp_mono (hfound.kept.clearBit_spec (by rw [hbits]; exact hoffset)) ?_
    rintro bitmap' ok ⟨rfl, hkept, hshape, -, hbits'⟩
    refine wp_ret.2 ⟨rfl, (range 1).map (i + ·) ++ pages, ?_⟩
    rw [h.pointerAt hi]
    refine h.taken i 1 hkept ⟨hshape.1.trans hfound.shape.1, hshape.2.trans hfound.shape.2⟩ hi
      (fun offset => ?_) (fun j hj => ?_) _
    · rw [hbits', Finset.mem_erase, hbits, and_comm]
      refine and_congr_right fun _ => ?_
      omega
    · obtain rfl : j = 0 := by omega
      exact hnot

/-- **`Allocate(count)`.** -/
theorem Holds.allocateCount (hmeets : Op.Meets m (.allocateCount count)) :
    wp (m.allocateCount count) fun r ok =>
      ok = true ∧ ∃ pages, Holds r.2 (bufferPages count r.1 ++ held) pages := by
  obtain ⟨hpos, hfull⟩ := hmeets
  obtain ⟨rng, hrng⟩ := m.pageBitmap.findFreeRange_snd count
  have hsearched : Holds { m with pageBitmap := { m.pageBitmap with rng := rng } } held pages :=
    h.searched h.kept.withRng ⟨rfl, rfl⟩ rfl
  rw [KDynamicPageManager.allocateCount, if_neg hpos.ne']
  cases hfound : m.pageBitmap.findFreeRange count with
  | mk soffset bitmap =>
    rw [hfound] at hrng
    obtain rfl : bitmap = { m.pageBitmap with rng := rng } := hrng
    cases soffset with
    | none => exact wp_ret.2 ⟨rfl, pages, hsearched⟩
    | some offset =>
      have hcount : count ≤ 64 := m.pageBitmap.findFreeRange_le (by rw [hfound])
      have hslot := KPageBitmap.findFreeRange_spec (b := m.pageBitmap) m.pageBitmap.rng hpos hcount
        h.words hfull
      obtain ⟨hslot, hset⟩ := hslot.sound offset (by
        show (m.pageBitmap.findFreeRange count).1 = some offset
        rw [hfound])
      have hin : ∀ j < count, offset + j ∈ m.pageBitmap.bits := fun j hj => h.kept.mem_bits.2 (hset j hj)
      obtain ⟨i, hi, hnot, rfl⟩ := h.of_bits (hin 0 hpos)
      obtain ⟨haligned, hrange⟩ := hslot.aligned hpos
      -- the other pages of the slot follow the first
      have hpages : ∀ j < count, i + j < m.count ∧ i + j ∉ pages := by
        intro j hj
        obtain ⟨k, hk, hnotk, heq⟩ := h.of_bits (hin j hj)
        obtain rfl : i + j = k := by omega
        exact ⟨hk, hnotk⟩
      have hlast := (hpages (count - 1) (by omega)).1
      show wp (KPageBitmap.clearRange _ _ count >>= _) _
      rw [wp_bind]
      refine wp_mono (h.kept.withRng.clearRange_spec haligned (by
        show m.first + i + 0 < m.pageBitmap.capacity
        omega) hrange) ?_
      rintro ⟨cleared, bitmap⟩ ok ⟨hok, hcleared⟩
      have hsub : Finset.Ico (m.first + i + 0) (m.first + i + 0 + count) ⊆ m.pageBitmap.bits := by
        intro offset hoffset
        rw [Finset.mem_Ico] at hoffset
        have hmem := hin (offset - (m.first + i)) (by omega)
        rwa [show m.first + i + (offset - (m.first + i)) = offset by omega] at hmem
      have htrue := hcleared.iff.2 hsub
      refine wp_ret.2 ⟨by rw [hok hpos]; rfl, (range count).map (i + ·) ++ pages, ?_⟩
      rw [h.pointerAt hi]
      refine h.taken i count hcleared.kept hcleared.shape (by omega) (fun offset => ?_)
        (fun j hj => (hpages j hj).2) _
      rw [hcleared.bits htrue, Finset.mem_sdiff, Finset.mem_Ico]
      exact Iff.rfl

/-- **`Free`**, where the vector is at the guest base but for less than a page. -/
theorem Holds.free (hmeets : Op.Meets m (.free p)) (hp : p ∈ held) :
    wp (m.free p) fun m' ok => ok = true ∧ (∃ pages, Holds m' (held.erase p) pages) ∧
      ∀ q, m'.Allocatable q ↔ q = p ∨ m.Allocatable q := by
  obtain ⟨hbase, hbelow⟩ := hmeets
  have hheld := h.held
  rw [hheld, mem_map] at hp
  obtain ⟨i, hi, rfl⟩ := hp
  have hlt := h.lt i hi
  have hnot : m.first + i ∉ m.pageBitmap.bits := by
    rw [h.bits]
    rintro ⟨j, -, hj, hij⟩
    obtain rfl : i = j := by omega
    exact hj hi
  have hroom := h.room
  rw [KDynamicPageManager.free, h.bit_of_pointer hlt hbase hbelow, wp_bind]
  refine wp_mono (h.kept.setBit_spec (by omega) hnot) ?_
  rintro bitmap ok ⟨rfl, hkept, hshape, -, hbits⟩
  have hhighest : bitmap.getHighestDepthIndex = m.pageBitmap.getHighestDepthIndex := by
    rw [KPageBitmap.getHighestDepthIndex, KPageBitmap.getHighestDepthIndex, hshape.2]
  refine wp_ret.2 ⟨rfl, ⟨pages.erase i, hkept, ?_, h.aligned_le, h.whole, ?_, h.size, h.guest,
    h.host, ?_, h.nodup.erase i, fun j hj => h.lt j (mem_of_mem_erase hj), fun offset => ?_, ?_⟩,
    fun q => ?_⟩
  · show 0 < bitmap.words bitmap.getHighestDepthIndex
    rw [hshape.1, hhighest]
    exact h.words
  · show m.first + m.count ≤ 64 * bitmap.words bitmap.getHighestDepthIndex
    rw [hshape.1, hhighest]
    exact h.room
  · rw [hheld]
    exact (map_erase (page_injective m.backingMemory) pages).symm
  · show offset ∈ bitmap.bits ↔ ∃ j < m.count, j ∉ pages.erase i ∧ offset = m.first + j
    rw [hbits, Finset.mem_insert, h.bits]
    constructor
    · rintro (rfl | ⟨j, hj, hnotj, rfl⟩)
      · exact ⟨i, hlt, fun hin => (h.nodup.mem_erase_iff.1 hin).1 rfl, rfl⟩
      · exact ⟨j, hj, fun hin => hnotj (mem_of_mem_erase hin), rfl⟩
    · rintro ⟨j, hj, hnotj, rfl⟩
      by_cases hij : j = i
      · exact .inl (by rw [hij])
      · exact .inr ⟨j, hj, fun hin => hnotj (h.nodup.mem_erase_iff.2 ⟨hij, hin⟩), rfl⟩
  · show m.used - 1 = (pages.erase i).length
    rw [length_erase_of_mem hi, h.used]
  · show (∃ offset ∈ bitmap.bits, q = m.pointerAt offset) ↔ _
    rw [hbits]
    simp only [Finset.mem_insert, exists_eq_or_imp, h.pointerAt hlt]
    exact Iff.rfl

end

/-- The loop of `Initialize` that sets the bits of the pages. -/
theorem setBits_spec {b : KPageBitmap} (hkept : KPageBitmap.Kept b) (hbits : b.bits = ∅) {offset : ℕ}
    (hroom : offset + count ≤ b.capacity) :
    wp ((range count).foldlM (fun (b : KPageBitmap) i => b.setBit (offset + i)) b)
      fun b' ok => ok = true ∧ KPageBitmap.Kept b' ∧ KPageBitmap.SameShape b b' ∧
        b'.bits = (Finset.range count).image (offset + ·) := by
  refine wp_foldlM_range (I := fun i b' => KPageBitmap.Kept b' ∧ KPageBitmap.SameShape b b' ∧
    b'.bits = (Finset.range i).image (offset + ·)) ?_ ⟨hkept, ⟨rfl, rfl⟩, hbits⟩
  rintro i b' hi ⟨hkept', hshape', hbits'⟩
  have hcapacity : b'.capacity = b.capacity := by
    rw [KPageBitmap.capacity, KPageBitmap.capacity, KPageBitmap.getHighestDepthIndex,
      KPageBitmap.getHighestDepthIndex, hshape'.1, hshape'.2]
  refine wp_mono (hkept'.setBit_spec (by omega) ?_) ?_
  · rw [hbits', Finset.mem_image]
    rintro ⟨j, hj, hij⟩
    rw [Finset.mem_range] at hj
    omega
  · rintro b'' ok ⟨rfl, hkept'', hshape'', -, hbits''⟩
    refine ⟨rfl, hkept'', ⟨hshape''.1.trans hshape'.1, hshape''.2.trans hshape'.2⟩, ?_⟩
    rw [hbits'', hbits', Finset.range_add_one, Finset.image_insert]

/-- **`Initialize`** makes a pool that nobody holds a page of, when its assertions hold. -/
theorem initialized_spec (rng : RandomBitGenerator) (hmemory : memory + size < 2 ^ 64)
    (hbacking : backingMemory + size < 2 ^ 64) (hwhole : PageSize ∣ memory - alignDown memory align) :
    wlp (KDynamicPageManager.initialized rng backingMemory memory size align) fun r ok =>
      ok = true → ∀ m, r = some m → Holds m [] [] := by
  rw [KDynamicPageManager.initialized]
  split_ifs with hsize halign
  · exact wlp_ret.2 fun _ m hm => (Option.some_ne_none m hm.symm).elim
  · exact wlp_fault
  have hle := alignDown_le memory align
  generalize alignDown memory align = aligned at hle hwhole ⊢
  simp only []
  generalize alignUp (calculateManagementOverheadSize ((memory + size - aligned) / PageSize)) PageSize = overhead
  split_ifs with hover
  · exact wlp_ret.2 fun _ m hm => (Option.some_ne_none m hm.symm).elim
  generalize hallocatable : memory + size - overhead - aligned = allocatable
  have hcount : alignDown (size - overhead) PageSize / PageSize = (size - overhead) / PageSize := by
    rw [alignDown_eq, Nat.mul_div_cancel _ (by decide)]
  rw [hcount, wlp_bind, wlp_assert, wlp_bind]
  by_cases hassert : PageSize ≤ allocatable ∧ getRequiredDepth (allocatable / PageSize) ≤ maxDepth
  · obtain ⟨hpage, hdepth⟩ := hassert
    have hpos : 0 < allocatable / PageSize := Nat.div_pos hpage (by decide)
    refine wlp_of_wp (wp_mono (KPageBitmap.initialized_spec rng hpos hdepth) ?_)
    rintro b ok ⟨-, hkept, hempty, hcapacity, -⟩
    have hoffset : ∀ i, (memory + i * PageSize - aligned) / PageSize =
        (memory - aligned) / PageSize + i := fun i => by
      rw [show memory + i * PageSize - aligned = memory - aligned + i * PageSize by omega,
        Nat.add_mul_div_right _ _ (by decide)]
    simp only [hoffset]
    have hroom : (memory - aligned) / PageSize + (size - overhead) / PageSize ≤ b.capacity := by
      refine le_trans ?_ hcapacity
      simp only [PageSize] at *
      omega
    rw [wlp_bind]
    refine wlp_of_wp (wp_mono (setBits_spec hkept hempty hroom) ?_)
    rintro b' ok' ⟨-, hkept', hshape', hbits'⟩
    refine wlp_ret.2 fun _ m hm => ?_
    obtain rfl := Option.some_inj.1 hm
    have hhighest : b'.getHighestDepthIndex = b.getHighestDepthIndex := by
      rw [KPageBitmap.getHighestDepthIndex, KPageBitmap.getHighestDepthIndex, hshape'.2]
    have hcapacity' : b'.capacity = b.capacity := by
      rw [KPageBitmap.capacity, KPageBitmap.capacity, hhighest, hshape'.1]
    refine ⟨hkept', ?_, hle, hwhole, ?_, ?_, by show memory < 2 ^ 64; omega, ?_, rfl, nodup_nil,
      fun i hi => (not_mem_nil hi).elim, fun offset => ?_, rfl⟩
    · have hpositive : 0 < 64 * b.words b.getHighestDepthIndex := hpos.trans_le hcapacity
      show 0 < b'.words b'.getHighestDepthIndex
      rw [hhighest, hshape'.1]
      omega
    · show (memory - aligned) / PageSize + (size - overhead) / PageSize ≤ b'.capacity
      rw [hcapacity']
      exact hroom
    · show alignDown (size - overhead) PageSize = (size - overhead) / PageSize * PageSize
      exact alignDown_eq _ _
    · have hdown := alignDown_le (size - overhead) PageSize
      show backingMemory + alignDown (size - overhead) PageSize < 2 ^ 64
      omega
    · show offset ∈ b'.bits ↔ ∃ i < (size - overhead) / PageSize, i ∉ [] ∧ offset = (memory - aligned) / PageSize + i
      rw [hbits', Finset.mem_image]
      constructor
      · rintro ⟨i, hi, rfl⟩
        exact ⟨i, Finset.mem_range.1 hi, not_mem_nil, rfl⟩
      · rintro ⟨i, hi, -, rfl⟩
        exact ⟨i, Finset.mem_range.2 hi, rfl⟩
  · -- an assertion has failed, so nothing is said
    have hfailed : wlp (KPageBitmap.initialized rng (allocatable / PageSize)) fun _ ok =>
        (decide (PageSize ≤ allocatable) && ok) = false := by
      rw [KPageBitmap.initialized, wlp_bind, wlp_assert, pure_eq, wlp_ret,
        Bool.and_true, ← Bool.decide_and, decide_eq_false hassert]
    refine wlp_mono hfailed fun b ok hok => ?_
    rintro r ok' - hheld
    rw [← Bool.and_assoc, hok, Bool.false_and] at hheld
    exact absurd hheld Bool.false_ne_true

/-- Every run whose operations meet their conditions leaves a pool of which pages are held. -/
theorem Run.holds (hmemory : memory + size < 2 ^ 64) (hbacking : backingMemory + size < 2 ^ 64)
    (hwhole : PageSize ∣ memory - alignDown memory align)
    (h : Run Op.Meets backingMemory memory size align m held) : ∃ pages, Holds m held pages := by
  induction h with
  | initialized rng h => exact ⟨[], initialized_spec rng hmemory hbacking hwhole _ _ h rfl _ rfl⟩
  | allocate run hcond h ih =>
    obtain ⟨pages, hpages⟩ := ih
    have hspec := hpages.allocate
    rw [h, wp_ret] at hspec
    exact hspec.2
  | allocateCount count run hcond h ih =>
    obtain ⟨pages, hpages⟩ := ih
    have hspec := hpages.allocateCount hcond
    rw [h, wp_ret] at hspec
    exact hspec.2
  | free pb run hcond hpb h ih =>
    obtain ⟨pages, hpages⟩ := ih
    have hspec := hpages.free hcond hpb
    rw [h, wp_ret] at hspec
    exact hspec.2.1

/-- What the operations of a pool owe to those who hold pages of it: none faults or fails an assertion,
and a page that is freed can be allocated again, and no other. -/
structure Serves (m : KDynamicPageManager) (held : List ℕ) : Prop where
  allocate : Exec.wp m.allocate fun _ ok => ok = true
  allocateCount : ∀ count, Op.Meets m (.allocateCount count) →
    Exec.wp (m.allocateCount count) fun _ ok => ok = true
  free : ∀ p ∈ held, Op.Meets m (.free p) → Exec.wp (m.free p) fun m' ok => ok = true ∧
    ∀ q, m'.Allocatable q ↔ q = p ∨ m.Allocatable q

/-- **A dynamic page manager is a correct page pool** in every run whose operations meet their
conditions, where the guest base lies whole pages above its aligned base. -/
theorem Run.pool (hmemory : memory + size < 2 ^ 64) (hbacking : backingMemory + size < 2 ^ 64)
    (hwhole : PageSize ∣ memory - alignDown memory align)
    (h : Run Op.Meets backingMemory memory size align m held) : Correct m held ∧ Serves m held := by
  obtain ⟨pages, hpages⟩ := h.holds hmemory hbacking hwhole
  refine ⟨hpages.correct, Exec.wp_mono hpages.allocate fun r ok hr => hr.1, fun count hmeets => ?_,
    fun p hp hmeets => ?_⟩
  · exact Exec.wp_mono (hpages.allocateCount hmeets) fun r ok hr => hr.1
  · exact Exec.wp_mono (hpages.free hmeets hp) fun m' ok hr => ⟨hr.1, hr.2.2⟩

/-- A pool of eight pages, one of them for its bitmap. -/
def eightPages : KDynamicPageManager :=
  ((KDynamicPageManager.initialized ⟨fun _ => 0, 0, 0⟩ 0x80000000 0x80000000 0x8000 0x1000).value none).get
    (by decide +kernel)

/-- A page of it and a buffer of two are allocated, and a page of the buffer is freed. -/
theorem pool_of_8_pages : ∃ m, Run Op.Meets 0x80000000 0x80000000 0x8000 0x1000 m [0x80004000, 0x80000000] ∧
    Correct m [0x80004000, 0x80000000] ∧ Serves m [0x80004000, 0x80000000] := by
  obtain ⟨m₁, m₂, m₃, h₁, h₂, h₃, hfree⟩ : ∃ m₁ m₂ m₃, eightPages.allocate = .ret (some 0x80000000, m₁) true ∧
      m₁.allocateCount 2 = .ret (some 0x80004000, m₂) true ∧ m₂.free 0x80005000 = .ret m₃ true ∧
      Op.Meets m₂ (.free 0x80005000) :=
    ⟨_, _, _, Exec.eq_ret_mk_of_held (none, eightPages) (by decide +kernel) (by decide +kernel),
      Exec.eq_ret_mk_of_held (none, eightPages) (by decide +kernel) (by decide +kernel),
      Exec.eq_ret_of_held (by decide +kernel) eightPages, by decide +kernel, by decide +kernel⟩
  have hstart : KDynamicPageManager.initialized ⟨fun _ => 0, 0, 0⟩ 0x80000000 0x80000000 0x8000 0x1000 =
      .ret (some eightPages) true := by
    rw [eightPages, Option.some_get]
    exact Exec.eq_ret_of_held (by decide +kernel) none
  have hheld : Run Op.Meets 0x80000000 0x80000000 0x8000 0x1000 m₂ [0x80004000, 0x80005000, 0x80000000] :=
    .allocateCount 2 (.allocate (.initialized _ hstart) trivial h₁) ⟨by decide, fun heq => absurd heq (by decide)⟩ h₂
  have hrun : Run Op.Meets 0x80000000 0x80000000 0x8000 0x1000 m₃ [0x80004000, 0x80000000] :=
    .free 0x80005000 hheld hfree (by decide) h₃
  exact ⟨m₃, hrun, Run.pool (by decide) (by decide) (by decide) hrun⟩

/-- A page that is freed under the number of another is lost, and the pool is no longer correct. -/
theorem Holds.free_elsewhere (h : Holds m held pages) (hi : i ∈ pages) (offset : ℕ)
    (hoffset : (m.backingMemory + i * PageSize + 2 ^ 64 - m.alignedAddress) % 2 ^ 64 / PageSize = offset)
    (hne : offset ≠ m.first + i) (hroom : offset < m.pageBitmap.capacity) (hnot : offset ∉ m.pageBitmap.bits) :
    wp (m.free (m.backingMemory + i * PageSize)) fun m' _ =>
      ¬Correct m' (held.erase (m.backingMemory + i * PageSize)) := by
  have hlt := h.lt i hi
  rw [KDynamicPageManager.free, hoffset, wp_bind]
  refine wp_mono (h.kept.setBit_spec hroom hnot) ?_
  rintro bitmap ok ⟨rfl, hkept, hshape, -, hbits⟩
  refine wp_ret.2 fun hcorrect => ?_
  have hgone : m.backingMemory + i * PageSize ∉ held.erase (m.backingMemory + i * PageSize) := by
    have hnodup : held.Nodup := by
      rw [h.held]
      exact h.nodup.map (page_injective _)
    exact fun hin => (hnodup.mem_erase_iff.1 hin).1 rfl
  obtain ⟨o, ho, hpointer⟩ := (hcorrect.allocatable _).2 ⟨⟨i, hlt, rfl⟩, hgone⟩
  have ho' : o ∈ insert offset m.pageBitmap.bits := by rwa [← hbits]
  have hpointer' : m.backingMemory + i * PageSize = m.pointerAt o := hpointer
  rcases Finset.mem_insert.1 ho' with rfl | hmem
  · have hfirst := h.first_mul
    have hle := h.aligned_le
    have hguest := h.guest
    have hhost := h.host
    have hsize := h.size
    have hsmall := h.kept.words_lt
    have hpages := h.room
    rw [KPageBitmap.capacity] at hroom hpages
    rw [KDynamicPageManager.pointerAt, getPointer] at hpointer'
    simp only [PageSize] at *
    omega
  · obtain ⟨k, hk, hnotk, rfl⟩ := h.of_bits hmem
    rw [h.pointerAt hk] at hpointer'
    obtain rfl := page_injective _ hpointer'
    exact hnotk hi

/-- **A vector that is not at the guest base**: a page is allocated and freed, and the pages that can be
allocated are not those of the pool. -/
theorem vector_elsewhere_incorrect : ∃ m held,
    Run (fun _ _ => True) 0x80010000 0x80000000 0x4000 0x1000 m held ∧ ¬Correct m held := by
  obtain ⟨m, m', hm, hm', hbacking, haddress, haligned, hcount⟩ : ∃ m m',
      KDynamicPageManager.initialized ⟨fun _ => 0, 0, 0⟩ 0x80010000 0x80000000 0x4000 0x1000 =
        .ret (some m) true ∧ m.allocate = .ret (some 0x80010000, m') true ∧
      m'.backingMemory = 0x80010000 ∧ m'.address = 0x80000000 ∧ m'.alignedAddress = 0x80000000 ∧
      m'.count = 3 := ⟨_, _, rfl, rfl, rfl, rfl, rfl, rfl⟩
  have hstart := initialized_spec ⟨fun _ => 0, 0, 0⟩ (by decide) (by decide) (by decide) _ _ hm rfl m rfl
  have hspec := hstart.allocate
  rw [hm', Exec.wp_ret] at hspec
  obtain ⟨-, pages, hheldPages⟩ := hspec
  have hholds : Holds m' ([0x80010000 + 0 * PageSize] ++ []) pages := hheldPages
  have hheld : [0x80010000 + 0 * PageSize] = pages.map fun i => m'.backingMemory + i * PageSize :=
    hholds.held
  have hzero : 0 ∈ pages := by
    have hmem : 0x80010000 ∈ pages.map fun i => m'.backingMemory + i * PageSize := by
      rw [← hheld]
      exact List.mem_singleton.2 rfl
    obtain ⟨i, hi, heq⟩ := List.mem_map.1 hmem
    obtain rfl : i = 0 := by
      simp only [hbacking, PageSize] at heq
      omega
    exact hi
  have hfirst : m'.first = 0 := by rw [first, haddress, haligned, Nat.sub_self, Nat.zero_div]
  have hfree := hholds.free_elsewhere hzero 16 (by rw [hbacking, haligned]; decide) (by omega)
    (by have hwords := hholds.words; rw [KPageBitmap.capacity]; omega) (by
      rw [hholds.bits]
      rintro ⟨k, hk, -, heq⟩
      omega)
  have hsame : m'.backingMemory + 0 * PageSize = 0x80010000 := by rw [hbacking, Nat.zero_mul]
  rw [hsame] at hfree
  obtain ⟨m'', ok, hm'', hwrong⟩ := hfree
  exact ⟨m'', _, .free _ (.allocate (.initialized _ hm) trivial hm') trivial
    (List.mem_singleton.2 rfl) hm'', hwrong⟩

end KDynamicPageManager

end Kernel
end NXEmu
