/-
# Free pages over the life of a page heap

A heap starts without free pages (`initialized_spec`) and is given ranges to free, which it was never given
or has returned since.  From then on every call does to the set of its free pages what it says: an
allocation takes the range that it returns, which was free, and freeing adds its range
(`Reached.accounts`).  The free blocks stay as large as they can be, so an allocation of a block is refused
only where there is none (`Reached.complete`).

Both need a heap that does not begin at the address 0: there a block that is popped is taken for none, and
is lost (`heap_at_zero_loses`).
-/

import NXEmu.Kernel.PageHeapAllocate

namespace NXEmu
namespace Kernel

open Common Buddies Exec Finset

variable {address size addr numPages a i x : ℕ}

/-- The addresses of the pages of a range. -/
def rangePages (addr numPages : ℕ) : Finset ℕ := (Finset.range numPages).image fun p => addr + p * PageSize

theorem mem_rangePages (haddr : PageSize ∣ addr) :
    x ∈ rangePages addr numPages ↔ PageSize ∣ x ∧ addr ≤ x ∧ x < addr + numPages * PageSize := by
  rw [rangePages, mem_image]
  constructor
  · rintro ⟨p, hp, rfl⟩
    rw [mem_range] at hp
    refine ⟨Nat.dvd_add haddr (Nat.dvd_mul_left _ _), Nat.le_add_right _ _, ?_⟩
    exact Nat.add_lt_add_left (Nat.mul_lt_mul_of_pos_right hp (by decide)) addr
  · rintro ⟨hx, hle, hlt⟩
    obtain ⟨p, hp⟩ := Nat.dvd_sub hx haddr
    rw [Nat.mul_comm] at hp
    refine ⟨p, mem_range.2 ?_, by omega⟩
    exact Nat.lt_of_mul_lt_mul_right (a := PageSize) (by omega)

/-- The page of an address. -/
theorem page_of (x : ℕ) : PageSize ∣ alignDown x PageSize ∧ alignDown x PageSize ≤ x ∧
    x < alignDown x PageSize + PageSize :=
  ⟨dvd_alignDown _ _, alignDown_le _ _, lt_alignDown x (by decide)⟩

/-- An aligned range has an address just when it has its page. -/
theorem page_in_range {start finish : ℕ} (hstart : PageSize ∣ start) (hfinish : PageSize ∣ finish) :
    (start ≤ alignDown x PageSize ∧ alignDown x PageSize < finish) ↔ start ≤ x ∧ x < finish := by
  obtain ⟨hdvd, hle, hlt⟩ := page_of x
  constructor
  · rintro ⟨hlow, hhigh⟩
    have hnext := Nat.le_of_lt_add_of_dvd (by omega : alignDown x PageSize + PageSize < finish + PageSize)
      (Nat.dvd_add hdvd (Nat.dvd_refl _)) hfinish
    omega
  · rintro ⟨hlow, hhigh⟩
    exact ⟨Nat.le_of_lt_add_of_dvd (by omega) hstart hdvd, by omega⟩

/-! ### Free pages -/

/-- The pages of the free blocks of a size. -/
def Block.freePages (b : Block) : Finset ℕ :=
  b.bitmap.bits.biUnion fun offset => rangePages (b.heapAddress + offset * b.getSize) b.getNumPages

theorem Block.At.mem_freePages {b : Block} (hi : i < numMemoryBlockPageShifts) (hat : Block.At address size i b) :
    x ∈ b.freePages ↔ PageSize ∣ x ∧ ∃ a ∈ b.free, a ≤ x ∧ x < a + getBlockSize i := by
  have hpages : b.getNumPages * PageSize = getBlockSize i := by
    rw [Block.getNumPages, hat.getSize]
    exact Nat.div_mul_cancel (pageSize_dvd_getBlockSize hi)
  have hdvd : ∀ offset, PageSize ∣ b.heapAddress + offset * b.getSize := fun offset => by
    rw [hat.getSize]
    exact (pageSize_dvd_getBlockSize hi).trans (Nat.dvd_add hat.base_dvd (Nat.dvd_mul_left _ _))
  rw [Block.freePages, mem_biUnion, Block.free]
  constructor
  · rintro ⟨offset, hoffset, hx⟩
    obtain ⟨hpage, hle, hlt⟩ := (mem_rangePages (hdvd offset)).1 hx
    rw [hpages] at hlt
    exact ⟨hpage, _, mem_image_of_mem _ hoffset, hle, hlt⟩
  · rintro ⟨hpage, a, ha, hle, hlt⟩
    obtain ⟨offset, hoffset, rfl⟩ := mem_image.1 ha
    rw [← hpages] at hlt
    exact ⟨offset, hoffset, (mem_rangePages (hdvd offset)).2 ⟨hpage, hle, hlt⟩⟩

namespace KPageHeap

variable {h h' : KPageHeap} {r : ℕ × KPageHeap}

/-- The free pages of all sizes. -/
def freePages (h : KPageHeap) : Finset ℕ :=
  (Finset.range h.numBlocks).biUnion fun i => (h.blocks i).freePages

theorem Books.mem_freePages (hbooks : Books h) : x ∈ h.freePages ↔ PageSize ∣ x ∧ h.IsFree x := by
  rw [freePages, mem_biUnion, hbooks.numBlocks]
  constructor
  · rintro ⟨i, hi, hx⟩
    rw [mem_range] at hi
    obtain ⟨hpage, a, ha, hin⟩ := ((hbooks.blocks i hi).mem_freePages hi).1 hx
    exact ⟨hpage, i, hi, a, ha, hin⟩
  · rintro ⟨hpage, i, hi, a, ha, hin⟩
    exact ⟨i, mem_range.2 hi, ((hbooks.blocks i hi).mem_freePages hi).2 ⟨hpage, a, ha, hin⟩⟩

/-- An address is free just when its page is. -/
theorem Books.isFree_page (hbooks : Books h) : h.IsFree (alignDown x PageSize) ↔ h.IsFree x := by
  have hrange : ∀ i < numMemoryBlockPageShifts, ∀ a ∈ h.books i,
      ((a ≤ alignDown x PageSize ∧ alignDown x PageSize < a + getBlockSize i) ↔ a ≤ x ∧ x < a + getBlockSize i) := by
    intro i hi a ha
    have hdvd := (pageSize_dvd_getBlockSize hi).trans (hbooks.tidy.aligned i hi a ha)
    exact page_in_range hdvd (Nat.dvd_add hdvd (pageSize_dvd_getBlockSize hi))
  constructor
  · rintro ⟨i, hi, a, ha, hin⟩
    exact ⟨i, hi, a, ha, (hrange i hi a ha).1 hin⟩
  · rintro ⟨i, hi, a, ha, hin⟩
    exact ⟨i, hi, a, ha, (hrange i hi a ha).2 hin⟩

/-- The pages of a range are free just when its addresses are. -/
theorem Books.rangePages_subset (hbooks : Books h) (haddr : PageSize ∣ addr) :
    rangePages addr numPages ⊆ h.freePages ↔ ∀ x, addr ≤ x → x < addr + numPages * PageSize → h.IsFree x := by
  constructor
  · intro hsub x hle hlt
    obtain ⟨hlow, hhigh⟩ := (page_in_range haddr (Nat.dvd_add haddr (Nat.dvd_mul_left _ _))).2 ⟨hle, hlt⟩
    have hmem := hsub ((mem_rangePages haddr).2 ⟨dvd_alignDown x _, hlow, hhigh⟩)
    exact hbooks.isFree_page.1 (hbooks.mem_freePages.1 hmem).2
  · intro hall x hx
    obtain ⟨hpage, hle, hlt⟩ := (mem_rangePages haddr).1 hx
    exact hbooks.mem_freePages.2 ⟨hpage, hall x hle hlt⟩

/-! ### Counting -/

theorem getNumFreePages_eq (h : KPageHeap) :
    h.getNumFreePages = ∑ i ∈ range h.numBlocks, (h.blocks i).getNumFreePages := by
  rw [getNumFreePages]
  induction h.numBlocks with
  | zero => rfl
  | succ n ih =>
    rw [List.range_succ, List.foldl_append, ih, sum_range_succ]
    rfl

/-- **`GetNumFreePages`** counts the free pages. -/
theorem Books.getNumFreePages_eq_card (hbooks : Books h) : h.getNumFreePages = h.freePages.card := by
  have hinjective : Set.InjOn (fun x => x / PageSize) (h.freePages : Set ℕ) := by
    intro x hx y hy heq
    have hx' := (hbooks.mem_freePages.1 (mem_coe.1 hx)).1
    have hy' := (hbooks.mem_freePages.1 (mem_coe.1 hy)).1
    exact Nat.div_left_inj hx' hy' |>.1 heq
  have hmem : ∀ p, p ∈ h.freePages.image (fun x => x / PageSize) ↔
      Covers numMemoryBlockPageShifts getBlockSize h.books (p * PageSize) := by
    intro p
    rw [mem_image]
    constructor
    · rintro ⟨x, hx, rfl⟩
      obtain ⟨hpage, hfree⟩ := hbooks.mem_freePages.1 hx
      rwa [Nat.div_mul_cancel hpage]
    · intro hfree
      exact ⟨p * PageSize, hbooks.mem_freePages.2 ⟨Nat.dvd_mul_left _ _, hfree⟩, Nat.mul_div_cancel p (by decide)⟩
  rw [getNumFreePages_eq, hbooks.numBlocks, ← card_image_of_injOn hinjective,
    hbooks.tidy.card (fun i hi => pageSize_dvd_getBlockSize hi) (by decide) hmem]
  refine sum_congr rfl fun i hi => ?_
  have hat := hbooks.blocks i (mem_range.1 hi)
  rw [Block.getNumFreePages, ← hat.card_free, Block.getNumPages, hat.getSize]
  rfl

/-! ### Initialize -/

/-- **`Initialize`** makes a heap of the region without free blocks, when its assertions hold. -/
theorem initialized_spec (rngs : ℕ → RandomBitGenerator) (rng : RandomBitGenerator) (hsize : 0 < size) :
    wlp (KPageHeap.initialized rngs rng address size) fun h held => held = true →
      PageSize ∣ address ∧ PageSize ∣ size ∧ h.heapAddress = address ∧ h.heapSize = size ∧
      h.numBlocks = numMemoryBlockPageShifts ∧
      ∀ i < numMemoryBlockPageShifts, Block.At address size i (h.blocks i) ∧ (h.blocks i).free = ∅ := by
  rw [KPageHeap.initialized, wlp_bind, wlp_assert, wlp_bind, wlp_assert]
  refine wlp_mono (wlp_foldlM_held (I := fun n (h : KPageHeap) => h.heapAddress = address ∧
    h.heapSize = size ∧ h.numBlocks = numMemoryBlockPageShifts ∧
    ∀ i < n, Block.At address size i (h.blocks i) ∧ (h.blocks i).free = ∅) ?_ ?_) ?_
  · rintro i h hi ⟨haddress, hsame, hnum, hdone⟩
    have hnext : (if i ≠ numMemoryBlockPageShifts - 1 then blockShift (i + 1) else 0) =
        if i + 1 < numMemoryBlockPageShifts then blockShift (i + 1) else 0 := by
      by_cases hlast : i + 1 < numMemoryBlockPageShifts
      · rw [if_pos hlast, if_pos (by omega)]
      · rw [if_neg hlast, if_neg (by omega)]
    show wlp (Block.initialized (rngs i) address size (blockShift i)
      (if i ≠ numMemoryBlockPageShifts - 1 then blockShift (i + 1) else 0) >>= _) _
    rw [hnext, wlp_bind]
    refine wlp_mono (wlp_of_wp (Block.initialized_spec (rngs i) hsize)) ?_
    intro b held hb
    refine wlp_ret.2 fun hheld => ?_
    rw [Bool.and_true] at hheld
    refine ⟨haddress, hsame, hnum, fun j hj => ?_⟩
    show Block.At address size j (Function.update h.blocks i b j) ∧ (Function.update h.blocks i b j).free = ∅
    by_cases hji : j = i
    · subst hji
      rw [Function.update_self]
      exact hb hheld
    · rw [Function.update_of_ne hji]
      exact hdone j (by omega)
  · exact ⟨rfl, rfl, rfl, fun i hi => absurd hi (Nat.not_lt_zero i)⟩
  · rintro h held hdone hheld
    rw [Bool.and_eq_true, Bool.and_eq_true, decide_eq_true_eq, decide_eq_true_eq] at hheld
    obtain ⟨hpages, hpagesSize, hheld⟩ := hheld
    exact ⟨Nat.dvd_of_mod_eq_zero hpages, Nat.dvd_of_mod_eq_zero hpagesSize, hdone hheld⟩

/-! ### Runs -/

/-- A call of a heap. -/
inductive Call where
  | allocateBlock (index : ℕ) (random : Bool)
  | allocateAligned (index numPages alignPages : ℕ)
  | free (addr numPages : ℕ)

/-- The call itself; freeing returns no range. -/
def Call.run (h : KPageHeap) : Call → Exec (ℕ × KPageHeap)
  | .allocateBlock index random => h.allocateBlock index random
  | .allocateAligned index numPages alignPages => h.allocateAligned index numPages alignPages
  | .free addr numPages => do
    let h ← h.free addr numPages
    return (0, h)

/-- The index is one of a size that the request fits in, and what is freed is a range in use. -/
def Call.Valid (h : KPageHeap) : Call → Prop
  | .allocateBlock index _ => index < numMemoryBlockPageShifts
  | .allocateAligned index numPages alignPages => index < numMemoryBlockPageShifts ∧
      numPages ≤ getBlockNumPages index ∧ 0 < alignPages ∧ alignPages ≤ getBlockNumPages index
  | .free addr numPages => PageSize ∣ addr ∧ Used h addr (addr + numPages * PageSize)

/-- The heaps that the calls lead to, for every stream of random bits. -/
inductive Reached (address size : ℕ) : KPageHeap → Prop
  | initialized {rngs : ℕ → RandomBitGenerator} {rng : RandomBitGenerator} {h : KPageHeap}
      (did : KPageHeap.initialized rngs rng address size = .ret h true) : Reached address size h
  | call {h : KPageHeap} {r : ℕ × KPageHeap} {held : Bool} (c : Call) (run : Reached address size h)
      (valid : c.Valid h) (did : c.run h = .ret r held) : Reached address size r.2

/-- What an allocation does to the free pages: it takes a range of them that is aligned to every power of
two that divides the alignment, or nothing. -/
def Takes (h : KPageHeap) (numPages alignPages : ℕ) (r : ℕ × KPageHeap) : Prop :=
  (r.1 = 0 ∧ r.2.freePages = h.freePages) ∨
    (r.1 ≠ 0 ∧ (∀ k, 2 ^ k ∣ alignPages * PageSize → 2 ^ k ∣ r.1) ∧
      rangePages r.1 numPages ⊆ h.freePages ∧ r.2.freePages = h.freePages \ rangePages r.1 numPages)

/-- What a call does to the free pages. -/
def Call.Does (h : KPageHeap) (r : ℕ × KPageHeap) : Call → Prop
  | .allocateBlock index _ => Takes h (getBlockNumPages index) (getBlockNumPages index) r
  | .allocateAligned _ numPages alignPages => Takes h numPages alignPages r
  | .free addr numPages => r.2.freePages = h.freePages ∪ rangePages addr numPages

theorem Freed.freePages {start : ℕ} (hbooks : Books h) (hstart : PageSize ∣ start)
    (hfreed : Freed h h' start (start + numPages * PageSize)) :
    h'.freePages = h.freePages ∪ rangePages start numPages := by
  ext x
  rw [mem_union, hfreed.books.mem_freePages, hbooks.mem_freePages, mem_rangePages hstart, hfreed.free]
  tauto

theorem Outcome.takes {index align alignPages : ℕ} (hbooks : Books h) (hpage : PageSize ∣ align)
    (halign : ∀ k, 2 ^ k ∣ alignPages * PageSize → 2 ^ k ∣ align)
    (houtcome : Outcome h index (numPages * PageSize) align r) : Takes h numPages alignPages r := by
  rcases houtcome with ⟨hzero, hrefused⟩ | hallocated
  · refine .inl ⟨hzero, ?_⟩
    ext x
    rw [hrefused.books.mem_freePages, hbooks.mem_freePages, hrefused.free]
  · have hdvd := hpage.trans hallocated.aligned
    refine .inr ⟨hallocated.nonzero, fun k hk => (halign k hk).trans hallocated.aligned,
      (hbooks.rangePages_subset hdvd).2 hallocated.wasFree, ?_⟩
    ext x
    rw [mem_sdiff, hallocated.books.mem_freePages, hbooks.mem_freePages, mem_rangePages hdvd, hallocated.free]
    tauto

theorem Outcome.books {index bytes align : ℕ} (houtcome : Outcome h index bytes align r) :
    Books r.2 ∧ SameRegion h r.2 := by
  rcases houtcome with ⟨-, hrefused⟩ | hallocated
  · exact ⟨hrefused.books, hrefused.region⟩
  · exact ⟨hallocated.books, hallocated.region⟩

/-- **Every valid call** does what it says, and keeps the books. -/
theorem Books.call_spec (hbooks : Books h) (c : Call) (hvalid : c.Valid h) :
    wp (c.run h) fun r held => held = true ∧ c.Does h r ∧ Books r.2 ∧ SameRegion h r.2 := by
  cases c with
  | allocateBlock index random =>
    have hpages : getBlockNumPages index * PageSize = getBlockSize index :=
      Nat.div_mul_cancel (pageSize_dvd_getBlockSize hvalid)
    refine wp_mono (hbooks.allocateBlock_spec hvalid random) ?_
    rintro r held ⟨hheld, houtcome⟩
    refine ⟨hheld, ?_, houtcome.books⟩
    rw [← hpages] at houtcome
    exact houtcome.takes hbooks (Nat.dvd_mul_left _ _) fun k hk => hk
  | allocateAligned index numPages alignPages =>
    obtain ⟨hindex, hneeded, hpos, halign⟩ := hvalid
    have hpages : getBlockNumPages index * PageSize = getBlockSize index :=
      Nat.div_mul_cancel (pageSize_dvd_getBlockSize hindex)
    have halignSize : alignPages * PageSize ≤ getBlockSize index :=
      hpages ▸ Nat.mul_le_mul_right PageSize halign
    have hbound := getBlockSize_le hindex
    have hshift := fun k => two_pow_dvd_iff_le_countrZero (k := k) (Nat.mul_pos hpos (by decide))
      (by omega : alignPages * PageSize < 2 ^ 64)
    refine wp_mono (hbooks.allocateByRandom_spec hindex (hpages ▸ Nat.mul_le_mul_right PageSize hneeded)
      hpos halignSize) ?_
    rintro r held ⟨hheld, houtcome⟩
    refine ⟨hheld, houtcome.takes hbooks ?_ fun k hk => Nat.pow_dvd_pow 2 ((hshift k).1 hk), houtcome.books⟩
    exact Nat.pow_dvd_pow 2 ((hshift 12).1 (Nat.dvd_mul_left _ _))
  | free addr numPages =>
    obtain ⟨hdvd, hused⟩ := hvalid
    show wp (h.free addr numPages >>= _) _
    rw [wp_bind]
    refine wp_mono (hbooks.free_spec numPages hdvd hused) ?_
    rintro h' held ⟨rfl, hfreed⟩
    exact wp_ret.2 ⟨rfl, hfreed.freePages hbooks hdvd, hfreed.books, hfreed.region⟩

/-- **Every heap that is reached keeps the books.** -/
theorem Reached.books (haddress : 0 < address) (hsize : 0 < size) (hr : Reached address size h) :
    Books h ∧ h.heapAddress = address ∧ h.heapSize = size := by
  induction hr with
  | initialized hrun =>
    obtain ⟨hpage, hpageSize, haddr, hsame, hnum, hdone⟩ := initialized_spec _ _ hsize _ _ hrun rfl
    refine ⟨⟨hnum, haddr ▸ haddress, ⟨haddr ▸ hpage, hsame ▸ hpageSize⟩, fun i hi => ?_,
      tidy_empty graded_getBlockSize fun i hi => (hdone i hi).2, fun i hi a ha => ?_⟩, haddr, hsame⟩
    · rw [haddr, hsame]
      exact (hdone i hi).1
    · rw [KPageHeap.books, (hdone i hi).2] at ha
      exact absurd ha (notMem_empty a)
  | call c _ hvalid hdid ih =>
    obtain ⟨hbooks, haddr, hsame⟩ := ih
    obtain ⟨-, -, hbooks', hregion⟩ := wlp_of_wp (hbooks.call_spec c hvalid) _ _ hdid
    exact ⟨hbooks', hregion.address.trans haddr, hregion.size.trans hsame⟩

/-! ### Small heaps -/

/-- Nothing of a heap is free that has just been initialized. -/
theorem used_of_initialized {start finish : ℕ} (hsize : 0 < size) {rngs : ℕ → RandomBitGenerator}
    {rng : RandomBitGenerator} (hdid : KPageHeap.initialized rngs rng address size = .ret h true)
    (hle : address ≤ start) (hge : finish ≤ address + size) : Used h start finish := by
  obtain ⟨-, -, haddr, hsame, -, hdone⟩ := initialized_spec _ _ hsize _ _ hdid rfl
  refine ⟨haddr ▸ hle, by rw [getEndAddress, haddr, hsame]; exact hge, ?_⟩
  rintro x - - ⟨i, hi, a, ha, -⟩
  rw [books, (hdone i hi).2] at ha
  exact absurd ha (notMem_empty a)

/-- A stream of zeros. -/
def zeros : RandomBitGenerator := ⟨fun _ => 0, 0, 0⟩

/-- **A heap of four pages at the address 0**: they are free as one block, whose address is taken for
none, so it is lost by the allocation that should return it. -/
theorem heap_at_zero_loses : ∃ h, Reached 0 0x4000 h ∧ h.getNumFreePages = 4 ∧ rangePages 0 4 ⊆ h.freePages ∧
    ∃ r, (Call.allocateBlock 1 false).run h = .ret r true ∧ r.1 = 0 ∧ r.2.getNumFreePages = 0 := by
  have hwhole : wp (do
      let h ← KPageHeap.initialized (fun _ => zeros) zeros 0 0x4000
      let r ← (Call.free 0 4).run h
      let r' ← (Call.allocateBlock 1 false).run r.2
      return (((r.2.blocks 1).bitmap.has 0, (r.2.blocks 1).bitmap.capacity, (r.2.blocks 1).heapAddress,
        (r.2.blocks 1).blockShift), r.2.numBlocks, r.2.getNumFreePages, r'.1, r'.2.getNumFreePages))
      fun v held => v = ((true, 64, 0, 14), 8, 4, 0, 0) ∧ held = true :=
    ⟨_, _, by decide +kernel, rfl, rfl⟩
  simp only [wp_bind, pure_eq, wp_ret, Bool.and_eq_true, Prod.mk.injEq] at hwhole
  obtain ⟨h₀, held₀, hinit, r, held₁, hfree, r', held₂, halloc, ⟨⟨hbit, hcapacity, hbase, hshift⟩, hnum,
    hcount, hzero, hlost⟩, rfl, rfl, rfl, -⟩ := hwhole
  refine ⟨r.2, .call (.free 0 4) (.initialized hinit) ⟨Nat.dvd_zero _, used_of_initialized (by decide) hinit
    le_rfl le_rfl⟩ hfree, hcount, ?_, r', halloc, hzero, hlost⟩
  have hmem : 0 ∈ (r.2.blocks 1).bitmap.bits :=
    mem_filter.2 ⟨mem_range.2 (by rw [hcapacity]; decide), hbit⟩
  have hblock : rangePages 0 4 ⊆ (r.2.blocks 1).freePages := by
    refine Finset.Subset.trans ?_ (subset_biUnion_of_mem _ hmem)
    rw [hbase, Block.getNumPages, Block.getSize, hshift]
    rfl
  exact hblock.trans (subset_biUnion_of_mem (fun i => (r.2.blocks i).freePages)
    (mem_range.2 (by rw [hnum]; decide)))

/-- Four pages from 2 GiB on, of which one is taken again. -/
theorem three_of_four_pages : ∃ h, Reached 0x80000000 0x4000 h ∧ h.getNumFreePages = 3 := by
  have hwhole : wp (do
      let h ← KPageHeap.initialized (fun _ => zeros) zeros 0x80000000 0x4000
      let r ← (Call.free 0x80000000 4).run h
      let r ← (Call.allocateBlock 0 true).run r.2
      return r.2.getNumFreePages) fun count held => count = 3 ∧ held = true :=
    ⟨_, _, by decide +kernel, rfl, rfl⟩
  simp only [wp_bind, pure_eq, wp_ret, Bool.and_eq_true] at hwhole
  obtain ⟨h₀, held₀, hinit, r, held₁, hfree, r', held₂, halloc, hcount, rfl, -⟩ := hwhole
  exact ⟨r'.2, .call (.allocateBlock 0 true) (.call (.free 0x80000000 4) (.initialized hinit)
    ⟨by decide, used_of_initialized (by decide) hinit le_rfl le_rfl⟩ hfree)
    (show 0 < numMemoryBlockPageShifts by decide) halloc, hcount⟩

/-! ### Accounts -/

/-- What a heap owes at any time. -/
structure Accounts (address size : ℕ) (h : KPageHeap) : Prop where
  once : ∀ x ∈ h.freePages, ∃! i, i < h.numBlocks ∧ x ∈ (h.blocks i).freePages
  inside : ∀ x ∈ h.freePages, PageSize ∣ x ∧ address ≤ x ∧ x + PageSize ≤ address + size
  counted : h.getNumFreePages = h.freePages.card
  does : ∀ c : Call, c.Valid h → Exec.wp (c.run h) fun r held => held = true ∧ c.Does h r

/-- **No pages are lost, taken twice or invented.** -/
theorem Reached.accounts (haddress : 0 < address) (hsize : 0 < size) (hr : Reached address size h) :
    Accounts address size h := by
  obtain ⟨hbooks, haddr, hsame⟩ := hr.books haddress hsize
  refine ⟨fun x hx => ?_, fun x hx => ?_, hbooks.getNumFreePages_eq_card, fun c hvalid => ?_⟩
  · obtain ⟨hpage, i, hi, a, ha, hle, hlt⟩ := hbooks.mem_freePages.1 hx
    rw [hbooks.numBlocks]
    refine ⟨i, ⟨hi, ((hbooks.blocks i hi).mem_freePages hi).2 ⟨hpage, a, ha, hle, hlt⟩⟩, ?_⟩
    rintro j ⟨hj, hjx⟩
    obtain ⟨-, b, hb, hbx, hxb⟩ := ((hbooks.blocks j hj).mem_freePages hj).1 hjx
    exact (hbooks.tidy.disjoint j hj i hi b hb a ha x hbx hxb hle hlt).1
  · obtain ⟨hpage, i, hi, a, ha, hle, hlt⟩ := hbooks.mem_freePages.1 hx
    have hdvd := Nat.dvd_add ((pageSize_dvd_getBlockSize hi).trans (hbooks.tidy.aligned i hi a ha))
      (pageSize_dvd_getBlockSize hi)
    have hnext := Nat.le_of_lt_add_of_dvd (by omega : x + PageSize < a + getBlockSize i + PageSize)
      (Nat.dvd_add hpage (Nat.dvd_refl _)) hdvd
    obtain ⟨hlow, hhigh⟩ := hbooks.inside i hi a ha
    rw [getEndAddress, haddr, hsame] at hhigh
    exact ⟨hpage, by omega, by omega⟩
  · refine Exec.wp_mono (hbooks.call_spec c hvalid) ?_
    rintro r held ⟨hheld, hdoes, -⟩
    exact ⟨hheld, hdoes⟩

/-- Four pages are freed and one of them is allocated. -/
theorem accounts_of_three_pages : ∃ h, h.getNumFreePages = 3 ∧ Accounts 0x80000000 0x4000 h := by
  obtain ⟨h, hr, hcount⟩ := three_of_four_pages
  exact ⟨h, hcount, hr.accounts (by decide) (by decide)⟩

/-- The four pages are neither free afterwards nor returned. -/
theorem heap_at_zero_not_accounted : ¬∀ h, Reached 0 0x4000 h → Accounts 0 0x4000 h := by
  intro hclaim
  obtain ⟨h, hr, hcount, -, r, hdid, hzero, hlost⟩ := heap_at_zero_loses
  have hvalid : (Call.allocateBlock 1 false).Valid h := show 1 < numMemoryBlockPageShifts by decide
  obtain ⟨-, hdoes⟩ := Exec.wlp_of_wp ((hclaim h hr).does _ hvalid) _ _ hdid
  have hafter := (hclaim r.2 (.call _ hr hvalid hdid)).counted
  rcases hdoes with ⟨-, hsame⟩ | ⟨hne, -⟩
  · rw [hsame, ← (hclaim h hr).counted, hcount, hlost] at hafter
    exact absurd hafter (by decide)
  · exact hne hzero

/-- What the free blocks owe at any time: they are as large as they can be, and a block is refused only
where there is none. -/
structure Complete (address size : ℕ) (h : KPageHeap) : Prop where
  coalesced : ∀ i, i + 1 < numMemoryBlockPageShifts → ∀ g, getBlockSize (i + 1) ∣ g →
    ¬∀ a, getBlockSize i ∣ a → g ≤ a → a < g + getBlockSize (i + 1) → a ∈ (h.blocks i).free
  refused : ∀ index < numMemoryBlockPageShifts, ∀ random, Exec.wp (h.allocateBlock index random) fun r held =>
    held = true ∧ (r.1 = 0 ↔ ¬∃ a, getBlockSize index ∣ a ∧ address ≤ a ∧
      a + getBlockSize index ≤ address + size ∧ rangePages a (getBlockNumPages index) ⊆ h.freePages)

/-- **Free blocks are as large as they can be, and none is overlooked.** -/
theorem Reached.complete (haddress : 0 < address) (hsize : 0 < size) (hr : Reached address size h) :
    Complete address size h := by
  obtain ⟨hbooks, haddr, hsame⟩ := hr.books haddress hsize
  refine ⟨fun i hi g hg hall => ?_, fun index hindex random => ?_⟩
  · obtain ⟨a, hdvd, hle, hlt, hnot⟩ := hbooks.tidy.coalesced i hi g hg
    exact hnot (hall a hdvd hle hlt)
  have hpages : getBlockNumPages index * PageSize = getBlockSize index :=
    Nat.div_mul_cancel (pageSize_dvd_getBlockSize hindex)
  refine Exec.wp_mono (hbooks.allocateBlock_spec hindex random) ?_
  rintro r held ⟨hheld, houtcome⟩
  refine ⟨hheld, ?_⟩
  rcases houtcome with ⟨hzero, hrefused⟩ | hallocated
  · refine iff_of_true hzero ?_
    rintro ⟨a, hdvd, -, -, hsub⟩
    have hfree := (hbooks.rangePages_subset ((pageSize_dvd_getBlockSize hindex).trans hdvd)).1 hsub
    rw [hpages] at hfree
    obtain ⟨j, hj, hle, b, hb, -⟩ := hbooks.tidy.finds graded_getBlockSize index hindex a hdvd hfree
    rw [hrefused.none j hj hle] at hb
    exact Finset.notMem_empty b hb
  · refine iff_of_false hallocated.nonzero (not_not.2 ⟨r.1, hallocated.aligned, ?_, ?_, ?_⟩)
    · exact haddr ▸ hallocated.inside.1
    · have hinside := hallocated.inside.2
      rwa [getEndAddress, haddr, hsame] at hinside
    · refine (hbooks.rangePages_subset ((pageSize_dvd_getBlockSize hindex).trans hallocated.aligned)).2 ?_
      rw [hpages]
      exact hallocated.wasFree

/-- The blocks of those three pages are as large as they can be. -/
theorem complete_of_three_pages : ∃ h, h.getNumFreePages = 3 ∧ Complete 0x80000000 0x4000 h := by
  obtain ⟨h, hr, hcount⟩ := three_of_four_pages
  exact ⟨h, hcount, hr.complete (by decide) (by decide)⟩

/-- The block of the four pages is refused although it is free. -/
theorem heap_at_zero_not_complete : ∃ h, Reached 0 0x4000 h ∧ ¬Complete 0 0x4000 h := by
  obtain ⟨h, hr, -, hsub, r, hdid, hzero, -⟩ := heap_at_zero_loses
  refine ⟨h, hr, fun hcomplete => ?_⟩
  obtain ⟨-, hiff⟩ := Exec.wlp_of_wp (hcomplete.refused 1 (by decide) false) _ _ hdid
  exact hiff.1 hzero ⟨0, Nat.dvd_zero _, le_rfl, by decide, hsub⟩

end KPageHeap

end Kernel
end NXEmu
