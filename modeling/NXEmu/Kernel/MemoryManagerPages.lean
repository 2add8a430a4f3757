/-
# The pages of managers and of groups

What the routines of a manager are worth in pages.  A manager is live when its heap is one that calls have
led to (`KPageHeap.Live`); then every call on it takes or adds its pages, and leaves the others.  A state is
managed when its managers are live and their regions apart (`KMemoryManager.Managed`), and the routines
change no more than heaps and counts (`SameLayout`).

A group is a list of pages (`KPageGroup.pages`), to which adding a block adds those of the block, whether it
is concatenated or not (`KPageGroup.addBlock_spec`).
-/

import NXEmu.Kernel.MemoryManager
import NXEmu.Kernel.PageHeapRuns

namespace NXEmu
namespace Kernel

open Common Buddies Exec List

variable {addr numPages index m x : ℕ}

/-! ### Heaps that calls have led to -/

namespace KPageHeap

variable {h h' : KPageHeap}

/-- A heap that calls have led to. -/
structure Live (h : KPageHeap) : Prop where
  address : 0 < h.heapAddress
  size : 0 < h.heapSize
  reached : Reached h.heapAddress h.heapSize h

theorem Live.books (hlive : Live h) : Books h := (hlive.reached.books hlive.address hlive.size).1

theorem Live.of_reached {address size : ℕ} (haddress : 0 < address) (hsize : 0 < size)
    (hr : Reached address size h) : Live h := by
  obtain ⟨-, rfl, rfl⟩ := hr.books haddress hsize
  exact ⟨haddress, hsize, hr⟩

theorem Live.mem_inside (hlive : Live h) (hx : x ∈ h.freePages) :
    PageSize ∣ x ∧ h.heapAddress ≤ x ∧ x + PageSize ≤ h.getEndAddress :=
  (hlive.reached.accounts hlive.address hlive.size).inside x hx

/-- What a call leaves of a live heap. -/
structure Went (h h' : KPageHeap) : Prop where
  live : Live h'
  region : SameRegion h h'

/-- **Every valid call** leads to a live heap of the same region. -/
theorem Live.call_spec (hlive : Live h) (c : Call) (hvalid : c.Valid h) :
    wp (c.run h) fun r held => held = true ∧ c.Does h r ∧ Went h r.2 := by
  obtain ⟨r, held, hdid, hheld, hdoes, -, hregion⟩ := hlive.books.call_spec c hvalid
  refine ⟨r, held, hdid, hheld, hdoes, ?_, hregion⟩
  refine ⟨hregion.address ▸ hlive.address, hregion.size ▸ hlive.size, ?_⟩
  rw [hregion.address, hregion.size]
  exact .call c hlive.reached hvalid hdid

/-- **`AllocateBlock`** takes a free block of the size, or there is none. -/
theorem Live.allocateBlock_spec (hlive : Live h) (hindex : index < numMemoryBlockPageShifts)
    (random : Bool) : wp (h.allocateBlock index random) fun r held => held = true ∧ Went h r.2 ∧
      ((r.1 = 0 ∧ r.2.freePages = h.freePages ∧ ¬∃ a, getBlockSize index ∣ a ∧
          rangePages a (getBlockNumPages index) ⊆ h.freePages) ∨
        (r.1 ≠ 0 ∧ getBlockSize index ∣ r.1 ∧ rangePages r.1 (getBlockNumPages index) ⊆ h.freePages ∧
          r.2.freePages = h.freePages \ rangePages r.1 (getBlockNumPages index))) := by
  have hpages : getBlockNumPages index * PageSize = getBlockSize index :=
    Nat.div_mul_cancel (pageSize_dvd_getBlockSize hindex)
  obtain ⟨r, held, hdid, hheld, hdoes, hwent⟩ := hlive.call_spec (.allocateBlock index random) hindex
  have hcomplete := (hlive.reached.complete hlive.address hlive.size).refused index hindex random
  obtain ⟨-, hiff⟩ := wlp_of_wp hcomplete _ _ hdid
  refine ⟨r, held, hdid, hheld, hwent, ?_⟩
  rcases hdoes with ⟨hzero, hsame⟩ | ⟨hne, halign, hsub, htaken⟩
  · refine .inl ⟨hzero, hsame, ?_⟩
    rintro ⟨a, ha, hsub⟩
    refine hiff.1 hzero ⟨a, ha, ?_, ?_, hsub⟩
    · have hpage := (pageSize_dvd_getBlockSize hindex).trans ha
      have hfirst := hsub ((mem_rangePages hpage).2 ⟨hpage, le_rfl, by
        have := getBlockSize_pos index
        omega⟩)
      exact (hlive.mem_inside hfirst).2.1
    · have hpage := (pageSize_dvd_getBlockSize hindex).trans ha
      obtain ⟨k, hk⟩ := pageSize_dvd_getBlockSize hindex
      have hpos := getBlockSize_pos index
      have hlast := hsub ((mem_rangePages (x := a + (getBlockSize index - PageSize)) hpage).2
        ⟨Nat.dvd_add hpage (Nat.dvd_sub (pageSize_dvd_getBlockSize hindex) (Nat.dvd_refl _)), by omega, by
          rw [hpages]
          simp only [PageSize]
          omega⟩)
      have hinside := (hlive.mem_inside hlast).2.2
      have hle : PageSize ≤ getBlockSize index :=
        Nat.le_of_dvd hpos (pageSize_dvd_getBlockSize hindex)
      rw [getEndAddress] at hinside
      omega
  · refine .inr ⟨hne, ?_, hsub, htaken⟩
    exact halign (blockShift index) (by rw [hpages]; exact Nat.dvd_refl _)

section

variable (hlive : Live h) (haddr : PageSize ∣ addr) (hle : h.heapAddress ≤ addr)
  (hge : addr + numPages * PageSize ≤ h.getEndAddress) (hnot : ∀ x ∈ rangePages addr numPages, x ∉ h.freePages)

include hlive haddr hle hge hnot

/-- A range of the heap without free pages is used. -/
theorem Live.used :
    Used h addr (addr + numPages * PageSize) := by
  refine ⟨hle, hge, fun x hlow hhigh hfree => ?_⟩
  obtain ⟨hlow', hhigh'⟩ := (page_in_range haddr (Nat.dvd_add haddr (Nat.dvd_mul_left _ _))).2 ⟨hlow, hhigh⟩
  exact hnot _ ((mem_rangePages haddr).2 ⟨dvd_alignDown x _, hlow', hhigh'⟩)
    (hlive.books.mem_freePages.2 ⟨dvd_alignDown x _, hlive.books.isFree_page.2 hfree⟩)

/-- **`Free`** adds its pages. -/
theorem Live.free_spec :
    wp (h.free addr numPages) fun h' held => held = true ∧ Went h h' ∧
      h'.freePages = h.freePages ∪ rangePages addr numPages := by
  have hcall := hlive.call_spec (.free addr numPages) ⟨haddr, hlive.used haddr hle hge hnot⟩
  rw [show (Call.free addr numPages).run h = (do
    let h ← h.free addr numPages
    return (0, h)) from rfl, wp_bind] at hcall
  refine wp_mono hcall ?_
  intro h' held hret
  obtain ⟨hheld, hdoes, hwent⟩ := wp_ret.1 hret
  rw [Bool.and_true] at hheld
  exact ⟨hheld, hwent, hdoes⟩

end

end KPageHeap

/-! ### Pages of groups -/

/-- The pages of a range, in their order. -/
def pageList (addr numPages : ℕ) : List ℕ := (List.range numPages).map fun p => addr + p * PageSize

theorem mem_pageList : x ∈ pageList addr numPages ↔ x ∈ rangePages addr numPages := by
  rw [pageList, rangePages, mem_map, Finset.mem_image]
  simp only [mem_range, Finset.mem_range]

theorem toFinset_pageList (addr numPages : ℕ) : (pageList addr numPages).toFinset = rangePages addr numPages := by
  ext x
  rw [mem_toFinset, mem_pageList]

theorem length_pageList (addr numPages : ℕ) : (pageList addr numPages).length = numPages := by
  rw [pageList, length_map, length_range]

theorem nodup_pageList (addr numPages : ℕ) : (pageList addr numPages).Nodup := by
  refine List.Nodup.map (fun p q heq => ?_) nodup_range
  exact Nat.eq_of_mul_eq_mul_right (by decide : 0 < PageSize) (Nat.add_left_cancel heq)

theorem pageList_add (addr n n' : ℕ) :
    pageList addr (n + n') = pageList addr n ++ pageList (addr + n * PageSize) n' := by
  rw [pageList, range_add, map_append, map_map]
  congr 1
  refine map_congr_left fun p _ => ?_
  show addr + (n + p) * PageSize = addr + n * PageSize + p * PageSize
  rw [Nat.add_mul, Nat.add_assoc]

namespace KBlockInfo

/-- The pages of a block. -/
def pages (b : KBlockInfo) : List ℕ := pageList b.getAddress b.numPages

/-- Where a block ends, of which `GetEndAddress` is what 32 bits hold. -/
def finish (b : KBlockInfo) : ℕ := b.getAddress + b.numPages * PageSize

/-- A block whose page numbers have 32 bits. -/
structure Fits (b : KBlockInfo) : Prop where
  index : 0 < b.pageIndex
  pages : 0 < b.numPages
  finish : b.finish ≤ 2 ^ 44

theorem finish_eq (b : KBlockInfo) : b.finish = (b.pageIndex + b.numPages) * PageSize := by
  rw [finish, getAddress, Nat.add_mul]

/-- A block is concatenated just when the range goes on where it ends. -/
theorem Fits.tryConcatenate_eq {b : KBlockInfo} (h : Fits b) (haddr : 0 < addr)
    (hfinish : addr + numPages * PageSize ≤ 2 ^ 44) (hpos : 0 < numPages) :
    b.tryConcatenate addr numPages = if addr = b.finish then some ⟨b.pageIndex, b.numPages + numPages⟩ else none := by
  have hindex := h.index
  have hsize := h.finish
  rw [finish_eq] at hsize ⊢
  rw [tryConcatenate, getEndAddress]
  have hsum : b.pageIndex + b.numPages ≤ 2 ^ 32 := by
    simp only [PageSize] at hsize
    omega
  rcases Nat.lt_or_eq_of_le hsum with hlt | heq
  · rw [Nat.mod_eq_of_lt hlt]
    by_cases hjoin : addr = (b.pageIndex + b.numPages) * PageSize
    · rw [if_pos ⟨haddr.ne', hjoin⟩, if_pos hjoin]
      have hcount : b.numPages + numPages < 2 ^ 32 := by
        simp only [PageSize] at hjoin hfinish
        omega
      rw [Nat.mod_eq_of_lt hcount]
    · rw [if_neg fun hand => hjoin hand.2, if_neg hjoin]
  · have hne : addr ≠ (b.pageIndex + b.numPages) * PageSize := by
      rw [heq]
      simp only [PageSize] at hfinish ⊢
      omega
    rw [heq, Nat.mod_self, Nat.zero_mul, if_neg fun hand => hand.1 hand.2, if_neg (heq ▸ hne)]

end KBlockInfo

namespace KPageGroup

variable {g g' : KPageGroup}

/-- The pages of a group. -/
def pages (g : KPageGroup) : List ℕ := g.blocks.flatMap KBlockInfo.pages

/-- What adding a block does to the list of blocks. -/
inductive Added (g : KPageGroup) (addr numPages : ℕ) (g' : KPageGroup) : Prop
  | concatenated (before : List KBlockInfo) (last : KBlockInfo) (blocks : g.blocks = before ++ [last])
      (meets : addr = last.finish)
      (blocks' : g'.blocks = before ++ [⟨last.pageIndex, last.numPages + numPages⟩])
  | appended (apart : ∀ last, g.blocks.getLast? = some last → addr ≠ last.finish)
      (blocks' : g'.blocks = g.blocks ++ [⟨addr / PageSize, numPages⟩])

theorem Added.pages_eq (haddr : PageSize ∣ addr) (h : Added g addr numPages g') :
    g'.pages = g.pages ++ pageList addr numPages := by
  cases h with
  | concatenated before last hblocks hmeets hblocks' =>
    rw [pages, pages, hblocks, hblocks', flatMap_append, flatMap_append, append_assoc]
    congr 1
    simp only [flatMap_cons, flatMap_nil, append_nil]
    rw [KBlockInfo.pages, pageList_add, hmeets]
    rfl
  | appended _ hblocks' =>
    rw [pages, pages, hblocks', flatMap_append]
    simp only [flatMap_cons, flatMap_nil, append_nil]
    rw [KBlockInfo.pages, KBlockInfo.getAddress, Nat.div_mul_cancel haddr]

theorem Added.fits (haddr : PageSize ∣ addr) (hpos : 0 < addr) (hpages : 0 < numPages)
    (hfinish : addr + numPages * PageSize ≤ 2 ^ 44) (hg : ∀ b ∈ g.blocks, b.Fits)
    (h : Added g addr numPages g') : ∀ b ∈ g'.blocks, b.Fits := by
  intro b hb
  cases h with
  | concatenated before last hblocks hmeets hblocks' =>
    rw [hblocks] at hg
    rw [hblocks', mem_append, mem_singleton] at hb
    rcases hb with hb | rfl
    · exact hg b (mem_append_left _ hb)
    · have hlast := hg last (mem_append_right _ (mem_singleton_self last))
      refine ⟨hlast.index, Nat.add_pos_left hlast.pages _, ?_⟩
      have hjoined : (⟨last.pageIndex, last.numPages + numPages⟩ : KBlockInfo).finish =
          last.finish + numPages * PageSize := by
        rw [KBlockInfo.finish_eq, KBlockInfo.finish_eq, ← Nat.add_mul, Nat.add_assoc]
      rw [hjoined, ← hmeets]
      exact hfinish
  | appended _ hblocks' =>
    rw [hblocks', mem_append, mem_singleton] at hb
    rcases hb with hb | rfl
    · exact hg b hb
    · refine ⟨Nat.div_pos (Nat.le_of_dvd hpos haddr) (by decide), hpages, ?_⟩
      rw [KBlockInfo.finish, KBlockInfo.getAddress, Nat.div_mul_cancel haddr]
      exact hfinish

/-- **`AddBlock`**: the range is added, unless there is no block info for it. -/
theorem addBlock_spec (hg : ∀ b ∈ g.blocks, b.Fits) (haddr : PageSize ∣ addr) (hpos : 0 < addr)
    (hpages : 0 < numPages) (hfinish : addr + numPages * PageSize ≤ 2 ^ 44) :
    wp (g.addBlock addr numPages) fun r held => held = true ∧
      ((r.1 = .success ∧ Added g addr numPages r.2 ∧ g.infos ≤ r.2.infos + 1) ∨
        (r.1 ≠ .success ∧ r.2 = g ∧ g.infos = 0)) := by
  have hsmall : (addr + numPages * PageSize) % 2 ^ 64 = addr + numPages * PageSize :=
    Nat.mod_eq_of_lt (by omega)
  have hasserted : addr < addr + numPages * PageSize :=
    Nat.lt_add_of_pos_right (Nat.mul_pos hpages (by decide))
  have happend (hapart : ∀ last, g.blocks.getLast? = some last → addr ≠ last.finish) :
      wp (if g.infos = 0 then (pure (.outOfResource, g) : Exec (AllocationResult × KPageGroup))
      else do
        let block ← KBlockInfo.initialized addr numPages
        return (.success, ⟨g.blocks ++ [block], g.infos - 1⟩)) fun r held => held = true ∧
      ((r.1 = .success ∧ Added g addr numPages r.2 ∧ g.infos ≤ r.2.infos + 1) ∨
        (r.1 ≠ .success ∧ r.2 = g ∧ g.infos = 0)) := by
    split_ifs with hinfos
    · exact wp_ret.2 ⟨rfl, .inr ⟨AllocationResult.noConfusion, rfl, hinfos⟩⟩
    · have hindex : addr / PageSize % 2 ^ 32 = addr / PageSize := Nat.mod_eq_of_lt (by
        simp only [PageSize] at hfinish ⊢
        omega)
      have hcount : numPages % 2 ^ 32 = numPages := Nat.mod_eq_of_lt (by
        simp only [PageSize] at hfinish
        omega)
      rw [KBlockInfo.initialized, hindex, hcount, wp_bind, wp_bind, wp_assert, wp_bind,
        wp_assert, decide_eq_true (Nat.mod_eq_zero_of_dvd haddr), decide_eq_true rfl, pure_eq,
        wp_ret]
      exact wp_ret.2 ⟨rfl, .inl ⟨rfl, .appended hapart rfl, by simp only; omega⟩⟩
  rw [addBlock, if_neg hpages.ne', wp_bind, wp_assert, hsmall, decide_eq_true hasserted]
  simp only [Bool.true_and]
  rcases eq_nil_or_concat g.blocks with hnil | ⟨before, last, hblocks⟩
  · have hnone := happend (by simp [hnil])
    rw [hnil] at hnone ⊢
    exact hnone
  · rw [concat_eq_append] at hblocks
    have hlast : g.blocks.getLast? = some last := by rw [hblocks, getLast?_concat]
    have hfits := hg last (by rw [hblocks]; exact mem_append_right _ (mem_singleton_self last))
    rw [hlast, Option.bind_some, hfits.tryConcatenate_eq hpos hfinish hpages]
    by_cases hmeets : addr = last.finish
    · rw [if_pos hmeets]
      refine wp_ret.2 ⟨rfl, .inl ⟨rfl, .concatenated before last hblocks hmeets ?_, Nat.le_succ _⟩⟩
      show g.blocks.dropLast ++ _ = _
      rw [hblocks, dropLast_concat]
    · rw [if_neg hmeets]
      refine happend fun last' hlast' => ?_
      rw [hlast, Option.some.injEq] at hlast'
      exact hlast' ▸ hmeets

end KPageGroup

/-! ### States of the manager -/

namespace KMemoryManager

variable {s s' s'' : KMemoryManager}

/-- The heap of a manager. -/
def heap (s : KMemoryManager) (m : ℕ) : KPageHeap := (s.managers m).heap

/-- The free pages of a manager. -/
def freePages (s : KMemoryManager) (m : ℕ) : Finset ℕ := (s.heap m).freePages

/-- Managers of regions that are apart. -/
structure Managed (s : KMemoryManager) : Prop where
  live : ∀ m < s.numManagers, (s.heap m).Live
  apart : ∀ m < s.numManagers, ∀ m' < s.numManagers, m ≠ m' →
    (s.heap m).getEndAddress ≤ (s.heap m').heapAddress ∨ (s.heap m').getEndAddress ≤ (s.heap m).heapAddress
  below : ∀ m < s.numManagers, (s.heap m).getEndAddress ≤ 2 ^ 44
  pools : ∀ pool, ∀ m ∈ s.poolManagers pool, m < s.numManagers
  nodup : ∀ pool, (s.poolManagers pool).Nodup
  counts : ∀ m < s.numManagers, (s.heap m).heapSize / PageSize ≤ (s.managers m).numPageReferenceCounts

/-- The managers, their regions and the pools are as they were. -/
structure SameLayout (s s' : KMemoryManager) : Prop where
  numManagers : s'.numManagers = s.numManagers
  poolManagers : s'.poolManagers = s.poolManagers
  region : ∀ m, KPageHeap.SameRegion (s.heap m) (s'.heap m)
  numCounts : ∀ m, (s'.managers m).numPageReferenceCounts = (s.managers m).numPageReferenceCounts

theorem SameLayout.refl (s : KMemoryManager) : SameLayout s s :=
  ⟨rfl, rfl, fun _ => ⟨rfl, rfl⟩, fun _ => rfl⟩

theorem SameLayout.trans (h : SameLayout s s') (h' : SameLayout s' s'') : SameLayout s s'' :=
  ⟨h'.numManagers.trans h.numManagers, h'.poolManagers.trans h.poolManagers, fun m =>
    ⟨(h'.region m).address.trans (h.region m).address, (h'.region m).size.trans (h.region m).size⟩,
    fun m => (h'.numCounts m).trans (h.numCounts m)⟩

theorem SameLayout.order (h : SameLayout s s') (pool : Pool) (dir : Direction) :
    s'.order pool dir = s.order pool dir := by
  cases dir with
  | fromFront => exact congrFun h.poolManagers pool
  | fromBack => exact congrArg reverse (congrFun h.poolManagers pool)

theorem SameLayout.within (h : SameLayout s s') (m x : ℕ) : s'.Within m x ↔ s.Within m x := by
  show (s'.heap m).heapAddress ≤ x ∧ x < (s'.heap m).getEndAddress ↔ _
  rw [(h.region m).address, (h.region m).getEndAddress]
  rfl

/-- What is left of the layout of a managed state is that its heaps are live. -/
theorem Managed.of_layout (hs : Managed s) (h : SameLayout s s')
    (hlive : ∀ m < s.numManagers, (s'.heap m).Live) : Managed s' := by
  refine ⟨fun m hm => hlive m (h.numManagers ▸ hm), fun m hm m' hm' hne => ?_, fun m hm => ?_,
    fun pool m hm => ?_, fun pool => ?_, fun m hm => ?_⟩
  · rw [(h.region m).address, (h.region m).getEndAddress, (h.region m').address, (h.region m').getEndAddress]
    exact hs.apart m (h.numManagers ▸ hm) m' (h.numManagers ▸ hm') hne
  · rw [(h.region m).getEndAddress]
    exact hs.below m (h.numManagers ▸ hm)
  · rw [h.poolManagers] at hm
    rw [h.numManagers]
    exact hs.pools pool m hm
  · rw [h.poolManagers]
    exact hs.nodup pool
  · rw [(h.region m).size, h.numCounts]
    exact hs.counts m (h.numManagers ▸ hm)

theorem heap_setHeap (s : KMemoryManager) (m m' : ℕ) (heap : KPageHeap) :
    (s.setHeap m heap).heap m' = if m' = m then heap else s.heap m' := by
  show (Function.update s.managers m _ m').heap = _
  by_cases hm : m' = m
  · subst hm
    rw [Function.update_self, if_pos rfl]
  · rw [Function.update_of_ne hm, if_neg hm]
    rfl

theorem counts_setHeap (s : KMemoryManager) (m m' : ℕ) (heap : KPageHeap) :
    ((s.setHeap m heap).managers m').pageReferenceCounts = (s.managers m').pageReferenceCounts ∧
      ((s.setHeap m heap).managers m').numPageReferenceCounts = (s.managers m').numPageReferenceCounts := by
  show (Function.update s.managers m _ m').pageReferenceCounts = _ ∧
    (Function.update s.managers m _ m').numPageReferenceCounts = _
  by_cases hm : m' = m
  · subst hm
    rw [Function.update_self]
    exact ⟨rfl, rfl⟩
  · rw [Function.update_of_ne hm]
    exact ⟨rfl, rfl⟩

/-- Heaps may change, and no counts. -/
structure OnlyHeaps (s s' : KMemoryManager) : Prop where
  layout : SameLayout s s'
  counts : ∀ m, (s'.managers m).pageReferenceCounts = (s.managers m).pageReferenceCounts

theorem OnlyHeaps.refl (s : KMemoryManager) : OnlyHeaps s s := ⟨.refl s, fun _ => rfl⟩

theorem OnlyHeaps.trans (h : OnlyHeaps s s') (h' : OnlyHeaps s' s'') : OnlyHeaps s s'' :=
  ⟨h.layout.trans h'.layout, fun m => (h'.counts m).trans (h.counts m)⟩

/-- **Writing the heap that a call left.** -/
theorem Managed.setHeap (hs : Managed s) {heap : KPageHeap} (hwent : KPageHeap.Went (s.heap m) heap) :
    Managed (s.setHeap m heap) ∧ OnlyHeaps s (s.setHeap m heap) := by
  have hlayout : SameLayout s (s.setHeap m heap) := by
    refine ⟨rfl, rfl, fun m' => ?_, fun m' => (counts_setHeap s m m' heap).2⟩
    rw [heap_setHeap]
    split_ifs with hm
    · exact hm ▸ hwent.region
    · exact ⟨rfl, rfl⟩
  refine ⟨hs.of_layout hlayout fun m' hm' => ?_, hlayout, fun m' => (counts_setHeap s m m' heap).1⟩
  rw [heap_setHeap]
  split_ifs with hm
  · exact hwent.live
  · exact hs.live m' hm'

theorem freePages_setHeap (s : KMemoryManager) (m m' : ℕ) (heap : KPageHeap) :
    (s.setHeap m heap).freePages m' = if m' = m then heap.freePages else s.freePages m' := by
  rw [freePages, heap_setHeap]
  split_ifs <;> rfl

theorem Managed.mem_order (hs : Managed s) {pool : Pool} {dir : Direction} (hm : m ∈ s.order pool dir) :
    m < s.numManagers := by
  cases dir with
  | fromFront => exact hs.pools pool m hm
  | fromBack => exact hs.pools pool m (mem_reverse.1 hm)

theorem Managed.nodup_order (hs : Managed s) (pool : Pool) (dir : Direction) :
    (s.order pool dir).Nodup := by
  cases dir with
  | fromFront => exact hs.nodup pool
  | fromBack => exact nodup_reverse.2 (hs.nodup pool)

/-- An address is in one region at most. -/
theorem Managed.within_unique (hs : Managed s) {m' : ℕ} (hm : m < s.numManagers)
    (hm' : m' < s.numManagers) (h : s.Within m x) (h' : s.Within m' x) : m = m' := by
  by_contra hne
  have hapart := hs.apart m hm m' hm' hne
  obtain ⟨hle, hlt⟩ := h
  obtain ⟨hle', hlt'⟩ := h'
  simp only [heap] at hapart
  omega

/-- **`GetManager`** finds the manager of an address. -/
theorem Managed.getManager_eq (hs : Managed s) (hm : m < s.numManagers) (h : s.Within m x) :
    s.getManager x = .ret m true := by
  rw [getManager]
  cases hfound : (range s.numManagers).find? fun m => s.Within m x with
  | none =>
    have hnone := find?_eq_none.1 hfound m (mem_range.2 hm)
    exact absurd (decide_eq_true h) hnone
  | some m' =>
    have hholds := find?_some hfound
    have hin : s.Within m' x := of_decide_eq_true hholds
    have hlt := mem_range.1 (mem_of_find?_eq_some hfound)
    rw [hs.within_unique hm hlt h hin]
    rfl

theorem Managed.mem_freePages (hs : Managed s) (hm : m < s.numManagers) (hx : x ∈ s.freePages m) :
    PageSize ∣ x ∧ s.Within m x := by
  obtain ⟨hpage, hle, hge⟩ := (hs.live m hm).mem_inside hx
  refine ⟨hpage, hle, ?_⟩
  have hpos : 0 < PageSize := by decide
  show x < (s.heap m).getEndAddress
  omega

end KMemoryManager

end Kernel
end NXEmu
