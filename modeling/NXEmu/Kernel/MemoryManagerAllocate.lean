/-
# Allocation of a page group

`AllocatePageGroupImpl` takes blocks of falling sizes from the managers of a pool.  At any time the group
is what the managers have lost, whatever has been concatenated (`Took`).

When it fails, each block of the group is freed into one manager.  That is all of it unless a block goes
from one manager on into the next.  A block does so only where a manager ends at which another of the pool
begins, and only if the first may be the one to be taken from earlier: because it comes first in the pool,
or because a block larger than a page may end it (`Apart`).
-/

import NXEmu.Kernel.MemoryManagerPages

variable {addr : ℕ} {heap : KPageHeap} {g : KPageGroup}

namespace NXEmu
namespace Kernel

open Common Buddies

namespace KMemoryManager

open Exec List

variable {s₀ s s' : KMemoryManager} {managers done before rest : List ℕ} {total index m x : ℕ}
  {a : Allocating} {random : Bool}

/-- What is taken from a manager and then from a later one of a pool is not concatenated, whatever the
sizes. -/
def Apart (s : KMemoryManager) (m m' : ℕ) : Prop :=
  (s.heap m).getEndAddress ≠ (s.heap m').heapAddress ∧
    ¬((s.heap m').getEndAddress = (s.heap m).heapAddress ∧
      getBlockSize 1 ∣ (s.heap m').getEndAddress ∧
      (s.heap m').heapAddress + getBlockSize 1 ≤ (s.heap m').getEndAddress)

/-- A block lies in one manager. -/
def Inside (s : KMemoryManager) (m : ℕ) (b : KBlockInfo) : Prop :=
  (s.heap m).heapAddress ≤ b.getAddress ∧ b.finish ≤ (s.heap m).getEndAddress

/-- Where the last block of a group may end: in a manager that has been taken single pages from, or with
a larger block. -/
def Ends (s : KMemoryManager) (managers : List ℕ) (index : ℕ) (done : List ℕ) (b : KBlockInfo) : Prop :=
  ∃ m ∈ managers, Inside s m b ∧ ((index = 0 ∧ m ∈ done) ∨
    (getBlockSize 1 ∣ b.finish ∧ (s.heap m).heapAddress + getBlockSize 1 ≤ b.finish))

/-- What the loops keep. -/
structure Took (s₀ : KMemoryManager) (managers : List ℕ) (total index : ℕ) (done : List ℕ)
    (a : Allocating) : Prop where
  managed : Managed a.manager
  only : OnlyHeaps s₀ a.manager
  fits : ∀ b ∈ a.out.blocks, b.Fits
  nodup : a.out.pages.Nodup
  count : a.out.pages.length + a.numPages = total
  source : ∀ x ∈ a.out.pages, ∃ m ∈ managers, x ∈ s₀.freePages m
  free : ∀ m < s₀.numManagers, a.manager.freePages m = s₀.freePages m \ a.out.pages.toFinset
  single : managers.Pairwise (Apart s₀) → (∀ b ∈ a.out.blocks, ∃ m ∈ managers, Inside s₀ m b) ∧
    ∀ b, a.out.blocks.getLast? = some b → Ends s₀ managers index done b

/-- The range of a manager that a block is taken from. -/
structure BlockOf (s : KMemoryManager) (m index addr : ℕ) : Prop where
  dvd : getBlockSize index ∣ addr
  pos : 0 < addr
  le : (s.heap m).heapAddress ≤ addr
  ge : addr + getBlockSize index ≤ (s.heap m).getEndAddress
  sub : rangePages addr (getBlockNumPages index) ⊆ s.freePages m

theorem getBlockNumPages_mul (hindex : index < numMemoryBlockPageShifts) :
    getBlockNumPages index * PageSize = getBlockSize index :=
  Nat.div_mul_cancel (pageSize_dvd_getBlockSize hindex)

theorem getBlockNumPages_pos (hindex : index < numMemoryBlockPageShifts) : 0 < getBlockNumPages index :=
  Nat.pos_of_mul_pos_right ((getBlockNumPages_mul hindex).symm ▸ getBlockSize_pos index)

/-- A block whose pages are free lies in its manager. -/
theorem Managed.blockOf (hs : Managed s) (hm : m < s.numManagers) (hindex : index < numMemoryBlockPageShifts)
    (hdvd : getBlockSize index ∣ addr)
    (hsub : rangePages addr (getBlockNumPages index) ⊆ s.freePages m) : BlockOf s m index addr := by
  have hpage := (pageSize_dvd_getBlockSize hindex).trans hdvd
  have hpages := getBlockNumPages_mul hindex
  have hpos := getBlockSize_pos index
  have hle := Nat.le_of_dvd hpos (pageSize_dvd_getBlockSize hindex)
  have hfirst := (hs.live m hm).mem_inside (hsub ((mem_rangePages hpage).2 ⟨hpage, le_rfl, by omega⟩))
  have hlast := (hs.live m hm).mem_inside (hsub ((mem_rangePages (x := addr + (getBlockSize index - PageSize))
    hpage).2 ⟨Nat.dvd_add hpage (Nat.dvd_sub (pageSize_dvd_getBlockSize hindex) (Nat.dvd_refl _)), by omega, by
        rw [hpages]
        simp only [PageSize]
        omega⟩))
  have haddress := (hs.live m hm).address
  exact ⟨hdvd, by omega, hfirst.2.1, by omega, hsub⟩

/-- **A block that is added** keeps the blocks of the group in their managers, when these are apart. -/
theorem single_added (hs : Managed s₀) (hmanagers : managers = before ++ m :: rest)
    (hin : ∀ m ∈ managers, m < s₀.numManagers) (happart : managers.Pairwise (Apart s₀))
    (hindex : index < numMemoryBlockPageShifts) (hdone : done = before ++ [m])
    (hblock : BlockOf s₀ m index addr) {g g' : KPageGroup} (hfits : ∀ b ∈ g.blocks, b.Fits)
    (hinside : ∀ b ∈ g.blocks, ∃ m ∈ managers, Inside s₀ m b)
    (hends : ∀ b, g.blocks.getLast? = some b → Ends s₀ managers index done b)
    (hadded : KPageGroup.Added g addr (getBlockNumPages index) g') :
    (∀ b ∈ g'.blocks, ∃ m ∈ managers, Inside s₀ m b) ∧
      ∀ b, g'.blocks.getLast? = some b → Ends s₀ managers index done b := by
  have hmem : m ∈ managers := by
    rw [hmanagers]
    exact mem_append_right _ mem_cons_self
  have hpages := getBlockNumPages_mul hindex
  have hpos := getBlockSize_pos index
  -- the block that holds the range in the end
  have hnew : ∀ b : KBlockInfo, Inside s₀ m b → b.finish = addr + getBlockSize index →
      Ends s₀ managers index done b := by
    intro b hb hfinish
    refine ⟨m, hmem, hb, ?_⟩
    rcases Nat.eq_zero_or_pos index with hzero | hlarge
    · exact .inl ⟨hzero, by rw [hdone]; exact mem_append_right _ (mem_singleton_self m)⟩
    · have hdvd : getBlockSize 1 ∣ getBlockSize index := dvd_of_le graded_getBlockSize hlarge hindex
      have hsmall := Nat.le_of_dvd hpos hdvd
      have hle := hblock.le
      rw [hfinish]
      exact .inr ⟨Nat.dvd_add (hdvd.trans hblock.dvd) hdvd, by omega⟩
  cases hadded with
  | concatenated init last hblocks hmeets hblocks' =>
    rw [hblocks] at hfits hinside hends
    obtain ⟨m', hm', hlast, hbefore⟩ := hends last (getLast?_concat)
    have hpages' := (hfits last (mem_append_right _ (mem_singleton_self last))).pages
    have hfinish : last.getAddress < last.finish := by
      rw [KBlockInfo.finish]
      exact Nat.lt_add_of_pos_right (Nat.mul_pos hpages' (by decide))
    have hle := hblock.le
    have hge := hblock.ge
    obtain ⟨hlow, hhigh⟩ := hlast
    -- the block before it is in the same manager
    have hsame : m' = m := by
      by_contra hne
      have hside := hs.apart m' (hin m' hm') m (hin m hmem) hne
      have hmeet : (s₀.heap m').getEndAddress = (s₀.heap m).heapAddress := by omega
      rw [hmanagers] at hm' happart
      rw [pairwise_append, pairwise_cons] at happart
      obtain ⟨-, ⟨hlater, -⟩, hearlier⟩ := happart
      have hnotBefore : m' ∉ before := fun hin' =>
        (hearlier m' hin' m mem_cons_self).1 hmeet
      rcases mem_append.1 hm' with hin' | hin'
      · exact hnotBefore hin'
      · have hin'' := (mem_cons.1 hin').resolve_left hne
        rcases hbefore with ⟨-, hin'⟩ | ⟨hdvd, hroom⟩
        · rw [hdone] at hin'
          rcases mem_append.1 hin' with hin' | hin'
          · exact hnotBefore hin'
          · exact hne (mem_singleton.1 hin')
        · have hequal : last.finish = (s₀.heap m').getEndAddress := by omega
          rw [hequal] at hdvd hroom
          exact (hlater m' hin'').2 ⟨hmeet, hdvd, hroom⟩
    subst hsame
    have hjoined : (⟨last.pageIndex, last.numPages + getBlockNumPages index⟩ : KBlockInfo).finish =
        addr + getBlockSize index := by
      rw [KBlockInfo.finish_eq, ← Nat.add_assoc, Nat.add_mul, hpages, hmeets, KBlockInfo.finish_eq]
    have hnewInside : Inside s₀ m' ⟨last.pageIndex, last.numPages + getBlockNumPages index⟩ :=
      ⟨hlow, by rw [hjoined]; exact hge⟩
    rw [hblocks']
    refine ⟨fun b hb => ?_, fun b hb => ?_⟩
    · rcases mem_append.1 hb with hb | hb
      · exact hinside b (mem_append_left _ hb)
      · exact ⟨m', hmem, mem_singleton.1 hb ▸ hnewInside⟩
    · rw [getLast?_concat, Option.some.injEq] at hb
      exact hb ▸ hnew _ hnewInside hjoined
  | appended _ hblocks' =>
    have hpage := (pageSize_dvd_getBlockSize hindex).trans hblock.dvd
    have haddress : (⟨addr / PageSize, getBlockNumPages index⟩ : KBlockInfo).getAddress = addr :=
      Nat.div_mul_cancel hpage
    have hfinish : (⟨addr / PageSize, getBlockNumPages index⟩ : KBlockInfo).finish = addr + getBlockSize index := by
      rw [KBlockInfo.finish, haddress, hpages]
    have hnewInside : Inside s₀ m ⟨addr / PageSize, getBlockNumPages index⟩ :=
      ⟨by rw [haddress]; exact hblock.le, by rw [hfinish]; exact hblock.ge⟩
    rw [hblocks']
    refine ⟨fun b hb => ?_, fun b hb => ?_⟩
    · rcases mem_append.1 hb with hb | hb
      · exact hinside b hb
      · exact ⟨m, hmem, mem_singleton.1 hb ▸ hnewInside⟩
    · rw [getLast?_concat, Option.some.injEq] at hb
      exact hb ▸ hnew _ hnewInside hfinish

/-! ### One block -/

/-- A heap that has refused a block. -/
theorem Took.refused (h : Took s₀ managers total index done a)
    (hwent : KPageHeap.Went (a.manager.heap m) heap) (hsame : heap.freePages = a.manager.freePages m) :
    Took s₀ managers total index done { a with manager := a.manager.setHeap m heap } := by
  obtain ⟨hmanaged, honly⟩ := h.managed.setHeap hwent
  refine { h with managed := hmanaged, only := h.only.trans honly, free := fun m' hm' => ?_ }
  rw [freePages_setHeap]
  split_ifs with hm
  · rw [hsame, ← h.free m' hm', hm]
  · exact h.free m' hm'

/-- Free pages are in one manager. -/
theorem Managed.freePages_disjoint (hs : Managed s) {m' : ℕ} (hm : m < s.numManagers)
    (hm' : m' < s.numManagers) (hne : m' ≠ m) (hx : x ∈ s.freePages m) : x ∉ s.freePages m' := fun hx' =>
  hne (hs.within_unique hm' hm (hs.mem_freePages hm' hx').2 (hs.mem_freePages hm hx).2)

/-- A block that has been taken from a manager and added to the group. -/
theorem Took.added (hs : Managed s₀) (h : Took s₀ managers total index done a)
    (hmanagers : managers = before ++ m :: rest) (hin : ∀ m ∈ managers, m < s₀.numManagers)
    (hindex : index < numMemoryBlockPageShifts) (hdone : done = before ++ [m])
    (hroom : getBlockNumPages index ≤ a.numPages) (hblock : BlockOf a.manager m index addr) (hwent : KPageHeap.Went (a.manager.heap m) heap)
    (htaken : heap.freePages = a.manager.freePages m \ rangePages addr (getBlockNumPages index))
    (hadded : KPageGroup.Added a.out addr (getBlockNumPages index) g) :
    Took s₀ managers total index done ⟨a.manager.setHeap m heap, g, a.numPages - getBlockNumPages index⟩ := by
  have hmem : m ∈ managers := by
    rw [hmanagers]
    exact mem_append_right _ mem_cons_self
  have hm := hin m hmem
  have hpage := (pageSize_dvd_getBlockSize hindex).trans hblock.dvd
  have hpages := getBlockNumPages_mul hindex
  have hpos := getBlockNumPages_pos hindex
  obtain ⟨hmanaged, honly⟩ := h.managed.setHeap hwent
  have hnum := h.only.layout.numManagers
  have hregion := h.only.layout.region m
  have hbelow := h.managed.below m (hnum ▸ hm)
  have hsub : rangePages addr (getBlockNumPages index) ⊆ s₀.freePages m := by
    intro x hx
    have hx' := hblock.sub hx
    rw [h.free m hm] at hx'
    exact (Finset.mem_sdiff.1 hx').1
  have hblock₀ : BlockOf s₀ m index addr := ⟨hblock.dvd, hblock.pos, hregion.address ▸ hblock.le,
    hregion.getEndAddress ▸ hblock.ge, hsub⟩
  have hnew : g.pages = a.out.pages ++ pageList addr (getBlockNumPages index) := hadded.pages_eq hpage
  refine ⟨hmanaged, h.only.trans honly, ?_, ?_, ?_, ?_, fun m' hm' => ?_, fun happart => ?_⟩
  · exact hadded.fits hpage hblock.pos hpos (by rw [hpages]; exact hblock.ge.trans hbelow) h.fits
  · rw [hnew]
    refine nodup_append.2 ⟨h.nodup, nodup_pageList _ _, fun x hx y hy heq => ?_⟩
    subst heq
    have hfree := hblock.sub (mem_pageList.1 hy)
    rw [h.free m hm, Finset.mem_sdiff, mem_toFinset] at hfree
    exact hfree.2 hx
  · rw [hnew, length_append, length_pageList]
    have hcount := h.count
    simp only
    omega
  · intro x hx
    rw [hnew, mem_append, mem_pageList] at hx
    rcases hx with hx | hx
    · exact h.source x hx
    · exact ⟨m, hmem, hsub hx⟩
  · have hless : s₀.freePages m' \ g.pages.toFinset =
        a.manager.freePages m' \ rangePages addr (getBlockNumPages index) := by
      rw [hnew, toFinset_append, toFinset_pageList, h.free m' hm']
      exact sdiff_sdiff_left.symm
    rw [freePages_setHeap, hless]
    split_ifs with hmm
    · rw [htaken, hmm]
    · refine (Finset.sdiff_eq_self_of_disjoint (Finset.disjoint_left.2 fun x hx hx' => ?_)).symm
      exact h.managed.freePages_disjoint (hnum ▸ hm) (hnum ▸ hm') hmm (hblock.sub hx') hx
  · obtain ⟨hinside, hends⟩ := h.single happart
    exact single_added hs hmanagers hin happart hindex hdone hblock₀ h.fits hinside hends hadded

/-- A block that could not be added has been freed again. -/
theorem Took.returned (h : Took s₀ managers total index done a)
    (hblock : BlockOf a.manager m index addr) (hwent : KPageHeap.Went (a.manager.heap m) heap)
    (hsame : heap.freePages = (a.manager.freePages m \ rangePages addr (getBlockNumPages index)) ∪
      rangePages addr (getBlockNumPages index)) :
    Took s₀ managers total index done { a with manager := a.manager.setHeap m heap } := by
  refine h.refused hwent ?_
  rw [hsame, Finset.sdiff_union_self_eq_union, Finset.union_eq_left]
  exact hblock.sub

/-! ### The loops -/

/-- **The innermost loop.** -/
theorem takeBlocks_spec (hs : Managed s₀) (hmanagers : managers = before ++ m :: rest)
    (hin : ∀ m ∈ managers, m < s₀.numManagers) (hindex : index < numMemoryBlockPageShifts)
    (hdone : done = before ++ [m]) (random : Bool) : ∀ rounds (a : Allocating), Took s₀ managers total index done a →
      wp (takeBlocks m index random rounds a) fun r held =>
        held = true ∧ Took s₀ managers total index done r.2 := by
  have hm : m < s₀.numManagers := hin m (by
    rw [hmanagers]
    exact mem_append_right _ mem_cons_self)
  intro rounds
  induction rounds with
  | zero => exact fun a h => wp_ret.2 ⟨rfl, h⟩
  | succ rounds ih =>
    intro a h
    rw [takeBlocks]
    split_ifs with hroom
    · have hm' : m < a.manager.numManagers := h.only.layout.numManagers ▸ hm
      rw [wp_bind]
      refine wp_mono ((h.managed.live m hm').allocateBlock_spec hindex random) ?_
      rintro ⟨addr, heap⟩ held ⟨rfl, hwent, houtcome⟩
      show wp (if addr = 0 then _ else _) _
      rcases houtcome with ⟨hzero, hsame, -⟩ | ⟨hne, hdvd, hsub, htaken⟩
      · simp only at hzero hsame
        rw [if_pos hzero]
        exact wp_ret.2 ⟨rfl, h.refused hwent hsame⟩
      · simp only at hne hdvd hsub htaken hwent
        have hblock := h.managed.blockOf hm' hindex hdvd hsub
        have hpage := (pageSize_dvd_getBlockSize hindex).trans hdvd
        have hge : addr + getBlockNumPages index * PageSize ≤ (a.manager.heap m).getEndAddress := by
          rw [getBlockNumPages_mul hindex]
          exact hblock.ge
        rw [if_neg hne, wp_bind]
        refine wp_mono (KPageGroup.addBlock_spec h.fits hpage (Nat.pos_of_ne_zero hne)
          (getBlockNumPages_pos hindex) (hge.trans (h.managed.below m hm'))) ?_
        rintro ⟨result, g⟩ held ⟨rfl, hresult⟩
        show wp (if result = .success then _ else _) _
        rcases hresult with ⟨hsuccess, hadded, -⟩ | ⟨hfailure, hgroup, -⟩
        · simp only at hsuccess hadded
          rw [if_pos hsuccess]
          refine wp_mono (ih _ (h.added hs hmanagers hin hindex hdone hroom hblock hwent htaken hadded)) ?_
          rintro r held ⟨rfl, htook⟩
          exact ⟨rfl, htook⟩
        · simp only at hfailure hgroup
          subst hgroup
          rw [if_neg hfailure, wp_bind]
          have hheap : ((a.manager.setHeap m heap).managers m).heap = heap :=
            (heap_setHeap a.manager m m heap).trans (if_pos rfl)
          rw [hheap]
          refine wp_mono (hwent.live.free_spec hpage (hwent.region.address ▸ hblock.le)
            (hwent.region.getEndAddress ▸ hge) fun x hx hfree => ?_) ?_
          · rw [htaken] at hfree
            exact (Finset.mem_sdiff.1 hfree).2 hx
          · rintro heap' held ⟨rfl, hwent', hfreed⟩
            have htwice : (a.manager.setHeap m heap).setHeap m heap' = a.manager.setHeap m heap' := by
              rw [setHeap, setHeap, setHeap, setManager, setManager, setManager]
              simp only [Function.update_self, Function.update_idem]
            rw [pure_eq, wp_ret, htwice]
            refine ⟨rfl, h.returned hblock ⟨hwent'.live, ?_⟩ (by rw [hfreed, htaken]; rfl)⟩
            exact ⟨hwent'.region.address.trans hwent.region.address, hwent'.region.size.trans hwent.region.size⟩
    · exact wp_ret.2 ⟨rfl, h⟩

/-- More managers of single pages may have been taken from. -/
theorem Took.mono {done' : List ℕ} (h : Took s₀ managers total index done a) (hsub : done ⊆ done') :
    Took s₀ managers total index done' a := by
  refine { h with single := fun happart => ?_ }
  obtain ⟨hinside, hends⟩ := h.single happart
  refine ⟨hinside, fun b hb => ?_⟩
  obtain ⟨m, hm, hin, hend⟩ := hends b hb
  exact ⟨m, hm, hin, hend.imp_left fun hsmall => ⟨hsmall.1, hsub hsmall.2⟩⟩

/-- Blocks of the next larger size end their managers as larger blocks do. -/
theorem Took.smaller (h : Took s₀ managers total (index + 1) done a) :
    Took s₀ managers total index [] a := by
  refine { h with single := fun happart => ?_ }
  obtain ⟨hinside, hends⟩ := h.single happart
  refine ⟨hinside, fun b hb => ?_⟩
  obtain ⟨m, hm, hin, hend⟩ := hends b hb
  exact ⟨m, hm, hin, .inr (hend.resolve_left fun hsmall => Nat.succ_ne_zero index hsmall.1)⟩

/-- **The loop over the managers.** -/
theorem takeFromManagers_spec (hs : Managed s₀) (hin : ∀ m ∈ managers, m < s₀.numManagers)
    (hindex : index < numMemoryBlockPageShifts) (random : Bool) : ∀ rest before (a : Allocating),
      managers = before ++ rest → Took s₀ managers total index before a →
      wp (takeFromManagers index random rest a) fun r held =>
        held = true ∧ Took s₀ managers total index managers r.2 := by
  intro rest
  induction rest with
  | nil =>
    intro before a hmanagers h
    rw [append_nil] at hmanagers
    exact wp_ret.2 ⟨rfl, hmanagers ▸ h⟩
  | cons m rest ih =>
    intro before a hmanagers h
    rw [takeFromManagers, wp_bind]
    refine wp_mono (takeBlocks_spec hs hmanagers hin hindex rfl random a.numPages a
      (h.mono (subset_append_left _ _))) ?_
    rintro ⟨result, a'⟩ held ⟨rfl, h'⟩
    have hmanagers' : managers = (before ++ [m]) ++ rest := by rw [hmanagers, append_assoc]; rfl
    show wp (if result = .success then _ else _) _
    split_ifs with hresult
    · refine wp_mono (ih (before ++ [m]) a' hmanagers' h') ?_
      rintro r held ⟨rfl, htook⟩
      exact ⟨rfl, htook⟩
    · refine wp_ret.2 ⟨rfl, h'.mono ?_⟩
      rw [hmanagers']
      exact subset_append_left _ _

/-- **The loop over the sizes.** -/
theorem takeOfSizes_spec (hs : Managed s₀) (hin : ∀ m ∈ managers, m < s₀.numManagers) (random : Bool) :
    ∀ sizes ≤ numMemoryBlockPageShifts, ∀ (a : Allocating) done, Took s₀ managers total sizes done a →
      wp (takeOfSizes managers random sizes a) fun r held =>
        held = true ∧ ∃ index done, Took s₀ managers total index done r.2 := by
  intro sizes
  induction sizes with
  | zero => exact fun _ a done h => wp_ret.2 ⟨rfl, 0, done, h⟩
  | succ index ih =>
    intro hsizes a done h
    rw [takeOfSizes]
    split_ifs with hleft
    · rw [wp_bind]
      refine wp_mono (takeFromManagers_spec hs hin hsizes random managers [] a rfl h.smaller) ?_
      rintro ⟨result, a'⟩ held ⟨rfl, h'⟩
      show wp (if result = .success then _ else _) _
      split_ifs with hresult
      · refine wp_mono (ih (by omega) a' managers h') ?_
        rintro r held ⟨rfl, htook⟩
        exact ⟨rfl, htook⟩
      · exact wp_ret.2 ⟨rfl, index, managers, h'⟩
    · exact wp_ret.2 ⟨rfl, index + 1, done, h⟩

/-! ### The handler -/

theorem mem_pages_within {b : KBlockInfo} (hin : Inside s m b) (hx : x ∈ b.pages) : s.Within m x := by
  have haddress : PageSize ∣ b.getAddress := Nat.dvd_mul_left _ _
  rw [KBlockInfo.pages, mem_pageList, mem_rangePages haddress] at hx
  exact ⟨hin.1.trans hx.2.1, hx.2.2.trans_le hin.2⟩

/-- **The handler frees the blocks** that are in one manager each. -/
theorem unfreed_spec : ∀ (blocks : List KBlockInfo) (s : KMemoryManager), Managed s →
    (∀ b ∈ blocks, ∃ m < s.numManagers, Inside s m b) → (∀ b ∈ blocks, b.Fits) →
    (blocks.flatMap KBlockInfo.pages).Nodup →
    (∀ x ∈ blocks.flatMap KBlockInfo.pages, ∀ m < s.numManagers, x ∉ s.freePages m) →
    wp (unfreed blocks s) fun s' held => held = true ∧ Managed s' ∧ OnlyHeaps s s' ∧
      ∀ m < s.numManagers, ∀ x, x ∈ s'.freePages m ↔
        x ∈ s.freePages m ∨ (x ∈ blocks.flatMap KBlockInfo.pages ∧ s.Within m x) := by
  intro blocks
  induction blocks with
  | nil =>
    intro s hs _ _ _ _
    refine wp_ret.2 ⟨rfl, hs, .refl s, fun m _ x => ?_⟩
    simp
  | cons b rest ih =>
    intro s hs hinside hfits hnodup hnot
    obtain ⟨m, hm, hin⟩ := hinside b mem_cons_self
    have hb := hfits b mem_cons_self
    rw [flatMap_cons, nodup_append] at hnodup
    obtain ⟨-, hnodup, hdisjoint⟩ := hnodup
    have hnot' : ∀ x ∈ b.pages ++ rest.flatMap KBlockInfo.pages, ∀ m < s.numManagers, x ∉ s.freePages m := hnot
    have hpos : 0 < b.numPages * PageSize := Nat.mul_pos hb.pages (by decide)
    have hin' := hin
    rw [Inside, KBlockInfo.finish] at hin'
    have hwithin : s.Within m b.getAddress := by
      refine ⟨hin.1, ?_⟩
      show b.getAddress < (s.heap m).getEndAddress
      omega
    have hcount : min b.numPages (((s.managers m).heap.getEndAddress - b.getAddress) / PageSize) = b.numPages := by
      refine Nat.min_eq_left ((Nat.le_div_iff_mul_le (by decide)).2 ?_)
      show b.numPages * PageSize ≤ (s.heap m).getEndAddress - b.getAddress
      omega
    rw [unfreed, hs.getManager_eq hm hwithin, ret_true_bind, wp_bind, hcount]
    refine wp_mono ((hs.live m hm).free_spec (Nat.dvd_mul_left _ _) hin.1 hin.2 fun x hx =>
      hnot' x (mem_append_left _ (mem_pageList.2 hx)) m hm) ?_
    rintro heap held ⟨rfl, hwent, hfreed⟩
    obtain ⟨hmanaged, honly⟩ := hs.setHeap hwent
    have hlayout := honly.layout
    refine wp_mono (ih (s.setHeap m heap) hmanaged (fun b' hb' => ?_)
      (fun b' hb' => hfits b' (mem_cons_of_mem b hb')) hnodup fun x hx m' hm' hfree => ?_) ?_
    · obtain ⟨m', hm', hlow, hhigh⟩ := hinside b' (mem_cons_of_mem b hb')
      refine ⟨m', hm', ?_⟩
      rw [Inside, (hlayout.region m').address, (hlayout.region m').getEndAddress]
      exact ⟨hlow, hhigh⟩
    · rw [freePages_setHeap] at hfree
      split_ifs at hfree with hmm
      · rw [hfreed, Finset.mem_union] at hfree
        rcases hfree with hfree | hfree
        · exact hnot' x (mem_append_right _ hx) m hm hfree
        · exact hdisjoint x (mem_pageList.2 hfree) x hx rfl
      · exact hnot' x (mem_append_right _ hx) m' hm' hfree
    · rintro s' held ⟨rfl, hmanaged', honly', hfree⟩
      refine ⟨rfl, hmanaged', honly.trans honly', fun m' hm' x => ?_⟩
      rw [hfree m' hm' x, hlayout.within, freePages_setHeap, flatMap_cons, mem_append]
      split_ifs with hmm
      · subst hmm
        have hpages : x ∈ rangePages b.getAddress b.numPages ↔ x ∈ b.pages := mem_pageList.symm
        rw [hfreed, Finset.mem_union, hpages]
        constructor
        · rintro ((hold | hnew) | hlater)
          · exact .inl hold
          · exact .inr ⟨.inl hnew, mem_pages_within hin hnew⟩
          · exact .inr ⟨.inr hlater.1, hlater.2⟩
        · rintro (hold | ⟨hnew | hlater, hw⟩)
          · exact .inl (.inl hold)
          · exact .inl (.inr hnew)
          · exact .inr ⟨hlater, hw⟩
      · constructor
        · rintro (hold | hlater)
          · exact .inl hold
          · exact .inr ⟨.inr hlater.1, hlater.2⟩
        · rintro (hold | ⟨hnew | hlater, hw⟩)
          · exact .inl hold
          · exact absurd (hs.within_unique hm' hm hw (mem_pages_within hin hnew)) hmm
          · exact .inr ⟨hlater, hw⟩

/-! ### AllocatePageGroupImpl -/

/-- What is owed by an allocation that starts with an empty group. -/
structure Settled (s : KMemoryManager) (numPages : ℕ) (managers : List ℕ)
    (r : AllocationResult × KMemoryManager × KPageGroup) : Prop where
  success : r.1 = .success → r.2.2.pages.Nodup ∧ r.2.2.pages.length = numPages ∧
    (∀ x ∈ r.2.2.pages, ∃ m ∈ managers, x ∈ s.freePages m) ∧
    ∀ m < s.numManagers, r.2.1.freePages m = s.freePages m \ r.2.2.pages.toFinset
  failure : r.1 ≠ .success → r.2.2.blocks = [] ∧ ∀ m < s.numManagers, r.2.1.freePages m = s.freePages m

theorem getBlockIndex_lt {numPages heapIndex : ℕ} (h : getBlockIndex numPages = .ofNat heapIndex) :
    heapIndex < numMemoryBlockPageShifts := by
  rw [getBlockIndex] at h
  cases hfound : (range numMemoryBlockPageShifts).reverse.find? fun i =>
      getBlockNumPages i ≤ numPages with
  | none =>
    rw [hfound] at h
    exact Int.noConfusion h
  | some i =>
    rw [hfound] at h
    obtain rfl : i = heapIndex := Int.ofNat.inj h
    exact mem_range.1 (mem_reverse.1 (mem_of_find?_eq_some hfound))

theorem Took.start (hs : Managed s) (hg : g.blocks = []) (managers : List ℕ)
    (numPages index : ℕ) : Took s managers numPages index [] ⟨s, g, numPages⟩ := by
  have hpages : g.pages = [] := by rw [KPageGroup.pages, hg]; rfl
  refine ⟨hs, .refl s, ?_, ?_, ?_, ?_, fun m _ => ?_, fun _ => ⟨?_, ?_⟩⟩
  · simp [hg]
  · simp [hpages]
  · simp [hpages]
  · simp [hpages]
  · simp [hpages]
  · simp [hg]
  · simp [hg]

/-- **`AllocatePageGroupImpl`** on managers that are apart. -/
theorem Managed.allocatePageGroupImpl_spec (hs : Managed s) (hg : g.blocks = [])
    (numPages : ℕ) (pool : Pool) (dir : Direction) (random : Bool) (happart : (s.order pool dir).Pairwise (Apart s)) :
    wp (s.allocatePageGroupImpl g numPages pool dir random) fun r held => held = true ∧
      Managed r.2.1 ∧ OnlyHeaps s r.2.1 ∧ (∀ b ∈ r.2.2.blocks, b.Fits) ∧
      Settled s numPages (s.order pool dir) r := by
  have hin : ∀ m ∈ s.order pool dir, m < s.numManagers := fun m hm => hs.mem_order hm
  rw [allocatePageGroupImpl]
  cases hindex : getBlockIndex numPages with
  | negSucc i =>
    refine wp_ret.2 ⟨rfl, hs, .refl s, by simp [hg], ?_, fun _ => ⟨hg, fun _ _ => rfl⟩⟩
    exact fun hsuccess => AllocationResult.noConfusion hsuccess
  | ofNat heapIndex =>
    show wp (takeOfSizes (s.order pool dir) random (heapIndex + 1) ⟨s, g, numPages⟩ >>= _) _
    rw [wp_bind]
    refine wp_mono (takeOfSizes_spec hs hin random (heapIndex + 1) (getBlockIndex_lt hindex) _ []
      (.start hs hg _ numPages (heapIndex + 1))) ?_
    rintro ⟨result, a⟩ held ⟨rfl, index, done, h⟩
    obtain ⟨hinside, -⟩ := h.single happart
    simp only at h
    generalize hfinal : (if result = .success ∧ a.numPages ≠ 0 then AllocationResult.outOfMemory
      else result) = final
    show wp (if (if result = .success ∧ a.numPages ≠ 0 then AllocationResult.outOfMemory
      else result) = .success then _ else _) _
    rw [hfinal]
    split_ifs with hsuccess
    · have hall : a.numPages = 0 := by
        by_contra hne
        subst hsuccess
        split_ifs at hfinal with hsome
        exact hsome ⟨hfinal, hne⟩
      have hcount := h.count
      refine wp_ret.2 ⟨rfl, h.managed, h.only, h.fits, fun _ => ⟨h.nodup, ?_, h.source, h.free⟩,
        fun hne => absurd rfl hne⟩
      simp only
      omega
    · have hnum := h.only.layout.numManagers
      rw [wp_bind]
      refine wp_mono (unfreed_spec a.out.blocks a.manager h.managed (fun b hb => ?_) h.fits h.nodup
        fun x hx m hm hfree => ?_) ?_
      · obtain ⟨m, hm, hlow, hhigh⟩ := hinside b hb
        refine ⟨m, hnum ▸ hin m hm, ?_⟩
        rw [Inside, (h.only.layout.region m).address, (h.only.layout.region m).getEndAddress]
        exact ⟨hlow, hhigh⟩
      · rw [h.free m (hnum ▸ hm), Finset.mem_sdiff, mem_toFinset] at hfree
        exact hfree.2 hx
      · rintro s' held ⟨rfl, hmanaged, honly, hfree⟩
        refine wp_ret.2 ⟨rfl, hmanaged, h.only.trans honly, ?_, fun hne => absurd hne hsuccess,
          fun _ => ⟨rfl, fun m hm => ?_⟩⟩
        · intro b hb
          exact absurd hb (not_mem_nil)
        · ext x
          rw [hfree m (hnum ▸ hm), h.free m hm, Finset.mem_sdiff, mem_toFinset, h.only.layout.within]
          constructor
          · rintro (⟨hx, -⟩ | ⟨hx, hwithin⟩)
            · exact hx
            · obtain ⟨m', hm', hx'⟩ := h.source x hx
              have hsame := hs.within_unique (hin m' hm') hm (hs.mem_freePages (hin m' hm') hx').2 hwithin
              exact hsame ▸ hx'
          · intro hx
            by_cases hout : x ∈ a.out.pages
            · exact .inr ⟨hout, (hs.mem_freePages hm hx).2⟩
            · exact .inl ⟨hx, hout⟩

end KMemoryManager

end Kernel
end NXEmu
