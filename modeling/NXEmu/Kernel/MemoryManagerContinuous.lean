/-
# Continuous allocations

`AllocateAndOpenContinuous` takes a range from the first manager of the pool that has one, aligned as it is
asked for, and opens its pages.  The size of the blocks that it looks in first is that of the smallest block
with as many pages as there are asked for and as the alignment has; there is none for more than those of
the largest block, and then `GetAlignedBlockIndex` is -1 and the heap looks at the block before its first
one.  So the call is safe just when no pages are asked for, when the pool has no managers, or when neither
the pages nor the alignment exceed the largest block (`KMemoryManager.Managed.allocateAndOpenContinuous_iff`).
-/

import NXEmu.Kernel.MemoryManagerRanges
import NXEmu.Kernel.MemoryManagerLeaks

namespace NXEmu
namespace Kernel

open Common Exec

variable {numPages alignPages m x block : ℕ}

/-- The pages of the largest block. -/
def maxBlockNumPages : ℕ := getBlockNumPages (numMemoryBlockPageShifts - 1)

theorem getBlockNumPages_le {i : ℕ} (hi : i < numMemoryBlockPageShifts) : getBlockNumPages i ≤ maxBlockNumPages := by
  have hall : ∀ i < numMemoryBlockPageShifts, getBlockNumPages i ≤ maxBlockNumPages := by decide
  exact hall i hi

/-- **`GetAlignedBlockIndex`** is the number of a size in which the request fits, or -1 when there is none. -/
theorem getAlignedBlockIndex_spec (numPages alignPages : ℕ) :
    (maxBlockNumPages < max numPages alignPages ∧ getAlignedBlockIndex numPages alignPages = -1) ∨
      (max numPages alignPages ≤ maxBlockNumPages ∧ ∃ index < numMemoryBlockPageShifts,
        getAlignedBlockIndex numPages alignPages = index ∧ max numPages alignPages ≤ getBlockNumPages index) := by
  rw [getAlignedBlockIndex]
  cases hfound : (List.range numMemoryBlockPageShifts).find? fun i =>
    max numPages alignPages ≤ getBlockNumPages i with
  | none =>
    refine .inl ⟨not_le.1 fun hle => ?_, rfl⟩
    exact List.find?_eq_none.1 hfound (numMemoryBlockPageShifts - 1) (List.mem_range.2 (by decide))
      (decide_eq_true hle)
  | some index =>
    have hlt := List.mem_range.1 (List.mem_of_find?_eq_some hfound)
    have hholds := List.find?_some hfound
    have hfits : max numPages alignPages ≤ getBlockNumPages index := of_decide_eq_true hholds
    exact .inr ⟨hfits.trans (getBlockNumPages_le hlt), index, hlt, rfl, hfits⟩

namespace KMemoryManager

variable {s s' s'' : KMemoryManager}

theorem OnlyHeaps.refCount (h : OnlyHeaps s s') (x : ℕ) : s'.refCount x = s.refCount x := by
  have hwithin : (fun m => decide (s'.Within m x)) = fun m => decide (s.Within m x) := by
    funext m
    rw [Bool.eq_iff_iff, decide_eq_true_iff, decide_eq_true_iff]
    exact h.layout.within m x
  have hoffset : ∀ m, (s'.managers m).getPageOffset x = (s.managers m).getPageOffset x := by
    intro m
    show (x - (s'.heap m).heapAddress) / PageSize = (x - (s.heap m).heapAddress) / PageSize
    rw [(h.layout.region m).address]
  rw [KMemoryManager.refCount, KMemoryManager.refCount, h.layout.numManagers, hwithin]
  cases (List.range s.numManagers).find? fun m => decide (s.Within m x) with
  | none => rfl
  | some m =>
    dsimp only
    rw [h.counts, hoffset]

/-- A range that was free, which a manager no longer has. -/
structure TookRange (s : KMemoryManager) (numPages alignPages block : ℕ) (s' : KMemoryManager) : Prop where
  managed : Managed s'
  heaps : OnlyHeaps s s'
  nonzero : block ≠ 0
  aligned : ∀ k, 2 ^ k ∣ alignPages * PageSize → 2 ^ k ∣ block
  wasFree : ∀ x ∈ rangePages block numPages, s.IsFree x
  taken : ∀ x, s'.IsFree x ↔ s.IsFree x ∧ x ∉ rangePages block numPages

/-- Heaps may have changed, but not what is free. -/
structure TookNone (s s' : KMemoryManager) : Prop where
  managed : Managed s'
  heaps : OnlyHeaps s s'
  free : ∀ x, s'.IsFree x ↔ s.IsFree x

theorem TookNone.refl (hs : Managed s) : TookNone s s := ⟨hs, .refl s, fun _ => .rfl⟩

theorem TookNone.trans (h : TookNone s s') (h' : TookRange s' numPages alignPages block s'') :
    TookRange s numPages alignPages block s'' :=
  ⟨h'.managed, h.heaps.trans h'.heaps, h'.nonzero, h'.aligned, fun x hx => (h.free x).1 (h'.wasFree x hx),
    fun x => by rw [h'.taken, h.free]⟩

theorem TookRange.aligned_page (h : TookRange s numPages alignPages block s') : PageSize ∣ block :=
  h.aligned 12 (Nat.dvd_mul_left _ _)

/-- The call on a heap, told of the pages of all managers. -/
theorem Managed.setHeap_takes (hs : Managed s) (hm : m < s.numManagers) {r : ℕ × KPageHeap}
    (hwent : KPageHeap.Went (s.heap m) r.2) (htakes : KPageHeap.Takes (s.heap m) numPages alignPages r) :
    (r.1 = 0 ∧ TookNone s (s.setHeap m r.2)) ∨ TookRange s numPages alignPages r.1 (s.setHeap m r.2) := by
  obtain ⟨hmanaged, hheaps⟩ := hs.setHeap hwent
  rcases htakes with ⟨hzero, hsame⟩ | ⟨hne, halign, hsub, htaken⟩
  · refine .inl ⟨hzero, hmanaged, hheaps, fun x => exists_congr fun m' => and_congr_right fun _ => ?_⟩
    rw [freePages_setHeap]
    split_ifs with hm'
    · rw [hsame, hm']
      rfl
    · rfl
  · refine .inr ⟨hmanaged, hheaps, hne, halign, fun x hx => ⟨m, hm, hsub hx⟩, fun x => ?_⟩
    constructor
    · rintro ⟨m', hm', hx⟩
      rw [freePages_setHeap] at hx
      split_ifs at hx with heq
      · rw [htaken, Finset.mem_sdiff] at hx
        exact ⟨⟨m, hm, hx.1⟩, hx.2⟩
      · refine ⟨⟨m', hm', hx⟩, fun hin => heq ?_⟩
        exact hs.within_unique hm' hm (hs.mem_freePages hm' hx).2 (hs.mem_freePages hm (hsub hin)).2
    · rintro ⟨⟨m', hm', hx⟩, hnot⟩
      refine ⟨m', hm', ?_⟩
      rw [freePages_setHeap]
      split_ifs with heq
      · rw [htaken, Finset.mem_sdiff]
        exact ⟨heq ▸ hx, hnot⟩
      · exact hx

/-- **The loop over the managers**, for a size in which the request fits. -/
theorem allocateAlignedFrom_spec {index : ℕ} (hindex : index < numMemoryBlockPageShifts)
    (hfits : max numPages alignPages ≤ getBlockNumPages index) (halign : 0 < alignPages) :
    ∀ (managers : List ℕ) (s : KMemoryManager), Managed s → (∀ m ∈ managers, m < s.numManagers) →
    wp (allocateAlignedFrom index numPages alignPages managers s) fun r held => held = true ∧
      ((r.1 = none ∧ TookNone s r.2) ∨ ∃ m block, r.1 = some (m, block) ∧ m < s.numManagers ∧
        (∀ x ∈ rangePages block numPages, s.Within m x) ∧ TookRange s numPages alignPages block r.2) := by
  intro managers
  induction managers with
  | nil => exact fun s hs _ => wp_ret.2 ⟨rfl, .inl ⟨rfl, .refl hs⟩⟩
  | cons m rest ih =>
    intro s hs hin
    have hm := hin m List.mem_cons_self
    have hcall := (hs.live m hm).call_spec (.allocateAligned index numPages alignPages)
      ⟨hindex, (Nat.le_max_left _ _).trans hfits, halign, (Nat.le_max_right _ _).trans hfits⟩
    rw [allocateAlignedFrom, wp_bind]
    refine wp_mono hcall ?_
    rintro ⟨block, heap⟩ held ⟨rfl, hdoes, hwent⟩
    have htakes := hs.setHeap_takes hm hwent hdoes
    dsimp only at htakes ⊢
    rcases htakes with ⟨rfl, hnone⟩ | htook
    · rw [if_neg (not_not.2 rfl)]
      refine wp_mono (ih _ hnone.managed fun m' hm' => hin m' (List.mem_cons_of_mem _ hm')) ?_
      rintro r held ⟨rfl, hrest⟩
      refine ⟨rfl, hrest.imp (fun h => ⟨h.1, h.2.managed, hnone.heaps.trans h.2.heaps, fun x => by
        rw [h.2.free, hnone.free]⟩) ?_⟩
      rintro ⟨m', block, hr, hm', hwithin, htook⟩
      exact ⟨m', block, hr, hm', fun x hx => (hnone.heaps.layout.within m' x).1 (hwithin x hx), hnone.trans htook⟩
    · rw [if_pos htook.nonzero]
      refine wp_ret.2 ⟨rfl, .inr ⟨m, block, rfl, hm, fun x hx => ?_, htook⟩⟩
      rcases hdoes with ⟨hzero, -⟩ | ⟨-, -, hsub, -⟩
      · exact absurd hzero htook.nonzero
      · exact (hs.mem_freePages hm (hsub hx)).2

/-- A range of which every page is in a region is inside it. -/
theorem Managed.inRegion (hs : Managed s) (hm : m < s.numManagers) (haddr : PageSize ∣ block) (hpos : 0 < numPages)
    (hwithin : ∀ x ∈ rangePages block numPages, s.Within m x) : InRegion s m block numPages := by
  have hregion := (hs.live m hm).books.pages
  have hend : PageSize ∣ (s.heap m).getEndAddress := Nat.dvd_add hregion.1 hregion.2
  have hpage : 0 < PageSize := by decide
  have hlastMem : block + (numPages - 1) * PageSize ∈ rangePages block numPages := by
    refine (mem_rangePages haddr).2 ⟨Nat.dvd_add haddr (Nat.dvd_mul_left _ _), Nat.le_add_right _ _, ?_⟩
    exact Nat.add_lt_add_left (Nat.mul_lt_mul_of_pos_right (by omega) hpage) block
  have hfirstMem : block ∈ rangePages block numPages :=
    (mem_rangePages haddr).2 ⟨haddr, le_rfl, Nat.lt_add_of_pos_right (Nat.mul_pos hpos hpage)⟩
  refine ⟨hm, haddr, (hwithin _ hfirstMem).1, ?_⟩
  have hlast : block + (numPages - 1) * PageSize < (s.heap m).getEndAddress := (hwithin _ hlastMem).2
  -- both ends are multiples of the page size
  obtain ⟨a, ha⟩ := haddr
  obtain ⟨e, he⟩ := hend
  rw [ha, he] at hlast ⊢
  rw [Nat.mul_comm _ PageSize, ← Nat.mul_add] at hlast ⊢
  have hlt := Nat.lt_of_mul_lt_mul_left hlast
  exact Nat.mul_le_mul_left PageSize (by omega)

/-- What `AllocateAndOpenContinuous` does when it does not fault: nothing, and it returns 0, or it takes a
range of pages that were free and opens them. -/
def Opens (s : KMemoryManager) (numPages alignPages : ℕ) (r : ℕ × KMemoryManager) : Prop :=
  (r.1 = 0 ∧ TookNone s r.2) ∨
    (0 < numPages ∧ Covers s r.1 numPages ∧ r.1 + numPages * PageSize ≤ 2 ^ 44 ∧
      ∃ s₁, TookRange s numPages alignPages r.1 s₁ ∧ Ranged (fun refCount => refCount + 1) s₁ r.1 numPages r.2 [])

/-- **`AllocateAndOpenContinuous`** within the largest block. -/
theorem Managed.allocateAndOpenContinuous_spec (hs : Managed s) (hnum : numPages ≤ maxBlockNumPages)
    (hpos : 0 < alignPages) (halign : alignPages ≤ maxBlockNumPages) (pool : Pool) (dir : Direction) :
    wp (s.allocateAndOpenContinuous numPages alignPages pool dir) fun r _ => Opens s numPages alignPages r := by
  rw [allocateAndOpenContinuous]
  split_ifs with hzero
  · exact wp_ret.2 (.inl ⟨rfl, .refl hs⟩)
  rcases getAlignedBlockIndex_spec numPages alignPages with ⟨hlt, -⟩ | ⟨-, index, hindex, heq, hfits⟩
  · exact absurd hlt (not_lt.2 (Nat.max_le.2 ⟨hnum, halign⟩))
  rw [heq, wp_bind]
  refine wp_mono (allocateAlignedFrom_spec hindex hfits hpos (s.order pool dir) s hs fun m hm =>
    hs.mem_order hm) ?_
  rintro ⟨chosen, s₁⟩ held ⟨rfl, ⟨rfl, hnone⟩ | ⟨m, block, rfl, hm, hwithin, htook⟩⟩
  · exact wp_ret.2 (.inl ⟨rfl, hnone⟩)
  · have hinside : InRegion s₁ m block numPages := by
      refine htook.managed.inRegion (htook.heaps.layout.numManagers ▸ hm) htook.aligned_page (by omega) fun x hx => ?_
      exact (htook.heaps.layout.within m x).2 (hwithin x hx)
    have hopen := manages_openFrom (fun refCount => refCount == 1) s₁ m block numPages htook.managed hinside
      fun x hx hfree => ((htook.taken x).1 hfree).2 hx
    rw [wp_bind] at hopen
    dsimp only
    rw [wp_bind]
    refine wp_mono hopen ?_
    rintro impl held hret
    obtain ⟨-, hranged, -⟩ := wp_ret.1 hret
    refine wp_ret.2 (.inr ⟨by omega, fun x hx => ⟨m, hm, hwithin x hx⟩, ?_, s₁, htook, hranged⟩)
    exact hinside.finish.trans (htook.managed.below m hinside.manager)

/-- What a request comes to that does not fit in the largest block: the heap of the first manager of the pool
looks outside of its blocks, and a pool without managers has nothing. -/
theorem allocateAndOpenContinuous_of_large (hnum : numPages ≠ 0)
    (hlarge : maxBlockNumPages < max numPages alignPages) (pool : Pool) (dir : Direction) :
    s.allocateAndOpenContinuous numPages alignPages pool dir =
      if s.order pool dir = [] then .ret (0, s) true else .fault := by
  rcases getAlignedBlockIndex_spec numPages alignPages with ⟨-, heq⟩ | ⟨hle, -⟩
  · rw [allocateAndOpenContinuous, if_neg hnum, heq]
    cases s.order pool dir with
    | nil => rfl
    | cons m rest => rfl
  · exact absurd hlarge (not_lt.2 hle)

/-- **`AllocateAndOpenContinuous`**, when it does not fault. -/
theorem Managed.allocateAndOpenContinuous_returns (hs : Managed s) (hpos : 0 < alignPages) (pool : Pool)
    (dir : Direction) : wlp (s.allocateAndOpenContinuous numPages alignPages pool dir) fun r _ =>
      Opens s numPages alignPages r ∧ (r.1 ≠ 0 → alignPages ≤ maxBlockNumPages) := by
  rcases Nat.lt_or_ge maxBlockNumPages (max numPages alignPages) with hlarge | hle
  · by_cases hzero : numPages = 0
    · rw [allocateAndOpenContinuous, if_pos hzero]
      exact wlp_ret.2 ⟨.inl ⟨rfl, .refl hs⟩, fun hne => absurd rfl hne⟩
    rw [allocateAndOpenContinuous_of_large hzero hlarge]
    split_ifs
    · exact wlp_ret.2 ⟨.inl ⟨rfl, .refl hs⟩, fun hne => absurd rfl hne⟩
    · exact wlp_fault
  · obtain ⟨hnum, halign⟩ := Nat.max_le.1 hle
    refine wlp_mono (wlp_of_wp (hs.allocateAndOpenContinuous_spec hnum hpos halign pool dir)) ?_
    exact fun r _ hopens => ⟨hopens, fun _ => halign⟩

/-! ### When a call is safe -/

/-- There are no references to a page that is free. -/
def Idle (s : KMemoryManager) : Prop := ∀ x, s.IsFree x → s.refCount x = 0

/-- What an allocation of these pages does: they were free and have one reference each now, and nothing else
changes. -/
structure Allocates (s : KMemoryManager) (pages : List ℕ) (s' : KMemoryManager) : Prop where
  managed : Managed s'
  layout : SameLayout s s'
  taken : ∀ x ∈ pages, s.IsFree x ∧ ¬s'.IsFree x ∧ s'.refCount x = 1
  kept : ∀ x, PageSize ∣ x → x ∉ pages → (s'.IsFree x ↔ s.IsFree x) ∧ s'.refCount x = s.refCount x

/-- What `AllocateAndOpenContinuous` gives, as pages. -/
theorem Opens.allocates {r : ℕ × KMemoryManager} (h : Opens s numPages alignPages r) (hidle : Idle s) :
    Allocates s (if r.1 = 0 then [] else pageList r.1 numPages) r.2 := by
  rcases h with ⟨hzero, hnone⟩ | ⟨-, -, -, s₁, htook, hranged⟩
  · rw [if_pos hzero]
    exact ⟨hnone.managed, hnone.heaps.layout, fun x hx => absurd hx List.not_mem_nil,
      fun x _ _ => ⟨hnone.free x, hnone.heaps.refCount x⟩⟩
  · rw [if_neg htook.nonzero]
    have hfree : ∀ x, r.2.IsFree x ↔ s.IsFree x ∧ x ∉ rangePages r.1 numPages := fun x => by
      rw [hranged.free, htook.taken]
      exact or_iff_left List.not_mem_nil
    refine ⟨hranged.managed, htook.heaps.layout.trans hranged.layout, fun x hx => ?_, fun x hpage hx => ?_⟩
    · rw [mem_pageList] at hx
      have hwas := htook.wasFree x hx
      refine ⟨hwas, fun h => ((hfree x).1 h).2 hx, ?_⟩
      rw [hranged.refCount x (dvd_of_mem_rangePages htook.aligned_page hx), if_pos hx, htook.heaps.refCount, hidle x hwas]
      rfl
    · rw [mem_pageList] at hx
      refine ⟨(hfree x).trans (and_iff_left hx), ?_⟩
      rw [hranged.refCount x hpage, if_neg hx, htook.heaps.refCount]

/-- What a call has to return: 0, without a change, or the address of a range that was free, which is aligned as
it was asked for, and to whose pages there is one reference each now. -/
def Safely (s : KMemoryManager) (numPages alignPages : ℕ) (r : ℕ × KMemoryManager) : Prop :=
  (r.1 = 0 ∧ (∀ x, r.2.IsFree x ↔ s.IsFree x) ∧ ∀ x, r.2.refCount x = s.refCount x) ∨
    (r.1 ≠ 0 ∧ alignPages * PageSize ∣ r.1 ∧
      (∀ x ∈ rangePages r.1 numPages, s.IsFree x ∧ ¬r.2.IsFree x ∧ r.2.refCount x = 1) ∧
      ∀ x, PageSize ∣ x → x ∉ rangePages r.1 numPages →
        (r.2.IsFree x ↔ s.IsFree x) ∧ r.2.refCount x = s.refCount x)

theorem Opens.safely {r : ℕ × KMemoryManager} (h : Opens s numPages alignPages r) (hidle : Idle s)
    (halign : ∃ k, alignPages = 2 ^ k) : Safely s numPages alignPages r := by
  have ha := h.allocates hidle
  rcases h with ⟨hzero, hnone⟩ | ⟨-, -, -, s₁, htook, -⟩
  · exact .inl ⟨hzero, hnone.free, hnone.heaps.refCount⟩
  rw [if_neg htook.nonzero] at ha
  refine .inr ⟨htook.nonzero, ?_, fun x hx => ha.taken x (mem_pageList.2 hx), fun x hpage hx =>
    ha.kept x hpage fun hmem => hx (mem_pageList.1 hmem)⟩
  obtain ⟨k, rfl⟩ := halign
  have hsize : 2 ^ k * PageSize = 2 ^ (k + 12) := (Nat.pow_add 2 k 12).symm
  rw [hsize]
  exact htook.aligned (k + 12) (by rw [hsize])

/-- **`AllocateAndOpenContinuous` is safe** just when no pages are asked for, when the pool has no managers, or
when neither the pages nor the alignment exceed the largest block. -/
theorem Managed.allocateAndOpenContinuous_iff (hs : Managed s) (hidle : Idle s) (halign : ∃ k, alignPages = 2 ^ k)
    (pool : Pool) (dir : Direction) :
    Exec.wp (s.allocateAndOpenContinuous numPages alignPages pool dir)
      (fun r _ => Safely s numPages alignPages r) ↔
      numPages = 0 ∨ s.poolManagers pool = [] ∨ max numPages alignPages ≤ maxBlockNumPages := by
  have horder : s.order pool dir = [] ↔ s.poolManagers pool = [] := by
    cases dir with
    | fromFront => exact .rfl
    | fromBack => exact List.reverse_eq_nil_iff
  have hpos : 0 < alignPages := by
    obtain ⟨k, rfl⟩ := halign
    exact Nat.two_pow_pos k
  have hreturns : Exec.wlp (s.allocateAndOpenContinuous numPages alignPages pool dir) fun r _ =>
      Opens s numPages alignPages r ∧ (r.1 ≠ 0 → alignPages ≤ maxBlockNumPages) :=
    hs.allocateAndOpenContinuous_returns hpos pool dir
  constructor
  · intro hsafe
    by_contra hnot
    rw [not_or, not_or, not_le] at hnot
    obtain ⟨hnum, hpool, hlarge⟩ := hnot
    rw [allocateAndOpenContinuous_of_large hnum hlarge, if_neg (mt horder.1 hpool)] at hsafe
    exact Exec.wp_fault.1 hsafe
  · intro hcase
    -- the call returns, and then it is one of the two
    suffices hsome : ∃ r held, s.allocateAndOpenContinuous numPages alignPages pool dir = .ret r held by
      obtain ⟨r, held, hdid⟩ := hsome
      exact ⟨r, held, hdid, (hreturns r held hdid).1.safely hidle halign⟩
    rcases Nat.lt_or_ge maxBlockNumPages (max numPages alignPages) with hlarge | hle
    · by_cases hzero : numPages = 0
      · exact ⟨(0, s), true, by rw [allocateAndOpenContinuous, if_pos hzero]; rfl⟩
      · have hpool : s.poolManagers pool = [] :=
          (hcase.resolve_left hzero).resolve_right (not_le.2 hlarge)
        exact ⟨(0, s), true, by rw [allocateAndOpenContinuous_of_large hzero hlarge, if_pos (horder.2 hpool)]⟩
    · obtain ⟨k, rfl⟩ := halign
      obtain ⟨hnum, halign⟩ := Nat.max_le.1 hle
      obtain ⟨r, held, hdid, -⟩ := hs.allocateAndOpenContinuous_spec hnum (Nat.two_pow_pos k) halign pool dir
      exact ⟨r, held, hdid⟩

/-! ### A manager of some pages -/

/-- A manager of the system's pool. -/
def oneManager (numPages : ℕ) (h : KPageHeap) : KMemoryManager :=
  ⟨fun _ => ⟨h, fun _ => 0, numPages⟩, 1, fun pool => if pool = .system then [0] else []⟩

theorem managed_one {h : KPageHeap} (hlive : h.Live) (hbelow : h.getEndAddress ≤ 2 ^ 44)
    (hsize : h.heapSize = numPages * PageSize) : (oneManager numPages h).Managed := by
  refine ⟨fun _ _ => hlive, fun i hi j hj hne => ?_, fun _ _ => hbelow, fun pool i hi => ?_, fun pool => ?_,
    fun i hi => ?_⟩
  · have hi' : i < 1 := hi
    have hj' : j < 1 := hj
    omega
  · cases pool <;> simp [oneManager] at hi ⊢
    exact hi
  · cases pool <;> simp [oneManager]
  · show h.heapSize / PageSize ≤ numPages
    rw [hsize, Nat.mul_div_cancel _ (by decide)]

/-- A heap that is given its pages makes such a manager. -/
theorem exists_pages (hpos : 0 < numPages) (hheld : (filled 0x80000000 numPages).held = true)
    (hend : 0x80000000 + numPages * PageSize ≤ 2 ^ 44) : ∃ h, filled 0x80000000 numPages = .ret h true ∧
      (oneManager numPages h).Managed := by
  obtain ⟨h, hdid⟩ : ∃ h, filled 0x80000000 numPages = .ret h true := by
    cases hfilled : filled 0x80000000 numPages with
    | fault =>
      rw [hfilled] at hheld
      cases hheld
    | ret h held =>
      rw [hfilled] at hheld
      cases hheld
      exact ⟨h, rfl⟩
  obtain ⟨hlive, haddress, hsize, -⟩ := filled_live (by decide) hpos hdid rfl
  refine ⟨h, hdid, managed_one hlive ?_ hsize⟩
  rwa [KPageHeap.getEndAddress, haddress, hsize]

/-- There are no references to its pages. -/
theorem refCount_one (h : KPageHeap) (x : ℕ) : (oneManager numPages h).refCount x = 0 := by
  rw [refCount]
  cases (List.range (oneManager numPages h).numManagers).find? fun m => (oneManager numPages h).Within m x <;> rfl

/-- A manager of 40 pages, and what an allocation of five of them at a multiple of four leaves. -/
theorem exists_allocated : ∃ h s', filled 0x80000000 40 = .ret h true ∧ (oneManager 40 h).Managed ∧
    (oneManager 40 h).allocateAndOpenContinuous 5 4 .system .fromBack = .ret (0x80000000, s') true := by
  obtain ⟨h, hdid, hmanaged⟩ := @exists_pages 40 (by decide) (by decide +kernel) (by decide)
  have hrun : (do
      let h ← filled 0x80000000 40
      let r ← (oneManager 40 h).allocateAndOpenContinuous 5 4 .system .fromBack
      return r.1) = ret 0x80000000 true := by decide +kernel
  rw [hdid, ret_true_bind] at hrun
  cases hcall : (oneManager 40 h).allocateAndOpenContinuous 5 4 .system .fromBack with
  | fault =>
    rw [hcall] at hrun
    cases hrun
  | ret r held =>
    obtain ⟨address, s'⟩ := r
    rw [hcall] at hrun
    obtain ⟨haddress, hheld⟩ := ret.inj hrun
    obtain rfl : address = 0x80000000 := haddress
    obtain rfl : held = true := (Bool.and_true held).symm.trans hheld
    exact ⟨h, s', hdid, hmanaged, hcall⟩

/-- Those five pages are allocated safely. -/
theorem allocateAndOpenContinuous_iff_pages : ∃ h s', (oneManager 40 h).Managed ∧
    (oneManager 40 h).allocateAndOpenContinuous 5 4 .system .fromBack = .ret (0x80000000, s') true ∧
      Safely (oneManager 40 h) 5 4 (0x80000000, s') := by
  obtain ⟨h, s', -, hmanaged, hcall⟩ := exists_allocated
  have hsafe := (hmanaged.allocateAndOpenContinuous_iff (fun x _ => refCount_one h x) ⟨2, rfl⟩ .system .fromBack).2
    (.inr (.inr (show max 5 (2 ^ 2) ≤ maxBlockNumPages by decide)))
  exact ⟨h, s', hmanaged, hcall, Exec.wp_ret.1 (hcall ▸ hsafe)⟩

/-- **More pages than the largest block has**: the heap looks at the block before its first one. -/
theorem large_request_faults : ∃ s, Managed s ∧ Idle s ∧
    s.allocateAndOpenContinuous 262145 1 .system .fromBack = .fault ∧
    ¬Exec.wp (s.allocateAndOpenContinuous 262145 1 .system .fromBack) fun r _ => Safely s 262145 1 r := by
  obtain ⟨h, -, hmanaged⟩ := @exists_pages 1 (by decide) (by decide +kernel) (by decide)
  have hfault : (oneManager 1 h).allocateAndOpenContinuous 262145 1 .system .fromBack = .fault := by
    rw [allocateAndOpenContinuous_of_large (by decide) (by decide)]
    exact if_neg (List.cons_ne_nil 0 [])
  refine ⟨oneManager 1 h, hmanaged, fun x _ => refCount_one h x, hfault, fun hsafe => ?_⟩
  rw [hfault] at hsafe
  exact Exec.wp_fault.1 hsafe

end KMemoryManager

end Kernel
end NXEmu
