/-
# Shared memory

`k_shared_memory.cpp`.  `Initialize` reserves as many bytes as it is asked for, allocates whole host pages for
them, and puts the pages that it was asked for in a group; what is left of the last host page is padding.
`Finalize` closes the pages of the group and the padding, and releases the bytes of the whole guest pages.

That is more than was reserved unless the size is a multiple of the page size, and the counter of the resource
limit goes down by the difference.  And where there is no block info for the group, `Initialize` succeeds all
the same, and the pages are never closed (`KSharedMemory.balanced_iff`).

A `Reserve` that waits finds the counters as they were when it wakes: nobody else is at work here.
-/

import NXEmu.Kernel.ResourceLimit
import NXEmu.Kernel.MemoryManagerContinuous

namespace NXEmu
namespace Kernel

open Common Exec

/-- What `Initialize` returns. -/
inductive SharedMemoryResult where
  | success
  | limitReached
  | outOfMemory
deriving DecidableEq

/-- What of the kernel `KSharedMemory` works on: the memory manager, the counters of `PhysicalMemoryMax`, and the
block infos that are left. -/
structure Resources where
  memoryManager : KMemoryManager
  physicalMemoryMax : Counters
  blockInfos : ℕ

/-- `KSharedMemory`. -/
structure KSharedMemory where
  size : ℕ
  physicalAddress : ℕ
  paddingPages : ℕ
  pageGroup : KPageGroup

/-- A `Reserve` that has waited: it looks again at every tick at which it wakes, and for the last time when its
time is up. -/
def Counters.reserveAwake (c : Counters) (value timeout : ℤ) : List ℤ → Exec (Option Counters)
  | [] => do
    match ← c.reserveRound value timeout timeout with
    | .granted c' => return some c'
    | _ => return none
  | tick :: ticks => do
    match ← c.reserveRound value timeout tick with
    | .granted c' => return some c'
    | .refused => return none
    | .waits => c.reserveAwake value timeout ticks

/-- The constructor of `KScopedResourceReservation`: the counters when it succeeds. -/
def Counters.reservation (c : Counters) (value timeout tick : ℤ) (ticks : List ℤ) : Exec (Option Counters) :=
  if value = 0 then return some c
  else do
    match ← c.reserve value timeout tick with
    | .granted c' => return some c'
    | .refused => return none
    | .waits => c.reserveAwake value timeout ticks

/-- The destructor of `KScopedResourceReservation`, when it was not committed. -/
def Counters.unreserved (c : Counters) (value : ℤ) : Exec Counters :=
  if value = 0 then return c else c.release value value

namespace KPageGroup

/-- `Close`, with the ranges that it closes. -/
def closeBlocks : List KBlockInfo → KMemoryManager → Exec (KMemoryManager × List (ℕ × ℕ))
  | [], s => return (s, [])
  | block :: rest, s => do
    let (s, _) ← s.close block.getAddress block.numPages
    let (s, closed) ← closeBlocks rest s
    return (s, (block.getAddress, block.numPages) :: closed)

end KPageGroup

namespace KSharedMemory

variable {k : Resources} {size hostRatio : ℕ} {timeout tick : ℤ} {ticks : List ℤ}

/-- `Initialize`; the ratio is that of `GuestPagesPerHostPage`, and `Pool::Secure` is the pool of the system. -/
def initialized (k : Resources) (size hostRatio : ℕ) (timeout tick : ℤ) (ticks : List ℤ) :
    Exec (SharedMemoryResult × Resources × KSharedMemory) := do
  let mSize := alignUp size PageSize % 2 ^ 64
  let numPages := (size + (PageSize - 1)) % 2 ^ 64 / PageSize
  let value := (BitVec.ofNat 64 size).toInt
  match ← k.physicalMemoryMax.reservation value timeout tick ticks with
  | none => return (.limitReached, k, ⟨mSize, 0, 0, ⟨[], 0⟩⟩)
  | some counters => do
    let allocatedPages := alignUp numPages hostRatio % 2 ^ 64
    let (address, manager) ← k.memoryManager.allocateAndOpenContinuous allocatedPages hostRatio .system .fromBack
    if address = 0 then do
      let counters ← counters.unreserved value
      return (.outOfMemory, ⟨manager, counters, k.blockInfos⟩, ⟨mSize, 0, 0, ⟨[], 0⟩⟩)
    else do
      let (_, group) ← KPageGroup.addBlock ⟨[], k.blockInfos⟩ address numPages
      return (.success, ⟨manager, counters, group.infos⟩, ⟨mSize, address, allocatedPages - numPages, group⟩)

/-- The padding that `Finalize` closes. -/
def closePadding (m : KSharedMemory) (s : KMemoryManager) : Exec (KMemoryManager × List (ℕ × ℕ)) :=
  if m.paddingPages ≠ 0 then do
    let (s, _) ← s.close (m.physicalAddress + m.size) m.paddingPages
    return (s, [(m.physicalAddress + m.size, m.paddingPages)])
  else return (s, [])

/-- `Finalize`, with the ranges that it closes. -/
def finalize (k : Resources) (m : KSharedMemory) : Exec (Resources × List (ℕ × ℕ)) := do
  let (manager, closed) ← KPageGroup.closeBlocks m.pageGroup.blocks k.memoryManager
  let group := { m.pageGroup with infos := k.blockInfos }.finalized
  let (manager, padding) ← m.closePadding manager
  let counters ← k.physicalMemoryMax.release m.size m.size
  return (⟨manager, counters, group.infos⟩, closed ++ padding)

end KSharedMemory

/-! ### The reservation -/

namespace Counters

variable {c : Counters} {value timeout tick : ℤ}

/-- A reservation is refused, or granted. -/
def Reserves (c : Counters) (value : ℤ) (r : Option Counters) : Prop :=
  r = none ∨ ∃ c', r = some c' ∧ Ends c value (.granted c')

theorem reserveAwake_spec (hc : InOrder c) (hvalue : IsS64 value) (timeout : ℤ) : ∀ ticks,
    wp (c.reserveAwake value timeout ticks) fun r _ => Reserves c value r := by
  intro ticks
  induction ticks with
  | nil =>
    rw [reserveAwake, wp_bind]
    refine wp_mono (reserveRound_spec hc hvalue timeout timeout) ?_
    rintro round held ⟨-, hends⟩
    cases hends with
    | refused => exact wp_ret.2 (.inl rfl)
    | waits => exact wp_ret.2 (.inl rfl)
    | granted hpos hle => exact wp_ret.2 (.inr ⟨_, rfl, .granted hpos hle⟩)
  | cons tick ticks ih =>
    rw [reserveAwake, wp_bind]
    refine wp_mono (reserveRound_spec hc hvalue timeout tick) ?_
    rintro round held ⟨-, hends⟩
    cases hends with
    | refused => exact wp_ret.2 (.inl rfl)
    | waits => exact wp_mono ih fun _ _ h => h
    | granted hpos hle => exact wp_ret.2 (.inr ⟨_, rfl, .granted hpos hle⟩)

theorem reservation_spec (hc : InOrder c) (hvalue : IsS64 value) (hne : value ≠ 0) (timeout tick : ℤ)
    (ticks : List ℤ) : wp (c.reservation value timeout tick ticks) fun r _ => Reserves c value r := by
  rw [reservation, if_neg hne, wp_bind]
  refine wp_mono (reserve_spec hc hvalue timeout tick) ?_
  rintro round held ⟨-, hends⟩
  cases hends with
  | refused => exact wp_ret.2 (.inl rfl)
  | waits => exact wp_mono (reserveAwake_spec hc hvalue timeout ticks) fun _ _ h => h
  | granted hpos hle => exact wp_ret.2 (.inr ⟨_, rfl, .granted hpos hle⟩)

theorem release_spec (c : Counters) (value hint : ℤ) : wp (c.release value hint) fun c' _ =>
    c' = { c with currentValue := c.currentValue - value, currentHint := c.currentHint - hint } := by
  rw [release]
  simp only [wp_bind, wp_assert]
  exact wp_ret.2 rfl

end Counters

theorem isS64_toInt (v : BitVec 64) : IsS64 v.toInt :=
  ⟨BitVec.le_toInt v, BitVec.toInt_lt⟩

/-- A size that is positive as an `s64` is itself. -/
theorem toInt_size {size : ℕ} (hbound : size < 2 ^ 64) (hpos : 0 < (BitVec.ofNat 64 size).toInt) :
    size < 2 ^ 63 ∧ (BitVec.ofNat 64 size).toInt = size := by
  have hnat : (BitVec.ofNat 64 size).toNat = size := by
    rw [BitVec.toNat_ofNat]
    exact Nat.mod_eq_of_lt hbound
  rw [BitVec.toInt_eq_toNat_cond, hnat] at hpos ⊢
  split_ifs at hpos ⊢ <;> omega

theorem toInt_size_ne_zero {size : ℕ} (hpos : 0 < size) (hbound : size < 2 ^ 64) :
    (BitVec.ofNat 64 size).toInt ≠ 0 := by
  have hnat : (BitVec.ofNat 64 size).toNat = size := by
    rw [BitVec.toNat_ofNat]
    exact Nat.mod_eq_of_lt hbound
  rw [BitVec.toInt_eq_toNat_cond, hnat]
  split_ifs <;> omega

/-! ### Initialize -/

/-- What `Opens` says of an allocation that was made, page by page. -/
theorem KMemoryManager.Opens.pages {s : KMemoryManager} {numPages alignPages : ℕ} {r : ℕ × KMemoryManager}
    (h : s.Opens numPages alignPages r) (hne : r.1 ≠ 0) :
    r.2.Managed ∧ 0 < numPages ∧ PageSize ∣ r.1 ∧ r.1 + numPages * PageSize ≤ 2 ^ 44 ∧
      r.2.Covers r.1 numPages ∧ (∀ x ∈ rangePages r.1 numPages, ¬r.2.IsFree x) ∧
      ∀ x, PageSize ∣ x → r.2.refCount x =
        if x ∈ rangePages r.1 numPages then s.refCount x + 1 else s.refCount x := by
  rcases h with ⟨hzero, -⟩ | ⟨hpos, hcovers, hbound, s₁, htook, hranged⟩
  · exact absurd hzero hne
  refine ⟨hranged.managed, hpos, htook.aligned_page, hbound, fun x hx => ?_, fun x hx hfree => ?_, fun x hx => ?_⟩
  · obtain ⟨m, hm, hwithin⟩ := hcovers x hx
    refine ⟨m, ?_, (hranged.layout.within m x).2 ((htook.heaps.layout.within m x).2 hwithin)⟩
    rw [hranged.layout.numManagers, htook.heaps.layout.numManagers]
    exact hm
  · rw [hranged.free] at hfree
    rcases hfree with hfree | hnone
    · exact ((htook.taken x).1 hfree).2 hx
    · cases hnone
  · rw [hranged.refCount x hx, htook.heaps.refCount]

/-- Without a block info, a block is not added to an empty group. -/
theorem KPageGroup.addBlock_refused {addr numPages : ℕ} {r : AllocationResult × KPageGroup} {held : Bool}
    (hpos : 0 < numPages) (hrun : KPageGroup.addBlock ⟨[], 0⟩ addr numPages = .ret r held) : r.1 ≠ .success := by
  have hwlp : wlp (KPageGroup.addBlock ⟨[], 0⟩ addr numPages) fun r _ => r.1 ≠ .success := by
    rw [KPageGroup.addBlock, if_neg hpos.ne', wlp_bind, wlp_assert]
    exact wlp_ret.2 AllocationResult.noConfusion
  exact hwlp r held hrun

theorem alignUp_pageSize (size : ℕ) : alignUp size PageSize = (size + (PageSize - 1)) / PageSize * PageSize := by
  rw [alignUp]
  simp only [PageSize]
  split_ifs <;> omega

namespace KSharedMemory

/-- The pages that are opened: those of the group and the padding. -/
def opened (m : KSharedMemory) : List ℕ := pageList m.physicalAddress (m.size / PageSize + m.paddingPages)

/-- The counter and its hint are as they were. -/
def Kept (k k' : Resources) : Prop :=
  k'.physicalMemoryMax.currentValue = k.physicalMemoryMax.currentValue ∧
    k'.physicalMemoryMax.currentHint = k.physicalMemoryMax.currentHint

/-- **What an `Initialize` that succeeds leaves.** -/
structure Initialized (k : Resources) (size : ℕ) (k' : Resources) (m : KSharedMemory) : Prop where
  managed : k'.memoryManager.Managed
  rounded : m.size = alignUp size PageSize
  aligned : PageSize ∣ m.physicalAddress
  covers : k'.memoryManager.Covers m.physicalAddress (m.size / PageSize + m.paddingPages)
  used : ∀ x ∈ m.opened, ¬k'.memoryManager.IsFree x
  refCount : ∀ x, PageSize ∣ x → k'.memoryManager.refCount x =
    if x ∈ m.opened then k.memoryManager.refCount x + 1 else k.memoryManager.refCount x
  currentValue : k'.physicalMemoryMax.currentValue = k.physicalMemoryMax.currentValue + size
  currentHint : k'.physicalMemoryMax.currentHint = k.physicalMemoryMax.currentHint + size
  group : m.pageGroup.blocks =
    if k.blockInfos = 0 then [] else [⟨m.physicalAddress / PageSize, m.size / PageSize⟩]

variable {k : Resources} {size hostRatio : ℕ}

theorem initialized_spec (hk : k.memoryManager.Managed) (hc : k.physicalMemoryMax.InOrder) (hsize : 0 < size)
    (hbound : size < 2 ^ 64) (hratio : 0 < hostRatio) (timeout tick : ℤ) (ticks : List ℤ) :
    wlp (initialized k size hostRatio timeout tick ticks) fun r _ =>
      (r.1 ≠ .success ∧ Kept k r.2.1) ∨ (r.1 = .success ∧ Initialized k size r.2.1 r.2.2) := by
  simp only [initialized]
  rw [wlp_bind]
  refine wlp_mono (wlp_of_wp (Counters.reservation_spec hc (isS64_toInt _)
    (toInt_size_ne_zero hsize hbound) timeout tick ticks)) ?_
  rintro _ _ (rfl | ⟨counters, rfl, hends⟩)
  · exact wlp_ret.2 (.inl ⟨SharedMemoryResult.noConfusion, rfl, rfl⟩)
  have hpos : 0 < (BitVec.ofNat 64 size).toInt := by
    cases hends with
    | granted hpos _ => exact hpos
  obtain ⟨hsmall, hvalue⟩ := toInt_size hbound hpos
  dsimp only
  rw [wlp_bind]
  refine wlp_mono (hk.allocateAndOpenContinuous_returns hratio .system .fromBack) ?_
  rintro ⟨address, manager⟩ _ ⟨hopens, hlarge⟩
  dsimp only
  split_ifs with hzero
  · -- nothing is allocated, and the reservation is given back
    rw [Counters.unreserved, if_neg hpos.ne', wlp_bind]
    refine wlp_mono (wlp_of_wp (Counters.release_spec _ _ _)) ?_
    rintro _ _ rfl
    refine wlp_ret.2 (.inl ⟨SharedMemoryResult.noConfusion, ?_⟩)
    cases hends with
    | granted _ _ => exact ⟨Int.add_sub_cancel _ _, Int.add_sub_cancel _ _⟩
  -- no rounding goes past 64 bits
  have hratio' : hostRatio ≤ 262144 := (hlarge hzero).trans (by decide)
  have hnum : (size + (PageSize - 1)) % 2 ^ 64 / PageSize = (size + (PageSize - 1)) / PageSize := by
    rw [Nat.mod_eq_of_lt (by simp only [PageSize]; omega)]
  rw [hnum] at hopens ⊢
  have hround := alignUp_pageSize size
  have hsome : 0 < (size + (PageSize - 1)) / PageSize := by simp only [PageSize]; omega
  have hfew : (size + (PageSize - 1)) / PageSize * PageSize < 2 ^ 64 := by simp only [PageSize]; omega
  generalize (size + (PageSize - 1)) / PageSize = numPages at hround hopens hsome hfew ⊢
  have hwhole : numPages + hostRatio < 2 ^ 64 := by simp only [PageSize] at hfew; omega
  have hlt := alignUp_lt numPages hratio
  have hle := le_alignUp numPages hratio
  rw [Nat.mod_eq_of_lt (hlt.trans hwhole)] at hopens ⊢
  rw [hround, Nat.mod_eq_of_lt hfew]
  obtain ⟨hmanaged, -, halign, hfinish, hcovers, hused, hcount⟩ := hopens.pages hzero
  dsimp only at hfinish halign hcovers hused hcount
  have hpages : numPages * PageSize / PageSize + (alignUp numPages hostRatio - numPages) =
      alignUp numPages hostRatio := by
    rw [Nat.mul_div_cancel _ (by decide), Nat.add_sub_cancel' hle]
  rw [wlp_bind]
  intro added held hrun
  obtain ⟨-, hadded⟩ := wlp_of_wp (KPageGroup.addBlock_spec (g := ⟨[], k.blockInfos⟩) (by simp) halign
    (Nat.pos_of_ne_zero hzero) hsome
    ((Nat.add_le_add_left (Nat.mul_le_mul_right PageSize hle) address).trans hfinish)) added held hrun
  obtain ⟨result, group⟩ := added
  refine wlp_ret.2 (.inr ⟨rfl, hmanaged, hround.symm, halign, ?_, ?_, ?_, ?_, ?_, ?_⟩)
  · dsimp only
    rw [hpages]
    exact hcovers
  · intro x hx
    rw [opened, hpages] at hx
    exact hused x (mem_pageList.1 hx)
  · intro x hx
    rw [hcount x hx, opened, hpages]
    exact if_congr mem_pageList.symm rfl rfl
  · cases hends with
    | granted _ _ => exact congrArg (_ + ·) hvalue
  · cases hends with
    | granted _ _ => exact congrArg (_ + ·) hvalue
  · rcases hadded with ⟨hsuccess, hadded, -⟩ | ⟨-, rfl, hinfos⟩
    · have hinfos : k.blockInfos ≠ 0 := by
        rintro hnone
        rw [hnone] at hrun
        exact KPageGroup.addBlock_refused hsome hrun hsuccess
      rw [if_neg hinfos, Nat.mul_div_cancel _ (by decide)]
      cases hadded with
      | concatenated before last hblocks _ _ => exact absurd hblocks (by simp)
      | appended _ hblocks => exact hblocks
    · rw [if_pos hinfos]

/-! ### Finalize -/

variable {k' : Resources} {m : KSharedMemory}

theorem Initialized.split (h : Initialized k size k' m) : PageSize ∣ m.size ∧
    m.opened = pageList m.physicalAddress (m.size / PageSize) ++
      pageList (m.physicalAddress + m.size) m.paddingPages := by
  have hdvd : PageSize ∣ m.size := by
    rw [h.rounded]
    exact dvd_alignUp _ _
  refine ⟨hdvd, ?_⟩
  rw [opened, pageList_add, Nat.div_mul_cancel hdvd]

/-- The group is closed, if it has a block. -/
theorem Initialized.closeBlocks_spec (h : Initialized k size k' m) :
    wp (KPageGroup.closeBlocks m.pageGroup.blocks k'.memoryManager) fun r _ => r.1.Managed ∧
      KMemoryManager.SameLayout k'.memoryManager r.1 ∧
      (∀ x, r.1.IsFree x → k'.memoryManager.IsFree x ∨ x ∈ pageList m.physicalAddress (m.size / PageSize)) ∧
      pagesOf r.2 = if k.blockInfos = 0 then [] else pageList m.physicalAddress (m.size / PageSize) := by
  obtain ⟨-, hsplit⟩ := h.split
  rw [h.group]
  split_ifs with hinfos
  · exact wp_ret.2 ⟨h.managed, .refl _, fun x hx => .inl hx, rfl⟩
  · have haddress : (⟨m.physicalAddress / PageSize, m.size / PageSize⟩ : KBlockInfo).getAddress =
        m.physicalAddress := Nat.div_mul_cancel h.aligned
    rw [KPageGroup.closeBlocks, haddress, wp_bind]
    refine wp_mono (h.managed.close_spec h.aligned (fun x hx => ?_) fun x hx => ?_) ?_
    · exact h.covers x (mem_rangePages_add.2 (.inl hx))
    · refine h.used x ?_
      rw [hsplit]
      exact List.mem_append_left _ (mem_pageList.2 hx)
    · rintro ⟨s, handed⟩ held ⟨-, hranged, hhanded⟩
      refine wp_ret.2 ⟨hranged.managed, hranged.layout, fun x hx => ?_, ?_⟩
      · refine ((hranged.free x).1 hx).imp_right fun hx => ?_
        dsimp only at hhanded hx
        rw [hhanded] at hx
        exact List.mem_of_mem_filter hx
      · exact List.append_nil _

/-- **`Finalize`** after an `Initialize` that succeeded: what it closes, and what the counter is then. -/
theorem Initialized.finalize_spec (h : Initialized k size k' m) :
    wp (finalize k' m) fun r _ =>
      r.1.physicalMemoryMax.currentValue = k.physicalMemoryMax.currentValue + size - m.size ∧
      r.1.physicalMemoryMax.currentHint = k.physicalMemoryMax.currentHint + size - m.size ∧
      pagesOf r.2 = if k.blockInfos = 0 then pageList (m.physicalAddress + m.size) m.paddingPages else m.opened := by
  obtain ⟨hdvd, hsplit⟩ := h.split
  have hmul : m.size / PageSize * PageSize = m.size := Nat.div_mul_cancel hdvd
  rw [finalize, wp_bind]
  refine wp_mono h.closeBlocks_spec ?_
  rintro ⟨s, closed⟩ _ ⟨hmanaged, hlayout, hfree, hclosed⟩
  have hpadding : wp (m.closePadding s) fun r _ =>
      pagesOf r.2 = pageList (m.physicalAddress + m.size) m.paddingPages := by
    rw [closePadding]
    split_ifs with hnone
    · rw [wp_bind]
      refine wp_mono (hmanaged.close_spec (Nat.dvd_add h.aligned hdvd) (fun x hx => ?_) fun x hx hx' => ?_) ?_
      · obtain ⟨i, hi, hwithin⟩ := h.covers x (mem_rangePages_add.2 (.inr (by rwa [hmul])))
        exact ⟨i, hlayout.numManagers ▸ hi, (hlayout.within i x).2 hwithin⟩
      · rcases hfree x hx' with hfree | hfirst
        · refine h.used x ?_ hfree
          rw [hsplit]
          exact List.mem_append_right _ (mem_pageList.2 hx)
        · rw [← hmul] at hx
          exact not_mem_rangePages_of_next hx (mem_pageList.1 hfirst)
      · exact fun r held _ => wp_ret.2 (List.append_nil _)
    · obtain hzero : m.paddingPages = 0 := not_not.1 hnone
      rw [hzero]
      exact wp_ret.2 rfl
  dsimp only
  rw [wp_bind]
  refine wp_mono hpadding ?_
  rintro ⟨s', padding⟩ _ hpages
  dsimp only at hclosed hpages ⊢
  rw [wp_bind]
  refine wp_mono (Counters.release_spec _ _ _) ?_
  rintro _ _ rfl
  refine wp_ret.2 ⟨?_, ?_, ?_⟩
  · exact congrArg (· - (m.size : ℤ)) h.currentValue
  · exact congrArg (· - (m.size : ℤ)) h.currentHint
  · rw [pagesOf_append, hclosed, hpages]
    split_ifs with hinfos
    · exact List.nil_append _
    · exact hsplit.symm

/-- `Finalize` undoes `Initialize`: the counter is as it was, and every page that was opened is closed once. -/
structure Balanced (k k' : Resources) (m : KSharedMemory) (closed : List (ℕ × ℕ)) : Prop where
  kept : Kept k k'
  closed : (pagesOf closed).Perm m.opened

/-- **A shared memory balances its accounting** just when its size is a multiple of the page size and there is a
block info for its group; an `Initialize` that fails leaves the counter as it was. -/
theorem balanced_iff (hk : k.memoryManager.Managed) (hc : k.physicalMemoryMax.InOrder) (hsize : 0 < size)
    (hbound : size < 2 ^ 64) (hratio : 0 < hostRatio) (timeout tick : ℤ) (ticks : List ℤ) :
    Exec.wlp (initialized k size hostRatio timeout tick ticks) fun r _ =>
      (r.1 ≠ .success → Kept k r.2.1) ∧
      (r.1 = .success → Exec.wp (finalize r.2.1 r.2.2) fun r' _ =>
        Balanced k r'.1 r.2.2 r'.2 ↔ PageSize ∣ size ∧ k.blockInfos ≠ 0) := by
  refine Exec.wlp_mono (initialized_spec hk hc hsize hbound hratio timeout tick ticks) ?_
  rintro ⟨result, k', m⟩ held (⟨hfailed, hkept⟩ | ⟨rfl, hinit⟩)
  · exact ⟨fun _ => hkept, fun hsuccess => absurd hsuccess hfailed⟩
  refine ⟨fun hne => absurd rfl hne, fun _ => ?_⟩
  refine Exec.wp_mono hinit.finalize_spec ?_
  rintro ⟨k'', closed⟩ held ⟨hvalue, hhint, hclosed⟩
  dsimp only at hinit hvalue hhint hclosed ⊢
  have hround := alignUp_pageSize size
  have hrounded := hinit.rounded
  have hexact : m.size = size ↔ PageSize ∣ size := by
    rw [hrounded, hround]
    constructor
    · intro heq
      exact Dvd.intro_left _ heq
    · intro hdvd
      simp only [PageSize] at hdvd ⊢
      omega
  have hsome : 0 < m.size / PageSize := by
    rw [hrounded, hround, Nat.mul_div_cancel _ (by decide)]
    simp only [PageSize]
    omega
  constructor
  · rintro ⟨⟨hkept, -⟩, hperm⟩
    refine ⟨hexact.1 (by rw [hvalue] at hkept; omega), fun hinfos => ?_⟩
    rw [hclosed, if_pos hinfos] at hperm
    have hlength := hperm.length_eq
    rw [opened, length_pageList, length_pageList] at hlength
    omega
  · rintro ⟨hdvd, hinfos⟩
    rw [hexact.2 hdvd] at hvalue hhint
    refine ⟨⟨hvalue.trans (Int.add_sub_cancel _ _), hhint.trans (Int.add_sub_cancel _ _)⟩, ?_⟩
    rw [hclosed, if_neg hinfos]

/-! ### A page of memory -/

/-- Two pages may be reserved, and there is a block info. -/
def resources (h : KPageHeap) : Resources := ⟨.oneManager 1 h, ⟨8192, 0, 0, 0⟩, 1⟩

theorem resources_inOrder (h : KPageHeap) : (resources h).physicalMemoryMax.InOrder :=
  show Counters.InOrder ⟨8192, 0, 0, 0⟩ from ⟨by decide, by decide, by decide, by decide, by decide⟩

/-- A run of `Initialize` on these, as it is evaluated. -/
theorem exists_success {size : ℕ} (heval : (do
      let h ← KMemoryManager.filled 0x80000000 1
      let r ← initialized (resources h) size 1 0 0 []
      return r.1) = ret .success true) : ∃ h r, (resources h).memoryManager.Managed ∧
    initialized (resources h) size 1 0 0 [] = .ret r true ∧ r.1 = .success := by
  obtain ⟨h, hdid, hmanaged⟩ := @KMemoryManager.exists_pages 1 (by decide) (by decide +kernel) (by decide)
  have hwhole : wp (do
      let r ← initialized (resources h) size 1 0 0 []
      return r.1) fun v held => v = .success ∧ held = true := by
    rw [hdid, ret_true_bind] at heval
    exact ⟨_, _, heval, rfl, rfl⟩
  rw [wp_bind] at hwhole
  obtain ⟨r, held, hrun, hret⟩ := hwhole
  obtain ⟨hsuccess, hheld⟩ := wp_ret.1 hret
  rw [Bool.and_true] at hheld
  exact ⟨h, r, hmanaged, hheld ▸ hrun, hsuccess⟩

/-- A page is reserved and released. -/
theorem balanced_iff_page : ∃ h r, (resources h).memoryManager.Managed ∧
    initialized (resources h) 4096 1 0 0 [] = .ret r true ∧ r.1 = .success ∧
    Exec.wp (finalize r.2.1 r.2.2) fun r' _ =>
      Balanced (resources h) r'.1 r.2.2 r'.2 ↔ PageSize ∣ 4096 ∧ (resources h).blockInfos ≠ 0 := by
  obtain ⟨h, r, hmanaged, hrun, hsuccess⟩ := @exists_success 4096 (by decide +kernel)
  exact ⟨h, r, hmanaged, hrun, hsuccess, (balanced_iff hmanaged (resources_inOrder h) (by decide) (by decide)
    Nat.one_pos 0 0 [] r true hrun).2 hsuccess⟩

/-- **A byte is reserved, and a page of bytes is released.** -/
theorem byte_not_balanced : ∃ h r r' held, (resources h).memoryManager.Managed ∧
    (resources h).physicalMemoryMax.InOrder ∧ initialized (resources h) 1 1 0 0 [] = .ret r true ∧
    r.1 = .success ∧ finalize r.2.1 r.2.2 = .ret r' held ∧
    (resources h).physicalMemoryMax.currentValue = 0 ∧ r'.1.physicalMemoryMax.currentValue = -4095 ∧
    ¬Balanced (resources h) r'.1 r.2.2 r'.2 := by
  obtain ⟨h, r, hmanaged, hrun, hsuccess⟩ := @exists_success 1 (by decide +kernel)
  have hinit : Initialized (resources h) 1 r.2.1 r.2.2 := by
    rcases initialized_spec hmanaged (resources_inOrder h) (by decide) (by decide) Nat.one_pos 0 0 [] r true hrun with
      ⟨hfailed, -⟩ | ⟨-, hinit⟩
    · exact absurd hsuccess hfailed
    · exact hinit
  obtain ⟨r', held, hfinal, hvalue, -, -⟩ := hinit.finalize_spec
  have hsize : r.2.2.size = 4096 := hinit.rounded
  rw [hsize, show (resources h).physicalMemoryMax.currentValue = 0 from rfl] at hvalue
  refine ⟨h, r, r', held, hmanaged, resources_inOrder h, hrun, hsuccess, hfinal, rfl, hvalue, fun hbalanced => ?_⟩
  have hkept := hbalanced.kept.1
  rw [hvalue, show (resources h).physicalMemoryMax.currentValue = 0 from rfl] at hkept
  exact absurd hkept (by decide)

end KSharedMemory

end Kernel
end NXEmu
