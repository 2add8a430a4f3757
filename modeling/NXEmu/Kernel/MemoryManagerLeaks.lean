/-
# Where an allocation of a page group leaks

An allocation that fails gives everything back, for every state of the heaps and any group to fill, just
when the managers of the pool are apart (`allocatePageGroupImpl_iff`).

If two are not, a state is at hand in which the allocation fails with a block that goes from one into the
other, of which the handler frees the first part only.  When the manager that comes first in the pool ends
where the other begins, two free pages that meet there do, and three are asked for.  When it is the other
way round, a larger block that ends the later manager is taken before the page that it meets.
-/

import NXEmu.Kernel.MemoryManagerAllocate

namespace NXEmu
namespace Kernel

open Common Buddies Exec List

/-- A list that is not pairwise related has two elements that are not. -/
theorem exists_of_not_pairwise {α : Type} {R : α → α → Prop} : ∀ {l : List α}, ¬l.Pairwise R →
    ∃ l₁ a l₂ b l₃, l = l₁ ++ a :: (l₂ ++ b :: l₃) ∧ ¬R a b
  | [], h => absurd List.Pairwise.nil h
  | x :: l, h => by
    rw [pairwise_cons, not_and_or] at h
    rcases h with h | h
    · push Not at h
      obtain ⟨b, hb, hnot⟩ := h
      obtain ⟨l₂, l₃, rfl⟩ := append_of_mem hb
      exact ⟨[], x, l₂, b, l₃, rfl, hnot⟩
    · obtain ⟨l₁, a, l₂, b, l₃, rfl, hnot⟩ := exists_of_not_pairwise h
      exact ⟨x :: l₁, a, l₂, b, l₃, rfl, hnot⟩

namespace KMemoryManager

variable {s s' : KMemoryManager} {index m addr x : ℕ} {a a' : Allocating} {random : Bool}

/-! ### Rounds that take nothing -/

/-- No block of a size can be taken from a manager. -/
def Refuses (s : KMemoryManager) (m index : ℕ) : Prop :=
  ¬∃ addr, getBlockSize index ∣ addr ∧ rangePages addr (getBlockNumPages index) ⊆ s.freePages m

theorem Refuses.of_few (hfew : (s.freePages m).card < getBlockNumPages index) : Refuses s m index := by
  rintro ⟨addr, -, hsub⟩
  have hcard := Finset.card_le_card hsub
  rw [← toFinset_pageList, toFinset_card_of_nodup (nodup_pageList _ _), length_pageList] at hcard
  omega

/-- Nothing has been taken. -/
structure Still (a a' : Allocating) : Prop where
  managed : Managed a'.manager
  only : OnlyHeaps a.manager a'.manager
  out : a'.out = a.out
  numPages : a'.numPages = a.numPages
  free : ∀ m, a'.manager.freePages m = a.manager.freePages m

theorem Still.trans {a'' : Allocating} (h : Still a a') (h' : Still a' a'') : Still a a'' :=
  ⟨h'.managed, h.only.trans h'.only, h'.out.trans h.out, h'.numPages.trans h.numPages,
    fun m => (h'.free m).trans (h.free m)⟩

theorem Still.refuses (h : Still a a') (hm : Refuses a.manager m index) : Refuses a'.manager m index := by
  rw [Refuses, h.free]
  exact hm

/-- A manager without a block of the size. -/
theorem takeBlocks_still (hs : Managed a.manager) (hm : m < a.manager.numManagers)
    (hindex : index < numMemoryBlockPageShifts) (random : Bool) (rounds : ℕ)
    (hrefuses : getBlockNumPages index ≤ a.numPages → Refuses a.manager m index) :
    wp (takeBlocks m index random rounds a) fun r held =>
      held = true ∧ r.1 = .success ∧ Still a r.2 := by
  have hrefl : Still a a := ⟨hs, .refl _, rfl, rfl, fun _ => rfl⟩
  cases rounds with
  | zero => exact wp_ret.2 ⟨rfl, rfl, hrefl⟩
  | succ rounds =>
    rw [takeBlocks]
    split_ifs with hroom
    · rw [wp_bind]
      refine wp_mono ((hs.live m hm).allocateBlock_spec hindex random) ?_
      rintro ⟨addr, heap⟩ held ⟨rfl, hwent, ⟨hzero, hsame, -⟩ | ⟨-, hdvd, hsub, -⟩⟩
      · simp only at hzero hsame
        show wp (if addr = 0 then _ else _) _
        rw [if_pos hzero]
        obtain ⟨hmanaged, honly⟩ := hs.setHeap hwent
        refine wp_ret.2 ⟨rfl, rfl, hmanaged, honly, rfl, rfl, fun m' => ?_⟩
        rw [freePages_setHeap]
        split_ifs with hmm
        · rw [hsame, hmm]
          rfl
        · rfl
      · exact absurd ⟨addr, hdvd, hsub⟩ (hrefuses hroom)
    · exact wp_ret.2 ⟨rfl, rfl, hrefl⟩

/-- Managers without blocks of the size. -/
theorem takeFromManagers_still (hindex : index < numMemoryBlockPageShifts) (random : Bool) :
    ∀ (managers : List ℕ) (a : Allocating), Managed a.manager → (∀ m ∈ managers, m < a.manager.numManagers) →
      (∀ m ∈ managers, getBlockNumPages index ≤ a.numPages → Refuses a.manager m index) →
      wp (takeFromManagers index random managers a) fun r held =>
        held = true ∧ r.1 = .success ∧ Still a r.2 := by
  intro managers
  induction managers with
  | nil => exact fun a hs _ _ => wp_ret.2 ⟨rfl, rfl, hs, .refl _, rfl, rfl, fun _ => rfl⟩
  | cons m managers ih =>
    intro a hs hin hrefuses
    rw [takeFromManagers, wp_bind]
    refine wp_mono (takeBlocks_still hs (hin m mem_cons_self) hindex random a.numPages
      (hrefuses m mem_cons_self)) ?_
    rintro ⟨result, a'⟩ held ⟨rfl, hsuccess, hstill⟩
    simp only at hsuccess hstill
    show wp (if result = .success then _ else _) _
    rw [if_pos hsuccess]
    refine wp_mono (ih a' hstill.managed (fun m' hm' => ?_) fun m' hm' hroom => ?_) ?_
    · rw [hstill.only.layout.numManagers]
      exact hin m' (mem_cons_of_mem m hm')
    · rw [hstill.numPages] at hroom
      exact hstill.refuses (hrefuses m' (mem_cons_of_mem m hm') hroom)
    · rintro r held ⟨rfl, hsuccess', hstill'⟩
      exact ⟨rfl, hsuccess', hstill.trans hstill'⟩

/-! ### Rounds that take one block -/

/-- One block has been taken, all that was free of its manager. -/
structure TookOne (a : Allocating) (m index addr : ℕ) (a' : Allocating) : Prop where
  managed : Managed a'.manager
  only : OnlyHeaps a.manager a'.manager
  added : KPageGroup.Added a.out addr (getBlockNumPages index) a'.out
  infos : a.out.infos ≤ a'.out.infos + 1
  numPages : a'.numPages = a.numPages - getBlockNumPages index
  free : ∀ m', a'.manager.freePages m' = if m' = m then ∅ else a.manager.freePages m'

/-- The one block that a manager has. -/
structure OnlyBlock (a : Allocating) (m index addr : ℕ) : Prop where
  managed : Managed a.manager
  lt : m < a.manager.numManagers
  size : index < numMemoryBlockPageShifts
  dvd : getBlockSize index ∣ addr
  free : a.manager.freePages m = rangePages addr (getBlockNumPages index)
  room : getBlockNumPages index ≤ a.numPages
  fits : ∀ b ∈ a.out.blocks, b.Fits
  infos : 0 < a.out.infos

/-- **The only block of a manager is taken**, and no other. -/
theorem OnlyBlock.takeBlocks_spec (h : OnlyBlock a m index addr) (random : Bool) :
    wp (takeBlocks m index random a.numPages a) fun r held =>
      held = true ∧ r.1 = .success ∧ TookOne a m index addr r.2 := by
  have hpages := getBlockNumPages_mul h.size
  have hpos := getBlockNumPages_pos h.size
  have hroom := h.room
  obtain ⟨rounds, hrounds⟩ : ∃ rounds, a.numPages = rounds + 1 := ⟨a.numPages - 1, by omega⟩
  rw [hrounds, takeBlocks, if_pos hroom, wp_bind]
  refine wp_mono ((h.managed.live m h.lt).allocateBlock_spec h.size random) ?_
  rintro ⟨addr', heap⟩ held ⟨rfl, hwent, ⟨-, -, hrefused⟩ | ⟨hne, hdvd, hsub, htaken⟩⟩
  · exact absurd ⟨addr, h.dvd, h.free.superset⟩ hrefused
  · simp only at hne hdvd hsub htaken hwent
    have hblock := h.managed.blockOf h.lt h.size hdvd hsub
    have hpage := (pageSize_dvd_getBlockSize h.size).trans hdvd
    have hpage' := (pageSize_dvd_getBlockSize h.size).trans h.dvd
    -- aligned blocks one of which holds the other are the same
    have hsame : addr' = addr := by
      have hfirst := hsub ((mem_rangePages hpage).2 ⟨hpage, le_rfl, by
        have := Nat.mul_pos hpos (by decide : 0 < PageSize)
        omega⟩)
      have hfree : (a.manager.heap m).freePages = rangePages addr (getBlockNumPages index) := h.free
      rw [hfree, mem_rangePages hpage', hpages] at hfirst
      have hsize := getBlockSize_pos index
      have hwithin := within_of_meet (Nat.dvd_refl _) hdvd h.dvd le_rfl (by omega : addr' < addr' +
        getBlockSize index) hfirst.2.1 hfirst.2.2
      omega
    subst hsame
    have hempty : heap.freePages = ∅ := by
      have hfree : (a.manager.heap m).freePages = rangePages addr' (getBlockNumPages index) := h.free
      rw [htaken, hfree, Finset.sdiff_self]
    show wp (if addr' = 0 then _ else _) _
    rw [if_neg hne, wp_bind]
    refine wp_mono (KPageGroup.addBlock_spec h.fits hpage (Nat.pos_of_ne_zero hne) hpos
      (by rw [hpages]; exact hblock.ge.trans (h.managed.below m h.lt))) ?_
    rintro ⟨result, g⟩ held ⟨rfl, ⟨hsuccess, hadded, hinfos⟩ | ⟨-, -, hnone⟩⟩
    · simp only at hsuccess hadded hinfos
      show wp (if result = .success then _ else _) _
      rw [if_pos hsuccess]
      obtain ⟨hmanaged, honly⟩ := h.managed.setHeap hwent
      refine wp_mono (takeBlocks_still
        (a := ⟨a.manager.setHeap m heap, g, a.numPages - getBlockNumPages index⟩) hmanaged h.lt h.size random
        rounds fun _ => .of_few ?_) ?_
      · show ((a.manager.setHeap m heap).freePages m).card < _
        rw [freePages_setHeap, if_pos rfl, hempty]
        exact hpos
      · rintro r held ⟨rfl, hsuccess', hstill⟩
        refine ⟨rfl, hsuccess', hstill.managed, honly.trans hstill.only, ?_, ?_, hstill.numPages, fun m' => ?_⟩
        · rw [hstill.out]
          exact hadded
        · rw [hstill.out]
          exact hinfos
        · rw [hstill.free]
          show (a.manager.setHeap m heap).freePages m' = _
          rw [freePages_setHeap, hempty]
    · exact absurd hnone h.infos.ne'

theorem wp_takeFromManagers_append {Q : AllocationResult × Allocating → Bool → Prop} {rest : List ℕ} :
    ∀ (managers : List ℕ) (a : Allocating), (wp (takeFromManagers index random managers a) fun r held =>
        held = true ∧ r.1 = .success ∧ wp (takeFromManagers index random rest r.2) Q) →
      wp (takeFromManagers index random (managers ++ rest) a) Q := by
  intro managers
  induction managers with
  | nil => exact fun a h => (wp_ret.1 h).2.2
  | cons m managers ih =>
    intro a h
    rw [takeFromManagers, wp_bind] at h
    rw [cons_append, takeFromManagers, wp_bind]
    refine wp_mono h ?_
    rintro ⟨result, a'⟩ held hrest
    change wp (if result = .success then _ else _) _ at hrest
    show wp (if result = .success then _ else _) _
    split_ifs at hrest ⊢ with hresult
    · cases held with
      | false =>
        obtain ⟨r, held', -, hheld, -⟩ := hrest
        exact absurd hheld (by simp)
      | true =>
        simp only [Bool.true_and] at hrest ⊢
        exact ih a' hrest
    · exact absurd (wp_ret.1 hrest).2.1 hresult

/-- **A round over the managers takes the one block** that is there. -/
theorem OnlyBlock.round_spec (h : OnlyBlock a m index addr) (random : Bool) {before after : List ℕ}
    (hin : ∀ m' ∈ before ++ after, m' < a.manager.numManagers ∧ m' ≠ m)
    (hrefuses : ∀ m' ∈ before ++ after, getBlockNumPages index ≤ a.numPages → Refuses a.manager m' index) :
    wp (takeFromManagers index random (before ++ m :: after) a) fun r held =>
      held = true ∧ r.1 = .success ∧ TookOne a m index addr r.2 := by
  refine wp_takeFromManagers_append before a ?_
  refine wp_mono (takeFromManagers_still h.size random before a h.managed
    (fun m' hm' => (hin m' (mem_append_left _ hm')).1) fun m' hm' =>
    hrefuses m' (mem_append_left _ hm')) ?_
  rintro ⟨result, a₁⟩ held ⟨hheld, hsuccess, hstill⟩
  simp only at hsuccess hstill
  refine ⟨hheld, hsuccess, ?_⟩
  have hnum := hstill.only.layout.numManagers
  have h₁ : OnlyBlock a₁ m index addr := ⟨hstill.managed, by rw [hnum]; exact h.lt, h.size, h.dvd,
    by rw [hstill.free]; exact h.free, by rw [hstill.numPages]; exact h.room, by rw [hstill.out]; exact h.fits,
    by rw [hstill.out]; exact h.infos⟩
  rw [takeFromManagers, wp_bind]
  refine wp_mono (h₁.takeBlocks_spec random) ?_
  rintro ⟨result₂, a₂⟩ held ⟨rfl, hsuccess₂, htook⟩
  simp only at hsuccess₂ htook
  have hnum₂ := htook.only.layout.numManagers
  show wp (if result₂ = .success then _ else _) _
  rw [if_pos hsuccess₂]
  refine wp_mono (takeFromManagers_still h.size random after a₂ htook.managed (fun m' hm' => ?_)
    fun m' hm' hroom => ?_) ?_
  · rw [hnum₂, hnum]
    exact (hin m' (mem_append_right _ hm')).1
  · have hroom' : getBlockNumPages index ≤ a.numPages := by
      rw [htook.numPages, hstill.numPages] at hroom
      omega
    rw [Refuses, htook.free, if_neg (hin m' (mem_append_right _ hm')).2, hstill.free]
    exact hrefuses m' (mem_append_right _ hm') hroom'
  · rintro r held ⟨rfl, hsuccess₃, hstill₃⟩
    refine ⟨rfl, hsuccess₃, hstill₃.managed, (hstill.only.trans htook.only).trans hstill₃.only, ?_, ?_, ?_,
      fun m' => ?_⟩
    · rw [hstill₃.out, ← hstill.out]
      exact htook.added
    · rw [hstill₃.out, ← hstill.out]
      exact htook.infos
    · rw [hstill₃.numPages, htook.numPages, hstill.numPages]
    · rw [hstill₃.free, htook.free, hstill.free]

/-! ### The handler -/

/-- **A block that goes from a manager into the next**: the handler frees the first part only. -/
theorem unfreed_crossing (hs : Managed s) {m' : ℕ} {b : KBlockInfo} (hm : m < s.numManagers)
    (hne : m' ≠ m) (hwithin : s.Within m b.getAddress)
    (hcross : (s.heap m).getEndAddress ≤ b.finish) (hend : PageSize ∣ (s.heap m).getEndAddress)
    (hnot : s.freePages m = ∅) :
    wp (unfreed [b] s) fun s' _ => s'.freePages m' = s.freePages m' := by
  have haddr : PageSize ∣ b.getAddress := Nat.dvd_mul_left _ _
  obtain ⟨hle, hlt⟩ := hwithin
  have hlt' : b.getAddress < (s.heap m).getEndAddress := hlt
  obtain ⟨k, hk⟩ := Nat.dvd_sub hend haddr
  have hcount : min b.numPages (((s.managers m).heap.getEndAddress - b.getAddress) / PageSize) = k := by
    have hdiv : ((s.heap m).getEndAddress - b.getAddress) / PageSize = k := by
      rw [hk]
      exact Nat.mul_div_cancel_left k (by decide)
    show min b.numPages (((s.heap m).getEndAddress - b.getAddress) / PageSize) = k
    rw [hdiv]
    refine Nat.min_eq_right (Nat.le_of_mul_le_mul_left (c := PageSize) ?_ (by decide))
    rw [← hk, Nat.mul_comm]
    rw [KBlockInfo.finish] at hcross
    omega
  rw [unfreed, hs.getManager_eq hm ⟨hle, hlt⟩, ret_true_bind, wp_bind, hcount]
  refine wp_mono ((hs.live m hm).free_spec haddr hle ?_ fun x _ hfree => ?_) ?_
  · rw [Nat.mul_comm, ← hk]
    omega
  · have hmem : x ∈ s.freePages m := hfree
    rw [hnot] at hmem
    exact Finset.notMem_empty x hmem
  · rintro heap held ⟨-, hwent, hfreed⟩
    refine wp_ret.2 ?_
    rw [freePages_setHeap, if_neg hne]

/-! ### States of a layout -/

theorem exists_initialized {address size : ℕ} {h : KPageHeap} (hr : KPageHeap.Reached address size h) :
    ∃ rngs rng h₀, KPageHeap.initialized rngs rng address size = .ret h₀ true := by
  induction hr with
  | initialized hdid => exact ⟨_, _, _, hdid⟩
  | call _ _ _ _ ih => exact ih

/-- A heap that is made has no free pages. -/
theorem initialized_live {address size : ℕ} {h : KPageHeap} {rngs : ℕ → RandomBitGenerator} {rng : RandomBitGenerator}
    (haddress : 0 < address) (hsize : 0 < size) (hdid : KPageHeap.initialized rngs rng address size = .ret h true) :
    h.Live ∧ h.heapAddress = address ∧ h.heapSize = size ∧ h.freePages = ∅ := by
  have hr := KPageHeap.Reached.initialized hdid
  have hlive := KPageHeap.Live.of_reached haddress hsize hr
  obtain ⟨-, hstart, hregion⟩ := hr.books haddress hsize
  refine ⟨hlive, hstart, hregion, Finset.eq_empty_of_forall_notMem fun x hx => ?_⟩
  obtain ⟨-, hlow, hhigh⟩ := hlive.mem_inside hx
  refine (KPageHeap.used_of_initialized hsize hdid (le_refl address) le_rfl).used x (hstart ▸ hlow) ?_
    (hlive.books.mem_freePages.1 hx).2
  rw [KPageHeap.getEndAddress, hstart, hregion] at hhigh
  have hpos : 0 < PageSize := by decide
  omega

/-- A heap of the same region that has just one range of free pages. -/
theorem exists_heap {h : KPageHeap} (hlive : h.Live) {count : ℕ} (haddr : PageSize ∣ addr)
    (hle : h.heapAddress ≤ addr) (hge : addr + count * PageSize ≤ h.getEndAddress) :
    ∃ h' : KPageHeap, h'.Live ∧ KPageHeap.SameRegion h h' ∧ h'.freePages = rangePages addr count := by
  obtain ⟨rngs, rng, h₀, hdid⟩ := exists_initialized hlive.reached
  obtain ⟨hlive₀, haddress, hsize, hempty⟩ := initialized_live hlive.address hlive.size hdid
  have hregion : KPageHeap.SameRegion h h₀ := ⟨haddress, hsize⟩
  have hge₀ : addr + count * PageSize ≤ h₀.getEndAddress := hregion.getEndAddress ▸ hge
  obtain ⟨h', held, -, -, hwent, hfree⟩ := hlive₀.free_spec haddr (hregion.address ▸ hle) hge₀ fun x _ hx => by
    rw [hempty] at hx
    exact Finset.notMem_empty x hx
  refine ⟨h', hwent.live, ⟨hwent.region.address.trans haddress, hwent.region.size.trans hsize⟩, ?_⟩
  rw [hfree, hempty, Finset.empty_union]

/-- **A state of the same layout** whose managers each have just one range of free pages. -/
theorem Managed.exists_state (hs : Managed s) (start count : ℕ → ℕ)
    (hrange : ∀ m < s.numManagers, PageSize ∣ start m ∧ (s.heap m).heapAddress ≤ start m ∧
      start m + count m * PageSize ≤ (s.heap m).getEndAddress) :
    ∃ s', Managed s' ∧ SameLayout s s' ∧ ∀ m < s.numManagers, s'.freePages m = rangePages (start m) (count m) := by
  have hheaps : ∀ m, ∃ h' : KPageHeap, m < s.numManagers → h'.Live ∧
      KPageHeap.SameRegion (s.heap m) h' ∧ h'.freePages = rangePages (start m) (count m) := by
    intro m
    by_cases hm : m < s.numManagers
    · obtain ⟨hdvd, hle, hge⟩ := hrange m hm
      obtain ⟨h', hh'⟩ := exists_heap (hs.live m hm) hdvd hle hge
      exact ⟨h', fun _ => hh'⟩
    · exact ⟨s.heap m, fun hlt => absurd hlt hm⟩
  choose heaps hheaps using hheaps
  have hlayout : SameLayout s { s with managers := fun m =>
      if m < s.numManagers then { s.managers m with heap := heaps m } else s.managers m } := by
    refine ⟨rfl, rfl, fun m => ?_, fun m => ?_⟩
    · show KPageHeap.SameRegion _ (if m < s.numManagers then _ else _ : Impl).heap
      split_ifs with hm
      · exact (hheaps m hm).2.1
      · exact ⟨rfl, rfl⟩
    · show (if m < s.numManagers then _ else _ : Impl).numPageReferenceCounts = _
      split_ifs <;> rfl
  refine ⟨_, hs.of_layout hlayout fun m hm => ?_, hlayout, fun m hm => ?_⟩
  · show ((if m < s.numManagers then _ else _ : Impl).heap).Live
    rw [if_pos hm]
    exact (hheaps m hm).1
  · show ((if m < s.numManagers then _ else _ : Impl).heap).freePages = _
    rw [if_pos hm]
    exact (hheaps m hm).2.2

/-! ### Leaks -/

/-- After two blocks that meet where a manager ends, the handler leaves the second one. -/
theorem unfreed_two {a₀ a₁ a₂ : Allocating} {m₁ m₂ addr₁ addr₂ : ℕ}
    (hlayout : SameLayout s a₂.manager) (hm₁ : m₁ < s.numManagers) (hne : m₂ ≠ m₁)
    (hindex : index < numMemoryBlockPageShifts) (hempty : a₀.out.blocks = [])
    (h₁ : TookOne a₀ m₁ index addr₁ a₁) (h₂ : TookOne a₁ m₂ 0 addr₂ a₂) (hdvd : PageSize ∣ addr₁)
    (hle : (s.heap m₁).heapAddress ≤ addr₁) (hend : addr₁ + getBlockSize index = (s.heap m₁).getEndAddress)
    (hmeets : addr₂ = (s.heap m₁).getEndAddress) :
    wp (unfreed a₂.out.blocks a₂.manager) fun s' _ => s'.freePages m₂ = ∅ := by
  have hpages := getBlockNumPages_mul hindex
  have hblocks₁ : a₁.out.blocks = [⟨addr₁ / PageSize, getBlockNumPages index⟩] := by
    cases h₁.added with
    | concatenated before last hblocks =>
      rw [hempty] at hblocks
      exact absurd hblocks.symm (by simp)
    | appended _ hblocks' => rw [hblocks', hempty, nil_append]
  have haddress : (⟨addr₁ / PageSize, getBlockNumPages index⟩ : KBlockInfo).getAddress = addr₁ :=
    Nat.div_mul_cancel hdvd
  have hfinish : (⟨addr₁ / PageSize, getBlockNumPages index⟩ : KBlockInfo).finish = addr₂ := by
    rw [KBlockInfo.finish, haddress, hpages, hend, hmeets]
  have hblocks₂ : a₂.out.blocks = [⟨addr₁ / PageSize, getBlockNumPages index + getBlockNumPages 0⟩] := by
    cases h₂.added with
    | concatenated before last hblocks _ hblocks' =>
      rw [hblocks₁] at hblocks
      obtain ⟨rfl, rfl⟩ := append_inj' (hblocks.symm.trans (nil_append _).symm) rfl |>.imp_right
        fun h => (cons.inj h).1
      exact hblocks'
    | appended hapart =>
      rw [hblocks₁] at hapart
      exact absurd hfinish.symm (hapart _ rfl)
  have hspos := getBlockSize_pos index
  have hnum := hlayout.numManagers
  have haddress₂ : (⟨addr₁ / PageSize, getBlockNumPages index + getBlockNumPages 0⟩ : KBlockInfo).getAddress =
      addr₁ := Nat.div_mul_cancel hdvd
  rw [hblocks₂]
  refine wp_mono (unfreed_crossing h₂.managed (m := m₁) (hnum ▸ hm₁) hne ?_ ?_ ?_ ?_) ?_
  · rw [haddress₂, hlayout.within]
    refine ⟨hle, ?_⟩
    show addr₁ < (s.heap m₁).getEndAddress
    omega
  · rw [(hlayout.region m₁).getEndAddress, KBlockInfo.finish, haddress₂, Nat.add_mul, hpages]
    omega
  · rw [(hlayout.region m₁).getEndAddress, ← hend]
    exact Nat.dvd_add hdvd (pageSize_dvd_getBlockSize hindex)
  · rw [h₂.free, if_neg hne.symm, h₁.free, if_pos rfl]
  · intro s' _ hsame
    rw [hsame, h₂.free, if_pos rfl]

/-- An allocation that is left with pages to take fails, and is not settled if the handler leaves pages. -/
theorem not_settled {g : KPageGroup} {numPages heapIndex : ℕ} {pool : Pool} {dir : Direction}
    (hindex : getBlockIndex numPages = .ofNat heapIndex) (hm : m < s.numManagers)
    (hrun : wp (takeOfSizes (s.order pool dir) random (heapIndex + 1) ⟨s, g, numPages⟩) fun r _ =>
      r.1 = .success ∧ r.2.numPages ≠ 0 ∧
        wp (unfreed r.2.out.blocks r.2.manager) fun s' _ => s'.freePages m ≠ s.freePages m) :
    ¬wp (s.allocatePageGroupImpl g numPages pool dir random) fun r held =>
      held = true ∧ Settled s numPages (s.order pool dir) r := by
  intro hsettled
  obtain ⟨⟨result, a⟩, held, hdid, hsuccess, hleft, s', held', hunfreed, hleak⟩ := hrun
  simp only at hsuccess hleft hunfreed
  subst hsuccess
  rw [allocatePageGroupImpl, hindex] at hsettled
  change wp (takeOfSizes (s.order pool dir) random (heapIndex + 1) ⟨s, g, numPages⟩ >>= _) _ at hsettled
  rw [hdid, wp_bind, wp_ret] at hsettled
  change wp (if (if AllocationResult.success = .success ∧ a.numPages ≠ 0 then
    AllocationResult.outOfMemory else .success) = .success then _ else _) _ at hsettled
  have hresult : (if AllocationResult.success = .success ∧ a.numPages ≠ 0 then
      AllocationResult.outOfMemory else .success) = .outOfMemory := if_pos ⟨rfl, hleft⟩
  rw [hresult, if_neg AllocationResult.noConfusion, wp_bind, hunfreed, wp_ret, pure_eq, wp_ret] at hsettled
  exact hleak ((hsettled.2.failure AllocationResult.noConfusion).2 m hm)

/-- Two managers of a pool among the others. -/
theorem nodup_two {l₁ l₂ l₃ : List ℕ} {m₁ m₂ : ℕ} (h : (l₁ ++ m₁ :: (l₂ ++ m₂ :: l₃)).Nodup) :
    m₂ ≠ m₁ ∧ ∀ m ∈ l₁ ++ (l₂ ++ l₃), m ≠ m₁ ∧ m ≠ m₂ := by
  have hperm : (l₁ ++ m₁ :: (l₂ ++ m₂ :: l₃)).Perm (m₁ :: m₂ :: (l₁ ++ (l₂ ++ l₃))) :=
    perm_middle.trans (List.Perm.cons _ ((List.Perm.append_left l₁ perm_middle).trans
      perm_middle))
  have hnodup := hperm.nodup_iff.1 h
  rw [nodup_cons, nodup_cons] at hnodup
  obtain ⟨hfirst, hsecond, -⟩ := hnodup
  refine ⟨fun heq => hfirst (heq ▸ mem_cons_self), fun m hm => ⟨?_, ?_⟩⟩
  · rintro rfl
    exact hfirst (mem_cons_of_mem _ hm)
  · rintro rfl
    exact hsecond hm

theorem rangePages_zero (addr : ℕ) : rangePages addr 0 = ∅ := rfl

theorem Refuses.of_empty (hindex : index < numMemoryBlockPageShifts) (hempty : s.freePages m = ∅) :
    Refuses s m index := by
  refine .of_few ?_
  rw [hempty, Finset.card_empty]
  exact getBlockNumPages_pos hindex

/-- What is asked of a state that leaks. -/
def Leaks (s : KMemoryManager) (pool : Pool) (dir : Direction) (random : Bool) : Prop :=
  ∃ s' g numPages, Managed s' ∧ SameLayout s s' ∧ g.blocks = [] ∧
    ¬Exec.wp (s'.allocatePageGroupImpl g numPages pool dir random) fun r held =>
      held = true ∧ Settled s' numPages (s'.order pool dir) r

/-- Two managers that meet, and a state of the heaps in which the last block of a size of the one and the
first page of the other are all that is free. -/
structure Meeting (s s' : KMemoryManager) (m₁ m₂ index : ℕ) (others : List ℕ) : Prop where
  before : Managed s
  managed : Managed s'
  layout : SameLayout s s'
  lt₁ : m₁ < s.numManagers
  lt₂ : m₂ < s.numManagers
  ne : m₂ ≠ m₁
  others : ∀ m ∈ others, m < s'.numManagers ∧ m ≠ m₁ ∧ m ≠ m₂ ∧ s'.freePages m = ∅
  size : index < numMemoryBlockPageShifts
  dvd : getBlockSize index ∣ (s.heap m₁).getEndAddress
  room : (s.heap m₁).heapAddress + getBlockSize index ≤ (s.heap m₁).getEndAddress
  meets : (s.heap m₁).getEndAddress = (s.heap m₂).heapAddress
  free₁ : s'.freePages m₁ = rangePages ((s.heap m₁).getEndAddress - getBlockSize index) (getBlockNumPages index)
  free₂ : s'.freePages m₂ = rangePages (s.heap m₂).heapAddress 1

theorem heap_room (hs : Managed s) (hm : m < s.numManagers) :
    (s.heap m).heapAddress + PageSize ≤ (s.heap m).getEndAddress :=
  Nat.add_le_add_left (Nat.le_of_dvd (hs.live m hm).size (hs.live m hm).books.pages.2) _

theorem exists_meeting (hs : Managed s) {m₁ m₂ : ℕ} {others : List ℕ} (hm₁ : m₁ < s.numManagers)
    (hm₂ : m₂ < s.numManagers) (hne : m₂ ≠ m₁) (hothers : ∀ m ∈ others, m < s.numManagers ∧ m ≠ m₁ ∧ m ≠ m₂)
    (hsize : index < numMemoryBlockPageShifts) (hdvd : getBlockSize index ∣ (s.heap m₁).getEndAddress)
    (hroom : (s.heap m₁).heapAddress + getBlockSize index ≤ (s.heap m₁).getEndAddress)
    (hmeets : (s.heap m₁).getEndAddress = (s.heap m₂).heapAddress) :
    ∃ s', Meeting s s' m₁ m₂ index others := by
  have hpages := getBlockNumPages_mul hsize
  obtain ⟨s', hs', hlayout, hfree⟩ := hs.exists_state
    (fun m => if m = m₁ then (s.heap m).getEndAddress - getBlockSize index else (s.heap m).heapAddress)
    (fun m => if m = m₁ then getBlockNumPages index else if m = m₂ then 1 else 0) fun m hm => by
      have hpageRoom := heap_room hs hm
      by_cases heq : m = m₁
      · subst heq
        simp only [if_pos]
        exact ⟨(pageSize_dvd_getBlockSize hsize).trans (Nat.dvd_sub hdvd (Nat.dvd_refl _)), by omega, by omega⟩
      · simp only [if_neg heq]
        refine ⟨(hs.live m hm).books.pages.1, le_rfl, ?_⟩
        split_ifs <;> omega
  refine ⟨s', hs, hs', hlayout, hm₁, hm₂, hne, fun m hm => ?_, hsize, hdvd, hroom, hmeets, ?_, ?_⟩
  · obtain ⟨hlt, hne₁, hne₂⟩ := hothers m hm
    refine ⟨hlayout.numManagers ▸ hlt, hne₁, hne₂, ?_⟩
    rw [hfree m hlt, if_neg hne₁, if_neg hne₁, if_neg hne₂, rangePages_zero]
  · rw [hfree m₁ hm₁]
    simp
  · rw [hfree m₂ hm₂]
    simp [hne]

namespace Meeting

variable {m₁ m₂ : ℕ} {others : List ℕ} {a₁ a₂ : Allocating} (h : Meeting s s' m₁ m₂ index others)

include h

theorem dvd_start : PageSize ∣ (s.heap m₁).getEndAddress - getBlockSize index :=
  (pageSize_dvd_getBlockSize h.size).trans (Nat.dvd_sub h.dvd (Nat.dvd_refl _))

/-- The block at the end of the first manager is its only one. -/
theorem firstBlock : OnlyBlock ⟨s', ⟨[], 2⟩, getBlockNumPages index + 2⟩ m₁ index
    ((s.heap m₁).getEndAddress - getBlockSize index) :=
  ⟨h.managed, h.layout.numManagers ▸ h.lt₁, h.size, Nat.dvd_sub h.dvd (Nat.dvd_refl _), h.free₁,
    Nat.le_add_right _ _, by simp, show 0 < 2 by decide⟩

variable (h₁ : TookOne ⟨s', ⟨[], 2⟩, getBlockNumPages index + 2⟩ m₁ index
  ((s.heap m₁).getEndAddress - getBlockSize index) a₁)

include h₁

omit h in
theorem numPages_left : a₁.numPages = 2 := by
  rw [h₁.numPages]
  exact Nat.add_sub_cancel_left _ _

/-- When that block has been taken, the page at the start of the other manager is its only block. -/
theorem secondBlock : OnlyBlock a₁ m₂ 0 (s.heap m₂).heapAddress := by
  have hone : getBlockNumPages 0 = 1 := by decide
  have hpage := (h.before.live m₂ h.lt₂).books.pages.1
  have hnum := h₁.only.layout.numManagers.trans h.layout.numManagers
  have hinfos : 2 ≤ a₁.out.infos + 1 := h₁.infos
  refine ⟨h₁.managed, hnum ▸ h.lt₂, by decide, hpage, ?_, by rw [hone, numPages_left h₁]; decide, ?_, by omega⟩
  · rw [h₁.free, if_neg h.ne, hone]
    exact h.free₂
  · refine h₁.added.fits h.dvd_start ?_ (getBlockNumPages_pos h.size) ?_ (by simp)
    · have hpos := (h.before.live m₁ h.lt₁).address
      have := h.room
      omega
    · have hbelow := h.before.below m₁ h.lt₁
      have := h.room
      rw [getBlockNumPages_mul h.size]
      omega

/-- **The page is not given back**: the blocks are one, of which the handler frees the part in the first
manager. -/
theorem leaks (h₂ : TookOne a₁ m₂ 0 (s.heap m₂).heapAddress a₂) : a₂.numPages ≠ 0 ∧
    wp (unfreed a₂.out.blocks a₂.manager) fun s'' _ => s''.freePages m₂ ≠ s'.freePages m₂ := by
  have hpage := (h.before.live m₂ h.lt₂).books.pages.1
  have hroom := h.room
  refine ⟨?_, wp_mono (unfreed_two (s := s) (h.layout.trans (h₁.only.trans h₂.only).layout) h.lt₁ h.ne
    h.size rfl h₁ h₂ h.dvd_start (by omega) (by omega) h.meets.symm) ?_⟩
  · rw [h₂.numPages, numPages_left h₁]
    decide
  · intro s'' _ hempty hsame
    rw [hempty, h.free₂] at hsame
    have hmem : (s.heap m₂).heapAddress ∈ rangePages (s.heap m₂).heapAddress 1 :=
      (mem_rangePages hpage).2 ⟨hpage, le_rfl, Nat.lt_add_of_pos_right (by decide)⟩
    rw [← hsame] at hmem
    exact Finset.notMem_empty _ hmem

end Meeting

section

variable (hs : Managed s) {pool : Pool} {dir : Direction} {l₁ l₂ l₃ : List ℕ} {m₁ m₂ : ℕ}

include hs

/-- Managers of which the first of the pool ends where the other begins. -/
theorem leaks_forward (horder : s.order pool dir = l₁ ++ m₁ :: (l₂ ++ m₂ :: l₃))
    (hmeets : (s.heap m₁).getEndAddress = (s.heap m₂).heapAddress) (random : Bool) :
    Leaks s pool dir random := by
  obtain ⟨hne, hothers⟩ := nodup_two (horder ▸ hs.nodup_order pool dir)
  have hin : ∀ m ∈ l₁ ++ m₁ :: (l₂ ++ m₂ :: l₃), m < s.numManagers := fun m hm =>
    hs.mem_order (horder ▸ hm)
  have hm₁ : m₁ < s.numManagers := hin m₁ (by simp)
  have hpages := (hs.live m₁ hm₁).books.pages
  -- the last page of the one and the first page of the other are free
  obtain ⟨s', h⟩ := @exists_meeting s 0 hs m₁ m₂ (l₁ ++ (l₂ ++ l₃)) hm₁ (hin m₂ (by simp)) hne
    (fun m hm => ⟨hin m (by
      simp only [mem_append, mem_cons] at hm ⊢
      tauto), hothers m hm⟩) (by decide) (Nat.dvd_add hpages.1 hpages.2) (heap_room hs hm₁) hmeets
  refine ⟨s', ⟨[], 2⟩, 3, h.managed, h.layout, rfl, not_settled (m := m₂)
    (show getBlockIndex 3 = .ofNat 0 by decide) (h.layout.numManagers ▸ h.lt₂) ?_⟩
  have horder' : s'.order pool dir = (l₁ ++ m₁ :: l₂) ++ ([] ++ m₂ :: l₃) := by
    rw [h.layout.order, horder]
    simp
  rw [horder', takeOfSizes, if_pos (show 0 < 3 by decide), wp_bind]
  have hfirst := fun m (hm : m ∈ l₁ ++ l₂) => h.others m (by
    simp only [mem_append] at hm ⊢
    tauto)
  refine wp_takeFromManagers_append _ _ (wp_mono (h.firstBlock.round_spec random
    (fun m (hm : m ∈ l₁ ++ l₂) => ⟨(hfirst m hm).1, (hfirst m hm).2.1⟩) fun m hm _ => .of_empty (by decide) (hfirst m hm).2.2.2) ?_)
  rintro ⟨result₁, a₁⟩ held ⟨hheld, hsuccess₁, h₁⟩
  refine ⟨hheld, hsuccess₁, ?_⟩
  simp only at h₁ ⊢
  have hnum₁ := h₁.only.layout.numManagers
  have hsecond : ∀ m ∈ [] ++ l₃, m < s'.numManagers ∧ m ≠ m₂ ∧ a₁.manager.freePages m = ∅ := fun m hm => by
    obtain ⟨hlt, hne₁, hne₂, hempty⟩ := h.others m (by
      simp only [mem_append, nil_append] at hm ⊢
      tauto)
    exact ⟨hlt, hne₂, by rw [h₁.free, if_neg hne₁]; exact hempty⟩
  refine wp_mono ((h.secondBlock h₁).round_spec random (fun m hm => ⟨hnum₁ ▸ (hsecond m hm).1,
    (hsecond m hm).2.1⟩) fun m hm _ => .of_empty (by decide) (hsecond m hm).2.2) ?_
  rintro ⟨result₂, a₂⟩ held ⟨-, hsuccess₂, h₂⟩
  simp only at hsuccess₂ h₂
  show wp (if result₂ = .success then _ else _) _
  rw [if_pos hsuccess₂]
  exact wp_ret.2 ⟨rfl, h.leaks h₁ h₂⟩

/-- Managers of which the later of the pool ends, with room for a larger block, where the other begins. -/
theorem leaks_backward (horder : s.order pool dir = l₁ ++ m₂ :: (l₂ ++ m₁ :: l₃))
    (hmeets : (s.heap m₁).getEndAddress = (s.heap m₂).heapAddress) (hdvd : getBlockSize 1 ∣ (s.heap m₁).getEndAddress)
    (hroom : (s.heap m₁).heapAddress + getBlockSize 1 ≤ (s.heap m₁).getEndAddress) (random : Bool) :
    Leaks s pool dir random := by
  obtain ⟨hne, hothers⟩ := nodup_two (horder ▸ hs.nodup_order pool dir)
  have hin : ∀ m ∈ l₁ ++ m₂ :: (l₂ ++ m₁ :: l₃), m < s.numManagers := fun m hm =>
    hs.mem_order (horder ▸ hm)
  -- the last larger block of the one and the first page of the other are free
  obtain ⟨s', h⟩ := @exists_meeting s 1 hs m₁ m₂ (l₁ ++ (l₂ ++ l₃)) (hin m₁ (by simp))
    (hin m₂ (by simp)) hne.symm (fun m hm => ⟨hin m (by
      simp only [mem_append, mem_cons] at hm ⊢
      tauto), (hothers m hm).2, (hothers m hm).1⟩) (by decide) hdvd hroom hmeets
  have hm₂ : m₂ < s'.numManagers := h.layout.numManagers ▸ h.lt₂
  refine ⟨s', ⟨[], 2⟩, 6, h.managed, h.layout, rfl, not_settled (m := m₂)
    (show getBlockIndex 6 = .ofNat 1 by decide) hm₂ ?_⟩
  have horder' : s'.order pool dir = (l₁ ++ m₂ :: l₂) ++ m₁ :: l₃ := by
    rw [h.layout.order, horder]
    simp
  rw [takeOfSizes, if_pos (show 0 < 6 by decide), wp_bind, horder']
  have hfirst : ∀ m ∈ (l₁ ++ m₂ :: l₂) ++ l₃, m < s'.numManagers ∧ m ≠ m₁ ∧
      (s'.freePages m).card < getBlockNumPages 1 := by
    intro m hm
    by_cases heq : m = m₂
    · rw [heq, h.free₂, ← toFinset_pageList, toFinset_card_of_nodup (nodup_pageList _ _), length_pageList]
      exact ⟨hm₂, h.ne, by decide⟩
    · obtain ⟨hlt, hne₁, -, hempty⟩ := h.others m (by
        simp only [mem_append, mem_cons] at hm ⊢
        tauto)
      exact ⟨hlt, hne₁, by rw [hempty]; decide⟩
  refine wp_mono (h.firstBlock.round_spec random (fun m hm => ⟨(hfirst m hm).1, (hfirst m hm).2.1⟩)
    fun m hm _ => .of_few (hfirst m hm).2.2) ?_
  rintro ⟨result₁, a₁⟩ held ⟨-, hsuccess₁, h₁⟩
  simp only at hsuccess₁ h₁
  have hnum₁ := h₁.only.layout.numManagers
  have hleft₁ := Meeting.numPages_left h₁
  have horder'' : (l₁ ++ m₂ :: l₂) ++ m₁ :: l₃ = l₁ ++ m₂ :: (l₂ ++ m₁ :: l₃) := by simp
  show wp (if result₁ = .success then _ else _) _
  rw [if_pos hsuccess₁, takeOfSizes, if_pos (by omega), wp_bind, horder'']
  have hrest : ∀ m ∈ l₁ ++ (l₂ ++ m₁ :: l₃), m < s'.numManagers ∧ m ≠ m₂ ∧ a₁.manager.freePages m = ∅ := by
    intro m hm
    by_cases heq : m = m₁
    · subst heq
      exact ⟨h.layout.numManagers ▸ h.lt₁, hne, by rw [h₁.free, if_pos rfl]⟩
    · obtain ⟨hlt, -, hne₂, hempty⟩ := h.others m (by
        simp only [mem_append, mem_cons] at hm ⊢
        tauto)
      exact ⟨hlt, hne₂, by rw [h₁.free, if_neg heq]; exact hempty⟩
  refine wp_mono ((h.secondBlock h₁).round_spec random (fun m hm => ⟨hnum₁ ▸ (hrest m hm).1,
    (hrest m hm).2.1⟩) fun m hm _ => .of_empty (by decide) (hrest m hm).2.2) ?_
  rintro ⟨result₂, a₂⟩ held ⟨-, hsuccess₂, h₂⟩
  simp only at hsuccess₂ h₂
  show wp (if result₂ = .success then _ else _) _
  rw [if_pos hsuccess₂]
  exact wp_ret.2 ⟨rfl, h.leaks h₁ h₂⟩

end

/-- **An allocation that fails gives everything back**, and one that succeeds what was asked for, for
every state of the heaps, just when the managers of the pool are apart. -/
theorem Managed.allocatePageGroupImpl_iff (hs : Managed s) (pool : Pool) (dir : Direction) :
    (∀ s', Managed s' → SameLayout s s' → ∀ g : KPageGroup, g.blocks = [] → ∀ numPages random,
      Exec.wp (s'.allocatePageGroupImpl g numPages pool dir random) fun r held =>
        held = true ∧ Settled s' numPages (s'.order pool dir) r) ↔
      (s.order pool dir).Pairwise (Apart s) := by
  constructor
  · intro hall
    by_contra hnot
    obtain ⟨l₁, m, l₂, m', l₃, horder, hmeet⟩ := exists_of_not_pairwise hnot
    have hleaks : Leaks s pool dir false := by
      rw [Apart, not_and_or, not_not, not_not] at hmeet
      rcases hmeet with hmeet | ⟨hmeet, hdvd, hroom⟩
      · exact leaks_forward hs horder hmeet false
      · exact leaks_backward hs horder hmeet hdvd hroom false
    obtain ⟨s', g, numPages, hs', hlayout, hg, hleak⟩ := hleaks
    exact hleak (hall s' hs' hlayout g hg numPages false)
  · intro happart s' hs' hlayout g hg numPages random
    have happart' : (s'.order pool dir).Pairwise (Apart s') := by
      rw [hlayout.order]
      refine happart.imp fun {m m'} h => ?_
      rw [Apart, (hlayout.region m).address, (hlayout.region m').address, (hlayout.region m).getEndAddress,
        (hlayout.region m').getEndAddress]
      exact h
    refine Exec.wp_mono (hs'.allocatePageGroupImpl_spec hg numPages pool dir random happart') ?_
    rintro r held ⟨hheld, -, -, -, hsettled⟩
    exact ⟨hheld, hsettled⟩

/-! ### Two managers of a page each -/

/-- Two managers in one pool. -/
def twoManagers (h₀ h₁ : KPageHeap) : KMemoryManager :=
  ⟨fun m => ⟨if m = 0 then h₀ else h₁, fun _ => 0, 1⟩, 2, fun pool => if pool = .application then [0, 1] else []⟩

/-- A heap that is made and given all its pages. -/
def filled (address numPages : ℕ) : Exec KPageHeap := do
  let h ← KPageHeap.initialized (fun _ => KPageHeap.zeros) KPageHeap.zeros address (numPages * PageSize)
  let r ← (KPageHeap.Call.free address numPages).run h
  return r.2

theorem filled_live {address numPages : ℕ} {h : KPageHeap} {held : Bool} (haddress : 0 < address)
    (hpages : 0 < numPages) (hdid : filled address numPages = .ret h held) (hheld : held = true) :
    h.Live ∧ h.heapAddress = address ∧ h.heapSize = numPages * PageSize ∧ h.freePages = rangePages address numPages := by
  have hsize : 0 < numPages * PageSize := Nat.mul_pos hpages (by decide)
  have hwp : wp (filled address numPages) fun h' held' => h' = h ∧ held' = true := ⟨h, held, hdid, rfl, hheld⟩
  rw [filled, wp_bind] at hwp
  obtain ⟨h₀, held₀, hinit, hrest⟩ := hwp
  rw [wp_bind] at hrest
  obtain ⟨r, held₁, hfree, hret⟩ := hrest
  obtain ⟨rfl, hboth⟩ := wp_ret.1 hret
  rw [Bool.and_eq_true, Bool.and_eq_true] at hboth
  obtain ⟨rfl, rfl, -⟩ := hboth
  obtain ⟨hlive, hstart, hregion, hempty⟩ := initialized_live haddress hsize hinit
  have hpage := ((KPageHeap.Reached.initialized hinit).books haddress hsize).1.pages.1
  rw [hstart] at hpage
  have hcall : wp ((KPageHeap.Call.free address numPages).run h₀) fun r _ => r.2.Live ∧
      KPageHeap.SameRegion h₀ r.2 ∧ r.2.freePages = rangePages address numPages := by
    show wp (do
      let h ← h₀.free address numPages
      return (0, h)) _
    rw [wp_bind]
    refine wp_mono (hlive.free_spec hpage hstart.le (by rw [KPageHeap.getEndAddress, hstart, hregion])
      fun x _ hx => ?_) fun h' _ ⟨_, hwent, hfreed⟩ => wp_ret.2 ⟨hwent.live, hwent.region, ?_⟩
    · rw [hempty] at hx
      exact Finset.notMem_empty x hx
    · rw [hfreed, hempty, Finset.empty_union]
  rw [hfree, wp_ret] at hcall
  obtain ⟨hfilled, hsame, hfreed⟩ := hcall
  exact ⟨hfilled, hsame.address.trans hstart, hsame.size.trans hregion, hfreed⟩

theorem managed_two {h₀ h₁ : KPageHeap} (hlive₀ : h₀.Live) (hlive₁ : h₁.Live)
    (hmeets : h₀.getEndAddress = h₁.heapAddress) (hbelow : h₁.getEndAddress ≤ 2 ^ 44)
    (hsize₀ : h₀.heapSize = PageSize) (hsize₁ : h₁.heapSize = PageSize) : Managed (twoManagers h₀ h₁) := by
  have hcases : ∀ m < 2, m = 0 ∨ m = 1 := fun m hm => by omega
  have hpositive := hlive₁.size
  have hend : h₁.getEndAddress = h₁.heapAddress + h₁.heapSize := rfl
  refine ⟨fun m hm => ?_, fun m hm m' hm' hne => ?_, fun m hm => ?_, fun pool m hm => ?_, fun pool => ?_,
    fun m hm => ?_⟩
  · rcases hcases m hm with rfl | rfl
    · exact hlive₀
    · exact hlive₁
  · rcases hcases m hm with rfl | rfl <;> rcases hcases m' hm' with rfl | rfl
    · exact absurd rfl hne
    · exact .inl hmeets.le
    · exact .inr hmeets.le
    · exact absurd rfl hne
  · rcases hcases m hm with rfl | rfl
    · show h₀.getEndAddress ≤ 2 ^ 44
      omega
    · exact hbelow
  · cases pool <;> simp [twoManagers] at hm ⊢
    omega
  · cases pool <;> simp [twoManagers]
  · rcases hcases m hm with rfl | rfl
    · show h₀.heapSize / PageSize ≤ 1
      rw [hsize₀]
      decide
    · show h₁.heapSize / PageSize ≤ 1
      rw [hsize₁]
      decide

/-- A run in which three pages are asked of two managers of a page each. -/
theorem three_pages_of_two : ∃ h₀ h₁ r, Managed (twoManagers h₀ h₁) ∧
    (twoManagers h₀ h₁).allocatePageGroupImpl ⟨[], 2⟩ 3 .application .fromFront false = .ret r true ∧
    r.1 = .outOfMemory ∧ ((twoManagers h₀ h₁).freePages 1).card = 1 ∧ (r.2.1.freePages 1).card = 0 := by
  have hwhole : wp (do
      let h₀ ← filled 0x80000000 1
      let h₁ ← filled 0x80001000 1
      let r ← (twoManagers h₀ h₁).allocatePageGroupImpl ⟨[], 2⟩ 3 .application .fromFront false
      return (r.1, h₁.freePages.card, (r.2.1.managers 1).heap.freePages.card))
      fun v held => v = (.outOfMemory, 1, 0) ∧ held = true := ⟨_, _, by decide +kernel, rfl, rfl⟩
  simp only [wp_bind, pure_eq, wp_ret, Bool.and_eq_true, Prod.mk.injEq] at hwhole
  obtain ⟨h₀, held₀, hdid₀, h₁, held₁, hdid₁, r, held₂, hrun, ⟨hresult, hbefore, hafter⟩, hheld₀, hheld₁, rfl,
    -⟩ := hwhole
  obtain ⟨hlive₀, haddress₀, hsize₀, -⟩ := filled_live (by decide) (by decide) hdid₀ hheld₀
  obtain ⟨hlive₁, haddress₁, hsize₁, -⟩ := filled_live (by decide) (by decide) hdid₁ hheld₁
  refine ⟨h₀, h₁, r, managed_two hlive₀ hlive₁ ?_ ?_ hsize₀ hsize₁, hrun, hresult, hbefore, hafter⟩
  · rw [KPageHeap.getEndAddress, haddress₀, hsize₀, haddress₁]
    rfl
  · rw [KPageHeap.getEndAddress, haddress₁, hsize₁]
    decide

/-- **The allocation fails, and the page of the second manager is lost.** -/
theorem second_page_lost : ∃ s r, Managed s ∧
    s.allocatePageGroupImpl ⟨[], 2⟩ 3 .application .fromFront false = .ret r true ∧
    r.1 = .outOfMemory ∧ (s.freePages 1).card = 1 ∧ (r.2.1.freePages 1).card = 0 ∧
    ¬Settled s 3 (s.order .application .fromFront) r := by
  obtain ⟨h₀, h₁, r, hs, hrun, hresult, hbefore, hafter⟩ := three_pages_of_two
  refine ⟨twoManagers h₀ h₁, r, hs, hrun, hresult, hbefore, hafter, fun hsettled => ?_⟩
  have hsame := (hsettled.failure (by rw [hresult]; exact AllocationResult.noConfusion)).2 1 Nat.one_lt_two
  rw [← hsame, hafter] at hbefore
  exact Nat.zero_ne_one hbefore

/-- A pool of two managers whose pages are next to each other. -/
theorem allocatePageGroupImpl_iff_of_two : ∃ h₀ h₁, Managed (twoManagers h₀ h₁) ∧
    ((∀ s', Managed s' → SameLayout (twoManagers h₀ h₁) s' → ∀ g : KPageGroup, g.blocks = [] →
      ∀ numPages random, Exec.wp (s'.allocatePageGroupImpl g numPages .application .fromFront random)
        fun r held => held = true ∧ Settled s' numPages (s'.order .application .fromFront) r) ↔
      [0, 1].Pairwise (Apart (twoManagers h₀ h₁))) := by
  obtain ⟨h₀, h₁, r, hs, -⟩ := three_pages_of_two
  exact ⟨h₀, h₁, hs, hs.allocatePageGroupImpl_iff .application .fromFront⟩

end KMemoryManager

end Kernel
end NXEmu
