/-
# Ranges of pages, through the managers they lie in

What the memory manager says of a page: how many references there are to it (`KMemoryManager.refCount`), and
whether it is free (`KMemoryManager.IsFree`).  A range may begin in the region of one manager and go on in
that of the next; `OpenFirst`, `Open` and `Close` go through them one after the other, and what they do is told
page by page (`Ranged`): the counts in the range change and no others, and what becomes free is what is
handed to `Free`.
-/

import NXEmu.Kernel.MemoryManagerCounts

namespace NXEmu
namespace Kernel

open Common Exec List

variable {address numPages m x : ℕ}

theorem mem_rangePages_add {n n' : ℕ} : x ∈ rangePages address (n + n') ↔
    x ∈ rangePages address n ∨ x ∈ rangePages (address + n * PageSize) n' := by
  rw [← mem_pageList, ← mem_pageList, ← mem_pageList, pageList_add, mem_append]

theorem not_mem_rangePages_of_next {n n' : ℕ} (hx : x ∈ rangePages (address + n * PageSize) n') :
    x ∉ rangePages address n := by
  intro hx'
  have hnodup := nodup_pageList address (n + n')
  rw [pageList_add] at hnodup
  exact (nodup_append.1 hnodup).2.2 x (mem_pageList.2 hx') x (mem_pageList.2 hx) rfl

theorem dvd_of_mem_rangePages (haddr : PageSize ∣ address) (hx : x ∈ rangePages address numPages) : PageSize ∣ x :=
  ((mem_rangePages haddr).1 hx).1

namespace KMemoryManager

variable {s s' s'' : KMemoryManager} {δ : BitVec 16 → BitVec 16} {handed handed' : List (ℕ × ℕ)}

/-- The number of references to a page, 0 outside of the regions. -/
def refCount (s : KMemoryManager) (x : ℕ) : BitVec 16 :=
  match (List.range s.numManagers).find? fun m => s.Within m x with
  | some m => (s.managers m).pageReferenceCounts ((s.managers m).getPageOffset x)
  | none => 0

/-- A page that its manager has free. -/
def IsFree (s : KMemoryManager) (x : ℕ) : Prop := ∃ m < s.numManagers, x ∈ s.freePages m

/-- The pages of a range are in the regions of the managers. -/
def Covers (s : KMemoryManager) (address numPages : ℕ) : Prop :=
  ∀ x ∈ rangePages address numPages, ∃ m < s.numManagers, s.Within m x

theorem Managed.refCount_eq (hs : Managed s) (hm : m < s.numManagers) (hx : s.Within m x) :
    s.refCount x = (s.managers m).pageReferenceCounts ((s.managers m).getPageOffset x) := by
  have hget := hs.getManager_eq hm hx
  rw [getManager] at hget
  rw [refCount]
  cases hfound : (range s.numManagers).find? fun m => s.Within m x with
  | none =>
    rw [hfound] at hget
    cases hget
  | some m' =>
    rw [hfound] at hget
    cases hget
    rfl

theorem refCount_of_outside (hx : ∀ m < s.numManagers, ¬s.Within m x) : s.refCount x = 0 := by
  have hnone : (range s.numManagers).find? (fun m => s.Within m x) = none := by
    rw [find?_eq_none]
    exact fun m hm hw => hx m (mem_range.1 hm) (of_decide_eq_true hw)
  rw [refCount, hnone]

/-! ### What a range is worth -/

/-- **What is left of a range** that is opened or closed. -/
structure Ranged (δ : BitVec 16 → BitVec 16) (s : KMemoryManager) (address numPages : ℕ) (s' : KMemoryManager)
    (handed : List (ℕ × ℕ)) : Prop where
  managed : Managed s'
  layout : SameLayout s s'
  refCount : ∀ x, PageSize ∣ x →
    s'.refCount x = if x ∈ rangePages address numPages then δ (s.refCount x) else s.refCount x
  free : ∀ x, s'.IsFree x ↔ s.IsFree x ∨ x ∈ pagesOf handed

theorem Ranged.zero (hs : Managed s) (address : ℕ) : Ranged δ s address 0 s [] :=
  ⟨hs, .refl s, fun _ _ => rfl, fun _ => ⟨.inl, Or.rec id fun hx => by cases hx⟩⟩

/-- One range, and the one that follows it. -/
theorem Ranged.trans {n n' : ℕ} (h : Ranged δ s address n s' handed)
    (h' : Ranged δ s' (address + n * PageSize) n' s'' handed') :
    Ranged δ s address (n + n') s'' (handed ++ handed') := by
  refine ⟨h'.managed, h.layout.trans h'.layout, fun x hx => ?_, fun x => ?_⟩
  · rw [h'.refCount x hx, h.refCount x hx]
    by_cases hnext : x ∈ rangePages (address + n * PageSize) n'
    · rw [if_pos hnext, if_neg (not_mem_rangePages_of_next hnext), if_pos (mem_rangePages_add.2 (.inr hnext))]
    · rw [if_neg hnext]
      by_cases hfirst : x ∈ rangePages address n
      · rw [if_pos hfirst, if_pos (mem_rangePages_add.2 (.inl hfirst))]
      · rw [if_neg hfirst, if_neg fun hboth => (mem_rangePages_add.1 hboth).elim hfirst hnext]
  · rw [h'.free, h.free, pagesOf_append, mem_append, or_assoc]

/-! ### Within one region -/

/-- A range inside the region of a manager. -/
structure InRegion (s : KMemoryManager) (m address numPages : ℕ) : Prop where
  manager : m < s.numManagers
  aligned : PageSize ∣ address
  start : (s.heap m).heapAddress ≤ address
  finish : address + numPages * PageSize ≤ (s.heap m).getEndAddress

theorem InRegion.within (h : InRegion s m address numPages) (hx : x ∈ rangePages address numPages) : s.Within m x := by
  obtain ⟨-, hle, hlt⟩ := (mem_rangePages h.aligned).1 hx
  exact ⟨h.start.trans hle, hlt.trans_le h.finish⟩

/-- The number of the first page of a range, and that of a page in it. -/
theorem InRegion.offset (h : InRegion s m address numPages) (hs : Managed s) :
    (s.managers m).page ((s.managers m).getPageOffset address) = address ∧
      (s.managers m).getPageOffset address + numPages ≤ (s.heap m).heapSize / PageSize := by
  obtain ⟨hheap, hsize⟩ := (hs.live m h.manager).books.pages
  have hoffset : PageSize ∣ address - (s.heap m).heapAddress := Nat.dvd_sub h.aligned hheap
  have hstart := h.start
  have hfinish := h.finish
  rw [KPageHeap.getEndAddress] at hfinish
  obtain ⟨k, hk⟩ := hoffset
  obtain ⟨n, hn⟩ := hsize
  have hnumber : (s.managers m).getPageOffset address = k := by
    show (address - (s.heap m).heapAddress) / PageSize = k
    rw [hk, Nat.mul_div_cancel_left k (by decide)]
  have hcount : (s.heap m).heapSize / PageSize = n := by
    rw [hn, Nat.mul_div_cancel_left n (by decide)]
  rw [hnumber, hcount]
  constructor
  · show (s.heap m).heapAddress + k * PageSize = address
    rw [Nat.mul_comm, ← hk]
    omega
  · refine Nat.le_of_mul_le_mul_left ?_ (by decide : 0 < PageSize)
    rw [Nat.mul_add, ← hk, ← hn, Nat.mul_comm PageSize numPages]
    omega

theorem page_getPageOffset (hs : Managed s) (hm : m < s.numManagers) (hpage : PageSize ∣ x) (hx : s.Within m x) :
    (s.managers m).page ((s.managers m).getPageOffset x) = x := by
  obtain ⟨hheap, -⟩ := (hs.live m hm).books.pages
  have hle : (s.heap m).heapAddress ≤ x := hx.1
  show (s.heap m).heapAddress + (x - (s.heap m).heapAddress) / PageSize * PageSize = x
  rw [Nat.div_mul_cancel (Nat.dvd_sub hpage hheap)]
  omega

section

variable (h : InRegion s m address numPages) (hs : Managed s)

include h hs

/-- The pages of a range have the numbers from that of the first one on. -/
theorem InRegion.pageList_eq :
    pageList address numPages =
      (range' ((s.managers m).getPageOffset address) numPages).map (s.managers m).page := by
  obtain ⟨hpage, -⟩ := h.offset hs
  rw [range'_eq_map_range, map_map, pageList]
  refine map_congr_left fun p _ => ?_
  show address + p * PageSize = (s.managers m).heap.heapAddress +
    ((s.managers m).getPageOffset address + p) * PageSize
  rw [Nat.add_mul, ← Nat.add_assoc]
  exact congrArg (· + p * PageSize) hpage.symm

/-- What is true of the counts of a range of numbers is true of the counts of its pages. -/
theorem InRegion.forall_refCount {p : BitVec 16 → Prop} :
    (∀ i, (s.managers m).getPageOffset address ≤ i → i < (s.managers m).getPageOffset address + numPages →
      p ((s.managers m).pageReferenceCounts i)) ↔ ∀ x ∈ rangePages address numPages, p (s.refCount x) := by
  have hpages := h.pageList_eq hs
  constructor
  · intro hall x hx
    have hwithin := h.within hx
    rw [hs.refCount_eq h.manager hwithin]
    rw [← mem_pageList, hpages, mem_map] at hx
    obtain ⟨i, hi, rfl⟩ := hx
    have hoffset := Impl.page_injective (page_getPageOffset hs h.manager (Nat.dvd_add
      (hs.live m h.manager).books.pages.1 (Nat.dvd_mul_left _ _)) hwithin)
    rw [hoffset]
    rw [mem_range'_1] at hi
    exact hall i hi.1 hi.2
  · intro hall i hle hlt
    have hx : (s.managers m).page i ∈ rangePages address numPages := by
      rw [← mem_pageList, hpages]
      exact mem_map_of_mem (mem_range'_1.2 ⟨hle, hlt⟩)
    have hwithin := h.within hx
    have hoffset := Impl.page_injective (page_getPageOffset hs h.manager (Nat.dvd_add
      (hs.live m h.manager).books.pages.1 (Nat.dvd_mul_left _ _)) hwithin)
    have hcount := hall _ hx
    rwa [hs.refCount_eq h.manager hwithin, hoffset] at hcount

/-- Writing what a range of a manager came to. -/
theorem InRegion.ranged {impl : Impl}
    (hchanged : Impl.Changed (s.managers m) impl δ ((s.managers m).getPageOffset address) numPages)
    (hhanded : Impl.Handed (s.managers m) impl handed) :
    Ranged δ s address numPages (s.setManager m impl) handed := by
  have hself : (s.setManager m impl).managers m = impl := by
    show Function.update s.managers m impl m = impl
    rw [Function.update_self]
  have hother : ∀ m', m' ≠ m → (s.setManager m impl).managers m' = s.managers m' := by
    intro m' hne
    show Function.update s.managers m impl m' = s.managers m'
    rw [Function.update_of_ne hne]
  have hlayout : SameLayout s (s.setManager m impl) := by
    refine ⟨rfl, rfl, fun m' => ?_, fun m' => ?_⟩
    · rw [heap, heap]
      by_cases hm' : m' = m
      · rw [hm', hself]
        exact hhanded.went.region
      · rw [hother m' hm']
        exact ⟨rfl, rfl⟩
    · by_cases hm' : m' = m
      · rw [hm', hself]
        exact hhanded.numCounts
      · rw [hother m' hm']
  have hmanaged : Managed (s.setManager m impl) := by
    refine hs.of_layout hlayout fun m' hm' => ?_
    rw [heap]
    by_cases hne : m' = m
    · rw [hne, hself]
      exact hhanded.went.live
    · rw [hother m' hne]
      exact hs.live m' hm'
  refine ⟨hmanaged, hlayout, fun x hx => ?_, fun x => ?_⟩
  · by_cases hcovered : ∃ m' < s.numManagers, s.Within m' x
    · obtain ⟨m', hm', hwithin⟩ := hcovered
      rw [hmanaged.refCount_eq hm' ((hlayout.within m' x).2 hwithin), hs.refCount_eq hm' hwithin]
      have hoffset : ((s.setManager m impl).managers m').getPageOffset x = (s.managers m').getPageOffset x := by
        show (x - ((s.setManager m impl).heap m').heapAddress) / PageSize = _
        rw [(hlayout.region m').address]
        rfl
      rw [hoffset]
      by_cases hne : m' = m
      · subst hne
        rw [hself, hchanged]
        refine if_congr ?_ rfl rfl
        rw [← mem_pageList, h.pageList_eq hs, mem_map]
        constructor
        · rintro ⟨hle, hlt⟩
          exact ⟨_, mem_range'_1.2 ⟨hle, hlt⟩, page_getPageOffset hs hm' hx hwithin⟩
        · rintro ⟨i, hi, rfl⟩
          rw [Impl.page_injective (page_getPageOffset hs hm' hx hwithin)]
          exact mem_range'_1.1 hi
      · rw [hother m' hne, if_neg fun hin => hne (hs.within_unique hm' h.manager hwithin (h.within hin))]
    · have houtside : ∀ m' < s.numManagers, ¬s.Within m' x := fun m' hm' hw => hcovered ⟨m', hm', hw⟩
      have houtside' : ∀ m' < s.numManagers, ¬(s.setManager m impl).Within m' x := fun m' hm' hw =>
        houtside m' hm' ((hlayout.within m' x).1 hw)
      rw [refCount_of_outside houtside, refCount_of_outside houtside', if_neg fun hin => houtside m h.manager (h.within hin)]
  · have hfree : ∀ m', (s.setManager m impl).freePages m' =
        if m' = m then s.freePages m ∪ (pagesOf handed).toFinset else s.freePages m' := by
      intro m'
      rw [freePages, heap]
      split_ifs with hne
      · rw [hne, hself]
        exact hhanded.free
      · rw [hother m' hne]
        rfl
    constructor
    · rintro ⟨m', hm', hx⟩
      rw [hfree] at hx
      split_ifs at hx with hne
      · rw [Finset.mem_union, mem_toFinset] at hx
        exact hx.imp (fun hx => ⟨m, h.manager, hx⟩) id
      · exact .inl ⟨m', hm', hx⟩
    · rintro (⟨m', hm', hx⟩ | hx)
      · refine ⟨m', hm', ?_⟩
        rw [hfree]
        split_ifs with hne
        · exact Finset.mem_union_left _ (hne ▸ hx)
        · exact hx
      · refine ⟨m, h.manager, ?_⟩
        rw [hfree, if_pos rfl]
        exact Finset.mem_union_right _ (mem_toFinset.2 hx)

end

/-! ### Through the managers -/

/-- What a range of pages comes to, and when the assertions on the way hold: the counts change by `δ`, and
those pages are handed to `Free` whose counts satisfy `p`. -/
def Comes (δ : BitVec 16 → BitVec 16) (asserted : BitVec 16 → Prop) (p : BitVec 16 → Bool) (s : KMemoryManager)
    (address numPages : ℕ) (r : KMemoryManager × List (ℕ × ℕ)) (held : Bool) : Prop :=
  (held = true ↔ ∀ x ∈ rangePages address numPages, asserted (s.refCount x)) ∧
    Ranged δ s address numPages r.1 r.2 ∧
    pagesOf r.2 = (pageList address numPages).filter fun x => p (s.refCount x)

/-- What a routine of a manager does to a range that is not free. -/
def Manages (f : Impl → (address numPages : ℕ) → Exec (Impl × List (ℕ × ℕ))) (δ : BitVec 16 → BitVec 16)
    (asserted : BitVec 16 → Prop) (p : BitVec 16 → Bool) : Prop :=
  ∀ (s : KMemoryManager) (m address numPages : ℕ), Managed s → InRegion s m address numPages →
    (∀ x ∈ rangePages address numPages, ¬s.IsFree x) →
    Exec.wp (f (s.managers m) address numPages) fun r held =>
      Comes δ asserted p s address numPages (s.setManager m r.1, r.2) held

variable {f : Impl → (address numPages : ℕ) → Exec (Impl × List (ℕ × ℕ))} {asserted : BitVec 16 → Prop}
  {p : BitVec 16 → Bool}

/-- The rest of a range, when a part of it is done. -/
theorem Comes.trans {n n' : ℕ} {r r' : KMemoryManager × List (ℕ × ℕ)} {held held' : Bool}
    (haddr : PageSize ∣ address) (h : Comes δ asserted p s address n r held)
    (h' : Comes δ asserted p r.1 (address + n * PageSize) n' r' held') :
    Comes δ asserted p s address (n + n') (r'.1, r.2 ++ r'.2) (held && held') := by
  obtain ⟨hheld, hranged, hpages⟩ := h
  obtain ⟨hheld', hranged', hpages'⟩ := h'
  have hsame : ∀ x ∈ rangePages (address + n * PageSize) n', r.1.refCount x = s.refCount x := by
    intro x hx
    rw [hranged.refCount x (dvd_of_mem_rangePages (Nat.dvd_add haddr (Nat.dvd_mul_left _ _)) hx),
      if_neg (not_mem_rangePages_of_next hx)]
  refine ⟨?_, hranged.trans hranged', ?_⟩
  · rw [Bool.and_eq_true, hheld, hheld']
    constructor
    · rintro ⟨hfirst, hrest⟩ x hx
      rcases mem_rangePages_add.1 hx with hx | hx
      · exact hfirst x hx
      · exact hsame x hx ▸ hrest x hx
    · intro hall
      refine ⟨fun x hx => hall x (mem_rangePages_add.2 (.inl hx)), fun x hx => ?_⟩
      rw [hsame x hx]
      exact hall x (mem_rangePages_add.2 (.inr hx))
  · rw [pagesOf_append, hpages, hpages', pageList_add, filter_append]
    congr 1
    refine filter_congr fun x hx => ?_
    rw [hsame x (mem_pageList.1 hx)]

/-- **The loops of `OpenFirst`, `Open` and `Close`** over the managers. -/
theorem overManagers_spec (hf : Manages f δ asserted p) : ∀ rounds (s : KMemoryManager) address numPages,
    numPages ≤ rounds → Managed s → PageSize ∣ address → Covers s address numPages →
    (∀ x ∈ rangePages address numPages, ¬s.IsFree x) →
    wp (overManagers f rounds s address numPages) (Comes δ asserted p s address numPages) := by
  have hnone : ∀ (s : KMemoryManager) address, Managed s → Comes δ asserted p s address 0 (s, []) true := by
    intro s address hs
    refine ⟨⟨fun _ x hx => ?_, fun _ => rfl⟩, .zero hs address, rfl⟩
    rw [← mem_pageList] at hx
    cases hx
  intro rounds
  induction rounds with
  | zero =>
    intro s address numPages hle hs _ _ _
    obtain rfl : numPages = 0 := by omega
    exact wp_ret.2 (hnone s address hs)
  | succ rounds ih =>
    intro s address numPages hle hs haddr hcovers hused
    rw [overManagers]
    by_cases hzero : numPages = 0
    · subst hzero
      rw [if_pos rfl]
      exact wp_ret.2 (hnone s address hs)
    have hpos : 0 < PageSize := by decide
    have hfirst : address ∈ rangePages address numPages :=
      (mem_rangePages haddr).2 ⟨haddr, le_rfl, Nat.lt_add_of_pos_right (Nat.mul_pos (by omega) hpos)⟩
    obtain ⟨m, hm, hwithin⟩ := hcovers address hfirst
    obtain ⟨hstart, hend⟩ := hwithin
    -- the first part of the range is what there is of it in the region
    set curPages := min numPages ((s.managers m).getPageOffsetToEnd address) with hcur
    have hregion := (hs.live m hm).books.pages
    have hfinish : PageSize ∣ (s.heap m).getEndAddress := Nat.dvd_add hregion.1 hregion.2
    have hrest : (s.managers m).getPageOffsetToEnd address * PageSize = (s.heap m).getEndAddress - address :=
      Nat.div_mul_cancel (Nat.dvd_sub hfinish haddr)
    have hsome : 0 < (s.managers m).getPageOffsetToEnd address := by
      refine Nat.pos_of_ne_zero fun h0 => ?_
      rw [h0, Nat.zero_mul] at hrest
      have hlt : address < (s.heap m).getEndAddress := hend
      omega
    have hinside : InRegion s m address curPages := by
      refine ⟨hm, haddr, hstart, ?_⟩
      have hmul := Nat.mul_le_mul_right PageSize (Nat.min_le_right numPages ((s.managers m).getPageOffsetToEnd address))
      rw [← hcur, hrest] at hmul
      have hlt : address < (s.heap m).getEndAddress := hend
      omega
    have hparts : curPages + (numPages - curPages) = numPages := Nat.add_sub_cancel' (Nat.min_le_left _ _)
    have hsplit : ∀ {x}, x ∈ rangePages address numPages ↔
        x ∈ rangePages address curPages ∨ x ∈ rangePages (address + curPages * PageSize) (numPages - curPages) := by
      intro x
      rw [← mem_rangePages_add, hparts]
    rw [if_neg hzero, hs.getManager_eq hm ⟨hstart, hend⟩, ret_true_bind, ← hcur, wp_bind]
    refine wp_mono (hf s m address curPages hs hinside fun x hx => hused x (hsplit.2 (.inl hx))) ?_
    rintro ⟨impl, handed⟩ held hdone
    rw [wp_bind]
    have hranged := hdone.2.1
    refine wp_mono (ih (s.setManager m impl) (address + curPages * PageSize) (numPages - curPages) (by omega)
      hranged.managed (Nat.dvd_add haddr (Nat.dvd_mul_left _ _)) (fun x hx => ?_) fun x hx => ?_) ?_
    · obtain ⟨m', hm', hw⟩ := hcovers x (hsplit.2 (.inr hx))
      exact ⟨m', hm', (hranged.layout.within m' x).2 hw⟩
    · rw [hranged.free]
      rintro (hfree | hhanded)
      · exact hused x (hsplit.2 (.inr hx)) hfree
      · rw [hdone.2.2] at hhanded
        exact not_mem_rangePages_of_next hx (mem_pageList.1 (mem_filter.1 hhanded).1)
    · rintro ⟨s₂, rest⟩ held' hdone'
      have hboth := hdone.trans haddr hdone'
      rw [hparts] at hboth
      refine wp_ret.2 ?_
      rw [Bool.and_true]
      exact hboth

/-! ### Open and Close -/

/-- The loop that opens pages, on a range of one manager. -/
theorem manages_openFrom (expected : BitVec 16 → Bool) : Manages (fun m address numPages => do
    let m ← Impl.openFrom expected numPages m (m.getPageOffset address)
    return (m, [])) (fun refCount => refCount + 1) (fun refCount => expected (refCount + 1) = true)
    fun _ => false := by
  intro s m address numPages hs hinside _
  obtain ⟨-, hle⟩ := hinside.offset hs
  rw [wp_bind]
  refine wp_mono (Impl.openFrom_spec expected numPages (s.managers m) _
    (hle.trans (hs.counts m hinside.manager))) ?_
  rintro impl held ⟨hheld, hheap, hnum, hchanged⟩
  refine wp_ret.2 ⟨?_, hinside.ranged hs hchanged ⟨⟨?_, ?_⟩, hnum, ?_⟩, ?_⟩
  · rw [Bool.and_true, hheld]
    exact hinside.forall_refCount hs (p := fun refCount => expected (refCount + 1) = true)
  · rw [hheap]
    exact hs.live m hinside.manager
  · rw [hheap]
    exact ⟨rfl, rfl⟩
  · rw [hheap]
    exact (Finset.union_empty _).symm
  · exact (filter_false _).symm

theorem manages_close : Manages Impl.close (fun refCount => refCount - 1) (fun refCount => 0 < refCount)
    fun refCount => refCount - 1 == 0 := by
  intro s m address numPages hs hinside hused
  obtain ⟨-, hle⟩ := hinside.offset hs
  have hpages := hinside.pageList_eq hs
  have hmem : ∀ i, (s.managers m).getPageOffset address ≤ i → i < (s.managers m).getPageOffset address + numPages →
      (s.managers m).page i ∈ rangePages address numPages := by
    intro i hle hlt
    rw [← mem_pageList, hpages]
    exact mem_map_of_mem (mem_range'_1.2 ⟨hle, hlt⟩)
  have hclosing : Impl.Closing (s.managers m) ((s.managers m).getPageOffset address) numPages 0 0 := by
    refine ⟨hs.live m hinside.manager, hs.counts m hinside.manager, hle, fun i hi hlt hfree => ?_,
      fun hpos => absurd hpos (Nat.lt_irrefl 0), ⟨Nat.zero_le _, fun i _ hlt => absurd hlt (by omega)⟩⟩
    exact hused _ (hmem i hi hlt) ⟨m, hinside.manager, hfree⟩
  refine wp_mono (Impl.closeFrom_spec numPages (s.managers m) _ 0 0 hclosing) ?_
  rintro ⟨impl, handed⟩ held ⟨hheld, hclosed⟩
  refine ⟨?_, hinside.ranged hs hclosed.changed hclosed.handed, ?_⟩
  · rw [hheld]
    exact hinside.forall_refCount hs (p := fun refCount => 0 < refCount)
  · show pagesOf handed = _
    rw [hclosed.pages, Impl.pageList_zero, nil_append, hpages, filter_map, Impl.pagesFrom]
    refine congrArg (map (s.managers m).page) (filter_congr fun i hi => ?_)
    rw [mem_range'_1] at hi
    have hwithin := hinside.within (hmem i hi.1 hi.2)
    have hoffset := Impl.page_injective (page_getPageOffset hs hinside.manager (Nat.dvd_add
      (hs.live m hinside.manager).books.pages.1 (Nat.dvd_mul_left _ _)) hwithin)
    show _ = (s.refCount ((s.managers m).page i) - 1 == 0)
    rw [hs.refCount_eq hinside.manager hwithin, hoffset]

/-- **`Close`** on pages in use: every count goes down by one, and what is handed to `Free`, and becomes free,
is the pages whose count is down to 0, each once. -/
theorem Managed.close_spec (hs : Managed s) (haddr : PageSize ∣ address) (hcovers : Covers s address numPages)
    (hused : ∀ x ∈ rangePages address numPages, ¬s.IsFree x) :
    wp (s.close address numPages)
      (Comes (fun refCount => refCount - 1) (fun refCount => 0 < refCount) (fun refCount => refCount - 1 == 0)
        s address numPages) :=
  overManagers_spec manages_close numPages s address numPages le_rfl hs haddr hcovers hused

end KMemoryManager

end Kernel
end NXEmu
