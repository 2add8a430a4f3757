/-
# The counts of references

`Open`, `OpenFirst` and `Close` go over the pages of a range, through as many managers as it lies in, and
change the count of each (`Counted`).  `Close` gathers the pages whose count is down to 0 and hands them to
`Free` in runs, which come to just these pages, each once, in their order (`Impl.closeFrom_spec`).
-/

import NXEmu.Kernel.MemoryManagerPages

namespace NXEmu
namespace Kernel

open Common Exec List

variable {address numPages index rounds x : ℕ}

/-- The pages of ranges. -/
def pagesOf (ranges : List (ℕ × ℕ)) : List ℕ := ranges.flatMap fun range => pageList range.1 range.2

theorem pagesOf_append (l l' : List (ℕ × ℕ)) : pagesOf (l ++ l') = pagesOf l ++ pagesOf l' :=
  flatMap_append

namespace Impl

variable {m m' m'' : Impl}

/-- The page of a number. -/
def page (m : Impl) (i : ℕ) : ℕ := m.heap.heapAddress + i * PageSize

/-- The pages of the numbers from `index` on whose counts satisfy a condition. -/
def pagesFrom (m : Impl) (p : BitVec 16 → Bool) (index rounds : ℕ) : List ℕ :=
  ((List.range' index rounds).filter fun i => p (m.pageReferenceCounts i)).map m.page

/-- The counts of a range have changed, and no others. -/
def Changed (m m' : Impl) (δ : BitVec 16 → BitVec 16) (index rounds : ℕ) : Prop :=
  ∀ i, m'.pageReferenceCounts i =
    if index ≤ i ∧ i < index + rounds then δ (m.pageReferenceCounts i) else m.pageReferenceCounts i

theorem setCount_self (m : Impl) (index : ℕ) (count : BitVec 16) (i : ℕ) :
    (m.setCount index count).pageReferenceCounts i = if i = index then count else m.pageReferenceCounts i := by
  show Function.update m.pageReferenceCounts index count i = _
  by_cases hi : i = index
  · subst hi
    rw [Function.update_self, if_pos rfl]
  · rw [Function.update_of_ne hi, if_neg hi]

/-- One count first, and then the others. -/
theorem Changed.cons {δ : BitVec 16 → BitVec 16}
    (h : Changed (m.setCount index (δ (m.pageReferenceCounts index))) m' δ (index + 1) rounds) :
    Changed m m' δ index (rounds + 1) := by
  intro i
  rw [h i, setCount_self]
  by_cases hi : i = index
  · subst hi
    rw [if_neg (by omega), if_pos rfl, if_pos (by omega)]
  · rw [if_neg hi]
    by_cases hin : index + 1 ≤ i ∧ i < index + 1 + rounds
    · rw [if_pos hin, if_pos (by omega)]
    · rw [if_neg hin, if_neg (by omega)]

/-- The assertions of a loop over pages are the one of its first page and those of the others. -/
theorem asserted_cons {p : BitVec 16 → Prop} {count : BitVec 16} {held : Bool}
    [Decidable (p (m.pageReferenceCounts index))]
    (hcounts : m'.pageReferenceCounts = (m.setCount index count).pageReferenceCounts)
    (hrest : held = true ↔ ∀ i, index + 1 ≤ i → i < index + 1 + rounds → p (m'.pageReferenceCounts i)) :
    (decide (p (m.pageReferenceCounts index)) && held) = true ↔
      ∀ i, index ≤ i → i < index + (rounds + 1) → p (m.pageReferenceCounts i) := by
  rw [Bool.and_eq_true, decide_eq_true_eq, hrest, hcounts]
  constructor
  · rintro ⟨hfirst, hothers⟩ i hle hlt
    rcases Nat.eq_or_lt_of_le hle with rfl | hlt'
    · exact hfirst
    · have hother := hothers i hlt' (by omega)
      rwa [setCount_self, if_neg (by omega)] at hother
  · intro hall
    refine ⟨hall index le_rfl (by omega), fun i hle hlt => ?_⟩
    rw [setCount_self, if_neg (by omega)]
    exact hall i (by omega) (by omega)

/-- **The loop of `OpenFirst` and `Open`**: every count goes up by one. -/
theorem openFrom_spec (expected : BitVec 16 → Bool) : ∀ rounds (m : Impl) index,
    index + rounds ≤ m.numPageReferenceCounts → wp (openFrom expected rounds m index) fun m' held =>
      (held = true ↔ ∀ i, index ≤ i → i < index + rounds → expected (m.pageReferenceCounts i + 1) = true) ∧
      m'.heap = m.heap ∧ m'.numPageReferenceCounts = m.numPageReferenceCounts ∧
      Changed m m' (fun refCount => refCount + 1) index rounds := by
  intro rounds
  induction rounds with
  | zero =>
    intro m index _
    exact wp_ret.2 ⟨⟨fun _ i hle hlt => absurd hlt (by omega), fun _ => rfl⟩, rfl, rfl, fun i =>
      (if_neg (by omega)).symm⟩
  | succ rounds ih =>
    intro m index hnum
    rw [openFrom, if_pos (by omega), wp_bind, wp_assert]
    refine wp_mono (ih (m.setCount index (m.pageReferenceCounts index + 1)) (index + 1)
      (by rw [Nat.add_right_comm]; exact hnum)) ?_
    rintro m' held ⟨hrest, hheap, hcounts, hchanged⟩
    exact ⟨asserted_cons (p := fun refCount => expected (refCount + 1) = true) rfl hrest, hheap, hcounts,
      hchanged.cons⟩

/-! ### Close -/

/-- What is left of a heap that pages have been handed to. -/
structure Handed (m m' : Impl) (handed : List (ℕ × ℕ)) : Prop where
  went : KPageHeap.Went m.heap m'.heap
  numCounts : m'.numPageReferenceCounts = m.numPageReferenceCounts
  free : m'.heap.freePages = m.heap.freePages ∪ (pagesOf handed).toFinset

theorem Handed.refl (hlive : m.heap.Live) : Handed m m [] :=
  ⟨⟨hlive, ⟨rfl, rfl⟩⟩, rfl, (Finset.union_empty _).symm⟩

theorem Handed.trans {handed handed' : List (ℕ × ℕ)} (h : Handed m m' handed) (h' : Handed m' m'' handed') :
    Handed m m'' (handed ++ handed') := by
  refine ⟨⟨h'.went.live, h'.went.region.address.trans h.went.region.address,
    h'.went.region.size.trans h.went.region.size⟩, h'.numCounts.trans h.numCounts, ?_⟩
  rw [h'.free, h.free, pagesOf_append, toFinset_append, Finset.union_assoc]

/-- A run of pages that are not free. -/
structure Run (m : Impl) (freeStart freeCount : ℕ) : Prop where
  inside : freeStart + freeCount ≤ m.heap.heapSize / PageSize
  used : ∀ i, freeStart ≤ i → i < freeStart + freeCount → m.page i ∉ m.heap.freePages

theorem mem_pageList_page {freeStart freeCount : ℕ} :
    x ∈ pageList (m.page freeStart) freeCount ↔ ∃ i, freeStart ≤ i ∧ i < freeStart + freeCount ∧ x = m.page i := by
  rw [pageList, mem_map]
  constructor
  · rintro ⟨p, hp, rfl⟩
    rw [mem_range] at hp
    refine ⟨freeStart + p, by omega, by omega, ?_⟩
    rw [page, page, Nat.add_mul, Nat.add_assoc]
  · rintro ⟨i, hle, hlt, rfl⟩
    refine ⟨i - freeStart, mem_range.2 (by omega), ?_⟩
    rw [page, page, Nat.add_assoc, ← Nat.add_mul, Nat.add_sub_cancel' hle]

theorem page_injective : Function.Injective m.page := fun i j heq =>
  Nat.eq_of_mul_eq_mul_right (by decide : 0 < PageSize) (Nat.add_left_cancel heq)

/-- **A run is handed to `Free`.** -/
theorem freeRun_spec (hlive : m.heap.Live) {freeStart freeCount : ℕ} (hrun : Run m freeStart freeCount) :
    wp (m.freeRun freeStart freeCount) fun r held => held = true ∧
      r.1.pageReferenceCounts = m.pageReferenceCounts ∧ Handed m r.1 r.2 ∧
      pagesOf r.2 = pageList (m.page freeStart) freeCount := by
  have hpages := hlive.books.pages
  obtain ⟨k, hk⟩ := hpages.2
  have hcount : m.heap.heapSize / PageSize = k := by
    rw [hk]
    exact Nat.mul_div_cancel_left k (by decide)
  have hinside := Nat.mul_le_mul_right PageSize hrun.inside
  rw [hcount, Nat.mul_comm k, ← hk, Nat.add_mul] at hinside
  rw [freeRun, wp_bind]
  refine wp_mono (hlive.free_spec (Nat.dvd_add hpages.1 (Nat.dvd_mul_left _ _)) (Nat.le_add_right _ _)
    (by rw [KPageHeap.getEndAddress]; omega) fun x hx => ?_) ?_
  · obtain ⟨i, hle, hlt, rfl⟩ := mem_pageList_page.1 (mem_pageList.2 hx)
    exact hrun.used i hle hlt
  · rintro heap held ⟨rfl, hwent, hfree⟩
    have hone : pagesOf [(m.page freeStart, freeCount)] = pageList (m.page freeStart) freeCount :=
      append_nil _
    refine wp_ret.2 ⟨rfl, rfl, ⟨hwent, rfl, ?_⟩, hone⟩
    show heap.freePages = m.heap.freePages ∪ (pagesOf [(m.page freeStart, freeCount)]).toFinset
    rw [hone, hfree]
    exact congrArg (m.heap.freePages ∪ ·) (toFinset_pageList _ _).symm

theorem pageList_zero (addr : ℕ) : pageList addr 0 = [] := rfl

theorem pageList_succ (addr numPages : ℕ) :
    pageList addr (numPages + 1) = pageList addr numPages ++ [addr + numPages * PageSize] := by
  rw [pageList_add]
  simp [pageList]

/-- The first number, and the others after its count is written. -/
theorem pagesFrom_succ (m : Impl) (p : BitVec 16 → Bool) (index rounds : ℕ) (count : BitVec 16) :
    m.pagesFrom p index (rounds + 1) = (if p (m.pageReferenceCounts index) then [m.page index] else []) ++
      (m.setCount index count).pagesFrom p (index + 1) rounds := by
  have hsame :
      (range' (index + 1) rounds).filter (fun i => p ((m.setCount index count).pageReferenceCounts i)) =
      (range' (index + 1) rounds).filter fun i => p (m.pageReferenceCounts i) := by
    refine filter_congr fun i hi => ?_
    rw [setCount_self, if_neg (by have := (mem_range'_1.1 hi).1; omega)]
  rw [pagesFrom, pagesFrom, hsame, range'_succ, filter_cons]
  split_ifs <;> rfl

theorem pagesFrom_congr {p : BitVec 16 → Bool} (hcounts : m'.pageReferenceCounts = m.pageReferenceCounts)
    (haddress : m'.heap.heapAddress = m.heap.heapAddress) :
    m'.pagesFrom p index rounds = m.pagesFrom p index rounds := by
  have hpage : m'.page = m.page := by
    funext i
    rw [page, page, haddress]
  rw [pagesFrom, pagesFrom, hcounts, hpage]

/-- What `Close` does from a number on, after a run that it has gathered. -/
structure Closed (m : Impl) (index rounds freeStart freeCount : ℕ) (r : Impl × List (ℕ × ℕ)) : Prop where
  changed : Changed m r.1 (fun refCount => refCount - 1) index rounds
  handed : Handed m r.1 r.2
  pages : pagesOf r.2 = pageList (m.page freeStart) freeCount ++
    m.pagesFrom (fun refCount => refCount - 1 == 0) index rounds

/-- The state of the loop of `Close`: the run that it has gathered ends where it goes on, and none of the
pages is free. -/
structure Closing (m : Impl) (index rounds freeStart freeCount : ℕ) : Prop where
  live : m.heap.Live
  counts : m.heap.heapSize / PageSize ≤ m.numPageReferenceCounts
  inside : index + rounds ≤ m.heap.heapSize / PageSize
  used : ∀ i, index ≤ i → i < index + rounds → m.page i ∉ m.heap.freePages
  meets : 0 < freeCount → freeStart + freeCount = index
  run : Run m freeStart freeCount

variable {freeStart freeCount : ℕ}

/-- The run goes on with a page whose count is down to 0. -/
theorem Closing.gather (h : Closing m index (rounds + 1) freeStart freeCount) (count : BitVec 16) :
    Closing (m.setCount index count) (index + 1) rounds (if 0 < freeCount then freeStart else index)
      (freeCount + 1) := by
  have hinside := h.inside
  refine ⟨h.live, h.counts, by rw [Nat.add_assoc, Nat.add_comm 1]; exact hinside, fun i hle hlt =>
    h.used i (Nat.le_of_succ_le hle) (by omega), fun _ => ?_, ⟨?_, fun i hle hlt => ?_⟩⟩
  · split_ifs with hpos
    · have := h.meets hpos
      omega
    · omega
  · show _ ≤ m.heap.heapSize / PageSize
    split_ifs with hpos
    · have := h.meets hpos
      omega
    · omega
  · show m.page i ∉ m.heap.freePages
    split_ifs at hle hlt with hpos
    · have hmeets := h.meets hpos
      by_cases hin : i < index
      · exact h.run.used i hle (by omega)
      · exact h.used i (by omega) (by omega)
    · exact h.used i (by omega) (by omega)

/-- A page whose count stays above 0 ends the run. -/
theorem Closing.skip (h : Closing m index (rounds + 1) freeStart freeCount) (count : BitVec 16) :
    Closing (m.setCount index count) (index + 1) rounds freeStart 0 := by
  have hinside := h.inside
  have hrun := h.run.inside
  exact ⟨h.live, h.counts, by rw [Nat.add_assoc, Nat.add_comm 1]; exact hinside, fun i hle hlt =>
    h.used i (Nat.le_of_succ_le hle) (by omega), fun hpos => absurd hpos (Nat.lt_irrefl 0),
    ⟨by show freeStart + 0 ≤ m.heap.heapSize / PageSize; omega, fun i hle hlt => absurd hlt (by omega)⟩⟩

/-- A run that is handed over leaves the pages that follow in use. -/
theorem Closing.handOver {handed : List (ℕ × ℕ)} (h : Closing m index (rounds + 1) freeStart freeCount)
    (hpos : 0 < freeCount) (hhanded : Handed m m' handed)
    (hpages : pagesOf handed = pageList (m.page freeStart) freeCount) :
    Closing m' index (rounds + 1) freeStart 0 := by
  have hregion := hhanded.went.region
  refine ⟨hhanded.went.live, by rw [hregion.size, hhanded.numCounts]; exact h.counts,
    by rw [hregion.size]; exact h.inside, fun i hle hlt => ?_, fun h0 => absurd h0 (Nat.lt_irrefl 0),
    ⟨by rw [hregion.size]; exact Nat.le_trans (Nat.add_le_add_left (Nat.zero_le _) _) h.run.inside,
      fun i hle hlt => absurd hlt (by omega)⟩⟩
  have hpage : m'.page i = m.page i := by rw [page, page, hregion.address]
  rw [hpage, hhanded.free, Finset.mem_union, mem_toFinset, hpages, mem_pageList_page]
  rintro (hfree | ⟨j, -, hj, heq⟩)
  · exact h.used i hle hlt hfree
  · have hmeets := h.meets hpos
    have := page_injective heq
    omega

/-- **The loop of `Close`**: every count goes down by one, and the pages whose count is down to 0 are handed
to `Free`, each once and in their order; its assertions hold just when every count was positive. -/
theorem closeFrom_spec : ∀ rounds (m : Impl) index freeStart freeCount, Closing m index rounds freeStart freeCount →
    wp (closeFrom rounds m index freeStart freeCount) fun r held =>
      (held = true ↔ ∀ i, index ≤ i → i < index + rounds → 0 < m.pageReferenceCounts i) ∧
        Closed m index rounds freeStart freeCount r := by
  intro rounds
  induction rounds with
  | zero =>
    intro m index freeStart freeCount h
    have hnone : Changed m m (fun refCount => refCount - 1) index 0 := fun i => (if_neg (by omega)).symm
    rw [closeFrom]
    split_ifs with hpos
    · refine wp_mono (freeRun_spec h.live h.run) ?_
      rintro r held ⟨rfl, hcounts, hhanded, hpages⟩
      refine ⟨⟨fun _ i hle hlt => absurd hlt (by omega), fun _ => rfl⟩, ⟨fun i => ?_, hhanded, ?_⟩⟩
      · rw [hcounts]
        exact hnone i
      · rw [hpages]
        exact (append_nil _).symm
    · obtain rfl : freeCount = 0 := by omega
      exact wp_ret.2 ⟨⟨fun _ i hle hlt => absurd hlt (by omega), fun _ => rfl⟩, hnone, .refl h.live, rfl⟩
  | succ rounds ih =>
    intro m index freeStart freeCount h
    have hindex : index < m.numPageReferenceCounts := by
      have hinside := h.inside
      have hcounts := h.counts
      omega
    rw [closeFrom, if_pos hindex, wp_bind, wp_assert]
    have hfirst := pagesFrom_succ m (fun refCount => refCount - 1 == 0) index rounds
      (m.pageReferenceCounts index - 1)
    by_cases hzero : m.pageReferenceCounts index - 1 = 0
    · -- the page joins the run, or begins one
      have hgather := h.gather (m.pageReferenceCounts index - 1)
      rw [if_pos (by simpa using hzero)] at hfirst
      have hjoined : pageList (m.page (if 0 < freeCount then freeStart else index)) (freeCount + 1) =
          pageList (m.page freeStart) freeCount ++ [m.page index] := by
        split_ifs with hpos
        · have hlast : m.page freeStart + freeCount * PageSize = m.page index := by
            rw [page, page, Nat.add_assoc, ← Nat.add_mul, h.meets hpos]
          rw [pageList_succ, hlast]
        · obtain rfl : freeCount = 0 := by omega
          rw [pageList_succ, Nat.zero_mul, Nat.add_zero, pageList_zero, pageList_zero]
      have hspec : wp (closeFrom rounds (m.setCount index (m.pageReferenceCounts index - 1)) (index + 1)
          (if 0 < freeCount then freeStart else index) (freeCount + 1)) fun r held =>
          ((decide (0 < m.pageReferenceCounts index) && held) = true ↔
            ∀ i, index ≤ i → i < index + (rounds + 1) → 0 < m.pageReferenceCounts i) ∧
          Closed m index (rounds + 1) freeStart freeCount r := by
        refine wp_mono (ih _ _ _ _ hgather) ?_
        rintro r held ⟨hrest, hclosed⟩
        refine ⟨asserted_cons (p := fun refCount => 0 < refCount) rfl hrest, hclosed.changed.cons,
          ⟨hclosed.handed.went, hclosed.handed.numCounts,
          hclosed.handed.free⟩, ?_⟩
        rw [hclosed.pages, hfirst, ← append_assoc]
        exact congrArg (· ++ _) hjoined
      simp only [hzero, if_true]
      rw [hzero] at hspec
      split_ifs with hpos
      · rw [if_pos hpos] at hspec
        exact hspec
      · rw [if_neg hpos] at hspec
        obtain rfl : freeCount = 0 := by omega
        exact hspec
    · -- the run, if there is one, is handed over
      rw [if_neg (by simpa using hzero), nil_append] at hfirst
      simp only [if_neg hzero]
      split_ifs with hpos
      · rw [wp_bind]
        refine wp_mono (freeRun_spec (m := m.setCount index (m.pageReferenceCounts index - 1)) h.live
          ⟨h.run.inside, h.run.used⟩) ?_
        rintro ⟨m₁, handed⟩ held₁ ⟨rfl, hcounts, hhanded, hpages⟩
        have hclosing : Closing m₁ index (rounds + 1) freeStart 0 :=
          h.handOver hpos ⟨hhanded.went, hhanded.numCounts, hhanded.free⟩ hpages
        have hskip := hclosing.skip (m₁.pageReferenceCounts index)
        have hkept : m₁.setCount index (m₁.pageReferenceCounts index) = m₁ := by
          rw [setCount, Function.update_eq_self]
        rw [hkept] at hskip
        rw [wp_bind]
        refine wp_mono (ih _ _ _ _ hskip) ?_
        rintro ⟨m₂, rest⟩ held ⟨hrest, hclosed⟩
        refine wp_ret.2 ⟨?_, ?_, ?_, ?_⟩
        · rw [Bool.true_and, Bool.and_true]
          exact asserted_cons (p := fun refCount => 0 < refCount) hcounts hrest
        · have hchanged := hclosed.changed
          rw [Changed, hcounts] at hchanged
          exact Changed.cons hchanged
        · have htrans := hhanded.trans hclosed.handed
          exact ⟨htrans.went, htrans.numCounts, htrans.free⟩
        · rw [pagesOf_append, hpages, hclosed.pages, hfirst, pagesFrom_congr hcounts hhanded.went.region.address]
          rfl
      · obtain rfl : freeCount = 0 := by omega
        refine wp_mono (ih _ _ _ _ (h.skip (m.pageReferenceCounts index - 1))) ?_
        rintro r held ⟨hrest, hclosed⟩
        refine ⟨asserted_cons (p := fun refCount => 0 < refCount) rfl hrest, hclosed.changed.cons,
          ⟨hclosed.handed.went, hclosed.handed.numCounts,
          hclosed.handed.free⟩, ?_⟩
        rw [hclosed.pages, hfirst]
        rfl

end Impl

end Kernel
end NXEmu
