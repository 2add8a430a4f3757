/-
# The pages of a memory tracker

`src/yuzu_video_core/buffer_cache/memory_tracker_base.h`: a routine of a `MemoryTrackerBase` acts
on the pages of its range as those of the word managers do, by a function of the flags of a page
(`Acts`).  A page of a region without a manager has the flags of a new one.
-/

import NXEmu.VideoCore.MemoryTracker
import NXEmu.VideoCore.WordManagerRegions

variable {pageIndex i offset size : ℕ} {m : WordManager} {P : ℕ → Prop}

namespace NXEmu
namespace VideoCommon
namespace MemoryTracker

open Function

variable {t t' : MemoryTracker} {g : ℕ} {F : PageState → PageState} {R : PageState → Prop}

/-- The pages of a manager. -/
abbrev pagesPerManager : ℕ := 1024

/-! ### The regions of a range -/

/-- A page of the part of a region a call is for. -/
def InChunk (c : ℕ × ℕ × ℕ) (g : ℕ) : Prop :=
  g / pagesPerManager = c.1 ∧ WordManager.InRegion c.2.1 c.2.2 (g % pagesPerManager)

/-- **The iterations for a range** are for parts of different regions. -/
theorem chunks_spec (pageIndex : ℕ) (pageOffset : Fin higherPageSize) (remainingSize : ℕ) :
    (∀ c ∈ chunks pageIndex pageOffset remainingSize, pageIndex ≤ c.1 ∧ 0 < c.2.2 ∧ c.2.1 + c.2.2 ≤ higherPageSize) ∧
    (chunks pageIndex pageOffset remainingSize).Pairwise (fun c d => c.1 ≠ d.1) ∧
    (∀ g, (∃ c ∈ chunks pageIndex pageOffset remainingSize, InChunk c g) ↔ 0 < remainingSize ∧
        WordManager.InRegion (pageIndex * higherPageSize + pageOffset) remainingSize g) := by
  induction pageIndex, pageOffset, remainingSize using chunks.induct with
  | case1 pageIndex pageOffset =>
    rw [chunks, if_pos rfl]
    simp
  | case2 pageIndex pageOffset remainingSize h copyAmount ih =>
    obtain ⟨hmem, hpair, hpages⟩ := ih
    have hlt := pageOffset.isLt
    have hcopy : copyAmount = min (higherPageSize - pageOffset) remainingSize := rfl
    rw [chunks, if_neg h]
    refine ⟨?_, ?_, fun g => ?_⟩
    · refine List.forall_mem_cons.2 ⟨⟨Nat.le_refl _, ?_, ?_⟩, fun c hc => ?_⟩
      · dsimp only
        omega
      · dsimp only
        omega
      · have := hmem c hc
        omega
    · refine List.pairwise_cons.2 ⟨fun c hc => ?_, hpair⟩
      have := (hmem c hc).1
      dsimp only
      omega
    · have hcons : (∃ c ∈ (pageIndex, pageOffset.val, copyAmount) ::
          chunks (pageIndex + 1) 0 (remainingSize - copyAmount), InChunk c g) ↔
          InChunk (pageIndex, pageOffset.val, copyAmount) g ∨
          ∃ c ∈ chunks (pageIndex + 1) 0 (remainingSize - copyAmount), InChunk c g := by simp
      refine hcons.trans ?_
      rw [hpages]
      simp only [InChunk, WordManager.InRegion, Fin.val_zero]
      clear_value copyAmount
      simp only [higherPageSize, pagesPerManager, bytesPerPage] at *
      omega

/-! ### Managers -/

/-- A page that no call has changed. -/
def newPage : PageState := fun type => type = .cpu || type = .untracked

/-- A manager of the region `pageIndex`. -/
structure ManagerOk (pageIndex : ℕ) (m : WordManager) : Prop where
  cpuAddr : m.cpuAddr = pageIndex * higherPageSize
  sizeBytes : m.sizeBytes = higherPageSize
  numWords : m.numWords = 16
  work : m.WorkOk

theorem ManagerOk.base (h : ManagerOk pageIndex m) :
    m.cpuAddr = pageIndex * pagesPerManager * bytesPerPage := by
  rw [h.cpuAddr]
  simp only [higherPageSize, pagesPerManager, bytesPerPage]
  omega

theorem ManagerOk.acts {m m' : WordManager} (h : ManagerOk pageIndex m)
    {counts : List CachedCount} (ha : WordManager.Acts F P m m' counts) :
    ManagerOk pageIndex m' where
  cpuAddr := ha.cpuAddr.trans h.cpuAddr
  sizeBytes := ha.sizeBytes.trans h.sizeBytes
  numWords := ha.numWords.trans h.numWords
  work := ha.work h.work

/-- The words of a new manager are full or empty. -/
theorem words_new (cpuAddr : ℕ) (type : StateType) {index : ℕ} (hindex : index < 16) :
    (WordManager.new cpuAddr higherPageSize).words type index =
      if newPage type = true then BitVec.allOnes 64 else 0 := by
  have hlast : (BitVec.allOnes 64 <<< 0) >>> 0 = BitVec.allOnes 64 := by decide
  have hfull : (if index + 1 = 16 then (BitVec.allOnes 64 <<< 0) >>> 0
      else if index < 16 then BitVec.allOnes 64 else 0) = BitVec.allOnes 64 := by
    rw [hlast, if_pos hindex, ite_self]
  cases type with
  | cpu | untracked => exact hfull
  | gpu | cachedCpu | preflushable => rfl

theorem managerOk_new (pageIndex : ℕ) :
    ManagerOk pageIndex (WordManager.new (pageIndex * higherPageSize) higherPageSize) where
  cpuAddr := rfl
  sizeBytes := rfl
  numWords := rfl
  work := by
    intro _ index hindex
    have hlt : index < 16 := hindex
    rw [words_new _ _ hlt, words_new _ _ hlt]
    have hwork : ∀ index < 16, ((1#64 <<< 16) - 1).getLsbD index = true := by decide
    exact hwork index hlt

/-- The pages of a new manager. -/
theorem page_new (cpuAddr : ℕ) (hi : i < pagesPerManager) :
    (WordManager.new cpuAddr higherPageSize).page i = newPage := by
  have hidx : i / 64 < 16 := by
    simp only [pagesPerManager] at hi
    omega
  funext type
  rw [WordManager.page, words_new _ _ hidx]
  split
  · rename_i hfull
    rw [BitVec.getLsbD_allOnes, decide_eq_true (Nat.mod_lt i (by decide)), hfull]
  · rename_i hempty
    rw [Bool.eq_false_of_not_eq_true hempty]
    exact BitVec.getLsbD_zero

/-! ### Acting on pages -/

/-- The flags of a page. -/
def page (t : MemoryTracker) (g : ℕ) : PageState :=
  match t.topTier (g / pagesPerManager) with
  | some m => m.page (g % pagesPerManager)
  | none => newPage

/-- The managers are those of their regions. -/
def ManagersOk (t : MemoryTracker) : Prop :=
  ∀ pageIndex m, t.topTier pageIndex = some m → ManagerOk pageIndex m

/-- A routine that acts on the pages in `P` by `F`, and calls back for those with `R`. -/
structure Acts (F : PageState → PageState) (R : PageState → Prop) (P : ℕ → Prop)
    (t : MemoryTracker) (r : MemoryTracker × List (ℕ × ℕ)) : Prop where
  inside : ∀ g, P g → r.1.page g = F (t.page g)
  outside : ∀ g, ¬ P g → r.1.page g = t.page g
  count : ∀ g, pageCount r.1.counts g =
    pageCount t.counts g + (trackCount (r.1.page g) - trackCount (t.page g))
  reported : ∀ g, Covered r.2 g ↔ P g ∧ R (t.page g)
  managers : r.1.ManagersOk
  regions : ∀ pageIndex, t.topTier pageIndex ≠ none → r.1.topTier pageIndex ≠ none

/-- Nothing done. -/
theorem Acts.refl (ht : t.ManagersOk)
    (h : ∀ g, P g → F (t.page g) = t.page g ∧ ¬ R (t.page g)) : Acts F R P t (t, []) where
  inside g hg := ((h g hg).1).symm
  outside _ _ := rfl
  count g := by simp
  reported g := iff_of_false (WordManager.covered_nil g) fun hg => (h g hg.1).2 hg.2
  managers := ht
  regions _ h := h

/-- **One part of a range after another.** -/
theorem Acts.append {P Q S : ℕ → Prop} {r r' : MemoryTracker × List (ℕ × ℕ)}
    (h : Acts F R P t r) (h' : Acts F R Q r.1 r') (hS : ∀ g, S g ↔ P g ∨ Q g)
    (hdisj : ∀ g, P g → ¬ Q g) : Acts F R S t (r'.1, r.2 ++ r'.2) where
  inside g hg := by
    rcases (hS g).1 hg with hP | hQ
    · rw [h'.outside g (hdisj g hP), h.inside g hP]
    · rw [h'.inside g hQ, h.outside g fun hP => hdisj g hP hQ]
  outside g hg := by
    rw [hS, not_or] at hg
    rw [h'.outside g hg.2, h.outside g hg.1]
  count g := by
    rw [h'.count, h.count, add_assoc]
    congr 1
    exact (add_comm _ _).trans (sub_add_sub_cancel _ _ _)
  reported g := by
    rw [covered_append, h.reported, h'.reported, hS]
    by_cases hQ : Q g
    · rw [h.outside g fun hP => hdisj g hP hQ]
      tauto
    · tauto
  managers := h'.managers
  regions pageIndex hne := h'.regions pageIndex (h.regions pageIndex hne)

/-- What a routine of a manager does to the part of a region. -/
def FuncOk (F : PageState → PageState) (R : PageState → Prop) (P : ℕ → ℕ → ℕ → Prop)
    (func : WordManager → ℕ → ℕ → WordManager × Output) : Prop :=
  ∀ pageIndex m offset size, ManagerOk pageIndex m → 0 < size → offset + size ≤ higherPageSize →
    WordManager.Acts F (P offset size) m (func m offset size).1 (func m offset size).2.counts ∧
    (∀ i, P offset size i → i < pagesPerManager) ∧
    ∀ g, Covered (func m offset size).2.ranges g ↔ pageIndex * pagesPerManager ≤ g ∧
      P offset size (g - pageIndex * pagesPerManager) ∧
        R (m.page (g - pageIndex * pagesPerManager))

theorem page_store (t : MemoryTracker) (pageIndex : ℕ) (r : WordManager × Output) (g : ℕ) :
    (t.store pageIndex r).1.page g =
      if g / pagesPerManager = pageIndex then r.1.page (g % pagesPerManager) else t.page g := by
  rw [page, store]
  dsimp only
  by_cases hg : g / pagesPerManager = pageIndex
  · rw [if_pos hg, hg, update_self]
  · rw [if_neg hg, update_of_ne hg, page]

section

variable {func : WordManager → ℕ → ℕ → WordManager × Output} {P : ℕ → ℕ → ℕ → Prop}

/-- A routine of a manager, called for a region. -/
theorem store_acts (hfunc : FuncOk F R P func) (ht : t.ManagersOk)
    (hm : ManagerOk pageIndex m) (hsize : 0 < size) (hle : offset + size ≤ higherPageSize)
    (hpage : ∀ g, g / pagesPerManager = pageIndex → t.page g = m.page (g % pagesPerManager)) :
    Acts F R (fun g => g / pagesPerManager = pageIndex ∧ P offset size (g % pagesPerManager)) t
      (t.store pageIndex (func m offset size)) := by
  obtain ⟨hacts, hlt, hcov⟩ := hfunc pageIndex m offset size hm hsize hle
  have hlocal : ∀ {g}, g / pagesPerManager = pageIndex →
      pageIndex * pagesPerManager ≤ g ∧ g - pageIndex * pagesPerManager = g % pagesPerManager := by
    intro g hg
    simp only [pagesPerManager] at *
    omega
  refine ⟨fun g hg => ?_, fun g hg => ?_, fun g => ?_, fun g => ?_, ?_, ?_⟩
  · rw [page_store, if_pos hg.1, hacts.inside _ hg.2, hpage g hg.1]
  · rw [page_store]
    split
    · rename_i hidx
      rw [hacts.outside _ fun hP => hg ⟨hidx, hP⟩, hpage g hidx]
    · rfl
  · have hcounts : (t.store pageIndex (func m offset size)).1.counts =
        t.counts ++ (func m offset size).2.counts := rfl
    rw [hcounts, pageCount_append, hacts.count _ hm.base, page_store]
    congr 1
    by_cases hidx : g / pagesPerManager = pageIndex
    · rw [if_pos (hlocal hidx).1, if_pos hidx, (hlocal hidx).2, hpage g hidx]
    · rw [if_neg hidx, sub_self]
      split
      · -- a page behind the region
        have hge : ¬ P offset size (g - pageIndex * pagesPerManager) := fun hP => by
          have := hlt _ hP
          simp only [pagesPerManager] at *
          omega
        rw [hacts.outside _ hge, sub_self]
      · rfl
  · change Covered (func m offset size).2.ranges g ↔ _
    rw [hcov]
    constructor
    · rintro ⟨hle', hP, hR⟩
      have hidx : g / pagesPerManager = pageIndex := by
        have := hlt _ hP
        simp only [pagesPerManager] at *
        omega
      rw [(hlocal hidx).2] at hP hR
      rw [hpage g hidx]
      exact ⟨⟨hidx, hP⟩, hR⟩
    · rintro ⟨⟨hidx, hP⟩, hR⟩
      rw [(hlocal hidx).2]
      rw [hpage g hidx] at hR
      exact ⟨(hlocal hidx).1, hP, hR⟩
  · intro index m' hm'
    change update t.topTier pageIndex (some (func m offset size).1) index = some m' at hm'
    by_cases hidx : index = pageIndex
    · subst hidx
      rw [update_self] at hm'
      cases hm'
      exact hm.acts hacts
    · rw [update_of_ne hidx] at hm'
      exact ht index m' hm'
  · intro index hne
    change update t.topTier pageIndex (some (func m offset size).1) index ≠ none
    by_cases hidx : index = pageIndex
    · rw [hidx, update_self]
      exact Option.some_ne_none _
    · rwa [update_of_ne hidx]

/-- An iteration of `IteratePages`.  Without `create_region_on_fail` it does not do anything to a
new page. -/
theorem visit_acts (create : Bool) (hfunc : FuncOk F R P func)
    (hnew : create = false → F newPage = newPage ∧ ¬ R newPage) (ht : t.ManagersOk)
    (pageIndex : ℕ) (hsize : 0 < size) (hle : offset + size ≤ higherPageSize) :
    Acts F R (fun g => g / pagesPerManager = pageIndex ∧ P offset size (g % pagesPerManager)) t
        (t.visit create func pageIndex offset size) ∧
      (create = true → (t.visit create func pageIndex offset size).1.topTier pageIndex ≠ none) := by
  have hstored : ∀ m, (t.store pageIndex (func m offset size)).1.topTier pageIndex ≠ none := by
    intro m
    change update t.topTier pageIndex (some (func m offset size).1) pageIndex ≠ none
    rw [update_self]
    exact Option.some_ne_none _
  have hmod : ∀ g, g % pagesPerManager < pagesPerManager := fun g => Nat.mod_lt g (by decide)
  rw [visit]
  cases hm : t.topTier pageIndex with
  | some m =>
    refine ⟨store_acts hfunc ht (ht _ _ hm) hsize hle fun g hg => ?_, fun _ => hstored m⟩
    rw [page, hg, hm]
  | none =>
    have hpage : ∀ g, g / pagesPerManager = pageIndex → t.page g = newPage := fun g hg => by
      rw [page, hg, hm]
    cases create with
    | true =>
      refine ⟨store_acts hfunc ht (managerOk_new pageIndex) hsize hle fun g hg => ?_, fun _ => hstored _⟩
      rw [hpage g hg, page_new _ (hmod g)]
    | false =>
      refine ⟨Acts.refl ht fun g hg => ?_, fun h => nomatch h⟩
      rw [hpage g hg.1]
      exact hnew rfl

end

/-- The pages of parts of regions. -/
def InChunks (P : ℕ → ℕ → ℕ → Prop) (cs : List (ℕ × ℕ × ℕ)) (g : ℕ) : Prop :=
  ∃ c ∈ cs, g / pagesPerManager = c.1 ∧ P c.2.1 c.2.2 (g % pagesPerManager)

/-- **Region after region.** -/
theorem visitAll_acts {func : WordManager → ℕ → ℕ → WordManager × Output} {P : ℕ → ℕ → ℕ → Prop}
    (create : Bool) (hfunc : FuncOk F R P func)
    (hnew : create = false → F newPage = newPage ∧ ¬ R newPage) (ht : t.ManagersOk)
    {cs : List (ℕ × ℕ × ℕ)} (hcs : ∀ c ∈ cs, 0 < c.2.2 ∧ c.2.1 + c.2.2 ≤ higherPageSize)
    (hpair : cs.Pairwise fun c d => c.1 ≠ d.1) :
    Acts F R (InChunks P cs) t (t.visitAll create func cs) ∧
      (create = true → ∀ c ∈ cs, (t.visitAll create func cs).1.topTier c.1 ≠ none) := by
  induction cs generalizing t with
  | nil =>
    refine ⟨Acts.refl ht fun g hg => ?_, fun _ c hc => nomatch hc⟩
    obtain ⟨c, hc, -⟩ := hg
    cases hc
  | cons c cs ih =>
    obtain ⟨hsize, hle⟩ := hcs c List.mem_cons_self
    obtain ⟨hfirst, hregion⟩ := visit_acts create hfunc hnew ht c.1 hsize hle
    obtain ⟨hothers, hregions⟩ := ih hfirst.managers
      (fun d hd => hcs d (List.mem_cons_of_mem _ hd)) (List.pairwise_cons.1 hpair).2
    refine ⟨hfirst.append hothers (fun g => ?_) ?_, fun hcreate d hd => ?_⟩
    · simp [InChunks]
    · rintro g ⟨hg, -⟩ ⟨d, hd, hgd, -⟩
      exact (List.pairwise_cons.1 hpair).1 d hd (hg.symm.trans hgd)
    · rcases List.mem_cons.1 hd with rfl | hd
      · exact hothers.regions _ (hregion hcreate)
      · exact hregions hcreate d hd

/-! ### The routines -/

theorem ManagerOk.words (h : ManagerOk pageIndex m) :
    m.numWords = m.sizeBytes / bytesPerWord ∧ bytesPerWord ∣ m.sizeBytes := by
  rw [h.numWords, h.sizeBytes]
  exact ⟨rfl, 16, rfl⟩

theorem inRegion_lt (hle : offset + size ≤ higherPageSize)
    (hi : WordManager.InRegion offset size i) : i < pagesPerManager := by
  simp only [WordManager.InRegion, bytesPerPage, pagesPerManager, higherPageSize] at *
  omega

theorem funcOk_change {type : StateType} (htype : type ≠ .untracked) (enable : Bool) :
    FuncOk (WordManager.changePage type enable) (fun _ => False) WordManager.InRegion fun manager offset size =>
        manager.changeRegionState type enable (manager.cpuAddr + offset) size := by
  intro pageIndex m offset size hm hsize hle
  obtain ⟨hnum, hdvd⟩ := hm.words
  refine ⟨WordManager.changeRegionState_spec htype enable hnum hdvd hsize (hle.trans_eq hm.sizeBytes.symm),
    fun i => inRegion_lt hle, fun g => ?_⟩
  dsimp only
  rw [WordManager.changeRegionState_ranges]
  exact iff_of_false (WordManager.covered_nil g) fun h => h.2.2

theorem funcOk_modified (type : StateType) (htype : type ≠ .untracked) (clear : Bool) :
    FuncOk (WordManager.clearPage type clear) (fun p => WordManager.modifiedPage type p = true)
      WordManager.InRegion fun manager offset size =>
        manager.forEachModifiedRange type clear (manager.cpuAddr + offset) size := by
  intro pageIndex m offset size hm hsize hle
  obtain ⟨hnum, hdvd⟩ := hm.words
  obtain ⟨hacts, hcov⟩ := WordManager.forEachModifiedRange_spec htype clear hm.base hm.work hnum hdvd
    hsize (hle.trans_eq hm.sizeBytes.symm)
  exact ⟨hacts, fun i => inRegion_lt hle, hcov⟩

theorem funcOk_flush : FuncOk WordManager.flushPage (fun _ => False)
    (fun _ _ i => i < pagesPerManager) fun manager _ _ => manager.flushCachedWrites := by
  intro pageIndex m offset size hm _ _
  refine ⟨(WordManager.flushCachedWrites_acts m).congr fun i => ?_, fun _ hi => hi, fun g => ?_⟩
  · rw [hm.numWords]
    simp only [pagesPerManager]
    omega
  · dsimp only
    rw [WordManager.flushCachedWrites_ranges]
    exact iff_of_false (WordManager.covered_nil g) fun h => h.2.2

/-- The iterations for a range have its pages. -/
theorem inChunks_chunksOf (cpuAddr size g : ℕ) :
    InChunks WordManager.InRegion (chunksOf cpuAddr size) g ↔ 0 < size ∧ WordManager.InRegion cpuAddr size g := by
  refine ((chunks_spec _ _ _).2.2 g).trans ?_
  dsimp only
  rw [Nat.div_add_mod' cpuAddr higherPageSize]

theorem chunksOf_size (cpuAddr size : ℕ) :
    ∀ c ∈ chunksOf cpuAddr size, 0 < c.2.2 ∧ c.2.1 + c.2.2 ≤ higherPageSize :=
  fun c hc => ((chunks_spec _ _ _).1 c hc).2

theorem chunksOf_pairwise (cpuAddr size : ℕ) :
    (chunksOf cpuAddr size).Pairwise fun c d => c.1 ≠ d.1 := (chunks_spec _ _ _).2.1

theorem Acts.congr {P Q : ℕ → Prop} {r : MemoryTracker × List (ℕ × ℕ)} (h : Acts F R P t r)
    (hPQ : ∀ g, P g ↔ Q g) : Acts F R Q t r where
  inside g hg := h.inside g ((hPQ g).2 hg)
  outside g hg := h.outside g (mt (hPQ g).1 hg)
  count := h.count
  reported g := (h.reported g).trans (and_congr_left fun _ => hPQ g)
  managers := h.managers
  regions := h.regions

/-- A page in a range of addresses. -/
def InRange (cpuAddr size g : ℕ) : Prop := 0 < size ∧ WordManager.InRegion cpuAddr size g

/-- **The routines that mark or unmark a region.** -/
theorem changeRegion_acts (ht : t.ManagersOk) (type : StateType) (htype : type ≠ .untracked)
    (enable : Bool) (cpuAddr size : ℕ) :
    Acts (WordManager.changePage type enable) (fun _ => False) (InRange cpuAddr size) t
      (changeRegion type enable t cpuAddr size, []) ∧
    ∀ c ∈ chunksOf cpuAddr size, (changeRegion type enable t cpuAddr size).topTier c.1 ≠ none := by
  obtain ⟨hacts, hregions⟩ := visitAll_acts true (funcOk_change htype enable)
    (fun h => nomatch h) ht (chunksOf_size cpuAddr size) (chunksOf_pairwise cpuAddr size)
  have h := hacts.congr (inChunks_chunksOf cpuAddr size)
  exact ⟨{ h with reported := fun g => iff_of_false (WordManager.covered_nil g) fun hg => hg.2 }, hregions rfl⟩

/-- **`ForEachUploadRange`.** -/
theorem forEachUploadRange_acts (ht : t.ManagersOk) (cpuAddr size : ℕ) :
    Acts (WordManager.clearPage .cpu true) (fun p => p .cpu = true) (InRange cpuAddr size) t
      (t.forEachUploadRange cpuAddr size) := by
  have hacts := (visitAll_acts true (funcOk_modified .cpu (by decide) true)
    (fun h => nomatch h) ht (chunksOf_size cpuAddr size) (chunksOf_pairwise cpuAddr size)).1
  have h := hacts.congr (inChunks_chunksOf cpuAddr size)
  refine { h with reported := fun g => ?_ }
  exact (h.reported g).trans (and_congr_right fun _ => by simp [WordManager.modifiedPage])

/-- **`ForEachDownloadRange`.** -/
theorem forEachDownloadRange_acts (ht : t.ManagersOk) (cpuAddr size : ℕ) (clear : Bool) :
    Acts (WordManager.clearPage .gpu clear) (fun p => WordManager.modifiedPage .gpu p = true)
      (InRange cpuAddr size) t (t.forEachDownloadRange cpuAddr size clear) := by
  refine ((visitAll_acts false (funcOk_modified .gpu (by decide) clear)
    (fun _ => ⟨?_, by decide⟩) ht (chunksOf_size cpuAddr size)
    (chunksOf_pairwise cpuAddr size)).1).congr (inChunks_chunksOf cpuAddr size)
  funext type
  cases clear <;> cases type <;> rfl

theorem flushPage_newPage : WordManager.flushPage newPage = newPage := by
  rw [WordManager.flushPage, if_neg (by decide)]

/-- **`FlushCachedWrites`** of a range flushes the regions that the range touches. -/
theorem flushCachedWritesIn_acts (ht : t.ManagersOk) (cpuAddr size : ℕ) :
    Acts WordManager.flushPage (fun _ => False) (fun g => ∃ c ∈ chunksOf cpuAddr size, g / pagesPerManager = c.1) t
      (t.flushCachedWritesIn cpuAddr size, []) := by
  have h := ((visitAll_acts false funcOk_flush (fun _ => ⟨flushPage_newPage, id⟩) ht
    (chunksOf_size cpuAddr size) (chunksOf_pairwise cpuAddr size)).1).congr
    (Q := fun g => ∃ c ∈ chunksOf cpuAddr size, g / pagesPerManager = c.1) fun g => by
      simp only [InChunks, Nat.mod_lt g (show 0 < pagesPerManager by decide), and_true]
  exact { h with reported := fun g => iff_of_false (WordManager.covered_nil g) fun hg => hg.2 }

/-- **`FlushCachedWrites`** flushes the regions of `cached_pages`. -/
theorem flushCachedWrites_acts (ht : t.ManagersOk) {ids : List ℕ} (hids : ids.Nodup) :
    Acts WordManager.flushPage (fun _ => False) (fun g => g / pagesPerManager ∈ ids) t
      (t.flushCachedWrites ids, []) := by
  have hsize : ∀ c ∈ ids.map fun id => (id, 0, higherPageSize),
      0 < c.2.2 ∧ c.2.1 + c.2.2 ≤ higherPageSize := fun c hc => by
    obtain ⟨id, -, rfl⟩ := List.mem_map.1 hc
    exact ⟨show 0 < higherPageSize by decide, Nat.le_of_eq (Nat.zero_add _)⟩
  have hpair : (ids.map fun id => (id, 0, higherPageSize)).Pairwise fun c d => c.1 ≠ d.1 :=
    List.pairwise_map.2 hids
  have h := ((visitAll_acts false funcOk_flush (fun _ => ⟨flushPage_newPage, id⟩) ht
    hsize hpair).1).congr (Q := fun g => g / pagesPerManager ∈ ids) fun g => by
      simp [InChunks, Nat.mod_lt g (show 0 < pagesPerManager by decide)]
  exact { h with reported := fun g => iff_of_false (WordManager.covered_nil g) fun hg => hg.2 }

end MemoryTracker
end VideoCommon
end NXEmu
