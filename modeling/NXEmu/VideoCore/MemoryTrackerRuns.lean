/-
# Runs of a memory tracker

`src/yuzu_video_core/buffer_cache/memory_tracker_base.h`: a tracker after any calls.  A dirty page
is untracked, the device tracker counts just the tracked pages, and a page that was written stays
dirty or cached until an upload reports it or an unmark takes it when it is dirty.
-/

import NXEmu.VideoCore.MemoryTrackerPages

variable {c : TrackerCall}

namespace NXEmu
namespace VideoCommon

/-- A call of a memory tracker. -/
inductive TrackerCall where
  | markRegionAsCpuModified (cpuAddr size : ℕ)
  | unmarkRegionAsCpuModified (cpuAddr size : ℕ)
  | markRegionAsGpuModified (cpuAddr size : ℕ)
  | unmarkRegionAsGpuModified (cpuAddr size : ℕ)
  | markRegionAsPreflushable (cpuAddr size : ℕ)
  | unmarkRegionAsPreflushable (cpuAddr size : ℕ)
  | cachedCpuWrite (cpuAddr size : ℕ)
  | flushCachedWritesIn (cpuAddr size : ℕ)
  | flushCachedWrites (ids : List ℕ)
  | forEachUploadRange (cpuAddr size : ℕ)
  | forEachDownloadRange (cpuAddr size : ℕ) (clear : Bool)
  | forEachDownloadRangeAndClear (cpuAddr size : ℕ)

open MemoryTracker (InRange pagesPerManager)

namespace TrackerCall

variable {t : MemoryTracker} {g : ℕ}

/-- The call, with the ranges its callback gets. -/
def exec (t : MemoryTracker) : TrackerCall → MemoryTracker × List (ℕ × ℕ)
  | markRegionAsCpuModified cpuAddr size => (t.markRegionAsCpuModified cpuAddr size, [])
  | unmarkRegionAsCpuModified cpuAddr size => (t.unmarkRegionAsCpuModified cpuAddr size, [])
  | markRegionAsGpuModified cpuAddr size => (t.markRegionAsGpuModified cpuAddr size, [])
  | unmarkRegionAsGpuModified cpuAddr size => (t.unmarkRegionAsGpuModified cpuAddr size, [])
  | markRegionAsPreflushable cpuAddr size => (t.markRegionAsPreflushable cpuAddr size, [])
  | unmarkRegionAsPreflushable cpuAddr size => (t.unmarkRegionAsPreflushable cpuAddr size, [])
  | cachedCpuWrite cpuAddr size => (t.cachedCpuWrite cpuAddr size, [])
  | flushCachedWritesIn cpuAddr size => (t.flushCachedWritesIn cpuAddr size, [])
  | flushCachedWrites ids => (t.flushCachedWrites ids, [])
  | forEachUploadRange cpuAddr size => t.forEachUploadRange cpuAddr size
  | forEachDownloadRange cpuAddr size clear => t.forEachDownloadRange cpuAddr size clear
  | forEachDownloadRangeAndClear cpuAddr size => t.forEachDownloadRangeAndClear cpuAddr size

/-- A range inside the 34-bit space; the set of regions in some order. -/
def Valid (t : MemoryTracker) : TrackerCall → Prop
  | flushCachedWrites ids => ids.Nodup ∧ ∀ id, id ∈ ids ↔ id ∈ t.cachedPages
  | markRegionAsCpuModified cpuAddr size | unmarkRegionAsCpuModified cpuAddr size
  | markRegionAsGpuModified cpuAddr size | unmarkRegionAsGpuModified cpuAddr size
  | markRegionAsPreflushable cpuAddr size | unmarkRegionAsPreflushable cpuAddr size
  | cachedCpuWrite cpuAddr size | flushCachedWritesIn cpuAddr size
  | forEachUploadRange cpuAddr size | forEachDownloadRange cpuAddr size _
  | forEachDownloadRangeAndClear cpuAddr size => cpuAddr + size ≤ 2 ^ 34

/-- The call writes the page. -/
def Writes (g : ℕ) : TrackerCall → Prop
  | markRegionAsCpuModified cpuAddr size | cachedCpuWrite cpuAddr size => InRange cpuAddr size g
  | _ => False

/-- The call flushes the page. -/
def Flushes (g : ℕ) : TrackerCall → Prop
  | flushCachedWrites _ => True
  | flushCachedWritesIn cpuAddr size => InRange cpuAddr size g
  | _ => False

/-- The call takes the page: an upload reports it, or an unmark covers it when it is dirty. -/
def Releases (t : MemoryTracker) (g : ℕ) (c : TrackerCall) : Prop :=
  match c with
  | unmarkRegionAsCpuModified cpuAddr size => InRange cpuAddr size g ∧ t.page g .cpu = true
  | forEachUploadRange cpuAddr size =>
    InRange cpuAddr size g ∧ Covered (t.forEachUploadRange cpuAddr size).2 g
  | _ => False

/-! ### What a call does to a page -/

/-- What a call does to the flags of a page. -/
def onPage : TrackerCall → PageState → PageState
  | markRegionAsCpuModified .. => WordManager.changePage .cpu true
  | unmarkRegionAsCpuModified .. => WordManager.changePage .cpu false
  | markRegionAsGpuModified .. => WordManager.changePage .gpu true
  | unmarkRegionAsGpuModified .. => WordManager.changePage .gpu false
  | markRegionAsPreflushable .. => WordManager.changePage .preflushable true
  | unmarkRegionAsPreflushable .. => WordManager.changePage .preflushable false
  | cachedCpuWrite .. => WordManager.changePage .cachedCpu true
  | flushCachedWritesIn .. | flushCachedWrites .. => WordManager.flushPage
  | forEachUploadRange .. => WordManager.clearPage .cpu true
  | forEachDownloadRange _ _ clear => WordManager.clearPage .gpu clear
  | forEachDownloadRangeAndClear .. => WordManager.clearPage .gpu true

/-- The pages a call is about: those of its range, or of the regions it flushes. -/
def Touches (g : ℕ) : TrackerCall → Prop
  | flushCachedWrites ids => g / pagesPerManager ∈ ids
  | flushCachedWritesIn cpuAddr size =>
    ∃ c ∈ MemoryTracker.chunksOf cpuAddr size, g / pagesPerManager = c.1
  | markRegionAsCpuModified cpuAddr size | unmarkRegionAsCpuModified cpuAddr size
  | markRegionAsGpuModified cpuAddr size | unmarkRegionAsGpuModified cpuAddr size
  | markRegionAsPreflushable cpuAddr size | unmarkRegionAsPreflushable cpuAddr size
  | cachedCpuWrite cpuAddr size | forEachUploadRange cpuAddr size
  | forEachDownloadRange cpuAddr size _ | forEachDownloadRangeAndClear cpuAddr size =>
    InRange cpuAddr size g

/-- The pages a call reports. -/
def Reports : TrackerCall → PageState → Prop
  | forEachUploadRange .. => fun p => p .cpu = true
  | forEachDownloadRange .. | forEachDownloadRangeAndClear .. =>
    fun p => WordManager.modifiedPage .gpu p = true
  | _ => fun _ => False

/-- **A call acts on the pages it touches.** -/
theorem exec_acts (ht : t.ManagersOk) (hc : c.Valid t) :
    MemoryTracker.Acts c.onPage c.Reports (fun g => c.Touches g) t (c.exec t) := by
  cases c with
  | markRegionAsCpuModified | unmarkRegionAsCpuModified | markRegionAsGpuModified
  | unmarkRegionAsGpuModified | markRegionAsPreflushable | unmarkRegionAsPreflushable =>
    exact (MemoryTracker.changeRegion_acts ht _ (by decide) _ _ _).1
  | cachedCpuWrite cpuAddr size =>
    have h := (MemoryTracker.changeRegion_acts ht .cachedCpu (by decide) true cpuAddr size).1
    exact { h with }
  | flushCachedWritesIn => exact MemoryTracker.flushCachedWritesIn_acts ht _ _
  | flushCachedWrites => exact MemoryTracker.flushCachedWrites_acts ht hc.1
  | forEachUploadRange => exact MemoryTracker.forEachUploadRange_acts ht _ _
  | forEachDownloadRange | forEachDownloadRangeAndClear =>
    exact MemoryTracker.forEachDownloadRange_acts ht _ _ _

section Flags

open WordManager

variable {p : PageState}

/-- A dirty page stays untracked. -/
theorem onPage_untracked (c : TrackerCall) (hp : p .cpu = true → p .untracked = true) :
    c.onPage p .cpu = true → c.onPage p .untracked = true := by
  cases c with
  | flushCachedWritesIn | flushCachedWrites =>
    simp only [onPage, flushPage]
    split <;> simp_all
  | forEachDownloadRange _ _ clear =>
    cases clear <;> simpa [onPage, clearPage, tracks] using hp
  | forEachDownloadRangeAndClear | markRegionAsGpuModified | unmarkRegionAsGpuModified
  | markRegionAsPreflushable | unmarkRegionAsPreflushable | cachedCpuWrite
  | markRegionAsCpuModified | unmarkRegionAsCpuModified | forEachUploadRange =>
    simp_all [onPage, clearPage, changePage, tracks, modifiedPage]

/-- Only a cached write makes a page cached. -/
theorem onPage_cachedCpu (hc : ∀ cpuAddr size, c ≠ cachedCpuWrite cpuAddr size) :
    c.onPage p .cachedCpu = true → p .cachedCpu = true := by
  cases c with
  | flushCachedWritesIn | flushCachedWrites =>
    simp only [onPage, flushPage]
    split <;> simp_all
  | forEachDownloadRange _ _ clear => cases clear <;> simp [onPage, clearPage, tracks]
  | cachedCpuWrite cpuAddr size => exact absurd rfl (hc cpuAddr size)
  | forEachDownloadRangeAndClear | markRegionAsGpuModified | unmarkRegionAsGpuModified
  | markRegionAsPreflushable | unmarkRegionAsPreflushable
  | markRegionAsCpuModified | unmarkRegionAsCpuModified | forEachUploadRange =>
    simp +contextual [onPage, clearPage, changePage, tracks, modifiedPage]

/-- A page stays dirty or cached when no upload and no unmark finds it dirty. -/
theorem onPage_dirty (hp : p .cpu = true ∨ p .cachedCpu = true)
    (hunmark : ∀ cpuAddr size, c = unmarkRegionAsCpuModified cpuAddr size → p .cpu = false)
    (hupload : ∀ cpuAddr size, c = forEachUploadRange cpuAddr size → p .cpu = false) :
    c.onPage p .cpu = true ∨ c.onPage p .cachedCpu = true := by
  cases c with
  | flushCachedWritesIn | flushCachedWrites =>
    simp only [onPage, flushPage]
    split <;> simp_all
  | forEachDownloadRange _ _ clear =>
    cases clear <;> simpa [onPage, clearPage, tracks] using hp
  | unmarkRegionAsCpuModified cpuAddr size =>
    have := hunmark cpuAddr size rfl
    simp_all [onPage, changePage, tracks]
  | forEachUploadRange cpuAddr size =>
    have := hupload cpuAddr size rfl
    simp_all [onPage, clearPage, tracks]
  | forEachDownloadRangeAndClear | markRegionAsGpuModified | unmarkRegionAsGpuModified
  | markRegionAsPreflushable | unmarkRegionAsPreflushable | markRegionAsCpuModified
  | cachedCpuWrite =>
    simp_all [onPage, clearPage, changePage, tracks]

/-- A write makes its pages dirty or cached. -/
theorem Writes.onPage (hc : c.Writes g) (p : PageState) :
    c.Touches g ∧ (c.onPage p .cpu = true ∨ c.onPage p .cachedCpu = true) := by
  cases c with
  | markRegionAsCpuModified | cachedCpuWrite =>
    exact ⟨hc, by simp [TrackerCall.onPage, changePage, tracks]⟩
  | _ => exact hc.elim

/-- A flush makes the cached pages dirty. -/
theorem Flushes.onPage (hc : c.Flushes g) (p : PageState) :
    c.onPage p .cachedCpu = false ∧ (p .cpu = true ∨ p .cachedCpu = true → c.onPage p .cpu = true) := by
  cases c with
  | flushCachedWritesIn | flushCachedWrites =>
    simp only [TrackerCall.onPage, flushPage]
    split <;> simp_all
  | _ => exact hc.elim

end Flags

/-! ### The set of regions with cached writes -/

theorem visitAll_cachedPages (create : Bool) (func : WordManager → ℕ → ℕ → WordManager × Output)
    (cs : List (ℕ × ℕ × ℕ)) : (t.visitAll create func cs).1.cachedPages = t.cachedPages := by
  induction cs generalizing t with
  | nil => rfl
  | cons c cs ih =>
    refine ih.trans ?_
    rw [MemoryTracker.visit]
    split
    · rfl
    · split <;> rfl

/-- A region with cached pages is in the set, and it has a manager. -/
structure CachedOk (t : MemoryTracker) : Prop where
  mem : ∀ g, t.page g .cachedCpu = true → g / pagesPerManager ∈ t.cachedPages
  regions : ∀ id ∈ t.cachedPages, t.topTier id ≠ none

/-- A call that leaves the set alone. -/
theorem CachedOk.of_same (h : CachedOk t) (ht : t.ManagersOk) (hc : c.Valid t)
    (hwrite : ∀ cpuAddr size, c ≠ cachedCpuWrite cpuAddr size)
    (hsame : (c.exec t).1.cachedPages = t.cachedPages) : CachedOk (c.exec t).1 := by
  have hacts := exec_acts ht hc
  refine ⟨fun g hg => ?_, fun id hid => hacts.regions id (h.regions id (hsame ▸ hid))⟩
  rw [hsame]
  by_cases htouch : c.Touches g
  · rw [hacts.inside g htouch] at hg
    exact h.mem g (onPage_cachedCpu hwrite hg)
  · rw [hacts.outside g htouch] at hg
    exact h.mem g hg

theorem CachedOk.exec (h : CachedOk t) (ht : t.ManagersOk) (hc : c.Valid t) :
    CachedOk (c.exec t).1 := by
  have hacts := exec_acts ht hc
  cases c with
  | cachedCpuWrite cpuAddr size =>
    have hregions := (MemoryTracker.changeRegion_acts ht .cachedCpu (by decide) true
      cpuAddr size).2
    refine ⟨fun g hg => ?_, fun id hid => ?_⟩
    · by_cases htouch : InRange cpuAddr size g
      · obtain ⟨c, hc, hidx, -⟩ := (MemoryTracker.inChunks_chunksOf cpuAddr size g).2 htouch
        refine Finset.mem_union_right _ (List.mem_toFinset.2 (List.mem_map.2 ⟨c, hc, hidx.symm⟩))
      · rw [hacts.outside g htouch] at hg
        exact Finset.mem_union_left _ (h.mem g hg)
    · rcases Finset.mem_union.1 hid with hid | hid
      · exact hacts.regions id (h.regions id hid)
      · obtain ⟨c, hc, rfl⟩ := List.mem_map.1 (List.mem_toFinset.1 hid)
        exact hregions c hc
  | flushCachedWrites ids =>
    refine ⟨fun g hg => ?_, fun id hid => absurd hid (Finset.notMem_empty id)⟩
    by_cases htouch : g / pagesPerManager ∈ ids
    · rw [hacts.inside g htouch, (Flushes.onPage (c := flushCachedWrites ids) (g := g) trivial _).1] at hg
      cases hg
    · rw [hacts.outside g htouch] at hg
      exact absurd ((hc.2 _).2 (h.mem g hg)) htouch
  | _ => exact h.of_same ht hc (fun _ _ h => nomatch h) (visitAll_cachedPages ..)

end TrackerCall

/-! ### Runs -/

namespace MemoryTracker

variable {t u : MemoryTracker} {g : ℕ}

/-- A page that the CPU wrote and that was not uploaded. -/
def Dirty (t : MemoryTracker) (g : ℕ) : Prop :=
  t.page g .cpu = true ∨ t.page g .cachedCpu = true

/-- A page of an existing manager with its untracked bit clear. -/
def Tracked (t : MemoryTracker) (g : ℕ) : Prop :=
  ∃ m, t.topTier (g / pagesPerManager) = some m ∧ m.page (g % pagesPerManager) .untracked = false

/-- The trackers that calls lead to. -/
inductive Run : MemoryTracker → Prop
  | new : Run new
  | call {t : MemoryTracker} (c : TrackerCall) (run : Run t) (valid : c.Valid t) : Run (c.exec t).1

/-- The trackers that calls lead to from `t`, none of which takes the page `g`. -/
inductive KeptRun (g : ℕ) (t : MemoryTracker) : MemoryTracker → Prop
  | refl : KeptRun g t t
  | call {u : MemoryTracker} (c : TrackerCall) (run : KeptRun g t u) (valid : c.Valid u)
    (kept : ¬ c.Releases u g) : KeptRun g t (c.exec u).1

/-- What holds of a tracker after any calls. -/
structure Invariant (t : MemoryTracker) : Prop where
  managers : t.ManagersOk
  untracked : ∀ g, t.page g .cpu = true → t.page g .untracked = true
  counted : ∀ g, pageCount t.counts g = trackCount (t.page g)
  cached : TrackerCall.CachedOk t

theorem invariant_new : Invariant new where
  managers _ _ h := nomatch h
  untracked _ _ := rfl
  counted _ := rfl
  cached := ⟨fun _ h => (nomatch h), fun id hid => absurd hid (Finset.notMem_empty id)⟩

/-- **A call keeps the invariant.** -/
theorem Invariant.exec (h : Invariant t) (hc : c.Valid t) :
    Invariant (c.exec t).1 := by
  have hacts := TrackerCall.exec_acts h.managers hc
  refine ⟨hacts.managers, fun g => ?_, fun g => ?_, h.cached.exec h.managers hc⟩
  · by_cases htouch : c.Touches g
    · rw [hacts.inside g htouch]
      exact c.onPage_untracked (h.untracked g)
    · rw [hacts.outside g htouch]
      exact h.untracked g
  · rw [hacts.count, h.counted, add_sub_cancel]

theorem Run.invariant (h : Run t) : Invariant t := by
  induction h with
  | new => exact invariant_new
  | call c _ valid ih => exact ih.exec valid

theorem KeptRun.invariant (h : KeptRun g t u) (ht : Invariant t) : Invariant u := by
  induction h with
  | refl => exact ht
  | call c _ valid _ ih => exact ih.exec valid

theorem trackCount_page (t : MemoryTracker) (g : ℕ) [Decidable (t.Tracked g)] :
    trackCount (t.page g) = if t.Tracked g then 1 else 0 := by
  have htracked : t.Tracked g ↔ t.page g .untracked = false := by
    rw [Tracked, page]
    cases t.topTier (g / pagesPerManager) <;> simp [newPage]
  cases hg : t.page g .untracked <;> simp [trackCount, htracked, hg]

/-- A call that does not take a dirty page leaves it dirty. -/
theorem Dirty.exec (hg : t.Dirty g) (h : Invariant t) (hc : c.Valid t)
    (hkept : ¬ c.Releases t g) : Dirty (c.exec t).1 g := by
  have hacts := TrackerCall.exec_acts h.managers hc
  rw [Dirty]
  by_cases htouch : c.Touches g
  · rw [hacts.inside g htouch]
    refine TrackerCall.onPage_dirty hg ?_ ?_
    · rintro cpuAddr size rfl
      exact Bool.eq_false_of_not_eq_true fun hcpu => hkept ⟨htouch, hcpu⟩
    · rintro cpuAddr size rfl
      exact Bool.eq_false_of_not_eq_true fun hcpu =>
        hkept ⟨htouch, (hacts.reported g).2 ⟨htouch, hcpu⟩⟩
  · rw [hacts.outside g htouch]
    exact hg

theorem KeptRun.dirty (hrun : KeptRun g t u) (h : Invariant t) (hg : t.Dirty g) : u.Dirty g := by
  induction hrun with
  | refl => exact hg
  | call c run valid kept ih => exact ih.exec (run.invariant h) valid kept

/-- A write leaves its pages dirty. -/
theorem dirty_of_writes (h : Invariant t) (hc : c.Valid t) (hg : c.Writes g) :
    Dirty (c.exec t).1 g := by
  obtain ⟨htouch, hdirty⟩ := hg.onPage (t.page g)
  rw [Dirty, (TrackerCall.exec_acts h.managers hc).inside g htouch]
  exact hdirty

/-- **A flush** leaves no cached page, and those that were dirty or cached are dirty. -/
theorem flushed (h : Invariant t) (hc : c.Valid t) (hg : c.Flushes g) :
    (c.exec t).1.page g .cachedCpu = false ∧ (t.Dirty g → (c.exec t).1.page g .cpu = true) := by
  have hacts := TrackerCall.exec_acts h.managers hc
  by_cases htouch : c.Touches g
  · rw [hacts.inside g htouch]
    exact hg.onPage _
  · -- only the flush of all regions leaves a page out, and then it is not cached
    have hcached : t.page g .cachedCpu = false := by
      cases c with
      | flushCachedWrites ids =>
        exact Bool.eq_false_of_not_eq_true fun hcached => htouch ((hc.2 _).2 (h.cached.mem g hcached))
      | flushCachedWritesIn cpuAddr size =>
        obtain ⟨c, hc, hidx, -⟩ := (inChunks_chunksOf cpuAddr size g).2 hg
        exact absurd ⟨c, hc, hidx⟩ htouch
      | _ => exact hg.elim
    rw [hacts.outside g htouch]
    refine ⟨hcached, fun hdirty => hdirty.resolve_right fun htrue => ?_⟩
    rw [hcached] at htrue
    cases htrue

/-- What a tracker promises of the pages that are written. -/
structure Sound (t : MemoryTracker) : Prop where
  /-- A dirty page is untracked. -/
  untracked : ∀ g, t.page g .cpu = true → t.page g .untracked = true
  /-- The tracked pages are counted once, and the others not at all. -/
  counted : ∀ g, (t.Tracked g → pageCount t.counts g = 1) ∧ (¬ t.Tracked g → pageCount t.counts g = 0)
  /-- A write stays dirty or cached until a call takes it. -/
  written : ∀ (c : TrackerCall) g u, c.Valid t → c.Writes g → KeptRun g (c.exec t).1 u → u.Dirty g
  /-- After a flush the pages that were dirty or cached are dirty, and none is cached. -/
  flushed : ∀ (c : TrackerCall) g, c.Valid t → c.Flushes g →
    (c.exec t).1.page g .cachedCpu = false ∧ (t.Dirty g → (c.exec t).1.page g .cpu = true)

/-- **No write is lost and no count drifts**, whatever calls are made. -/
theorem Run.sound (h : Run t) : t.Sound where
  untracked := h.invariant.untracked
  counted g := by
    classical
    rw [h.invariant.counted, trackCount_page]
    exact ⟨fun hg => if_pos hg, fun hg => if_neg hg⟩
  written c g u hc hg hrun :=
    hrun.dirty (h.invariant.exec hc) (dirty_of_writes h.invariant hc hg)
  flushed _ _ hc hg := MemoryTracker.flushed h.invariant hc hg

/-- A cached write that is flushed. -/
theorem flushedWrite_sound :
    Sound ((TrackerCall.flushCachedWritesIn 0 4096).exec
      ((TrackerCall.cachedCpuWrite 0 4096).exec new).1).1 :=
  Run.sound (.call (.flushCachedWritesIn 0 4096)
    (.call (.cachedCpuWrite 0 4096) .new (show 0 + 4096 ≤ 2 ^ 34 by decide))
    (show 0 + 4096 ≤ 2 ^ 34 by decide))

end MemoryTracker
end VideoCommon
end NXEmu
