/-
# Memory trackers

`src/yuzu_video_core/buffer_cache/memory_tracker_base.h`: a `MemoryTrackerBase` has a word
manager for each 4 MiB of device memory that some call needed.

A manager is taken fresh from the pool when it is created, so the pool is left out; so are the
routines that only ask.  The calls of the device tracker are kept in the order they are made.
The ranges a callback gets come back with the tracker.
-/

import NXEmu.VideoCore.WordManager
import Mathlib.Data.Finset.Basic

namespace NXEmu
namespace VideoCommon

/-- `HIGHER_PAGE_SIZE`. -/
abbrev higherPageSize : ℕ := 4194304

/-- `MemoryTrackerBase`, with the calls it made of its device tracker. -/
structure MemoryTracker where
  topTier : ℕ → Option WordManager
  cachedPages : Finset ℕ
  counts : List CachedCount

namespace MemoryTracker

/-- `MemoryTrackerBase(device_tracker)`. -/
def new : MemoryTracker := ⟨fun _ => none, ∅, []⟩

/-- The loop of `IteratePages`: the `page_index`, `page_offset` and `copy_amount` of each
iteration. -/
def chunks (pageIndex : ℕ) (pageOffset : Fin higherPageSize) (remainingSize : ℕ) :
    List (ℕ × ℕ × ℕ) :=
  if remainingSize = 0 then []
  else
    let copyAmount := min (higherPageSize - pageOffset) remainingSize
    (pageIndex, pageOffset, copyAmount) :: chunks (pageIndex + 1) 0 (remainingSize - copyAmount)
termination_by remainingSize
decreasing_by
  have := pageOffset.isLt
  omega

/-- A manager after a routine of it, and what that called. -/
def store (t : MemoryTracker) (pageIndex : ℕ) (r : WordManager × Output) :
    MemoryTracker × List (ℕ × ℕ) :=
  ({ t with
      topTier := Function.update t.topTier pageIndex (some r.1)
      counts := t.counts ++ r.2.counts }, r.2.ranges)

/-- The body of `IteratePages<create_region_on_fail>`. -/
def visit (create : Bool) (func : WordManager → ℕ → ℕ → WordManager × Output) (t : MemoryTracker)
    (pageIndex pageOffset copyAmount : ℕ) : MemoryTracker × List (ℕ × ℕ) :=
  match t.topTier pageIndex with
  | some manager => t.store pageIndex (func manager pageOffset copyAmount)
  | none =>
    if create then
      -- CreateRegion
      let manager := WordManager.new (pageIndex * higherPageSize) higherPageSize
      t.store pageIndex (func manager pageOffset copyAmount)
    else (t, [])

/-- The iterations of `IteratePages` one after the other. -/
def visitAll (create : Bool) (func : WordManager → ℕ → ℕ → WordManager × Output)
    (t : MemoryTracker) : List (ℕ × ℕ × ℕ) → MemoryTracker × List (ℕ × ℕ)
  | [] => (t, [])
  | (pageIndex, pageOffset, copyAmount) :: rest =>
    let first := visit create func t pageIndex pageOffset copyAmount
    let others := visitAll create func first.1 rest
    (others.1, first.2 ++ others.2)

/-- The iterations for a range of addresses. -/
def chunksOf (cpuAddress size : ℕ) : List (ℕ × ℕ × ℕ) :=
  chunks (cpuAddress / higherPageSize) ⟨cpuAddress % higherPageSize, Nat.mod_lt _ (by decide)⟩ size

/-- `IteratePages<create_region_on_fail>`. -/
def iteratePages (create : Bool) (func : WordManager → ℕ → ℕ → WordManager × Output)
    (t : MemoryTracker) (cpuAddress size : ℕ) : MemoryTracker × List (ℕ × ℕ) :=
  visitAll create func t (chunksOf cpuAddress size)

/-- The routines that mark or unmark a region. -/
def changeRegion (type : StateType) (enable : Bool) (t : MemoryTracker) (cpuAddr size : ℕ) :
    MemoryTracker :=
  (iteratePages true (fun manager offset size =>
    manager.changeRegionState type enable (manager.cpuAddr + offset) size) t cpuAddr size).1

/-- `MarkRegionAsCpuModified`. -/
def markRegionAsCpuModified : MemoryTracker → ℕ → ℕ → MemoryTracker := changeRegion .cpu true

/-- `UnmarkRegionAsCpuModified`. -/
def unmarkRegionAsCpuModified : MemoryTracker → ℕ → ℕ → MemoryTracker := changeRegion .cpu false

/-- `MarkRegionAsGpuModified`. -/
def markRegionAsGpuModified : MemoryTracker → ℕ → ℕ → MemoryTracker := changeRegion .gpu true

/-- `UnmarkRegionAsGpuModified`. -/
def unmarkRegionAsGpuModified : MemoryTracker → ℕ → ℕ → MemoryTracker := changeRegion .gpu false

/-- `MarkRegionAsPreflushable`. -/
def markRegionAsPreflushable : MemoryTracker → ℕ → ℕ → MemoryTracker :=
  changeRegion .preflushable true

/-- `UnmarkRegionAsPreflushable`. -/
def unmarkRegionAsPreflushable : MemoryTracker → ℕ → ℕ → MemoryTracker :=
  changeRegion .preflushable false

/-- `CachedCpuWrite`. -/
def cachedCpuWrite (t : MemoryTracker) (cpuAddr size : ℕ) : MemoryTracker :=
  let t' := changeRegion .cachedCpu true t cpuAddr size
  { t' with
    cachedPages := t.cachedPages ∪ ((chunksOf cpuAddr size).map fun c => c.1).toFinset }

/-- `FlushCachedWrites(query_cpu_addr, query_size)`. -/
def flushCachedWritesIn (t : MemoryTracker) (cpuAddr size : ℕ) : MemoryTracker :=
  (iteratePages false (fun manager _ _ => manager.flushCachedWrites) t cpuAddr size).1

/-- `FlushCachedWrites()`; `ids` is the order the set comes in. -/
def flushCachedWrites (t : MemoryTracker) (ids : List ℕ) : MemoryTracker :=
  let t' := (visitAll false (fun manager _ _ => manager.flushCachedWrites) t
    (ids.map fun id => (id, 0, higherPageSize))).1
  { t' with cachedPages := ∅ }

/-- `ForEachUploadRange`. -/
def forEachUploadRange (t : MemoryTracker) (cpuAddr size : ℕ) : MemoryTracker × List (ℕ × ℕ) :=
  iteratePages true (fun manager offset size =>
    manager.forEachModifiedRange .cpu true (manager.cpuAddr + offset) size) t cpuAddr size

/-- `ForEachDownloadRange`: the ranges that the GPU has modified. -/
def forEachDownloadRange (t : MemoryTracker) (cpuAddr size : ℕ) (clear : Bool) :
    MemoryTracker × List (ℕ × ℕ) :=
  iteratePages false (fun manager offset size =>
    manager.forEachModifiedRange .gpu clear (manager.cpuAddr + offset) size) t cpuAddr size

/-- `ForEachDownloadRangeAndClear`. -/
def forEachDownloadRangeAndClear (t : MemoryTracker) (cpuAddr size : ℕ) :
    MemoryTracker × List (ℕ × ℕ) :=
  t.forEachDownloadRange cpuAddr size true

end MemoryTracker
end VideoCommon
end NXEmu
