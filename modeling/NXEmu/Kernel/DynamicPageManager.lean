/-
# The dynamic page manager

`src/nxemu-os/core/hle/kernel/k_dynamic_page_manager.h`: a pool of pages in a vector on the host that
stands for a region of guest memory.  A page bitmap says which pages can be allocated; its bits count
pages from the aligned guest base, which may lie below the base.

`Allocate` makes a host pointer of a bit: the start of the vector, moved by the difference of the aligned
base to the base, and then by whole pages.  `Free` makes a bit of a pointer by taking the aligned guest
base off it.  So the two agree only where the vector happens to be at the guest base (`Op.Meets`), and the
pointers are at pages of the vector only where the bases differ by whole pages.

The contents of the pages are left out.  Addresses of the host and of the guest are `u64`.
-/

import NXEmu.Common.Alignment
import NXEmu.Kernel.MemoryBlock
import NXEmu.Kernel.PageBitmapRanges

namespace NXEmu
namespace Kernel

open Common

/-- `KDynamicPageManager`, with the host address of the backing memory. -/
structure KDynamicPageManager where
  pageBitmap : KPageBitmap
  used : ℕ
  peak : ℕ
  count : ℕ
  address : ℕ
  alignedAddress : ℕ
  size : ℕ
  backingMemory : ℕ

namespace KDynamicPageManager

/-- `Initialize`, of a manager that has not been; `none` is `ResultOutOfMemory`. -/
def initialized (rng : RandomBitGenerator) (backingMemory memory size align : ℕ) :
    Exec (Option KDynamicPageManager) :=
  if size = 0 then return none
  else if align = 0 then Exec.fault
  else do
    let alignedAddress := alignDown memory align
    let managedSize := memory + size - alignedAddress
    let overheadSize := alignUp (calculateManagementOverheadSize (managedSize / PageSize)) PageSize
    if size ≤ overheadSize then return none
    else do
      let managed := alignDown (size - overheadSize) PageSize
      let count := managed / PageSize
      let allocatableRegionSize := memory + size - overheadSize - alignedAddress
      Exec.assert (PageSize ≤ allocatableRegionSize)
      let bitmap ← KPageBitmap.initialized rng (allocatableRegionSize / PageSize)
      let bitmap ← (List.range count).foldlM (fun (b : KPageBitmap) i =>
        b.setBit ((memory + i * PageSize - alignedAddress) / PageSize)) bitmap
      return some ⟨bitmap, 0, 0, count, memory, alignedAddress, managed, backingMemory⟩

/-- `GetPointer`. -/
def getPointer (m : KDynamicPageManager) (addr : ℕ) : ℕ :=
  (m.backingMemory + (addr + 2 ^ 64 - m.address)) % 2 ^ 64

/-- The pointer that is returned for a bit. -/
def pointerAt (m : KDynamicPageManager) (offset : ℕ) : ℕ :=
  (m.getPointer m.alignedAddress + offset * PageSize) % 2 ^ 64

/-- `GetUsed`. -/
def getUsed (m : KDynamicPageManager) : ℕ := m.used

/-- `Allocate()`; `none` is the null pointer. -/
def allocate (m : KDynamicPageManager) : Exec (Option ℕ × KDynamicPageManager) := do
  let (soffset, bitmap) ← m.pageBitmap.findFreeBlock true
  match soffset with
  | none => return (none, { m with pageBitmap := bitmap })
  | some offset => do
    let bitmap ← bitmap.clearBit offset
    return (some (m.pointerAt offset),
      { m with pageBitmap := bitmap, peak := max m.peak (m.used + 1), used := m.used + 1 })

/-- `Allocate(count)`; a count of 0 divides by it. -/
def allocateCount (m : KDynamicPageManager) (count : ℕ) : Exec (Option ℕ × KDynamicPageManager) :=
  if count = 0 then Exec.fault
  else
    match m.pageBitmap.findFreeRange count with
    | (none, bitmap) => return (none, { m with pageBitmap := bitmap })
    | (some offset, bitmap) => do
      let (_, bitmap) ← bitmap.clearRange offset count
      return (some (m.pointerAt offset),
        { m with pageBitmap := bitmap, used := m.used + count, peak := max m.peak (m.used + count) })

/-- `Free`: a page goes back to the pool. -/
def free (m : KDynamicPageManager) (pb : ℕ) : Exec KDynamicPageManager := do
  let offset := (pb + 2 ^ 64 - m.alignedAddress) % 2 ^ 64 / PageSize
  let bitmap ← m.pageBitmap.setBit offset
  return { m with pageBitmap := bitmap, used := m.used - 1 }

/-! ### Runs -/

/-- What callers do with a pool. -/
inductive Op where
  | allocate
  | allocateCount (count : ℕ)
  | free (pb : ℕ)

/-- The pages of a buffer that was returned. -/
def bufferPages (count : ℕ) : Option ℕ → List ℕ
  | none => []
  | some p => (List.range count).map fun i => p + i * PageSize

/-- The pools that can come about, with the pages that callers hold: each operation meets the condition,
and a page that is freed is one that was returned and has not been freed. -/
inductive Run (cond : KDynamicPageManager → Op → Prop) (backingMemory memory size align : ℕ) :
    KDynamicPageManager → List ℕ → Prop
  | initialized {m : KDynamicPageManager} (rng : RandomBitGenerator)
      (h : initialized rng backingMemory memory size align = .ret (some m) true) :
      Run cond backingMemory memory size align m []
  | allocate {m m' : KDynamicPageManager} {held : List ℕ} {p : Option ℕ} {ok : Bool}
      (run : Run cond backingMemory memory size align m held) (hcond : cond m .allocate)
      (h : m.allocate = .ret (p, m') ok) :
      Run cond backingMemory memory size align m' (bufferPages 1 p ++ held)
  | allocateCount {m m' : KDynamicPageManager} {held : List ℕ} {p : Option ℕ} {ok : Bool} (count : ℕ)
      (run : Run cond backingMemory memory size align m held) (hcond : cond m (.allocateCount count))
      (h : m.allocateCount count = .ret (p, m') ok) :
      Run cond backingMemory memory size align m' (bufferPages count p ++ held)
  | free {m m' : KDynamicPageManager} {held : List ℕ} {ok : Bool} (pb : ℕ)
      (run : Run cond backingMemory memory size align m held) (hcond : cond m (.free pb))
      (hpb : pb ∈ held) (h : m.free pb = .ret m' ok) :
      Run cond backingMemory memory size align m' (held.erase pb)

/-- The pages that can be allocated, by the pointers that are returned for them. -/
def Allocatable (m : KDynamicPageManager) (p : ℕ) : Prop :=
  ∃ offset ∈ m.pageBitmap.bits, p = m.pointerAt offset

/-- The pages of the first `size` bytes of the backing memory. -/
def IsPage (m : KDynamicPageManager) (p : ℕ) : Prop :=
  ∃ i < m.count, p = m.backingMemory + i * PageSize

/-- A correct page pool. -/
structure Correct (m : KDynamicPageManager) (held : List ℕ) : Prop where
  disjoint : held.Pairwise fun p q => p + PageSize ≤ q ∨ q + PageSize ≤ p
  inside : ∀ p ∈ held, m.backingMemory ≤ p ∧ p + PageSize ≤ m.backingMemory + m.size
  used : m.getUsed = held.length
  allocatable : ∀ p, m.Allocatable p ↔ m.IsPage p ∧ p ∉ held

/-- The condition under which an operation does what it should.  A search for 64 pages takes any word of
the bitmap, and a pointer is freed where the vector is at the guest base but for less than a page. -/
def Op.Meets (m : KDynamicPageManager) : Op → Prop
  | .allocate => True
  | .allocateCount count => 0 < count ∧ (count = 64 →
      ∀ w < m.pageBitmap.words m.pageBitmap.getHighestDepthIndex,
        m.pageBitmap.storages m.pageBitmap.getHighestDepthIndex w = BitVec.allOnes 64)
  | .free _ => m.address ≤ m.backingMemory ∧ m.backingMemory < m.address + PageSize

end KDynamicPageManager

end Kernel
end NXEmu
