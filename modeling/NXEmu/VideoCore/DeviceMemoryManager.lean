/-
# Device memory

`src/yuzu_video_core/host1x/gpu_device_memory_manager.cpp`: a `DeviceMemoryManager` has for each page
of device memory the page of physical memory behind it.  A bitmap with summaries marks the pages that
do not go on from the one before, so that a walk over a range takes a whole run at a time.

Addresses are numbers; requests stay inside the address space.  Physical memory is a function of the
raw address, that is, of the offset from `physical_base`.  The way back from physical pages, the
counters of cached pages and the calls of the rasterizer are left out.
-/

import NXEmu.Lib.SummaryBitmap

namespace NXEmu
namespace Core

/-- `DEVICE_PAGESIZE`. -/
abbrev devicePageSize : ℕ := 4096

/-- Physical memory, or a buffer. -/
abbrev Memory : Type := ℕ → BitVec 8

namespace Memory

/-- `memset` from `dest` on. -/
def memset (m : Memory) (dest : ℕ) (value : BitVec 8) (count : ℕ) : Memory := fun i =>
  if dest ≤ i ∧ i < dest + count then value else m i

/-- `memcpy` to `dest` of what another memory has from `src` on. -/
def memcpy (m : Memory) (dest : ℕ) (from' : Memory) (src count : ℕ) : Memory := fun i =>
  if dest ≤ i ∧ i < dest + count then from' (src + (i - dest)) else m i

end Memory

/-- `DeviceMemoryManager<Traits>`, with `Traits::device_virtual_bits`. -/
structure DeviceMemoryManager (deviceVirtualBits : ℕ) where
  compressedPhysicalPtr : ℕ → BitVec 32
  continuityBoundaries : ℕ → ℕ → BitVec 64

namespace DeviceMemoryManager

/-- `device_as_size`. -/
def deviceAsSize (deviceVirtualBits : ℕ) : ℕ := 2 ^ deviceVirtualBits

/-- The pages of the address space, `device_as_size >> page_bits`. -/
def pageCount (deviceVirtualBits : ℕ) : ℕ := 2 ^ (deviceVirtualBits - 12)

/-- `continuity_levels`. -/
def continuityLevels (deviceVirtualBits : ℕ) : ℕ := (deviceVirtualBits - 12 + 5) / 6

variable {bits : ℕ}

/-- The manager without pages. -/
def new : DeviceMemoryManager bits := ⟨fun _ => 0, fun _ _ => 0⟩

/-! ### The bitmap -/

/-- The loop of `SetContinuityBoundary`, of so many levels from `level` on. -/
def setContinuityBoundaryFrom (continuityBoundaries : ℕ → ℕ → BitVec 64) (page : ℕ) (boundary : Bool)
    (level : ℕ) : ℕ → ℕ → ℕ → BitVec 64
  | 0 => continuityBoundaries
  | levels + 1 =>
    let index := page / 64
    let mask := 1#64 <<< (page % 64)
    let before := continuityBoundaries level index
    let after := if boundary then before ||| mask else before &&& ~~~mask
    if before = after then continuityBoundaries
    else
      let continuityBoundaries := Function.update continuityBoundaries level
        (Function.update (continuityBoundaries level) index after)
      if decide (before ≠ 0) = decide (after ≠ 0) then continuityBoundaries
      else setContinuityBoundaryFrom continuityBoundaries index (after ≠ 0) (level + 1) levels

/-- `SetContinuityBoundary`. -/
def setContinuityBoundary (d : DeviceMemoryManager bits) (page : ℕ) (boundary : Bool) :
    DeviceMemoryManager bits :=
  { d with continuityBoundaries :=
      setContinuityBoundaryFrom d.continuityBoundaries page boundary 0 (continuityLevels bits) }

/-- Whether a page goes on from the one before: none of them is mapped, or the physical pages follow
each other. -/
def continuous (left right : BitVec 32) : Bool :=
  (left = 0 ∧ right = 0) ∨ (left ≠ 0 ∧ right ≠ 0 ∧ right = left + 1)

/-- `UpdateContinuityBoundary`: whether the page goes on where the one before it ends in memory. -/
def updateContinuityBoundary (d : DeviceMemoryManager bits) (page : ℕ) : DeviceMemoryManager bits :=
  if page = 0 ∨ page = pageCount bits then d
  else
    let left := d.compressedPhysicalPtr (page - 1)
    let right := d.compressedPhysicalPtr page
    d.setContinuityBoundary page (!continuous left right)

/-- The loop of `NextContinuityBoundary` that goes down to the first level. -/
def descend (continuityBoundaries : ℕ → ℕ → BitVec 64) : ℕ → ℕ → ℕ
  | 0, bit => bit
  | level + 1, bit =>
    descend continuityBoundaries level
      (bit * 64 + SummaryBitmap.firstBit (continuityBoundaries level bit))

/-- The loop of `NextContinuityBoundary` that goes up, of so many levels from `level` on. -/
def ascend (continuityBoundaries : ℕ → ℕ → BitVec 64) (endPage bit level : ℕ) : ℕ → ℕ
  | 0 => endPage
  | levels + 1 =>
    let index := bit / 64
    let word := continuityBoundaries level index &&& (~~~(0 : BitVec 64) <<< (bit % 64))
    if word ≠ 0 then
      min (descend continuityBoundaries level (index * 64 + SummaryBitmap.firstBit word)) endPage
    else
      let bit := index + 1
      if endPage ≤ bit * 64 ^ (level + 1) then endPage
      else ascend continuityBoundaries endPage bit (level + 1) levels

/-- `NextContinuityBoundary`. -/
def nextContinuityBoundary (d : DeviceMemoryManager bits) (firstPage endPage : ℕ) : ℕ :=
  if endPage ≤ firstPage then endPage
  else ascend d.continuityBoundaries endPage firstPage 0 (continuityLevels bits)

/-! ### Requests -/

/-- The entry of a page, and whether it goes on from the page before. -/
def setPage (d : DeviceMemoryManager bits) (page : ℕ) (physAddr : BitVec 32) :
    DeviceMemoryManager bits :=
  updateContinuityBoundary
    { d with compressedPhysicalPtr := Function.update d.compressedPhysicalPtr page physAddr } page

/-- The entry for the raw address that a pointer has; a null pointer has none. -/
def physicalPage (ptr : Option ℕ) : BitVec 32 :=
  match ptr with
  | none => 0
  | some raw => .ofNat 32 (raw / devicePageSize) + 1

/-- `AlignUp(size, DEVICE_PAGESIZE) >> DEVICE_PAGEBITS`. -/
def numPages (size : ℕ) : ℕ := (size + (devicePageSize - 1)) / devicePageSize

/-- The page behind the last one of a range may no longer go on from it. -/
def endRange (d : DeviceMemoryManager bits) (startPage numPages : ℕ) : DeviceMemoryManager bits :=
  if numPages ≠ 0 then d.updateContinuityBoundary (startPage + numPages) else d

/-- `Map`, with `GetPointerSilent` of the memory of the process. -/
def map (getPointerSilent : ℕ → Option ℕ) (d : DeviceMemoryManager bits)
    (address virtualAddress size : ℕ) : DeviceMemoryManager bits :=
  let startPage := address / devicePageSize
  let d := (List.range (numPages size)).foldl (fun d i =>
    d.setPage (startPage + i)
      (physicalPage (getPointerSilent (virtualAddress + i * devicePageSize)))) d
  d.endRange startPage (numPages size)

/-- `Unmap`. -/
def unmap (d : DeviceMemoryManager bits) (address size : ℕ) : DeviceMemoryManager bits :=
  let startPage := address / devicePageSize
  let d := (List.range (numPages size)).foldl (fun d i => d.setPage (startPage + i) 0) d
  d.endRange startPage (numPages size)

/-! ### Access -/

/-- `(static_cast<PAddr>(phys_addr - 1) << DEVICE_PAGEBITS) + offset`. -/
def rawAddress (physAddr : BitVec 32) (offset : ℕ) : ℕ :=
  (physAddr - 1).toNat * devicePageSize + offset

/-- `GetPointer`, as a raw address. -/
def getPointer (d : DeviceMemoryManager bits) (address : ℕ) : Option ℕ :=
  let physAddr := d.compressedPhysicalPtr (address / devicePageSize)
  if physAddr = 0 then none else some (rawAddress physAddr (address % devicePageSize))

/-- `GetSpan`: the pointer of a range whose pages are contiguous. -/
def getSpan (d : DeviceMemoryManager bits) (srcAddr size : ℕ) : Option ℕ :=
  let pageIndex := srcAddr / devicePageSize
  let subbits := srcAddr % devicePageSize
  if deviceAsSize bits ≤ srcAddr ∨ deviceAsSize bits - srcAddr < size then none
  else if size ≤ devicePageSize - subbits then d.getPointer srcAddr
  else
    let endPage := (srcAddr + size - 1) / devicePageSize + 1
    if d.nextContinuityBoundary (pageIndex + 1) endPage ≠ endPage then none
    else d.getPointer srcAddr

/-- What `WalkBlock` calls. -/
structure Walker (σ : Type) where
  onUnmapped : σ → (copyAmount currentVaddr : ℕ) → σ
  onMemory : σ → (copyAmount memPtr : ℕ) → σ
  increment : σ → (copyAmount : ℕ) → σ

/-- The loop of `WalkBlock`, if it ends within so many rounds. -/
def walkBlockFrom {σ : Type} (d : DeviceMemoryManager bits) (w : Walker σ) (endPage : ℕ) :
    ℕ → (remainingSize pageIndex pageOffset : ℕ) → σ → Option σ
  | 0, remainingSize, _, _, s => if remainingSize = 0 then some s else none
  | rounds + 1, remainingSize, pageIndex, pageOffset, s =>
    if remainingSize = 0 then some s
    else
      let nextPages := d.nextContinuityBoundary (pageIndex + 1) endPage - pageIndex
      let copyAmount := min (nextPages * devicePageSize - pageOffset) remainingSize
      let currentVaddr := pageIndex * devicePageSize + pageOffset
      let physAddr := d.compressedPhysicalPtr pageIndex
      let s :=
        if physAddr = 0 then w.onUnmapped s copyAmount currentVaddr
        else w.onMemory s copyAmount (rawAddress physAddr pageOffset)
      walkBlockFrom d w endPage rounds (remainingSize - copyAmount) (pageIndex + nextPages) 0
        (w.increment s copyAmount)

/-- `WalkBlock`.  A round takes a byte at least. -/
def walkBlock {σ : Type} (d : DeviceMemoryManager bits) (w : Walker σ) (addr size : ℕ) (s : σ) :
    Option σ :=
  d.walkBlockFrom w ((addr + size + (devicePageSize - 1)) / devicePageSize) size size
    (addr / devicePageSize) (addr % devicePageSize) s

/-- A copy on its way: the memory it writes, and the pointer into the buffer of the caller. -/
structure Transfer where
  memory : Memory
  pointer : ℕ

/-- The calls of `ReadBlock` and `ReadBlockUnsafe`; the memory that is written is the buffer. -/
def readWalker (physical : Memory) : Walker Transfer where
  onUnmapped s copyAmount _ := { s with memory := s.memory.memset s.pointer 0 copyAmount }
  onMemory s copyAmount memPtr :=
    { s with memory := s.memory.memcpy s.pointer physical memPtr copyAmount }
  increment s copyAmount := { s with pointer := s.pointer + copyAmount }

/-- The calls of `WriteBlock` and `WriteBlockUnsafe`.  Those of `WriteBlockForGpuReadback` for small
blocks compare first, and copy what differs. -/
def writeWalker (src : Memory) : Walker Transfer where
  onUnmapped s _ _ := s
  onMemory s copyAmount memPtr :=
    { s with memory := s.memory.memcpy memPtr src s.pointer copyAmount }
  increment s copyAmount := { s with pointer := s.pointer + copyAmount }

/-- `ReadBlockUnsafe`: the buffer after it. -/
def readBlockUnsafe (d : DeviceMemoryManager bits) (physical : Memory) (address : ℕ) (dest : Memory)
    (size : ℕ) : Option Memory :=
  (d.walkBlock (readWalker physical) address size ⟨dest, 0⟩).map (·.memory)

/-- `WriteBlockUnsafe`: physical memory after it. -/
def writeBlockUnsafe (d : DeviceMemoryManager bits) (physical : Memory) (address : ℕ) (src : Memory)
    (size : ℕ) : Option Memory :=
  (d.walkBlock (writeWalker src) address size ⟨physical, 0⟩).map (·.memory)

/-- A transfer with a `CoalescedMemoryCopy`, of `src/yuzu_common/coalesced_memory_copy.h`. -/
structure CoalescedTransfer extends Transfer where
  pendingDst : ℕ
  pendingSrc : ℕ
  pendingSize : ℕ

namespace CoalescedTransfer

/-- `Flush`. -/
def flush (src : Memory) (s : CoalescedTransfer) : CoalescedTransfer :=
  if s.pendingSize = 0 then s
  else { s with
    memory := s.memory.memcpy s.pendingDst src s.pendingSrc s.pendingSize
    pendingSize := 0 }

/-- `Append`, from where the pointer is. -/
def append (src : Memory) (s : CoalescedTransfer) (dst size : ℕ) : CoalescedTransfer :=
  if size = 0 then s
  else
    let s := if s.pendingSize ≠ 0 ∧
        (dst ≠ s.pendingDst + s.pendingSize ∨ s.pointer ≠ s.pendingSrc + s.pendingSize)
      then s.flush src else s
    let s := if s.pendingSize = 0 then { s with pendingDst := dst, pendingSrc := s.pointer } else s
    { s with pendingSize := s.pendingSize + size }

end CoalescedTransfer

/-- The calls of `WriteBlockForGpuReadback` for large blocks. -/
def coalescedWalker (src : Memory) : Walker CoalescedTransfer where
  onUnmapped s _ _ := s.flush src
  onMemory s copyAmount memPtr := s.append src memPtr copyAmount
  increment s copyAmount := { s with pointer := s.pointer + copyAmount }

/-- `WriteBlockForGpuReadback`: physical memory after it. -/
def writeBlockForGpuReadback (d : DeviceMemoryManager bits) (physical : Memory) (address : ℕ)
    (src : Memory) (size : ℕ) : Option Memory :=
  if size < 96 * 1024 * 1024 then d.writeBlockUnsafe physical address src size
  else
    (d.walkBlock (coalescedWalker src) address size ⟨⟨physical, 0⟩, 0, 0, 0⟩).map fun s =>
      (s.flush src).memory

end DeviceMemoryManager
end Core
end NXEmu
