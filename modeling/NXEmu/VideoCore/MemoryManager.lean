/-
# The memory manager of the GPU

`src/yuzu_video_core/memory_manager.cpp`: a `MemoryManager` maps addresses of the GPU to addresses
of device memory.  It has one entry for each big page; where that is `SmallPages`, or still `Free`,
the entries of the small pages under it count.

An address is a number, and the requests stay below `2 ^ 64`.  An access past the end of a vector
or through the null base of a page table is a fault.  The calls of the rasterizer, the sparse regions
and the counters of mapping changes are left out.
-/

import NXEmu.Common.RangeMap
import NXEmu.Lib.Query
import Mathlib.Logic.Function.Basic

namespace NXEmu
namespace Tegra

/-! ### Vectors and tables -/

/-- `EntryType`. -/
inductive EntryType where
  | free
  | reserved
  | mapped
  | smallPages
deriving DecidableEq

/-- `static_cast<u64>(entry)`. -/
def EntryType.toWord : EntryType → BitVec 64
  | free => 0
  | reserved => 1
  | mapped => 2
  | smallPages => 3

/-- `static_cast<EntryType>`. -/
def EntryType.ofWord (word : BitVec 64) : EntryType :=
  if word = 0 then free else if word = 1 then reserved else if word = 2 then mapped else smallPages

/-- A `std::vector<u64>`. -/
structure Words where
  size : ℕ
  word : ℕ → BitVec 64

namespace Words

/-- An empty vector after `resize(size, 0)`. -/
def zeros (size : ℕ) : Words := ⟨size, fun _ => 0⟩

/-- The word at an index. -/
def get (v : Words) (index : ℕ) : Exec (BitVec 64) :=
  if index < v.size then return v.word index else .fault

/-- An assignment to a word. -/
def set (v : Words) (index : ℕ) (word : BitVec 64) : Exec Words :=
  if index < v.size then return { v with word := Function.update v.word index word } else .fault

/-- `GetEntry`, of a page. -/
def getEntry (v : Words) (position : ℕ) : Exec EntryType := do
  let entryMask ← v.get (position / 32)
  let subIndex := position % 32
  return .ofWord ((entryMask >>> (2 * subIndex)) &&& 3)

/-- `SetEntry`, of a page. -/
def setEntry (v : Words) (position : ℕ) (entry : EntryType) : Exec Words := do
  let entryMask ← v.get (position / 32)
  let subIndex := position % 32
  v.set (position / 32)
    ((~~~((3#64) <<< (subIndex * 2)) &&& entryMask) ||| (entry.toWord <<< (subIndex * 2)))

/-- `continuous_bits`. -/
abbrev continuousBits : ℕ := 64

/-- `IsBigPageContinuous`. -/
def isBigPageContinuous (v : Words) (bigPageIndex : ℕ) : Exec Bool := do
  let entryMask ← v.get (bigPageIndex / continuousBits)
  let subIndex := bigPageIndex % continuousBits
  return (entryMask >>> subIndex) &&& 1 ≠ 0

/-- `SetBigPageContinuous`: the bit that the big page is contiguous in host memory. -/
def setBigPageContinuous (v : Words) (bigPageIndex : ℕ) (value : Bool) : Exec Words := do
  let continuousMask ← v.get (bigPageIndex / continuousBits)
  let subIndex := bigPageIndex % continuousBits
  v.set (bigPageIndex / continuousBits)
    ((~~~((1#64) <<< subIndex) &&& continuousMask) ||| (if value then (1#64) <<< subIndex else 0))

end Words

/-- `Common::MultiLevelPageTable<u32>`, of `src/yuzu_common/multi_level_page_table.inc`.  Without
`page_bits` it has no memory. -/
structure MultiLevelPageTable where
  pageBits : ℕ
  firstLevelShift : ℕ
  firstLevelSize : ℕ
  /-- The parts that `AllocateLevel` was called for. -/
  firstLevelMap : ℕ → Bool
  entries : ℕ → BitVec 32

namespace MultiLevelPageTable

/-- `MultiLevelPageTable(address_space_bits, first_level_bits, page_bits)`. -/
def new (addressSpaceBits firstLevelBits pageBits : ℕ) : MultiLevelPageTable :=
  { pageBits := pageBits
    firstLevelShift := if pageBits = 0 then 0 else addressSpaceBits - firstLevelBits
    firstLevelSize := if pageBits = 0 then 0 else 2 ^ firstLevelBits
    firstLevelMap := fun _ => false
    entries := fun _ => 0 }

/-- `ReserveRange`: the first levels of the addresses are there, or the map is run past. -/
def reserveRange (t : MultiLevelPageTable) (start size : ℕ) : Exec MultiLevelPageTable :=
  let newStart := start / 2 ^ t.firstLevelShift
  let newEnd := (start + size) / 2 ^ t.firstLevelShift
  (List.range (newEnd + 1 - newStart)).foldlM (fun t i =>
    if newStart + i < t.firstLevelSize then
      return { t with firstLevelMap := Function.update t.firstLevelMap (newStart + i) true }
    else .fault) t

/-- `operator[]`. -/
def get (t : MultiLevelPageTable) (index : ℕ) : Exec (BitVec 32) :=
  if t.pageBits = 0 then .fault else return t.entries index

/-- An assignment through `operator[]`. -/
def set (t : MultiLevelPageTable) (index : ℕ) (value : BitVec 32) : Exec MultiLevelPageTable :=
  if t.pageBits = 0 then .fault
  else return { t with entries := Function.update t.entries index value }

end MultiLevelPageTable

/-! ### The manager -/

/-- `PTEKind`. -/
abbrev PTEKind : Type := BitVec 8

/-- `PTEKind::INVALID`. -/
def PTEKind.invalid : PTEKind := 0xff

/-- `cpu_page_bits`, as the size of such a page. -/
abbrev cpuPageSize : ℕ := 4096

/-- What the device memory has at an address, `memory.GetPointer<u8>`: 0 when there is nothing. -/
abbrev GetPointer : Type := ℕ → ℕ

/-- The parameters of a `MemoryManager`. -/
structure Config where
  addressSpaceBits : ℕ
  bigPageBits : ℕ
  pageBits : ℕ

namespace Config

/-- `address_space_size`. -/
def addressSpaceSize (c : Config) : ℕ := 2 ^ c.addressSpaceBits

/-- `page_size`. -/
def pageSize (c : Config) : ℕ := 2 ^ c.pageBits

/-- `big_page_size`. -/
def bigPageSize (c : Config) : ℕ := 2 ^ c.bigPageBits

/-- The size of the pages of a table. -/
def sizeOf (c : Config) (isBigPage : Bool) : ℕ := if isBigPage then c.bigPageSize else c.pageSize

/-- `PageEntryIndex<is_big_page>`. -/
def pageEntryIndex (c : Config) (isBigPage : Bool) (gpuAddr : ℕ) : ℕ :=
  if isBigPage then gpuAddr / c.bigPageSize % 2 ^ (c.addressSpaceBits - c.bigPageBits)
  else gpuAddr / c.pageSize % 2 ^ (c.addressSpaceBits - c.pageBits)

end Config

/-- `MemoryManager`. -/
structure MemoryManager extends Config where
  entries : Words
  bigEntries : Words
  pageTable : MultiLevelPageTable
  kindMap : Common.RangeMap PTEKind
  bigPageTableDev : ℕ → BitVec 32
  bigPageContinuous : Words

namespace MemoryManager

/-- `MemoryManager(memory, address_space_bits, split_address, big_page_bits, page_bits)`. -/
def new (c : Config) : MemoryManager :=
  { toConfig := c
    entries := .zeros (2 ^ (c.addressSpaceBits - c.pageBits) / 32)
    bigEntries := .zeros (2 ^ (c.addressSpaceBits - c.bigPageBits) / 32)
    pageTable := .new c.addressSpaceBits (c.addressSpaceBits + c.pageBits - 38)
      (if c.pageBits ≠ c.bigPageBits then c.pageBits else 0)
    kindMap := .new .invalid
    bigPageTableDev := fun _ => 0
    bigPageContinuous := .zeros (2 ^ (c.addressSpaceBits - c.bigPageBits) / Words.continuousBits) }

/-- `GetEntry<is_big_page>`. -/
def getEntry (isBigPage : Bool) (m : MemoryManager) (position : ℕ) : Exec EntryType :=
  if isBigPage then m.bigEntries.getEntry (position / m.bigPageSize)
  else m.entries.getEntry (position / m.pageSize)

/-- `SetEntry<is_big_page>`. -/
def setEntry (isBigPage : Bool) (m : MemoryManager) (position : ℕ) (entry : EntryType) :
    Exec MemoryManager :=
  if isBigPage then do
    let bigEntries ← m.bigEntries.setEntry (position / m.bigPageSize) entry
    return { m with bigEntries := bigEntries }
  else do
    let entries ← m.entries.setEntry (position / m.pageSize) entry
    return { m with entries := entries }

/-- `GetPageKind`. -/
def getPageKind (m : MemoryManager) (gpuAddr : ℕ) : PTEKind := m.kindMap.getValueAt gpuAddr

/-- `kind_map.Map(address, address_end, kind)`. -/
def mapKind (m : MemoryManager) (address addressEnd : ℕ) (kind : PTEKind) : MemoryManager :=
  { m with kindMap := m.kindMap.map (.ofNat 64 address) (.ofNat 64 addressEnd) kind }

/-- The loop `for (offset = 0; offset < size; offset += step)`. -/
def forOffsets (size step : ℕ) (m : MemoryManager) (body : MemoryManager → ℕ → Exec MemoryManager) :
    Exec MemoryManager :=
  (List.range ((size + step - 1) / step)).foldlM (fun m i => body m (i * step)) m

/-- An assignment to `page_table`. -/
def setPageTable (m : MemoryManager) (index : ℕ) (value : BitVec 32) : Exec MemoryManager := do
  let pageTable ← m.pageTable.set index value
  return { m with pageTable := pageTable }

/-- The body of the loop of `PageTableOp`. -/
def setPage (entryType : EntryType) (m : MemoryManager) (currentGpuAddr currentDevAddr : ℕ) :
    Exec MemoryManager := do
  let m ← m.setEntry false currentGpuAddr entryType
  if entryType = .mapped then
    m.setPageTable (m.pageEntryIndex false currentGpuAddr) (.ofNat 32 (currentDevAddr / cpuPageSize))
  else return m

/-- The part of `PageTableOp` before its loop. -/
def reservePages (entryType : EntryType) (m : MemoryManager) (gpuAddr size : ℕ) :
    Exec MemoryManager :=
  if entryType = .mapped then do
    let pageTable ← m.pageTable.reserveRange gpuAddr size
    return { m with pageTable := pageTable }
  else return m

/-- `PageTableOp<entry_type>`: the entries of the small pages of a range, and their kind. -/
def pageTableOp (entryType : EntryType) (m : MemoryManager) (gpuAddr devAddr size : ℕ)
    (kind : PTEKind) : Exec MemoryManager := do
  let m ← m.reservePages entryType gpuAddr size
  let m ← forOffsets size m.pageSize m fun m offset =>
    m.setPage entryType (gpuAddr + offset) (devAddr + offset)
  return m.mapKind gpuAddr (gpuAddr + size) kind

/-- The whole old PTE is expanded before a part of it is replaced. -/
def expandBigPage (m : MemoryManager) (oldEntry : EntryType) (base : ℕ) : Exec MemoryManager :=
  if oldEntry = .mapped then
    let oldAddress := (m.bigPageTableDev (m.pageEntryIndex true base)).toNat * cpuPageSize
    m.pageTableOp .mapped base oldAddress m.bigPageSize (m.getPageKind base)
  else if oldEntry = .reserved then m.pageTableOp .reserved base 0 m.bigPageSize .invalid
  else return m

/-- The body of the loop of `PrepareSmallPageMapping`. -/
def prepareSmallPage (m : MemoryManager) (base : ℕ) : Exec MemoryManager := do
  let oldEntry ← m.getEntry true base
  if oldEntry = .smallPages then return m
  else
    let m ← m.expandBigPage oldEntry base
    m.setEntry true base .smallPages

/-- `PrepareSmallPageMapping`: the big pages of the range are split into small ones. -/
def prepareSmallPageMapping (m : MemoryManager) (gpuAddr size : ℕ) : Exec MemoryManager :=
  if size = 0 then return m
  else
    let first := gpuAddr / m.bigPageSize * m.bigPageSize
    let last := (gpuAddr + size - 1) / m.bigPageSize * m.bigPageSize
    forOffsets (last + 1 - first) m.bigPageSize m fun m offset => m.prepareSmallPage (first + offset)

/-- The check of `BigPageTableOp` that the pages after the first one are behind it in memory too. -/
def isContinuous (getPointer : GetPointer) (c : Config) (devAddr : ℕ) : Bool :=
  let basePtr := getPointer devAddr
  decide (basePtr ≠ 0) &&
    (List.range ((c.bigPageSize - c.pageSize + c.pageSize - 1) / c.pageSize)).all fun i =>
      let nextPtr := getPointer (devAddr + c.pageSize + i * c.pageSize)
      decide (nextPtr ≠ 0) && decide (basePtr + (i + 1) * c.pageSize = nextPtr)

/-- The part of the loop of `BigPageTableOp` that is for mapped pages. -/
def setBigPageTable (getPointer : GetPointer) (m : MemoryManager) (index currentDevAddr : ℕ) :
    Exec MemoryManager := do
  let m := { m with
    bigPageTableDev :=
      Function.update m.bigPageTableDev index (.ofNat 32 (currentDevAddr / cpuPageSize)) }
  let bigPageContinuous ← m.bigPageContinuous.setBigPageContinuous index
    (isContinuous getPointer m.toConfig currentDevAddr)
  return { m with bigPageContinuous := bigPageContinuous }

/-- The small PTEs of a big page are cleared, so that address translation does not fall back on
them. -/
def clearSmallPages (m : MemoryManager) (currentGpuAddr : ℕ) : Exec MemoryManager :=
  forOffsets m.bigPageSize m.pageSize m fun m smallOffset =>
    m.setEntry false (currentGpuAddr + smallOffset) .free

/-- The body of the loop of `BigPageTableOp`. -/
def setBigPage (getPointer : GetPointer) (entryType : EntryType) (m : MemoryManager)
    (currentGpuAddr currentDevAddr : ℕ) : Exec MemoryManager := do
  let oldEntry ← m.getEntry true currentGpuAddr
  let m ← (if oldEntry = .smallPages then m.clearSmallPages currentGpuAddr else return m :
    Exec MemoryManager)
  let m ← m.setEntry true currentGpuAddr entryType
  if entryType = .mapped then
    m.setBigPageTable getPointer (m.pageEntryIndex true currentGpuAddr) currentDevAddr
  else return m

/-- `BigPageTableOp<entry_type>`: the entries of the big pages of a range, and their kind. -/
def bigPageTableOp (getPointer : GetPointer) (entryType : EntryType) (m : MemoryManager)
    (gpuAddr devAddr size : ℕ) (kind : PTEKind) : Exec MemoryManager := do
  let m ← forOffsets size m.bigPageSize m fun m offset =>
    m.setBigPage getPointer entryType (gpuAddr + offset) (devAddr + offset)
  return m.mapKind gpuAddr (gpuAddr + size) kind

/-- `Map`: a range of big or of small pages to device memory. -/
def map (getPointer : GetPointer) (m : MemoryManager) (gpuAddr devAddr size : ℕ) (kind : PTEKind)
    (isBigPages : Bool) : Exec MemoryManager :=
  if isBigPages then m.bigPageTableOp getPointer .mapped gpuAddr devAddr size kind
  else do
    let m ← m.prepareSmallPageMapping gpuAddr size
    m.pageTableOp .mapped gpuAddr devAddr size kind

/-- `MapSparse`: a range without memory. -/
def mapSparse (getPointer : GetPointer) (m : MemoryManager) (gpuAddr size : ℕ) (isBigPages : Bool) :
    Exec MemoryManager :=
  if isBigPages then m.bigPageTableOp getPointer .reserved gpuAddr 0 size .invalid
  else do
    let m ← m.prepareSmallPageMapping gpuAddr size
    m.pageTableOp .reserved gpuAddr 0 size .invalid

/-- The small pages that `Unmap` frees at an end of its range. -/
def unmapSmall (m : MemoryManager) (start stop : ℕ) : Exec MemoryManager :=
  if start < stop then do
    let m ← m.prepareSmallPageMapping start (stop - start)
    m.pageTableOp .free start 0 (stop - start) .invalid
  else return m

/-- The big pages that `Unmap` frees. -/
def unmapBig (getPointer : GetPointer) (m : MemoryManager) (start stop : ℕ) : Exec MemoryManager :=
  if start < stop then m.bigPageTableOp getPointer .free start 0 (stop - start) .invalid
  else return m

/-- `Unmap`: the small pages at both ends, and the big pages between them. -/
def unmap (getPointer : GetPointer) (m : MemoryManager) (gpuAddr size : ℕ) : Exec MemoryManager :=
  if size = 0 then return m
  else do
    let stop := gpuAddr + size
    -- AlignUp
    let firstEnd := min stop ((gpuAddr + m.bigPageSize - 1) / m.bigPageSize * m.bigPageSize)
    let fullEnd := stop / m.bigPageSize * m.bigPageSize
    let lastStart := max firstEnd fullEnd
    let m ← m.unmapSmall gpuAddr firstEnd
    let m ← m.unmapBig getPointer firstEnd fullEnd
    m.unmapSmall lastStart stop

end MemoryManager

/-! ### Reading the tables -/

/-- A read of the tables of a manager. -/
inductive Read where
  | entry (isBigPage : Bool) (position : ℕ)
  | pageTable (index : ℕ)
  | bigPageTableDev (index : ℕ)
  | bigPageContinuous (bigPageIndex : ℕ)

/-- What is read. -/
def Read.Answer : Read → Type
  | entry .. => EntryType
  | pageTable _ => BitVec 32
  | bigPageTableDev _ => BitVec 32
  | bigPageContinuous _ => Bool

/-- The value of a read. -/
def MemoryManager.read (m : MemoryManager) : (r : Read) → Exec r.Answer
  | .entry isBigPage position => m.getEntry isBigPage position
  | .pageTable index => m.pageTable.get index
  | .bigPageTableDev index => (return m.bigPageTableDev index : Exec (BitVec 32))
  | .bigPageContinuous bigPageIndex => m.bigPageContinuous.isBigPageContinuous bigPageIndex

/-- A routine that reads the tables. -/
abbrev Reads (α : Type) : Type := Query Read.Answer α

/-- `GetEntry<is_big_page>`, as a read. -/
def getEntry (isBigPage : Bool) (position : ℕ) : Reads EntryType :=
  Query.get (Read.entry isBigPage position)

/-- The address that an entry of `page_table` or `big_page_table_dev` has. -/
def devAddrBase (isBigPage : Bool) (index : ℕ) : Reads ℕ :=
  if isBigPage then do
    let value : BitVec 32 ← Query.get (Read.bigPageTableDev index)
    return value.toNat * cpuPageSize
  else do
    let value : BitVec 32 ← Query.get (Read.pageTable index)
    return value.toNat * cpuPageSize

/-- `GpuToCpuAddress`: the address in device memory, by the big page or else the small one. -/
def Config.gpuToCpuAddress (c : Config) (gpuAddr : ℕ) : Reads (Option ℕ) := do
  if ¬ gpuAddr < c.addressSpaceSize then return none
  else
    let bigEntry ← getEntry true gpuAddr
    if bigEntry ≠ .mapped then
      let entry ← getEntry false gpuAddr
      if entry ≠ .mapped then return none
      else
        let base ← devAddrBase false (c.pageEntryIndex false gpuAddr)
        return some (base + gpuAddr % c.pageSize)
    else
      let base ← devAddrBase true (c.pageEntryIndex true gpuAddr)
      return some (base + gpuAddr % c.bigPageSize)

/-- `GpuToCpuAddress`, of a manager. -/
def MemoryManager.gpuToCpuAddress (m : MemoryManager) (gpuAddr : ℕ) : Exec (Option ℕ) :=
  (m.toConfig.gpuToCpuAddress gpuAddr).run m.read

end Tegra
end NXEmu
