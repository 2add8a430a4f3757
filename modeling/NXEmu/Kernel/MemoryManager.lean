/-
# The physical memory manager

`src/nxemu-os/core/hle/kernel/k_memory_manager.{h,cpp}` and `k_page_group.{h,cpp}`: the managers of the
regions of physical memory, each with a page heap and a count of references for every page, the pools as
linked lists of managers, and the groups of blocks that pages are allocated into.

What is handed to `Free` by `Close` is returned as a list of ranges, which nothing in the code reads.  The
linear region of an address has the number of its manager for an attribute, since the managers are made
from these regions; an address outside of them all is a fault.  The bitmaps of optimized processes, the
locks and the statistics are left out, and a group's manager of block infos is the number of them that it
can still allocate.
-/

import NXEmu.Kernel.PageHeap

namespace NXEmu
namespace Kernel

/-- The results of the manager. -/
inductive AllocationResult where
  | success
  | outOfMemory
  | outOfResource
deriving DecidableEq

/-! ### Page groups -/

/-- `KBlockInfo`, whose numbers have 32 bits. -/
structure KBlockInfo where
  pageIndex : ℕ
  numPages : ℕ
deriving DecidableEq

namespace KBlockInfo

/-- `Initialize`. -/
def initialized (addr np : ℕ) : Exec KBlockInfo := do
  Exec.assert (addr % PageSize = 0)
  Exec.assert (np % 2 ^ 32 = np)
  return ⟨addr / PageSize % 2 ^ 32, np % 2 ^ 32⟩

/-- `GetAddress`. -/
def getAddress (b : KBlockInfo) : ℕ := b.pageIndex * PageSize

/-- `GetEndAddress`. -/
def getEndAddress (b : KBlockInfo) : ℕ := (b.pageIndex + b.numPages) % 2 ^ 32 * PageSize

/-- `TryConcatenate`: the longer block, if the range goes on where it ends. -/
def tryConcatenate (b : KBlockInfo) (addr np : ℕ) : Option KBlockInfo :=
  if addr ≠ 0 ∧ addr = b.getEndAddress then some { b with numPages := (b.numPages + np) % 2 ^ 32 }
  else none

end KBlockInfo

/-- `KPageGroup`. -/
structure KPageGroup where
  blocks : List KBlockInfo
  infos : ℕ

namespace KPageGroup

/-- `GetNumPages`. -/
def getNumPages (g : KPageGroup) : ℕ := (g.blocks.map KBlockInfo.numPages).sum

/-- `AddBlock`: the range is joined to the last block if it goes on there, or becomes a block of its own. -/
def addBlock (g : KPageGroup) (addr numPages : ℕ) : Exec (AllocationResult × KPageGroup) :=
  if numPages = 0 then return (.success, g)
  else do
    Exec.assert (addr < (addr + numPages * PageSize) % 2 ^ 64)
    match g.blocks.getLast?.bind fun last => last.tryConcatenate addr numPages with
    | some last => return (.success, { g with blocks := g.blocks.dropLast ++ [last] })
    | none =>
      if g.infos = 0 then return (.outOfResource, g)
      else do
        let block ← KBlockInfo.initialized addr numPages
        return (.success, ⟨g.blocks ++ [block], g.infos - 1⟩)

/-- `Finalize`. -/
def finalized (g : KPageGroup) : KPageGroup := ⟨[], g.infos + g.blocks.length⟩

end KPageGroup

/-! ### The manager of a region -/

/-- `KMemoryManager::Impl`. -/
structure Impl where
  heap : KPageHeap
  pageReferenceCounts : ℕ → BitVec 16
  numPageReferenceCounts : ℕ

namespace Impl

/-- `GetPageOffset`. -/
def getPageOffset (m : Impl) (address : ℕ) : ℕ := (address - m.heap.heapAddress) / PageSize

/-- `GetPageOffsetToEnd`. -/
def getPageOffsetToEnd (m : Impl) (address : ℕ) : ℕ := (m.heap.getEndAddress - address) / PageSize

/-- Write a count. -/
def setCount (m : Impl) (index : ℕ) (count : BitVec 16) : Impl :=
  { m with pageReferenceCounts := Function.update m.pageReferenceCounts index count }

/-- The loop of `OpenFirst` and `Open`, which differ in what they assert of the new count. -/
def openFrom (expected : BitVec 16 → Bool) : (rounds : ℕ) → Impl → (index : ℕ) → Exec Impl
  | 0, m, _ => return m
  | rounds + 1, m, index =>
    if index < m.numPageReferenceCounts then do
      let refCount := m.pageReferenceCounts index + 1
      Exec.assert (expected refCount = true)
      openFrom expected rounds (m.setCount index refCount) (index + 1)
    else Exec.fault

/-- `OpenFirst`. -/
def openFirst (m : Impl) (address numPages : ℕ) : Exec Impl :=
  openFrom (fun refCount => refCount == 1) numPages m (m.getPageOffset address)

/-- `Open`. -/
def openPages (m : Impl) (address numPages : ℕ) : Exec Impl :=
  openFrom (fun refCount => 1 < refCount) numPages m (m.getPageOffset address)

/-- Hand pages to `Free`. -/
def freeRun (m : Impl) (freeStart freeCount : ℕ) : Exec (Impl × List (ℕ × ℕ)) := do
  let heap ← m.heap.free (m.heap.heapAddress + freeStart * PageSize) freeCount
  return ({ m with heap := heap }, [(m.heap.heapAddress + freeStart * PageSize, freeCount)])

/-- The loop of `Close`, which gathers pages whose count is down to 0, and what follows it. -/
def closeFrom : (rounds : ℕ) → Impl → (index freeStart freeCount : ℕ) → Exec (Impl × List (ℕ × ℕ))
  | 0, m, _, freeStart, freeCount =>
    if 0 < freeCount then m.freeRun freeStart freeCount else return (m, [])
  | rounds + 1, m, index, freeStart, freeCount =>
    if index < m.numPageReferenceCounts then do
      Exec.assert (0 < m.pageReferenceCounts index)
      let refCount := m.pageReferenceCounts index - 1
      let m := m.setCount index refCount
      if refCount = 0 then
        if 0 < freeCount then closeFrom rounds m (index + 1) freeStart (freeCount + 1)
        else closeFrom rounds m (index + 1) index 1
      else if 0 < freeCount then do
        let (m, handed) ← m.freeRun freeStart freeCount
        let (m, rest) ← closeFrom rounds m (index + 1) freeStart 0
        return (m, handed ++ rest)
      else closeFrom rounds m (index + 1) freeStart 0
    else Exec.fault

/-- `Close`. -/
def close (m : Impl) (address numPages : ℕ) : Exec (Impl × List (ℕ × ℕ)) :=
  closeFrom numPages m (m.getPageOffset address) 0 0

end Impl

/-! ### The manager -/

/-- `KMemoryManager::Pool`. -/
inductive Pool where
  | application
  | applet
  | system
  | systemNonSecure
deriving DecidableEq

/-- `KMemoryManager::Direction`. -/
inductive Direction where
  | fromFront
  | fromBack
deriving DecidableEq

/-- `KMemoryManager`; a pool is the list of the numbers of its managers, from head to tail. -/
structure KMemoryManager where
  managers : ℕ → Impl
  numManagers : ℕ
  poolManagers : Pool → List ℕ

namespace KMemoryManager

/-- The managers of a pool as `GetFirstManager` and `GetNextManager` give them. -/
def order (s : KMemoryManager) (pool : Pool) : Direction → List ℕ
  | .fromFront => s.poolManagers pool
  | .fromBack => (s.poolManagers pool).reverse

/-- Write a manager. -/
def setManager (s : KMemoryManager) (m : ℕ) (impl : Impl) : KMemoryManager :=
  { s with managers := Function.update s.managers m impl }

/-- Write the heap of a manager. -/
def setHeap (s : KMemoryManager) (m : ℕ) (heap : KPageHeap) : KMemoryManager :=
  s.setManager m { s.managers m with heap := heap }

/-- The address is in the region of the manager. -/
def Within (s : KMemoryManager) (m address : ℕ) : Prop :=
  (s.managers m).heap.heapAddress ≤ address ∧ address < (s.managers m).heap.getEndAddress

instance (s : KMemoryManager) (m address : ℕ) : Decidable (s.Within m address) :=
  inferInstanceAs (Decidable (_ ∧ _))

/-- `GetManager`. -/
def getManager (s : KMemoryManager) (address : ℕ) : Exec ℕ :=
  match (List.range s.numManagers).find? fun m => s.Within m address with
  | some m => return m
  | none => Exec.fault

/-- The loops of `Open`, `OpenFirst` and `Close` over the managers of a range. -/
def overManagers (f : Impl → (address numPages : ℕ) → Exec (Impl × List (ℕ × ℕ))) :
    (rounds : ℕ) → KMemoryManager → (address numPages : ℕ) → Exec (KMemoryManager × List (ℕ × ℕ))
  | 0, s, _, numPages => if numPages = 0 then return (s, []) else Exec.fault
  | rounds + 1, s, address, numPages =>
    if numPages = 0 then return (s, [])
    else do
      let m ← s.getManager address
      let curPages := min numPages ((s.managers m).getPageOffsetToEnd address)
      let (impl, handed) ← f (s.managers m) address curPages
      let (s, rest) ← overManagers f rounds (s.setManager m impl) (address + curPages * PageSize)
        (numPages - curPages)
      return (s, handed ++ rest)

/-- `Open`. -/
def openPages (s : KMemoryManager) (address numPages : ℕ) : Exec KMemoryManager := do
  let (s, _) ← overManagers (fun m address numPages => do
    let m ← m.openPages address numPages
    return (m, [])) numPages s address numPages
  return s

/-- `OpenFirst`. -/
def openFirst (s : KMemoryManager) (address numPages : ℕ) : Exec KMemoryManager := do
  let (s, _) ← overManagers (fun m address numPages => do
    let m ← m.openFirst address numPages
    return (m, [])) numPages s address numPages
  return s

/-- `Close`, with what it hands to `Free`. -/
def close (s : KMemoryManager) (address numPages : ℕ) : Exec (KMemoryManager × List (ℕ × ℕ)) :=
  overManagers Impl.close numPages s address numPages

/-- The loop of `AllocateAndOpenContinuous` over the managers: the one chosen, and the block. -/
def allocateAlignedFrom (heapIndex : ℤ) (numPages alignPages : ℕ) :
    List ℕ → KMemoryManager → Exec (Option (ℕ × ℕ) × KMemoryManager)
  | [], s => return (none, s)
  | m :: rest, s => do
    let (block, heap) ← (s.managers m).heap.allocateAligned heapIndex numPages alignPages
    let s := s.setHeap m heap
    if block ≠ 0 then return (some (m, block), s)
    else allocateAlignedFrom heapIndex numPages alignPages rest s

/-- `AllocateAndOpenContinuous`: one block of the order that has room, opened, and what it has too much is
freed. -/
def allocateAndOpenContinuous (s : KMemoryManager) (numPages alignPages : ℕ) (pool : Pool)
    (dir : Direction) : Exec (ℕ × KMemoryManager) :=
  if numPages = 0 then return (0, s)
  else do
    let (chosen, s) ← allocateAlignedFrom (getAlignedBlockIndex numPages alignPages) numPages alignPages
      (s.order pool dir) s
    match chosen with
    | none => return (0, s)
    | some (m, block) => do
      let impl ← (s.managers m).openFirst block numPages
      return (block, s.setManager m impl)

/-- What the loops of `AllocatePageGroupImpl` work on. -/
structure Allocating where
  manager : KMemoryManager
  out : KPageGroup
  numPages : ℕ

/-- The innermost loop of `AllocatePageGroupImpl`, which takes blocks of a size from a manager; a block
that cannot be added is freed again. -/
def takeBlocks (m index : ℕ) (random : Bool) : (rounds : ℕ) → Allocating →
    Exec (AllocationResult × Allocating)
  | 0, a => return (.success, a)
  | rounds + 1, a =>
    if getBlockNumPages index ≤ a.numPages then do
      let (block, heap) ← (a.manager.managers m).heap.allocateBlock index random
      let s := a.manager.setHeap m heap
      if block = 0 then return (.success, { a with manager := s })
      else do
        let (result, out) ← a.out.addBlock block (getBlockNumPages index)
        if result = .success then
          takeBlocks m index random rounds ⟨s, out, a.numPages - getBlockNumPages index⟩
        else do
          let heap ← (s.managers m).heap.free block (getBlockNumPages index)
          return (result, ⟨s.setHeap m heap, out, a.numPages⟩)
    else return (.success, a)

/-- The loop of `AllocatePageGroupImpl` over the managers. -/
def takeFromManagers (index : ℕ) (random : Bool) : List ℕ → Allocating → Exec (AllocationResult × Allocating)
  | [], a => return (.success, a)
  | m :: rest, a => do
    let (result, a) ← takeBlocks m index random a.numPages a
    if result = .success then takeFromManagers index random rest a else return (result, a)

/-- The loop of `AllocatePageGroupImpl` over the sizes, below so many. -/
def takeOfSizes (managers : List ℕ) (random : Bool) : ℕ → Allocating → Exec (AllocationResult × Allocating)
  | 0, a => return (.success, a)
  | index + 1, a =>
    if 0 < a.numPages then do
      let (result, a) ← takeFromManagers index random managers a
      if result = .success then takeOfSizes managers random index a else return (result, a)
    else return (.success, a)

/-- The handler of a failure of `AllocatePageGroupImpl`, over the blocks of the group. -/
def unfreed : List KBlockInfo → KMemoryManager → Exec KMemoryManager
  | [], s => return s
  | block :: rest, s => do
    let m ← s.getManager block.getAddress
    let nodeNumPages := min block.numPages
      (((s.managers m).heap.getEndAddress - block.getAddress) / PageSize)
    let heap ← (s.managers m).heap.free block.getAddress nodeNumPages
    unfreed rest (s.setHeap m heap)

/-- `AllocatePageGroupImpl`: blocks from the largest size down; when they are too few all are freed again. -/
def allocatePageGroupImpl (s : KMemoryManager) (out : KPageGroup) (numPages : ℕ) (pool : Pool)
    (dir : Direction) (random : Bool) : Exec (AllocationResult × KMemoryManager × KPageGroup) :=
  match getBlockIndex numPages with
  | .negSucc _ => return (.outOfMemory, s, out)
  | .ofNat heapIndex => do
    let (result, a) ← takeOfSizes (s.order pool dir) random (heapIndex + 1) ⟨s, out, numPages⟩
    let result := if result = .success ∧ a.numPages ≠ 0 then .outOfMemory else result
    if result = .success then return (.success, a.manager, a.out)
    else do
      let s ← unfreed a.out.blocks a.manager
      return (result, s, a.out.finalized)

/-- The loop of `AllocateAndOpen` over the blocks of the group. -/
def openBlocks : List KBlockInfo → KMemoryManager → Exec KMemoryManager
  | [], s => return s
  | block :: rest, s => do
    let s ← s.openFirst block.getAddress block.numPages
    openBlocks rest s

/-- `AllocateAndOpen`. -/
def allocateAndOpen (s : KMemoryManager) (out : KPageGroup) (numPages : ℕ) (pool : Pool)
    (dir : Direction) : Exec (AllocationResult × KMemoryManager × KPageGroup) := do
  Exec.assert (out.getNumPages = 0)
  if numPages = 0 then return (.success, s, out)
  else do
    let (result, s, out) ← s.allocatePageGroupImpl out numPages pool dir true
    if result = .success then do
      let s ← openBlocks out.blocks s
      return (.success, s, out)
    else return (result, s, out)

end KMemoryManager

end Kernel
end NXEmu
