/-
# The memory block manager

`src/nxemu-os/core/hle/kernel/k_memory_block_manager.{h,cpp}`.

The tree of blocks is the list of its blocks in order.  An iterator into it is
the pair of the blocks before it and of the blocks from it on, so `end()` has an
empty second part, `it++` moves a block over, and stepping back from the first
block or on from `end()` goes through a null node (`Exec.fault`).

`Update`, `UpdateIfMatch`, `UpdateAttribute` and `UpdateLock` run one loop over
the blocks of a range, `updateLoop`.  They differ in which blocks they change
and which they step over, and in what they do to a block they change: a
`RangeUpdate` is these two.  What the loop cut apart `CoalesceForUpdate` puts
together again.
-/

import NXEmu.Kernel.MemoryBlock

namespace NXEmu
namespace Kernel

open KMemoryAttribute (ignoreMask)

/-- A `u64` sum or product of a request's address and page count. -/
def u64 (n : ℕ) : ℕ := n % 2 ^ 64

/-- `class KMemoryBlockManagerUpdateAllocator`: the blocks from `m_index` on are there
to be handed out; a block freed while all of them are goes to the slab manager. -/
structure KMemoryBlockManagerUpdateAllocator where
  index : ℕ := 0
  slabFreed : ℕ := 0
deriving DecidableEq

namespace KMemoryBlockManagerUpdateAllocator

/-- `MaxBlocks`. -/
def maxBlocks : ℕ := 2

/-- `Allocate`: past the last block it reads outside `m_blocks`. -/
def allocate (alloc : KMemoryBlockManagerUpdateAllocator) :
    Exec KMemoryBlockManagerUpdateAllocator :=
  if alloc.index < maxBlocks then return { alloc with index := alloc.index + 1 } else .fault

/-- `Free`. -/
def free (alloc : KMemoryBlockManagerUpdateAllocator) : KMemoryBlockManagerUpdateAllocator :=
  if alloc.index = 0 then { alloc with slabFreed := alloc.slabFreed + 1 }
  else { alloc with index := alloc.index - 1 }

end KMemoryBlockManagerUpdateAllocator

/-- What an update does in the loop over the blocks of its range: the blocks it
changes (it steps over the others) and the change. -/
structure RangeUpdate where
  changes : KMemoryBlock → Bool
  apply : KMemoryBlock → Exec KMemoryBlock

/-- `class KMemoryBlockManager`. -/
structure KMemoryBlockManager where
  memoryBlockTree : List KMemoryBlock
  startAddress : ℕ
  endAddress : ℕ
deriving DecidableEq

namespace KMemoryBlockManager

open KMemoryBlock (compare)

/-- The manager `Initialize` sets up when the slab manager has a block left. -/
def initialized (st nd : ℕ) : KMemoryBlockManager where
  memoryBlockTree := [KMemoryBlock.initialized st ((nd - st) / PageSize) KMemoryState.free
    KMemoryPermission.none KMemoryAttribute.none]
  startAddress := st
  endAddress := nd

/-- `FindIterator`: the blocks before the one found and the blocks from it on. -/
def findIterator (m : KMemoryBlockManager) (addr : ℕ) : List KMemoryBlock × List KMemoryBlock :=
  m.memoryBlockTree.span fun b => compare addr b != .eq

/-- `FindBlock`. -/
def findBlock (m : KMemoryBlockManager) (addr : ℕ) : Option KMemoryBlock :=
  m.memoryBlockTree.find? fun b => compare addr b == .eq

/-- "If we need to, create a new block before": the block cut off before `cur`, if one
is, and the block of the iterator after that. -/
def splitBefore (alloc : KMemoryBlockManagerUpdateAllocator) (b : KMemoryBlock) (cur : ℕ) :
    Exec (List KMemoryBlock × KMemoryBlock × KMemoryBlockManagerUpdateAllocator) :=
  if b.address ≠ cur then do
    let alloc ← alloc.allocate
    let (newBlock, b) ← b.split cur
    return ([newBlock], b, alloc)
  else return ([], b, alloc)

/-- "If we need to, create a new block after": the iterator ends on the new block, which
is the part up to `cur + remainingSize`. -/
def splitAfter (alloc : KMemoryBlockManagerUpdateAllocator) (b : KMemoryBlock)
    (cur remainingSize : ℕ) :
    Exec (KMemoryBlock × List KMemoryBlock × KMemoryBlockManagerUpdateAllocator) :=
  if b.size > remainingSize then do
    let alloc ← alloc.allocate
    let (newBlock, b) ← b.split (u64 (cur + remainingSize))
    return (newBlock, [b], alloc)
  else return (b, [], alloc)

/-- "Just advance": the address and the page count left after stepping over `b`. -/
def advance (b : KMemoryBlock) (cur remaining : ℕ) : ℕ × ℕ :=
  if u64 (cur + remaining * PageSize) < b.endAddress then (u64 (cur + remaining * PageSize), 0)
  else (b.endAddress, (u64 (cur + remaining * PageSize) - b.endAddress) / PageSize)

/-- The loop of the four updates on the blocks `it` from the iterator on: what these
blocks become.  `fuel` bounds the number of rounds. -/
def updateLoop (u : RangeUpdate) (fuel : ℕ) (alloc : KMemoryBlockManagerUpdateAllocator)
    (it : List KMemoryBlock) (cur remaining : ℕ) :
    Exec (List KMemoryBlock × KMemoryBlockManagerUpdateAllocator) :=
  if remaining = 0 then return (it, alloc)
  else match fuel, it with
    | 0, _ => .fault
    | _, [] => .fault
    | fuel + 1, b :: rest =>
      if u.changes b then do
        let (before, b, alloc) ← splitBefore alloc b cur
        let (b, after, alloc) ← splitAfter alloc b b.address (remaining * PageSize)
        let b' ← u.apply b
        let (bs, alloc) ← updateLoop u fuel alloc (after ++ rest) (u64 (b.address + b.size))
          (remaining - b.numPages)
        return (before ++ b' :: bs, alloc)
      else do
        let (cur, remaining) := advance b cur remaining
        let (bs, alloc) ← updateLoop u fuel alloc rest cur remaining
        return (b :: bs, alloc)

/-- The loop of `CoalesceForUpdate` with `prev` before the iterator and `it` from it on,
stopping past `limit`. -/
def coalesceLoop (limit : ℕ) (alloc : KMemoryBlockManagerUpdateAllocator) :
    KMemoryBlock → List KMemoryBlock →
      Exec (List KMemoryBlock × KMemoryBlockManagerUpdateAllocator)
  | prev, [] => return ([prev], alloc)
  | prev, b :: rest =>
    if prev.canMergeWith b then do
      let prev ← prev.add b
      if limit < prev.endAddress then return (prev :: rest, alloc.free)
      else coalesceLoop limit alloc.free prev rest
    else if limit < b.endAddress then return (prev :: b :: rest, alloc)
    else do
      let (bs, alloc) ← coalesceLoop limit alloc b rest
      return (prev :: bs, alloc)

/-- `CoalesceForUpdate`: `it--` on the first block leaves the null iterator, which the
loop steps on from. -/
def coalesceForUpdate (m : KMemoryBlockManager) (alloc : KMemoryBlockManagerUpdateAllocator)
    (address numPages : ℕ) : Exec (KMemoryBlockManager × KMemoryBlockManagerUpdateAllocator) :=
  match m.findIterator address with
  | (_, []) => .fault
  | (before, b :: rest) =>
    if address ≠ m.startAddress then
      match before.getLast? with
      | none => .fault
      | some prev => do
        let (bs, alloc) ← coalesceLoop (u64 (address + numPages * PageSize)) alloc prev (b :: rest)
        return ({ m with memoryBlockTree := before.dropLast ++ bs }, alloc)
    else do
      let (bs, alloc) ← coalesceLoop (u64 (address + numPages * PageSize)) alloc b rest
      return ({ m with memoryBlockTree := before ++ bs }, alloc)

/-- The body the four updates share. -/
def updateRange (m : KMemoryBlockManager) (u : RangeUpdate)
    (alloc : KMemoryBlockManagerUpdateAllocator) (address numPages : ℕ) :
    Exec (KMemoryBlockManager × KMemoryBlockManagerUpdateAllocator) := do
  Exec.assert (address % PageSize = 0)
  let (before, it) := m.findIterator address
  let (bs, alloc) ← updateLoop u numPages alloc it address numPages
  coalesceForUpdate { m with memoryBlockTree := before ++ bs } alloc address numPages

/-- The blocks `Update` changes and how. -/
def updateStep (address : ℕ) (state : KMemoryState) (perm : KMemoryPermission)
    (attr : KMemoryAttribute)
    (setDisableAttr clearDisableAttr : KMemoryBlockDisableMergeAttribute) : RangeUpdate where
  changes b := !b.hasProperties state perm attr
  apply b := b.update state perm attr (b.address == address) setDisableAttr clearDisableAttr

/-- `Update`: the blocks of the range get the state, and are merged where they are alike. -/
def update (m : KMemoryBlockManager) (alloc : KMemoryBlockManagerUpdateAllocator)
    (address numPages : ℕ) (state : KMemoryState) (perm : KMemoryPermission)
    (attr : KMemoryAttribute)
    (setDisableAttr clearDisableAttr : KMemoryBlockDisableMergeAttribute) :
    Exec (KMemoryBlockManager × KMemoryBlockManagerUpdateAllocator) := do
  Exec.assert (attr &&& ignoreMask = KMemoryAttribute.none)
  m.updateRange (updateStep address state perm attr setDisableAttr clearDisableAttr) alloc
    address numPages

/-- The blocks `UpdateIfMatch` changes and how. -/
def updateIfMatchStep (testState : KMemoryState) (testPerm : KMemoryPermission)
    (testAttr : KMemoryAttribute) (state : KMemoryState) (perm : KMemoryPermission)
    (attr : KMemoryAttribute)
    (setDisableAttr clearDisableAttr : KMemoryBlockDisableMergeAttribute) : RangeUpdate where
  changes b := b.hasProperties testState testPerm testAttr && !b.hasProperties state perm attr
  apply b := b.update state perm attr false setDisableAttr clearDisableAttr

/-- `UpdateIfMatch`: the blocks of the range are changed where they have the tested state. -/
def updateIfMatch (m : KMemoryBlockManager) (alloc : KMemoryBlockManagerUpdateAllocator)
    (address numPages : ℕ) (testState : KMemoryState) (testPerm : KMemoryPermission)
    (testAttr : KMemoryAttribute) (state : KMemoryState) (perm : KMemoryPermission)
    (attr : KMemoryAttribute)
    (setDisableAttr clearDisableAttr : KMemoryBlockDisableMergeAttribute) :
    Exec (KMemoryBlockManager × KMemoryBlockManagerUpdateAllocator) := do
  Exec.assert (attr &&& ignoreMask = KMemoryAttribute.none)
  m.updateRange (updateIfMatchStep testState testPerm testAttr state perm attr setDisableAttr
    clearDisableAttr) alloc address numPages

/-- The blocks `UpdateLock` changes, all of its range, and how. -/
def updateLockStep (address numPages : ℕ) (lockFunc : MemoryBlockLockFunction)
    (perm : KMemoryPermission) : RangeUpdate where
  changes _ := true
  apply b := lockFunc.call b perm (b.address == address)
    (b.endAddress == u64 (address + numPages * PageSize))

/-- `UpdateLock`: the function is called on each block of the range. -/
def updateLock (m : KMemoryBlockManager) (alloc : KMemoryBlockManagerUpdateAllocator)
    (address numPages : ℕ) (lockFunc : MemoryBlockLockFunction) (perm : KMemoryPermission) :
    Exec (KMemoryBlockManager × KMemoryBlockManagerUpdateAllocator) :=
  m.updateRange (updateLockStep address numPages lockFunc perm) alloc address numPages

/-- The blocks `UpdateAttribute` changes and how. -/
def updateAttributeStep (mask attr : KMemoryAttribute) : RangeUpdate where
  changes b := b.attr &&& mask != attr
  apply b := b.updateAttribute mask attr

/-- `UpdateAttribute`. -/
def updateAttribute (m : KMemoryBlockManager) (alloc : KMemoryBlockManagerUpdateAllocator)
    (address numPages : ℕ) (mask attr : KMemoryAttribute) :
    Exec (KMemoryBlockManager × KMemoryBlockManagerUpdateAllocator) :=
  m.updateRange (updateAttributeStep mask attr) alloc address numPages

end KMemoryBlockManager

/-- One of the four updates with its arguments other than the range. -/
inductive BlockUpdate where
  | update (state : KMemoryState) (perm : KMemoryPermission) (attr : KMemoryAttribute)
      (setDisableAttr clearDisableAttr : KMemoryBlockDisableMergeAttribute)
  | updateIfMatch (testState : KMemoryState) (testPerm : KMemoryPermission)
      (testAttr : KMemoryAttribute) (state : KMemoryState) (perm : KMemoryPermission)
      (attr : KMemoryAttribute)
      (setDisableAttr clearDisableAttr : KMemoryBlockDisableMergeAttribute)
  | updateLock (lockFunc : MemoryBlockLockFunction) (perm : KMemoryPermission)
  | updateAttribute (mask attr : KMemoryAttribute)

/-- Call the update on `numPages` pages from `address` on. -/
def BlockUpdate.run (o : BlockUpdate) (m : KMemoryBlockManager)
    (alloc : KMemoryBlockManagerUpdateAllocator) (address numPages : ℕ) :
    Exec (KMemoryBlockManager × KMemoryBlockManagerUpdateAllocator) :=
  match o with
  | .update s p a set clear => m.update alloc address numPages s p a set clear
  | .updateIfMatch ts tp ta s p a set clear =>
    m.updateIfMatch alloc address numPages ts tp ta s p a set clear
  | .updateLock f p => m.updateLock alloc address numPages f p
  | .updateAttribute mask a => m.updateAttribute alloc address numPages mask a

/-- What the update does in the shared loop. -/
def BlockUpdate.step (o : BlockUpdate) (address numPages : ℕ) : RangeUpdate :=
  match o with
  | .update s p a set clear => KMemoryBlockManager.updateStep address s p a set clear
  | .updateIfMatch ts tp ta s p a set clear =>
    KMemoryBlockManager.updateIfMatchStep ts tp ta s p a set clear
  | .updateLock f p => KMemoryBlockManager.updateLockStep address numPages f p
  | .updateAttribute mask a => KMemoryBlockManager.updateAttributeStep mask a

end Kernel
end NXEmu
