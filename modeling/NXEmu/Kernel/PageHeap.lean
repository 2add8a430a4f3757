/-
# The page heap

`src/nxemu-os/core/hle/kernel/k_page_heap.{h,cpp}`: the free pages of a region of physical memory, as free
blocks of eight sizes.  Each size has a bitmap with a bit for every block of that size in the region, which
is widened to whole blocks of the next size, so that a group of blocks that make up one of the next size is
a range of the bitmap.

A block that is freed completes its group or does not; a completed group is cleared, and what it made up is
freed in the next size.  The address 0 stands for none throughout: `PushBlock` returns it for a group that
is not complete, and `PopBlock` for a size without free blocks.

Addresses and sizes are numbers, so nothing is said of regions whose end goes past 2 ^ 64 when it is
aligned up.  The management data is left out, with the assertion about its end.
-/

import NXEmu.Common.Alignment
import NXEmu.Kernel.MemoryBlock
import NXEmu.Kernel.PageBitmap

namespace NXEmu
namespace Kernel

open Common

/-- `KPageHeap::NumMemoryBlockPageShifts`. -/
def numMemoryBlockPageShifts : ℕ := 8

/-- `KPageHeap::MemoryBlockPageShifts`. -/
def memoryBlockPageShifts : List ℕ := [0xC, 0xE, 0x10, 0x15, 0x16, 0x19, 0x1D, 0x1E]

/-- `MemoryBlockPageShifts[index]`. -/
def blockShift (index : ℕ) : ℕ := memoryBlockPageShifts.getD index 0

/-- `KPageHeap::GetBlockSize`. -/
def getBlockSize (index : ℕ) : ℕ := 2 ^ blockShift index

/-- `KPageHeap::GetBlockNumPages`. -/
def getBlockNumPages (index : ℕ) : ℕ := getBlockSize index / PageSize

/-- `KPageHeap::GetAlignedBlockIndex`. -/
def getAlignedBlockIndex (numPages alignPages : ℕ) : ℤ :=
  match (List.range numMemoryBlockPageShifts).find? fun i =>
    max numPages alignPages ≤ getBlockNumPages i with
  | some i => i
  | none => -1

/-- `KPageHeap::GetBlockIndex`. -/
def getBlockIndex (numPages : ℕ) : ℤ :=
  match (List.range numMemoryBlockPageShifts).reverse.find? fun i => getBlockNumPages i ≤ numPages with
  | some i => i
  | none => -1

/-- A difference of two `size_t`. -/
def sizeSub (a b : ℕ) : ℕ := (a + 2 ^ 64 - b) % 2 ^ 64

/-- A shift of a `size_t` to the right, whose count the processor takes modulo 64. -/
def sizeShiftRight (a count : ℕ) : ℕ := a >>> (count % 64)

/-- A shift of a `size_t` to the left. -/
def sizeShiftLeft (a count : ℕ) : ℕ := a <<< (count % 64) % 2 ^ 64

/-- `std::countr_zero` of a `size_t`. -/
def countrZero (a : ℕ) : ℕ := (BitVec.ofNat 64 a).ctz.toNat

/-! ### Blocks of a size -/

/-- `KPageHeap::Block`. -/
structure Block where
  bitmap : KPageBitmap
  heapAddress : ℕ
  endOffset : ℕ
  blockShift : ℕ
  nextBlockShift : ℕ

namespace Block

/-- `GetSize`. -/
def getSize (b : Block) : ℕ := 2 ^ b.blockShift

/-- `GetNumPages`. -/
def getNumPages (b : Block) : ℕ := b.getSize / PageSize

/-- `GetNumFreeBlocks`. -/
def getNumFreeBlocks (b : Block) : ℕ := b.bitmap.numBits

/-- `GetNumFreePages`. -/
def getNumFreePages (b : Block) : ℕ := b.getNumFreeBlocks * b.getNumPages

/-- `Initialize`. -/
def initialized (rng : RandomBitGenerator) (addr size bs nbs : ℕ) : Exec Block := do
  let align := if nbs ≠ 0 then 2 ^ nbs else 2 ^ bs
  let start := alignDown addr align
  let endOffset := (alignUp (addr + size) align - start) / 2 ^ bs
  let bitmap ← KPageBitmap.initialized rng endOffset
  return ⟨bitmap, start, endOffset, bs, nbs⟩

/-- `PushBlock`: a block is free; whole groups of blocks are pushed as one of the next order. -/
def pushBlock (b : Block) (address : ℕ) : Exec (ℕ × Block) := do
  let offset := (address - b.heapAddress) >>> b.blockShift
  let bitmap ← b.bitmap.setBit offset
  if b.nextBlockShift ≠ 0 then do
    let diff := 2 ^ (b.nextBlockShift - b.blockShift)
    let offset := alignDown offset diff
    let (cleared, bitmap) ← bitmap.clearRange offset diff
    if cleared then return (b.heapAddress + offset <<< b.blockShift, { b with bitmap := bitmap })
    else return (0, { b with bitmap := bitmap })
  else return (0, { b with bitmap := bitmap })

/-- `PopBlock`: a free block, which is free no more. -/
def popBlock (b : Block) (random : Bool) : Exec (ℕ × Block) := do
  let (soffset, bitmap) ← b.bitmap.findFreeBlock random
  match soffset with
  | none => return (0, { b with bitmap := bitmap })
  | some offset => do
    let bitmap ← bitmap.clearBit offset
    return (b.heapAddress + offset <<< b.blockShift, { b with bitmap := bitmap })

/-- The alignments that the free blocks have for a request. -/
def possibleAlignments (b : Block) (neededSize alignShift : ℕ) : ℕ :=
  (1 + sizeShiftRight (sizeSub b.getSize neededSize) alignShift) * b.getNumFreeBlocks

end Block

/-! ### The heap -/

/-- `KPageHeap`. -/
structure KPageHeap where
  heapAddress : ℕ
  heapSize : ℕ
  numBlocks : ℕ
  blocks : ℕ → Block
  rng : RandomBitGenerator

namespace KPageHeap

/-- `GetEndAddress`. -/
def getEndAddress (h : KPageHeap) : ℕ := h.heapAddress + h.heapSize

/-- Read an entry of `m_blocks`. -/
def block (h : KPageHeap) (index : ℕ) : Exec Block :=
  if index < numMemoryBlockPageShifts then return h.blocks index else Exec.fault

/-- Write an entry of `m_blocks` that has been read. -/
def setBlock (h : KPageHeap) (index : ℕ) (b : Block) : KPageHeap :=
  { h with blocks := Function.update h.blocks index b }

/-- `Initialize`, of a heap that has not been; every bitmap has its own generator. -/
def initialized (rngs : ℕ → RandomBitGenerator) (rng : RandomBitGenerator) (address size : ℕ) :
    Exec KPageHeap := do
  Exec.assert (address % PageSize = 0)
  Exec.assert (size % PageSize = 0)
  let unset : Block := ⟨⟨fun _ _ => 0, fun _ => 0, rng, 0, 0⟩, 0, 0, 0, 0⟩
  (List.range numMemoryBlockPageShifts).foldlM (fun (h : KPageHeap) i => do
    let next := if i ≠ numMemoryBlockPageShifts - 1 then blockShift (i + 1) else 0
    let b ← Block.initialized (rngs i) address size (blockShift i) next
    return h.setBlock i b) ⟨address, size, numMemoryBlockPageShifts, fun _ => unset, rng⟩

/-- `GetNumFreePages`. -/
def getNumFreePages (h : KPageHeap) : ℕ :=
  (List.range h.numBlocks).foldl (fun numFree i => numFree + (h.blocks i).getNumFreePages) 0

/-- The loop of `FreeBlock`, which goes on while a group is completed. -/
def freeBlockFrom : (rounds : ℕ) → KPageHeap → (block index : ℕ) → Exec KPageHeap
  | 0, _, _, _ => Exec.fault
  | rounds + 1, h, block, index => do
    let b ← h.block index
    let (block, b) ← b.pushBlock block
    let h := h.setBlock index b
    if block ≠ 0 then freeBlockFrom rounds h block (index + 1) else return h

/-- `FreeBlock`; the index runs off the array before the rounds are used up. -/
def freeBlock (h : KPageHeap) (block index : ℕ) : Exec KPageHeap :=
  freeBlockFrom (numMemoryBlockPageShifts + 1) h block index

/-- The loop of `Free` for the largest size that it can free, below so many: the index, and from where
to where. -/
def findBig (h : KPageHeap) (start finish : ℕ) : ℕ → Exec (Option (ℕ × ℕ × ℕ))
  | 0 => return none
  | bigIndex + 1 => do
    let b ← h.block bigIndex
    let bigStart := alignUp start b.getSize
    let bigEnd := alignDown finish b.getSize
    if bigStart < bigEnd then return some (bigIndex, bigStart, bigEnd) else findBig h start finish bigIndex

/-- The loops that free the blocks of a size from an address on, while it says so: for the big blocks and
for those after them. -/
def freeUpwards (index size : ℕ) (goOn : ℕ → Bool) : (rounds : ℕ) → KPageHeap → (block : ℕ) →
    Exec (KPageHeap × ℕ)
  | 0, h, block => return (h, block)
  | rounds + 1, h, block =>
    if goOn block then do
      let h ← h.freeBlock block index
      freeUpwards index size goOn rounds h (block + size)
    else return (h, block)

/-- The loop that frees the blocks of a size down from an address. -/
def freeDownwards (index size start : ℕ) : (rounds : ℕ) → KPageHeap → (finish : ℕ) → Exec (KPageHeap × ℕ)
  | 0, h, finish => return (h, finish)
  | rounds + 1, h, finish =>
    if start + size ≤ finish then do
      let h ← h.freeBlock (finish - size) index
      freeDownwards index size start rounds h (finish - size)
    else return (h, finish)

/-- Free space before the big blocks, in the sizes below so many. -/
def freeBefore (start : ℕ) : ℕ → KPageHeap → (finish : ℕ) → Exec KPageHeap
  | 0, h, _ => return h
  | i + 1, h, finish => do
    let b ← h.block i
    let (h, finish) ← freeDownwards i b.getSize start (finish - start) h finish
    freeBefore start i h finish

/-- Free space after the big blocks. -/
def freeAfter (finish : ℕ) : ℕ → KPageHeap → (start : ℕ) → Exec KPageHeap
  | 0, h, _ => return h
  | i + 1, h, start => do
    let b ← h.block i
    let (h, start) ← freeUpwards i b.getSize (fun start => start + b.getSize ≤ finish) (finish - start) h start
    freeAfter finish i h start

/-- `Free`: the largest blocks inside the range, and then smaller ones before and behind them. -/
def free (h : KPageHeap) (addr numPages : ℕ) : Exec KPageHeap :=
  if numPages = 0 then return h
  else do
    let finish := addr + numPages * PageSize
    let big ← h.findBig addr finish h.numBlocks
    match big with
    | none => do
      Exec.assert False
      return h
    | some (bigIndex, bigStart, bigEnd) => do
      let b ← h.block bigIndex
      let (h, _) ← freeUpwards bigIndex b.getSize (fun block => block < bigEnd) (bigEnd - bigStart) h bigStart
      let h ← freeBefore addr bigIndex h bigStart
      freeAfter finish bigIndex h bigEnd

/-- The loop of `AllocateByLinearSearch`. -/
def linearSearchFrom (neededSize : ℕ) : (rounds : ℕ) → KPageHeap → (i : ℕ) → Exec (ℕ × KPageHeap)
  | 0, h, _ => return (0, h)
  | rounds + 1, h, i => do
    let b ← h.block i
    let (addr, b) ← b.popBlock false
    let h := h.setBlock i b
    if addr ≠ 0 then
      if neededSize < b.getSize then do
        let h ← h.free (addr + neededSize) ((b.getSize - neededSize) / PageSize)
        return (addr, h)
      else return (addr, h)
    else linearSearchFrom neededSize rounds h (i + 1)

/-- `AllocateByLinearSearch`; a negative index is outside of `m_blocks`. -/
def allocateByLinearSearch (h : KPageHeap) : ℤ → Exec (ℕ × KPageHeap)
  | .negSucc _ => Exec.fault
  | .ofNat index => do
    let b ← h.block index
    linearSearchFrom b.getSize (h.numBlocks - index) h index

/-- The first loop of `AllocateByRandom`: the possible alignments, and the number of sizes to look at. -/
def maxBlocksFrom (h : KPageHeap) (neededSize alignShift : ℕ) : (rounds i possible : ℕ) → Exec (ℕ × ℕ)
  | 0, _, possible => return (possible, h.numBlocks)
  | rounds + 1, i, possible => do
    let b ← h.block i
    let possible := (possible + b.possibleAlignments neededSize alignShift) % 2 ^ 64
    if 4 ≤ possible then return (possible, i + 1)
    else maxBlocksFrom h neededSize alignShift rounds (i + 1) possible

/-- The second loop of `AllocateByRandom`: the size that a random alignment is in. -/
def selectIndexFrom (h : KPageHeap) (neededSize alignShift rnd index : ℕ) :
    (rounds i possible : ℕ) → Exec ℕ
  | 0, _, _ => return index
  | rounds + 1, i, possible => do
    let b ← h.block i
    let possible := (possible + b.possibleAlignments neededSize alignShift) % 2 ^ 64
    if rnd < possible then return i
    else selectIndexFrom h neededSize alignShift rnd index rounds (i + 1) possible

/-- The size that `AllocateByRandom` decides on. -/
def decideIndex (h : KPageHeap) (index neededSize alignShift : ℕ) : Exec (ℕ × KPageHeap) := do
  let (possible, maxBlocks) ← h.maxBlocksFrom neededSize alignShift (h.numBlocks - index) index 0
  if 0 < possible ∧ index + 1 < maxBlocks then do
    let (rnd, rng) := h.rng.generateRandom (BitVec.ofNat 64 possible)
    let i ← h.selectIndexFrom neededSize alignShift rnd.toNat index (maxBlocks - index) index 0
    return (i, { h with rng := rng })
  else return (index, h)

/-- Free what there is of a leftover. -/
def freeLeftover (h : KPageHeap) (addr size : ℕ) : Exec KPageHeap :=
  if size ≠ 0 then h.free addr (size / PageSize) else return h

/-- The place in a block that `AllocateByRandom` takes; what is before and after it is freed. -/
def placeIn (h : KPageHeap) (b : Block) (addr neededSize alignShift : ℕ) : Exec (ℕ × KPageHeap) := do
  let leftoverSize := sizeSub b.getSize neededSize
  if 0 < leftoverSize then do
    let possible := 1 + sizeShiftRight leftoverSize alignShift
    let (rnd, rng) := h.rng.generateRandom (BitVec.ofNat 64 possible)
    let randomOffset := sizeShiftLeft rnd.toNat alignShift
    let h ← freeLeftover { h with rng := rng } addr randomOffset
    let addr := addr + randomOffset
    let h ← freeLeftover h (addr + neededSize) (sizeSub leftoverSize randomOffset)
    return (addr, h)
  else return (addr, h)

/-- `AllocateByRandom`; a negative index is outside of `m_blocks`. -/
def allocateByRandom (h : KPageHeap) : (index : ℤ) → (numPages alignPages : ℕ) → Exec (ℕ × KPageHeap)
  | .negSucc _, _, _ => Exec.fault
  | .ofNat index, numPages, alignPages => do
    let neededSize := numPages * PageSize % 2 ^ 64
    let alignSize := alignPages * PageSize % 2 ^ 64
    let alignShift := countrZero alignSize
    let (index, h) ← h.decideIndex index neededSize alignShift
    let b ← h.block index
    let (addr, b) ← b.popBlock true
    let h := h.setBlock index b
    if addr ≠ 0 then h.placeIn b addr neededSize alignShift else return (0, h)

/-- `AllocateBlock`: by chance, or else from the smallest block that is large enough. -/
def allocateBlock (h : KPageHeap) (index : ℤ) (random : Bool) : Exec (ℕ × KPageHeap) :=
  if random then
    match index with
    | .negSucc _ => Exec.fault
    | .ofNat i => do
      let b ← h.block i
      h.allocateByRandom index b.getNumPages b.getNumPages
  else h.allocateByLinearSearch index

/-- `AllocateAligned`. -/
def allocateAligned (h : KPageHeap) (index : ℤ) (numPages alignPages : ℕ) : Exec (ℕ × KPageHeap) :=
  h.allocateByRandom index numPages alignPages

end KPageHeap

end Kernel
end NXEmu
