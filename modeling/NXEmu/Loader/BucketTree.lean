/-
# Bucket trees

`src/nxemu-loader/core/file_sys/fssystem/fssystem_bucket_tree.{h,cpp}`: a table of entries that are
sorted by their virtual offsets.  The entries stand in entry sets of one node each.  The offsets where
the sets start are in the node L1, or, when they do not fit, in nodes L2 whose own starts are in L1; what
L1 has left after these takes the starts of the first sets.

Storages are functions from positions to bytes, and numbers in them are little endian.  Integers have
32 bits where the code divides counts (`s32`); elsewhere they stay small.  `EnsureOffsetCache` finds the
cache that `Initialize` leaves, and nothing invalidates it here.
-/

import Mathlib
import NXEmu.Lib.BinarySearch

namespace NXEmu
namespace FileSys

open BinarySearch

/-- The results of the functions of a bucket tree but success. -/
inductive Result where
  | invalidArgument
  | invalidSize
  | invalidOffset
  | outOfRange
  | invalidBucketTreeNodeIndex
  | invalidBucketTreeNodeEntryCount
  | invalidBucketTreeNodeOffset
  | invalidBucketTreeEntryOffset
  | invalidBucketTreeEntrySetOffset
  | invalidBucketTreeVirtualOffset
deriving DecidableEq

/-- `R_UNLESS`. -/
def rUnless (p : Prop) [Decidable p] (result : Result) : Except Result Unit :=
  if p then .ok () else .error result

/-! ### Storages -/

/-- A `VirtualFile`, or a buffer. -/
abbrev Storage : Type := ℤ → BitVec 8

namespace Storage

/-- `Read` of so many bytes into a buffer. -/
def read (s : Storage) (size offset : ℤ) : Storage := fun i =>
  if 0 ≤ i ∧ i < size then s (offset + i) else 0

/-- `ReadObject` of an `s32`. -/
def readS32 (s : Storage) (offset : ℤ) : ℤ :=
  (s (offset + 3) ++ s (offset + 2) ++ s (offset + 1) ++ s offset : BitVec 32).toInt

/-- `ReadObject` of an `s64`. -/
def readS64 (s : Storage) (offset : ℤ) : ℤ :=
  (s (offset + 7) ++ s (offset + 6) ++ s (offset + 5) ++ s (offset + 4) ++ s (offset + 3) ++
    s (offset + 2) ++ s (offset + 1) ++ s offset : BitVec 64).toInt

end Storage

/-- An `s32`, of the value that an operation would have without bound. -/
def s32 (x : ℤ) : ℤ := x.bmod (2 ^ 32)

/-- `Common::DivideUp` of two `s32`. -/
def divideUp (x y : ℤ) : ℤ := (s32 (x + (y - 1))).tdiv y

/-! ### Nodes -/

/-- `sizeof(NodeHeader)`. -/
def nodeHeaderSize : ℤ := 16

/-- `NodeHeader`. -/
structure NodeHeader where
  index : ℤ
  count : ℤ
  offset : ℤ
deriving DecidableEq

/-- `ReadObject` of a `NodeHeader`. -/
def Storage.header (s : Storage) (offset : ℤ) : NodeHeader :=
  ⟨s.readS32 offset, s.readS32 (offset + 4), s.readS64 (offset + 8)⟩

/-- `NodeHeader::Verify`: index, count and offset are what they may be. -/
def NodeHeader.verify (h : NodeHeader) (nodeIndex nodeSize entrySize : ℤ) : Except Result Unit := do
  rUnless (h.index = nodeIndex) .invalidBucketTreeNodeIndex
  rUnless (entrySize ≠ 0 ∧ entrySize + nodeHeaderSize ≤ nodeSize) .invalidSize
  let maxEntryCount := (nodeSize - nodeHeaderSize) / entrySize
  rUnless (0 < h.count ∧ h.count ≤ maxEntryCount) .invalidBucketTreeNodeEntryCount
  rUnless (0 ≤ h.offset) .invalidBucketTreeNodeOffset

/-- `StorageNode`, with its start and stride. -/
structure StorageNode where
  start : ℤ
  stride : ℤ
  count : ℤ

namespace StorageNode

/-- The loop of `StorageNode::Find`, of at most so many rounds: the position it ends at. -/
def findFrom (storage : Storage) (stride virtualAddress : ℤ) : ℕ → (pos : ℤ) → (stop : ℕ) → ℤ
  | 0, pos, _ => pos
  | rounds + 1, pos, stop =>
    if stop = 0 then pos
    else
      let half := stop / 2
      let mid := pos + half * stride
      let offset := storage.readS64 mid
      if offset ≤ virtualAddress then
        findFrom storage stride virtualAddress rounds (mid + stride) (stop - (half + 1))
      else findFrom storage stride virtualAddress rounds pos half

/-- `StorageNode::Find` in a buffer or a storage, and `GetIndex`. -/
def find (n : StorageNode) (storage : Storage) (virtualAddress : ℤ) : ℤ :=
  let pos := findFrom storage n.stride virtualAddress n.count.toNat n.start n.count.toNat
  (pos - n.start) / n.stride - 1

end StorageNode

/-- `impl::GetBucketTreeEntryOffset`. -/
def getBucketTreeEntryOffset (entrySetOffset entrySize entryIndex : ℤ) : ℤ :=
  entrySetOffset + nodeHeaderSize + entryIndex * entrySize

/-- `std::upper_bound` in an array, between two positions. -/
def upperBound (array : ℤ → ℤ) (value first last : ℤ) : ℤ :=
  first + bisect (fun j => decide (array (first + j) ≤ value)) 0 (last - first).toNat

/-! ### The tree -/

/-- `BucketTree`, initialized. -/
structure BucketTree where
  nodeStorage : Storage
  entryStorage : Storage
  nodeL1 : Storage
  nodeSize : ℤ
  entrySize : ℤ
  entryCount : ℤ
  offsetCount : ℤ
  entrySetCount : ℤ
  startOffset : ℤ
  endOffset : ℤ

/-- `GetEntryCount` of a node. -/
def getEntryCount (nodeSize entrySize : ℤ) : ℤ := s32 ((nodeSize - nodeHeaderSize) / entrySize)

/-- `GetOffsetCount`. -/
def getOffsetCount (nodeSize : ℤ) : ℤ := s32 ((nodeSize - nodeHeaderSize) / 8)

/-- `GetEntrySetCount`. -/
def getEntrySetCount (nodeSize entrySize entryCount : ℤ) : ℤ :=
  divideUp entryCount (getEntryCount nodeSize entrySize)

/-- `GetCount` of a node. -/
def getCount (node : Storage) : ℤ := node.readS32 4

/-- The array of a node. -/
def getArray (node : Storage) (j : ℤ) : ℤ := node.readS64 (nodeHeaderSize + j * 8)

/-- `GetBeginOffset`. -/
def getBeginOffset (node : Storage) : ℤ := getArray node 0

/-- `GetEndOffset`. -/
def getEndOffset (node : Storage) : ℤ := node.readS64 8

namespace BucketTree

/-- `Initialize`: the first node is verified, and the offsets of the tree begin before they end. -/
def initializeTree (nodeStorage entryStorage : Storage) (nodeSize entrySize entryCount : ℤ) :
    Except Result BucketTree := do
  rUnless (0 < entryCount) .invalidArgument
  let node := nodeStorage.read nodeSize 0
  (node.header 0).verify 0 nodeSize 8
  let offsetCount := getOffsetCount nodeSize
  let entrySetCount := getEntrySetCount nodeSize entrySize entryCount
  let startOffset :=
    if offsetCount < entrySetCount ∧ getCount node < offsetCount then getArray node (getCount node)
    else getArray node 0
  let endOffset := getEndOffset node
  rUnless (0 ≤ startOffset ∧ startOffset ≤ getBeginOffset node) .invalidBucketTreeEntryOffset
  rUnless (startOffset < endOffset) .invalidBucketTreeEntryOffset
  return ⟨nodeStorage, entryStorage, node, nodeSize, entrySize, entryCount, offsetCount,
    entrySetCount, startOffset, endOffset⟩

/-- `IsExistL2`. -/
def isExistL2 (t : BucketTree) : Prop := t.offsetCount < t.entrySetCount

/-- `IsExistOffsetL2OnL1`. -/
def isExistOffsetL2OnL1 (t : BucketTree) : Prop := t.isExistL2 ∧ getCount t.nodeL1 < t.offsetCount

instance decidableIsExistL2 (t : BucketTree) : Decidable t.isExistL2 := inferInstanceAs (Decidable (_ < _))

instance decidableIsExistOffsetL2OnL1 (t : BucketTree) : Decidable t.isExistOffsetL2OnL1 := inferInstanceAs (Decidable (_ ∧ _))

/-- `GetEntrySetIndex`. -/
def getEntrySetIndex (t : BucketTree) (nodeIndex offsetIndex : ℤ) : ℤ :=
  (t.offsetCount - getCount t.nodeL1) + (t.offsetCount * nodeIndex) + offsetIndex

end BucketTree

/-! ### Visitors -/

/-- `EntrySetHeader::Info`; its first three fields are a `NodeHeader`. -/
structure EntrySetInfo where
  index : ℤ
  count : ℤ
  stop : ℤ
  start : ℤ
deriving DecidableEq

/-- `ReadObject` of an `EntrySetHeader`. -/
def Storage.entrySet (s : Storage) (offset : ℤ) : EntrySetInfo :=
  ⟨s.readS32 offset, s.readS32 (offset + 4), s.readS64 (offset + 8), s.readS64 (offset + 16)⟩

/-- The `NodeHeader` of the union. -/
def EntrySetInfo.header (e : EntrySetInfo) : NodeHeader := ⟨e.index, e.count, e.stop⟩

/-- `BucketTree::Visitor`. -/
structure Visitor where
  entry : Storage
  entryIndex : ℤ
  entrySetCount : ℤ
  entrySet : EntrySetInfo

/-- The size of a `PooledBuffer(ideal_size, required_size)`. -/
def pooledBufferSize (idealSize requiredSize : ℤ) : ℤ :=
  min (max idealSize requiredSize) (4096 * 2 ^ 7)

namespace BucketTree

/-- `FindEntrySetWithBuffer`: the last offset of the node that is not above, in a copy of the node. -/
def findEntrySetWithBuffer (t : BucketTree) (virtualAddress nodeIndex : ℤ) : Except Result ℤ := do
  let nodeOffset := (nodeIndex + 1) * t.nodeSize
  let buffer := t.nodeStorage.read t.nodeSize nodeOffset
  let header := buffer.header 0
  header.verify nodeIndex t.nodeSize 8
  let node : StorageNode := ⟨nodeHeaderSize, 8, header.count⟩
  let index := node.find buffer virtualAddress
  rUnless (0 ≤ index) .invalidBucketTreeVirtualOffset
  return t.getEntrySetIndex header.index index

/-- `FindEntrySetWithoutBuffer`. -/
def findEntrySetWithoutBuffer (t : BucketTree) (virtualAddress nodeIndex : ℤ) : Except Result ℤ := do
  let nodeOffset := (nodeIndex + 1) * t.nodeSize
  let header := t.nodeStorage.header nodeOffset
  header.verify nodeIndex t.nodeSize 8
  let node : StorageNode := ⟨nodeHeaderSize + nodeOffset, 8, header.count⟩
  let index := node.find t.nodeStorage virtualAddress
  rUnless (0 ≤ index) .outOfRange
  return t.getEntrySetIndex header.index index

/-- `FindEntrySet`. -/
def findEntrySet (t : BucketTree) (virtualAddress nodeIndex : ℤ) : Except Result ℤ :=
  if t.nodeSize ≤ pooledBufferSize t.nodeSize 1 then t.findEntrySetWithBuffer virtualAddress nodeIndex
  else t.findEntrySetWithoutBuffer virtualAddress nodeIndex

/-- `FindEntryWithBuffer`: the visitor after it. -/
def findEntryWithBuffer (t : BucketTree) (virtualAddress entrySetIndex : ℤ) : Except Result Visitor := do
  let entrySetOffset := entrySetIndex * t.nodeSize
  let buffer := t.entryStorage.read t.nodeSize entrySetOffset
  let entrySet := buffer.entrySet 0
  entrySet.header.verify entrySetIndex t.nodeSize t.entrySize
  let node : StorageNode := ⟨nodeHeaderSize, t.entrySize, entrySet.count⟩
  let entryIndex := node.find buffer virtualAddress
  rUnless (0 ≤ entryIndex) .outOfRange
  let entryOffset := getBucketTreeEntryOffset 0 t.entrySize entryIndex
  return ⟨buffer.read t.entrySize entryOffset, entryIndex, 0, entrySet⟩

/-- `FindEntryWithoutBuffer`: the visitor after it. -/
def findEntryWithoutBuffer (t : BucketTree) (virtualAddress entrySetIndex : ℤ) :
    Except Result Visitor := do
  let entrySetOffset := entrySetIndex * t.nodeSize
  let entrySet := t.entryStorage.entrySet entrySetOffset
  entrySet.header.verify entrySetIndex t.nodeSize t.entrySize
  let node : StorageNode := ⟨nodeHeaderSize + entrySetOffset, t.entrySize, entrySet.count⟩
  let entryIndex := node.find t.entryStorage virtualAddress
  rUnless (0 ≤ entryIndex) .outOfRange
  let entryOffset := getBucketTreeEntryOffset entrySetOffset t.entrySize entryIndex
  return ⟨t.entryStorage.read t.entrySize entryOffset, entryIndex, 0, entrySet⟩

/-- `FindEntry`: the entry of the set that an offset is in. -/
def findEntry (t : BucketTree) (virtualAddress entrySetIndex : ℤ) : Except Result Visitor :=
  if t.nodeSize ≤ pooledBufferSize t.nodeSize 1 then
    t.findEntryWithBuffer virtualAddress entrySetIndex
  else t.findEntryWithoutBuffer virtualAddress entrySetIndex

/-- The entry set of an address, as `Visitor::Find` finds it. -/
def findEntrySetIndex (t : BucketTree) (virtualAddress : ℤ) : Except Result ℤ := do
  let node := t.nodeL1
  if t.isExistOffsetL2OnL1 ∧ virtualAddress < getBeginOffset node then
    let start := getCount node
    let pos := upperBound (getArray node) virtualAddress start t.offsetCount
    rUnless (start < pos) .outOfRange
    return pos - 1 - start
  else
    let pos := upperBound (getArray node) virtualAddress 0 (getCount node)
    rUnless (0 < pos) .outOfRange
    let nodeIndex := pos - 1
    if t.isExistL2 then
      rUnless (0 ≤ nodeIndex ∧ nodeIndex < t.offsetCount) .invalidBucketTreeNodeOffset
      t.findEntrySet virtualAddress nodeIndex
    else return nodeIndex

/-- `Find`, with `Visitor::Find`. -/
def find (t : BucketTree) (virtualAddress : ℤ) : Except Result Visitor := do
  rUnless (0 ≤ virtualAddress) .invalidOffset
  rUnless (t.entrySize ≠ 0) .outOfRange
  rUnless (virtualAddress < getEndOffset t.nodeL1) .outOfRange
  let entrySetIndex ← t.findEntrySetIndex virtualAddress
  rUnless (0 ≤ entrySetIndex ∧ entrySetIndex < t.entrySetCount) .invalidBucketTreeNodeOffset
  let v ← t.findEntry virtualAddress entrySetIndex
  return { v with entrySetCount := t.entrySetCount }

end BucketTree

namespace Visitor

/-- `IsValid`. -/
def isValid (v : Visitor) : Prop := 0 ≤ v.entryIndex

instance decidableIsValid (v : Visitor) : Decidable v.isValid := inferInstanceAs (Decidable (_ ≤ _))

/-- `CanMoveNext`. -/
def canMoveNext (v : Visitor) : Prop :=
  v.isValid ∧ (v.entryIndex + 1 < v.entrySet.count ∨ v.entrySet.index + 1 < v.entrySetCount)

/-- `CanMovePrevious`. -/
def canMovePrevious (v : Visitor) : Prop := v.isValid ∧ (0 < v.entryIndex ∨ 0 < v.entrySet.index)

instance decidableCanMoveNext (v : Visitor) : Decidable v.canMoveNext := inferInstanceAs (Decidable (_ ∧ _))

instance decidableCanMovePrevious (v : Visitor) : Decidable v.canMovePrevious := inferInstanceAs (Decidable (_ ∧ _))

/-- The entry that a visitor reads. -/
def readEntry (t : BucketTree) (v : Visitor) (entrySet : EntrySetInfo) (entryIndex : ℤ) : Visitor :=
  let entryOffset := getBucketTreeEntryOffset (entrySet.index * t.nodeSize) t.entrySize entryIndex
  { v with
    entry := t.entryStorage.read t.entrySize entryOffset
    entryIndex := entryIndex
    entrySet := entrySet }

/-- `MoveNext`: to the entry behind, in the next set when it was the last of its set. -/
def moveNext (t : BucketTree) (v : Visitor) : Except Result Visitor := do
  rUnless v.isValid .outOfRange
  let entryIndex := v.entryIndex + 1
  if entryIndex = v.entrySet.count then
    let entrySetIndex := v.entrySet.index + 1
    rUnless (entrySetIndex < v.entrySetCount) .outOfRange
    let stop := v.entrySet.stop
    let entrySet := t.entryStorage.entrySet (entrySetIndex * t.nodeSize)
    entrySet.header.verify entrySetIndex t.nodeSize t.entrySize
    rUnless (entrySet.start = stop ∧ entrySet.start < entrySet.stop) .invalidBucketTreeEntrySetOffset
    return readEntry t v entrySet 0
  else return readEntry t v v.entrySet entryIndex

/-- `MovePrevious`: to the entry before, in the set before when it was the first of its set. -/
def movePrevious (t : BucketTree) (v : Visitor) : Except Result Visitor := do
  rUnless v.isValid .outOfRange
  let entryIndex := v.entryIndex
  if entryIndex = 0 then
    rUnless (0 < v.entrySet.index) .outOfRange
    let start := v.entrySet.start
    let entrySetIndex := v.entrySet.index - 1
    let entrySet := t.entryStorage.entrySet (entrySetIndex * t.nodeSize)
    entrySet.header.verify entrySetIndex t.nodeSize t.entrySize
    rUnless (entrySet.stop = start ∧ entrySet.start < entrySet.stop) .invalidBucketTreeEntrySetOffset
    return readEntry t v entrySet (entrySet.count - 1)
  else return readEntry t v v.entrySet (entryIndex - 1)

end Visitor

end FileSys
end NXEmu
