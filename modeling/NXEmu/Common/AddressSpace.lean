/-
# Flat address space maps

`src/yuzu_common/address_space.h` and `address_space.inc`: `FlatAddressSpaceMap`, a sorted
vector of blocks each of which goes on to the next one, and `FlatAllocator`, which uses such
a map to hand out addresses.

An iterator of the vector is an index into it, and `blocks.end()` is its length; to read
through that one, or to step back from the first one, faults.  The physical addresses are
the words of some width with one of them set aside, `UnmappedPa`; a `bool` is a word of one
bit.  The callback for changed regions is left out.
-/

import NXEmu.Lib.Exec
import Mathlib.Data.List.Basic

namespace NXEmu
namespace Common

open Exec

/-- `FlatAddressSpaceMap::Block`. -/
structure Block (w : ℕ) (ε : Type) where
  virt : ℕ
  phys : BitVec w
  extraInfo : ε
deriving DecidableEq

/-- `FlatAddressSpaceMap`, with the template parameters `UnmappedPa` and `PaContigSplit`. -/
structure FlatAddressSpaceMap (w : ℕ) (ε : Type) where
  unmappedPa : BitVec w
  paContigSplit : Bool
  vaLimit : ℕ
  blocks : List (Block w ε)

namespace FlatAddressSpaceMap

variable {w : ℕ} {ε : Type}

/-! ### Vectors of blocks -/

/-- `std::lower_bound(blocks.begin(), blocks.end(), virt)`. -/
def lowerBound (blocks : List (Block w ε)) (virt : ℕ) : ℕ :=
  blocks.findIdx fun b => decide (virt ≤ b.virt)

/-- What an iterator points to. -/
def get (blocks : List (Block w ε)) (i : ℕ) : Exec (Block w ε) :=
  match blocks[i]? with
  | some b => return b
  | none => .fault

/-- `std::prev`. -/
def prev : ℕ → Exec ℕ
  | 0 => .fault
  | i + 1 => return i

/-- `blocks.insert(i, new)`. -/
def insert (blocks : List (Block w ε)) (i : ℕ) (new : List (Block w ε)) : List (Block w ε) :=
  blocks.take i ++ new ++ blocks.drop i

/-- `blocks.erase(i, j)`. -/
def erase (blocks : List (Block w ε)) (i j : ℕ) : List (Block w ε) :=
  blocks.take i ++ blocks.drop j

/-- `while (std::prev(i)->virt >= virt) i--`. -/
def walkBack (blocks : List (Block w ε)) (virt : ℕ) : ℕ → Exec ℕ
  | 0 => .fault
  | i + 1 => do
    let b ← get blocks i
    if virt ≤ b.virt then walkBack blocks virt i else return i + 1

/-- `walk_back_to_predecessor`: `while (i->virt >= virt) i--`. -/
def walkBackToPredecessor (blocks : List (Block w ε)) (virt : ℕ) : ℕ → Exec ℕ
  | 0 => do
    let b ← get blocks 0
    if virt ≤ b.virt then .fault else return 0
  | i + 1 => do
    let b ← get blocks (i + 1)
    if virt ≤ b.virt then walkBackToPredecessor blocks virt i else return i + 1

/-! ### `MapLocked` -/

/-- `FlatAddressSpaceMap(va_limit)`. -/
def new [Inhabited ε] (unmappedPa : BitVec w) (paContigSplit : Bool) (vaLimit : ℕ) :
    FlatAddressSpaceMap w ε :=
  ⟨unmappedPa, paContigSplit, vaLimit, [⟨0, unmappedPa, default⟩]⟩

/-- `Block::Unmapped`. -/
def unmapped (m : FlatAddressSpaceMap w ε) (b : Block w ε) : Prop := b.phys = m.unmappedPa

instance (m : FlatAddressSpaceMap w ε) (b : Block w ε) : Decidable (m.unmapped b) :=
  inferInstanceAs (Decidable (_ = _))

/-- `tailPhys`: what the part of a block from `virt` on is mapped to. -/
def tailPhys (m : FlatAddressSpaceMap w ε) (b : Block w ε) (virt : ℕ) : BitVec w :=
  if m.paContigSplit = true ∧ ¬ m.unmapped b then b.phys + BitVec.ofNat w (virt - b.virt)
  else b.phys

/-- The part of `MapLocked` that puts in the start of the new region, whose end is at
`endSuccessor`. -/
def mapStart (m : FlatAddressSpaceMap w ε) (virt : ℕ) (phys : BitVec w) (virtEnd : ℕ)
    (extraInfo : ε) (endSuccessor : ℕ) : Exec (FlatAddressSpaceMap w ε) := do
  let startSuccessor ← walkBack m.blocks virt endSuccessor
  let s ← get m.blocks startSuccessor
  -- Check that the start successor is either the end block or something in between
  if virtEnd < s.virt then do
    Exec.assert False
    return m
  else if s.virt = virtEnd then
    -- We need to create a new block as there are none spare that we would overwrite
    return { m with blocks := insert m.blocks startSuccessor [⟨virt, phys, extraInfo⟩] }
  else
    -- Erase overwritten blocks, and reuse the first one as a start block
    return { m with
      blocks := (erase m.blocks (startSuccessor + 1) endSuccessor).set startSuccessor
        ⟨virt, phys, extraInfo⟩ }

/-- `MapLocked`: the region becomes one block; what it covered is erased and the block it ended in goes on
behind it. -/
def mapLocked [Inhabited ε] (m : FlatAddressSpaceMap w ε) (virt : ℕ) (phys : BitVec w)
    (size : ℕ) (extraInfo : ε) : Exec (FlatAddressSpaceMap w ε) := do
  let virtEnd := virt + size
  Exec.assert (virtEnd ≤ m.vaLimit)
  let endSuccessor := lowerBound m.blocks virtEnd
  Exec.assert (endSuccessor ≠ 0)
  let endPredecessor ← prev endSuccessor
  let p ← get m.blocks endPredecessor
  if endSuccessor ≠ m.blocks.length then do
    let s ← get m.blocks endSuccessor
    -- If a block is directly in front then we don't have to add a tail
    if s.virt ≠ virtEnd then
      if endPredecessor ≠ 0 ∧ virt ≤ p.virt then
        -- This block's start would be overlapped by the map: reuse it as a tail block
        let blocks := m.blocks.set endPredecessor ⟨virtEnd, m.tailPhys p virtEnd, p.extraInfo⟩
        mapStart { m with blocks := blocks } virt phys virtEnd extraInfo endPredecessor
      else
        return { m with
          blocks := insert m.blocks endSuccessor
            [⟨virt, phys, extraInfo⟩, ⟨virtEnd, m.tailPhys p virtEnd, p.extraInfo⟩] }
    else mapStart m virt phys virtEnd extraInfo endSuccessor
  else if endPredecessor ≠ 0 ∧ virt ≤ p.virt then
    -- Move the unmapped block start backwards
    let blocks := m.blocks.set endPredecessor { p with virt := virtEnd }
    mapStart { m with blocks := blocks } virt phys virtEnd extraInfo endPredecessor
  else
    return { m with
      blocks := insert m.blocks endSuccessor
        [⟨virt, phys, extraInfo⟩, ⟨virtEnd, m.unmappedPa, default⟩] }

/-! ### `UnmapLocked` -/

/-- `erase_blocks_with_end_unmapped`. -/
def eraseBlocksWithEndUnmapped (m : FlatAddressSpaceMap w ε) (virt unmappedEnd : ℕ) :
    Exec (FlatAddressSpaceMap w ε) := do
  let startPredecessor ← walkBackToPredecessor m.blocks virt unmappedEnd
  let startSuccessor := startPredecessor + 1
  let sp ← get m.blocks startPredecessor
  let u ← get m.blocks unmappedEnd
  -- If the start predecessor is unmapped then we can erase everything in our region, else reuse
  -- the end predecessor as the start of our unmapped region
  let (blocks, eraseEnd) := if m.unmapped sp then (m.blocks, unmappedEnd + 1)
    else (m.blocks.set unmappedEnd { u with virt := virt }, unmappedEnd)
  -- We can't have two unmapped regions after each other
  Exec.assert (¬ (eraseEnd ≠ blocks.length ∧ (eraseEnd = startSuccessor ∨
    (m.unmapped sp ∧ (blocks[eraseEnd]?).any (fun b => decide (m.unmapped b)) = true))))
  return { m with blocks := erase blocks startSuccessor eraseEnd }

/-- The part of `UnmapLocked` that takes out the start of the region, whose end is at
`endSuccessor`. -/
def unmapStart [Inhabited ε] (m : FlatAddressSpaceMap w ε) (virt virtEnd : ℕ)
    (endSuccessor endPredecessor : ℕ) : Exec (FlatAddressSpaceMap w ε) := do
  let startPredecessor ← walkBackToPredecessor m.blocks virt endSuccessor
  let startSuccessor := startPredecessor + 1
  let sp ← get m.blocks startPredecessor
  let s ← get m.blocks startSuccessor
  if virtEnd < s.virt then do
    Exec.assert False
    return m
  else if s.virt = virtEnd then
    -- There are no blocks between the start and the end that would let us skip inserting one
    if m.unmapped sp then return m
    else return { m with
      blocks := insert m.blocks startSuccessor [⟨virt, m.unmappedPa, default⟩] }
  else if m.unmapped sp then
    return { m with blocks := erase m.blocks startSuccessor endPredecessor }
  else
    -- Erase overwritten blocks, and write the unmapped start block to the first one
    return { m with
      blocks := (erase m.blocks (startSuccessor + 1) endSuccessor).set startSuccessor
        { s with virt := virt, phys := m.unmappedPa } }

/-- `UnmapLocked`.  It looks at the block after a mapped one before it checks that there is
one. -/
def unmapLocked [Inhabited ε] (m : FlatAddressSpaceMap w ε) (virt size : ℕ) :
    Exec (FlatAddressSpaceMap w ε) := do
  let virtEnd := virt + size
  Exec.assert (virtEnd ≤ m.vaLimit)
  let endSuccessor := lowerBound m.blocks virtEnd
  Exec.assert (endSuccessor ≠ 0)
  let endPredecessor ← prev endSuccessor
  let p ← get m.blocks endPredecessor
  -- We can avoid any splitting logic if these are the case
  if m.unmapped p then
    if virt < p.virt then eraseBlocksWithEndUnmapped m virt endPredecessor else return m
  else do
    let s ← get m.blocks endSuccessor
    if s.virt = virtEnd ∧ m.unmapped s then eraseBlocksWithEndUnmapped m virt endSuccessor
    else if s.virt ≠ virtEnd then
      -- The previous block is mapped so we will need to add a tail with an offset
      if virt ≤ p.virt then do
        let endPredecessor' ← prev endPredecessor
        let blocks := m.blocks.set endPredecessor
          { p with virt := virtEnd, phys := m.tailPhys p virtEnd }
        unmapStart { m with blocks := blocks } virt virtEnd endPredecessor endPredecessor'
      else
        return { m with
          blocks := insert m.blocks endSuccessor
            [⟨virt, m.unmappedPa, default⟩, ⟨virtEnd, m.tailPhys p virtEnd, p.extraInfo⟩] }
    else unmapStart m virt virtEnd endSuccessor endPredecessor

end FlatAddressSpaceMap

/-! ### `FlatAllocator` -/

/-- `FlatAllocator`: a map to a `bool`, for addresses of `vaBits` bits with `UnmappedVa = 0`. -/
structure FlatAllocator where
  vaBits : ℕ
  map : FlatAddressSpaceMap 1 Unit
  virtStart : ℕ
  currentLinearAllocEnd : ℕ

namespace FlatAllocator

open FlatAddressSpaceMap

/-- `FlatAllocator(virt_start, va_limit)`. -/
def new (vaBits virtStart vaLimit : ℕ) : FlatAllocator :=
  ⟨vaBits, FlatAddressSpaceMap.new 0 false vaLimit, virtStart, virtStart⟩

/-- The loop of `Allocate` over the fixed mappings in front: `p` is `alloc_end_predecessor`, and
the list is what `alloc_end_successor` has before it. -/
def skipFixed (a : FlatAllocator) (size : ℕ) (p : Block 1 Unit) : List (Block 1 Unit) → ℕ
  | [] => 0
  | s :: rest =>
    if s.virt - p.virt < size ∨ ¬ a.map.unmapped p then p.virt
    else if rest = [] then
      -- Use the VA limit to calculate if we can fit in the final block
      let allocEnd := (s.virt + size) % 2 ^ a.vaBits
      if s.virt ≤ allocEnd ∧ allocEnd ≤ a.map.vaLimit then s.virt else 0
    else skipFixed a size s rest

/-- The search of `Allocate` for a gap: `p` is `search_predecessor`. -/
def searchGap (a : FlatAllocator) (size : ℕ) (p : Block 1 Unit) : List (Block 1 Unit) → Option ℕ
  | [] => none
  | s :: rest =>
    if s.virt - p.virt < size ∨ ¬ a.map.unmapped p then searchGap a size s rest else some p.virt

/-- The linear pass of `Allocate`, zero when it finds nothing. -/
def linearAlloc (a : FlatAllocator) (size : ℕ) : Exec ℕ := do
  let allocEnd := (a.currentLinearAllocEnd + size) % 2 ^ a.vaBits
  -- Avoid searching backwards in the address space if possible
  if a.currentLinearAllocEnd ≤ allocEnd ∧ allocEnd ≤ a.map.vaLimit then do
    let allocEndSuccessor := lowerBound a.map.blocks allocEnd
    Exec.assert (allocEndSuccessor ≠ 0)
    let allocEndPredecessor ← prev allocEndSuccessor
    let p ← get a.map.blocks allocEndPredecessor
    if p.virt ≤ a.currentLinearAllocEnd then return a.currentLinearAllocEnd
    else return a.skipFixed size p (a.map.blocks.drop allocEndSuccessor)
  else return 0

/-- `Allocate`: the address, zero when the address space is full.  With one block only there is
no `std::next(search_predecessor)`. -/
def allocate (a : FlatAllocator) (size : ℕ) : Exec (ℕ × FlatAllocator) := do
  let allocStart ← a.linearAlloc size
  if allocStart ≠ 0 then do
    let map ← a.map.mapLocked allocStart 1 size ()
    return (allocStart, { a with
      map := map
      currentLinearAllocEnd := (allocStart + size) % 2 ^ a.vaBits })
  else do
    -- If linear allocation overflows the AS then find a gap
    Exec.assert (2 < a.map.blocks.length)
    match a.map.blocks.drop 1 with
    | [] => .fault
    | p :: rest =>
      match a.searchGap size p rest with
      | none => return (0, a)
      | some allocStart => do
        let map ← a.map.mapLocked allocStart 1 size ()
        return (allocStart, { a with map := map })

/-- `AllocateFixed`. -/
def allocateFixed (a : FlatAllocator) (virt size : ℕ) : Exec FlatAllocator := do
  let map ← a.map.mapLocked virt 1 size ()
  return { a with map := map }

/-- `Free`. -/
def free (a : FlatAllocator) (virt size : ℕ) : Exec FlatAllocator := do
  let map ← a.map.unmapLocked virt size
  return { a with map := map }

end FlatAllocator
end Common
end NXEmu
