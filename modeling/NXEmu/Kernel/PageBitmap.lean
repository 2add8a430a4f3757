/-
# The page bitmap

`src/nxemu-os/core/hle/kernel/k_page_bitmap.h`: a set of numbers as a bitmap in words of 64 bits, with
up to three levels of words above it, whose bits say which words of the level below have a bit.  Depth 0
is the top and has one word; the bitmap itself is at the highest depth.

The storage that `Initialize` is given is zero, which its callers see to.  The random bits come from a
stream of words, which is arbitrary.  An access past the words of a depth is a fault.
-/

import NXEmu.Lib.Exec
import NXEmu.Lib.SummaryBitmap
import Mathlib.Data.Int.Basic

namespace NXEmu
namespace Kernel

open SummaryBitmap

/-! ### Random bits -/

/-- `KPageBitmap::RandomBitGenerator`. -/
structure RandomBitGenerator where
  stream : ℕ → BitVec 32
  entropy : BitVec 32
  bitsAvailable : ℕ

namespace RandomBitGenerator

/-- `RefreshEntropy`. -/
def refreshEntropy (g : RandomBitGenerator) : RandomBitGenerator :=
  ⟨fun i => g.stream (i + 1), g.stream 0, 32⟩

/-- The generator with some bits to take. -/
def refreshed (g : RandomBitGenerator) : RandomBitGenerator :=
  if g.bitsAvailable = 0 then g.refreshEntropy else g

/-- `GenerateRandomBit`. -/
def generateRandomBit (g : RandomBitGenerator) : Bool × RandomBitGenerator :=
  let g := g.refreshed
  (g.entropy.getLsbD 0, ⟨g.stream, g.entropy >>> 1, g.bitsAvailable - 1⟩)

/-- The loop of `GenerateRandomBits`; every round takes at least one bit. -/
def randomBitsFrom : ℕ → RandomBitGenerator → (numBits : ℕ) → BitVec 64 → BitVec 64 × RandomBitGenerator
  | 0, g, _, result => (result, g)
  | rounds + 1, g, numBits, result =>
    if numBits = 0 then (result, g)
    else
      let g := g.refreshed
      let curBits := min numBits g.bitsAvailable
      let mask := (1#64 <<< curBits) - 1
      let result := (result <<< curBits) ||| (g.entropy.zeroExtend 64 &&& mask)
      randomBitsFrom rounds ⟨g.stream, g.entropy >>> curBits, g.bitsAvailable - curBits⟩
        (numBits - curBits) result

/-- `GenerateRandomBits`. -/
def generateRandomBits (g : RandomBitGenerator) (numBits : ℕ) : BitVec 64 × RandomBitGenerator :=
  randomBitsFrom numBits g numBits 0

/-- `GenerateRandom`. -/
def generateRandom (g : RandomBitGenerator) (max : BitVec 64) : BitVec 64 × RandomBitGenerator :=
  let bitsNeeded := 1 + (64 - max.clz.toNat)
  let (rnd, g) := g.generateRandomBits bitsNeeded
  (rnd - rnd / max * max, g)

/-- The loop of `SelectRandomBit` over the halves. -/
def selectFrom : List ℕ → RandomBitGenerator → BitVec 64 → ℕ → ℕ × RandomBitGenerator
  | [], g, _, selected => (selected, g)
  | curNumBits :: halves, g, bitmap, selected =>
    let high := bitmap >>> curNumBits
    let low := bitmap &&& ~~~(BitVec.allOnes 64 <<< curNumBits)
    if high = 0 then selectFrom halves g low selected
    else if low = 0 then selectFrom halves g high (selected + curNumBits)
    else
      let (chosen, g) := g.generateRandomBit
      if chosen then selectFrom halves g high (selected + curNumBits)
      else selectFrom halves g low selected

/-- `SelectRandomBit`. -/
def selectRandomBit (g : RandomBitGenerator) (bitmap : BitVec 64) : ℕ × RandomBitGenerator :=
  selectFrom [32, 16, 8, 4, 2, 1] g bitmap 0

end RandomBitGenerator

/-! ### The bitmap -/

/-- `KPageBitmap`, with the number of words at each depth. -/
structure KPageBitmap where
  storages : Levels
  words : ℕ → ℕ
  rng : RandomBitGenerator
  numBits : ℕ
  usedDepths : ℕ

/-- `KPageBitmap::MaxDepth`. -/
def maxDepth : ℕ := 4

/-- The loop of `GetRequiredDepth`; a `size_t` is used up in eleven rounds. -/
def requiredDepthFrom : ℕ → ℕ → ℕ
  | 0, _ => 0
  | rounds + 1, regionSize =>
    if regionSize / 64 = 0 then 1 else requiredDepthFrom rounds (regionSize / 64) + 1

/-- `GetRequiredDepth`. -/
def getRequiredDepth (regionSize : ℕ) : ℕ := requiredDepthFrom 11 regionSize

/-- `Common::AlignUp` to whole words, in words. -/
def wordsFor (size : ℕ) : ℕ := (size + 63) / 64

/-- The loop of `CalculateManagementOverheadSize`, over so many depths. -/
def overheadWords : ℕ → ℕ → ℕ
  | 0, _ => 0
  | depth + 1, regionSize => wordsFor regionSize + overheadWords depth (wordsFor regionSize)

/-- `CalculateManagementOverheadSize`. -/
def calculateManagementOverheadSize (regionSize : ℕ) : ℕ :=
  overheadWords (getRequiredDepth regionSize) regionSize * 8

namespace KPageBitmap

/-- The loop of `Initialize` that lays the depths out, from the highest to the top. -/
def layOut : ℕ → ℕ → (ℕ → ℕ) → ℕ → ℕ
  | 0, _, words => words
  | depth + 1, size, words => layOut depth (wordsFor size) (Function.update words depth (wordsFor size))

/-- `Initialize`, on a storage that is zero. -/
def initialized (rng : RandomBitGenerator) (size : ℕ) : Exec KPageBitmap := do
  let usedDepths := getRequiredDepth size
  Exec.assert (usedDepths ≤ maxDepth)
  return ⟨fun _ _ => 0, layOut usedDepths size fun _ => 0, rng, 0, usedDepths⟩

/-- `GetHighestDepthIndex`. -/
def getHighestDepthIndex (b : KPageBitmap) : ℕ := b.usedDepths - 1

/-- Read a word. -/
def word (b : KPageBitmap) (depth ind : ℕ) : Exec (BitVec 64) :=
  if ind < b.words depth then return b.storages depth ind else Exec.fault

/-- Write a word that has just been read. -/
def setWord (b : KPageBitmap) (depth ind : ℕ) (v : BitVec 64) : KPageBitmap :=
  { b with storages := Function.update b.storages depth (Function.update (b.storages depth) ind v) }

/-- The loop of the private `SetBit`, from depth `n - 1` to the top. -/
def setBitFrom (b : KPageBitmap) : (n offset : ℕ) → Exec KPageBitmap
  | 0, _ => return b
  | depth + 1, offset => do
    let ind := offset / 64
    let mask := 1#64 <<< (offset % 64)
    let v ← b.word depth ind
    Exec.assert (v &&& mask = 0)
    let b := b.setWord depth ind (v ||| mask)
    if v ≠ 0 then return b else setBitFrom b depth ind

/-- The loop of the private `ClearBit`, from depth `n - 1` to the top. -/
def clearBitFrom (b : KPageBitmap) : (n offset : ℕ) → Exec KPageBitmap
  | 0, _ => return b
  | depth + 1, offset => do
    let ind := offset / 64
    let mask := 1#64 <<< (offset % 64)
    let v ← b.word depth ind
    Exec.assert (v &&& mask ≠ 0)
    let v := v &&& ~~~mask
    let b := b.setWord depth ind v
    if v ≠ 0 then return b else clearBitFrom b depth ind

/-- `SetBit`. -/
def setBit (b : KPageBitmap) (offset : ℕ) : Exec KPageBitmap := do
  let b ← b.setBitFrom b.usedDepths offset
  return { b with numBits := b.numBits + 1 }

/-- `ClearBit`. -/
def clearBit (b : KPageBitmap) (offset : ℕ) : Exec KPageBitmap := do
  let b ← b.clearBitFrom b.usedDepths offset
  return { b with numBits := b.numBits - 1 }

/-- What remains of a count of bits after a word of them, in 64 bits. -/
def remainingAfter (remaining : ℕ) : ℕ := (remaining + (2 ^ 64 - 64)) % 2 ^ 64

/-- The loop of `ClearRange` that checks whole words, which leaves the storage before it ends. -/
def checkWords (b : KPageBitmap) : (rounds ind remaining : ℕ) → Exec Bool
  | 0, _, _ => Exec.fault
  | rounds + 1, ind, remaining => do
    let v ← b.word b.getHighestDepthIndex ind
    if v ≠ BitVec.allOnes 64 then return false
    else if 0 < remainingAfter remaining then checkWords b rounds (ind + 1) (remainingAfter remaining)
    else return true

/-- The loop of `ClearRange` that clears whole words. -/
def clearWords (b : KPageBitmap) : (rounds ind remaining : ℕ) → Exec KPageBitmap
  | 0, _, _ => Exec.fault
  | rounds + 1, ind, remaining => do
    let _ ← b.word b.getHighestDepthIndex ind
    let b ← (b.setWord b.getHighestDepthIndex ind 0).clearBitFrom b.getHighestDepthIndex ind
    if 0 < remainingAfter remaining then clearWords b rounds (ind + 1) (remainingAfter remaining)
    else return b

/-- The branch of `ClearRange` within a word. -/
def clearBitsOfWord (b : KPageBitmap) (offset count : ℕ) : Exec (Bool × KPageBitmap) := do
  let ind := offset / 64
  let shift := offset % 64
  Exec.assert (shift + count ≤ 64)
  let mask := ((1#64 <<< count) - 1) <<< shift
  let v ← b.word b.getHighestDepthIndex ind
  if v &&& mask ≠ mask then return (false, b)
  else do
    let v := v &&& ~~~mask
    let b := b.setWord b.getHighestDepthIndex ind v
    if v = 0 then do
      let b ← b.clearBitFrom b.getHighestDepthIndex ind
      return (true, { b with numBits := b.numBits - count })
    else return (true, { b with numBits := b.numBits - count })

/-- The branch of `ClearRange` over whole words. -/
def clearWholeWords (b : KPageBitmap) (offset count : ℕ) : Exec (Bool × KPageBitmap) := do
  Exec.assert (offset % 64 = 0)
  Exec.assert (count % 64 = 0)
  let rounds := b.words b.getHighestDepthIndex + 1
  let full ← b.checkWords rounds (offset / 64) count
  if !full then return (false, b)
  else do
    let b ← b.clearWords rounds (offset / 64) count
    return (true, { b with numBits := b.numBits - count })

/-- `ClearRange`. -/
def clearRange (b : KPageBitmap) (offset count : ℕ) : Exec (Bool × KPageBitmap) :=
  if count < 64 then b.clearBitsOfWord offset count else b.clearWholeWords offset count

/-- The bit of a word that `FindFreeBlock` goes to. -/
def selectBit (g : RandomBitGenerator) (random : Bool) (v : BitVec 64) : ℕ × RandomBitGenerator :=
  if random then g.selectRandomBit v else (v.ctz.toNat, g)

/-- The loop of `FindFreeBlock`, with so many depths below this one; `none` is -1. -/
def findFreeFrom (b : KPageBitmap) (random : Bool) (g : RandomBitGenerator) :
    (below depth offset : ℕ) → Exec (Option ℕ × RandomBitGenerator)
  | 0, depth, offset => do
    let v ← b.word depth offset
    if v = 0 then do
      Exec.assert (depth = 0)
      return (none, g)
    else
      let (bit, g) := selectBit g random v
      return (some (offset * 64 + bit), g)
  | below + 1, depth, offset => do
    let v ← b.word depth offset
    if v = 0 then do
      Exec.assert (depth = 0)
      return (none, g)
    else
      let (bit, g) := selectBit g random v
      findFreeFrom b random g below (depth + 1) (offset * 64 + bit)

/-- `FindFreeBlock`. -/
def findFreeBlock (b : KPageBitmap) (random : Bool) : Exec (Option ℕ × KPageBitmap) := do
  let (result, rng) ← b.findFreeFrom random b.rng b.getHighestDepthIndex 0 0
  return (result, { b with rng := rng })

/-! ### Ranges -/

/-- A shift of an `u64` to the left, whose count the processor takes modulo 64. -/
def shiftLeft64 (v : BitVec 64) (count : ℕ) : BitVec 64 := v <<< (count % 64)

/-- A shift of an `u64` to the right. -/
def shiftRight64 (v : BitVec 64) (count : ℕ) : BitVec 64 := v >>> (count % 64)

/-- The options of `FindFreeRange` that have been found: how many, and the one chosen. -/
structure Options where
  rng : RandomBitGenerator
  numValidOptions : ℕ
  chosenOffset : Option ℕ

/-- The inner loop of `FindFreeRange`, over the options of a word that are left. -/
def optionsOfWord (count storageIndex : ℕ) : (left option : ℕ) → BitVec 64 → Options → Options
  | 0, _, _, o => o
  | left + 1, option, storage, o =>
    let freeMask := shiftLeft64 1 count - 1
    let o :=
      if storage &&& freeMask = freeMask then
        let numValidOptions := o.numValidOptions + 1
        let offset := storageIndex * 64 + option * count
        if numValidOptions = 1 then ⟨o.rng, numValidOptions, some offset⟩
        else
          let (rnd, rng) := o.rng.generateRandom numValidOptions
          ⟨rng, numValidOptions, if rnd = 0 then some offset else o.chosenOffset⟩
      else o
    optionsOfWord count storageIndex left (option + 1) (shiftRight64 storage count) o

/-- `FindFreeRange`; `none` is -1. -/
def findFreeRange (b : KPageBitmap) (count : ℕ) : Option ℕ × KPageBitmap :=
  let words := b.words b.getHighestDepthIndex
  if !(0 < words && count ≤ 64) then (none, b)
  else
    let optionsPerStorage := max (64 / count) 1
    let o := (List.range (max words 1)).foldl (fun o storageIndex =>
      optionsOfWord count storageIndex optionsPerStorage 0
        (b.storages b.getHighestDepthIndex storageIndex) o) ⟨b.rng, 0, none⟩
    (o.chosenOffset, { b with rng := o.rng })

end KPageBitmap

end Kernel
end NXEmu
