/-
# The handle table

`src/nxemu-os/core/hle/kernel/k_handle_table.{h,cpp}`.

An entry that is in use has an object and the linear id its handle was issued
with; a free one links to the next free entry.  Both live in one 16-bit field
(`EntryInfo`), and a reserved entry, which has no object yet, still holds the
link it had when it was free.  `α` stands for the objects, so a pointer to one is
an `Option α`.  Reference counts are left out: no operation of the table reads
them.
-/

import NXEmu.Lib.Exec
import Mathlib.Data.Int.Notation
import Mathlib.Logic.Function.Basic

namespace NXEmu
namespace Kernel

/-- `Handle`, a `u32`. -/
abbrev Handle := BitVec 32

namespace Handle

/-- `HandlePack::index`, bits 0 to 14. -/
def index (h : Handle) : ℕ := h.toNat % 2 ^ 15

/-- `HandlePack::linear_id`, bits 15 to 29. -/
def linearId (h : Handle) : ℕ := h.toNat / 2 ^ 15 % 2 ^ 15

/-- `HandlePack::reserved`, bits 30 and 31. -/
def reserved (h : Handle) : ℕ := h.toNat / 2 ^ 30

/-- `EncodeHandle`. -/
def encode (index linearId : ℕ) : Handle :=
  BitVec.ofNat 32 (index % 2 ^ 15 + linearId % 2 ^ 15 * 2 ^ 15)

/-- `Svc::IsPseudoHandle`: the handles of the current process and thread. -/
def isPseudoHandle (h : Handle) : Bool := h == 0xFFFF8001 || h == 0xFFFF8000

end Handle

/-- `EntryInfo`, a union of the linear id and of the next free index. -/
abbrev EntryInfo := BitVec 16

/-- `EntryInfo::GetLinearId`. -/
def EntryInfo.getLinearId (e : EntryInfo) : ℕ := e.toNat

/-- `EntryInfo::GetNextFreeIndex`. -/
def EntryInfo.getNextFreeIndex (e : EntryInfo) : ℤ := e.toInt

/-- `class KHandleTable`. -/
structure KHandleTable (α : Type) where
  entryInfos : ℕ → EntryInfo := fun _ => 0
  objects : ℕ → Option α := fun _ => none
  freeHeadIndex : ℤ := 0
  tableSize : ℕ := 0
  maxCount : ℕ := 0
  nextLinearId : ℕ := 0
  count : ℕ := 0

namespace KHandleTable

variable {α : Type}

/-- `MaxTableSize`. -/
def maxTableSize : ℕ := 1024

/-- `MinLinearId`. -/
def minLinearId : ℕ := 1

/-- `MaxLinearId`. -/
def maxLinearId : ℕ := 0x7FFF

/-- One round of the loop of `Initialize`. -/
def initializeEntry (t : KHandleTable α) (i : ℕ) : KHandleTable α :=
  { t with
    objects := Function.update t.objects i none
    entryInfos := Function.update t.entryInfos i (BitVec.ofInt 16 (i - 1))
    freeHeadIndex := i }

/-- `Initialize`, `none` for `ResultOutOfMemory`. -/
def initialized (t : KHandleTable α) (size : ℤ) : Option (KHandleTable α) :=
  if size ≤ maxTableSize then
    let n := if size ≤ 0 then maxTableSize else size.toNat
    some ((List.range n).foldl initializeEntry { t with
      maxCount := 0
      tableSize := n
      nextLinearId := minLinearId
      count := 0
      freeHeadIndex := -1 })
  else none

/-- `AllocateEntry`: it reads outside the entries when there is no free one. -/
def allocateEntry (t : KHandleTable α) : Exec (ℕ × KHandleTable α) := do
  Exec.assert (t.count < t.tableSize)
  if 0 ≤ t.freeHeadIndex ∧ t.freeHeadIndex < maxTableSize then
    let index := t.freeHeadIndex.toNat
    return (index, { t with
      freeHeadIndex := (t.entryInfos index).getNextFreeIndex
      count := t.count + 1
      maxCount := max t.maxCount (t.count + 1) })
  else .fault

/-- `FreeEntry`: the entry is the first of the free list. -/
def freeEntry (t : KHandleTable α) (index : ℕ) : Exec (KHandleTable α) := do
  Exec.assert (0 < t.count)
  return { t with
    objects := Function.update t.objects index none
    entryInfos := Function.update t.entryInfos index (BitVec.ofInt 16 t.freeHeadIndex)
    freeHeadIndex := index
    count := t.count - 1 }

/-- `AllocateLinearId`. -/
def allocateLinearId (t : KHandleTable α) : ℕ × KHandleTable α :=
  (t.nextLinearId, { t with
    nextLinearId := if t.nextLinearId + 1 > maxLinearId then minLinearId else t.nextLinearId + 1 })

/-- `IsValidHandle`. -/
def isValidHandle (t : KHandleTable α) (h : Handle) : Exec Bool := do
  Exec.assert (h.reserved = 0)
  return h ≠ 0 ∧ h.linearId ≠ 0 ∧ h.index < t.tableSize ∧ (t.objects h.index).isSome ∧
    (t.entryInfos h.index).getLinearId = h.linearId

/-- `GetObjectImpl`, what `GetObjectWithoutPseudoHandle` looks up. -/
def getObjectImpl (t : KHandleTable α) (h : Handle) : Exec (Option α) := do
  if h.reserved ≠ 0 then return none
  else
    let valid ← t.isValidHandle h
    return if valid then t.objects h.index else none

/-- `Remove`: whether there was an object to remove. -/
def remove (t : KHandleTable α) (h : Handle) : Exec (Bool × KHandleTable α) := do
  if h.isPseudoHandle then return (false, t)
  else if h.reserved ≠ 0 then return (false, t)
  else
    let valid ← t.isValidHandle h
    if valid then do
      let t ← t.freeEntry h.index
      return (true, t)
    else return (false, t)

/-- `Add`: the handle, or `none` for `ResultOutOfHandles`. -/
def add (t : KHandleTable α) (obj : α) : Exec (Option Handle × KHandleTable α) := do
  if t.count < t.tableSize then
    let (linearId, t) := t.allocateLinearId
    let (index, t) ← t.allocateEntry
    return (some (Handle.encode index linearId), { t with
      entryInfos := Function.update t.entryInfos index (BitVec.ofNat 16 linearId)
      objects := Function.update t.objects index (some obj) })
  else return (none, t)

/-- `Reserve`: the handle, or `none` for `ResultOutOfHandles`. -/
def reserve (t : KHandleTable α) : Exec (Option Handle × KHandleTable α) := do
  if t.count < t.tableSize then
    let (index, t) ← t.allocateEntry
    let (linearId, t) := t.allocateLinearId
    return (some (Handle.encode index linearId), t)
  else return (none, t)

/-- `Unreserve`. -/
def unreserve (t : KHandleTable α) (h : Handle) : Exec (KHandleTable α) := do
  Exec.assert (h.reserved = 0)
  Exec.assert (h.linearId ≠ 0)
  if h.index < t.tableSize then do
    Exec.assert ((t.objects h.index).isNone)
    t.freeEntry h.index
  else return t

/-- `Register`: the entry that was reserved for the handle gets the object. -/
def register (t : KHandleTable α) (h : Handle) (obj : α) : Exec (KHandleTable α) := do
  Exec.assert (h.reserved = 0)
  Exec.assert (h.linearId ≠ 0)
  if h.index < t.tableSize then do
    Exec.assert ((t.objects h.index).isNone)
    return { t with
      entryInfos := Function.update t.entryInfos h.index (BitVec.ofNat 16 h.linearId)
      objects := Function.update t.objects h.index (some obj) }
  else return t

end KHandleTable
end Kernel
end NXEmu
