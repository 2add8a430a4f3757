/-
# Memory blocks

`src/nxemu-os/core/hle/kernel/k_memory_block.h`.

A `KMemoryBlock` is a run of pages with one state, permission and attribute.
IPC locks and device shares are counted per block, and the flags of
`disableMergeAttribute` keep a block from being merged over its left or its
right edge.  Addresses and page counts are natural numbers: every sum formed
below is an address inside the space `[m_start_address, m_end_address)` or its
end, which is a `u64`.  Counters are `u16` and wrap around as in the source.
-/

import NXEmu.Lib.Exec

namespace NXEmu
namespace Kernel

/-- `PageSize`, 4 KiB. -/
abbrev PageSize : ℕ := 4096

/-- `KMemoryState`, a `u32` of flags. -/
abbrev KMemoryState := BitVec 32

/-- `KMemoryPermission`, a `u8` of flags. -/
abbrev KMemoryPermission := BitVec 8

/-- `KMemoryAttribute`, a `u8` of flags. -/
abbrev KMemoryAttribute := BitVec 8

/-- `KMemoryBlockDisableMergeAttribute`, a `u8` of flags. -/
abbrev KMemoryBlockDisableMergeAttribute := BitVec 8

namespace KMemoryState

/-- `KMemoryState::Free`. -/
def free : KMemoryState := 0

end KMemoryState

namespace KMemoryPermission

/-- `KMemoryPermission::None`. -/
def none : KMemoryPermission := 0

/-- `KMemoryPermission::UserRead`: the user and the kernel read bit. -/
def userRead : KMemoryPermission := 0x09

/-- `KMemoryPermission::UserExecute`. -/
def userExecute : KMemoryPermission := 0x04

/-- `KMemoryPermission::NotMapped`. -/
def notMapped : KMemoryPermission := 0x40

/-- `KMemoryPermission::IpcLockChangeMask`: `NotMapped | UserReadWrite`. -/
def ipcLockChangeMask : KMemoryPermission := 0x5B

end KMemoryPermission

namespace KMemoryAttribute

/-- `KMemoryAttribute::None`. -/
def none : KMemoryAttribute := 0

/-- `KMemoryAttribute::IpcLocked`. -/
def ipcLocked : KMemoryAttribute := 0x02

/-- `KMemoryAttribute::DeviceShared`. -/
def deviceShared : KMemoryAttribute := 0x04

/-- `IpcLocked | DeviceShared`, the bits `HasProperties` ignores and `Update` keeps. -/
def ignoreMask : KMemoryAttribute := ipcLocked ||| deviceShared

end KMemoryAttribute

namespace KMemoryBlockDisableMergeAttribute

/-- `KMemoryBlockDisableMergeAttribute::DeviceLeft`. -/
def deviceLeft : KMemoryBlockDisableMergeAttribute := 0x02

/-- `KMemoryBlockDisableMergeAttribute::IpcLeft`. -/
def ipcLeft : KMemoryBlockDisableMergeAttribute := 0x04

/-- `KMemoryBlockDisableMergeAttribute::DeviceRight`. -/
def deviceRight : KMemoryBlockDisableMergeAttribute := 0x10

/-- `AllLeft = Normal | DeviceLeft | IpcLeft | Locked`. -/
def allLeft : KMemoryBlockDisableMergeAttribute := 0x0F

/-- `AllRight = DeviceRight`. -/
def allRight : KMemoryBlockDisableMergeAttribute := 0x10

end KMemoryBlockDisableMergeAttribute

open KMemoryAttribute (ipcLocked deviceShared ignoreMask)
open KMemoryBlockDisableMergeAttribute (deviceLeft ipcLeft deviceRight allLeft allRight)

/-- `class KMemoryBlock`. -/
structure KMemoryBlock where
  deviceDisableMergeLeftCount : BitVec 16 := 0
  deviceDisableMergeRightCount : BitVec 16 := 0
  address : ℕ := 0
  numPages : ℕ := 0
  memoryState : KMemoryState := 0
  ipcLockCount : BitVec 16 := 0
  deviceUseCount : BitVec 16 := 0
  ipcDisableMergeCount : BitVec 16 := 0
  permission : KMemoryPermission := KMemoryPermission.none
  originalPermission : KMemoryPermission := KMemoryPermission.none
  attr : KMemoryAttribute := KMemoryAttribute.none
  disableMergeAttribute : KMemoryBlockDisableMergeAttribute := 0
deriving DecidableEq

namespace KMemoryBlock

/-- `GetSize`. -/
def size (b : KMemoryBlock) : ℕ := b.numPages * PageSize

/-- `GetEndAddress`. -/
def endAddress (b : KMemoryBlock) : ℕ := b.address + b.size

/-- `GetLastAddress`. -/
def lastAddress (b : KMemoryBlock) : ℕ := b.endAddress - 1

theorem endAddress_eq (b : KMemoryBlock) : b.endAddress = b.address + b.numPages * 4096 := rfl

theorem size_eq (b : KMemoryBlock) : b.size = b.numPages * 4096 := rfl

/-- `Compare(KMemoryBlock(addr, 1, ..), rhs)`: the order of the tree, with a key of
one address on the left. -/
def compare (addr : ℕ) (rhs : KMemoryBlock) : Ordering :=
  if addr < rhs.address then .lt else if addr ≤ rhs.lastAddress then .eq else .gt

/-- The block `Initialize` sets up. -/
def initialized (addr np : ℕ) (ms : KMemoryState) (p : KMemoryPermission)
    (attr : KMemoryAttribute) : KMemoryBlock :=
  { address := addr, numPages := np, memoryState := ms, permission := p, attr := attr }

/-- `HasProperties`: equality up to `IpcLocked` and `DeviceShared`. -/
def hasProperties (b : KMemoryBlock) (s : KMemoryState) (p : KMemoryPermission)
    (a : KMemoryAttribute) : Bool :=
  b.memoryState == s && b.permission == p && (b.attr ||| ignoreMask) == (a ||| ignoreMask)

/-- `HasSameProperties`. -/
def hasSameProperties (b rhs : KMemoryBlock) : Bool :=
  b.memoryState == rhs.memoryState && b.permission == rhs.permission &&
    b.originalPermission == rhs.originalPermission && b.attr == rhs.attr &&
    b.ipcLockCount == rhs.ipcLockCount && b.deviceUseCount == rhs.deviceUseCount

/-- `CanMergeWith`. -/
def canMergeWith (b rhs : KMemoryBlock) : Bool :=
  b.hasSameProperties rhs && (b.disableMergeAttribute &&& allRight) == 0 &&
    (rhs.disableMergeAttribute &&& allLeft) == 0

/-- `Contains`, with the end included as in the source. -/
def contains (b : KMemoryBlock) (addr : ℕ) : Prop := b.address ≤ addr ∧ addr ≤ b.endAddress

instance (b : KMemoryBlock) (addr : ℕ) : Decidable (b.contains addr) :=
  inferInstanceAs (Decidable (_ ∧ _))

/-- The block `Add` leaves: `b` extended over `added`. -/
def merged (b added : KMemoryBlock) : KMemoryBlock :=
  { b with
    numPages := b.numPages + added.numPages
    disableMergeAttribute := b.disableMergeAttribute ||| added.disableMergeAttribute
    deviceDisableMergeRightCount := added.deviceDisableMergeRightCount }

/-- `Add`. -/
def add (b added : KMemoryBlock) : Exec KMemoryBlock := do
  Exec.assert (0 < added.numPages)
  Exec.assert (b.address + added.size - 1 < b.endAddress + added.size - 1)
  return b.merged added

/-- `Update`: the state, permission and attributes of the block, of which the ignored ones stay. -/
def update (b : KMemoryBlock) (s : KMemoryState) (p : KMemoryPermission) (a : KMemoryAttribute)
    (setDisableMergeAttr : Bool) (setMask clearMask : BitVec 8) : Exec KMemoryBlock := do
  Exec.assert (b.originalPermission = KMemoryPermission.none)
  Exec.assert (b.attr &&& ipcLocked = KMemoryAttribute.none)
  let b := { b with memoryState := s, permission := p, attr := a ||| (b.attr &&& ignoreMask) }
  let b := if setDisableMergeAttr ∧ setMask ≠ 0 then
    { b with disableMergeAttribute := b.disableMergeAttribute ||| setMask } else b
  let b := if clearMask ≠ 0 then
    { b with disableMergeAttribute := b.disableMergeAttribute &&& ~~~clearMask } else b
  return b

/-- `UpdateAttribute`. -/
def updateAttribute (b : KMemoryBlock) (mask attr : KMemoryAttribute) : Exec KMemoryBlock := do
  Exec.assert (mask &&& ipcLocked = KMemoryAttribute.none)
  Exec.assert (mask &&& deviceShared = KMemoryAttribute.none)
  return { b with attr := (b.attr &&& ~~~mask) ||| attr }

/-- The block `Split` fills in for the part of `b` below `addr`: it keeps the left
edge's counts and flags. -/
def splitLeft (b : KMemoryBlock) (addr : ℕ) : KMemoryBlock :=
  { b with
    numPages := (addr - b.address) / PageSize
    disableMergeAttribute := b.disableMergeAttribute &&& allLeft
    deviceDisableMergeRightCount := 0 }

/-- What `Split` leaves of `b` from `addr` on: the right edge's counts and flags. -/
def splitRight (b : KMemoryBlock) (addr : ℕ) : KMemoryBlock :=
  { b with
    address := addr
    numPages := b.numPages - (addr - b.address) / PageSize
    ipcDisableMergeCount := 0
    deviceDisableMergeLeftCount := 0
    disableMergeAttribute := b.disableMergeAttribute &&& allRight }

/-- `Split`: the new block, and what is left of `b`. -/
def split (b : KMemoryBlock) (addr : ℕ) : Exec (KMemoryBlock × KMemoryBlock) := do
  Exec.assert (b.address < addr)
  Exec.assert (b.contains addr)
  Exec.assert (addr % PageSize = 0)
  return (b.splitLeft addr, b.splitRight addr)

/-! ### Lock functions -/

/-- `UpdateDeviceDisableMergeStateForShareLeft`. -/
def updateDeviceDisableMergeStateForShareLeft (b : KMemoryBlock) (left : Bool) :
    Exec KMemoryBlock := do
  if left then
    let b := { b with
      disableMergeAttribute := b.disableMergeAttribute ||| deviceLeft
      deviceDisableMergeLeftCount := b.deviceDisableMergeLeftCount + 1 }
    Exec.assert (0 < b.deviceDisableMergeLeftCount)
    return b
  else return b

/-- `UpdateDeviceDisableMergeStateForShareRight`. -/
def updateDeviceDisableMergeStateForShareRight (b : KMemoryBlock) (right : Bool) :
    Exec KMemoryBlock := do
  if right then
    let b := { b with
      disableMergeAttribute := b.disableMergeAttribute ||| deviceRight
      deviceDisableMergeRightCount := b.deviceDisableMergeRightCount + 1 }
    Exec.assert (0 < b.deviceDisableMergeRightCount)
    return b
  else return b

/-- `UpdateDeviceDisableMergeStateForShare`. -/
def updateDeviceDisableMergeStateForShare (b : KMemoryBlock) (left right : Bool) :
    Exec KMemoryBlock := do
  let b ← b.updateDeviceDisableMergeStateForShareLeft left
  b.updateDeviceDisableMergeStateForShareRight right

/-- `ShareToDevice`: one more use by a device, which keeps the block from being merged. -/
def shareToDevice (b : KMemoryBlock) (left right : Bool) : Exec KMemoryBlock := do
  Exec.assert (b.attr &&& deviceShared = deviceShared ∨ b.deviceUseCount = 0)
  let b := { b with deviceUseCount := b.deviceUseCount + 1 }
  Exec.assert (0 < b.deviceUseCount)
  let b := { b with attr := b.attr ||| deviceShared }
  b.updateDeviceDisableMergeStateForShare left right

/-- `UpdateDeviceDisableMergeStateForUnshareLeft`: a left edge that holds no count
returns early. -/
def updateDeviceDisableMergeStateForUnshareLeft (b : KMemoryBlock) (left : Bool) :
    Exec KMemoryBlock := do
  if left ∧ b.deviceDisableMergeLeftCount = 0 then return b
  else
    let count := if left then b.deviceDisableMergeLeftCount - 1 else b.deviceDisableMergeLeftCount
    let count := if count ≤ b.deviceUseCount then count else b.deviceUseCount
    let b := { b with deviceDisableMergeLeftCount := count }
    return if count = 0 then
      { b with disableMergeAttribute := b.disableMergeAttribute &&& ~~~deviceLeft } else b

/-- `UpdateDeviceDisableMergeStateForUnshareRight`. -/
def updateDeviceDisableMergeStateForUnshareRight (b : KMemoryBlock) (right : Bool) :
    Exec KMemoryBlock := do
  if right then
    let old := b.deviceDisableMergeRightCount
    let b := { b with deviceDisableMergeRightCount := old - 1 }
    Exec.assert (0 < old)
    return if old = 1 then
      { b with disableMergeAttribute := b.disableMergeAttribute &&& ~~~deviceRight } else b
  else return b

/-- `UpdateDeviceDisableMergeStateForUnshare`. -/
def updateDeviceDisableMergeStateForUnshare (b : KMemoryBlock) (left right : Bool) :
    Exec KMemoryBlock := do
  let b ← b.updateDeviceDisableMergeStateForUnshareLeft left
  b.updateDeviceDisableMergeStateForUnshareRight right

/-- The part `UnshareToDevice` and `UnshareToDeviceRight` share. -/
def dropDeviceUse (b : KMemoryBlock) : Exec KMemoryBlock := do
  Exec.assert (b.attr &&& deviceShared = deviceShared)
  let old := b.deviceUseCount
  let b := { b with deviceUseCount := old - 1 }
  Exec.assert (0 < old)
  return if old = 1 then { b with attr := b.attr &&& ~~~deviceShared } else b

/-- `UnshareToDevice`. -/
def unshareToDevice (b : KMemoryBlock) (left right : Bool) : Exec KMemoryBlock := do
  let b ← b.dropDeviceUse
  b.updateDeviceDisableMergeStateForUnshare left right

/-- `UnshareToDeviceRight`. -/
def unshareToDeviceRight (b : KMemoryBlock) (right : Bool) : Exec KMemoryBlock := do
  let b ← b.dropDeviceUse
  b.updateDeviceDisableMergeStateForUnshareRight right

/-- The permission of a page first locked for IPC with `newPerm`. -/
def ipcPermission (perm newPerm : KMemoryPermission) : KMemoryPermission :=
  (newPerm &&& KMemoryPermission.ipcLockChangeMask) |||
    (perm &&& ~~~KMemoryPermission.ipcLockChangeMask)

/-- What `LockForIpc` asserts of the permission of a block on its first lock: the new
permission takes nothing that was not there, and from executable pages only reads. -/
def ipcPermissionAllowed (perm newPerm : KMemoryPermission) : Prop :=
  perm ||| newPerm ||| KMemoryPermission.notMapped = perm ||| KMemoryPermission.notMapped ∧
    (perm &&& KMemoryPermission.userExecute ≠ KMemoryPermission.userExecute ∨
      newPerm = KMemoryPermission.userRead)

instance (perm newPerm : KMemoryPermission) : Decidable (ipcPermissionAllowed perm newPerm) :=
  inferInstanceAs (Decidable (_ ∧ _))

/-- `LockForIpc`: one more lock; the first one keeps the permission of the block and sets the new one. -/
def lockForIpc (b : KMemoryBlock) (newPerm : KMemoryPermission) (left : Bool) :
    Exec KMemoryBlock := do
  Exec.assert (b.attr &&& ipcLocked = ipcLocked ∨ b.ipcLockCount = 0)
  let newLockCount := b.ipcLockCount + 1
  let b := { b with ipcLockCount := newLockCount }
  Exec.assert (0 < newLockCount)
  let b ← if newLockCount = 1 then do
      Exec.assert (b.originalPermission = KMemoryPermission.none)
      Exec.assert (ipcPermissionAllowed b.permission newPerm)
      pure { b with
        originalPermission := b.permission
        permission := ipcPermission b.permission newPerm }
    else pure b
  let b := { b with attr := b.attr ||| ipcLocked }
  if left then
    let b := { b with
      disableMergeAttribute := b.disableMergeAttribute ||| ipcLeft
      ipcDisableMergeCount := b.ipcDisableMergeCount + 1 }
    Exec.assert (0 < b.ipcDisableMergeCount)
    return b
  else return b

/-- `UnlockForIpc`: one lock less; the last one gives the block its permission back. -/
def unlockForIpc (b : KMemoryBlock) (left : Bool) : Exec KMemoryBlock := do
  Exec.assert (b.attr &&& ipcLocked = ipcLocked)
  let oldLockCount := b.ipcLockCount
  let b := { b with ipcLockCount := oldLockCount - 1 }
  Exec.assert (0 < oldLockCount)
  let b ← if oldLockCount = 1 then do
      Exec.assert (b.originalPermission ≠ KMemoryPermission.none)
      pure { b with
        permission := b.originalPermission
        originalPermission := KMemoryPermission.none
        attr := b.attr &&& ~~~ipcLocked }
    else pure b
  if left then
    let old := b.ipcDisableMergeCount
    let b := { b with ipcDisableMergeCount := old - 1 }
    Exec.assert (0 < old)
    return if old = 1 then
      { b with disableMergeAttribute := b.disableMergeAttribute &&& ~~~ipcLeft } else b
  else return b

end KMemoryBlock

/-- `MemoryBlockLockFunction`: the member functions of `KMemoryBlock` of that type. -/
inductive MemoryBlockLockFunction where
  | updateDeviceDisableMergeStateForShareLeft
  | updateDeviceDisableMergeStateForShareRight
  | updateDeviceDisableMergeStateForShare
  | shareToDevice
  | updateDeviceDisableMergeStateForUnshareLeft
  | updateDeviceDisableMergeStateForUnshareRight
  | updateDeviceDisableMergeStateForUnshare
  | unshareToDevice
  | unshareToDeviceRight
  | lockForIpc
  | unlockForIpc

/-- `(block->*lock_func)(new_perm, left, right)`. -/
def MemoryBlockLockFunction.call (f : MemoryBlockLockFunction) (b : KMemoryBlock)
    (newPerm : KMemoryPermission) (left right : Bool) : Exec KMemoryBlock :=
  match f with
  | .updateDeviceDisableMergeStateForShareLeft => b.updateDeviceDisableMergeStateForShareLeft left
  | .updateDeviceDisableMergeStateForShareRight =>
    b.updateDeviceDisableMergeStateForShareRight right
  | .updateDeviceDisableMergeStateForShare => b.updateDeviceDisableMergeStateForShare left right
  | .shareToDevice => b.shareToDevice left right
  | .updateDeviceDisableMergeStateForUnshareLeft =>
    b.updateDeviceDisableMergeStateForUnshareLeft left
  | .updateDeviceDisableMergeStateForUnshareRight =>
    b.updateDeviceDisableMergeStateForUnshareRight right
  | .updateDeviceDisableMergeStateForUnshare => b.updateDeviceDisableMergeStateForUnshare left right
  | .unshareToDevice => b.unshareToDevice left right
  | .unshareToDeviceRight => b.unshareToDeviceRight right
  | .lockForIpc => b.lockForIpc newPerm left
  | .unlockForIpc => b.unlockForIpc left

end Kernel
end NXEmu
