/-
# Splitting, merging and locking one block

`src/nxemu-os/core/hle/kernel/k_memory_block.h`.

What `Split`, `Add` and the lock functions do to the two things the tree of
blocks depends on: the run of pages a block covers and what each of these pages
is told about itself (`PageInfo`), and the flags that decide whether the block
merges with its neighbours.  A split keeps the left edge's flags on the left
part and the right edge's on the right part, so a neighbour of `b` merges with
the part of `b` next to it iff it merges with `b` (`canMergeWith_splitLeft`,
`splitRight_canMergeWith`).  A merge of `a` and `b` merges to the left as `a`
does and to the right as `b` does (`canMergeWith_merged`,
`merged_canMergeWith`).
-/

import NXEmu.Kernel.MemoryBlock
import Mathlib.Tactic

namespace NXEmu
namespace Kernel

open KMemoryAttribute (ipcLocked deviceShared ignoreMask)
open KMemoryBlockDisableMergeAttribute (deviceLeft ipcLeft deviceRight allLeft allRight)

/-- What a block tells about each of its pages. -/
@[ext]
structure PageInfo where
  memoryState : KMemoryState
  permission : KMemoryPermission
  originalPermission : KMemoryPermission
  attr : KMemoryAttribute
  ipcLockCount : BitVec 16
  deviceUseCount : BitVec 16
deriving DecidableEq

namespace KMemoryBlock

variable {a b c : KMemoryBlock} {addr : ℕ}

/-- The page information of the pages of `b`. -/
def info (b : KMemoryBlock) : PageInfo where
  memoryState := b.memoryState
  permission := b.permission
  originalPermission := b.originalPermission
  attr := b.attr
  ipcLockCount := b.ipcLockCount
  deviceUseCount := b.deviceUseCount

theorem hasSameProperties_iff : a.hasSameProperties b = true ↔ a.info = b.info := by
  rw [PageInfo.ext_iff]
  simp only [hasSameProperties, Bool.and_eq_true, beq_iff_eq, and_assoc]
  rfl

/-- Two neighbours merge iff their pages agree and neither edge between them is kept. -/
theorem canMergeWith_iff : a.canMergeWith b = true ↔ a.info = b.info ∧
    a.disableMergeAttribute &&& allRight = 0 ∧ b.disableMergeAttribute &&& allLeft = 0 := by
  simp only [canMergeWith, Bool.and_eq_true, beq_iff_eq, hasSameProperties_iff, and_assoc]

/-- The tree's order finds `addr` in the block that covers it. -/
theorem compare_eq_iff (hb : 0 < b.numPages) :
    compare addr b = .eq ↔ b.address ≤ addr ∧ addr < b.endAddress := by
  have h := b.endAddress_eq
  simp only [compare, lastAddress]
  by_cases h₁ : addr < b.address <;> by_cases h₂ : addr ≤ b.endAddress - 1 <;> simp [h₁, h₂] <;> omega

@[simp] theorem merged_info : (a.merged b).info = a.info := rfl

@[simp] theorem merged_address : (a.merged b).address = a.address := rfl

@[simp] theorem merged_numPages : (a.merged b).numPages = a.numPages + b.numPages := rfl

theorem merged_endAddress (h : a.endAddress = b.address) :
    (a.merged b).endAddress = b.endAddress := by
  have h₁ := (a.merged b).endAddress_eq
  have h₂ := a.endAddress_eq
  have h₃ := b.endAddress_eq
  rw [merged_address, merged_numPages] at h₁
  omega

@[simp] theorem splitLeft_info : (b.splitLeft addr).info = b.info := rfl

@[simp] theorem splitRight_info : (b.splitRight addr).info = b.info := rfl

@[simp] theorem splitLeft_address : (b.splitLeft addr).address = b.address := rfl

@[simp] theorem splitRight_address : (b.splitRight addr).address = addr := rfl

theorem splitLeft_numPages : (b.splitLeft addr).numPages = (addr - b.address) / 4096 := rfl

theorem splitRight_numPages :
    (b.splitRight addr).numPages = b.numPages - (addr - b.address) / 4096 := rfl

/-- Two flags cannot both survive a mask when one of them does not. -/
theorem or_and_eq_zero {x y m : BitVec 8} (h : x &&& m = 0) : (x ||| y) &&& m = y &&& m := by
  rw [BitVec.and_or_distrib_right, h]
  exact BitVec.zero_or

theorem or_and_eq_zero' {x y m : BitVec 8} (h : y &&& m = 0) : (x ||| y) &&& m = x &&& m := by
  rw [BitVec.or_comm, or_and_eq_zero h]

/-- **A merged block merges to the right as its right part did.** -/
theorem merged_canMergeWith (h : a.canMergeWith b = true) :
    (a.merged b).canMergeWith c = b.canMergeWith c := by
  rw [Bool.eq_iff_iff, canMergeWith_iff, canMergeWith_iff, merged_info, (canMergeWith_iff.1 h).1]
  show _ ∧ (a.disableMergeAttribute ||| b.disableMergeAttribute) &&& allRight = 0 ∧ _ ↔ _
  rw [or_and_eq_zero (canMergeWith_iff.1 h).2.1]

/-- **A merged block merges to the left as its left part did.** -/
theorem canMergeWith_merged (h : b.canMergeWith c = true) :
    a.canMergeWith (b.merged c) = a.canMergeWith b := by
  rw [Bool.eq_iff_iff, canMergeWith_iff, canMergeWith_iff, merged_info]
  show _ ∧ _ ∧ (b.disableMergeAttribute ||| c.disableMergeAttribute) &&& allLeft = 0 ↔ _
  rw [or_and_eq_zero' (canMergeWith_iff.1 h).2.2]

/-- **The left part of a split merges to the left as the whole did.** -/
theorem canMergeWith_splitLeft : a.canMergeWith (b.splitLeft addr) = a.canMergeWith b := by
  rw [Bool.eq_iff_iff, canMergeWith_iff, canMergeWith_iff, splitLeft_info]
  show _ ∧ _ ∧ (b.disableMergeAttribute &&& allLeft) &&& allLeft = 0 ↔ _
  rw [BitVec.and_assoc, BitVec.and_self]

/-- **The right part of a split merges to the right as the whole did.** -/
theorem splitRight_canMergeWith : (b.splitRight addr).canMergeWith c = b.canMergeWith c := by
  rw [Bool.eq_iff_iff, canMergeWith_iff, canMergeWith_iff, splitRight_info]
  show _ ∧ (b.disableMergeAttribute &&& allRight) &&& allRight = 0 ∧ _ ↔ _
  rw [BitVec.and_assoc, BitVec.and_self]

end KMemoryBlock

/-- What a lock function does to each page of the block it is called on. -/
def MemoryBlockLockFunction.effect (f : MemoryBlockLockFunction) (newPerm : KMemoryPermission)
    (i : PageInfo) : PageInfo :=
  match f with
  | .shareToDevice =>
    { i with deviceUseCount := i.deviceUseCount + 1, attr := i.attr ||| deviceShared }
  | .unshareToDevice | .unshareToDeviceRight =>
    { i with
      deviceUseCount := i.deviceUseCount - 1
      attr := if i.deviceUseCount = 1 then i.attr &&& ~~~deviceShared else i.attr }
  | .lockForIpc =>
    { i with
      ipcLockCount := i.ipcLockCount + 1
      originalPermission :=
        if i.ipcLockCount + 1 = 1 then i.permission else i.originalPermission
      permission := if i.ipcLockCount + 1 = 1 then
        KMemoryBlock.ipcPermission i.permission newPerm else i.permission
      attr := i.attr ||| ipcLocked }
  | .unlockForIpc =>
    { i with
      ipcLockCount := i.ipcLockCount - 1
      originalPermission :=
        if i.ipcLockCount = 1 then KMemoryPermission.none else i.originalPermission
      permission := if i.ipcLockCount = 1 then i.originalPermission else i.permission
      attr := if i.ipcLockCount = 1 then i.attr &&& ~~~ipcLocked else i.attr }
  | _ => i

namespace KMemoryBlock

variable {b : KMemoryBlock}

/-! ### What the lock functions change -/

open Exec

/-- A routine that returns, leaves the run of pages of `b` alone, and gives it the information `i`. -/
def Informs (b : KMemoryBlock) (i : PageInfo) (x : Exec KMemoryBlock) : Prop :=
  wp x fun b' _ => b'.address = b.address ∧ b'.numPages = b.numPages ∧ b'.info = i

theorem Informs.bind {i : PageInfo} {x : Exec KMemoryBlock} {f : KMemoryBlock → Exec KMemoryBlock}
    (h : Informs b i x) (hf : ∀ b₁, Informs b₁ b₁.info (f b₁)) : Informs b i (x >>= f) := by
  refine wp_bind.2 (wp_mono h ?_)
  rintro b₁ - ⟨h₁, h₂, h₃⟩
  have h := hf b₁
  rw [Informs, h₁, h₂, h₃] at h
  exact h

theorem informs_updateShareLeft (left : Bool) :
    Informs b b.info (b.updateDeviceDisableMergeStateForShareLeft left) := by
  unfold Informs updateDeviceDisableMergeStateForShareLeft
  split <;> simp [info]

theorem informs_updateShareRight (right : Bool) :
    Informs b b.info (b.updateDeviceDisableMergeStateForShareRight right) := by
  unfold Informs updateDeviceDisableMergeStateForShareRight
  split <;> simp [info]

theorem informs_updateShare (left right : Bool) :
    Informs b b.info (b.updateDeviceDisableMergeStateForShare left right) :=
  (informs_updateShareLeft left).bind fun _ => informs_updateShareRight right

theorem informs_updateUnshareLeft (left : Bool) :
    Informs b b.info (b.updateDeviceDisableMergeStateForUnshareLeft left) := by
  unfold Informs updateDeviceDisableMergeStateForUnshareLeft
  split
  · simp
  · simp only [pure_eq, wp_ret]
    split_ifs <;> exact ⟨rfl, rfl, rfl⟩

theorem informs_updateUnshareRight (right : Bool) :
    Informs b b.info (b.updateDeviceDisableMergeStateForUnshareRight right) := by
  unfold Informs updateDeviceDisableMergeStateForUnshareRight
  split
  · simp only [pure_eq, wp_bind, wp_assert, wp_ret]
    split_ifs <;> exact ⟨rfl, rfl, rfl⟩
  · simp

theorem informs_updateUnshare (left right : Bool) :
    Informs b b.info (b.updateDeviceDisableMergeStateForUnshare left right) :=
  (informs_updateUnshareLeft left).bind fun _ => informs_updateUnshareRight right

theorem informs_shareToDevice (left right : Bool) (p : KMemoryPermission) :
    Informs b (MemoryBlockLockFunction.shareToDevice.effect p b.info) (b.shareToDevice left right) := by
  simp only [Informs, shareToDevice, wp_bind, wp_assert]
  exact informs_updateShare left right

theorem informs_dropDeviceUse (p : KMemoryPermission) :
    Informs b (MemoryBlockLockFunction.unshareToDevice.effect p b.info) b.dropDeviceUse := by
  simp only [Informs, dropDeviceUse, pure_eq, wp_bind, wp_assert, wp_ret]
  split
  case isTrue h => simp [info, MemoryBlockLockFunction.effect, h]
  case isFalse h =>
    refine ⟨rfl, rfl, ?_⟩
    rw [MemoryBlockLockFunction.effect, show b.info.deviceUseCount = b.deviceUseCount from rfl, if_neg h]
    rfl

/-- `LockForIpc` returns, and all its assertions hold if the block agrees with its own
lock count, no counter overflows, and a first lock is allowed. -/
theorem wp_lockForIpc (p : KMemoryPermission) (left : Bool) :
    wp (b.lockForIpc p left) fun b' held => (b'.address = b.address ∧ b'.numPages = b.numPages ∧
      b'.info = MemoryBlockLockFunction.lockForIpc.effect p b.info) ∧
      b'.ipcDisableMergeCount = (if left then b.ipcDisableMergeCount + 1 else b.ipcDisableMergeCount) ∧
      b'.disableMergeAttribute = (if left then b.disableMergeAttribute ||| ipcLeft else b.disableMergeAttribute) ∧
      ((b.attr &&& ipcLocked = ipcLocked ∨ b.ipcLockCount = 0) → 0 < b.ipcLockCount + 1 →
        (b.ipcLockCount = 0 → b.originalPermission = KMemoryPermission.none ∧ ipcPermissionAllowed b.permission p) →
        (left → 0 < b.ipcDisableMergeCount + 1) → held = true) := by
  by_cases h : b.ipcLockCount = 0#16 <;> cases left <;>
    simp +contextual [lockForIpc, h, info, MemoryBlockLockFunction.effect]

/-- `UnlockForIpc` returns, and all its assertions hold if the block is locked, kept
the permission of a page that had one, and counts a left edge it is to release. -/
theorem wp_unlockForIpc (p : KMemoryPermission) (left : Bool) :
    wp (b.unlockForIpc left) fun b' held => (b'.address = b.address ∧ b'.numPages = b.numPages ∧
      b'.info = MemoryBlockLockFunction.unlockForIpc.effect p b.info) ∧
      b'.ipcDisableMergeCount = (if left then b.ipcDisableMergeCount - 1 else b.ipcDisableMergeCount) ∧
      b'.disableMergeAttribute = (if left ∧ b.ipcDisableMergeCount = 1 then
        b.disableMergeAttribute &&& ~~~ipcLeft else b.disableMergeAttribute) ∧
      (b.attr &&& ipcLocked = ipcLocked → 0 < b.ipcLockCount →
        (b.ipcLockCount = 1 → b.originalPermission ≠ KMemoryPermission.none) →
        (left → 0 < b.ipcDisableMergeCount) → held = true) := by
  by_cases h : b.ipcLockCount = 1#16 <;> by_cases h' : b.ipcDisableMergeCount = 1#16 <;> cases left <;>
    simp +contextual [unlockForIpc, h, h', info, MemoryBlockLockFunction.effect]

/-- **A lock function returns**, leaves the run of pages alone, and changes the
information of these pages by its `effect`. -/
theorem wp_call (f : MemoryBlockLockFunction) (p : KMemoryPermission) (left right : Bool) :
    Informs b (f.effect p b.info) (f.call b p left right) := by
  cases f with
  | updateDeviceDisableMergeStateForShareLeft => exact informs_updateShareLeft left
  | updateDeviceDisableMergeStateForShareRight => exact informs_updateShareRight right
  | updateDeviceDisableMergeStateForShare => exact informs_updateShare left right
  | shareToDevice => exact informs_shareToDevice left right p
  | updateDeviceDisableMergeStateForUnshareLeft => exact informs_updateUnshareLeft left
  | updateDeviceDisableMergeStateForUnshareRight => exact informs_updateUnshareRight right
  | updateDeviceDisableMergeStateForUnshare => exact informs_updateUnshare left right
  | unshareToDevice => exact (informs_dropDeviceUse p).bind fun _ => informs_updateUnshare left right
  | unshareToDeviceRight => exact (informs_dropDeviceUse p).bind fun _ => informs_updateUnshareRight right
  | lockForIpc => exact wp_mono (wp_lockForIpc p left) fun _ _ h => h.1
  | unlockForIpc => exact wp_mono (wp_unlockForIpc p left) fun _ _ h => h.1

end KMemoryBlock
end Kernel
end NXEmu
