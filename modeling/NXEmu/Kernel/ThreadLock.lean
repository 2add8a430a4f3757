/-
# Locks that threads wait for

`src/nxemu-os/core/hle/kernel/k_thread.h` and `k_thread.cpp`: the lock infos with
priority inheritance, `AddWaiterImpl`, `RemoveWaiterImpl` and `RestorePriority`.

A thread that waits for a lock is a waiter of a `LockWithPriorityInheritanceInfo`,
which the owner of the lock holds in a list and which is made for the first waiter of
a lock and freed after the last one.  An info is an index into `info` here.  The
trees are kept as the lists of their elements in order, in which a new one goes behind
those it does not compare less to.  A thread that waits for a condition variable hangs
in the tree of that (`tree`) by the same node.

The functions are run with the scheduler locked, which they assert; that and what the
scheduler is told of a new priority is left out.  A `KSlabAllocated` info is always
there to allocate: there is one for each thread, and no more infos with a waiter than
threads that wait.
-/

import NXEmu.Lib.Exec
import Mathlib.Data.Fintype.Card
import Mathlib.Data.List.Sort

namespace NXEmu
namespace Kernel

open Exec

/-- What a thread has to do with locks and condition variables. -/
structure KThread where
  basePriority : ℤ
  priority : ℤ
  addressKey : ℕ := 0
  addressKeyValue : BitVec 32 := 0
  isKernelAddressKey : Bool := false
  waitingLockInfo : Option ℕ := none
  heldLockInfoList : List ℕ := []
  numKernelWaiters : ℤ := 0
  condvarTree : Option ℕ := none
  condvarKey : ℕ := 0
  isPinned : Bool := false

/-- `class LockWithPriorityInheritanceInfo`. -/
structure LockInfo (ι : Type) where
  tree : List ι := []
  addressKey : ℕ := 0
  owner : Option ι := none
  waiterCount : ℤ := 0
  isKernelAddressKey : Bool := false

/-- The threads, the lock infos made so far, and the trees of the condition variables. -/
structure LockState (ι : Type) where
  thread : ι → KThread
  info : ℕ → LockInfo ι := fun _ => {}
  numInfos : ℕ := 0
  tree : ℕ → List ι := fun _ => []

namespace LockState

variable {ι : Type} [DecidableEq ι]

/-- Change a thread. -/
def modify (s : LockState ι) (t : ι) (f : KThread → KThread) : LockState ι :=
  { s with thread := Function.update s.thread t (f (s.thread t)) }

/-- Change a lock info. -/
def modifyInfo (s : LockState ι) (i : ℕ) (f : LockInfo ι → LockInfo ι) : LockState ι :=
  { s with info := Function.update s.info i (f (s.info i)) }

/-- Change a tree. -/
def setTree (s : LockState ι) (c : ℕ) (l : List ι) : LockState ι :=
  { s with tree := Function.update s.tree c l }

/-! ### Trees -/

/-- `LockWithPriorityInheritanceComparator`: `lhs` compares less to `rhs`. -/
def lockLess (s : LockState ι) (lhs rhs : ι) : Prop :=
  (s.thread lhs).priority < (s.thread rhs).priority

instance (s : LockState ι) : DecidableRel s.lockLess :=
  fun _ _ => inferInstanceAs (Decidable (_ < _))

/-- `ConditionVariableComparator`. -/
def condvarLess (s : LockState ι) (lhs rhs : ι) : Prop :=
  (s.thread lhs).condvarKey < (s.thread rhs).condvarKey ∨
    (s.thread lhs).condvarKey = (s.thread rhs).condvarKey ∧
      (s.thread lhs).priority < (s.thread rhs).priority

instance (s : LockState ι) : DecidableRel s.condvarLess :=
  fun _ _ => inferInstanceAs (Decidable (_ ∨ _))

/-- `tree.erase(tree.iterator_to(t))`. -/
def treeErase (l : List ι) (t : ι) : Exec (List ι) :=
  if t ∈ l then return l.erase t else .fault

/-! ### `LockWithPriorityInheritanceInfo` -/

/-- `Create`. -/
def createInfo (s : LockState ι) (addressKey : ℕ) (isKernelAddressKey : Bool) :
    ℕ × LockState ι :=
  (s.numInfos, { s with
    info := Function.update s.info s.numInfos
      { addressKey := addressKey, isKernelAddressKey := isKernelAddressKey }
    numInfos := s.numInfos + 1 })

/-- `LockWithPriorityInheritanceInfo::AddWaiter`. -/
def infoAddWaiter (s : LockState ι) (i : ℕ) (waiter : ι) : LockState ι :=
  (s.modifyInfo i fun l => { l with
    tree := l.tree.orderedInsert s.lockLess waiter, waiterCount := l.waiterCount + 1 }).modify
    waiter fun t => { t with waitingLockInfo := some i }

/-- `LockWithPriorityInheritanceInfo::RemoveWaiter`: whether no waiter is left. -/
def infoRemoveWaiter (s : LockState ι) (i : ℕ) (waiter : ι) : Exec (Bool × LockState ι) := do
  let tree ← treeErase (s.info i).tree waiter
  let s := s.modifyInfo i fun l => { l with tree := tree, waiterCount := l.waiterCount - 1 }
  let s := s.modify waiter fun t => { t with waitingLockInfo := none }
  return (decide ((s.info i).waiterCount = 0), s)

/-! ### `KThread` -/

/-- `AddHeldLock`. -/
def addHeldLock (s : LockState ι) (owner : ι) (i : ℕ) : LockState ι :=
  (s.modifyInfo i fun l => { l with owner := some owner }).modify owner fun t =>
    { t with heldLockInfoList := i :: t.heldLockInfoList }

/-- `FindHeldLock`. -/
def findHeldLock (s : LockState ι) (owner : ι) (addressKey : ℕ) (isKernelAddressKey : Bool) :
    Option ℕ :=
  (s.thread owner).heldLockInfoList.find? fun i =>
    (s.info i).addressKey = addressKey ∧ (s.info i).isKernelAddressKey = isKernelAddressKey

/-- `GetLockOwner`. -/
def getLockOwner (s : LockState ι) (t : ι) : Option ι :=
  (s.thread t).waitingLockInfo.bind fun i => (s.info i).owner

/-- `AddWaiterImpl`: the thread waits for a lock of the owner, which is created for the first waiter. -/
def addWaiterImpl (s : LockState ι) (owner thread : ι) : Exec (LockState ι) := do
  Exec.assert ((s.thread thread).condvarTree = none)
  let addressKey := (s.thread thread).addressKey
  let isKernelAddressKey := (s.thread thread).isKernelAddressKey
  -- Keep track of how many kernel waiters we have.
  let s ← (if isKernelAddressKey then do
      Exec.assert (0 ≤ (s.thread owner).numKernelWaiters)
      return s.modify owner fun t => { t with numKernelWaiters := t.numKernelWaiters + 1 }
    else pure s)
  -- Get the relevant lock info, a new one if there is none.
  let (i, s) := match s.findHeldLock owner addressKey isKernelAddressKey with
    | some i => (i, s)
    | none =>
      let (i, s) := s.createInfo addressKey isKernelAddressKey
      (i, s.addHeldLock owner i)
  return s.infoAddWaiter i thread

/-- `RemoveWaiterImpl`: the thread waits no more, and the owner loses a lock that has no waiters left. -/
def removeWaiterImpl (s : LockState ι) (owner thread : ι) : Exec (LockState ι) := do
  -- Keep track of how many kernel waiters we have.
  let s ← (if (s.thread thread).isKernelAddressKey then do
      Exec.assert (0 < (s.thread owner).numKernelWaiters)
      return s.modify owner fun t => { t with numKernelWaiters := t.numKernelWaiters - 1 }
    else pure s)
  match (s.thread thread).waitingLockInfo with
  | none => .fault
  | some i => do
    Exec.assert ((s.info i).owner = some owner)
    let (empty, s) ← s.infoRemoveWaiter i thread
    return if empty then
        s.modify owner fun t => { t with heldLockInfoList := t.heldLockInfoList.erase i }
      else s

/-- The priority `RestorePriority` computes: the least of the own one and of those of the
first waiters of the locks held. -/
def inheritedPriority (s : LockState ι) (t : ι) : Exec ℤ :=
  (s.thread t).heldLockInfoList.foldlM (fun priority i =>
    match (s.info i).tree with
    | [] => .fault
    | waiter :: _ => return min priority (s.thread waiter).priority) (s.thread t).basePriority

/-- The change of a priority in `RestorePriority`: a thread in the tree of a condition
variable is taken out and put in again. -/
def setPriority (s : LockState ι) (t : ι) (priority : ℤ) : Exec (LockState ι) :=
  match (s.thread t).condvarTree with
  | none => return s.modify t fun t => { t with priority := priority }
  | some c => do
    let tree ← treeErase (s.tree c) t
    let s := s.modify t fun t => { t with priority := priority }
    return s.setTree c (tree.orderedInsert s.condvarLess t)

/-- `RestorePriority`, walking up the owners; `fuel` bounds the number of rounds. -/
def restorePriority : ℕ → LockState ι → Option ι → Exec (LockState ι)
  | _, s, none => return s
  | 0, _, some _ => .fault
  | fuel + 1, s, some thread => do
    -- We want to inherit priority where possible.
    let newPriority ← s.inheritedPriority thread
    if newPriority = (s.thread thread).priority then return s
    else
      let lockOwner := s.getLockOwner thread
      -- Not a waiter while the priority changes, for the order of the tree.
      let s ← (match lockOwner with
        | some owner => s.removeWaiterImpl owner thread
        | none => pure s)
      let s ← s.setPriority thread newPriority
      let s ← (match lockOwner with
        | some owner => s.addWaiterImpl owner thread
        | none => pure s)
      -- Continue inheriting priority.
      restorePriority fuel s lockOwner

end LockState
end Kernel
end NXEmu
