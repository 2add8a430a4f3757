/-
# The priority queue of the scheduler

`src/nxemu-os/core/hle/kernel/k_priority_queue.h`, with the parameters of
`KSchedulerPriorityQueue`: four cores and the priorities 0 (highest) to 63
(lowest).

A core has a list of threads for each priority, once for the threads scheduled
on it and once for those suggested to it.  A list is linked through the
threads: each of them has one pair of links per core (`entries`), which the
scheduled and the suggested lists of the core share, and the ends of a list hang
on a root.  `ι` stands for the threads, and the fields the queue reads from a
thread are passed along as `KThreadFields`.
-/

import NXEmu.Lib.Exec
import NXEmu.Common.BitSet
import Mathlib.Data.Int.Notation

namespace NXEmu
namespace Kernel

open Common

/-- `KThread::QueueEntry`. -/
structure QueueEntry (ι : Type) where
  prev : Option ι := none
  next : Option ι := none

/-- What the queue asks of a thread: `GetAffinityMask`, `GetActiveCore`, `GetPriority` and
`IsDummyThread`. -/
structure KThreadFields where
  affinityMask : BitVec 64
  activeCore : ℤ
  priority : ℕ
  isDummyThread : Bool
deriving DecidableEq

/-- `m_scheduled_queue` and `m_suggested_queue`. -/
inductive QueueKind where
  | scheduled
  | suggested
deriving DecidableEq

/-- `class KPriorityQueue`: the roots of the lists by priority and core, the priorities
with a list that is not empty, and the links of the threads by core. -/
structure KPriorityQueue (ι : Type) where
  roots : QueueKind → ℕ → ℕ → QueueEntry ι := fun _ _ _ => {}
  availablePriorities : QueueKind → ℕ → BitSet 64 64 := fun _ _ => {}
  entries : ι → ℕ → QueueEntry ι := fun _ _ => {}

namespace KPriorityQueue

variable {ι : Type} [DecidableEq ι]

/-- `NumCores`. -/
abbrev numCores : ℕ := 4

/-- `LowestPriority`. -/
abbrev lowestPriority : ℕ := 63

/-- `IsValidCore`. -/
def isValidCore (core : ℕ) : Prop := core < numCores

instance (core : ℕ) : Decidable (isValidCore core) := inferInstanceAs (Decidable (_ < _))

/-- `IsValidPriority`. -/
def isValidPriority (priority : ℕ) : Prop := priority ≤ lowestPriority + 1

instance (p : ℕ) : Decidable (isValidPriority p) :=
  inferInstanceAs (Decidable (_ ≤ _))

/-! ### `KPerCoreQueue` -/

/-- The links of a node of the list for `p` and `c`: of a thread, or of the root. -/
def node (q : KPriorityQueue ι) (k : QueueKind) (p c : ℕ) : Option ι → QueueEntry ι
  | none => q.roots k p c
  | some m => q.entries m c

/-- Write the links of a node. -/
def setNode (q : KPriorityQueue ι) (k : QueueKind) (p c : ℕ) (x : Option ι)
    (e : QueueEntry ι) : KPriorityQueue ι :=
  match x with
  | none => { q with
      roots := fun k' p' c' => if k' = k ∧ p' = p ∧ c' = c then e else q.roots k' p' c' }
  | some m => { q with
      entries := fun m' c' => if m' = m ∧ c' = c then e else q.entries m' c' }

/-- `SetPrev`. -/
def setPrev (q : KPriorityQueue ι) (k : QueueKind) (p c : ℕ) (x v : Option ι) :
    KPriorityQueue ι :=
  q.setNode k p c x { q.node k p c x with prev := v }

/-- `SetNext`. -/
def setNext (q : KPriorityQueue ι) (k : QueueKind) (p c : ℕ) (x v : Option ι) :
    KPriorityQueue ι :=
  q.setNode k p c x { q.node k p c x with next := v }

/-- `KPerCoreQueue::GetFront`. -/
def perCoreGetFront (q : KPriorityQueue ι) (k : QueueKind) (p c : ℕ) : Option ι :=
  (q.roots k p c).next

/-- `KPerCoreQueue::PushBack`: whether the list was empty. -/
def perCorePushBack (q : KPriorityQueue ι) (k : QueueKind) (p c : ℕ) (m : ι) :
    Bool × KPriorityQueue ι :=
  let tail := (q.roots k p c).prev
  let q := q.setPrev k p c (some m) tail
  let q := q.setNext k p c (some m) none
  let q := q.setNext k p c tail (some m)
  let q := q.setPrev k p c none (some m)
  (tail.isNone, q)

/-- `KPerCoreQueue::PushFront`: whether the list was empty. -/
def perCorePushFront (q : KPriorityQueue ι) (k : QueueKind) (p c : ℕ) (m : ι) :
    Bool × KPriorityQueue ι :=
  let head := (q.roots k p c).next
  let q := q.setPrev k p c (some m) none
  let q := q.setNext k p c (some m) head
  let q := q.setPrev k p c head (some m)
  let q := q.setNext k p c none (some m)
  (head.isNone, q)

/-- `KPerCoreQueue::Remove`: whether the list is empty now. -/
def perCoreRemove (q : KPriorityQueue ι) (k : QueueKind) (p c : ℕ) (m : ι) :
    Bool × KPriorityQueue ι :=
  let prev := (q.entries m c).prev
  let next := (q.entries m c).next
  let q := q.setNext k p c prev next
  let q := q.setPrev k p c next prev
  ((q.perCoreGetFront k p c).isNone, q)

/-! ### `KPriorityQueueImpl` -/

/-- Write the available priorities of a core. -/
def setAvailable (q : KPriorityQueue ι) (k : QueueKind) (c : ℕ) (s : BitSet 64 64) :
    KPriorityQueue ι :=
  { q with
    availablePriorities := fun k' c' =>
      if k' = k ∧ c' = c then s else q.availablePriorities k' c' }

/-- What the operations on one list begin with: they assert that core and priority are
valid, ignore the idle priority, and index an array by the core. -/
def onList {α : Type} (priority core : ℕ) (ignored : α) (f : α) : Exec α := do
  Exec.assert (isValidCore core)
  Exec.assert (isValidPriority priority)
  if priority > lowestPriority then return ignored
  else if isValidCore core then return f else .fault

/-- `KPriorityQueueImpl::PushBack`: a thread becomes the last of its list. -/
def implPushBack (q : KPriorityQueue ι) (k : QueueKind) (priority core : ℕ) (m : ι) :
    Exec (KPriorityQueue ι) :=
  onList priority core q <|
    let (empty, q) := q.perCorePushBack k priority core m
    if empty then q.setAvailable k core ((q.availablePriorities k core).setBit priority) else q

/-- `KPriorityQueueImpl::PushFront`: a thread becomes the first of its list. -/
def implPushFront (q : KPriorityQueue ι) (k : QueueKind) (priority core : ℕ) (m : ι) :
    Exec (KPriorityQueue ι) :=
  onList priority core q <|
    let (empty, q) := q.perCorePushFront k priority core m
    if empty then q.setAvailable k core ((q.availablePriorities k core).setBit priority) else q

/-- `KPriorityQueueImpl::Remove`: a thread leaves its list. -/
def implRemove (q : KPriorityQueue ι) (k : QueueKind) (priority core : ℕ) (m : ι) :
    Exec (KPriorityQueue ι) :=
  onList priority core q <|
    let (empty, q) := q.perCoreRemove k priority core m
    if empty then q.setAvailable k core ((q.availablePriorities k core).clearBit priority) else q

/-- `KPriorityQueueImpl::GetFront` of a core. -/
def implGetFront (q : KPriorityQueue ι) (k : QueueKind) (core : ℕ) : Exec (Option ι) := do
  Exec.assert (isValidCore core)
  if isValidCore core then
    let priority := (q.availablePriorities k core).countLeadingZero
    return if priority ≤ lowestPriority then q.perCoreGetFront k priority core else none
  else .fault

/-- `KPriorityQueueImpl::GetNext`: the thread behind one in its list, or else the first of the next priority
in use. -/
def implGetNext (q : KPriorityQueue ι) (k : QueueKind) (core : ℕ) (m : ι) (t : KThreadFields) :
    Exec (Option ι) := do
  Exec.assert (isValidCore core)
  if isValidCore core then
    match (q.entries m core).next with
    | some next => return some next
    | none =>
      let priority := (q.availablePriorities k core).getNextSet t.priority
      return if priority ≤ lowestPriority then q.perCoreGetFront k priority core else none
  else .fault

/-- `KPriorityQueueImpl::MoveToFront`. -/
def implMoveToFront (q : KPriorityQueue ι) (k : QueueKind) (priority core : ℕ) (m : ι) :
    Exec (KPriorityQueue ι) :=
  onList priority core q ((q.perCoreRemove k priority core m).2.perCorePushFront k priority core m).2

/-- `KPriorityQueueImpl::MoveToBack`: the front of the list then. -/
def implMoveToBack (q : KPriorityQueue ι) (k : QueueKind) (priority core : ℕ) (m : ι) :
    Exec (Option ι × KPriorityQueue ι) :=
  onList priority core (none, q) <|
    let q := ((q.perCoreRemove k priority core m).2.perCorePushBack k priority core m).2
    (q.perCoreGetFront k priority core, q)

/-! ### `KPriorityQueue` -/

/-- `ClearAffinityBit`. -/
def clearAffinityBit (affinity : BitVec 64) (core : ℕ) : BitVec 64 :=
  affinity &&& ~~~(1#64 <<< core)

/-- `while (affinity) { f(GetNextCore(affinity)); }`; `fuel` bounds the number of rounds. -/
def forAffinity (fuel : ℕ) (affinity : BitVec 64) (q : KPriorityQueue ι)
    (f : ℕ → KPriorityQueue ι → Exec (KPriorityQueue ι)) : Exec (KPriorityQueue ι) :=
  if affinity = 0 then return q
  else match fuel with
    | 0 => .fault
    | fuel + 1 => do
      let core := affinity.ctz.toNat
      let q ← f core q
      forAffinity fuel (clearAffinityBit affinity core) q f

/-- The body of `PushBack`, `PushFront` and `Remove` with a priority: one operation for the
active core, and another one for the other cores of the affinity mask. -/
def forCores (q : KPriorityQueue ι) (t : KThreadFields)
    (scheduled suggested : ℕ → KPriorityQueue ι → Exec (KPriorityQueue ι)) :
    Exec (KPriorityQueue ι) := do
  if 0 ≤ t.activeCore then
    let q ← scheduled t.activeCore.toNat q
    forAffinity 64 (clearAffinityBit t.affinityMask t.activeCore.toNat) q suggested
  else forAffinity 64 t.affinityMask q suggested

/-- `PushBack` with a priority. -/
def pushBackAt (q : KPriorityQueue ι) (priority : ℕ) (m : ι) (t : KThreadFields) :
    Exec (KPriorityQueue ι) := do
  Exec.assert (isValidPriority priority)
  q.forCores t (fun core q => q.implPushBack .scheduled priority core m)
    (fun core q => q.implPushBack .suggested priority core m)

/-- `PushFront` with a priority. -/
def pushFrontAt (q : KPriorityQueue ι) (priority : ℕ) (m : ι) (t : KThreadFields) :
    Exec (KPriorityQueue ι) := do
  Exec.assert (isValidPriority priority)
  q.forCores t (fun core q => q.implPushFront .scheduled priority core m)
    (fun core q => q.implPushBack .suggested priority core m)

/-- `Remove` with a priority. -/
def removeAt (q : KPriorityQueue ι) (priority : ℕ) (m : ι) (t : KThreadFields) :
    Exec (KPriorityQueue ι) := do
  Exec.assert (isValidPriority priority)
  q.forCores t (fun core q => q.implRemove .scheduled priority core m)
    (fun core q => q.implRemove .suggested priority core m)

/-- `GetScheduledFront` of a core. -/
def getScheduledFront (q : KPriorityQueue ι) (core : ℕ) : Exec (Option ι) :=
  q.implGetFront .scheduled core

/-- `GetSuggestedFront` of a core. -/
def getSuggestedFront (q : KPriorityQueue ι) (core : ℕ) : Exec (Option ι) :=
  q.implGetFront .suggested core

/-- `GetScheduledNext`. -/
def getScheduledNext (q : KPriorityQueue ι) (core : ℕ) (m : ι) (t : KThreadFields) :
    Exec (Option ι) :=
  q.implGetNext .scheduled core m t

/-- `GetSuggestedNext`. -/
def getSuggestedNext (q : KPriorityQueue ι) (core : ℕ) (m : ι) (t : KThreadFields) :
    Exec (Option ι) :=
  q.implGetNext .suggested core m t

/-- `PushBack`. -/
def pushBack (q : KPriorityQueue ι) (m : ι) (t : KThreadFields) : Exec (KPriorityQueue ι) :=
  if t.isDummyThread then return q else q.pushBackAt t.priority m t

/-- `Remove`. -/
def remove (q : KPriorityQueue ι) (m : ι) (t : KThreadFields) : Exec (KPriorityQueue ι) :=
  if t.isDummyThread then return q else q.removeAt t.priority m t

/-- The core an operation is called with when that is an active core, -1 being none of the
cores. -/
def activeCoreIndex (t : KThreadFields) : ℕ :=
  if 0 ≤ t.activeCore then t.activeCore.toNat else numCores

/-- `MoveToScheduledFront`. -/
def moveToScheduledFront (q : KPriorityQueue ι) (m : ι) (t : KThreadFields) :
    Exec (KPriorityQueue ι) :=
  if t.isDummyThread then return q
  else q.implMoveToFront .scheduled t.priority (activeCoreIndex t) m

/-- `MoveToScheduledBack`. -/
def moveToScheduledBack (q : KPriorityQueue ι) (m : ι) (t : KThreadFields) :
    Exec (Option ι × KPriorityQueue ι) :=
  if t.isDummyThread then return (none, q)
  else q.implMoveToBack .scheduled t.priority (activeCoreIndex t) m

/-- `ChangePriority`: `t` has the new priority. -/
def changePriority (q : KPriorityQueue ι) (prevPriority : ℕ) (isRunning : Bool) (m : ι)
    (t : KThreadFields) : Exec (KPriorityQueue ι) := do
  if t.isDummyThread then return q
  else
    Exec.assert (isValidPriority prevPriority)
    let q ← q.removeAt prevPriority m t
    if isRunning then q.pushFrontAt t.priority m t else q.pushBackAt t.priority m t

/-- `KAffinityMask::GetAffinity`. -/
def getAffinity (affinity : BitVec 64) (core : ℕ) : Bool := affinity &&& (1#64 <<< core) != 0

/-- One of the two loops of `ChangeAffinityMask` over the cores: `f` is called with the
queue of each core of the mask. -/
def forMask (affinity : BitVec 64) (activeCore : ℤ) (q : KPriorityQueue ι)
    (f : QueueKind → ℕ → KPriorityQueue ι → Exec (KPriorityQueue ι)) :
    Exec (KPriorityQueue ι) :=
  (List.range numCores).foldlM (fun q core =>
    if getAffinity affinity core then
      f (if (core : ℤ) = activeCore then .scheduled else .suggested) core q
    else return q) q

/-- `ChangeAffinityMask`: `t` has the new mask and active core. -/
def changeAffinityMask (q : KPriorityQueue ι) (prevCore : ℤ) (prevAffinity : BitVec 64) (m : ι)
    (t : KThreadFields) : Exec (KPriorityQueue ι) := do
  if t.isDummyThread then return q
  else
    let q ← forMask prevAffinity prevCore q fun k core q => q.implRemove k t.priority core m
    forMask t.affinityMask t.activeCore q fun k core q => q.implPushBack k t.priority core m

/-- `ChangeCore`: `t` has the new active core. -/
def changeCore (q : KPriorityQueue ι) (prevCore : ℤ) (m : ι) (t : KThreadFields)
    (toFront : Bool) : Exec (KPriorityQueue ι) := do
  if t.isDummyThread then return q
  else if prevCore = t.activeCore then return q
  else
    -- Remove from the scheduled queue for the previous core.
    let q ← (if 0 ≤ prevCore then q.implRemove .scheduled t.priority prevCore.toNat m
      else pure q)
    -- Remove from the suggested queue and add to the scheduled queue for the new core.
    let q ← (if 0 ≤ t.activeCore then do
        let q ← q.implRemove .suggested t.priority t.activeCore.toNat m
        (if toFront then q.implPushFront .scheduled t.priority t.activeCore.toNat m
        else q.implPushBack .scheduled t.priority t.activeCore.toNat m)
      else pure q)
    -- Add to the suggested queue for the previous core.
    if 0 ≤ prevCore then q.implPushBack .suggested t.priority prevCore.toNat m
    else pure q

end KPriorityQueue
end Kernel
end NXEmu
