/-
# The threads that the cores are to run

`k_scheduler.cpp`: `UpdateHighestPriorityThread` and `UpdateHighestPriorityThreadsImpl`, which takes the front of
the scheduled queue of each core, or the thread that its process has pinned to the core, and then goes through
the cores that have none.  Such a core gets the first thread suggested to it that does not run on its own core
(`suggestFrom`); where all of them do, it gets the thread of the first of their cores that has another one to run
(`tryCandidates`).

When no thread is pinned, `top_threads` is the front of every core all along (`Consistent`).  A thread that is
migrated leaves the order of its old core as it is but for itself, so that the front of that one stays, or is the
next thread when it was the front (`SchedulerInv.migrate_spec`).

What each call of `UpdateHighestPriorityThread` finds and stores is kept in `updates`, which nothing in the code
reads.  The counts of idling and of scheduling, the ticks, the mask of runnable cores for the timing and the
waking of dummy threads are left out.
-/

import NXEmu.Lib.SummaryBitmap
import NXEmu.Kernel.PriorityQueueRuns
import Mathlib.Data.Finset.Card
import Mathlib.Data.Finset.Range

namespace NXEmu
namespace Kernel

open Common Exec KPriorityQueue Function List

/-- `KScheduler`, the scheduler of a core. -/
structure KScheduler (ι : Type) where
  highestPriorityThread : Option ι := none
  needsScheduling : Bool := false

/-- The schedulers of the cores, the queue with the threads, and what they ask of the processes. -/
structure KSchedulers (ι π : Type) where
  context : SchedulerState ι
  scheduler : ℕ → KScheduler ι := fun _ => {}
  schedulerUpdateNeeded : Bool := false
  ownerProcess : ι → Option π
  pinnedThread : π → ℕ → Option ι
  numKernelWaiters : ι → ℤ

/-- What a call of `UpdateHighestPriorityThread` found and what it stored. -/
structure HighestUpdate (ι : Type) where
  core : ℕ
  before : Option ι
  after : Option ι

/-- The variables of `UpdateHighestPriorityThreadsImpl`. -/
structure Updating (ι π : Type) where
  schedulers : KSchedulers ι π
  coresNeedingScheduling : BitVec 64 := 0
  idleCores : BitVec 64 := 0
  topThreads : ℕ → Option ι := fun _ => none
  updates : List (HighestUpdate ι) := []

variable {ι π : Type} [DecidableEq ι]

/-- `HighestCoreMigrationAllowedPriority` -/
def highestCoreMigrationAllowedPriority : ℕ := 2

/-- `SetActiveCore` and `ChangeCore`. -/
def SchedulerState.migrate (s : SchedulerState ι) (prevCore : ℤ) (m : ι) (core : ℕ) : Exec (SchedulerState ι) := do
  let t := { s.thread m with activeCore := core }
  let q ← s.queue.changeCore prevCore m t false
  return s.set q m t (s.runnable m)

namespace KSchedulers

/-- `UpdateHighestPriorityThread`: the bit of the core, if the thread is another one. -/
def updateHighestPriorityThread (s : KSchedulers ι π) (core : ℕ) (highestThread : Option ι) :
    BitVec 64 × KSchedulers ι π :=
  if (s.scheduler core).highestPriorityThread ≠ highestThread then
    (1#64 <<< core, { s with scheduler := Function.update s.scheduler core ⟨highestThread, true⟩ })
  else (0, s)

/-- The thread that its process has pinned to the core is preferred to the top thread, unless that has kernel
waiters. -/
def preferPinned (s : KSchedulers ι π) (core : ℕ) (topThread : ι) : Option ι :=
  match (s.ownerProcess topThread).bind fun parent => s.pinnedThread parent core with
  | none => some topThread
  | some pinned =>
    if pinned ≠ topThread ∧ s.numKernelWaiters topThread = 0 then
      if s.context.runnable pinned then some pinned else none
    else some topThread

end KSchedulers

namespace Updating

/-- Write an entry of `top_threads` and tell the scheduler of the core. -/
def setTop (u : Updating ι π) (core : ℕ) (topThread : Option ι) : Updating ι π :=
  let r := u.schedulers.updateHighestPriorityThread core topThread
  { u with
    schedulers := r.2
    coresNeedingScheduling := u.coresNeedingScheduling ||| r.1
    topThreads := Function.update u.topThreads core topThread
    updates := u.updates ++ [⟨core, (u.schedulers.scheduler core).highestPriorityThread, topThread⟩] }

/-- The body of the loop over all cores. -/
def findTop (u : Updating ι π) (core : ℕ) : Exec (Updating ι π) := do
  let front ← u.schedulers.context.queue.getScheduledFront core
  let idleCores := if front = none then u.idleCores ||| 1#64 <<< core else u.idleCores
  return { u with idleCores := idleCores }.setTop core (front.bind (u.schedulers.preferPinned core))

/-- A thread moves to a core that is idle. -/
def migrate (u : Updating ι π) (prevCore : ℤ) (m : ι) (core : ℕ) : Exec (Updating ι π) := do
  let context ← u.schedulers.context.migrate prevCore m core
  return { u with schedulers := { u.schedulers with context := context } }.setTop core (some m)

/-- The top thread of a core, which may be none of the cores. -/
def topOf (u : Updating ι π) (core : ℤ) : Option ι := if 0 ≤ core then u.topThreads core.toNat else none

/-- The loop over the threads suggested to a core: the thread it stops at, and the cores of those before it.  There
is room for as many of them as there are cores. -/
def suggestFrom (core : ℕ) : (room : ℕ) → Updating ι π → (suggested : Option ι) → (candidates : List ℤ) →
    Exec (Option ι × List ℤ × Updating ι π)
  | _, u, none, candidates => return (none, candidates, u)
  | room, u, some suggested, candidates =>
    let suggestedCore := (u.schedulers.context.thread suggested).activeCore
    let topThread := u.topOf suggestedCore
    if topThread ≠ some suggested then
      -- Threads too high in priority are not dealt with.
      if topThread.any fun t =>
          (u.schedulers.context.thread t).priority < highestCoreMigrationAllowedPriority then
        return (some suggested, candidates, u)
      else do
        let u ← u.migrate suggestedCore suggested core
        return (some suggested, candidates, u)
    else match room with
      | 0 => .fault
      | room + 1 => do
        let next ← u.schedulers.context.queue.getSuggestedNext core suggested
          (u.schedulers.context.thread suggested)
        suggestFrom core room u next (candidates ++ [suggestedCore])

/-- The loop over the candidate cores, for one with a thread after its top thread. -/
def tryCandidates (core : ℕ) : List ℤ → Updating ι π → Exec (Updating ι π)
  | [], u => return u
  | candidateCore :: candidates, u =>
    match u.topOf candidateCore with
    | none => .fault
    | some suggested => do
      let next ← u.schedulers.context.queue.getScheduledNext candidateCore.toNat suggested
        (u.schedulers.context.thread suggested)
      match next with
      | none => tryCandidates core candidates u
      | some next => (u.setTop candidateCore.toNat (some next)).migrate candidateCore suggested core

/-- The body of the loop over the idle cores. -/
def fillCore (core : ℕ) (u : Updating ι π) : Exec (Updating ι π) := do
  let suggested ← u.schedulers.context.queue.getSuggestedFront core
  let (suggested, candidates, u) ← suggestFrom core numCores u suggested []
  match suggested with
  | some _ => return u
  | none => tryCandidates core candidates u

end Updating

/-- `UpdateHighestPriorityThreadsImpl`: the threads that each core should run, with those that idle cores take
over. -/
def KSchedulers.updateHighestPriorityThreadsImpl (s : KSchedulers ι π) : Exec (Updating ι π) := do
  let u : Updating ι π := { schedulers := { s with schedulerUpdateNeeded := false } }
  let u ← (List.range numCores).foldlM Updating.findTop u
  forBits Updating.fillCore 64 u.idleCores u

/-! ### The fronts of the scheduled queues -/

variable {s : SchedulerState ι} {F : ℕ → Option ι} {c core : ℕ} {m : ι}

/-- The front of the scheduled queue of each core. -/
def Fronts (s : SchedulerState ι) (F : ℕ → Option ι) : Prop :=
  ∀ c < numCores, s.queue.getScheduledFront c = .ret (F c) true

namespace SchedulerInv

omit [DecidableEq ι] in
theorem priority_eq {k : QueueKind} {p : ℕ} (h : s.place m c = some (k, p)) : (s.thread m).priority = p :=
  (place_iff.1 h).2.1

omit [DecidableEq ι] in
/-- The order of the threads of one kind on a core. -/
theorem exists_order (hs : SchedulerInv s) (k : QueueKind) (hc : c < numCores) :
    ∃ L : List ι, L.Nodup ∧ (∀ m, m ∈ L ↔ ∃ p, s.place m c = some (k, p)) ∧
      s.queue.implGetFront k c = .ret L.head? true ∧
      ∀ L₁ m L₂, L = L₁ ++ m :: L₂ → s.queue.implGetNext k c m (s.thread m) = .ret L₂.head? true := by
  obtain ⟨L, hnodup, hmem, -, hfront, hnext⟩ := hs.lists.exists_order k hc s.thread fun m p hm => priority_eq hm
  refine ⟨L, hnodup, fun m => (hmem m).trans ⟨fun ⟨p, _, hm⟩ => ⟨p, hm⟩, fun ⟨p, hm⟩ => ⟨p, ?_, hm⟩⟩, hfront, hnext⟩
  have hplace := place_iff.1 hm
  exact hplace.2.1 ▸ hplace.1.2.2

omit [DecidableEq ι] in
theorem exists_scheduled : (∃ p, s.place m c = some (.scheduled, p)) ↔
    s.queued m ∧ (c : ℤ) = (s.thread m).activeCore := by
  constructor
  · rintro ⟨p, hm⟩
    have hplace := place_iff.1 hm
    exact ⟨hplace.1, hplace.2.2⟩
  · rintro ⟨hm, hcore⟩
    exact ⟨_, place_iff.2 ⟨hm, rfl, hcore⟩⟩

omit [DecidableEq ι] in
theorem exists_suggested : (∃ p, s.place m c = some (.suggested, p)) ↔
    s.queued m ∧ (c : ℤ) ≠ (s.thread m).activeCore ∧ (s.thread m).affinityMask.getLsbD c = true := by
  constructor
  · rintro ⟨p, hm⟩
    have hplace := place_iff.1 hm
    exact ⟨hplace.1, hplace.2.2⟩
  · rintro ⟨hm, hcore⟩
    exact ⟨_, place_iff.2 ⟨hm, rfl, hcore⟩⟩

omit [DecidableEq ι] in
/-- The active core of a thread is none or one of the cores. -/
theorem activeCore_cases (hs : SchedulerInv s) (m : ι) :
    (s.thread m).activeCore = -1 ∨ ∃ a : ℕ, (s.thread m).activeCore = a ∧ a < numCores := by
  refine (hs.valid m).core.imp_right ?_
  rintro ⟨a, ha, hmask⟩
  exact ⟨a, ha, (hs.valid m).mask a hmask⟩

omit [DecidableEq ι] in
theorem front_some (hs : SchedulerInv s) (hF : Fronts s F) (hc : c < numCores) (h : F c = some m) :
    s.queued m ∧ (c : ℤ) = (s.thread m).activeCore := by
  obtain ⟨L, -, hmem, hfront, -⟩ := hs.exists_order .scheduled hc
  have heq := (hF c hc).symm.trans hfront
  rw [Exec.ret.injEq, h] at heq
  exact exists_scheduled.1 ((hmem m).1 (mem_of_head? heq.1.symm))

omit [DecidableEq ι] in
/-- A core has no front just when no thread is scheduled on it. -/
theorem front_none (hs : SchedulerInv s) (hF : Fronts s F) (hc : c < numCores) :
    F c = none ↔ ∀ m, s.queued m → (c : ℤ) ≠ (s.thread m).activeCore := by
  obtain ⟨L, -, hmem, hfront, -⟩ := hs.exists_order .scheduled hc
  have heq := (hF c hc).symm.trans hfront
  rw [Exec.ret.injEq] at heq
  rw [heq.1, head?_eq_none_iff, eq_nil_iff_forall_not_mem]
  refine forall_congr' fun m => ?_
  rw [hmem, exists_scheduled, not_and]

end SchedulerInv

/-! ### A thread moves to an idle core -/

namespace KPriorityQueue

variable {q : KPriorityQueue ι} {place : Places ι} {L : QueueKind → ℕ → ℕ → List ι} {k : QueueKind} {p : ℕ}
  {t : KThreadFields}

omit [DecidableEq ι] in
theorem Rows.getFront (h : Rows q place L) (k : QueueKind) (hc : c < numCores) :
    q.implGetFront k c = .ret (listsFrom (fun p => L k p c) 0).head? true := by
  have hc' : isValidCore c := hc
  obtain ⟨hfalse, hfirst⟩ := (q.availablePriorities k c).countLeadingZero_spec (by decide)
  rw [implGetFront, Exec.assert, decide_eq_true hc', ret_true_bind, if_pos hc', pure_eq,
    head?_listsFrom (fun p hp => (h k p c hp hc).1) (fun p hp => (h k p c hp hc).2.1) (Nat.zero_le _)
      (fun i _ hi hip => hfalse i hi (by omega)) hfirst]

/-- The two steps on the new core. -/
theorem Rows.enter (h : Rows q place L) (hp : p ≤ lowestPriority) (hc : c < numCores)
    (hm : place m c = some (.suggested, p)) :
    wp (do
      let q ← q.implRemove .suggested p c m
      q.implPushBack .scheduled p c m) fun q' _ => ∃ place' L', Rows q' place' L' ∧
        (∀ c', c' ≠ c → place' m c' = place m c') ∧ ∀ p' c', c' ≠ c → L' .scheduled p' c' = L .scheduled p' c' := by
  rw [wp_bind]
  refine wp_mono (h.implRemove hp hc hm) fun q₁ held₁ ⟨_, h₁⟩ => ?_
  refine wp_mono (h₁.implPushBack hp hc put_self) fun q₂ held₂ ⟨_, h₂⟩ => ?_
  refine ⟨_, _, h₂, fun c' hne => ?_, fun p' c' hne => ?_⟩
  · rw [put_of_ne fun hand => hne hand.2, put_of_ne fun hand => hne hand.2]
  · rw [setList_of_ne fun hand => hne hand.2.2, setList_of_ne fun hand => hne hand.2.2]

/-- **`ChangeCore`** takes the thread out of its scheduled list and leaves those of all other cores but the new one
as they are. -/
theorem Rows.changeCore {prevCore : ℤ} (h : Rows q place L) (hdummy : t.isDummyThread = false)
    (hp : t.priority ≤ lowestPriority) (hcore : t.activeCore = core) (hc : core < numCores)
    (hsuggested : place m core = some (.suggested, t.priority))
    (hprev : prevCore = -1 ∨ ∃ a : ℕ, prevCore = a ∧ a < numCores ∧ a ≠ core ∧
      place m a = some (.scheduled, t.priority)) :
    wp (q.changeCore prevCore m t false) fun q' _ => ∃ place' L', Rows q' place' L' ∧ ∀ p c, c ≠ core →
      L' .scheduled p c = if (c : ℤ) = prevCore ∧ p = t.priority then (L .scheduled p c).erase m
        else L .scheduled p c := by
  have hne : prevCore ≠ t.activeCore := by
    rcases hprev with rfl | ⟨a, rfl, -, hne, -⟩ <;> omega
  rw [KPriorityQueue.changeCore, hdummy, if_neg Bool.false_ne_true, if_neg hne, hcore]
  simp only [Int.natCast_nonneg, if_true, Int.toNat_natCast, Bool.false_eq_true, if_false]
  rcases hprev with rfl | ⟨a, rfl, ha, hac, hma⟩
  · -- the thread has no core
    have hneg : ¬(0 : ℤ) ≤ -1 := by decide
    simp only [hneg, if_false]
    rw [pure_eq, ret_true_bind, wp_bind]
    refine wp_mono (h.enter hp hc hsuggested) ?_
    rintro q₁ held₁ ⟨place', L', h', -, hkept⟩
    rw [pure_eq, wp_ret]
    refine ⟨place', L', h', fun p c hcc => ?_⟩
    rw [if_neg (by omega)]
    exact hkept p c hcc
  · simp only [Int.natCast_nonneg, if_true, Int.toNat_natCast]
    rw [wp_bind]
    refine wp_mono (h.implRemove hp ha hma) ?_
    rintro q₁ held₁ ⟨-, h₁⟩
    rw [wp_bind]
    have hsuggested₁ : put place m a none m core = some (.suggested, t.priority) := by
      rw [put_of_ne fun hand => hac hand.2.symm]
      exact hsuggested
    refine wp_mono (h₁.enter hp hc hsuggested₁) ?_
    rintro q₂ held₂ ⟨place₂, L₂, h₂, hplace₂, hkept₂⟩
    have hnone : place₂ m a = none := (hplace₂ a hac).trans put_self
    refine wp_mono (h₂.implPushBack hp ha hnone) ?_
    rintro q₃ held₃ ⟨-, h₃⟩
    refine ⟨_, _, h₃, fun p c hcc => ?_⟩
    rw [setList_of_ne fun hand => QueueKind.noConfusion hand.1, hkept₂ p c hcc, setList]
    by_cases hlist : p = t.priority ∧ c = a
    · rw [if_pos ⟨rfl, hlist⟩, if_pos ⟨congrArg Nat.cast hlist.2, hlist.1⟩, hlist.1, hlist.2]
    · rw [if_neg fun hand => hlist hand.2, if_neg fun hand => hlist ⟨hand.2, Int.ofNat_inj.1 hand.1⟩]

end KPriorityQueue

namespace SchedulerInv

/-- The state after a migration. -/
theorem migrate_inv (hs : SchedulerInv s) (hm : s.queued m) (hmask : (s.thread m).affinityMask.getLsbD core = true) :
    wp (s.queue.changeCore (s.thread m).activeCore m { s.thread m with activeCore := core } false) fun q held =>
      held = true ∧ SchedulerInv (s.set q m { s.thread m with activeCore := core } true) := by
  have hvalid : { s.thread m with activeCore := (core : ℤ) }.Valid :=
    ⟨(hs.valid m).mask, .inr ⟨core, rfl, hmask⟩, (hs.valid m).priority⟩
  have hcall := hs.call (c := .changeCore m core false) ⟨hm.1, hvalid⟩
  rw [SchedulerCall.exec, wp_bind] at hcall
  refine wp_mono hcall fun q held hq => ?_
  rwa [pure_eq, wp_ret, Bool.and_true] at hq

/-- **A thread that moves to an idle core** becomes the front of that.  The fronts of the other cores stay, but for
that of its own one if it was it, which then is the next thread there. -/
theorem migrate_spec (hs : SchedulerInv s) (hF : Fronts s F) (hm : s.queued m) (hc : core < numCores)
    (hne : (core : ℤ) ≠ (s.thread m).activeCore) (hmask : (s.thread m).affinityMask.getLsbD core = true)
    (hidle : F core = none) :
    wp (s.migrate (s.thread m).activeCore m core) fun s' held => held = true ∧ SchedulerInv s' ∧
      ∃ F', Fronts s' F' ∧ F' core = some m ∧ ∀ c < numCores, c ≠ core → (F c ≠ some m → F' c = F c) ∧
        (F c = some m → s.queue.getScheduledNext c m (s.thread m) = .ret (F' c) true) := by
  obtain ⟨L, hL⟩ := hs.lists.exists_rows
  have hprev : (s.thread m).activeCore = -1 ∨ ∃ a : ℕ, (s.thread m).activeCore = a ∧ a < numCores ∧ a ≠ core ∧
      s.place m a = some (.scheduled, (s.thread m).priority) := by
    refine (hs.activeCore_cases m).imp_right ?_
    rintro ⟨a, ha, hlt⟩
    exact ⟨a, ha, hlt, fun hac => hne (hac ▸ ha.symm), place_iff.2 ⟨hm, rfl, ha.symm⟩⟩
  have hrows := hL.changeCore (t := { s.thread m with activeCore := (core : ℤ) }) hm.2.1 hm.2.2 rfl hc
    (place_iff.2 ⟨hm, rfl, hne, hmask⟩) hprev
  rw [SchedulerState.migrate, wp_bind, hm.1]
  refine wp_mono (wp_and (hs.migrate_inv hm hmask) hrows) ?_
  rintro q held ⟨⟨rfl, hinv⟩, place', L', h', hkept⟩
  refine wp_ret.2 ⟨rfl, hinv, fun c => if c = core then some m else (listsFrom (fun p => L' .scheduled p c) 0).head?,
    fun c hlt => ?_, if_pos rfl, fun c hlt hcc => ?_⟩
  · dsimp only
    by_cases hcc : c = core
    · -- no other thread is on the core
      subst hcc
      obtain ⟨O, -, hmem, hfront, -⟩ := hinv.exists_order .scheduled hlt
      have honly : ∀ i ∈ O, i = m := by
        intro i hi
        by_contra him
        have hplace := exists_scheduled.1 ((hmem i).1 hi)
        simp only [SchedulerState.queued, SchedulerState.set, update_of_ne him] at hplace
        exact (hs.front_none hF hlt).1 hidle i hplace.1 hplace.2
      have hself : m ∈ O := by
        refine (hmem m).2 (exists_scheduled.2 ?_)
        simp only [SchedulerState.queued, SchedulerState.set, update_self]
        exact ⟨⟨trivial, hm.2⟩, trivial⟩
      rw [if_pos rfl, ← show O.head? = some m from ?_]
      · exact hfront
      · cases O with
        | nil => exact absurd hself not_mem_nil
        | cons i O => rw [head?_cons, honly i mem_cons_self]
    · rw [if_neg hcc]
      exact h'.getFront .scheduled hlt
  · -- the order of the core without the thread
    dsimp only
    rw [if_neg hcc]
    obtain ⟨hnodup, -, -, hfront, hnext⟩ := hL.order .scheduled hlt s.thread fun i p hi => priority_eq hi
    have herase : ∀ p ∈ range' 0 (lowestPriority + 1 - 0), L' .scheduled p c = (L .scheduled p c).erase m := by
      intro p hp
      rw [mem_range'_1] at hp
      rw [hkept p c hcc]
      split_ifs with hlist
      · rfl
      · refine (erase_of_not_mem fun hmem => hlist ?_).symm
        have hplace := place_iff.1 (((hL .scheduled p c (by omega) hlt).2.2 m).1 hmem)
        exact ⟨hplace.2.2, hplace.2.1.symm⟩
    have hlists : listsFrom (fun p => L' .scheduled p c) 0 = (listsFrom (fun p => L .scheduled p c) 0).erase m :=
      (flatMap_congr herase).trans (listsFrom_erase hnodup m)
    have heq := (hF c hlt).symm.trans hfront
    rw [Exec.ret.injEq] at heq
    rw [hlists, heq.1]
    generalize listsFrom (fun p => L .scheduled p c) 0 = O at hnext
    cases O with
    | nil => exact ⟨fun _ => rfl, fun hsome => by cases hsome⟩
    | cons i O =>
      rw [head?_cons]
      constructor
      · intro him
        rw [erase_cons_tail (by simpa using fun h : i = m => him (congrArg some h)), head?_cons]
      · intro him
        obtain rfl : i = m := Option.some.inj him
        rw [erase_cons_head]
        exact hnext [] i O rfl

end SchedulerInv

/-! ### The top threads -/

variable {u : Updating ι π} {t : Option ι}

namespace Updating

/-- The mask has the bits of the cores whose thread was changed by a call. -/
def Marked (u : Updating ι π) : Prop :=
  ∀ c, u.coresNeedingScheduling.getLsbD c = true ↔ ∃ e ∈ u.updates, e.core = c ∧ e.before ≠ e.after

/-- The top threads are the fronts of the cores, and the schedulers have them. -/
structure Consistent (u : Updating ι π) : Prop where
  inv : SchedulerInv u.schedulers.context
  fronts : Fronts u.schedulers.context u.topThreads
  stored : ∀ c < numCores, (u.schedulers.scheduler c).highestPriorityThread = u.topThreads c
  marked : Marked u

section

variable (u : Updating ι π) (core : ℕ) (t : Option ι)

@[simp] theorem setTop_topThreads :
    (u.setTop core t).topThreads = update u.topThreads core t := rfl

@[simp] theorem setTop_idleCores :
    (u.setTop core t).idleCores = u.idleCores := rfl

@[simp] theorem setTop_context :
    (u.setTop core t).schedulers.context = u.schedulers.context := by
  show (u.schedulers.updateHighestPriorityThread core t).2.context = _
  rw [KSchedulers.updateHighestPriorityThread]
  split_ifs <;> rfl

@[simp] theorem setTop_pinnedThread :
    (u.setTop core t).schedulers.pinnedThread = u.schedulers.pinnedThread := by
  show (u.schedulers.updateHighestPriorityThread core t).2.pinnedThread = _
  rw [KSchedulers.updateHighestPriorityThread]
  split_ifs <;> rfl

/-- The scheduler of the core has the thread, whether it was changed or not. -/
theorem setTop_stored (c : ℕ) :
    ((u.setTop core t).schedulers.scheduler c).highestPriorityThread =
      if c = core then t else (u.schedulers.scheduler c).highestPriorityThread := by
  show ((u.schedulers.updateHighestPriorityThread core t).2.scheduler c).highestPriorityThread = _
  rw [KSchedulers.updateHighestPriorityThread]
  by_cases hne : (u.schedulers.scheduler core).highestPriorityThread = t
  · rw [if_neg (not_not.2 hne)]
    by_cases hc : c = core
    · rw [if_pos hc, hc, hne]
    · rw [if_neg hc]
  · rw [if_pos hne]
    by_cases hc : c = core
    · rw [if_pos hc, hc]
      simp only [update_self]
    · rw [if_neg hc]
      simp only [update_of_ne hc]

end

/-- The bit of a call is set just when the call changed the thread. -/
theorem Marked.setTop (h : Marked u) (hc : core < numCores) (t : Option ι) : Marked (u.setTop core t) := by
  intro c
  have hbit : (u.setTop core t).coresNeedingScheduling.getLsbD c = true ↔ u.coresNeedingScheduling.getLsbD c = true ∨
        core = c ∧ (u.schedulers.scheduler core).highestPriorityThread ≠ t := by
    show (u.coresNeedingScheduling ||| (u.schedulers.updateHighestPriorityThread core t).1).getLsbD c = true ↔ _
    rw [BitVec.getLsbD_or, Bool.or_eq_true, KSchedulers.updateHighestPriorityThread]
    refine or_congr_right ?_
    by_cases hne : (u.schedulers.scheduler core).highestPriorityThread = t
    · rw [if_neg (not_not.2 hne)]
      simp [hne]
    · have hlt : core < 64 := Nat.lt_of_lt_of_le hc (by decide)
      rw [if_pos hne, SummaryBitmap.getLsbD_one_shiftLeft hlt, decide_eq_true_eq, and_iff_left hne, eq_comm]
  have hupdates : ∀ e, e ∈ (u.setTop core t).updates ↔ e ∈ u.updates ∨
      e = ⟨core, (u.schedulers.scheduler core).highestPriorityThread, t⟩ := by
    intro e
    show e ∈ u.updates ++ [_] ↔ _
    rw [mem_append, mem_singleton]
  rw [hbit, h c]
  constructor
  · rintro (⟨e, he, hand⟩ | hand)
    · exact ⟨e, (hupdates e).2 (.inl he), hand⟩
    · exact ⟨_, (hupdates _).2 (.inr rfl), hand⟩
  · rintro ⟨e, he, hand⟩
    rcases (hupdates e).1 he with he | rfl
    · exact .inl ⟨e, he, hand⟩
    · exact .inr hand

/-- **A migration** makes the top threads agree with the queue, if they have what follows the thread on its own core
already. -/
theorem migrate_consistent {F : ℕ → Option ι} (hs : SchedulerInv u.schedulers.context)
    (hF : Fronts u.schedulers.context F) (hm : u.schedulers.context.queued m) (hc : core < numCores)
    (hne : (core : ℤ) ≠ (u.schedulers.context.thread m).activeCore)
    (hmask : (u.schedulers.context.thread m).affinityMask.getLsbD core = true) (hidle : F core = none)
    (htops : ∀ c < numCores, c ≠ core → (F c ≠ some m → u.topThreads c = F c) ∧ (F c = some m →
      u.schedulers.context.queue.getScheduledNext c m (u.schedulers.context.thread m) = .ret (u.topThreads c) true))
    (hstored : ∀ c < numCores, c ≠ core → (u.schedulers.scheduler c).highestPriorityThread = u.topThreads c)
    (hmarked : Marked u) :
    wp (u.migrate (u.schedulers.context.thread m).activeCore m core) fun u' held => held = true ∧ Consistent u' ∧
      ∀ c, c ≠ core → u'.topThreads c = u.topThreads c := by
  rw [migrate, wp_bind]
  refine wp_mono (hs.migrate_spec hF hm hc hne hmask hidle) ?_
  rintro context held ⟨rfl, hinv, F', hF', hself, hothers⟩
  refine wp_ret.2 ⟨rfl, ⟨?_, ?_, fun c hlt => ?_, ?_⟩, fun c hcc => ?_⟩
  · rw [setTop_context]
    exact hinv
  · rw [setTop_context, setTop_topThreads]
    intro c hlt
    refine (hF' c hlt).trans (congrArg (fun f => Exec.ret f true) ?_)
    by_cases hcc : c = core
    · rw [hcc, update_self, hself]
    · rw [update_of_ne hcc]
      by_cases hfront : F c = some m
      · have heq := ((hothers c hlt hcc).2 hfront).symm.trans ((htops c hlt hcc).2 hfront)
        exact (Exec.ret.inj heq).1
      · exact ((hothers c hlt hcc).1 hfront).trans ((htops c hlt hcc).1 hfront).symm
  · rw [setTop_stored, setTop_topThreads]
    by_cases hcc : c = core
    · rw [if_pos hcc, hcc, update_self]
    · rw [if_neg hcc, update_of_ne hcc]
      exact hstored c hlt hcc
  · exact Marked.setTop (u := { u with schedulers := { u.schedulers with context := context } }) hmarked hc (some m)
  · rw [setTop_topThreads, update_of_ne hcc]

/-- A core whose top thread is suggested to the idle one. -/
def Candidate (u : Updating ι π) (core : ℕ) (c : ℤ) (m : ι) : Prop :=
  c = (u.schedulers.context.thread m).activeCore ∧ u.topOf c = some m ∧ u.schedulers.context.queued m ∧
    (core : ℤ) ≠ (u.schedulers.context.thread m).activeCore ∧
    (u.schedulers.context.thread m).affinityMask.getLsbD core = true

/-- The idle cores stay idle but for this one. -/
def Filled (u u' : Updating ι π) (core : ℕ) : Prop :=
  Consistent u' ∧ ∀ c, c ≠ core → u.topThreads c = none → u'.topThreads c = none

omit [DecidableEq ι] in
theorem topOf_some (h : u.topOf c = some m) : u.topThreads c = some m := by
  rw [topOf, if_pos (Int.natCast_nonneg c), Int.toNat_natCast] at h
  exact h

omit [DecidableEq ι] in
/-- A candidate is a core, with its number. -/
theorem Candidate.exists_core (hu : Consistent u) {a : ℤ} (h : Candidate u core a m) :
    ∃ c : ℕ, a = c ∧ c < numCores ∧ u.topThreads c = some m := by
  obtain ⟨rfl, htop, -⟩ := h
  rcases hu.inv.activeCore_cases m with hnone | ⟨c, hc, hlt⟩
  · rw [topOf, if_neg (by omega)] at htop
    cases htop
  · rw [hc] at htop
    exact ⟨c, hc, hlt, topOf_some htop⟩

/-- The loop over the candidates. -/
theorem tryCandidates_spec (hu : Consistent u) (hc : core < numCores) (hidle : u.topThreads core = none)
    {cs : List ℤ} (hcs : ∀ a ∈ cs, ∃ m, Candidate u core a m) :
    wp (tryCandidates core cs u) fun u' held => held = true ∧ Filled u u' core := by
  induction cs with
  | nil => exact wp_ret.2 ⟨rfl, hu, fun _ _ hnone => hnone⟩
  | cons a cs ih =>
    obtain ⟨m, hm⟩ := hcs a mem_cons_self
    have hrest := ih fun a' ha' => hcs a' (mem_cons_of_mem a ha')
    obtain ⟨c, rfl, hlt, htop⟩ := hm.exists_core hu
    obtain ⟨hcore, htopOf, hqueued, hne, hmask⟩ := hm
    -- the top thread is the first in the order of its core, and the next one comes after it
    obtain ⟨O, -, -, hfront, hnext⟩ := hu.inv.exists_order .scheduled hlt
    have hhead := (Exec.ret.inj ((hu.fronts c hlt).symm.trans hfront)).1
    rw [htop] at hhead
    obtain ⟨O, rfl⟩ : ∃ O', O = m :: O' := by
      cases O with
      | nil => cases hhead
      | cons i O => exact ⟨O, by rw [Option.some.inj hhead]⟩
    have hget := hnext [] m O rfl
    have hcc : c ≠ core := fun heq => by
      rw [heq, hidle] at htop
      cases htop
    rw [tryCandidates, htopOf, Int.toNat_natCast]
    simp only
    rw [getScheduledNext, hget, ret_true_bind]
    cases O with
    | nil => exact hrest
    | cons next O =>
      rw [head?_cons] at hget ⊢
      have hmove := @migrate_consistent _ _ _ core m (u.setTop c (some next)) u.topThreads
        (by rw [setTop_context]; exact hu.inv) (by rw [setTop_context]; exact hu.fronts)
        (by rw [setTop_context]; exact hqueued) hc (by rw [setTop_context]; exact hne)
        (by rw [setTop_context]; exact hmask) hidle ?_ ?_ (hu.marked.setTop hlt (some next))
      · rw [setTop_context, ← hcore] at hmove
        refine wp_mono hmove ?_
        rintro u' held ⟨hheld, hconsistent, hkept⟩
        refine ⟨hheld, hconsistent, fun c' hne' hnone => ?_⟩
        rw [hkept c' hne', setTop_topThreads]
        by_cases hcc' : c' = c
        · rw [hcc', htop] at hnone
          cases hnone
        · rwa [update_of_ne hcc']
      · intro c' hlt' hne'
        rw [setTop_topThreads, setTop_context]
        by_cases hcc' : c' = c
        · subst hcc'
          rw [update_self]
          exact ⟨fun hnot => absurd htop hnot, fun _ => hget⟩
        · rw [update_of_ne hcc']
          refine ⟨fun _ => rfl, fun hsome => absurd ?_ hcc'⟩
          have hcore' := (hu.inv.front_some hu.fronts hlt' hsome).2
          exact Int.ofNat_inj.1 (hcore'.trans hcore.symm)
      · intro c' hlt' hne'
        rw [setTop_stored, setTop_topThreads]
        by_cases hcc' : c' = c
        · rw [if_pos hcc', hcc', update_self]
        · rw [if_neg hcc', update_of_ne hcc']
          exact hu.stored c' hlt'

omit [DecidableEq ι] in
/-- There is room for a candidate: each of them has a core of its own, and none has the idle one. -/
theorem Candidate.length_lt (hu : Consistent u) {ms : List ι} (hc : core < numCores) (hnodup : ms.Nodup)
    (hms : ∀ m ∈ ms, Candidate u core (u.schedulers.context.thread m).activeCore m) : ms.length < numCores := by
  set coreOf : ι → ℕ := fun m => (u.schedulers.context.thread m).activeCore.toNat with hcoreOf
  have hcores : (ms.map coreOf).Nodup := by
    refine (nodup_map_iff_inj_on hnodup).2 fun x hx y hy hxy => ?_
    obtain ⟨a, ha, -, htop⟩ := (hms x hx).exists_core hu
    obtain ⟨b, hb, -, htop'⟩ := (hms y hy).exists_core hu
    have hab : a = b := by
      simp only [hcoreOf, ha, hb, Int.toNat_natCast] at hxy
      exact hxy
    rw [hab, htop'] at htop
    exact (Option.some.inj htop).symm
  have hall : ∀ c ∈ core :: ms.map coreOf, c < numCores := by
    intro c hmem
    rcases mem_cons.1 hmem with rfl | hmem
    · exact hc
    · obtain ⟨m, hm, rfl⟩ := mem_map.1 hmem
      obtain ⟨a, ha, hlt, -⟩ := (hms m hm).exists_core hu
      simp only [hcoreOf, ha, Int.toNat_natCast]
      exact hlt
  have hnot : core ∉ ms.map coreOf := by
    intro hmem
    obtain ⟨m, hm, heq⟩ := mem_map.1 hmem
    obtain ⟨a, ha, -, -⟩ := (hms m hm).exists_core hu
    refine (hms m hm).2.2.2.1 ?_
    rw [← heq]
    simp only [hcoreOf, ha, Int.toNat_natCast]
  have hsubset : (core :: ms.map coreOf).toFinset ⊆ Finset.range numCores := fun c hmem =>
    Finset.mem_range.2 (hall c (mem_toFinset.1 hmem))
  have hcard := Finset.card_le_card hsubset
  rw [toFinset_card_of_nodup (nodup_cons.2 ⟨hnot, hcores⟩), Finset.card_range, length_cons, length_map] at hcard
  exact hcard

/-- What the loop over the suggested threads leaves. -/
def Suggests (u : Updating ι π) (core : ℕ) (r : Option ι × List ℤ × Updating ι π) : Prop :=
  (r.1 ≠ none ∧ Filled u r.2.2 core) ∨
    (r.1 = none ∧ r.2.2 = u ∧ ∀ a ∈ r.2.1, ∃ m, Candidate u core a m)

/-- **The loop over the suggested threads**: a thread was migrated, or is too high in priority for that, or all of
them are candidates. -/
theorem suggestFrom_spec (hu : Consistent u) (hc : core < numCores) (hidle : u.topThreads core = none)
    {room : ℕ} {before rest : List ι} (hroom : room + before.length = numCores) (hnodup : (before ++ rest).Nodup)
    (hsuggested : ∀ m ∈ rest, ∃ p, u.schedulers.context.place m core = some (.suggested, p))
    (hnext : ∀ L₁ m L₂, before ++ rest = L₁ ++ m :: L₂ → u.schedulers.context.queue.getSuggestedNext core m
      (u.schedulers.context.thread m) = .ret L₂.head? true)
    (hbefore : ∀ m ∈ before, Candidate u core (u.schedulers.context.thread m).activeCore m) :
    wp (suggestFrom core room u rest.head? (before.map fun m => (u.schedulers.context.thread m).activeCore))
      fun r held => held = true ∧ Suggests u core r := by
  induction rest generalizing room before with
  | nil =>
    rw [head?_nil, suggestFrom.eq_def]
    refine wp_ret.2 ⟨rfl, .inr ⟨rfl, rfl, fun a ha => ?_⟩⟩
    obtain ⟨m, hm, rfl⟩ := mem_map.1 ha
    exact ⟨m, hbefore m hm⟩
  | cons m rest ih =>
    obtain ⟨hqueued, hne, hmask⟩ := SchedulerInv.exists_suggested.1 (hsuggested m mem_cons_self)
    rw [head?_cons, suggestFrom.eq_def]
    by_cases htop : u.topOf (u.schedulers.context.thread m).activeCore = some m
    · -- another candidate
      have hcandidates : ∀ m' ∈ before ++ [m], Candidate u core (u.schedulers.context.thread m').activeCore m' := by
        intro m' hm'
        rcases mem_append.1 hm' with hold | hnew
        · exact hbefore m' hold
        · obtain rfl := mem_singleton.1 hnew
          exact ⟨rfl, htop, hqueued, hne, hmask⟩
      have hsplit : before ++ m :: rest = before ++ [m] ++ rest := (append_cons before m rest)
      have hnodup' := (nodup_append.1 (hsplit ▸ hnodup)).1
      have hlength := Candidate.length_lt hu hc hnodup' hcandidates
      rw [length_append, length_singleton] at hlength
      obtain ⟨room, rfl⟩ : ∃ room', room = room' + 1 := Nat.exists_eq_add_one.2 (by omega)
      simp only [htop, ne_eq, not_true_eq_false, if_false]
      rw [hnext before m rest rfl, ret_true_bind]
      have hrest := @ih room (before ++ [m])
        (by rw [length_append, length_singleton]; omega) (hsplit ▸ hnodup)
        (fun m' hm' => hsuggested m' (mem_cons_of_mem m hm')) (hsplit ▸ hnext) hcandidates
      rw [map_append, map_singleton] at hrest
      exact hrest
    · simp only [ne_eq, htop, not_false_eq_true, if_true]
      split_ifs with hhigh
      · exact wp_ret.2 ⟨rfl, .inl ⟨Option.some_ne_none m, hu, fun _ _ hnone => hnone⟩⟩
      · -- the thread is not the top thread of any core
        have hnot : ∀ c < numCores, u.topThreads c ≠ some m := by
          intro c hlt hsome
          have hcore := (hu.inv.front_some hu.fronts hlt hsome).2
          rw [← hcore, topOf, if_pos (Int.natCast_nonneg c), Int.toNat_natCast] at htop
          exact htop hsome
        rw [wp_bind]
        refine wp_mono (migrate_consistent hu.inv hu.fronts hqueued hc hne hmask hidle
          (fun c hlt _ => ⟨fun _ => rfl, fun hsome => absurd hsome (hnot c hlt)⟩) (fun c hlt _ => hu.stored c hlt)
          hu.marked) ?_
        rintro u' held ⟨rfl, hconsistent, hkept⟩
        exact wp_ret.2 ⟨rfl, .inl ⟨Option.some_ne_none m, hconsistent, fun c hcc hnone => (hkept c hcc).trans hnone⟩⟩

/-- **The body of the loop over the idle cores.** -/
theorem fillCore_spec (hu : Consistent u) (hc : core < numCores) (hidle : u.topThreads core = none) :
    wp (fillCore core u) fun u' held => held = true ∧ Filled u u' core := by
  obtain ⟨O, hnodup, hmem, hfront, hnext⟩ := hu.inv.exists_order .suggested hc
  have hloop := @suggestFrom_spec _ _ _ core u hu hc hidle numCores [] O rfl hnodup
    (fun m hm => (hmem m).1 hm) hnext fun m hm => absurd hm not_mem_nil
  rw [fillCore, getSuggestedFront, hfront, ret_true_bind, wp_bind]
  refine wp_mono hloop ?_
  rintro ⟨suggested, candidates, u'⟩ held ⟨rfl, ⟨hsome, hfilled⟩ | ⟨hnone, hsame, hcandidates⟩⟩
  · cases suggested with
    | none => exact absurd rfl hsome
    | some m => exact wp_ret.2 ⟨rfl, hfilled⟩
  · obtain rfl : suggested = none := hnone
    obtain rfl : u' = u := hsame
    exact tryCandidates_spec hu hc hidle hcandidates

/-- **The loop over the idle cores.** -/
theorem forBits_fillCore {idle : BitVec 64} (hu : Consistent u)
    (hidle : ∀ c, idle.getLsbD c = true → c < numCores ∧ u.topThreads c = none) :
    wp (forBits fillCore 64 idle u) fun u' held => held = true ∧ Consistent u' := by
  refine wp_mono (wp_forBits (I := fun mask u => Consistent u ∧ ∀ c, mask.getLsbD c = true →
    c < numCores ∧ u.topThreads c = none) ?_ (fun i _ => Nat.le_add_left 64 i) ⟨hu, hidle⟩) ?_
  · rintro mask c u ⟨hu, hidle⟩ hbit
    obtain ⟨hlt, hnone⟩ := hidle c hbit
    refine wp_mono (fillCore_spec hu hlt hnone) ?_
    rintro u' held ⟨rfl, hconsistent, hkept⟩
    refine ⟨rfl, hconsistent, fun c' hbit' => ?_⟩
    rw [getLsbD_withoutBit, Bool.and_eq_true, Bool.not_eq_true', decide_eq_false_iff_not] at hbit'
    obtain ⟨hlt', hnone'⟩ := hidle c' hbit'.1
    exact ⟨hlt', hkept c' hbit'.2 hnone'⟩
  · exact fun u' held hr => ⟨hr.1, hr.2.1⟩

/-- The top threads of the cores below `i` are known. -/
structure Found (s : KSchedulers ι π) (i : ℕ) (u : Updating ι π) : Prop where
  context : u.schedulers.context = s.context
  pinned : u.schedulers.pinnedThread = s.pinnedThread
  fronts : ∀ c < i, s.context.queue.getScheduledFront c = .ret (u.topThreads c) true
  stored : ∀ c < i, (u.schedulers.scheduler c).highestPriorityThread = u.topThreads c
  marked : Marked u
  idle : ∀ c, u.idleCores.getLsbD c = true ↔ c < i ∧ u.topThreads c = none

omit [DecidableEq ι] in
theorem preferPinned_eq {s : KSchedulers ι π} (hpinned : ∀ p c, s.pinnedThread p c = none) (core : ℕ) (m : ι)
    [DecidableEq ι] : s.preferPinned core m = some m := by
  have hnone : ((s.ownerProcess m).bind fun parent => s.pinnedThread parent core) = none := by
    cases s.ownerProcess m with
    | none => rfl
    | some parent => exact hpinned parent core
  rw [KSchedulers.preferPinned, hnone]

section

variable {s : KSchedulers ι π} (hs : SchedulerInv s.context) (hpinned : ∀ p c, s.pinnedThread p c = none)

include hs hpinned

/-- **The body of the loop over all cores**, without pinned threads. -/
theorem findTop_spec (h : Found s core u) (hc : core < numCores) :
    wp (u.findTop core) fun u' held => held = true ∧ Found s (core + 1) u' := by
  obtain ⟨O, -, -, hfront, -⟩ := hs.exists_order .scheduled hc
  have hlt : core < 64 := Nat.lt_of_lt_of_le hc (by decide)
  have htop : O.head?.bind (u.schedulers.preferPinned core) = O.head? := by
    cases O.head? with
    | none => rfl
    | some m => exact preferPinned_eq (by rw [h.pinned]; exact hpinned) core m
  rw [findTop, h.context, getScheduledFront, hfront, ret_true_bind, htop]
  refine wp_ret.2 ⟨rfl, ?_, ?_, fun c hcc => ?_, fun c hcc => ?_, ?_, fun c => ?_⟩
  · rw [setTop_context]
    exact h.context
  · rw [setTop_pinnedThread]
    exact h.pinned
  · rw [setTop_topThreads]
    rcases Nat.lt_succ_iff_lt_or_eq.1 hcc with hold | rfl
    · rw [update_of_ne hold.ne]
      exact h.fronts c hold
    · rw [update_self]
      exact hfront
  · rw [setTop_stored, setTop_topThreads]
    rcases Nat.lt_succ_iff_lt_or_eq.1 hcc with hold | rfl
    · rw [if_neg hold.ne, update_of_ne hold.ne]
      exact h.stored c hold
    · rw [if_pos rfl, update_self]
  · exact Marked.setTop (u := { u with
      idleCores := if O.head? = none then u.idleCores ||| 1#64 <<< core else u.idleCores }) h.marked hc _
  · rw [setTop_idleCores, setTop_topThreads]
    have hbit : (if O.head? = none then u.idleCores ||| 1#64 <<< core else u.idleCores).getLsbD c = true ↔
        u.idleCores.getLsbD c = true ∨ O.head? = none ∧ c = core := by
      split_ifs with hnone
      · rw [BitVec.getLsbD_or, Bool.or_eq_true, SummaryBitmap.getLsbD_one_shiftLeft hlt, decide_eq_true_eq,
          and_iff_right hnone]
      · rw [or_iff_left fun hand => hnone hand.1]
    refine hbit.trans ?_
    rw [h.idle c]
    by_cases hcc : c = core
    · subst hcc
      rw [update_self, and_iff_left rfl, and_iff_right (Nat.lt_succ_self c),
        or_iff_right fun hand => Nat.lt_irrefl c hand.1]
    · rw [update_of_ne hcc, or_iff_left fun hand => hcc hand.2, Nat.lt_succ_iff_lt_or_eq, or_iff_left hcc]

/-- The loop over all cores. -/
theorem findTops_spec :
    wp ((range numCores).foldlM findTop ({ schedulers := s } : Updating ι π)) fun u held =>
      held = true ∧ Found s numCores u := by
  refine wp_foldlM_range (fun core u hc h => findTop_spec hs hpinned h hc) ?_
  refine ⟨rfl, rfl, fun c hc => absurd hc (Nat.not_lt_zero c), fun c hc => absurd hc (Nat.not_lt_zero c),
    fun c => ?_, fun c => ?_⟩
  · simp
  · simp

end

end Updating

open Updating in
/-- **`UpdateHighestPriorityThreadsImpl`**, when no process has a pinned thread: the queue stays in order, the
scheduler of each core has the front of its queue, which is no thread just when none is scheduled there, no thread is
that of two cores, and the mask has the cores of the calls that changed a thread. -/
theorem KSchedulers.updateHighestPriorityThreadsImpl_spec (s : KSchedulers ι π) (hs : SchedulerInv s.context)
    (hpinned : ∀ p c, s.pinnedThread p c = none) :
    wp s.updateHighestPriorityThreadsImpl fun u held => held = true ∧ SchedulerInv u.schedulers.context ∧
      (∀ c < numCores, u.schedulers.context.queue.getScheduledFront c =
        .ret (u.schedulers.scheduler c).highestPriorityThread true) ∧
      (∀ c < numCores, (u.schedulers.scheduler c).highestPriorityThread = none ↔
        ∀ m, u.schedulers.context.queued m → (c : ℤ) ≠ (u.schedulers.context.thread m).activeCore) ∧
      (∀ c < numCores, ∀ c' < numCores, ∀ m, (u.schedulers.scheduler c).highestPriorityThread = some m →
        (u.schedulers.scheduler c').highestPriorityThread = some m → c = c') ∧
      ∀ c, u.coresNeedingScheduling.getLsbD c = true ↔ ∃ e ∈ u.updates, e.core = c ∧ e.before ≠ e.after := by
  rw [updateHighestPriorityThreadsImpl, wp_bind]
  refine wp_mono (findTops_spec (s := { s with schedulerUpdateNeeded := false }) hs hpinned) ?_
  rintro u held ⟨rfl, hfound⟩
  have hconsistent : Consistent u := by
    refine ⟨?_, fun c hc => ?_, hfound.stored, hfound.marked⟩
    · rw [hfound.context]
      exact hs
    · rw [hfound.context]
      exact hfound.fronts c hc
  refine wp_mono (forBits_fillCore hconsistent fun c hbit => (hfound.idle c).1 hbit) ?_
  rintro u' held ⟨rfl, hu'⟩
  refine ⟨rfl, hu'.inv, fun c hc => ?_, fun c hc => ?_, fun c hc c' hc' m hm hm' => ?_, hu'.marked⟩
  · rw [hu'.stored c hc]
    exact hu'.fronts c hc
  · rw [hu'.stored c hc]
    exact hu'.inv.front_none hu'.fronts hc
  · rw [hu'.stored c hc] at hm
    rw [hu'.stored c' hc'] at hm'
    have hcore := (hu'.inv.front_some hu'.fronts hc hm).2
    exact Int.ofNat_inj.1 (hcore.trans (hu'.inv.front_some hu'.fronts hc' hm').2.symm)

/-- The schedulers for two threads, one of which runs on the core 0 and the other one on none. -/
def twoSchedulers : KSchedulers Bool Unit where
  context := schedulerAfter [.pushBack true, .pushBack false]
  ownerProcess _ := some ()
  pinnedThread _ _ := none
  numKernelWaiters _ := 0

set_option maxRecDepth 4000 in
theorem twoSchedulers_inv : SchedulerInv twoSchedulers.context := by
  have hrun : SchedulerRun (schedulerAfter []) (schedulerAfter [.pushBack true, .pushBack false]) :=
    .step (s := schedulerAfter [.pushBack true]) (c := .pushBack false)
      (.step (s := schedulerAfter []) (c := .pushBack true) .refl rfl rfl) rfl rfl
  exact SchedulerInv.run twoThreads_valid hrun

/-- The thread without a core goes to the core 1, which is idle. -/
theorem updateHighestPriorityThreadsImpl_two : ∃ u, twoSchedulers.updateHighestPriorityThreadsImpl = .ret u true ∧
    SchedulerInv u.schedulers.context ∧ (u.schedulers.scheduler 0).highestPriorityThread = some true ∧
    (u.schedulers.scheduler 1).highestPriorityThread = some false ∧
    u.schedulers.context.queue.getScheduledFront 1 = .ret (some false) true := by
  obtain ⟨u, held, hrun, rfl, hinv, hfront, -, -, -⟩ :=
    twoSchedulers.updateHighestPriorityThreadsImpl_spec twoSchedulers_inv fun _ _ => rfl
  have heval : ∀ c : Fin 2, ((twoSchedulers.updateHighestPriorityThreadsImpl.value
      { schedulers := twoSchedulers }).schedulers.scheduler c).highestPriorityThread = some (c == 0) := by
    decide +kernel
  rw [hrun] at heval
  have hone : (u.schedulers.scheduler 1).highestPriorityThread = some false := heval 1
  exact ⟨u, hrun, hinv, heval 0, hone, hone ▸ hfront 1 (by decide)⟩

end Kernel
end NXEmu
