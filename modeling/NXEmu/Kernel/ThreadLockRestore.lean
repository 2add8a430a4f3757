/-
# Restoring priorities

`src/nxemu-os/core/hle/kernel/k_thread.cpp`, `AddWaiterImpl`, `RemoveWaiterImpl` and
`RestorePriority`.

In a state whose links fit (`LockState.Ok`) the priority a thread computes from the first
waiters of the locks it holds is what it inherits from all threads waiting for it, and
the loop of `RestorePriority`, which takes a thread out of the lock it waits for and puts
it back, is the walk that settles inherited values: it changes priorities and nothing
else (`restorePriority_spec`, `restore_spec`).  It ends whatever the priorities are, and also where
threads wait for each other (`restorePriority_ends`).
-/

import NXEmu.Lib.Inheritance
import NXEmu.Kernel.ThreadLockLinks
import Mathlib.Data.Prod.Lex

namespace NXEmu
namespace Kernel

open Function List

/-- A thread less what locks held and waited for make of it. -/
def KThread.stable (x : KThread) : KThread :=
  { x with priority := 0, waitingLockInfo := none, heldLockInfoList := [], numKernelWaiters := 0 }

namespace LockState

open Exec

variable {ι : Type} {s s' s'' : LockState ι} {t u o : ι} {i : ℕ}

/-- What ties the threads and the lock infos of a state together. -/
def links (s : LockState ι) : Links ι where
  waiting t := (s.thread t).waitingLockInfo
  held t := (s.thread t).heldLockInfoList
  kernelWaiters t := (s.thread t).numKernelWaiters
  key t := ((s.thread t).addressKey, (s.thread t).isKernelAddressKey)
  priority t := (s.thread t).priority
  info := s.info
  numInfos := s.numInfos

theorem getLockOwner_eq : s.getLockOwner t = s.links.owner t := rfl

/-- The order of a tree of a condition variable. -/
def condvarRank (s : LockState ι) (t : ι) : ℕ ×ₗ ℤ :=
  toLex ((s.thread t).condvarKey, (s.thread t).priority)

theorem condvarLess_iff (s : LockState ι) (a b : ι) :
    s.condvarLess a b ↔ s.condvarRank a < s.condvarRank b := by
  rw [condvarRank, condvarRank, Prod.Lex.toLex_lt_toLex]
  rfl

/-- The trees of the condition variables hold the threads that wait for them, in order; such
a thread waits for no lock. -/
structure CondvarOk (s : LockState ι) : Prop where
  mem : ∀ c t, t ∈ s.tree c ↔ (s.thread t).condvarTree = some c
  nodup : ∀ c, (s.tree c).Nodup
  sorted : ∀ c, (s.tree c).Pairwise fun a b => s.condvarRank a ≤ s.condvarRank b
  idle : ∀ t, (s.thread t).condvarTree ≠ none → (s.thread t).waitingLockInfo = none

/-- Threads, lock infos and condition variables fit. -/
structure Ok (s : LockState ι) : Prop where
  links : s.links.Ok
  condvar : s.CondvarOk

/-! ### What stays -/

/-- The threads are the same but for their priorities and what ties them to locks. -/
def Keeps (s s' : LockState ι) : Prop := ∀ t, (s'.thread t).stable = (s.thread t).stable

theorem Keeps.refl (s : LockState ι) : Keeps s s := fun _ => rfl

theorem Keeps.trans (h : Keeps s s') (h' : Keeps s' s'') : Keeps s s'' :=
  fun t => (h' t).trans (h t)

theorem Keeps.basePriority (h : Keeps s s') (t : ι) :
    (s'.thread t).basePriority = (s.thread t).basePriority :=
  (congrArg KThread.basePriority (h t) :)

theorem Keeps.condvarTree (h : Keeps s s') (t : ι) :
    (s'.thread t).condvarTree = (s.thread t).condvarTree :=
  (congrArg KThread.condvarTree (h t) :)

theorem Keeps.condvarKey (h : Keeps s s') (t : ι) :
    (s'.thread t).condvarKey = (s.thread t).condvarKey :=
  (congrArg KThread.condvarKey (h t) :)

section Modify

variable [DecidableEq ι] {f : KThread → KThread} {g : LockInfo ι → LockInfo ι}

theorem thread_modify : (s.modify t f).thread u = if u = t then f (s.thread t) else s.thread u :=
  update_apply ..

theorem keeps_modify (h : (f (s.thread t)).stable = (s.thread t).stable) :
    Keeps s (s.modify t f) := fun u => by
  rw [thread_modify]
  split
  case isTrue hu => rw [h, hu]
  case isFalse => rfl

theorem links_modify : (s.modify t f).links = { s.links with
    waiting := update s.links.waiting t (f (s.thread t)).waitingLockInfo
    held := update s.links.held t (f (s.thread t)).heldLockInfoList
    kernelWaiters := update s.links.kernelWaiters t (f (s.thread t)).numKernelWaiters
    key := update s.links.key t
      ((f (s.thread t)).addressKey, (f (s.thread t)).isKernelAddressKey)
    priority := update s.links.priority t (f (s.thread t)).priority } := by
  simp only [links, Links.mk.injEq]
  refine ⟨?_, ?_, ?_, ?_, ?_, rfl, rfl⟩ <;> funext u <;> rw [thread_modify, update_apply] <;> split <;> rfl

theorem links_setWaiting {w : Option ℕ} :
    (s.modify t fun x => { x with waitingLockInfo := w }).links =
      { s.links with waiting := update s.links.waiting t w } := by
  rw [links_modify]
  simp only [links, update_eq_self_iff, Links.mk.injEq, and_self]

theorem links_setHeld {h : List ℕ → List ℕ} :
    (s.modify t fun x => { x with heldLockInfoList := h x.heldLockInfoList }).links =
      { s.links with held := update s.links.held t (h (s.links.held t)) } := by
  rw [links_modify]
  simp only [links, update_eq_self_iff, Links.mk.injEq, and_self]

theorem links_setCount {n : ℤ → ℤ} :
    (s.modify t fun x => { x with numKernelWaiters := n x.numKernelWaiters }).links =
      { s.links with kernelWaiters := update s.links.kernelWaiters t (n (s.links.kernelWaiters t)) } := by
  rw [links_modify]
  simp only [links, update_eq_self_iff, Links.mk.injEq, and_self]

theorem links_setPriority {p : ℤ} :
    (s.modify t fun x => { x with priority := p }).links =
      { s.links with priority := update s.links.priority t p } := by
  rw [links_modify]
  simp only [links, update_eq_self_iff, Links.mk.injEq, and_self]

omit [DecidableEq ι] in
theorem links_modifyInfo :
    (s.modifyInfo i g).links = { s.links with info := update s.links.info i (g (s.info i)) } := rfl

end Modify

/-- Trees of condition variables stay in order when what they depend on stays. -/
theorem CondvarOk.congr (h : s.CondvarOk) (hk : Keeps s s') (ht : s'.tree = s.tree)
    (hp : s'.links.priority = s.links.priority)
    (hw : ∀ t, (s.thread t).condvarTree ≠ none → (s'.thread t).waitingLockInfo = none) :
    s'.CondvarOk := by
  have hrank : s'.condvarRank = s.condvarRank := funext fun t => by
    rw [condvarRank, condvarRank, hk.condvarKey]
    exact congrArg (fun p => toLex ((s.thread t).condvarKey, p)) (congrFun hp t)
  refine ⟨fun c t => ?_, fun c => ?_, fun c => ?_, fun t hc => ?_⟩
  · rw [ht, hk.condvarTree]
    exact h.mem c t
  · rw [ht]
    exact h.nodup c
  · rw [ht, hrank]
    exact h.sorted c
  · rw [hk.condvarTree] at hc
    exact hw t hc

variable [DecidableEq ι]

/-! ### `RemoveWaiterImpl` and `AddWaiterImpl` -/

theorem treeErase_eq {l : List ι} (h : t ∈ l) : treeErase l t = .ret (l.erase t) true := if_pos h

/-- `LockWithPriorityInheritanceInfo::RemoveWaiter`. -/
theorem infoRemoveWaiter_eq (h : t ∈ (s.info i).tree) (hc : (s.info i).waiterCount = (s.info i).tree.length) :
    s.infoRemoveWaiter i t = .ret (decide ((s.info i).tree.erase t = []),
      (s.modifyInfo i fun l => l.remove t).modify t fun t => { t with waitingLockInfo := none })
      true := by
  have hlen := length_erase_of_mem h
  have hpos := length_pos_of_mem h
  have hzero : ((s.info i).waiterCount - 1 = 0) ↔ (s.info i).tree.erase t = [] := by
    rw [← length_eq_zero_iff, hc, hlen]
    omega
  rw [infoRemoveWaiter, treeErase_eq h, ret_true_bind, pure_eq]
  simp only [modify, modifyInfo, update_self, hzero]
  rfl

/-- The part of `RemoveWaiterImpl` that counts kernel waiters. -/
theorem countDown_eq (h : (s.thread t).isKernelAddressKey = true → 0 < (s.thread o).numKernelWaiters) :
    (if (s.thread t).isKernelAddressKey then do
        assert (0 < (s.thread o).numKernelWaiters)
        return s.modify o fun t => { t with numKernelWaiters := t.numKernelWaiters - 1 }
      else pure s) = ret (s.modify o fun x => { x with numKernelWaiters :=
        x.numKernelWaiters - if (s.thread t).isKernelAddressKey then 1 else 0 }) true := by
  by_cases hk : (s.thread t).isKernelAddressKey = true
  · rw [if_pos hk, assert, decide_eq_true (h hk), ret_true_bind, pure_eq]
    simp only [hk, if_true]
  · rw [if_neg hk, pure_eq]
    simp only [hk, Bool.false_eq_true, if_false, Int.sub_zero, modify, update_eq_self]

/-- **`RemoveWaiterImpl`.** -/
theorem removeWaiterImpl_eq (h : s.Ok) (hi : i ∈ s.links.held o) (ht : t ∈ (s.info i).tree) :
    ∃ s', s.removeWaiterImpl o t = .ret s' true ∧ s'.links = s.links.detach t i o ∧
      s'.tree = s.tree ∧ Keeps s s' := by
  have hwaiting : (s.thread t).waitingLockInfo = some i := (h.links.waiting t i).2 ht
  have howner : (s.info i).owner = some o := ((h.links.held o i).1 hi).1
  have hkey : (s.thread t).isKernelAddressKey = (s.info i).isKernelAddressKey :=
    congrArg Prod.snd ((h.links.info i).keys t ht)
  have hpos : (s.thread t).isKernelAddressKey = true → 0 < (s.thread o).numKernelWaiters := by
    intro hk
    have hle := h.links.kernelWaiters_le hi
    rw [hkey] at hk
    have hlen := length_pos_of_mem ht
    change (s.info i).kernelWaiters ≤ (s.thread o).numKernelWaiters at hle
    rw [LockInfo.kernelWaiters, if_pos hk] at hle
    omega
  rw [removeWaiterImpl, countDown_eq hpos, ret_true_bind]
  set s₁ := s.modify o fun x => { x with numKernelWaiters :=
    x.numKernelWaiters - if (s.thread t).isKernelAddressKey then 1 else 0 } with hs₁
  have hwaiting₁ : (s₁.thread t).waitingLockInfo = some i := by
    rw [hs₁, thread_modify]
    split
    case isTrue hto => rw [← hwaiting, hto]
    case isFalse => exact hwaiting
  have hinfo₁ : s₁.info = s.info := rfl
  rw [hwaiting₁]
  dsimp only
  rw [hinfo₁, assert, decide_eq_true howner, ret_true_bind,
    infoRemoveWaiter_eq (s := s₁) ht (h.links.info i).count, ret_true_bind, pure_eq]
  dsimp only
  set s₂ := (s₁.modifyInfo i fun l => l.remove t).modify t fun t =>
    { t with waitingLockInfo := none } with hs₂
  have heq : (if decide ((s.info i).tree.erase t = []) = true then
      s₂.modify o fun t => { t with heldLockInfoList := t.heldLockInfoList.erase i } else s₂) =
      s₂.modify o fun x => { x with
        heldLockInfoList := if (s.info i).tree.erase t = [] then x.heldLockInfoList.erase i
          else x.heldLockInfoList } := by
    by_cases he : (s.info i).tree.erase t = []
    · simp only [he, decide_true, if_true]
    · simp only [he, decide_false, if_false, Bool.false_eq_true, modify, update_eq_self]
  refine ⟨_, rfl, ?_, ?_, ?_⟩
  · rw [hinfo₁, heq, links_setHeld (h := fun l => if (s.info i).tree.erase t = [] then l.erase i else l), hs₂,
      links_setWaiting, links_modifyInfo, hs₁,
      links_setCount (n := fun n => n - if (s.thread t).isKernelAddressKey then 1 else 0), hkey]
    rfl
  · split <;> rfl
  · rw [hinfo₁, heq]
    exact ((keeps_modify rfl).trans (show Keeps s₁ s₂ from keeps_modify (s := s₁.modifyInfo i _)
      rfl)).trans (keeps_modify rfl)

/-- **`RemoveWaiterImpl`** keeps what fits, and the thread waits for no one. -/
theorem removeWaiterImpl_spec (h : s.Ok) (ho : s.links.owner t = some o) :
    ∃ s', s.removeWaiterImpl o t = .ret s' true ∧ s'.Ok ∧ s'.links.owner = update s.links.owner t none ∧
      s'.links.priority = s.links.priority ∧ (s'.thread t).waitingLockInfo = none ∧
      Keeps s s' ∧ (s.links.Unique → s'.links.Unique) := by
  obtain ⟨i, hi, ht⟩ := h.links.owner_eq_some.1 ho
  obtain ⟨s', heq, hlinks, htree, hkeeps⟩ := removeWaiterImpl_eq h hi ht
  have hpriority : s'.links.priority = s.links.priority := by
    rw [hlinks]
    rfl
  have hwaiting : ∀ u, (s'.thread u).waitingLockInfo = update s.links.waiting t none u := fun u => by
    change s'.links.waiting u = _
    rw [hlinks]
    rfl
  refine ⟨s', heq, ⟨?_, h.condvar.congr hkeeps htree hpriority fun u hu => ?_⟩, ?_, hpriority, ?_,
    hkeeps, fun hu => ?_⟩
  · rw [hlinks]
    exact h.links.detach ht hi
  · rw [hwaiting]
    by_cases hut : u = t
    · rw [hut, update_self]
    · rw [update_of_ne hut]
      exact h.condvar.idle u hu
  · rw [hlinks]
    exact Links.owner_detach
  · rw [hwaiting, update_self]
  · rw [hlinks]
    exact hu.detach h.links hi

/-- The part of `AddWaiterImpl` that counts kernel waiters. -/
theorem countUp_eq (h : 0 ≤ (s.thread o).numKernelWaiters) :
    (if (s.thread t).isKernelAddressKey then do
        assert (0 ≤ (s.thread o).numKernelWaiters)
        return s.modify o fun t => { t with numKernelWaiters := t.numKernelWaiters + 1 }
      else pure s) = ret (s.modify o fun x => { x with numKernelWaiters :=
        x.numKernelWaiters + if (s.thread t).isKernelAddressKey then 1 else 0 }) true := by
  by_cases hk : (s.thread t).isKernelAddressKey = true
  · rw [if_pos hk, assert, decide_eq_true h, ret_true_bind, pure_eq]
    simp only [hk, if_true]
  · rw [if_neg hk, pure_eq]
    simp only [hk, Bool.false_eq_true, if_false, Int.add_zero, modify, update_eq_self]

theorem links_infoAddWaiter : (s.infoAddWaiter i t).links = { s.links with
    waiting := update s.links.waiting t (some i)
    info := update s.links.info i ((s.info i).add s.links.priority t) } := by
  rw [infoAddWaiter, links_setWaiting]
  rfl

/-- A new info that a thread holds. -/
theorem links_newInfo {key : ℕ} {k : Bool} :
    ((s.createInfo key k).2.addHeldLock o s.numInfos).links = { s.links with
      held := update s.links.held o (s.numInfos :: s.links.held o)
      info := update s.links.info s.numInfos ⟨[], key, some o, 0, k⟩
      numInfos := s.numInfos + 1 } := by
  rw [addHeldLock, links_setHeld (h := fun l => s.numInfos :: l), links_modifyInfo]
  simp only [createInfo, links, update_self, update_idem]

/-- **`AddWaiterImpl`** keeps what fits, and the thread waits for the owner. -/
theorem addWaiterImpl_spec (h : s.Ok) (hw : (s.thread t).waitingLockInfo = none)
    (hc : (s.thread t).condvarTree = none) :
    ∃ s', s.addWaiterImpl o t = .ret s' true ∧ s'.Ok ∧ s'.links.owner = update s.links.owner t (some o) ∧
      s'.links.priority = s.links.priority ∧ Keeps s s' ∧
      (s.links.Unique → s'.links.Unique) := by
  have hnum : 0 ≤ (s.thread o).numKernelWaiters := h.links.kernelWaiters_total o
  rw [addWaiterImpl, assert, decide_eq_true hc, ret_true_bind]
  dsimp only
  rw [countUp_eq hnum, ret_true_bind]
  set s₁ := s.modify o fun x => { x with numKernelWaiters :=
    x.numKernelWaiters + if (s.thread t).isKernelAddressKey then 1 else 0 } with hs₁
  have hkeeps₁ : Keeps s s₁ := keeps_modify rfl
  have hlinks₁ : s₁.links = { s.links with
      kernelWaiters := update s.links.kernelWaiters o (s.links.kernelWaiters o +
        if (s.thread t).isKernelAddressKey then 1 else 0) } :=
    links_setCount (n := fun n => n + if (s.thread t).isKernelAddressKey then 1 else 0)
  have hfind : s₁.findHeldLock o (s.thread t).addressKey (s.thread t).isKernelAddressKey =
      (s.links.held o).find? fun i => (s.info i).addressKey = (s.thread t).addressKey ∧
        (s.info i).isKernelAddressKey = (s.thread t).isKernelAddressKey := by
    rw [findHeldLock, show (s₁.thread o).heldLockInfoList = s.links.held o from
      congrFun (congrArg Links.held hlinks₁) o]
    rfl
  rw [hfind]
  -- the result once the info is known, and what its links are
  suffices hjoin : ∀ (i : ℕ) (s₂ : LockState ι) (l : LockInfo ι), Keeps s s₂ → s₂.tree = s.tree →
      l.owner = some o → s.links.key t = l.key → ((s.info i).tree ≠ [] → l = s.info i) →
      ((s.info i).tree = [] → i = s.numInfos ∧ l.tree = [] ∧ l.waiterCount = 0) →
      ((s.info i).tree = [] → ∀ j ∈ s.links.held o, (s.info j).key ≠ l.key) →
      (s₂.infoAddWaiter i t).links = s.links.attach t i o l →
      (s₂.infoAddWaiter i t).Ok ∧ (s₂.infoAddWaiter i t).links.owner = update s.links.owner t (some o) ∧
        (s₂.infoAddWaiter i t).links.priority = s.links.priority ∧
        Keeps s (s₂.infoAddWaiter i t) ∧
        (s.links.Unique → (s₂.infoAddWaiter i t).links.Unique) by
    cases hf : (s.links.held o).find? fun i => (s.info i).addressKey = (s.thread t).addressKey ∧
        (s.info i).isKernelAddressKey = (s.thread t).isKernelAddressKey with
    | some i =>
      have hi := mem_of_find?_eq_some hf
      have hkey := find?_some hf
      rw [decide_eq_true_eq] at hkey
      have hheld := (h.links.held o i).1 hi
      have hlt : (s.info i).tree ≠ [] := hheld.2
      refine ⟨_, rfl, hjoin i s₁ (s.info i) hkeeps₁ rfl hheld.1 (Prod.ext hkey.1.symm hkey.2.symm)
        (fun _ => rfl) (fun he => absurd he hlt) (fun he => absurd he hlt) ?_⟩
      rw [links_infoAddWaiter, hlinks₁, Links.attach, if_neg (show ¬ (s.links.info i).tree = [] from hlt),
        if_neg (show ¬ (s.links.info i).tree = [] from hlt), update_eq_self, ← hkey.2]
      rfl
    | none =>
      rw [find?_eq_none] at hf
      have hnil : (s.info s.numInfos).tree = [] := h.links.fresh s.numInfos (Nat.le_refl _)
      set l : LockInfo ι :=
        ⟨[], (s.thread t).addressKey, some o, 0, (s.thread t).isKernelAddressKey⟩ with hl
      set s₂ := (s₁.createInfo (s.thread t).addressKey (s.thread t).isKernelAddressKey).2.addHeldLock
        o s.numInfos with hs₂
      have hinfo₂ : s₂.info s.numInfos = l := congrFun (congrArg Links.info links_newInfo)
        s.numInfos |>.trans (update_self ..)
      refine ⟨s₂.infoAddWaiter s.numInfos t, rfl, hjoin s.numInfos s₂ l ?_ rfl rfl rfl
        (fun hne => absurd hnil hne) (fun _ => ⟨rfl, rfl, rfl⟩) (fun _ j hj hk => ?_) ?_⟩
      · exact hkeeps₁.trans (keeps_modify
          (s := (s₁.createInfo (s.thread t).addressKey _).2.modifyInfo s.numInfos _) rfl)
      · refine hf j hj ?_
        rw [decide_eq_true_eq]
        exact ⟨congrArg Prod.fst hk, congrArg Prod.snd hk⟩
      · rw [links_infoAddWaiter, hinfo₂, hs₂, show s.numInfos = s₁.numInfos from rfl, links_newInfo,
          hlinks₁, Links.attach]
        dsimp only
        rw [if_pos (show (s.links.info s₁.numInfos).tree = [] from hnil),
          if_pos (show (s.links.info s₁.numInfos).tree = [] from hnil), update_idem]
  intro i s₂ l hkeeps₂ htree₂ howner hkey hold hnew hfree hlinks
  have hkeeps : Keeps s (s₂.infoAddWaiter i t) :=
    hkeeps₂.trans (keeps_modify (s := s₂.modifyInfo i _) rfl)
  have hpriority : (s₂.infoAddWaiter i t).links.priority = s.links.priority := by
    rw [hlinks]
    rfl
  refine ⟨⟨?_, h.condvar.congr hkeeps htree₂ hpriority fun u hu => ?_⟩, ?_, hpriority, hkeeps, fun hu => ?_⟩
  · rw [hlinks]
    exact h.links.attach hw howner hkey hold hnew
  · change (s₂.infoAddWaiter i t).links.waiting u = none
    rw [hlinks]
    have hut : u ≠ t := by
      rintro rfl
      exact hu hc
    exact (update_of_ne hut ..).trans (h.condvar.idle u hu)
  · rw [hlinks]
    exact Links.owner_attach h.links howner hold
  · rw [hlinks]
    exact hu.attach h.links howner hold hfree

/-! ### `RestorePriority` -/

/-- **The change of a priority** of a thread that waits for no lock. -/
theorem setPriority_spec (h : s.Ok) (hw : (s.thread t).waitingLockInfo = none) (p : ℤ) :
    ∃ s', s.setPriority t p = .ret s' true ∧ s'.Ok ∧
      s'.links = { s.links with priority := update s.links.priority t p } ∧
      Keeps s s' := by
  set s₁ := s.modify t fun x => { x with priority := p } with hs₁
  have hlinks : s₁.links = { s.links with priority := update s.links.priority t p } :=
    links_setPriority
  have hkeeps : Keeps s s₁ := keeps_modify rfl
  have hok : s₁.links.Ok := by
    rw [hlinks]
    exact h.links.setPriority hw p
  have hidle : ∀ u, (s₁.thread u).condvarTree ≠ none → (s₁.thread u).waitingLockInfo = none := by
    intro u hu
    rw [hkeeps.condvarTree] at hu
    change s₁.links.waiting u = none
    rw [hlinks]
    exact h.condvar.idle u hu
  -- the order of the other threads of a tree is the same
  have hrank : ∀ u, u ≠ t → s₁.condvarRank u = s.condvarRank u := fun u hu => by
    rw [condvarRank, condvarRank, hs₁, thread_modify, if_neg hu]
  have hsorted : ∀ l : List ι, t ∉ l → (l.Pairwise fun a b => s.condvarRank a ≤ s.condvarRank b) →
      l.Pairwise fun a b => s₁.condvarRank a ≤ s₁.condvarRank b := fun l hl hp =>
    hp.imp_of_mem fun {a b} ha hb hab => by
      rwa [hrank a fun hat => hl (hat ▸ ha), hrank b fun hbt => hl (hbt ▸ hb)]
  have hmem := h.condvar.mem
  rw [LockState.setPriority]
  cases hc : (s.thread t).condvarTree with
  | none =>
    have hnot : ∀ c, t ∉ s.tree c := fun c hm => by
      rw [hmem, hc] at hm
      cases hm
    refine ⟨s₁, rfl, ⟨hok, fun c u => ?_, h.condvar.nodup, fun c => ?_, hidle⟩, hlinks, hkeeps⟩
    · rw [hkeeps.condvarTree]
      exact hmem c u
    · exact hsorted _ (hnot c) (h.condvar.sorted c)
  | some c =>
    have ht : t ∈ s.tree c := (hmem c t).2 hc
    have hnot : t ∉ (s.tree c).erase t := (h.condvar.nodup c).not_mem_erase
    have hins : ∀ u, u ∈ ((s.tree c).erase t).orderedInsert s₁.condvarLess t ↔ u ∈ s.tree c :=
      fun u => by
        rw [mem_orderedInsert]
        by_cases hut : u = t
        · simp only [hut, true_or, ht]
        · simp only [hut, false_or, mem_erase_of_ne hut]
    dsimp only
    rw [treeErase_eq ht, ret_true_bind, pure_eq]
    refine ⟨_, rfl, ⟨hok, fun c' u => ?_, fun c' => ?_, fun c' => ?_, hidle⟩, hlinks, hkeeps⟩
    · change u ∈ update s.tree c _ c' ↔ (s₁.thread u).condvarTree = some c'
      rw [hkeeps.condvarTree, ← hmem]
      by_cases hcc : c' = c
      · rw [hcc, update_self]
        exact hins u
      · rw [update_of_ne hcc]
    · change (update s.tree c _ c').Nodup
      by_cases hcc : c' = c
      · rw [hcc, update_self]
        exact (perm_orderedInsert _ t _).nodup_iff.2
          (nodup_cons.2 ⟨hnot, (h.condvar.nodup c).erase t⟩)
      · rw [update_of_ne hcc]
        exact h.condvar.nodup c'
    · change (update s.tree c _ c').Pairwise fun a b => s₁.condvarRank a ≤ s₁.condvarRank b
      by_cases hcc : c' = c
      · rw [hcc, update_self]
        exact Links.pairwise_orderedInsert s₁.condvarLess_iff
          (hsorted _ hnot ((h.condvar.sorted c).sublist erase_sublist))
      · rw [update_of_ne hcc]
        refine hsorted _ (fun hm => hcc ?_) (h.condvar.sorted c')
        rw [hmem, hc, Option.some.injEq] at hm
        exact hm.symm

/-- The base priorities. -/
def base (s : LockState ι) (t : ι) : ℤ := (s.thread t).basePriority

omit [DecidableEq ι] in
theorem Keeps.base (h : Keeps s s') : s'.base = s.base := funext h.basePriority

/-- A round of the loop that computes the inherited priority. -/
def inheritedStep (s : LockState ι) (priority : ℤ) (i : ℕ) : Exec ℤ :=
  match (s.info i).tree with
  | [] => Exec.fault
  | waiter :: _ => return min priority (s.thread waiter).priority

variable [Fintype ι]

/-- **The priority computed** is what a thread inherits from those waiting for it: the first
waiter of an info stands for all of them. -/
theorem inheritedPriority_eq (h : s.Ok) :
    s.inheritedPriority t = .ret (inherited s.links.owner s.base s.links.priority t) true := by
  have hfold : ∀ (l : List ℕ) (p : ℤ), (∀ i ∈ l, (s.info i).tree ≠ []) →
      ∃ r, l.foldlM s.inheritedStep p = ret r true ∧
        ∀ x, x ≤ r ↔ x ≤ p ∧ ∀ i ∈ l, ∀ w ∈ (s.info i).tree, x ≤ s.links.priority w := by
    intro l
    induction l with
    | nil =>
      intro p _
      exact ⟨p, rfl, fun x => by simp⟩
    | cons i l ih =>
      intro p hne
      cases hi : (s.info i).tree with
      | nil => exact absurd hi (hne i mem_cons_self)
      | cons w ws =>
        have hsorted := (h.links.info i).sorted
        change (s.info i).tree.Pairwise _ at hsorted
        rw [hi] at hsorted
        obtain ⟨r, hr, hle⟩ := ih (min p (s.thread w).priority)
          fun j hj => hne j (mem_cons_of_mem i hj)
        refine ⟨r, ?_, fun x => ?_⟩
        · rw [foldlM_cons, inheritedStep, hi]
          dsimp only
          rw [pure_eq, ret_true_bind]
          exact hr
        · rw [hle, le_min_iff, forall_mem_cons, hi, and_assoc]
          refine and_congr_right fun _ => and_congr_left fun _ => ⟨fun hx w' hw' => ?_, fun hx =>
            hx w mem_cons_self⟩
          rcases mem_cons.1 hw' with rfl | hw'
          · exact hx
          · exact hx.trans ((pairwise_cons.1 hsorted).1 w' hw')
  obtain ⟨r, hr, hle⟩ := hfold (s.links.held t) (s.thread t).basePriority
    fun i hi => ((h.links.held t i).1 hi).2
  rw [inheritedPriority]
  refine hr.trans (congrArg (fun r => ret r true) (eq_of_forall_le_iff fun x => ?_))
  rw [hle, le_inherited]
  refine and_congr_right fun _ => ⟨fun hx w hw => ?_, fun hx i hi w hw => ?_⟩
  · obtain ⟨i, hi, hwi⟩ := h.links.owner_eq_some.1 hw
    exact hx i hi w hwi
  · exact hx w (h.links.owner_eq_some.2 ⟨i, hi, hw⟩)

/-- **`RestorePriority` is the walk that settles inherited priorities**: it keeps all that
fits and changes nothing but priorities. -/
theorem restorePriority_spec {fuel : ℕ} {t : Option ι} {value : ι → ℤ} (h : s.Ok)
    (hsettle : settle s.links.owner s.base fuel s.links.priority t = some value) :
    ∃ s', restorePriority fuel s t = .ret s' true ∧ s'.Ok ∧ s'.links.priority = value ∧
      s'.links.owner = s.links.owner ∧ Keeps s s' ∧ (s.links.Unique → s'.links.Unique) := by
  induction fuel generalizing s t with
  | zero =>
    cases t with
    | none => exact ⟨s, rfl, h, Option.some.inj hsettle, rfl, .refl s, id⟩
    | some t => cases hsettle
  | succ fuel ih =>
    cases t with
    | none => exact ⟨s, rfl, h, Option.some.inj hsettle, rfl, .refl s, id⟩
    | some t =>
      rw [settle] at hsettle
      rw [restorePriority, inheritedPriority_eq h, ret_true_bind,
        show (s.thread t).priority = s.links.priority t from rfl]
      by_cases hsame : inherited s.links.owner s.base s.links.priority t = s.links.priority t
      · rw [if_pos hsame] at hsettle ⊢
        exact ⟨s, rfl, h, Option.some.inj hsettle, rfl, .refl s, id⟩
      rw [if_neg hsame] at hsettle ⊢
      dsimp only
      set p := inherited s.links.owner s.base s.links.priority t
      rw [getLockOwner_eq]
      cases ho : s.links.owner t with
      | none =>
        have hw := h.links.owner_eq_none.1 ho
        obtain ⟨s₁, heq₁, h₁, hlinks₁, hkeeps₁⟩ := setPriority_spec h hw p
        dsimp only
        rw [pure_eq, ret_true_bind, heq₁, ret_true_bind, pure_eq, ret_true_bind]
        rw [ho] at hsettle
        have hvalue : update s.links.priority t p = value := by
          cases fuel <;> exact Option.some.inj hsettle
        refine ⟨s₁, by cases fuel <;> rfl, h₁, ?_, ?_, hkeeps₁, fun hu => ?_⟩
        · rw [hlinks₁]
          exact hvalue
        · rw [hlinks₁]
          rfl
        · rw [hlinks₁]
          exact hu
      | some o =>
        obtain ⟨s₁, heq₁, h₁, howner₁, hpriority₁, hw₁, hkeeps₁, hunique₁⟩ :=
          removeWaiterImpl_spec h ho
        obtain ⟨s₂, heq₂, h₂, hlinks₂, hkeeps₂⟩ := setPriority_spec h₁ hw₁ p
        have hw₂ : (s₂.thread t).waitingLockInfo = none := by
          change s₂.links.waiting t = none
          rw [hlinks₂]
          exact hw₁
        have hc₂ : (s₂.thread t).condvarTree = none := by
          rw [(hkeeps₁.trans hkeeps₂).condvarTree]
          by_contra hc
          rw [h.links.owner_eq_none.2 (h.condvar.idle t hc)] at ho
          cases ho
        obtain ⟨s₃, heq₃, h₃, howner₃, hpriority₃, hkeeps₃, hunique₃⟩ :=
          addWaiterImpl_spec (o := o) h₂ hw₂ hc₂
        have hunique₂ : s₁.links.Unique → s₂.links.Unique := fun hu => by
          rw [hlinks₂]
          exact hu
        have hkeeps := (hkeeps₁.trans hkeeps₂).trans hkeeps₃
        have howner : s₃.links.owner = s.links.owner := by
          rw [howner₃, hlinks₂]
          change update s₁.links.owner t (some o) = s.links.owner
          rw [howner₁, update_idem, ← ho, update_eq_self]
        have hpriority : s₃.links.priority = update s.links.priority t p := by
          rw [hpriority₃, hlinks₂, hpriority₁]
        dsimp only
        rw [heq₁, ret_true_bind, heq₂, ret_true_bind, heq₃, ret_true_bind]
        rw [ho, ← howner, ← hpriority, ← hkeeps.base] at hsettle
        obtain ⟨s', heq, h', hvalue, howner', hkeeps', hunique'⟩ := ih h₃ hsettle
        exact ⟨s', heq, h', hvalue, howner'.trans howner, hkeeps.trans hkeeps',
          fun hu => hunique' (hunique₃ (hunique₂ (hunique₁ hu)))⟩

/-- Every thread but `t` has the priority it inherits. -/
def Inherits (s : LockState ι) (t : Option ι) : Prop :=
  SettledBut s.links.owner s.base s.links.priority t

/-- The priority of the thread is the least of its base priority and those of the first waiters of the locks that
it holds. -/
def Obeys (s : LockState ι) (t : ι) : Prop := s.inheritedPriority t = .ret (s.thread t).priority true

instance (s : LockState ι) (t : ι) : Decidable (s.Obeys t) := inferInstanceAs (Decidable (_ = _))

theorem obeys_iff (h : s.Ok) :
    s.Obeys t ↔ inherited s.links.owner s.base s.links.priority t = s.links.priority t := by
  rw [Obeys, inheritedPriority_eq h, ret.injEq]
  exact and_iff_left rfl

/-- **`RestorePriority` ends from every state**, also with threads that wait for each other.  When no thread but the
first one had a priority that is not the one that it inherits, none has afterwards. -/
theorem restorePriority_ends {fuel : ℕ} (h : s.Ok) (t : ι) (hfuel : 2 * Fintype.card ι + 1 ≤ fuel) :
    ∃ s', restorePriority fuel s (some t) = .ret s' true ∧ s'.Ok ∧ s'.links.owner = s.links.owner ∧ Keeps s s' ∧
      ((∀ u, u ≠ t → s.Obeys u) → ∀ u, s'.Obeys u) := by
  obtain ⟨value, hsettle⟩ := settle_ends s.links.owner s.base s.links.priority t hfuel
  obtain ⟨s', heq, h', hpriority, howner, hkeeps, -⟩ := restorePriority_spec h hsettle
  refine ⟨s', heq, h', howner, hkeeps, fun hothers u => ?_⟩
  have hbut : s.Inherits (some t) := fun u hu => (obeys_iff h).1 (hothers u fun hut => hu (congrArg some hut))
  obtain ⟨value', hsettle', hvalue'⟩ := settle_spec hbut
  have hsame : value' = value := by
    have hmore := settle_mono (show Fintype.card ι + 1 ≤ fuel by omega) hsettle'
    exact Option.some.inj (hmore.symm.trans hsettle)
  rw [obeys_iff h', howner, hkeeps.base, hpriority, ← hsame]
  exact hvalue' u (Option.some_ne_none u)

/-! ### A deadlock -/

/-- Two threads that wait for a lock of the other one, of which one has just got the base priority 5. -/
def deadlocked : LockState Bool where
  thread t := {
    basePriority := if t then 20 else 5
    priority := 10
    addressKey := if t then 2 else 1
    waitingLockInfo := some (if t then 1 else 0)
    heldLockInfoList := [if t then 0 else 1] }
  info
    | 0 => { tree := [false], addressKey := 1, owner := some true, waiterCount := 1 }
    | 1 => { tree := [true], addressKey := 2, owner := some false, waiterCount := 1 }
    | _ => {}
  numInfos := 2

theorem deadlocked_ok : deadlocked.Ok where
  links := {
    waiting := fun t i => by
      rcases i with _ | _ | i <;> cases t <;> simp [deadlocked, links]
    held := fun o i => by
      rcases i with _ | _ | i <;> cases o <;> simp [deadlocked, links]
    heldNodup := fun o => nodup_singleton _
    fresh := fun i hi => by
      obtain ⟨i, rfl⟩ := Nat.exists_eq_add_of_le' hi
      rfl
    info := fun i => by
      rcases i with _ | _ | i
      · exact ⟨fun _ => ⟨true, rfl⟩, by decide, pairwise_singleton _ _, rfl, by decide⟩
      · exact ⟨fun _ => ⟨false, rfl⟩, by decide, pairwise_singleton _ _, rfl, by decide⟩
      · exact ⟨fun hne => absurd rfl hne, nodup_nil, List.Pairwise.nil, rfl, fun w hw => by cases hw⟩
    kernel := fun o => by cases o <;> rfl }
  condvar := {
    mem := fun c t => by simp [deadlocked]
    nodup := fun _ => nodup_nil
    sorted := fun _ => List.Pairwise.nil
    idle := fun t ht => absurd rfl ht }

/-- Both threads of the deadlock get the priority. -/
theorem restorePriority_ends_deadlocked : ¬deadlocked.Obeys false ∧
    ∃ s', restorePriority 5 deadlocked (some false) = .ret s' true ∧ ∀ u, s'.Obeys u := by
  obtain ⟨s', hrun, -, -, -, hobeys⟩ := restorePriority_ends deadlocked_ok false (show 2 * 2 + 1 ≤ 5 by decide)
  exact ⟨by decide, s', hrun, hobeys (by decide)⟩

end LockState
end Kernel
end NXEmu
