/-
# The address arbiter

`k_address_arbiter.{h,cpp}`: threads wait for a word of memory to be signalled.  They are in a tree that is
sorted by address and priority, in which a thread is inserted after those that are equal to it
(`KThread::ConditionVariableComparator`, `RB_INSERT`).  A signal finds the first thread of the address, goes on
through the tree while the address is the same, and takes each thread that it wakes out of it.
`SignalAndModifyByWaitingCountIfEqual` first looks ahead to see whether there are more waiters than it is going
to wake, and writes a word that says so.

The tree is the list of its threads in their order.  What a thread's insertion was the how-manieth is kept with
it, which nothing in the code reads.  The words that other cores write between an exclusive load and its store
make the store fail; there are finitely many of them.  The counts of waiters do not overflow, there being
fewer than 2^31 threads.
-/

import NXEmu.Lib.Exec
import Mathlib.Data.List.Sort
import Mathlib.Data.Prod.Lex

namespace NXEmu
namespace Kernel

open Exec Function List

/-- The results of the arbiter. -/
inductive ArbiterResult where
  | success
  | invalidCurrentMemory
  | invalidState
  | timedOut
  | terminationRequested
deriving DecidableEq

/-- `ThreadState` -/
inductive ThreadState where
  | initialized
  | waiting
  | runnable
  | terminated
deriving DecidableEq

/-- What the arbiter uses of a `KThread`: `waitQueue` and `condvarTree` say whether the pointers are set. -/
structure ArbiterThread where
  state : ThreadState
  waitResult : ArbiterResult
  waitQueue : Bool
  condvarTree : Bool
  condvarKey : ℕ
  priority : ℕ
  arrival : ℕ
deriving DecidableEq

namespace ArbiterThread

/-- `ConditionVariableComparator::Compare` is negative. -/
def Less (rhs : ArbiterThread) (lhsKey : ℕ) (lhsPriority : ℤ) : Prop :=
  lhsKey < rhs.condvarKey ∨ lhsKey = rhs.condvarKey ∧ lhsPriority < rhs.priority

instance (rhs : ArbiterThread) (lhsKey : ℕ) (lhsPriority : ℤ) : Decidable (rhs.Less lhsKey lhsPriority) :=
  inferInstanceAs (Decidable (_ ∨ _))

/-- A thread that has been woken. -/
def woken (t : ArbiterThread) : ArbiterThread :=
  { t with state := .runnable, waitResult := .success, waitQueue := false, condvarTree := false }

end ArbiterThread

/-- `Svc::SignalType` -/
inductive SignalType where
  | signal
  | signalAndIncrementIfEqual
  | signalAndModifyByWaitingCountIfEqual
deriving DecidableEq

/-- The threads, `KAddressArbiter::m_tree` and the words of memory. -/
structure KAddressArbiter (ι : Type) where
  thread : ι → ArbiterThread
  tree : List ι
  memory : ℕ → BitVec 32
  arrivals : ℕ

namespace KAddressArbiter

variable {ι : Type} [DecidableEq ι]

/-- Write a thread. -/
def modify (s : KAddressArbiter ι) (t : ι) (f : ArbiterThread → ArbiterThread) : KAddressArbiter ι :=
  { s with thread := Function.update s.thread t (f (s.thread t)) }

theorem modify_thread (s : KAddressArbiter ι) (t u : ι) (f : ArbiterThread → ArbiterThread) :
    (s.modify t f).thread u = if u = t then f (s.thread t) else s.thread u := by
  show update s.thread t (f (s.thread t)) u = _
  by_cases hu : u = t
  · rw [hu, update_self, if_pos rfl]
  · rw [update_of_ne hu, if_neg hu]

theorem modify_thread_of_ne (s : KAddressArbiter ι) {t u : ι} (f : ArbiterThread → ArbiterThread) (hu : u ≠ t) :
    (s.modify t f).thread u = s.thread u := by
  rw [modify_thread, if_neg hu]

/-- `nfind_key({addr, -1})`, as the threads from the one that is found on. -/
def nfindKey (s : KAddressArbiter ι) (addr : ℕ) : List ι :=
  s.tree.dropWhile fun t => !decide ((s.thread t).Less addr (-1))

/-- `KThread::EndWait` with the handler of the arbiter's queue. -/
def endWait (s : KAddressArbiter ι) (t : ι) (waitResult : ArbiterResult) : Exec (KAddressArbiter ι) :=
  if (s.thread t).state = .waiting then
    if (s.thread t).waitQueue = false then do
      Exec.assert False
      return s
    else return s.modify t fun t => { t with state := .runnable, waitResult := waitResult, waitQueue := false }
  else return s

/-- What is done for a thread that is woken; the iterator goes on to the next one. -/
def wake (s : KAddressArbiter ι) (t : ι) : Exec (KAddressArbiter ι) := do
  let s ← s.endWait t .success
  Exec.assert ((s.thread t).condvarTree = true)
  let s := s.modify t fun t => { t with condvarTree := false }
  return { s with tree := s.tree.erase t }

/-- The loop of a signal from an iterator on, with the threads that it wakes. -/
def signalFrom (addr : ℕ) (count : ℤ) : List ι → ℤ → KAddressArbiter ι → Exec (List ι × KAddressArbiter ι)
  | [], _, s => return ([], s)
  | t :: rest, numWaiters, s =>
    if (count ≤ 0 ∨ numWaiters < count) ∧ (s.thread t).condvarKey = addr then do
      let s ← s.wake t
      let (woken, s) ← signalFrom addr count rest (numWaiters + 1) s
      return (t :: woken, s)
    else return ([], s)

/-- `UpdateIfEqual`: what it read, and the memory; `stores` are the words that others write before one of its
stores. -/
def updateIfEqual (addr : ℕ) (value newValue : BitVec 32) :
    List (BitVec 32) → (ℕ → BitVec 32) → BitVec 32 × (ℕ → BitVec 32)
  | [], memory =>
    if memory addr = value then (memory addr, Function.update memory addr newValue) else (memory addr, memory)
  | store :: stores, memory =>
    if memory addr = value then updateIfEqual addr value newValue stores (Function.update memory addr store)
    else (memory addr, memory)

/-- `Signal` -/
def signal (s : KAddressArbiter ι) (addr : ℕ) (count : ℤ) : Exec (ArbiterResult × List ι × KAddressArbiter ι) := do
  let (woken, s) ← signalFrom addr count (s.nfindKey addr) 0 s
  return (.success, woken, s)

/-- `SignalAndIncrementIfEqual`: the word is raised by one if it still has the value, and then threads are
woken. -/
def signalAndIncrementIfEqual (s : KAddressArbiter ι) (addr : ℕ) (value : BitVec 32) (count : ℤ)
    (stores : List (BitVec 32)) : Exec (ArbiterResult × List ι × KAddressArbiter ι) := do
  let (userValue, memory) := updateIfEqual addr value (value + 1) stores s.memory
  let s := { s with memory := memory }
  if userValue = value then do
    let (woken, s) ← signalFrom addr count (s.nfindKey addr) 0 s
    return (.success, woken, s)
  else return (.invalidState, [], s)

/-- The loop of `SignalAndModifyByWaitingCountIfEqual` that looks ahead, over the threads after the first. -/
def lookAhead (s : KAddressArbiter ι) (addr : ℕ) (count : ℤ) : List ι → ℤ → ℤ
  | [], numWaiters => numWaiters
  | t :: rest, numWaiters =>
    if (s.thread t).condvarKey = addr then
      if count ≤ numWaiters then numWaiters + 1 else s.lookAhead addr count rest (numWaiters + 1)
    else numWaiters

/-- The value that `SignalAndModifyByWaitingCountIfEqual` decides on, from the iterator that it found. -/
def modifiedValue (s : KAddressArbiter ι) (addr : ℕ) (value : BitVec 32) (count : ℤ) : List ι → BitVec 32
  | [] => value + 1
  | t :: rest =>
    if (s.thread t).condvarKey = addr then
      if count ≤ 0 then value - 2
      else if s.lookAhead addr count rest 0 < count then value - 1
      else value
    else value + 1

/-- `SignalAndModifyByWaitingCountIfEqual`: the word is changed by how many wait, if it still has the value,
and then they are woken. -/
def signalAndModifyByWaitingCountIfEqual (s : KAddressArbiter ι) (addr : ℕ) (value : BitVec 32) (count : ℤ)
    (stores : List (BitVec 32)) : Exec (ArbiterResult × List ι × KAddressArbiter ι) := do
  let it := s.nfindKey addr
  let newValue := s.modifiedValue addr value count it
  let (userValue, memory) :=
    if value ≠ newValue then updateIfEqual addr value newValue stores s.memory else (s.memory addr, s.memory)
  let s := { s with memory := memory }
  if userValue = value then do
    let (woken, s) ← signalFrom addr count it 0 s
    return (.success, woken, s)
  else return (.invalidState, [], s)

/-- `SignalToAddress`: the three kinds of signals. -/
def signalToAddress (s : KAddressArbiter ι) (addr : ℕ) (type : SignalType) (value : BitVec 32) (count : ℤ)
    (stores : List (BitVec 32)) : Exec (ArbiterResult × List ι × KAddressArbiter ι) :=
  match type with
  | .signal => s.signal addr count
  | .signalAndIncrementIfEqual => s.signalAndIncrementIfEqual addr value count stores
  | .signalAndModifyByWaitingCountIfEqual => s.signalAndModifyByWaitingCountIfEqual addr value count stores

/-! ### Waiting -/

/-- Insert a thread into the tree, after those that are equal to it. -/
def insert (s : KAddressArbiter ι) (t : ι) : KAddressArbiter ι :=
  let s := s.modify t fun t => { t with arrival := s.arrivals }
  let less := fun a b => (s.thread b).Less (s.thread a).condvarKey (s.thread a).priority
  { s with
    arrivals := s.arrivals + 1
    tree := s.tree.orderedInsert less t }

/-- `SetAddressArbiter`, the insertion and `BeginWait`. -/
def beginWait (s : KAddressArbiter ι) (t : ι) (addr : ℕ) : KAddressArbiter ι :=
  (s.modify t fun t =>
    { t with condvarTree := true, condvarKey := addr, state := .waiting, waitQueue := true }).insert t

/-- `DecrementIfLessThan`: what it read, and the memory. -/
def decrementIfLessThan (addr : ℕ) (value : BitVec 32) :
    List (BitVec 32) → (ℕ → BitVec 32) → BitVec 32 × (ℕ → BitVec 32)
  | [], memory =>
    if (memory addr).slt value then (memory addr, Function.update memory addr (memory addr - 1))
    else (memory addr, memory)
  | store :: stores, memory =>
    if (memory addr).slt value then decrementIfLessThan addr value stores (Function.update memory addr store)
    else (memory addr, memory)

/-- `WaitIfLessThan`, up to where it waits. -/
def waitIfLessThan (s : KAddressArbiter ι) (t : ι) (terminating : Bool) (addr : ℕ) (value : BitVec 32)
    (decrement : Bool) (timeout : ℤ) (stores : List (BitVec 32)) : Option ArbiterResult × KAddressArbiter ι :=
  if terminating then (some .terminationRequested, s)
  else
    let (userValue, memory) :=
      if decrement then decrementIfLessThan addr value stores s.memory else (s.memory addr, s.memory)
    let s := { s with memory := memory }
    if !userValue.slt value then (some .invalidState, s)
    else if timeout = 0 then (some .timedOut, s)
    else (none, s.beginWait t addr)

/-- `WaitIfEqual`, up to where it waits. -/
def waitIfEqual (s : KAddressArbiter ι) (t : ι) (terminating : Bool) (addr : ℕ) (value : BitVec 32)
    (timeout : ℤ) : Option ArbiterResult × KAddressArbiter ι :=
  if terminating then (some .terminationRequested, s)
  else if value ≠ s.memory addr then (some .invalidState, s)
  else if timeout = 0 then (some .timedOut, s)
  else (none, s.beginWait t addr)

/-- `KThread::CancelWait` of a thread that waits for the arbiter. -/
def cancelWait (s : KAddressArbiter ι) (t : ι) (waitResult : ArbiterResult) : KAddressArbiter ι :=
  let s := s.modify t fun t =>
    { t with condvarTree := false, state := .runnable, waitResult := waitResult, waitQueue := false }
  { s with tree := s.tree.erase t }

/-- The priority of a thread that waits for the arbiter changes: it is taken out of the tree and put back. -/
def updatePriority (s : KAddressArbiter ι) (t : ι) (priority : ℕ) : KAddressArbiter ι :=
  ({ s with tree := s.tree.erase t }.modify t fun t => { t with priority := priority }).insert t

/-! ### The order of the tree -/

/-- The place of a thread: address, priority, arrival. -/
def rank (s : KAddressArbiter ι) (t : ι) : ℕ ×ₗ ℕ ×ₗ ℕ :=
  toLex ((s.thread t).condvarKey, toLex ((s.thread t).priority, (s.thread t).arrival))

/-- **The tree is in order**: by address, priority and arrival, and the threads in it are those that wait. -/
structure WellFormed (s : KAddressArbiter ι) : Prop where
  sorted : s.tree.Pairwise fun a b => s.rank a < s.rank b
  waits : ∀ t ∈ s.tree, (s.thread t).state = .waiting ∧ (s.thread t).waitQueue = true ∧
    (s.thread t).condvarTree = true
  arrived : ∀ t ∈ s.tree, (s.thread t).arrival < s.arrivals

/-- The threads that wait for an address, in their order. -/
def waiters (s : KAddressArbiter ι) (addr : ℕ) : List ι :=
  s.tree.filter fun t => (s.thread t).condvarKey = addr

variable {s s' : KAddressArbiter ι} {t : ι} {addr : ℕ} {count : ℤ}

omit [DecidableEq ι] in
theorem key_le_of_rank_lt {a b : ι} (h : s.rank a < s.rank b) :
    (s.thread a).condvarKey ≤ (s.thread b).condvarKey := by
  rcases Prod.Lex.toLex_lt_toLex.1 h with hlt | ⟨heq, -⟩
  · exact hlt.le
  · exact heq.le

omit [DecidableEq ι] in
theorem WellFormed.nodup (h : s.WellFormed) : s.tree.Nodup :=
  h.sorted.imp fun hlt heq => absurd (heq ▸ hlt) (lt_irrefl _)

omit [DecidableEq ι] in
/-- No priority is below that of the key that is looked for. -/
theorem less_nfind (t : ArbiterThread) : t.Less addr (-1) ↔ addr ≤ t.condvarKey := by
  rw [ArbiterThread.Less]
  omega

omit [DecidableEq ι] in
/-- Where the addresses are no smaller than one, its waiters come first. -/
theorem filter_append_of_le (s : KAddressArbiter ι) (addr : ℕ) : ∀ l : List ι,
    l.Pairwise (fun a b => (s.thread a).condvarKey ≤ (s.thread b).condvarKey) →
    (∀ t ∈ l, addr ≤ (s.thread t).condvarKey) →
    ∃ rest, l = (l.filter fun t => (s.thread t).condvarKey = addr) ++ rest ∧
      ∀ t ∈ rest, (s.thread t).condvarKey ≠ addr := by
  intro l
  induction l with
  | nil => exact fun _ _ => ⟨[], rfl, fun t ht => by cases ht⟩
  | cons b l ih =>
    intro hsorted hle
    obtain ⟨hfirst, hsorted⟩ := pairwise_cons.1 hsorted
    by_cases heq : (s.thread b).condvarKey = addr
    · obtain ⟨rest, hrest, hne⟩ := ih hsorted fun t ht => hle t (mem_cons_of_mem b ht)
      refine ⟨rest, ?_, hne⟩
      rw [filter_cons_of_pos (by simpa using heq), cons_append, ← hrest]
    · have hlt := lt_of_le_of_ne (hle b mem_cons_self) (Ne.symm heq)
      have hgreater : ∀ t ∈ b :: l, (s.thread t).condvarKey ≠ addr := by
        intro t ht
        rcases mem_cons.1 ht with rfl | ht
        · exact heq
        · exact (hlt.trans_le (hfirst t ht)).ne'
      refine ⟨b :: l, ?_, hgreater⟩
      rw [filter_eq_nil_iff.2 fun t ht => by simpa using hgreater t ht, nil_append]

omit [DecidableEq ι] in
/-- **`nfind_key` finds the first waiter**: from there on the waiters of the address come first. -/
theorem WellFormed.nfindKey_eq (h : s.WellFormed) (addr : ℕ) : ∃ rest, s.nfindKey addr = s.waiters addr ++ rest ∧
    ∀ t ∈ rest, (s.thread t).condvarKey ≠ addr := by
  have hsorted : s.tree.Pairwise fun a b => (s.thread a).condvarKey ≤ (s.thread b).condvarKey :=
    h.sorted.imp key_le_of_rank_lt
  rw [nfindKey, waiters]
  generalize s.tree = tree at hsorted
  induction tree with
  | nil => exact ⟨[], rfl, fun t ht => by cases ht⟩
  | cons b tree ih =>
    rcases Nat.lt_or_ge (s.thread b).condvarKey addr with hlt | hge
    · obtain ⟨rest, hrest, hne⟩ := ih (pairwise_cons.1 hsorted).2
      refine ⟨rest, ?_, hne⟩
      rw [dropWhile_cons_of_pos (by simp [less_nfind, hlt]), hrest, filter_cons_of_neg (by simp [hlt.ne])]
    · rw [dropWhile_cons_of_neg (by simp [less_nfind, hge])]
      refine filter_append_of_le s addr (b :: tree) hsorted fun t ht => ?_
      rcases mem_cons.1 ht with rfl | ht
      · exact hge
      · exact hge.trans ((pairwise_cons.1 hsorted).1 t ht)

/-! ### What a signal wakes -/

/-- The state after some threads have been woken. -/
def woke (s : KAddressArbiter ι) (woken : List ι) : KAddressArbiter ι :=
  { s with
    thread := fun t => if t ∈ woken then (s.thread t).woken else s.thread t
    tree := s.tree.filter fun t => t ∉ woken }

theorem woke_nil (s : KAddressArbiter ι) : s.woke [] = s := by
  simp [woke]

theorem woke_cons (s : KAddressArbiter ι) {a : ι} {l : List ι} (ha : a ∉ l) :
    (s.woke [a]).woke l = s.woke (a :: l) := by
  have hthread : (fun t => if t ∈ l then ((s.woke [a]).thread t).woken else (s.woke [a]).thread t) =
      fun t => if t ∈ a :: l then (s.thread t).woken else s.thread t := by
    funext t
    by_cases hta : t = a
    · subst hta
      simp [woke, ha]
    · simp [woke, hta]
  have htree : (s.woke [a]).tree.filter (fun t => t ∉ l) = s.tree.filter fun t => t ∉ a :: l := by
    rw [woke, filter_filter]
    refine filter_congr fun t _ => ?_
    simp [Bool.and_comm]
  rw [woke, hthread, htree]
  rfl

/-- **A thread that waits is woken.** -/
theorem WellFormed.wake_eq (h : s.WellFormed) (ht : t ∈ s.tree) : s.wake t = .ret (s.woke [t]) true := by
  obtain ⟨hstate, hqueue, hcondvar⟩ := h.waits t ht
  have hasserted : ((s.modify t fun t =>
      { t with state := .runnable, waitResult := .success, waitQueue := false }).thread t).condvarTree = true := by
    rw [modify_thread, if_pos rfl]
    exact hcondvar
  rw [wake, endWait, if_pos hstate, if_neg (by rw [hqueue]; exact Bool.noConfusion), pure_eq,
    ret_true_bind, assert, decide_eq_true hasserted, ret_true_bind, pure_eq]
  have hthread : (fun u => if u ∈ [t] then (s.thread u).woken else s.thread u) =
      ((s.modify t fun t => { t with state := .runnable, waitResult := .success, waitQueue := false }).modify t
        fun t => { t with condvarTree := false }).thread := by
    funext u
    rw [modify_thread, modify_thread, modify_thread, if_pos rfl]
    by_cases hu : u = t
    · rw [hu, if_pos (mem_singleton_self t), if_pos rfl]
      rfl
    · rw [if_neg fun hmem => hu (mem_singleton.1 hmem), if_neg hu, if_neg hu]
  have htree : (s.tree.filter fun u => u ∉ [t]) = s.tree.erase t := by
    rw [h.nodup.erase_eq_filter]
    refine filter_congr fun u _ => ?_
    by_cases hu : u = t <;> simp [hu]
  rw [woke, hthread, htree]
  rfl

theorem woke_thread (s : KAddressArbiter ι) (l : List ι) (t : ι) :
    ((s.woke l).thread t).condvarKey = (s.thread t).condvarKey ∧
      ((s.woke l).thread t).priority = (s.thread t).priority ∧
      ((s.woke l).thread t).arrival = (s.thread t).arrival := by
  rw [woke]
  dsimp only
  split_ifs <;> exact ⟨rfl, rfl, rfl⟩

theorem rank_woke (s : KAddressArbiter ι) (l : List ι) (t : ι) : (s.woke l).rank t = s.rank t := by
  obtain ⟨hkey, hpriority, harrival⟩ := s.woke_thread l t
  rw [rank, rank, hkey, hpriority, harrival]

theorem WellFormed.woke (h : s.WellFormed) (l : List ι) : (s.woke l).WellFormed := by
  refine ⟨?_, fun t ht => ?_, fun t ht => ?_⟩
  · simp only [rank_woke]
    exact h.sorted.sublist filter_sublist
  · obtain ⟨ht, hnot⟩ := mem_filter.1 ht
    rw [KAddressArbiter.woke]
    dsimp only
    rw [if_neg (of_decide_eq_true hnot)]
    exact h.waits t ht
  · rw [(s.woke_thread l t).2.2]
    exact h.arrived t (mem_filter.1 ht).1

/-- How many of `n` waiters a signal wakes. -/
def wakes (count : ℤ) (n : ℕ) : ℕ := if count ≤ 0 then n else min count.toNat n

/-- **The loop of a signal**, where the waiters come first. -/
theorem signalFrom_eq (addr : ℕ) (count : ℤ) (rest : List ι) : ∀ (waiters : List ι) (numWaiters : ℕ)
    (s : KAddressArbiter ι), s.WellFormed → (∀ t ∈ waiters, t ∈ s.tree ∧ (s.thread t).condvarKey = addr) →
    waiters.Nodup → (∀ t ∈ rest, (s.thread t).condvarKey ≠ addr) →
    signalFrom addr count (waiters ++ rest) numWaiters s =
      .ret (waiters.take (if count ≤ 0 then waiters.length else (count - numWaiters).toNat),
        s.woke (waiters.take (if count ≤ 0 then waiters.length else (count - numWaiters).toNat))) true := by
  intro waiters
  induction waiters with
  | nil =>
    intro numWaiters s _ _ _ hrest
    rw [nil_append, take_nil, woke_nil]
    cases rest with
    | nil => rfl
    | cons t rest =>
      rw [signalFrom, if_neg fun hand => hrest t mem_cons_self hand.2]
      rfl
  | cons t waiters ih =>
    intro numWaiters s h hin hnodup hrest
    obtain ⟨htree, hkey⟩ := hin t mem_cons_self
    obtain ⟨hnot, hnodup⟩ := nodup_cons.1 hnodup
    rw [cons_append, signalFrom]
    by_cases hmore : count ≤ 0 ∨ (numWaiters : ℤ) < count
    · have hcall := ih (numWaiters + 1) (s.woke [t]) (h.woke [t]) (fun u hu => ?_) hnodup fun u hu => ?_
      · have htake : (t :: waiters).take (if count ≤ 0 then (t :: waiters).length else (count - numWaiters).toNat) =
            t :: waiters.take (if count ≤ 0 then waiters.length else (count - ↑(numWaiters + 1)).toNat) := by
          split_ifs with hall
          · rfl
          · have hsucc : (count - numWaiters).toNat = (count - ↑(numWaiters + 1)).toNat + 1 := by omega
            rw [hsucc, take_succ_cons]
        have hnext : ((numWaiters : ℤ) + 1) = ↑(numWaiters + 1) := by push_cast; rfl
        rw [if_pos ⟨hmore, hkey⟩, h.wake_eq htree, ret_true_bind, hnext, hcall, ret_true_bind, htake,
          woke_cons s fun hmem => hnot (mem_of_mem_take hmem)]
        rfl
      · obtain ⟨hu', hkey'⟩ := hin u (mem_cons_of_mem t hu)
        refine ⟨mem_filter.2 ⟨hu', ?_⟩, by rw [(s.woke_thread [t] u).1]; exact hkey'⟩
        have hne : u ≠ t := fun heq => hnot (heq ▸ hu)
        simpa using hne
      · rw [(s.woke_thread [t] u).1]
        exact hrest u hu
    · rw [if_neg fun hand => hmore hand.1]
      rw [not_or, not_le, not_lt] at hmore
      have hnone : (count - numWaiters).toNat = 0 := by omega
      rw [if_neg (not_le.2 hmore.1), hnone, take_zero, woke_nil]
      rfl

/-! ### The look-ahead -/

omit [DecidableEq ι] in
/-- **The loop that looks ahead** tells more waiters than are going to be woken from no more. -/
theorem lookAhead_lt (addr : ℕ) (count : ℤ) (rest : List ι) (hrest : ∀ t ∈ rest, (s.thread t).condvarKey ≠ addr) :
    ∀ (waiters : List ι) (numWaiters : ℕ), (∀ t ∈ waiters, (s.thread t).condvarKey = addr) →
    (s.lookAhead addr count (waiters ++ rest) numWaiters < count ↔ (numWaiters : ℤ) + waiters.length < count) := by
  intro waiters
  induction waiters with
  | nil =>
    intro numWaiters _
    have hnone : s.lookAhead addr count ([] ++ rest) numWaiters = numWaiters := by
      cases rest with
      | nil => rfl
      | cons t rest => rw [nil_append, lookAhead, if_neg (hrest t mem_cons_self)]
    rw [hnone, length_nil]
    simp
  | cons t waiters ih =>
    intro numWaiters hin
    rw [cons_append, lookAhead, if_pos (hin t mem_cons_self), length_cons]
    split_ifs with hmany
    · constructor <;> intro hlt <;> push_cast at * <;> omega
    · have hnext : ((numWaiters : ℤ) + 1) = ↑(numWaiters + 1) := by push_cast; rfl
      rw [hnext, ih (numWaiters + 1) fun u hu => hin u (mem_cons_of_mem t hu)]
      push_cast
      omega

omit [DecidableEq ι] in
/-- **The value that is decided on**, by how many waiters there are. -/
theorem WellFormed.modifiedValue_eq (h : s.WellFormed) (addr : ℕ) (value : BitVec 32) (count : ℤ) :
    s.modifiedValue addr value count (s.nfindKey addr) = if (s.waiters addr).length = 0 then value + 1
      else if count ≤ 0 then value - 2
      else if ((s.waiters addr).length : ℤ) ≤ count then value - 1
      else value := by
  obtain ⟨rest, hfind, hrest⟩ := h.nfindKey_eq addr
  have hin : ∀ t ∈ s.waiters addr, (s.thread t).condvarKey = addr := fun t ht => by
    simpa using (mem_filter.1 ht).2
  rw [hfind]
  generalize s.waiters addr = waiters at hin
  cases waiters with
  | nil =>
    cases rest with
    | nil => rfl
    | cons t rest => exact if_neg (hrest t mem_cons_self)
  | cons t waiters =>
    have hlook := lookAhead_lt addr count rest hrest waiters 0 fun u hu => hin u (mem_cons_of_mem t hu)
    rw [cons_append, modifiedValue, if_pos (hin t mem_cons_self), length_cons, if_neg (Nat.succ_ne_zero _)]
    refine if_congr .rfl rfl (if_congr ?_ rfl rfl)
    rw [show ((0 : ℕ) : ℤ) = 0 from rfl] at hlook
    rw [hlook]
    push_cast
    omega

/-! ### The memory -/

/-- **`UpdateIfEqual`** writes over the word that it read last just when that is the value. -/
theorem updateIfEqual_spec (addr : ℕ) (value newValue : BitVec 32) : ∀ (stores : List (BitVec 32))
    (memory : ℕ → BitVec 32), ∃ word, (stores = [] → word = memory addr) ∧
    updateIfEqual addr value newValue stores memory =
      (word, update memory addr (if word = value then newValue else word)) := by
  intro stores
  induction stores with
  | nil =>
    intro memory
    refine ⟨memory addr, fun _ => rfl, ?_⟩
    rw [updateIfEqual]
    split_ifs with heq
    · rfl
    · rw [update_eq_self]
  | cons store stores ih =>
    intro memory
    have hcons : store :: stores ≠ [] := cons_ne_nil store stores
    by_cases heq : memory addr = value
    · obtain ⟨word, -, hword⟩ := ih (update memory addr store)
      refine ⟨word, fun hnil => absurd hnil hcons, ?_⟩
      rw [updateIfEqual, if_pos heq, hword, update_idem]
    · refine ⟨memory addr, fun hnil => absurd hnil hcons, ?_⟩
      rw [updateIfEqual, if_neg heq, if_neg heq, update_eq_self]

/-- The word that a signal leaves where `n` threads wait, of the word that it found. -/
def written (type : SignalType) (value : BitVec 32) (count : ℤ) (n : ℕ) (word : BitVec 32) : BitVec 32 :=
  match type with
  | .signal => word
  | .signalAndIncrementIfEqual => value + 1
  | .signalAndModifyByWaitingCountIfEqual =>
    if n = 0 then value + 1 else if count ≤ 0 then value - 2 else if (n : ℤ) ≤ count then value - 1 else value

/-! ### Signals -/

/-- **A signal wakes the first waiters of the address**, in the order of their priorities and arrivals, all of
them unless it counts, and no other thread; the rest stay in the tree. -/
structure Wakes (s : KAddressArbiter ι) (addr : ℕ) (count : ℤ) (woken : List ι) (s' : KAddressArbiter ι) : Prop where
  first : woken = (s.waiters addr).take (wakes count (s.waiters addr).length)
  order : (s.waiters addr).Pairwise fun a b => toLex ((s.thread a).priority, (s.thread a).arrival) <
    toLex ((s.thread b).priority, (s.thread b).arrival)
  queued : s'.tree = s.tree.filter fun t => t ∉ woken
  ended : ∀ t ∈ woken, s'.thread t = (s.thread t).woken
  others : ∀ t, t ∉ woken → s'.thread t = s.thread t

omit [DecidableEq ι] in
/-- The memory plays no part in the order of the tree. -/
theorem WellFormed.setMemory (h : s.WellFormed) (memory : ℕ → BitVec 32) : WellFormed { s with memory := memory } :=
  ⟨h.sorted, h.waits, h.arrived⟩

/-- **The loop of a signal from the first waiter on.** -/
theorem WellFormed.signalFrom_spec (h : s.WellFormed) (addr : ℕ) (count : ℤ) :
    wp (signalFrom addr count (s.nfindKey addr) 0 s) fun r held => held = true ∧ r.2.WellFormed ∧
      Wakes s addr count r.1 r.2 ∧ r.2.memory = s.memory := by
  obtain ⟨rest, hfind, hrest⟩ := h.nfindKey_eq addr
  have hin : ∀ t ∈ s.waiters addr, t ∈ s.tree ∧ (s.thread t).condvarKey = addr := fun t ht => by
    simpa using mem_filter.1 ht
  have hcall := signalFrom_eq addr count rest (s.waiters addr) 0 s h hin (h.nodup.filter _) hrest
  have htake : (s.waiters addr).take
      (if count ≤ 0 then (s.waiters addr).length else (count - ((0 : ℕ) : ℤ)).toNat) =
      (s.waiters addr).take (wakes count (s.waiters addr).length) := by
    rw [wakes]
    split_ifs
    · rfl
    · rw [show ((0 : ℕ) : ℤ) = 0 from rfl, Int.sub_zero, take_eq_take_min]
  rw [show ((0 : ℕ) : ℤ) = 0 from rfl] at hcall htake
  rw [hfind, hcall, htake, wp_ret]
  refine ⟨rfl, h.woke _, ⟨rfl, ?_, rfl, fun t ht => if_pos ht, fun t ht => if_neg ht⟩, rfl⟩
  -- the waiters have one address, so their order is that of what comes after it
  refine (h.sorted.sublist filter_sublist).imp_of_mem fun {a b} ha hb hlt => ?_
  rcases Prod.Lex.toLex_lt_toLex.1 hlt with hkey | ⟨-, hrest⟩
  · exact absurd hkey (by rw [(hin a ha).2, (hin b hb).2]; exact lt_irrefl _)
  · exact hrest

/-- **What a signal has to do.**  Where the word that it finds is the value, it writes the word that goes with the
number of waiters and wakes the first of them; where it is not, it returns an error and changes nothing. -/
def SignalsExactly (s : KAddressArbiter ι) (addr : ℕ) (type : SignalType) (value : BitVec 32) (count : ℤ)
    (stores : List (BitVec 32)) (r : ArbiterResult × List ι × KAddressArbiter ι) : Prop :=
  ∃ word, (stores = [] → word = s.memory addr) ∧
    (type = .signal ∨ word = value → r.1 = .success ∧ Wakes s addr count r.2.1 r.2.2 ∧
      r.2.2.memory = Function.update s.memory addr (written type value count (s.waiters addr).length word)) ∧
    (¬(type = .signal ∨ word = value) → r.1 = .invalidState ∧ r.2.1 = [] ∧ r.2.2.tree = s.tree ∧
      r.2.2.thread = s.thread ∧ r.2.2.memory = Function.update s.memory addr word)

/-- A signal does what it has to, and leaves the tree in order. -/
theorem WellFormed.signalToAddress_spec (h : s.WellFormed) (addr : ℕ) (type : SignalType) (value : BitVec 32)
    (count : ℤ) (stores : List (BitVec 32)) :
    wp (s.signalToAddress addr type value count stores) fun r held =>
      held = true ∧ r.2.2.WellFormed ∧ SignalsExactly s addr type value count stores r := by
  -- what follows the update of the word, for the two signals that have one
  have hafter : ∀ word newWord : BitVec 32, newWord = (if word = value then
      written type value count (s.waiters addr).length word else word) → type ≠ .signal →
      (stores = [] → word = s.memory addr) →
      wp (if word = value then do
        let (woken, s) ← signalFrom addr count (s.nfindKey addr) 0
          { s with memory := update s.memory addr newWord }
        return (ArbiterResult.success, woken, s)
      else return (.invalidState, [], { s with memory := update s.memory addr newWord }))
        fun r held => held = true ∧ r.2.2.WellFormed ∧ SignalsExactly s addr type value count stores r := by
    rintro word newWord rfl hsignal hword
    split_ifs with heq
    · have hspec := (h.setMemory (update s.memory addr
        (written type value count (s.waiters addr).length word))).signalFrom_spec addr count
      rw [wp_bind]
      refine wp_mono hspec ?_
      rintro ⟨woken, s'⟩ held ⟨rfl, hwell, hwakes, hmemory⟩
      refine wp_ret.2 ⟨rfl, hwell, word, hword, fun _ => ⟨rfl, { hwakes with }, hmemory⟩, fun hnot => absurd (.inr heq) hnot⟩
    · refine wp_ret.2 ⟨rfl, h.setMemory _, word, hword, fun hyes => ?_, fun _ => ⟨rfl, rfl, rfl, rfl, rfl⟩⟩
      exact absurd hyes (not_or.2 ⟨hsignal, heq⟩)
  cases type with
  | signal =>
    rw [signalToAddress, signal, wp_bind]
    refine wp_mono (h.signalFrom_spec addr count) ?_
    rintro ⟨woken, s'⟩ held ⟨rfl, hwell, hwakes, hmemory⟩
    refine wp_ret.2 ⟨rfl, hwell, s.memory addr, fun _ => rfl, fun _ => ⟨rfl, hwakes, ?_⟩,
      fun hnot => absurd (.inl rfl) hnot⟩
    show s'.memory = update s.memory addr (s.memory addr)
    rw [update_eq_self]
    exact hmemory
  | signalAndIncrementIfEqual =>
    obtain ⟨word, hword, hupdate⟩ := updateIfEqual_spec addr value (value + 1) stores s.memory
    rw [signalToAddress, signalAndIncrementIfEqual, hupdate]
    exact hafter word _ rfl SignalType.noConfusion hword
  | signalAndModifyByWaitingCountIfEqual =>
    have hvalue := h.modifiedValue_eq addr value count
    rw [signalToAddress, signalAndModifyByWaitingCountIfEqual, hvalue]
    by_cases hsame : value = written .signalAndModifyByWaitingCountIfEqual value count (s.waiters addr).length value
    · -- nothing is to be written, and the word is only read
      have hread := hafter (s.memory addr) (s.memory addr) (by
        split_ifs with heq
        · rw [heq]
          exact hsame
        · rfl) SignalType.noConfusion fun _ => rfl
      rw [update_eq_self] at hread
      rw [written] at hsame
      simp only [← hsame, ne_eq, not_true_eq_false, if_false]
      exact hread
    · obtain ⟨word, hword, hupdate⟩ := updateIfEqual_spec addr value
        (written .signalAndModifyByWaitingCountIfEqual value count (s.waiters addr).length value) stores s.memory
      rw [written] at hsame hupdate
      simp only [ne_eq, hsame, not_false_eq_true, if_true, hupdate]
      exact hafter word _ rfl SignalType.noConfusion hword

/-! ### Every state that is reached -/

omit [DecidableEq ι] in
/-- An insertion that follows the order keeps it. -/
theorem pairwise_orderedInsert {ρ : Type} [Preorder ρ] (rank : ι → ρ) {r : ι → ι → Prop} [DecidableRel r]
    (t : ι) : ∀ l : List ι, l.Pairwise (fun a b => rank a < rank b) → (∀ b ∈ l, r t b → rank t < rank b) →
    (∀ b ∈ l, ¬r t b → rank b < rank t) → (l.orderedInsert r t).Pairwise fun a b => rank a < rank b := by
  intro l
  induction l with
  | nil => exact fun _ _ _ => pairwise_singleton _ _
  | cons b l ih =>
    intro hsorted hbefore hafter
    obtain ⟨hfirst, hrest⟩ := pairwise_cons.1 hsorted
    rw [orderedInsert]
    split_ifs with hless
    · have hlt := hbefore b mem_cons_self hless
      refine pairwise_cons.2 ⟨fun u hu => ?_, hsorted⟩
      rcases mem_cons.1 hu with rfl | hu
      · exact hlt
      · exact hlt.trans (hfirst u hu)
    · refine pairwise_cons.2 ⟨fun u hu => ?_, ih hrest (fun u hu => hbefore u (mem_cons_of_mem b hu))
        fun u hu => hafter u (mem_cons_of_mem b hu)⟩
      rcases (mem_orderedInsert _).1 hu with rfl | hu
      · exact hafter b mem_cons_self hless
      · exact hfirst u hu

theorem insert_thread (s : KAddressArbiter ι) (t u : ι) : (s.insert t).thread u =
    if u = t then { s.thread t with arrival := s.arrivals } else s.thread u :=
  modify_thread s t u fun t => { t with arrival := s.arrivals }

theorem rank_insert_of_ne (s : KAddressArbiter ι) {u : ι} (hu : u ≠ t) : (s.insert t).rank u = s.rank u := by
  rw [rank, rank, insert_thread, if_neg hu]

/-- **An insertion keeps the tree in order**: the thread has arrived last. -/
theorem WellFormed.insert (h : s.WellFormed) (hnot : t ∉ s.tree) (hwaits : (s.thread t).state = .waiting ∧
    (s.thread t).waitQueue = true ∧ (s.thread t).condvarTree = true) : (s.insert t).WellFormed := by
  have hne : ∀ u ∈ s.tree, u ≠ t := fun u hu heq => hnot (heq ▸ hu)
  have hmem : ∀ {u}, u ∈ (s.insert t).tree → u = t ∨ u ∈ s.tree := fun {u} hu => (mem_orderedInsert _).1 hu
  refine ⟨pairwise_orderedInsert _ t s.tree ?_ (fun b hb hless => ?_) (fun b hb hless => ?_), fun u hu => ?_,
    fun u hu => ?_⟩
  · refine h.sorted.imp_of_mem fun {a b} ha hb hlt => ?_
    rw [rank_insert_of_ne s (hne a ha), rank_insert_of_ne s (hne b hb)]
    exact hlt
  · change ((s.insert t).thread b).Less ((s.insert t).thread t).condvarKey ((s.insert t).thread t).priority at hless
    rw [insert_thread, if_neg (hne b hb), insert_thread, if_pos rfl] at hless
    rw [rank_insert_of_ne s (hne b hb), rank, insert_thread, if_pos rfl, rank]
    refine Prod.Lex.toLex_lt_toLex.2 (hless.imp id fun hlt => ⟨hlt.1, Prod.Lex.toLex_lt_toLex.2 (.inl ?_)⟩)
    exact Int.ofNat_lt.1 hlt.2
  · change ¬((s.insert t).thread b).Less ((s.insert t).thread t).condvarKey
      ((s.insert t).thread t).priority at hless
    rw [insert_thread, if_neg (hne b hb), insert_thread, if_pos rfl] at hless
    rw [rank_insert_of_ne s (hne b hb), rank, rank, insert_thread, if_pos rfl]
    have harrived := h.arrived b hb
    simp only [ArbiterThread.Less, not_or, not_and, not_lt, Int.ofNat_le] at hless
    rw [Prod.Lex.toLex_lt_toLex, Prod.Lex.toLex_lt_toLex]
    dsimp only
    omega
  · rw [insert_thread]
    split_ifs with heq
    · exact hwaits
    · exact h.waits u ((hmem hu).resolve_left heq)
  · show ((s.insert t).thread u).arrival < s.arrivals + 1
    rw [insert_thread]
    split_ifs with heq
    · exact Nat.lt_succ_self _
    · exact Nat.lt_succ_of_lt (h.arrived u ((hmem hu).resolve_left heq))

section

variable (h : s.WellFormed)

include h

omit [DecidableEq ι] in
/-- A change of threads that are not in the tree, and the removal of some that are. -/
theorem WellFormed.shrink (htree : s'.tree.Sublist s.tree) (harrivals : s'.arrivals = s.arrivals)
    (hsame : ∀ t ∈ s'.tree, s'.thread t = s.thread t) : s'.WellFormed := by
  refine ⟨(h.sorted.sublist htree).imp_of_mem fun {a b} ha hb hlt => ?_, fun t ht => ?_, fun t ht => ?_⟩
  · rw [rank, rank, hsame a ha, hsame b hb]
    exact hlt
  · rw [hsame t ht]
    exact h.waits t (htree.subset ht)
  · rw [hsame t ht, harrivals]
    exact h.arrived t (htree.subset ht)

theorem WellFormed.beginWait (hnot : t ∉ s.tree) (addr : ℕ) :
    (s.beginWait t addr).WellFormed := by
  have hmodified : (s.modify t fun t =>
      { t with condvarTree := true, condvarKey := addr, state := .waiting, waitQueue := true }).WellFormed :=
    h.shrink (List.Sublist.refl _) rfl fun u hu => modify_thread_of_ne s _ (ne_of_mem_of_not_mem hu hnot)
  refine hmodified.insert hnot ?_
  rw [modify_thread, if_pos rfl]
  exact ⟨rfl, rfl, rfl⟩

theorem not_mem_erase (t : ι) : t ∉ s.tree.erase t := fun hmem =>
  ((h.nodup.mem_erase_iff).1 hmem).1 rfl

theorem WellFormed.cancelWait (t : ι) (waitResult : ArbiterResult) :
    (s.cancelWait t waitResult).WellFormed := by
  refine h.shrink erase_sublist rfl fun u hu => ?_
  exact modify_thread_of_ne s
    (fun t => { t with condvarTree := false, state := .runnable, waitResult := waitResult, waitQueue := false })
    (ne_of_mem_of_not_mem hu (not_mem_erase h t))

theorem WellFormed.updatePriority (ht : t ∈ s.tree) (priority : ℕ) :
    (s.updatePriority t priority).WellFormed := by
  have hmodified : (({ s with tree := s.tree.erase t } : KAddressArbiter ι).modify t fun t =>
      { t with priority := priority }).WellFormed :=
    h.shrink erase_sublist rfl fun u hu =>
      modify_thread_of_ne _ _ (ne_of_mem_of_not_mem hu (not_mem_erase h t))
  refine hmodified.insert (not_mem_erase h t) ?_
  rw [modify_thread, if_pos rfl]
  exact h.waits t ht

end

/-- The states that can be reached: threads wait, give up waiting and change their priorities, addresses are
signalled, and other threads and the memory change as they like. -/
inductive Reached : KAddressArbiter ι → Prop
  | initial {s : KAddressArbiter ι} (hempty : s.tree = []) : Reached s
  | waitIfEqual {s : KAddressArbiter ι} (h : Reached s) {t : ι} (hnot : t ∉ s.tree) (terminating : Bool)
      (addr : ℕ) (value : BitVec 32) (timeout : ℤ) :
      Reached (s.waitIfEqual t terminating addr value timeout).2
  | waitIfLessThan {s : KAddressArbiter ι} (h : Reached s) {t : ι} (hnot : t ∉ s.tree) (terminating : Bool)
      (addr : ℕ) (value : BitVec 32) (decrement : Bool) (timeout : ℤ) (stores : List (BitVec 32)) :
      Reached (s.waitIfLessThan t terminating addr value decrement timeout stores).2
  | cancelWait {s : KAddressArbiter ι} (h : Reached s) {t : ι} (ht : t ∈ s.tree) (waitResult : ArbiterResult) :
      Reached (s.cancelWait t waitResult)
  | updatePriority {s : KAddressArbiter ι} (h : Reached s) {t : ι} (ht : t ∈ s.tree) (priority : ℕ) :
      Reached (s.updatePriority t priority)
  | signalToAddress {s : KAddressArbiter ι} (h : Reached s) {addr : ℕ} {type : SignalType} {value : BitVec 32}
      {count : ℤ} {stores : List (BitVec 32)} {r : ArbiterResult × List ι × KAddressArbiter ι} {held : Bool}
      (hrun : s.signalToAddress addr type value count stores = .ret r held) : Reached r.2.2
  | other {s s' : KAddressArbiter ι} (h : Reached s) (htree : s'.tree = s.tree)
      (hsame : ∀ t ∈ s.tree, s'.thread t = s.thread t) (harrivals : s'.arrivals = s.arrivals) : Reached s'

/-- **The tree is in order in every state that is reached.** -/
theorem Reached.wellFormed (h : Reached s) : s.WellFormed := by
  induction h with
  | initial hempty => exact ⟨by simp [hempty], by simp [hempty], by simp [hempty]⟩
  | waitIfEqual _ hnot terminating addr value timeout ih =>
    rw [KAddressArbiter.waitIfEqual]
    split_ifs
    · exact ih
    · exact ih
    · exact ih
    · exact ih.beginWait hnot addr
  | waitIfLessThan _ hnot terminating addr value decrement timeout stores ih =>
    rw [KAddressArbiter.waitIfLessThan]
    by_cases hterminating : terminating = true
    · rw [if_pos hterminating]
      exact ih
    rw [if_neg hterminating]
    generalize (if decrement = true then _ else _ : BitVec 32 × (ℕ → BitVec 32)) = read
    obtain ⟨userValue, memory⟩ := read
    dsimp only
    split_ifs
    · exact ih.setMemory memory
    · exact ih.setMemory memory
    · exact (ih.setMemory memory).beginWait hnot addr
  | cancelWait _ _ waitResult ih => exact ih.cancelWait _ waitResult
  | updatePriority _ ht priority ih => exact ih.updatePriority ht priority
  | signalToAddress _ hrun ih => exact (wlp_of_wp (ih.signalToAddress_spec _ _ _ _ _) _ _ hrun).2.1
  | other _ htree hsame harrivals ih =>
    exact ih.shrink (htree ▸ List.Sublist.refl _) harrivals fun t ht => hsame t (htree ▸ ht)

/-- **Signalling is exact**, whatever the threads that wait. -/
theorem WellFormed.signals_exactly (h : s.WellFormed) (addr : ℕ) (type : SignalType) (value : BitVec 32)
    (count : ℤ) (stores : List (BitVec 32)) :
    Exec.wp (s.signalToAddress addr type value count stores) fun r held =>
      held = true ∧ SignalsExactly s addr type value count stores r :=
  Exec.wp_mono (h.signalToAddress_spec addr type value count stores) fun _ _ hspec => ⟨hspec.1, hspec.2.2⟩

/-- Two threads that wait for one address, the second more urgently. -/
def twoWaiters : KAddressArbiter ℕ :=
  let s : KAddressArbiter ℕ := ⟨fun t => ⟨.runnable, .success, false, false, 0, 44 - t, 0⟩, [], fun _ => 5, 0⟩
  (s.beginWait 0 4096).beginWait 1 4096

theorem twoWaiters_wellFormed : twoWaiters.WellFormed := by
  have hstart : WellFormed (⟨fun t => ⟨.runnable, .success, false, false, 0, 44 - t, 0⟩, [], fun _ => 5, 0⟩ :
      KAddressArbiter ℕ) := ⟨List.Pairwise.nil, by simp, by simp⟩
  exact (hstart.beginWait (t := 0) (by simp) 4096).beginWait (t := 1) (by decide) 4096

/-- One of the two is woken, the later one, which has the higher priority. -/
theorem signals_exactly_two : twoWaiters.waiters 4096 = [1, 0] ∧
    Exec.wp (twoWaiters.signalToAddress 4096 .signalAndModifyByWaitingCountIfEqual 5 1 []) fun r held =>
      held = true ∧ SignalsExactly twoWaiters 4096 .signalAndModifyByWaitingCountIfEqual 5 1 [] r :=
  ⟨by decide, twoWaiters_wellFormed.signals_exactly 4096 .signalAndModifyByWaitingCountIfEqual 5 1 []⟩

/-- **No order of calls upsets the arbiter**: in every state that is reached the tree is in order, so that any
signal wakes the first waiters of its address. -/
theorem Reached.wakes_in_order (h : Reached s) : s.WellFormed ∧
    ∀ addr type value count stores, wp (s.signalToAddress addr type value count stores) fun r held =>
      held = true ∧ r.2.2.WellFormed ∧ SignalsExactly s addr type value count stores r :=
  ⟨h.wellFormed, h.wellFormed.signalToAddress_spec⟩

/-- A thread waits below a value, and one that waits for an equal one has its priority raised. -/
theorem wakes_in_order_raised : ∃ s : KAddressArbiter ℕ, s.waiters 4096 = [1, 0] ∧ s.WellFormed := by
  have hstart : Reached (⟨fun _ => ⟨.runnable, .success, false, false, 0, 44, 0⟩, [], fun _ => 5, 0⟩ :
    KAddressArbiter ℕ) := .initial rfl
  have hwaits := (hstart.waitIfLessThan (t := 0) (by simp) false 4096 9 true (-1) []).waitIfEqual (t := 1)
    (by decide) false 4096 4 (-1)
  exact ⟨_, by decide, (hwaits.updatePriority (t := 1) (by decide) 28).wakes_in_order.1⟩

end KAddressArbiter

end Kernel
end NXEmu
