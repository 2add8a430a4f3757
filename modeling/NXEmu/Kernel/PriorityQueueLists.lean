/-
# The lists of the priority queue

`src/nxemu-os/core/hle/kernel/k_priority_queue.h`.

`place m c` says in which list of the core `c` the thread `m` hangs, if any, and
`Lists q place` that the queue is in order for these places: the links and roots
form rings, the ring for a queue, a priority and a core has the threads placed
there, and the priority is available to the core when there are any.

An operation on one list leaves the other lists of all cores alone (`Frame`): of the
core it works on it writes the entries of threads of its own list only.  So a
queue in order stays so when the ring of that list and the places agree again
(`Rows.change`), and pushing a thread that has no place on the core, or removing
one from its place, does that.
-/

import NXEmu.Lib.LinkedList
import NXEmu.Kernel.PriorityQueue

namespace NXEmu
namespace Kernel

open Common Exec Function List

/-- The list a thread hangs in on each core. -/
abbrev Places (ι : Type) := ι → ℕ → Option (QueueKind × ℕ)

/-- The list for a priority, of which there is none for the idle priority. -/
def listAt (k : QueueKind) (priority : ℕ) : Option (QueueKind × ℕ) :=
  if priority ≤ KPriorityQueue.lowestPriority then some (k, priority) else none

namespace KPriorityQueue

variable {ι : Type} {q q' q'' : KPriorityQueue ι} {k k' : QueueKind} {p p' c c' : ℕ} {m : ι}
  {l l' : List ι} {x v : Option ι}

/-- The nodes of the list for `p` and `c` after one another. -/
def nextOf (q : KPriorityQueue ι) (k : QueueKind) (p c : ℕ) (x : Option ι) : Option ι :=
  (q.node k p c x).next

/-- The nodes of the list for `p` and `c` before one another. -/
def prevOf (q : KPriorityQueue ι) (k : QueueKind) (p c : ℕ) (x : Option ι) : Option ι :=
  (q.node k p c x).prev

/-- The ring of one list. -/
def IsList (q : KPriorityQueue ι) (k : QueueKind) (p c : ℕ) (l : List ι) : Prop :=
  Ring (q.nextOf k p c) (q.prevOf k p c) l

theorem IsList.head (h : IsList q k p c l) : (q.roots k p c).next = lastNode none l.reverse :=
  Ring.prev_none (Ring.symm h)

theorem IsList.tail (h : IsList q k p c l) : (q.roots k p c).prev = lastNode none l :=
  Ring.prev_none h

/-- The front of a list. -/
theorem IsList.getFront (h : IsList q k p c l) : q.perCoreGetFront k p c = l.head? :=
  Ring.next_none h

variable {l₁ l₂ T : List ι} {e : QueueEntry ι} {s : BitSet 64 64} {i : ι} {q₁ : KPriorityQueue ι} {empty : Bool}

/-- The thread after another one in a list. -/
theorem IsList.entry_next (h : IsList q k p c (l₁ ++ m :: l₂)) :
    (q.entries m c).next = l₂.head? :=
  Ring.next_eq h

section Nodes

variable [DecidableEq ι]

theorem node_setNode {y : Option ι} :
    (q.setNode k p c x e).node k p c y = if y = x then e else q.node k p c y := by
  cases x <;> cases y <;> simp [setNode, node]

theorem nextOf_setNext : (q.setNext k p c x v).nextOf k p c = update (q.nextOf k p c) x v := by
  funext y
  rw [nextOf, setNext, node_setNode, update_apply]
  split <;> rfl

theorem prevOf_setNext : (q.setNext k p c x v).prevOf k p c = q.prevOf k p c := by
  funext y
  rw [prevOf, setNext, node_setNode]
  split
  · subst y
    rfl
  · rfl

theorem nextOf_setPrev : (q.setPrev k p c x v).nextOf k p c = q.nextOf k p c := by
  funext y
  rw [nextOf, setPrev, node_setNode]
  split
  · subst y
    rfl
  · rfl

theorem prevOf_setPrev : (q.setPrev k p c x v).prevOf k p c = update (q.prevOf k p c) x v := by
  funext y
  rw [prevOf, setPrev, node_setNode, update_apply]
  split <;> rfl

@[simp] theorem availablePriorities_setNext :
    (q.setNext k p c x v).availablePriorities = q.availablePriorities := by
  cases x <;> rfl

@[simp] theorem availablePriorities_setPrev :
    (q.setPrev k p c x v).availablePriorities = q.availablePriorities := by
  cases x <;> rfl

end Nodes

/-! ### What an operation on one list leaves alone -/

/-- Only the list for `p` and `c` and the entries the threads of `T` have on `c` differ. -/
structure Frame (q q' : KPriorityQueue ι) (k : QueueKind) (p c : ℕ) (T : List ι) : Prop where
  roots : ∀ k' p' c', ¬ (k' = k ∧ p' = p ∧ c' = c) → q'.roots k' p' c' = q.roots k' p' c'
  entries : ∀ i c', (c' = c → i ∉ T) → q'.entries i c' = q.entries i c'

theorem Frame.trans (h : Frame q q' k p c T) (h' : Frame q' q'' k p c T) :
    Frame q q'' k p c T :=
  ⟨fun k' p' c' hne => (h'.roots k' p' c' hne).trans (h.roots k' p' c' hne),
    fun i c' hi => (h'.entries i c' hi).trans (h.entries i c' hi)⟩

/-! ### Available priorities -/

section Available

variable {b : Prop} [Decidable b] {s : BitSet 64 64}

theorem roots_setAvailable : (if b then q.setAvailable k c s else q).roots = q.roots := by
  split <;> rfl

theorem entries_setAvailable : (if b then q.setAvailable k c s else q).entries = q.entries := by
  split <;> rfl

theorem availablePriorities_setAvailable :
    (if b then q.setAvailable k c s else q).availablePriorities k' c' =
      if k' = k ∧ c' = c then if b then s else q.availablePriorities k c
      else q.availablePriorities k' c' := by
  by_cases hb : b
  · rw [if_pos hb, if_pos hb]
    rfl
  · rw [if_neg hb, if_neg hb]
    split
    · rename_i h
      rw [h.1, h.2]
    · rfl

theorem IsList.setAvailable (h : IsList q k p c l) :
    IsList (if b then q.setAvailable k c s else q) k p c l := by
  refine Ring.congr h ⟨?_, fun i _ => ?_⟩ ⟨?_, fun i _ => ?_⟩ <;>
    simp only [nextOf, prevOf, node, roots_setAvailable, entries_setAvailable]

theorem Frame.setAvailable (h : Frame q q' k p c T) :
    Frame q (if b then q'.setAvailable k c s else q') k p c T := by
  constructor
  · rw [roots_setAvailable]
    exact h.roots
  · rw [entries_setAvailable]
    exact h.entries

end Available

/-! ### All lists -/

/-- The queue is in order for the places of the threads. -/
def Lists (q : KPriorityQueue ι) (place : Places ι) : Prop :=
  ∀ k p c, p ≤ lowestPriority → c < numCores →
    ∃ l, IsList q k p c l ∧ ((q.availablePriorities k c).contains p = true ↔ l ≠ []) ∧
      ∀ i, i ∈ l ↔ place i c = some (k, p)

variable {place place' : Places ι}

/-- The places on the cores there are matter. -/
theorem Lists.congr (h : Lists q place) (hp : ∀ i c, c < numCores → place' i c = place i c) :
    Lists q place' := by
  intro k p c hk hc
  obtain ⟨l, hl, hb, hm⟩ := h k p c hk hc
  exact ⟨l, hl, hb, fun i => by rw [hp i c hc, hm]⟩

/-- The queue is in order for the places of the threads, and these are its lists. -/
def Rows (q : KPriorityQueue ι) (place : Places ι) (L : QueueKind → ℕ → ℕ → List ι) : Prop :=
  ∀ k p c, p ≤ lowestPriority → c < numCores →
    IsList q k p c (L k p c) ∧ ((q.availablePriorities k c).contains p = true ↔ L k p c ≠ []) ∧
      ∀ i, i ∈ L k p c ↔ place i c = some (k, p)

theorem Rows.lists {L : QueueKind → ℕ → ℕ → List ι} (h : Rows q place L) : Lists q place :=
  fun k p c hp hc => ⟨L k p c, h k p c hp hc⟩

theorem Lists.exists_rows (h : Lists q place) : ∃ L, Rows q place L := by
  have hlists : ∀ k p c, ∃ l, p ≤ lowestPriority → c < numCores → IsList q k p c l ∧
      ((q.availablePriorities k c).contains p = true ↔ l ≠ []) ∧
      ∀ i, i ∈ l ↔ place i c = some (k, p) := by
    intro k p c
    by_cases hin : p ≤ lowestPriority ∧ c < numCores
    · obtain ⟨l, hl⟩ := h k p c hin.1 hin.2
      exact ⟨l, fun _ _ => hl⟩
    · exact ⟨[], fun hp hc => absurd ⟨hp, hc⟩ hin⟩
  choose L hL using hlists
  exact ⟨L, hL⟩

/-- The lists with another one for `k`, `p` and `c`. -/
def setList (L : QueueKind → ℕ → ℕ → List ι) (k : QueueKind) (p c : ℕ) (l : List ι) :
    QueueKind → ℕ → ℕ → List ι :=
  fun k' p' c' => if k' = k ∧ p' = p ∧ c' = c then l else L k' p' c'

variable {L : QueueKind → ℕ → ℕ → List ι}

theorem setList_self : setList L k p c l k p c = l := if_pos ⟨rfl, rfl, rfl⟩

theorem setList_of_ne (h : ¬ (k' = k ∧ p' = p ∧ c' = c)) : setList L k p c l k' p' c' = L k' p' c' := if_neg h

/-- **A change of one list.**  The threads written to have no place in another list of the
core, so that the other lists stay what they are. -/
theorem Rows.change (h : Rows q place L) (hf : Frame q q' k p c T)
    (hT : ∀ i ∈ T, ∀ k' p', place i c = some (k', p') → k' = k ∧ p' = p)
    (hl : IsList q' k p c l) (hb : (q'.availablePriorities k c).contains p = true ↔ l ≠ [])
    (hm : ∀ i, i ∈ l ↔ place' i c = some (k, p)) (hb' : ∀ k' p' c', ¬ (k' = k ∧ p' = p ∧ c' = c) →
      (q'.availablePriorities k' c').contains p' = (q.availablePriorities k' c').contains p')
    (hm' : ∀ k' p' c' i, ¬ (k' = k ∧ p' = p ∧ c' = c) → (place' i c' = some (k', p') ↔ place i c' = some (k', p'))) :
    Rows q' place' (setList L k p c l) := by
  intro k' p' c' hp' hc'
  by_cases heq : k' = k ∧ p' = p ∧ c' = c
  · obtain ⟨rfl, rfl, rfl⟩ := heq
    rw [setList_self]
    exact ⟨hl, hb, hm⟩
  · obtain ⟨hl', hbl', hml'⟩ := h k' p' c' hp' hc'
    rw [setList_of_ne heq]
    have hentries : ∀ i ∈ L k' p' c', q'.entries i c' = q.entries i c' := fun i hi =>
      hf.entries i c' fun hc hiT => by
        subst hc
        obtain ⟨rfl, rfl⟩ := hT i hiT k' p' ((hml' i).1 hi)
        exact heq ⟨rfl, rfl, rfl⟩
    refine ⟨Ring.congr hl' ⟨?_, fun i hi => ?_⟩ ⟨?_, fun i hi => ?_⟩, ?_, fun i => ?_⟩
    · exact congrArg QueueEntry.next (hf.roots k' p' c' heq)
    · exact congrArg QueueEntry.next (hentries i hi)
    · exact congrArg QueueEntry.prev (hf.roots k' p' c' heq)
    · exact congrArg QueueEntry.prev (hentries i hi)
    · rw [hb' k' p' c' heq, hbl']
    · rw [hm' k' p' c' i heq, hml']

/-- The flag of a list that was pushed to. -/
theorem contains_pushed (hs : s.contains p = true ↔ l ≠ []) :
    (if l.isEmpty = true then s.setBit p else s).contains p' = (decide (p = p') || s.contains p') := by
  by_cases hl : l = []
  · rw [if_pos (List.isEmpty_iff.2 hl), BitSet.contains_setBit (by decide)]
  · rw [if_neg fun h => hl (List.isEmpty_iff.1 h)]
    by_cases hp : p = p'
    · subst hp
      rw [hs.2 hl, Bool.or_true]
    · rw [decide_eq_false hp, Bool.false_or]

/-- The flag of a list that was removed from. -/
theorem contains_removed :
    (if l.isEmpty = true then s.clearBit p else s).contains p' =
      (!(l.isEmpty && decide (p = p')) && s.contains p') := by
  by_cases hl : l.isEmpty = true
  · rw [if_pos hl, BitSet.contains_clearBit (by decide), hl, Bool.true_and]
  · rw [if_neg hl, Bool.not_eq_true] at *
    rw [hl, Bool.false_and, Bool.not_false, Bool.true_and]

/-- The threads pushed, or in a list already, have no other place on the core. -/
theorem Lists.mem_push (hm : place m c = none) (hl : ∀ i, i ∈ l ↔ place i c = some (k, p)) :
    m ∉ l ∧ ∀ i ∈ m :: l, ∀ k' p', place i c = some (k', p') → k' = k ∧ p' = p := by
  refine ⟨fun h => ?_, fun i hi k' p' hp' => ?_⟩
  · rw [hl, hm] at h
    cases h
  · rcases mem_cons.1 hi with rfl | hi
    · rw [hm] at hp'
      cases hp'
    · rw [(hl i).1 hi] at hp'
      cases hp'
      exact ⟨rfl, rfl⟩

/-- The list a thread has its place in, around it. -/
theorem Lists.split (h : Lists q place) (hp : p ≤ lowestPriority) (hc : c < numCores) (hm : place m c = some (k, p)) :
    ∃ l₁ l₂, IsList q k p c (l₁ ++ m :: l₂) ∧ (q.availablePriorities k c).contains p = true ∧
      (∀ i, i ∈ l₁ ++ m :: l₂ ↔ place i c = some (k, p)) ∧
      ∀ i ∈ l₁ ++ m :: l₂, ∀ k' p', place i c = some (k', p') → k' = k ∧ p' = p := by
  obtain ⟨l, hl, hb, hmem⟩ := h k p c hp hc
  obtain ⟨l₁, l₂, rfl⟩ := append_of_mem ((hmem m).2 hm)
  refine ⟨l₁, l₂, hl, hb.2 (by simp), hmem, fun i hi k' p' hp' => ?_⟩
  rw [(hmem i).1 hi] at hp'
  cases hp'
  exact ⟨rfl, rfl⟩

variable [DecidableEq ι]

/-! ### Operations on one list -/

theorem frame_setNode (hx : ∀ i, x = some i → i ∈ T) :
    Frame q (q.setNode k p c x e) k p c T := by
  cases x with
  | none => exact ⟨fun k' p' c' hne => if_neg hne, fun i c' _ => rfl⟩
  | some j =>
    refine ⟨fun k' p' c' _ => rfl, fun i c' hi => if_neg ?_⟩
    rintro ⟨rfl, rfl⟩
    exact hi rfl (hx i rfl)

theorem frame_setNext (hx : ∀ i, x = some i → i ∈ T) :
    Frame q (q.setNext k p c x v) k p c T :=
  frame_setNode hx

theorem frame_setPrev (hx : ∀ i, x = some i → i ∈ T) :
    Frame q (q.setPrev k p c x v) k p c T :=
  frame_setNode hx

/-- **`KPerCoreQueue::PushBack`.** -/
theorem IsList.perCorePushBack (h : IsList q k p c l) (hm : m ∉ l) :
    IsList (q.perCorePushBack k p c m).2 k p c (l ++ [m]) ∧ (q.perCorePushBack k p c m).1 = l.isEmpty ∧
      Frame q (q.perCorePushBack k p c m).2 k p c (m :: l) ∧
      (q.perCorePushBack k p c m).2.availablePriorities = q.availablePriorities := by
  rw [KPriorityQueue.perCorePushBack]
  dsimp only
  rw [h.tail]
  have hself : ∀ i, some m = some i → i ∈ m :: l := fun i hi => by
    rw [← Option.some.inj hi]
    exact mem_cons_self
  refine ⟨?_, ?_, ?_, by simp⟩
  · rw [IsList, nextOf_setPrev, nextOf_setNext, nextOf_setNext, nextOf_setPrev, prevOf_setPrev,
      prevOf_setNext, prevOf_setNext, prevOf_setPrev]
    have hring : Ring (q.nextOf k p c) (q.prevOf k p c) (l ++ []) := by
      rw [append_nil]
      exact h
    exact hring.insert (by rwa [append_nil])
  · rw [Bool.eq_iff_iff, Option.isNone_iff_eq_none, lastNode_eq_none, List.isEmpty_iff]
  · exact (((frame_setPrev hself).trans (frame_setNext hself)).trans
      (frame_setNext fun i hi => mem_cons_of_mem m (mem_of_lastNode hi))).trans
      (frame_setPrev fun i hi => by cases hi)

/-- **`KPerCoreQueue::PushFront`.** -/
theorem IsList.perCorePushFront (h : IsList q k p c l) (hm : m ∉ l) :
    IsList (q.perCorePushFront k p c m).2 k p c (m :: l) ∧ (q.perCorePushFront k p c m).1 = l.isEmpty ∧
      Frame q (q.perCorePushFront k p c m).2 k p c (m :: l) ∧
      (q.perCorePushFront k p c m).2.availablePriorities = q.availablePriorities := by
  rw [KPriorityQueue.perCorePushFront]
  dsimp only
  rw [h.head]
  have hself : ∀ i, some m = some i → i ∈ m :: l := fun i hi => by
    rw [← Option.some.inj hi]
    exact mem_cons_self
  have hhead : ∀ i, lastNode none l.reverse = some i → i ∈ m :: l := fun i hi => by
    exact mem_cons_of_mem m (mem_reverse.1 (mem_of_lastNode hi))
  refine ⟨?_, ?_, ?_, by simp⟩
  · rw [IsList, nextOf_setNext, nextOf_setPrev, nextOf_setNext, nextOf_setPrev, prevOf_setNext,
      prevOf_setPrev, prevOf_setNext, prevOf_setPrev]
    have hnil : Ring (q.nextOf k p c) (q.prevOf k p c) ([] ++ l) := h
    exact hnil.insert hm
  · rw [Bool.eq_iff_iff, Option.isNone_iff_eq_none, lastNode_eq_none, List.isEmpty_iff, reverse_eq_nil_iff]
  · exact (((frame_setPrev hself).trans (frame_setNext hself)).trans
      (frame_setPrev hhead)).trans (frame_setNext fun i hi => by cases hi)

/-- **`KPerCoreQueue::Remove`.** -/
theorem IsList.perCoreRemove (h : IsList q k p c (l₁ ++ m :: l₂)) :
    IsList (q.perCoreRemove k p c m).2 k p c (l₁ ++ l₂) ∧ (q.perCoreRemove k p c m).1 = (l₁ ++ l₂).isEmpty ∧
      Frame q (q.perCoreRemove k p c m).2 k p c (l₁ ++ m :: l₂) ∧
      (q.perCoreRemove k p c m).2.availablePriorities = q.availablePriorities := by
  have hprev : (q.entries m c).prev = lastNode none l₁ := Ring.prev_eq h
  have hnext : (q.entries m c).next = lastNode none l₂.reverse := by
    have hs := Ring.symm h
    rw [reverse_append, reverse_cons, append_assoc, singleton_append] at hs
    exact hs.prev_eq
  have hmem₁ : ∀ i, lastNode none l₁ = some i → i ∈ l₁ ++ m :: l₂ := fun i hi =>
    mem_append_left _ (mem_of_lastNode hi)
  have hmem₂ : ∀ i, lastNode none l₂.reverse = some i → i ∈ l₁ ++ m :: l₂ := fun i hi =>
    mem_append_right l₁ (mem_cons_of_mem m (mem_reverse.1 (mem_of_lastNode hi)))
  have hring : IsList (q.perCoreRemove k p c m).2 k p c (l₁ ++ l₂) := by
    rw [KPriorityQueue.perCoreRemove, IsList]
    dsimp only
    rw [nextOf_setPrev, nextOf_setNext, prevOf_setPrev, prevOf_setNext]
    exact Ring.remove h
  refine ⟨hring, ?_, ?_, by simp [KPriorityQueue.perCoreRemove]⟩
  · rw [Bool.eq_iff_iff, List.isEmpty_iff]
    have hhead := hring.head
    rw [KPriorityQueue.perCoreRemove] at hhead ⊢
    dsimp only at hhead ⊢
    rw [perCoreGetFront, hhead, Option.isNone_iff_eq_none, lastNode_eq_none, reverse_eq_nil_iff]
  · rw [KPriorityQueue.perCoreRemove]
    dsimp only
    rw [hprev, hnext]
    exact (frame_setNext hmem₁).trans (frame_setPrev hmem₂)

/-! ### The operations on all lists -/

/-- The places after `m` moved on the core `c`. -/
def put (place : Places ι) (m : ι) (c : ℕ) (v : Option (QueueKind × ℕ)) : Places ι :=
  Function.update place m (Function.update (place m) c v)

theorem put_self {v : Option (QueueKind × ℕ)} : put place m c v m c = v := by
  rw [put, update_self, update_self]

theorem put_of_ne {w : Option (QueueKind × ℕ)} (h : ¬ (i = m ∧ c' = c)) :
    put place m c w i c' = place i c' := by
  rw [put]
  by_cases hi : i = m
  · subst hi
    rw [update_self, update_of_ne fun hc => h ⟨rfl, hc⟩]
  · rw [update_of_ne hi]

/-- Changing the place of one thread, out of or into a list, changes that list only. -/
theorem put_iff {v : Option (QueueKind × ℕ)} (hv : v = none ∨ v = some (k, p))
    (hm : place m c = none ∨ place m c = some (k, p)) (hne : ¬ (k' = k ∧ p' = p ∧ c' = c)) :
    put place m c v i c' = some (k', p') ↔ place i c' = some (k', p') := by
  by_cases h : i = m ∧ c' = c
  · obtain ⟨rfl, rfl⟩ := h
    rw [put_self]
    have hkp : (k, p) ≠ (k', p') := fun he => by
      cases he
      exact hne ⟨rfl, rfl, rfl⟩
    rcases hv with rfl | rfl <;> rcases hm with hm | hm <;> simp [hm, hkp]
  · rw [put_of_ne h]

/-- **A push** of a thread that has no place on the core. -/
theorem Rows.pushed (h : Rows q place L)
    (hp : p ≤ lowestPriority) (hc : c < numCores) (hm : place m c = none) (hmem' : ∀ i, i ∈ l' ↔ i = m ∨ i ∈ L k p c)
    (hpush : IsList q k p c (L k p c) → m ∉ L k p c →
      IsList q₁ k p c l' ∧ empty = (L k p c).isEmpty ∧ Frame q q₁ k p c (m :: L k p c) ∧
      q₁.availablePriorities = q.availablePriorities) :
    Rows (if empty then q₁.setAvailable k c ((q₁.availablePriorities k c).setBit p) else q₁)
      (put place m c (some (k, p))) (setList L k p c l') := by
  obtain ⟨hl, hb, hmem⟩ := h k p c hp hc
  obtain ⟨hnot, hT⟩ := Lists.mem_push hm hmem
  obtain ⟨hl', rfl, hf, ha⟩ := hpush hl hnot
  refine h.change (T := m :: L k p c) hf.setAvailable hT hl'.setAvailable ?_ (fun i => ?_)
    (fun k' p' c' hne => ?_) fun k' p' c' i hne => put_iff (Or.inr rfl) (Or.inl hm) hne
  · rw [availablePriorities_setAvailable, if_pos ⟨rfl, rfl⟩, ha, contains_pushed hb, decide_eq_true rfl, Bool.true_or]
    exact ⟨fun _ h => not_mem_nil (h ▸ (hmem' m).2 (Or.inl rfl)), fun _ => rfl⟩
  · rw [hmem']
    by_cases hi : i = m
    · subst hi
      rw [put_self]
      exact ⟨fun _ => rfl, fun _ => Or.inl rfl⟩
    · rw [put_of_ne fun h => hi h.1, ← hmem]
      exact ⟨fun h => h.resolve_left hi, Or.inr⟩
  · rw [availablePriorities_setAvailable, ha]
    by_cases hkc : k' = k ∧ c' = c
    · obtain ⟨rfl, rfl⟩ := hkc
      rw [if_pos ⟨rfl, rfl⟩, contains_pushed hb, decide_eq_false fun h => hne ⟨rfl, h.symm, rfl⟩, Bool.false_or]
    · rw [if_neg hkc]

theorem Lists.pushed (h : Lists q place) (hp : p ≤ lowestPriority) (hc : c < numCores) (hm : place m c = none)
    (hpush : ∀ l, IsList q k p c l → m ∉ l → ∃ l', (∀ i, i ∈ l' ↔ i = m ∨ i ∈ l) ∧
      IsList q₁ k p c l' ∧ empty = l.isEmpty ∧ Frame q q₁ k p c (m :: l) ∧
      q₁.availablePriorities = q.availablePriorities) :
    Lists (if empty then q₁.setAvailable k c ((q₁.availablePriorities k c).setBit p) else q₁)
      (put place m c (some (k, p))) := by
  obtain ⟨L, hL⟩ := h.exists_rows
  obtain ⟨hl, -, hmem⟩ := hL k p c hp hc
  obtain ⟨l', hmem', hl'⟩ := hpush (L k p c) hl (Lists.mem_push hm hmem).1
  exact (hL.pushed hp hc hm hmem' fun _ _ => hl').lists

/-- What the operations on one list begin with, for valid arguments. -/
theorem wp_onList {α : Type} {ignored f : α} {Q : α → Bool → Prop} (hp : isValidPriority p)
    (hc : c < numCores) (hQ : Q (if p ≤ lowestPriority then f else ignored) true) :
    wp (onList p c ignored f) Q := by
  have hc' : isValidCore c := hc
  rw [onList]
  simp only [wp_bind, wp_assert, decide_eq_true hp, decide_eq_true hc']
  by_cases h : p ≤ lowestPriority
  · rw [if_pos h] at hQ
    rw [if_neg (by omega), if_pos hc', pure_eq, wp_ret]
    exact hQ
  · rw [if_neg h] at hQ
    rw [if_pos (by omega), pure_eq, wp_ret]
    exact hQ

/-- Taking a place that is none leaves a thread without one. -/
theorem put_none (hm : place m c = none) : put place m c none = place := by
  rw [put, ← hm, update_eq_self, update_eq_self]

/-- **`KPriorityQueueImpl::PushBack`**, with the list that it leaves. -/
theorem Rows.implPushBack (h : Rows q place L) (hp : p ≤ lowestPriority) (hc : c < numCores) (hm : place m c = none) :
    wp (q.implPushBack k p c m) fun q' held =>
      held = true ∧ Rows q' (put place m c (some (k, p))) (setList L k p c (L k p c ++ [m])) := by
  refine wp_onList (Nat.le_succ_of_le hp) hc ⟨rfl, ?_⟩
  rw [if_pos hp]
  refine h.pushed hp hc hm (fun i => ?_) fun hl hnot => hl.perCorePushBack hnot
  rw [mem_append, mem_singleton, or_comm]

section

variable (h : Lists q place) (hp : isValidPriority p) (hc : c < numCores) (hm : place m c = none)

include h hp hc hm

/-- **`KPriorityQueueImpl::PushBack`.** -/
theorem Lists.implPushBack :
    wp (q.implPushBack k p c m) fun q' held =>
      held = true ∧ Lists q' (put place m c (listAt k p)) := by
  refine wp_onList hp hc ⟨rfl, ?_⟩
  rw [listAt]
  split
  · refine h.pushed (by assumption) hc hm fun l hl hnot => ⟨l ++ [m], fun i => ?_, ?_⟩
    · rw [mem_append, mem_singleton, or_comm]
    · exact hl.perCorePushBack hnot
  · rwa [put_none hm]

/-- **`KPriorityQueueImpl::PushFront`.** -/
theorem Lists.implPushFront :
    wp (q.implPushFront k p c m) fun q' held =>
      held = true ∧ Lists q' (put place m c (listAt k p)) := by
  refine wp_onList hp hc ⟨rfl, ?_⟩
  rw [listAt]
  split
  · refine h.pushed (by assumption) hc hm fun l hl hnot => ⟨m :: l, fun i => ?_, ?_⟩
    · rw [mem_cons]
    · exact hl.perCorePushFront hnot
  · rwa [put_none hm]

end

/-- **`KPriorityQueueImpl::Remove`** of a thread from its place, with the list that it leaves. -/
theorem Rows.implRemove (h : Rows q place L) (hp : p ≤ lowestPriority) (hc : c < numCores)
    (hm : place m c = some (k, p)) :
    wp (q.implRemove k p c m) fun q' held =>
      held = true ∧ Rows q' (put place m c none) (setList L k p c ((L k p c).erase m)) := by
  refine wp_onList (Nat.le_succ_of_le hp) hc ⟨rfl, ?_⟩
  rw [if_pos hp]
  obtain ⟨hl, hb, hmem⟩ := h k p c hp hc
  obtain ⟨l₁, l₂, hsplit⟩ := append_of_mem ((hmem m).2 hm)
  have hbit := hb.2 (ne_nil_of_mem ((hmem m).2 hm))
  have hT : ∀ i ∈ L k p c, ∀ k' p', place i c = some (k', p') → k' = k ∧ p' = p := by
    intro i hi k' p' hp'
    rw [(hmem i).1 hi] at hp'
    cases hp'
    exact ⟨rfl, rfl⟩
  rw [hsplit] at hl hmem hT ⊢
  obtain ⟨hl', hempty, hf, ha⟩ := hl.perCoreRemove
  have hn := (nodup_cons.1 (nodup_middle.1 (Ring.nodup hl))).1
  have herase : (l₁ ++ m :: l₂).erase m = l₁ ++ l₂ := by
    rw [erase_append_right _ fun hm₁ => hn (mem_append_left l₂ hm₁), erase_cons_head]
  dsimp only
  rw [hempty, herase]
  refine h.change (T := l₁ ++ m :: l₂) hf.setAvailable hT hl'.setAvailable ?_ (fun i => ?_)
    (fun k' p' c' hne => ?_) fun k' p' c' i hne => put_iff (Or.inl rfl) (Or.inr hm) hne
  · rw [availablePriorities_setAvailable, if_pos ⟨rfl, rfl⟩, ha, contains_removed, hbit, decide_eq_true rfl]
    simp
  · by_cases hi : i = m
    · subst hi
      rw [put_self]
      exact ⟨fun h => absurd h hn, fun h => by cases h⟩
    · rw [put_of_ne fun h => hi h.1, ← hmem]
      simp [hi]
  · rw [availablePriorities_setAvailable, ha]
    by_cases hkc : k' = k ∧ c' = c
    · obtain ⟨rfl, rfl⟩ := hkc
      rw [if_pos ⟨rfl, rfl⟩, contains_removed, decide_eq_false fun h => hne ⟨rfl, h.symm, rfl⟩,
        Bool.and_false, Bool.not_false, Bool.true_and]
    · rw [if_neg hkc]

/-- **`KPriorityQueueImpl::Remove`** of a thread from its place. -/
theorem Lists.implRemove (h : Lists q place) (hp : isValidPriority p) (hc : c < numCores)
    (hm : place m c = listAt k p) :
    wp (q.implRemove k p c m) fun q' held => held = true ∧ Lists q' (put place m c none) := by
  rw [listAt] at hm
  split at hm
  case isFalse hp' =>
    refine wp_onList hp hc ⟨rfl, ?_⟩
    rwa [if_neg hp', put_none hm]
  case isTrue hp' =>
    obtain ⟨L, hL⟩ := h.exists_rows
    exact wp_mono (hL.implRemove hp' hc hm) fun q' held hq => ⟨hq.1, hq.2.lists⟩

/-- Removing a thread from its list and pushing it again there. -/
theorem Lists.moved {q₂ : KPriorityQueue ι} (h : Lists q place) (hp : p ≤ lowestPriority)
    (hc : c < numCores) (hm : place m c = some (k, p))
    (hpush : ∀ l, IsList (q.perCoreRemove k p c m).2 k p c l → m ∉ l →
      ∃ l', (∀ i, i ∈ l' ↔ i = m ∨ i ∈ l) ∧ IsList q₂ k p c l' ∧ Frame (q.perCoreRemove k p c m).2 q₂ k p c (m :: l) ∧
        q₂.availablePriorities = (q.perCoreRemove k p c m).2.availablePriorities) :
    Lists q₂ place := by
  obtain ⟨l₁, l₂, hl, hbit, hmem, hT⟩ := h.split hp hc hm
  obtain ⟨hl', -, hf, ha⟩ := hl.perCoreRemove
  have hn := (nodup_cons.1 (nodup_middle.1 (Ring.nodup hl))).1
  obtain ⟨l', hmem', hl'', hf', ha'⟩ := hpush _ hl' hn
  have hiff : ∀ i, i ∈ l' ↔ i ∈ l₁ ++ m :: l₂ := fun i => by
    rw [hmem']
    simp only [mem_append, mem_cons]
    tauto
  obtain ⟨L, hL⟩ := h.exists_rows
  refine (hL.change (T := l₁ ++ m :: l₂) (hf.trans ⟨hf'.roots, fun i c' hi => ?_⟩) hT hl'' ?_
    (fun i => by rw [hiff, hmem]) (fun k' p' c' _ => by rw [ha', ha]) fun _ _ _ _ _ => Iff.rfl).lists
  · refine hf'.entries i c' fun hc hi' => hi hc ?_
    simp only [mem_append, mem_cons] at hi' ⊢
    tauto
  · rw [ha', ha, hbit]
    exact ⟨fun _ h => not_mem_nil (h ▸ (hmem' m).2 (Or.inl rfl)), fun _ => rfl⟩

section

variable (h : Lists q place) (hp : isValidPriority p) (hc : c < numCores) (hm : place m c = listAt k p)

include h hp hc hm

/-- **`KPriorityQueueImpl::MoveToFront`.** -/
theorem Lists.implMoveToFront :
    wp (q.implMoveToFront k p c m) fun q' held => held = true ∧ Lists q' place := by
  refine wp_onList hp hc ⟨rfl, ?_⟩
  split
  case isFalse => exact h
  case isTrue hp' =>
    rw [listAt, if_pos hp'] at hm
    refine h.moved hp' hc hm fun l hl hnot => ⟨m :: l, fun i => mem_cons, ?_⟩
    obtain ⟨hl', -, hf, ha⟩ := hl.perCorePushFront hnot
    exact ⟨hl', hf, ha⟩

/-- **`KPriorityQueueImpl::MoveToBack`.** -/
theorem Lists.implMoveToBack :
    wp (q.implMoveToBack k p c m) fun r held => held = true ∧ Lists r.2 place := by
  refine wp_onList hp hc ⟨rfl, ?_⟩
  split
  case isFalse => exact h
  case isTrue hp' =>
    rw [listAt, if_pos hp'] at hm
    refine h.moved hp' hc hm fun l hl hnot => ⟨l ++ [m], fun i => ?_, ?_⟩
    · rw [mem_append, mem_singleton, or_comm]
    · obtain ⟨hl', -, hf, ha⟩ := hl.perCorePushBack hnot
      exact ⟨hl', hf, ha⟩

end

end KPriorityQueue
end Kernel
end NXEmu
