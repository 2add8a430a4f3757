/-
# How threads and lock infos hang together

`src/nxemu-os/core/hle/kernel/k_thread.h` and `k_thread.cpp`, `AddWaiterImpl`,
`RemoveWaiterImpl` and `RemoveWaiterByKey`.

`Links` is the part of a state that ties threads and lock infos together, and
`Links.Ok` says that they fit: the waiters of an info point back to it, an info with
waiters is in the list of its owner and no other one is in a list, no owner has two
infos for one key, the waiters of an info have its key and are in order of their
priorities, and the counters count.

What the functions of a thread do to the links is made of three changes, and each keeps
them fitting: a waiter leaves its info (`Links.detach`), and one joins an info its owner
has (`Links.attach`) or gets a new one (`Links.attachNew`).
-/

import NXEmu.Kernel.ThreadLock
import Mathlib.Algebra.BigOperators.Group.List.Basic
import Mathlib.Algebra.Order.BigOperators.Group.List
import Mathlib.Algebra.Order.Group.Int
import Mathlib.Algebra.Ring.Int.Defs

namespace NXEmu
namespace Kernel

open Function List

variable {ι : Type}

/-- The key of a lock: its address and whether that is one of the kernel. -/
def LockInfo.key (l : LockInfo ι) : ℕ × Bool := (l.addressKey, l.isKernelAddressKey)

/-- The kernel waiters of an info. -/
def LockInfo.kernelWaiters (l : LockInfo ι) : ℤ :=
  if l.isKernelAddressKey then (l.tree.length : ℤ) else 0

/-- An info without one of its waiters. -/
def LockInfo.remove [DecidableEq ι] (l : LockInfo ι) (t : ι) : LockInfo ι :=
  { l with tree := l.tree.erase t, waiterCount := l.waiterCount - 1 }

/-- An info with one more waiter. -/
def LockInfo.add (l : LockInfo ι) (priority : ι → ℤ) (t : ι) : LockInfo ι :=
  { l with
    tree := l.tree.orderedInsert (fun a b => priority a < priority b) t
    waiterCount := l.waiterCount + 1 }

/-- An info in itself: it has an owner when it has waiters, which it counts and which have
its key and come in order of their priorities. -/
structure LockInfo.Ok (key : ι → ℕ × Bool) (priority : ι → ℤ) (l : LockInfo ι) : Prop where
  owned : l.tree ≠ [] → ∃ o, l.owner = some o
  nodup : l.tree.Nodup
  sorted : l.tree.Pairwise fun w w' => priority w ≤ priority w'
  count : l.waiterCount = l.tree.length
  keys : ∀ w ∈ l.tree, key w = l.key

/-- What ties threads and lock infos together. -/
structure Links (ι : Type) where
  waiting : ι → Option ℕ
  held : ι → List ℕ
  kernelWaiters : ι → ℤ
  key : ι → ℕ × Bool
  priority : ι → ℤ
  info : ℕ → LockInfo ι
  numInfos : ℕ

variable {f : ℕ → LockInfo ι} {l : LockInfo ι}

namespace Links

variable {L : Links ι} {t u o n : ι} {i j : ℕ}

/-- The owner of the lock a thread waits for. -/
def owner (L : Links ι) (t : ι) : Option ι := (L.waiting t).bind fun i => (L.info i).owner

/-- Threads and lock infos fit. -/
structure Ok (L : Links ι) : Prop where
  waiting : ∀ t i, L.waiting t = some i ↔ t ∈ (L.info i).tree
  held : ∀ o i, i ∈ L.held o ↔ (L.info i).owner = some o ∧ (L.info i).tree ≠ []
  heldNodup : ∀ o, (L.held o).Nodup
  fresh : ∀ i, L.numInfos ≤ i → (L.info i).tree = []
  info : ∀ i, (L.info i).Ok L.key L.priority
  kernel : ∀ o, L.kernelWaiters o = ((L.held o).map fun i => (L.info i).kernelWaiters).sum

/-- No thread has two infos for one key. -/
def Unique (L : Links ι) : Prop :=
  ∀ o, ∀ i ∈ L.held o, ∀ j ∈ L.held o, (L.info i).key = (L.info j).key → i = j

namespace Ok

/-- A waiter and the owner it waits for. -/
theorem owner_eq_some (h : L.Ok) : L.owner t = some o ↔ ∃ i ∈ L.held o, t ∈ (L.info i).tree := by
  rw [owner, Option.bind_eq_some_iff]
  constructor
  · rintro ⟨i, hi, ho⟩
    have ht := (h.waiting t i).1 hi
    exact ⟨i, (h.held o i).2 ⟨ho, ne_nil_of_mem ht⟩, ht⟩
  · rintro ⟨i, hi, ht⟩
    exact ⟨i, (h.waiting t i).2 ht, ((h.held o i).1 hi).1⟩

/-- A thread that waits has an owner it waits for. -/
theorem owner_eq_none (h : L.Ok) : L.owner t = none ↔ L.waiting t = none := by
  constructor
  · intro hnone
    by_contra hw
    obtain ⟨i, hi⟩ := Option.ne_none_iff_exists'.1 hw
    obtain ⟨o, ho⟩ := (h.info i).owned (ne_nil_of_mem ((h.waiting t i).1 hi))
    rw [owner, hi, Option.bind_some, ho] at hnone
    cases hnone
  · intro hw
    rw [owner, hw]
    rfl

/-- Threads in the tree of another info. -/
theorem notMem_of_ne (h : L.Ok) (hi : t ∈ (L.info i).tree) (hij : j ≠ i) :
    t ∉ (L.info j).tree := fun hj => by
  have := (h.waiting t i).2 hi
  rw [(h.waiting t j).2 hj, Option.some.injEq] at this
  exact hij this

theorem heldOf_eq (h : L.Ok) (hi : i ∈ L.held o) (hn : i ∈ L.held n) : o = n := by
  have h₁ := ((h.held o i).1 hi).1
  rw [((h.held n i).1 hn).1, Option.some.injEq] at h₁
  exact h₁.symm

theorem kernelWaiters_nonneg (l : LockInfo ι) : 0 ≤ l.kernelWaiters := by
  rw [LockInfo.kernelWaiters]
  split <;> omega

/-- A thread counts the kernel waiters of an info it holds. -/
theorem kernelWaiters_le (h : L.Ok) (hi : i ∈ L.held o) :
    (L.info i).kernelWaiters ≤ L.kernelWaiters o := by
  rw [h.kernel, ← sum_map_erase _ hi]
  have : 0 ≤ (((L.held o).erase i).map fun i => (L.info i).kernelWaiters).sum :=
    sum_nonneg fun x hx => by
      obtain ⟨j, -, rfl⟩ := mem_map.1 hx
      exact kernelWaiters_nonneg _
  omega

theorem kernelWaiters_total (h : L.Ok) (o : ι) : 0 ≤ L.kernelWaiters o := by
  rw [h.kernel]
  exact sum_nonneg fun x hx => by
    obtain ⟨j, -, rfl⟩ := mem_map.1 hx
    exact kernelWaiters_nonneg _

end Ok

/-- What holds of all infos after one of them changed. -/
theorem forall_info {p : LockInfo ι → Prop} (hf : ∀ j, p (f j)) (hl : p l) (j : ℕ) : p (update f i l j) := by
  by_cases hj : j = i
  · rwa [hj, update_self]
  · rw [update_of_ne hj]
    exact hf j

variable [DecidableEq ι]

/-! ### A waiter leaves -/

/-- The waiter `t` of the info `i` of `o` leaves, and with the last waiter the info goes. -/
def detach (L : Links ι) (t : ι) (i : ℕ) (o : ι) : Links ι :=
  { L with
    waiting := Function.update L.waiting t none
    held := Function.update L.held o
      (if (L.info i).tree.erase t = [] then (L.held o).erase i else L.held o)
    kernelWaiters := Function.update L.kernelWaiters o
      (L.kernelWaiters o - if (L.info i).isKernelAddressKey then 1 else 0)
    info := Function.update L.info i ((L.info i).remove t) }

theorem kernelWaiters_remove (ht : t ∈ l.tree) :
    (l.remove t).kernelWaiters = l.kernelWaiters - if l.isKernelAddressKey then 1 else 0 := by
  rw [LockInfo.kernelWaiters, LockInfo.kernelWaiters, LockInfo.remove]
  dsimp only
  have hlen := length_erase_of_mem ht
  have hpos := length_pos_of_mem ht
  split <;> omega

/-- The kernel waiters of a list of infos one of which changes. -/
theorem sum_update {l : List ℕ} {f : ℕ → ℤ} {g : ℕ → ℤ} (hl : l.Nodup) (hi : i ∈ l)
    (hg : ∀ j ∈ l, j ≠ i → g j = f j) : (l.map g).sum = (l.map f).sum + (g i - f i) := by
  rw [← sum_map_erase g hi, ← sum_map_erase f hi, map_congr_left fun j hj => hg j (mem_of_mem_erase hj) fun hji => ?_]
  · omega
  · exact (hl.not_mem_erase) (hji ▸ hj)

/-- The infos held when a waiter has left. -/
theorem Ok.mem_detach (h : L.Ok) (ho : i ∈ L.held o) : j ∈ (L.detach t i o).held n ↔
    j ∈ L.held n ∧ ¬ (j = i ∧ (L.info i).tree.erase t = []) := by
  change j ∈ update L.held o _ n ↔ _
  by_cases hn : n = o
  · subst hn
    rw [update_self]
    by_cases he : (L.info i).tree.erase t = []
    · rw [if_pos he, (h.heldNodup n).mem_erase_iff]
      simp only [he, and_true]
      exact and_comm
    · rw [if_neg he]
      simp only [he, and_false, not_false_eq_true, and_true]
  · rw [update_of_ne hn]
    refine ⟨fun hj => ⟨hj, ?_⟩, And.left⟩
    rintro ⟨rfl, -⟩
    exact hn (h.heldOf_eq hj ho)

/-- **A waiter leaves.** -/
theorem Ok.detach (h : L.Ok) (ht : t ∈ (L.info i).tree) (ho : i ∈ L.held o) :
    (L.detach t i o).Ok := by
  have hnodup := (h.info i).nodup
  have howner := ((h.held o i).1 ho).1
  set l := (L.info i).remove t with hl
  have htree : l.tree = (L.info i).tree.erase t := rfl
  set held := update L.held o
    (if (L.info i).tree.erase t = [] then (L.held o).erase i else L.held o) with hheld
  have hmem : ∀ {o' j}, j ∈ held o' ↔ j ∈ L.held o' ∧ ¬ (j = i ∧ l.tree = []) :=
    h.mem_detach ho
  refine ⟨fun u j => ?_, fun o' j => ?_, fun o' => ?_, fun j hj => ?_,
    forall_info h.info ⟨fun _ => ⟨o, howner⟩, hnodup.erase t,
      (h.info i).sorted.sublist erase_sublist, ?_, fun w hw => ?_⟩, fun o' => ?_⟩
  · -- the links back
    change update L.waiting t none u = some j ↔ u ∈ (update L.info i l j).tree
    by_cases hut : u = t
    · subst hut
      rw [update_self]
      refine ⟨(fun hu => by cases hu), fun hu => ?_⟩
      by_cases hj : j = i
      · rw [hj, update_self] at hu
        exact absurd hu hnodup.not_mem_erase
      · rw [update_of_ne hj] at hu
        exact absurd hu (h.notMem_of_ne ht hj)
    · rw [update_of_ne hut, h.waiting]
      by_cases hj : j = i
      · rw [hj, update_self]
        exact (mem_erase_of_ne hut).symm
      · rw [update_of_ne hj]
  · change j ∈ held o' ↔ (update L.info i l j).owner = some o' ∧ (update L.info i l j).tree ≠ []
    rw [hmem, h.held]
    by_cases hj : j = i
    · subst hj
      rw [update_self]
      constructor
      · rintro ⟨⟨h₁, -⟩, h₂⟩
        exact ⟨h₁, fun he => h₂ ⟨rfl, he⟩⟩
      · rintro ⟨h₁, h₂⟩
        exact ⟨⟨h₁, ne_nil_of_mem ht⟩, fun he => h₂ he.2⟩
    · rw [update_of_ne hj]
      simp only [hj, false_and, not_false_eq_true, and_true]
  · change (held o').Nodup
    rw [hheld]
    by_cases ho' : o' = o
    · subst ho'
      rw [update_self]
      split
      · exact (h.heldNodup o').erase i
      · exact h.heldNodup o'
    · rw [update_of_ne ho']
      exact h.heldNodup o'
  · change (update L.info i l j).tree = []
    have hji : j ≠ i := by
      rintro rfl
      rw [h.fresh j hj] at ht
      cases ht
    rw [update_of_ne hji]
    exact h.fresh j hj
  · change (L.info i).waiterCount - 1 = ((L.info i).tree.erase t).length
    have hlen := length_erase_of_mem ht
    have hpos := length_pos_of_mem ht
    rw [(h.info i).count, hlen]
    omega
  · exact (h.info i).keys w (mem_of_mem_erase hw)
  · change update L.kernelWaiters o
      (L.kernelWaiters o - if (L.info i).isKernelAddressKey then 1 else 0) o' =
      ((held o').map fun j => (update L.info i l j).kernelWaiters).sum
    have hcount := kernelWaiters_remove ht
    rw [← hl] at hcount
    by_cases ho' : o' = o
    · subst ho'
      rw [update_self, h.kernel, hheld, update_self]
      have hsum := sum_update (f := fun j => (L.info j).kernelWaiters)
        (g := fun j => (update L.info i l j).kernelWaiters) (h.heldNodup o') ho
        fun j _ hj => by rw [update_of_ne hj]
      rw [update_self, hcount] at hsum
      by_cases he : (L.info i).tree.erase t = []
      · rw [if_pos he]
        have hzero : l.kernelWaiters = 0 := by
          rw [LockInfo.kernelWaiters, show l.tree = [] from he]
          exact ite_self 0
        rw [← sum_map_erase _ ho, update_self, hzero] at hsum
        omega
      · rw [if_neg he, hsum]
        omega
    · rw [update_of_ne ho', h.kernel, hheld, update_of_ne ho']
      refine congrArg sum (map_congr_left fun j hj => ?_)
      have hji : j ≠ i := by
        rintro rfl
        exact ho' (h.heldOf_eq hj ho)
      rw [update_of_ne hji]

omit [DecidableEq ι] in
/-- The keys of the infos after a change that leaves the key of an info alone. -/
theorem key_update (hl : l.key = (f i).key) :
    (update f i l j).key = (f j).key := by
  by_cases hj : j = i
  · rw [hj, update_self, hl]
  · rw [update_of_ne hj]

theorem Unique.detach (hu : L.Unique) (h : L.Ok) (ho : i ∈ L.held o) :
    (L.detach t i o).Unique := by
  intro o' j hj k hk hjk
  have hkey : ∀ j, ((L.detach t i o).info j).key = (L.info j).key := fun j => key_update rfl
  rw [hkey, hkey] at hjk
  exact hu o' j ((h.mem_detach ho).1 hj).1 k ((h.mem_detach ho).1 hk).1 hjk

/-! ### A waiter joins -/

omit [DecidableEq ι] in
/-- An element goes behind those it is not less than. -/
theorem pairwise_orderedInsert {κ : Type} [LinearOrder κ] {rank : ι → κ} {less : ι → ι → Prop}
    [DecidableRel less] {l : List ι} (hless : ∀ a b, less a b ↔ rank a < rank b)
    (h : l.Pairwise fun a b => rank a ≤ rank b) :
    (l.orderedInsert less t).Pairwise fun a b => rank a ≤ rank b := by
  induction l with
  | nil => exact pairwise_singleton _ t
  | cons a l ih =>
    rw [orderedInsert_cons]
    obtain ⟨ha, hl⟩ := pairwise_cons.1 h
    by_cases hta : less t a
    · rw [if_pos hta]
      have hle := ((hless t a).1 hta).le
      refine pairwise_cons.2 ⟨fun b hb => ?_, h⟩
      rcases mem_cons.1 hb with rfl | hb
      · exact hle
      · exact hle.trans (ha b hb)
    · rw [if_neg hta]
      refine pairwise_cons.2 ⟨fun b hb => ?_, ih hl⟩
      rcases (mem_orderedInsert less).1 hb with rfl | hb
      · exact not_lt.1 fun hlt => hta ((hless b a).2 hlt)
      · exact ha b hb

omit [DecidableEq ι] in
theorem kernelWaiters_add {priority : ι → ℤ} :
    (l.add priority t).kernelWaiters = l.kernelWaiters + if l.isKernelAddressKey then 1 else 0 := by
  rw [LockInfo.kernelWaiters, LockInfo.kernelWaiters, LockInfo.add]
  dsimp only
  rw [orderedInsert_length]
  split <;> omega

/-- `t` becomes a waiter of the info `i` of `o`, which is `l`, and new when it had no waiter. -/
def attach (L : Links ι) (t : ι) (i : ℕ) (o : ι) (l : LockInfo ι) : Links ι :=
  { L with
    waiting := Function.update L.waiting t (some i)
    held := Function.update L.held o
      (if (L.info i).tree = [] then i :: L.held o else L.held o)
    kernelWaiters := Function.update L.kernelWaiters o
      (L.kernelWaiters o + if l.isKernelAddressKey then 1 else 0)
    info := Function.update L.info i (l.add L.priority t)
    numInfos := if (L.info i).tree = [] then i + 1 else L.numInfos }

/-- The infos held when a waiter has joined. -/
theorem Ok.mem_attach (h : L.Ok) (howner : l.owner = some o) (hold : (L.info i).tree ≠ [] → l = L.info i) :
    j ∈ (L.attach t i o l).held n ↔ j ∈ L.held n ∨ j = i ∧ n = o := by
  change j ∈ update L.held o _ n ↔ _
  by_cases hn : n = o
  · subst hn
    rw [update_self]
    by_cases he : (L.info i).tree = []
    · rw [if_pos he, mem_cons, and_iff_left rfl, or_comm]
    · rw [if_neg he, and_iff_left rfl]
      refine ⟨Or.inl, fun hj => hj.elim id ?_⟩
      rintro rfl
      exact (h.held n j).2 ⟨by rw [← hold he, howner], he⟩
  · rw [update_of_ne hn]
    simp only [hn, and_false, or_false]

/-- **A waiter joins** an info that its owner has, or a new one. -/
theorem Ok.attach (h : L.Ok) (hw : L.waiting t = none)
    (howner : l.owner = some o) (hkey : L.key t = l.key) (hold : (L.info i).tree ≠ [] → l = L.info i)
    (hnew : (L.info i).tree = [] → i = L.numInfos ∧ l.tree = [] ∧ l.waiterCount = 0) :
    (L.attach t i o l).Ok := by
  have htree : l.tree = (L.info i).tree := by
    by_cases he : (L.info i).tree = []
    · rw [he, (hnew he).2.1]
    · rw [hold he]
  have hnotMem : ∀ j, t ∉ (L.info j).tree := fun j hj => by
    rw [(h.waiting t j).2 hj] at hw
    cases hw
  have hinfo : l.Ok L.key L.priority := by
    by_cases he : (L.info i).tree = []
    · have hnil := (hnew he).2.1
      refine ⟨fun hne => absurd hnil hne, ?_, ?_, ?_, ?_⟩
      · rw [hnil]
        exact nodup_nil
      · rw [hnil]
        exact List.Pairwise.nil
      · rw [hnil, (hnew he).2.2]
        rfl
      · rw [hnil]
        exact fun w hw => absurd hw not_mem_nil
    · rw [hold he]
      exact h.info i
  set held := update L.held o
    (if (L.info i).tree = [] then i :: L.held o else L.held o) with hheld
  have hmem : ∀ {o' j}, j ∈ held o' ↔ j ∈ L.held o' ∨ j = i ∧ o' = o :=
    h.mem_attach (t := t) howner hold
  have hadd : ∀ {u}, u ∈ (l.add L.priority t).tree ↔ u = t ∨ u ∈ (L.info i).tree := by
    intro u
    rw [← htree]
    exact mem_orderedInsert _
  have hnum : ∀ {j}, (if (L.info i).tree = [] then i + 1 else L.numInfos) ≤ j → j ≠ i ∧ L.numInfos ≤ j := by
    intro j hj
    by_cases he : (L.info i).tree = []
    · rw [if_pos he] at hj
      have := (hnew he).1
      omega
    · rw [if_neg he] at hj
      refine ⟨?_, hj⟩
      rintro rfl
      exact he (h.fresh j hj)
  refine ⟨fun u j => ?_, fun o' j => ?_, fun o' => ?_, fun j hj => ?_,
    forall_info h.info ⟨fun _ => ⟨o, howner⟩, ?_, ?_, ?_, fun w hw => ?_⟩, fun o' => ?_⟩
  · change update L.waiting t (some i) u = some j ↔ u ∈ (update L.info i (l.add L.priority t) j).tree
    by_cases hj : j = i
    · rw [hj, update_self, hadd]
      by_cases hut : u = t
      · subst hut
        rw [update_self]
        exact ⟨fun _ => Or.inl rfl, fun _ => rfl⟩
      · rw [update_of_ne hut, h.waiting]
        exact ⟨Or.inr, fun hu => hu.resolve_left hut⟩
    · rw [update_of_ne hj]
      by_cases hut : u = t
      · subst hut
        rw [update_self, Option.some.injEq]
        exact ⟨fun hij => absurd hij.symm hj, fun hu => absurd hu (hnotMem j)⟩
      · rw [update_of_ne hut, h.waiting]
  · change j ∈ held o' ↔ (update L.info i (l.add L.priority t) j).owner = some o' ∧
      (update L.info i (l.add L.priority t) j).tree ≠ []
    rw [hmem]
    by_cases hj : j = i
    · subst hj
      rw [update_self, show (l.add L.priority t).owner = some o from howner, Option.some.injEq]
      have hne : (l.add L.priority t).tree ≠ [] := ne_nil_of_mem (hadd.2 (Or.inl rfl))
      refine ⟨fun hj => ⟨?_, hne⟩, fun hj => Or.inr ⟨rfl, hj.1.symm⟩⟩
      rcases hj with hj | ⟨-, rfl⟩
      · obtain ⟨h₁, h₂⟩ := (h.held o' j).1 hj
        rw [← hold h₂, howner, Option.some.injEq] at h₁
        exact h₁
      · rfl
    · rw [update_of_ne hj, ← h.held]
      simp only [hj, false_and, or_false]
  · change (held o').Nodup
    rw [hheld]
    by_cases ho' : o' = o
    · subst ho'
      rw [update_self]
      split
      case isTrue he =>
        exact nodup_cons.2 ⟨fun hi => ((h.held o' i).1 hi).2 he, h.heldNodup o'⟩
      case isFalse => exact h.heldNodup o'
    · rw [update_of_ne ho']
      exact h.heldNodup o'
  · change (update L.info i (l.add L.priority t) j).tree = []
    obtain ⟨hji, hj⟩ := hnum hj
    rw [update_of_ne hji]
    exact h.fresh j hj
  · refine (perm_orderedInsert _ t l.tree).nodup_iff.2 (nodup_cons.2 ⟨?_, hinfo.nodup⟩)
    rw [htree]
    exact hnotMem i
  · exact pairwise_orderedInsert (fun _ _ => Iff.rfl) hinfo.sorted
  · change l.waiterCount + 1 = (l.tree.orderedInsert _ t).length
    rw [orderedInsert_length, hinfo.count]
    omega
  · rcases (mem_orderedInsert _).1 hw with rfl | hw
    · exact hkey
    · exact hinfo.keys w hw
  · change update L.kernelWaiters o
      (L.kernelWaiters o + if l.isKernelAddressKey then 1 else 0) o' =
      ((held o').map fun j =>
        (update L.info i (l.add L.priority t) j).kernelWaiters).sum
    by_cases ho' : o' = o
    · subst ho'
      rw [update_self, h.kernel, hheld, update_self]
      by_cases he : (L.info i).tree = []
      · have hzero : l.kernelWaiters = 0 := by
          rw [LockInfo.kernelWaiters, (hnew he).2.1]
          exact ite_self 0
        rw [if_pos he, map_cons, sum_cons, update_self, kernelWaiters_add, hzero, Int.zero_add, Int.add_comm]
        refine congrArg _ (congrArg sum (map_congr_left fun j hj => ?_))
        have hji : j ≠ i := by
          rintro rfl
          exact ((h.held o' j).1 hj).2 he
        rw [update_of_ne hji]
      · have hi : i ∈ L.held o' := (h.held o' i).2 ⟨by rw [← hold he, howner], he⟩
        have hsum := sum_update (f := fun j => (L.info j).kernelWaiters)
          (g := fun j => (update L.info i (l.add L.priority t) j).kernelWaiters)
          (h.heldNodup o') hi fun j _ hj => by rw [update_of_ne hj]
        rw [update_self, kernelWaiters_add, ← hold he] at hsum
        rw [if_neg he, hsum]
        omega
    · rw [update_of_ne ho', h.kernel, hheld, update_of_ne ho']
      refine congrArg sum (map_congr_left fun j hj => ?_)
      have hji : j ≠ i := by
        rintro rfl
        obtain ⟨h₁, h₂⟩ := (h.held o' j).1 hj
        rw [← hold h₂, howner, Option.some.injEq] at h₁
        exact ho' h₁.symm
      rw [update_of_ne hji]

/-- A new info is for a key its owner has none for. -/
theorem Unique.attach (hu : L.Unique) (h : L.Ok) (howner : l.owner = some o)
    (hold : (L.info i).tree ≠ [] → l = L.info i)
    (hnew : (L.info i).tree = [] → ∀ j ∈ L.held o, (L.info j).key ≠ l.key) :
    (L.attach t i o l).Unique := by
  intro o' j hj k hk hjk
  rw [h.mem_attach howner hold] at hj hk
  have hkeys : ∀ j, ((L.attach t i o l).info j).key = if j = i then l.key else (L.info j).key := by
    intro j
    change (update L.info i (l.add L.priority t) j).key = _
    by_cases hj : j = i
    · rw [hj, update_self, if_pos rfl]
      rfl
    · rw [update_of_ne hj, if_neg hj]
  rw [hkeys, hkeys] at hjk
  by_cases he : (L.info i).tree = []
  · have hni : ∀ {o'}, i ∉ L.held o' := fun hi => ((h.held _ i).1 hi).2 he
    by_cases hji : j = i <;> by_cases hki : k = i
    · rw [hji, hki]
    · rw [if_pos hji, if_neg hki] at hjk
      obtain rfl : o' = o := hj.elim (fun hj => absurd (hji ▸ hj) hni) And.right
      exact absurd hjk.symm (hnew he k (hk.resolve_right fun h => hki h.1))
    · rw [if_neg hji, if_pos hki] at hjk
      obtain rfl : o' = o := hk.elim (fun hk => absurd (hki ▸ hk) hni) And.right
      exact absurd hjk (hnew he j (hj.resolve_right fun h => hji h.1))
    · rw [if_neg hji, if_neg hki] at hjk
      exact hu o' j (hj.resolve_right fun h => hji h.1) k (hk.resolve_right fun h => hki h.1) hjk
  · have hsame : ∀ j, (if j = i then l.key else (L.info j).key) = (L.info j).key := fun j => by
      split
      case isTrue hj => rw [hj, hold he]
      case isFalse => rfl
    rw [hsame, hsame] at hjk
    have hi : ∀ {j}, (j ∈ L.held o' ∨ j = i ∧ o' = o) → j ∈ L.held o' := fun hj =>
      hj.elim id fun hj => by
        rw [hj.1, hj.2]
        exact (h.held o i).2 ⟨by rw [← hold he, howner], he⟩
    exact hu o' j (hi hj) k (hi hk) hjk

/-! ### The graph of owners -/

theorem owner_detach :
    (L.detach t i o).owner = update L.owner t none := by
  funext u
  change (update L.waiting t none u).bind
    (fun j => (update L.info i ((L.info i).remove t) j).owner) = _
  by_cases hut : u = t
  · subst hut
    rw [update_self, update_self]
    rfl
  · rw [update_of_ne hut, update_of_ne hut, owner]
    cases hw : L.waiting u with
    | none => rfl
    | some j =>
      rw [Option.bind_some, Option.bind_some]
      by_cases hj : j = i
      · rw [hj, update_self]
        rfl
      · rw [update_of_ne hj]

theorem owner_attach (h : L.Ok) (howner : l.owner = some o) (hold : (L.info i).tree ≠ [] → l = L.info i) :
    (L.attach t i o l).owner = update L.owner t (some o) := by
  funext u
  change (update L.waiting t (some i) u).bind
    (fun j => (update L.info i (l.add L.priority t) j).owner) = _
  by_cases hut : u = t
  · subst hut
    rw [update_self, update_self, Option.bind_some, update_self]
    exact howner
  · rw [update_of_ne hut, update_of_ne hut, owner]
    cases hw : L.waiting u with
    | none => rfl
    | some j =>
      rw [Option.bind_some, Option.bind_some]
      by_cases hj : j = i
      · rw [hj, update_self]
        have hne := ne_nil_of_mem ((h.waiting u j).1 hw)
        rw [hj] at hne
        change l.owner = _
        rw [hold hne]
      · rw [update_of_ne hj]

/-! ### A thread that does not wait -/

omit [DecidableEq ι] in
theorem Ok.notMem (h : L.Ok) (hw : L.waiting t = none) (j : ℕ) : t ∉ (L.info j).tree :=
  fun hj => by
    rw [(h.waiting t j).2 hj] at hw
    cases hw

/-- The priority of a thread that does not wait changes. -/
theorem Ok.setPriority (h : L.Ok) (hw : L.waiting t = none) (p : ℤ) :
    { L with priority := update L.priority t p }.Ok := by
  refine ⟨h.waiting, h.held, h.heldNodup, h.fresh, fun i => ⟨(h.info i).owned,
    (h.info i).nodup, (h.info i).sorted.imp_of_mem fun {a b} ha hb hle => ?_, (h.info i).count,
    (h.info i).keys⟩, h.kernel⟩
  have hat : a ≠ t := by
    rintro rfl
    exact h.notMem hw i ha
  have hbt : b ≠ t := by
    rintro rfl
    exact h.notMem hw i hb
  dsimp only
  rwa [update_of_ne hat, update_of_ne hbt]

end Links
end Kernel
end NXEmu
