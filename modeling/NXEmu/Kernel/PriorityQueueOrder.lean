/-
# The order of the threads of a core

`src/nxemu-os/core/hle/kernel/k_priority_queue.h`, `GetFront` and `GetNext`.

The lists of a core put one after another by priority are one list of the threads
with a place on the core.  `GetFront` is its head, and `GetNext` of a thread the one
after it: the next one of its own list, and after the last of that the front of the
next list that is not empty, which the available priorities tell.
-/

import NXEmu.Kernel.PriorityQueueLists

namespace NXEmu
namespace Kernel
namespace KPriorityQueue

open Common Exec List

variable {ι : Type} {q : KPriorityQueue ι} {k : QueueKind} {p c : ℕ} {m : ι} {place : Places ι}
  {ls : ℕ → List ι}

/-- The lists from the priority `p` on, one after another. -/
def listsFrom (ls : ℕ → List ι) (p : ℕ) : List ι :=
  (List.range' p (lowestPriority + 1 - p)).flatMap ls

theorem mem_listsFrom : m ∈ listsFrom ls p ↔ ∃ p', p ≤ p' ∧ p' ≤ lowestPriority ∧ m ∈ ls p' := by
  rw [listsFrom, mem_flatMap]
  constructor
  · rintro ⟨p', hp', hm⟩
    rw [mem_range'_1] at hp'
    exact ⟨p', by omega, by omega, hm⟩
  · rintro ⟨p', hp, hp', hm⟩
    exact ⟨p', mem_range'_1.2 (by omega), hm⟩

/-- The lists from `s` on begin with those before `p`. -/
theorem listsFrom_eq_append {s : ℕ} (hs : s ≤ p) (hp : p ≤ lowestPriority) :
    listsFrom ls s = (range' s (p - s)).flatMap ls ++ (ls p ++ listsFrom ls (p + 1)) := by
  rw [listsFrom, show lowestPriority + 1 - s = (p - s) + (lowestPriority - p + 1) by omega,
    ← range'_append_1, flatMap_append, show s + (p - s) = p by omega,
    range'_succ, flatMap_cons, listsFrom,
    show lowestPriority + 1 - (p + 1) = lowestPriority - p by omega]

/-- The threads of one place each are in one list each, so none of them comes twice. -/
theorem nodup_listsFrom (hnodup : ∀ p ≤ lowestPriority, (ls p).Nodup)
    (hmem : ∀ p ≤ lowestPriority, ∀ i, i ∈ ls p ↔ place i c = some (k, p)) :
    (listsFrom ls p).Nodup := by
  refine pairwise_flatMap.2 ⟨fun p' hp' => hnodup p' ?_, ?_⟩
  · rw [mem_range'_1] at hp'
    omega
  · refine (pairwise_lt_range' 1).imp_of_mem fun {p₁ p₂} h₁ h₂ hlt i hi j hj hij => ?_
    rw [mem_range'_1] at h₁ h₂
    have h₁' := (hmem p₁ (by omega) i).1 hi
    rw [hij, (hmem p₂ (by omega) j).1 hj] at h₁'
    cases h₁'
    exact Nat.lt_irrefl _ hlt

/-- Priorities do not decrease along the lists. -/
theorem pairwise_listsFrom (hmem : ∀ p ≤ lowestPriority, ∀ i, i ∈ ls p ↔ place i c = some (k, p)) :
    (listsFrom ls p).Pairwise fun i j => ∀ pᵢ pⱼ, place i c = some (k, pᵢ) → place j c = some (k, pⱼ) → pᵢ ≤ pⱼ := by
  have hof : ∀ {p' i pᵢ}, p' ≤ lowestPriority → i ∈ ls p' → place i c = some (k, pᵢ) → pᵢ = p' := fun hp' hi h => by
    rw [(hmem _ hp' _).1 hi] at h
    cases h
    rfl
  refine pairwise_flatMap.2 ⟨fun p' hp' => ?_, ?_⟩
  · rw [mem_range'_1] at hp'
    refine pairwise_of_forall_mem_list fun i hi j hj pᵢ pⱼ hᵢ hⱼ => ?_
    exact Nat.le_of_eq ((hof (by omega) hi hᵢ).trans (hof (by omega) hj hⱼ).symm)
  · refine (pairwise_lt_range' 1).imp_of_mem fun {p₁ p₂} h₁ h₂ hlt i hi j hj pᵢ pⱼ hᵢ hⱼ => ?_
    rw [mem_range'_1] at h₁ h₂
    rw [hof (by omega) hi hᵢ, hof (by omega) hj hⱼ]
    exact Nat.le_of_lt hlt

/-- The first priority available from `s` on leads to the head of the lists from there. -/
theorem head?_listsFrom {s n : ℕ} (hl : ∀ p ≤ lowestPriority, IsList q k p c (ls p))
    (hb : ∀ p ≤ lowestPriority, (q.availablePriorities k c).contains p = true ↔ ls p ≠ []) (hs : s ≤ n)
    (hfalse : ∀ i, s ≤ i → i < n → i ≤ lowestPriority → (q.availablePriorities k c).contains i = false)
    (hn : n = lowestPriority + 1 ∨ n < lowestPriority + 1 ∧ (q.availablePriorities k c).contains n = true) :
    (if n ≤ lowestPriority then q.perCoreGetFront k n c else none) = (listsFrom ls s).head? := by
  have hempty : ∀ i, s ≤ i → i < n → i ≤ lowestPriority → ls i = [] := fun i hi hin hip => by
    by_contra hne
    have := hfalse i hi hin hip
    rw [(hb i hip).2 hne] at this
    cases this
  rcases hn with rfl | ⟨hlt, hbit⟩
  · rw [if_neg (by omega), listsFrom, head?_flatMap, eq_comm, findSome?_eq_none_iff]
    intro i hi
    rw [mem_range'_1] at hi
    rw [hempty i hi.1 (by omega) (by omega)]
    rfl
  · have hne := (hb n (by omega)).1 hbit
    rw [if_pos (by omega), (hl n (by omega)).getFront, listsFrom_eq_append hs (by omega),
      flatMap_eq_nil_iff.2 fun i hi => ?_, nil_append]
    · cases h : ls n with
      | nil => exact absurd h hne
      | cons i l => rfl
    · rw [mem_range'_1] at hi
      exact hempty i hi.1 (by omega) (by omega)

/-- **The order of the threads of a core.**  `GetFront` is the first of them and `GetNext`
the one after each; every one with a place on the core comes once, and their priorities do
not decrease. -/
theorem Rows.order {L : QueueKind → ℕ → ℕ → List ι} (h : Rows q place L) (k : QueueKind) (hc : c < numCores)
    (thread : ι → KThreadFields) (hpri : ∀ i p, place i c = some (k, p) → (thread i).priority = p) :
    (listsFrom (fun p => L k p c) 0).Nodup ∧
      (∀ i, i ∈ listsFrom (fun p => L k p c) 0 ↔ ∃ p, p ≤ lowestPriority ∧ place i c = some (k, p)) ∧
      ((listsFrom (fun p => L k p c) 0).Pairwise fun i j => (thread i).priority ≤ (thread j).priority) ∧
      q.implGetFront k c = .ret (listsFrom (fun p => L k p c) 0).head? true ∧
      ∀ L₁ i L₂, listsFrom (fun p => L k p c) 0 = L₁ ++ i :: L₂ →
        q.implGetNext k c i (thread i) = .ret L₂.head? true := by
  set ls : ℕ → List ι := fun p => L k p c with hls
  have hl : ∀ p ≤ lowestPriority, IsList q k p c (ls p) := fun p hp => (h k p c hp hc).1
  have hb : ∀ p ≤ lowestPriority, (q.availablePriorities k c).contains p = true ↔ ls p ≠ [] :=
    fun p hp => (h k p c hp hc).2.1
  have hmem : ∀ p ≤ lowestPriority, ∀ i, i ∈ ls p ↔ place i c = some (k, p) := fun p hp => (h k p c hp hc).2.2
  have hc' : isValidCore c := hc
  have hnodup : (listsFrom ls 0).Nodup := nodup_listsFrom (fun p hp => Ring.nodup (hl p hp)) hmem
  have hmem' : ∀ i, i ∈ listsFrom ls 0 ↔ ∃ p, p ≤ lowestPriority ∧ place i c = some (k, p) := by
    intro i
    rw [mem_listsFrom]
    constructor
    · rintro ⟨p, -, hp, hi⟩
      exact ⟨p, hp, (hmem p hp i).1 hi⟩
    · rintro ⟨p, hp, hi⟩
      exact ⟨p, Nat.zero_le p, hp, (hmem p hp i).2 hi⟩
  refine ⟨hnodup, hmem', ?_, ?_, fun L₁ i L₂ heq => ?_⟩
  · refine (pairwise_listsFrom hmem).imp_of_mem fun {i j} hi hj hle => ?_
    obtain ⟨pᵢ, -, hᵢ⟩ := (hmem' i).1 hi
    obtain ⟨pⱼ, -, hⱼ⟩ := (hmem' j).1 hj
    rw [hpri i pᵢ hᵢ, hpri j pⱼ hⱼ]
    exact hle pᵢ pⱼ hᵢ hⱼ
  · obtain ⟨hfalse, hfirst⟩ :=
      (q.availablePriorities k c).countLeadingZero_spec (by decide)
    rw [implGetFront, Exec.assert, decide_eq_true hc', ret_true_bind, if_pos hc', pure_eq,
      head?_listsFrom hl hb (Nat.zero_le _) (fun i _ hi hip => hfalse i hi (by omega)) hfirst]
  · obtain ⟨p, hp, hplace⟩ := (hmem' i).1 (heq ▸ by simp)
    obtain ⟨A, B, hAB⟩ := append_of_mem ((hmem p hp i).2 hplace)
    -- the thread comes once, so what is after it in its own list and then is `L₂`
    have hL₂ : L₂ = B ++ listsFrom ls (p + 1) := by
      have heq' : (range' 0 (p - 0)).flatMap ls ++ A ++ i :: (B ++ listsFrom ls (p + 1)) = L₁ ++ i :: L₂ := by
        rw [← heq, listsFrom_eq_append (Nat.zero_le p) hp, hAB]
        simp
      rw [heq, ← heq'] at hnodup
      have hnot := (nodup_cons.1 (nodup_middle.1 hnodup)).1
      rw [mem_append, not_or] at hnot
      exact ((append_cons_inj_of_notMem hnot.1 hnot.2).1 heq').2.2.symm
    have hnext := (hAB ▸ hl p hp : IsList q k p c (A ++ i :: B)).entry_next
    rw [implGetNext, Exec.assert, decide_eq_true hc', ret_true_bind, if_pos hc', hnext, hL₂]
    cases B with
    | cons j B => rfl
    | nil =>
      obtain ⟨hlt, hfalse, hfirst⟩ :=
        (q.availablePriorities k c).getNextSet_spec (k := p) (Nat.lt_succ_of_le hp)
      dsimp only [head?_nil, nil_append]
      rw [hpri i p hplace, pure_eq, head?_listsFrom hl hb hlt (fun j hj hj' hjp => hfalse j hj hj' (by omega)) hfirst]

/-- The threads of a core have such an order. -/
theorem Lists.exists_order (h : Lists q place) (k : QueueKind) (hc : c < numCores)
    (thread : ι → KThreadFields) (hpri : ∀ i p, place i c = some (k, p) → (thread i).priority = p) :
    ∃ L : List ι, L.Nodup ∧ (∀ i, i ∈ L ↔ ∃ p, p ≤ lowestPriority ∧ place i c = some (k, p)) ∧
      (L.Pairwise fun i j => (thread i).priority ≤ (thread j).priority) ∧
      q.implGetFront k c = .ret L.head? true ∧
      ∀ L₁ i L₂, L = L₁ ++ i :: L₂ → q.implGetNext k c i (thread i) = .ret L₂.head? true := by
  obtain ⟨L, hL⟩ := h.exists_rows
  exact ⟨_, hL.order k hc thread hpri⟩

/-- Taking a thread out of the lists takes it out of the order. -/
theorem listsFrom_erase [DecidableEq ι] (hnodup : (listsFrom ls p).Nodup) (m : ι) :
    listsFrom (fun p => (ls p).erase m) p = (listsFrom ls p).erase m := by
  rw [hnodup.erase_eq_filter, listsFrom, listsFrom, filter_flatMap]
  refine flatMap_congr fun p' hp' => ?_
  exact ((nodup_flatMap.1 hnodup).1 p' hp').erase_eq_filter m

end KPriorityQueue
end Kernel
end NXEmu
