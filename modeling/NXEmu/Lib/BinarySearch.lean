/-
# Binary search

The first position of a range where a predicate fails, found by halving.  The predicate holds on an
initial part of the range and fails behind it.
-/

import Mathlib

namespace NXEmu
namespace BinarySearch

/-- The loop, which looks at half of what is left, of at most so many rounds. -/
def bisectFrom (p : ℕ → Bool) : ℕ → (pos count : ℕ) → ℕ
  | 0, pos, _ => pos
  | rounds + 1, pos, count =>
    if count = 0 then pos
    else if p (pos + count / 2) then
      bisectFrom p rounds (pos + count / 2 + 1) (count - (count / 2 + 1))
    else bisectFrom p rounds pos (count / 2)

/-- The first position from `pos` on, of so many, where the predicate fails. -/
def bisect (p : ℕ → Bool) (pos count : ℕ) : ℕ := bisectFrom p count pos count

variable {p q : ℕ → Bool} {rounds pos count : ℕ}

theorem bisectFrom_le : bisectFrom p rounds pos count ≤ pos + count := by
  induction rounds generalizing pos count with
  | zero => exact Nat.le_add_right ..
  | succ rounds ih =>
    rw [bisectFrom]
    split_ifs with hzero hmid
    · exact Nat.le_add_right ..
    · exact ih.trans (by omega)
    · exact ih.trans (by omega)

section

variable (hp : ∀ i j, pos ≤ i → i ≤ j → j < pos + count → p j = true → p i = true)

include hp

theorem bisectFrom_spec (hrounds : count ≤ rounds) :
    (∀ i, pos ≤ i → i < bisectFrom p rounds pos count → p i = true) ∧
      ∀ i, bisectFrom p rounds pos count ≤ i → i < pos + count → p i = false := by
  induction rounds generalizing pos count with
  | zero =>
    rw [bisectFrom]
    exact ⟨fun i hi hi' => absurd hi' (by omega), fun i hi hi' => absurd hi' (by omega)⟩
  | succ rounds ih =>
    rw [bisectFrom]
    split_ifs with hzero hmid
    · exact ⟨fun i hi hi' => absurd hi' (by omega), fun i hi hi' => absurd hi' (by omega)⟩
    · obtain ⟨htrue, hfalse⟩ := @ih (pos + count / 2 + 1) (count - (count / 2 + 1))
        (fun i j hi hij hj => hp i j (by omega) hij (by omega)) (by omega)
      refine ⟨fun i hi hi' => ?_, fun i hi hi' => hfalse i hi (by omega)⟩
      rcases Nat.lt_or_ge i (pos + count / 2 + 1) with hlt | hge'
      · exact hp i _ hi (by omega) (by omega) hmid
      · exact htrue i hge' hi'
    · obtain ⟨htrue, hfalse⟩ := @ih pos (count / 2)
        (fun i j hi hij hj => hp i j hi hij (by omega)) (by omega)
      refine ⟨htrue, fun i hi hi' => ?_⟩
      rcases Nat.lt_or_ge i (pos + count / 2) with hlt | hge'
      · exact hfalse i hi hlt
      · by_contra htrue'
        exact hmid (hp _ i (by omega) hge' hi' (Bool.not_eq_false _ ▸ htrue'))

/-- **The search** finds where the predicate begins to fail. -/
theorem bisect_spec :
    (∀ i, pos ≤ i → i < bisect p pos count → p i = true) ∧
      ∀ i, bisect p pos count ≤ i → i < pos + count → p i = false :=
  bisectFrom_spec hp le_rfl

end

/-- The search depends on the range only. -/
theorem bisectFrom_congr (h : ∀ i, pos ≤ i → i < pos + count → p i = q i) :
    bisectFrom p rounds pos count = bisectFrom q rounds pos count := by
  induction rounds generalizing pos count with
  | zero => rfl
  | succ rounds ih =>
    rw [bisectFrom, bisectFrom]
    by_cases hzero : count = 0
    · rw [if_pos hzero, if_pos hzero]
    · rw [if_neg hzero, if_neg hzero, h _ (by omega) (by omega),
        ih fun i hi hi' => h i (by omega) (by omega), ih fun i hi hi' => h i hi (by omega)]

section Sorted

variable {α : Type*} [LinearOrder α] {f : ℕ → α} {n : ℕ} {a : α}

theorem sorted_initial (hf : ∀ i j, i < j → j < n → f i < f j) (i j : ℕ) (_ : 0 ≤ i) (hij : i ≤ j)
    (hj : j < 0 + n) (hle : decide (f j ≤ a) = true) : decide (f i ≤ a) = true := by
  rw [decide_eq_true_iff] at hle ⊢
  rcases Nat.lt_or_eq_of_le hij with hlt | rfl
  · exact (hf i j hlt (by omega)).le.trans hle
  · exact hle

/-- In a sorted array the search finds nothing below its first element. -/
theorem bisect_eq_zero (h : a < f 0) (hf : ∀ i j, i < j → j < n → f i < f j) :
    bisect (fun i => decide (f i ≤ a)) 0 n = 0 := by
  obtain ⟨htrue, -⟩ := bisect_spec (sorted_initial hf)
  by_contra hne
  have hle := htrue 0 le_rfl (Nat.pos_of_ne_zero hne)
  rw [decide_eq_true_iff] at hle
  exact absurd h (not_lt.2 hle)

/-- In a sorted array the search finds the place behind the last element that is not above. -/
theorem bisect_eq_succ (h : f 0 ≤ a) (hn : 0 < n) (hf : ∀ i j, i < j → j < n → f i < f j) :
    ∃ i, bisect (fun i => decide (f i ≤ a)) 0 n = i + 1 ∧ i < n ∧ f i ≤ a ∧ (i + 1 < n → a < f (i + 1)) := by
  have hbound : bisect (fun i => decide (f i ≤ a)) 0 n ≤ 0 + n := bisectFrom_le
  obtain ⟨htrue, hfalse⟩ := bisect_spec (sorted_initial hf)
  generalize bisect (fun i => decide (f i ≤ a)) 0 n = r at hbound htrue hfalse
  cases r with
  | zero =>
    have hfirst := hfalse 0 le_rfl (by omega)
    rw [decide_eq_false_iff_not] at hfirst
    exact absurd h hfirst
  | succ i =>
    refine ⟨i, rfl, by omega, of_decide_eq_true (htrue i (Nat.zero_le i) (Nat.lt_succ_self i)), fun hlt => ?_⟩
    have hnext := hfalse (i + 1) le_rfl (by omega)
    rw [decide_eq_false_iff_not] at hnext
    exact not_le.1 hnext

end Sorted

end BinarySearch
end NXEmu
