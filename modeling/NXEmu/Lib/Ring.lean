/-
# Queues in a ring

A queue that lives in a ring of cells starts at some position and goes on round the ring
(`Ring.Holds`).  Positions are counted without end here, and only their remainder by the number of
cells says where they are, so that two queues are next to each other when one starts at the position
where the other ends.
-/

import Mathlib.Algebra.Ring.Int.Defs
import Mathlib.Data.Int.Notation
import Mathlib.Data.Nat.Notation
import Mathlib.Data.List.Basic
import Mathlib.Logic.Function.Basic
import Mathlib.Tactic.Common

namespace NXEmu.Ring

variable {α : Type} {capacity : ℕ} {cells : ℕ → α} {p k : ℕ} {x y : α} {xs ys : List α}

/-- The cells from position `p` on hold the elements of a list. -/
def Holds (capacity : ℕ) (cells : ℕ → α) : ℕ → List α → Prop
  | _, [] => True
  | p, x :: xs => cells (p % capacity) = x ∧ Holds capacity cells (p + 1) xs

@[simp] theorem holds_nil : Holds capacity cells p [] := trivial

@[simp] theorem holds_cons :
    Holds capacity cells p (x :: xs) ↔ cells (p % capacity) = x ∧ Holds capacity cells (p + 1) xs :=
  Iff.rfl

/-- Two queues one after the other are one queue. -/
theorem holds_append :
    Holds capacity cells p (xs ++ ys) ↔ Holds capacity cells p xs ∧ Holds capacity cells (p + xs.length) ys := by
  induction xs generalizing p with
  | nil => simp
  | cons x xs ih =>
      rw [List.cons_append, holds_cons, ih, holds_cons, List.length_cons, Nat.add_right_comm,
        and_assoc, Nat.add_assoc]

/-- Two positions less than a round apart are in different cells. -/
theorem mod_ne (hpos : 0 < k) (hk : k < capacity) : (p + k) % capacity ≠ p % capacity := by
  intro h
  have hzero : (p + k - p) % capacity = 0 := Nat.sub_mod_eq_zero_of_mod_eq h
  rw [Nat.add_sub_cancel_left, Nat.mod_eq_of_lt hk] at hzero
  exact absurd hzero (Nat.ne_of_gt hpos)

/-- A cell behind the queue may be written. -/
theorem Holds.update (h : Holds capacity cells p xs) (hlo : xs.length ≤ k) (hk : k < capacity)
    (y : α) : Holds capacity (Function.update cells ((p + k) % capacity) y) p xs := by
  induction xs generalizing p k with
  | nil => trivial
  | cons x xs ih =>
      have hpos : 0 < k := Nat.lt_of_lt_of_le (Nat.succ_pos _) hlo
      refine ⟨?_, ?_⟩
      · rw [Function.update_of_ne (mod_ne hpos hk).symm]
        exact h.1
      · have hpred : p + k = p + 1 + (k - 1) := by omega
        rw [hpred]
        exact ih h.2 (by rw [List.length_cons] at hlo; omega) (by omega)

/-- **An element is appended**: its cell is the one behind the queue. -/
theorem Holds.push (h : Holds capacity cells p xs) (hroom : xs.length < capacity) (y : α) :
    Holds capacity (Function.update cells ((p + xs.length) % capacity) y) p (xs ++ [y]) := by
  refine holds_append.2 ⟨h.update (Nat.le_refl _) hroom y, ?_⟩
  exact ⟨Function.update_self .., trivial⟩

/-- The first element may be replaced in place. -/
theorem Holds.replace (h : Holds capacity cells p (x :: xs)) (hroom : (x :: xs).length ≤ capacity)
    (y : α) : Holds capacity (Function.update cells (p % capacity) y) p (y :: xs) := by
  refine ⟨Function.update_self .., ?_⟩
  rw [List.length_cons] at hroom
  have hlast : p % capacity = (p + 1 + (capacity - 1)) % capacity := by
    rw [show p + 1 + (capacity - 1) = p + capacity by omega, Nat.add_mod_right]
  rw [hlast]
  exact h.2.update (by omega) (by omega) y

/-- An element of the middle may be replaced in place. -/
theorem Holds.replace_append (h : Holds capacity cells p (xs ++ x :: ys))
    (hroom : (xs ++ x :: ys).length ≤ capacity) (y : α) :
    Holds capacity (Function.update cells ((p + xs.length) % capacity) y) p (xs ++ y :: ys) := by
  obtain ⟨hleft, hright⟩ := holds_append.1 h
  rw [List.length_append, List.length_cons] at hroom
  refine holds_append.2 ⟨hleft.update (Nat.le_refl _) (by omega) y, ?_⟩
  exact hright.replace (by rw [List.length_cons]; omega) y

/-- **Where a queue starts** is the place where it ends, less its length, and the number of cells
more if that is negative. -/
theorem start_of_end (hk : k ≤ capacity) (hpos : 0 < k) :
    (if ((p + k) % capacity : ℕ) - (k : ℤ) < 0 then ((p + k) % capacity : ℕ) - (k : ℤ) + capacity
      else ((p + k) % capacity : ℕ) - (k : ℤ)) = (p % capacity : ℕ) := by
  have hcapacity : 0 < capacity := Nat.lt_of_lt_of_le hpos hk
  have hp := Nat.mod_lt p hcapacity
  have hsum : (p + k) % capacity = (p % capacity + k) % capacity := by rw [Nat.mod_add_mod]
  by_cases hwrap : p % capacity + k < capacity
  · rw [hsum, Nat.mod_eq_of_lt hwrap]
    split <;> omega
  · have hround : (p % capacity + k) % capacity = p % capacity + k - capacity := by
      rw [Nat.mod_eq_sub_mod (by omega), Nat.mod_eq_of_lt (by omega)]
    rw [hsum, hround]
    split <;> omega

end NXEmu.Ring
