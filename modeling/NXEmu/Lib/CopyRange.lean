/-
# Copies of ranges between arrays

Arrays as functions of the place, and `memcpy` between them.
-/

import Mathlib.Data.Nat.Notation
import Mathlib.Tactic.Common

namespace NXEmu

variable {α : Type*}

/-- `dst` with the `size` elements from `place` on replaced by those of `src` from `start` on. -/
def copyRange (dst : ℕ → α) (place : ℕ) (src : ℕ → α) (start size : ℕ) : ℕ → α := fun i =>
  if place ≤ i ∧ i < place + size then src (start + (i - place)) else dst i

variable {dst src : ℕ → α} {place start size i : ℕ}

theorem copyRange_of_mem (hle : place ≤ i) (hlt : i < place + size) :
    copyRange dst place src start size i = src (start + (i - place)) :=
  if_pos ⟨hle, hlt⟩

theorem copyRange_of_lt (h : i < place) : copyRange dst place src start size i = dst i :=
  if_neg fun hi => Nat.not_le.2 h hi.1

theorem copyRange_of_le (h : place + size ≤ i) : copyRange dst place src start size i = dst i :=
  if_neg fun hi => Nat.not_le.2 hi.2 h

end NXEmu
