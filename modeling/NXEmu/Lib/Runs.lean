/-
# Maximal runs

A list is cut into runs in which every element is the one that follows the last one: `next a k` is the element
that comes `k` places after `a`.  `runs next a k l` are the runs of a list that begins with the first `k`
elements of the run of `a` and goes on with `l`, each as its first element and its length.  They spread to the
list again (`spread_runs`), and a list of lengths that begins with those of another one and has the same sum
is that one, unless it has an empty run (`eq_of_prefix_of_sum`).
-/

import Mathlib.Algebra.GroupWithZero.Nat
import Mathlib.Data.List.Basic
import Mathlib.Data.Nat.Notation
import Mathlib.Tactic.Common

namespace NXEmu
namespace Runs

open List

variable {α : Type} [DecidableEq α] {next : α → ℕ → α} {a : α} {k : ℕ} {l : List α}

/-- The runs of a list that begins with `k` elements of the run of `a`. -/
def runs (next : α → ℕ → α) : α → ℕ → List α → List (α × ℕ)
  | a, k, [] => [(a, k)]
  | a, k, x :: l => if x = next a k then runs next a (k + 1) l else (a, k) :: runs next x 1 l

/-- The elements of a run. -/
def elements (next : α → ℕ → α) (run : α × ℕ) : List α := (List.range run.2).map (next run.1)

omit [DecidableEq α] in
theorem elements_succ (next : α → ℕ → α) (a : α) (k : ℕ) :
    elements next (a, k + 1) = elements next (a, k) ++ [next a k] := by
  rw [elements, elements, range_succ, List.map_append, map_singleton]

/-- **The runs have the elements of the list**, in its order. -/
theorem spread_runs (hzero : ∀ x, next x 0 = x) (a : α) (k : ℕ) (l : List α) :
    (runs next a k l).flatMap (elements next) = elements next (a, k) ++ l := by
  induction l generalizing a k with
  | nil => rw [runs, flatMap_singleton, List.append_nil]
  | cons x l ih =>
    rw [runs]
    split_ifs with hnext
    · rw [ih, elements_succ, hnext, append_assoc, singleton_append]
    · have hone : elements next (x, 1) = [x] := by
        rw [elements_succ, hzero]
        rfl
      rw [flatMap_cons, ih, hone, singleton_append]

/-- A run begins with an element of the list. -/
theorem fst_of_mem_runs {run : α × ℕ} (h : run ∈ runs next a k l) : run.1 = a ∨ run.1 ∈ l := by
  induction l generalizing a k with
  | nil =>
    rw [runs, mem_singleton] at h
    exact .inl (congrArg Prod.fst h)
  | cons x l ih =>
    rw [runs] at h
    split_ifs at h with hnext
    · exact (ih h).imp_right (mem_cons_of_mem x)
    · rcases mem_cons.1 h with rfl | hrest
      · exact .inl rfl
      · refine .inr (mem_cons.2 (ih hrest))

theorem sum_runs (next : α → ℕ → α) (a : α) (k : ℕ) (l : List α) :
    ((runs next a k l).map Prod.snd).sum = k + l.length := by
  induction l generalizing a k with
  | nil => rw [runs, map_singleton, sum_singleton, length_nil, Nat.add_zero]
  | cons x l ih =>
    rw [runs, length_cons]
    split_ifs with hnext
    · rw [ih]
      omega
    · rw [List.map_cons, List.sum_cons, ih]
      omega

theorem length_runs_le (next : α → ℕ → α) (a : α) (k : ℕ) (l : List α) :
    (runs next a k l).length ≤ l.length + 1 := by
  induction l generalizing a k with
  | nil => exact Nat.le_refl 1
  | cons x l ih =>
    rw [runs, length_cons]
    split_ifs with hnext
    · exact Nat.le_succ_of_le (ih a (k + 1))
    · rw [length_cons]
      exact Nat.succ_le_succ (ih x 1)

end Runs

/-- A prefix with the same sum is the whole list. -/
theorem Runs.eq_of_prefix_of_sum {β : Type} {f : β → ℕ} {l₁ l₂ : List β} (h : l₁ <+: l₂)
    (hpos : ∀ b ∈ l₂, 0 < f b) (hsum : (l₁.map f).sum = (l₂.map f).sum) : l₁ = l₂ := by
  obtain ⟨rest, rfl⟩ := h
  cases rest with
  | nil => exact (List.append_nil l₁).symm
  | cons b rest =>
    have hb := hpos b (List.mem_append_right l₁ List.mem_cons_self)
    rw [List.map_append, List.sum_append, List.map_cons, List.sum_cons] at hsum
    omega

end NXEmu
