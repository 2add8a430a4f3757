/-
# The maximal runs of a set

A set of numbers cut into its maximal runs, in increasing order: each run has a first number and the one
behind its last, and between two runs at least one number is left out (`MaximalRuns`).  A scan that goes
up through the set either lengthens its last run (`MaximalRuns.extend`) or begins another one
(`MaximalRuns.snoc`).
-/

import Mathlib.Data.List.Basic
import Mathlib.Data.Nat.Notation
import Mathlib.Tactic.Common

namespace NXEmu

/-- The maximal runs of a set in increasing order. -/
structure MaximalRuns (S : ℕ → Prop) (runs : List (ℕ × ℕ)) : Prop where
  nonempty : ∀ r ∈ runs, r.1 < r.2
  apart : runs.Pairwise fun r r' => r.2 < r'.1
  mem : ∀ i, (∃ r ∈ runs, r.1 ≤ i ∧ i < r.2) ↔ S i

namespace MaximalRuns

variable {S S' : ℕ → Prop} {runs : List (ℕ × ℕ)} {a b c : ℕ}

theorem congr (h : MaximalRuns S runs) (hS : ∀ i, S i ↔ S' i) : MaximalRuns S' runs where
  nonempty := h.nonempty
  apart := h.apart
  mem i := (h.mem i).trans (hS i)

theorem nil (h : ∀ i, ¬S i) : MaximalRuns S [] where
  nonempty _ hr := nomatch hr
  apart := .nil
  mem i := by simp [h i]

/-- **Another run**, behind a number that is left out. -/
theorem snoc (h : MaximalRuns S runs) (hab : a < b) (hafter : ∀ r ∈ runs, r.2 < a) :
    MaximalRuns (fun i => S i ∨ a ≤ i ∧ i < b) (runs ++ [(a, b)]) where
  nonempty r hr := by
    obtain hr | hr := List.mem_append.1 hr
    · exact h.nonempty r hr
    · obtain rfl := List.mem_singleton.1 hr
      exact hab
  apart := by
    refine List.pairwise_append.2 ⟨h.apart, List.pairwise_singleton _ _, fun r hr r' hr' => ?_⟩
    obtain rfl := List.mem_singleton.1 hr'
    exact hafter r hr
  mem i := by
    rw [← h.mem]
    simp [or_and_right, exists_or]

/-- **The last run goes on.** -/
theorem extend (h : MaximalRuns S (runs ++ [(a, b)])) (hbc : b ≤ c) :
    MaximalRuns (fun i => S i ∨ b ≤ i ∧ i < c) (runs ++ [(a, c)]) where
  nonempty r hr := by
    obtain hr | hr := List.mem_append.1 hr
    · exact h.nonempty r (List.mem_append_left _ hr)
    · obtain rfl := List.mem_singleton.1 hr
      exact Nat.lt_of_lt_of_le (h.nonempty (a, b) (by simp)) hbc
  apart := by
    obtain ⟨hapart, -, hlast⟩ := List.pairwise_append.1 h.apart
    refine List.pairwise_append.2 ⟨hapart, List.pairwise_singleton _ _, fun r hr r' hr' => ?_⟩
    obtain rfl := List.mem_singleton.1 hr'
    exact hlast r hr (a, b) (by simp)
  mem i := by
    have hab : a < b := h.nonempty (a, b) (by simp)
    have hrun : a ≤ i ∧ i < c ↔ (a ≤ i ∧ i < b) ∨ b ≤ i ∧ i < c := by omega
    rw [← h.mem]
    simp [or_and_right, exists_or, hrun, or_assoc]

/-- Runs stay in the bounds of their set. -/
theorem bounds (h : MaximalRuns S runs) (hS : ∀ i, S i → a ≤ i ∧ i < b) {r : ℕ × ℕ} (hr : r ∈ runs) :
    a ≤ r.1 ∧ r.2 ≤ b := by
  have hlt := h.nonempty r hr
  have hfirst := hS r.1 ((h.mem _).1 ⟨r, hr, Nat.le_refl _, hlt⟩)
  have hlast := hS (r.2 - 1) ((h.mem _).1 ⟨r, hr, by omega, by omega⟩)
  omega

/-- **Numbers of the set that follow each other are in one run.** -/
theorem exists_run (h : MaximalRuns S runs) (hab : a < b) (hS : ∀ i, a ≤ i → i < b → S i) :
    ∃ r ∈ runs, r.1 ≤ a ∧ b ≤ r.2 := by
  obtain ⟨r, hr, hra, har⟩ := (h.mem a).2 (hS a (Nat.le_refl a) hab)
  refine ⟨r, hr, hra, ?_⟩
  by_contra hlt
  -- the number behind the run is in another one
  obtain ⟨r', hr', hle, hlt'⟩ := (h.mem r.2).2 (hS r.2 (by omega) (by omega))
  obtain ⟨i, hi, rfl⟩ := List.mem_iff_getElem.1 hr
  obtain ⟨j, hj, rfl⟩ := List.mem_iff_getElem.1 hr'
  have happart := List.pairwise_iff_getElem.1 h.apart
  rcases Nat.lt_trichotomy i j with hij | rfl | hij
  · have := happart i j hi hj hij
    omega
  · omega
  · have := happart j i hj hi hij
    omega

end MaximalRuns
end NXEmu
