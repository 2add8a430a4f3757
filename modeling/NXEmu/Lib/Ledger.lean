/-
# Ledgers

Who holds how much of something that many share.  The total is what a counter of it should show: changing
one share changes the total by as much (`total_update`), no share is larger than the total of shares that
are not negative (`le_total`), and totals compare as the shares do (`total_le_total`).
-/

import Mathlib.Data.Finsupp.Basic
import Mathlib.Algebra.BigOperators.Finsupp.Basic
import Mathlib.Algebra.Order.BigOperators.Group.Finset
import Mathlib.Algebra.Order.Group.Int
import Mathlib.Tactic.Common

namespace NXEmu
namespace Ledger

variable {ι : Type} {f g : ι →₀ ℤ} {i : ι} {a : ℤ}

/-- What all hold together. -/
noncomputable def total (f : ι →₀ ℤ) : ℤ := f.sum fun _ a => a

@[simp] theorem total_zero : total (0 : ι →₀ ℤ) = 0 := Finsupp.sum_zero_index

theorem total_update (f : ι →₀ ℤ) (i : ι) (a : ℤ) : total (f.update i a) = total f + (a - f i) := by
  have hsum := Finsupp.sum_update_add f i a (fun _ a => a) (fun _ => rfl) fun _ _ _ => rfl
  rw [total, total]
  omega

theorem total_nonneg (hf : ∀ i, 0 ≤ f i) : 0 ≤ total f := Finset.sum_nonneg fun i _ => hf i

theorem le_total (hf : ∀ i, 0 ≤ f i) : f i ≤ total f := by
  classical
  have hothers : 0 ≤ total (f.update i 0) := by
    refine total_nonneg fun j => ?_
    rw [Finsupp.coe_update]
    by_cases hj : j = i
    · rw [hj, Function.update_self]
    · rw [Function.update_of_ne hj]
      exact hf j
  rw [total_update] at hothers
  omega

theorem total_le_total (hle : ∀ i, f i ≤ g i) : total f ≤ total g := by
  have hsub : total (g - f) = total g - total f := Finsupp.sum_sub_index fun _ _ _ => rfl
  have hnonneg : 0 ≤ total (g - f) := total_nonneg fun i => sub_nonneg.2 (hle i)
  omega

end Ledger
end NXEmu
