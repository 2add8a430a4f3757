/-
# Alignment

`src/yuzu_common/alignment.h`, on numbers: nothing is said of values that go past the width of their
type when they are aligned up.
-/

import Mathlib.Data.Nat.Notation
import Mathlib.Algebra.GroupWithZero.Nat
import Mathlib.Tactic.Common

namespace NXEmu

namespace Common

/-- `Common::DivCeil`. -/
def divCeil (number divisor : ℕ) : ℕ := (number + divisor - 1) / divisor

/-- `Common::AlignUp`. -/
def alignUp (value size : ℕ) : ℕ :=
  let mod := value % size
  let value := value - mod
  if mod = 0 then value else value + size

/-- `Common::AlignDown`. -/
def alignDown (value size : ℕ) : ℕ := value - value % size

theorem alignDown_le (value size : ℕ) : alignDown value size ≤ value := Nat.sub_le _ _

theorem alignDown_eq (value size : ℕ) : alignDown value size = value / size * size := by
  have hdiv := Nat.div_add_mod value size
  rw [alignDown, Nat.mul_comm]
  omega

theorem dvd_alignDown (value size : ℕ) : size ∣ alignDown value size := by
  rw [alignDown_eq]
  exact Nat.dvd_mul_left size _

theorem alignDown_of_dvd {value size : ℕ} (h : size ∣ value) : alignDown value size = value := by
  rw [alignDown, Nat.mod_eq_zero_of_dvd h, Nat.sub_zero]

section

variable (value : ℕ) {size : ℕ} (hsize : 0 < size)

include hsize

theorem lt_alignDown :
    value < alignDown value size + size := by
  have hmod := Nat.mod_lt value hsize
  have hle := Nat.mod_le value size
  rw [alignDown]
  omega

theorem le_alignUp : value ≤ alignUp value size := by
  have hlt := Nat.mod_lt value hsize
  rw [alignUp]
  split_ifs <;> omega

theorem alignUp_lt : alignUp value size < value + size := by
  have hlt := Nat.mod_lt value hsize
  have hle := Nat.mod_le value size
  rw [alignUp]
  split_ifs <;> omega

end

theorem dvd_alignUp (value size : ℕ) : size ∣ alignUp value size := by
  have hdown := dvd_alignDown value size
  rw [alignUp]
  split_ifs
  · exact hdown
  · exact Nat.dvd_add hdown (Nat.dvd_refl size)

end Common

end NXEmu
