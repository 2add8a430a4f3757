/-
# Loops over the set bits of a word

`while (mask != 0) { c = countr_zero(mask); f(c); mask &= ~(1 << c); }`: the body runs for every set bit, from the
lowest one on.  The rule of the loop (`Exec.wp_forBits`) asks for an invariant that speaks of the bits that are
left.
-/

import NXEmu.Lib.Exec
import Mathlib.Data.Nat.Notation

namespace NXEmu

/-- The word without the bit `c`. -/
def withoutBit (mask : BitVec 64) (c : ℕ) : BitVec 64 := mask &&& ~~~(1#64 <<< c)

theorem getLsbD_withoutBit (mask : BitVec 64) (c i : ℕ) :
    (withoutBit mask c).getLsbD i = (mask.getLsbD i && !decide (i = c)) := by
  rw [withoutBit, BitVec.getLsbD_and, BitVec.getLsbD_not, BitVec.getLsbD_shiftLeft]
  by_cases hi : i < 64
  · by_cases hc : i = c
    · subst hc
      simp [hi]
    · simp [hi, hc]
      intro h
      omega
  · rw [BitVec.getLsbD_of_ge _ _ (by omega)]
    rfl

/-- The loop; `fuel` bounds the number of rounds. -/
def forBits {α : Type} (f : ℕ → α → Exec α) (fuel : ℕ) (mask : BitVec 64) (a : α) : Exec α :=
  if mask = 0 then return a
  else match fuel with
    | 0 => .fault
    | fuel + 1 => do
      let a ← f mask.ctz.toNat a
      forBits f fuel (withoutBit mask mask.ctz.toNat) a

namespace Exec

variable {α : Type} {f : ℕ → α → Exec α} {I : BitVec 64 → α → Prop} {mask : BitVec 64} {a : α}

/-- **The rule of the loop**: its body is run for the lowest bit of what is left of the word. -/
theorem wp_forBits (hf : ∀ mask c a, I mask a → mask.getLsbD c = true →
      wp (f c a) fun a' held => held = true ∧ I (withoutBit mask c) a')
    {fuel : ℕ} (hfuel : ∀ i, mask.getLsbD i = true → 64 ≤ i + fuel) (h : I mask a) :
    wp (forBits f fuel mask a) fun a' held => held = true ∧ I 0 a' := by
  induction fuel generalizing mask a with
  | zero =>
    have hzero : mask = 0 := BitVec.eq_of_getLsbD_eq fun i hi => by
      by_contra hne
      have := hfuel i (by simpa using hne)
      omega
    subst hzero
    rw [forBits, if_pos rfl, pure_eq, wp_ret]
    exact ⟨rfl, h⟩
  | succ fuel ih =>
    rw [forBits]
    by_cases hzero : mask = 0
    · subst hzero
      rw [if_pos rfl, pure_eq, wp_ret]
      exact ⟨rfl, h⟩
    · have hbit := BitVec.getLsbD_true_ctz_of_ne_zero hzero
      rw [if_neg hzero, wp_bind]
      refine wp_mono (hf mask _ a h hbit) fun a' held hr => ?_
      refine wp_mono (ih (fun i hi => ?_) hr.2) fun a'' held' hr' => ⟨?_, hr'.2⟩
      · -- the bits that are left are above the lowest one
        rw [getLsbD_withoutBit, Bool.and_eq_true] at hi
        have hlow := hfuel _ hbit
        have hge : ¬ i < mask.ctz.toNat := fun hlt => by
          rw [BitVec.getLsbD_false_of_lt_ctz hlt] at hi
          cases hi.1
        have hne : i ≠ mask.ctz.toNat := by simpa using hi.2
        omega
      · rw [hr.1, hr'.1]
        rfl

end Exec
end NXEmu
