/-
# Byte strings

Strings of bytes, and the numbers that they hold in either order of bytes.
-/

import Mathlib.Algebra.Group.Nat.Defs
import Mathlib.Data.List.Induction
import Mathlib.Data.Nat.Notation
import Mathlib.Tactic.Common

namespace NXEmu

/-- The bytes of a string or of a file. -/
abbrev Bytes : Type := List UInt8

namespace Bytes

variable {bytes : Bytes} {width value : ℕ}

/-- The characters of a constant. -/
def ascii (s : String) : Bytes := s.toList.map fun c => UInt8.ofNat c.toNat

/-- The number with these bytes, the least significant one first. -/
def littleEndian (bytes : Bytes) : ℕ := bytes.foldr (fun byte value => byte.toNat + 256 * value) 0

/-- The number with these bytes, the most significant one first. -/
def bigEndian (bytes : Bytes) : ℕ := bytes.foldl (fun value byte => 256 * value + byte.toNat) 0

/-- The lowest bytes of a number, the most significant one first. -/
def toBigEndian : ℕ → ℕ → Bytes
  | 0, _ => []
  | width + 1, value => toBigEndian width (value / 256) ++ [UInt8.ofNat value]

@[simp] theorem length_toBigEndian (width value : ℕ) : (toBigEndian width value).length = width := by
  induction width generalizing value with
  | zero => rfl
  | succ width ih => rw [toBigEndian, List.length_append, ih, List.length_singleton]

theorem bigEndian_concat (bytes : Bytes) (byte : UInt8) :
    bigEndian (bytes ++ [byte]) = 256 * bigEndian bytes + byte.toNat := by
  rw [bigEndian, List.foldl_append]
  rfl

theorem bigEndian_lt (bytes : Bytes) : bigEndian bytes < 256 ^ bytes.length := by
  induction bytes using List.reverseRecOn with
  | nil => decide
  | append_singleton bytes byte ih =>
    have hbyte := byte.toNat_lt
    rw [bigEndian_concat, List.length_append, List.length_singleton, Nat.pow_succ]
    omega

theorem littleEndian_lt (bytes : Bytes) : littleEndian bytes < 256 ^ bytes.length := by
  induction bytes with
  | nil => decide
  | cons byte bytes ih =>
    have hbyte := byte.toNat_lt
    have hcons : littleEndian (byte :: bytes) = byte.toNat + 256 * littleEndian bytes := rfl
    rw [hcons, List.length_cons, Nat.pow_succ]
    omega

/-- **The number is read back.** -/
theorem bigEndian_toBigEndian (h : value < 256 ^ width) : bigEndian (toBigEndian width value) = value := by
  induction width generalizing value with
  | zero =>
    rw [Nat.pow_zero, Nat.lt_one_iff] at h
    rw [h]
    rfl
  | succ width ih =>
    rw [Nat.pow_succ] at h
    rw [toBigEndian, bigEndian_concat, ih (Nat.div_lt_of_lt_mul (by omega)), UInt8.toNat_ofNat']
    omega

/-- **The bytes are written back.** -/
theorem toBigEndian_bigEndian (bytes : Bytes) : toBigEndian bytes.length (bigEndian bytes) = bytes := by
  induction bytes using List.reverseRecOn with
  | nil => rfl
  | append_singleton bytes byte ih =>
    have hbyte := byte.toNat_lt
    rw [List.length_append, List.length_singleton, toBigEndian, bigEndian_concat]
    rw [show (256 * bigEndian bytes + byte.toNat) / 256 = bigEndian bytes by omega, ih]
    congr 2
    apply UInt8.toNat_inj.1
    rw [UInt8.toNat_ofNat']
    omega

end Bytes
end NXEmu
