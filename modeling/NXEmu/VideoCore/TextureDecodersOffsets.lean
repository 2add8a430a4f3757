/-
# Offsets in a block-linear texture

`pdep` into the two masks of a GOB interleaves the column and the row of a byte as `MakeSwizzleTable`
does (`pdep_or_pdep`), and `incrpdep` keeps in step with it (`incrpdep_pdep`).  With texels of a power
of two up to 16 bytes the tiled offset is then a number in mixed radix, with a digit for each
coordinate of the byte in its GOB, its block and the texture (`tiledOffset_eq`), so that no two bytes
have one offset (`tiledOffset_injective`).
-/

import NXEmu.VideoCore.TextureDecoders
import Mathlib.Algebra.Group.Nat.Defs
import Mathlib.Tactic.Common
import Mathlib.Tactic.Ring

namespace NXEmu
namespace Tegra
namespace Texture

open Common

/-! ### Bits into a mask -/

variable {x x' y y' z z' : ℕ}

/-- The table of `MakeSwizzleTable`. -/
def swizzleTable (y x : ℕ) : ℕ :=
  x % 64 / 32 * 256 + y % 8 / 2 * 64 + x % 32 / 16 * 32 + y % 2 * 16 + x % 16

/-- A small mask sees only the low bits. -/
theorem ofNat_and_low {c : ℕ} (x : ℕ) (hc : c < 64) :
    BitVec.ofNat 32 x &&& BitVec.ofNat 32 c = BitVec.ofNat 32 (x % 64) &&& BitVec.ofNat 32 c := by
  have hlow : ∀ a, a &&& c = a % 64 &&& c := by
    intro a
    have hlt : a &&& c < 2 ^ 6 := lt_of_le_of_lt Nat.and_le_right hc
    have hmod := @Nat.and_mod_two_pow a c 6
    rw [Nat.mod_eq_of_lt hlt, Nat.mod_eq_of_lt (show c < 2 ^ 6 from hc)] at hmod
    exact hmod
  apply BitVec.eq_of_toNat_eq
  rw [BitVec.toNat_and, BitVec.toNat_and, BitVec.toNat_ofNat, BitVec.toNat_ofNat, BitVec.toNat_ofNat,
    Nat.mod_eq_of_lt (show c < 2 ^ 32 by omega), Nat.mod_eq_of_lt (show x % 64 < 2 ^ 32 by omega),
    hlow, show x % 2 ^ 32 % 64 = x % 64 by omega]

/-- `pdep` into the masks of a GOB looks at six bits at most. -/
theorem pdep_congr {v w : BitVec 32} (h : ∀ c < 64, v &&& BitVec.ofNat 32 c = w &&& BitVec.ofNat 32 c) :
    pdep swizzleXBits v = pdep swizzleXBits w ∧ pdep swizzleYBits v = pdep swizzleYBits w := by
  have h1 := h 1 (by decide)
  have h2 := h 2 (by decide)
  have h4 := h 4 (by decide)
  have h8 := h 8 (by decide)
  have h16 := h 16 (by decide)
  have h32 := h 32 (by decide)
  simp [pdep, pdepLoop, swizzleXBits, swizzleYBits] at h1 h2 h4 h8 h16 h32 ⊢
  simp [*]

theorem pdep_mod (x : ℕ) :
    pdep swizzleXBits (BitVec.ofNat 32 x) = pdep swizzleXBits (BitVec.ofNat 32 (x % 64)) ∧
      pdep swizzleYBits (BitVec.ofNat 32 x) = pdep swizzleYBits (BitVec.ofNat 32 (x % 64)) :=
  pdep_congr fun _ hc => ofNat_and_low x hc

theorem pdep_or_pdep_low : ∀ x < 64, ∀ y < 64,
    (pdep swizzleXBits (BitVec.ofNat 32 x) ||| pdep swizzleYBits (BitVec.ofNat 32 y)).toNat = swizzleTable y x := by
  decide +kernel

/-- **The interleaved bits are the table's entry.** -/
theorem pdep_or_pdep (x y : ℕ) :
    (pdep swizzleXBits (BitVec.ofNat 32 x) ||| pdep swizzleYBits (BitVec.ofNat 32 y)).toNat = swizzleTable y x := by
  rw [(pdep_mod x).1, (pdep_mod y).2, pdep_or_pdep_low _ (Nat.mod_lt _ (by decide)) _ (Nat.mod_lt _ (by decide))]
  unfold swizzleTable
  omega

theorem pdep_swizzleYBits (y : ℕ) :
    (pdep swizzleYBits (BitVec.ofNat 32 y)).toNat = y % 8 / 2 * 64 + y % 2 * 16 := by
  have h := pdep_or_pdep 0 y
  rw [show pdep swizzleXBits (BitVec.ofNat 32 0) = 0 by decide, BitVec.ofNat_eq_ofNat, BitVec.zero_or] at h
  rw [h]
  unfold swizzleTable
  omega

theorem incrpdep_low : ∀ x < 64, ∀ bpp ∈ bppCases,
    incrpdep swizzleXBits (BitVec.ofNat 32 bpp) (pdep swizzleXBits (BitVec.ofNat 32 x)) =
      pdep swizzleXBits (BitVec.ofNat 32 (x + bpp)) := by
  decide +kernel

/-- **`incrpdep` goes to the next texel.** -/
theorem incrpdep_pdep {bpp : ℕ} (hbpp : bpp ∈ bppCases) (x : ℕ) :
    incrpdep swizzleXBits (BitVec.ofNat 32 bpp) (pdep swizzleXBits (BitVec.ofNat 32 x)) =
      pdep swizzleXBits (BitVec.ofNat 32 (x + bpp)) := by
  rw [(pdep_mod x).1, incrpdep_low _ (Nat.mod_lt _ (by decide)) bpp hbpp, (pdep_mod (x + bpp)).1,
    (pdep_mod (x % 64 + bpp)).1, show (x % 64 + bpp) % 64 = (x + bpp) % 64 by omega]

theorem swizzleTable_lt (y x : ℕ) : swizzleTable y x < 512 := by
  unfold swizzleTable
  omega

theorem swizzleTable_column (y x : ℕ) : x % 64 =
    swizzleTable y x / 256 * 32 + swizzleTable y x / 32 % 2 * 16 + swizzleTable y x % 16 := by
  have hx : x % 64 = x % 64 / 32 * 32 + x % 32 / 16 * 16 + x % 16 := by omega
  rw [hx]
  unfold swizzleTable
  have hhalf : x % 64 / 32 < 2 := by omega
  have hsector : x % 32 / 16 < 2 := by omega
  have hbyte : x % 16 < 16 := by omega
  have hpair : y % 8 / 2 < 4 := by omega
  generalize x % 64 / 32 = half at hhalf ⊢
  generalize x % 32 / 16 = sector at hsector ⊢
  generalize x % 16 = byte at hbyte ⊢
  generalize y % 8 / 2 = pair at hpair ⊢
  omega

theorem swizzleTable_row (y x : ℕ) :
    y % 8 = swizzleTable y x / 64 % 4 * 2 + swizzleTable y x / 16 % 2 := by
  unfold swizzleTable
  omega

/-- An entry of the table says which byte of the GOB it is. -/
theorem swizzleTable_injective (h : swizzleTable y x = swizzleTable y' x') :
    x % 64 = x' % 64 ∧ y % 8 = y' % 8 := by
  rw [swizzleTable_column y x, swizzleTable_column y' x', swizzleTable_row y x, swizzleTable_row y' x', h]
  exact ⟨rfl, rfl⟩

/-! ### Sizes rounded up -/

variable {value n bound : ℕ}

theorem divCeilLog2_eq (value n : ℕ) : divCeilLog2 value n = (value + 2 ^ n - 1) / 2 ^ n := by
  rw [divCeilLog2, Nat.shiftRight_eq_div_pow, Nat.one_shiftLeft]

theorem div_lt_divCeilLog2 (h : x < value) : x / 2 ^ n < divCeilLog2 value n := by
  have hpos : 0 < 2 ^ n := Nat.two_pow_pos n
  rw [divCeilLog2_eq, Nat.lt_iff_add_one_le, Nat.le_div_iff_mul_le hpos, Nat.add_mul, one_mul]
  have hle := Nat.div_mul_le_self x (2 ^ n)
  omega

theorem le_alignUpLog2 (value n : ℕ) : value ≤ alignUpLog2 value n := by
  rw [alignUpLog2, Nat.shiftLeft_eq, Nat.shiftRight_eq_div_pow, Nat.one_shiftLeft]
  have hpos : 0 < 2 ^ n := Nat.two_pow_pos n
  have hdiv := Nat.div_add_mod (value + (2 ^ n - 1)) (2 ^ n)
  have hmod := Nat.mod_lt (value + (2 ^ n - 1)) hpos
  rw [Nat.mul_comm] at hdiv
  omega

/-! ### Digits -/

variable {a b c d m : ℕ}

theorem digit_injective (ha : a < n) (hc : c < n) (h : a + n * b = c + n * d) : a = c ∧ b = d := by
  have hmod : (a + n * b) % n = (c + n * d) % n := congrArg (· % n) h
  rw [Nat.add_mul_mod_self_left, Nat.add_mul_mod_self_left, Nat.mod_eq_of_lt ha, Nat.mod_eq_of_lt hc] at hmod
  subst hmod
  exact ⟨rfl, Nat.eq_of_mul_eq_mul_left (by omega) (Nat.add_left_cancel h)⟩

theorem digit_lt (ha : a < n) (hb : b < m) : a + n * b < n * m := by
  calc a + n * b < n + n * b := Nat.add_lt_add_right ha _
    _ = n * (b + 1) := by rw [Nat.mul_succ, Nat.add_comm]
    _ ≤ n * m := Nat.mul_le_mul_left _ hb

/-! ### The tiled offset -/

variable {height blockHeight blockDepth stride bpp : ℕ}

/-- The pixel sizes that `UnswizzleTexture` and `SwizzleTexture` regroup to. -/
def regroupedSizes : List ℕ := [1, 2, 4, 8, 16]

theorem mem_bppCases (hbpp : bpp ∈ regroupedSizes) : bpp ∈ bppCases := by
  simp only [regroupedSizes, bppCases, List.mem_cons, List.not_mem_nil, or_false] at hbpp ⊢
  omega

/-- The digits of a byte's offset: in the GOB, down the block, into the block, across the texture,
down the texture and through the slices. -/
def digits (height blockHeight blockDepth stride x y z : ℕ) : ℕ :=
  swizzleTable y x + 512 *
    (y / 8 % 2 ^ blockHeight + 2 ^ blockHeight *
      (z % 2 ^ blockDepth + 2 ^ blockDepth *
        (x / 64 + divCeilLog2 stride 6 *
          (y / 8 / 2 ^ blockHeight + divCeilLog2 height (blockHeight + 3) * (z / 2 ^ blockDepth)))))

/-- **With texels of a power of two of bytes, the offset is the number of these digits.** -/
theorem tiledOffset_eq (hbpp : bpp ∈ regroupedSizes) (x y z : ℕ) :
    tiledOffset bpp height blockHeight blockDepth stride x y z =
      digits height blockHeight blockDepth stride x y z := by
  have htexel : x / bpp * bpp / 2 ^ 6 = x / 64 ∧ swizzleTable y (x / bpp * bpp) + x % bpp = swizzleTable y x := by
    unfold swizzleTable
    simp only [regroupedSizes, List.mem_cons, List.not_mem_nil, or_false] at hbpp
    obtain rfl | rfl | rfl | rfl | rfl := hbpp <;> omega
  simp only [tiledOffset, offsetZ, offsetY, sliceSize, blockSize, gobSizeShift, gobSizeXShift,
    gobSizeYShift, pdep_or_pdep, Nat.shiftLeft_eq, Nat.shiftRight_eq_div_pow, Nat.one_mul,
    Nat.and_two_pow_sub_one_eq_mod, htexel.1, Nat.add_assoc, htexel.2, digits, Nat.pow_add]
  ring

theorem blockRow_lt (blockHeight : ℕ) (hy : y < height) :
    y / 8 / 2 ^ blockHeight < divCeilLog2 height (blockHeight + 3) := by
  rw [Nat.div_div_eq_div_mul, show 8 * 2 ^ blockHeight = 2 ^ (blockHeight + 3) by
    rw [Nat.pow_add, Nat.mul_comm]]
  exact div_lt_divCeilLog2 hy

/-- **No two bytes have one offset.** -/
theorem digits_injective (hx : x < stride) (hx' : x' < stride) (hy : y < height) (hy' : y' < height)
    (h : digits height blockHeight blockDepth stride x y z =
      digits height blockHeight blockDepth stride x' y' z') : x = x' ∧ y = y' ∧ z = z' := by
  have hdepth : 0 < 2 ^ blockDepth := Nat.two_pow_pos _
  have hheight : 0 < 2 ^ blockHeight := Nat.two_pow_pos _
  obtain ⟨hgob, h⟩ := digit_injective (swizzleTable_lt y x) (swizzleTable_lt y' x') h
  obtain ⟨hlow, h⟩ := digit_injective (Nat.mod_lt _ hheight) (Nat.mod_lt _ hheight) h
  obtain ⟨hslice, h⟩ := digit_injective (Nat.mod_lt _ hdepth) (Nat.mod_lt _ hdepth) h
  obtain ⟨hcolumn, h⟩ := digit_injective (div_lt_divCeilLog2 (n := 6) hx)
    (div_lt_divCeilLog2 (n := 6) hx') h
  obtain ⟨hrow, hblock⟩ := digit_injective (blockRow_lt _ hy) (blockRow_lt _ hy') h
  obtain ⟨hx64, hy8⟩ := swizzleTable_injective hgob
  have hy64 : y / 8 = y' / 8 := by
    rw [← Nat.div_add_mod (y / 8) (2 ^ blockHeight), hrow, hlow, Nat.div_add_mod]
  have hz : z = z' := by
    rw [← Nat.div_add_mod z (2 ^ blockDepth), hblock, hslice, Nat.div_add_mod]
  exact ⟨by omega, by omega, hz⟩

/-- The offsets end with the last block of the last slices. -/
theorem digits_lt {depth : ℕ} (hx : x < stride) (hy : y < height) (hz : z < depth) :
    digits height blockHeight blockDepth stride x y z <
      sliceSize height blockHeight blockDepth stride * divCeilLog2 depth blockDepth := by
  have hdepth : 0 < 2 ^ blockDepth := Nat.two_pow_pos _
  have hheight : 0 < 2 ^ blockHeight := Nat.two_pow_pos _
  have hblock := digit_lt (blockRow_lt blockHeight hy)
    (div_lt_divCeilLog2 (n := blockDepth) hz)
  have hlt := digit_lt (swizzleTable_lt y x)
    (digit_lt (Nat.mod_lt (y / 8) hheight)
      (digit_lt (Nat.mod_lt z hdepth) (digit_lt (div_lt_divCeilLog2 (n := 6) hx) hblock)))
  refine lt_of_lt_of_eq hlt ?_
  simp only [sliceSize, blockSize, gobSizeShift, gobSizeXShift, gobSizeYShift, Nat.shiftLeft_eq, Nat.pow_add]
  ring

/-! ### The linear offset -/

variable {pitch : ℕ}

theorem linearOffset_eq (pitch height x y z : ℕ) :
    linearOffset pitch height x y z = x + pitch * (y + height * z) := by
  unfold linearOffset
  ring

theorem linearOffset_injective (hx : x < pitch) (hx' : x' < pitch) (hy : y < height)
    (hy' : y' < height) (h : linearOffset pitch height x y z = linearOffset pitch height x' y' z') :
    x = x' ∧ y = y' ∧ z = z' := by
  rw [linearOffset_eq, linearOffset_eq] at h
  obtain ⟨hx, h⟩ := digit_injective hx hx' h
  exact ⟨hx, digit_injective hy hy' h⟩

theorem linearOffset_lt {depth : ℕ} (hx : x < pitch) (hy : y < height) (hz : z < depth) :
    linearOffset pitch height x y z < pitch * height * depth := by
  rw [linearOffset_eq, Nat.mul_assoc]
  exact digit_lt hx (digit_lt hy hz)

/-- Each offset of the linear image is a byte's. -/
theorem exists_linearOffset {depth i : ℕ} (hi : i < pitch * height * depth) :
    ∃ x < pitch, ∃ y < height, ∃ z < depth, linearOffset pitch height x y z = i := by
  have hpos : 0 < pitch * height := Nat.pos_of_mul_pos_right (Nat.zero_lt_of_lt hi)
  have hpitch : 0 < pitch := Nat.pos_of_mul_pos_right hpos
  have hheight : 0 < height := Nat.pos_of_mul_pos_left hpos
  refine ⟨i % pitch, Nat.mod_lt _ hpitch, i / pitch % height, Nat.mod_lt _ hheight, i / pitch / height, ?_, ?_⟩
  · rw [Nat.div_div_eq_div_mul]
    exact Nat.div_lt_of_lt_mul hi
  · rw [linearOffset_eq, Nat.mod_add_div, Nat.mod_add_div]

end Texture
end Tegra
end NXEmu
