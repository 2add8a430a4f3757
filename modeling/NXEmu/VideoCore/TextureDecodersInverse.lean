/-
# Swizzling and back

`UnswizzleTexture` and `SwizzleTexture` regroup the bytes of a row into the largest pixels that fit,
which changes nothing: each is the byte-by-byte transfer over the rows (`swizzleRegrouped_eq`).  With
the pixels they regroup to, no two bytes of a texture share a tiled offset, so the one undoes the other.

The switch of `Swizzle` has cases for pixels of 3, 6 and 12 bytes as well.  There a pixel that starts
before a sector of 16 bytes ends would run over into the sector of the next row
(`tiledOffset_three_collides`); no caller hands one on.
-/

import NXEmu.VideoCore.TextureDecodersTexels
import Mathlib.Data.List.TakeWhile

namespace NXEmu
namespace Tegra
namespace Texture

open Common Transfer

variable {toLinear : Bool} {input output : Span}
variable {bpp bpp' width width' height depth blockHeight blockDepth stride strideAlignment : ℕ}

/-! ### One plan for all pixel sizes -/

/-- **The bytes copied do not depend on the pixel size.** -/
theorem Texel.regroup {t l : ℕ} (hbpp : bpp ∈ regroupedSizes) (hbpp' : bpp' ∈ regroupedSizes)
    (hpitch : width * bpp = width' * bpp') (h : Texel bpp width height depth blockHeight blockDepth stride t l) :
    Texel bpp' width' height depth blockHeight blockDepth stride t l := by
  obtain ⟨x, hx, y, hy, z, hz, rfl, rfl⟩ := h
  refine ⟨x, hpitch ▸ hx, y, hy, z, hz, ?_, by rw [hpitch]⟩
  rw [tiledOffset_eq hbpp, tiledOffset_eq hbpp']

theorem functional_texelPlan (hbpp : bpp ∈ regroupedSizes) (hstride : width * bpp ≤ stride) :
    Functional (directed toLinear (texelPlan bpp width height depth blockHeight blockDepth stride)) := by
  intro d s s' hs hs'
  cases toLinear
  · obtain ⟨x, hx, y, hy, z, hz, rfl, hl⟩ := mem_texelPlan.1 (mem_directed_false.1 hs)
    obtain ⟨x', hx', y', hy', z', hz', rfl, hl'⟩ := mem_texelPlan.1 (mem_directed_false.1 hs')
    obtain ⟨rfl, rfl, rfl⟩ := linearOffset_injective hx hx' hy hy' (hl.symm.trans hl')
    rfl
  · obtain ⟨x, hx, y, hy, z, hz, ht, rfl⟩ := mem_texelPlan.1 (mem_directed_true.1 hs)
    obtain ⟨x', hx', y', hy', z', hz', ht', rfl⟩ := mem_texelPlan.1 (mem_directed_true.1 hs')
    rw [tiledOffset_eq hbpp] at ht ht'
    obtain ⟨rfl, rfl, rfl⟩ := digits_injective (lt_of_lt_of_le hx hstride)
      (lt_of_lt_of_le hx' hstride) hy hy' (ht.symm.trans ht')
    rfl

theorem transfer_regroup (hbpp : bpp ∈ regroupedSizes) (hbpp' : bpp' ∈ regroupedSizes)
    (hpitch : width * bpp = width' * bpp') (hstride : width * bpp ≤ stride) :
    transfer (directed toLinear (texelPlan bpp width height depth blockHeight blockDepth stride)) input output =
      transfer (directed toLinear (texelPlan bpp' width' height depth blockHeight blockDepth stride))
        input output := by
  refine transfer_congr input output (functional_texelPlan hbpp hstride) fun d s => ?_
  cases toLinear
  · rw [mem_directed_false, mem_directed_false, mem_texelPlan, mem_texelPlan]
    exact ⟨Texel.regroup hbpp hbpp' hpitch, Texel.regroup hbpp' hbpp hpitch.symm⟩
  · rw [mem_directed_true, mem_directed_true, mem_texelPlan, mem_texelPlan]
    exact ⟨Texel.regroup hbpp hbpp' hpitch, Texel.regroup hbpp' hbpp hpitch.symm⟩

/-- **Both walks of `SwizzleImpl` do the byte-by-byte transfer.** -/
theorem swizzleImpl_eq (hbpp : bpp ∈ regroupedSizes) (hstride : width * bpp ≤ stride) :
    swizzleImpl toLinear bpp output input width height depth blockHeight blockDepth stride = transfer
        (directed toLinear (texelPlan 1 (width * bpp) height depth blockHeight blockDepth stride))
        input output := by
  rw [← transfer_regroup hbpp (by decide) (Nat.mul_one _).symm hstride, swizzleImpl]
  split
  · next h =>
    obtain ⟨rfl, hwidth⟩ := h
    rw [swizzleSectors_eq]
    refine (transfer_congr input output (functional_texelPlan hbpp hstride) fun d s => ?_).symm
    cases toLinear
    · rw [mem_directed_false, mem_directed_false, mem_texelPlan, mem_sectorPlan hwidth]
    · rw [mem_directed_true, mem_directed_true, mem_texelPlan, mem_sectorPlan hwidth]
  · exact swizzleTexels_eq (mem_bppCases hbpp)

/-! ### Regrouping -/

theorem two_pow_dvd {n k : ℕ} (h : ∀ i < k, n.testBit i = false) : 2 ^ k ∣ n := by
  rw [Nat.dvd_iff_mod_eq_zero]
  refine Nat.eq_of_testBit_eq fun i => ?_
  rw [Nat.testBit_mod_two_pow, Nat.zero_testBit]
  by_cases hi : i < k
  · rw [h i hi, Bool.and_false]
  · rw [decide_eq_false hi, Bool.false_and]

theorem two_pow_countrZero_dvd (value : ℕ) : 2 ^ countrZero value ∣ value := by
  refine two_pow_dvd fun i hi => ?_
  have hmem : ((List.range 32).takeWhile fun i => !value.testBit i)[i] ∈
      (List.range 32).takeWhile fun i => !value.testBit i := List.getElem_mem hi
  have hbit := List.mem_takeWhile_imp hmem
  have hprefix := List.takeWhile_prefix (l := List.range 32) fun i => !value.testBit i
  rw [List.IsPrefix.getElem hprefix hi, List.getElem_range, Bool.not_eq_true'] at hbit
  exact hbit

/-- The larger pixels are ones the switch has a case for, and fill the row. -/
theorem newBpp_spec (bpp width : ℕ) : 1 <<< newBpp bpp width ∈ regroupedSizes ∧
    ((width * bpp) >>> newBpp bpp width) * (1 <<< newBpp bpp width) = width * bpp := by
  have hle : newBpp bpp width ≤ 4 := Nat.min_le_left _ _
  have hdvd : 2 ^ newBpp bpp width ∣ width * bpp :=
    (Nat.pow_dvd_pow 2 (Nat.min_le_right _ _)).trans (two_pow_countrZero_dvd _)
  constructor
  · generalize newBpp bpp width = n at hle
    have h : ∀ n < 5, 1 <<< n ∈ regroupedSizes := by decide
    exact h n (by omega)
  · rw [Nat.one_shiftLeft, Nat.shiftRight_eq_div_pow, Nat.div_mul_cancel hdvd]

theorem le_rowStride (bpp width strideAlignment : ℕ) :
    width * bpp ≤ rowStride bpp width strideAlignment :=
  Nat.mul_le_mul_right _ (le_alignUpLog2 _ _)

/-- **`UnswizzleTexture` and `SwizzleTexture` are the byte-by-byte transfer.** -/
theorem swizzleRegrouped_eq :
    swizzleRegrouped toLinear output input bpp width height depth blockHeight blockDepth strideAlignment =
      .ret (transfer (directed toLinear (texelPlan 1 (width * bpp) height depth blockHeight
        blockDepth (rowStride bpp width strideAlignment))) input output) true := by
  obtain ⟨hsize, hpitch⟩ := newBpp_spec bpp width
  rw [swizzleRegrouped, swizzle, if_pos (mem_bppCases hsize), swizzleImpl_eq hsize]
  · rw [hpitch]
    rfl
  · rw [hpitch]
    exact le_rowStride _ _ _

/-! ### There and back -/

/-- A byte of the texture is in the byte-by-byte plan. -/
theorem mem_plan {p x y z : ℕ} (hp : p ∈ regroupedSizes) (blockHeight blockDepth stride : ℕ)
    (hx : x < width * bpp) (hy : y < height) (hz : z < depth) :
    (tiledOffset p height blockHeight blockDepth stride x y z, linearOffset (width * bpp) height x y z) ∈
      texelPlan 1 (width * bpp) height depth blockHeight blockDepth stride := by
  refine mem_texelPlan.2 ⟨x, by rwa [Nat.mul_one], y, hy, z, hz, ?_, by rw [Nat.mul_one]⟩
  rw [tiledOffset_eq hp, tiledOffset_eq (by decide)]

/-- **What `SwizzleTexture` writes.** -/
theorem swizzleTexture_spec (tiled linear : Span) {p : ℕ} (hp : p ∈ regroupedSizes) :
    ∃ tiled', swizzleTexture tiled linear bpp width height depth blockHeight blockDepth
        strideAlignment = .ret tiled' true ∧
      (∀ x < width * bpp, ∀ y < height, ∀ z < depth,
        tiled' (tiledOffset p height blockHeight blockDepth (rowStride bpp width strideAlignment)
          x y z) = linear (linearOffset (width * bpp) height x y z)) ∧
      ∀ i, (∀ x < width * bpp, ∀ y < height, ∀ z < depth,
          tiledOffset p height blockHeight blockDepth (rowStride bpp width strideAlignment) x y z ≠ i) →
        tiled' i = tiled i := by
  have hfunctional := @functional_texelPlan true 1 (width * bpp) height depth blockHeight blockDepth
    (rowStride bpp width strideAlignment) (by decide) (by
      rw [Nat.mul_one]
      exact le_rowStride _ _ _)
  refine ⟨_, swizzleRegrouped_eq, fun x hx y hy z hz => ?_, fun i hi => ?_⟩
  · have hmem := mem_plan hp blockHeight blockDepth (rowStride bpp width strideAlignment)
      hx hy hz
    exact transfer_of_mem linear tiled hmem fun s hs => hfunctional _ s _ hs hmem
  · refine transfer_of_not_mem linear tiled fun s hs => ?_
    obtain ⟨x, hx, y, hy, z, hz, rfl, -⟩ := mem_texelPlan.1 hs
    refine hi x (Nat.mul_one (width * bpp) ▸ hx) y hy z hz ?_
    rw [tiledOffset_eq hp, tiledOffset_eq (by decide)]

/-- **What `UnswizzleTexture` writes.** -/
theorem unswizzleTexture_spec (linear tiled : Span) {p : ℕ} (hp : p ∈ regroupedSizes) :
    ∃ linear', unswizzleTexture linear tiled bpp width height depth blockHeight blockDepth
        strideAlignment = .ret linear' true ∧
      (∀ x < width * bpp, ∀ y < height, ∀ z < depth, linear' (linearOffset (width * bpp) height x y z) =
          tiled (tiledOffset p height blockHeight blockDepth (rowStride bpp width strideAlignment) x y z)) ∧
      ∀ i, width * bpp * height * depth ≤ i → linear' i = linear i := by
  have hfunctional := @functional_texelPlan false 1 (width * bpp) height depth blockHeight blockDepth
    (rowStride bpp width strideAlignment) (by decide) (by
      rw [Nat.mul_one]
      exact le_rowStride _ _ _)
  refine ⟨_, swizzleRegrouped_eq, fun x hx y hy z hz => ?_, fun i hi => ?_⟩
  · have hmem := mem_directed_false.2 (mem_plan hp blockHeight blockDepth (rowStride bpp width strideAlignment)
      hx hy hz)
    exact transfer_of_mem tiled linear hmem fun s hs => hfunctional _ s _ hs hmem
  · refine transfer_of_not_mem tiled linear fun s hs => ?_
    obtain ⟨x, hx, y, hy, z, hz, -, rfl⟩ := mem_texelPlan.1 (mem_directed_false.1 hs)
    rw [Nat.mul_one] at hx hi
    exact absurd (linearOffset_lt hx hy hz) (Nat.not_lt.2 hi)

/-- Two bytes of a texture never share an offset, and the offsets end with the blocks. -/
def Addresses (p pitch height depth blockHeight blockDepth stride : ℕ) : Prop :=
  (∀ x < pitch, ∀ y < height, ∀ z < depth, ∀ x' < pitch, ∀ y' < height, ∀ z' < depth,
    tiledOffset p height blockHeight blockDepth stride x y z =
      tiledOffset p height blockHeight blockDepth stride x' y' z' → x = x' ∧ y = y' ∧ z = z') ∧
  ∀ x < pitch, ∀ y < height, ∀ z < depth,
    tiledOffset p height blockHeight blockDepth stride x y z <
      sliceSize height blockHeight blockDepth stride * divCeilLog2 depth blockDepth

/-- Pixels of 3 bytes run over into the sector of the next row: byte 16 of a row has the offset of
the next row's first byte, so that what is swizzled with them does not come back. -/
theorem tiledOffset_three_collides :
    3 ∈ bppCases ∧ ¬Addresses 3 (6 * 3) 2 1 0 0 (rowStride 3 6 1) ∧
      swizzleImpl false 3 (fun _ => 0)
        (swizzleImpl true 3 (fun _ => 0) (BitVec.ofNat 8) 6 2 1 0 0 (rowStride 3 6 1))
        6 2 1 0 0 (rowStride 3 6 1) 16 ≠ BitVec.ofNat 8 16 := by
  refine ⟨by decide, fun h => ?_, by decide +kernel⟩
  have hbytes := h.1 16 (by decide) 0 (by decide) 0 (by decide) 0 (by decide) 1 (by decide) 0
    (by decide) (by decide +kernel)
  exact absurd hbytes.1 (by decide)

theorem addresses {p : ℕ} (hp : p ∈ regroupedSizes) {pitch : ℕ} (hstride : pitch ≤ stride) :
    Addresses p pitch height depth blockHeight blockDepth stride := by
  refine ⟨fun x hx y hy z _ x' hx' y' hy' z' _ h => ?_, fun x hx y hy z hz => ?_⟩
  · rw [tiledOffset_eq hp, tiledOffset_eq hp] at h
    exact digits_injective (lt_of_lt_of_le hx hstride) (lt_of_lt_of_le hx' hstride) hy hy' h
  · rw [tiledOffset_eq hp]
    exact digits_lt (lt_of_lt_of_le hx hstride) hy hz

/-- **Swizzling can be undone.**  The rows are regrouped into pixels for which no two bytes share an
offset.  `SwizzleTexture` changes the bytes of the texture and nothing else, `UnswizzleTexture` brings
back the image whatever was in the tiled texture before, and any other size of pixels that fills the
rows would do the same, the one with the walk over sectors included. -/
theorem swizzle_invertible
    (bpp width height depth blockHeight blockDepth strideAlignment : ℕ) :
    let stride := rowStride bpp width strideAlignment
    let pitch := width * bpp
    let size := 1 <<< newBpp bpp width
    (size ∈ regroupedSizes ∧
      ∀ p ∈ regroupedSizes, Addresses p pitch height depth blockHeight blockDepth stride) ∧
    (∀ tiled linear : Span, ∃ tiled', swizzleTexture tiled linear bpp width height depth blockHeight
        blockDepth strideAlignment = .ret tiled' true ∧
      (∀ x < pitch, ∀ y < height, ∀ z < depth,
        tiled' (tiledOffset size height blockHeight blockDepth stride x y z) =
          linear (linearOffset pitch height x y z)) ∧
      (∀ i, (∀ x < pitch, ∀ y < height, ∀ z < depth,
        tiledOffset size height blockHeight blockDepth stride x y z ≠ i) → tiled' i = tiled i) ∧
      ∀ other : Span, ∃ linear', unswizzleTexture other tiled' bpp width height depth blockHeight
          blockDepth strideAlignment = .ret linear' true ∧
        ∀ i < pitch * height * depth, linear' i = linear i) ∧
    ∀ (toLinear : Bool) (output input : Span), ∀ p ∈ regroupedSizes, ∀ w, w * p = pitch →
      swizzleRegrouped toLinear output input bpp width height depth blockHeight blockDepth
          strideAlignment =
        .ret (swizzleImpl toLinear p output input w height depth blockHeight blockDepth stride)
          true := by
  intro stride pitch size
  have hsize : size ∈ regroupedSizes := (newBpp_spec bpp width).1
  have hpitch : pitch ≤ stride := le_rowStride _ _ _
  refine ⟨⟨hsize, fun p hp => addresses hp hpitch⟩, fun tiled linear => ?_, ?_⟩
  · obtain ⟨tiled', hrun, hwritten, hkept⟩ := swizzleTexture_spec tiled linear hsize
    refine ⟨tiled', hrun, hwritten, hkept, fun other => ?_⟩
    obtain ⟨linear', hback, hread, -⟩ := unswizzleTexture_spec other tiled' hsize
    refine ⟨linear', hback, fun i hi => ?_⟩
    obtain ⟨x, hx, y, hy, z, hz, rfl⟩ := exists_linearOffset hi
    exact (hread x hx y hy z hz).trans (hwritten x hx y hy z hz)
  · intro toLinear output input p hp w hw
    rw [swizzleRegrouped_eq, swizzleImpl_eq hp (hw ▸ hpitch), hw]

end Texture
end Tegra
end NXEmu
