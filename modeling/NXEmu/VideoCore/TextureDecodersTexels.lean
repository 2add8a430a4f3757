/-
# What the loops over the texels copy

Both ways of walking over a texture are transfers of single bytes: the byte-by-byte plan has a copy
for each byte of each row of each slice (`mem_texelPlan`), and with texels of 16 bytes the walk over
the sectors of GOB rows has the same copies (`mem_sectorPlan`).
-/

import NXEmu.VideoCore.TextureDecodersOffsets

variable {plan : List (ℕ × ℕ)} {t l : ℕ} {sector : ℕ × ℕ}

namespace NXEmu
namespace Tegra
namespace Texture

open Common Transfer List

variable {toLinear : Bool} {input output : Span} {ι : Type}

/-! ### Copies as plans -/

/-- A plan of tiled and linear offsets in the direction of `TO_LINEAR`. -/
def directed (toLinear : Bool) (plan : List (ℕ × ℕ)) : List (ℕ × ℕ) :=
  if toLinear then plan else converse plan

theorem directed_flatMap (l : List ι) (f : ι → List (ℕ × ℕ)) :
    directed toLinear (l.flatMap f) = l.flatMap fun i => directed toLinear (f i) := by
  cases toLinear
  · show (l.flatMap f).map Prod.swap = l.flatMap fun i => (f i).map Prod.swap
    rw [map_flatMap]
  · rfl

theorem directed_append (plan plan' : List (ℕ × ℕ)) :
    directed toLinear (plan ++ plan') = directed toLinear plan ++ directed toLinear plan' := by
  cases toLinear
  · exact map_append
  · rfl

theorem mem_directed_true :
    (t, l) ∈ directed true plan ↔ (t, l) ∈ plan := Iff.rfl

theorem mem_directed_false :
    (l, t) ∈ directed false plan ↔ (t, l) ∈ plan := mem_converse

/-- **A loop of directed transfers is one.** -/
theorem foldl_directed (l : List ι) (f : ι → List (ℕ × ℕ)) :
    l.foldl (fun output i => transfer (directed toLinear (f i)) input output) output =
      transfer (directed toLinear (l.flatMap f)) input output := by
  rw [foldl_transfer, directed_flatMap]

/-- The bytes of one texel. -/
def bytePlan (swizzled unswizzled count : ℕ) : List (ℕ × ℕ) :=
  (List.range count).map fun i => (swizzled + i, unswizzled + i)

theorem mem_bytePlan {swizzled unswizzled count t l : ℕ} :
    (t, l) ∈ bytePlan swizzled unswizzled count ↔ ∃ i < count, t = swizzled + i ∧ l = unswizzled + i := by
  simp only [bytePlan, mem_map, mem_range, Prod.mk.injEq]
  constructor
  · rintro ⟨i, hi, rfl, rfl⟩
    exact ⟨i, hi, rfl, rfl⟩
  · rintro ⟨i, hi, rfl, rfl⟩
    exact ⟨i, hi, rfl, rfl⟩

theorem memcpy_eq (dst src count : ℕ) :
    memcpy output input dst src count = transfer (bytePlan dst src count) input output := by
  funext i
  unfold memcpy
  split
  · next h =>
    refine (transfer_of_mem input output (mem_bytePlan.2 ⟨i - dst, by omega, by omega, rfl⟩) ?_).symm
    intro s hs
    obtain ⟨j, -, hd, rfl⟩ := mem_bytePlan.1 hs
    omega
  · next h =>
    refine (transfer_of_not_mem input output fun s hs => ?_).symm
    obtain ⟨j, hj, hd, -⟩ := mem_bytePlan.1 hs
    omega

theorem copyTexel_eq (swizzled unswizzled count : ℕ) :
    copyTexel toLinear output input swizzled unswizzled count =
      transfer (directed toLinear (bytePlan swizzled unswizzled count)) input output := by
  cases toLinear
  · rw [copyTexel, memcpy_eq]
    congr 1
    simp [directed, converse, bytePlan]
  · exact memcpy_eq _ _ _

/-! ### Texel by texel -/

variable {bpp width height depth blockHeight blockDepth stride : ℕ}

/-- The copies of `swizzleTexels`. -/
def texelPlan (bpp width height depth blockHeight blockDepth stride : ℕ) : List (ℕ × ℕ) :=
  (List.range depth).flatMap fun slice =>
    (List.range height).flatMap fun line =>
      (List.range width).flatMap fun column =>
        bytePlan
          (tiledOffset bpp height blockHeight blockDepth stride (column * bpp) line slice)
          (linearOffset (width * bpp) height (column * bpp) line slice) bpp

/-- The columns of a row from `origin` on: `swizzled_x` is what `pdep` makes of the column. -/
theorem foldl_columns (hbpp : bpp ∈ bppCases) (origin : ℕ) (at' : ℕ → BitVec 32 → ℕ) (from' : ℕ → ℕ) (width : ℕ) :
    (range width).foldl (fun state column =>
        (copyTexel toLinear state.1 input (at' column state.2) (from' column) bpp,
          incrpdep swizzleXBits (BitVec.ofNat 32 bpp) state.2))
        (output, pdep swizzleXBits (BitVec.ofNat 32 (origin * bpp))) =
      (transfer (directed toLinear ((range width).flatMap fun column =>
        bytePlan (at' column (pdep swizzleXBits (BitVec.ofNat 32 ((origin + column) * bpp))))
          (from' column) bpp)) input output,
        pdep swizzleXBits (BitVec.ofNat 32 ((origin + width) * bpp))) := by
  induction width with
  | zero => cases toLinear <;> rfl
  | succ width ih =>
    rw [range_succ, foldl_append, ih, flatMap_append, ← Nat.add_assoc, Nat.succ_mul,
      ← incrpdep_pdep hbpp, directed_append, transfer_append]
    simp only [foldl_cons, foldl_nil, flatMap_cons, flatMap_nil, append_nil]
    rw [copyTexel_eq]

/-- The offset of the first byte of a texel. -/
theorem tiledOffset_texel (hpos : 0 < bpp) (column y z : ℕ) :
    tiledOffset bpp height blockHeight blockDepth stride (column * bpp) y z =
      offsetZ height blockHeight blockDepth stride z + offsetY blockHeight blockDepth stride y +
        ((column * bpp) >>> gobSizeXShift) <<< (gobSizeShift + blockHeight + blockDepth) +
        (pdep swizzleXBits (BitVec.ofNat 32 (column * bpp)) ||| pdep swizzleYBits (BitVec.ofNat 32 y)).toNat := by
  rw [tiledOffset, Nat.mul_div_cancel _ hpos, Nat.mul_mod_left, Nat.add_zero]

theorem swizzleTexels_eq (hbpp : bpp ∈ bppCases) :
    swizzleTexels toLinear bpp output input width height depth blockHeight blockDepth stride =
      transfer (directed toLinear (texelPlan bpp width height depth blockHeight blockDepth stride)) input output := by
  have hpos : 0 < bpp := by
    simp only [bppCases, mem_cons, not_mem_nil, or_false] at hbpp
    omega
  rw [swizzleTexels, texelPlan, ← foldl_directed]
  refine foldl_ext _ _ _ fun output slice _ => ?_
  rw [← foldl_directed]
  refine foldl_ext _ _ _ fun output line _ => ?_
  refine ((congrArg (fun c => (foldl _ (output, pdep swizzleXBits (BitVec.ofNat 32 c)) _).1)
    (Nat.zero_mul bpp).symm).trans (congrArg Prod.fst (foldl_columns hbpp 0 (fun column swizzledX =>
      offsetZ height blockHeight blockDepth stride slice + offsetY blockHeight blockDepth stride line +
        ((column * bpp) >>> gobSizeXShift) <<< (gobSizeShift + blockHeight + blockDepth) +
        (swizzledX ||| pdep swizzleYBits (BitVec.ofNat 32 line)).toNat) _ width))).trans ?_
  simp only [tiledOffset_texel hpos, Nat.zero_add]
  rfl

/-! ### The bytes of a plan -/

/-- A byte of a texel is as far from the texel's first in the tiled texture as in the row. -/
theorem tiledOffset_byte {i : ℕ} (hi : i < bpp) (column y z : ℕ) :
    tiledOffset bpp height blockHeight blockDepth stride (column * bpp + i) y z =
      tiledOffset bpp height blockHeight blockDepth stride (column * bpp) y z + i := by
  have hpos : 0 < bpp := Nat.zero_lt_of_lt hi
  have hdiv : (column * bpp + i) / bpp = column := by
    rw [Nat.add_comm, Nat.add_mul_div_right _ _ hpos, Nat.div_eq_of_lt hi, Nat.zero_add]
  have hmod : (column * bpp + i) % bpp = i := by
    rw [Nat.add_comm, Nat.add_mul_mod_self_right, Nat.mod_eq_of_lt hi]
  rw [tiledOffset_texel hpos, tiledOffset, hdiv, hmod]

/-- A byte of the texture is copied from one offset to the other. -/
def Texel (bpp width height depth blockHeight blockDepth stride t l : ℕ) : Prop :=
  ∃ x < width * bpp, ∃ y < height, ∃ z < depth,
    t = tiledOffset bpp height blockHeight blockDepth stride x y z ∧
      l = linearOffset (width * bpp) height x y z

theorem mem_texelPlan :
    (t, l) ∈ texelPlan bpp width height depth blockHeight blockDepth stride ↔
      Texel bpp width height depth blockHeight blockDepth stride t l := by
  simp only [texelPlan, mem_flatMap, mem_range, mem_bytePlan]
  constructor
  · rintro ⟨z, hz, y, hy, column, hcolumn, i, hi, rfl, rfl⟩
    have hx : column * bpp + i < width * bpp := by
      rw [Nat.add_comm, Nat.mul_comm, Nat.mul_comm width]
      exact digit_lt hi hcolumn
    refine ⟨column * bpp + i, hx, y, hy, z, hz, ?_, ?_⟩
    · rw [tiledOffset_byte hi]
    · rw [linearOffset, linearOffset, Nat.add_assoc _ (column * bpp)]
  · rintro ⟨x, hx, y, hy, z, hz, rfl, rfl⟩
    have hpos : 0 < bpp := Nat.pos_of_mul_pos_left (Nat.zero_lt_of_lt hx)
    have hi := Nat.mod_lt x hpos
    refine ⟨z, hz, y, hy, x / bpp, Nat.div_lt_of_lt_mul (Nat.mul_comm width bpp ▸ hx), x % bpp, hi, ?_, ?_⟩
    · rw [← tiledOffset_byte hi, Nat.div_add_mod']
    · rw [linearOffset, linearOffset, Nat.add_assoc _ (x / bpp * bpp), Nat.div_add_mod']

/-! ### Sector by sector -/

/-- The copies of `swizzleSectors`. -/
def sectorPlan (width height depth blockHeight blockDepth stride : ℕ) : List (ℕ × ℕ) :=
  (List.range depth).flatMap fun slice =>
    (List.range ((height + 1) / 2)).flatMap fun pair =>
      (List.range (width / 4)).flatMap fun gobX =>
        (List.range (if 2 * pair + 1 < height then 2 else 1)).flatMap fun row =>
          sectors.flatMap fun sector =>
            bytePlan
              (tiledOffset 16 height blockHeight blockDepth stride (gobX * 64 + sector.2)
                (2 * pair + row) slice)
              (linearOffset (width * 16) height (gobX * 64 + sector.2) (2 * pair + row) slice) 16

/-- A sector of a GOB row, in the two rows of a pair. -/
theorem tiledOffset_sector (hsector : sector ∈ sectors) {row : ℕ} (hrow : row < 2) (gobX pair z : ℕ) :
    tiledOffset 16 height blockHeight blockDepth stride (gobX * 64 + sector.2) (2 * pair + row) z =
      offsetZ height blockHeight blockDepth stride z + (offsetY blockHeight blockDepth stride (2 * pair) +
          (pdep swizzleYBits (BitVec.ofNat 32 (2 * pair))).toNat) +
        (gobX <<< (gobSizeShift + blockHeight + blockDepth)) + row * 16 + sector.1 := by
  have hsector' : (gobX * 64 + sector.2) / 16 * 16 = gobX * 64 + sector.2 ∧
      (gobX * 64 + sector.2) % 16 = 0 ∧ (gobX * 64 + sector.2) / 2 ^ 6 = gobX ∧
      swizzleTable (2 * pair + row) (gobX * 64 + sector.2) =
        2 * pair % 8 / 2 * 64 + 2 * pair % 2 * 16 + row * 16 + sector.1 := by
    unfold swizzleTable
    simp only [sectors, mem_cons, not_mem_nil, or_false] at hsector
    obtain rfl | rfl | rfl | rfl := hsector <;> dsimp only <;> omega
  have hline : (2 * pair + row) >>> gobSizeYShift = (2 * pair) >>> gobSizeYShift := by
    rw [Nat.shiftRight_eq_div_pow, Nat.shiftRight_eq_div_pow, show 2 ^ gobSizeYShift = 8 from rfl]
    omega
  obtain ⟨htexel, hbyte, hgob, htable⟩ := hsector'
  rw [tiledOffset, htexel, hbyte, pdep_or_pdep, htable, pdep_swizzleYBits, offsetY, hline,
    Nat.shiftRight_eq_div_pow _ 6, hgob, offsetY]
  ring

theorem swizzleSectors_eq :
    swizzleSectors toLinear output input width height depth blockHeight blockDepth stride =
      transfer (directed toLinear (sectorPlan width height depth blockHeight blockDepth stride)) input output := by
  rw [swizzleSectors, sectorPlan, ← foldl_directed]
  refine foldl_ext _ _ _ fun output slice _ => ?_
  rw [← foldl_directed]
  refine foldl_ext _ _ _ fun output pair _ => ?_
  rw [← foldl_directed]
  refine foldl_ext _ _ _ fun output gobX _ => ?_
  rw [← foldl_directed]
  refine foldl_ext _ _ _ fun output row hrow => ?_
  rw [← foldl_directed]
  refine foldl_ext _ _ _ fun output sector hsector => ?_
  have hrow : row < 2 := lt_of_lt_of_le (mem_range.1 hrow) (by split <;> omega)
  rw [copyTexel_eq, tiledOffset_sector hsector hrow]
  congr 3
  unfold linearOffset
  ring

theorem sector_le (hsector : sector ∈ sectors) :
    sector.2 ≤ 48 ∧ sector.2 % 16 = 0 := by
  simp only [sectors, mem_cons, not_mem_nil, or_false] at hsector
  obtain rfl | rfl | rfl | rfl := hsector <;> decide

theorem exists_sector (x : ℕ) : ∃ sector ∈ sectors, sector.2 = x % 64 / 16 * 16 := by
  have h : ∀ s < 4, ∃ sector ∈ sectors, sector.2 = s * 16 := by decide
  exact h (x % 64 / 16) (by omega)

/-- **The sectors of the GOB rows are the bytes of the texture.** -/
theorem mem_sectorPlan (hwidth : width % 4 = 0) :
    (t, l) ∈ sectorPlan width height depth blockHeight blockDepth stride ↔
      Texel 16 width height depth blockHeight blockDepth stride t l := by
  simp only [sectorPlan, mem_flatMap, mem_range, mem_bytePlan]
  constructor
  · rintro ⟨z, hz, pair, hpair, gobX, hgob, row, hrow, sector, hsector, i, hi, rfl, rfl⟩
    obtain ⟨hle, hmod⟩ := sector_le hsector
    have hbase : gobX * 64 + sector.2 = (gobX * 64 + sector.2) / 16 * 16 := by omega
    have hline : 2 * pair + row < height := by
      split at hrow <;> omega
    refine ⟨gobX * 64 + sector.2 + i, by omega, 2 * pair + row, hline, z, hz, ?_, ?_⟩
    · rw [hbase, tiledOffset_byte hi]
    · rw [linearOffset, linearOffset, Nat.add_assoc _ (gobX * 64 + sector.2)]
  · rintro ⟨x, hx, y, hy, z, hz, rfl, rfl⟩
    obtain ⟨sector, hsector, hcolumn⟩ := exists_sector x
    have hi : x % 16 < 16 := Nat.mod_lt _ (by decide)
    have hbase : x / 64 * 64 + sector.2 = x / 16 * 16 := by omega
    have hbyte : x / 16 * 16 + x % 16 = x := Nat.div_add_mod' x 16
    refine ⟨z, hz, y / 2, by omega, x / 64, by omega, y % 2, by split <;> omega, sector, hsector, x % 16, hi, ?_, ?_⟩
    · rw [hbase, ← tiledOffset_byte hi, hbyte, Nat.div_add_mod]
    · rw [linearOffset, linearOffset, hbase, Nat.add_assoc _ (x / 16 * 16), hbyte, Nat.div_add_mod]

end Texture
end Tegra
end NXEmu
