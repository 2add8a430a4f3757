/-
# Swizzling a part of a texture

`src/yuzu_video_core/textures/decoders.cpp`: `SwizzleSubrect` and `UnswizzleSubrect` copy a rectangle of
texels from or to a buffer with a pitch of its own, a texel at a time.  `SwizzleTexture` regroups the
rows into pixels of a power of two of bytes first; the rectangles do not, and they count the GOBs of a
row from the width itself and not from the padded one.

So the two agree for just those rectangles where no texel runs over the end of a sector of 16 bytes,
and where the number of GOBs makes no difference (`subrect_agrees_iff`).  With texels of a power of two
of bytes that is every rectangle (`fits_regrouped`); with 3, 6 and 12 bytes it is not.

All numbers of the code have 32 bits.  Beyond `2 ^ 32` bytes the offsets wrap around and texels of one
rectangle share a place, so the results are about rectangles that do not reach that far (`NoWrap`).
-/

import NXEmu.VideoCore.TextureDecodersInverse
import NXEmu.Lib.Rectangles

variable {x i t l : ℕ} {pieces : List Piece}

namespace NXEmu
namespace Tegra
namespace Texture

open Common Transfer List Nat

/-! ### The code -/

/-- The loops of `SwizzleSubrectImpl` over the lines of one slice.  The offsets wrap at 32 bits. -/
def swizzleSubrectLines (toLinear : Bool) (bytesPerPixel : ℕ) (input : Span)
    (height originX originY extentX blockHeight blockDepth stride pitch slice linesInY : ℕ)
    (output : Span) : Span :=
  let xShift := gobSizeShift + blockHeight + blockDepth
  let offsetZ := offsetZ height blockHeight blockDepth stride slice
  (List.range linesInY).foldl (fun output line =>
    let y := line + originY
    let swizzledY := pdep swizzleYBits (BitVec.ofNat 32 y)
    let offsetY := offsetY blockHeight blockDepth stride y
    ((List.range extentX).foldl (fun state column =>
      let x := (column + originX) * bytesPerPixel % 2 ^ 32
      let offsetX := (x >>> gobSizeXShift) <<< xShift
      let baseSwizzledOffset := offsetZ + offsetY + offsetX
      let swizzledOffset := (baseSwizzledOffset + (state.2 ||| swizzledY).toNat) % 2 ^ 32
      let unswizzledOffset := (slice * pitch * height + line * pitch + column * bytesPerPixel) % 2 ^ 32
      (copyTexel toLinear state.1 input swizzledOffset unswizzledOffset bytesPerPixel,
        incrpdep swizzleXBits (BitVec.ofNat 32 bytesPerPixel) state.2))
      (output, pdep swizzleXBits (BitVec.ofNat 32 (originX * bytesPerPixel)))).1)
    output

/-- The loop of `SwizzleSubrectImpl` over the slices, which ends when no lines are left. -/
def swizzleSubrectSlices (toLinear : Bool) (bytesPerPixel : ℕ) (input : Span)
    (height originX originY extentX extentY blockHeight blockDepth stride pitch : ℕ) :
    List ℕ → ℕ → Span → Span
  | [], _, output => output
  | slice :: slices, unprocessedLines, output =>
    let linesInY := min unprocessedLines extentY
    let output := swizzleSubrectLines toLinear bytesPerPixel input height originX originY extentX
      blockHeight blockDepth stride pitch slice linesInY output
    let unprocessedLines := unprocessedLines - linesInY
    if unprocessedLines = 0 then output
    else
      swizzleSubrectSlices toLinear bytesPerPixel input height originX originY extentX extentY
        blockHeight blockDepth stride pitch slices unprocessedLines output

/-- The row in bytes that `SwizzleSubrectImpl` counts GOBs from, `stride`, before it wraps. -/
def subrectStride (bytesPerPixel width : ℕ) : ℕ := alignUpLog2 (width * bytesPerPixel) gobSizeXShift

/-- `SwizzleSubrectImpl<TO_LINEAR, BYTES_PER_PIXEL>`. -/
def swizzleSubrectImpl (toLinear : Bool) (bytesPerPixel : ℕ) (output input : Span)
    (width height depth originX originY extentX numLines blockHeight blockDepth pitchLinear : ℕ) :
    Span :=
  swizzleSubrectSlices toLinear bytesPerPixel input height originX originY extentX
    (min numLines (height - originY)) blockHeight blockDepth (subrectStride bytesPerPixel width % 2 ^ 32)
    pitchLinear (List.range depth) numLines output

/-- The switch that `SwizzleSubrect` and `UnswizzleSubrect` share. -/
def subrect (toLinear : Bool) (output input : Span)
    (bytesPerPixel width height depth originX originY extentX extentY blockHeight blockDepth
      pitchLinear : ℕ) : Exec Span :=
  if bytesPerPixel ∈ bppCases then
    return swizzleSubrectImpl toLinear bytesPerPixel output input width height depth originX originY
      extentX extentY blockHeight blockDepth pitchLinear
  else do
    -- Invalid bytes_per_pixel
    Exec.assert False
    return output

/-- `SwizzleSubrect`: the rows of a buffer into a rectangle of the texture. -/
def swizzleSubrect (output input : Span)
    (bytesPerPixel width height depth originX originY extentX extentY blockHeight blockDepth
      pitchLinear : ℕ) : Exec Span :=
  subrect true output input bytesPerPixel width height depth originX originY extentX extentY
    blockHeight blockDepth pitchLinear

/-- `UnswizzleSubrect`: a rectangle of the texture into a buffer of its rows. -/
def unswizzleSubrect (output input : Span)
    (bytesPerPixel width height depth originX originY extentX extentY blockHeight blockDepth
      pitchLinear : ℕ) : Exec Span :=
  subrect false output input bytesPerPixel width height depth originX originY extentX extentY
    blockHeight blockDepth pitchLinear

/-! ### What is copied -/

variable {toLinear : Bool} {input output : Span}
variable {bpp width height blockHeight blockDepth stride pitch : ℕ} {r : Rect}

/-- The bytes of a rectangle of texels, by their place in their row and their row. -/
def rectBytes (bpp : ℕ) (r : Rect) : List (ℕ × ℕ) :=
  (List.range r.height).flatMap fun y =>
    (List.range r.width).flatMap fun column =>
      (List.range bpp).map fun i => (column * bpp + i, y)

theorem mem_rectBytes {p : ℕ × ℕ} :
    p ∈ rectBytes bpp r ↔ p.1 < r.width * bpp ∧ p.2 < r.height := by
  obtain ⟨x, y⟩ := p
  simp only [rectBytes, mem_flatMap, mem_map, mem_range, Prod.mk.injEq]
  constructor
  · rintro ⟨y, hy, column, hcolumn, i, hi, rfl, rfl⟩
    refine ⟨?_, hy⟩
    rw [add_comm, Nat.mul_comm, Nat.mul_comm r.width]
    exact digit_lt hi hcolumn
  · rintro ⟨hx, hy⟩
    have hpos : 0 < bpp := Nat.pos_of_mul_pos_left (Nat.zero_lt_of_lt hx)
    exact ⟨y, hy, x / bpp, Nat.div_lt_of_lt_mul (Nat.mul_comm r.width bpp ▸ hx), x % bpp,
      Nat.mod_lt x hpos, div_add_mod' x bpp, rfl⟩

/-- The copies of a rectangle of a texture of one slice. -/
def subrectPlan (bpp height blockHeight blockDepth stride : ℕ) (r : Rect) (source : ℕ × ℕ → ℕ) :
    List (ℕ × ℕ) :=
  (rectBytes bpp r).map fun p =>
    (tiledOffset bpp height blockHeight blockDepth stride (r.x * bpp + p.1) (r.y + p.2) 0, source p)

theorem bpp_pos (hbpp : bpp ∈ bppCases) : 0 < bpp := by
  simp only [bppCases, mem_cons, not_mem_nil, or_false] at hbpp
  omega

/-! ### Offsets of 32 bits -/

/-- A rectangle of texels of the image. -/
def Within (width height : ℕ) (r : Rect) : Prop := r.x + r.width ≤ width ∧ r.y + r.height ≤ height

/-- The first byte of a texel is where it would be with texels of one byte. -/
theorem tiledOffset_first (hpos : 0 < bpp) (column y z : ℕ) :
    tiledOffset bpp height blockHeight blockDepth stride (column * bpp) y z =
      digits height blockHeight blockDepth stride (column * bpp) y z := by
  have hone : 1 ∈ regroupedSizes := by decide
  rw [← tiledOffset_eq hone, ← mul_one (column * bpp), tiledOffset_texel one_pos, mul_one,
    tiledOffset_texel hpos]

/-- The digits of a byte of the first slice, with what a GOB column weighs. -/
theorem digits_zero (x y : ℕ) :
    digits height blockHeight blockDepth stride x y 0 = swizzleTable y x + 512 * (y / 8 % 2 ^ blockHeight) +
        512 * (2 ^ blockHeight * 2 ^ blockDepth) * (x / 64 + divCeilLog2 stride 6 * (y / 8 / 2 ^ blockHeight)) := by
  rw [digits, Nat.zero_mod, Nat.zero_div]
  ring

/-- The rows of blocks down to the end of the rectangle and its buffer have at most `2 ^ 32` bytes, so that no
offset of it wraps around. -/
def NoWrap (bpp width blockHeight blockDepth : ℕ) (r : Rect) (pitch : ℕ) : Prop :=
  r.Nonempty → sliceSize (r.y + r.height) blockHeight blockDepth (rowStride bpp width 1) ≤ 2 ^ 32 ∧
    r.height * pitch ≤ 2 ^ 32

instance : Decidable (NoWrap bpp width blockHeight blockDepth r pitch) :=
  inferInstanceAs (Decidable (_ ∧ _ → _ ∧ _))

/-- A row has at most the GOBs of the padded one. -/
theorem gobs_subrectStride_le (bpp width : ℕ) :
    divCeilLog2 (subrectStride bpp width) 6 ≤ divCeilLog2 (rowStride bpp width 1) 6 := by
  have hle := le_rowStride bpp width 1
  simp only [subrectStride, alignUpLog2, divCeilLog2_eq, Nat.shiftLeft_eq, shiftRight_eq_div_pow, gobSizeXShift]
  omega

/-- The texels of some rows are in the blocks of these rows. -/
theorem tiledOffset_lt_sliceSize (hpos : 0 < bpp) {column y rows : ℕ} (hx : column < width) (hy : y < rows) :
    tiledOffset bpp height blockHeight blockDepth (subrectStride bpp width) (column * bpp) y 0 <
      sliceSize rows blockHeight blockDepth (rowStride bpp width 1) := by
  have hcolumn : column * bpp < rowStride bpp width 1 :=
    (Nat.mul_lt_mul_of_pos_right hx hpos).trans_le (le_rowStride _ _ _)
  have hlt := @digits_lt (column * bpp) y 0 rows blockHeight blockDepth _ 1 hcolumn hy one_pos
  have hone : divCeilLog2 1 blockDepth = 1 := by
    rw [divCeilLog2_eq, Nat.add_sub_cancel_left, Nat.div_self (Nat.two_pow_pos _)]
  rw [hone, mul_one, digits_zero] at hlt
  rw [tiledOffset_first hpos, digits_zero]
  refine lt_of_le_of_lt (Nat.add_le_add_left (Nat.mul_le_mul_left _ (Nat.add_le_add_left ?_ _)) _) hlt
  exact Nat.mul_le_mul_right _ (gobs_subrectStride_le bpp width)

/-- The blocks of some rows take at least eight rows of whole GOBs. -/
theorem le_sliceSize {rows : ℕ} (hrows : 0 < rows) (blockHeight blockDepth stride : ℕ) :
    8 * (64 * divCeilLog2 stride 6) ≤ sliceSize rows blockHeight blockDepth stride := by
  have hblocks : 0 < divCeilLog2 rows (blockHeight + 3) := (Nat.zero_le _).trans_lt (div_lt_divCeilLog2 hrows)
  have hweight : 0 < 2 ^ blockHeight * 2 ^ blockDepth := Nat.mul_pos (Nat.two_pow_pos _) (Nat.two_pow_pos _)
  have hsize : sliceSize rows blockHeight blockDepth stride =
      8 * (64 * divCeilLog2 stride 6) * (2 ^ blockHeight * 2 ^ blockDepth * divCeilLog2 rows (blockHeight + 3)) := by
    simp only [sliceSize, blockSize, gobSizeShift, gobSizeXShift, gobSizeYShift, Nat.shiftLeft_eq, Nat.pow_add]
    ring
  rw [hsize]
  exact Nat.le_mul_of_pos_right _ (Nat.mul_pos hweight hblocks)

/-- What is below `2 ^ 32` when nothing wraps: the row in bytes, the place of a texel in it, and both offsets. -/
theorem NoWrap.lt (h : NoWrap bpp width blockHeight blockDepth r pitch) (hpos : 0 < bpp)
    (hr : Within width height r) (hpitch : r.width * bpp ≤ pitch) {column line : ℕ} (hcolumn : column < r.width)
    (hline : line < r.height) : subrectStride bpp width < 2 ^ 32 ∧ (column + r.x) * bpp < 2 ^ 32 ∧
      tiledOffset bpp height blockHeight blockDepth (subrectStride bpp width) ((column + r.x) * bpp) (line + r.y) 0 <
        2 ^ 32 ∧ line * pitch + column * bpp < 2 ^ 32 := by
  obtain ⟨htiled, hbuffer⟩ := h ⟨Nat.zero_lt_of_lt hcolumn, Nat.zero_lt_of_lt hline⟩
  have hwithin := hr.1
  have hsize := (le_sliceSize (show 0 < r.y + r.height by omega) _ _ _).trans htiled
  have hgobs := gobs_subrectStride_le bpp width
  have hstride : subrectStride bpp width < 2 ^ 32 := by
    simp only [subrectStride, alignUpLog2, divCeilLog2_eq, Nat.shiftLeft_eq, shiftRight_eq_div_pow,
      gobSizeXShift] at hgobs hsize ⊢
    omega
  have hrow : (column + r.x) * bpp < width * bpp := Nat.mul_lt_mul_of_pos_right (by omega) hpos
  refine ⟨hstride, ((hrow.trans_le (le_alignUpLog2 _ gobSizeXShift)).trans hstride),
    (tiledOffset_lt_sliceSize hpos (by omega) (by omega)).trans_le htiled, ?_⟩
  have hplace : column * bpp < pitch := (Nat.mul_lt_mul_of_pos_right hcolumn hpos).trans_le hpitch
  rw [add_comm, Nat.mul_comm line]
  exact (digit_lt hplace hline).trans_le (Nat.mul_comm r.height pitch ▸ hbuffer)

/-! ### One transfer -/

theorem swizzleSubrectLines_eq (hbpp : bpp ∈ bppCases) (hlt : ∀ column < r.width, ∀ line < r.height,
    (column + r.x) * bpp < 2 ^ 32 ∧
      tiledOffset bpp height blockHeight blockDepth stride ((column + r.x) * bpp) (line + r.y) 0 < 2 ^ 32 ∧
      line * pitch + column * bpp < 2 ^ 32) :
    swizzleSubrectLines toLinear bpp input height r.x r.y r.width blockHeight blockDepth stride pitch
        0 r.height output =
      transfer (directed toLinear (subrectPlan bpp height blockHeight blockDepth stride r
        fun p => p.2 * pitch + p.1)) input output := by
  have hpos := bpp_pos hbpp
  rw [swizzleSubrectLines, subrectPlan, rectBytes, map_flatMap, ← foldl_directed]
  refine foldl_ext _ _ _ fun output line hline => ?_
  refine (congrArg Prod.fst (foldl_columns hbpp r.x (fun column swizzledX =>
    (offsetZ height blockHeight blockDepth stride 0 + offsetY blockHeight blockDepth stride (line + r.y) +
      (((column + r.x) * bpp % 2 ^ 32) >>> gobSizeXShift) <<< (gobSizeShift + blockHeight + blockDepth) +
      (swizzledX ||| pdep swizzleYBits (BitVec.ofNat 32 (line + r.y))).toNat) % 2 ^ 32) _ r.width)).trans ?_
  dsimp only
  rw [map_flatMap]
  congr 2
  refine flatMap_congr fun column hcolumn => ?_
  obtain ⟨hrow, htiled, hlinear⟩ := hlt column (mem_range.1 hcolumn) line (mem_range.1 hline)
  have hzero : 0 * pitch * height + line * pitch + column * bpp = line * pitch + column * bpp := by ring
  rw [add_comm r.x, mod_eq_of_lt hrow, ← tiledOffset_texel hpos, mod_eq_of_lt htiled, hzero, mod_eq_of_lt hlinear,
    bytePlan, map_map]
  refine map_congr_left fun i hi => ?_
  have hplace : r.x * bpp + (column * bpp + i) = (column + r.x) * bpp + i := by ring
  rw [Function.comp_apply, hplace, add_comm r.y, tiledOffset_byte (mem_range.1 hi), Nat.add_assoc]

/-- **A rectangle of a texture of one slice is one transfer.** -/
theorem subrect_eq (hbpp : bpp ∈ bppCases) (hr : Within width height r) (hpitch : r.width * bpp ≤ pitch)
    (hwrap : NoWrap bpp width blockHeight blockDepth r pitch) :
    subrect toLinear output input bpp width height 1 r.x r.y r.width r.height blockHeight blockDepth pitch =
      .ret (transfer (directed toLinear (subrectPlan bpp height blockHeight blockDepth
        (subrectStride bpp width) r fun p => p.2 * pitch + p.1)) input output) true := by
  have hlines : min r.height (height - r.y) = r.height := by
    have := hr.2
    omega
  have hrange : range 1 = [0] := rfl
  rw [subrect, if_pos hbpp, swizzleSubrectImpl, hlines, hrange, swizzleSubrectSlices, min_self,
    Nat.sub_self, if_pos rfl]
  have hlt := fun column hcolumn line => @NoWrap.lt _ _ height _ _ _ _ hwrap (bpp_pos hbpp) hr hpitch column line hcolumn
  by_cases hne : r.Nonempty
  · rw [mod_eq_of_lt (hlt 0 hne.1 0 hne.2).1,
      swizzleSubrectLines_eq hbpp fun column hcolumn line hline => (hlt column hcolumn line hline).2]
    rfl
  · -- nothing is copied, whatever the row in bytes is
    have hbytes : rectBytes bpp r = [] := by
      rw [eq_nil_iff_forall_not_mem]
      exact fun p hp => hne ⟨Nat.pos_of_mul_pos_right (Nat.zero_lt_of_lt (mem_rectBytes.1 hp).1),
        Nat.zero_lt_of_lt (mem_rectBytes.1 hp).2⟩
    rw [swizzleSubrectLines_eq hbpp fun column hcolumn line hline =>
      absurd ⟨Nat.zero_lt_of_lt hcolumn, Nat.zero_lt_of_lt hline⟩ hne, subrectPlan, subrectPlan, hbytes]
    rfl

/-! ### The offsets of the whole texture -/

/-- The offset that `SwizzleTexture` gives to byte `x` of row `y` of an image of one slice, with the
padding it has by default. -/
def textureOffset (bpp width height blockHeight blockDepth x y : ℕ) : ℕ :=
  tiledOffset (1 <<< newBpp bpp width) height blockHeight blockDepth (rowStride bpp width 1) x y 0

/-- No texel of the rectangle runs over the end of a sector, and all of its rows have one place with
the GOBs counted from the padded width and from the width itself. -/
def Fits (bpp width blockHeight : ℕ) (r : Rect) : Prop :=
  r.Nonempty →
    (∀ column, r.x ≤ column → column < r.x + r.width → column * bpp % 16 + bpp ≤ 16) ∧
    (divCeilLog2 (subrectStride bpp width) gobSizeXShift =
        divCeilLog2 (rowStride bpp width 1) gobSizeXShift ∨
      r.y + r.height ≤ 8 <<< blockHeight)

instance : Decidable (Fits bpp width blockHeight r) :=
  have : Decidable (∀ column, r.x ≤ column → column < r.x + r.width → column * bpp % 16 + bpp ≤ 16) :=
    decidable_of_iff (∀ column < r.x + r.width, r.x ≤ column → column * bpp % 16 + bpp ≤ 16)
      ⟨fun h column hle hlt => h column hlt hle, fun h column hlt hle => h column hle hlt⟩
  inferInstanceAs (Decidable (_ ∧ _ → _))

theorem textureOffset_eq (bpp width height blockHeight blockDepth x y : ℕ) :
    textureOffset bpp width height blockHeight blockDepth x y =
      digits height blockHeight blockDepth (rowStride bpp width 1) x y 0 :=
  tiledOffset_eq (newBpp_spec bpp width).1 x y 0

/-- Inside a sector the bytes follow each other. -/
theorem swizzleTable_add (h : x % 16 + i < 16) (y : ℕ) :
    swizzleTable y (x + i) = swizzleTable y x + i ∧ (x + i) / 64 = x / 64 := by
  unfold swizzleTable
  omega

/-- The first byte of the next sector does not follow the last one, whatever a column weighs. -/
theorem swizzleTable_next (h : x % 16 + i = 16) (y : ℕ) {weight : ℕ} (hw : 512 ≤ weight) :
    swizzleTable y x + i + weight * (x / 64) ≠ swizzleTable y (x + i) + weight * ((x + i) / 64) := by
  have hdiv : (x + i) / 64 = x / 64 ∨ (x + i) / 64 = x / 64 + 1 ∧ x % 64 / 16 = 3 := by omega
  obtain hdiv | ⟨hdiv, hlast⟩ := hdiv
  · rw [hdiv]
    unfold swizzleTable
    omega
  · rw [hdiv, mul_add]
    unfold swizzleTable
    omega

/-- **The bytes of one texel** have the offsets of the whole texture just when the texel does not run
over the end of a sector and the row of blocks starts at one place. -/
theorem texel_agrees_iff (hpos : 0 < bpp) (height blockDepth column y : ℕ) :
    (∀ i < bpp, tiledOffset bpp height blockHeight blockDepth (subrectStride bpp width)
        (column * bpp + i) y 0 = textureOffset bpp width height blockHeight blockDepth (column * bpp + i) y) ↔
      column * bpp % 16 + bpp ≤ 16 ∧ (divCeilLog2 (subrectStride bpp width) gobSizeXShift =
            divCeilLog2 (rowStride bpp width 1) gobSizeXShift ∨ y < 8 <<< blockHeight) := by
  have hrow : y / 8 / 2 ^ blockHeight = 0 ↔ y < 8 <<< blockHeight := by
    rw [Nat.div_div_eq_div_mul, Nat.div_eq_zero_iff, Nat.shiftLeft_eq]
    have h := Nat.two_pow_pos blockHeight
    omega
  have hweight : 512 ≤ 512 * (2 ^ blockHeight * 2 ^ blockDepth) :=
    Nat.le_mul_of_pos_right _ (Nat.mul_pos (Nat.two_pow_pos _) (Nat.two_pow_pos _))
  rw [← hrow]
  have hbyte : ∀ i < bpp, tiledOffset bpp height blockHeight blockDepth (subrectStride bpp width)
      (column * bpp + i) y 0 = swizzleTable y (column * bpp) + 512 * (y / 8 % 2 ^ blockHeight) +
        (512 * (2 ^ blockHeight * 2 ^ blockDepth) * (column * bpp / 64) + 512 * (2 ^ blockHeight * 2 ^ blockDepth) *
            (divCeilLog2 (subrectStride bpp width) 6 * (y / 8 / 2 ^ blockHeight))) + i := by
    intro i hi
    rw [tiledOffset_byte hi, tiledOffset_first hpos, digits_zero, mul_add]
  simp only [gobSizeXShift, textureOffset_eq, digits_zero, mul_add]
  generalize 512 * (2 ^ blockHeight * 2 ^ blockDepth) = weight at hweight hbyte ⊢
  generalize y / 8 / 2 ^ blockHeight = blockRow at hbyte ⊢
  generalize divCeilLog2 (rowStride bpp width 1) 6 = padded
  generalize divCeilLog2 (subrectStride bpp width) 6 = plain at hbyte ⊢
  constructor
  · intro h
    have hfirst := (hbyte 0 hpos).symm.trans (h 0 hpos)
    have hgobs : plain * blockRow = padded * blockRow := by
      refine Nat.eq_of_mul_eq_mul_left (show 0 < weight by omega) ?_
      simp only [Nat.add_zero] at hfirst
      omega
    refine ⟨?_, ?_⟩
    · by_contra hlong
      have hi : 16 - column * bpp % 16 < bpp := by omega
      have hnext := (hbyte _ hi).symm.trans (h _ hi)
      refine swizzleTable_next (x := column * bpp) (i := 16 - column * bpp % 16) (by omega) y hweight ?_
      rw [hgobs] at hnext
      omega
    · obtain hzero | hpos := Nat.eq_zero_or_pos blockRow
      · exact .inr hzero
      · exact .inl (eq_of_mul_eq_mul_right hpos hgobs)
  · rintro ⟨hfits, hgobs⟩ i hi
    have hgobs : plain * blockRow = padded * blockRow := by
      obtain rfl | rfl := hgobs
      · rfl
      · rfl
    obtain ⟨htable, hcolumn⟩ := swizzleTable_add (x := column * bpp) (i := i) (by omega) y
    rw [hbyte i hi, hgobs, htable, hcolumn]
    omega

/-- **The bytes of a rectangle** have the offsets of the whole texture just when it fits. -/
theorem fits_iff (hbpp : bpp ∈ bppCases) (height blockDepth : ℕ) :
    Fits bpp width blockHeight r ↔ ∀ x < r.width * bpp, ∀ y < r.height,
      tiledOffset bpp height blockHeight blockDepth (subrectStride bpp width) (r.x * bpp + x) (r.y + y) 0 =
        textureOffset bpp width height blockHeight blockDepth (r.x * bpp + x) (r.y + y) := by
  have hpos := bpp_pos hbpp
  constructor
  · intro h x hx y hy
    have hwidth : 0 < r.width := Nat.pos_of_mul_pos_right (Nat.zero_lt_of_lt hx)
    obtain ⟨hsector, hgobs⟩ := h ⟨hwidth, Nat.zero_lt_of_lt hy⟩
    have hcolumn : x / bpp < r.width := Nat.div_lt_of_lt_mul (Nat.mul_comm r.width bpp ▸ hx)
    have hbyte : r.x * bpp + x = (r.x + x / bpp) * bpp + x % bpp := by
      rw [Nat.add_mul, Nat.add_assoc, div_add_mod']
    rw [hbyte]
    have hrow : r.y + r.height ≤ 8 <<< blockHeight → r.y + y < 8 <<< blockHeight := by omega
    exact (texel_agrees_iff hpos height blockDepth (r.x + x / bpp) (r.y + y)).2
      ⟨hsector _ (Nat.le_add_right ..) (by omega), hgobs.imp_right hrow⟩ _ (Nat.mod_lt x hpos)
  · rintro h ⟨hwidth, hheight⟩
    have htexel : ∀ column, r.x ≤ column → column < r.x + r.width → ∀ y < r.height,
        column * bpp % 16 + bpp ≤ 16 ∧ (divCeilLog2 (subrectStride bpp width) gobSizeXShift =
          divCeilLog2 (rowStride bpp width 1) gobSizeXShift ∨ r.y + y < 8 <<< blockHeight) := by
      intro column hle hlt y hy
      refine (texel_agrees_iff hpos height blockDepth column (r.y + y)).1 fun i hi => ?_
      have hx : (column - r.x) * bpp + i < r.width * bpp := by
        rw [add_comm, Nat.mul_comm, Nat.mul_comm r.width]
        exact digit_lt hi (by omega)
      have hbyte : r.x * bpp + ((column - r.x) * bpp + i) = column * bpp + i := by
        rw [← Nat.add_assoc, ← Nat.add_mul, Nat.add_sub_cancel' hle]
      have heq := h _ hx y hy
      rwa [hbyte] at heq
    refine ⟨fun column hle hlt => (htexel column hle hlt 0 hheight).1, ?_⟩
    have hlast := (htexel r.x (le_refl _) (by omega) (r.height - 1) (by omega)).2
    exact hlast.imp_right (by omega)

/-- With texels of a power of two of bytes all rectangles fit. -/
theorem fits_regrouped (hbpp : bpp ∈ regroupedSizes) (width blockHeight : ℕ) (r : Rect) :
    Fits bpp width blockHeight r := by
  rintro -
  have hgobs : divCeilLog2 (subrectStride bpp width) gobSizeXShift =
      divCeilLog2 (rowStride bpp width 1) gobSizeXShift := by
    simp only [subrectStride, rowStride, alignUpLog2, divCeilLog2_eq, Nat.shiftLeft_eq,
      shiftRight_eq_div_pow, gobSizeXShift]
    simp only [regroupedSizes, mem_cons, not_mem_nil, or_false] at hbpp
    obtain rfl | rfl | rfl | rfl | rfl := hbpp <;> omega
  refine ⟨fun column _ _ => ?_, .inl hgobs⟩
  simp only [regroupedSizes, mem_cons, not_mem_nil, or_false] at hbpp
  obtain rfl | rfl | rfl | rfl | rfl := hbpp <;> omega

/-! ### A rectangle -/

theorem Within.byte_lt (h : Within width height r) (hx : x < r.width * bpp) :
    r.x * bpp + x < width * bpp := by
  have hle := mul_le_mul_right bpp h.1
  rw [Nat.add_mul] at hle
  omega

/-- `SwizzleSubrect` writes the bytes of the rectangle to the offsets that `SwizzleTexture` has for
them and nothing else, and `UnswizzleSubrect` then brings them back. -/
def SubrectAgrees (bpp width height blockHeight blockDepth : ℕ) (r : Rect) (pitchLinear : ℕ) : Prop :=
  ∀ tiled linear : Span, ∃ tiled', swizzleSubrect tiled linear bpp width height 1 r.x r.y r.width
      r.height blockHeight blockDepth pitchLinear = .ret tiled' true ∧
    (∀ x < r.width * bpp, ∀ y < r.height,
      tiled' (textureOffset bpp width height blockHeight blockDepth (r.x * bpp + x) (r.y + y)) =
        linear (y * pitchLinear + x)) ∧
    (∀ i, (∀ x < r.width * bpp, ∀ y < r.height,
      textureOffset bpp width height blockHeight blockDepth (r.x * bpp + x) (r.y + y) ≠ i) →
        tiled' i = tiled i) ∧
    ∀ other : Span, ∃ linear', unswizzleSubrect other tiled' bpp width height 1 r.x r.y r.width
        r.height blockHeight blockDepth pitchLinear = .ret linear' true ∧
      (∀ x < r.width * bpp, ∀ y < r.height,
        linear' (y * pitchLinear + x) = linear (y * pitchLinear + x)) ∧
      ∀ i, (∀ x < r.width * bpp, ∀ y < r.height, y * pitchLinear + x ≠ i) → linear' i = other i

theorem mem_subrectPlan {source : ℕ × ℕ → ℕ} :
    (t, l) ∈ subrectPlan bpp height blockHeight blockDepth stride r source ↔ ∃ x < r.width * bpp, ∃ y < r.height,
        tiledOffset bpp height blockHeight blockDepth stride (r.x * bpp + x) (r.y + y) 0 = t ∧ source (x, y) = l := by
  simp only [subrectPlan, mem_map, mem_rectBytes, Prod.mk.injEq, Prod.exists, and_assoc, exists_and_left]

/-- A pitch of at least a row keeps the bytes of the buffer apart. -/
theorem buffer_injective {x y x' y' rowBytes : ℕ} (hpitch : rowBytes ≤ pitch) (hx : x < rowBytes)
    (hx' : x' < rowBytes) (h : y * pitch + x = y' * pitch + x') : x = x' ∧ y = y' := by
  rw [add_comm, Nat.mul_comm, add_comm (y' * pitch), Nat.mul_comm y'] at h
  exact digit_injective (hx.trans_le hpitch) (hx'.trans_le hpitch) h

theorem textureOffset_injective {x x' y y' : ℕ} (hx : x < width * bpp) (hx' : x' < width * bpp)
    (hy : y < height) (hy' : y' < height) (h : textureOffset bpp width height blockHeight blockDepth x y =
      textureOffset bpp width height blockHeight blockDepth x' y') : x = x' ∧ y = y' := by
  rw [textureOffset_eq, textureOffset_eq] at h
  have hle := le_rowStride bpp width 1
  obtain ⟨hx, hy, -⟩ := digits_injective (hx.trans_le hle) (hx'.trans_le hle) hy hy' h
  exact ⟨hx, hy⟩

/-- **One rectangle** agrees with the whole texture just when it fits. -/
theorem subrectAgrees_iff (hbpp : bpp ∈ bppCases) (hr : Within width height r) (hpitch : r.width * bpp ≤ pitch)
    (hwrap : NoWrap bpp width blockHeight blockDepth r pitch) :
    SubrectAgrees bpp width height blockHeight blockDepth r pitch ↔ Fits bpp width blockHeight r := by
  rw [fits_iff hbpp height blockDepth]
  constructor
  · intro h x hx y hy
    -- the byte is copied to where it is found, whatever the spans hold
    have hmem := mem_of_forall_transfer (show (0 : BitVec 8) ≠ 1 by decide) fun linear tiled => by
      obtain ⟨tiled', hrun, hwritten, -⟩ := h tiled linear
      rw [swizzleSubrect, subrect_eq hbpp hr hpitch hwrap] at hrun
      cases hrun
      exact hwritten x hx y hy
    obtain ⟨x', hx', y', hy', hplace, hsource⟩ := mem_subrectPlan.1 (mem_directed_true.1 hmem)
    obtain ⟨rfl, rfl⟩ := buffer_injective hpitch hx' hx hsource
    exact hplace
  · intro h tiled linear
    have hmem : ∀ t l, (t, l) ∈ subrectPlan bpp height blockHeight blockDepth (subrectStride bpp width) r
        (fun p => p.2 * pitch + p.1) ↔ ∃ x < r.width * bpp, ∃ y < r.height,
          textureOffset bpp width height blockHeight blockDepth (r.x * bpp + x) (r.y + y) = t ∧
            y * pitch + x = l := by
      intro t l
      rw [mem_subrectPlan]
      constructor
      · rintro ⟨x, hx, y, hy, rfl, rfl⟩
        exact ⟨x, hx, y, hy, (h x hx y hy).symm, rfl⟩
      · rintro ⟨x, hx, y, hy, rfl, rfl⟩
        exact ⟨x, hx, y, hy, h x hx y hy, rfl⟩
    have hfunctional : Functional (subrectPlan bpp height blockHeight blockDepth (subrectStride bpp width) r
        fun p => p.2 * pitch + p.1) := by
      intro t l l' hl hl'
      obtain ⟨x, hx, y, hy, rfl, rfl⟩ := (hmem t l).1 hl
      obtain ⟨x', hx', y', hy', ht, rfl⟩ := (hmem _ l').1 hl'
      obtain ⟨hx, hy⟩ := textureOffset_injective (hr.byte_lt hx') (hr.byte_lt hx)
        (by have := hr.2; omega) (by have := hr.2; omega) ht
      rw [add_left_cancel hx, add_left_cancel hy]
    have hconverse : Functional (converse (subrectPlan bpp height blockHeight blockDepth
        (subrectStride bpp width) r fun p => p.2 * pitch + p.1)) := by
      intro l t t' ht ht'
      obtain ⟨x, hx, y, hy, rfl, rfl⟩ := (hmem t l).1 (mem_converse.1 ht)
      obtain ⟨x', hx', y', hy', rfl, hl⟩ := (hmem t' _).1 (mem_converse.1 ht')
      obtain ⟨rfl, rfl⟩ := buffer_injective hpitch hx' hx hl
      rfl
    refine ⟨_, subrect_eq hbpp hr hpitch hwrap, fun x hx y hy => ?_, fun i hi => ?_, fun other =>
      ⟨_, subrect_eq hbpp hr hpitch hwrap, fun x hx y hy => ?_, fun i hi => ?_⟩⟩
    · have hbyte := (hmem _ _).2 ⟨x, hx, y, hy, rfl, rfl⟩
      exact transfer_of_mem linear tiled hbyte fun s hs => hfunctional _ s _ hs hbyte
    · refine transfer_of_not_mem linear tiled fun s hs => ?_
      obtain ⟨x, hx, y, hy, ht, -⟩ := (hmem i s).1 hs
      exact hi x hx y hy ht
    · exact transfer_converse_transfer linear tiled hfunctional hconverse other
        ((hmem _ _).2 ⟨x, hx, y, hy, rfl, rfl⟩)
    · refine transfer_of_not_mem _ other fun s hs => ?_
      obtain ⟨x, hx, y, hy, -, hl⟩ := (hmem s i).1 (mem_directed_false.1 hs)
      exact hi x hx y hy hl

/-! ### A partition -/

/-- A rectangle and the pitch of its buffer. -/
structure Piece where
  rect : Rect
  pitchLinear : ℕ

/-- The offset in the linear image of a byte of the piece. -/
def Piece.source (bpp width height : ℕ) (piece : Piece) (p : ℕ × ℕ) : ℕ :=
  linearOffset (width * bpp) height (piece.rect.x * bpp + p.1) (piece.rect.y + p.2) 0

/-- The buffer holds the bytes of the piece. -/
def Piece.Holds (bpp width height : ℕ) (image : Span) (piece : Piece) (linear : Span) : Prop :=
  ∀ p ∈ rectBytes bpp piece.rect, linear (p.2 * piece.pitchLinear + p.1) = image (piece.source bpp width height p)

/-- Rectangles in the image that have each texel once, with buffers that are wide enough. -/
structure Partition (bpp width height : ℕ) (pieces : List Piece) : Prop where
  within : ∀ piece ∈ pieces, Within width height piece.rect
  pitch : ∀ piece ∈ pieces, piece.rect.width * bpp ≤ piece.pitchLinear
  covers : ∀ x < width, ∀ y < height, Rect.covers (pieces.map Piece.rect) x y = 1

/-- `SwizzleSubrect` of one piece after the other. -/
def swizzlePieces (tiled : Span) (bpp width height blockHeight blockDepth : ℕ)
    (buffers : List (Piece × Span)) : Exec Span :=
  buffers.foldlM (fun tiled buffer =>
    swizzleSubrect tiled buffer.2 bpp width height 1 buffer.1.rect.x buffer.1.rect.y buffer.1.rect.width
      buffer.1.rect.height blockHeight blockDepth buffer.1.pitchLinear) tiled

/-- The pieces one after the other are what `SwizzleTexture` makes of the whole image. -/
def PiecesAgree (bpp width height blockHeight blockDepth : ℕ) (pieces : List Piece) : Prop :=
  ∀ (tiled image : Span) (buffers : List (Piece × Span)), buffers.map Prod.fst = pieces →
    (∀ buffer ∈ buffers, buffer.1.Holds bpp width height image buffer.2) →
    swizzlePieces tiled bpp width height blockHeight blockDepth buffers =
      swizzleTexture tiled image bpp width height 1 blockHeight blockDepth 1

/-- The copies of all pieces, from the linear image. -/
def piecesPlan (bpp width height blockHeight blockDepth : ℕ) (pieces : List Piece) : List (ℕ × ℕ) :=
  pieces.flatMap fun piece => subrectPlan bpp height blockHeight blockDepth (subrectStride bpp width)
    piece.rect (piece.source bpp width height)

theorem piecesPlan_cons (piece : Piece) (pieces : List Piece) :
    piecesPlan bpp width height blockHeight blockDepth (piece :: pieces) =
      subrectPlan bpp height blockHeight blockDepth (subrectStride bpp width) piece.rect
          (piece.source bpp width height) ++
        piecesPlan bpp width height blockHeight blockDepth pieces :=
  flatMap_cons

/-- **Piece after piece is one transfer from the image.** -/
theorem swizzlePieces_eq (hbpp : bpp ∈ bppCases) {tiled image : Span} {buffers : List (Piece × Span)}
    (hin : ∀ buffer ∈ buffers, Within width height buffer.1.rect ∧
      buffer.1.rect.width * bpp ≤ buffer.1.pitchLinear ∧
      NoWrap bpp width blockHeight blockDepth buffer.1.rect buffer.1.pitchLinear)
    (hholds : ∀ buffer ∈ buffers, buffer.1.Holds bpp width height image buffer.2) :
    swizzlePieces tiled bpp width height blockHeight blockDepth buffers =
      .ret (transfer (piecesPlan bpp width height blockHeight blockDepth (buffers.map Prod.fst)) image
        tiled) true := by
  induction buffers generalizing tiled with
  | nil => rfl
  | cons buffer buffers ih =>
    have hfirst := mem_cons_self (a := buffer) (l := buffers)
    have hrest := fun tiled => @ih tiled (fun b hb => hin b (mem_cons_of_mem _ hb))
      fun b hb => hholds b (mem_cons_of_mem _ hb)
    unfold swizzlePieces at hrest ⊢
    obtain ⟨hwithin, hpitch, hwrap⟩ := hin _ hfirst
    rw [foldlM_cons, swizzleSubrect, subrect_eq hbpp hwithin hpitch hwrap, Exec.ret_true_bind, hrest,
      map_cons, piecesPlan_cons, transfer_append]
    have hsame := transfer_map_congr tiled (rectBytes bpp buffer.1.rect)
      (fun p => tiledOffset bpp height blockHeight blockDepth (subrectStride bpp width)
        (buffer.1.rect.x * bpp + p.1) (buffer.1.rect.y + p.2) 0) (hholds _ hfirst)
    exact congrArg (fun tiled => Exec.ret (transfer _ image tiled) true) hsame

/-- **The pieces of a partition have the bytes of the image.** -/
theorem mem_piecesPlan (hpieces : Partition bpp width height pieces) :
    (t, l) ∈ piecesPlan bpp width height blockHeight blockDepth pieces ↔
      Texel bpp width height 1 blockHeight blockDepth (subrectStride bpp width) t l := by
  simp only [piecesPlan, mem_flatMap, mem_subrectPlan]
  constructor
  · rintro ⟨piece, hpiece, x, hx, y, hy, rfl, rfl⟩
    have hin := hpieces.within piece hpiece
    have hrow : piece.rect.y + y < height := by
      have := hin.2
      omega
    exact ⟨_, hin.byte_lt hx, _, hrow, 0, one_pos, rfl, rfl⟩
  · rintro ⟨x, hx, y, hy, z, hz, rfl, rfl⟩
    have hpos : 0 < bpp := Nat.pos_of_mul_pos_left (Nat.zero_lt_of_lt hx)
    have hcolumn : x / bpp < width := Nat.div_lt_of_lt_mul (Nat.mul_comm width bpp ▸ hx)
    have hcovered : 0 < Rect.covers (pieces.map Piece.rect) (x / bpp) y := by
      rw [hpieces.covers _ hcolumn _ hy]
      exact one_pos
    obtain ⟨r, hr, hcontains⟩ := Rect.covers_pos.1 hcovered
    obtain ⟨piece, hpiece, rfl⟩ := mem_map.1 hr
    obtain ⟨hx1, hx2, hy1, hy2⟩ := Rect.contains_iff.1 hcontains
    have hleft : piece.rect.x * bpp ≤ x := (le_div_iff_mul_le hpos).1 hx1
    have hright : x < (piece.rect.x + piece.rect.width) * bpp := (div_lt_iff_lt_mul hpos).1 hx2
    rw [Nat.add_mul] at hright
    obtain rfl : z = 0 := by omega
    refine ⟨piece, hpiece, x - piece.rect.x * bpp, by omega, y - piece.rect.y, by omega, ?_, ?_⟩
    · rw [Nat.add_sub_cancel' hleft, Nat.add_sub_cancel' hy1]
    · rw [Piece.source, Nat.add_sub_cancel' hleft, Nat.add_sub_cancel' hy1]

/-- A buffer with the bytes of a piece. -/
def Piece.buffer (bpp width height : ℕ) (image : Span) (piece : Piece) : Span := fun i =>
  image (piece.source bpp width height (i % piece.pitchLinear, i / piece.pitchLinear))

theorem Piece.holds_buffer {piece : Piece} (h : piece.rect.width * bpp ≤ piece.pitchLinear)
    (image : Span) : piece.Holds bpp width height image (piece.buffer bpp width height image) := by
  intro p hp
  have hx : p.1 < piece.pitchLinear := (mem_rectBytes.1 hp).1.trans_le h
  have hmod : (p.2 * piece.pitchLinear + p.1) % piece.pitchLinear = p.1 := by
    rw [mul_add_mod_self_right, mod_eq_of_lt hx]
  have hdiv : (p.2 * piece.pitchLinear + p.1) / piece.pitchLinear = p.2 := by
    rw [add_comm, add_mul_div_right _ _ (Nat.zero_lt_of_lt hx), div_eq_of_lt hx, zero_add]
  rw [Piece.buffer, hmod, hdiv]

/-- **A partition** agrees with the whole texture just when the whole image fits. -/
theorem piecesAgree_iff (hbpp : bpp ∈ bppCases) (hpieces : Partition bpp width height pieces)
    (hwrap : ∀ piece ∈ pieces, NoWrap bpp width blockHeight blockDepth piece.rect piece.pitchLinear) :
    PiecesAgree bpp width height blockHeight blockDepth pieces ↔
      Fits bpp width blockHeight ⟨0, 0, width, height⟩ := by
  rw [fits_iff hbpp height blockDepth]
  simp only [zero_mul, zero_add]
  have hin : ∀ buffers : List (Piece × Span), buffers.map Prod.fst = pieces →
      ∀ buffer ∈ buffers, Within width height buffer.1.rect ∧
        buffer.1.rect.width * bpp ≤ buffer.1.pitchLinear ∧
        NoWrap bpp width blockHeight blockDepth buffer.1.rect buffer.1.pitchLinear := by
    rintro buffers rfl buffer hbuffer
    have hpiece := mem_map_of_mem (f := Prod.fst) hbuffer
    exact ⟨hpieces.within _ hpiece, hpieces.pitch _ hpiece, hwrap _ hpiece⟩
  constructor
  · intro h x hx y hy
    have hmem := mem_of_forall_transfer (show (0 : BitVec 8) ≠ 1 by decide) fun image tiled => by
      have hmap : (pieces.map fun piece => (piece, piece.buffer bpp width height image)).map Prod.fst = pieces := by
        rw [map_map]
        exact map_id pieces
      have hholds : ∀ buffer ∈ pieces.map fun piece => (piece, piece.buffer bpp width height image),
          buffer.1.Holds bpp width height image buffer.2 := by
        intro buffer hbuffer
        obtain ⟨piece, hpiece, rfl⟩ := mem_map.1 hbuffer
        exact Piece.holds_buffer (hpieces.pitch piece hpiece) image
      have hrun := h tiled image _ hmap hholds
      obtain ⟨tiled', hfull, hwritten, -⟩ := @swizzleTexture_spec bpp width height 1 blockHeight blockDepth 1
        tiled image _ (newBpp_spec bpp width).1
      rw [swizzlePieces_eq hbpp (hin _ hmap) hholds, hmap, hfull] at hrun
      cases hrun
      exact hwritten x hx y hy 0 one_pos
    obtain ⟨x', hx', y', hy', z', hz', hplace, hsource⟩ := (mem_piecesPlan hpieces).1 hmem
    obtain ⟨rfl, rfl, rfl⟩ := linearOffset_injective hx hx' hy hy' hsource
    exact hplace.symm
  · intro h tiled image buffers hmap hholds
    rw [swizzlePieces_eq hbpp (hin _ hmap) hholds, hmap, swizzleTexture, swizzleRegrouped_eq]
    have hfunctional := @functional_texelPlan true 1 (width * bpp) height 1 blockHeight blockDepth
      (rowStride bpp width 1) (by decide) (by
        rw [mul_one]
        exact le_rowStride _ _ _)
    refine congrArg (Exec.ret · true) (transfer_congr image tiled hfunctional fun t l => ?_).symm
    rw [mem_directed_true, mem_texelPlan, mem_piecesPlan hpieces]
    have hplace : ∀ x < width * bpp, ∀ y < height,
        tiledOffset bpp height blockHeight blockDepth (subrectStride bpp width) x y 0 =
          tiledOffset 1 height blockHeight blockDepth (rowStride bpp width 1) x y 0 := by
      intro x hx y hy
      rw [h x hx y hy, textureOffset_eq, tiledOffset_eq (by decide)]
    constructor
    · rintro ⟨x, hx, y, hy, z, hz, rfl, rfl⟩
      rw [mul_one] at hx ⊢
      obtain rfl : z = 0 := by omega
      exact ⟨x, hx, y, hy, 0, hz, (hplace x hx y hy).symm, rfl⟩
    · rintro ⟨x, hx, y, hy, z, hz, rfl, rfl⟩
      obtain rfl : z = 0 := by omega
      exact ⟨x, by rwa [mul_one], y, hy, 0, hz, hplace x hx y hy, by rw [mul_one]⟩

/-- **Rectangles agree with the whole texture** just when they fit, as far as no offset wraps.  One
rectangle is written where `SwizzleTexture` has it, and read back from there, just when it fits itself;
the rectangles of a partition make the whole texture just when the image fits.  With texels of a power of
two of bytes all of them fit. -/
theorem subrect_agrees_iff (hbpp : bpp ∈ bppCases) (width height blockHeight blockDepth : ℕ) :
    (∀ r pitch, Within width height r → r.width * bpp ≤ pitch → NoWrap bpp width blockHeight blockDepth r pitch →
      (SubrectAgrees bpp width height blockHeight blockDepth r pitch ↔ Fits bpp width blockHeight r)) ∧
    (∀ pieces, Partition bpp width height pieces →
      (∀ piece ∈ pieces, NoWrap bpp width blockHeight blockDepth piece.rect piece.pitchLinear) →
      (PiecesAgree bpp width height blockHeight blockDepth pieces ↔
        Fits bpp width blockHeight ⟨0, 0, width, height⟩)) ∧
    (bpp ∈ regroupedSizes → ∀ r, Fits bpp width blockHeight r) :=
  ⟨fun _ _ hr hpitch hwrap => subrectAgrees_iff hbpp hr hpitch hwrap,
    fun _ hpieces hwrap => piecesAgree_iff hbpp hpieces hwrap,
    fun h r => fits_regrouped h width blockHeight r⟩

/-- Texels of 12 bytes: the second one runs over the end of the first sector, so that a rectangle with
it does not agree, and the first one for itself does. -/
theorem subrect_agrees_iff_twelve :
    12 ∈ bppCases ∧ SubrectAgrees 12 4 8 0 0 ⟨0, 0, 1, 8⟩ 12 ∧ ¬SubrectAgrees 12 4 8 0 0 ⟨1, 0, 1, 8⟩ 12 :=
  have h := (subrect_agrees_iff (show 12 ∈ bppCases by decide) 4 8 0 0).1
  ⟨by decide, (h ⟨0, 0, 1, 8⟩ 12 ⟨by decide, by decide⟩ (by decide) (by decide)).2 (by decide),
    mt (h ⟨1, 0, 1, 8⟩ 12 ⟨by decide, by decide⟩ (by decide) (by decide)).1 (by decide)⟩

/-- Texels of 3 bytes: the rectangle is the whole of an image of 6 columns, and what is written is not
what `SwizzleTexture` writes. -/
theorem swizzleSubrect_three_differs :
    ¬∀ bpp ∈ bppCases, ∀ width height blockHeight blockDepth pitch r, Within width height r →
      r.width * bpp ≤ pitch → SubrectAgrees bpp width height blockHeight blockDepth r pitch := by
  intro h
  obtain ⟨tiled', hrun, hwritten, -⟩ := h 3 (by decide) 6 2 0 0 18 ⟨0, 0, 6, 2⟩ ⟨by decide, by decide⟩
    (by decide) (fun _ => 0) (BitVec.ofNat 8)
  have hbyte : ∀ tiled', swizzleSubrect (fun _ => 0) (BitVec.ofNat 8) 3 6 2 1 0 0 6 2 0 0 18 = .ret tiled' true →
      tiled' 32 = 34 := by
    intro tiled' hrun
    cases hrun
    decide +kernel
  have hplace : textureOffset 3 6 2 0 0 16 0 = 32 := by decide +kernel
  have h32 := hwritten 16 (by decide) 0 (by decide)
  rw [Nat.zero_mul, Nat.zero_add, Nat.zero_add, hplace, hbyte tiled' hrun] at h32
  exact absurd h32 (by decide)

end Texture
end Tegra
end NXEmu
