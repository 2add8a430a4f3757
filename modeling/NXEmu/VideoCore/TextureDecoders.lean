/-
# Block-linear textures

`src/yuzu_video_core/textures/decoders.cpp`: a block-linear texture is cut into GOBs of 64 bytes by
8 rows, the GOBs are stacked into blocks, and within a GOB the bits of a byte's column and row are
interleaved by `pdep`.  `SwizzleImpl` walks over the texels and copies them one way or the other.

Sizes and offsets are numbers: nothing is said of sizes where the 32-bit arithmetic wraps.  The origin
of the transformation is zero, as in the source.
-/

import NXEmu.Lib.Exec
import NXEmu.Lib.Transfer

namespace NXEmu

namespace Common

/-- `Common::DivCeilLog2`. -/
def divCeilLog2 (value alignmentLog2 : ℕ) : ℕ := (value + (1 <<< alignmentLog2) - 1) >>> alignmentLog2

/-- `Common::AlignUpLog2`. -/
def alignUpLog2 (value alignLog2 : ℕ) : ℕ :=
  (value + ((1 <<< alignLog2) - 1)) >>> alignLog2 <<< alignLog2

end Common

namespace Tegra
namespace Texture

open Common

/-- A span of bytes. -/
abbrev Span : Type := ℕ → BitVec 8

/-- `GOB_SIZE_X`. -/
abbrev gobSizeX : ℕ := 64

/-- `GOB_SIZE_X_SHIFT`. -/
abbrev gobSizeXShift : ℕ := 6

/-- `GOB_SIZE_Y_SHIFT`. -/
abbrev gobSizeYShift : ℕ := 3

/-- `GOB_SIZE_SHIFT`. -/
abbrev gobSizeShift : ℕ := 9

/-- `SWIZZLE_X_BITS`. -/
def swizzleXBits : BitVec 32 := 0b100101111

/-- `SWIZZLE_Y_BITS`. -/
def swizzleYBits : BitVec 32 := 0b011010000

/-! ### Bits into a mask -/

/-- The loop of `pdep`.  Each round clears the lowest bit of `m`. -/
def pdepLoop (value : BitVec 32) : ℕ → BitVec 32 → BitVec 32 → BitVec 32 → BitVec 32
  | 0, _, _, result => result
  | rounds + 1, m, bit, result =>
    if m = 0 then result
    else
      pdepLoop value rounds (m &&& (m - 1)) (bit + bit)
        (if value &&& bit ≠ 0 then result ||| (m &&& (~~~m + 1)) else result)

/-- `pdep<mask>`. -/
def pdep (mask value : BitVec 32) : BitVec 32 := pdepLoop value 32 mask 1 0

/-- `incrpdep<mask, incr_amount>`. -/
def incrpdep (mask incrAmount value : BitVec 32) : BitVec 32 :=
  ((value ||| ~~~mask) + pdep mask incrAmount) &&& mask

/-! ### The walk over the texels -/

/-- `std::memcpy` of `count` bytes from `src` of the one span to `dst` of the other. -/
def memcpy (output input : Span) (dst src count : ℕ) : Span := fun i =>
  if dst ≤ i ∧ i < dst + count then input (src + (i - dst)) else output i

/-- The copy at the heart of the loops, from or to the tiled span. -/
def copyTexel (toLinear : Bool) (output input : Span) (swizzled unswizzled count : ℕ) : Span :=
  memcpy output input (if toLinear then swizzled else unswizzled)
    (if toLinear then unswizzled else swizzled) count

/-- `block_size`. -/
def blockSize (blockHeight blockDepth stride : ℕ) : ℕ :=
  divCeilLog2 stride gobSizeXShift <<< (gobSizeShift + blockHeight + blockDepth)

/-- `slice_size`. -/
def sliceSize (height blockHeight blockDepth stride : ℕ) : ℕ :=
  divCeilLog2 height (blockHeight + gobSizeYShift) * blockSize blockHeight blockDepth stride

/-- `offset_z`. -/
def offsetZ (height blockHeight blockDepth stride z : ℕ) : ℕ :=
  (z >>> blockDepth) * sliceSize height blockHeight blockDepth stride +
    ((z &&& ((1 <<< blockDepth) - 1)) <<< (gobSizeShift + blockHeight))

/-- `offset_y`, without the bits of the row inside the GOB. -/
def offsetY (blockHeight blockDepth stride y : ℕ) : ℕ :=
  let blockY := y >>> gobSizeYShift
  (blockY >>> blockHeight) * blockSize blockHeight blockDepth stride +
    ((blockY &&& ((1 <<< blockHeight) - 1)) <<< gobSizeShift)

/-- The sectors of one GOB row: where each is in the GOB and where in the row. -/
def sectors : List (ℕ × ℕ) := [(0, 0), (32, 16), (256, 32), (288, 48)]

/-- The loops of `SwizzleImpl` that take rows in pairs and GOB rows at a time, for texels of 16
bytes. -/
def swizzleSectors (toLinear : Bool) (output input : Span)
    (width height depth blockHeight blockDepth stride : ℕ) : Span :=
  let pitch := width * 16
  let xShift := gobSizeShift + blockHeight + blockDepth
  (List.range depth).foldl (fun output slice =>
    let offsetZ := offsetZ height blockHeight blockDepth stride slice
    (List.range ((height + 1) / 2)).foldl (fun output pair =>
      let line := 2 * pair
      let offsetY := offsetY blockHeight blockDepth stride line +
        (pdep swizzleYBits (BitVec.ofNat 32 line)).toNat
      (List.range (width / 4)).foldl (fun output gobX =>
        let base := offsetZ + offsetY + (gobX <<< xShift)
        let linear := (slice * height + line) * pitch + gobX * gobSizeX
        let rows := if line + 1 < height then 2 else 1
        (List.range rows).foldl (fun output row =>
          let swizzled := base + row * 16
          let unswizzled := linear + row * pitch
          sectors.foldl (fun output sector =>
            copyTexel toLinear output input (swizzled + sector.1) (unswizzled + sector.2) 16)
            output)
          output)
        output)
      output)
    output

/-- The loops of `SwizzleImpl` that take one texel at a time.  The innermost one carries
`swizzled_x`. -/
def swizzleTexels (toLinear : Bool) (bytesPerPixel : ℕ) (output input : Span)
    (width height depth blockHeight blockDepth stride : ℕ) : Span :=
  let pitch := width * bytesPerPixel
  let xShift := gobSizeShift + blockHeight + blockDepth
  (List.range depth).foldl (fun output slice =>
    let offsetZ := offsetZ height blockHeight blockDepth stride slice
    (List.range height).foldl (fun output line =>
      let swizzledY := pdep swizzleYBits (BitVec.ofNat 32 line)
      let offsetY := offsetY blockHeight blockDepth stride line
      ((List.range width).foldl (fun state column =>
        let x := column * bytesPerPixel
        let offsetX := (x >>> gobSizeXShift) <<< xShift
        let baseSwizzledOffset := offsetZ + offsetY + offsetX
        let swizzledOffset := baseSwizzledOffset + (state.2 ||| swizzledY).toNat
        let unswizzledOffset := slice * pitch * height + line * pitch + column * bytesPerPixel
        (copyTexel toLinear state.1 input swizzledOffset unswizzledOffset bytesPerPixel,
          incrpdep swizzleXBits (BitVec.ofNat 32 bytesPerPixel) state.2))
        (output, pdep swizzleXBits 0)).1)
      output)
    output

/-- `SwizzleImpl<TO_LINEAR, BYTES_PER_PIXEL>`: each texel between its place in the rows and its place in the
GOBs. -/
def swizzleImpl (toLinear : Bool) (bytesPerPixel : ℕ) (output input : Span)
    (width height depth blockHeight blockDepth stride : ℕ) : Span :=
  if bytesPerPixel = 16 ∧ width % 4 = 0 then
    swizzleSectors toLinear output input width height depth blockHeight blockDepth stride
  else
    swizzleTexels toLinear bytesPerPixel output input width height depth blockHeight blockDepth
      stride

/-- The pixel sizes the switch of `Swizzle` has a case for. -/
def bppCases : List ℕ := [1, 2, 3, 4, 6, 8, 12, 16]

/-- `Swizzle<TO_LINEAR>`: the texels, when the `switch` has a case for their bytes. -/
def swizzle (toLinear : Bool) (output input : Span)
    (bytesPerPixel width height depth blockHeight blockDepth strideAlignment : ℕ) : Exec Span :=
  if bytesPerPixel ∈ bppCases then
    return swizzleImpl toLinear bytesPerPixel output input width height depth blockHeight blockDepth
      strideAlignment
  else do
    -- Invalid bytes_per_pixel
    Exec.assert False
    return output

/-- `std::countr_zero` of a word of 32 bits. -/
def countrZero (value : ℕ) : ℕ := ((List.range 32).takeWhile fun i => !value.testBit i).length

/-- The row in bytes after padding, `stride`. -/
def rowStride (bytesPerPixel width strideAlignment : ℕ) : ℕ :=
  alignUpLog2 width strideAlignment * bytesPerPixel

/-- The size of the larger pixels, as a power of two: `new_bpp`. -/
def newBpp (bytesPerPixel width : ℕ) : ℕ := min 4 (countrZero (width * bytesPerPixel))

/-- The body that `UnswizzleTexture` and `SwizzleTexture` share. -/
def swizzleRegrouped (toLinear : Bool) (output input : Span)
    (bytesPerPixel width height depth blockHeight blockDepth strideAlignment : ℕ) : Exec Span :=
  let stride := rowStride bytesPerPixel width strideAlignment
  let newBpp := newBpp bytesPerPixel width
  swizzle toLinear output input (1 <<< newBpp) ((width * bytesPerPixel) >>> newBpp) height depth
    blockHeight blockDepth stride

/-- `UnswizzleTexture`. -/
def unswizzleTexture (output input : Span)
    (bytesPerPixel width height depth blockHeight blockDepth strideAlignment : ℕ) : Exec Span :=
  swizzleRegrouped false output input bytesPerPixel width height depth blockHeight blockDepth
    strideAlignment

/-- `SwizzleTexture`. -/
def swizzleTexture (output input : Span)
    (bytesPerPixel width height depth blockHeight blockDepth strideAlignment : ℕ) : Exec Span :=
  swizzleRegrouped true output input bytesPerPixel width height depth blockHeight blockDepth
    strideAlignment

/-! ### Where a texel byte goes -/

/-- The offset in the tiled texture that `SwizzleImpl` gives to byte `x` of row `y` of a slice, with
texels of so many bytes. -/
def tiledOffset (bytesPerPixel height blockHeight blockDepth stride x y z : ℕ) : ℕ :=
  let texelX := x / bytesPerPixel * bytesPerPixel
  offsetZ height blockHeight blockDepth stride z + offsetY blockHeight blockDepth stride y +
    (texelX >>> gobSizeXShift) <<< (gobSizeShift + blockHeight + blockDepth) +
    (pdep swizzleXBits (BitVec.ofNat 32 texelX) |||
      pdep swizzleYBits (BitVec.ofNat 32 y)).toNat + x % bytesPerPixel

/-- The offset of the same byte in the linear image. -/
def linearOffset (pitch height x y z : ℕ) : ℕ := z * pitch * height + y * pitch + x

end Texture
end Tegra
end NXEmu
