/-
# Pixel formats

`src/yuzu_video_core/surface.h`: the pixel formats and, for each, the width and the height of its
blocks in texels and the size of a block in bits.  A format without compression has blocks of one
texel.
-/

import Mathlib.Data.Nat.Notation
import Mathlib.Tactic.Common

namespace NXEmu
namespace VideoCore
namespace Surface

/-- `PixelFormat`. -/
inductive PixelFormat where
  | a8b8g8r8Unorm | a8b8g8r8Snorm | a8b8g8r8Sint | a8b8g8r8Uint | r5g6b5Unorm | b5g6r5Unorm
  | a1r5g5b5Unorm | a2b10g10r10Unorm | a2b10g10r10Uint | a2r10g10b10Unorm | a1b5g5r5Unorm
  | a5b5g5r1Unorm | r8Unorm | r8Snorm | r8Sint | r8Uint | r16g16b16a16Float | r16g16b16a16Unorm
  | r16g16b16a16Snorm | r16g16b16a16Sint | r16g16b16a16Uint | b10g11r11Float | r32g32b32a32Uint
  | bc1RgbaUnorm | bc2Unorm | bc3Unorm | bc4Unorm | bc4Snorm | bc5Unorm | bc5Snorm | bc7Unorm
  | bc6hUfloat | bc6hSfloat | astc2d4x4Unorm | b8g8r8a8Unorm | r32g32b32a32Float | r32g32b32a32Sint
  | r32g32Float | r32g32Sint | r32Float | r16Float | r16Unorm | r16Snorm | r16Uint | r16Sint
  | r16g16Unorm | r16g16Float | r16g16Uint | r16g16Sint | r16g16Snorm | r32g32b32Float
  | a8b8g8r8Srgb | r8g8Unorm | r8g8Snorm | r8g8Sint | r8g8Uint | r32g32Uint | r16g16b16x16Float
  | r32Uint | r32Sint | astc2d8x8Unorm | astc2d8x5Unorm | astc2d5x4Unorm | b8g8r8a8Srgb
  | bc1RgbaSrgb | bc2Srgb | bc3Srgb | bc7Srgb | a4b4g4r4Unorm | g4r4Unorm | astc2d4x4Srgb
  | astc2d8x8Srgb | astc2d8x5Srgb | astc2d5x4Srgb | astc2d5x5Unorm | astc2d5x5Srgb
  | astc2d10x8Unorm | astc2d10x8Srgb | astc2d6x6Unorm | astc2d6x6Srgb | astc2d10x6Unorm
  | astc2d10x6Srgb | astc2d10x5Unorm | astc2d10x5Srgb | astc2d10x10Unorm | astc2d10x10Srgb
  | astc2d12x10Unorm | astc2d12x10Srgb | astc2d12x12Unorm | astc2d12x12Srgb | astc2d8x6Unorm
  | astc2d8x6Srgb | astc2d6x5Unorm | astc2d6x5Srgb | e5b9g9r9Float | d32Float | d16Unorm
  | x8D24Unorm | s8Uint | d24UnormS8Uint | s8UintD24Unorm | d32FloatS8Uint

/-- `BLOCK_WIDTH_TABLE`. -/
def blockWidthTable : List ℕ :=
  [1, 1, 1, 1, 1, 1, 1, 1, 1, 1, 1, 1, 1, 1, 1, 1, 1, 1, 1, 1, 1, 1, 1, 4, 4, 4, 4, 4, 4, 4, 4, 4,
    4, 4, 1, 1, 1, 1, 1, 1, 1, 1, 1, 1, 1, 1, 1, 1, 1, 1, 1, 1, 1, 1, 1, 1, 1, 1, 1, 1, 8, 8, 5, 1,
    4, 4, 4, 4, 1, 1, 4, 8, 8, 5, 5, 5, 10, 10, 6, 6, 10, 10, 10, 10, 10, 10, 12, 12, 12, 12, 8, 8,
    6, 6, 1, 1, 1, 1, 1, 1, 1, 1]

/-- `DefaultBlockWidth`. -/
def defaultBlockWidth (format : PixelFormat) : ℕ := blockWidthTable.getD format.ctorIdx 0

/-- `BLOCK_HEIGHT_TABLE`. -/
def blockHeightTable : List ℕ :=
  [1, 1, 1, 1, 1, 1, 1, 1, 1, 1, 1, 1, 1, 1, 1, 1, 1, 1, 1, 1, 1, 1, 1, 4, 4, 4, 4, 4, 4, 4, 4, 4,
    4, 4, 1, 1, 1, 1, 1, 1, 1, 1, 1, 1, 1, 1, 1, 1, 1, 1, 1, 1, 1, 1, 1, 1, 1, 1, 1, 1, 8, 5, 4, 1,
    4, 4, 4, 4, 1, 1, 4, 8, 5, 4, 5, 5, 8, 8, 6, 6, 6, 6, 5, 5, 10, 10, 10, 10, 12, 12, 6, 6, 5, 5,
    1, 1, 1, 1, 1, 1, 1, 1]

/-- `DefaultBlockHeight`. -/
def defaultBlockHeight (format : PixelFormat) : ℕ := blockHeightTable.getD format.ctorIdx 0

/-- `BITS_PER_BLOCK_TABLE`. -/
def bitsPerBlockTable : List ℕ :=
  [32, 32, 32, 32, 16, 16, 16, 32, 32, 32, 16, 16, 8, 8, 8, 8, 64, 64, 64, 64, 64, 32, 128, 64,
    128, 128, 64, 64, 128, 128, 128, 128, 128, 128, 32, 128, 128, 64, 64, 32, 16, 16, 16, 16, 16,
    32, 32, 32, 32, 32, 96, 32, 16, 16, 16, 16, 64, 64, 32, 32, 128, 128, 128, 32, 64, 128, 128,
    128, 16, 8, 128, 128, 128, 128, 128, 128, 128, 128, 128, 128, 128, 128, 128, 128, 128, 128,
    128, 128, 128, 128, 128, 128, 128, 128, 32, 32, 16, 32, 8, 32, 32, 64]

/-- `BitsPerBlock`. -/
def bitsPerBlock (format : PixelFormat) : ℕ := bitsPerBlockTable.getD format.ctorIdx 0

/-- `BytesPerBlock`. -/
def bytesPerBlock (pixelFormat : PixelFormat) : ℕ := bitsPerBlock pixelFormat / 8

variable (format : PixelFormat)

/-- **The blocks of all formats but one have a power of two of bytes.** -/
theorem bytesPerBlock_mem (h : format ≠ .r32g32b32Float) :
    bytesPerBlock format ∈ [1, 2, 4, 8, 16] := by
  cases format <;> first | decide | exact absurd rfl h

theorem defaultBlockWidth_pos : 0 < defaultBlockWidth format := by
  cases format <;> decide

theorem defaultBlockHeight_pos : 0 < defaultBlockHeight format := by
  cases format <;> decide

end Surface
end VideoCore
end NXEmu
