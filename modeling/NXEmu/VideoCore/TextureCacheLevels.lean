/-
# Levels of an image in guest memory

The block shape of a level is found in two ways, once for its size and once for its bytes; both shrink
the blocks in the same way (`adjustTileShift_eq`, `adjustMipBlockShift_eq`).  With blocks of a power of
two of bytes, the padding of the rows makes no difference either, and the bytes of a level are within
its size (`tiledOffset_lt_calculateLevelSize`).
-/

import NXEmu.VideoCore.TextureCacheUtil
import NXEmu.VideoCore.TextureDecodersInverse

namespace NXEmu
namespace VideoCommon

open Common VideoCore.Surface Tegra.Texture

/-! ### Rounding up -/

variable {value n m a c : ℕ}

theorem divCeilLog2_le_iff : divCeilLog2 value n ≤ m ↔ value ≤ m * 2 ^ n := by
  have hpos : 0 < 2 ^ n := Nat.two_pow_pos n
  rw [divCeilLog2_eq, Nat.div_le_iff_le_mul_add_pred hpos, Nat.mul_comm]
  omega

theorem divCeilLog2_zero_right : divCeilLog2 value 0 = value :=
  le_antisymm (divCeilLog2_le_iff.2 (by omega)) (by
    have h := divCeilLog2_le_iff.1 (le_refl (divCeilLog2 value 0))
    omega)

theorem le_divCeilLog2_mul (value n : ℕ) : value ≤ divCeilLog2 value n * 2 ^ n :=
  divCeilLog2_le_iff.1 le_rfl

/-- Rounding up to larger units takes no less. -/
theorem divCeilLog2_mul_mono (value : ℕ) (h : a ≤ c) :
    divCeilLog2 value a * 2 ^ a ≤ divCeilLog2 value c * 2 ^ c := by
  obtain ⟨d, rfl⟩ := Nat.exists_eq_add_of_le h
  have hle : divCeilLog2 value a ≤ divCeilLog2 value (a + d) * 2 ^ d := by
    rw [divCeilLog2_le_iff, Nat.mul_assoc, ← Nat.pow_add, Nat.add_comm d a]
    exact le_divCeilLog2_mul _ _
  calc divCeilLog2 value a * 2 ^ a ≤ divCeilLog2 value (a + d) * 2 ^ d * 2 ^ a :=
        Nat.mul_le_mul_right _ hle
    _ = divCeilLog2 value (a + d) * 2 ^ (a + d) := by
        rw [Nat.mul_assoc, ← Nat.pow_add, Nat.add_comm d a]

/-- To round up twice is to round up once. -/
theorem divCeilLog2_divCeilLog2 (value a c : ℕ) :
    divCeilLog2 (divCeilLog2 value a) c = divCeilLog2 value (c + a) := by
  have h : ∀ m, divCeilLog2 (divCeilLog2 value a) c ≤ m ↔ divCeilLog2 value (c + a) ≤ m := by
    intro m
    rw [divCeilLog2_le_iff, divCeilLog2_le_iff, divCeilLog2_le_iff, Nat.mul_assoc, ← Nat.pow_add]
  exact le_antisymm ((h _).2 le_rfl) ((h _).1 le_rfl)

/-! ### The shape of blocks -/

variable {gobExtent numTiles blockSize level : ℕ}

theorem shrinkBlock_le : shrinkBlock gobExtent numTiles blockSize ≤ blockSize := by
  induction blockSize with
  | zero => exact le_rfl
  | succ blockSize ih =>
    rw [shrinkBlock]
    split
    · exact Nat.le_succ_of_le ih
    · exact le_rfl

/-- The loop has nothing to do a second time. -/
theorem shrinkBlock_shrinkBlock :
    shrinkBlock gobExtent numTiles (shrinkBlock gobExtent numTiles blockSize) =
      shrinkBlock gobExtent numTiles blockSize := by
  induction blockSize with
  | zero => rfl
  | succ blockSize ih =>
    by_cases h : numTiles ≤ (1 <<< blockSize) * gobExtent
    · rw [shrinkBlock, if_pos h, ih]
    · rw [shrinkBlock, if_neg h, shrinkBlock, if_neg h]

/-- `AdjustMipBlockSize` shrinks the blocks once, whatever the level. -/
theorem adjustMipBlockShift_eq :
    adjustMipBlockShift gobExtent numTiles blockSize level = shrinkBlock gobExtent numTiles blockSize := by
  induction level generalizing blockSize with
  | zero => rfl
  | succ level ih => rw [adjustMipBlockShift, ih, shrinkBlock_shrinkBlock]

theorem adjustTileSizeLoop_eq (shift : ℕ) :
    adjustTileSizeLoop numTiles (shift + 1) (gobExtent <<< shift) = shrinkBlock gobExtent numTiles shift := by
  induction shift with
  | zero => rfl
  | succ shift ih =>
    have hhalf : gobExtent <<< (shift + 1) >>> 1 = gobExtent <<< shift := by
      rw [Nat.shiftLeft_succ, Nat.shiftRight_one, Nat.mul_div_cancel_left _ (by decide)]
    rw [adjustTileSizeLoop, if_neg (Nat.succ_ne_zero shift), hhalf, ih, shrinkBlock,
      Nat.one_shiftLeft, Nat.mul_comm, ← Nat.shiftLeft_eq]
    by_cases h : numTiles ≤ gobExtent <<< shift
    · rw [if_neg (Nat.not_lt.2 h), if_pos h]
    · rw [if_pos (Nat.lt_of_not_le h), if_neg h]

/-- **`AdjustTileSize` shrinks the blocks as `AdjustMipBlockSize` does.** -/
theorem adjustTileShift_eq :
    adjustTileShift blockSize gobExtent numTiles = shrinkBlock gobExtent numTiles blockSize := by
  cases blockSize with
  | zero => rfl
  | succ shift =>
    rw [adjustTileShift, if_neg (Nat.succ_ne_zero shift), Nat.add_sub_cancel]
    show (if numTiles ≤ gobExtent <<< shift then
      adjustTileSizeLoop numTiles (shift + 1) (gobExtent <<< shift) else shift + 1) = _
    rw [adjustTileSizeLoop_eq, shrinkBlock, Nat.one_shiftLeft, Nat.mul_comm (2 ^ shift), ← Nat.shiftLeft_eq]

/-! ### Rows and their padding -/

variable {format : PixelFormat} {x y z : ℕ}

/-- `BytesPerBlockLog2` is the logarithm for a power of two. -/
theorem bytesPerBlock_eq (h : format ≠ .r32g32b32Float) :
    bytesPerBlockLog2 (bytesPerBlock format) ≤ 4 ∧
      bytesPerBlock format = 2 ^ bytesPerBlockLog2 (bytesPerBlock format) := by
  have hall : ∀ b ∈ [1, 2, 4, 8, 16], bytesPerBlockLog2 b ≤ 4 ∧ b = 2 ^ bytesPerBlockLog2 b := by
    decide
  exact hall _ (bytesPerBlock_mem format h)

/-- **The padding of a row leaves the GOBs across it as they are**, be it to two blocks or to a
GOB. -/
theorem divCeilLog2_rowStride {b : ℕ} (hb : b ≤ 4) (width : ℕ) {padding : ℕ}
    (hpadding : padding = 1 ∨ padding = 6 - b) :
    divCeilLog2 (rowStride (2 ^ b) width padding) 6 = divCeilLog2 (width <<< b) 6 := by
  simp only [divCeilLog2_eq, rowStride, alignUpLog2, Nat.shiftLeft_eq, Nat.shiftRight_eq_div_pow, Nat.one_mul]
  have hcases : b = 0 ∨ b = 1 ∨ b = 2 ∨ b = 3 ∨ b = 4 := by omega
  obtain rfl | rfl | rfl | rfl | rfl := hcases <;> obtain rfl | rfl := hpadding <;> omega

/-- The tiled offset looks only at the GOBs across a row. -/
theorem tiledOffset_congr {p height blockHeight blockDepth stride stride' : ℕ}
    (h : divCeilLog2 stride 6 = divCeilLog2 stride' 6) :
    tiledOffset p height blockHeight blockDepth stride x y z =
      tiledOffset p height blockHeight blockDepth stride' x y z := by
  simp only [tiledOffset, offsetZ, offsetY, sliceSize, blockSize, gobSizeXShift, h]

/-! ### The bytes of a level -/

/-- The blocks of a level, `num_tiles`. -/
def levelBlocks (info : ImageInfo) (level : ℕ) : Extent3D :=
  adjustTileSize (adjustMipExtent info.size level) (defaultBlockSize info.format)

/-- The shape of the blocks of a level, `block`. -/
def levelShape (info : ImageInfo) (level : ℕ) : Extent3D :=
  adjustMipBlockSize (levelBlocks info level) info.block level info.resources.levels

variable {info : ImageInfo}

/-- The size of a level is that of blocks at least as large as its shape. -/
theorem levelShape_le (info : ImageInfo) (level : ℕ) :
    (levelShape info level).height ≤ (tileShift (makeLevelInfo info) level).height ∧
      (levelShape info level).depth ≤ (tileShift (makeLevelInfo info) level).depth := by
  unfold levelShape adjustMipBlockSize tileShift
  rw [adjustMipBlockShift_eq, adjustMipBlockShift_eq, adjustMipBlockShift_eq]
  split
  · next h =>
    have hinfo : level = 0 ∧ (makeLevelInfo info).numLevels = 1 := h
    rw [if_pos hinfo]
    exact ⟨shrinkBlock_le, le_rfl⟩
  · next h =>
    have hinfo : ¬(level = 0 ∧ (makeLevelInfo info).numLevels = 1) := h
    rw [if_neg hinfo]
    exact ⟨le_of_eq adjustTileShift_eq.symm, le_of_eq adjustTileShift_eq.symm⟩

theorem calculateLevelSize_eq (hspacing : info.tileWidthSpacing = 0) (level : ℕ) :
    let shift := tileShift (makeLevelInfo info) level
    let blocks := levelBlocks info level
    calculateLevelSize (makeLevelInfo info) level = 2 ^ 9 *
        (divCeilLog2 (divCeilLog2 (blocks.width <<< bytesPerBlockLog2 (bytesPerBlock info.format)) 6)
          shift.width * 2 ^ shift.width) *
        (divCeilLog2 (divCeilLog2 blocks.height 3) shift.height * 2 ^ shift.height) *
        (divCeilLog2 blocks.depth shift.depth * 2 ^ shift.depth) := by
  intro shift blocks
  have halign : ∀ value, alignUpLog2 value 0 = value := fun value => by
    simp [alignUpLog2]
  have hgobs : (numGobs (makeLevelInfo info) level).width =
      divCeilLog2 (blocks.width <<< bytesPerBlockLog2 (bytesPerBlock info.format)) 6 := by
    show alignUpLog2 _ (if _ then 0 else info.tileWidthSpacing) = _
    rw [hspacing, ite_self, halign]
    rfl
  show (divCeilLog2 (numGobs (makeLevelInfo info) level).width shift.width *
    divCeilLog2 (divCeilLog2 blocks.height 3) shift.height * divCeilLog2 blocks.depth shift.depth) <<<
      (9 + shift.width + shift.height + shift.depth) = _
  rw [hgobs, Nat.shiftLeft_eq, Nat.pow_add, Nat.pow_add, Nat.pow_add]
  ring

/-- **The bytes of a level are within its size**, with either padding of the rows. -/
theorem tiledWithin_level (hformat : info.format ≠ .r32g32b32Float)
    (hspacing : info.tileWidthSpacing = 0) (level : ℕ) {padding : ℕ}
    (hpadding : padding = 1 ∨ padding = 6 - bytesPerBlockLog2 (bytesPerBlock info.format)) :
    TiledWithin (bytesPerBlock info.format) (levelBlocks info level).width
      (levelBlocks info level).height (levelBlocks info level).depth (levelShape info level).height
      (levelShape info level).depth padding (calculateLevelSize (makeLevelInfo info) level) := by
  intro x hx y hy z hz
  obtain ⟨hlog, hbytes⟩ := bytesPerBlock_eq hformat
  obtain ⟨hheight, hdepth⟩ := levelShape_le info level
  rw [tiledOffset_eq (newBpp_spec _ _).1]
  refine lt_of_lt_of_le (digits_lt (lt_of_lt_of_le hx (le_rowStride _ _ _)) hy hz) ?_
  have hstride := divCeilLog2_rowStride hlog (levelBlocks info level).width hpadding
  rw [← hbytes] at hstride
  rw [sliceSize, blockSize, hstride, calculateLevelSize_eq hspacing, Nat.shiftLeft_eq, Nat.pow_add, Nat.pow_add]
  have hx := le_divCeilLog2_mul (divCeilLog2 ((levelBlocks info level).width <<<
    bytesPerBlockLog2 (bytesPerBlock info.format)) 6) (tileShift (makeLevelInfo info) level).width
  have hy := divCeilLog2_mul_mono (divCeilLog2 (levelBlocks info level).height 3) hheight
  have hz := divCeilLog2_mul_mono (levelBlocks info level).depth hdepth
  rw [divCeilLog2_divCeilLog2] at hy
  refine le_trans (le_of_eq ?_) (Nat.mul_le_mul (Nat.mul_le_mul (Nat.mul_le_mul_left (2 ^ 9) hx) hy) hz)
  ring

/-! ### Layers -/

/-- The sizes of the levels of an image. -/
def levelSizes (info : ImageInfo) (level : ℕ) : ℕ :=
  if level < info.resources.levels then calculateLevelSize (makeLevelInfo info) level else 0

/-- The bytes from a layer to the next. -/
def layerStride (info : ImageInfo) : ℕ :=
  alignLayerSize (calculateLevelBytes (levelSizes info) info.resources.levels) info.size info.block
    (defaultBlockSize info.format).height info.tileWidthSpacing

/-- Where a level of a layer is in guest memory. -/
def guestOffset (info : ImageInfo) (level layer : ℕ) : ℕ :=
  calculateLevelBytes (levelSizes info) level + layer * layerStride info

theorem calculateLevelBytes_succ (sizes : ℕ → ℕ) (level : ℕ) :
    calculateLevelBytes sizes (level + 1) = calculateLevelBytes sizes level + sizes level := by
  rw [calculateLevelBytes, calculateLevelBytes, List.range_succ, List.map_append, List.sum_append]
  simp

theorem calculateLevelBytes_mono (sizes : ℕ → ℕ) {level level' : ℕ} (h : level ≤ level') :
    calculateLevelBytes sizes level ≤ calculateLevelBytes sizes level' := by
  induction level', h using Nat.le_induction with
  | base => exact le_rfl
  | succ level' _ ih =>
    rw [calculateLevelBytes_succ]
    exact le_trans ih (Nat.le_add_right _ _)

theorem calculateLevelSizes_eq (h : info.resources.levels ≤ maxMipLevels) :
    calculateLevelSizes (makeLevelInfo info) info.resources.levels = .ret (levelSizes info) true := by
  rw [calculateLevelSizes, if_pos h, Exec.assert, decide_eq_true h]
  rfl

theorem calculateLevelOffset_eq :
    calculateLevelOffset info.format info.size info.block info.tileWidthSpacing info.resources.levels =
      calculateLevelBytes (levelSizes info) info.resources.levels := by
  have h : ∀ n ≤ info.resources.levels,
      (List.range n).foldl (fun offset level => offset + calculateLevelSize (makeLevelInfo info) level)
        0 = calculateLevelBytes (levelSizes info) n := by
    intro n
    induction n with
    | zero => exact fun _ => rfl
    | succ n ih =>
      intro hn
      rw [List.range_succ, List.foldl_append, ih (by omega), calculateLevelBytes_succ, levelSizes, if_pos (by omega)]
      rfl
  exact h _ le_rfl

theorem le_alignLayerSize (sizeBytes : ℕ) (size block : Extent3D) (tileSizeY : ℕ) :
    sizeBytes ≤ alignLayerSize sizeBytes size block tileSizeY 0 := by
  rw [alignLayerSize, if_neg (Nat.lt_irrefl 0)]
  dsimp only
  split
  · rw [Nat.shiftLeft_eq, Nat.shiftRight_eq_div_pow]
    exact le_of_lt (Nat.lt_mul_of_div_lt (Nat.lt_succ_self _) (Nat.two_pow_pos _))
  · exact le_rfl

/-- **Each level of each layer is within the guest memory of the image**, if that has fewer than `2 ^ 32`
bytes. -/
theorem guestOffset_le (hspacing : info.tileWidthSpacing = 0) (hlinear : info.type ≠ .linear)
    (hbuffer : info.type ≠ .buffer) (hstride : calculateLayerStride info = .ret info.layerStride true)
    (hguest : layerStride info * info.resources.layers < 2 ^ 32) {guestSize : ℕ} {held : Bool} (hsize : calculateGuestSizeInBytes info = .ret guestSize held)
    {layer : ℕ} (hlevel : level < info.resources.levels) (hlayer : layer < info.resources.layers) :
    guestOffset info level layer + levelSizes info level ≤ guestSize := by
  have hle : calculateLevelBytes (levelSizes info) info.resources.levels ≤ layerStride info := by
    rw [layerStride, hspacing]
    exact le_alignLayerSize _ _ _ _
  have hstrideLt : layerStride info < 2 ^ 32 :=
    (Nat.le_mul_of_pos_right _ (Nat.zero_lt_of_lt hlayer)).trans_lt hguest
  have hlayerSize : calculateLayerSize info =
      .ret (calculateLevelBytes (levelSizes info) info.resources.levels) true := by
    rw [calculateLayerSize, calculateLevelOffset_eq, Exec.assert, decide_eq_true hlinear,
      Nat.mod_eq_of_lt (hle.trans_lt hstrideLt)]
    rfl
  have hlayerStride : layerStride info = info.layerStride := by
    rw [calculateLayerStride, hlayerSize, Exec.assert, decide_eq_true hlinear, Exec.ret_true_bind,
      Exec.ret_true_bind] at hstride
    exact (Nat.mod_eq_of_lt hstrideLt).symm.trans (Exec.ret.inj hstride).1
  have hlevels := calculateLevelBytes_mono (levelSizes info) (Nat.succ_le_of_lt hlevel)
  rw [Nat.succ_eq_add_one, calculateLevelBytes_succ] at hlevels
  rw [calculateGuestSizeInBytes, if_neg hbuffer, if_neg hlinear] at hsize
  unfold guestOffset
  split at hsize
  · have hsum : guestSize = info.layerStride * info.resources.layers % 2 ^ 32 :=
      (Exec.ret.inj hsize).1.symm
    have hlayers : (layer + 1) * layerStride info ≤ guestSize := by
      rw [hsum, ← hlayerStride, Nat.mod_eq_of_lt hguest, Nat.mul_comm]
      exact Nat.mul_le_mul_left _ hlayer
    rw [Nat.add_mul, Nat.one_mul] at hlayers
    omega
  · have hzero : layer = 0 := by omega
    rw [hlayerSize] at hsize
    have hsum := (Exec.ret.inj hsize).1
    rw [hzero, Nat.zero_mul]
    omega

end VideoCommon
end NXEmu
