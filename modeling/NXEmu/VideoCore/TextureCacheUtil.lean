/-
# Guest images and host images

`src/yuzu_video_core/texture_cache/util.cpp`: how large the levels of a block-linear image are in
guest memory, and the two ways over an image, `UnswizzleImage` to the host and `SwizzleImage` back,
with the copies `FullDownloadCopies` makes for it.

The offsets in the host buffer and the size of an image in guest memory have 32 bits and wrap around as in
the source.  The sizes of levels and layers, of 32 bits as well, are numbers; those of an image with fewer
than `2 ^ 32` bytes in guest memory are the same.  Guest memory is a function of the GPU address, behind the scoped guest memory as behind the block reads and
writes.  To go past the end of a guest span is a fault; a host buffer is as large as it has to be.  The
temporary profiling of `SwizzleImage` is left out.
-/

import NXEmu.Common.Alignment
import NXEmu.VideoCore.Surface
import NXEmu.VideoCore.TextureDecoders
import Mathlib.Algebra.GroupWithZero.Nat

namespace NXEmu

namespace VideoCommon

open Common VideoCore.Surface Tegra.Texture

/-- `MAX_MIP_LEVELS`. -/
abbrev maxMipLevels : ℕ := 16

/-- `GOB_SIZE_Y`. -/
abbrev gobSizeY : ℕ := 8

/-- `GOB_SIZE_Z`. -/
abbrev gobSizeZ : ℕ := 1

/-- `ImageType`. -/
inductive ImageType where
  | e1D | e2D | e3D | linear | buffer
deriving DecidableEq

/-- `Extent2D`. -/
structure Extent2D where
  width : ℕ
  height : ℕ
deriving DecidableEq

/-- `Extent3D`. -/
structure Extent3D where
  width : ℕ
  height : ℕ
  depth : ℕ
deriving DecidableEq

/-- `Offset3D`. -/
structure Offset3D where
  x : ℤ
  y : ℤ
  z : ℤ
deriving DecidableEq

/-- `SubresourceLayers`. -/
structure SubresourceLayers where
  baseLevel : ℕ
  baseLayer : ℕ
  numLayers : ℕ
deriving DecidableEq

/-- `SubresourceExtent`. -/
structure SubresourceExtent where
  levels : ℕ
  layers : ℕ

/-- `BufferImageCopy`. -/
structure BufferImageCopy where
  bufferOffset : ℕ
  bufferSize : ℕ
  bufferRowLength : ℕ
  bufferImageHeight : ℕ
  imageSubresource : SubresourceLayers
  imageOffset : Offset3D
  imageExtent : Extent3D

/-- `ImageInfo`, as far as the sizes and the copies depend on it.  A pitch-linear image has a `pitch`
where the others have a `block`. -/
structure ImageInfo where
  format : PixelFormat
  type : ImageType
  resources : SubresourceExtent
  size : Extent3D
  block : Extent3D
  pitch : ℕ
  layerStride : ℕ
  maybeUnalignedLayerStride : ℕ := 0
  numSamples : ℕ := 1
  tileWidthSpacing : ℕ

/-- `LevelInfo`. -/
structure LevelInfo where
  size : Extent3D
  block : Extent3D
  tileSize : Extent2D
  bppLog2 : ℕ
  tileWidthSpacing : ℕ
  numLevels : ℕ

/-! ### Sizes of levels -/

/-- The loop of `AdjustTileSize`, `while (--shift)`. -/
def adjustTileSizeLoop (dimension : ℕ) : ℕ → ℕ → ℕ
  | 0, _ => 0
  | shift + 1, x =>
    if shift = 0 then 0
    else if x >>> 1 < dimension then shift
    else adjustTileSizeLoop dimension shift (x >>> 1)

/-- `AdjustTileSize` of a shift. -/
def adjustTileShift (shift unitFactor dimension : ℕ) : ℕ :=
  if shift = 0 then 0
  else
    let x := unitFactor <<< (shift - 1)
    if dimension ≤ x then adjustTileSizeLoop dimension shift x else shift

/-- `AdjustMipSize`. -/
def adjustMipSize (size level : ℕ) : ℕ := max (size >>> level) 1

/-- `AdjustMipSize` of an extent. -/
def adjustMipExtent (size : Extent3D) (level : ℕ) : Extent3D where
  width := adjustMipSize size.width level
  height := adjustMipSize size.height level
  depth := adjustMipSize size.depth level

/-- The loop of `AdjustMipBlockSize` and of `AlignLayerSize`: while half the blocks are large enough. -/
def shrinkBlock (gobExtent numTiles : ℕ) : ℕ → ℕ
  | 0 => 0
  | blockSize + 1 =>
    if numTiles ≤ (1 <<< blockSize) * gobExtent then shrinkBlock gobExtent numTiles blockSize
    else blockSize + 1

/-- `AdjustMipBlockSize<GOB_EXTENT>`. -/
def adjustMipBlockShift (gobExtent numTiles blockSize : ℕ) : ℕ → ℕ
  | 0 => shrinkBlock gobExtent numTiles blockSize
  | level + 1 =>
    adjustMipBlockShift gobExtent numTiles (shrinkBlock gobExtent numTiles blockSize) level

/-- `AdjustMipBlockSize` of an extent. -/
def adjustMipBlockSize (numTiles blockSize : Extent3D) (level numLevels : ℕ) : Extent3D where
  width := adjustMipBlockShift gobSizeX numTiles.width blockSize.width level
  height := adjustMipBlockShift gobSizeY numTiles.height blockSize.height level
  depth :=
    if level = 0 ∧ numLevels = 1 then blockSize.depth
    else adjustMipBlockShift gobSizeZ numTiles.depth blockSize.depth level

/-- `AdjustTileSize` of an extent. -/
def adjustTileSize (size : Extent3D) (tileSize : Extent2D) : Extent3D where
  width := divCeil size.width tileSize.width
  height := divCeil size.height tileSize.height
  depth := size.depth

/-- `std::countl_zero` of a word of 32 bits. -/
def countlZero (value : ℕ) : ℕ :=
  ((List.range 32).takeWhile fun i => !value.testBit (31 - i)).length

/-- `BytesPerBlockLog2`. -/
def bytesPerBlockLog2 (bytesPerBlock : ℕ) : ℕ := countlZero bytesPerBlock ^^^ 0x1F

/-- `NumBlocks`. -/
def numBlocks (size : Extent3D) (tileSize : Extent2D) : ℕ :=
  let numBlocks := adjustTileSize size tileSize
  numBlocks.width * numBlocks.height * numBlocks.depth

/-- `AdjustSize`. -/
def adjustSize (size level blockSize : ℕ) : ℕ := divCeil (adjustMipSize size level) blockSize

/-- `DefaultBlockSize`. -/
def defaultBlockSize (format : PixelFormat) : Extent2D :=
  ⟨defaultBlockWidth format, defaultBlockHeight format⟩

/-- `NumLevelBlocks`. -/
def numLevelBlocks (info : LevelInfo) (level : ℕ) : Extent3D where
  width := adjustSize info.size.width level info.tileSize.width <<< info.bppLog2
  height := adjustSize info.size.height level info.tileSize.height
  depth := adjustMipSize info.size.depth level

/-- `TileShift`: the block of a level, that of the image when there is only one. -/
def tileShift (info : LevelInfo) (level : ℕ) : Extent3D :=
  if level = 0 ∧ info.numLevels = 1 then info.block
  else
    let blocks := numLevelBlocks info level
    { width := adjustTileShift info.block.width gobSizeX blocks.width
      height := adjustTileShift info.block.height gobSizeY blocks.height
      depth := adjustTileShift info.block.depth gobSizeZ blocks.depth }

/-- `GobSize`. -/
def gobSize (bppLog2 blockHeight tileWidthSpacing : ℕ) : Extent2D where
  width := gobSizeXShift - bppLog2 + tileWidthSpacing
  height := gobSizeYShift + blockHeight

/-- `IsSmallerThanGobSize`. -/
def isSmallerThanGobSize (numTiles : Extent3D) (gob : Extent2D) (blockDepth : ℕ) : Bool :=
  numTiles.width ≤ 1 <<< gob.width || numTiles.height ≤ 1 <<< gob.height ||
    numTiles.depth < 1 <<< blockDepth

/-- `StrideAlignment`. -/
def strideAlignment (numTiles block : Extent3D) (gob : Extent2D) (bppLog2 : ℕ) : ℕ :=
  if isSmallerThanGobSize numTiles gob block.depth then gobSizeXShift - bppLog2 else gob.width

/-- `NumGobs`. -/
def numGobs (info : LevelInfo) (level : ℕ) : Extent2D :=
  let blocks := numLevelBlocks info level
  let gobs : Extent2D :=
    ⟨divCeilLog2 blocks.width gobSizeXShift, divCeilLog2 blocks.height gobSizeYShift⟩
  let gob := gobSize info.bppLog2 info.block.height info.tileWidthSpacing
  let isSmall := isSmallerThanGobSize blocks gob info.block.depth
  let alignment := if isSmall then 0 else info.tileWidthSpacing
  { width := alignUpLog2 gobs.width alignment, height := gobs.height }

/-- `LevelTiles`. -/
def levelTiles (info : LevelInfo) (level : ℕ) : Extent3D :=
  let blocks := numLevelBlocks info level
  let tileShift := tileShift info level
  let gobs := numGobs info level
  { width := divCeilLog2 gobs.width tileShift.width
    height := divCeilLog2 gobs.height tileShift.height
    depth := divCeilLog2 blocks.depth tileShift.depth }

/-- `CalculateLevelSize`: the bytes of a level in guest memory. -/
def calculateLevelSize (info : LevelInfo) (level : ℕ) : ℕ :=
  let tileShift := tileShift info level
  let tiles := levelTiles info level
  let numTiles := tiles.width * tiles.height * tiles.depth
  let shift := gobSizeShift + tileShift.width + tileShift.height + tileShift.depth
  numTiles <<< shift

/-- `CalculateLevelSizes`. -/
def calculateLevelSizes (info : LevelInfo) (numLevels : ℕ) : Exec (ℕ → ℕ) := do
  Exec.assert (numLevels ≤ maxMipLevels)
  if numLevels ≤ maxMipLevels then
    return fun level => if level < numLevels then calculateLevelSize info level else 0
  else .fault

/-- `CalculateLevelBytes`. -/
def calculateLevelBytes (sizes : ℕ → ℕ) (numLevels : ℕ) : ℕ := ((List.range numLevels).map sizes).sum

/-- `MakeLevelInfo` of the parts of an image. -/
def makeLevelInfoOf (format : PixelFormat) (size block : Extent3D)
    (tileWidthSpacing numLevels : ℕ) : LevelInfo where
  size := size
  block := block
  tileSize := defaultBlockSize format
  bppLog2 := bytesPerBlockLog2 (bytesPerBlock format)
  tileWidthSpacing := tileWidthSpacing
  numLevels := numLevels

/-- `MakeLevelInfo`. -/
def makeLevelInfo (info : ImageInfo) : LevelInfo :=
  makeLevelInfoOf info.format info.size info.block info.tileWidthSpacing info.resources.levels

/-- `CalculateLevelOffset`. -/
def calculateLevelOffset (format : PixelFormat) (size block : Extent3D)
    (tileWidthSpacing level : ℕ) : ℕ :=
  let info := makeLevelInfoOf format size block tileWidthSpacing level
  (List.range level).foldl (fun offset currentLevel => offset + calculateLevelSize info currentLevel) 0

/-- `AlignLayerSize`: the bytes of a layer, rounded up to its blocks. -/
def alignLayerSize (sizeBytes : ℕ) (size block : Extent3D) (tileSizeY tileWidthSpacing : ℕ) : ℕ :=
  if 0 < tileWidthSpacing then
    alignUpLog2 sizeBytes (gobSizeShift + tileWidthSpacing + block.height + block.depth)
  else
    let alignedHeight := alignUp size.height tileSizeY
    let blockHeight := shrinkBlock gobSizeY alignedHeight block.height
    let blockDepth := shrinkBlock gobSizeZ size.depth block.depth
    let blockShift := gobSizeShift + blockHeight + blockDepth
    let numBlocks := sizeBytes >>> blockShift
    if sizeBytes ≠ numBlocks <<< blockShift then (numBlocks + 1) <<< blockShift else sizeBytes

/-- `CalculateLayerSize`. -/
def calculateLayerSize (info : ImageInfo) : Exec ℕ := do
  Exec.assert (info.type ≠ .linear)
  return calculateLevelOffset info.format info.size info.block info.tileWidthSpacing
    info.resources.levels % 2 ^ 32

/-- `CalculateLayerStride`. -/
def calculateLayerStride (info : ImageInfo) : Exec ℕ := do
  Exec.assert (info.type ≠ .linear)
  let layerSize ← calculateLayerSize info
  return alignLayerSize layerSize info.size info.block (defaultBlockHeight info.format)
    info.tileWidthSpacing % 2 ^ 32

/-- `CalculateGuestSizeInBytes`: by the type of the image, in 32 bits. -/
def calculateGuestSizeInBytes (info : ImageInfo) : Exec ℕ :=
  if info.type = .buffer then return info.size.width * bytesPerBlock info.format % 2 ^ 32
  else if info.type = .linear then
    return info.pitch * divCeil info.size.height (defaultBlockHeight info.format) % 2 ^ 32
  else if 1 < info.resources.layers then do
    Exec.assert (info.layerStride ≠ 0)
    return info.layerStride * info.resources.layers % 2 ^ 32
  else calculateLayerSize info

/-! ### Tiled spans -/

/-- The bytes of the texture are within a tiled span of so many bytes. -/
def TiledWithin (bytesPerPixel width height depth blockHeight blockDepth strideAlignment
    size : ℕ) : Prop :=
  ∀ x < width * bytesPerPixel, ∀ y < height, ∀ z < depth,
    tiledOffset (1 <<< newBpp bytesPerPixel width) height blockHeight blockDepth
      (rowStride bytesPerPixel width strideAlignment) x y z < size

instance (bytesPerPixel width height depth blockHeight blockDepth strideAlignment size : ℕ) :
    Decidable (TiledWithin bytesPerPixel width height depth blockHeight blockDepth strideAlignment
      size) := by
  unfold TiledWithin
  infer_instance

/-- `UnswizzleTexture` from a span of so many bytes. -/
def unswizzleTextureFrom (inputSize : ℕ) (output input : Span)
    (bytesPerPixel width height depth blockHeight blockDepth strideAlignment : ℕ) : Exec Span :=
  if TiledWithin bytesPerPixel width height depth blockHeight blockDepth strideAlignment
      inputSize then
    unswizzleTexture output input bytesPerPixel width height depth blockHeight blockDepth
      strideAlignment
  else .fault

/-- `SwizzleTexture` to a span of so many bytes. -/
def swizzleTextureTo (outputSize : ℕ) (output input : Span)
    (bytesPerPixel width height depth blockHeight blockDepth strideAlignment : ℕ) : Exec Span :=
  if TiledWithin bytesPerPixel width height depth blockHeight blockDepth strideAlignment
      outputSize then
    swizzleTexture output input bytesPerPixel width height depth blockHeight blockDepth
      strideAlignment
  else .fault

/-- A subspan, to its end. -/
def subspan (span : Span) (offset : ℕ) : Span := fun i => span (offset + i)

/-- Write a subspan back. -/
def replaceFrom (span : Span) (offset : ℕ) (part : Span) : Span := fun i =>
  if i < offset then span i else part (i - offset)

/-! ### From the guest -/

/-- What the loops of `UnswizzleImage` carry. -/
structure UnswizzleState where
  guestOffset : ℕ
  guestLayerOffset : ℕ
  hostOffset : ℕ
  output : Span
  copies : List BufferImageCopy

/-- One layer of a level in `UnswizzleImage`. -/
def unswizzleLayer (input : Span) (inputSize bppLog2 layerStride hostBytesPerLayer : ℕ)
    (numTiles block : Extent3D) (strideAlignment : ℕ) (state : UnswizzleState) :
    Exec UnswizzleState := do
  let dst := subspan state.output state.hostOffset
  let src := subspan input (state.guestOffset + state.guestLayerOffset)
  let dst ← unswizzleTextureFrom (inputSize - (state.guestOffset + state.guestLayerOffset)) dst src
    (1 <<< bppLog2) numTiles.width numTiles.height numTiles.depth block.height block.depth
    strideAlignment
  return { state with
    output := replaceFrom state.output state.hostOffset dst
    guestLayerOffset := state.guestLayerOffset + layerStride
    hostOffset := (state.hostOffset + hostBytesPerLayer) % 2 ^ 32 }

/-- One level in `UnswizzleImage`. -/
def unswizzleLevel (info : ImageInfo) (levelSizes : ℕ → ℕ) (layerStride : ℕ) (input : Span)
    (inputSize : ℕ) (state : UnswizzleState) (level : ℕ) : Exec UnswizzleState := do
  let bppLog2 := bytesPerBlockLog2 (bytesPerBlock info.format)
  let tileSize := defaultBlockSize info.format
  let levelInfo := makeLevelInfo info
  let gob := gobSize bppLog2 info.block.height info.tileWidthSpacing
  let levelSize := adjustMipExtent info.size level
  let numBlocksPerLayer := numBlocks levelSize tileSize
  let hostBytesPerLayer := numBlocksPerLayer <<< bppLog2 % 2 ^ 32
  let copy : BufferImageCopy :=
    { bufferOffset := state.hostOffset
      bufferSize := hostBytesPerLayer * info.resources.layers
      bufferRowLength := alignUp levelSize.width tileSize.width
      bufferImageHeight := alignUp levelSize.height tileSize.height
      imageSubresource := ⟨level, 0, info.resources.layers⟩
      imageOffset := ⟨0, 0, 0⟩
      imageExtent := levelSize }
  let numTiles := adjustTileSize levelSize tileSize
  let block := adjustMipBlockSize numTiles levelInfo.block level levelInfo.numLevels
  let strideAlignment := strideAlignment numTiles info.block gob bppLog2
  let state ← (List.range info.resources.layers).foldlM
    (fun state _ => unswizzleLayer input inputSize bppLog2 layerStride hostBytesPerLayer numTiles
      block strideAlignment state)
    { state with guestLayerOffset := 0, copies := state.copies ++ [copy] }
  return { state with guestOffset := state.guestOffset + levelSizes level }

/-- `UnswizzleImage`: the copies, and the levels and layers of guest memory in the host buffer. -/
def unswizzleImage (gpuMemory : Span) (gpuAddr : ℕ) (info : ImageInfo) (input : Span)
    (inputSize : ℕ) (output : Span) (outputSize : ℕ) : Exec (List BufferImageCopy × Span) :=
  let bppLog2 := bytesPerBlockLog2 (bytesPerBlock info.format)
  let tileSize := defaultBlockSize info.format
  if info.type = .linear then do
    Exec.assert (inputSize ≤ outputSize)
    let output := memcpy output gpuMemory 0 gpuAddr inputSize
    Exec.assert ((info.pitch >>> bppLog2) <<< bppLog2 = info.pitch)
    return ([{ bufferOffset := 0
               bufferSize := inputSize
               bufferRowLength := (info.pitch * tileSize.width) >>> bppLog2
               bufferImageHeight := info.size.height
               imageSubresource := ⟨0, 0, 1⟩
               imageOffset := ⟨0, 0, 0⟩
               imageExtent := info.size }], output)
  else do
    let levelInfo := makeLevelInfo info
    let numLevels := info.resources.levels
    let levelSizes ← calculateLevelSizes levelInfo numLevels
    let layerSize := calculateLevelBytes levelSizes numLevels
    let layerStride := alignLayerSize layerSize info.size levelInfo.block tileSize.height
      info.tileWidthSpacing
    let state ← (List.range numLevels).foldlM
      (unswizzleLevel info levelSizes layerStride input inputSize) ⟨0, 0, 0, output, []⟩
    return (state.copies, state.output)

/-! ### Back to the guest -/

/-- The copy of a level in `FullDownloadCopies`, from a host offset on. -/
def fullDownloadCopy (info : ImageInfo) (level hostOffset : ℕ) : BufferImageCopy :=
  let levelSize := adjustMipExtent info.size level
  let numBlocksPerLayer := numBlocks levelSize (defaultBlockSize info.format)
  let hostBytesPerLevel :=
    numBlocksPerLayer * bytesPerBlock info.format * info.resources.layers % 2 ^ 32
  { bufferOffset := hostOffset
    bufferSize := hostBytesPerLevel
    bufferRowLength := levelSize.width
    bufferImageHeight := levelSize.height
    imageSubresource := ⟨level, 0, info.resources.layers⟩
    imageOffset := ⟨0, 0, 0⟩
    imageExtent := levelSize }

/-- `FullDownloadCopies`: a copy of each level with all its layers, one behind the other in the host buffer. -/
def fullDownloadCopies (info : ImageInfo) : Exec (List BufferImageCopy) :=
  let bytesPerBlock := bytesPerBlock info.format
  if info.type = .linear then do
    Exec.assert (info.pitch % bytesPerBlock = 0)
    return [{ bufferOffset := 0
              bufferSize := info.pitch * info.size.height
              bufferRowLength := info.pitch / bytesPerBlock
              bufferImageHeight := info.size.height
              imageSubresource := ⟨0, 0, 1⟩
              imageOffset := ⟨0, 0, 0⟩
              imageExtent := info.size }]
  else do
    Exec.assert (¬0 < info.tileWidthSpacing)
    let state := (List.range info.resources.levels).foldl
      (fun (state : List BufferImageCopy × ℕ) level =>
        let copy := fullDownloadCopy info level state.2
        (state.1 ++ [copy], (state.2 + copy.bufferSize) % 2 ^ 32))
      ([], 0)
    return state.1

/-- `GpuGuestMemoryScoped` for reading and writing: the body runs on a span of guest memory, and what it
leaves there is written back. -/
def withGuestMemory (gpuMemory : Span) (addr size : ℕ) (body : Span → Exec Span) : Exec Span := do
  let dst ← body (subspan gpuMemory addr)
  return memcpy gpuMemory dst addr 0 size

/-- What the loop of `SwizzleBlockLinearImage` carries.  Its offsets are of type `size_t`. -/
structure SwizzleState where
  hostOffset : ℕ
  guestOffset : ℕ
  gpuMemory : Span

/-- `SwizzlePitchLinearImage`. -/
def swizzlePitchLinearImage (gpuMemory : Span) (gpuAddr : ℕ) (info : ImageInfo)
    (copy : BufferImageCopy) (memory : Span) : Exec Span := do
  Exec.assert (copy.imageOffset.z = 0)
  Exec.assert (copy.imageExtent.depth = 1)
  Exec.assert (copy.imageSubresource.baseLevel = 0)
  Exec.assert (copy.imageSubresource.baseLayer = 0)
  Exec.assert (copy.imageSubresource.numLayers = 1)
  let bytesPerBlock := bytesPerBlock info.format
  let rowLength := copy.imageExtent.width * bytesPerBlock
  let guestOffsetX := copy.imageOffset.x * bytesPerBlock
  return (List.range copy.imageExtent.height).foldl (fun gpuMemory line =>
    let hostOffsetY := line * info.pitch
    let guestOffsetY := (copy.imageOffset.y + line) * info.pitch
    let guestOffset := guestOffsetX + guestOffsetY
    memcpy gpuMemory memory (gpuAddr + guestOffset.toNat) hostOffsetY rowLength) gpuMemory

/-- `SwizzleBlockLinearImage`: the level of one copy, of all layers, from the host buffer into guest memory. -/
def swizzleBlockLinearImage (gpuMemory : Span) (gpuAddr : ℕ) (info : ImageInfo)
    (copy : BufferImageCopy) (input : Span) : Exec Span := do
  let levelInfo := makeLevelInfo info
  let tileSize := defaultBlockSize info.format
  let bytesPerBlock := bytesPerBlock info.format
  let level := copy.imageSubresource.baseLevel
  let levelSize := adjustMipExtent info.size level
  let numBlocksPerLayer := numBlocks levelSize tileSize
  let hostBytesPerLayer := numBlocksPerLayer * bytesPerBlock % 2 ^ 32
  Exec.assert (¬copy.imageOffset.x ≠ 0)
  Exec.assert (¬copy.imageOffset.y ≠ 0)
  Exec.assert (¬copy.imageOffset.z ≠ 0)
  Exec.assert (¬copy.imageExtent ≠ levelSize)
  let numTiles := adjustTileSize levelSize tileSize
  let block := adjustMipBlockSize numTiles levelInfo.block level levelInfo.numLevels
  let numLevels := info.resources.levels
  let sizes ← calculateLevelSizes levelInfo numLevels
  let layerStride := alignLayerSize (calculateLevelBytes sizes numLevels) info.size levelInfo.block
    tileSize.height info.tileWidthSpacing
  let subresourceSize := sizes level
  let state ← (List.range info.resources.layers).foldlM
    (fun (state : SwizzleState) _ => do
      let src := subspan input state.hostOffset
      let gpuMemory ← withGuestMemory state.gpuMemory (gpuAddr + state.guestOffset) subresourceSize
        fun dst => swizzleTextureTo subresourceSize dst src bytesPerBlock numTiles.width
          numTiles.height numTiles.depth block.height block.depth 1
      return { hostOffset := state.hostOffset + hostBytesPerLayer
               guestOffset := state.guestOffset + layerStride
               gpuMemory })
    ⟨copy.bufferOffset, calculateLevelBytes sizes level, gpuMemory⟩
  Exec.assert (state.hostOffset - copy.bufferOffset = copy.bufferSize)
  return state.gpuMemory

/-- `SwizzleImage`: the copies, from the host buffer into guest memory. -/
def swizzleImage (gpuMemory : Span) (gpuAddr : ℕ) (info : ImageInfo) (copies : List BufferImageCopy)
    (memory : Span) : Exec Span :=
  let isPitchLinear := info.type = .linear
  copies.foldlM (fun gpuMemory copy =>
    if isPitchLinear then swizzlePitchLinearImage gpuMemory gpuAddr info copy memory
    else swizzleBlockLinearImage gpuMemory gpuAddr info copy memory) gpuMemory

end VideoCommon
end NXEmu
