/-
# Uploading an image

`UnswizzleImage` goes over the levels and the layers of an image and leaves each layer of a level in a
part of the host buffer of its own (`wp_unswizzleImage`).  It takes blocks for the largest power of two
of bytes that they have room for; with blocks of 12 bytes a part of the host buffer is never written
(`wlp_unswizzleImage`).  The offsets in the host buffer have 32 bits; they are the sums as long as the host
buffer has fewer than `2 ^ 32` bytes.
-/

import NXEmu.VideoCore.TextureCacheLevels

variable {input output₀ : Span} {inputSize : ℕ} {state state' : UnswizzleState}

namespace NXEmu
namespace VideoCommon

open Common VideoCore.Surface Tegra.Texture Exec

variable {info : ImageInfo} {level layer : ℕ}

/-! ### Places in the host buffer -/

/-- The bytes of one layer of a level, `host_bytes_per_layer`. -/
def layerBytes (info : ImageInfo) (level : ℕ) : ℕ :=
  numBlocks (adjustMipExtent info.size level) (defaultBlockSize info.format) *
    bytesPerBlock info.format

/-- Where the host buffer has a level. -/
def hostBase (info : ImageInfo) (level : ℕ) : ℕ :=
  calculateLevelBytes (fun level => layerBytes info level * info.resources.layers) level

/-- Where the host buffer has a layer of a level. -/
def hostOffset (info : ImageInfo) (level layer : ℕ) : ℕ :=
  hostBase info level + layer * layerBytes info level

theorem hostBase_succ (info : ImageInfo) (level : ℕ) : hostBase info (level + 1) =
    hostBase info level + layerBytes info level * info.resources.layers :=
  calculateLevelBytes_succ _ _

theorem hostOffset_succ (info : ImageInfo) (level layer : ℕ) : hostOffset info level (layer + 1) =
    hostOffset info level layer + layerBytes info level := by
  rw [hostOffset, hostOffset, Nat.add_mul, Nat.one_mul, Nat.add_assoc]

theorem hostOffset_layers (info : ImageInfo) (level : ℕ) :
    hostOffset info level info.resources.layers = hostBase info (level + 1) := by
  rw [hostOffset, hostBase_succ, Nat.mul_comm]

/-- The parts of two layers of a level do not overlap. -/
theorem hostOffset_add_le {layer' : ℕ} (h : layer < layer') :
    hostOffset info level layer + layerBytes info level ≤ hostOffset info level layer' := by
  rw [← hostOffset_succ]
  exact Nat.add_le_add_left (Nat.mul_le_mul_right _ h) _

/-- Nor do those of two levels. -/
theorem hostOffset_add_le_hostBase {level' : ℕ} (hlevel : level < level') (hlayer : layer < info.resources.layers) :
    hostOffset info level layer + layerBytes info level ≤ hostBase info level' := by
  calc hostOffset info level layer + layerBytes info level
      ≤ hostOffset info level info.resources.layers := hostOffset_add_le hlayer
    _ = hostBase info (level + 1) := hostOffset_layers info level
    _ ≤ hostBase info level' := calculateLevelBytes_mono _ hlevel

/-- In a host buffer of fewer than `2 ^ 32` bytes no offset wraps. -/
theorem hostOffset_lt (hhost : hostBase info info.resources.levels < 2 ^ 32)
    (hlevel : level < info.resources.levels) (hlayer : layer < info.resources.layers) :
    hostOffset info level layer + layerBytes info level < 2 ^ 32 :=
  (hostOffset_add_le_hostBase hlevel hlayer).trans_lt hhost

/-- The bytes of one row of a level. -/
def rowBytes (info : ImageInfo) (level : ℕ) : ℕ :=
  (levelBlocks info level).width * bytesPerBlock info.format

theorem layerBytes_eq (info : ImageInfo) (level : ℕ) : layerBytes info level =
    rowBytes info level * (levelBlocks info level).height * (levelBlocks info level).depth := by
  show (levelBlocks info level).width * (levelBlocks info level).height *
    (levelBlocks info level).depth * bytesPerBlock info.format = _
  unfold rowBytes
  ring

/-- The tiled offset of a byte of a level. -/
def tiledAt (info : ImageInfo) (level x y z : ℕ) : ℕ :=
  tiledOffset (1 <<< newBpp (bytesPerBlock info.format) (levelBlocks info level).width)
    (levelBlocks info level).height (levelShape info level).height (levelShape info level).depth
    (rowStride (bytesPerBlock info.format) (levelBlocks info level).width 1) x y z

/-- A layer of a level is in its part of the host buffer. -/
def Uploaded (info : ImageInfo) (input output : Span) (level layer : ℕ) : Prop :=
  ∀ x < rowBytes info level, ∀ y < (levelBlocks info level).height,
    ∀ z < (levelBlocks info level).depth,
    output (hostOffset info level layer +
        linearOffset (rowBytes info level) (levelBlocks info level).height x y z) =
      input (guestOffset info level layer + tiledAt info level x y z)

theorem Uploaded.congr {input output output' : Span} (h : Uploaded info input output level layer)
    (hsame : ∀ i < hostOffset info level layer + layerBytes info level, output' i = output i) :
    Uploaded info input output' level layer := by
  intro x hx y hy z hz
  rw [hsame, h x hx y hy z hz]
  rw [layerBytes_eq]
  exact Nat.add_lt_add_left (linearOffset_lt hx hy hz) _

/-! ### One layer -/

/-- Without spacing both alignments of the rows are the same. -/
theorem strideAlignment_eq (hspacing : info.tileWidthSpacing = 0) (numTiles block : Extent3D)
    (bppLog2 blockHeight : ℕ) :
    strideAlignment numTiles block (gobSize bppLog2 blockHeight info.tileWidthSpacing) bppLog2 = 6 - bppLog2 := by
  rw [strideAlignment, gobSize, hspacing, Nat.add_zero, ite_self]

theorem tiledWithin_mono {bpp width height depth blockHeight blockDepth padding size size' : ℕ}
    (h : TiledWithin bpp width height depth blockHeight blockDepth padding size) (hle : size ≤ size') :
    TiledWithin bpp width height depth blockHeight blockDepth padding size' :=
  fun x hx y hy z hz => lt_of_lt_of_le (h x hx y hy z hz) hle

/-- **What one layer of an upload does.** -/
theorem wp_unswizzleLayer (hformat : info.format ≠ .r32g32b32Float)
    (hspacing : info.tileWidthSpacing = 0) (hlevel : level < info.resources.levels)
    (hsize : guestOffset info level layer + levelSizes info level ≤ inputSize)
    (hroom : hostOffset info level layer + layerBytes info level < 2 ^ 32)
    (hhost : state.hostOffset = hostOffset info level layer)
    (hguest : state.guestOffset + state.guestLayerOffset = guestOffset info level layer) :
    (unswizzleLayer input inputSize (bytesPerBlockLog2 (bytesPerBlock info.format))
      (layerStride info) (layerBytes info level) (levelBlocks info level) (levelShape info level)
      (6 - bytesPerBlockLog2 (bytesPerBlock info.format)) state).wp fun state' held =>
        held = true ∧ state' = { state with
          output := state'.output
          guestLayerOffset := state.guestLayerOffset + layerStride info
          hostOffset := state.hostOffset + layerBytes info level } ∧
        Uploaded info input state'.output level layer ∧
        ∀ i, i < state.hostOffset ∨ state.hostOffset + layerBytes info level ≤ i →
          state'.output i = state.output i := by
  obtain ⟨hlog, hbytes⟩ := bytesPerBlock_eq hformat
  have hwithin := tiledWithin_level hformat hspacing level (Or.inr rfl)
  rw [show calculateLevelSize (makeLevelInfo info) level = levelSizes info level by
    rw [levelSizes, if_pos hlevel]] at hwithin
  obtain ⟨dst, hrun, hread, hkept⟩ := @unswizzleTexture_spec (bytesPerBlock info.format)
    (levelBlocks info level).width (levelBlocks info level).height (levelBlocks info level).depth
    (levelShape info level).height (levelShape info level).depth
    (6 - bytesPerBlockLog2 (bytesPerBlock info.format)) (subspan state.output state.hostOffset)
    (subspan input (guestOffset info level layer)) _ (newBpp_spec (bytesPerBlock info.format)
      (levelBlocks info level).width).1
  rw [unswizzleLayer, hguest, Nat.one_shiftLeft, ← hbytes, unswizzleTextureFrom,
    if_pos (tiledWithin_mono hwithin (by omega)), hrun, ret_true_bind, pure_eq,
    wp_ret, Nat.mod_eq_of_lt (hhost ▸ hroom)]
  refine ⟨rfl, rfl, fun x hx y hy z hz => ?_, fun i hi => ?_⟩
  · rw [← hhost]
    show (if _ then _ else _) = _
    rw [if_neg (by omega), Nat.add_sub_cancel_left]
    refine (hread x hx y hy z hz).trans ?_
    have hrow := divCeilLog2_rowStride hlog (levelBlocks info level).width (Or.inr rfl)
    rw [← divCeilLog2_rowStride hlog (levelBlocks info level).width (Or.inl rfl), ← hbytes] at hrow
    rw [tiledAt, ← tiledOffset_congr hrow]
    rfl
  · show (if _ then _ else _) = _
    split
    · rfl
    · next hge =>
      have hout : layerBytes info level ≤ i - state.hostOffset := by omega
      rw [layerBytes_eq] at hout
      rw [hkept _ hout, subspan, Nat.add_sub_cancel' (Nat.le_of_not_lt hge)]

/-! ### All layers -/

/-- The images can be copied: there is nothing to copy, or the blocks have a power of two of bytes. -/
def PowerOfTwoBlocks (info : ImageInfo) : Prop :=
  info.format ≠ .r32g32b32Float ∨ info.resources.levels = 0 ∨ info.resources.layers = 0

theorem PowerOfTwoBlocks.format_ne (h : PowerOfTwoBlocks info) (hlevel : level < info.resources.levels)
    (hlayer : layer < info.resources.layers) : info.format ≠ .r32g32b32Float := by
  obtain h | h | h := h
  · exact h
  · omega
  · omega

/-- The copy of a level in `UnswizzleImage`. -/
def uploadCopy (info : ImageInfo) (level : ℕ) : BufferImageCopy :=
  let levelSize := adjustMipExtent info.size level
  let tileSize := defaultBlockSize info.format
  { bufferOffset := hostBase info level
    bufferSize := layerBytes info level * info.resources.layers
    bufferRowLength := alignUp levelSize.width tileSize.width
    bufferImageHeight := alignUp levelSize.height tileSize.height
    imageSubresource := ⟨level, 0, info.resources.layers⟩
    imageOffset := ⟨0, 0, 0⟩
    imageExtent := levelSize }

/-- Where the loops of an upload are: all levels below, and in this level all layers below, are
uploaded, and the rest of the buffer is as it was. -/
structure UploadedTo (info : ImageInfo) (input output₀ : Span) (level layer : ℕ)
    (state : UnswizzleState) : Prop where
  guestOffset : state.guestOffset = calculateLevelBytes (levelSizes info) level
  hostOffset : state.hostOffset = hostOffset info level layer
  levels : ∀ level' < level, ∀ layer' < info.resources.layers,
    Uploaded info input state.output level' layer'
  layers : ∀ layer' < layer, Uploaded info input state.output level layer'
  rest : ∀ i, VideoCommon.hostOffset info level layer ≤ i → state.output i = output₀ i

/-- **One layer further.** -/
theorem UploadedTo.step
    (h : UploadedTo info input output₀ level layer state) (hguest : state'.guestOffset = state.guestOffset)
    (hhost : state'.hostOffset = state.hostOffset + layerBytes info level)
    (huploaded : Uploaded info input state'.output level layer)
    (hkept : ∀ i, i < state.hostOffset ∨ state.hostOffset + layerBytes info level ≤ i →
      state'.output i = state.output i) :
    UploadedTo info input output₀ level (layer + 1) state' where
  guestOffset := hguest.trans h.guestOffset
  hostOffset := by rw [hhost, h.hostOffset, hostOffset_succ]
  levels level' hlevel layer' hlayer := by
    refine (h.levels level' hlevel layer' hlayer).congr fun i hi => hkept i (Or.inl ?_)
    have hbase : VideoCommon.hostOffset info level' layer' + layerBytes info level' ≤
        hostBase info level := hostOffset_add_le_hostBase hlevel hlayer
    have hle : hostBase info level ≤ state.hostOffset := by
      rw [h.hostOffset]
      exact Nat.le_add_right _ _
    omega
  layers layer' hlayer := by
    obtain rfl | hlt := Nat.eq_or_lt_of_le (Nat.le_of_lt_succ hlayer)
    · exact huploaded
    · refine (h.layers layer' hlt).congr fun i hi => hkept i (Or.inl ?_)
      have hle : VideoCommon.hostOffset info level layer' + layerBytes info level ≤
          VideoCommon.hostOffset info level layer := hostOffset_add_le hlt
      rw [h.hostOffset]
      omega
  rest i hi := by
    rw [hostOffset_succ] at hi
    rw [hkept i (Or.inr (by rw [h.hostOffset]; exact hi)), h.rest i (by omega)]

/-- The level is done when all its layers are. -/
theorem UploadedTo.next (h : UploadedTo info input output₀ level info.resources.layers state)
    (hguest : state'.guestOffset = state.guestOffset + levelSizes info level)
    (hhost : state'.hostOffset = state.hostOffset) (houtput : state'.output = state.output) :
    UploadedTo info input output₀ (level + 1) 0 state' where
  guestOffset := by rw [hguest, h.guestOffset, calculateLevelBytes_succ]
  hostOffset := by
    rw [hhost, h.hostOffset, hostOffset_layers, VideoCommon.hostOffset, Nat.zero_mul]
    rfl
  levels level' hlevel layer' hlayer := by
    rw [houtput]
    obtain rfl | hlt := Nat.eq_or_lt_of_le (Nat.le_of_lt_succ hlevel)
    · exact h.layers layer' hlayer
    · exact h.levels level' hlt layer' hlayer
  layers layer' hlayer := absurd hlayer (Nat.not_lt_zero _)
  rest i hi := by
    rw [VideoCommon.hostOffset, Nat.zero_mul, Nat.add_zero, ← hostOffset_layers] at hi
    rw [houtput, h.rest i hi]

theorem hostBytesPerLayer_eq (hformat : info.format ≠ .r32g32b32Float) (hlt : layerBytes info level < 2 ^ 32) :
    numBlocks (adjustMipExtent info.size level) (defaultBlockSize info.format) <<<
      bytesPerBlockLog2 (bytesPerBlock info.format) % 2 ^ 32 = layerBytes info level := by
  rw [Nat.shiftLeft_eq, ← (bytesPerBlock_eq hformat).2]
  exact Nat.mod_eq_of_lt hlt

/-- **What one level of an upload does.** -/
theorem wp_unswizzleLevel (hblocks : PowerOfTwoBlocks info) (hspacing : info.tileWidthSpacing = 0)
    (hhost : hostBase info info.resources.levels < 2 ^ 32) (hlevel : level < info.resources.levels)
    (hsize : ∀ layer < info.resources.layers, guestOffset info level layer + levelSizes info level ≤ inputSize)
    (h : UploadedTo info input output₀ level 0 state) :
    (unswizzleLevel info (levelSizes info) (layerStride info) input inputSize state level).wp
      fun state' held => held = true ∧ UploadedTo info input output₀ (level + 1) 0 state' ∧
        state'.copies = state.copies ++ [uploadCopy info level] := by
  have hlt : 0 < info.resources.layers → layerBytes info level < 2 ^ 32 := fun hlayers =>
    lt_of_le_of_lt (Nat.le_add_left _ _) (hostOffset_lt hhost hlevel hlayers)
  have hbytes : numBlocks (adjustMipExtent info.size level) (defaultBlockSize info.format) <<<
      bytesPerBlockLog2 (bytesPerBlock info.format) % 2 ^ 32 * info.resources.layers =
      layerBytes info level * info.resources.layers := by
    by_cases hlayers : info.resources.layers = 0
    · rw [hlayers, Nat.mul_zero, Nat.mul_zero]
    · have hpos := Nat.pos_of_ne_zero hlayers
      rw [hostBytesPerLayer_eq (hblocks.format_ne hlevel hpos) (hlt hpos)]
  have hbase : state.hostOffset = hostBase info level := by
    rw [h.hostOffset, hostOffset, Nat.zero_mul]
    rfl
  rw [unswizzleLevel, strideAlignment_eq hspacing, wp_bind, hbytes, hbase]
  refine wp_mono (wp_foldlM_range (I := fun layer state' =>
    UploadedTo info input output₀ level layer state' ∧ state'.guestLayerOffset = layer * layerStride info ∧
      state'.copies = state.copies ++ [uploadCopy info level]) ?_ ?_) ?_
  · rintro layer state' hlayer ⟨hat, hoffset, hcopies⟩
    have hformat := hblocks.format_ne hlevel hlayer
    have hguest : state'.guestOffset + state'.guestLayerOffset = guestOffset info level layer := by
      rw [hat.guestOffset, hoffset, guestOffset]
    rw [hostBytesPerLayer_eq hformat (hlt (Nat.zero_lt_of_lt hlayer))]
    refine wp_mono (wp_unswizzleLayer hformat hspacing hlevel (hsize layer hlayer)
      (hostOffset_lt hhost hlevel hlayer) hat.hostOffset hguest) ?_
    rintro state'' held ⟨hheld, heq, huploaded, hkept⟩
    refine ⟨hheld, hat.step ?_ ?_ huploaded hkept, ?_, ?_⟩
    · rw [heq]
    · rw [heq]
    · rw [heq, hoffset, Nat.add_mul, Nat.one_mul]
    · rw [heq, hcopies]
  · exact ⟨{ h with hostOffset := hbase.symm.trans h.hostOffset }, (Nat.zero_mul _).symm, rfl⟩
  · rintro state' held ⟨rfl, hat, -, hcopies⟩
    rw [pure_eq, wp_ret]
    exact ⟨rfl, hat.next rfl rfl rfl, hcopies⟩

/-- An upload of a block-linear image is a loop over its levels. -/
theorem unswizzleImage_eq (hlinear : info.type ≠ .linear)
    (hlevels : info.resources.levels ≤ maxMipLevels) (gpuMemory input output : Span)
    (gpuAddr inputSize outputSize : ℕ) :
    unswizzleImage gpuMemory gpuAddr info input inputSize output outputSize =
      (List.range info.resources.levels).foldlM
        (unswizzleLevel info (levelSizes info) (layerStride info) input inputSize)
        ⟨0, 0, 0, output, []⟩ >>= fun state => .ret (state.copies, state.output) true := by
  rw [unswizzleImage, if_neg hlinear]
  show (calculateLevelSizes (makeLevelInfo info) info.resources.levels >>= _) = _
  rw [calculateLevelSizes_eq hlevels, ret_true_bind]
  rfl

/-- **What an upload does**: each layer of each level is in its part of the host buffer. -/
theorem wp_unswizzleImage (hblocks : PowerOfTwoBlocks info) (hspacing : info.tileWidthSpacing = 0)
    (hlinear : info.type ≠ .linear) (hlevels : info.resources.levels ≤ maxMipLevels)
    (hhost : hostBase info info.resources.levels < 2 ^ 32) (gpuMemory input output : Span) (gpuAddr outputSize : ℕ)
    (hsize : ∀ level < info.resources.levels, ∀ layer < info.resources.layers,
      guestOffset info level layer + levelSizes info level ≤ inputSize) :
    (unswizzleImage gpuMemory gpuAddr info input inputSize output outputSize).wp fun result held =>
      held = true ∧ result.1 = (List.range info.resources.levels).map (uploadCopy info) ∧
        ∀ level < info.resources.levels, ∀ layer < info.resources.layers,
          Uploaded info input result.2 level layer := by
  rw [unswizzleImage_eq hlinear hlevels, wp_bind]
  refine wp_mono (wp_foldlM_range (I := fun level state =>
    UploadedTo info input output level 0 state ∧ state.copies = (List.range level).map (uploadCopy info)) ?_ ?_) ?_
  · rintro level state hlevel ⟨hat, hcopies⟩
    refine wp_mono (wp_unswizzleLevel hblocks hspacing hhost hlevel (hsize level hlevel) hat) ?_
    rintro state' held ⟨hheld, hat', hcopies'⟩
    refine ⟨hheld, hat', ?_⟩
    rw [hcopies', hcopies, List.range_succ, List.map_append]
    rfl
  · refine ⟨⟨rfl, ?_, ?_, ?_, fun i _ => rfl⟩, rfl⟩
    · rw [hostOffset, Nat.zero_mul]
      rfl
    · exact fun level' hlevel => absurd hlevel (Nat.not_lt_zero _)
    · exact fun layer' hlayer => absurd hlayer (Nat.not_lt_zero _)
  · rintro state held ⟨rfl, hat, hcopies⟩
    rw [wp_ret]
    exact ⟨rfl, hcopies, hat.levels⟩

/-! ### What an upload leaves alone -/

/-- The bytes of one layer of a level as an upload counts them. -/
def uploadBytes (info : ImageInfo) (level : ℕ) : ℕ :=
  numBlocks (adjustMipExtent info.size level) (defaultBlockSize info.format) <<<
    bytesPerBlockLog2 (bytesPerBlock info.format)

/-- Where an upload starts with a level. -/
def uploadBase (info : ImageInfo) (level : ℕ) : ℕ :=
  calculateLevelBytes (fun level => uploadBytes info level * info.resources.layers) level

theorem uploadBase_succ (info : ImageInfo) (level : ℕ) : uploadBase info (level + 1) =
    uploadBase info level + uploadBytes info level * info.resources.layers :=
  calculateLevelBytes_succ _ _

/-- With the next level below `2 ^ 32`, no layer of this one wraps around. -/
theorem uploadBase_add_lt (hroom : uploadBase info (level + 1) < 2 ^ 32) (hlayer : layer < info.resources.layers) :
    uploadBase info level + layer * uploadBytes info level + uploadBytes info level < 2 ^ 32 := by
  rw [uploadBase_succ, Nat.mul_comm] at hroom
  rw [Nat.add_assoc, ← Nat.succ_mul]
  exact (Nat.add_le_add_left (Nat.mul_le_mul_right _ hlayer) _).trans_lt hroom

theorem wlp_unswizzleLayer (input : Span) (inputSize stride : ℕ) (block : Extent3D)
    (padding : ℕ) (state : UnswizzleState) (hroom : state.hostOffset + uploadBytes info level < 2 ^ 32) :
    (unswizzleLayer input inputSize (bytesPerBlockLog2 (bytesPerBlock info.format)) stride
      (uploadBytes info level) (levelBlocks info level) block padding state).wlp fun state' _ =>
        state'.hostOffset = state.hostOffset + uploadBytes info level ∧
          ∀ i, state'.hostOffset ≤ i → state'.output i = state.output i := by
  rw [unswizzleLayer, unswizzleTextureFrom]
  split
  · obtain ⟨dst, hrun, -, hkept⟩ := @unswizzleTexture_spec
      (1 <<< bytesPerBlockLog2 (bytesPerBlock info.format)) (levelBlocks info level).width
      (levelBlocks info level).height (levelBlocks info level).depth block.height block.depth padding
      (subspan state.output state.hostOffset)
      (subspan input (state.guestOffset + state.guestLayerOffset)) 1 (by decide)
    rw [hrun, ret_true_bind, pure_eq, wlp_ret, Nat.mod_eq_of_lt hroom]
    refine ⟨rfl, fun i hi => ?_⟩
    have hbytes : (levelBlocks info level).width *
        1 <<< bytesPerBlockLog2 (bytesPerBlock info.format) * (levelBlocks info level).height *
          (levelBlocks info level).depth = uploadBytes info level := by
      show _ = ((levelBlocks info level).width * (levelBlocks info level).height *
        (levelBlocks info level).depth) <<< _
      rw [Nat.one_shiftLeft, Nat.shiftLeft_eq]
      ring
    have hi' : state.hostOffset + uploadBytes info level ≤ i := hi
    show (if _ then _ else _) = _
    rw [if_neg (by omega), hkept _ (by rw [hbytes]; omega), subspan, Nat.add_sub_cancel' (by omega)]
  · exact wlp_fault

theorem wlp_unswizzleLevel (sizes : ℕ → ℕ) (stride : ℕ) (input output₀ : Span) (inputSize : ℕ)
    (hroom : uploadBase info (level + 1) < 2 ^ 32) (hhost : state.hostOffset = uploadBase info level)
    (hrest : ∀ i, state.hostOffset ≤ i → state.output i = output₀ i) :
    (unswizzleLevel info sizes stride input inputSize state level).wlp fun state' _ =>
      state'.hostOffset = uploadBase info (level + 1) ∧ ∀ i, state'.hostOffset ≤ i → state'.output i = output₀ i := by
  rw [unswizzleLevel, wlp_bind]
  refine wlp_mono (wlp_foldlM_range (I := fun layer state' =>
    state'.hostOffset = uploadBase info level + layer * uploadBytes info level ∧
      ∀ i, state'.hostOffset ≤ i → state'.output i = output₀ i) ?_ ?_) ?_
  · rintro layer state' hlayer ⟨hhost', hrest'⟩
    have hlt := uploadBase_add_lt hroom hlayer
    change (unswizzleLayer _ _ _ _ (uploadBytes info level % 2 ^ 32) _ _ _ _).wlp _
    rw [Nat.mod_eq_of_lt ((Nat.le_add_left _ _).trans_lt hlt)]
    refine wlp_mono (wlp_unswizzleLayer _ _ _ _ _ _ (hhost' ▸ hlt)) ?_
    rintro state'' held ⟨hhost'', hkept⟩
    refine ⟨?_, fun i hi => (hkept i hi).trans (hrest' i (by omega))⟩
    rw [hhost'', hhost', Nat.add_mul, Nat.one_mul, Nat.add_assoc]
  · exact ⟨by rw [Nat.zero_mul]; exact hhost, hrest⟩
  · rintro state' held ⟨hhost', hrest'⟩
    rw [pure_eq, wlp_ret]
    refine ⟨?_, hrest'⟩
    rw [uploadBase_succ, Nat.mul_comm]
    exact hhost'

/-- **What an upload never writes.** -/
theorem wlp_unswizzleImage (hlinear : info.type ≠ .linear)
    (hlevels : info.resources.levels ≤ maxMipLevels) (hroom : uploadBase info info.resources.levels < 2 ^ 32)
    (gpuMemory input output : Span) (gpuAddr inputSize outputSize : ℕ) :
    (unswizzleImage gpuMemory gpuAddr info input inputSize output outputSize).wlp fun result _ =>
      ∀ i, uploadBase info info.resources.levels ≤ i → result.2 i = output i := by
  rw [unswizzleImage_eq hlinear hlevels, wlp_bind]
  refine wlp_mono (wlp_foldlM_range (I := fun level state =>
    state.hostOffset = uploadBase info level ∧ ∀ i, state.hostOffset ≤ i → state.output i = output i) ?_ ?_) ?_
  · rintro level state hlevel ⟨hhost, hrest⟩
    exact wlp_unswizzleLevel _ _ _ _ _ ((calculateLevelBytes_mono _ hlevel).trans_lt hroom) hhost hrest
  · exact ⟨rfl, fun i _ => rfl⟩
  · rintro state held ⟨hhost, hrest⟩
    rw [wlp_ret]
    exact fun i hi => hrest i (hhost ▸ hi)

end VideoCommon
end NXEmu
