/-
# Aliases of an image

`src/yuzu_video_core/texture_cache/image_base.cpp` and `util.cpp`: `FindSubresource` says where in an
image another one is, and `AddImageAlias` notes the copies between the two, level by level.

A part of a 3D image starts at some slice of a level.  The same slice is then taken in the levels below,
where there are only half as many, so that a copy may go past the last slice of its level
(`addImageAlias_iff`); the assertion after it only logs that.

The formats that are compatible as views are a parameter: aliases take any formats with blocks of one
size.
-/

import NXEmu.VideoCore.ImageBase

namespace NXEmu
namespace VideoCommon

open Common VideoCore.Surface Tegra.Texture Exec List

/-! ### Which images fit -/

/-- `RelaxedOptions`. -/
structure RelaxedOptions where
  size : Bool
  format : Bool
  samples : Bool

/-- `StrideAlignment` of a spacing. -/
def strideAlignmentOf (numTiles block : Extent3D) (bppLog2 tileWidthSpacing : ℕ) : ℕ :=
  strideAlignment numTiles block (gobSize bppLog2 block.height tileWidthSpacing) bppLog2

/-- `BlockLinearAlignedSize`. -/
def blockLinearAlignedSize (info : ImageInfo) (level : ℕ) : Exec Extent3D := do
  Exec.assert (info.type ≠ .linear)
  let size := adjustMipExtent info.size level
  let numTiles : Extent3D :=
    { width := divCeil size.width (defaultBlockWidth info.format)
      height := divCeil size.height (defaultBlockHeight info.format)
      depth := size.depth }
  let bppLog2 := bytesPerBlockLog2 (bytesPerBlock info.format)
  let alignment := strideAlignmentOf numTiles info.block bppLog2 info.tileWidthSpacing
  let mipBlock := adjustMipBlockSize numTiles info.block 0 info.resources.levels
  return { width := alignUpLog2 numTiles.width alignment
           height := alignUpLog2 numTiles.height (gobSizeYShift + mipBlock.height)
           depth := alignUpLog2 numTiles.depth mipBlock.depth }

/-- `IsBlockLinearSizeCompatible`: two levels are equally wide and high, by themselves or aligned. -/
def isBlockLinearSizeCompatible (lhs rhs : ImageInfo) (lhsLevel rhsLevel : ℕ) (strictSize : Bool) :
    Exec Bool := do
  Exec.assert (lhs.type ≠ .linear)
  Exec.assert (rhs.type ≠ .linear)
  if strictSize then
    let lhsSize := adjustMipExtent lhs.size lhsLevel
    let rhsSize := adjustMipExtent rhs.size rhsLevel
    return decide (lhsSize.width = rhsSize.width ∧ lhsSize.height = rhsSize.height)
  else
    let lhsSize ← blockLinearAlignedSize lhs lhsLevel
    let rhsSize ← blockLinearAlignedSize rhs rhsLevel
    return decide (lhsSize.width = rhsSize.width ∧ lhsSize.height = rhsSize.height)

/-- `IsLayerStrideCompatible`. -/
def isLayerStrideCompatible (lhs rhs : ImageInfo) : Bool :=
  lhs.layerStride == 0 || rhs.layerStride == 0 || lhs.layerStride == rhs.layerStride ||
    lhs.maybeUnalignedLayerStride == rhs.maybeUnalignedLayerStride

/-- `FindSubresource`: the layer and level of the image at which the candidate lies, if the two are
compatible. -/
def findSubresource (isViewCompatible : PixelFormat → PixelFormat → Bool → Bool → Bool)
    (candidate : ImageInfo) (image : ImageBase) (candidateAddr : ℕ) (options : RelaxedOptions)
    (brokenViews nativeBgr : Bool) : Exec (Option SubresourceBase) :=
  match image.tryFindBase candidateAddr with
  | none => return none
  | some base =>
    let existing := image.info
    if options.format ∧ bytesPerBlock existing.format ≠ bytesPerBlock candidate.format then return none
    else if ¬options.format ∧
        ¬isViewCompatible existing.format candidate.format brokenViews nativeBgr then return none
    else if ¬isLayerStrideCompatible existing candidate then return none
    else if existing.type ≠ candidate.type then return none
    else if ¬options.samples ∧ existing.numSamples ≠ candidate.numSamples then return none
    else if existing.resources.levels < candidate.resources.levels + base.level then return none
    else if existing.type = .e3D ∧
        adjustMipSize existing.size.depth base.level < candidate.size.depth + base.layer then return none
    else if existing.type ≠ .e3D ∧
        existing.resources.layers < candidate.resources.layers + base.layer then return none
    else do
      let strictSize := !options.size
      if ← isBlockLinearSizeCompatible existing candidate base.level 0 strictSize then return some base
      else return none

/-! ### Copies -/

/-- `ValidateLayers`. -/
def validateLayers (layers : SubresourceLayers) (info : ImageInfo) : Bool :=
  decide (layers.baseLevel < info.resources.levels ∧
    layers.baseLayer + layers.numLayers ≤ info.resources.layers)

/-- A copy at an offset stays in an image of a size. -/
def withinSize (offset : Offset3D) (extent size : Extent3D) : Bool :=
  decide (offset.x + extent.width ≤ size.width ∧ offset.y + extent.height ≤ size.height ∧
    offset.z + extent.depth ≤ size.depth)

/-- `ValidateCopy`: the copy is inside of both images. -/
def validateCopy (copy : ImageCopy) (dst src : ImageInfo) : Bool :=
  let srcSize := adjustMipExtent src.size copy.srcSubresource.baseLevel
  let dstSize := adjustMipExtent dst.size copy.dstSubresource.baseLevel
  if !validateLayers copy.srcSubresource src then false
  else if !validateLayers copy.dstSubresource dst then false
  else if !withinSize copy.srcOffset copy.extent srcSize then false
  else if !withinSize copy.dstOffset copy.extent dstSize then false
  else true

/-- The extent of a level in blocks, when its format is compressed. -/
def blockExtent (format : PixelFormat) (size : Extent3D) : Extent3D :=
  let block := defaultBlockSize format
  if 1 < block.width ∨ 1 < block.height then
    { size with width := divCeil size.width block.width, height := divCeil size.height block.height }
  else size

/-- `copy_size` in `AddImageAlias`. -/
def aliasExtent (lhs rhs : ImageInfo) (base : SubresourceBase) (mipLevel : ℕ) : Extent3D :=
  let lhsSize := blockExtent lhs.format (adjustMipExtent lhs.size (base.level + mipLevel))
  let rhsSize := blockExtent rhs.format (adjustMipExtent rhs.size mipLevel)
  { width := min lhsSize.width rhsSize.width
    height := min lhsSize.height rhsSize.height
    depth := min lhsSize.depth rhsSize.depth }

/-- `to_lhs_copy` in `AddImageAlias`. -/
def toLhsCopy (lhs rhs : ImageInfo) (base : SubresourceBase) (mipLevel : ℕ) : ImageCopy :=
  let isLhs3D := lhs.type = .e3D
  let isRhs3D := rhs.type = .e3D
  let lhsLayers := if isLhs3D then 1 else lhs.resources.layers - base.layer
  let rhsLayers := if isRhs3D then 1 else rhs.resources.layers
  let numLayers := min lhsLayers rhsLayers
  { srcSubresource := ⟨mipLevel, 0, numLayers⟩
    dstSubresource := ⟨base.level + mipLevel, if isRhs3D then 0 else base.layer, numLayers⟩
    srcOffset := ⟨0, 0, 0⟩
    dstOffset := ⟨0, 0, if isRhs3D then base.layer else 0⟩
    extent := aliasExtent lhs rhs base mipLevel }

/-- The copy the other way: `to_rhs_copy` in `AddImageAlias`. -/
def ImageCopy.mirror (copy : ImageCopy) : ImageCopy where
  srcSubresource := copy.dstSubresource
  dstSubresource := copy.srcSubresource
  srcOffset := copy.dstOffset
  dstOffset := copy.srcOffset
  extent := copy.extent

/-- `base` in `AddImageAlias`. -/
def aliasBase (isViewCompatible : PixelFormat → PixelFormat → Bool → Bool → Bool) (lhs rhs : ImageBase) :
    Exec (Option SubresourceBase) :=
  if lhs.info.type = .linear then return some ⟨0, 0⟩
  else
    -- We are passing relaxed formats as an option, having broken views/bgr or not won't matter
    findSubresource isViewCompatible rhs.info lhs rhs.gpuAddr ⟨true, true, false⟩ false true

/-- `AddImageAlias`.  It returns the two images with what it returns. -/
def addImageAlias (isViewCompatible : PixelFormat → PixelFormat → Bool → Bool → Bool)
    (lhs rhs : ImageBase) (lhsId rhsId : ℕ) : Exec (Bool × ImageBase × ImageBase) := do
  Exec.assert (lhs.info.type = rhs.info.type)
  match ← aliasBase isViewCompatible lhs rhs with
  | none => return (false, lhs, rhs)
  | some base =>
    let numMips := min (lhs.info.resources.levels - base.level) rhs.info.resources.levels
    let copies ← (List.range numMips).foldlM (fun (copies : List ImageCopy × List ImageCopy) mipLevel =>
      let copySize := aliasExtent lhs.info rhs.info base mipLevel
      -- Mip cannot be aliased
      if copySize.width = 0 ∨ copySize.height = 0 then return copies
      else do
        let copy := toLhsCopy lhs.info rhs.info base mipLevel
        Exec.assert (validateCopy copy lhs.info rhs.info)
        Exec.assert (validateCopy copy.mirror rhs.info lhs.info)
        return (copies.1 ++ [copy], copies.2 ++ [copy.mirror])) ([], [])
    Exec.assert (copies.1.isEmpty = copies.2.isEmpty)
    if copies.1.isEmpty then return (false, lhs, rhs)
    else
      return (true,
        { lhs with aliasedImages := lhs.aliasedImages ++ [⟨copies.1, rhsId⟩], isRescalable := false },
        { rhs with aliasedImages := rhs.aliasedImages ++ [⟨copies.2, lhsId⟩], isRescalable := false })

/-! ### The base -/

variable {lhs rhs : ImageInfo} {base : SubresourceBase} {mipLevel : ℕ}
variable {isViewCompatible : PixelFormat → PixelFormat → Bool → Bool → Bool}

/-- A candidate fits in an image from a subresource on. -/
structure Accepts (existing candidate : ImageInfo) (base : SubresourceBase) : Prop where
  type : existing.type = candidate.type
  levels : candidate.resources.levels + base.level ≤ existing.resources.levels
  layers : existing.type ≠ .e3D → candidate.resources.layers + base.layer ≤ existing.resources.layers

/-- **What `FindSubresource` accepts.** -/
theorem wlp_findSubresource (candidate : ImageInfo) (image : ImageBase) (candidateAddr : ℕ)
    (options : RelaxedOptions) (brokenViews nativeBgr : Bool) :
    (findSubresource isViewCompatible candidate image candidateAddr options brokenViews nativeBgr).wlp
      fun found _ => ∀ base, found = some base → Accepts image.info candidate base := by
  unfold findSubresource
  cases image.tryFindBase candidateAddr with
  | none => simp
  | some base =>
    dsimp only
    have hnone : (pure none : Exec (Option SubresourceBase)).wlp fun found _ =>
        ∀ base, found = some base → Accepts image.info candidate base := by simp
    split_ifs with hformat hviews hstride htype hsamples hlevels hdepth hlayers
    any_goals exact hnone
    have haccepts : Accepts image.info candidate base := by
      refine ⟨not_not.1 htype, Nat.le_of_not_lt hlevels, fun h3D => ?_⟩
      exact Nat.le_of_not_lt fun hlt => hlayers ⟨h3D, hlt⟩
    rw [wlp_bind]
    intro compatible held _
    cases compatible
    · simp
    · simpa using haccepts

/-! ### The extents -/

theorem divCeil_le {number divisor : ℕ} (hdivisor : 0 < divisor) : divCeil number divisor ≤ number := by
  rw [divCeil, Nat.div_le_iff_le_mul_add_pred hdivisor]
  have hle := Nat.le_mul_of_pos_left number hdivisor
  omega

theorem divCeil_pos {number divisor : ℕ} (hnumber : 0 < number) (hdivisor : 0 < divisor) :
    0 < divCeil number divisor :=
  Nat.div_pos (by omega) hdivisor

/-- In blocks a level is not empty, and no larger than in texels. -/
theorem blockExtent_le (format : PixelFormat) (size : Extent3D) (level : ℕ) :
    0 < (blockExtent format (adjustMipExtent size level)).width ∧
      0 < (blockExtent format (adjustMipExtent size level)).height ∧
      (blockExtent format (adjustMipExtent size level)).width ≤ (adjustMipExtent size level).width ∧
      (blockExtent format (adjustMipExtent size level)).height ≤ (adjustMipExtent size level).height ∧
      (blockExtent format (adjustMipExtent size level)).depth = (adjustMipExtent size level).depth := by
  have hmip : ∀ size, 0 < adjustMipSize size level := fun size => by
    rw [adjustMipSize]
    omega
  have hwidth : 0 < (defaultBlockSize format).width := defaultBlockWidth_pos format
  have hheight : 0 < (defaultBlockSize format).height := defaultBlockHeight_pos format
  unfold blockExtent
  dsimp only
  split
  · exact ⟨divCeil_pos (hmip _) hwidth, divCeil_pos (hmip _) hheight, divCeil_le hwidth, divCeil_le hheight, rfl⟩
  · exact ⟨hmip _, hmip _, le_rfl, le_rfl, rfl⟩

theorem aliasExtent_spec (lhs rhs : ImageInfo) (base : SubresourceBase) (mipLevel : ℕ) :
    0 < (aliasExtent lhs rhs base mipLevel).width ∧ 0 < (aliasExtent lhs rhs base mipLevel).height ∧
      ((aliasExtent lhs rhs base mipLevel).width ≤ (adjustMipExtent lhs.size (base.level + mipLevel)).width ∧
        (aliasExtent lhs rhs base mipLevel).height ≤ (adjustMipExtent lhs.size (base.level + mipLevel)).height) ∧
      ((aliasExtent lhs rhs base mipLevel).width ≤ (adjustMipExtent rhs.size mipLevel).width ∧
        (aliasExtent lhs rhs base mipLevel).height ≤ (adjustMipExtent rhs.size mipLevel).height) ∧
      (aliasExtent lhs rhs base mipLevel).depth =
        min (adjustMipSize lhs.size.depth (base.level + mipLevel)) (adjustMipSize rhs.size.depth mipLevel) := by
  obtain ⟨hw, hh, hwle, hhle, hd⟩ := blockExtent_le lhs.format lhs.size (base.level + mipLevel)
  obtain ⟨hw', hh', hwle', hhle', hd'⟩ := blockExtent_le rhs.format rhs.size mipLevel
  refine ⟨lt_min hw hw', lt_min hh hh', ⟨(min_le_left _ _).trans hwle, (min_le_left _ _).trans hhle⟩,
    ⟨(min_le_right _ _).trans hwle', (min_le_right _ _).trans hhle'⟩, ?_⟩
  show min _ _ = _
  rw [hd, hd']
  rfl

/-! ### The copies -/

theorem validateCopy_iff {copy : ImageCopy} {dst src : ImageInfo} : validateCopy copy dst src = true ↔
    validateLayers copy.srcSubresource src = true ∧ validateLayers copy.dstSubresource dst = true ∧
      withinSize copy.srcOffset copy.extent (adjustMipExtent src.size copy.srcSubresource.baseLevel) = true ∧
      withinSize copy.dstOffset copy.extent (adjustMipExtent dst.size copy.dstSubresource.baseLevel) = true := by
  unfold validateCopy
  dsimp only
  split_ifs <;> simp_all

/-- **The copy the other way is as valid.** -/
theorem validateCopy_mirror (copy : ImageCopy) (dst src : ImageInfo) :
    validateCopy copy.mirror src dst = validateCopy copy dst src := by
  rw [Bool.eq_iff_iff, validateCopy_iff, validateCopy_iff]
  simp only [ImageCopy.mirror]
  tauto

/-- The slice is one of the level's, with all that is copied from it on. -/
def SliceFits (lhs rhs : ImageInfo) (base : SubresourceBase) (mipLevel : ℕ) : Prop :=
  base.layer + adjustMipSize rhs.size.depth mipLevel ≤ adjustMipSize lhs.size.depth (base.level + mipLevel)

/-- **A copy is valid** unless it starts at a slice from which there are too few. -/
theorem validateCopy_toLhsCopy (haccepts : Accepts lhs rhs base) (hlhs : 0 < lhs.resources.layers)
    (hrhs : 0 < rhs.resources.layers) (hmip : mipLevel < rhs.resources.levels) :
    validateCopy (toLhsCopy lhs rhs base mipLevel) lhs rhs = true ↔
      lhs.type ≠ .e3D ∨ base.layer = 0 ∨ SliceFits lhs rhs base mipLevel := by
  obtain ⟨htype, hlevels, hlayers⟩ := haccepts
  obtain ⟨-, -, ⟨hwidth, hheight⟩, ⟨hwidth', hheight'⟩, hdepth⟩ := aliasExtent_spec lhs rhs base mipLevel
  rw [validateCopy_iff]
  unfold toLhsCopy validateLayers withinSize SliceFits
  simp only [decide_eq_true_eq, ← htype, hdepth]
  by_cases h3D : lhs.type = .e3D
  · simp only [h3D, if_true, ne_eq, not_true_eq_false, false_or]
    show _ ↔ base.layer = 0 ∨ base.layer + adjustMipSize rhs.size.depth mipLevel ≤
      adjustMipSize lhs.size.depth (base.level + mipLevel)
    have hdim : ∀ (size : Extent3D) level, (adjustMipExtent size level).depth = adjustMipSize size.depth level :=
      fun _ _ => rfl
    rw [hdim, hdim]
    omega
  · have hfit := hlayers h3D
    simp only [h3D, if_false, ne_eq, not_false_eq_true, true_or, iff_true]
    have hdim : ∀ (size : Extent3D) level, (adjustMipExtent size level).depth = adjustMipSize size.depth level :=
      fun _ _ => rfl
    rw [hdim, hdim]
    omega

/-- The last level has the fewest slices to spare. -/
theorem SliceFits.of_succ (hlayer : base.layer ≠ 0) (h : SliceFits lhs rhs base (mipLevel + 1)) :
    SliceFits lhs rhs base mipLevel := by
  unfold SliceFits adjustMipSize at h ⊢
  rw [← Nat.add_assoc, Nat.shiftRight_succ, Nat.shiftRight_succ] at h
  omega

theorem SliceFits.of_le (hlayer : base.layer ≠ 0) {last : ℕ} (hle : mipLevel ≤ last)
    (h : SliceFits lhs rhs base last) : SliceFits lhs rhs base mipLevel := by
  induction last, hle using Nat.le_induction with
  | base => exact h
  | succ last _ ih => exact ih (h.of_succ hlayer)

/-! ### All copies -/

/-- The copies of all levels, the valid ones and the others. -/
theorem foldlM_copies (lhs rhs : ImageInfo) (base : SubresourceBase) (n : ℕ) :
    ∃ held, (range n).foldlM (fun (copies : List ImageCopy × List ImageCopy) mipLevel =>
        let copySize := aliasExtent lhs rhs base mipLevel
        if copySize.width = 0 ∨ copySize.height = 0 then (pure copies : Exec _)
        else do
          let copy := toLhsCopy lhs rhs base mipLevel
          assert (validateCopy copy lhs rhs)
          assert (validateCopy copy.mirror rhs lhs)
          return (copies.1 ++ [copy], copies.2 ++ [copy.mirror])) ([], []) =
      .ret ((range n).map (toLhsCopy lhs rhs base),
        ((range n).map (toLhsCopy lhs rhs base)).map ImageCopy.mirror) held := by
  induction n with
  | zero => exact ⟨true, rfl⟩
  | succ n ih =>
    obtain ⟨held, hrun⟩ := ih
    obtain ⟨hwidth, hheight, -⟩ := aliasExtent_spec lhs rhs base n
    have hskip : ¬((aliasExtent lhs rhs base n).width = 0 ∨ (aliasExtent lhs rhs base n).height = 0) := by
      omega
    rw [range_succ, foldlM_append, hrun, map_append, map_append]
    simp only [foldlM_cons, foldlM_nil, if_neg hskip]
    exact ⟨_, rfl⟩

/-- **What `AddImageAlias` stores**: a copy for each level, in both images. -/
theorem addImageAlias_eq {lhs rhs : ImageBase} {held : Bool} (hlinear : lhs.info.type ≠ .linear)
    (hlevels : 0 < rhs.info.resources.levels) (hbase : findSubresource isViewCompatible rhs.info lhs
      rhs.gpuAddr ⟨true, true, false⟩ false true = .ret (some base) held) (lhsId rhsId : ℕ) :
    ∃ copies held', copies = (range rhs.info.resources.levels).map (toLhsCopy lhs.info rhs.info base) ∧
      addImageAlias isViewCompatible lhs rhs lhsId rhsId = .ret (true,
        { lhs with aliasedImages := lhs.aliasedImages ++ [⟨copies, rhsId⟩], isRescalable := false },
        { rhs with
          aliasedImages := rhs.aliasedImages ++ [⟨copies.map ImageCopy.mirror, lhsId⟩]
          isRescalable := false }) held' := by
  have haccepts : Accepts lhs.info rhs.info base :=
    wlp_findSubresource rhs.info lhs rhs.gpuAddr ⟨true, true, false⟩ false true _ _ hbase base rfl
  have hmips : min (lhs.info.resources.levels - base.level) rhs.info.resources.levels =
      rhs.info.resources.levels := by
    have := haccepts.levels
    omega
  obtain ⟨held', hrun⟩ := foldlM_copies lhs.info rhs.info base rhs.info.resources.levels
  generalize hcopies : (range rhs.info.resources.levels).map (toLhsCopy lhs.info rhs.info base) = copies
    at hrun
  have hnonempty : copies.isEmpty = false := by
    rw [isEmpty_eq_false_iff_exists_mem, ← hcopies]
    exact ⟨_, mem_map_of_mem (mem_range.2 hlevels)⟩
  have hwp : (addImageAlias isViewCompatible lhs rhs lhsId rhsId).wp fun result _ => result = (true,
      { lhs with aliasedImages := lhs.aliasedImages ++ [⟨copies, rhsId⟩], isRescalable := false },
      { rhs with
        aliasedImages := rhs.aliasedImages ++ [⟨copies.map ImageCopy.mirror, lhsId⟩]
        isRescalable := false }) := by
    rw [addImageAlias, wp_bind, wp_assert, wp_bind, aliasBase, if_neg hlinear, hbase, wp_ret]
    dsimp only
    rw [hmips, wp_bind, hrun, wp_ret, wp_bind, wp_assert]
    dsimp only
    rw [hnonempty]
    simp
  obtain ⟨result, held'', hresult, rfl⟩ := hwp
  exact ⟨copies, held'', rfl, hresult⟩

/-- **Copies between aliases** are noted in both images, each as the other's mirror image, and they are
valid just when the image has no slices, the other one starts at its first slice of a level, or at the
last level of the other one there still are enough slices. -/
theorem addImageAlias_iff {lhs rhs : ImageBase} {held : Bool} (hlinear : lhs.info.type ≠ .linear)
    (hlhs : 0 < lhs.info.resources.layers) (hrhs : 0 < rhs.info.resources.layers)
    (hlevels : 0 < rhs.info.resources.levels) (hbase : findSubresource isViewCompatible rhs.info lhs
      rhs.gpuAddr ⟨true, true, false⟩ false true = .ret (some base) held) (lhsId rhsId : ℕ) :
    ∃ copies held', addImageAlias isViewCompatible lhs rhs lhsId rhsId = .ret (true,
        { lhs with aliasedImages := lhs.aliasedImages ++ [⟨copies, rhsId⟩], isRescalable := false },
        { rhs with
          aliasedImages := rhs.aliasedImages ++ [⟨copies.map ImageCopy.mirror, lhsId⟩]
          isRescalable := false }) held' ∧
      copies.length = rhs.info.resources.levels ∧
      (((∀ copy ∈ copies, validateCopy copy lhs.info rhs.info = true) ∧
          ∀ copy ∈ copies.map ImageCopy.mirror, validateCopy copy rhs.info lhs.info = true) ↔
        lhs.info.type ≠ .e3D ∨ base.layer = 0 ∨
          SliceFits lhs.info rhs.info base (rhs.info.resources.levels - 1)) := by
  have haccepts : Accepts lhs.info rhs.info base :=
    wlp_findSubresource rhs.info lhs rhs.gpuAddr ⟨true, true, false⟩ false true _ _ hbase base rfl
  obtain ⟨copies, held', hcopies, hrun⟩ := addImageAlias_eq hlinear hlevels hbase lhsId rhsId
  have hmem : ∀ copy, copy ∈ copies ↔ ∃ mipLevel < rhs.info.resources.levels,
      toLhsCopy lhs.info rhs.info base mipLevel = copy := by
    intro copy
    rw [hcopies]
    simp only [List.mem_map, List.mem_range]
  refine ⟨copies, held', hrun, by rw [hcopies, List.length_map, List.length_range], ?_⟩
  have hvalid := fun mipLevel (hmip : mipLevel < rhs.info.resources.levels) =>
    validateCopy_toLhsCopy haccepts hlhs hrhs hmip
  constructor
  · rintro ⟨h, -⟩
    exact (hvalid _ (by omega)).1 (h _ ((hmem _).2 ⟨rhs.info.resources.levels - 1, by omega, rfl⟩))
  · intro h
    have hall : ∀ copy ∈ copies, validateCopy copy lhs.info rhs.info = true := by
      intro copy hcopy
      obtain ⟨mipLevel, hmip, rfl⟩ := (hmem copy).1 hcopy
      refine (hvalid mipLevel hmip).2 ?_
      obtain h3D | hlayer | hlast := h
      · exact .inl h3D
      · exact .inr (.inl hlayer)
      · by_cases hlayer : base.layer = 0
        · exact .inr (.inl hlayer)
        · exact .inr (.inr (hlast.of_le hlayer (by omega)))
    refine ⟨hall, fun copy hcopy => ?_⟩
    obtain ⟨copy', hcopy', rfl⟩ := List.mem_map.1 hcopy
    rw [validateCopy_mirror]
    exact hall copy' hcopy'

/-- A 3D image of two levels, of 16 by 16 texels and so many slices. -/
def volume (depth : ℕ) : ImageInfo where
  format := .a8b8g8r8Unorm
  type := .e3D
  resources := ⟨2, 1⟩
  size := ⟨16, 16, depth⟩
  block := ⟨0, 0, 0⟩
  pitch := 0
  layerStride := 0
  tileWidthSpacing := 0

/-- Two slices from the third one on have valid copies at both levels. -/
theorem addImageAlias_volume : ∃ lhs rhs copies held,
    ImageBase.make (volume 8) 0 = .ret lhs true ∧ ImageBase.make (volume 2) 2048 = .ret rhs true ∧
      addImageAlias (fun _ _ _ _ => false) lhs rhs 0 1 = .ret (true,
        { lhs with aliasedImages := lhs.aliasedImages ++ [⟨copies, 1⟩], isRescalable := false },
        { rhs with
          aliasedImages := rhs.aliasedImages ++ [⟨copies.map ImageCopy.mirror, 0⟩]
          isRescalable := false }) held ∧
      ∀ copy ∈ copies, validateCopy copy (volume 8) (volume 2) = true := by
  have hmake : ∃ lhs, ImageBase.make (volume 8) 0 = .ret lhs true := ⟨_, rfl⟩
  have hmake' : ∃ rhs, ImageBase.make (volume 2) 2048 = .ret rhs true := ⟨_, rfl⟩
  obtain ⟨lhs, hlhs⟩ := hmake
  obtain ⟨rhs, hrhs⟩ := hmake'
  have hbase : findSubresource (fun _ _ _ _ => false) rhs.info lhs rhs.gpuAddr ⟨true, true, false⟩ false true =
      .ret (some ⟨0, 2⟩) true ∧ lhs.info = volume 8 ∧ rhs.info = volume 2 := by
    cases hlhs
    cases hrhs
    exact ⟨by decide +kernel, rfl, rfl⟩
  obtain ⟨hbase, hinfo, hinfo'⟩ := hbase
  obtain ⟨copies, held, hrun, -, hvalid⟩ := addImageAlias_iff (by rw [hinfo]; decide) (by rw [hinfo]; decide)
    (by rw [hinfo']; decide) (by rw [hinfo']; decide) hbase 0 1
  refine ⟨lhs, rhs, copies, held, hlhs, hrhs, hrun, ?_⟩
  rw [hinfo, hinfo'] at hvalid
  exact (hvalid.2 (.inr (.inr (by unfold SliceFits; decide)))).1

/-- Four slices from the fifth one on fit the first level, but the second level has four slices and no
fifth one. -/
theorem addImageAlias_invalid : ∃ lhs rhs, ImageBase.make (volume 8) 0 = .ret lhs true ∧
    ImageBase.make (volume 4) 4096 = .ret rhs true ∧
    findSubresource (fun _ _ _ _ => false) rhs.info lhs rhs.gpuAddr ⟨true, true, false⟩ false true =
      .ret (some ⟨0, 4⟩) true ∧
    ∃ lhs' rhs' held aliased, addImageAlias (fun _ _ _ _ => false) lhs rhs 0 1 = .ret (true, lhs', rhs') held ∧
      aliased ∈ lhs'.aliasedImages ∧
      ∃ copy ∈ aliased.copies, validateCopy copy (volume 8) (volume 4) = false := by
  have hmake : ∃ lhs, ImageBase.make (volume 8) 0 = .ret lhs true := ⟨_, rfl⟩
  have hmake' : ∃ rhs, ImageBase.make (volume 4) 4096 = .ret rhs true := ⟨_, rfl⟩
  obtain ⟨lhs, hlhs⟩ := hmake
  obtain ⟨rhs, hrhs⟩ := hmake'
  have hbase : findSubresource (fun _ _ _ _ => false) rhs.info lhs rhs.gpuAddr ⟨true, true, false⟩ false true =
      .ret (some ⟨0, 4⟩) true ∧ lhs.info = volume 8 ∧ rhs.info = volume 4 := by
    cases hlhs
    cases hrhs
    exact ⟨by decide +kernel, rfl, rfl⟩
  obtain ⟨hbase, hinfo, hinfo'⟩ := hbase
  obtain ⟨copies, held, hcopies, hrun⟩ := addImageAlias_eq (by rw [hinfo]; decide) (by rw [hinfo']; decide)
    hbase 0 1
  refine ⟨lhs, rhs, hlhs, hrhs, hbase, _, _, held, ⟨copies, 1⟩, hrun, List.mem_concat_self,
    toLhsCopy (volume 8) (volume 4) ⟨0, 4⟩ 1, ?_, by decide⟩
  rw [hcopies, hinfo, hinfo']
  exact List.mem_map_of_mem (by decide)

end VideoCommon
end NXEmu
