/-
# Downloading an image

`SwizzleImage` with the copies of `FullDownloadCopies` takes each layer of each level from the part of
the host buffer where an upload has left it, and so writes to guest memory what was there
(`restores_iff`).  The exception are blocks of 12 bytes: there the two ways count the bytes of a block
differently, and the last bytes of the image come from where no upload writes.  Beyond `2 ^ 32` bytes the
sizes and the offsets in the host buffer wrap around, so the result is about images below that.
-/

import NXEmu.VideoCore.TextureCacheUpload

variable {gpuMemory host : Span} {gpuAddr layers levels : ℕ}

namespace NXEmu
namespace VideoCommon

open Common VideoCore.Surface Tegra.Texture Exec List

variable {info : ImageInfo} {level layer : ℕ}

/-! ### The copies -/

/-- The bytes of a level do not wrap around. -/
theorem layerBytes_mul_lt (hhost : hostBase info info.resources.levels < 2 ^ 32) (hlevel : level < info.resources.levels) :
    hostBase info level + layerBytes info level * info.resources.layers < 2 ^ 32 := by
  rw [← hostBase_succ]
  exact (calculateLevelBytes_mono _ hlevel).trans_lt hhost

/-- The copies of a download have the places of the levels in the host buffer. -/
theorem fullDownloadCopies_eq (hlinear : info.type ≠ .linear) (hspacing : info.tileWidthSpacing = 0)
    (hhost : hostBase info info.resources.levels < 2 ^ 32) :
    fullDownloadCopies info = .ret ((range info.resources.levels).map fun level =>
      fullDownloadCopy info level (hostBase info level)) true := by
  have hloop : ∀ n ≤ info.resources.levels, (range n).foldl
      (fun (state : List BufferImageCopy × ℕ) level =>
        let copy := fullDownloadCopy info level state.2
        (state.1 ++ [copy], (state.2 + copy.bufferSize) % 2 ^ 32)) ([], 0) =
      ((range n).map fun level => fullDownloadCopy info level (hostBase info level), hostBase info n) := by
    intro n
    induction n with
    | zero => exact fun _ => rfl
    | succ n ih =>
      intro hn
      have hlt := layerBytes_mul_lt hhost hn
      have hsize : (fullDownloadCopy info n (hostBase info n)).bufferSize = layerBytes info n * info.resources.layers :=
        Nat.mod_eq_of_lt ((Nat.le_add_left _ _).trans_lt hlt)
      rw [range_succ, foldl_append, ih (Nat.le_of_succ_le hn), map_append, hostBase_succ]
      simp only [foldl_cons, foldl_nil, map_cons, map_nil]
      rw [hsize, Nat.mod_eq_of_lt hlt]
  rw [fullDownloadCopies, if_neg hlinear]
  show (assert _ >>= _) = _
  rw [hloop _ le_rfl, assert, hspacing]
  rfl

/-! ### One layer -/

/-- **What is taken from where an upload left it goes back to where it was.** -/
theorem wp_withGuestMemory (hformat : info.format ≠ .r32g32b32Float)
    (hspacing : info.tileWidthSpacing = 0) (hlevel : level < info.resources.levels)
    (huploaded : Uploaded info (subspan gpuMemory gpuAddr) host level layer) :
    (withGuestMemory gpuMemory (gpuAddr + guestOffset info level layer) (levelSizes info level)
      fun dst => swizzleTextureTo (levelSizes info level) dst
        (subspan host (hostOffset info level layer)) (bytesPerBlock info.format)
        (levelBlocks info level).width (levelBlocks info level).height (levelBlocks info level).depth
        (levelShape info level).height (levelShape info level).depth 1).wp
      fun gpuMemory' held => held = true ∧ gpuMemory' = gpuMemory := by
  have hwithin := tiledWithin_level hformat hspacing level (Or.inl rfl)
  rw [show calculateLevelSize (makeLevelInfo info) level = levelSizes info level by
    rw [levelSizes, if_pos hlevel]] at hwithin
  obtain ⟨dst, hrun, hwritten, hkept⟩ := @swizzleTexture_spec (bytesPerBlock info.format)
    (levelBlocks info level).width (levelBlocks info level).height (levelBlocks info level).depth
    (levelShape info level).height (levelShape info level).depth 1
    (subspan gpuMemory (gpuAddr + guestOffset info level layer))
    (subspan host (hostOffset info level layer)) _ (newBpp_spec (bytesPerBlock info.format)
      (levelBlocks info level).width).1
  have hdst : ∀ i, dst i = gpuMemory (gpuAddr + guestOffset info level layer + i) := by
    intro i
    by_cases hi : ∃ x < rowBytes info level, ∃ y < (levelBlocks info level).height,
        ∃ z < (levelBlocks info level).depth, tiledAt info level x y z = i
    · obtain ⟨x, hx, y, hy, z, hz, rfl⟩ := hi
      refine (hwritten x hx y hy z hz).trans ((huploaded x hx y hy z hz).trans ?_)
      rw [subspan, Nat.add_assoc]
    · exact hkept i fun x hx y hy z hz h => hi ⟨x, hx, y, hy, z, hz, h⟩
  rw [withGuestMemory, swizzleTextureTo, if_pos hwithin, hrun, ret_true_bind, pure_eq, wp_ret]
  refine ⟨rfl, funext fun i => ?_⟩
  unfold memcpy
  split
  · rw [hdst, Nat.zero_add, Nat.add_sub_cancel' (by omega)]
  · rfl

/-! ### One level -/

/-- The body of the loop of `SwizzleBlockLinearImage` for a level. -/
def swizzleLayer (gpuAddr : ℕ) (info : ImageInfo) (level : ℕ) (input : Span) (state : SwizzleState) :
    Exec SwizzleState := do
  let gpuMemory ← withGuestMemory state.gpuMemory (gpuAddr + state.guestOffset)
    (levelSizes info level) fun dst =>
      swizzleTextureTo (levelSizes info level) dst (subspan input state.hostOffset)
        (bytesPerBlock info.format) (levelBlocks info level).width (levelBlocks info level).height
        (levelBlocks info level).depth (levelShape info level).height (levelShape info level).depth 1
  return { hostOffset := state.hostOffset + layerBytes info level % 2 ^ 32
           guestOffset := state.guestOffset + layerStride info
           gpuMemory }

/-- A download of a level is a loop over its layers. -/
theorem swizzleBlockLinearImage_eq (hlevels : info.resources.levels ≤ maxMipLevels)
    (gpuMemory input : Span) (gpuAddr level offset : ℕ) :
    swizzleBlockLinearImage gpuMemory gpuAddr info (fullDownloadCopy info level offset) input =
      (range info.resources.layers).foldlM (fun state _ => swizzleLayer gpuAddr info level input state)
          ⟨offset, calculateLevelBytes (levelSizes info) level, gpuMemory⟩ >>= fun state =>
        assert (state.hostOffset - offset = layerBytes info level * info.resources.layers % 2 ^ 32) >>=
          fun _ => .ret state.gpuMemory true := by
  rw [swizzleBlockLinearImage]
  show (assert (¬(0 : ℤ) ≠ 0) >>= fun _ => assert (¬(0 : ℤ) ≠ 0) >>= fun _ =>
    assert (¬(0 : ℤ) ≠ 0) >>= fun _ => assert (¬adjustMipExtent info.size level ≠
      adjustMipExtent info.size level) >>= fun _ =>
        calculateLevelSizes (makeLevelInfo info) info.resources.levels >>= fun sizes => _) = _
  rw [calculateLevelSizes_eq hlevels, ret_true_bind, assert, assert,
    decide_eq_true (not_not.2 rfl), decide_eq_true (not_not.2 rfl), ret_true_bind,
    ret_true_bind, ret_true_bind, ret_true_bind]
  rfl

/-- **What the download of a level does.** -/
theorem wp_swizzleBlockLinearImage (hblocks : PowerOfTwoBlocks info)
    (hspacing : info.tileWidthSpacing = 0) (hlevels : info.resources.levels ≤ maxMipLevels)
    (hhost : hostBase info info.resources.levels < 2 ^ 32) (hlevel : level < info.resources.levels)
    (huploaded : ∀ layer < info.resources.layers, Uploaded info (subspan gpuMemory gpuAddr) host level layer) :
    (swizzleBlockLinearImage gpuMemory gpuAddr info
      (fullDownloadCopy info level (hostBase info level)) host).wp fun gpuMemory' held =>
        held = true ∧ gpuMemory' = gpuMemory := by
  rw [swizzleBlockLinearImage_eq hlevels, wp_bind]
  refine wp_mono (wp_foldlM_range (I := fun layer state =>
    state = ⟨hostOffset info level layer, guestOffset info level layer, gpuMemory⟩) ?_ ?_) ?_
  · rintro layer state hlayer rfl
    rw [swizzleLayer, wp_bind]
    refine wp_mono (wp_withGuestMemory (hblocks.format_ne hlevel hlayer) hspacing hlevel
      (huploaded layer hlayer)) ?_
    rintro gpuMemory' held ⟨rfl, rfl⟩
    rw [pure_eq, wp_ret, hostOffset_succ, guestOffset, guestOffset, Nat.add_mul, Nat.one_mul, Nat.add_assoc,
      Nat.mod_eq_of_lt ((Nat.le_add_left _ _).trans_lt (hostOffset_lt hhost hlevel hlayer))]
    exact ⟨rfl, rfl⟩
  · rw [hostOffset, guestOffset, Nat.zero_mul, Nat.zero_mul]
    rfl
  · rintro state held ⟨rfl, rfl⟩
    have hsize : hostOffset info level info.resources.layers - hostBase info level =
        layerBytes info level * info.resources.layers % 2 ^ 32 := by
      rw [hostOffset, Nat.add_sub_cancel_left, Nat.mul_comm,
        Nat.mod_eq_of_lt ((Nat.le_add_left _ _).trans_lt (layerBytes_mul_lt hhost hlevel))]
    rw [wp_bind, wp_assert, wp_ret, decide_eq_true hsize]
    exact ⟨rfl, rfl⟩

/-- **What the download of a level writes for its last layer.** -/
theorem wlp_swizzleBlockLinearImage (hlevels : info.resources.levels ≤ maxMipLevels)
    (hhost : hostBase info info.resources.levels < 2 ^ 32) (hlevel : level < info.resources.levels)
    (hlayers : info.resources.layers = layers + 1) (gpuMemory host : Span) (gpuAddr : ℕ) :
    (swizzleBlockLinearImage gpuMemory gpuAddr info
      (fullDownloadCopy info level (hostBase info level)) host).wlp fun gpuMemory' _ =>
        ∀ x < rowBytes info level, ∀ y < (levelBlocks info level).height, ∀ z < (levelBlocks info level).depth,
          gpuMemory' (gpuAddr + guestOffset info level layers + tiledAt info level x y z) =
            host (hostOffset info level layers +
              linearOffset (rowBytes info level) (levelBlocks info level).height x y z) := by
  have hlayer : layers < info.resources.layers := by omega
  have hbytes : layerBytes info level % 2 ^ 32 = layerBytes info level :=
    Nat.mod_eq_of_lt ((Nat.le_add_left _ _).trans_lt (hostOffset_lt hhost hlevel hlayer))
  rw [swizzleBlockLinearImage_eq hlevels, hlayers, range_succ, foldlM_append, wlp_bind, wlp_bind]
  refine wlp_mono (wlp_foldlM_range (I := fun layer state =>
    state.hostOffset = hostOffset info level layer ∧ state.guestOffset = guestOffset info level layer) ?_ ?_) ?_
  · rintro layer state - ⟨hoffset, hguest⟩
    rw [swizzleLayer, wlp_bind]
    rintro gpuMemory' held -
    rw [pure_eq, wlp_ret]
    refine ⟨by rw [hoffset, hbytes, hostOffset_succ], ?_⟩
    show state.guestOffset + layerStride info = _
    rw [hguest, guestOffset, guestOffset, Nat.add_mul, Nat.one_mul, Nat.add_assoc]
  · rw [hostOffset, guestOffset, Nat.zero_mul, Nat.zero_mul]
    exact ⟨rfl, rfl⟩
  · rintro state held ⟨hoffset, hguest⟩
    rw [foldlM_cons, wlp_bind, swizzleLayer, wlp_bind, withGuestMemory, wlp_bind,
      swizzleTextureTo, hoffset, hguest]
    split
    · next hwithin =>
      obtain ⟨dst, hrun, hwritten, -⟩ := @swizzleTexture_spec (bytesPerBlock info.format)
        (levelBlocks info level).width (levelBlocks info level).height
        (levelBlocks info level).depth (levelShape info level).height (levelShape info level).depth 1
        (subspan state.gpuMemory (gpuAddr + guestOffset info level layers))
        (subspan host (hostOffset info level layers)) _ (newBpp_spec (bytesPerBlock info.format)
          (levelBlocks info level).width).1
      rw [hrun, wlp_ret, pure_eq, wlp_ret, pure_eq, wlp_ret,
        foldlM_nil, pure_eq, wlp_ret, wlp_bind, wlp_assert, wlp_ret]
      intro x hx y hy z hz
      have hlt : tiledAt info level x y z < levelSizes info level := hwithin x hx y hy z hz
      show (if _ then _ else _) = _
      rw [if_pos ⟨by omega, by omega⟩, Nat.add_sub_cancel_left, Nat.zero_add]
      exact hwritten x hx y hy z hz
    · exact wlp_fault

/-! ### The whole image -/

theorem foldlM_levels {α : Type} (f : α → BufferImageCopy → Exec α) (a : α) (n : ℕ) :
    ((range n).map fun level => fullDownloadCopy info level (hostBase info level)).foldlM f a =
      (range n).foldlM (fun a level => f a (fullDownloadCopy info level (hostBase info level))) a :=
  foldlM_map

/-- **What a download of what was uploaded does**: nothing. -/
theorem wp_swizzleImage (hblocks : PowerOfTwoBlocks info) (hspacing : info.tileWidthSpacing = 0)
    (hlinear : info.type ≠ .linear) (hlevels : info.resources.levels ≤ maxMipLevels)
    (hhost : hostBase info info.resources.levels < 2 ^ 32)
    (huploaded : ∀ level < info.resources.levels, ∀ layer < info.resources.layers,
      Uploaded info (subspan gpuMemory gpuAddr) host level layer) :
    (swizzleImage gpuMemory gpuAddr info ((range info.resources.levels).map fun level =>
      fullDownloadCopy info level (hostBase info level)) host).wp fun gpuMemory' held =>
        held = true ∧ gpuMemory' = gpuMemory := by
  rw [swizzleImage, foldlM_levels]
  refine wp_foldlM_range (I := fun _ gpuMemory' => gpuMemory' = gpuMemory) ?_ rfl
  rintro level gpuMemory' hlevel rfl
  rw [if_neg hlinear]
  exact wp_swizzleBlockLinearImage hblocks hspacing hlevels hhost hlevel (huploaded level hlevel)

/-- What a download writes for the last layer of the last level. -/
theorem wlp_swizzleImage (hlinear : info.type ≠ .linear) (hlevels : info.resources.levels ≤ maxMipLevels)
    (hhost : hostBase info info.resources.levels < 2 ^ 32) (hlast : info.resources.levels = levels + 1)
    (hlayers : info.resources.layers = layers + 1) (gpuMemory host : Span) (gpuAddr : ℕ) :
    (swizzleImage gpuMemory gpuAddr info ((range info.resources.levels).map fun level =>
      fullDownloadCopy info level (hostBase info level)) host).wlp fun gpuMemory' _ =>
        ∀ x < rowBytes info levels, ∀ y < (levelBlocks info levels).height, ∀ z < (levelBlocks info levels).depth,
          gpuMemory' (gpuAddr + guestOffset info levels layers + tiledAt info levels x y z) =
            host (hostOffset info levels layers +
              linearOffset (rowBytes info levels) (levelBlocks info levels).height x y z) := by
  have hlevel : levels < info.resources.levels := hlast ▸ levels.lt_succ_self
  rw [swizzleImage, foldlM_levels, hlast, range_succ, foldlM_append, wlp_bind]
  rintro gpuMemory' held -
  rw [foldlM_cons, wlp_bind, if_neg hlinear]
  refine wlp_mono (wlp_swizzleBlockLinearImage hlevels hhost hlevel hlayers _ _ _) fun a held' h => ?_
  rw [foldlM_nil, pure_eq, wlp_ret]
  exact h

/-- What a copy says of the host buffer and the image, but for the rows it is padded to. -/
def BufferImageCopy.place (copy : BufferImageCopy) :
    ℕ × ℕ × SubresourceLayers × Offset3D × Extent3D :=
  (copy.bufferOffset, copy.bufferSize, copy.imageSubresource, copy.imageOffset, copy.imageExtent)

/-- An upload followed by a download leaves guest memory as it is.  The upload puts each layer of each
level, with the offsets, the block shape and the bytes per block of the download, where the download
looks for it, and both make their copies for the same places. -/
def Restores (info : ImageInfo) : Prop :=
  ∀ (gpuMemory host : Span) (gpuAddr hostSize guestSize : ℕ) (held : Bool),
    calculateGuestSizeInBytes info = .ret guestSize held →
    ∃ uploads host' downloads gpuMemory',
      unswizzleImage gpuMemory gpuAddr info (subspan gpuMemory gpuAddr) guestSize host hostSize =
        .ret (uploads, host') true ∧
      fullDownloadCopies info = .ret downloads true ∧
      swizzleImage gpuMemory gpuAddr info downloads host' = .ret gpuMemory' true ∧
      gpuMemory' = gpuMemory ∧
      (∀ level < info.resources.levels, ∀ layer < info.resources.layers,
        Uploaded info (subspan gpuMemory gpuAddr) host' level layer) ∧
      uploads.map BufferImageCopy.place = downloads.map BufferImageCopy.place

theorem restores (hblocks : PowerOfTwoBlocks info) (hspacing : info.tileWidthSpacing = 0)
    (hlinear : info.type ≠ .linear) (hbuffer : info.type ≠ .buffer) (hlevels : info.resources.levels ≤ maxMipLevels)
    (hstride : calculateLayerStride info = .ret info.layerStride true)
    (hguest : layerStride info * info.resources.layers < 2 ^ 32)
    (hhost : hostBase info info.resources.levels < 2 ^ 32) : Restores info := by
  intro gpuMemory host gpuAddr hostSize guestSize held hsize
  obtain ⟨result, held', hupload, rfl, hcopies, huploaded⟩ := wp_unswizzleImage hblocks hspacing
    hlinear hlevels hhost gpuMemory (subspan gpuMemory gpuAddr) host gpuAddr hostSize
    fun level hlevel layer hlayer =>
      guestOffset_le hspacing hlinear hbuffer hstride hguest hsize hlevel hlayer
  obtain ⟨gpuMemory', held'', hdownload, rfl, rfl⟩ :=
    wp_swizzleImage hblocks hspacing hlinear hlevels hhost huploaded
  refine ⟨result.1, result.2, _, _, hupload, fullDownloadCopies_eq hlinear hspacing hhost, hdownload, rfl, huploaded, ?_⟩
  rw [hcopies, map_map, map_map]
  refine map_congr_left fun level hlevel => ?_
  have hlt := (Nat.le_add_left _ _).trans_lt (layerBytes_mul_lt hhost (mem_range.1 hlevel))
  have hsize : layerBytes info level * info.resources.layers % 2 ^ 32 = layerBytes info level * info.resources.layers :=
    Nat.mod_eq_of_lt hlt
  exact congrArg (fun size => (hostBase info level, size, _, _, _)) hsize.symm

/-! ### Blocks of 12 bytes -/

/-- A level has at least one block. -/
theorem levelBlocks_pos (info : ImageInfo) (level : ℕ) : 0 < (levelBlocks info level).width *
    (levelBlocks info level).height * (levelBlocks info level).depth := by
  have hmip : ∀ size, 0 < adjustMipSize size level := fun size =>
    lt_of_lt_of_le Nat.zero_lt_one (le_max_right _ _)
  have hceil : ∀ {number divisor}, 0 < number → 0 < divisor → 0 < divCeil number divisor := by
    intro number divisor hnumber hdivisor
    exact Nat.div_pos (by omega) hdivisor
  exact Nat.mul_pos (Nat.mul_pos (hceil (hmip _) (defaultBlockWidth_pos _))
    (hceil (hmip _) (defaultBlockHeight_pos _))) (hmip _)

/-- An upload of blocks of 12 bytes ends before the last byte. -/
theorem uploadBase_lt (hformat : info.format = .r32g32b32Float) (hlayers : info.resources.layers = layers + 1) :
    uploadBase info (levels + 1) < hostOffset info levels layers + layerBytes info levels := by
  have hbytes : ∀ level, ∃ n, 0 < n ∧ uploadBytes info level = 8 * n ∧ layerBytes info level = 12 * n :=
    fun level => by
      refine ⟨_, levelBlocks_pos info level, ?_, ?_⟩
      · rw [uploadBytes, hformat, Nat.shiftLeft_eq, Nat.mul_comm]
        show 8 * _ = _
        rw [← hformat]
        rfl
      · rw [layerBytes, hformat, Nat.mul_comm]
        show 12 * _ = _
        rw [← hformat]
        rfl
  have hbase : ∀ level, uploadBase info level ≤ hostBase info level := by
    intro level
    induction level with
    | zero => exact le_rfl
    | succ level ih =>
      obtain ⟨n, -, hupload, hlayer⟩ := hbytes level
      rw [uploadBase_succ, hostBase_succ, hupload, hlayer]
      exact Nat.add_le_add ih (Nat.mul_le_mul_right _ (by omega))
  obtain ⟨n, hn, hupload, hlayer⟩ := hbytes levels
  have hle := hbase levels
  have hpos : 0 < n * info.resources.layers := Nat.mul_pos hn (by omega)
  rw [← hostOffset_succ, ← hlayers, hostOffset_layers, uploadBase_succ, hostBase_succ, hupload, hlayer,
    Nat.mul_assoc, Nat.mul_assoc]
  exact Nat.add_lt_add_of_le_of_lt hle (by omega)

/-- **Blocks of 12 bytes do not come back**: the last byte of the last layer is one that no upload
writes to the host buffer. -/
theorem not_restores (hformat : info.format = .r32g32b32Float) (hlinear : info.type ≠ .linear)
    (hspacing : info.tileWidthSpacing = 0) (hlevels : info.resources.levels ≤ maxMipLevels)
    (hhost : hostBase info info.resources.levels < 2 ^ 32) (hlast : info.resources.levels = levels + 1)
    (hlayers : info.resources.layers = layers + 1) : ¬Restores info := by
  intro h
  have hsize : ∃ guestSize held, calculateGuestSizeInBytes info = .ret guestSize held := by
    unfold calculateGuestSizeInBytes
    split
    · exact ⟨_, _, rfl⟩
    · split
      · exact ⟨_, _, rfl⟩
      · exact ⟨_, _, rfl⟩
  obtain ⟨guestSize, held, hsize⟩ := hsize
  obtain ⟨uploads, host, downloads, gpuMemory, hupload, hdownloads, hdownload, hsame, -, -⟩ :=
    h (fun _ => 0) (fun _ => 1) 0 0 guestSize held hsize
  rw [fullDownloadCopies_eq hlinear hspacing hhost] at hdownloads
  rw [← (ret.inj hdownloads).1] at hdownload
  have hpos : 0 < layerBytes info levels := by
    rw [layerBytes, hformat]
    exact Nat.mul_pos (hformat ▸ levelBlocks_pos info levels) (by decide)
  obtain ⟨x, hx, y, hy, z, hz, hlinearOffset⟩ := @exists_linearOffset (levelBlocks info levels).height
    (rowBytes info levels) (levelBlocks info levels).depth (layerBytes info levels - 1)
    (by rw [← layerBytes_eq]; omega)
  have hbase : uploadBase info (levels + 1) <
      hostOffset info levels layers + layerBytes info levels := uploadBase_lt hformat hlayers
  have hwritten := wlp_swizzleImage hlinear hlevels hhost hlast hlayers _ host 0 _ _ hdownload x hx y hy z hz
  have hroom : uploadBase info info.resources.levels < 2 ^ 32 := by
    rw [hlast]
    exact hbase.trans (hostOffset_lt hhost (by omega) (by omega))
  have hlastByte : host (hostOffset info levels layers + (layerBytes info levels - 1)) = 1 :=
    wlp_unswizzleImage hlinear hlevels hroom _ _ _ _ _ _ _ _ hupload _ (by rw [hlast]; omega)
  rw [hlinearOffset, hlastByte, hsame] at hwritten
  exact absurd hwritten (show ¬(0 : BitVec 8) = 1 by decide)

/-- **An image comes back from the host just when its blocks have a power of two of bytes**, or it has
nothing to copy, as long as no 32-bit size or offset wraps: it has fewer than `2 ^ 32` bytes in guest memory
and in the host buffer. -/
theorem restores_iff (hspacing : info.tileWidthSpacing = 0)
    (htype : info.type = .e2D ∨ info.type = .e3D) (hlevels : info.resources.levels ≤ maxMipLevels)
    (hstride : calculateLayerStride info = .ret info.layerStride true)
    (hguest : layerStride info * info.resources.layers < 2 ^ 32)
    (hhost : hostBase info info.resources.levels < 2 ^ 32) : Restores info ↔ PowerOfTwoBlocks info := by
  have hlinear : info.type ≠ .linear := by
    obtain h | h := htype <;> rw [h] <;> decide
  have hbuffer : info.type ≠ .buffer := by
    obtain h | h := htype <;> rw [h] <;> decide
  constructor
  · intro h
    by_contra hnot
    obtain ⟨hformat, hnolevels, hnolayers⟩ : info.format = .r32g32b32Float ∧
        info.resources.levels ≠ 0 ∧ info.resources.layers ≠ 0 := by
      simpa only [PowerOfTwoBlocks, not_or, not_not] using hnot
    obtain ⟨levels, hlast⟩ := Nat.exists_eq_succ_of_ne_zero hnolevels
    obtain ⟨layers, hlayers⟩ := Nat.exists_eq_succ_of_ne_zero hnolayers
    exact not_restores hformat hlinear hspacing hlevels hhost hlast hlayers h
  · exact fun hblocks => restores hblocks hspacing hlinear hbuffer hlevels hstride hguest hhost

/-- An array of two images of 100 by 60 texels of 4 bytes with three levels. -/
theorem rgba8Array_restores : Restores
    { format := .a8b8g8r8Unorm, type := .e2D, resources := ⟨3, 2⟩, size := ⟨100, 60, 1⟩
      block := ⟨0, 2, 0⟩, pitch := 0, layerStride := 38912, tileWidthSpacing := 0 } :=
  (restores_iff rfl (Or.inl rfl) (by decide) (by decide) (by decide) (by decide)).2 (Or.inl (by simp))

/-- One texel of 12 bytes. -/
theorem rgb32_not_restores :
    let info : ImageInfo :=
      { format := .r32g32b32Float, type := .e2D, resources := ⟨1, 1⟩, size := ⟨1, 1, 1⟩
        block := ⟨0, 0, 0⟩, pitch := 0, layerStride := 512, tileWidthSpacing := 0 }
    calculateLayerStride info = .ret info.layerStride true ∧ ¬Restores info := by
  refine ⟨by decide, not_restores rfl ?_ rfl ?_ ?_ rfl rfl⟩ <;> decide

end VideoCommon
end NXEmu
