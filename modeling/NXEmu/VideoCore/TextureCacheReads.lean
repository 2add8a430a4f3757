/-
# What an upload reads

`UnswizzleImage` takes the blocks of a format for the largest power of two of bytes that they have room
for, and pads the rows of a level as its spacing says.  For every block-linear image, each byte it
leaves in the host buffer is the byte of the guest that `readOffset` says (`wlp_unswizzleImage_fetched`),
and with a large enough span of guest memory it does not fault (`wp_unswizzleImage_readable`).
-/

import NXEmu.VideoCore.TextureCacheUpload

variable {input : Span} {inputSize : ℕ} {state : UnswizzleState}

namespace NXEmu
namespace VideoCommon

open Common VideoCore.Surface Tegra.Texture Exec

variable {info : ImageInfo} {level layer : ℕ}

/-! ### Places -/

/-- The bytes of a block as an upload counts them. -/
def unitBytes (info : ImageInfo) : ℕ := 1 <<< bytesPerBlockLog2 (bytesPerBlock info.format)

/-- The padding of the rows of a level, `stride_alignment`. -/
def levelPadding (info : ImageInfo) (level : ℕ) : ℕ :=
  strideAlignment (levelBlocks info level) info.block
    (gobSize (bytesPerBlockLog2 (bytesPerBlock info.format)) info.block.height info.tileWidthSpacing)
    (bytesPerBlockLog2 (bytesPerBlock info.format))

/-- The offset in its level that an upload reads a byte from. -/
def readAt (info : ImageInfo) (level x y z : ℕ) : ℕ :=
  tiledOffset (1 <<< newBpp (unitBytes info) (levelBlocks info level).width)
    (levelBlocks info level).height (levelShape info level).height (levelShape info level).depth
    (rowStride (unitBytes info) (levelBlocks info level).width (levelPadding info level)) x y z

/-- The guest offset that an upload reads a byte of a layer of a level from. -/
def readOffset (info : ImageInfo) (level layer x y z : ℕ) : ℕ :=
  guestOffset info level layer + readAt info level x y z

/-- Where an upload leaves a byte of a layer of a level. -/
def hostPlace (info : ImageInfo) (level layer x y z : ℕ) : ℕ :=
  uploadBase info level + layer * uploadBytes info level +
    linearOffset ((levelBlocks info level).width * unitBytes info) (levelBlocks info level).height x y z

/-- A guest span of so many bytes has all that is read for a layer of a level. -/
def Readable (info : ImageInfo) (inputSize level layer : ℕ) : Prop :=
  TiledWithin (unitBytes info) (levelBlocks info level).width (levelBlocks info level).height
    (levelBlocks info level).depth (levelShape info level).height (levelShape info level).depth
    (levelPadding info level) (inputSize - guestOffset info level layer)

/-- A layer of a level is in its part of the host buffer. -/
def Fetched (info : ImageInfo) (input output : Span) (level layer : ℕ) : Prop :=
  ∀ x < (levelBlocks info level).width * unitBytes info, ∀ y < (levelBlocks info level).height,
    ∀ z < (levelBlocks info level).depth,
      output (hostPlace info level layer x y z) = input (readOffset info level layer x y z)

theorem uploadBytes_eq (info : ImageInfo) (level : ℕ) : uploadBytes info level =
    (levelBlocks info level).width * unitBytes info * (levelBlocks info level).height *
      (levelBlocks info level).depth := by
  show ((levelBlocks info level).width * (levelBlocks info level).height *
    (levelBlocks info level).depth) <<< _ = _
  rw [unitBytes, Nat.one_shiftLeft, Nat.shiftLeft_eq]
  ring

theorem hostPlace_lt {x y z : ℕ} (hx : x < (levelBlocks info level).width * unitBytes info)
    (hy : y < (levelBlocks info level).height) (hz : z < (levelBlocks info level).depth) :
    hostPlace info level layer x y z < uploadBase info level + (layer + 1) * uploadBytes info level := by
  rw [hostPlace, Nat.add_mul, Nat.one_mul, ← Nat.add_assoc]
  exact Nat.add_lt_add_left (uploadBytes_eq info level ▸ linearOffset_lt hx hy hz) _

theorem Fetched.congr {input output output' : Span} (h : Fetched info input output level layer)
    (hsame : ∀ i < uploadBase info level + (layer + 1) * uploadBytes info level, output' i = output i) :
    Fetched info input output' level layer := fun x hx y hy z hz =>
  (hsame _ (hostPlace_lt hx hy hz)).trans (h x hx y hy z hz)

/-! ### The loops -/

/-- Where the loops of an upload are. -/
structure FetchedTo (info : ImageInfo) (input : Span) (level layer : ℕ) (state : UnswizzleState) :
    Prop where
  guestOffset : state.guestOffset = calculateLevelBytes (levelSizes info) level
  guestLayerOffset : state.guestLayerOffset = layer * layerStride info
  hostOffset : state.hostOffset = uploadBase info level + layer * uploadBytes info level
  levels : ∀ level' < level, ∀ layer' < info.resources.layers, Fetched info input state.output level' layer'
  layers : ∀ layer' < layer, Fetched info input state.output level layer'

/-- **What one layer of an upload fetches.** -/
theorem FetchedTo.step (h : FetchedTo info input level layer state)
    (hroom : uploadBase info level + layer * uploadBytes info level + uploadBytes info level < 2 ^ 32) :
    (unswizzleLayer input inputSize (bytesPerBlockLog2 (bytesPerBlock info.format)) (layerStride info)
      (uploadBytes info level) (levelBlocks info level) (levelShape info level)
      (levelPadding info level) state).wlp fun state' _ => FetchedTo info input level (layer + 1) state' := by
  rw [unswizzleLayer, unswizzleTextureFrom]
  split
  · obtain ⟨dst, hrun, hread, -⟩ := @unswizzleTexture_spec (unitBytes info)
      (levelBlocks info level).width (levelBlocks info level).height (levelBlocks info level).depth
      (levelShape info level).height (levelShape info level).depth (levelPadding info level)
      (subspan state.output state.hostOffset)
      (subspan input (state.guestOffset + state.guestLayerOffset)) _ (newBpp_spec (unitBytes info)
        (levelBlocks info level).width).1
    rw [unitBytes] at hrun
    rw [hrun, ret_true_bind, pure_eq, wlp_ret]
    have hkept : ∀ i < uploadBase info level + layer * uploadBytes info level,
        replaceFrom state.output state.hostOffset dst i = state.output i := by
      intro i hi
      exact if_pos (h.hostOffset ▸ hi)
    refine ⟨h.guestOffset, ?_, ?_, fun level' hlevel layer' hlayer => ?_, fun layer' hlayer => ?_⟩
    · rw [h.guestLayerOffset, Nat.add_mul, Nat.one_mul]
    · rw [h.hostOffset, Nat.mod_eq_of_lt hroom, Nat.add_mul, Nat.one_mul, Nat.add_assoc]
    · refine (h.levels level' hlevel layer' hlayer).congr fun i hi => hkept i (lt_of_lt_of_le hi ?_)
      have hlayers : (layer' + 1) * uploadBytes info level' ≤ uploadBytes info level' * info.resources.layers := by
        rw [Nat.mul_comm]
        exact Nat.mul_le_mul_left _ hlayer
      have hbase : uploadBase info (level' + 1) ≤ uploadBase info level :=
        calculateLevelBytes_mono _ hlevel
      rw [uploadBase_succ] at hbase
      omega
    · obtain hlt | rfl := Nat.lt_succ_iff_lt_or_eq.1 hlayer
      · refine (h.layers layer' hlt).congr fun i hi => hkept i (lt_of_lt_of_le hi ?_)
        exact Nat.add_le_add_left (Nat.mul_le_mul_right _ hlt) _
      · intro x hx y hy z hz
        show (if _ then _ else _) = _
        rw [if_neg (by rw [h.hostOffset, hostPlace]; omega), hostPlace, ← h.hostOffset,
          Nat.add_sub_cancel_left, hread x hx y hy z hz, subspan, readOffset, VideoCommon.guestOffset,
          h.guestOffset, h.guestLayerOffset]
        rfl
  · exact wlp_fault

/-- One level of an upload, with its parts named. -/
theorem unswizzleLevel_eq (info : ImageInfo) (input : Span) (inputSize level : ℕ) (state : UnswizzleState) :
    ∃ copy, unswizzleLevel info (levelSizes info) (layerStride info) input inputSize state level =
      ((List.range info.resources.layers).foldlM (fun state _ =>
        unswizzleLayer input inputSize (bytesPerBlockLog2 (bytesPerBlock info.format)) (layerStride info)
          (uploadBytes info level % 2 ^ 32) (levelBlocks info level) (levelShape info level)
          (levelPadding info level) state)
        { state with guestLayerOffset := 0, copies := state.copies ++ [copy] }) >>= fun state =>
      .ret { state with guestOffset := state.guestOffset + levelSizes info level } true :=
  ⟨_, rfl⟩

/-- **What one level of an upload fetches.** -/
theorem FetchedTo.next (hroom : uploadBase info (level + 1) < 2 ^ 32) (hguest : state.guestOffset = calculateLevelBytes (levelSizes info) level)
    (hhost : state.hostOffset = uploadBase info level) (hlevels : ∀ level' < level, ∀ layer' < info.resources.layers,
      Fetched info input state.output level' layer') :
    (unswizzleLevel info (levelSizes info) (layerStride info) input inputSize state level).wlp
      fun state' _ => state'.guestOffset = calculateLevelBytes (levelSizes info) (level + 1) ∧
        state'.hostOffset = uploadBase info (level + 1) ∧
        ∀ level' < level + 1, ∀ layer' < info.resources.layers, Fetched info input state'.output level' layer' := by
  obtain ⟨copy, hlevel⟩ := unswizzleLevel_eq info input inputSize level state
  rw [hlevel, wlp_bind]
  refine wlp_mono (wlp_foldlM_range (I := fun layer state' =>
    FetchedTo info input level layer state') (fun layer state' hlayer h => ?_) ?_) ?_
  · have hlt := uploadBase_add_lt hroom hlayer
    rw [Nat.mod_eq_of_lt ((Nat.le_add_left _ _).trans_lt hlt)]
    exact h.step hlt
  · refine ⟨hguest, (Nat.zero_mul _).symm, ?_, hlevels, fun layer' hlayer => ?_⟩
    · rw [Nat.zero_mul]
      exact hhost
    · exact absurd hlayer (Nat.not_lt_zero _)
  · rintro state' held h
    rw [wlp_ret]
    refine ⟨?_, ?_, fun level' hlevel layer' hlayer => ?_⟩
    · rw [calculateLevelBytes_succ, ← h.guestOffset]
    · rw [uploadBase_succ, Nat.mul_comm]
      exact h.hostOffset
    · obtain hlt | rfl := Nat.lt_succ_iff_lt_or_eq.1 hlevel
      · exact h.levels level' hlt layer' hlayer
      · exact h.layers layer' hlayer

section

variable (hlinear : info.type ≠ .linear) (hlevels : info.resources.levels ≤ maxMipLevels)
  (gpuMemory input output : Span)

include hlinear hlevels

/-- **What an upload fetches.**  If it does not fault, each layer of each level is in the host buffer, as long
as that has fewer than `2 ^ 32` bytes. -/
theorem wlp_unswizzleImage_fetched (hroom : uploadBase info info.resources.levels < 2 ^ 32) (gpuAddr inputSize outputSize : ℕ) :
    (unswizzleImage gpuMemory gpuAddr info input inputSize output outputSize).wlp fun result _ =>
      ∀ level < info.resources.levels, ∀ layer < info.resources.layers, Fetched info input result.2 level layer := by
  rw [unswizzleImage_eq hlinear hlevels, wlp_bind]
  refine wlp_mono (wlp_foldlM_range (I := fun level state =>
    state.guestOffset = calculateLevelBytes (levelSizes info) level ∧ state.hostOffset = uploadBase info level ∧
      ∀ level' < level, ∀ layer' < info.resources.layers, Fetched info input state.output level' layer')
    ?_ ?_) ?_
  · rintro level state hlevel ⟨hguest, hhost, hfetched⟩
    exact FetchedTo.next ((calculateLevelBytes_mono _ hlevel).trans_lt hroom) hguest hhost hfetched
  · exact ⟨rfl, rfl, fun level' hlevel => absurd hlevel (Nat.not_lt_zero _)⟩
  · rintro state held ⟨-, -, hfetched⟩
    rw [wlp_ret]
    exact hfetched

/-- **An upload does not fault** when the guest span has all that is read. -/
theorem wp_unswizzleImage_readable (gpuAddr outputSize : ℕ)
    (hreadable : ∀ level < info.resources.levels, ∀ layer < info.resources.layers,
      Readable info inputSize level layer) :
    (unswizzleImage gpuMemory gpuAddr info input inputSize output outputSize).wp fun _ held =>
      held = true := by
  rw [unswizzleImage_eq hlinear hlevels, wp_bind]
  refine wp_mono (wp_foldlM_range (I := fun level state =>
    state.guestOffset = calculateLevelBytes (levelSizes info) level) ?_ rfl) ?_
  · intro level state hlevel hguest
    obtain ⟨copy, heq⟩ := unswizzleLevel_eq info input inputSize level state
    rw [heq, wp_bind]
    refine wp_mono (wp_foldlM_range (I := fun layer state' =>
      state'.guestOffset + state'.guestLayerOffset = guestOffset info level layer ∧
        state'.guestOffset = calculateLevelBytes (levelSizes info) level) ?_ ?_) ?_
    · rintro layer state' hlayer ⟨hoffset, hguest'⟩
      obtain ⟨dst, hrun, -⟩ := @unswizzleTexture_spec (unitBytes info)
        (levelBlocks info level).width (levelBlocks info level).height (levelBlocks info level).depth
        (levelShape info level).height (levelShape info level).depth (levelPadding info level)
        (subspan state'.output state'.hostOffset) (subspan input (guestOffset info level layer)) 1 (by decide)
      have hwithin := hreadable level hlevel layer hlayer
      rw [Readable, unitBytes] at hwithin
      rw [unitBytes] at hrun
      rw [unswizzleLayer, hoffset, unswizzleTextureFrom, if_pos hwithin, hrun, ret_true_bind, pure_eq, wp_ret]
      refine ⟨rfl, ?_, hguest'⟩
      show state'.guestOffset + (state'.guestLayerOffset + layerStride info) = _
      rw [guestOffset] at hoffset ⊢
      rw [Nat.add_mul, Nat.one_mul, ← Nat.add_assoc, hoffset, Nat.add_assoc]
    · refine ⟨?_, hguest⟩
      rw [guestOffset, Nat.zero_mul, ← hguest]
    · rintro state' held ⟨rfl, -, hguest'⟩
      rw [wp_ret]
      refine ⟨rfl, ?_⟩
      rw [calculateLevelBytes_succ, ← hguest']
  · rintro state held ⟨rfl, -⟩
    exact wp_ret.2 rfl

end

end VideoCommon
end NXEmu
