/-
# Slices of an image

`CalculateSliceOffsets` and `CalculateSliceSubresources` list the slices of a 3D image, level by level.
The one takes the blocks from `TileShift`, the upload takes them from `AdjustMipBlockSize`.  Both shrink
the blocks of a level that is too small for them; but when there is one level only, the former leaves the
blocks as they are and the latter spares their depth alone, so that the slices of a low image with high
blocks are listed where they are not (`slicesAgree_iff`).  The offsets have 32 bits and wrap around; in an
image of fewer than `2 ^ 32` bytes they do not.
-/

import NXEmu.VideoCore.TextureCacheReads
import NXEmu.VideoCore.TextureCacheDownload
import Mathlib.Data.List.Nodup
import Mathlib.Data.Nat.Bitwise

variable {gobExtent numTiles blockSize levels : ℕ} {depth : ℕ → ℕ} {offset : ℕ → ℕ → ℕ}

namespace NXEmu
namespace VideoCommon

open Common VideoCore.Surface Tegra.Texture List Nat

/-- `SubresourceBase`. -/
structure SubresourceBase where
  level : ℕ
  layer : ℕ
deriving DecidableEq

/-- `CalculateSliceOffsets`, of type `u32`. -/
def calculateSliceOffsets (info : ImageInfo) : Exec (List ℕ) := do
  Exec.assert (info.type = .e3D)
  let levelInfo := makeLevelInfo info
  let state := (List.range info.resources.levels).foldl (fun (state : List ℕ × ℕ) level =>
    let mipOffset := state.2
    let tileShift := tileShift levelInfo level
    let tiles := levelTiles levelInfo level
    let gobSizeShift := tileShift.height + gobSizeShift
    let sliceSize := (tiles.width * tiles.height) <<< gobSizeShift
    let zMask := (1 <<< tileShift.depth) - 1
    let depth := adjustMipSize info.size.depth level
    let offsets := (List.range depth).map fun slice =>
      let zLow := slice &&& zMask
      let zHigh := slice.ldiff zMask
      (mipOffset + (zLow <<< gobSizeShift) + zHigh * sliceSize) % 2 ^ 32
    (state.1 ++ offsets, (mipOffset + calculateLevelSize levelInfo level) % 2 ^ 32)) ([], 0)
  return state.1

/-- `CalculateSliceSubresources`: the level and the slice for each of the offsets. -/
def calculateSliceSubresources (info : ImageInfo) : Exec (List SubresourceBase) := do
  Exec.assert (info.type = .e3D)
  return (List.range info.resources.levels).flatMap fun level =>
    (List.range (adjustMipSize info.size.depth level)).map fun slice => ⟨level, slice⟩

variable {info : ImageInfo} {level z : ℕ}

/-! ### Blocks -/

theorem shrinkBlock_fits (h : shrinkBlock gobExtent numTiles blockSize < blockSize) :
    numTiles ≤ 2 ^ shrinkBlock gobExtent numTiles blockSize * gobExtent := by
  induction blockSize with
  | zero => exact absurd h (not_lt_zero _)
  | succ blockSize ih =>
    rw [shrinkBlock] at h ⊢
    split at h
    · next hle =>
      rw [if_pos hle]
      obtain hlt | heq := lt_or_eq_of_le (@shrinkBlock_le gobExtent numTiles blockSize)
      · exact ih hlt
      · rwa [heq, ← Nat.one_shiftLeft]
    · exact absurd h (lt_irrefl _)

/-- The loop leaves a block that is small enough as it is. -/
theorem shrinkBlock_eq_iff :
    shrinkBlock gobExtent numTiles blockSize = blockSize ↔
      blockSize = 0 ∨ gobExtent <<< (blockSize - 1) < numTiles := by
  cases blockSize with
  | zero => exact ⟨fun _ => .inl rfl, fun _ => rfl⟩
  | succ blockSize =>
    rw [shrinkBlock, Nat.add_sub_cancel, Nat.one_shiftLeft, Nat.shiftLeft_eq, Nat.mul_comm gobExtent]
    have hle := @shrinkBlock_le gobExtent numTiles blockSize
    split <;> omega

theorem levelBlocks_extents_pos (info : ImageInfo) (level : ℕ) :
    0 < (levelBlocks info level).width ∧ 0 < (levelBlocks info level).height ∧
      0 < (levelBlocks info level).depth := by
  have h := levelBlocks_pos info level
  have hsize := Nat.pos_of_mul_pos_right h
  exact ⟨Nat.pos_of_mul_pos_right hsize, Nat.pos_of_mul_pos_left hsize, Nat.pos_of_mul_pos_left h⟩

theorem bytesPerBlockLog2_le (format : PixelFormat) : bytesPerBlockLog2 (bytesPerBlock format) ≤ 4 := by
  cases format <;> decide

/-! ### Offsets of slices -/

/-- The offset of a slice in a level of so many GOBs across, for blocks of a shape. -/
def gobOffset (gobs height blockHeight blockDepth z : ℕ) : ℕ :=
  512 * 2 ^ blockHeight * (z % 2 ^ blockDepth +
    2 ^ blockDepth * (gobs * divCeilLog2 height (blockHeight + 3) * (z / 2 ^ blockDepth)))

/-- The GOBs across a level. -/
def levelGobs (info : ImageInfo) (level : ℕ) : ℕ :=
  divCeilLog2 ((levelBlocks info level).width <<< bytesPerBlockLog2 (bytesPerBlock info.format)) 6

/-- The offset of a slice of a level as `CalculateSliceOffsets` finds it. -/
def sliceOffset (info : ImageInfo) (level z : ℕ) : ℕ :=
  calculateLevelBytes (levelSizes info) level +
    gobOffset (levelTiles (makeLevelInfo info) level).width (levelBlocks info level).height
      (tileShift (makeLevelInfo info) level).height (tileShift (makeLevelInfo info) level).depth z

theorem ldiff_two_pow_sub_one (z n : ℕ) : z.ldiff (2 ^ n - 1) = z / 2 ^ n * 2 ^ n := by
  refine eq_of_testBit_eq fun i => ?_
  rw [testBit_ldiff, testBit_two_pow_sub_one, ← Nat.shiftLeft_eq, testBit_shiftLeft,
    testBit_div_two_pow]
  by_cases hi : i < n
  · simp [hi, not_le.2 hi]
  · simp [hi, Nat.le_of_not_lt hi, Nat.sub_add_cancel]

/-- The blocks across a level, each of one GOB. -/
theorem levelTiles_eq (hwidth : info.block.width = 0) (hspacing : info.tileWidthSpacing = 0)
    (level : ℕ) : (levelTiles (makeLevelInfo info) level).width = levelGobs info level := by
  have hshift : (tileShift (makeLevelInfo info) level).width = 0 := by
    have hblock : (makeLevelInfo info).block.width = 0 := hwidth
    unfold tileShift
    by_cases hlevel : level = 0 ∧ (makeLevelInfo info).numLevels = 1
    · rw [if_pos hlevel, hblock]
    · rw [if_neg hlevel]
      dsimp only
      rw [adjustTileShift_eq, hblock, shrinkBlock]
  have halign : ∀ value, alignUpLog2 value 0 = value := fun value => by
    simp [alignUpLog2]
  have hgobs : (numGobs (makeLevelInfo info) level).width = levelGobs info level := by
    show alignUpLog2 _ (if _ then 0 else info.tileWidthSpacing) = _
    rw [hspacing, ite_self, halign]
    rfl
  show divCeilLog2 (numGobs (makeLevelInfo info) level).width
    (tileShift (makeLevelInfo info) level).width = _
  rw [hshift, hgobs, divCeilLog2_zero_right]

/-- The blocks down a level. -/
theorem levelTiles_height (info : ImageInfo) (level : ℕ) :
    (levelTiles (makeLevelInfo info) level).height = divCeilLog2 (levelBlocks info level).height
      ((tileShift (makeLevelInfo info) level).height + 3) :=
  divCeilLog2_divCeilLog2 _ _ _

theorem sliceOffset_eq (info : ImageInfo) (level z : ℕ) :
    calculateLevelBytes (levelSizes info) level +
        ((z &&& ((1 <<< (tileShift (makeLevelInfo info) level).depth) - 1)) <<<
          ((tileShift (makeLevelInfo info) level).height + gobSizeShift)) +
        z.ldiff ((1 <<< (tileShift (makeLevelInfo info) level).depth) - 1) *
          (((levelTiles (makeLevelInfo info) level).width * (levelTiles (makeLevelInfo info) level).height) <<<
            ((tileShift (makeLevelInfo info) level).height + gobSizeShift)) =
      sliceOffset info level z := by
  rw [levelTiles_height, Nat.one_shiftLeft, ldiff_two_pow_sub_one, and_two_pow_sub_one_eq_mod,
    Nat.shiftLeft_eq, Nat.shiftLeft_eq, sliceOffset, gobOffset, pow_add]
  ring

theorem readOffset_eq (hspacing : info.tileWidthSpacing = 0) (level z : ℕ) :
    readOffset info level 0 0 0 z = calculateLevelBytes (levelSizes info) level +
      gobOffset (levelGobs info level) (levelBlocks info level).height (levelShape info level).height
        (levelShape info level).depth z := by
  have hgobs := divCeilLog2_rowStride (bytesPerBlockLog2_le info.format) (levelBlocks info level).width
    (Or.inr rfl)
  rw [readOffset, guestOffset, zero_mul, add_zero, readAt, tiledOffset_eq (newBpp_spec _ _).1,
    Tegra.Texture.digits, levelPadding, strideAlignment_eq hspacing, unitBytes, Nat.one_shiftLeft, hgobs, gobOffset,
    levelGobs]
  congr 1
  simp [swizzleTable]
  ring

theorem calculateSliceSubresources_eq (h3D : info.type = .e3D) :
    calculateSliceSubresources info = .ret ((range info.resources.levels).flatMap fun level =>
      (range (levelBlocks info level).depth).map fun slice => ⟨level, slice⟩) true := by
  rw [calculateSliceSubresources, Exec.assert, decide_eq_true h3D]
  rfl

/-! ### Slices apart -/

variable {gobs height blockHeight blockDepth : ℕ}

theorem divCeilLog2_pos {value : ℕ} (h : 0 < value) (n : ℕ) : 0 < divCeilLog2 value n :=
  zero_lt_of_lt (div_lt_divCeilLog2 h)

theorem gobOffset_injective (hgobs : 0 < gobs) (hheight : 0 < height) {z' : ℕ}
    (h : gobOffset gobs height blockHeight blockDepth z = gobOffset gobs height blockHeight blockDepth z') :
    z = z' := by
  have hpos : 0 < 512 * 2 ^ blockHeight := Nat.mul_pos (by decide) (Nat.two_pow_pos _)
  have hrows : 0 < gobs * divCeilLog2 height (blockHeight + 3) :=
    Nat.mul_pos hgobs (divCeilLog2_pos hheight _)
  have hdepth : 0 < 2 ^ blockDepth := Nat.two_pow_pos _
  obtain ⟨hlow, hhigh⟩ := digit_injective (Nat.mod_lt _ hdepth) (Nat.mod_lt _ hdepth)
    (Nat.eq_of_mul_eq_mul_left hpos h)
  rw [← Nat.div_add_mod z (2 ^ blockDepth), hlow, Nat.eq_of_mul_eq_mul_left hrows hhigh, Nat.div_add_mod]

theorem gobOffset_lt (hgobs : 0 < gobs) (hheight : 0 < height) {depth : ℕ} (hz : z < depth)
    (blockHeight blockDepth : ℕ) :
    gobOffset gobs height blockHeight blockDepth z < 512 * 2 ^ blockHeight *
      (2 ^ blockDepth * (gobs * divCeilLog2 height (blockHeight + 3) * divCeilLog2 depth blockDepth)) := by
  have hpos : 0 < 512 * 2 ^ blockHeight := Nat.mul_pos (by decide) (Nat.two_pow_pos _)
  have hrows : 0 < gobs * divCeilLog2 height (blockHeight + 3) :=
    Nat.mul_pos hgobs (divCeilLog2_pos hheight _)
  exact Nat.mul_lt_mul_of_pos_left (digit_lt (Nat.mod_lt _ (Nat.two_pow_pos _))
    (Nat.mul_lt_mul_of_pos_left (div_lt_divCeilLog2 hz) hrows)) hpos

/-- Two heights of blocks that both have room for all the rows set the second slice apart. -/
theorem gobOffset_ne (hgobs : 0 < gobs) (hheight : 0 < height) {blockHeight' : ℕ}
    (hlt : blockHeight' < blockHeight) (hfits : height ≤ 2 ^ blockHeight' * 8) :
    gobOffset gobs height blockHeight blockDepth 1 ≠ gobOffset gobs height blockHeight' blockDepth 1 := by
  have hone : ∀ n, blockHeight' ≤ n → divCeilLog2 height (n + 3) = 1 := by
    intro n hn
    refine le_antisymm (divCeilLog2_le_iff.2 ?_) (divCeilLog2_pos hheight _)
    rw [one_mul, pow_add]
    exact hfits.trans (Nat.mul_le_mul_right _ (Nat.pow_le_pow_right (by decide) hn))
  have hsecond : gobOffset gobs height blockHeight blockDepth 1 ≠ 0 := by
    have hzero : gobOffset gobs height blockHeight blockDepth 0 = 0 := by simp [gobOffset]
    intro h
    exact absurd (gobOffset_injective hgobs hheight (h.trans hzero.symm)) one_ne_zero
  have hpow : 2 ^ blockHeight' < 2 ^ blockHeight := Nat.pow_lt_pow_right (by decide) hlt
  rw [gobOffset, hone _ hlt.le] at hsecond ⊢
  rw [gobOffset, hone _ le_rfl]
  generalize 1 % 2 ^ blockDepth + 2 ^ blockDepth * (gobs * 1 * (1 / 2 ^ blockDepth)) = c at hsecond ⊢
  have hc : 0 < c := Nat.pos_of_ne_zero fun hc => hsecond (by rw [hc, mul_zero])
  intro h
  have hpow' := Nat.eq_of_mul_eq_mul_left (by decide) (Nat.eq_of_mul_eq_mul_right hc h)
  omega

theorem levelTiles_width_pos (info : ImageInfo) (level : ℕ) :
    0 < (levelTiles (makeLevelInfo info) level).width := by
  have hbytes : 0 < (numLevelBlocks (makeLevelInfo info) level).width := by
    show 0 < (levelBlocks info level).width <<< _
    rw [Nat.shiftLeft_eq]
    exact Nat.mul_pos (levelBlocks_extents_pos info level).1 (Nat.two_pow_pos _)
  exact divCeilLog2_pos (lt_of_lt_of_le (divCeilLog2_pos hbytes _) (le_alignUpLog2 _ _)) _

/-- The slices of a level are before the next one. -/
theorem sliceOffset_lt (hlevel : level < info.resources.levels) (hz : z < (levelBlocks info level).depth) :
    sliceOffset info level z < calculateLevelBytes (levelSizes info) (level + 1) := by
  have hlt := gobOffset_lt (levelTiles_width_pos info level) (levelBlocks_extents_pos info level).2.1 hz
    (tileShift (makeLevelInfo info) level).height (tileShift (makeLevelInfo info) level).depth
  have hsize : calculateLevelSize (makeLevelInfo info) level =
      ((levelTiles (makeLevelInfo info) level).width * (levelTiles (makeLevelInfo info) level).height *
        divCeilLog2 (levelBlocks info level).depth (tileShift (makeLevelInfo info) level).depth) <<<
          (9 + (tileShift (makeLevelInfo info) level).width + (tileShift (makeLevelInfo info) level).height +
            (tileShift (makeLevelInfo info) level).depth) := rfl
  rw [levelTiles_height, Nat.shiftLeft_eq, pow_add, pow_add, pow_add] at hsize
  rw [calculateLevelBytes_succ, levelSizes, if_pos hlevel, sliceOffset, hsize]
  refine Nat.add_lt_add_left (hlt.trans_le ?_) _
  refine (Nat.le_mul_of_pos_right _ (Nat.two_pow_pos (tileShift (makeLevelInfo info) level).width)).trans
    (le_of_eq ?_)
  ring

/-- **The offsets `CalculateSliceOffsets` lists**, in an image whose layers have fewer than `2 ^ 32` bytes. -/
theorem calculateSliceOffsets_eq (h3D : info.type = .e3D)
    (hbytes : calculateLevelBytes (levelSizes info) info.resources.levels < 2 ^ 32) :
    calculateSliceOffsets info = .ret ((range info.resources.levels).flatMap fun level =>
      (range (levelBlocks info level).depth).map (sliceOffset info level)) true := by
  have hloop : ∀ n ≤ info.resources.levels, (range n).foldl (fun (state : List ℕ × ℕ) level =>
        (state.1 ++ (range (adjustMipSize info.size.depth level)).map fun slice =>
          (state.2 + ((slice &&& ((1 <<< (tileShift (makeLevelInfo info) level).depth) - 1)) <<<
              ((tileShift (makeLevelInfo info) level).height + gobSizeShift)) +
            slice.ldiff ((1 <<< (tileShift (makeLevelInfo info) level).depth) - 1) *
              (((levelTiles (makeLevelInfo info) level).width *
                (levelTiles (makeLevelInfo info) level).height) <<<
                  ((tileShift (makeLevelInfo info) level).height + gobSizeShift))) % 2 ^ 32,
          (state.2 + calculateLevelSize (makeLevelInfo info) level) % 2 ^ 32)) ([], 0) =
        ((range n).flatMap fun level =>
          (range (levelBlocks info level).depth).map (sliceOffset info level),
          calculateLevelBytes (levelSizes info) n) := by
    intro n
    induction n with
    | zero => exact fun _ => rfl
    | succ n ih =>
      intro hn
      have hlt : calculateLevelBytes (levelSizes info) (n + 1) < 2 ^ 32 :=
        (calculateLevelBytes_mono _ hn).trans_lt hbytes
      have hnext : calculateLevelBytes (levelSizes info) n + calculateLevelSize (makeLevelInfo info) n =
          calculateLevelBytes (levelSizes info) (n + 1) := by
        rw [calculateLevelBytes_succ, levelSizes, if_pos (by omega)]
      rw [range_succ, foldl_append, ih (by omega), flatMap_append]
      simp only [foldl_cons, foldl_nil, flatMap_cons, flatMap_nil, append_nil]
      simp only [sliceOffset_eq]
      rw [hnext, mod_eq_of_lt hlt]
      congr 2
      exact map_congr_left fun z hz => mod_eq_of_lt ((sliceOffset_lt hn (mem_range.1 hz)).trans hlt)
  rw [calculateSliceOffsets, Exec.assert, decide_eq_true h3D, Exec.ret_true_bind]
  exact congrArg (fun state => Exec.ret (Prod.fst state) true) (hloop _ le_rfl)

/-- **No two slices have one offset.** -/
theorem sliceOffsets_nodup (info : ImageInfo) :
    ((range info.resources.levels).flatMap fun level =>
      (range (levelBlocks info level).depth).map (sliceOffset info level)).Nodup := by
  rw [nodup_flatMap]
  constructor
  · intro level _
    refine (nodup_map_iff_inj_on nodup_range).2 fun z _ z' _ h => ?_
    exact gobOffset_injective (levelTiles_width_pos info level) (levelBlocks_extents_pos info level).2.1
      (add_left_cancel h)
  · refine pairwise_lt_range.imp_of_mem fun {level level'} hlevel _ hlt => ?_
    refine disjoint_left.2 fun offset hoffset hoffset' => ?_
    obtain ⟨z, hz, rfl⟩ := mem_map.1 hoffset
    obtain ⟨z', -, heq⟩ := mem_map.1 hoffset'
    have hbefore := sliceOffset_lt (mem_range.1 hlevel) (mem_range.1 hz)
    have hle := calculateLevelBytes_mono (levelSizes info) (succ_le_of_lt hlt)
    have hfrom : calculateLevelBytes (levelSizes info) level' ≤ sliceOffset info level' z' :=
      le_add_right _ _
    rw [succ_eq_add_one] at hle
    omega

/-! ### What the upload reads for a slice -/

/-- Whenever `UnswizzleImage` returns, the first byte of the host buffer's slice is the guest's byte at
the offset. -/
def ReadsSlice (info : ImageInfo) (subresource : SubresourceBase) (offset : ℕ) : Prop :=
  ∀ (gpuMemory input output : Span) (gpuAddr inputSize outputSize : ℕ) copies host held,
    unswizzleImage gpuMemory gpuAddr info input inputSize output outputSize = .ret (copies, host) held →
      host (hostPlace info subresource.level 0 0 0 subresource.layer) = input offset

/-- The lists agree with the upload: each slice has one offset of its own, which is the one that
`UnswizzleImage` reads its first texel from. -/
def SlicesAgree (info : ImageInfo) : Prop :=
  ∃ offsets subresources, calculateSliceOffsets info = .ret offsets true ∧
    calculateSliceSubresources info = .ret subresources true ∧ offsets.Nodup ∧
    List.Forall₂ (fun offset subresource => ReadsSlice info subresource offset) offsets subresources

theorem Readable.mono {layer inputSize inputSize' : ℕ} (h : Readable info inputSize level layer)
    (hle : inputSize ≤ inputSize') : Readable info inputSize' level layer :=
  tiledWithin_mono h (Nat.sub_le_sub_right hle _)

/-- Each layer of each level can be read from a guest span that is large enough. -/
theorem exists_readable (info : ImageInfo) : ∃ inputSize, ∀ level < info.resources.levels,
    ∀ layer < info.resources.layers, Readable info inputSize level layer := by
  have hbound : ∀ {P : ℕ → ℕ → Prop}, (∀ {i a b}, P i a → a ≤ b → P i b) → ∀ n,
      (∀ i < n, ∃ a, P i a) → ∃ a, ∀ i < n, P i a := by
    intro P hmono n
    induction n with
    | zero => exact fun _ => ⟨0, fun i hi => absurd hi (not_lt_zero i)⟩
    | succ n ih =>
      intro h
      obtain ⟨a, ha⟩ := ih fun i hi => h i (by omega)
      obtain ⟨b, hb⟩ := h n n.lt_succ_self
      refine ⟨max a b, fun i hi => ?_⟩
      obtain hlt | rfl := Nat.lt_succ_iff_lt_or_eq.1 hi
      · exact hmono (ha i hlt) (le_max_left a b)
      · exact hmono hb (le_max_right a b)
  refine hbound (fun h hle layer hlayer => (h layer hlayer).mono hle) _ fun level _ => ?_
  refine hbound (P := fun layer a => Readable info a level layer) (fun h hle => h.mono hle) _
    fun layer _ => ?_
  refine ⟨guestOffset info level layer + sliceSize (levelBlocks info level).height
    (levelShape info level).height (levelShape info level).depth
    (rowStride (unitBytes info) (levelBlocks info level).width (levelPadding info level)) *
      divCeilLog2 (levelBlocks info level).depth (levelShape info level).depth, ?_⟩
  intro x hx y hy z hz
  rw [Nat.add_sub_cancel_left, tiledOffset_eq (newBpp_spec _ _).1]
  exact digits_lt (lt_of_lt_of_le hx (le_rowStride _ _ _)) hy hz

theorem uploadBytes_le (hspacing : info.tileWidthSpacing = 0) (level : ℕ) :
    uploadBytes info level ≤ calculateLevelSize (makeLevelInfo info) level := by
  have hceil := fun value n m => (le_divCeilLog2_mul value n).trans
    (Nat.mul_le_mul_right (2 ^ n) (le_divCeilLog2_mul (divCeilLog2 value n) m))
  have hx := hceil ((levelBlocks info level).width <<< bytesPerBlockLog2 (bytesPerBlock info.format)) 6
    (tileShift (makeLevelInfo info) level).width
  have hy := hceil (levelBlocks info level).height 3 (tileShift (makeLevelInfo info) level).height
  have hz := le_divCeilLog2_mul (levelBlocks info level).depth (tileShift (makeLevelInfo info) level).depth
  rw [uploadBytes_eq, unitBytes, Nat.one_shiftLeft, ← Nat.shiftLeft_eq, calculateLevelSize_eq hspacing]
  refine (Nat.mul_le_mul (Nat.mul_le_mul hx hy) hz).trans (le_of_eq ?_)
  ring

/-- **The host buffer is no larger than the layers in guest memory.** -/
theorem uploadBase_le (hspacing : info.tileWidthSpacing = 0) (hlevel : level ≤ info.resources.levels) :
    uploadBase info level ≤ calculateLevelBytes (levelSizes info) level * info.resources.layers := by
  induction level with
  | zero => exact Nat.zero_le _
  | succ level ih =>
    rw [uploadBase_succ, calculateLevelBytes_succ, levelSizes, if_pos (by omega), Nat.add_mul]
    exact Nat.add_le_add (ih (Nat.le_of_succ_le hlevel)) (Nat.mul_le_mul_right _ (uploadBytes_le hspacing level))

theorem readsSlice_iff (hlinear : info.type ≠ .linear) (hlevels : info.resources.levels ≤ maxMipLevels)
    (hroom : uploadBase info info.resources.levels < 2 ^ 32) (hlayers : 0 < info.resources.layers) (hlevel : level < info.resources.levels)
    (hz : z < (levelBlocks info level).depth) (offset : ℕ) :
    ReadsSlice info ⟨level, z⟩ offset ↔ offset = readOffset info level 0 0 0 z := by
  obtain ⟨hwidth, hheight, -⟩ := levelBlocks_extents_pos info level
  have hbyte : 0 < (levelBlocks info level).width * unitBytes info := by
    rw [unitBytes, Nat.one_shiftLeft]
    exact Nat.mul_pos hwidth (Nat.two_pow_pos _)
  constructor
  · intro h
    obtain ⟨inputSize, hreadable⟩ := exists_readable info
    -- a guest that has one byte where the upload reads and others everywhere else
    let input : Span := fun i => if i = readOffset info level 0 0 0 z then 1 else 0
    obtain ⟨⟨copies, host⟩, held, hrun, -⟩ :=
      wp_unswizzleImage_readable hlinear hlevels (fun _ => 0) input (fun _ => 0) 0 0 hreadable
    have hfetched := wlp_unswizzleImage_fetched hlinear hlevels _ _ _ hroom _ _ _ _ _ hrun level hlevel 0 hlayers
      0 hbyte 0 hheight z hz
    have hread := (h _ _ _ _ _ _ _ _ _ hrun).symm.trans hfetched
    by_contra hne
    rw [show input offset = 0 from if_neg hne, show input _ = 1 from if_pos rfl] at hread
    exact absurd hread (by decide)
  · rintro rfl gpuMemory input output gpuAddr inputSize outputSize copies host held hrun
    exact wlp_unswizzleImage_fetched hlinear hlevels _ _ _ hroom _ _ _ _ _ hrun level hlevel 0 hlayers
      0 hbyte 0 hheight z hz

/-- With more levels than there is room for an upload does not return. -/
theorem unswizzleImage_fault (hlinear : info.type ≠ .linear) (hlevels : maxMipLevels < info.resources.levels)
    (gpuMemory input output : Span) (gpuAddr inputSize outputSize : ℕ) :
    unswizzleImage gpuMemory gpuAddr info input inputSize output outputSize = .fault := by
  have hsizes : calculateLevelSizes (makeLevelInfo info) info.resources.levels = .fault := by
    rw [calculateLevelSizes, if_neg (not_le.2 hlevels)]
    rfl
  rw [unswizzleImage, if_neg hlinear]
  show (calculateLevelSizes (makeLevelInfo info) info.resources.levels >>= _) = _
  rw [hsizes]
  rfl

/-- The blocks of the upload are those of the list, or there is one level and the rows of the image have
room in half of its blocks. -/
def HighBlocks (info : ImageInfo) : Prop :=
  info.resources.levels = 1 ∧ 0 < info.block.height ∧
    divCeil (max info.size.height 1) (defaultBlockHeight info.format) ≤ 8 <<< (info.block.height - 1)

instance (info : ImageInfo) : Decidable (HighBlocks info) :=
  inferInstanceAs (Decidable (_ ∧ _ ∧ _))

theorem tileShift_single (info : LevelInfo) (h : info.numLevels = 1) : tileShift info 0 = info.block :=
  if_pos ⟨rfl, h⟩

theorem tileShift_many (info : LevelInfo) (h : ¬(level = 0 ∧ info.numLevels = 1)) :
    (tileShift info level).height = shrinkBlock gobSizeY (numLevelBlocks info level).height info.block.height ∧
      (tileShift info level).depth = shrinkBlock gobSizeZ (numLevelBlocks info level).depth info.block.depth := by
  rw [tileShift, if_neg h]
  exact ⟨adjustTileShift_eq, adjustTileShift_eq⟩

/-- The depth of the blocks is the same, be there one level or more. -/
theorem levelShape_depth (info : ImageInfo) (level : ℕ) :
    (levelShape info level).depth = (tileShift (makeLevelInfo info) level).depth := by
  show (if level = 0 ∧ info.resources.levels = 1 then info.block.depth
    else adjustMipBlockShift gobSizeZ _ info.block.depth level) = _
  by_cases h : level = 0 ∧ info.resources.levels = 1
  · rw [if_pos h]
    obtain ⟨rfl, hone⟩ := h
    exact (congrArg Extent3D.depth (tileShift_single (makeLevelInfo info) hone)).symm
  · rw [if_neg h, adjustMipBlockShift_eq]
    exact (tileShift_many (makeLevelInfo info) h).2.symm

/-- So is their height, if there is more than one level. -/
theorem levelShape_height (info : ImageInfo) (level : ℕ) :
    (levelShape info level).height = shrinkBlock gobSizeY (levelBlocks info level).height info.block.height ∧
      (tileShift (makeLevelInfo info) level).height = if level = 0 ∧ info.resources.levels = 1 then info.block.height
        else shrinkBlock gobSizeY (levelBlocks info level).height info.block.height := by
  refine ⟨adjustMipBlockShift_eq, ?_⟩
  split
  · next h =>
    obtain ⟨rfl, hone⟩ := h
    exact congrArg Extent3D.height (tileShift_single (makeLevelInfo info) hone)
  · next h => exact (tileShift_many (makeLevelInfo info) h).1

/-- **The slices are listed where they are** unless the blocks are too high for a single level. -/
theorem sliceOffset_eq_readOffset (hwidth : info.block.width = 0)
    (hspacing : info.tileWidthSpacing = 0) (h : ¬HighBlocks info) (level z : ℕ) :
    sliceOffset info level z = readOffset info level 0 0 0 z := by
  obtain ⟨hshape, hshift⟩ := levelShape_height info level
  have hheight : (tileShift (makeLevelInfo info) level).height = (levelShape info level).height := by
    rw [hshift, hshape]
    split
    · next hsingle =>
      obtain ⟨rfl, hone⟩ := hsingle
      refine (shrinkBlock_eq_iff.2 ?_).symm
      by_contra hhigh
      obtain ⟨hblock, hrows⟩ := not_or.1 hhigh
      exact h ⟨hone, Nat.pos_of_ne_zero hblock, Nat.le_of_not_lt hrows⟩
    · rfl
  rw [sliceOffset, readOffset_eq hspacing, levelTiles_eq hwidth hspacing, hheight, levelShape_depth]

/-- **With blocks too high for a single level the second slice is not.** -/
theorem sliceOffset_ne_readOffset (hwidth : info.block.width = 0)
    (hspacing : info.tileWidthSpacing = 0) (h : HighBlocks info) :
    sliceOffset info 0 1 ≠ readOffset info 0 0 0 0 1 := by
  obtain ⟨hone, hblock, hrows⟩ := h
  obtain ⟨hshape, hshift⟩ := levelShape_height info 0
  have hlt : shrinkBlock gobSizeY (levelBlocks info 0).height info.block.height < info.block.height := by
    refine lt_of_le_of_ne shrinkBlock_le fun heq => ?_
    obtain hzero | hlt := shrinkBlock_eq_iff.1 heq
    · omega
    · exact absurd hlt (not_lt.2 hrows)
  have hgobs := levelTiles_width_pos info 0
  rw [levelTiles_eq hwidth hspacing] at hgobs
  rw [sliceOffset, readOffset_eq hspacing, levelTiles_eq hwidth hspacing, hshape, hshift, if_pos ⟨rfl, hone⟩,
    levelShape_depth]
  exact fun heq => gobOffset_ne hgobs (levelBlocks_extents_pos info 0).2.1 hlt
    (shrinkBlock_fits hlt) (add_left_cancel heq)

/-- A list of offsets slice by slice goes along the list of slices. -/
theorem flatMap_slices :
    ((range levels).flatMap fun level => (range (depth level)).map (offset level)) =
      ((range levels).flatMap fun level => (range (depth level)).map fun slice =>
        SubresourceBase.mk level slice).map fun subresource => offset subresource.level subresource.layer := by
  simp only [map_flatMap, map_map, Function.comp_def]

theorem mem_slices {subresource : SubresourceBase} :
    subresource ∈ ((range levels).flatMap fun level => (range (depth level)).map fun slice =>
        SubresourceBase.mk level slice) ↔
      subresource.level < levels ∧ subresource.layer < depth subresource.level := by
  obtain ⟨level, slice⟩ := subresource
  simp only [mem_flatMap, mem_map, mem_range, SubresourceBase.mk.injEq]
  constructor
  · rintro ⟨level, hlevel, slice, hslice, rfl, rfl⟩
    exact ⟨hlevel, hslice⟩
  · rintro ⟨hlevel, hslice⟩
    exact ⟨level, hlevel, slice, hslice, rfl, rfl⟩

theorem forall₂_slices {P : ℕ → SubresourceBase → Prop} :
    List.Forall₂ P ((range levels).flatMap fun level => (range (depth level)).map (offset level))
        ((range levels).flatMap fun level => (range (depth level)).map fun slice => ⟨level, slice⟩) ↔
      ∀ level < levels, ∀ slice < depth level, P (offset level slice) ⟨level, slice⟩ := by
  rw [flatMap_slices, forall₂_map_left_iff, forall₂_same]
  constructor
  · intro h level hlevel slice hslice
    exact h ⟨level, slice⟩ (mem_slices.2 ⟨hlevel, hslice⟩)
  · intro h subresource hmem
    obtain ⟨hlevel, hslice⟩ := mem_slices.1 hmem
    exact h _ hlevel _ hslice

/-- **The slices are listed where the upload reads them**, each at an offset of its own, unless there is
one level, of more than one slice, and half a block has room for all its rows.  This is so for images of
fewer than `2 ^ 32` bytes; the offsets of larger ones wrap around. -/
theorem slicesAgree_iff (h3D : info.type = .e3D) (hlayers : 0 < info.resources.layers)
    (hwidth : info.block.width = 0) (hspacing : info.tileWidthSpacing = 0)
    (hbytes : calculateLevelBytes (levelSizes info) info.resources.levels * info.resources.layers < 2 ^ 32) :
    SlicesAgree info ↔ ¬(HighBlocks info ∧ 1 < info.size.depth) := by
  have hlinear : info.type ≠ .linear := by simp [h3D]
  have hroom : uploadBase info info.resources.levels < 2 ^ 32 := (uploadBase_le hspacing le_rfl).trans_lt hbytes
  rw [SlicesAgree, calculateSliceOffsets_eq h3D ((Nat.le_mul_of_pos_right _ hlayers).trans_lt hbytes),
    calculateSliceSubresources_eq h3D]
  constructor
  · rintro ⟨offsets, subresources, hoffsets, hsubresources, -, hreads⟩ ⟨hhigh, hdepth⟩
    cases hoffsets
    cases hsubresources
    have hlevel : 0 < info.resources.levels := by
      rw [hhigh.1]
      exact Nat.one_pos
    have hslice : 1 < (levelBlocks info 0).depth := lt_max_of_lt_left hdepth
    have hlevels : info.resources.levels ≤ maxMipLevels := by
      rw [hhigh.1]
      decide
    exact sliceOffset_ne_readOffset hwidth hspacing hhigh ((readsSlice_iff hlinear hlevels hroom hlayers hlevel hslice _).1
      (forall₂_slices.1 hreads 0 hlevel 1 hslice))
  · intro h
    refine ⟨_, _, rfl, rfl, sliceOffsets_nodup info,
      forall₂_slices.2 fun level hlevel slice hslice => ?_⟩
    by_cases hlevels : info.resources.levels ≤ maxMipLevels
    · rw [readsSlice_iff hlinear hlevels hroom hlayers hlevel hslice]
      by_cases hhigh : HighBlocks info
      · -- one level of one slice, which is the first one whatever the blocks
        obtain rfl : level = 0 := by
          have := hhigh.1
          omega
        have hone : (levelBlocks info 0).depth = max info.size.depth 1 := rfl
        have hdepth : ¬1 < info.size.depth := fun hdepth => h ⟨hhigh, hdepth⟩
        obtain rfl : slice = 0 := by omega
        rw [sliceOffset, readOffset_eq hspacing]
        simp [gobOffset]
      · exact sliceOffset_eq_readOffset hwidth hspacing hhigh level slice
    · intro gpuMemory input output gpuAddr inputSize outputSize copies host held hrun
      rw [unswizzleImage_fault hlinear (Nat.lt_of_not_le hlevels)] at hrun
      cases hrun

/-- An image of 16 by 8 texels and 2 slices, with blocks of two GOBs. -/
def lowImage (levels : ℕ) : ImageInfo where
  format := .a8b8g8r8Unorm
  type := .e3D
  resources := ⟨levels, 1⟩
  size := ⟨16, 8, 2⟩
  block := ⟨0, 1, 0⟩
  pitch := 0
  layerStride := 0
  tileWidthSpacing := 0

/-- With two levels the slices are listed where they are. -/
theorem slicesAgree_lowImage : SlicesAgree (lowImage 2) :=
  (slicesAgree_iff rfl (by decide) rfl rfl (by decide)).2 (by decide)

/-- With one level the second slice is listed a block further on than the upload reads it from. -/
theorem not_slicesAgree_lowImage :
    calculateSliceOffsets (lowImage 1) = .ret [0, 1024] true ∧ readOffset (lowImage 1) 0 0 0 0 1 = 512 ∧
      ¬SlicesAgree (lowImage 1) := by
  have hoffsets : calculateSliceOffsets (lowImage 1) = .ret [0, 1024] true := by decide +kernel
  have hread : readOffset (lowImage 1) 0 0 0 0 1 = 512 := by decide +kernel
  refine ⟨hoffsets, hread, ?_⟩
  rintro ⟨offsets, subresources, hoffsets', hsubresources, -, hreads⟩
  rw [hoffsets] at hoffsets'
  cases hoffsets'
  cases hsubresources
  obtain ⟨-, hreads⟩ := List.forall₂_cons.1 hreads
  have hsecond := (readsSlice_iff (by decide) (by decide) (by decide) (by decide) (by decide) (by decide) _).1
    (List.forall₂_cons.1 hreads).1
  rw [hread] at hsecond
  exact absurd hsecond (by decide)

end VideoCommon
end NXEmu
