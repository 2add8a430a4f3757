/-
# Images and their subresources

`src/yuzu_video_core/texture_cache/image_base.cpp`: an `ImageBase` keeps where its levels are in a layer,
or where its slices are when it is a 3D image, and `TryFindBase` finds the subresource at an address from
these.

The difference of the addresses is taken modulo 2^32, and a layer is accepted when it is not above the
number of layers.  So an address above the image by 2^32 or more may be taken for one in it, and the end
of an image whose layers fill it is taken for one more layer (`tryFindBase_iff`).

Sizes and offsets are numbers, but for that difference.
-/

import NXEmu.VideoCore.TextureCacheSlices

namespace NXEmu
namespace VideoCommon

open Common VideoCore.Surface Tegra.Texture List Nat

/-- `CalculateMipLevelOffsets`, an array of `MAX_MIP_LEVELS` offsets. -/
def calculateMipLevelOffsets (info : ImageInfo) : Exec (ℕ → ℕ) :=
  if info.type = .linear then return fun _ => 0
  else do
    Exec.assert (info.resources.levels ≤ maxMipLevels)
    if info.resources.levels ≤ maxMipLevels then
      let levelInfo := makeLevelInfo info
      let state := (List.range info.resources.levels).foldl (fun (state : (ℕ → ℕ) × ℕ) level =>
        (Function.update state.1 level state.2, state.2 + calculateLevelSize levelInfo level))
        (fun _ => 0, 0)
      return state.1
    else .fault

/-- `ImageCopy`. -/
structure ImageCopy where
  srcSubresource : SubresourceLayers
  dstSubresource : SubresourceLayers
  srcOffset : Offset3D
  dstOffset : Offset3D
  extent : Extent3D
deriving DecidableEq

/-- `AliasedImage`.  An image is known by its number. -/
structure AliasedImage where
  copies : List ImageCopy
  id : ℕ

/-- `ImageBase`, as far as `TryFindBase` and `AddImageAlias` read or write it. -/
structure ImageBase where
  info : ImageInfo
  guestSizeBytes : ℕ
  gpuAddr : ℕ
  mipLevelOffsets : ℕ → ℕ
  sliceOffsets : List ℕ
  sliceSubresources : List SubresourceBase
  aliasedImages : List AliasedImage := []
  isRescalable : Bool := false

namespace ImageBase

/-- The constructor of `ImageBase`. -/
def make (info : ImageInfo) (gpuAddr : ℕ) : Exec ImageBase := do
  let guestSizeBytes ← calculateGuestSizeInBytes info
  let mipLevelOffsets ← calculateMipLevelOffsets info
  if info.type = .e3D then
    let sliceOffsets ← calculateSliceOffsets info
    let sliceSubresources ← calculateSliceSubresources info
    return { info, guestSizeBytes, gpuAddr, mipLevelOffsets, sliceOffsets, sliceSubresources }
  else
    return { info, guestSizeBytes, gpuAddr, mipLevelOffsets, sliceOffsets := [], sliceSubresources := [] }

/-- `LayerMipOffset`. -/
def layerMipOffset (diff layerStride : ℕ) : ℕ × ℕ :=
  if layerStride = 0 then (0, diff) else (diff / layerStride, diff % layerStride)

/-- `ImageBase::TryFindBase`: the layer and the level that begin at an address. -/
def tryFindBase (image : ImageBase) (otherAddr : ℕ) : Option SubresourceBase :=
  -- Subresource address can't be lower than the base
  if otherAddr < image.gpuAddr then none
  else
    let diff := (otherAddr - image.gpuAddr) % 2 ^ 32
    if image.guestSizeBytes < diff then none
    else if image.info.type ≠ .e3D then
      let (layer, mipOffset) := layerMipOffset diff image.info.layerStride
      let it := (List.range image.info.resources.levels).find? fun level =>
        image.mipLevelOffsets level == mipOffset
      match it with
      | none => none
      | some level => if image.info.resources.layers < layer then none else some ⟨level, layer⟩
    else
      match image.sliceOffsets.findIdx? (· == diff) with
      | none => none
      | some i => image.sliceSubresources[i]?

end ImageBase

variable {info : ImageInfo} {image : ImageBase} {level layer gpuAddr : ℕ} {sub : SubresourceBase}

/-! ### What an image is built from -/

/-- The guest bytes of one layer of an image. -/
def oneLayerBytes (info : ImageInfo) : ℕ :=
  if info.type = .buffer then info.size.width * bytesPerBlock info.format
  else if info.type = .linear then info.pitch * divCeil info.size.height (defaultBlockHeight info.format)
  else calculateLevelBytes (levelSizes info) info.resources.levels

/-- The guest bytes of an image. -/
def guestBytes (info : ImageInfo) : ℕ :=
  if 1 < info.resources.layers then info.layerStride * info.resources.layers else oneLayerBytes info

/-- What the constructors of `ImageInfo` see to: there is a level and a layer, only block-linear images
have more, the slices of a 3D image are no layers, and the layers of an array do not overlap. -/
structure ImageInfo.Valid (info : ImageInfo) : Prop where
  levels_pos : 0 < info.resources.levels
  levels_le : info.resources.levels ≤ maxMipLevels
  layers_pos : 0 < info.resources.layers
  flat : info.type = .linear ∨ info.type = .buffer → info.resources = ⟨1, 1⟩
  volume : info.type = .e3D → info.resources.layers = 1
  stride : info.type ≠ .e3D →
    if info.layerStride = 0 then info.resources.layers = 1 else oneLayerBytes info ≤ info.layerStride
  guestBytes_lt : guestBytes info < 2 ^ 32

/-- An image as the constructor of `ImageBase` leaves it. -/
structure ImageBase.Built (image : ImageBase) : Prop where
  valid : image.info.Valid
  guestSizeBytes : image.guestSizeBytes = guestBytes image.info
  mipLevelOffsets : ∀ level < image.info.resources.levels, image.mipLevelOffsets level =
    if image.info.type = .linear then 0 else calculateLevelBytes (levelSizes image.info) level
  slices : image.info.type = .e3D →
    image.sliceOffsets = ((List.range image.info.resources.levels).flatMap fun level =>
        (List.range (levelBlocks image.info level).depth).map (sliceOffset image.info level)) ∧
      image.sliceSubresources = (List.range image.info.resources.levels).flatMap fun level =>
        (List.range (levelBlocks image.info level).depth).map fun slice => ⟨level, slice⟩

theorem calculateGuestSizeInBytes_eq (h : info.Valid) :
    calculateGuestSizeInBytes info = .ret (guestBytes info) true := by
  unfold calculateGuestSizeInBytes guestBytes oneLayerBytes
  have hbytes := h.guestBytes_lt
  unfold guestBytes oneLayerBytes at hbytes
  by_cases hbuffer : info.type = .buffer
  · have hlayers : info.resources.layers = 1 := by rw [h.flat (.inr hbuffer)]
    simpa [hbuffer, hlayers] using hbytes
  by_cases hlinear : info.type = .linear
  · have hlayers : info.resources.layers = 1 := by rw [h.flat (.inl hlinear)]
    simpa [hlinear, hlayers] using hbytes
  by_cases hlayers : 1 < info.resources.layers
  · have h3D : info.type ≠ .e3D := fun h3D => by
      rw [h.volume h3D] at hlayers
      exact absurd hlayers (by decide)
    have hstride : info.layerStride ≠ 0 := fun hzero => by
      have hone := h.stride h3D
      rw [if_pos hzero] at hone
      omega
    simpa [hbuffer, hlinear, hlayers, hstride, Exec.assert] using hbytes
  · simpa [hbuffer, hlinear, hlayers, calculateLayerSize, calculateLevelOffset_eq, Exec.assert] using hbytes

theorem calculateMipLevelOffsets_eq (h : info.Valid) :
    ∃ offsets, calculateMipLevelOffsets info = .ret offsets true ∧
      ∀ level < info.resources.levels, offsets level =
        if info.type = .linear then 0 else calculateLevelBytes (levelSizes info) level := by
  unfold calculateMipLevelOffsets
  by_cases hlinear : info.type = .linear
  · exact ⟨_, if_pos hlinear, fun level _ => (if_pos hlinear).symm⟩
  have hloop : ∀ n ≤ info.resources.levels,
      let state := (range n).foldl (fun (state : (ℕ → ℕ) × ℕ) level =>
        (Function.update state.1 level state.2, state.2 + calculateLevelSize (makeLevelInfo info) level))
        (fun _ => 0, 0)
      state.2 = calculateLevelBytes (levelSizes info) n ∧
        ∀ level < n, state.1 level = calculateLevelBytes (levelSizes info) level := by
    intro n
    induction n with
    | zero => exact fun _ => ⟨rfl, fun level hlevel => absurd hlevel (not_lt_zero level)⟩
    | succ n ih =>
      intro hn
      obtain ⟨hoffset, hstored⟩ := ih (by omega)
      simp only [range_succ, foldl_append, foldl_cons, foldl_nil]
      refine ⟨?_, fun level hlevel => ?_⟩
      · rw [hoffset, calculateLevelBytes_succ, levelSizes, if_pos (by omega)]
      · obtain hlt | rfl := Nat.lt_succ_iff_lt_or_eq.1 hlevel
        · rw [Function.update_of_ne hlt.ne, hstored level hlt]
        · rw [Function.update_self, hoffset]
  rw [if_neg hlinear, Exec.assert, decide_eq_true h.levels_le, Exec.ret_true_bind, if_pos h.levels_le]
  exact ⟨_, rfl, fun level hlevel => ((hloop _ le_rfl).2 level hlevel).trans (if_neg hlinear).symm⟩

/-- **A valid `ImageInfo` makes an image.** -/
theorem ImageBase.make_built (h : info.Valid) (gpuAddr : ℕ) :
    ∃ image, ImageBase.make info gpuAddr = .ret image true ∧ image.Built ∧ image.info = info ∧
      image.gpuAddr = gpuAddr := by
  obtain ⟨offsets, hrun, hoffsets⟩ := calculateMipLevelOffsets_eq h
  rw [make, calculateGuestSizeInBytes_eq h, Exec.ret_true_bind, hrun, Exec.ret_true_bind]
  by_cases h3D : info.type = .e3D
  · have hbytes : calculateLevelBytes (levelSizes info) info.resources.levels < 2 ^ 32 := by
      simpa [guestBytes, oneLayerBytes, h.volume h3D, h3D] using h.guestBytes_lt
    rw [if_pos h3D, calculateSliceOffsets_eq h3D hbytes, Exec.ret_true_bind, calculateSliceSubresources_eq h3D]
    exact ⟨_, rfl, ⟨h, rfl, hoffsets, fun _ => ⟨rfl, rfl⟩⟩, rfl, rfl⟩
  · rw [if_neg h3D]
    exact ⟨_, rfl, ⟨h, rfl, hoffsets, fun h3D' => absurd h3D' h3D⟩, rfl, rfl⟩

/-! ### Where subresources are -/

namespace ImageBase

/-- The layers of a level, or the slices when the image is a 3D image. -/
def layersOf (image : ImageBase) (level : ℕ) : ℕ :=
  if image.info.type = .e3D then adjustMipSize image.info.size.depth level else image.info.resources.layers

/-- The offset of a subresource. -/
def offset (image : ImageBase) (sub : SubresourceBase) : ℕ :=
  if image.info.type = .e3D then sliceOffset image.info sub.level sub.layer
  else sub.layer * image.info.layerStride + image.mipLevelOffsets sub.level

/-- A subresource of the image. -/
def Has (image : ImageBase) (sub : SubresourceBase) : Prop :=
  sub.level < image.info.resources.levels ∧ sub.layer < image.layersOf sub.level

/-- A subresource of the image is at an address. -/
def HasAt (image : ImageBase) (sub : SubresourceBase) (addr : ℕ) : Prop :=
  image.Has sub ∧ addr = image.gpuAddr + image.offset sub

/-- The end of an image whose layers fill it. -/
def End (image : ImageBase) (diff : ℕ) : Prop :=
  image.info.type ≠ .e3D ∧ image.info.layerStride ≠ 0 ∧
    diff = image.info.resources.layers * image.info.layerStride ∧ diff ≤ image.guestSizeBytes

end ImageBase

theorem calculateLevelBytes_lt (hlevel : level < info.resources.levels) :
    calculateLevelBytes (levelSizes info) level < calculateLevelBytes (levelSizes info) (level + 1) :=
  lt_of_le_of_lt (le_add_right _ _) (sliceOffset_lt hlevel (levelBlocks_extents_pos info level).2.2)

theorem calculateLevelBytes_injective {level' : ℕ} (hlevel : level < info.resources.levels)
    (hlevel' : level' < info.resources.levels)
    (h : calculateLevelBytes (levelSizes info) level = calculateLevelBytes (levelSizes info) level') :
    level = level' := by
  by_contra hne
  obtain hlt | hlt := lt_or_gt_of_ne hne
  · have hstep := calculateLevelBytes_lt hlevel
    have hle := calculateLevelBytes_mono (levelSizes info) (succ_le_of_lt hlt)
    rw [succ_eq_add_one] at hle
    omega
  · have hstep := calculateLevelBytes_lt hlevel'
    have hle := calculateLevelBytes_mono (levelSizes info) (succ_le_of_lt hlt)
    rw [succ_eq_add_one] at hle
    omega

namespace ImageBase

/-- No two levels have one offset. -/
theorem Built.mipLevelOffsets_injective (h : image.Built) {level' : ℕ}
    (hlevel : level < image.info.resources.levels) (hlevel' : level' < image.info.resources.levels)
    (heq : image.mipLevelOffsets level = image.mipLevelOffsets level') : level = level' := by
  by_cases hlinear : image.info.type = .linear
  · rw [h.valid.flat (.inl hlinear)] at hlevel hlevel'
    dsimp only at hlevel hlevel'
    omega
  · rw [h.mipLevelOffsets _ hlevel, h.mipLevelOffsets _ hlevel', if_neg hlinear, if_neg hlinear] at heq
    exact calculateLevelBytes_injective hlevel hlevel' heq

/-- The levels are in a layer. -/
theorem Built.mipLevelOffsets_le (h : image.Built) (hlevel : level < image.info.resources.levels) :
    image.mipLevelOffsets level ≤ oneLayerBytes image.info ∧
      (image.info.type ≠ .linear → image.info.type ≠ .buffer →
        image.mipLevelOffsets level < oneLayerBytes image.info) ∧
      (image.info.type = .linear ∨ image.info.type = .buffer → image.mipLevelOffsets level = 0) := by
  have hflat : image.info.type = .linear ∨ image.info.type = .buffer → image.mipLevelOffsets level = 0 := by
    intro hflat
    have hzero : level = 0 := by
      rw [h.valid.flat hflat] at hlevel
      exact lt_one_iff.1 hlevel
    rw [h.mipLevelOffsets _ hlevel, hzero]
    split <;> rfl
  by_cases hkind : image.info.type = .linear ∨ image.info.type = .buffer
  · refine ⟨?_, fun hlinear hbuffer => absurd hkind (by simp [hlinear, hbuffer]), hflat⟩
    rw [hflat hkind]
    exact zero_le _
  · obtain ⟨hlinear, hbuffer⟩ := not_or.1 hkind
    have hlt : image.mipLevelOffsets level < oneLayerBytes image.info := by
      rw [h.mipLevelOffsets _ hlevel, if_neg hlinear, oneLayerBytes, if_neg hbuffer, if_neg hlinear]
      exact lt_of_lt_of_le (calculateLevelBytes_lt hlevel)
        (calculateLevelBytes_mono _ (succ_le_of_lt hlevel))
    exact ⟨hlt.le, fun _ _ => hlt, hflat⟩

/-- With a stride each level is before the next layer, and the image is within its layers. -/
theorem Built.lt_layerStride (h : image.Built) (h3D : image.info.type ≠ .e3D)
    (hstride : image.info.layerStride ≠ 0) :
    (∀ level < image.info.resources.levels, image.mipLevelOffsets level < image.info.layerStride) ∧
      image.guestSizeBytes ≤ image.info.resources.layers * image.info.layerStride := by
  have hlayer := h.valid.stride h3D
  rw [if_neg hstride] at hlayer
  constructor
  · intro level hlevel
    obtain ⟨-, hlt, hzero⟩ := h.mipLevelOffsets_le hlevel
    by_cases hkind : image.info.type = .linear ∨ image.info.type = .buffer
    · rw [hzero hkind]
      exact pos_of_ne_zero hstride
    · obtain ⟨hlinear, hbuffer⟩ := not_or.1 hkind
      exact (hlt hlinear hbuffer).trans_le hlayer
  · rw [h.guestSizeBytes, guestBytes]
    split
    · exact le_of_eq (mul_comm _ _)
    · exact hlayer.trans (Nat.le_mul_of_pos_left _ h.valid.layers_pos)

/-- **The subresources are in the image.** -/
theorem Built.offset_le (h : image.Built) (hsub : image.Has sub) :
    image.offset sub ≤ image.guestSizeBytes := by
  obtain ⟨hlevel, hlayer⟩ := hsub
  rw [h.guestSizeBytes, guestBytes]
  unfold offset
  by_cases h3D : image.info.type = .e3D
  · have hslice : sub.layer < (levelBlocks image.info sub.level).depth := by
      rwa [layersOf, if_pos h3D] at hlayer
    have hlt := sliceOffset_lt hlevel hslice
    have hle := calculateLevelBytes_mono (levelSizes image.info) (succ_le_of_lt hlevel)
    have hone : oneLayerBytes image.info =
        calculateLevelBytes (levelSizes image.info) image.info.resources.levels := by
      simp [oneLayerBytes, h3D]
    rw [if_pos h3D, h.valid.volume h3D, if_neg (lt_irrefl 1), hone]
    exact hlt.le.trans hle
  · rw [layersOf, if_neg h3D] at hlayer
    obtain ⟨hle, -⟩ := h.mipLevelOffsets_le hlevel
    have hstride := h.valid.stride h3D
    rw [if_neg h3D]
    by_cases hlayers : 1 < image.info.resources.layers
    · have hne : image.info.layerStride ≠ 0 := fun hzero => by
        rw [if_pos hzero] at hstride
        omega
      rw [if_neg hne] at hstride
      rw [if_pos hlayers]
      calc sub.layer * image.info.layerStride + image.mipLevelOffsets sub.level
          ≤ sub.layer * image.info.layerStride + image.info.layerStride :=
            Nat.add_le_add_left (hle.trans hstride) _
        _ = image.info.layerStride * (sub.layer + 1) := by ring
        _ ≤ image.info.layerStride * image.info.resources.layers := mul_le_mul_left _ hlayer
    · have hzero : sub.layer = 0 := by omega
      rw [if_neg hlayers, hzero, zero_mul, zero_add]
      exact hle

/-! ### Searching -/

theorem find?_eq_some_iff {α : Type} {l : List α} {f : α → ℕ} {a : α} {d : ℕ}
    (hinj : ∀ a ∈ l, ∀ b ∈ l, f a = f b → a = b) :
    l.find? (fun a => f a == d) = some a ↔ a ∈ l ∧ f a = d := by
  constructor
  · intro h
    exact ⟨mem_of_find?_eq_some h, by simpa using find?_some h⟩
  · rintro ⟨ha, rfl⟩
    cases hfind : l.find? fun b => f b == f a with
    | none =>
      have hnone := find?_eq_none.1 hfind a ha
      simp at hnone
    | some b =>
      have hb : f b = f a := by simpa using find?_some hfind
      rw [hinj b (mem_of_find?_eq_some hfind) a ha hb]

theorem findIdx?_map_eq (l : List SubresourceBase) (f : SubresourceBase → ℕ) (d : ℕ) :
    (match (l.map f).findIdx? (· == d) with
      | none => none
      | some i => l[i]?) = l.find? fun a => f a == d := by
  induction l with
  | nil => rfl
  | cons a l ih =>
    rw [map_cons, findIdx?_cons, find?_cons, ← ih]
    cases hd : f a == d with
    | true => rfl
    | false => cases (l.map f).findIdx? (· == d) <;> rfl

theorem Built.find_slice (h : image.Built) (h3D : image.info.type = .e3D) (diff : ℕ) :
    (match image.sliceOffsets.findIdx? (· == diff) with
      | none => none
      | some i => image.sliceSubresources[i]?) = some sub ↔ image.Has sub ∧ image.offset sub = diff := by
  obtain ⟨hoffsets, hsubresources⟩ := h.slices h3D
  have hnodup := sliceOffsets_nodup image.info
  rw [flatMap_slices] at hoffsets hnodup
  rw [← hsubresources] at hoffsets hnodup
  rw [hoffsets, findIdx?_map_eq, find?_eq_some_iff fun a ha b hb => inj_on_of_nodup_map hnodup ha hb,
    hsubresources, mem_slices, Has, layersOf, offset, if_pos h3D, if_pos h3D]
  rfl

theorem Built.find_level (h : image.Built) (h3D : image.info.type ≠ .e3D) {diff : ℕ}
    (hsize : diff ≤ image.guestSizeBytes) :
    (match (range image.info.resources.levels).find? fun level =>
        image.mipLevelOffsets level == (layerMipOffset diff image.info.layerStride).2 with
      | none => none
      | some level =>
        if image.info.resources.layers < (layerMipOffset diff image.info.layerStride).1 then none
        else some ⟨level, (layerMipOffset diff image.info.layerStride).1⟩) = some sub ↔
      (image.Has sub ∧ image.offset sub = diff) ∨
        (image.End diff ∧ sub = ⟨0, image.info.resources.layers⟩) := by
  have hfind : ∀ m level, ((range image.info.resources.levels).find? fun level =>
      image.mipLevelOffsets level == m) = some level ↔
        level < image.info.resources.levels ∧ image.mipLevelOffsets level = m := fun m level =>
    (find?_eq_some_iff fun a ha b hb heq =>
      h.mipLevelOffsets_injective (mem_range.1 ha) (mem_range.1 hb) heq).trans
      (and_congr_left' mem_range)
  have hmatch : ∀ layer m, (match (range image.info.resources.levels).find? fun level =>
        image.mipLevelOffsets level == m with
      | none => none
      | some level => if image.info.resources.layers < layer then none else some ⟨level, layer⟩) = some sub ↔
      sub.level < image.info.resources.levels ∧ image.mipLevelOffsets sub.level = m ∧
        layer ≤ image.info.resources.layers ∧ sub.layer = layer := by
    intro layer m
    obtain ⟨level, layer'⟩ := sub
    dsimp only
    rw [← and_assoc, ← hfind]
    cases (range image.info.resources.levels).find? fun level => image.mipLevelOffsets level == m with
    | none => simp
    | some found =>
      by_cases hlayer : image.info.resources.layers < layer
      · simp [hlayer]
      · simp [hlayer, Nat.le_of_not_lt hlayer, eq_comm]
  rw [hmatch, Has, layersOf, if_neg h3D, offset, if_neg h3D, layerMipOffset]
  by_cases hstride : image.info.layerStride = 0
  · -- all levels are in the one layer
    have hone := h.valid.stride h3D
    rw [if_pos hstride] at hone
    have hend : ¬image.End diff := fun hend => hend.2.1 hstride
    rw [if_pos hstride, hone, hstride]
    simp only [hend, false_and, or_false, mul_zero, zero_add]
    constructor
    · rintro ⟨hlevel, hoffset, -, hlayer⟩
      exact ⟨⟨hlevel, by omega⟩, hoffset⟩
    · rintro ⟨⟨hlevel, hlayer⟩, hoffset⟩
      exact ⟨hlevel, hoffset, by omega, by omega⟩
  · obtain ⟨hlt, hguest⟩ := h.lt_layerStride h3D hstride
    have hpos : 0 < image.info.layerStride := pos_of_ne_zero hstride
    have hfirst : image.mipLevelOffsets 0 = 0 := by
      rw [h.mipLevelOffsets 0 h.valid.levels_pos]
      split <;> rfl
    rw [if_neg hstride]
    dsimp only
    constructor
    · rintro ⟨hlevel, hoffset, hlayer, heq⟩
      have hdiff : sub.layer * image.info.layerStride + image.mipLevelOffsets sub.level = diff := by
        rw [heq, hoffset, div_add_mod']
      obtain hlayer | hlayer := lt_or_eq_of_le hlayer
      · exact .inl ⟨⟨hlevel, by omega⟩, hdiff⟩
      · rw [heq, hlayer] at hdiff
        have hzero : image.mipLevelOffsets sub.level = image.mipLevelOffsets 0 := by omega
        have hlevel' := h.mipLevelOffsets_injective hlevel h.valid.levels_pos hzero
        refine .inr ⟨⟨h3D, hstride, by omega, hsize⟩, ?_⟩
        cases sub
        simp_all
    · rintro (⟨⟨hlevel, hlayer⟩, rfl⟩ | ⟨⟨-, -, hdiff, -⟩, rfl⟩)
      · have hdiv : (sub.layer * image.info.layerStride + image.mipLevelOffsets sub.level) /
            image.info.layerStride = sub.layer := by
          rw [add_comm, add_mul_div_right _ _ hpos, div_eq_of_lt (hlt _ hlevel), zero_add]
        rw [hdiv, mul_add_mod_self_right, mod_eq_of_lt (hlt _ hlevel)]
        exact ⟨hlevel, rfl, hlayer.le, rfl⟩
      · rw [hdiff, Nat.mul_div_cancel _ hpos, Nat.mul_mod_left]
        exact ⟨h.valid.levels_pos, hfirst, le_rfl, rfl⟩

/-- **What `TryFindBase` finds**: the subresource at the truncated difference, and at the end of an image
whose layers fill it one layer more. -/
theorem Built.tryFindBase_eq_some (h : image.Built) {addr : ℕ} (haddr : image.gpuAddr ≤ addr) :
    image.tryFindBase addr = some sub ↔
      (image.Has sub ∧ image.offset sub = (addr - image.gpuAddr) % 2 ^ 32) ∨
        (image.End ((addr - image.gpuAddr) % 2 ^ 32) ∧ sub = ⟨0, image.info.resources.layers⟩) := by
  rw [tryFindBase, if_neg (not_lt.2 haddr)]
  generalize (addr - image.gpuAddr) % 2 ^ 32 = diff
  dsimp only
  by_cases hsize : image.guestSizeBytes < diff
  · rw [if_pos hsize]
    refine iff_of_false (by simp) ?_
    rintro (⟨hsub, hoffset⟩ | ⟨hend, -⟩)
    · have hle := h.offset_le hsub
      omega
    · exact absurd hend.2.2.2 (not_le.2 hsize)
  rw [if_neg hsize]
  by_cases h3D : image.info.type = .e3D
  · rw [if_neg (not_not.2 h3D), h.find_slice h3D]
    exact (or_iff_left fun hend => hend.1.1 h3D).symm
  · rw [if_pos h3D]
    exact h.find_level h3D (Nat.le_of_not_lt hsize)

/-- `TryFindBase` at an address returns just the subresources that are there. -/
def FindsBase (image : ImageBase) (addr : ℕ) : Prop :=
  ∀ sub, image.tryFindBase addr = some sub ↔ image.HasAt sub addr

/-- An address that is taken for another one: it is too far above the image and some subresource is at
the truncated difference, or the truncated difference is the end of an image whose layers fill it. -/
def Misread (image : ImageBase) (addr : ℕ) : Prop :=
  image.gpuAddr ≤ addr ∧
    ((2 ^ 32 ≤ addr - image.gpuAddr ∧
        ∃ sub, image.HasAt sub (image.gpuAddr + (addr - image.gpuAddr) % 2 ^ 32)) ∨
      image.End ((addr - image.gpuAddr) % 2 ^ 32))

/-- One layer too many is no subresource. -/
theorem Built.not_has_end (h : image.Built) {diff : ℕ} (hend : image.End diff) (hsub : image.Has sub) :
    image.offset sub ≠ diff := by
  obtain ⟨h3D, hstride, rfl, -⟩ := hend
  obtain ⟨hlevel, hlayer⟩ := hsub
  have hlt := (h.lt_layerStride h3D hstride).1 _ hlevel
  rw [layersOf, if_neg h3D] at hlayer
  rw [offset, if_neg h3D]
  have hle := mul_le_mul_right image.info.layerStride hlayer
  rw [succ_mul] at hle
  omega

/-- **`TryFindBase` inverts the addresses of subresources** just at the addresses it does not misread. -/
theorem tryFindBase_iff (h : info.Valid) (gpuAddr : ℕ) :
    ∃ image, make info gpuAddr = .ret image true ∧ image.info = info ∧ image.gpuAddr = gpuAddr ∧
      ∀ addr, image.FindsBase addr ↔ ¬image.Misread addr := by
  obtain ⟨image, hmake, hbuilt, hinfo, hgpu⟩ := make_built h gpuAddr
  refine ⟨image, hmake, hinfo, hgpu, fun addr => ?_⟩
  unfold FindsBase Misread
  by_cases haddr : image.gpuAddr ≤ addr
  · simp only [hbuilt.tryFindBase_eq_some haddr, HasAt]
    have hsmall : ∀ sub, image.Has sub → image.offset sub < 2 ^ 32 := fun sub hsub =>
      lt_of_le_of_lt (hbuilt.offset_le hsub) (by rw [hbuilt.guestSizeBytes]; exact hbuilt.valid.guestBytes_lt)
    by_cases hfar : 2 ^ 32 ≤ addr - image.gpuAddr
    · have hnone : ∀ sub, ¬(image.Has sub ∧ addr = image.gpuAddr + image.offset sub) := by
        rintro sub ⟨hsub, hoffset⟩
        have hlt := hsmall sub hsub
        omega
      simp only [hnone, iff_false, haddr, hfar, true_and, not_or, not_exists, Nat.add_left_cancel_iff]
      constructor
      · exact fun hall => ⟨fun sub hsub => (hall sub).1 ⟨hsub.1, hsub.2.symm⟩,
          fun hend => (hall _).2 ⟨hend, rfl⟩⟩
      · exact fun hall sub => ⟨fun hsub => hall.1 sub ⟨hsub.1, hsub.2.symm⟩, fun hend => hall.2 hend.1⟩
    · have hmod : (addr - image.gpuAddr) % 2 ^ 32 = addr - image.gpuAddr :=
        Nat.mod_eq_of_lt (Nat.lt_of_not_le hfar)
      have hdiff : ∀ sub, image.offset sub = addr - image.gpuAddr ↔ addr = image.gpuAddr + image.offset sub :=
        fun sub => by omega
      simp only [hmod, hfar, haddr, false_and, false_or, true_and]
      constructor
      · intro hall hend
        obtain ⟨hsub, hoffset⟩ := (hall ⟨0, image.info.resources.layers⟩).1 (.inr ⟨hend, rfl⟩)
        exact hbuilt.not_has_end hend hsub ((hdiff _).2 hoffset)
      · intro hend sub
        simp [hend, hdiff]
  · have hnone : image.tryFindBase addr = none := if_pos (Nat.lt_of_not_le haddr)
    simp only [hnone, haddr, false_and, not_false_eq_true, iff_true]
    intro sub
    refine iff_of_false (by simp) ?_
    rintro ⟨-, rfl⟩
    omega

/-- An array of two layers, of one level that fills them. -/
def twoLayers : ImageInfo where
  format := .a8b8g8r8Unorm
  type := .e2D
  resources := ⟨1, 2⟩
  size := ⟨16, 8, 1⟩
  block := ⟨0, 0, 0⟩
  pitch := 0
  layerStride := 512
  tileWidthSpacing := 0

theorem twoLayers_valid : twoLayers.Valid where
  levels_pos := by decide
  levels_le := by decide
  layers_pos := by decide
  flat h := by simp [twoLayers] at h
  volume := by decide
  stride := by decide +kernel
  guestBytes_lt := by decide +kernel

/-- The second layer is found at its address. -/
theorem tryFindBase_twoLayers : ∃ image, make twoLayers 4096 = .ret image true ∧ image.FindsBase 4608 := by
  obtain ⟨image, hmake, hinfo, hgpu, hfinds⟩ := tryFindBase_iff twoLayers_valid 4096
  refine ⟨image, hmake, (hfinds 4608).2 ?_⟩
  rintro ⟨-, ⟨hfar, -⟩ | ⟨-, -, hend, -⟩⟩
  · rw [hgpu] at hfar
    exact absurd hfar (by decide)
  · rw [hgpu, hinfo] at hend
    exact absurd hend (by decide)

/-- The end of the image is taken for a third layer. -/
theorem tryFindBase_end : ∃ image, make twoLayers 4096 = .ret image true ∧
    image.tryFindBase 5120 = some ⟨0, 2⟩ ∧ ¬image.FindsBase 5120 := by
  have hfound : ∀ image, make twoLayers 4096 = .ret image true → image.tryFindBase 5120 = some ⟨0, 2⟩ := by
    intro image hmake
    cases hmake
    decide +kernel
  obtain ⟨image, hmake, -, hinfo, -⟩ := make_built twoLayers_valid 4096
  refine ⟨image, hmake, hfound image hmake, fun hfinds => ?_⟩
  obtain ⟨⟨-, hlayer⟩, -⟩ := (hfinds ⟨0, 2⟩).1 (hfound image hmake)
  rw [layersOf, hinfo] at hlayer
  exact absurd hlayer (by decide)

end ImageBase

end VideoCommon
end NXEmu
