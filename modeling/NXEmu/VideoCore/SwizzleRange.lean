/-
# Publishing a byte range

`src/yuzu_video_core/textures/swizzle_range.h`: `Swizzle2DRange` writes a range of the bytes of a
block-linear image, GOB by GOB and sector by sector, with a closed form in place of `pdep`.  It copies
the byte of the image whose digits an offset has, and no other (`mem_rangePlan`), so that what it leaves
is a part of what `SwizzleTexture` leaves (`swizzle2DRange_exact`).

`SwizzleTexture` pads the rows before it counts their GOBs, `Swizzle2DRange` does not: where the padding
needs one more GOB and the image has more than one row of blocks, the two lay it out differently
(`paddedRow_differs`).
-/

import NXEmu.VideoCore.TextureDecodersInverse
import Mathlib.Data.List.Range

namespace NXEmu
namespace Tegra
namespace Texture

open Common Transfer List

/-! ### The walk over the GOBs -/

/-- The values of a loop that goes up from `start` while it is below `stop`. -/
def forSteps (start stop step : ℕ) : List ℕ := List.range' start ((stop - start + step - 1) / step) step

/-- `gobs_x`. -/
def gobsX (rowBytes : ℕ) : ℕ := (rowBytes + 63) / 64

/-- `column_bytes`. -/
def columnBytes (blockHeight : ℕ) : ℕ := 512 <<< blockHeight

/-- `block_bytes`. -/
def blockBytes (rowBytes blockHeight : ℕ) : ℕ := gobsX rowBytes * columnBytes blockHeight

/-- `x_base`. -/
def xBase (rowBytes blockHeight gob : ℕ) : ℕ :=
  gob % blockBytes rowBytes blockHeight / columnBytes blockHeight * 64

/-- `y_base`. -/
def yBase (rowBytes blockHeight gob : ℕ) : ℕ :=
  ((gob / blockBytes rowBytes blockHeight) <<< (blockHeight + 3)) +
    gob % blockBytes rowBytes blockHeight % columnBytes blockHeight / 512 * 8

/-- Where the sector of a row and a column is in its GOB. -/
def sectorOffset (y x : ℕ) : ℕ := x / 32 * 256 + y / 2 * 64 + x % 32 / 16 * 32 + y % 2 * 16

/-- `Swizzle2DRange` to an output of so many bytes. -/
def swizzle2DRange (output : Span) (size : ℕ) (input : Span)
    (rowBytes height blockHeight firstByte : ℕ) : Span :=
  if size = 0 ∨ rowBytes = 0 ∨ height = 0 then output
  else
    let stop := firstByte + size
    (forSteps (firstByte / 512 * 512) stop 512).foldl (fun output gob =>
      let xBase := xBase rowBytes blockHeight gob
      let yBase := yBase rowBytes blockHeight gob
      if rowBytes ≤ xBase ∨ height ≤ yBase then output
      else
        (forSteps 0 (min 8 (height - yBase)) 1).foldl (fun output y =>
          (forSteps 0 (min 64 (rowBytes - xBase)) 16).foldl (fun output x =>
            let tiled := gob + sectorOffset y x
            let lo := max tiled firstByte
            let hi := min (min (tiled + 16) (tiled + rowBytes - xBase - x)) stop
            if hi ≤ lo then output
            else
              let linear := (yBase + y) * rowBytes + xBase + x + lo - tiled
              memcpy output input (lo - firstByte) linear (hi - lo))
            output)
          output)
      output

/-- The allocation of an image after a byte range of it is published: the output aliases that range. -/
def publish (tiled linear : Span) (rowBytes height blockHeight first size : ℕ) : Span := fun i =>
  if first ≤ i ∧ i < first + size then
    swizzle2DRange (fun j => tiled (first + j)) size linear rowBytes height blockHeight first (i - first)
  else tiled i

variable {rowBytes height blockHeight firstByte size x y g i : ℕ} {output input : Span}

/-! ### What the loops copy -/

theorem mem_forSteps {start stop step : ℕ} (hstep : 0 < step) :
    i ∈ forSteps start stop step ↔ ∃ k, i = start + step * k ∧ i < stop := by
  simp only [forSteps, mem_range']
  constructor
  · rintro ⟨k, hk, rfl⟩
    rw [Nat.lt_div_iff_mul_lt hstep, Nat.mul_comm] at hk
    exact ⟨k, rfl, by omega⟩
  · rintro ⟨k, rfl, hk⟩
    refine ⟨k, ?_, rfl⟩
    rw [Nat.lt_div_iff_mul_lt hstep, Nat.mul_comm]
    omega

/-- The copies of one sector. -/
def sectorCopies (rowBytes blockHeight firstByte stop gob y x : ℕ) : List (ℕ × ℕ) :=
  let tiled := gob + sectorOffset y x
  let lo := max tiled firstByte
  let hi := min (min (tiled + 16) (tiled + rowBytes - xBase rowBytes blockHeight gob - x)) stop
  if hi ≤ lo then []
  else
    bytePlan (lo - firstByte) ((yBase rowBytes blockHeight gob + y) * rowBytes +
      xBase rowBytes blockHeight gob + x + lo - tiled) (hi - lo)

/-- The copies of `Swizzle2DRange`. -/
def rangePlan (size rowBytes height blockHeight firstByte : ℕ) : List (ℕ × ℕ) :=
  (forSteps (firstByte / 512 * 512) (firstByte + size) 512).flatMap fun gob =>
    if rowBytes ≤ xBase rowBytes blockHeight gob ∨ height ≤ yBase rowBytes blockHeight gob then []
    else
      (forSteps 0 (min 8 (height - yBase rowBytes blockHeight gob)) 1).flatMap fun y =>
        (forSteps 0 (min 64 (rowBytes - xBase rowBytes blockHeight gob)) 16).flatMap fun x =>
          sectorCopies rowBytes blockHeight firstByte (firstByte + size) gob y x

theorem swizzle2DRange_eq (hsize : size ≠ 0) (hrow : rowBytes ≠ 0) (hheight : height ≠ 0) :
    swizzle2DRange output size input rowBytes height blockHeight firstByte =
      transfer (rangePlan size rowBytes height blockHeight firstByte) input output := by
  rw [swizzle2DRange, if_neg (by simp [*]), rangePlan, ← foldl_transfer]
  refine foldl_ext _ _ _ fun output gob _ => ?_
  by_cases hout : rowBytes ≤ xBase rowBytes blockHeight gob ∨ height ≤ yBase rowBytes blockHeight gob
  · rw [if_pos hout, if_pos hout]
    rfl
  · rw [if_neg hout, if_neg hout, ← foldl_transfer]
    refine foldl_ext _ _ _ fun output y _ => ?_
    rw [← foldl_transfer]
    refine foldl_ext _ _ _ fun output x _ => ?_
    simp only [sectorCopies]
    split
    · rfl
    · exact memcpy_eq _ _ _

/-! ### Where a GOB is in the image -/

/-- The number of the GOB that a row and a column of the image are in. -/
def gobNumber (rowBytes blockHeight x y : ℕ) : ℕ :=
  y / 8 % 2 ^ blockHeight + 2 ^ blockHeight * (x / 64 + gobsX rowBytes * (y / 8 / 2 ^ blockHeight))

/-- `Swizzle2DRange` finds the place of a GOB from its number. -/
theorem base_eq (rowBytes blockHeight g : ℕ) :
    xBase rowBytes blockHeight (512 * g) = g / 2 ^ blockHeight % gobsX rowBytes * 64 ∧
      yBase rowBytes blockHeight (512 * g) =
        (g / 2 ^ blockHeight / gobsX rowBytes * 2 ^ blockHeight + g % 2 ^ blockHeight) * 8 := by
  have hblock : blockBytes rowBytes blockHeight = 512 * (2 ^ blockHeight * gobsX rowBytes) := by
    rw [blockBytes, columnBytes, Nat.shiftLeft_eq]
    ring
  have hcolumn : columnBytes blockHeight = 512 * 2 ^ blockHeight := by
    rw [columnBytes, Nat.shiftLeft_eq]
  have hgob : 0 < 512 := by decide
  constructor
  · rw [xBase, hblock, hcolumn, Nat.mul_mod_mul_left, Nat.mul_div_mul_left _ _ hgob, Nat.mod_mul_right_div_self]
  · rw [yBase, hblock, hcolumn, Nat.mul_mod_mul_left, Nat.mul_div_mul_left _ _ hgob, Nat.mul_mod_mul_left,
      Nat.mul_div_cancel_left _ hgob, Nat.mod_mul_right_mod, Nat.shiftLeft_eq, ← Nat.div_div_eq_div_mul,
      Nat.pow_add]
    ring

/-- The place of a GOB has the GOB's number. -/
theorem gobNumber_base (hx : x < 64) (hy : y < 8) (rowBytes blockHeight g : ℕ) :
    gobNumber rowBytes blockHeight (xBase rowBytes blockHeight (512 * g) + x)
      (yBase rowBytes blockHeight (512 * g) + y) = g := by
  have hheight : 0 < 2 ^ blockHeight := Nat.two_pow_pos _
  have hmod : g % 2 ^ blockHeight < 2 ^ blockHeight := Nat.mod_lt _ hheight
  obtain ⟨hxBase, hyBase⟩ := base_eq rowBytes blockHeight g
  rw [hxBase, hyBase, gobNumber, show ∀ a, (a * 64 + x) / 64 = a by omega,
    show ∀ a, (a * 8 + y) / 8 = a by omega, Nat.mul_add_mod_of_lt hmod, Nat.mul_comm _ (2 ^ blockHeight),
    Nat.mul_add_div hheight, Nat.div_eq_of_lt hmod, Nat.add_zero, Nat.mod_add_div, Nat.mod_add_div]

/-- A byte's GOB is where `Swizzle2DRange` finds it. -/
theorem base_gobNumber (hx : x < rowBytes) (blockHeight y : ℕ) :
    xBase rowBytes blockHeight (512 * gobNumber rowBytes blockHeight x y) = x / 64 * 64 ∧
      yBase rowBytes blockHeight (512 * gobNumber rowBytes blockHeight x y) = y / 8 * 8 := by
  have hheight : 0 < 2 ^ blockHeight := Nat.two_pow_pos _
  have hlow : y / 8 % 2 ^ blockHeight < 2 ^ blockHeight := Nat.mod_lt _ hheight
  have hcolumn : x / 64 < gobsX rowBytes := by
    unfold gobsX
    omega
  obtain ⟨hxBase, hyBase⟩ := base_eq rowBytes blockHeight (gobNumber rowBytes blockHeight x y)
  rw [hxBase, hyBase, gobNumber, Nat.add_mul_div_left _ _ hheight, Nat.div_eq_of_lt hlow, Nat.zero_add,
    Nat.add_mul_mod_self_left, Nat.mod_eq_of_lt hcolumn, Nat.add_mul_div_left _ _ (by omega),
    Nat.div_eq_of_lt hcolumn, Nat.zero_add, Nat.add_mul_mod_self_left, Nat.mod_eq_of_lt hlow,
    Nat.div_add_mod']
  exact ⟨rfl, rfl⟩

/-! ### The bytes of a range -/

/-- Where `Swizzle2DRange` has a byte of the image. -/
def rangeOffset (rowBytes blockHeight x y : ℕ) : ℕ :=
  swizzleTable y x + 512 * gobNumber rowBytes blockHeight x y

theorem mem_sectorCopies {stop gob d s : ℕ} :
    (d, s) ∈ sectorCopies rowBytes blockHeight firstByte stop gob y x ↔
      ∃ b < 16, xBase rowBytes blockHeight gob + x + b < rowBytes ∧
        firstByte ≤ gob + sectorOffset y x + b ∧ gob + sectorOffset y x + b < stop ∧
        d = gob + sectorOffset y x + b - firstByte ∧
        s = (yBase rowBytes blockHeight gob + y) * rowBytes + (xBase rowBytes blockHeight gob + x + b) := by
  unfold sectorCopies
  generalize gob + sectorOffset y x = tiled
  generalize xBase rowBytes blockHeight gob = xBase
  generalize (yBase rowBytes blockHeight gob + y) * rowBytes = row
  constructor
  · intro h
    simp only at h
    split at h
    · exact absurd h not_mem_nil
    · obtain ⟨i, hi, rfl, rfl⟩ := mem_bytePlan.1 h
      exact ⟨max tiled firstByte + i - tiled, by omega, by omega, by omega, by omega, by omega, by omega⟩
  · rintro ⟨b, hb, hx, hfirst, hstop, rfl, rfl⟩
    simp only
    rw [if_neg (by omega)]
    exact mem_bytePlan.2 ⟨tiled + b - max tiled firstByte, by omega, by omega, by omega⟩

theorem swizzleTable_sector {b row column : ℕ} (hx : x < 64) (hsector : x % 16 = 0) (hb : b < 16)
    (hy : y < 8) : swizzleTable (row * 8 + y) (column * 64 + x + b) = sectorOffset y x + b := by
  unfold swizzleTable sectorOffset
  omega

/-- A byte of a sector is where the sector and the byte in it say. -/
theorem rangeOffset_sector {b : ℕ} (hx : x < 64) (hsector : x % 16 = 0) (hb : b < 16) (hy : y < 8)
    (rowBytes blockHeight g : ℕ) :
    rangeOffset rowBytes blockHeight (xBase rowBytes blockHeight (512 * g) + x + b)
      (yBase rowBytes blockHeight (512 * g) + y) = 512 * g + sectorOffset y x + b := by
  obtain ⟨hxBase, hyBase⟩ := base_eq rowBytes blockHeight g
  have hgob := gobNumber_base (x := x + b) (by omega) hy rowBytes blockHeight g
  rw [← Nat.add_assoc] at hgob
  rw [rangeOffset, hgob, hxBase, hyBase, swizzleTable_sector hx hsector hb hy]
  omega

/-- **`Swizzle2DRange` copies the bytes of the image that have an offset in the range.** -/
theorem mem_rangePlan {d s : ℕ} :
    (d, s) ∈ rangePlan size rowBytes height blockHeight firstByte ↔
      ∃ x < rowBytes, ∃ y < height, firstByte ≤ rangeOffset rowBytes blockHeight x y ∧
        rangeOffset rowBytes blockHeight x y < firstByte + size ∧
        d = rangeOffset rowBytes blockHeight x y - firstByte ∧ s = y * rowBytes + x := by
  simp only [rangePlan, mem_flatMap]
  constructor
  · rintro ⟨gob, hgob, h⟩
    split at h
    · exact absurd h not_mem_nil
    · next hin =>
      simp only [mem_flatMap] at h
      obtain ⟨y, hy, x, hx, h⟩ := h
      obtain ⟨k, hk, -⟩ := (mem_forSteps (by decide)).1 hgob
      obtain ⟨_, -, hy⟩ := (mem_forSteps (by decide)).1 hy
      obtain ⟨j, hj, hx⟩ := (mem_forSteps (by decide)).1 hx
      obtain ⟨b, hb, hcolumn, hfirst, hstop, rfl, rfl⟩ := mem_sectorCopies.1 h
      obtain rfl : gob = 512 * (firstByte / 512 + k) := by omega
      have hoffset := rangeOffset_sector (x := x) (by omega) (by omega) hb (y := y) (by omega) rowBytes
        blockHeight (firstByte / 512 + k)
      refine ⟨_, hcolumn, _, show yBase rowBytes blockHeight (512 * (firstByte / 512 + k)) + y < height by
        omega, ?_⟩
      rw [hoffset]
      exact ⟨hfirst, hstop, rfl, rfl⟩
  · rintro ⟨x, hx, y, hy, hfirst, hstop, rfl, rfl⟩
    obtain ⟨hxBase, hyBase⟩ := base_gobNumber hx blockHeight y
    have hoffset := rangeOffset_sector (x := x % 64 / 16 * 16) (b := x % 16) (y := y % 8) (by omega) (by omega)
      (by omega) (by omega) rowBytes blockHeight (gobNumber rowBytes blockHeight x y)
    have hlt := swizzleTable_lt y x
    rw [hxBase, hyBase, show x / 64 * 64 + x % 64 / 16 * 16 + x % 16 = x by omega,
      show y / 8 * 8 + y % 8 = y by omega] at hoffset
    rw [hoffset] at hfirst hstop ⊢
    refine ⟨512 * gobNumber rowBytes blockHeight x y, (mem_forSteps (by decide)).2
      ⟨gobNumber rowBytes blockHeight x y - firstByte / 512, ?_, by omega⟩, ?_⟩
    · rw [rangeOffset] at hoffset
      omega
    rw [if_neg (by omega), mem_flatMap]
    refine ⟨y % 8, (mem_forSteps (by decide)).2 ⟨y % 8, by omega, by omega⟩, mem_flatMap.2
      ⟨x % 64 / 16 * 16, (mem_forSteps (by decide)).2 ⟨x % 64 / 16, by omega, by omega⟩, ?_⟩⟩
    rw [mem_sectorCopies, hxBase, hyBase]
    refine ⟨x % 16, by omega, by omega, hfirst, hstop, rfl, ?_⟩
    rw [show y / 8 * 8 + y % 8 = y by omega, show x / 64 * 64 + x % 64 / 16 * 16 + x % 16 = x by omega]

/-! ### The two layouts -/

variable {bpp width strideAlignment stride first : ℕ}

theorem divCeilLog2_gobs (rowBytes : ℕ) : divCeilLog2 rowBytes 6 = gobsX rowBytes := by
  rw [divCeilLog2_eq, gobsX]
  omega

/-- The offsets agree where the rows have as many GOBs, and in the first row of blocks. -/
theorem digits_eq_rangeOffset (h : divCeilLog2 stride 6 = gobsX rowBytes ∨ y < 8 * 2 ^ blockHeight) (x : ℕ) :
    digits height blockHeight 0 stride x y 0 = rangeOffset rowBytes blockHeight x y := by
  unfold digits rangeOffset gobNumber
  obtain h | h := h
  · simp [h]
  · have hblock : y / 8 / 2 ^ blockHeight = 0 := by
      rw [Nat.div_div_eq_div_mul]
      exact Nat.div_eq_of_lt h
    simp [hblock]

/-- No two bytes of the image have one offset. -/
theorem rangeOffset_injective {x' y' : ℕ} (hx : x < rowBytes) (hx' : x' < rowBytes)
    (h : rangeOffset rowBytes blockHeight x y = rangeOffset rowBytes blockHeight x' y') :
    x = x' ∧ y = y' := by
  let height := max y y' + 1
  have hdigits : digits height blockHeight 0 rowBytes x y 0 = digits height blockHeight 0 rowBytes x' y' 0 := by
    rw [digits_eq_rangeOffset (.inl (divCeilLog2_gobs _)), digits_eq_rangeOffset (.inl (divCeilLog2_gobs _)), h]
  obtain ⟨hx, hy, -⟩ := digits_injective hx hx' (by omega) (by omega) hdigits
  exact ⟨hx, hy⟩

theorem functional_rangePlan : Functional (rangePlan size rowBytes height blockHeight firstByte) := by
  intro d s s' hs hs'
  obtain ⟨x, hx, y, hy, hfirst, -, hd, rfl⟩ := mem_rangePlan.1 hs
  obtain ⟨x', hx', y', hy', hfirst', -, hd', rfl⟩ := mem_rangePlan.1 hs'
  have hoffset : rangeOffset rowBytes blockHeight x y = rangeOffset rowBytes blockHeight x' y' := by omega
  obtain ⟨rfl, rfl⟩ := rangeOffset_injective hx hx' hoffset
  rfl

/-- What `Swizzle2DRange` has no byte for keeps its value. -/
theorem swizzle2DRange_kept {j : ℕ}
    (h : ∀ x < rowBytes, ∀ y < height, firstByte ≤ rangeOffset rowBytes blockHeight x y →
      rangeOffset rowBytes blockHeight x y < firstByte + size →
      rangeOffset rowBytes blockHeight x y - firstByte ≠ j) :
    swizzle2DRange output size input rowBytes height blockHeight firstByte j = output j := by
  by_cases hnone : size = 0 ∨ rowBytes = 0 ∨ height = 0
  · rw [swizzle2DRange, if_pos hnone]
  · rw [not_or, not_or] at hnone
    rw [swizzle2DRange_eq hnone.1 hnone.2.1 hnone.2.2]
    refine transfer_of_not_mem input output fun s hs => ?_
    obtain ⟨x, hx, y, hy, hfirst, hstop, hd, -⟩ := mem_rangePlan.1 hs
    exact h x hx y hy hfirst hstop hd.symm

/-! ### The allocation after a range is published -/

variable {tiled linear : Span}

/-- A byte of the image that is in the range is there afterwards. -/
theorem publish_byte (hx : x < rowBytes) (hy : y < height) (hfirst : first ≤ rangeOffset rowBytes blockHeight x y)
    (hstop : rangeOffset rowBytes blockHeight x y < first + size) :
    publish tiled linear rowBytes height blockHeight first size (rangeOffset rowBytes blockHeight x y) =
      linear (y * rowBytes + x) := by
  have hmem : (rangeOffset rowBytes blockHeight x y - first, y * rowBytes + x) ∈
      rangePlan size rowBytes height blockHeight first :=
    mem_rangePlan.2 ⟨x, hx, y, hy, hfirst, hstop, rfl, rfl⟩
  rw [publish, if_pos ⟨hfirst, hstop⟩, swizzle2DRange_eq (by omega) (by omega) (by omega)]
  exact transfer_of_mem linear _ hmem fun s hs => functional_rangePlan _ s _ hs hmem

theorem publish_outside (h : ¬(first ≤ i ∧ i < first + size)) :
    publish tiled linear rowBytes height blockHeight first size i = tiled i :=
  if_neg h

/-- A byte that is none of the image's is as it was. -/
theorem publish_padding (h : ∀ x < rowBytes, ∀ y < height, rangeOffset rowBytes blockHeight x y ≠ i) :
    publish tiled linear rowBytes height blockHeight first size i = tiled i := by
  unfold publish
  split
  · next hi =>
    rw [swizzle2DRange_kept, Nat.add_sub_cancel' hi.1]
    intro x hx y hy hfirst _ hd
    exact h x hx y hy (by omega)
  · rfl

/-- **A range may be published in adjacent pieces.** -/
theorem publish_publish (tiled linear : Span) (rowBytes height blockHeight first m n : ℕ) :
    publish (publish tiled linear rowBytes height blockHeight first m) linear rowBytes height blockHeight
        (first + m) n =
      publish tiled linear rowBytes height blockHeight first (m + n) := by
  funext i
  by_cases hbyte : ∃ x < rowBytes, ∃ y < height, rangeOffset rowBytes blockHeight x y = i
  · obtain ⟨x, hx, y, hy, rfl⟩ := hbyte
    by_cases hout : first ≤ rangeOffset rowBytes blockHeight x y ∧
        rangeOffset rowBytes blockHeight x y < first + (m + n)
    · rw [publish_byte hx hy hout.1 hout.2]
      by_cases hpiece : rangeOffset rowBytes blockHeight x y < first + m
      · rw [publish_outside (by omega), publish_byte hx hy hout.1 hpiece]
      · exact publish_byte hx hy (by omega) (by omega)
    · rw [publish_outside hout, publish_outside (by omega), publish_outside (by omega)]
  · have hnone : ∀ x < rowBytes, ∀ y < height, rangeOffset rowBytes blockHeight x y ≠ i :=
      fun x hx y hy h => hbyte ⟨x, hx, y, hy, h⟩
    rw [publish_padding hnone, publish_padding hnone, publish_padding hnone]

/-! ### A range of the whole image -/

/-- The padded rows have as many GOBs as the rows, or one row of blocks is the whole image. -/
def SameLayout (bpp width height blockHeight strideAlignment : ℕ) : Prop :=
  divCeilLog2 (rowStride bpp width strideAlignment) gobSizeXShift = gobsX (width * bpp) ∨
    height ≤ 8 * 2 ^ blockHeight

/-- What `Swizzle2DRange` leaves in a range is what `SwizzleTexture` leaves there, and the padding
between the bytes of the image is not touched. -/
def PublishesImage (bpp width height blockHeight strideAlignment : ℕ) : Prop :=
  ∀ tiled linear : Span, ∃ tiled',
    swizzleTexture tiled linear bpp width height 1 blockHeight 0 strideAlignment = .ret tiled' true ∧
    ∀ first size i,
      publish tiled linear (width * bpp) height blockHeight first size i =
          (if first ≤ i ∧ i < first + size then tiled' i else tiled i) ∧
        ((∀ x < width * bpp, ∀ y < height, tiledOffset 1 height blockHeight 0
            (rowStride bpp width strideAlignment) x y 0 ≠ i) →
          publish tiled linear (width * bpp) height blockHeight first size i = tiled i)

/-- The pixel sizes of which a GOB row holds an even number. -/
theorem mem_of_dvd : ∀ bpp ≤ 32, bpp ∣ 32 → bpp ∈ [1, 2, 4, 8, 16, 32] := by
  decide

/-- Without padding the rows have as many GOBs, and with the default padding they do where a GOB row
holds an even number of pixels. -/
theorem sameLayout_of_alignment (width height blockHeight : ℕ)
    (h : strideAlignment = 0 ∨ strideAlignment = 1 ∧ bpp ∣ 32) :
    SameLayout bpp width height blockHeight strideAlignment := by
  refine .inl ?_
  rw [gobSizeXShift, divCeilLog2_gobs, rowStride, alignUpLog2, Nat.one_shiftLeft, Nat.shiftLeft_eq,
    Nat.shiftRight_eq_div_pow]
  obtain rfl | ⟨rfl, hdvd⟩ := h
  · simp
  · have hmem := mem_of_dvd bpp (Nat.le_of_dvd (by decide) hdvd) hdvd
    simp only [mem_cons, not_mem_nil, or_false] at hmem
    unfold gobsX
    obtain rfl | rfl | rfl | rfl | rfl | rfl := hmem <;> omega

/-- Where the layouts are the same, a byte of the image has one offset. -/
theorem SameLayout.tiledOffset_eq (h : SameLayout bpp width height blockHeight strideAlignment)
    (hy : y < height) (x : ℕ) :
    tiledOffset 1 height blockHeight 0 (rowStride bpp width strideAlignment) x y 0 =
      rangeOffset (width * bpp) blockHeight x y := by
  rw [Texture.tiledOffset_eq (by decide)]
  exact digits_eq_rangeOffset (h.imp id fun h => lt_of_lt_of_le hy h) x

theorem SameLayout.publishesImage (h : SameLayout bpp width height blockHeight strideAlignment) :
    PublishesImage bpp width height blockHeight strideAlignment := by
  intro tiled linear
  obtain ⟨tiled', hrun, hwritten, hkept⟩ :=
    @swizzleTexture_spec bpp width height 1 blockHeight 0 strideAlignment tiled linear 1 (by decide)
  refine ⟨tiled', hrun, fun first size i => ?_⟩
  by_cases hbyte : ∃ x < width * bpp, ∃ y < height, rangeOffset (width * bpp) blockHeight x y = i
  · obtain ⟨x, hx, y, hy, rfl⟩ := hbyte
    refine ⟨?_, fun hpadding => absurd (h.tiledOffset_eq hy x) (hpadding x hx y hy)⟩
    split
    · next hin =>
      have hbyte := hwritten x hx y hy 0 (by decide)
      rw [h.tiledOffset_eq hy, linearOffset_eq] at hbyte
      rw [publish_byte hx hy hin.1 hin.2, hbyte]
      congr 1
      ring
    · next hout => exact publish_outside hout
  · have hnone : ∀ x < width * bpp, ∀ y < height, rangeOffset (width * bpp) blockHeight x y ≠ i :=
      fun x hx y hy h => hbyte ⟨x, hx, y, hy, h⟩
    have hkept' : tiled' i = tiled i := by
      refine hkept i fun x hx y hy z hz => ?_
      obtain rfl : z = 0 := by omega
      rw [h.tiledOffset_eq hy]
      exact hnone x hx y hy
    rw [publish_padding hnone, hkept', ite_self]
    exact ⟨rfl, fun _ => rfl⟩

theorem pos_of_gobs_ne (h : divCeilLog2 (rowStride bpp width strideAlignment) gobSizeXShift ≠ gobsX (width * bpp)) :
    0 < width * bpp := by
  refine Nat.pos_of_ne_zero fun hzero => h ?_
  have hstride : rowStride bpp width strideAlignment = 0 := by
    obtain rfl | rfl := Nat.mul_eq_zero.1 hzero
    · have hpos : 0 < 2 ^ strideAlignment := Nat.two_pow_pos _
      rw [rowStride, alignUpLog2, Nat.one_shiftLeft, Nat.shiftLeft_eq, Nat.shiftRight_eq_div_pow,
        Nat.div_eq_of_lt (by omega), Nat.zero_mul, Nat.zero_mul]
    · exact Nat.mul_zero _
  rw [hstride, hzero, gobSizeXShift, divCeilLog2_gobs]

/-- In another layout the first byte below the first row of blocks is somewhere else: its offset in the
rows as they are is no byte's in the padded rows. -/
theorem digits_ne_of_gobs_lt (hx : x < rowBytes) (h : gobsX rowBytes < divCeilLog2 stride 6) :
    digits height blockHeight 0 stride x y 0 ≠ rangeOffset rowBytes blockHeight 0 (8 * 2 ^ blockHeight) := by
  have hheight : 0 < 2 ^ blockHeight := Nat.two_pow_pos _
  have htarget : rangeOffset rowBytes blockHeight 0 (8 * 2 ^ blockHeight) =
      0 + 512 * (0 + 2 ^ blockHeight * gobsX rowBytes) := by
    have hrows : 8 * 2 ^ blockHeight / 8 = 2 ^ blockHeight := Nat.mul_div_cancel_left _ (by decide)
    have htable : swizzleTable (8 * 2 ^ blockHeight) 0 = 0 := by
      unfold swizzleTable
      omega
    simp [rangeOffset, gobNumber, htable, hrows, Nat.div_self hheight]
  intro heq
  rw [htarget] at heq
  obtain ⟨-, heq⟩ := digit_injective (swizzleTable_lt y x) (by decide) heq
  obtain ⟨-, heq⟩ := digit_injective (Nat.mod_lt _ hheight) hheight heq
  have hcolumn : x / 64 < gobsX rowBytes := by
    unfold gobsX
    omega
  simp only [Nat.pow_zero, Nat.mod_one, Nat.zero_div, Nat.mul_zero, Nat.one_mul, Nat.zero_add, Nat.add_zero] at heq
  cases hrow : y / 8 / 2 ^ blockHeight with
  | zero =>
    rw [hrow] at heq
    omega
  | succ row =>
    rw [hrow, Nat.mul_succ] at heq
    omega

theorem sameLayout_of_publishesImage (h : PublishesImage bpp width height blockHeight strideAlignment) :
    SameLayout bpp width height blockHeight strideAlignment := by
  by_contra hnot
  rw [SameLayout, not_or, Nat.not_le] at hnot
  obtain ⟨hgobs, hheight⟩ := hnot
  have hpos := pos_of_gobs_ne hgobs
  have hlt : gobsX (width * bpp) < divCeilLog2 (rowStride bpp width strideAlignment) 6 := by
    have hle := le_rowStride bpp width strideAlignment
    rw [gobSizeXShift] at hgobs
    rw [divCeilLog2_gobs] at hgobs ⊢
    unfold gobsX at hgobs ⊢
    omega
  obtain ⟨tiled', hrun, hpublish⟩ := h (fun _ => 0) fun _ => 1
  obtain ⟨whole, hwhole, -, hkept⟩ :=
    @swizzleTexture_spec bpp width height 1 blockHeight 0 strideAlignment (fun _ => 0) (fun _ => 1) 1
      (by decide)
  obtain rfl : tiled' = whole := by
    rw [hrun] at hwhole
    exact (Exec.ret.inj hwhole).1
  have hone := (hpublish (rangeOffset (width * bpp) blockHeight 0 (8 * 2 ^ blockHeight)) 1
    (rangeOffset (width * bpp) blockHeight 0 (8 * 2 ^ blockHeight))).1
  rw [publish_byte hpos hheight (by omega) (by omega), if_pos (by omega), hkept] at hone
  · exact absurd hone (by decide)
  · intro x hx y _ z hz
    obtain rfl : z = 0 := by omega
    rw [tiledOffset_eq (by decide)]
    exact digits_ne_of_gobs_lt hx hlt

/-- Rows of five pixels of 12 bytes are one GOB wide and two when they are padded to six: the ninth row
is published to where `SwizzleTexture` has nothing. -/
theorem paddedRow_differs : ¬PublishesImage 12 5 9 0 1 := by
  intro h
  have hlayout := sameLayout_of_publishesImage h
  rw [SameLayout] at hlayout
  exact absurd hlayout (by decide)

/-- **Publishing a range is publishing a part of the image**, exactly where `SwizzleTexture` lays out the
image as it is: with no padding, with the default padding and pixels that divide half a GOB row, wherever
the padding needs no more GOBs, and in images of one row of blocks.  `Swizzle2DRange` never writes past
its output and never to bytes that are none of the image's, and ranges can be published in pieces. -/
theorem swizzle2DRange_exact (bpp width height blockHeight strideAlignment : ℕ) :
    (PublishesImage bpp width height blockHeight strideAlignment ↔
      SameLayout bpp width height blockHeight strideAlignment) ∧
    (strideAlignment = 0 ∨ strideAlignment = 1 ∧ bpp ∣ 32 →
      SameLayout bpp width height blockHeight strideAlignment) ∧
    (∀ (output linear : Span) (first size j : ℕ), size ≤ j →
      swizzle2DRange output size linear (width * bpp) height blockHeight first j = output j) ∧
    ∀ (tiled linear : Span) (first m n : ℕ),
      publish (publish tiled linear (width * bpp) height blockHeight first m) linear (width * bpp) height
          blockHeight (first + m) n =
        publish tiled linear (width * bpp) height blockHeight first (m + n) := by
  refine ⟨⟨sameLayout_of_publishesImage, SameLayout.publishesImage⟩, sameLayout_of_alignment _ _ _, ?_, ?_⟩
  · intro output linear first size j hj
    exact swizzle2DRange_kept fun x _ y _ hfirst hstop hd => by omega
  · intro tiled linear first m n
    exact publish_publish tiled linear _ _ _ first m n

/-- Pixels of four bytes in rows of five. -/
theorem swizzle2DRange_exact_rgba : PublishesImage 4 5 11 0 1 :=
  (swizzle2DRange_exact 4 5 11 0 1).1.2 ((swizzle2DRange_exact 4 5 11 0 1).2.1 (.inr ⟨rfl, by decide⟩))

end Texture
end Tegra
end NXEmu
