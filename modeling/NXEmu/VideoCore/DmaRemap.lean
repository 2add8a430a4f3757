/-
# Remapping the components of a DMA

`yuzu_video_core/engines/dma_remap.h`: with remapping enabled each component of a destination element takes a
component of the source element or one of two constants, or keeps its value.  `ApplyRemapSized` walks over the
components.  Where the destination elements tile 16 bytes, `ApplyRemapShuffle` looks up a table for each group of 16
bytes, with vectors of the processor and, for what they would read or write behind the buffers, without them.

Both give the bytes that the components say, and stay inside their buffers (`applyRemap_exact`).
-/

import NXEmu.Lib.Exec
import Mathlib.Algebra.Order.Ring.Nat

namespace NXEmu
namespace Tegra
namespace Engines

open Nat Option

/-- A span of bytes.  Accesses behind its end are faults. -/
structure Buffer where
  size : ℕ
  byte : ℕ → BitVec 8

namespace Buffer

/-- `memcpy` of so many bytes from a buffer. -/
def load (b : Buffer) (start n : ℕ) : Exec (ℕ → BitVec 8) :=
  if start + n ≤ b.size then return fun i => b.byte (start + i) else .fault

/-- `memcpy` of so many bytes to a buffer. -/
def store (b : Buffer) (start n : ℕ) (bytes : ℕ → BitVec 8) : Exec Buffer :=
  if start + n ≤ b.size then
    return { b with byte := fun i => if start ≤ i ∧ i < start + n then bytes (i - start) else b.byte i }
  else .fault

end Buffer

/-! ### The parameters -/

/-- `RemapConst::Swizzle`, a field of three bits. -/
inductive Swizzle where
  | srcX
  | srcY
  | srcZ
  | srcW
  | constA
  | constB
  | noWrite
  | value7
deriving DecidableEq

/-- `static_cast<u32>(swizzle)` -/
def Swizzle.value : Swizzle → ℕ
  | srcX => 0
  | srcY => 1
  | srcZ => 2
  | srcW => 3
  | constA => 4
  | constB => 5
  | noWrite => 6
  | value7 => 7

/-- `RemapConst` -/
structure RemapConst where
  remapConstaValue : BitVec 32
  remapConstbValue : BitVec 32
  dstX : Swizzle
  dstY : Swizzle
  dstZ : Swizzle
  dstW : Swizzle
  componentSizeMinusOne : Fin 4
  numSrcComponentsMinusOne : Fin 4
  numDstComponentsMinusOne : Fin 4

namespace RemapConst

/-- `RemapSwizzle`, of a component below 4. -/
def remapSwizzle (remap : RemapConst) (c : ℕ) : Swizzle :=
  match c with
  | 0 => remap.dstX
  | 1 => remap.dstY
  | 2 => remap.dstZ
  | _ => remap.dstW

/-- `RemapComponentSize` -/
def remapComponentSize (remap : RemapConst) : ℕ := remap.componentSizeMinusOne + 1

/-- `num_src_components_minus_one + 1` -/
def srcComponents (remap : RemapConst) : ℕ := remap.numSrcComponentsMinusOne + 1

/-- `num_dst_components_minus_one + 1` -/
def dstComponents (remap : RemapConst) : ℕ := remap.numDstComponentsMinusOne + 1

/-- `RemapSrcBytesPerPixel` -/
def remapSrcBytesPerPixel (remap : RemapConst) : ℕ := remap.srcComponents * remap.remapComponentSize

/-- `RemapDstBytesPerPixel` -/
def remapDstBytesPerPixel (remap : RemapConst) : ℕ := remap.dstComponents * remap.remapComponentSize

end RemapConst

/-- A byte of a word, the lowest first. -/
def wordByte (value : BitVec 32) (offset : ℕ) : BitVec 8 := (value >>> (offset * 8)).setWidth 8

/-- The constant that a component takes. -/
def RemapConst.constant (remap : RemapConst) (sw : Swizzle) : BitVec 32 :=
  if sw = .constA then remap.remapConstaValue else remap.remapConstbValue

/-! ### The components one by one -/

/-- `source[c]` and `constant[c]`: the index of the source, -1 for a constant, or -2 to keep. -/
def componentSource (remap : RemapConst) (c : ℕ) : ℤ × (ℕ → BitVec 8) :=
  let sw := remap.remapSwizzle c
  if sw.value ≤ Swizzle.srcW.value then
    (if sw.value < remap.srcComponents then sw.value else -1, fun _ => 0)
  else if sw = .constA ∨ sw = .constB then (-1, wordByte (remap.constant sw))
  else (-2, fun _ => 0)

/-- The body of the loops of `ApplyRemapSized`, with `in` and `out` of the component. -/
def applyComponent (remap : RemapConst) (src dst : Buffer) (size input out c : ℕ) : Exec Buffer :=
  let (index, constant) := componentSource remap c
  if 0 ≤ index then do
    let bytes ← src.load (input + index.toNat * size) size
    dst.store out size bytes
  else if index = -1 then dst.store out size constant
  else return dst

/-- `ApplyRemapSized<Size, dst_components>` -/
def applyRemapSized (size dstComponents : ℕ) (remap : RemapConst) (src dst : Buffer) (count : ℕ) : Exec Buffer :=
  (List.range count).foldlM (fun dst element =>
    (List.range dstComponents).foldlM (fun dst c =>
      applyComponent remap src dst size (element * (remap.srcComponents * size))
        ((element * dstComponents + c) * size) c) dst) dst

/-! ### Groups of 16 bytes -/

/-- What the table has for a byte of a group. -/
structure ShuffleByte where
  index : BitVec 8
  constant : BitVec 8
  keep : BitVec 8

/-- `RemapShuffle` -/
structure RemapShuffle where
  srcBytesPerPixel : ℕ
  dstBytesPerPixel : ℕ
  srcGroupBytes : ℕ
  entry : ℕ → ShuffleByte
  keeps : Bool

/-- The body of the loop of `MakeRemapShuffle`. -/
def shuffleByte (remap : RemapConst) (byte : ℕ) : ShuffleByte :=
  let size := remap.remapComponentSize
  let element := byte / remap.remapDstBytesPerPixel
  let component := byte % remap.remapDstBytesPerPixel / size
  let offset := byte % size
  let sw := remap.remapSwizzle component
  if sw.value ≤ Swizzle.srcW.value then
    if sw.value < remap.srcComponents then
      ⟨.ofNat 8 (element * remap.remapSrcBytesPerPixel + sw.value * size + offset), 0, 0⟩
    else ⟨0xff, 0, 0⟩
  else if sw = .constA ∨ sw = .constB then ⟨0xff, wordByte (remap.constant sw) offset, 0⟩
  else ⟨0xff, 0, 0xff⟩

/-- `MakeRemapShuffle`: for each byte of an element where it comes from. -/
def makeRemapShuffle (remap : RemapConst) : Option RemapShuffle :=
  let srcBpp := remap.remapSrcBytesPerPixel
  let dstBpp := remap.remapDstBytesPerPixel
  if 16 % dstBpp ≠ 0 ∨ 16 < 16 / dstBpp * srcBpp then none
  else some
    { srcBytesPerPixel := srcBpp
      dstBytesPerPixel := dstBpp
      srcGroupBytes := 16 / dstBpp * srcBpp
      entry := shuffleByte remap
      keeps := (List.range 16).any fun byte => (shuffleByte remap byte).keep ≠ 0 }

/-- The vectors of the processor that the code was compiled for. -/
inductive Simd where
  | none
  | neon
  | ssse3
deriving DecidableEq

/-- `vqtbl1q_u8` and `_mm_shuffle_epi8`, of one byte. -/
def tableLookup (simd : Simd) (source : ℕ → BitVec 8) (index : BitVec 8) : BitVec 8 :=
  match simd with
  | .ssse3 => if index.msb then 0 else source (index.toNat % 16)
  | .neon | .none => if index.toNat < 16 then source index.toNat else 0

/-- A byte of the value that is stored for a group. -/
def groupValue (simd : Simd) (shuffle : RemapShuffle) (source old : ℕ → BitVec 8) (byte : ℕ) : BitVec 8 :=
  let entry := shuffle.entry byte
  let value := tableLookup simd source entry.index ||| entry.constant
  if shuffle.keeps then (entry.keep &&& old byte) ||| (~~~entry.keep &&& value) else value

/-- The loop over groups with vectors, and `in` and `out` after it. -/
def simdGroups (simd : Simd) (shuffle : RemapShuffle) (src : Buffer) (dstBytes srcBytes : ℕ) (dst : Buffer)
    (input out : ℕ) : Exec (Buffer × ℕ × ℕ) :=
  if _h : out + 16 ≤ dstBytes ∧ input + 16 ≤ srcBytes then do
    let source ← src.load input 16
    let old ← (if shuffle.keeps then dst.load out 16 else return fun _ => 0 : Exec (ℕ → BitVec 8))
    let dst ← dst.store out 16 (groupValue simd shuffle source old)
    simdGroups simd shuffle src dstBytes srcBytes dst (input + shuffle.srcGroupBytes) (out + 16)
  else return (dst, input, out)
termination_by dstBytes - out

/-- The source bytes of a group.  The difference of the sizes must not wrap around. -/
def loadGroup (src : Buffer) (srcBytes input : ℕ) : Exec (ℕ → BitVec 8) :=
  if srcBytes < input then .fault
  else do
    let bytes ← src.load input (min 16 (srcBytes - input))
    return fun i => if i < min 16 (srcBytes - input) then bytes i else 0

/-- The bytes of a group, one by one. -/
def storeGroup (shuffle : RemapShuffle) (group : ℕ → BitVec 8) (dst : Buffer) (out chunk : ℕ) : Exec Buffer :=
  (List.range chunk).foldlM (fun dst byte =>
    let entry := shuffle.entry byte
    if entry.keep = 0 then
      dst.store (out + byte) 1 fun _ => if entry.index.toNat < 16 then group entry.index.toNat else entry.constant
    else return dst) dst

/-- The loop over the remaining groups. -/
def tailGroups (shuffle : RemapShuffle) (src : Buffer) (dstBytes srcBytes : ℕ) (dst : Buffer) (input out : ℕ) :
    Exec Buffer :=
  if _h : out < dstBytes then do
    let group ← loadGroup src srcBytes input
    let dst ← storeGroup shuffle group dst out (min 16 (dstBytes - out))
    tailGroups shuffle src dstBytes srcBytes dst (input + shuffle.srcGroupBytes) (out + 16)
  else return dst
termination_by dstBytes - out

/-- `ApplyRemapShuffle`: the groups of the vector unit first, and the rest pixel by pixel. -/
def applyRemapShuffle (simd : Simd) (shuffle : RemapShuffle) (src dst : Buffer) (count : ℕ) : Exec Buffer := do
  let dstBytes := count * shuffle.dstBytesPerPixel
  let srcBytes := count * shuffle.srcBytesPerPixel
  let (dst, input, out) ← (if simd = .none then return (dst, 0, 0)
    else simdGroups simd shuffle src dstBytes srcBytes dst 0 0 : Exec (Buffer × ℕ × ℕ))
  tailGroups shuffle src dstBytes srcBytes dst input out

/-- `ApplyRemap`, with the template arguments that its `switch` statements choose. -/
def applyRemap (simd : Simd) (remap : RemapConst) (src dst : Buffer) (count : ℕ) : Exec Buffer :=
  match makeRemapShuffle remap with
  | some shuffle => applyRemapShuffle simd shuffle src dst count
  | none => applyRemapSized remap.remapComponentSize remap.dstComponents remap src dst count

/-! ### What the components say -/

/-- A byte of a component of the source; those that there are not are zero. -/
def RemapConst.sourceByte (remap : RemapConst) (src : Buffer) (element offset source : ℕ) : BitVec 8 :=
  if source < remap.srcComponents then
    src.byte (element * remap.remapSrcBytesPerPixel + source * remap.remapComponentSize + offset)
  else 0

/-- The byte that a component of an element takes, or nothing when it keeps its value. -/
def RemapConst.componentByte (remap : RemapConst) (src : Buffer) (element offset : ℕ) : Swizzle → Option (BitVec 8)
  | .srcX => some (remap.sourceByte src element offset 0)
  | .srcY => some (remap.sourceByte src element offset 1)
  | .srcZ => some (remap.sourceByte src element offset 2)
  | .srcW => some (remap.sourceByte src element offset 3)
  | .constA => some (wordByte remap.remapConstaValue offset)
  | .constB => some (wordByte remap.remapConstbValue offset)
  | .noWrite => none
  | .value7 => none

/-- The byte that comes to a place of the destination. -/
def RemapConst.remappedByte (remap : RemapConst) (src dst : Buffer) (i : ℕ) : BitVec 8 :=
  (remap.componentByte src (i / remap.remapDstBytesPerPixel) (i % remap.remapComponentSize)
    (remap.remapSwizzle (i % remap.remapDstBytesPerPixel / remap.remapComponentSize))).getD (dst.byte i)

/-- The destination when so many bytes were remapped. -/
structure Remapped (remap : RemapConst) (src dst : Buffer) (n : ℕ) (dst' : Buffer) : Prop where
  size : dst'.size = dst.size
  byte : ∀ i, dst'.byte i = if i < n then remap.remappedByte src dst i else dst.byte i

section

open Exec

variable {remap : RemapConst} {src dst dst' : Buffer} {n k count element c o : ℕ}

theorem Remapped.refl (remap : RemapConst) (src dst : Buffer) : Remapped remap src dst 0 dst :=
  ⟨rfl, fun i => by rw [if_neg (not_lt_zero i)]⟩

/-- Bytes that are stored next. -/
theorem Remapped.store (h : Remapped remap src dst n dst') {bytes : ℕ → BitVec 8} (hfits : n + k ≤ dst.size)
    (hbytes : ∀ o < k, bytes o = remap.remappedByte src dst (n + o)) :
    wp (dst'.store n k bytes) fun dst'' held => held = true ∧ Remapped remap src dst (n + k) dst'' := by
  rw [Buffer.store, if_pos (by rwa [h.size]), pure_eq, wp_ret]
  refine ⟨rfl, h.size, fun i => ?_⟩
  dsimp only
  by_cases hi : n ≤ i ∧ i < n + k
  · rw [if_pos hi, if_pos hi.2, hbytes _ (by omega), Nat.add_sub_cancel' hi.1]
  · rw [if_neg hi, h.byte]
    split_ifs <;> first | rfl | omega

/-- Bytes that keep their value. -/
theorem Remapped.keep (h : Remapped remap src dst n dst')
    (hkeep : ∀ o < k, remap.remappedByte src dst (n + o) = dst.byte (n + o)) :
    Remapped remap src dst (n + k) dst' := by
  refine ⟨h.size, fun i => ?_⟩
  rw [h.byte]
  by_cases hi : n ≤ i ∧ i < n + k
  · have hsame := hkeep (i - n) (by omega)
    rw [Nat.add_sub_cancel' hi.1] at hsame
    rw [if_neg (by omega), if_pos hi.2, hsame]
  · split_ifs <;> first | rfl | omega

theorem remapComponentSize_pos (remap : RemapConst) : 0 < remap.remapComponentSize := succ_pos _

theorem remapDstBytesPerPixel_pos (remap : RemapConst) : 0 < remap.remapDstBytesPerPixel :=
  mul_pos (succ_pos _) (succ_pos _)

/-- A component ends in its element. -/
theorem component_lt {components size : ℕ} (hc : c < components) (ho : o < size) :
    c * size + o < components * size := by
  have hle : (c + 1) * size ≤ components * size := Nat.mul_le_mul_right size hc
  rw [succ_mul] at hle
  omega

/-- Where a byte of a component is. -/
theorem remappedByte_component (hc : c < remap.dstComponents) (ho : o < remap.remapComponentSize) :
    remap.remappedByte src dst (element * remap.remapDstBytesPerPixel + c * remap.remapComponentSize + o) =
      (remap.componentByte src element o (remap.remapSwizzle c)).getD
        (dst.byte (element * remap.remapDstBytesPerPixel + c * remap.remapComponentSize + o)) := by
  have hlt : c * remap.remapComponentSize + o < remap.remapDstBytesPerPixel := component_lt hc ho
  have helement : (element * remap.remapDstBytesPerPixel + c * remap.remapComponentSize + o) /
      remap.remapDstBytesPerPixel = element := by
    rw [add_assoc, mul_comm element, mul_add_div (remapDstBytesPerPixel_pos remap),
      div_eq_of_lt hlt, add_zero]
  have hcomponent : (element * remap.remapDstBytesPerPixel + c * remap.remapComponentSize + o) %
      remap.remapDstBytesPerPixel / remap.remapComponentSize = c := by
    rw [add_assoc, mul_add_mod_of_lt hlt, mul_comm c, mul_add_div (remapComponentSize_pos remap),
      div_eq_of_lt ho, add_zero]
  have hoffset : (element * remap.remapDstBytesPerPixel + c * remap.remapComponentSize + o) %
      remap.remapComponentSize = o := by
    rw [RemapConst.remapDstBytesPerPixel, ← mul_assoc, ← add_mul, mul_add_mod_of_lt ho]
  rw [RemapConst.remappedByte, helement, hcomponent, hoffset]

/-- What the swizzle of a component says: a source that there is, a constant, or nothing. -/
theorem componentByte_cases (remap : RemapConst) (sw : Swizzle) :
    (sw.value ≤ Swizzle.srcW.value ∧ ∀ src element offset, remap.componentByte src element offset sw =
      some (remap.sourceByte src element offset sw.value)) ∨
    (¬sw.value ≤ Swizzle.srcW.value ∧ (sw = .constA ∨ sw = .constB) ∧ ∀ src element offset,
      remap.componentByte src element offset sw = some (wordByte (remap.constant sw) offset)) ∨
    (¬sw.value ≤ Swizzle.srcW.value ∧ ¬(sw = .constA ∨ sw = .constB) ∧ ∀ src element offset,
      remap.componentByte src element offset sw = none) := by
  cases sw with
  | srcX | srcY | srcZ | srcW => exact .inl ⟨by decide, fun _ _ _ => rfl⟩
  | constA | constB => exact .inr (.inl ⟨by decide, by decide, fun _ _ _ => rfl⟩)
  | noWrite | value7 => exact .inr (.inr ⟨by decide, by decide, fun _ _ _ => rfl⟩)

/-! ### The components one by one -/

variable (hsrc : count * remap.remapSrcBytesPerPixel ≤ src.size)
  (hdst : count * remap.remapDstBytesPerPixel ≤ dst.size)

include hsrc hdst in
/-- A component of an element. -/
theorem applyComponent_spec (helement : element < count) (hc : c < remap.dstComponents)
    (h : Remapped remap src dst (element * remap.remapDstBytesPerPixel + c * remap.remapComponentSize) dst') :
    wp (applyComponent remap src dst' remap.remapComponentSize
      (element * (remap.srcComponents * remap.remapComponentSize))
      ((element * remap.dstComponents + c) * remap.remapComponentSize) c) fun dst'' held => held = true ∧
      Remapped remap src dst (element * remap.remapDstBytesPerPixel + (c + 1) * remap.remapComponentSize) dst'' := by
  have hout : (element * remap.dstComponents + c) * remap.remapComponentSize =
      element * remap.remapDstBytesPerPixel + c * remap.remapComponentSize := by
    rw [add_mul, mul_assoc, RemapConst.remapDstBytesPerPixel]
  have hnext : element * remap.remapDstBytesPerPixel + (c + 1) * remap.remapComponentSize =
      element * remap.remapDstBytesPerPixel + c * remap.remapComponentSize + remap.remapComponentSize := by
    rw [succ_mul, add_assoc]
  have hfits : element * remap.remapDstBytesPerPixel + c * remap.remapComponentSize + remap.remapComponentSize ≤
      dst.size := by
    have h₁ : (c + 1) * remap.remapComponentSize ≤ remap.remapDstBytesPerPixel := Nat.mul_le_mul_right _ hc
    have h₂ : (element + 1) * remap.remapDstBytesPerPixel ≤ count * remap.remapDstBytesPerPixel :=
      Nat.mul_le_mul_right _ helement
    rw [succ_mul] at h₁ h₂
    omega
  have hbyte := fun o (ho : o < remap.remapComponentSize) =>
    @remappedByte_component remap src dst element c o hc ho
  rw [applyComponent, componentSource, hnext, hout]
  rcases componentByte_cases remap (remap.remapSwizzle c) with ⟨hsw, hcomponent⟩ | ⟨hsw, hconst, hcomponent⟩ |
    ⟨hsw, hconst, hcomponent⟩
  · rw [if_pos hsw]
    by_cases hsource : (remap.remapSwizzle c).value < remap.srcComponents
    · dsimp only
      rw [if_pos hsource, if_pos (Int.natCast_nonneg _), Int.toNat_natCast, wp_bind, Buffer.load, if_pos, pure_eq,
        wp_ret]
      · refine wp_mono (h.store hfits fun o ho => ?_) fun dst'' held hr => hr
        rw [hbyte o ho, hcomponent, getD_some, RemapConst.sourceByte, if_pos hsource]
        rfl
      · have h₁ : ((remap.remapSwizzle c).value + 1) * remap.remapComponentSize ≤
            remap.srcComponents * remap.remapComponentSize := Nat.mul_le_mul_right _ hsource
        have h₂ : (element + 1) * (remap.srcComponents * remap.remapComponentSize) ≤
            count * (remap.srcComponents * remap.remapComponentSize) := Nat.mul_le_mul_right _ helement
        rw [RemapConst.remapSrcBytesPerPixel] at hsrc
        rw [succ_mul] at h₁ h₂
        omega
    · dsimp only
      rw [if_neg hsource, if_neg (by decide), if_pos rfl]
      refine h.store hfits fun o ho => ?_
      rw [hbyte o ho, hcomponent, getD_some, RemapConst.sourceByte, if_neg hsource]
  · rw [if_neg hsw, if_pos hconst]
    dsimp only
    rw [if_neg (by decide), if_pos rfl]
    refine h.store hfits fun o ho => ?_
    rw [hbyte o ho, hcomponent, getD_some]
  · rw [if_neg hsw, if_neg hconst]
    dsimp only
    rw [if_neg (by decide), if_neg (by decide), pure_eq, wp_ret]
    refine ⟨rfl, h.keep fun o ho => ?_⟩
    rw [hbyte o ho, hcomponent, getD_none]

include hsrc hdst in
/-- **The walk over the components.** -/
theorem applyRemapSized_spec :
    wp (applyRemapSized remap.remapComponentSize remap.dstComponents remap src dst count) fun dst' held =>
      held = true ∧ Remapped remap src dst (count * remap.remapDstBytesPerPixel) dst' := by
  rw [applyRemapSized]
  refine wp_foldlM_range (I := fun element dst' => Remapped remap src dst (element * remap.remapDstBytesPerPixel) dst')
    (fun element dst' helement h => ?_) (by rw [zero_mul]; exact .refl ..)
  have hend : element * remap.remapDstBytesPerPixel + remap.dstComponents * remap.remapComponentSize =
      (element + 1) * remap.remapDstBytesPerPixel := (succ_mul ..).symm
  rw [← hend]
  refine wp_foldlM_range (I := fun c dst' =>
      Remapped remap src dst (element * remap.remapDstBytesPerPixel + c * remap.remapComponentSize) dst')
    (fun c dst' hc h => applyComponent_spec hsrc hdst helement hc h) ?_
  rwa [zero_mul, add_zero]

/-! ### Groups of 16 bytes -/

/-- The destination elements tile 16 bytes, and as many source elements fit in 16 bytes. -/
structure Tiles (remap : RemapConst) : Prop where
  mod : 16 % remap.remapDstBytesPerPixel = 0
  fits : 16 / remap.remapDstBytesPerPixel * remap.remapSrcBytesPerPixel ≤ 16

variable {byte input out : ℕ}

/-- The place of a byte of a group. -/
theorem remappedByte_group (htiles : Tiles remap) (k byte : ℕ) : remap.remappedByte src dst (16 * k + byte) =
    (remap.componentByte src (16 / remap.remapDstBytesPerPixel * k + byte / remap.remapDstBytesPerPixel)
      (byte % remap.remapComponentSize)
      (remap.remapSwizzle (byte % remap.remapDstBytesPerPixel / remap.remapComponentSize))).getD
        (dst.byte (16 * k + byte)) := by
  obtain ⟨g, hg⟩ := dvd_of_mod_eq_zero htiles.mod
  have hpos := remapDstBytesPerPixel_pos remap
  have hdiv : 16 / remap.remapDstBytesPerPixel = g := Nat.div_eq_of_eq_mul_right hpos hg
  have hsplit : 16 * k + byte = remap.remapDstBytesPerPixel * (g * k) + byte := by
    rw [← mul_assoc, ← hg]
  have helement : (16 * k + byte) / remap.remapDstBytesPerPixel = g * k + byte / remap.remapDstBytesPerPixel := by
    rw [hsplit, mul_add_div hpos]
  have hcomponent : (16 * k + byte) % remap.remapDstBytesPerPixel = byte % remap.remapDstBytesPerPixel := by
    rw [hsplit, mul_add_mod]
  have hoffset : (16 * k + byte) % remap.remapComponentSize = byte % remap.remapComponentSize := by
    rw [hsplit, RemapConst.remapDstBytesPerPixel, mul_comm remap.dstComponents, mul_assoc, mul_add_mod]
  rw [RemapConst.remappedByte, helement, hcomponent, hoffset, hdiv]

/-- **What the table has for a byte of a group**: the place of a source byte in the group, a constant, or that the
byte is kept. -/
theorem shuffleByte_cases (htiles : Tiles remap) (hbyte : byte < 16) (k : ℕ) :
    (∃ x < 16, shuffleByte remap byte = ⟨.ofNat 8 x, 0, 0⟩ ∧
      (∀ count, 16 * k + byte < count * remap.remapDstBytesPerPixel →
        16 / remap.remapDstBytesPerPixel * remap.remapSrcBytesPerPixel * k + x < count * remap.remapSrcBytesPerPixel) ∧
      ∀ src dst, remap.remappedByte src dst (16 * k + byte) =
        src.byte (16 / remap.remapDstBytesPerPixel * remap.remapSrcBytesPerPixel * k + x)) ∨
    (∃ value, shuffleByte remap byte = ⟨0xff, value, 0⟩ ∧
      ∀ src dst, remap.remappedByte src dst (16 * k + byte) = value) ∨
    (shuffleByte remap byte = ⟨0xff, 0, 0xff⟩ ∧
      ∀ src dst, remap.remappedByte src dst (16 * k + byte) = dst.byte (16 * k + byte)) := by
  rw [shuffleByte]
  rcases componentByte_cases remap
    (remap.remapSwizzle (byte % remap.remapDstBytesPerPixel / remap.remapComponentSize)) with
    ⟨hsw, hcomponent⟩ | ⟨hsw, hconst, hcomponent⟩ | ⟨hsw, hconst, hcomponent⟩
  · rw [if_pos hsw]
    split_ifs with hsource
    · -- a source byte in the group
      have hpos := remapDstBytesPerPixel_pos remap
      obtain ⟨g, hg⟩ := dvd_of_mod_eq_zero htiles.mod
      have hdiv : 16 / remap.remapDstBytesPerPixel = g := Nat.div_eq_of_eq_mul_right hpos hg
      have hfits := htiles.fits
      rw [hdiv] at hfits ⊢
      obtain ⟨x, hx⟩ : ∃ x, x = byte / remap.remapDstBytesPerPixel * remap.remapSrcBytesPerPixel +
        (remap.remapSwizzle (byte % remap.remapDstBytesPerPixel / remap.remapComponentSize)).value *
          remap.remapComponentSize + byte % remap.remapComponentSize := ⟨_, rfl⟩
      have hsourceByte := component_lt hsource (mod_lt byte (remapComponentSize_pos remap))
      have hlt : ∀ n, byte / remap.remapDstBytesPerPixel < n → x < n * remap.remapSrcBytesPerPixel := fun n hn => by
        have hle : (byte / remap.remapDstBytesPerPixel + 1) * remap.remapSrcBytesPerPixel ≤
          n * remap.remapSrcBytesPerPixel := Nat.mul_le_mul_right _ hn
        rw [succ_mul] at hle
        rw [hx, RemapConst.remapSrcBytesPerPixel] at *
        omega
      have hmul : g * remap.remapSrcBytesPerPixel * k = g * k * remap.remapSrcBytesPerPixel := Nat.mul_right_comm ..
      refine .inl ⟨x, (hlt g (Nat.div_lt_of_lt_mul (by rwa [← hg]))).trans_le hfits, by rw [hx], fun count hin => ?_,
        fun src dst => ?_⟩
      · have helement : g * k + byte / remap.remapDstBytesPerPixel < count := by
          rw [← mul_add_div hpos, div_lt_iff_lt_mul hpos, ← mul_assoc, ← hg]
          exact hin
        have hle := Nat.mul_le_mul_right remap.remapSrcBytesPerPixel (succ_le_of_lt helement)
        have hnext := hlt _ (lt_succ_self _)
        rw [succ_mul] at hle hnext
        rw [add_mul] at hle
        rw [hmul]
        omega
      · rw [remappedByte_group htiles, hcomponent, getD_some, RemapConst.sourceByte, if_pos hsource, hdiv, hmul,
          hx, add_mul, add_assoc, add_assoc, add_assoc]
    · refine .inr (.inl ⟨0, rfl, fun src dst => ?_⟩)
      rw [remappedByte_group htiles, hcomponent, getD_some, RemapConst.sourceByte, if_neg hsource]
  · rw [if_neg hsw, if_pos hconst]
    refine .inr (.inl ⟨_, rfl, fun src dst => ?_⟩)
    rw [remappedByte_group htiles, hcomponent, getD_some]
  · rw [if_neg hsw, if_neg hconst]
    refine .inr (.inr ⟨rfl, fun src dst => ?_⟩)
    rw [remappedByte_group htiles, hcomponent, getD_none]

theorem tableLookup_of_lt (simd : Simd) (source : ℕ → BitVec 8) {x : ℕ} (hx : x < 16) :
    tableLookup simd source (.ofNat 8 x) = source x := by
  have htoNat : (BitVec.ofNat 8 x).toNat = x := by
    rw [BitVec.toNat_ofNat, mod_eq_of_lt (by omega)]
  cases simd with
  | ssse3 =>
    have hmsb : (BitVec.ofNat 8 x).msb = false := by
      rw [BitVec.msb_eq_decide, htoNat, decide_eq_false]
      omega
    rw [tableLookup, hmsb, if_neg (by decide), htoNat, mod_eq_of_lt hx]
  | neon | none => rw [tableLookup, htoNat, if_pos hx]

theorem tableLookup_none (simd : Simd) (source : ℕ → BitVec 8) : tableLookup simd source 0xff = 0 := by
  cases simd <;> rfl

/-- The table of a remap. -/
def shuffleOf (remap : RemapConst) : RemapShuffle where
  srcBytesPerPixel := remap.remapSrcBytesPerPixel
  dstBytesPerPixel := remap.remapDstBytesPerPixel
  srcGroupBytes := 16 / remap.remapDstBytesPerPixel * remap.remapSrcBytesPerPixel
  entry := shuffleByte remap
  keeps := (List.range 16).any fun byte => (shuffleByte remap byte).keep ≠ 0

/-- **A group with vectors.** -/
theorem groupValue_eq (htiles : Tiles remap) (simd : Simd) {source old : ℕ → BitVec 8} (hbyte : byte < 16)
    (hsource : ∀ x < 16, source x = src.byte (16 / remap.remapDstBytesPerPixel * remap.remapSrcBytesPerPixel * k + x))
    (hold : (shuffleOf remap).keeps = true → old byte = dst.byte (16 * k + byte)) :
    groupValue simd (shuffleOf remap) source old byte = remap.remappedByte src dst (16 * k + byte) := by
  have hones : ~~~0#8 = BitVec.allOnes 8 := rfl
  have hblend : ∀ value, (if (shuffleOf remap).keeps then (0#8 &&& old byte) ||| (~~~0#8 &&& value) else value) =
      value := fun value => by
    split_ifs
    · rw [hones, BitVec.allOnes_and, BitVec.zero_and, BitVec.zero_or]
    · rfl
  have hshuffle : (shuffleOf remap).entry byte = shuffleByte remap byte := rfl
  rw [groupValue, hshuffle]
  rcases shuffleByte_cases htiles hbyte k with ⟨x, hx, hentry, -, hremapped⟩ | ⟨value, hentry, hremapped⟩ |
    ⟨hentry, hremapped⟩
  · rw [hentry, hremapped, tableLookup_of_lt simd source hx, hsource x hx]
    refine (hblend _).trans ?_
    simp
  · rw [hentry, hremapped, tableLookup_none]
    refine (hblend _).trans ?_
    simp
  · have hkeeps : (shuffleOf remap).keeps = true :=
      List.any_eq_true.2 ⟨byte, List.mem_range.2 hbyte, by rw [hentry]; decide⟩
    rw [hremapped, hentry, if_pos hkeeps, hold hkeeps]
    show 0xff#8 &&& _ ||| ~~~0xff#8 &&& _ = _
    rw [show 0xff#8 = BitVec.allOnes 8 from rfl, BitVec.allOnes_and, BitVec.not_allOnes, BitVec.zero_and,
      BitVec.or_zero]

/-- The groups end with their elements. -/
theorem group_lt (htiles : Tiles remap) (hk : 16 * k < count * remap.remapDstBytesPerPixel) :
    16 / remap.remapDstBytesPerPixel * remap.remapSrcBytesPerPixel * k ≤ count * remap.remapSrcBytesPerPixel := by
  obtain ⟨g, hg⟩ := dvd_of_mod_eq_zero htiles.mod
  have hpos := remapDstBytesPerPixel_pos remap
  rw [Nat.div_eq_of_eq_mul_right hpos hg, Nat.mul_right_comm]
  refine Nat.mul_le_mul_right _ (Nat.le_of_lt (Nat.lt_of_mul_lt_mul_left (a := remap.remapDstBytesPerPixel) ?_))
  rwa [← mul_assoc, ← hg, mul_comm _ count]

include hsrc hdst in
/-- **The loop with vectors** stops after some whole groups. -/
theorem simdGroups_spec (htiles : Tiles remap) (simd : Simd)
    (hk : 16 * k ≤ count * remap.remapDstBytesPerPixel) (h : Remapped remap src dst (16 * k) dst') :
    wp (simdGroups simd (shuffleOf remap) src (count * remap.remapDstBytesPerPixel)
      (count * remap.remapSrcBytesPerPixel) dst' ((shuffleOf remap).srcGroupBytes * k) (16 * k))
      fun result held => held = true ∧ ∃ k', result.2.1 = (shuffleOf remap).srcGroupBytes * k' ∧
        result.2.2 = 16 * k' ∧ 16 * k' ≤ count * remap.remapDstBytesPerPixel ∧
        Remapped remap src dst (16 * k') result.1 := by
  induction hrounds : count * remap.remapDstBytesPerPixel - 16 * k using Nat.strong_induction_on
    generalizing k dst' with
  | h rounds ih =>
    rw [simdGroups]
    split
    · rename_i hroom
      have hload : src.load ((shuffleOf remap).srcGroupBytes * k) 16 =
          .ret (fun i => src.byte ((shuffleOf remap).srcGroupBytes * k + i)) true := by
        rw [Buffer.load, if_pos (by omega), pure_eq]
      have hold : ∃ old : ℕ → BitVec 8, (if (shuffleOf remap).keeps then dst'.load (16 * k) 16
          else return fun _ => 0 : Exec (ℕ → BitVec 8)) = .ret old true ∧
          ∀ byte < 16, (shuffleOf remap).keeps = true → old byte = dst.byte (16 * k + byte) := by
        split_ifs with hkeeps
        · refine ⟨_, by rw [Buffer.load, if_pos (by rw [h.size]; omega), pure_eq], fun byte _ _ => ?_⟩
          rw [h.byte, if_neg (by omega)]
        · exact ⟨_, rfl, fun _ _ hkeeps' => absurd hkeeps' hkeeps⟩
      obtain ⟨old, hloadOld, hold⟩ := hold
      rw [hload, ret_true_bind, hloadOld, ret_true_bind, wp_bind]
      refine wp_mono (h.store (k := 16) (by omega) fun byte hbyte =>
        groupValue_eq htiles simd hbyte (fun _ _ => rfl) (hold byte hbyte)) fun dst₁ held hr => ?_
      obtain ⟨rfl, hnext⟩ := hr
      have hinput : (shuffleOf remap).srcGroupBytes * k + (shuffleOf remap).srcGroupBytes =
          (shuffleOf remap).srcGroupBytes * (k + 1) := (mul_succ ..).symm
      have hout : 16 * k + 16 = 16 * (k + 1) := (mul_succ ..).symm
      rw [hinput, hout]
      rw [hout] at hnext hroom
      exact ih _ (by omega) hroom.1 hnext rfl
    · rw [pure_eq, wp_ret]
      exact ⟨rfl, k, rfl, rfl, hk, h⟩

include hdst in
/-- **The bytes of a group, one by one.** -/
theorem storeGroup_spec (htiles : Tiles remap) {group : ℕ → BitVec 8} {chunk : ℕ} (hchunk : chunk ≤ 16)
    (hend : 16 * k + chunk ≤ count * remap.remapDstBytesPerPixel)
    (hgroup : ∀ x < 16, (shuffleOf remap).srcGroupBytes * k + x < count * remap.remapSrcBytesPerPixel →
      group x = src.byte ((shuffleOf remap).srcGroupBytes * k + x))
    (h : Remapped remap src dst (16 * k) dst') :
    wp (storeGroup (shuffleOf remap) group dst' (16 * k) chunk) fun dst'' held => held = true ∧
      Remapped remap src dst (16 * k + chunk) dst'' := by
  refine wp_foldlM_range (I := fun byte dst'' => Remapped remap src dst (16 * k + byte) dst'')
    (fun byte dst'' hbyte h => ?_) h
  have hone : ∀ {value : BitVec 8}, value = remap.remappedByte src dst (16 * k + byte) →
      ∀ o < 1, value = remap.remappedByte src dst (16 * k + byte + o) := fun hvalue o ho => by
    rwa [lt_one_iff.1 ho]
  have hshuffle : (shuffleOf remap).entry byte = shuffleByte remap byte := rfl
  dsimp only
  rw [hshuffle]
  rcases shuffleByte_cases htiles (hbyte.trans_le hchunk) k with ⟨x, hx, hentry, hin, hremapped⟩ |
    ⟨value, hentry, hremapped⟩ | ⟨hentry, hremapped⟩
  · have hindex : (BitVec.ofNat 8 x).toNat = x := by
      rw [BitVec.toNat_ofNat, mod_eq_of_lt (by omega)]
    rw [hentry, if_pos rfl]
    refine h.store (by omega) (hone ?_)
    dsimp only
    rw [hindex, if_pos hx, hremapped]
    exact hgroup x hx (hin count (by omega))
  · rw [hentry, if_pos rfl]
    refine h.store (by omega) (hone ?_)
    rw [hremapped]
    rfl
  · rw [hentry, if_neg (by decide), pure_eq, wp_ret]
    refine ⟨rfl, h.keep (k := 1) fun o ho => ?_⟩
    rw [lt_one_iff.1 ho]
    exact hremapped src dst

include hsrc hdst in
/-- **The remaining groups.** -/
theorem tailGroups_spec (htiles : Tiles remap)
    (h : Remapped remap src dst (min (16 * k) (count * remap.remapDstBytesPerPixel)) dst') :
    wp (tailGroups (shuffleOf remap) src (count * remap.remapDstBytesPerPixel)
      (count * remap.remapSrcBytesPerPixel) dst' ((shuffleOf remap).srcGroupBytes * k) (16 * k))
      fun dst'' held => held = true ∧ Remapped remap src dst (count * remap.remapDstBytesPerPixel) dst'' := by
  induction hrounds : count * remap.remapDstBytesPerPixel - 16 * k using Nat.strong_induction_on
    generalizing k dst' with
  | h rounds ih =>
    rw [tailGroups]
    split
    · rename_i hroom
      have hin : (shuffleOf remap).srcGroupBytes * k ≤ count * remap.remapSrcBytesPerPixel := group_lt htiles hroom
      rw [min_eq_left hroom.le] at h
      rw [wp_bind, loadGroup, if_neg (not_lt.2 hin), Buffer.load, if_pos (by omega), pure_eq, ret_true_bind, pure_eq,
        wp_ret, wp_bind]
      refine wp_mono (storeGroup_spec hdst htiles (min_le_left ..) (by omega) (fun x hx hlt => ?_) h)
        fun dst₁ held hr => ?_
      · rw [if_pos (by omega)]
      · obtain ⟨rfl, hnext⟩ := hr
        have hinput : (shuffleOf remap).srcGroupBytes * k + (shuffleOf remap).srcGroupBytes =
            (shuffleOf remap).srcGroupBytes * (k + 1) := (mul_succ ..).symm
        have hout : 16 * k + 16 = 16 * (k + 1) := (mul_succ ..).symm
        rw [hinput, hout]
        refine ih _ (by omega) ?_ rfl
        have hmin : 16 * k + min 16 (count * remap.remapDstBytesPerPixel - 16 * k) =
            min (16 * (k + 1)) (count * remap.remapDstBytesPerPixel) := by omega
        rwa [← hmin]
    · rename_i hroom
      rw [pure_eq, wp_ret]
      rw [min_eq_right (not_lt.1 hroom)] at h
      exact ⟨rfl, h⟩

/-- **Groups of 16 bytes** give what the components say. -/
theorem applyRemapShuffle_spec (htiles : Tiles remap) (simd : Simd)
    (hsrc : count * remap.remapSrcBytesPerPixel ≤ src.size) (hdst : count * remap.remapDstBytesPerPixel ≤ dst.size) :
    wp (applyRemapShuffle simd (shuffleOf remap) src dst count) fun dst' held => held = true ∧
      Remapped remap src dst (count * remap.remapDstBytesPerPixel) dst' := by
  have hstart : Remapped remap src dst (16 * 0) dst := .refl remap src dst
  have htail : ∀ {k dst'}, 16 * k ≤ count * remap.remapDstBytesPerPixel → Remapped remap src dst (16 * k) dst' →
      wp (tailGroups (shuffleOf remap) src (count * remap.remapDstBytesPerPixel) (count * remap.remapSrcBytesPerPixel)
        dst' ((shuffleOf remap).srcGroupBytes * k) (16 * k)) fun dst'' held => held = true ∧
        Remapped remap src dst (count * remap.remapDstBytesPerPixel) dst'' := fun hk h =>
    tailGroups_spec hsrc hdst htiles (by rwa [min_eq_left hk])
  rw [applyRemapShuffle]
  split_ifs
  · rw [pure_eq, ret_true_bind]
    exact htail (zero_le _) hstart
  · rw [wp_bind]
    refine wp_mono (simdGroups_spec hsrc hdst htiles simd (zero_le _) hstart) fun result held hr => ?_
    obtain ⟨dst', input, out⟩ := result
    obtain ⟨rfl, k, rfl, rfl, hk, h⟩ := hr
    exact htail hk h

end

/-- **`ApplyRemap` is the walk over the components**, with or without a table.  It stays inside of the buffers; each
byte of a component becomes what the component takes, and all others keep their values. -/
theorem applyRemap_exact (simd : Simd) (remap : RemapConst) (src dst : Buffer) (count : ℕ)
    (hsrc : count * remap.remapSrcBytesPerPixel ≤ src.size) (hdst : count * remap.remapDstBytesPerPixel ≤ dst.size) :
    ∃ dst', applyRemap simd remap src dst count = .ret dst' true ∧ dst'.size = dst.size ∧
      (∀ element < count, ∀ c < remap.dstComponents, ∀ offset < remap.remapComponentSize,
        let i := element * remap.remapDstBytesPerPixel + c * remap.remapComponentSize + offset
        dst'.byte i = (remap.componentByte src element offset (remap.remapSwizzle c)).getD (dst.byte i)) ∧
      ∀ i, count * remap.remapDstBytesPerPixel ≤ i → dst'.byte i = dst.byte i := by
  have hspec : (applyRemap simd remap src dst count).wp fun dst' held => held = true ∧
      Remapped remap src dst (count * remap.remapDstBytesPerPixel) dst' := by
    rw [applyRemap]
    cases hmake : makeRemapShuffle remap with
    | none => exact applyRemapSized_spec hsrc hdst
    | some shuffle =>
      rw [makeRemapShuffle] at hmake
      split_ifs at hmake with hnot
      rw [not_or, not_not, not_lt] at hnot
      obtain rfl : shuffleOf remap = shuffle := Option.some_inj.1 hmake
      exact applyRemapShuffle_spec ⟨hnot.1, hnot.2⟩ simd hsrc hdst
  obtain ⟨dst', held, hrun, rfl, hremapped⟩ := hspec
  refine ⟨dst', hrun, hremapped.size, fun element helement c hc offset hoffset => ?_, fun i hi => ?_⟩
  · have hlt := component_lt hc hoffset
    have hle : (element + 1) * remap.remapDstBytesPerPixel ≤ count * remap.remapDstBytesPerPixel :=
      Nat.mul_le_mul_right _ helement
    rw [Nat.succ_mul, RemapConst.remapDstBytesPerPixel] at hle
    dsimp only
    rw [hremapped.byte, if_pos (by rw [RemapConst.remapDstBytesPerPixel]; omega), remappedByte_component hc hoffset]
  · rw [hremapped.byte, if_neg (not_lt.2 hi)]

/-- Elements of two bytes become elements of four: the second byte, the first, a constant, and one that is kept. -/
theorem applyRemap_exact_swap : ∃ dst', applyRemap .ssse3 ⟨0x11223344, 0, .srcY, .srcX, .constA, .noWrite, 0, 1, 3⟩
    ⟨4, fun i => .ofNat 8 (i + 1)⟩ ⟨8, fun _ => 0xee⟩ 2 = .ret dst' true ∧ dst'.byte 4 = 4 ∧ dst'.byte 5 = 3 ∧
    dst'.byte 6 = 0x44 ∧ dst'.byte 7 = 0xee := by
  obtain ⟨dst', hrun, -, hbyte, -⟩ := applyRemap_exact .ssse3 ⟨0x11223344, 0, .srcY, .srcX, .constA, .noWrite, 0, 1, 3⟩
    ⟨4, fun i => .ofNat 8 (i + 1)⟩ ⟨8, fun _ => 0xee⟩ 2 (by decide) (by decide)
  exact ⟨dst', hrun, hbyte 1 (by decide) 0 (by decide) 0 (by decide), hbyte 1 (by decide) 1 (by decide) 0 (by decide),
    hbyte 1 (by decide) 2 (by decide) 0 (by decide), hbyte 1 (by decide) 3 (by decide) 0 (by decide)⟩

end Engines
end Tegra
end NXEmu
