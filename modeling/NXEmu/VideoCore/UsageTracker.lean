/-
# The usage tracker

`yuzu_video_core/buffer_cache/usage_tracker.h`: a bit for each block of 64 bytes of a buffer, set when a range that
meets the block is tracked.  `Track` leaves out a range whose blocks lie in the covered interval, which is grown
when a tracked range touches it and replaced when one that is apart from it is longer.

The covered interval never has a block that is not set (`Inv.covered`), so that the shortcut changes no bit: after
any calls the tracker says of a range what one without the interval would, and that is whether a block of the range
meets a range tracked since the last `Reset` (`isUsed_exact`).

Offsets and sizes are numbers: nothing here goes past the size of the tracker, which has 64 bits.
-/

import NXEmu.Common.Alignment
import NXEmu.Lib.WordBitmap
import Mathlib.Data.List.Induction

namespace NXEmu
namespace VideoCommon

open WordBitmap Common List

/-- `1 << BYTES_PER_BIT_SHIFT` -/
abbrev bytesPerBit : ℕ := 64

/-- `PAGE_BYTES` -/
abbrev pageBytes : ℕ := 4096

/-- `UsageTracker` -/
structure UsageTracker where
  /-- `pages.size()` -/
  numPages : ℕ
  pages : Words
  coveredBegin : ℕ
  coveredEnd : ℕ

namespace UsageTracker

/-- The constructor. -/
def new (size : ℕ) : UsageTracker := ⟨size / pageBytes + 1, fun _ => 0, 0, 0⟩

/-- `PageMask`: the bits of the blocks of a page that the range meets. -/
def pageMask (offset size : ℕ) : BitVec 64 :=
  if size = 0 then 0
  else
    let offsetInPage := offset % pageBytes
    let firstBit := offsetInPage / bytesPerBit
    let endOffset := min (offsetInPage + size) pageBytes
    let endBit := alignUp endOffset bytesPerBit / bytesPerBit
    (BitVec.allOnes 64 <<< firstBit) &&& (BitVec.allOnes 64 >>> (64 - endBit))

section Operations

variable (t : UsageTracker) (offset size : ℕ)

/-- `Reset` -/
def reset : UsageTracker := { t with pages := fun _ => 0, coveredBegin := 0, coveredEnd := 0 }

/-- `TrackPage` -/
def trackPage (page offset size : ℕ) : UsageTracker :=
  { t with pages := Function.update t.pages page (t.pages page ||| pageMask offset size) }

/-- `IsPageUsed` -/
def isPageUsed (page offset size : ℕ) : Bool := decide (t.pages page &&& pageMask offset size ≠ 0)

/-- The loop of `Track` over the pages between the first and the last one. -/
def fillPages (first last : ℕ) : UsageTracker :=
  { t with
    pages := (List.range' first (last - first)).foldl
      (fun pages i => Function.update pages i (BitVec.allOnes 64)) t.pages }

/-- The part of `Track` that fills the bitmap. -/
def fill : UsageTracker :=
  let page := offset / pageBytes
  let pageEnd := (offset + size) / pageBytes
  let t := t.trackPage page offset size
  if page = pageEnd then t
  else
    let t := t.fillPages (page + 1) pageEnd
    let offsetEnd := offset + size
    let offsetEndPageAligned := alignDown offsetEnd pageBytes
    t.trackPage pageEnd offsetEndPageAligned (offsetEnd - offsetEndPageAligned)

/-- The change of the covered interval. -/
def cover (beginBlock endBlock : ℕ) : UsageTracker :=
  if beginBlock ≤ t.coveredEnd ∧ t.coveredBegin ≤ endBlock then
    { t with coveredBegin := min t.coveredBegin beginBlock, coveredEnd := max t.coveredEnd endBlock }
  else if t.coveredEnd - t.coveredBegin < endBlock - beginBlock then
    -- the largest covered interval is kept when small ranges that are apart alternate
    { t with coveredBegin := beginBlock, coveredEnd := endBlock }
  else t

/-- The range is not in the bitmap. -/
def Outside : Prop :=
  (offset + size) / pageBytes < offset / pageBytes ∨ t.numPages ≤ (offset + size) / pageBytes

instance : Decidable (t.Outside offset size) := inferInstanceAs (Decidable (_ ∨ _))

/-- `Track`: the blocks of the range are used. -/
def track : UsageTracker :=
  if size = 0 ∨ t.Outside offset size then t
  else
    let beginBlock := offset / bytesPerBit
    let endBlock := (offset + size - 1) / bytesPerBit + 1
    if t.coveredBegin ≤ beginBlock ∧ endBlock ≤ t.coveredEnd then t
    else (t.cover beginBlock endBlock).fill offset size

/-- `Track` without the covered interval. -/
def trackPlain : UsageTracker := if size = 0 ∨ t.Outside offset size then t else t.fill offset size

/-- `IsUsed`: a block of the range was tracked. -/
def isUsed : Bool :=
  if size = 0 ∨ t.Outside offset size then false
  else
    let page := offset / pageBytes
    let pageEnd := (offset + size) / pageBytes
    if t.isPageUsed page offset size then true
    else if page = pageEnd then false
    else if (List.range' (page + 1) (pageEnd - (page + 1))).any fun i => t.pages i ≠ 0 then true
    else
      let offsetEnd := offset + size
      let offsetEndPageAligned := alignDown offsetEnd pageBytes
      t.isPageUsed pageEnd offsetEndPageAligned (offsetEnd - offsetEndPageAligned)

end Operations

/-! ### The blocks of a range -/

/-- A block has a byte of the range. -/
def Meets (offset size block : ℕ) : Prop := ∃ byte, byte / bytesPerBit = block ∧ offset ≤ byte ∧ byte < offset + size

variable {t : UsageTracker} {offset size block page : ℕ}

theorem meets_iff : Meets offset size block ↔
    0 < size ∧ offset / bytesPerBit ≤ block ∧ block ≤ (offset + size - 1) / bytesPerBit := by
  simp only [bytesPerBit]
  constructor
  · rintro ⟨byte, rfl, hlow, hhigh⟩
    simp only [bytesPerBit]
    omega
  · rintro ⟨hpos, hlow, hhigh⟩
    refine ⟨max offset (block * 64), ?_, le_max_left _ _, ?_⟩
    · simp only [bytesPerBit]
      omega
    · omega

theorem alignUp_div (value : ℕ) : alignUp value bytesPerBit / bytesPerBit = (value + 63) / 64 := by
  have hle := le_alignUp value (show 0 < bytesPerBit by decide)
  have hlt := alignUp_lt value (show 0 < bytesPerBit by decide)
  obtain ⟨k, hk⟩ := dvd_alignUp value bytesPerBit
  simp only [bytesPerBit] at *
  omega

/-- The mask of a page has the blocks of the range up to the end of the page of its first byte. -/
theorem inSpan_pageMask : InSpan (page, pageMask offset size) block ↔ block / 64 = page ∧ 0 < size ∧
    offset % 4096 / 64 ≤ block % 64 ∧ block % 64 * 64 < offset % 4096 + size := by
  rw [InSpan, pageMask]
  refine and_congr_right fun _ => ?_
  split_ifs with hzero
  · simp [hzero]
  · dsimp only
    rw [alignUp_div]
    simp only [pageBytes, bytesPerBit]
    rw [getLsbD_onesMask (by omega), decide_eq_true_eq]
    omega

/-- The spans of a range: its first page, those between and its last one. -/
def spans (offset size : ℕ) : List Span :=
  let page := offset / pageBytes
  let pageEnd := (offset + size) / pageBytes
  if page = pageEnd then [(page, pageMask offset size)]
  else
    (page, pageMask offset size) ::
      ((List.range' (page + 1) (pageEnd - (page + 1))).map fun i => (i, BitVec.allOnes 64)) ++
        [(pageEnd, pageMask (alignDown (offset + size) pageBytes)
          (offset + size - alignDown (offset + size) pageBytes))]

/-- **The spans of a range have its blocks.** -/
theorem inSpans_spans : InSpans (spans offset size) block ↔ Meets offset size block := by
  rw [meets_iff, spans, alignDown_eq]
  simp only [bytesPerBit, pageBytes]
  split_ifs with hpage
  · rw [inSpans_cons, inSpan_pageMask]
    simp only [inSpans_nil, or_false]
    omega
  · have hmiddle : InSpans ((range' (offset / 4096 + 1)
        ((offset + size) / 4096 - (offset / 4096 + 1))).map fun i => (i, BitVec.allOnes 64)) block ↔
        offset / 4096 + 1 ≤ block / 64 ∧ block / 64 < (offset + size) / 4096 := by
      simp only [InSpans, InSpan, mem_map, mem_range'_1]
      constructor
      · rintro ⟨_, ⟨i, hi, rfl⟩, rfl, -⟩
        omega
      · intro hi
        refine ⟨_, ⟨block / 64, by omega, rfl⟩, rfl, ?_⟩
        rw [BitVec.getLsbD_allOnes, decide_eq_true_eq]
        exact Nat.mod_lt block (by decide)
    rw [cons_append, inSpans_cons, inSpans_append, hmiddle, inSpans_cons, inSpan_pageMask, inSpan_pageMask]
    simp only [inSpans_nil, or_false]
    omega

/-! ### What the routines do to the blocks -/

/-- A block whose bit is set. -/
def Used (t : UsageTracker) (block : ℕ) : Prop := bit t.pages block = true

theorem fill_eq (t : UsageTracker) (offset size : ℕ) :
    t.fill offset size = { t with pages := (spans offset size).foldl insertSpan t.pages } := by
  have hpages : ∀ (l : List ℕ) (pages : Words), l.foldl (fun pages i =>
      Function.update pages i (BitVec.allOnes 64)) pages =
        (l.map fun i => (i, BitVec.allOnes 64)).foldl insertSpan pages := by
    intro l
    induction l with
    | nil => exact fun _ => rfl
    | cons i l ih =>
      intro pages
      have hones : pages i ||| BitVec.allOnes 64 = BitVec.allOnes 64 := BitVec.or_allOnes
      rw [foldl_cons, ih, map_cons, foldl_cons, insertSpan, hones]
  rw [fill, spans]
  dsimp only
  split_ifs with hpage
  · rfl
  · rw [cons_append, foldl_cons, foldl_append, ← hpages]
    rfl

/-- **Filling the bitmap** sets the bits of the blocks of the range. -/
theorem used_fill : (t.fill offset size).Used block ↔ t.Used block ∨ Meets offset size block := by
  rw [Used, fill_eq, bit_insertSpans, inSpans_spans, Used]

@[simp] theorem used_cover {b e : ℕ} : (t.cover b e).Used block ↔ t.Used block := by
  rw [cover]
  split_ifs <;> rfl

theorem isPageUsed_eq (t : UsageTracker) (page offset size : ℕ) :
    t.isPageUsed page offset size = meetsSpan t.pages (page, pageMask offset size) := rfl

/-- **`IsUsed` asks for the blocks of the range.** -/
theorem isUsed_iff (hin : ¬t.Outside offset size) :
    t.isUsed offset size = true ↔ ∃ block, Meets offset size block ∧ t.Used block := by
  by_cases hzero : size = 0
  · simp [isUsed, hzero, meets_iff]
  have hany : t.isUsed offset size = (spans offset size).any (meetsSpan t.pages) := by
    have hones : ∀ i, decide (t.pages i ≠ 0) = meetsSpan t.pages (i, BitVec.allOnes 64) := fun i => by
      rw [meetsSpan, BitVec.and_allOnes]
    rw [isUsed, if_neg (by tauto), spans]
    dsimp only
    simp only [isPageUsed_eq, hones]
    split_ifs with hfirst hpage hpage hmiddle
    · simp [hfirst]
    · simp [hfirst]
    · simp [hfirst]
    · rw [cons_append, any_cons, any_append, any_map, Function.comp_def, hmiddle]
      simp
    · rw [cons_append, any_cons, any_append, any_map, Function.comp_def,
        Bool.eq_false_iff.2 hmiddle, Bool.eq_false_iff.2 hfirst]
      simp
  rw [hany, meetsSpans_iff]
  simp only [inSpans_spans, Used]

/-! ### Runs -/

/-- A call that changes a tracker. -/
inductive Call where
  | track (offset size : ℕ)
  | reset

/-- A call on a tracker. -/
def step (t : UsageTracker) : Call → UsageTracker
  | .track offset size => t.track offset size
  | .reset => t.reset

/-- A call on a tracker without a covered interval. -/
def stepPlain (t : UsageTracker) : Call → UsageTracker
  | .track offset size => t.trackPlain offset size
  | .reset => t.reset

/-- A call stays inside a tracker of this size. -/
def Call.Fits (bytes : ℕ) : Call → Prop
  | .track offset size => offset + size ≤ bytes
  | .reset => True

/-- The ranges tracked since the last `Reset`. -/
def tracked (calls : List Call) : List (ℕ × ℕ) :=
  calls.foldl (fun ranges call =>
    match call with
    | .track offset size => ranges ++ [(offset, size)]
    | .reset => []) []

/-- A tracker of a number of bytes, where the bits that are set are those of the blocks of some ranges, and the
covered interval has none that is not set. -/
structure Inv (bytes : ℕ) (ranges : List (ℕ × ℕ)) (t : UsageTracker) : Prop where
  numPages : t.numPages = bytes / pageBytes + 1
  used : ∀ block, t.Used block ↔ ∃ range ∈ ranges, Meets range.1 range.2 block
  covered : ∀ block, t.coveredBegin ≤ block → block < t.coveredEnd → t.Used block

variable {bytes : ℕ} {ranges : List (ℕ × ℕ)}

theorem not_outside (hnum : t.numPages = bytes / pageBytes + 1) (hfits : offset + size ≤ bytes) :
    ¬t.Outside offset size := by
  rw [Outside, hnum]
  simp only [pageBytes]
  omega

theorem not_used (h : t.pages = fun _ => 0) : ¬t.Used block := by simp [Used, bit, h]

theorem inv_new (bytes : ℕ) : Inv bytes [] (new bytes) where
  numPages := rfl
  used block := by
    have hnot : ¬(new bytes).Used block := not_used rfl
    simpa using hnot
  covered block _ hlt := absurd hlt (Nat.not_lt_zero block)

theorem Inv.reset (h : Inv bytes ranges t) : Inv bytes [] t.reset where
  numPages := h.numPages
  used block := by
    have hnot : ¬t.reset.Used block := not_used rfl
    simpa using hnot
  covered block _ hlt := absurd hlt (Nat.not_lt_zero block)

/-- The covered interval after a range was tracked has blocks it had before and blocks of the range. -/
theorem covered_cover {b e : ℕ} (hlow : (t.cover b e).coveredBegin ≤ block)
    (hhigh : block < (t.cover b e).coveredEnd) :
    t.coveredBegin ≤ block ∧ block < t.coveredEnd ∨ b ≤ block ∧ block < e := by
  rw [cover] at hlow hhigh
  split_ifs at hlow hhigh with htouch hlarger
  · simp only at hlow hhigh
    omega
  · exact .inr ⟨hlow, hhigh⟩
  · exact .inl ⟨hlow, hhigh⟩

/-- **`Track`** sets the bits of its range, or leaves out a range whose bits are set. -/
theorem Inv.track (h : Inv bytes ranges t) (hfits : offset + size ≤ bytes) :
    Inv bytes (ranges ++ [(offset, size)]) (t.track offset size) := by
  have hranges : ∀ block, (∃ range ∈ ranges ++ [(offset, size)], Meets range.1 range.2 block) ↔
      t.Used block ∨ Meets offset size block := fun block => by
    simp [h.used, or_and_right, exists_or]
  have hin := not_outside h.numPages hfits
  rw [UsageTracker.track]
  by_cases hzero : size = 0
  · rw [if_pos (.inl hzero)]
    refine ⟨h.numPages, fun block => ?_, h.covered⟩
    rw [hranges, or_iff_left]
    rw [meets_iff]
    omega
  rw [if_neg (by tauto)]
  dsimp only
  have hmeets : ∀ block, Meets offset size block ↔
      offset / bytesPerBit ≤ block ∧ block < (offset + size - 1) / bytesPerBit + 1 := fun block => by
    rw [meets_iff]
    omega
  split_ifs with hcovered
  · refine ⟨h.numPages, fun block => ?_, h.covered⟩
    rw [hranges, or_iff_left_of_imp]
    intro hblock
    rw [hmeets] at hblock
    exact h.covered block (by omega) (by omega)
  · refine ⟨?_, fun block => ?_, fun block hlow hhigh => ?_⟩
    · rw [fill_eq, ← h.numPages, cover]
      split_ifs <;> rfl
    · rw [hranges, used_fill, used_cover]
    · rw [used_fill, used_cover]
      rw [fill_eq] at hlow hhigh
      rcases covered_cover hlow hhigh with ⟨hb, he⟩ | hblock
      · exact .inl (h.covered block hb he)
      · exact .inr ((hmeets block).2 hblock)

/-- The bits alone: what a tracker without a covered interval keeps. -/
theorem used_trackPlain (hnum : t.numPages = bytes / pageBytes + 1)
    (hused : ∀ block, t.Used block ↔ ∃ range ∈ ranges, Meets range.1 range.2 block) (hfits : offset + size ≤ bytes)
    (block : ℕ) : (t.trackPlain offset size).Used block ↔
      ∃ range ∈ ranges ++ [(offset, size)], Meets range.1 range.2 block := by
  have hin := not_outside hnum hfits
  have hranges : (∃ range ∈ ranges ++ [(offset, size)], Meets range.1 range.2 block) ↔
      t.Used block ∨ Meets offset size block := by
    simp [hused, or_and_right, exists_or]
  rw [hranges, UsageTracker.trackPlain]
  by_cases hzero : size = 0
  · rw [if_pos (.inl hzero), or_iff_left]
    rw [meets_iff]
    omega
  · rw [if_neg (by tauto), used_fill]

/-- The calls one after the other. -/
def run (bytes : ℕ) (calls : List Call) : UsageTracker := calls.foldl step (new bytes)

/-- The calls on a tracker without a covered interval. -/
def runPlain (bytes : ℕ) (calls : List Call) : UsageTracker := calls.foldl stepPlain (new bytes)

theorem tracked_concat (calls : List Call) (call : Call) : tracked (calls ++ [call]) = match call with
    | .track offset size => tracked calls ++ [(offset, size)]
    | .reset => [] := by
  rw [tracked, tracked, foldl_append, foldl_cons, foldl_nil]

theorem inv_run {calls : List Call} (hfits : ∀ call ∈ calls, call.Fits bytes) :
    Inv bytes (tracked calls) (run bytes calls) := by
  induction calls using reverseRecOn with
  | nil => exact inv_new bytes
  | append_singleton calls call ih =>
    have ih := ih fun c hc => hfits c (mem_append_left _ hc)
    have hcall : call.Fits bytes := hfits call (by simp)
    rw [run, foldl_append, foldl_cons, foldl_nil, tracked_concat]
    cases call with
    | track offset size => exact ih.track hcall
    | reset => exact ih.reset

theorem used_runPlain {calls : List Call} (hfits : ∀ call ∈ calls, call.Fits bytes) :
    (runPlain bytes calls).numPages = bytes / pageBytes + 1 ∧
      ∀ block, (runPlain bytes calls).Used block ↔ ∃ range ∈ tracked calls, Meets range.1 range.2 block := by
  induction calls using reverseRecOn with
  | nil => exact ⟨rfl, (inv_new bytes).used⟩
  | append_singleton calls call ih =>
    obtain ⟨hnum, hused⟩ := ih fun c hc => hfits c (mem_append_left _ hc)
    have hcall : call.Fits bytes := hfits call (by simp)
    rw [runPlain, foldl_append, foldl_cons, foldl_nil, tracked_concat]
    cases call with
    | track offset size =>
      refine ⟨?_, used_trackPlain hnum hused hcall⟩
      change ((runPlain bytes calls).trackPlain offset size).numPages = _
      rw [UsageTracker.trackPlain, ← hnum]
      split_ifs
      · rfl
      · rw [fill_eq]
    | reset =>
      refine ⟨hnum, fun block => ?_⟩
      have hnot : ¬((calls.foldl stepPlain (new bytes)).stepPlain .reset).Used block := not_used rfl
      simpa using hnot

/-- **The covered interval cannot be seen.**  After any calls `IsUsed` says of a range whether one of its blocks meets
a range tracked since the last `Reset`, which is what a tracker says that fills its bitmap in every `Track`. -/
theorem isUsed_exact (bytes : ℕ) (calls : List Call) (offset size : ℕ) (hfits : ∀ call ∈ calls, call.Fits bytes)
    (hquery : offset + size ≤ bytes) :
    ((run bytes calls).isUsed offset size = true ↔
      ∃ block, Meets offset size block ∧ ∃ range ∈ tracked calls, Meets range.1 range.2 block) ∧
    (run bytes calls).isUsed offset size = (runPlain bytes calls).isUsed offset size := by
  have hinv := inv_run hfits
  obtain ⟨hnum, hused⟩ := used_runPlain hfits
  have hiff : (run bytes calls).isUsed offset size = true ↔
      ∃ block, Meets offset size block ∧ ∃ range ∈ tracked calls, Meets range.1 range.2 block := by
    rw [isUsed_iff (not_outside hinv.numPages hquery)]
    simp only [hinv.used]
  refine ⟨hiff, ?_⟩
  rw [Bool.eq_iff_iff, hiff, isUsed_iff (not_outside hnum hquery)]
  simp only [hused]

/-- A range is tracked, one that lies in its blocks, and one apart from it. -/
theorem isUsed_exact_twoRanges :
    ((run 0x10000 [.track 0x10 0x2000, .track 0x40 0x40, .track 0x8000 1]).isUsed 0x8020 8 = true ↔
      ∃ block, Meets 0x8020 8 block ∧
        ∃ range ∈ tracked [.track 0x10 0x2000, .track 0x40 0x40, .track 0x8000 1], Meets range.1 range.2 block) ∧
    (run 0x10000 [.track 0x10 0x2000, .track 0x40 0x40, .track 0x8000 1]).isUsed 0x8020 8 =
      (runPlain 0x10000 [.track 0x10 0x2000, .track 0x40 0x40, .track 0x8000 1]).isUsed 0x8020 8 := by
  refine isUsed_exact 0x10000 _ 0x8020 8 (fun call hcall => ?_) (by decide)
  simp only [List.mem_cons, List.not_mem_nil, or_false] at hcall
  rcases hcall with rfl | rfl | rfl <;> simp only [Call.Fits] <;> decide

end UsageTracker

end VideoCommon
end NXEmu
