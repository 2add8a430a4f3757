/-
# Filters of pages

`yuzu_video_core/gpu_write_history.h` and `flush_region_cache_filter.h`: bitmaps over the pages of device memory
that tell a reader without a lock that a region cannot have been written (`GpuWriteHistory`), holds nothing that was
set and not cleared since (`AtomicPageBits`), or has no resource of a cache (`FlushRegionCacheFilter`).

A range goes over the bitmap a word at a time (`visitWords`), with a mask that is cut at both of its ends
(`inSpans_wordSpans`); `Filter` goes over it page by page, which comes to the same (`pageLoop_eq`).  A range that
is not within the limit sets a flag that is never taken back, and a question about one is answered with yes.  So no
filter misses a byte that was marked, and while nothing was marked past the limit a filter says yes only of ranges
that share a page with what was marked (`filters_exact`).

Addresses and sizes are numbers: a range that passed the tests for the limit has no sum that wraps.  The filters are
called one call after the other.
-/

import NXEmu.Lib.Live
import NXEmu.Lib.WordBitmap
import Mathlib.Data.List.Induction

namespace NXEmu
namespace VideoCommon

open WordBitmap List

/-- `AddressBits` and `PageBits`. -/
structure PageBits where
  addressBits : ℕ
  pageBits : ℕ
  le : pageBits ≤ addressBits
  lt : addressBits < 64

namespace PageBits

variable (c : PageBits)

/-- `Limit` -/
def limit : ℕ := 2 ^ c.addressBits

/-- `WordCount` -/
def wordCount : ℕ := (c.limit / 2 ^ c.pageBits + 63) / 64

/-- The page of an address, `address >> PageBits`. -/
def pageOf (address : ℕ) : ℕ := address / 2 ^ c.pageBits

/-- The range passes the tests for the limit. -/
def InRange (address size : ℕ) : Prop := address < c.limit ∧ size ≤ c.limit - address

instance (address size : ℕ) : Decidable (c.InRange address size) := inferInstanceAs (Decidable (_ ∧ _))

/-- A page that the range meets. -/
def Touches (address size page : ℕ) : Prop :=
  0 < size ∧ c.pageOf address ≤ page ∧ page ≤ c.pageOf (address + size - 1)

end PageBits

/-! ### The words of a range -/

/-- The mask of the word of `page`. -/
def wordMask (page last : ℕ) : BitVec 64 :=
  let begin := page % 64
  let stop := if last / 64 = page / 64 then last % 64 + 1 else 64
  (BitVec.allOnes 64 <<< begin) &&& (if stop = 64 then BitVec.allOnes 64 else (1#64 <<< stop) - 1)

/-- `VisitWords` from a page on. -/
def visitWords {σ : Type} (visit : σ → ℕ → BitVec 64 → σ × Bool) (last page : ℕ) (s : σ) : σ × Bool :=
  if page ≤ last then
    let word := page / 64
    let visited := visit s word (wordMask page last)
    if visited.2 then (visited.1, true) else visitWords visit last ((word + 1) * 64) visited.1
  else (s, false)
termination_by last + 1 - page

/-- The words that `VisitWords` comes to, with the masks. -/
def wordSpans (last page : ℕ) : List Span :=
  if page ≤ last then (page / 64, wordMask page last) :: wordSpans last ((page / 64 + 1) * 64) else []
termination_by last + 1 - page

variable {σ : Type} {first last page i : ℕ}

theorem inSpan_wordMask : InSpan (page / 64, wordMask page last) i ↔ i / 64 = page / 64 ∧ page ≤ i ∧
    (last / 64 = page / 64 → i ≤ last) := by
  have hstop : (if last / 64 = page / 64 then last % 64 + 1 else 64) ≤ 64 := by split_ifs <;> omega
  rw [InSpan, wordMask]
  dsimp only
  rw [getLsbD_powerMask hstop, decide_eq_true_eq]
  refine and_congr_right fun hword => ?_
  split_ifs with hlast <;> omega

/-- **The words of a range have its pages.** -/
theorem inSpans_wordSpans (last page : ℕ) : InSpans (wordSpans last page) i ↔ page ≤ i ∧ i ≤ last := by
  induction page using wordSpans.induct last with
  | case1 page hle ih =>
    rw [wordSpans, if_pos hle, inSpans_cons, inSpan_wordMask, ih]
    omega
  | case2 page hlt =>
    rw [wordSpans, if_neg hlt]
    simp only [inSpans_nil, false_iff]
    omega

theorem fst_mem_wordSpans (last page : ℕ) : ∀ s ∈ wordSpans last page, page / 64 ≤ s.1 ∧ s.1 ≤ last / 64 := by
  induction page using wordSpans.induct last with
  | case1 page hle ih =>
    rw [wordSpans, if_pos hle]
    intro s hs
    rcases mem_cons.1 hs with rfl | hs
    · exact ⟨le_rfl, Nat.div_le_div_right hle⟩
    · have := ih s hs
      omega
  | case2 page hlt =>
    rw [wordSpans, if_neg hlt]
    exact fun s hs => absurd hs not_mem_nil

/-- No word is visited twice. -/
theorem pairwise_wordSpans (last page : ℕ) : (wordSpans last page).Pairwise fun s s' => s.1 < s'.1 := by
  induction page using wordSpans.induct last with
  | case1 page hle ih =>
    rw [wordSpans, if_pos hle]
    refine pairwise_cons.2 ⟨fun s hs => ?_, ih⟩
    have := fst_mem_wordSpans _ _ s hs
    simp only
    omega
  | case2 page hlt =>
    rw [wordSpans, if_neg hlt]
    exact List.Pairwise.nil

/-- A visit that never ends the loop. -/
theorem visitWords_fold (change : σ → Span → σ) (last page : ℕ) (s : σ) :
    visitWords (fun s word mask => (change s (word, mask), false)) last page s =
      ((wordSpans last page).foldl change s, false) := by
  induction page using wordSpans.induct last generalizing s with
  | case1 page hle ih =>
    rw [visitWords, if_pos hle, wordSpans, if_pos hle]
    simp only [Bool.false_eq_true, if_false, foldl_cons]
    exact ih _
  | case2 page hlt =>
    rw [visitWords, if_neg hlt, wordSpans, if_neg hlt]
    rfl

/-- A visit that only asks. -/
theorem visitWords_any (ask : Span → Bool) (last page : ℕ) :
    (visitWords (fun s word mask => (s, ask (word, mask))) last page ()).2 = (wordSpans last page).any ask := by
  induction page using wordSpans.induct last with
  | case1 page hle ih =>
    rw [visitWords, if_pos hle, wordSpans, if_pos hle, any_cons]
    cases hask : ask (page / 64, wordMask page last) with
    | true => simp [hask]
    | false => simpa [hask] using ih
  | case2 page hlt =>
    rw [visitWords, if_neg hlt, wordSpans, if_neg hlt]
    rfl

/-! ### The filters -/

/-- The words of `GpuWriteHistory` and `AtomicPageBits`. -/
structure PageWords where
  pages : Words
  unbounded : Bool

namespace PageWords

/-- Nothing is marked. -/
def empty : PageWords := ⟨fun _ => 0, false⟩

/-- The pages of a range are published: bits that are set are not written again. -/
def publish (c : PageBits) (f : PageWords) (address size : ℕ) : PageWords :=
  if size = 0 then f
  else if ¬c.InRange address size then { f with unbounded := true }
  else
    { f with
      pages := (visitWords (fun pages word mask =>
        (if pages word &&& mask = mask then pages else Function.update pages word (pages word ||| mask), false))
        (c.pageOf (address + size - 1)) (c.pageOf address) f.pages).1 }

/-- Some page of a range is published. -/
def reports (c : PageBits) (f : PageWords) (address size : ℕ) : Bool :=
  if size = 0 then false
  else if ¬c.InRange address size ∨ f.unbounded = true then true
  else
    (visitWords (fun s word mask => (s, decide (f.pages word &&& mask ≠ 0)))
      (c.pageOf (address + size - 1)) (c.pageOf address) ()).2

end PageWords

namespace GpuWriteHistory

/-- `Mark` -/
def mark (c : PageBits) (f : PageWords) (address size : ℕ) : PageWords := f.publish c address size

/-- `MayHaveWrites` -/
def mayHaveWrites (c : PageBits) (f : PageWords) (address size : ℕ) : Bool := f.reports c address size

end GpuWriteHistory

namespace AtomicPageBits

/-- `Set` -/
def set (c : PageBits) (f : PageWords) (address size : ℕ) : PageWords := f.publish c address size

/-- `Clear` -/
def clear (c : PageBits) (f : PageWords) (address size : ℕ) : PageWords :=
  if size = 0 ∨ ¬c.InRange address size then f
  else
    { f with
      pages := (visitWords (fun pages word mask =>
        (if pages word &&& mask ≠ 0 then Function.update pages word (pages word &&& ~~~mask) else pages, false))
        (c.pageOf (address + size - 1)) (c.pageOf address) f.pages).1 }

/-- `Any` -/
def any (c : PageBits) (f : PageWords) (address size : ℕ) : Bool := f.reports c address size

end AtomicPageBits

/-- `CacheType`, as its word. -/
abbrev CacheType : Type := BitVec 32

/-- `Types`: the caches of a filter, `TextureCache`, `QueryCache` and `BufferCache`, by their numbers. -/
def filteredTypes : List (ℕ × CacheType) := [0, 1, 2].map fun cache => (cache, 1#32 <<< cache)

/-- `FlushRegionCacheFilter` -/
structure FlushRegionCacheFilter where
  pages : ℕ → Words
  unbounded : BitVec 32

namespace FlushRegionCacheFilter

/-- Nothing is registered. -/
def empty : FlushRegionCacheFilter := ⟨fun _ _ => 0, 0⟩

/-- The loop of `Register` for a cache. -/
def registerCache (types : CacheType) (first last : ℕ) (pages : ℕ → Words) (cache : ℕ × CacheType) : ℕ → Words :=
  if types &&& cache.2 = 0 then pages
  else
    Function.update pages cache.1 (visitWords (fun pages word mask =>
      (Function.update pages word (pages word ||| mask), false)) last first (pages cache.1)).1

/-- `Register`: the types are set on the pages of the range, or for all pages when it is out of range. -/
def register (c : PageBits) (f : FlushRegionCacheFilter) (address size : ℕ) (types : CacheType) :
    FlushRegionCacheFilter :=
  if size = 0 then f
  else if ¬c.InRange address size then { f with unbounded := f.unbounded ||| types }
  else
    { f with
      pages := filteredTypes.foldl
        (registerCache types (c.pageOf address) (c.pageOf (address + size - 1))) f.pages }

/-- The loop of `Filter` over the pages of a range. -/
def pageLoop (pages : Words) (first last : ℕ) : Bool :=
  (List.range' first (last + 1 - first)).any fun page => pages (page / 64) &&& (1#64 <<< (page % 64)) ≠ 0

/-- The body of the loop of `Filter` over the caches. -/
def filterCache (f : FlushRegionCacheFilter) (first last : ℕ) (requested : CacheType) (cache : ℕ × CacheType) :
    CacheType :=
  if requested &&& cache.2 = 0 ∨ f.unbounded &&& cache.2 ≠ 0 then requested
  else if pageLoop (f.pages cache.1) first last then requested
  else requested &&& ~~~cache.2

/-- `Filter`: which of the requested types the pages of a range have. -/
def filter (c : PageBits) (f : FlushRegionCacheFilter) (address size : ℕ) (requested : CacheType) : CacheType :=
  if size = 0 then 0
  else if ¬c.InRange address size then requested
  else filteredTypes.foldl (f.filterCache (c.pageOf address) (c.pageOf (address + size - 1))) requested

end FlushRegionCacheFilter

/-! ### Pages that are published -/

variable {c : PageBits} {f : PageWords} {address size : ℕ}

/-- The words of a range are in the array. -/
theorem PageBits.InRange.word_lt (h : c.InRange address size) (hpos : 0 < size) :
    ∀ s ∈ wordSpans (c.pageOf (address + size - 1)) (c.pageOf address), s.1 < c.wordCount := by
  intro s hs
  have hle := (fst_mem_wordSpans _ _ s hs).2
  have hlast : address + size - 1 < c.limit := by
    obtain ⟨hlt, hsize⟩ := h
    omega
  have hsplit : c.limit = c.limit / 2 ^ c.pageBits * 2 ^ c.pageBits := by
    rw [PageBits.limit, Nat.div_mul_cancel (Nat.pow_dvd_pow 2 c.le)]
  have hpage : c.pageOf (address + size - 1) < c.limit / 2 ^ c.pageBits := by
    rw [PageBits.pageOf, Nat.div_lt_iff_lt_mul (Nat.two_pow_pos _), ← hsplit]
    exact hlast
  rw [PageBits.wordCount]
  omega

/-- The pages that a range meets are those of its words. -/
theorem inSpans_iff_touches (hpos : 0 < size) :
    InSpans (wordSpans (c.pageOf (address + size - 1)) (c.pageOf address)) page ↔ c.Touches address size page := by
  rw [inSpans_wordSpans, PageBits.Touches]
  tauto

/-- A byte of a range is in a page that the range meets. -/
theorem touches_pageOf {byte : ℕ} (hlow : address ≤ byte) (hhigh : byte < address + size) :
    c.Touches address size (c.pageOf byte) :=
  ⟨by omega, Nat.div_le_div_right hlow, Nat.div_le_div_right (by omega)⟩

theorem publish_pages (hpos : 0 < size) (h : c.InRange address size) : (f.publish c address size).pages =
    (wordSpans (c.pageOf (address + size - 1)) (c.pageOf address)).foldl insertSpan f.pages := by
  have hvisit : (fun (pages : Words) word mask => ((if pages word &&& mask = mask then pages
      else Function.update pages word (pages word ||| mask)), false)) =
      fun pages word mask => (insertSpan pages (word, mask), false) := by
    funext pages word mask
    split_ifs with hmask
    · rw [insertSpan_of_and_eq hmask]
    · rfl
  rw [PageWords.publish, if_neg (by omega), if_neg (not_not_intro h), hvisit, visitWords_fold]

/-- **`Set`** publishes the pages that its range meets. -/
theorem bit_publish : bit (f.publish c address size).pages page = true ↔
    bit f.pages page = true ∨ c.InRange address size ∧ c.Touches address size page := by
  by_cases hpos : 0 < size
  · by_cases h : c.InRange address size
    · rw [publish_pages hpos h, bit_insertSpans, inSpans_iff_touches hpos]
      simp [h]
    · rw [PageWords.publish, if_neg (by omega), if_pos h]
      simp [h]
  · rw [PageWords.publish, if_pos (by omega)]
    simp [PageBits.Touches, hpos]

theorem unbounded_publish : (f.publish c address size).unbounded = true ↔
    f.unbounded = true ∨ 0 < size ∧ ¬c.InRange address size := by
  rw [PageWords.publish]
  by_cases hzero : size = 0
  · simp [hzero]
  by_cases h : c.InRange address size
  · simp [hzero, h]
  · simp [hzero, h, Nat.pos_of_ne_zero hzero]

/-- **`Clear`** takes the pages back that its range meets. -/
theorem bit_clear : bit (AtomicPageBits.clear c f address size).pages page = true ↔
    bit f.pages page = true ∧ ¬(c.InRange address size ∧ c.Touches address size page) := by
  rw [AtomicPageBits.clear]
  by_cases hpos : 0 < size
  · by_cases h : c.InRange address size
    · have hvisit : (fun (pages : Words) word mask => ((if pages word &&& mask ≠ 0 then
          Function.update pages word (pages word &&& ~~~mask) else pages), false)) =
          fun pages word mask => (eraseSpan pages (word, mask), false) := by
        funext pages word mask
        split_ifs with hmask
        · rfl
        · rw [eraseSpan_of_and_eq (not_not.1 hmask)]
      rw [if_neg (by simp [h, Nat.pos_iff_ne_zero.1 hpos]), hvisit, visitWords_fold, bit_eraseSpans,
        inSpans_iff_touches hpos]
      simp [h]
    · rw [if_pos (.inr h)]
      simp [h]
  · rw [if_pos (.inl (by omega))]
    simp [PageBits.Touches, hpos]

@[simp] theorem unbounded_clear : (AtomicPageBits.clear c f address size).unbounded = f.unbounded := by
  rw [AtomicPageBits.clear]
  split_ifs <;> rfl

/-- **A question** asks for the pages that its range meets. -/
theorem reports_iff (hpos : 0 < size) : f.reports c address size = true ↔
    ¬c.InRange address size ∨ f.unbounded = true ∨ ∃ page, c.Touches address size page ∧ bit f.pages page = true := by
  rw [PageWords.reports, if_neg (by omega)]
  split_ifs with h
  · simp only [true_iff]
    tauto
  · have hask := visitWords_any (meetsSpan f.pages) (c.pageOf (address + size - 1)) (c.pageOf address)
    simp only [meetsSpan] at hask
    rw [hask]
    have hmeets : (wordSpans (c.pageOf (address + size - 1)) (c.pageOf address)).any (meetsSpan f.pages) = true ↔
        ∃ page, InSpans (wordSpans (c.pageOf (address + size - 1)) (c.pageOf address)) page ∧
          bit f.pages page = true := meetsSpans_iff
    simp only [inSpans_iff_touches hpos] at hmeets
    have hin : c.InRange address size := by tauto
    have hbounded : f.unbounded ≠ true := by tauto
    simpa [hin, hbounded] using hmeets

/-! ### What a filter promises -/

/-- A question is answered with yes when the range has a byte that is live, and while nothing was marked past the
limit only when it has a page that is. -/
structure Exact (c : PageBits) (liveByte livePage : ℕ → Prop) (bounded : Prop) (hit : ℕ → ℕ → Bool) : Prop where
  complete : ∀ address size byte, liveByte byte → address ≤ byte → byte < address + size → hit address size = true
  sound : bounded → ∀ address size, 0 < size → c.InRange address size → hit address size = true →
    ∃ page, livePage page ∧ c.Touches address size page

/-- The pages that are published are the live ones, and a byte that is live is in one of them unless something was
marked past the limit. -/
theorem exact_of_pages {liveByte livePage : ℕ → Prop} {bounded : Prop}
    (hpages : ∀ page, bit f.pages page = true ↔ livePage page) (hunbounded : f.unbounded = true ↔ ¬bounded)
    (hbytes : ∀ byte, liveByte byte → bounded → livePage (c.pageOf byte)) :
    Exact c liveByte livePage bounded (f.reports c) where
  complete address size byte hlive hlow hhigh := by
    rw [reports_iff (by omega), hunbounded]
    by_cases hbounded : bounded
    · exact .inr (.inr ⟨_, touches_pageOf hlow hhigh, (hpages _).2 (hbytes byte hlive hbounded)⟩)
    · exact .inr (.inl hbounded)
  sound hbounded address size hpos hin hhit := by
    rw [reports_iff hpos, hunbounded] at hhit
    rcases hhit with hout | hnot | ⟨page, htouches, hbit⟩
    · exact absurd hin hout
    · exact absurd hbounded hnot
    · exact ⟨page, (hpages page).1 hbit, htouches⟩

namespace AtomicPageBits

/-- A call that changes the bits. -/
inductive Call where
  | set (address size : ℕ)
  | clear (address size : ℕ)

/-- What a call does. -/
def step (c : PageBits) (f : PageWords) : Call → PageWords
  | .set address size => set c f address size
  | .clear address size => clear c f address size

/-- The calls one after the other. -/
def run (c : PageBits) (calls : List Call) : PageWords := calls.foldl (step c) .empty

/-- A `Set` with this property. -/
def Call.Sets (P : ℕ → ℕ → Prop) : Call → Prop
  | set address size => P address size
  | clear _ _ => False

/-- A `Clear` with this property. -/
def Call.Clears (P : ℕ → ℕ → Prop) : Call → Prop
  | set _ _ => False
  | clear address size => P address size

/-- A page that was set, and that no later `Clear` met. -/
def LivePage (c : PageBits) (calls : List Call) (page : ℕ) : Prop :=
  Live (Call.Sets fun address size => c.InRange address size ∧ c.Touches address size page)
    (Call.Clears fun address size => c.InRange address size ∧ c.Touches address size page) calls

/-- A byte of a range that was set, whose page no later `Clear` met. -/
def LiveByte (c : PageBits) (calls : List Call) (byte : ℕ) : Prop :=
  Live (Call.Sets fun address size => address ≤ byte ∧ byte < address + size)
    (Call.Clears fun address size => c.InRange address size ∧ c.Touches address size (c.pageOf byte)) calls

/-- Nothing was set past the limit. -/
def Bounded (c : PageBits) (calls : List Call) : Prop :=
  ∀ address size, .set address size ∈ calls → 0 < size → c.InRange address size

variable {calls : List Call}

theorem bit_run (calls : List Call) (page : ℕ) : bit (run c calls).pages page = true ↔ LivePage c calls page := by
  induction calls using reverseRecOn with
  | nil => simp [run, PageWords.empty, bit, LivePage]
  | append_singleton calls call ih =>
    rw [run, foldl_append, foldl_cons, foldl_nil, LivePage, Live.live_concat]
    cases call with
    | set address size =>
      refine (bit_publish.trans (or_congr_left ih)).trans ?_
      simp [Call.Sets, Call.Clears, LivePage, or_comm]
    | clear address size =>
      refine (bit_clear.trans (and_congr_left' ih)).trans ?_
      simp only [Call.Sets, Call.Clears, LivePage, false_or]

theorem unbounded_run (calls : List Call) : (run c calls).unbounded = true ↔ ¬Bounded c calls := by
  induction calls using reverseRecOn with
  | nil => simp [run, PageWords.empty, Bounded]
  | append_singleton calls call ih =>
    rw [run, foldl_append, foldl_cons, foldl_nil]
    cases call with
    | set address size =>
      change (PageWords.publish c (run c calls) address size).unbounded = true ↔ _
      rw [unbounded_publish, ih]
      simp only [Bounded, mem_append, mem_singleton, Call.set.injEq]
      constructor
      · rintro (hnot | ⟨hpos, hout⟩) h
        · exact hnot fun a n hmem => h a n (.inl hmem)
        · exact hout (h address size (.inr ⟨rfl, rfl⟩) hpos)
      · intro hnot
        by_contra hneither
        rw [not_or, not_not, not_and, not_not] at hneither
        refine hnot fun a n hmem hpos => ?_
        rcases hmem with hmem | ⟨rfl, rfl⟩
        · exact hneither.1 a n hmem hpos
        · exact hneither.2 hpos
    | clear address size =>
      change (clear c (run c calls) address size).unbounded = true ↔ _
      rw [unbounded_clear, ih]
      simp [Bounded]

/-- A live byte is in a live page. -/
theorem LiveByte.livePage {byte : ℕ} (h : LiveByte c calls byte) (hbounded : Bounded c calls) :
    LivePage c calls (c.pageOf byte) := by
  obtain ⟨before, call, after, rfl, hsets, hclears⟩ := h
  cases call with
  | set address size =>
    obtain ⟨hlow, hhigh⟩ := hsets
    exact ⟨before, .set address size, after, rfl,
      ⟨hbounded address size (by simp) (by omega), touches_pageOf hlow hhigh⟩, hclears⟩
  | clear address size => exact hsets.elim

/-- **`AtomicPageBits`** after any calls. -/
theorem run_exact (c : PageBits) (calls : List Call) :
    Exact c (LiveByte c calls) (LivePage c calls) (Bounded c calls) (any c (run c calls)) :=
  exact_of_pages (bit_run calls) (unbounded_run calls) fun _ hbyte hbounded => hbyte.livePage hbounded

end AtomicPageBits

namespace GpuWriteHistory

/-- The marks one after the other. -/
def run (c : PageBits) (marks : List (ℕ × ℕ)) : PageWords :=
  marks.foldl (fun f range => mark c f range.1 range.2) .empty

theorem run_eq (marks : List (ℕ × ℕ)) :
    run c marks = AtomicPageBits.run c (marks.map fun range => .set range.1 range.2) := by
  rw [run, AtomicPageBits.run, foldl_map]
  rfl

/-- What is marked stays live. -/
theorem livePage_map (marks : List (ℕ × ℕ)) (page : ℕ) :
    AtomicPageBits.LivePage c (marks.map fun range => .set range.1 range.2) page ↔
      ∃ range ∈ marks, c.InRange range.1 range.2 ∧ c.Touches range.1 range.2 page := by
  have hnot : ∀ call ∈ marks.map fun range => AtomicPageBits.Call.set range.1 range.2, ¬call.Clears
      fun address size => c.InRange address size ∧ c.Touches address size page := by
    intro call hcall
    obtain ⟨range, -, rfl⟩ := mem_map.1 hcall
    exact id
  rw [AtomicPageBits.LivePage, Live.live_of_not_clears hnot]
  simp [AtomicPageBits.Call.Sets]

/-- **`GpuWriteHistory`** after any marks. -/
theorem run_exact (c : PageBits) (marks : List (ℕ × ℕ)) :
    Exact c (fun byte => ∃ range ∈ marks, range.1 ≤ byte ∧ byte < range.1 + range.2)
      (fun page => ∃ range ∈ marks, c.InRange range.1 range.2 ∧ c.Touches range.1 range.2 page)
      (∀ range ∈ marks, 0 < range.2 → c.InRange range.1 range.2) (mayHaveWrites c (run c marks)) := by
  refine exact_of_pages (fun page => ?_) ?_ fun byte hbyte hbounded => ?_
  · rw [run_eq, AtomicPageBits.bit_run, livePage_map]
  · rw [run_eq, AtomicPageBits.unbounded_run, AtomicPageBits.Bounded]
    simp
  · obtain ⟨range, hmem, hlow, hhigh⟩ := hbyte
    exact ⟨range, hmem, hbounded range hmem (by omega), touches_pageOf hlow hhigh⟩

end GpuWriteHistory

namespace FlushRegionCacheFilter

variable {f : FlushRegionCacheFilter} {types requested : CacheType} {cache k : ℕ} {pages : Words}

theorem getLsbD_bit (hcache : cache < 32) : (1#32 <<< cache).getLsbD k = decide (k = cache) := by
  rw [← BitVec.twoPow_eq, BitVec.getLsbD_twoPow, decide_eq_true hcache, Bool.true_and]
  exact decide_eq_decide.2 eq_comm

/-- A type is asked for. -/
theorem and_bit_eq_zero_iff (hcache : cache < 32) : types &&& 1#32 <<< cache = 0 ↔ types.getLsbD cache = false := by
  constructor
  · intro h
    have hbit := congrArg (fun v : BitVec 32 => v.getLsbD cache) h
    simpa [BitVec.getLsbD_and, getLsbD_bit hcache] using hbit
  · intro h
    refine BitVec.eq_of_getLsbD_eq fun i hi => ?_
    rw [BitVec.getLsbD_and, getLsbD_bit hcache]
    by_cases hi : i = cache
    · simp [hi, h]
    · simp [hi]

/-- **The loop of `Filter` agrees with the one of `Register`**: page by page or a word at a time. -/
theorem pageLoop_eq (pages : Words) (first last : ℕ) : pageLoop pages first last =
    (visitWords (fun s word mask => (s, decide (pages word &&& mask ≠ 0))) last first ()).2 := by
  have hask := visitWords_any (meetsSpan pages) last first
  simp only [meetsSpan] at hask
  have hmeets : (wordSpans last first).any (meetsSpan pages) = true ↔
      ∃ page, InSpans (wordSpans last first) page ∧ bit pages page = true := meetsSpans_iff
  simp only [inSpans_wordSpans] at hmeets
  rw [hask, Bool.eq_iff_iff, hmeets, pageLoop, any_eq_true]
  simp only [mem_range'_1, decide_eq_true_eq, ne_eq,
    SummaryBitmap.and_bit_eq_zero_iff (Nat.mod_lt _ (show 0 < 64 by decide)), Bool.not_eq_false]
  exact exists_congr fun page => and_congr_left fun _ => by omega

theorem pageLoop_iff : pageLoop pages (c.pageOf address) (c.pageOf (address + size - 1)) = true ↔
    ∃ page, (c.pageOf address ≤ page ∧ page ≤ c.pageOf (address + size - 1)) ∧ bit pages page = true := by
  have hmeets : (wordSpans (c.pageOf (address + size - 1)) (c.pageOf address)).any (meetsSpan pages) = true ↔
      ∃ page, InSpans (wordSpans (c.pageOf (address + size - 1)) (c.pageOf address)) page ∧
        bit pages page = true := meetsSpans_iff
  have hask := visitWords_any (meetsSpan pages) (c.pageOf (address + size - 1)) (c.pageOf address)
  simp only [meetsSpan] at hask hmeets
  rw [pageLoop_eq, hask, hmeets]
  simp only [inSpans_wordSpans]

theorem registerCache_apply (hcache : cache < 32) (first last : ℕ) (pages : ℕ → Words) (k : ℕ) :
    registerCache types first last pages (cache, 1#32 <<< cache) k =
      if k = cache ∧ types.getLsbD cache = true then (wordSpans last first).foldl insertSpan (pages cache)
      else pages k := by
  have hvisit := visitWords_fold insertSpan last first (pages cache)
  simp only [insertSpan] at hvisit
  rw [registerCache]
  simp only [and_bit_eq_zero_iff hcache, hvisit]
  cases types.getLsbD cache with
  | false => simp
  | true => simp only [Bool.true_eq_false, if_false, and_true, Function.update_apply]

/-- The caches do not meet. -/
theorem foldl_registerCache {caches : List ℕ} (hcaches : ∀ cache ∈ caches, cache < 32) (hnodup : caches.Nodup)
    (first last : ℕ) (pages : ℕ → Words) (k : ℕ) :
    (caches.map fun cache => (cache, 1#32 <<< cache)).foldl (registerCache types first last) pages k =
      if k ∈ caches ∧ types.getLsbD k = true then (wordSpans last first).foldl insertSpan (pages k) else pages k := by
  induction caches generalizing pages with
  | nil => simp
  | cons cache caches ih =>
    obtain ⟨hnew, hnodup⟩ := nodup_cons.1 hnodup
    have hcache := hcaches cache mem_cons_self
    rw [map_cons, foldl_cons, ih (fun n hn => hcaches n (mem_cons_of_mem _ hn)) hnodup,
      registerCache_apply hcache]
    by_cases hk : k = cache
    · subst hk
      simp [hnew]
    · simp [hk]

/-- **`Register`** marks the pages of its range for each of its caches. -/
theorem bit_register (hk : k < 3) : bit ((f.register c address size types).pages k) page = true ↔
    bit (f.pages k) page = true ∨ types.getLsbD k = true ∧ c.InRange address size ∧ c.Touches address size page := by
  rw [register]
  by_cases hpos : 0 < size
  · by_cases h : c.InRange address size
    · have hmem : k ∈ [0, 1, 2] := by simp only [mem_cons, not_mem_nil, or_false]; omega
      rw [if_neg (by omega), if_neg (not_not_intro h)]
      simp only [filteredTypes]
      rw [foldl_registerCache (by decide) (by decide)]
      cases htype : types.getLsbD k with
      | false => simp
      | true =>
        rw [if_pos ⟨hmem, rfl⟩, bit_insertSpans, inSpans_iff_touches hpos]
        simp [h]
    · rw [if_neg (by omega), if_pos h]
      simp [h]
  · rw [if_pos (by omega)]
    simp [PageBits.Touches, hpos]

theorem unbounded_register (k : ℕ) : (f.register c address size types).unbounded.getLsbD k = true ↔
    f.unbounded.getLsbD k = true ∨ types.getLsbD k = true ∧ 0 < size ∧ ¬c.InRange address size := by
  rw [register]
  by_cases hzero : size = 0
  · simp [hzero]
  by_cases h : c.InRange address size
  · simp [hzero, h]
  · simp [hzero, h, Nat.pos_of_ne_zero hzero]

theorem getLsbD_filterCache (hcache : cache < 32) (first last : ℕ) :
    (f.filterCache first last requested (cache, 1#32 <<< cache)).getLsbD k =
      if k = cache then requested.getLsbD k && (f.unbounded.getLsbD k || pageLoop (f.pages k) first last)
      else requested.getLsbD k := by
  rw [filterCache]
  simp only [and_bit_eq_zero_iff hcache, ne_eq, Bool.not_eq_false]
  by_cases hk : k = cache
  · subst hk
    rw [if_pos rfl]
    split_ifs with hkeep hpage
    · rcases hkeep with hnot | hfallback
      · simp [hnot]
      · simp [hfallback]
    · simp [hpage]
    · rw [not_or] at hkeep
      rw [BitVec.getLsbD_and, BitVec.getLsbD_not, getLsbD_bit hcache]
      simp [hkeep.2, hpage]
  · rw [if_neg hk]
    split_ifs with hkeep hpage
    · rfl
    · rfl
    · rw [BitVec.getLsbD_and, BitVec.getLsbD_not, getLsbD_bit hcache, decide_eq_false hk]
      by_cases hlt : k < 32
      · simp [hlt]
      · simp [BitVec.getLsbD_of_ge _ _ (not_lt.1 hlt)]

theorem foldl_filterCache {caches : List ℕ} (hcaches : ∀ cache ∈ caches, cache < 32) (first last : ℕ) :
    ((caches.map fun cache => (cache, 1#32 <<< cache)).foldl (f.filterCache first last) requested).getLsbD k =
      (requested.getLsbD k && (decide (k ∉ caches) || f.unbounded.getLsbD k || pageLoop (f.pages k) first last)) := by
  induction caches generalizing requested with
  | nil => simp
  | cons cache caches ih =>
    rw [map_cons, foldl_cons, ih fun n hn => hcaches n (mem_cons_of_mem _ hn),
      getLsbD_filterCache (hcaches cache mem_cons_self)]
    by_cases hk : k = cache
    · subst hk
      cases f.unbounded.getLsbD k <;> cases pageLoop (f.pages k) first last <;> simp
    · simp [hk]

/-- **`Filter`** keeps a cache that was asked for when some page of the range is registered for it, or when it cannot
tell. -/
theorem getLsbD_filter (hk : k < 3) (hpos : 0 < size) : (f.filter c address size requested).getLsbD k = true ↔
    requested.getLsbD k = true ∧ (¬c.InRange address size ∨ f.unbounded.getLsbD k = true ∨
      ∃ page, c.Touches address size page ∧ bit (f.pages k) page = true) := by
  rw [filter, if_neg (by omega)]
  by_cases h : c.InRange address size
  · have hloop : pageLoop (f.pages k) (c.pageOf address) (c.pageOf (address + size - 1)) = true ↔
        ∃ page, c.Touches address size page ∧ bit (f.pages k) page = true := by
      rw [pageLoop_iff]
      simp only [PageBits.Touches, hpos, true_and]
    have hmem : k ∈ [0, 1, 2] := by simp only [mem_cons, not_mem_nil, or_false]; omega
    rw [if_neg (not_not_intro h), ← hloop, filteredTypes, foldl_filterCache (by decide)]
    simp [h, -mem_cons, hmem]
  · rw [if_pos h]
    simp [h]

/-- A registered range, with the caches it is registered for. -/
structure Registration where
  address : ℕ
  size : ℕ
  types : CacheType

/-- The registrations one after the other. -/
def run (c : PageBits) (registrations : List Registration) : FlushRegionCacheFilter :=
  registrations.foldl (fun f r => f.register c r.address r.size r.types) .empty

theorem bit_run (hk : k < 3) (registrations : List Registration) (page : ℕ) :
    bit ((run c registrations).pages k) page = true ↔ ∃ r ∈ registrations, r.types.getLsbD k = true ∧
      c.InRange r.address r.size ∧ c.Touches r.address r.size page := by
  induction registrations using reverseRecOn with
  | nil => simp [run, empty, bit]
  | append_singleton registrations r ih =>
    rw [run, foldl_append, foldl_cons, foldl_nil, bit_register hk]
    refine (or_congr_left ih).trans ?_
    simp [or_and_right, exists_or]

theorem unbounded_run (k : ℕ) (registrations : List Registration) :
    (run c registrations).unbounded.getLsbD k = true ↔
      ∃ r ∈ registrations, r.types.getLsbD k = true ∧ 0 < r.size ∧ ¬c.InRange r.address r.size := by
  induction registrations using reverseRecOn with
  | nil => simp [run, empty]
  | append_singleton registrations r ih =>
    rw [run, foldl_append, foldl_cons, foldl_nil, unbounded_register]
    refine (or_congr_left ih).trans ?_
    simp [or_and_right, exists_or]

/-- **`FlushRegionCacheFilter`** after any registrations, for each of its caches. -/
theorem run_exact (c : PageBits) (registrations : List Registration) (hk : k < 3)
    (hrequested : requested.getLsbD k = true) :
    Exact c (fun byte => ∃ r ∈ registrations, r.types.getLsbD k = true ∧ r.address ≤ byte ∧ byte < r.address + r.size)
      (fun page => ∃ r ∈ registrations, r.types.getLsbD k = true ∧ c.InRange r.address r.size ∧
        c.Touches r.address r.size page)
      (∀ r ∈ registrations, r.types.getLsbD k = true → 0 < r.size → c.InRange r.address r.size)
      (fun address size => ((run c registrations).filter c address size requested).getLsbD k) where
  complete address size byte hlive hlow hhigh := by
    obtain ⟨r, hmem, htype, hrlow, hrhigh⟩ := hlive
    have hpos : 0 < r.size := by omega
    rw [getLsbD_filter hk (by omega)]
    refine ⟨hrequested, .inr ?_⟩
    by_cases hin : c.InRange r.address r.size
    · exact .inr ⟨_, touches_pageOf hlow hhigh,
        (bit_run hk registrations _).2 ⟨r, hmem, htype, hin, touches_pageOf hrlow hrhigh⟩⟩
    · exact .inl ((unbounded_run k registrations).2 ⟨r, hmem, htype, hpos, hin⟩)
  sound hbounded address size hpos hin hhit := by
    rcases ((getLsbD_filter hk hpos).1 hhit).2 with hout | hfallback | ⟨page, htouches, hbit⟩
    · exact absurd hin hout
    · obtain ⟨r, hmem, htype, hrpos, hrout⟩ := (unbounded_run k registrations).1 hfallback
      exact absurd (hbounded r hmem htype hrpos) hrout
    · exact ⟨page, (bit_run hk registrations page).1 hbit, htouches⟩

end FlushRegionCacheFilter

/-- The words that `VisitWords` comes to for a range, one after the other. -/
def visitedWords (c : PageBits) (address size : ℕ) : List Span :=
  (visitWords (fun words word mask => (words ++ [(word, mask)], false)) (c.pageOf (address + size - 1))
    (c.pageOf address) []).1

theorem visitedWords_eq (c : PageBits) (address size : ℕ) :
    visitedWords c address size = wordSpans (c.pageOf (address + size - 1)) (c.pageOf address) := by
  have happend : ∀ (l words : List Span), l.foldl (fun words s => words ++ [s]) words = words ++ l := by
    intro l
    induction l with
    | nil => simp
    | cons s l ih => simp [ih]
  have hfold := visitWords_fold (fun (words : List Span) s => words ++ [s]) (c.pageOf (address + size - 1))
    (c.pageOf address) []
  rw [visitedWords, hfold, happend, nil_append]

/-- **The filters of pages** have no false negatives, and beyond the granularity of pages no spurious hits: after any
marks, any calls of `Set` and `Clear` and any registrations a question about a range that shares a byte with what is
live is answered with yes, and while nothing was marked past the limit one within the limit only when it shares a
page with it.  The loop over words comes to the pages of its range, in rising words of the array, and the loop of
`Filter` over pages agrees with it. -/
theorem filters_exact (c : PageBits) :
    (∀ marks : List (ℕ × ℕ),
      Exact c (fun byte => ∃ range ∈ marks, range.1 ≤ byte ∧ byte < range.1 + range.2)
        (fun page => ∃ range ∈ marks, c.InRange range.1 range.2 ∧ c.Touches range.1 range.2 page)
        (∀ range ∈ marks, 0 < range.2 → c.InRange range.1 range.2)
        (GpuWriteHistory.mayHaveWrites c (GpuWriteHistory.run c marks))) ∧
    (∀ calls : List AtomicPageBits.Call,
      Exact c (AtomicPageBits.LiveByte c calls) (AtomicPageBits.LivePage c calls) (AtomicPageBits.Bounded c calls)
        (AtomicPageBits.any c (AtomicPageBits.run c calls))) ∧
    (∀ (registrations : List FlushRegionCacheFilter.Registration) (cache : ℕ) (requested : CacheType), cache < 3 →
      requested.getLsbD cache = true → Exact c
        (fun byte => ∃ r ∈ registrations, r.types.getLsbD cache = true ∧ r.address ≤ byte ∧
          byte < r.address + r.size)
        (fun page => ∃ r ∈ registrations, r.types.getLsbD cache = true ∧ c.InRange r.address r.size ∧
          c.Touches r.address r.size page)
        (∀ r ∈ registrations, r.types.getLsbD cache = true → 0 < r.size → c.InRange r.address r.size)
        (fun address size =>
          ((FlushRegionCacheFilter.run c registrations).filter c address size requested).getLsbD cache)) ∧
    (∀ address size, 0 < size → c.InRange address size →
      (∀ page, InSpans (visitedWords c address size) page ↔ c.Touches address size page) ∧
      (visitedWords c address size).Pairwise (fun s s' => s.1 < s'.1) ∧
      ∀ s ∈ visitedWords c address size, s.1 < c.wordCount) ∧
    ∀ (pages : Words) (first last : ℕ), FlushRegionCacheFilter.pageLoop pages first last =
      (visitWords (fun s word mask => (s, decide (pages word &&& mask ≠ 0))) last first ()).2 := by
  refine ⟨GpuWriteHistory.run_exact c, AtomicPageBits.run_exact c, fun registrations cache requested hcache hrequested =>
    FlushRegionCacheFilter.run_exact c registrations hcache hrequested, fun address size hpos hin => ?_,
    FlushRegionCacheFilter.pageLoop_eq⟩
  rw [visitedWords_eq]
  exact ⟨fun page => inSpans_iff_touches hpos, pairwise_wordSpans _ _, hin.word_lt hpos⟩

/-- The default parameters of `FlushRegionCacheFilter`. -/
def defaultPageBits : PageBits := ⟨34, 16, by decide, by decide⟩

/-- A texture is registered, and a region that shares a byte with it is flushed. -/
theorem registered_reported :
    ((FlushRegionCacheFilter.run defaultPageBits [⟨0x1fff0, 0x20, 1⟩]).filter defaultPageBits 0x2000f 1 7).getLsbD 0 =
      true := by
  have hexact := (filters_exact defaultPageBits).2.2.1 [⟨0x1fff0, 0x20, 1⟩] 0 7 (by decide) (by decide)
  exact hexact.complete 0x2000f 1 0x2000f ⟨_, List.mem_cons_self, by decide, by decide, by decide⟩ (by decide)
    (by decide)

end VideoCommon
end NXEmu
