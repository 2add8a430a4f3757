/-
# The queries of a word manager

`src/yuzu_video_core/buffer_cache/word_manager.h`: the range queries of a `WordManager` of any size.
`IterateWords` reads an offset and the end of its range as signed numbers and has the pages of the words
of the manager that the range touches (`inWords_iterateWords64`).
`ForEachModifiedRange` calls back for the maximal runs of the modified ones among them
(`scanModified_spec`), `IsRegionModified` says whether there are any (`isRegionModified_iff`) and
`ModifiedRegion` between which bounds they are (`modifiedRegion_spec`).  Where the summary
`cpu_work_words` is right, to return early is to do nothing (`forEachModifiedRange64_eq_scan`).
-/

import NXEmu.VideoCore.WordManagerRegions
import NXEmu.Lib.MaximalRuns

variable {stop a b k : ℕ} {type : StateType} {p word : ℕ × BitVec 64}

namespace NXEmu
namespace VideoCommon
namespace WordManager

open List

/-! ### The routines with their 64-bit arguments -/

/-- `IterateWords`: the offset and the end of the range are signed, and no less than zero after that. -/
def iterateWords64 (m : WordManager) (offset size : BitVec 64) : List (ℕ × BitVec 64) :=
  let start := (max offset.toInt 0).toNat
  let stop := (max (offset + size).toInt 0).toNat
  m.iterateWords start (stop - start)

/-- `ChangeRegionState<type, enable>`. -/
def changeRegionState64 (type : StateType) (enable : Bool) (m : WordManager) (dirtyAddr size : BitVec 64) :
    WordManager × Output :=
  forWords (changeWord type enable) m (m.iterateWords64 (dirtyAddr - BitVec.ofNat 64 m.cpuAddr) size)

/-- `ForEachModifiedRange<type, clear>` without the early return. -/
def scanModified (type : StateType) (clear : Bool) (m : WordManager) (queryCpuRange size : BitVec 64) :
    WordManager × Output :=
  modifiedWords type clear m none (m.iterateWords64 (queryCpuRange - BitVec.ofNat 64 m.cpuAddr) size)

/-- `ForEachModifiedRange<type, clear>`. -/
def forEachModifiedRange64 (type : StateType) (clear : Bool) (m : WordManager)
    (queryCpuRange size : BitVec 64) : WordManager × Output :=
  if type = .cpu ∧ clear ∧ m.numWords ≤ 64 ∧ m.cpuWorkWords = 0 then (m, .none)
  else scanModified type clear m queryCpuRange size

/-- The bits of a word that are modified and in the mask. -/
def maskedWord (type : StateType) (m : WordManager) (index : ℕ) (mask : BitVec 64) : BitVec 64 :=
  m.words type index &&& modifiedMask type m index mask

/-- `IsRegionModified<type>`. -/
def isRegionModified (type : StateType) (m : WordManager) (offset size : BitVec 64) : Bool :=
  (m.iterateWords64 offset size).any fun word => maskedWord type m word.1 word.2 ≠ 0

/-- What the loop of `ModifiedRegion` does to `begin` and `end`. -/
def modifiedBounds (type : StateType) (m : WordManager) (bounds : ℕ × ℕ) (word : ℕ × BitVec 64) : ℕ × ℕ :=
  let bits := maskedWord type m word.1 word.2
  if bits = 0 then bounds
  else
    let localPageBegin := bits.ctz.toNat
    let localPageEnd := pagesPerWord - bits.clz.toNat
    let pageIndex := word.1 * pagesPerWord
    (min bounds.1 (pageIndex + localPageBegin), pageIndex + localPageEnd)

/-- `ModifiedRegion<type>`: from the first to behind the last modified page of the range. -/
def modifiedRegion (type : StateType) (m : WordManager) (offset size : BitVec 64) : ℕ × ℕ :=
  let bounds := (m.iterateWords64 offset size).foldl (modifiedBounds type m) (2 ^ 64 - 1, 0)
  if bounds.1 < bounds.2 then (bounds.1 * bytesPerPage, bounds.2 * bytesPerPage) else (0, 0)

/-! ### The pages a range touches -/

variable {m m' : WordManager} {words : List (ℕ × BitVec 64)} {offset size : BitVec 64} {i : ℕ}

/-- A manager has words for all of its bytes. -/
def SizeOk (m : WordManager) : Prop := m.numWords = (m.sizeBytes + bytesPerWord - 1) / bytesPerWord

/-- A page has a byte of the range from the signed `offset` to the signed `offset + size`. -/
def Touches (offset size : BitVec 64) (i : ℕ) : Prop :=
  ∃ byte : ℤ, offset.toInt ≤ byte ∧ byte < (offset + size).toInt ∧ byte / bytesPerPage = i

/-- The pages that a routine goes to: those of the words of the manager that the range touches, unless it
begins behind the manager. -/
def Visits (m : WordManager) (offset size : BitVec 64) (i : ℕ) : Prop :=
  Touches offset size i ∧ i < m.numWords * pagesPerWord ∧ offset.toInt < m.sizeBytes

theorem inWords_iterateWords_of_size {start length : ℕ} (hsize : m.SizeOk) :
    InWords (m.iterateWords start length) i ↔ 0 < length ∧ start < m.sizeBytes ∧ start / bytesPerPage ≤ i ∧
        i < (start + length + bytesPerPage - 1) / bytesPerPage ∧ i < m.numWords * pagesPerWord := by
  unfold SizeOk at hsize
  rw [iterateWords]
  split
  · next h =>
    refine iff_of_false inWords_nil ?_
    omega
  · next h =>
    simp only [getWordPage, bytesPerWord, bytesPerPage, pagesPerWord] at hsize ⊢
    rw [inWords_iterateWordsFrom _ _ _ _ (by omega)]
    omega

/-- **`IterateWords`** has the pages that the range touches. -/
theorem inWords_iterateWords64 (hsize : m.SizeOk) :
    InWords (m.iterateWords64 offset size) i ↔ m.Visits offset size i := by
  rw [iterateWords64, inWords_iterateWords_of_size hsize, Visits, Touches]
  simp only [SizeOk, bytesPerWord] at hsize
  simp only [bytesPerPage, pagesPerWord, Nat.cast_ofNat]
  generalize offset.toInt = start
  generalize (offset + size).toInt = stop
  constructor
  · rintro ⟨hlength, hstart, hfirst, hlast, hnum⟩
    refine ⟨⟨max (start : ℤ) (i * 4096), ?_, ?_, ?_⟩, hnum, ?_⟩ <;> omega
  · rintro ⟨⟨byte, hstart, hstop, hbyte⟩, hnum, hbegin⟩
    omega

/-! ### The runs that are reported -/

/-- The runs of a mask are not empty and go up. -/
theorem sorted_iteratePagesFrom (offset : ℕ) (mask : BitVec 64) :
    (∀ r ∈ iteratePagesFrom offset mask, offset ≤ r.1 ∧ 0 < r.2) ∧
      (iteratePagesFrom offset mask).Pairwise fun r r' => r.1 + r.2 ≤ r'.1 := by
  induction offset, mask using iteratePagesFrom.induct with
  | case1 offset =>
    rw [iteratePagesFrom, dif_pos rfl]
    exact ⟨fun r hr => absurd hr not_mem_nil, .nil⟩
  | case2 offset mask h emptyBits rest continuousBits ih =>
    simp only [dite_eq_ite] at ih
    obtain ⟨hfirst, hsorted⟩ := ih
    have hpos : 0 < continuousBits := countrOne_pos (getLsbD_zero_of_ctz h)
    rw [iteratePagesFrom, dif_neg h]
    refine ⟨fun r hr => ?_, pairwise_cons.2 ⟨fun r hr => (hfirst r hr).1, hsorted⟩⟩
    obtain rfl | hr := mem_cons.1 hr
    · exact ⟨Nat.le_add_right _ _, hpos⟩
    · have hle := (hfirst r hr).1
      exact ⟨by omega, (hfirst r hr).2⟩

/-- The runs of a word are not empty, go up and end with the word. -/
theorem sorted_iteratePages (mask : BitVec 64) :
    (∀ r ∈ iteratePages mask, 0 < r.2 ∧ r.1 + r.2 ≤ 64) ∧
      (iteratePages mask).Pairwise fun r r' => r.1 + r.2 ≤ r'.1 := by
  obtain ⟨hfirst, hsorted⟩ := sorted_iteratePagesFrom 0 mask
  refine ⟨fun r hr => ⟨(hfirst r hr).2, ?_⟩, hsorted⟩
  have hpos := (hfirst r hr).2
  have hbit := exists_mem_iteratePages.1
    ⟨r, hr, Nat.le_sub_one_of_lt (Nat.lt_add_of_pos_right hpos), by omega⟩
  by_contra hlt
  rw [BitVec.getLsbD_of_ge _ _ (by omega)] at hbit
  cases hbit

/-- How far a scan is: the runs that are released and the pending one are those of what it found, and end
at `bound` or before. -/
structure Scanned (S : ℕ → Prop) (released : List (ℕ × ℕ)) (pending : Option (ℕ × ℕ)) (bound : ℕ) : Prop where
  runs : MaximalRuns S (released ++ pending.toList)
  bounded : ∀ r ∈ released ++ pending.toList, r.2 ≤ bound
  fresh : pending = none → released = []

variable {S : ℕ → Prop} {released : List (ℕ × ℕ)} {pending : Option (ℕ × ℕ)} {bound : ℕ}

namespace Scanned

theorem congr {S' : ℕ → Prop} (h : Scanned S released pending bound) (hS : ∀ i, S i ↔ S' i)
    (hstop : bound ≤ stop) : Scanned S' released pending stop where
  runs := h.runs.congr hS
  bounded r hr := (h.bounded r hr).trans hstop
  fresh := h.fresh

/-- The first run. -/
theorem first (h : Scanned S [] none bound) (hab : a < b) :
    Scanned (fun i => S i ∨ a ≤ i ∧ i < b) [] (some (a, b)) b where
  runs := MaximalRuns.snoc h.runs hab (by simp)
  bounded r hr := by
    obtain rfl : r = (a, b) := by simpa using hr
    exact Nat.le_refl b
  fresh h := nomatch h

/-- The pending run goes on. -/
theorem merge {a b c : ℕ} (h : Scanned S released (some (a, b)) bound) (hbound : bound ≤ b) (hbc : b ≤ c) :
    Scanned (fun i => S i ∨ b ≤ i ∧ i < c) released (some (a, c)) c where
  runs := h.runs.extend hbc
  bounded r hr := by
    obtain hr | hr := mem_append.1 hr
    · exact (h.bounded r (mem_append_left _ hr)).trans (hbound.trans hbc)
    · obtain rfl : r = (a, c) := by simpa using hr
      exact Nat.le_refl c
  fresh h := nomatch h

/-- The pending run is released, and another one is pending. -/
theorem release {p : ℕ × ℕ} (h : Scanned S released (some p) bound) (hbound : bound ≤ a)
    (hne : p.2 ≠ a) (hab : a < b) :
    Scanned (fun i => S i ∨ a ≤ i ∧ i < b) (released ++ [p]) (some (a, b)) b where
  runs := by
    refine MaximalRuns.snoc h.runs hab fun r hr => ?_
    have hpending := h.bounded p (by simp)
    obtain hr | hr := mem_append.1 hr
    · have hlast := (pairwise_append.1 h.runs.apart).2.2 r hr p (by simp)
      have hp := h.runs.nonempty p (by simp)
      omega
    · obtain rfl : r = p := by simpa using hr
      omega
  bounded r hr := by
    obtain hr | hr := mem_append.1 hr
    · exact (h.bounded r hr).trans (by omega)
    · obtain rfl : r = (a, b) := by simpa using hr
      exact Nat.le_refl b
  fresh h := nomatch h

end Scanned

/-- **The runs of a word** go behind those before it. -/
theorem collect_scanned (m : WordManager) (baseOffset : ℕ) {runs : List (ℕ × ℕ)}
    (hruns : ∀ r ∈ runs, 0 < r.2 ∧ baseOffset + r.1 + r.2 ≤ stop)
    (hsorted : runs.Pairwise fun r r' => r.1 + r.2 ≤ r'.1) (h : Scanned S released pending bound)
    (hbound : ∀ r ∈ runs, bound ≤ baseOffset + r.1) (hstop : bound ≤ stop) :
    ∃ found, (m.collect baseOffset pending runs).1 = found.map m.release ∧
      Scanned (fun i => S i ∨ ∃ r ∈ runs, baseOffset + r.1 ≤ i ∧ i < baseOffset + r.1 + r.2)
        (released ++ found) (m.collect baseOffset pending runs).2 stop := by
  induction runs generalizing S released pending bound with
  | nil =>
    refine ⟨[], rfl, ?_⟩
    rw [append_nil]
    exact h.congr (fun i => by simp) hstop
  | cons r runs ih =>
    obtain ⟨hpos, hle⟩ := hruns r mem_cons_self
    have hfirst := hbound r mem_cons_self
    obtain ⟨hnext, hsorted⟩ := pairwise_cons.1 hsorted
    have hrest : ∀ r' ∈ runs, baseOffset + r.1 + r.2 ≤ baseOffset + r'.1 := fun r' hr' => by
      have hle := hnext r' hr'
      omega
    have hset : ∀ i, ((S i ∨ baseOffset + r.1 ≤ i ∧ i < baseOffset + r.1 + r.2) ∨
        ∃ r ∈ runs, baseOffset + r.1 ≤ i ∧ i < baseOffset + r.1 + r.2) ↔
        S i ∨ ∃ r' ∈ r :: runs, baseOffset + r'.1 ≤ i ∧ i < baseOffset + r'.1 + r'.2 := fun i => by
      rw [or_assoc]
      exact or_congr_right (exists_mem_cons
        (P := fun r' => baseOffset + r'.1 ≤ i ∧ i < baseOffset + r'.1 + r'.2)).symm
    have hbelow : ∀ r' ∈ runs, 0 < r'.2 ∧ baseOffset + r'.1 + r'.2 ≤ stop := fun r' hr' =>
      hruns r' (mem_cons_of_mem _ hr')
    cases pending with
    | none =>
      obtain rfl := h.fresh rfl
      have hpending := h.first (show baseOffset + r.1 < baseOffset + r.1 + r.2 by omega)
      obtain ⟨found, hfound, hscanned⟩ := ih hbelow hsorted hpending hrest hle
      exact ⟨found, hfound, hscanned.congr hset (Nat.le_refl _)⟩
    | some p =>
      rw [collect]
      dsimp only
      split
      · next hmerge =>
        have hpending := h.merge (by omega) (show p.2 ≤ p.2 + r.2 by omega)
        rw [hmerge] at hpending ⊢
        obtain ⟨found, hfound, hscanned⟩ := ih hbelow hsorted hpending hrest hle
        exact ⟨found, hfound, hscanned.congr hset (Nat.le_refl _)⟩
      · next hgap =>
        have hpending := h.release hfirst hgap (show baseOffset + r.1 < baseOffset + r.1 + r.2 by omega)
        obtain ⟨found, hfound, hscanned⟩ := ih hbelow hsorted hpending hrest hle
        refine ⟨p :: found, ?_, ?_⟩
        · rw [map_cons, hfound]
        · rw [append_assoc, singleton_append] at hscanned
          exact hscanned.congr hset (Nat.le_refl _)

/-- **The loop of `ForEachModifiedRange`**: it acts on the pages of the words, and releases the maximal
runs of what was found before and of the pages that are modified. -/
theorem modifiedWords_scanned (htype : type ≠ .untracked) (clear : Bool) (m : WordManager)
    (hwords : words.Pairwise fun p q => p.1 < q.1) (h : Scanned S released pending bound)
    (hbound : ∀ p ∈ words, bound ≤ p.1 * pagesPerWord) :
    Acts (clearPage type clear) (InWords words) m (modifiedWords type clear m pending words).1
      (modifiedWords type clear m pending words).2.counts ∧
    ∃ found, (modifiedWords type clear m pending words).2.ranges = found.map m.release ∧
      MaximalRuns (fun i => S i ∨ InWords words i ∧ modifiedPage type (m.page i) = true) (released ++ found) := by
  induction words generalizing m S released pending bound with
  | nil =>
    refine ⟨Acts.refl _ fun i hi => absurd hi inWords_nil, pending.toList, ?_, ?_⟩
    · cases pending <;> rfl
    · exact h.runs.congr fun i => by simp [inWords_nil]
  | cons p words ih =>
    obtain ⟨index, mask⟩ := p
    obtain ⟨hnext, hwords'⟩ := pairwise_cons.1 hwords
    have hword := modifiedWord_acts htype clear m index mask
    obtain ⟨hpositive, hsorted⟩ := sorted_iteratePages (modifiedWord type clear m index mask).2
    have hends : ∀ r ∈ iteratePages (modifiedWord type clear m index mask).2,
        0 < r.2 ∧ index * pagesPerWord + r.1 + r.2 ≤ (index + 1) * pagesPerWord := fun r hr => by
      have hle := (hpositive r hr).2
      simp only [pagesPerWord]
      exact ⟨(hpositive r hr).1, by omega⟩
    have hstart : bound ≤ index * pagesPerWord := hbound (index, mask) mem_cons_self
    have hstop : bound ≤ (index + 1) * pagesPerWord := by
      simp only [pagesPerWord] at hstart ⊢
      omega
    obtain ⟨found, hfound, hscanned⟩ := collect_scanned m (index * pagesPerWord) hends hsorted h
      (fun r _ => hstart.trans (Nat.le_add_right _ _)) hstop
    obtain ⟨hacts, found', hfound', hruns⟩ := ih (modifiedWord type clear m index mask).1.1 hwords' hscanned
      fun q hq => Nat.mul_le_mul_right _ (hnext q hq)
    have hdisjoint : ∀ {i}, InWord index mask i → ¬InWords words i :=
      inWord_disjoint (hwords.imp Nat.ne_of_lt)
    refine ⟨hword.append hacts (fun i => inWords_cons) fun i => hdisjoint, found ++ found', ?_, ?_⟩
    · have hrelease : (modifiedWord type clear m index mask).1.1.release = m.release := by
        funext p
        rw [release, release, hword.cpuAddr]
      rw [modifiedWords]
      dsimp only [Output.append]
      rw [hfound, hfound', hrelease, map_append]
    · rw [← append_assoc]
      refine hruns.congr fun i => ?_
      rw [exists_run_modifiedWord, inWords_cons]
      by_cases hi : InWords words i
      · -- the words before leave the pages of the others
        rw [hword.outside i fun hin => hdisjoint hin hi]
        tauto
      · tauto

/-! ### `ForEachModifiedRange` -/

theorem sorted_iterateWords64 (m : WordManager) (offset size : BitVec 64) :
    (m.iterateWords64 offset size).Pairwise fun p q => p.1 < q.1 :=
  sorted_iterateWords m _ _

/-- A scan that did not begin. -/
theorem scanned_none : Scanned (fun _ => False) [] none 0 where
  runs := MaximalRuns.nil fun _ hi => hi
  bounded _ hr := absurd hr not_mem_nil
  fresh _ := rfl

/-- The pages that `ForEachModifiedRange<type>` reports. -/
def Modified (type : StateType) (m : WordManager) (offset size : BitVec 64) (i : ℕ) : Prop :=
  m.Visits offset size i ∧ modifiedPage type (m.page i) = true

/-- **`ForEachModifiedRange`** without the early return. -/
theorem scanModified_spec (htype : type ≠ .untracked) (clear : Bool) (hsize : m.SizeOk)
    (queryCpuRange size : BitVec 64) :
    Acts (clearPage type clear) (m.Visits (queryCpuRange - BitVec.ofNat 64 m.cpuAddr) size) m
      (scanModified type clear m queryCpuRange size).1
      (scanModified type clear m queryCpuRange size).2.counts ∧
    ∃ found, (scanModified type clear m queryCpuRange size).2.ranges = found.map m.release ∧
      MaximalRuns (Modified type m (queryCpuRange - BitVec.ofNat 64 m.cpuAddr) size) found := by
  obtain ⟨hacts, found, hfound, hruns⟩ := modifiedWords_scanned htype clear m
    (sorted_iterateWords64 m (queryCpuRange - BitVec.ofNat 64 m.cpuAddr) size) scanned_none
    fun p _ => Nat.zero_le _
  refine ⟨hacts.congr fun i => inWords_iterateWords64 hsize, found, hfound, ?_⟩
  refine hruns.congr fun i => ?_
  rw [false_or, inWords_iterateWords64 hsize]
  rfl

/-- A loop over words without modified and untracked pages does nothing. -/
theorem modifiedWords_of_clean (hclean : ∀ p ∈ words, m.words .cpu p.1 ||| m.words .untracked p.1 = 0) :
    modifiedWords .cpu true m none words = (m, .none) := by
  induction words with
  | nil => rfl
  | cons p words ih =>
    obtain ⟨index, mask⟩ := p
    obtain ⟨hcpu, huntracked⟩ := BitVec.or_eq_zero_iff.1 (hclean _ mem_cons_self)
    have hword : modifiedWord .cpu true m index mask = ((m, []), 0) := by
      simp [modifiedWord, modifiedMask, tracks, hcpu, huntracked]
    have hnone : iteratePages 0 = [] := by
      rw [iteratePages, iteratePagesFrom, dif_pos rfl]
    rw [modifiedWords, hword]
    dsimp only
    rw [hnone]
    dsimp only [collect]
    rw [ih fun q hq => hclean q (mem_cons_of_mem _ hq)]
    rfl

theorem lt_of_mem_iterateWordsFrom (wordIndex startPage endPage count : ℕ)
    (h : p ∈ iterateWordsFrom wordIndex startPage endPage count) : p.1 < wordIndex + count := by
  induction count generalizing wordIndex startPage endPage with
  | zero => cases h
  | succ count ih =>
    rcases mem_cons.1 h with rfl | h
    · exact Nat.lt_add_of_pos_right (Nat.succ_pos _)
    · have hlt := ih _ _ _ h
      omega

theorem lt_of_mem_iterateWords64 (h : p ∈ m.iterateWords64 offset size) :
    p.1 < m.numWords := by
  rw [iterateWords64, iterateWords] at h
  split at h
  · cases h
  · have hlt := lt_of_mem_iterateWordsFrom _ _ _ _ h
    omega

/-- **To return early is to do nothing.** -/
theorem forEachModifiedRange64_eq_scan (hwork : m.WorkOk) (type : StateType) (clear : Bool)
    (queryCpuRange size : BitVec 64) :
    forEachModifiedRange64 type clear m queryCpuRange size = scanModified type clear m queryCpuRange size := by
  rw [forEachModifiedRange64]
  split
  · next h =>
    obtain ⟨rfl, hclear, hshort, hzero⟩ := h
    obtain rfl : clear = true := hclear
    exact (modifiedWords_of_clean fun p hp => hwork.clean hshort hzero (lt_of_mem_iterateWords64 hp)).symm
  · rfl

/-! ### `IsRegionModified` and `ModifiedRegion` -/

theorem getLsbD_maskedWord (type : StateType) (m : WordManager) (index : ℕ) {mask : BitVec 64}
    (hk : k < 64) : (maskedWord type m index mask).getLsbD k =
      (mask.getLsbD k && modifiedPage type fun t => (m.words t index).getLsbD k) := by
  rw [← getLsbD_modifiedWord type false m index hk]
  simp [modifiedWord, maskedWord]

/-- The modified pages of a word. -/
def InMasked (type : StateType) (m : WordManager) (word : ℕ × BitVec 64) (i : ℕ) : Prop :=
  InWord word.1 word.2 i ∧ modifiedPage type (m.page i) = true

theorem inMasked_iff : InMasked type m word i ↔
    i / 64 = word.1 ∧ (maskedWord type m word.1 word.2).getLsbD (i % 64) = true := by
  rw [InMasked, InWord, getLsbD_maskedWord _ _ _ (Nat.mod_lt i (by decide)), Bool.and_eq_true, and_assoc]
  refine and_congr_right fun hindex => ?_
  rw [← hindex]
  rfl

/-- A one of the modified bits is a modified page. -/
theorem inMasked_bit
    (h : (maskedWord type m word.1 word.2).getLsbD k = true) : InMasked type m word (word.1 * 64 + k) := by
  have hk : k < 64 := BitVec.lt_of_getLsbD h
  rw [inMasked_iff, show (word.1 * 64 + k) % 64 = k by omega]
  exact ⟨by omega, h⟩

theorem modified_iff (hsize : m.SizeOk) :
    Modified type m offset size i ↔ ∃ word ∈ m.iterateWords64 offset size, InMasked type m word i := by
  rw [Modified, ← inWords_iterateWords64 hsize]
  constructor
  · rintro ⟨⟨word, hword, hi⟩, hmodified⟩
    exact ⟨word, hword, hi, hmodified⟩
  · rintro ⟨word, hword, hi, hmodified⟩
    exact ⟨⟨word, hword, hi⟩, hmodified⟩

/-- **`IsRegionModified`** says whether there is a modified page. -/
theorem isRegionModified_iff (hsize : m.SizeOk) (type : StateType) :
    isRegionModified type m offset size = true ↔ ∃ i, Modified type m offset size i := by
  simp only [isRegionModified, any_eq_true, decide_eq_true_eq, modified_iff hsize]
  constructor
  · rintro ⟨word, hword, hne⟩
    exact ⟨_, word, hword, inMasked_bit (BitVec.getLsbD_true_ctz_of_ne_zero hne)⟩
  · rintro ⟨i, word, hword, hi⟩
    refine ⟨word, hword, fun hzero => ?_⟩
    have hbit := (inMasked_iff.1 hi).2
    rw [hzero] at hbit
    simp at hbit

/-- The bounds of some pages: the first of them and the one behind the last, or what the loop of
`ModifiedRegion` begins with. -/
def BoundsOf (T : ℕ → Prop) (bounds : ℕ × ℕ) : Prop :=
  (bounds = (2 ^ 64 - 1, 0) ∧ ∀ i, ¬T i) ∨
    ∃ last, bounds.2 = last + 1 ∧ T bounds.1 ∧ T last ∧ ∀ i, T i → bounds.1 ≤ i ∧ i ≤ last

/-- The ones of a word are from its lowest to its highest. -/
theorem bit_bounds {bits : BitVec 64} (h : bits.getLsbD k = true) :
    bits.ctz.toNat ≤ k ∧ k + bits.clz.toNat < 64 := by
  constructor
  · by_contra hlt
    rw [BitVec.getLsbD_false_of_lt_ctz (by omega)] at h
    cases h
  · by_contra hge
    have hlt : bits.toNat < 2 ^ k :=
      Nat.lt_of_lt_of_le BitVec.toNat_lt_two_pow_sub_clz (Nat.pow_le_pow_right (by decide) (by omega))
    rw [BitVec.getLsbD, Nat.testBit_lt_two_pow hlt] at h
    cases h

section

variable (m : WordManager) (type : StateType) {T : ℕ → Prop} {bounds : ℕ × ℕ}

/-- A word behind the others. -/
theorem boundsOf_modifiedBounds (h : BoundsOf T bounds) (hbefore : ∀ i, T i → i < word.1 * 64)
    (hbelow : ∀ i, InWord word.1 word.2 i → i < 2 ^ 64 - 1) :
    BoundsOf (fun i => T i ∨ InMasked type m word i) (modifiedBounds type m bounds word) := by
  rw [modifiedBounds]
  dsimp only
  split
  · next hzero =>
    have hnone : ∀ i, ¬InMasked type m word i := fun i hi => by
      have hbit := (inMasked_iff.1 hi).2
      rw [hzero] at hbit
      simp at hbit
    simpa [hnone] using h
  · next hne =>
    generalize hbits : maskedWord type m word.1 word.2 = bits at hne
    have hlowest := BitVec.getLsbD_true_ctz_of_ne_zero hne
    have hhighest := BitVec.getLsbD_true_clz_of_ne_zero (by decide) hne
    have hclz := (bit_bounds hhighest).2
    have hfirst : InMasked type m word (word.1 * 64 + bits.ctz.toNat) := inMasked_bit (hbits ▸ hlowest)
    have hlast : InMasked type m word (word.1 * 64 + (64 - 1 - bits.clz.toNat)) :=
      inMasked_bit (hbits ▸ hhighest)
    have hbetween : ∀ i, InMasked type m word i →
        word.1 * 64 + bits.ctz.toNat ≤ i ∧ i ≤ word.1 * 64 + (64 - 1 - bits.clz.toNat) := fun i hi => by
      obtain ⟨hindex, hbit⟩ := inMasked_iff.1 hi
      rw [hbits] at hbit
      have hbounds := bit_bounds hbit
      omega
    refine .inr ⟨word.1 * 64 + (64 - 1 - bits.clz.toNat), ?_, ?_, .inr hlast, fun i hi => ?_⟩
    · simp only [pagesPerWord]
      omega
    · obtain ⟨rfl, -⟩ | ⟨last, -, hbounds, -⟩ := h
      · rw [Nat.min_eq_right (Nat.le_of_lt (hbelow _ hfirst.1))]
        exact .inr hfirst
      · have hlt := hbefore _ hbounds
        rw [Nat.min_eq_left (by simp only [pagesPerWord]; omega)]
        exact .inl hbounds
    · obtain hi | hi := hi
      · obtain ⟨-, hnone⟩ | ⟨last, -, -, -, hall⟩ := h
        · exact absurd hi (hnone i)
        · have hle := (hall i hi).1
          have hlt := hbefore i hi
          omega
      · have hle := hbetween i hi
        simp only [pagesPerWord]
        omega

theorem boundsOf_foldl (h : BoundsOf T bounds) (hwords : words.Pairwise fun p q => p.1 < q.1)
    (hbefore : ∀ word ∈ words, ∀ i, T i → i < word.1 * 64) (hbelow : ∀ i, InWords words i → i < 2 ^ 64 - 1) :
    BoundsOf (fun i => T i ∨ ∃ word ∈ words, InMasked type m word i)
      (words.foldl (modifiedBounds type m) bounds) := by
  induction words generalizing T bounds with
  | nil => simpa using h
  | cons word words ih =>
    obtain ⟨hnext, hwords⟩ := pairwise_cons.1 hwords
    have hword := boundsOf_modifiedBounds m type h (hbefore word mem_cons_self)
      fun i hi => hbelow i (inWords_cons.2 (.inl hi))
    have hset : (fun i => T i ∨ ∃ word' ∈ word :: words, InMasked type m word' i) =
        fun i => (T i ∨ InMasked type m word i) ∨ ∃ word ∈ words, InMasked type m word i := by
      funext i
      simp [or_assoc]
    rw [hset]
    refine ih hword hwords (fun word' hword' i hi => ?_) fun i hi => hbelow i (inWords_cons.2 (.inr hi))
    obtain hi | hi := hi
    · exact hbefore word' (mem_cons_of_mem _ hword') i hi
    · have hlt := hnext word' hword'
      have hindex := hi.1.1
      omega

end

/-- A page that is visited has a byte below `2^63`. -/
theorem Visits.lt (h : m.Visits offset size i) : i < 2 ^ 64 - 1 := by
  obtain ⟨⟨byte, -, hstop, hbyte⟩, -⟩ := h
  have hlt : (offset + size).toInt < 2 ^ 63 := BitVec.toInt_lt
  simp only [bytesPerPage, Nat.cast_ofNat] at hbyte
  omega

/-- **`ModifiedRegion`** has the bytes from the first modified page to the last. -/
theorem modifiedRegion_spec (hsize : m.SizeOk) (type : StateType) (offset size : BitVec 64) :
    (modifiedRegion type m offset size = (0, 0) ∧ ∀ i, ¬Modified type m offset size i) ∨
      ∃ first last, modifiedRegion type m offset size = (first * bytesPerPage, (last + 1) * bytesPerPage) ∧
        Modified type m offset size first ∧ Modified type m offset size last ∧
        ∀ i, Modified type m offset size i → first ≤ i ∧ i ≤ last := by
  have hbounds := boundsOf_foldl m type (T := fun _ => False) (.inl ⟨rfl, fun _ hi => hi⟩)
    (sorted_iterateWords64 m offset size) (fun _ _ _ hi => hi.elim)
    fun i hi => ((inWords_iterateWords64 hsize).1 hi).lt
  simp only [false_or, ← modified_iff hsize] at hbounds
  unfold modifiedRegion
  obtain ⟨hbounds, hnone⟩ | ⟨last, hbounds, hfirst, hlast, hall⟩ := hbounds
  · rw [hbounds]
    exact .inl ⟨by decide, hnone⟩
  · have hle := (hall _ hlast).1
    rw [if_pos (by omega), hbounds]
    exact .inr ⟨_, last, rfl, hfirst, hlast, hall⟩

end WordManager
end VideoCommon
end NXEmu
