/-
# The regions of a word manager

`src/yuzu_video_core/buffer_cache/word_manager.h`: `IterateWords` cuts a region into words with
masks, which have its pages (`inWords_iterateWords`), and the routines of a `WordManager` act on
these pages (`changeRegionState_spec`, `flushCachedWrites_acts`).  `ForEachModifiedRange` also
calls back for those of them that are modified (`forEachModifiedRange_spec`).
-/

import NXEmu.VideoCore.WordManagerPages

variable {p : ℕ × BitVec 64} {offset size base : ℕ} {F : PageState → PageState}
  {f : WordManager → ℕ → BitVec 64 → WordManager × Output} {type : StateType}

namespace NXEmu
namespace VideoCommon
namespace WordManager

open List

variable {m m' : WordManager} {words : List (ℕ × BitVec 64)} {i : ℕ}

/-! ### The words of a region -/

/-- The pages of some words that are in the masks of these. -/
def InWords (words : List (ℕ × BitVec 64)) (i : ℕ) : Prop := ∃ p ∈ words, InWord p.1 p.2 i

theorem inWords_nil : ¬ InWords [] i := by
  rintro ⟨p, hp, -⟩
  cases hp

theorem inWords_cons :
    InWords (p :: words) i ↔ InWord p.1 p.2 i ∨ InWords words i := by
  simp [InWords]

/-- The loop of `IterateWords` has the pages from its first to its last one. -/
theorem inWords_iterateWordsFrom (wordIndex startPage endPage count : ℕ) (hstart : startPage < 64) :
    InWords (iterateWordsFrom wordIndex startPage endPage count) i ↔
      wordIndex * 64 + startPage ≤ i ∧ i < wordIndex * 64 + endPage ∧ i < (wordIndex + count) * 64 := by
  induction count generalizing wordIndex startPage endPage with
  | zero =>
    refine iff_of_false inWords_nil fun h => ?_
    omega
  | succ count ih =>
    have hword : InWord wordIndex (extractBits (BitVec.allOnes 64) startPage endPage) i ↔
        i / 64 = wordIndex ∧ startPage ≤ i % 64 ∧ i % 64 < endPage := by
      have hmod := Nat.mod_lt i (show 0 < 64 by decide)
      rw [InWord, getLsbD_extractBits hmod, BitVec.getLsbD_allOnes, decide_eq_true hmod,
        Bool.true_and, decide_eq_true_eq]
    rw [iterateWordsFrom, inWords_cons, hword, ih _ _ _ (by decide)]
    have hpages : pagesPerWord = 64 := rfl
    omega

theorem le_of_mem_iterateWordsFrom (wordIndex startPage endPage count : ℕ)
    (h : p ∈ iterateWordsFrom wordIndex startPage endPage count) : wordIndex ≤ p.1 := by
  induction count generalizing wordIndex startPage endPage with
  | zero => cases h
  | succ count ih =>
    rcases mem_cons.1 h with rfl | h
    · exact Nat.le_refl _
    · exact (Nat.le_succ _).trans (ih _ _ _ h)

/-- The loop of `IterateWords` goes up. -/
theorem sorted_iterateWordsFrom (wordIndex startPage endPage count : ℕ) :
    (iterateWordsFrom wordIndex startPage endPage count).Pairwise fun p q => p.1 < q.1 := by
  induction count generalizing wordIndex startPage endPage with
  | zero => exact List.Pairwise.nil
  | succ count ih =>
    exact pairwise_cons.2 ⟨fun p hp => le_of_mem_iterateWordsFrom _ _ _ _ hp, ih _ _ _⟩

/-- `IterateWords` goes up. -/
theorem sorted_iterateWords (m : WordManager) (offset size : ℕ) :
    (m.iterateWords offset size).Pairwise fun p q => p.1 < q.1 := by
  rw [iterateWords]
  split
  · exact List.Pairwise.nil
  · exact sorted_iterateWordsFrom ..

/-- `IterateWords` comes to a word once. -/
theorem pairwise_iterateWords (m : WordManager) (offset size : ℕ) :
    (m.iterateWords offset size).Pairwise fun p q => p.1 ≠ q.1 :=
  (sorted_iterateWords m offset size).imp Nat.ne_of_lt

/-- **`IterateWords`** has the pages that the region touches. -/
theorem inWords_iterateWords (hnum : m.numWords = m.sizeBytes / bytesPerWord)
    (hdvd : bytesPerWord ∣ m.sizeBytes) (hsize : 0 < size) (hle : offset + size ≤ m.sizeBytes) :
    InWords (m.iterateWords offset size) i ↔
      offset / bytesPerPage ≤ i ∧ i < (offset + size + bytesPerPage - 1) / bytesPerPage := by
  obtain ⟨n, hn⟩ := hdvd
  simp only [bytesPerWord, bytesPerPage] at *
  rw [hn, Nat.mul_div_cancel_left _ (by decide)] at hnum
  rw [iterateWords, if_neg (by omega)]
  simp only [getWordPage, hnum, bytesPerWord, bytesPerPage, pagesPerWord]
  rw [inWords_iterateWordsFrom _ _ _ _ (by omega)]
  omega

/-- The words before the others of a list are not among those. -/
theorem inWord_disjoint (h : (p :: words).Pairwise fun p q => p.1 ≠ q.1)
    (hp : InWord p.1 p.2 i) : ¬ InWords words i := by
  rintro ⟨q, hq, hqi⟩
  exact (pairwise_cons.1 h).1 q hq (hp.1.symm.trans hqi.1)

/-- **Word after word.** -/
theorem forWords_acts (hf : ∀ p ∈ words, ∀ m, Acts F (InWord p.1 p.2) m (f m p.1 p.2).1 (f m p.1 p.2).2.counts)
    (hwords : words.Pairwise fun p q => p.1 ≠ q.1) (m : WordManager) :
    Acts F (InWords words) m (forWords f m words).1 (forWords f m words).2.counts := by
  induction words generalizing m with
  | nil => exact Acts.refl F fun i hi => absurd hi inWords_nil
  | cons p words ih =>
    exact (hf p mem_cons_self m).append
      (ih (fun q hq => hf q (mem_cons_of_mem _ hq)) (pairwise_cons.1 hwords).2 _)
      (fun i => inWords_cons) fun i => inWord_disjoint hwords

/-- `ChangeRegionState` acts on the pages of its words. -/
theorem changeRegionState_acts (htype : type ≠ .untracked) (enable : Bool) (m : WordManager) (dirtyAddr size : ℕ) :
    Acts (changePage type enable) (InWords (m.iterateWords (dirtyAddr - m.cpuAddr) size)) m
      (changeRegionState type enable m dirtyAddr size).1
      (changeRegionState type enable m dirtyAddr size).2.counts := by
  exact forWords_acts (fun p _ m => changeWord_acts htype enable m p.1 p.2)
    (pairwise_iterateWords m _ _) m

/-- **`FlushCachedWrites`** acts on all pages. -/
theorem flushCachedWrites_acts (m : WordManager) :
    Acts flushPage (fun i => i / 64 < m.numWords) m (flushCachedWrites m).1 (flushCachedWrites m).2.counts := by
  have hacts : Acts flushPage (InWords ((range m.numWords).map fun index =>
      (index, BitVec.allOnes 64))) m (flushCachedWrites m).1 (flushCachedWrites m).2.counts := by
    refine forWords_acts (fun p hp m => ?_) ?_ m
    · obtain ⟨index, -, rfl⟩ := mem_map.1 hp
      exact flushWord_acts m index _
    · exact pairwise_map.2 (nodup_range.imp fun hne => hne)
  have hiff : ∀ i, i / 64 < m.numWords ↔ InWords ((range m.numWords).map fun index =>
      (index, BitVec.allOnes 64)) i := by
    intro i
    have hmod := Nat.mod_lt i (show 0 < 64 by decide)
    constructor
    · intro hi
      refine ⟨_, mem_map_of_mem (mem_range.2 hi), rfl, ?_⟩
      rw [BitVec.getLsbD_allOnes, decide_eq_true hmod]
    · rintro ⟨p, hp, hi⟩
      obtain ⟨index, hindex, rfl⟩ := mem_map.1 hp
      exact hi.1.trans_lt (mem_range.1 hindex)
  exact { hacts with
    inside := fun i hi => hacts.inside i ((hiff i).1 hi)
    outside := fun i hi => hacts.outside i (mt (hiff i).2 hi) }

/-- Routines without a callback report nothing. -/
theorem forWords_ranges (hf : ∀ m index mask, (f m index mask).2.ranges = []) (m : WordManager) :
    (forWords f m words).2.ranges = [] := by
  induction words generalizing m with
  | nil => rfl
  | cons p words ih =>
    rw [forWords]
    change (f m p.1 p.2).2.ranges ++ (forWords f (f m p.1 p.2).1 words).2.ranges = []
    rw [hf, ih, nil_append]

theorem changeRegionState_ranges (type : StateType) (enable : Bool) (m : WordManager)
    (dirtyAddr size : ℕ) : (changeRegionState type enable m dirtyAddr size).2.ranges = [] :=
  forWords_ranges (fun _ _ _ => rfl) m

theorem flushCachedWrites_ranges (m : WordManager) : (flushCachedWrites m).2.ranges = [] := by
  refine forWords_ranges (fun m index mask => ?_) m
  rw [flushWord]
  dsimp only
  split <;> rfl

/-! ### What `ForEachModifiedRange` reports -/

/-- A page of the pending run. -/
def Pending (pending : Option (ℕ × ℕ)) (i : ℕ) : Prop := ∃ p ∈ pending, p.1 ≤ i ∧ i < p.2

theorem pending_some {p : ℕ × ℕ} : Pending (some p) i ↔ p.1 ≤ i ∧ i < p.2 := by
  simp [Pending]

theorem exists_mem_cons {P : ℕ × ℕ → Prop} {r : ℕ × ℕ} {runs : List (ℕ × ℕ)} :
    (∃ r' ∈ r :: runs, P r') ↔ P r ∨ ∃ r' ∈ runs, P r' := by
  simp

/-- `release` calls back for the pages of the run. -/
theorem covered_release (hbase : m.cpuAddr = base * bytesPerPage) {p : ℕ × ℕ}
    (hp : p.1 ≤ p.2) (g : ℕ) : Covered [m.release p] g ↔ base ≤ g ∧ p.1 ≤ g - base ∧ g - base < p.2 := by
  simp only [Covered, mem_singleton, exists_eq_left, release, hbase, bytesPerPage]
  omega

theorem covered_nil (g : ℕ) : ¬ Covered [] g := by
  rintro ⟨r, hr, -⟩
  cases hr

theorem covered_cons (r : ℕ × ℕ) (ranges : List (ℕ × ℕ)) (g : ℕ) :
    Covered (r :: ranges) g ↔ Covered [r] g ∨ Covered ranges g :=
  covered_append [r] ranges g

/-- **The runs of a word** are released or pending then. -/
theorem collect_spec (hbase : m.cpuAddr = base * bytesPerPage) (baseOffset : ℕ)
    (runs : List (ℕ × ℕ)) (pending : Option (ℕ × ℕ)) (hpending : ∀ p ∈ pending, p.1 ≤ p.2) :
    (∀ p ∈ (m.collect baseOffset pending runs).2, p.1 ≤ p.2) ∧ ∀ g, (Covered (m.collect baseOffset pending runs).1 g ∨
        base ≤ g ∧ Pending (m.collect baseOffset pending runs).2 (g - base)) ↔
      base ≤ g ∧ (Pending pending (g - base) ∨
        ∃ r ∈ runs, baseOffset + r.1 ≤ g - base ∧ g - base < baseOffset + r.1 + r.2) := by
  induction runs generalizing pending with
  | nil =>
    refine ⟨hpending, fun g => ?_⟩
    simp [collect, covered_nil]
  | cons r runs ih =>
    cases pending with
    | none =>
      obtain ⟨hle, hcov⟩ := ih (some (baseOffset + r.1, baseOffset + r.1 + r.2))
        (by simp)
      refine ⟨hle, fun g => ?_⟩
      rw [collect, hcov, pending_some, exists_mem_cons]
      simp [Pending]
    | some p =>
      have hp := hpending p rfl
      rw [collect]
      dsimp only
      split
      · rename_i hmerge
        obtain ⟨hle, hcov⟩ := ih (some (p.1, p.2 + r.2)) (by simp; omega)
        refine ⟨hle, fun g => ?_⟩
        rw [hcov, pending_some, pending_some, exists_mem_cons]
        refine and_congr_right fun _ => ?_
        rw [← or_assoc]
        refine or_congr_left ?_
        dsimp only
        omega
      · obtain ⟨hle, hcov⟩ := ih (some (baseOffset + r.1, baseOffset + r.1 + r.2)) (by simp)
        refine ⟨hle, fun g => ?_⟩
        rw [covered_cons, or_assoc, hcov, covered_release hbase hp, pending_some, pending_some, exists_mem_cons]
        tauto

/-- The runs of the bits of a word that are modified. -/
theorem exists_run_modifiedWord (type : StateType) (clear : Bool) (m : WordManager) (index : ℕ)
    (mask : BitVec 64) (i : ℕ) :
    (∃ r ∈ iteratePages (modifiedWord type clear m index mask).2,
      index * pagesPerWord + r.1 ≤ i ∧ i < index * pagesPerWord + r.1 + r.2) ↔
      InWord index mask i ∧ modifiedPage type (m.page i) = true := by
  have hpages : pagesPerWord = 64 := rfl
  have hshift : ∀ r : ℕ × ℕ, (index * pagesPerWord + r.1 ≤ i ∧ i < index * pagesPerWord + r.1 + r.2) ↔
      index * 64 ≤ i ∧ r.1 ≤ i - index * 64 ∧ i - index * 64 < r.1 + r.2 := fun r => by
    rw [hpages]
    omega
  have hruns : (∃ r ∈ iteratePages (modifiedWord type clear m index mask).2,
      index * pagesPerWord + r.1 ≤ i ∧ i < index * pagesPerWord + r.1 + r.2) ↔
      index * 64 ≤ i ∧ (modifiedWord type clear m index mask).2.getLsbD (i - index * 64) = true := by
    rw [← exists_mem_iteratePages]
    constructor
    · rintro ⟨r, hr, hri⟩
      exact ⟨((hshift r).1 hri).1, r, hr, ((hshift r).1 hri).2⟩
    · rintro ⟨hi, r, hr, hri⟩
      exact ⟨r, hr, (hshift r).2 ⟨hi, hri⟩⟩
  rw [hruns]
  by_cases hidx : i / 64 = index
  · have hmod : i - index * 64 = i % 64 := by omega
    have hle : index * 64 ≤ i := by omega
    subst hidx
    rw [hmod, getLsbD_modifiedWord type clear m _ (Nat.mod_lt i (by decide)), Bool.and_eq_true, InWord]
    simp only [hle, true_and]
    rfl
  · refine iff_of_false (fun h => ?_) fun h => hidx h.1.1
    have hlt : i - index * 64 < 64 := by
      by_contra hge
      rw [BitVec.getLsbD_of_ge _ _ (by omega)] at h
      cases h.2
    omega

/-- **The loop of `ForEachModifiedRange`**: it acts on the pages of the words, and reports what
was pending and the pages that are modified. -/
theorem modifiedWords_spec (htype : type ≠ .untracked) (clear : Bool)
    (hbase : m.cpuAddr = base * bytesPerPage) (pending : Option (ℕ × ℕ))
    (hpending : ∀ p ∈ pending, p.1 ≤ p.2) (hwords : words.Pairwise fun p q => p.1 ≠ q.1) :
    Acts (clearPage type clear) (InWords words) m (modifiedWords type clear m pending words).1
      (modifiedWords type clear m pending words).2.counts ∧
    ∀ g, Covered (modifiedWords type clear m pending words).2.ranges g ↔ base ≤ g ∧ (Pending pending (g - base) ∨
          InWords words (g - base) ∧ modifiedPage type (m.page (g - base)) = true) := by
  induction words generalizing m pending with
  | nil =>
    refine ⟨Acts.refl _ fun i hi => absurd hi inWords_nil, fun g => ?_⟩
    cases pending with
    | none => simp [modifiedWords, covered_nil, Pending, inWords_nil]
    | some p =>
      rw [modifiedWords]
      change Covered [m.release p] g ↔ _
      rw [covered_release hbase (hpending p rfl), pending_some]
      simp [inWords_nil]
  | cons p words ih =>
    obtain ⟨index, mask⟩ := p
    have hword := modifiedWord_acts htype clear m index mask
    obtain ⟨hle, hcollect⟩ := collect_spec hbase (index * pagesPerWord)
      (iteratePages (modifiedWord type clear m index mask).2) pending hpending
    obtain ⟨hacts, hcov⟩ := ih (hword.cpuAddr.trans hbase)
      (m.collect (index * pagesPerWord) pending (iteratePages (modifiedWord type clear m index mask).2)).2
      hle (pairwise_cons.1 hwords).2
    refine ⟨hword.append hacts (fun i => inWords_cons) fun i => inWord_disjoint hwords, fun g => ?_⟩
    have hsame : InWords words (g - base) →
        (modifiedWord type clear m index mask).1.1.page (g - base) = m.page (g - base) :=
      fun hg => hword.outside _ fun hin => inWord_disjoint hwords hin hg
    rw [modifiedWords]
    dsimp only [Output.append]
    rw [covered_append, hcov, and_or_left, ← or_assoc, hcollect, exists_run_modifiedWord, inWords_cons]
    by_cases hg : InWords words (g - base)
    · rw [hsame hg]
      tauto
    · tauto

/-- The pages that a region of bytes touches. -/
def InRegion (offset size i : ℕ) : Prop :=
  offset / bytesPerPage ≤ i ∧ i < (offset + size + bytesPerPage - 1) / bytesPerPage

theorem Acts.congr {P Q : ℕ → Prop} {counts : List CachedCount}
    (h : Acts F P m m' counts) (hPQ : ∀ i, P i ↔ Q i) : Acts F Q m m' counts where
  inside i hi := h.inside i ((hPQ i).2 hi)
  outside i hi := h.outside i (mt (hPQ i).1 hi)
  count := h.count
  cpuAddr := h.cpuAddr
  sizeBytes := h.sizeBytes
  numWords := h.numWords
  work := h.work

/-- A summary of zero says that no page is modified or untracked. -/
theorem WorkOk.clean (h : m.WorkOk) (hshort : m.numWords ≤ 64) (hzero : m.cpuWorkWords = 0) {index : ℕ}
    (hindex : index < m.numWords) : m.words .cpu index ||| m.words .untracked index = 0 := by
  have hbit := h hshort index hindex
  rw [hzero, show BitVec.getLsbD (0 : BitVec 64) index = false from BitVec.getLsbD_zero] at hbit
  by_contra hne
  rw [decide_eq_true hne] at hbit
  cases hbit

/-- **`ForEachModifiedRange`** acts on the pages of its region and reports those modified, also
where the summary lets it return at once. -/
theorem forEachModifiedRange_spec (htype : type ≠ .untracked) (clear : Bool) (hbase : m.cpuAddr = base * bytesPerPage) (hwork : m.WorkOk)
    (hnum : m.numWords = m.sizeBytes / bytesPerWord) (hdvd : bytesPerWord ∣ m.sizeBytes)
    (hsize : 0 < size) (hle : offset + size ≤ m.sizeBytes) :
    Acts (clearPage type clear) (InRegion offset size) m
      (forEachModifiedRange type clear m (m.cpuAddr + offset) size).1
      (forEachModifiedRange type clear m (m.cpuAddr + offset) size).2.counts ∧
    ∀ g, Covered (forEachModifiedRange type clear m (m.cpuAddr + offset) size).2.ranges g ↔
      base ≤ g ∧ InRegion offset size (g - base) ∧ modifiedPage type (m.page (g - base)) = true := by
  have hregion : ∀ i, InWords (m.iterateWords offset size) i ↔ InRegion offset size i :=
    fun i => inWords_iterateWords hnum hdvd hsize hle
  rw [forEachModifiedRange]
  split
  · rename_i h
    obtain ⟨rfl, hclear, hshort, hzero⟩ := h
    obtain rfl : clear = true := hclear
    -- no page of the manager is modified or untracked
    have hclean : ∀ i, InRegion offset size i → m.page i .cpu = false ∧ m.page i .untracked = false := by
      intro i hi
      have hidx : i / 64 < m.numWords := by
        obtain ⟨n, hn⟩ := hdvd
        simp only [InRegion, bytesPerPage, bytesPerWord] at hi hn hnum
        omega
      have hor := hwork.clean hshort hzero hidx
      have hi := congrArg (fun w : BitVec 64 => w.getLsbD (i % 64)) hor
      rw [BitVec.getLsbD_or] at hi
      have := hi.trans BitVec.getLsbD_zero
      rwa [Bool.or_eq_false_iff] at this
    refine ⟨Acts.refl _ fun i hi => clearPage_of_clean rfl (hclean i hi).1 (hclean i hi).2, fun g => ?_⟩
    refine iff_of_false (covered_nil g) fun hg => ?_
    rw [modifiedPage, (hclean _ hg.2.1).1] at hg
    cases hg.2.2
  · rw [Nat.add_sub_cancel_left]
    obtain ⟨hacts, hcov⟩ := modifiedWords_spec htype clear hbase none (by simp)
      (pairwise_iterateWords m offset size)
    refine ⟨hacts.congr hregion, fun g => ?_⟩
    rw [hcov, hregion]
    simp [Pending]

/-- **`ChangeRegionState`** acts on the pages of its region. -/
theorem changeRegionState_spec (htype : type ≠ .untracked) (enable : Bool)
    (hnum : m.numWords = m.sizeBytes / bytesPerWord) (hdvd : bytesPerWord ∣ m.sizeBytes)
    (hsize : 0 < size) (hle : offset + size ≤ m.sizeBytes) :
    Acts (changePage type enable) (InRegion offset size) m
      (changeRegionState type enable m (m.cpuAddr + offset) size).1
      (changeRegionState type enable m (m.cpuAddr + offset) size).2.counts := by
  have hacts := changeRegionState_acts htype enable m (m.cpuAddr + offset) size
  rw [Nat.add_sub_cancel_left] at hacts
  exact hacts.congr fun i => inWords_iterateWords hnum hdvd hsize hle

end WordManager
end VideoCommon
end NXEmu
