/-
# The pages of a word manager

`src/yuzu_video_core/buffer_cache/word_manager.h`: what the routines of a `WordManager` do to
each page.

A routine acts on the pages of a region by a function of the flags of a page (`Acts`): it
leaves the other pages, the calls of the device tracker count up what the pages of the region
are tracked, and the callback gets the pages that a test selects.  Words of a region are acted
on one after the other (`Acts.append`).
-/

import NXEmu.VideoCore.WordManager
import Mathlib.Algebra.Order.BigOperators.Group.List
import Mathlib.Algebra.Order.Group.Nat
import Mathlib.Algebra.Order.Group.Int

variable {mask : BitVec 64} {base index g : ℕ} {F : PageState → PageState} {type : StateType}

namespace NXEmu
namespace VideoCommon

open Function List

/-- The flags of a page. -/
abbrev PageState := StateType → Bool

/-- How often the device tracker is told to count a page, less how often to leave it. -/
def pageCount (counts : List CachedCount) (page : ℕ) : ℤ :=
  (counts.map fun c =>
    if c.addr ≤ page * bytesPerPage ∧ page * bytesPerPage < c.addr + c.size then c.delta else 0).sum

/-- A page in one of the ranges. -/
def Covered (ranges : List (ℕ × ℕ)) (page : ℕ) : Prop :=
  ∃ r ∈ ranges, r.1 ≤ page * bytesPerPage ∧ page * bytesPerPage < r.1 + r.2

/-- What a page adds to the count of the device tracker. -/
def trackCount (p : PageState) : ℤ := if p .untracked then 0 else 1

theorem pageCount_append (counts counts' : List CachedCount) (page : ℕ) :
    pageCount (counts ++ counts') page = pageCount counts page + pageCount counts' page := by
  rw [pageCount, map_append, sum_append]
  rfl

theorem covered_append (ranges ranges' : List (ℕ × ℕ)) (page : ℕ) :
    Covered (ranges ++ ranges') page ↔ Covered ranges page ∨ Covered ranges' page := by
  simp [Covered, mem_append, or_and_right, exists_or]

namespace WordManager

variable {m m' : WordManager} {i : ℕ}

/-! ### Masks -/

theorem getLsbD_extractBits {word : BitVec 64} {pageStart pageEnd : ℕ} (hi : i < 64) :
    (extractBits word pageStart pageEnd).getLsbD i = (word.getLsbD i && decide (pageStart ≤ i ∧ i < pageEnd)) := by
  rw [extractBits, BitVec.getLsbD_ushiftRight, BitVec.getLsbD_shiftLeft, BitVec.getLsbD_shiftLeft,
    BitVec.getLsbD_ushiftRight]
  rcases Nat.lt_or_ge i (min pageEnd 64) with hlt | hge
  · have hsub : 64 - min pageEnd 64 + i - (64 - min pageEnd 64) = i := by omega
    have hend : i < pageEnd := by omega
    rw [hsub, decide_eq_true (by omega : 64 - min pageEnd 64 + i < 64), decide_eq_true hi,
      decide_eq_false (by omega : ¬ 64 - min pageEnd 64 + i < 64 - min pageEnd 64)]
    rcases Nat.lt_or_ge i pageStart with hs | hs
    · rw [decide_eq_true hs, decide_eq_false (by omega)]
      simp
    · rw [decide_eq_false (Nat.not_lt.2 hs), decide_eq_true ⟨hs, hend⟩, Nat.add_sub_cancel' hs]
      simp
  · rw [decide_eq_false (by omega : ¬ 64 - min pageEnd 64 + i < 64),
      decide_eq_false (by omega : ¬ (pageStart ≤ i ∧ i < pageEnd))]
    simp

/-- The runs of a mask have its ones. -/
theorem sum_iteratePagesFrom {M : Type} [AddMonoid M] (offset : ℕ) (mask : BitVec 64) (d : M) (j : ℕ) :
    ((iteratePagesFrom offset mask).map fun r => if r.1 ≤ j ∧ j < r.1 + r.2 then d else 0).sum =
      if offset ≤ j ∧ mask.getLsbD (j - offset) = true then d else 0 := by
  induction offset, mask using iteratePagesFrom.induct with
  | case1 offset =>
    rw [iteratePagesFrom, dif_pos rfl]
    simp
  | case2 offset mask h emptyBits rest continuousBits ih =>
    have hlow : ∀ k < emptyBits, mask.getLsbD k = false := fun k hk =>
      BitVec.getLsbD_false_of_lt_ctz hk
    have hones : ∀ k < continuousBits, mask.getLsbD (emptyBits + k) = true := fun k hk => by
      have hbit := (countrOne_spec rest).1 k hk
      rwa [BitVec.getLsbD_ushiftRight] at hbit
    have htail : ∀ k, (if continuousBits < pagesPerWord then rest >>> continuousBits else 0).getLsbD k =
        mask.getLsbD (emptyBits + (continuousBits + k)) := fun k => by
      split
      · rw [BitVec.getLsbD_ushiftRight, BitVec.getLsbD_ushiftRight]
      · have hge : 64 ≤ continuousBits := Nat.not_lt.1 ‹_›
        rw [BitVec.getLsbD_of_ge mask _ (by omega)]
        exact BitVec.getLsbD_zero
    simp only [dite_eq_ite] at ih
    rw [iteratePagesFrom, dif_neg h, map_cons, sum_cons]
    change (if offset + emptyBits ≤ j ∧ j < offset + emptyBits + continuousBits then d else 0) +
      (map _ (iteratePagesFrom (offset + emptyBits + continuousBits)
        (if continuousBits < pagesPerWord then rest >>> continuousBits else 0))).sum = _
    clear_value continuousBits rest emptyBits
    rw [ih]
    simp only [htail]
    by_cases hj : j < offset + emptyBits
    · -- before the run
      rw [if_neg (by omega), if_neg (by omega), if_neg, add_zero]
      rintro ⟨hle, hbit⟩
      rw [hlow (j - offset) (by omega)] at hbit
      cases hbit
    · by_cases hj' : j < offset + emptyBits + continuousBits
      · -- in the run
        have hbit := hones (j - (offset + emptyBits)) (by omega)
        rw [show emptyBits + (j - (offset + emptyBits)) = j - offset by omega] at hbit
        rw [if_pos ⟨by omega, hj'⟩, if_neg (by omega), if_pos ⟨by omega, hbit⟩, add_zero]
      · -- behind the run
        have hidx : emptyBits + (continuousBits + (j - (offset + emptyBits + continuousBits))) =
            j - offset := by omega
        have hle : offset ≤ j := by omega
        have hle' : offset + emptyBits + continuousBits ≤ j := by omega
        rw [if_neg (by omega), zero_add, hidx]
        simp only [hle, hle', true_and]

/-- A page is in a run just when it is a one of the mask. -/
theorem exists_mem_iteratePages {j : ℕ} :
    (∃ r ∈ iteratePages mask, r.1 ≤ j ∧ j < r.1 + r.2) ↔ mask.getLsbD j = true := by
  have hsum := sum_iteratePagesFrom 0 mask (1 : ℕ) j
  rw [Nat.sub_zero] at hsum
  constructor
  · rintro ⟨r, hr, hj⟩
    by_contra hbit
    rw [if_neg (fun h => hbit h.2)] at hsum
    have := sum_eq_zero_iff.1 hsum _ (mem_map_of_mem hr)
    rw [if_pos hj] at this
    cases this
  · intro hbit
    by_contra hno
    rw [if_pos ⟨Nat.zero_le j, hbit⟩, sum_eq_zero] at hsum
    · cases hsum
    · intro x hx
      obtain ⟨r, hr, rfl⟩ := mem_map.1 hx
      exact if_neg fun hj => hno ⟨r, hr, hj⟩

/-- A run of a word and its page. -/
theorem run_iff (hg : base + index * 64 ≤ g) (o n : ℕ) :
    (base * bytesPerPage + index * bytesPerWord + o * bytesPerPage ≤ g * bytesPerPage ∧
      g * bytesPerPage < base * bytesPerPage + index * bytesPerWord + o * bytesPerPage +
        n * bytesPerPage) ↔ o ≤ g - (base + index * 64) ∧ g - (base + index * 64) < o + n := by
  simp only [bytesPerPage, bytesPerWord]
  omega

theorem run_lt (hg : ¬ base + index * 64 ≤ g) (o : ℕ) :
    ¬ base * bytesPerPage + index * bytesPerWord + o * bytesPerPage ≤ g * bytesPerPage := by
  simp only [bytesPerPage, bytesPerWord]
  omega

/-- What the device tracker is told of a word. -/
theorem pageCount_notifyRasterizer (hbase : m.cpuAddr = base * bytesPerPage)
    (add : Bool) (index : ℕ) (current new : BitVec 64) (g : ℕ) :
    pageCount (m.notifyRasterizer add index current new) g =
      if base + index * 64 ≤ g ∧ ((if add then current else ~~~current) &&& new).getLsbD
        (g - (base + index * 64)) = true then (if add then 1 else -1) else 0 := by
  rw [pageCount, notifyRasterizer, map_map]
  generalize (if add then current else ~~~current) &&& new = mask
  by_cases hg : base + index * 64 ≤ g
  · have hsum := sum_iteratePagesFrom 0 mask (if add then (1 : ℤ) else -1) (g - (base + index * 64))
    rw [Nat.sub_zero] at hsum
    simp only [hg, true_and]
    simp only [Nat.zero_le, true_and] at hsum
    rw [← hsum, iteratePages]
    refine congrArg sum (map_congr_left fun r _ => ?_)
    rw [comp_apply, hbase]
    exact if_congr (run_iff hg r.1 r.2) rfl rfl
  · rw [if_neg (fun h : base + index * 64 ≤ g ∧ _ => hg h.1)]
    refine sum_eq_zero fun x hx => ?_
    obtain ⟨r, -, rfl⟩ := mem_map.1 hx
    rw [comp_apply, hbase]
    exact if_neg fun h => run_lt hg r.1 h.1

/-! ### Words -/

/-- The flags of a page of a manager. -/
def page (m : WordManager) (i : ℕ) : PageState := fun t => (m.words t (i / 64)).getLsbD (i % 64)

/-- `cpu_work_words` has the words with work. -/
def WorkOk (m : WordManager) : Prop :=
  m.numWords ≤ 64 → ∀ index < m.numWords, m.cpuWorkWords.getLsbD index =
    decide (m.words .cpu index ||| m.words .untracked index ≠ 0)

theorem setWord_words (m : WordManager) (type t : StateType) (index j : ℕ) (word : BitVec 64) :
    (m.setWord type index word).words t j = if t = type ∧ j = index then word else m.words t j := by
  rw [setWord]
  dsimp only
  by_cases ht : t = type
  · subst ht
    rw [update_self]
    by_cases hj : j = index
    · rw [hj, update_self, if_pos ⟨rfl, rfl⟩]
    · rw [update_of_ne hj, if_neg (fun h => hj h.2)]
  · rw [update_of_ne ht, if_neg (fun h => ht h.1)]

@[simp] theorem updateCpuWorkWord_words (m : WordManager) (index : ℕ) :
    (m.updateCpuWorkWord index).words = m.words := rfl

@[simp] theorem updateCpuWorkWord_sizeBytes (m : WordManager) (index : ℕ) :
    (m.updateCpuWorkWord index).sizeBytes = m.sizeBytes := rfl

@[simp] theorem updateCpuWorkWord_numWords (m : WordManager) (index : ℕ) :
    (m.updateCpuWorkWord index).numWords = m.numWords := rfl

/-- `UpdateCpuWorkWord` of the word that changed. -/
theorem WorkOk.update (h : m.WorkOk) (hwork : m'.cpuWorkWords = m.cpuWorkWords)
    (hnum : m'.numWords = m.numWords) (hwords : ∀ t j, j ≠ index → m'.words t j = m.words t j) :
    (m'.updateCpuWorkWord index).WorkOk := by
  intro hle j hj
  rw [updateCpuWorkWord_numWords, hnum] at hle hj
  rw [updateCpuWorkWord_words, updateCpuWorkWord]
  dsimp only
  rw [if_neg (by omega)]
  rw [BitVec.getLsbD_or, BitVec.getLsbD_and, BitVec.getLsbD_not, hwork,
    decide_eq_true (by omega : j < 64), Bool.true_and]
  have hbit : (1#64 <<< index).getLsbD j = decide (j = index) := by
    rw [BitVec.getLsbD_shiftLeft, BitVec.getLsbD_one]
    by_cases hji : j = index
    · simp [hji]
      omega
    · simp [hji]
      omega
  by_cases hji : j = index
  · subst hji
    rw [hbit, decide_eq_true rfl]
    by_cases hw : m'.words .cpu j ||| m'.words .untracked j ≠ 0
    · rw [if_pos hw, hbit, decide_eq_true hw]
      simp
    · rw [if_neg hw, decide_eq_false hw]
      simp
  · rw [hbit, decide_eq_false hji, hwords .cpu j hji, hwords .untracked j hji, ← h hle j hj]
    split
    · rw [hbit, decide_eq_false hji]
      simp
    · simp

/-! ### Acting on pages -/

/-- A routine that acts on the pages in `P` by `F`. -/
structure Acts (F : PageState → PageState) (P : ℕ → Prop) (m m' : WordManager)
    (counts : List CachedCount) : Prop where
  inside : ∀ i, P i → m'.page i = F (m.page i)
  outside : ∀ i, ¬ P i → m'.page i = m.page i
  count : ∀ base, m.cpuAddr = base * bytesPerPage → ∀ g, pageCount counts g =
    if base ≤ g then trackCount (m'.page (g - base)) - trackCount (m.page (g - base)) else 0
  cpuAddr : m'.cpuAddr = m.cpuAddr
  sizeBytes : m'.sizeBytes = m.sizeBytes
  numWords : m'.numWords = m.numWords
  work : m.WorkOk → m'.WorkOk

/-- Nothing done. -/
theorem Acts.refl (F : PageState → PageState) {P : ℕ → Prop}
    (h : ∀ i, P i → F (m.page i) = m.page i) : Acts F P m m [] where
  inside i hi := (h i hi).symm
  outside _ _ := rfl
  count base _ g := by simp [pageCount]
  cpuAddr := rfl
  sizeBytes := rfl
  numWords := rfl
  work hw := hw

/-- **One part of a region after another.** -/
theorem Acts.append {P Q R : ℕ → Prop}
    {m'' : WordManager} {counts counts' : List CachedCount} (h : Acts F P m m' counts)
    (h' : Acts F Q m' m'' counts') (hR : ∀ i, R i ↔ P i ∨ Q i) (hdisj : ∀ i, P i → ¬ Q i) :
    Acts F R m m'' (counts ++ counts') where
  inside i hi := by
    rcases (hR i).1 hi with hP | hQ
    · rw [h'.outside i (hdisj i hP), h.inside i hP]
    · rw [h'.inside i hQ, h.outside i fun hP => hdisj i hP hQ]
  outside i hi := by
    rw [hR, not_or] at hi
    rw [h'.outside i hi.2, h.outside i hi.1]
  count base hbase g := by
    rw [pageCount_append, h.count base hbase g, h'.count base (h.cpuAddr.trans hbase) g]
    split
    · exact (add_comm _ _).trans (sub_add_sub_cancel _ _ _)
    · rfl
  cpuAddr := h'.cpuAddr.trans h.cpuAddr
  sizeBytes := h'.sizeBytes.trans h.sizeBytes
  numWords := h'.numWords.trans h.numWords
  work hw := h'.work (h.work hw)

/-- The pages of a word that are in its mask. -/
def InWord (index : ℕ) (mask : BitVec 64) (i : ℕ) : Prop :=
  i / 64 = index ∧ mask.getLsbD (i % 64) = true

/-- **A word**: it is enough to know its new words, and that what is tracked goes with the flag
for untracked pages. -/
theorem Acts.of_word {counts : List CachedCount} (hother : ∀ t j, j ≠ index → m'.words t j = m.words t j)
    (hword : ∀ k < 64, ∀ t, (m'.words t index).getLsbD k = if mask.getLsbD k = true
      then F (fun t => (m.words t index).getLsbD k) t else (m.words t index).getLsbD k)
    (hcounts : ∀ base, m.cpuAddr = base * bytesPerPage → ∀ g, pageCount counts g =
      if base + index * 64 ≤ g ∧ g - (base + index * 64) < 64 then
        trackCount (m'.page (g - base)) - trackCount (m.page (g - base)) else 0)
    (hcpuAddr : m'.cpuAddr = m.cpuAddr) (hsizeBytes : m'.sizeBytes = m.sizeBytes)
    (hnumWords : m'.numWords = m.numWords) (hwork : m.WorkOk → m'.WorkOk) : Acts F (InWord index mask) m m' counts where
  inside i hi := by
    obtain ⟨rfl, hbit⟩ := hi
    funext t
    rw [page, hword _ (Nat.mod_lt i (by decide)), if_pos hbit]
    rfl
  outside i hi := by
    funext t
    by_cases hidx : i / 64 = index
    · subst hidx
      rw [page, hword _ (Nat.mod_lt i (by decide)), if_neg fun hbit => hi ⟨rfl, hbit⟩]
      rfl
    · rw [page, hother t _ hidx]
      rfl
  count base hbase g := by
    rw [hcounts base hbase]
    by_cases hg : base ≤ g
    · rw [if_pos hg]
      split
      · rfl
      · have hidx : (g - base) / 64 ≠ index := by omega
        have hpage : m'.page (g - base) = m.page (g - base) := by
          funext t
          rw [page, hother t _ hidx]
          rfl
        rw [hpage, sub_self]
    · rw [if_neg hg, if_neg (by omega)]
  cpuAddr := hcpuAddr
  sizeBytes := hsizeBytes
  numWords := hnumWords
  work := hwork

/-- The flag for untracked pages of a page of a word. -/
theorem trackCount_page (hg : base + index * 64 ≤ g)
    (hg' : g - (base + index * 64) < 64) : trackCount (m.page (g - base)) =
      if (m.words .untracked index).getLsbD (g - (base + index * 64)) = true then 0 else 1 := by
  rw [trackCount, page, show (g - base) / 64 = index by omega,
    show (g - base) % 64 = g - (base + index * 64) by omega]

/-- The device tracker is told what becomes tracked, or what does not stay tracked. -/
theorem counts_of_notify {add : Bool} (h : ∀ k < 64, (m'.words .untracked index).getLsbD k =
      if mask.getLsbD k = true then !add else (m.words .untracked index).getLsbD k) (base : ℕ)
    (hbase : m.cpuAddr = base * bytesPerPage) (g : ℕ) :
    pageCount (m.notifyRasterizer add index (m.words .untracked index) mask) g =
      if base + index * 64 ≤ g ∧ g - (base + index * 64) < 64 then
        trackCount (m'.page (g - base)) - trackCount (m.page (g - base)) else 0 := by
  rw [pageCount_notifyRasterizer hbase]
  by_cases hg : base + index * 64 ≤ g
  · by_cases hlt : g - (base + index * 64) < 64
    · rw [trackCount_page hg hlt, trackCount_page hg hlt, h _ hlt, if_pos (⟨hg, hlt⟩ : _ ∧ _)]
      simp only [hg, true_and, BitVec.getLsbD_and]
      cases add <;> cases hm : mask.getLsbD (g - (base + index * 64)) <;>
        cases hu : (m.words .untracked index).getLsbD (g - (base + index * 64)) <;>
        simp [-BitVec.getLsbD_eq_getElem, hu, hlt]
    · rw [BitVec.getLsbD_of_ge _ _ (by omega), if_neg (fun h : _ ∧ _ => nomatch h.2),
        if_neg (fun h : _ ∧ _ => hlt h.2)]
  · rw [if_neg (fun h : _ ∧ _ => hg h.1), if_neg (fun h : _ ∧ _ => hg h.1)]

/-- The device tracker is told nothing when what is tracked stays. -/
theorem counts_of_same (h : m'.words .untracked index = m.words .untracked index)
    (base : ℕ) (g : ℕ) : pageCount [] g = if base + index * 64 ≤ g ∧ g - (base + index * 64) < 64 then
        trackCount (m'.page (g - base)) - trackCount (m.page (g - base)) else 0 := by
  by_cases hg : base + index * 64 ≤ g ∧ g - (base + index * 64) < 64
  · rw [if_pos hg, trackCount_page hg.1 hg.2, trackCount_page hg.1 hg.2, h, sub_self]
    rfl
  · rw [if_neg hg]
    rfl

/-- Work is kept by what changes neither flag that makes it. -/
theorem WorkOk.of_same (h : m.WorkOk) (hwork : m'.cpuWorkWords = m.cpuWorkWords)
    (hnum : m'.numWords = m.numWords) (hcpu : m'.words .cpu = m.words .cpu)
    (huntracked : m'.words .untracked = m.words .untracked) : m'.WorkOk := by
  intro hle j hj
  rw [hnum] at hle hj
  rw [hwork, hcpu, huntracked]
  exact h hle j hj

/-! ### `ChangeRegionState` -/

/-- What `ChangeRegionState<type, enable>` does to a page. -/
def changePage (type : StateType) (enable : Bool) (p : PageState) : PageState :=
  if enable then
    let q := Function.update p type true
    let q := if tracks type then Function.update q .untracked true else q
    if type = .cpu then Function.update q .cachedCpu false else q
  else
    let q := if type = .cpu then Function.update p .cachedCpu (p .cachedCpu && !p .cpu) else p
    let q := Function.update q type false
    if tracks type then Function.update q .untracked false else q

section

variable (type : StateType) (enable : Bool) (m : WordManager) (index : ℕ) (mask : BitVec 64)

theorem changeSpans_words :
    (∀ t j, j ≠ index → (changeSpans type enable m index mask).words t j = m.words t j) ∧
    ∀ k < 64, ∀ t, ((changeSpans type enable m index mask).words t index).getLsbD k =
      if mask.getLsbD k = true then changePage type enable (fun t => (m.words t index).getLsbD k) t
      else (m.words t index).getLsbD k := by
  refine ⟨fun t j hj => ?_, fun k hk t => ?_⟩
  · cases type <;> cases enable <;> simp [changeSpans, tracks, setWord_words, hj]
  · cases hbit : mask.getLsbD k <;> cases type <;> cases enable <;> cases t <;>
      simp [-BitVec.getLsbD_eq_getElem, changeSpans, changePage, tracks, setWord_words, hbit, hk]

theorem changeSpans_fields :
    (changeSpans type enable m index mask).cpuAddr = m.cpuAddr ∧
    (changeSpans type enable m index mask).sizeBytes = m.sizeBytes ∧
    (changeSpans type enable m index mask).numWords = m.numWords ∧
    (changeSpans type enable m index mask).cpuWorkWords = m.cpuWorkWords := by
  cases type <;> cases enable <;> exact ⟨rfl, rfl, rfl, rfl⟩

end

theorem changeSpans_same (htype : type ≠ .untracked) (htracks : tracks type ≠ true)
    (enable : Bool) (m : WordManager) (index : ℕ) (mask : BitVec 64) :
    (changeSpans type enable m index mask).words .cpu = m.words .cpu ∧
      (changeSpans type enable m index mask).words .untracked = m.words .untracked := by
  cases type with
  | gpu | preflushable => cases enable <;> exact ⟨rfl, rfl⟩
  | cpu | cachedCpu => exact absurd rfl htracks
  | untracked => exact absurd rfl htype

/-- **`ChangeRegionState`**, a word of it. -/
theorem changeWord_acts (htype : type ≠ .untracked) (enable : Bool) (m : WordManager) (index : ℕ) (mask : BitVec 64) :
    Acts (changePage type enable) (InWord index mask) m (changeWord type enable m index mask).1
      (changeWord type enable m index mask).2.counts := by
  obtain ⟨hother, hword⟩ := changeSpans_words type enable m index mask
  obtain ⟨hcpuAddr, hsizeBytes, hnum, hwork⟩ :=
    changeSpans_fields type enable m index mask
  rw [changeWord]
  dsimp only
  by_cases htracks : tracks type = true
  · rw [if_pos htracks, if_pos (Or.inl htracks)]
    refine Acts.of_word hother hword ?_ hcpuAddr hsizeBytes hnum
      fun hw => hw.update hwork hnum hother
    refine counts_of_notify fun k hk => ?_
    rw [updateCpuWorkWord_words, hword k hk]
    cases type <;> cases enable <;> simp_all [changePage, tracks]
  · rw [if_neg htracks, if_neg (fun h => h.elim htracks htype)]
    obtain ⟨hcpu, huntracked⟩ := changeSpans_same htype htracks enable m index mask
    exact Acts.of_word hother hword (fun base _ => counts_of_same (congrFun huntracked index) base)
      hcpuAddr hsizeBytes hnum fun hw => hw.of_same hwork hnum hcpu huntracked

/-! ### `ForEachModifiedRange` -/

/-- Whether `ForEachModifiedRange<type>` reports a page. -/
def modifiedPage (type : StateType) (p : PageState) : Bool :=
  p type && (if type = .gpu then !p .untracked else true)

/-- What `ForEachModifiedRange<type, clear>` does to a page. -/
def clearPage (type : StateType) (clear : Bool) (p : PageState) : PageState :=
  if clear then
    let q := Function.update p type (p type && !modifiedPage type p)
    let q := if tracks type then Function.update q .untracked false else q
    if type = .cpu then Function.update q .cachedCpu (p .cachedCpu && !p .cpu) else q
  else p

/-- A page that is neither modified nor untracked stays as it is. -/
theorem clearPage_of_clean {p : PageState} (htracks : tracks type = true)
    (hp : p type = false) (hu : p .untracked = false) : clearPage type true p = p := by
  funext t
  cases type <;> cases t <;> simp_all [clearPage, modifiedPage, tracks]

theorem clearSpans_words (htype : type ≠ .untracked) (m : WordManager) (index : ℕ) (mask : BitVec 64) :
    (∀ t j, j ≠ index → (clearSpans type m index (modifiedMask type m index mask)).words t j = m.words t j) ∧
    ∀ k < 64, ∀ t, ((clearSpans type m index (modifiedMask type m index mask)).words t index).getLsbD k =
      if mask.getLsbD k = true then clearPage type true (fun t => (m.words t index).getLsbD k) t
      else (m.words t index).getLsbD k := by
  refine ⟨fun t j hj => ?_, fun k hk t => ?_⟩
  · cases type <;> simp [clearSpans, tracks, setWord_words, hj]
  · cases hbit : mask.getLsbD k <;> cases type <;> cases t <;>
      simp_all [-BitVec.getLsbD_eq_getElem, clearSpans, clearPage, modifiedPage, modifiedMask, tracks,
        setWord_words, Bool.and_comm]
    -- the flag of a page that is not modified
    cases (m.words .gpu index).getLsbD k <;> rfl

theorem clearSpans_fields (type : StateType) (m : WordManager) (index : ℕ) (mask : BitVec 64) :
    (clearSpans type m index mask).cpuAddr = m.cpuAddr ∧ (clearSpans type m index mask).sizeBytes = m.sizeBytes ∧
    (clearSpans type m index mask).numWords = m.numWords ∧
    (clearSpans type m index mask).cpuWorkWords = m.cpuWorkWords := by
  cases type <;> exact ⟨rfl, rfl, rfl, rfl⟩

theorem clearSpans_same (htype : type ≠ .untracked) (htracks : tracks type ≠ true)
    (m : WordManager) (index : ℕ) (mask : BitVec 64) :
    (clearSpans type m index mask).words .cpu = m.words .cpu ∧
      (clearSpans type m index mask).words .untracked = m.words .untracked := by
  cases type with
  | gpu | preflushable => exact ⟨rfl, rfl⟩
  | cpu | cachedCpu => exact absurd rfl htracks
  | untracked => exact absurd rfl htype

/-- The bits of a word `ForEachModifiedRange` reports. -/
theorem getLsbD_modifiedWord (type : StateType) (clear : Bool) (m : WordManager) (index : ℕ) {k : ℕ} (hk : k < 64) :
    (modifiedWord type clear m index mask).2.getLsbD k = (mask.getLsbD k &&
      modifiedPage type fun t => (m.words t index).getLsbD k) := by
  have hword : (m.words type index &&& modifiedMask type m index mask).getLsbD k = (mask.getLsbD k &&
      modifiedPage type fun t => (m.words t index).getLsbD k) := by
    rw [modifiedMask, modifiedPage, BitVec.getLsbD_and]
    by_cases hgpu : type = .gpu
    · simp only [if_pos hgpu, BitVec.getLsbD_and, BitVec.getLsbD_not, decide_eq_true hk, Bool.true_and]
      grind
    · rw [if_neg hgpu, if_neg hgpu, Bool.and_true]
      exact Bool.and_comm _ _
  rw [modifiedWord]
  dsimp only
  split
  · rename_i h
    rw [← hword, h.2.2.1]
  · split <;> exact hword

/-- **`ForEachModifiedRange`**, a word of it. -/
theorem modifiedWord_acts (htype : type ≠ .untracked) (clear : Bool)
    (m : WordManager) (index : ℕ) (mask : BitVec 64) :
    Acts (clearPage type clear) (InWord index mask) m (modifiedWord type clear m index mask).1.1
      (modifiedWord type clear m index mask).1.2 := by
  obtain ⟨hother, hword⟩ := clearSpans_words htype m index mask
  obtain ⟨hcpuAddr, hsizeBytes, hnum, hwork⟩ :=
    clearSpans_fields type m index (modifiedMask type m index mask)
  rw [modifiedWord]
  dsimp only
  split
  · -- a clean word is as it would be without the shortcut
    rename_i h
    obtain ⟨rfl, htracks, hzero, huntracked⟩ := h
    refine Acts.refl _ fun i hi => ?_
    obtain ⟨rfl, hbit⟩ := hi
    have hmask : modifiedMask type m (i / 64) mask = mask := by
      cases type <;> simp_all [modifiedMask, tracks]
    rw [hmask] at hzero huntracked
    have hp : m.page i type = false := by
      have := congrArg (fun w : BitVec 64 => w.getLsbD (i % 64)) hzero
      rw [BitVec.getLsbD_and, hbit, Bool.and_true] at this
      exact this.trans BitVec.getLsbD_zero
    have hu : m.page i .untracked = false := by
      have := congrArg (fun w : BitVec 64 => w.getLsbD (i % 64)) huntracked
      rw [BitVec.getLsbD_and, hbit, Bool.and_true] at this
      exact this.trans BitVec.getLsbD_zero
    exact clearPage_of_clean htracks hp hu
  · split
    · rename_i h
      subst h
      by_cases htracks : tracks type = true
      · rw [if_pos htracks, if_pos htracks]
        refine Acts.of_word hother hword ?_ hcpuAddr hsizeBytes hnum
          fun hw => hw.update hwork hnum hother
        have hmask : modifiedMask type m index mask = mask := by
          cases type <;> simp_all [modifiedMask, tracks]
        rw [hmask] at hword ⊢
        refine counts_of_notify fun k hk => ?_
        dsimp only [updateCpuWorkWord_words]
        rw [hword k hk]
        cases type <;> simp_all [clearPage, tracks]
      · rw [if_neg htracks, if_neg htracks]
        obtain ⟨hcpu, huntracked⟩ := clearSpans_same htype htracks m index
          (modifiedMask type m index mask)
        exact Acts.of_word hother hword (fun base _ => counts_of_same (congrFun huntracked index) base)
          hcpuAddr hsizeBytes hnum fun hw => hw.of_same hwork hnum hcpu huntracked
    · rename_i h
      refine Acts.refl _ fun i _ => ?_
      rw [clearPage, if_neg h]

/-! ### `FlushCachedWrites` -/

/-- What `FlushCachedWrites` does to a page. -/
def flushPage (p : PageState) : PageState :=
  if p .cachedCpu then
    Function.update (Function.update (Function.update p .untracked true) .cpu true) .cachedCpu false
  else p

theorem flushSpans_words (m : WordManager) (index : ℕ) :
    (∀ t j, j ≠ index → (flushSpans m index).words t j = m.words t j) ∧
    ∀ k < 64, ∀ t, ((flushSpans m index).words t index).getLsbD k =
      flushPage (fun t => (m.words t index).getLsbD k) t := by
  refine ⟨fun t j hj => ?_, fun k hk t => ?_⟩
  · simp [flushSpans, setWord_words, hj]
  · cases hbit : (m.words .cachedCpu index).getLsbD k <;> cases t <;>
      simp [-BitVec.getLsbD_eq_getElem, flushSpans, flushPage, setWord_words, hbit]

/-- **`FlushCachedWrites`**, a word of it. -/
theorem flushWord_acts (m : WordManager) (index : ℕ) (mask : BitVec 64) :
    Acts flushPage (InWord index (BitVec.allOnes 64)) m (flushWord m index mask).1
      (flushWord m index mask).2.counts := by
  rw [flushWord]
  dsimp only
  split
  · rename_i hzero
    refine Acts.refl _ fun i hi => ?_
    have hcached : m.page i .cachedCpu = false := by
      rw [page, hi.1, hzero]
      exact BitVec.getLsbD_zero
    rw [flushPage, if_neg (by simp [hcached])]
  · obtain ⟨hother, hword⟩ := flushSpans_words m index
    refine Acts.of_word hother (fun k hk t => ?_) (counts_of_notify fun k hk => ?_) rfl rfl rfl
      fun hw => hw.update rfl rfl hother
    · rw [BitVec.getLsbD_allOnes, decide_eq_true hk, if_pos rfl]
      exact hword k hk t
    · dsimp only [updateCpuWorkWord_words]
      rw [hword k hk, flushPage]
      split <;> simp

end WordManager
end VideoCommon
end NXEmu
