/-
# Runs of a word manager

`src/yuzu_video_core/buffer_cache/word_manager.h`: the routines of a `WordManager` one after the other.
Each keeps the words that the size asks for and the summary `cpu_work_words` (`Ok.step`), so that in every
state the queries are what they are page by page (`rangeQueries_exact`).

The words of a manager go on behind its last page, and a range that does so too is followed there
(`iterateWords64_beyond`).
-/

import NXEmu.VideoCore.WordManagerQueries

namespace NXEmu
namespace VideoCommon
namespace WordManager

variable {m : WordManager} {i : ℕ}

/-! ### The routines of a manager -/

/-- A call of a routine that changes a manager. -/
inductive Op where
  | setCpuAddress (newCpuAddr : BitVec 64)
  | changeRegionState (type : StateType) (enable : Bool) (dirtyAddr size : BitVec 64)
  -- for any type but `Untracked`, by a static assertion
  | forEachModifiedRange (type : StateType) (htype : type ≠ .untracked) (clear : Bool)
      (queryCpuRange size : BitVec 64)
  | flushCachedWrites

/-- The manager after a call. -/
def step (m : WordManager) : Op → WordManager
  | .setCpuAddress newCpuAddr => { m with cpuAddr := newCpuAddr.toNat }
  | .changeRegionState type enable dirtyAddr size => (changeRegionState64 type enable m dirtyAddr size).1
  | .forEachModifiedRange type _ clear queryCpuRange size =>
    (forEachModifiedRange64 type clear m queryCpuRange size).1
  | .flushCachedWrites => (flushCachedWrites m).1

/-- The manager after some calls. -/
def run (m : WordManager) (ops : List Op) : WordManager := ops.foldl step m

/-- The words are those of the size, and the summary is right. -/
structure Ok (m : WordManager) : Prop where
  size : m.SizeOk
  work : m.WorkOk

theorem Ok.acts {m' : WordManager} {F : PageState → PageState} {P : ℕ → Prop} {counts : List CachedCount}
    (h : m.Ok) (hacts : Acts F P m m' counts) : m'.Ok where
  size := by
    rw [SizeOk, hacts.numWords, hacts.sizeBytes]
    exact h.size
  work := hacts.work h.work

/-! ### A new manager -/

/-- The last word of a new manager has a page. -/
theorem shifted_ne_zero {shift : ℕ} (h : shift < 64) : (BitVec.allOnes 64 <<< shift) >>> shift ≠ 0 := by
  intro hzero
  have hbit : ((BitVec.allOnes 64 <<< shift) >>> shift).getLsbD 0 = true := by
    rw [BitVec.getLsbD_ushiftRight, BitVec.getLsbD_shiftLeft]
    simp [h]
  rw [hzero] at hbit
  cases hbit

theorem getLsbD_low {count index : ℕ} (hcount : count < 64) (hindex : index < count) :
    ((1#64 <<< count) - 1).getLsbD index = true := by
  have hlt : 2 ^ count < 2 ^ 64 := Nat.pow_lt_pow_right (by decide) hcount
  have hpos : 0 < 2 ^ count := Nat.two_pow_pos count
  have hshift : (1#64 <<< count).toNat = 2 ^ count := by
    rw [BitVec.toNat_shiftLeft, BitVec.toNat_ofNat, Nat.shiftLeft_eq, Nat.mod_eq_of_lt (by omega : 1 < 2 ^ 64),
      Nat.one_mul, Nat.mod_eq_of_lt hlt]
  have hvalue : ((1#64 <<< count) - 1).toNat = 2 ^ count - 1 := by
    rw [BitVec.toNat_sub, hshift]
    show (2 ^ 64 - 1 + 2 ^ count) % 2 ^ 64 = 2 ^ count - 1
    omega
  rw [BitVec.getLsbD, hvalue, Nat.testBit_two_pow_sub_one, decide_eq_true hindex]

/-- The words of a new manager have untracked pages. -/
theorem untracked_new (cpuAddr sizeBytes : ℕ) {index : ℕ} (hindex : index < (new cpuAddr sizeBytes).numWords) :
    (new cpuAddr sizeBytes).words .untracked index ≠ 0 := by
  unfold new at hindex ⊢
  dsimp only at hindex ⊢
  rw [if_pos (.inr rfl)]
  split
  · exact shifted_ne_zero (Nat.mod_lt _ (by decide))
  · simp

theorem ok_new (cpuAddr sizeBytes : ℕ) : (new cpuAddr sizeBytes).Ok where
  size := rfl
  work := by
    intro hshort index hindex
    have hne : (new cpuAddr sizeBytes).words .cpu index ||| (new cpuAddr sizeBytes).words .untracked index ≠ 0 :=
      fun hzero => untracked_new cpuAddr sizeBytes hindex (BitVec.or_eq_zero_iff.1 hzero).2
    rw [decide_eq_true hne]
    generalize hcount : (new cpuAddr sizeBytes).numWords = count at hshort hindex
    have hwork : (new cpuAddr sizeBytes).cpuWorkWords =
        if count ≠ 0 ∧ count ≤ 64 then if count = 64 then BitVec.allOnes 64 else (1#64 <<< count) - 1 else 0 :=
      hcount ▸ rfl
    rw [hwork, if_pos ⟨by omega, hshort⟩]
    split
    · rw [BitVec.getLsbD_allOnes, decide_eq_true (by omega)]
    · exact getLsbD_low (by omega) hindex

/-! ### Each routine keeps this -/

theorem ok_changeWord (type : StateType) (enable : Bool) (index : ℕ) (mask : BitVec 64) (h : m.Ok) :
    (changeWord type enable m index mask).1.Ok := by
  by_cases htype : type = .untracked
  · subst htype
    obtain ⟨-, hsizeBytes, hnumWords, hwork⟩ := changeSpans_fields .untracked enable m index mask
    refine ⟨?_, h.work.update hwork hnumWords (changeSpans_words .untracked enable m index mask).1⟩
    show ((changeSpans .untracked enable m index mask).updateCpuWorkWord index).SizeOk
    rw [SizeOk, updateCpuWorkWord_numWords, updateCpuWorkWord_sizeBytes, hnumWords, hsizeBytes]
    exact h.size
  · exact h.acts (changeWord_acts htype enable m index mask)

theorem ok_changeRegionState64 (type : StateType) (enable : Bool) (dirtyAddr size : BitVec 64) (h : m.Ok) :
    (changeRegionState64 type enable m dirtyAddr size).1.Ok := by
  rw [changeRegionState64]
  generalize m.iterateWords64 (dirtyAddr - BitVec.ofNat 64 m.cpuAddr) size = words
  induction words generalizing m with
  | nil => exact h
  | cons word words ih => exact ih (ok_changeWord type enable word.1 word.2 h)

theorem Ok.step (h : m.Ok) (op : Op) : (m.step op).Ok := by
  cases op with
  | setCpuAddress newCpuAddr => exact ⟨h.size, h.work⟩
  | changeRegionState type enable dirtyAddr size => exact ok_changeRegionState64 type enable dirtyAddr size h
  | forEachModifiedRange type htype clear queryCpuRange size =>
    show (forEachModifiedRange64 type clear m queryCpuRange size).1.Ok
    rw [forEachModifiedRange64_eq_scan h.work]
    exact h.acts (scanModified_spec htype clear h.size queryCpuRange size).1
  | flushCachedWrites => exact h.acts (flushCachedWrites_acts m)

theorem Ok.run (h : m.Ok) (ops : List Op) : (m.run ops).Ok := by
  induction ops generalizing m with
  | nil => exact h
  | cons op ops ih => exact ih (h.step op)

/-! ### The queries in every state -/

/-- The ranges a routine reports are the maximal runs of some pages in increasing order. -/
def Reports (m : WordManager) (T : ℕ → Prop) (ranges : List (ℕ × ℕ)) : Prop :=
  ∃ runs, ranges = runs.map m.release ∧ MaximalRuns T runs

theorem forEachModifiedRange64_spec (h : m.Ok) {type : StateType} (htype : type ≠ .untracked) (clear : Bool)
    (offset size : BitVec 64) :
    let r := forEachModifiedRange64 type clear m (BitVec.ofNat 64 m.cpuAddr + offset) size
    Reports m (Modified type m offset size) r.2.ranges ∧
      Acts (clearPage type clear) (m.Visits offset size) m r.1 r.2.counts := by
  have hoffset : BitVec.ofNat 64 m.cpuAddr + offset - BitVec.ofNat 64 m.cpuAddr = offset := by
    rw [BitVec.add_comm, BitVec.add_sub_cancel]
  obtain ⟨hacts, hruns⟩ := scanModified_spec htype clear h.size (BitVec.ofNat 64 m.cpuAddr + offset) size
  rw [hoffset] at hacts hruns
  dsimp only
  rw [forEachModifiedRange64_eq_scan h.work]
  exact ⟨hruns, hacts⟩

/-- `IterateWords` goes up through the pages of the manager's words that the range touches. -/
def IterateWordsExact (m : WordManager) (offset size : BitVec 64) : Prop :=
  (m.iterateWords64 offset size).Pairwise (fun p q => p.1 < q.1) ∧
    ∀ i, InWords (m.iterateWords64 offset size) i ↔ m.Visits offset size i

/-- `ForEachModifiedRange<CPU, true>` reports the maximal runs of the dirty pages, and leaves the pages of
the range clean and tracked. -/
def CpuRangesExact (m : WordManager) (offset size : BitVec 64) : Prop :=
  let r := forEachModifiedRange64 .cpu true m (BitVec.ofNat 64 m.cpuAddr + offset) size
  Reports m (fun i => m.Visits offset size i ∧ m.page i .cpu = true) r.2.ranges ∧
    (∀ i, m.Visits offset size i → r.1.page i .cpu = false ∧ r.1.page i .untracked = false ∧
      r.1.page i .gpu = m.page i .gpu ∧ r.1.page i .preflushable = m.page i .preflushable) ∧
    ∀ i, ¬m.Visits offset size i → r.1.page i = m.page i

/-- `ForEachModifiedRange<GPU, clear>` reports the maximal runs of the pages that are dirty and tracked, and
no longer has them as dirty if it clears. -/
def GpuRangesExact (m : WordManager) (clear : Bool) (offset size : BitVec 64) : Prop :=
  let r := forEachModifiedRange64 .gpu clear m (BitVec.ofNat 64 m.cpuAddr + offset) size
  let reported := fun i => m.Visits offset size i ∧ m.page i .gpu = true ∧ m.page i .untracked = false
  Reports m reported r.2.ranges ∧ (∀ i, reported i → r.1.page i .gpu = !clear) ∧
    ∀ i type, ¬(reported i ∧ type = .gpu) → r.1.page i type = m.page i type

/-- The pages that `IsRegionModified<type>` and `ModifiedRegion<type>` look for. -/
def Dirty (type : StateType) (m : WordManager) (offset size : BitVec 64) (i : ℕ) : Prop :=
  m.Visits offset size i ∧ m.page i type = true ∧ (type = .gpu → m.page i .untracked = false)

/-- `IsRegionModified<type>` and `ModifiedRegion<type>` say whether there is such a page, and between which
bytes they all are. -/
def RegionExact (type : StateType) (m : WordManager) (offset size : BitVec 64) : Prop :=
  (isRegionModified type m offset size = true ↔ ∃ i, Dirty type m offset size i) ∧
    ((modifiedRegion type m offset size = (0, 0) ∧ ∀ i, ¬Dirty type m offset size i) ∨
      ∃ first last, modifiedRegion type m offset size = (first * bytesPerPage, (last + 1) * bytesPerPage) ∧
        Dirty type m offset size first ∧ Dirty type m offset size last ∧
        ∀ i, Dirty type m offset size i → first ≤ i ∧ i ≤ last)

theorem modified_eq (type : StateType) (m : WordManager) (offset size : BitVec 64) :
    Modified type m offset size = Dirty type m offset size := by
  funext i
  rw [Modified, Dirty, modifiedPage, Bool.and_eq_true]
  by_cases hgpu : type = .gpu
  · simp [hgpu]
  · simp [hgpu]

theorem cpuRangesExact (h : m.Ok) (offset size : BitVec 64) : CpuRangesExact m offset size := by
  obtain ⟨hreports, hacts⟩ := forEachModifiedRange64_spec h (by decide : StateType.cpu ≠ .untracked) true
    offset size
  refine ⟨?_, fun i hi => ?_, hacts.outside⟩
  · obtain ⟨runs, hranges, hruns⟩ := hreports
    exact ⟨runs, hranges, hruns.congr fun i => by simp [Modified, modifiedPage]⟩
  · rw [hacts.inside i hi]
    simp [clearPage, modifiedPage, tracks]

theorem gpuRangesExact (h : m.Ok) (clear : Bool) (offset size : BitVec 64) :
    GpuRangesExact m clear offset size := by
  obtain ⟨hreports, hacts⟩ := forEachModifiedRange64_spec h (by decide : StateType.gpu ≠ .untracked) clear
    offset size
  refine ⟨?_, fun i hi => ?_, fun i type hi => ?_⟩
  · obtain ⟨runs, hranges, hruns⟩ := hreports
    exact ⟨runs, hranges, hruns.congr fun i => by simp [Modified, modifiedPage]⟩
  · rw [hacts.inside i hi.1]
    cases clear <;> simp [clearPage, modifiedPage, tracks, hi.2.1, hi.2.2]
  · by_cases hvisits : m.Visits offset size i
    · rw [hacts.inside i hvisits]
      by_cases htype : type = .gpu
      · subst htype
        have hclean : m.page i .gpu = true → m.page i .untracked = true := fun hgpu =>
          Bool.of_not_eq_false fun huntracked => hi ⟨⟨hvisits, hgpu, huntracked⟩, rfl⟩
        cases clear with
        | false => simp [clearPage]
        | true =>
          simpa [clearPage, modifiedPage, tracks] using fun hgpu => Or.inr (hclean hgpu)
      · cases clear <;> simp [clearPage, tracks, htype]
    · rw [hacts.outside i hvisits]

theorem regionExact (h : m.Ok) (type : StateType) (offset size : BitVec 64) : RegionExact type m offset size := by
  refine ⟨?_, ?_⟩
  · rw [isRegionModified_iff h.size, modified_eq]
  · rw [← modified_eq]
    exact modifiedRegion_spec h.size type offset size

/-- A manager of one page has a word of 64, and a range that goes on behind the page is followed there.  A
range that ends behind the largest signed number is none at all. -/
theorem iterateWords64_beyond :
    (¬∀ i, InWords ((new 0 4096).iterateWords64 0 8192) i → i * bytesPerPage < (new 0 4096).sizeBytes) ∧
      (new 0 4096).iterateWords64 0 (1#64 <<< 63) = [] := by
  refine ⟨fun h => absurd (h 1 ?_) (by decide), by decide⟩
  exact ⟨(0, 3), by decide, rfl, by decide⟩

/-- **The range queries are what they are page by page**, for managers of every size in every state that
their routines lead to. -/
theorem rangeQueries_exact (cpuAddr : BitVec 64) (sizeBytes : ℕ) (ops : List Op) (offset size : BitVec 64) :
    let m := run (new cpuAddr.toNat sizeBytes) ops
    IterateWordsExact m offset size ∧ CpuRangesExact m offset size ∧
      (∀ clear, GpuRangesExact m clear offset size) ∧ (∀ type, RegionExact type m offset size) ∧
      ∀ (type : StateType) (clear : Bool) (queryCpuRange : BitVec 64),
        forEachModifiedRange64 type clear m queryCpuRange size = scanModified type clear m queryCpuRange size := by
  intro m
  have h : m.Ok := (ok_new cpuAddr.toNat sizeBytes).run ops
  exact ⟨⟨sorted_iterateWords64 m offset size, fun i => inWords_iterateWords64 h.size⟩,
    cpuRangesExact h offset size, fun clear => gpuRangesExact h clear offset size,
    fun type => regionExact h type offset size,
    fun type clear queryCpuRange => forEachModifiedRange64_eq_scan h.work type clear queryCpuRange size⟩

end WordManager
end VideoCommon
end NXEmu
