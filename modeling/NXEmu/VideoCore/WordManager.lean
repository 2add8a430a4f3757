/-
# Word managers

`src/yuzu_video_core/buffer_cache/word_manager.h`: a `WordManager` keeps five flags for each
page of a region of device memory, 64 pages in a word, and tells the device tracker about each
page that it starts or stops to track.

A span of words is a function of the index; `IterateWords` stays below `NumWords`.  The calls
of `UpdatePagesCachedCount` and of the callbacks come back with the manager.
-/

import Mathlib.Algebra.Ring.Int.Defs
import Mathlib.Data.Int.Notation
import Mathlib.Data.Nat.Notation
import Mathlib.Order.Basic
import Mathlib.Data.List.Basic
import Mathlib.Logic.Function.Basic
import Mathlib.Tactic.Common

namespace NXEmu
namespace VideoCommon

open BitVec

/-- `PAGES_PER_WORD`. -/
abbrev pagesPerWord : ℕ := 64

/-- `BYTES_PER_PAGE`. -/
abbrev bytesPerPage : ℕ := 4096

/-- `BYTES_PER_WORD`. -/
abbrev bytesPerWord : ℕ := 262144

/-- `Type`. -/
inductive StateType where
  | cpu
  | gpu
  | cachedCpu
  | untracked
  | preflushable
deriving DecidableEq

/-- A call of `UpdatePagesCachedCount`. -/
structure CachedCount where
  addr : ℕ
  size : ℕ
  delta : ℤ
deriving DecidableEq

/-- `WordManager`, with `Span<type>()` as `words type`. -/
structure WordManager where
  cpuAddr : ℕ
  sizeBytes : ℕ
  numWords : ℕ
  words : StateType → ℕ → BitVec 64
  cpuWorkWords : BitVec 64

/-- What a routine of a manager hands to the device tracker and to its callback. -/
structure Output where
  counts : List CachedCount
  ranges : List (ℕ × ℕ)

/-- No calls. -/
def Output.none : Output := ⟨[], []⟩

/-- One routine after the other. -/
def Output.append (o o' : Output) : Output := ⟨o.counts ++ o'.counts, o.ranges ++ o'.ranges⟩

namespace WordManager

/-- `WordManager(cpu_addr, tracker, size_bytes)` with the `Words` it has. -/
def new (cpuAddr sizeBytes : ℕ) : WordManager :=
  let count := (sizeBytes + bytesPerWord - 1) / bytesPerWord
  -- Clean up tailing bits
  let lastLocalPage := (sizeBytes % bytesPerWord + bytesPerPage - 1) / bytesPerPage
  let shift := (pagesPerWord - lastLocalPage) % pagesPerWord
  let lastWord := (BitVec.allOnes 64 <<< shift) >>> shift
  let full := fun index =>
    if index + 1 = count then lastWord else if index < count then BitVec.allOnes 64 else 0
  { cpuAddr := cpuAddr
    sizeBytes := sizeBytes
    numWords := count
    words := fun type => if type = .cpu ∨ type = .untracked then full else fun _ => 0
    cpuWorkWords :=
      if count ≠ 0 ∧ count ≤ 64 then
        if count = 64 then BitVec.allOnes 64 else (1#64 <<< count) - 1
      else 0 }

/-- An assignment to a word. -/
def setWord (m : WordManager) (type : StateType) (index : ℕ) (word : BitVec 64) : WordManager :=
  { m with words := Function.update m.words type (Function.update (m.words type) index word) }

/-- `ExtractBits`. -/
def extractBits (word : BitVec 64) (pageStart pageEnd : ℕ) : BitVec 64 :=
  let limitPageEnd := 64 - min pageEnd 64
  let bits := (word >>> pageStart) <<< pageStart
  (bits <<< limitPageEnd) >>> limitPageEnd

/-- `GetWordPage`. -/
def getWordPage (address : ℕ) : ℕ × ℕ :=
  (address / bytesPerWord, address % bytesPerWord / bytesPerPage)

/-- The loop of `IterateWords` over so many words. -/
def iterateWordsFrom (wordIndex startPage endPage : ℕ) : ℕ → List (ℕ × BitVec 64)
  | 0 => []
  | count + 1 => (wordIndex, extractBits (BitVec.allOnes 64) startPage endPage) ::
      iterateWordsFrom (wordIndex + 1) 0 (endPage - pagesPerWord) count

/-- `IterateWords`: the words it calls its function with, and the mask of each. -/
def iterateWords (m : WordManager) (offset size : ℕ) : List (ℕ × BitVec 64) :=
  let start := offset
  let stop := offset + size
  if m.sizeBytes ≤ start ∨ stop ≤ start then []
  else
    let (startWord, startPage) := getWordPage start
    let (endWord, endPage) := getWordPage (stop + bytesPerPage - 1)
    let startWord := min startWord m.numWords
    let endWord := min endWord m.numWords
    let diff := endWord - startWord
    let endWord := min (endWord + (endPage + pagesPerWord - 1) / pagesPerWord) m.numWords
    iterateWordsFrom startWord startPage (endPage + diff * pagesPerWord) (endWord - startWord)

/-- `std::countr_one`. -/
def countrOne (mask : BitVec 64) : ℕ := (~~~mask).ctz.toNat

theorem getLsbD_zero_of_ctz {mask : BitVec 64} (h : mask ≠ 0) :
    (mask >>> mask.ctz.toNat).getLsbD 0 = true := by
  rw [getLsbD_ushiftRight, Nat.add_zero]
  exact getLsbD_true_ctz_of_ne_zero h

/-- The ones a mask starts with. -/
theorem countrOne_spec (mask : BitVec 64) : (∀ i < countrOne mask, mask.getLsbD i = true) ∧
    (countrOne mask < 64 → mask.getLsbD (countrOne mask) = false) ∧ countrOne mask ≤ 64 := by
  have hle : countrOne mask ≤ 64 := by
    have h : (~~~mask).ctz ≤ (64 : BitVec 64) := by
      rw [ctz_eq_reverse_clz]
      exact clz_le
    exact h
  refine ⟨fun i hi => ?_, fun hlt => ?_, hle⟩
  · have h := getLsbD_false_of_lt_ctz hi
    rw [getLsbD_not, decide_eq_true (by omega), Bool.true_and, Bool.not_eq_false'] at h
    exact h
  · have hne : ~~~mask ≠ 0#64 := ctz_lt_iff_ne_zero.1 hlt
    have h := getLsbD_true_ctz_of_ne_zero hne
    rw [getLsbD_not, Bool.and_eq_true, Bool.not_eq_true'] at h
    exact h.2

theorem countrOne_pos {mask : BitVec 64} (h : mask.getLsbD 0 = true) : 0 < countrOne mask := by
  by_contra hz
  obtain hz : countrOne mask = 0 := by omega
  have hf := (countrOne_spec mask).2.1 (by omega)
  rw [hz, h] at hf
  cases hf

/-- To shift a mask that is not zero makes it smaller. -/
theorem toNat_shift_lt {mask : BitVec 64} (h : mask ≠ 0) {n : ℕ} (hn : 0 < n) :
    (mask >>> mask.ctz.toNat >>> n).toNat < mask.toNat := by
  rw [toNat_ushiftRight, toNat_ushiftRight, Nat.shiftRight_eq_div_pow,
    Nat.shiftRight_eq_div_pow, Nat.div_div_eq_div_mul, ← Nat.pow_add]
  have hpos : 0 < mask.toNat := Nat.pos_of_ne_zero fun hz => h (eq_of_toNat_eq hz)
  exact Nat.div_lt_self hpos (Nat.one_lt_two_pow (by omega))

/-- `IteratePages` with `offset`: the runs of ones it calls its function with. -/
def iteratePagesFrom (offset : ℕ) (mask : BitVec 64) : List (ℕ × ℕ) :=
  if _ : mask = 0 then []
  else
    let emptyBits := mask.ctz.toNat
    let rest := mask >>> emptyBits
    let continuousBits := countrOne rest
    (offset + emptyBits, continuousBits) ::
      iteratePagesFrom (offset + emptyBits + continuousBits)
        (if continuousBits < pagesPerWord then rest >>> continuousBits else 0)
termination_by mask.toNat
decreasing_by
  have h : mask ≠ 0 := ‹_›
  have hpos := countrOne_pos (getLsbD_zero_of_ctz h)
  split
  · exact toNat_shift_lt h hpos
  · exact Nat.pos_of_ne_zero fun hz => h (BitVec.eq_of_toNat_eq hz)

/-- `IteratePages`. -/
def iteratePages (mask : BitVec 64) : List (ℕ × ℕ) := iteratePagesFrom 0 mask

/-- `NotifyRasterizer<add_to_tracker>`: a call for each run of pages that begin, or cease, to be counted. -/
def notifyRasterizer (m : WordManager) (addToTracker : Bool) (wordIndex : ℕ)
    (currentBits newBits : BitVec 64) : List CachedCount :=
  let changedBits := (if addToTracker then currentBits else ~~~currentBits) &&& newBits
  let addr := m.cpuAddr + wordIndex * bytesPerWord
  (iteratePages changedBits).map fun (offset, size) =>
    ⟨addr + offset * bytesPerPage, size * bytesPerPage, if addToTracker then 1 else -1⟩

/-- `UpdateCpuWorkWord`: whether the word has pages that are dirty or not tracked. -/
def updateCpuWorkWord (m : WordManager) (index : ℕ) : WordManager :=
  let bit := 1#64 <<< index
  let work := m.words .cpu index ||| m.words .untracked index ≠ 0
  { m with
    cpuWorkWords := if 64 < m.numWords then m.cpuWorkWords
      else (m.cpuWorkWords &&& ~~~bit) ||| (if work then bit else 0) }

/-- Whether a change of this type changes what is tracked. -/
def tracks (type : StateType) : Bool := type = .cpu || type = .cachedCpu

/-- What `ChangeRegionState<type, enable>` does to the spans. -/
def changeSpans (type : StateType) (enable : Bool) (m : WordManager) (index : ℕ)
    (mask : BitVec 64) : WordManager :=
  if enable then
    let m := m.setWord type index (m.words type index ||| mask)
    let m := if tracks type then m.setWord .untracked index (m.words .untracked index ||| mask) else m
    if type = .cpu then m.setWord .cachedCpu index (m.words .cachedCpu index &&& ~~~mask) else m
  else
    let m := if type = .cpu then
        let word := m.words .cpu index &&& mask
        m.setWord .cachedCpu index (m.words .cachedCpu index &&& ~~~word)
      else m
    let m := m.setWord type index (m.words type index &&& ~~~mask)
    if tracks type then m.setWord .untracked index (m.words .untracked index &&& ~~~mask) else m

/-- The function of `ChangeRegionState<type, enable>`. -/
def changeWord (type : StateType) (enable : Bool) (m : WordManager) (index : ℕ)
    (mask : BitVec 64) : WordManager × Output :=
  let counts := if tracks type then m.notifyRasterizer (!enable) index (m.words .untracked index) mask
    else []
  let m := changeSpans type enable m index mask
  (if tracks type ∨ type = .untracked then m.updateCpuWorkWord index else m, ⟨counts, []⟩)

/-- The words of a region one after the other. -/
def forWords (f : WordManager → ℕ → BitVec 64 → WordManager × Output) (m : WordManager) :
    List (ℕ × BitVec 64) → WordManager × Output
  | [] => (m, .none)
  | (index, mask) :: words =>
    let first := f m index mask
    let rest := forWords f first.1 words
    (rest.1, first.2.append rest.2)

/-- `ChangeRegionState<type, enable>`. -/
def changeRegionState (type : StateType) (enable : Bool) (m : WordManager) (dirtyAddr size : ℕ) :
    WordManager × Output :=
  forWords (changeWord type enable) m (m.iterateWords (dirtyAddr - m.cpuAddr) size)

/-- What `ForEachModifiedRange<type, true>` does to the spans. -/
def clearSpans (type : StateType) (m : WordManager) (index : ℕ) (mask : BitVec 64) : WordManager :=
  let word := m.words type index &&& mask
  let m := m.setWord type index (m.words type index &&& ~~~mask)
  let m := if tracks type then m.setWord .untracked index (m.words .untracked index &&& ~~~mask) else m
  if type = .cpu then m.setWord .cachedCpu index (m.words .cachedCpu index &&& ~~~word) else m

/-- The mask of a word in `ForEachModifiedRange<type, clear>`. -/
def modifiedMask (type : StateType) (m : WordManager) (index : ℕ) (mask : BitVec 64) : BitVec 64 :=
  if type = .gpu then mask &&& ~~~m.words .untracked index else mask

/-- What the function of `ForEachModifiedRange<type, clear>` does to a word, and the bits of it
that are modified. -/
def modifiedWord (type : StateType) (clear : Bool) (m : WordManager) (index : ℕ)
    (mask : BitVec 64) : (WordManager × List CachedCount) × BitVec 64 :=
  let mask := modifiedMask type m index mask
  let word := m.words type index &&& mask
  -- A clean, tracked word needs neither protection updates nor stores.
  if clear ∧ tracks type ∧ word = 0 ∧ m.words .untracked index &&& mask = 0 then ((m, []), 0)
  else if clear then
    let counts := if tracks type then m.notifyRasterizer true index (m.words .untracked index) mask
      else []
    let m := clearSpans type m index mask
    ((if tracks type then m.updateCpuWorkWord index else m, counts), word)
  else ((m, []), word)

/-- `release`: a run of pages from `pending_offset` to `pending_pointer`. -/
def release (m : WordManager) (pending : ℕ × ℕ) : ℕ × ℕ :=
  (m.cpuAddr + pending.1 * bytesPerPage, (pending.2 - pending.1) * bytesPerPage)

/-- The runs of a word put to the pending one: those released, and what is pending then. -/
def collect (m : WordManager) (baseOffset : ℕ) (pending : Option (ℕ × ℕ)) :
    List (ℕ × ℕ) → List (ℕ × ℕ) × Option (ℕ × ℕ)
  | [] => ([], pending)
  | (pagesOffset, pagesSize) :: runs =>
    let fresh := (baseOffset + pagesOffset, baseOffset + pagesOffset + pagesSize)
    match pending with
    | none => m.collect baseOffset (some fresh) runs
    | some (pendingOffset, pendingPointer) =>
      if pendingPointer = baseOffset + pagesOffset then
        m.collect baseOffset (some (pendingOffset, pendingPointer + pagesSize)) runs
      else
        let (released, pending') := m.collect baseOffset (some fresh) runs
        (m.release (pendingOffset, pendingPointer) :: released, pending')

/-- The loop of `ForEachModifiedRange<type, clear>`. -/
def modifiedWords (type : StateType) (clear : Bool) (m : WordManager) (pending : Option (ℕ × ℕ)) :
    List (ℕ × BitVec 64) → WordManager × Output
  | [] => (m, ⟨[], (pending.map m.release).toList⟩)
  | (index, mask) :: words =>
    let modified := modifiedWord type clear m index mask
    let collected := m.collect (index * pagesPerWord) pending (iteratePages modified.2)
    let rest := modifiedWords type clear modified.1.1 collected.2 words
    (rest.1, Output.append ⟨modified.1.2, collected.1⟩ rest.2)

/-- `ForEachModifiedRange<type, clear>`: the runs of modified pages of the range, which are cleared if asked. -/
def forEachModifiedRange (type : StateType) (clear : Bool) (m : WordManager)
    (queryCpuRange size : ℕ) : WordManager × Output :=
  -- A clean CPU word can still need protection updates for cached writes.
  if type = .cpu ∧ clear ∧ m.numWords ≤ 64 ∧ m.cpuWorkWords = 0 then (m, .none)
  else modifiedWords type clear m none (m.iterateWords (queryCpuRange - m.cpuAddr) size)

/-- What `FlushCachedWrites` does to the spans of a word. -/
def flushSpans (m : WordManager) (index : ℕ) : WordManager :=
  let cachedBits := m.words .cachedCpu index
  let m := m.setWord .untracked index (m.words .untracked index ||| cachedBits)
  let m := m.setWord .cpu index (m.words .cpu index ||| cachedBits)
  m.setWord .cachedCpu index 0

/-- The body of the loop of `FlushCachedWrites`. -/
def flushWord (m : WordManager) (index : ℕ) (_ : BitVec 64) : WordManager × Output :=
  let cachedBits := m.words .cachedCpu index
  if cachedBits = 0 then (m, .none)
  else
    let counts := m.notifyRasterizer false index (m.words .untracked index) cachedBits
    ((flushSpans m index).updateCpuWorkWord index, ⟨counts, []⟩)

/-- `FlushCachedWrites`. -/
def flushCachedWrites (m : WordManager) : WordManager × Output :=
  forWords flushWord m ((List.range m.numWords).map fun index => (index, BitVec.allOnes 64))

end WordManager
end VideoCommon
end NXEmu
