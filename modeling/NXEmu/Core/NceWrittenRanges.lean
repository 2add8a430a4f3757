/-
# Written ranges of a page

`src/nxemu-os/core/nce_written_ranges.h`.  A page is compared with a copy of it, in blocks of 64 bytes and
in words of 4; the last block and the last word may be shorter.  The ranges that are reported are the
maximal runs of the words that have changed, whatever the blocks (`forEachNceWrittenRange_exact`).
-/

import NXEmu.Lib.MaximalRuns

namespace NXEmu
namespace Core

/-- The place where a run began, or the size of the page, and the calls of `func`. -/
structure Ranges where
  begin : ℕ
  calls : List (ℕ × ℕ)

section Scan

variable (current snapshot : ℕ → UInt8) (pageSize : ℕ)

/-- `memcmp` finds no difference. -/
def Same (offset size : ℕ) : Prop := ∀ i < size, current (offset + i) = snapshot (offset + i)

instance (offset size : ℕ) : Decidable (Same current snapshot offset size) :=
  inferInstanceAs (Decidable (∀ i < size, _))

/-- `finish`. -/
def finish (stop : ℕ) (s : Ranges) : Ranges :=
  if s.begin ≠ pageSize then ⟨pageSize, s.calls ++ [(s.begin, stop - s.begin)]⟩ else s

/-- The loop over the words of a block, of at most so many rounds. -/
def overWords (stop : ℕ) : ℕ → ℕ → Ranges → Ranges
  | 0, _, s => s
  | rounds + 1, offset, s =>
      if offset < stop then
        let size := min 4 (stop - offset)
        let s :=
          if Same current snapshot offset size then finish pageSize offset s
          else if s.begin = pageSize then { s with begin := offset }
          else s
        overWords stop rounds (offset + size) s
      else s

/-- The loop over the blocks, of at most so many rounds. -/
def overBlocks : ℕ → ℕ → Ranges → Ranges
  | 0, _, s => s
  | rounds + 1, block, s =>
      if block < pageSize then
        let blockSize := min 64 (pageSize - block)
        let s :=
          if Same current snapshot block blockSize then finish pageSize block s
          else overWords current snapshot pageSize (block + blockSize) blockSize block s
        overBlocks rounds (block + blockSize) s
      else s

/-- `ForEachNceWrittenRange`: the calls. -/
def forEachNceWrittenRange : List (ℕ × ℕ) :=
  (finish pageSize pageSize (overBlocks current snapshot pageSize pageSize 0 ⟨pageSize, []⟩)).calls

/-- A word of the page has changed. -/
def Changed (k : ℕ) : Prop := ∃ i, 4 * k ≤ i ∧ i < 4 * k + 4 ∧ i < pageSize ∧ current i ≠ snapshot i

/-- The place and the size of a run of words. -/
def rangeOf (r : ℕ × ℕ) : ℕ × ℕ := (4 * r.1, min (4 * r.2) pageSize - 4 * r.1)

/-- Copy ranges of the page to its copy. -/
def copyRanges (calls : List (ℕ × ℕ)) (i : ℕ) : UInt8 :=
  if ∃ c ∈ calls, c.1 ≤ i ∧ i < c.1 + c.2 then current i else snapshot i

end Scan

section Runs

variable {current snapshot : ℕ → UInt8} {pageSize k : ℕ} {s : Ranges}

/-- Before the word `k` the runs are reported but the one that goes on there, if there is one. -/
inductive Scanned (current snapshot : ℕ → UInt8) (pageSize k : ℕ) (s : Ranges) : Prop
  | closed (runs : List (ℕ × ℕ)) (hbegin : s.begin = pageSize) (hcalls : s.calls = runs.map (rangeOf pageSize))
    (hruns : MaximalRuns (fun i => Changed current snapshot pageSize i ∧ i < k) runs)
    (hbefore : ∀ r ∈ runs, r.2 < k)
  | going (runs : List (ℕ × ℕ)) (a : ℕ) (hbegin : s.begin = 4 * a) (hlt : a < k)
    (hcalls : s.calls = runs.map (rangeOf pageSize))
    (hruns : MaximalRuns (fun i => Changed current snapshot pageSize i ∧ i < k) (runs ++ [(a, k)]))

theorem same_iff {m : ℕ} : Same current snapshot (4 * k) (min (4 * (k + m)) pageSize - 4 * k) ↔
    ∀ j, k ≤ j → j < k + m → ¬Changed current snapshot pageSize j := by
  constructor
  · rintro h j hkj hjm ⟨i, hlo, hhi, hpage, hne⟩
    have := h (i - 4 * k) (by omega)
    rw [Nat.add_sub_cancel' (by omega)] at this
    exact hne this
  · intro h i hi
    by_contra hne
    exact h ((4 * k + i) / 4) (by omega) (by omega) ⟨4 * k + i, by omega, by omega, by omega, hne⟩

section

variable (h : Scanned current snapshot pageSize k s)

include h

/-- **Words that have not changed** end a run. -/
theorem Scanned.finish (hk : 4 * k < pageSize) {m : ℕ}
    (hm : 0 < m) (hsame : ∀ j, k ≤ j → j < k + m → ¬Changed current snapshot pageSize j) :
    Scanned current snapshot pageSize (k + m) (finish pageSize (4 * k) s) := by
  have hset : ∀ i, Changed current snapshot pageSize i ∧ i < k ↔ Changed current snapshot pageSize i ∧ i < k + m := by
    intro i
    refine and_congr_right fun hi => ⟨fun hlt => by omega, fun hlt => ?_⟩
    by_contra hge
    exact hsame i (by omega) hlt hi
  unfold Core.finish
  cases h with
  | closed runs hbegin hcalls hruns hbefore =>
    rw [if_neg (not_not.2 hbegin)]
    exact .closed runs hbegin hcalls (hruns.congr hset) fun r hr => Nat.lt_add_right m (hbefore r hr)
  | going runs a hbegin hlt hcalls hruns =>
    have happart := (List.pairwise_append.1 hruns.apart).2.2
    rw [if_pos (by omega)]
    refine .closed (runs ++ [(a, k)]) rfl ?_ (hruns.congr hset) fun r hr => ?_
    · rw [hcalls, hbegin, List.map_append, List.map_singleton, rangeOf, Nat.min_eq_left (Nat.le_of_lt hk)]
    · rcases List.mem_append.1 hr with hr | hr
      · have := happart r hr (a, k) (List.mem_singleton_self _)
        dsimp only at this
        omega
      · rw [List.mem_singleton.1 hr]
        dsimp only
        omega

/-- **A word that has changed** begins a run or goes on with it. -/
theorem Scanned.change (hk : 4 * k < pageSize) (hchanged : Changed current snapshot pageSize k) :
    Scanned current snapshot pageSize (k + 1) (if s.begin = pageSize then { s with begin := 4 * k } else s) := by
  have hset : ∀ i, (Changed current snapshot pageSize i ∧ i < k) ∨ k ≤ i ∧ i < k + 1 ↔
      Changed current snapshot pageSize i ∧ i < k + 1 := by
    intro i
    constructor
    · rintro (⟨hi, hlt⟩ | ⟨hle, hlt⟩)
      · exact ⟨hi, by omega⟩
      · obtain rfl : i = k := by omega
        exact ⟨hchanged, hlt⟩
    · rintro ⟨hi, hlt⟩
      rcases Nat.lt_or_ge i k with hlt' | hge
      · exact .inl ⟨hi, hlt'⟩
      · exact .inr ⟨hge, hlt⟩
  cases h with
  | closed runs hbegin hcalls hruns hbefore =>
    rw [if_pos hbegin]
    exact .going runs k rfl (Nat.lt_succ_self k) hcalls
      ((hruns.snoc (Nat.lt_succ_self k) hbefore).congr hset)
  | going runs a hbegin hlt hcalls hruns =>
    rw [if_neg (by omega)]
    exact .going runs a hbegin (Nat.lt_succ_of_lt hlt) hcalls
      ((hruns.extend (Nat.le_succ k)).congr hset)

/-- The loop over the words from the word `k` on, as far as the word `stop`. -/
theorem Scanned.overWords (stop rounds : ℕ) (hk : k ≤ stop)
    (hstop : 4 * stop < pageSize + 4) (hrounds : stop ≤ k + rounds) :
    Scanned current snapshot pageSize stop
      (overWords current snapshot pageSize (min (4 * stop) pageSize) rounds (min (4 * k) pageSize) s) := by
  induction rounds generalizing k s with
  | zero =>
    obtain rfl : k = stop := by omega
    exact h
  | succ rounds ih =>
    rw [Core.overWords]
    rcases Nat.eq_or_lt_of_le hk with rfl | hlt
    · rw [if_neg (Nat.lt_irrefl _)]
      exact h
    · have hin : 4 * k < pageSize := by omega
      have hsize : min 4 (min (4 * stop) pageSize - 4 * k) = min (4 * (k + 1)) pageSize - 4 * k := by omega
      have hnext : 4 * k + (min (4 * (k + 1)) pageSize - 4 * k) = min (4 * (k + 1)) pageSize := by omega
      rw [Nat.min_eq_left (Nat.le_of_lt hin), if_pos (by omega)]
      dsimp only
      rw [hsize, hnext]
      refine ih ?_ hlt (by omega)
      by_cases hsame : Same current snapshot (4 * k) (min (4 * (k + 1)) pageSize - 4 * k)
      · rw [if_pos hsame]
        exact h.finish hin Nat.one_pos (same_iff.1 hsame)
      · rw [if_neg hsame]
        refine h.change hin ?_
        by_contra hnot
        refine hsame (same_iff.2 fun j hj hjk => ?_)
        obtain rfl : j = k := by omega
        exact hnot

/-- The loop over the blocks from the word `k` on. -/
theorem Scanned.overBlocks (rounds : ℕ) (hk : 4 * k < pageSize + 4) (hrounds : pageSize ≤ 4 * k + rounds) :
    ∃ last, pageSize ≤ 4 * last ∧ 4 * last < pageSize + 4 ∧ Scanned current snapshot pageSize last
      (overBlocks current snapshot pageSize rounds (min (4 * k) pageSize) s) := by
  induction rounds generalizing k s with
  | zero => exact ⟨k, hrounds, hk, h⟩
  | succ rounds ih =>
    rw [Core.overBlocks]
    by_cases hin : 4 * k < pageSize
    · -- the block has 16 words, or those that are left
      obtain ⟨m, hm, hpos, hwords⟩ : ∃ m, min 64 (pageSize - 4 * k) = min (4 * (k + m)) pageSize - 4 * k ∧
          0 < m ∧ 4 * (k + m) < pageSize + 4 :=
        ⟨min 16 ((pageSize - 4 * k + 3) / 4), by omega, by omega, by omega⟩
      have hnext : 4 * k + (min (4 * (k + m)) pageSize - 4 * k) = min (4 * (k + m)) pageSize := by omega
      rw [Nat.min_eq_left (Nat.le_of_lt hin), if_pos hin]
      dsimp only
      rw [hm, hnext]
      refine ih ?_ hwords (by omega)
      by_cases hsame : Same current snapshot (4 * k) (min (4 * (k + m)) pageSize - 4 * k)
      · rw [if_pos hsame]
        exact h.finish hin hpos (same_iff.1 hsame)
      · have hgo := h.overWords (k + m) (min (4 * (k + m)) pageSize - 4 * k)
          (Nat.le_add_right k m) hwords (by omega)
        rw [if_neg hsame]
        rw [Nat.min_eq_left (Nat.le_of_lt hin)] at hgo
        exact hgo
    · rw [if_neg (by omega)]
      exact ⟨k, by omega, hk, h⟩

end

/-- **The ranges are the maximal runs of the words that have changed**, in increasing order; they are
not empty and stay in the page, and copying them makes the copy equal to the page. -/
theorem forEachNceWrittenRange_exact (current snapshot : ℕ → UInt8) (pageSize : ℕ) :
    (∃ runs, MaximalRuns (Changed current snapshot pageSize) runs ∧
      forEachNceWrittenRange current snapshot pageSize = runs.map (rangeOf pageSize)) ∧
      (∀ c ∈ forEachNceWrittenRange current snapshot pageSize, 0 < c.2 ∧ c.1 + c.2 ≤ pageSize) ∧
      ∀ i < pageSize,
        copyRanges current snapshot (forEachNceWrittenRange current snapshot pageSize) i = current i := by
  have hstart : Scanned current snapshot pageSize 0 ⟨pageSize, []⟩ :=
    .closed [] rfl rfl (.nil fun i hi => Nat.not_lt_zero i hi.2) nofun
  obtain ⟨last, hle, hlast, hscan⟩ := hstart.overBlocks pageSize (by omega) (by omega)
  rw [Nat.mul_zero, Nat.zero_min] at hscan
  have hall : ∀ i, Changed current snapshot pageSize i ∧ i < last ↔ Changed current snapshot pageSize i := by
    refine fun i => and_iff_left_of_imp ?_
    rintro ⟨j, hlo, -, hpage, -⟩
    omega
  obtain ⟨runs, hruns, hcalls⟩ : ∃ runs, MaximalRuns (Changed current snapshot pageSize) runs ∧
      forEachNceWrittenRange current snapshot pageSize = runs.map (rangeOf pageSize) := by
    unfold forEachNceWrittenRange finish
    cases hscan with
    | closed runs hbegin hcalls hruns _ =>
      rw [if_neg (not_not.2 hbegin)]
      exact ⟨runs, hruns.congr hall, hcalls⟩
    | going runs a hbegin hlt hcalls hruns =>
      rw [if_pos (by omega)]
      refine ⟨runs ++ [(a, last)], hruns.congr hall, ?_⟩
      rw [hcalls, hbegin, List.map_append, List.map_singleton, rangeOf, Nat.min_eq_right hle]
  rw [hcalls]
  refine ⟨⟨runs, hruns, rfl⟩, fun c hc => ?_, fun i hi => ?_⟩
  · obtain ⟨r, hr, rfl⟩ := List.mem_map.1 hc
    have hpos := hruns.nonempty r hr
    obtain ⟨j, hlo, -, hpage, -⟩ := (hruns.mem (r.2 - 1)).1 ⟨r, hr, by omega, by omega⟩
    unfold rangeOf
    dsimp only
    omega
  · unfold copyRanges
    split_ifs with hcopied
    · rfl
    · by_contra hne
      obtain ⟨r, hr, hlo, hhi⟩ := (hruns.mem (i / 4)).2 ⟨i, by omega, by omega, hi, fun h => hne h.symm⟩
      refine hcopied ⟨_, List.mem_map_of_mem hr, ?_⟩
      unfold rangeOf
      dsimp only
      omega

end Runs

end Core
end NXEmu
