/-
# The continuity index of device memory

`src/yuzu_video_core/host1x/gpu_device_memory_manager.cpp`: a change of a boundary goes up as long as
words become empty or stop being so, and leaves the levels summarized (`setContinuityBoundaryFrom_spec`).
A search climbs over empty words and goes down to the first bit (`nextContinuityBoundary_spec`).
-/

import NXEmu.VideoCore.DeviceMemoryManager

namespace NXEmu
namespace Core
namespace DeviceMemoryManager

open SummaryBitmap

variable {bits n level levels page i first endPage : ℕ} {b : ℕ → ℕ → BitVec 64} {boundary : Bool}

/-! ### Setting a boundary -/

/-- **`SetContinuityBoundary`** from a level on, when the bit to set is the only one that may be
wrong. -/
theorem setContinuityBoundaryFrom_spec (hn : level + levels = n) (hlevels : level = 0 → levels ≠ 0)
    (hsum : ∀ l, l + 1 < n → ∀ w, ¬ (l + 1 = level ∧ w = page) → (bit b (l + 1) w = true ↔ b l w ≠ 0))
    (hbelow : ∀ l, l + 1 = level → (boundary = true ↔ b l page ≠ 0)) :
    Summarizes n (setContinuityBoundaryFrom b page boundary level levels) ∧
      ∀ p, bit (setContinuityBoundaryFrom b page boundary level levels) 0 p =
        if level = 0 ∧ p = page then boundary else bit b 0 p := by
  induction levels generalizing b page boundary level with
  | zero =>
    have hlevel : level ≠ 0 := fun h => hlevels h rfl
    refine ⟨fun l hl w => hsum l hl w (by omega), fun p => ?_⟩
    rw [setContinuityBoundaryFrom, if_neg fun h => hlevel h.1]
  | succ levels ih =>
    have hput : bit (put b level page boundary) level page = boundary := by
      rw [bit_put, if_pos ⟨rfl, rfl⟩]
    have hafter : (if boundary then b level (page / 64) ||| 1#64 <<< (page % 64)
        else b level (page / 64) &&& ~~~(1#64 <<< (page % 64))) =
          putWord (b level (page / 64)) (page % 64) boundary := rfl
    rw [setContinuityBoundaryFrom]
    simp only [hafter]
    by_cases hsame : b level (page / 64) = putWord (b level (page / 64)) (page % 64) boundary
    · -- the bit has its value already
      have hbit : bit b level page = boundary := by
        rw [← hput, bit, bit, put_word, if_pos ⟨rfl, rfl⟩, ← hsame]
      rw [if_pos hsame]
      refine ⟨fun l hl w => ?_, fun p => ?_⟩
      · by_cases hlw : l + 1 = level ∧ w = page
        · obtain ⟨rfl, rfl⟩ := hlw
          rw [hbit]
          exact hbelow l rfl
        · exact hsum l hl w hlw
      · split
        · rename_i hp
          rw [hp.2, ← hbit, hp.1]
        · rfl
    · rw [if_neg hsame]
      have hword : ∀ l w, put b level page boundary l w = if l = level ∧ w = page / 64 then
          putWord (b level (page / 64)) (page % 64) boundary else b l w := put_word b level page boundary
      have hzero : ∀ p, bit (put b level page boundary) 0 p =
          if level = 0 ∧ p = page then boundary else bit b 0 p := by
        intro p
        rw [bit_put]
        exact if_congr (and_congr_left fun _ => eq_comm) rfl rfl
      -- a relation of levels can only fail for the word that was changed
      have hkept : ∀ l, l + 1 < n → ∀ w, ¬ (l = level ∧ w = page / 64) →
          (bit (put b level page boundary) (l + 1) w = true ↔ put b level page boundary l w ≠ 0) := by
        intro l hl w hlw
        rw [bit_put, hword, if_neg hlw]
        by_cases hpage : l + 1 = level ∧ w = page
        · rw [if_pos hpage, hpage.2]
          exact hbelow l hpage.1
        · rw [if_neg hpage]
          exact hsum l hl w hpage
      split
      · rename_i hempty
        refine ⟨fun l hl w => ?_, hzero⟩
        by_cases hlw : l = level ∧ w = page / 64
        · obtain ⟨rfl, rfl⟩ := hlw
          show bit (put b l page boundary) (l + 1) (page / 64) = true ↔ put b l page boundary l (page / 64) ≠ 0
          rw [bit_put, if_neg (by omega), hword, if_pos ⟨rfl, rfl⟩, hsum l hl _ (by omega)]
          exact decide_eq_decide.1 hempty
        · exact hkept l hl w hlw
      · obtain ⟨hsum', hzero'⟩ := @ih (level + 1) (page / 64) (put b level page boundary)
          (decide (putWord (b level (page / 64)) (page % 64) boundary ≠ 0)) (by omega) (by omega)
          (fun l hl w hlw => hkept l hl w (by omega)) fun l hl => by
            obtain rfl : l = level := by omega
            rw [hword, if_pos ⟨rfl, rfl⟩, decide_eq_true_iff]
        refine ⟨hsum', fun p => ?_⟩
        rw [← hzero p]
        exact (hzero' p).trans (if_neg (by omega))

/-! ### Searching for a boundary -/

theorem pow_pos_64 (level : ℕ) : 0 < 64 ^ level := Nat.pos_of_ne_zero (by simp)

/-- Going down from a bit that is set. -/
theorem descend_spec (h : Summarizes n b) (hlevel : level < n) (hbit : bit b level i = true) :
    bit b 0 (descend b level i) = true ∧ i * 64 ^ level ≤ descend b level i ∧
      ∀ q, i * 64 ^ level ≤ q → q < descend b level i → bit b 0 q = false := by
  induction level generalizing i with
  | zero =>
    refine ⟨hbit, by rw [Nat.pow_zero, Nat.mul_one]; exact le_rfl, fun q hq hq' => ?_⟩
    rw [Nat.pow_zero, Nat.mul_one] at hq
    exact absurd hq' (not_lt.2 hq)
  | succ level ih =>
    obtain ⟨hlt, hset, hfirst⟩ := firstBit_spec ((h level hlevel i).1 hbit)
    obtain ⟨hp, hle, hnone⟩ := ih (i := i * 64 + firstBit (b level i)) (by omega)
      (by rwa [bit_word hlt])
    rw [descend, Nat.pow_succ, Nat.mul_comm (64 ^ level), ← Nat.mul_assoc]
    have hmono : i * 64 * 64 ^ level ≤ (i * 64 + firstBit (b level i)) * 64 ^ level :=
      Nat.mul_le_mul_right _ (Nat.le_add_right ..)
    refine ⟨hp, hmono.trans hle, fun q hq hq' => ?_⟩
    by_cases hq'' : (i * 64 + firstBit (b level i)) * 64 ^ level ≤ q
    · exact hnone q hq'' hq'
    · -- the bits before the first one are not set
      have hpos := pow_pos_64 level
      have hlo := (Nat.le_div_iff_mul_le hpos).2 hq
      have hhi := (Nat.div_lt_iff_lt_mul hpos).2 (not_le.1 hq'')
      obtain ⟨j, hj⟩ := Nat.exists_eq_add_of_le hlo
      refine Bool.eq_false_iff.2 fun hset' => ?_
      have hup := (h.bit_iff (i := q / 64 ^ level) (by omega)).2 ⟨q, rfl, hset'⟩
      rw [hj, bit_word (by omega), hfirst j (by omega)] at hup
      cases hup

/-- The next boundary from a page on, or the end of the range. -/
structure IsNextBoundary (b : ℕ → ℕ → BitVec 64) (first endPage next : ℕ) : Prop where
  first_le : first ≤ next
  le_end : next ≤ endPage
  none_before : ∀ q, first ≤ q → q < next → bit b 0 q = false
  set : next < endPage → bit b 0 next = true

theorem getLsbD_from {word : BitVec 64} {k j : ℕ} (hj : j < 64) :
    (word &&& (~~~(0 : BitVec 64) <<< k)).getLsbD j = (decide (k ≤ j) && word.getLsbD j) := by
  rw [BitVec.getLsbD_and, BitVec.getLsbD_shiftLeft, BitVec.getLsbD_not]
  by_cases hk : k ≤ j
  · simp [hk, hj, show j - k < 64 by omega]
  · simp [hk]

/-- **`NextContinuityBoundary`** from a level on. -/
theorem ascend_spec (h : Summarizes n b) (hn : level + levels = n) (hend : endPage ≤ 64 ^ n)
    (hzero : bit b 0 0 = false) (hlevel : level ≠ 0 → i ≠ 0) (hfirst : first ≤ i * 64 ^ level)
    (hnone : ∀ q, first ≤ q → q < i * 64 ^ level → bit b 0 q = false) (hi : i * 64 ^ level < endPage) :
    IsNextBoundary b first endPage (ascend b endPage i level levels) := by
  induction levels generalizing i level with
  | zero =>
    obtain rfl : level = n := hn
    -- there are no levels, and one page at most
    have hi0 : i = 0 := by
      by_contra hne
      have := Nat.mul_le_mul_right (64 ^ level) (Nat.one_le_iff_ne_zero.2 hne)
      omega
    have hlevel0 : level = 0 := by
      by_contra hne
      exact hlevel hne hi0
    subst hi0 hlevel0
    simp only [Nat.pow_zero] at hend
    refine ⟨hfirst.trans (by omega), le_rfl, fun q _ hq => ?_, fun hlt => absurd hlt (lt_irrefl _)⟩
    obtain rfl : q = 0 := by
      rw [ascend] at hq
      omega
    exact hzero
  | succ levels ih =>
    have hpos := pow_pos_64 level
    -- a bit of this level that is not set has nothing under it
    have hunder : ∀ q, bit b 0 q = true → bit b level (q / 64 ^ level) = true :=
      fun q hq => (h.bit_iff (by omega)).2 ⟨q, rfl, hq⟩
    have hskip : ∀ lo, (∀ j, i ≤ j → j < lo → bit b level j = false) →
        ∀ q, first ≤ q → q < lo * 64 ^ level → bit b 0 q = false := by
      intro lo hlo q hq hq'
      by_cases hqi : q < i * 64 ^ level
      · exact hnone q hq hqi
      · refine Bool.eq_false_iff.2 fun hset => ?_
        have hfalse := hlo (q / 64 ^ level) ((Nat.le_div_iff_mul_le hpos).2 (not_lt.1 hqi))
          ((Nat.div_lt_iff_lt_mul hpos).2 hq')
        rw [hunder q hset] at hfalse
        cases hfalse
    have hbits : ∀ j, j / 64 = i / 64 → ((b level (i / 64) &&&
        (~~~(0 : BitVec 64) <<< (i % 64))).getLsbD (j % 64) = (decide (i ≤ j) && bit b level j)) := by
      intro j hj
      rw [getLsbD_from (Nat.mod_lt _ (by decide)), bit, hj]
      congr 1
      exact decide_eq_decide.2 (by omega)
    rw [ascend]
    dsimp only
    split
    · rename_i hword
      obtain ⟨hlt, hset, hbefore⟩ := firstBit_spec hword
      obtain ⟨k, hk⟩ : ∃ k, k = firstBit (b level (i / 64) &&& (~~~(0 : BitVec 64) <<< (i % 64))) := ⟨_, rfl⟩
      rw [← hk] at hlt hset hbefore ⊢
      have hat := hbits (i / 64 * 64 + k) (by omega)
      rw [show (i / 64 * 64 + k) % 64 = k by omega, hset] at hat
      obtain ⟨hle, hbit⟩ := Bool.and_eq_true_iff.1 hat.symm
      have hle := of_decide_eq_true hle
      obtain ⟨hp, hlow, hnone'⟩ := descend_spec h (by omega) hbit
      have hbefore' : ∀ j, i ≤ j → j < i / 64 * 64 + k → bit b level j = false := by
        intro j hj hj'
        have hsame : j / 64 = i / 64 := by omega
        have hat' := hbits j hsame
        rw [hbefore (j % 64) (by omega), decide_eq_true hj, Bool.true_and] at hat'
        exact hat'.symm
      have hmono := Nat.mul_le_mul_right (64 ^ level) hle
      refine ⟨le_min (hfirst.trans (hmono.trans hlow)) (by omega), min_le_right _ _,
        fun q hq hq' => ?_, fun hlt' => ?_⟩
      · by_cases hq'' : q < (i / 64 * 64 + k) * 64 ^ level
        · exact hskip _ hbefore' q hq hq''
        · exact hnone' q (not_lt.1 hq'') (hq'.trans_le (min_le_left _ _))
      · rw [min_eq_left (by omega)]
        exact hp
    · rename_i hword
      have hempty : ∀ j, i ≤ j → j < (i / 64 + 1) * 64 → bit b level j = false := by
        intro j hj hj'
        have hat := hbits j (by omega)
        rw [not_not.1 hword, BitVec.ofNat_eq_ofNat, BitVec.getLsbD_zero, decide_eq_true hj, Bool.true_and] at hat
        exact hat.symm
      have hnone' := hskip _ hempty
      have hpow : (i / 64 + 1) * 64 * 64 ^ level = (i / 64 + 1) * 64 ^ (level + 1) := by
        rw [Nat.pow_succ, Nat.mul_assoc, Nat.mul_comm 64]
      have hup : i * 64 ^ level ≤ (i / 64 + 1) * 64 * 64 ^ level :=
        Nat.mul_le_mul_right _ (by omega)
      rw [hpow] at hnone' hup
      split
      · exact ⟨by omega, le_rfl, fun q hq hq' => hnone' q hq (by omega), fun hlt => absurd hlt (lt_irrefl _)⟩
      · rename_i hmore
        exact ih (by omega) (fun _ => Nat.succ_ne_zero _) (hfirst.trans hup) hnone' (by omega)

/-! ### The index -/

variable {d : DeviceMemoryManager bits} {physAddr : BitVec 32} {stale stale' : ℕ → Prop}

/-- The index of a manager is exact, but for boundaries that are stale. -/
structure IndexedBut (stale : ℕ → Prop) (d : DeviceMemoryManager bits) : Prop where
  boundary : ∀ p, 0 < p → p < pageCount bits → ¬ stale p → (bit d.continuityBoundaries 0 p = true ↔
    continuous (d.compressedPhysicalPtr (p - 1)) (d.compressedPhysicalPtr p) = false)
  zero : bit d.continuityBoundaries 0 0 = false
  summary : Summarizes (continuityLevels bits) d.continuityBoundaries

/-- The index of a manager is exact. -/
abbrev Indexed (d : DeviceMemoryManager bits) : Prop := IndexedBut (fun _ => False) d

theorem IndexedBut.mono (h : IndexedBut stale d)
    (hle : ∀ p, 0 < p → p < pageCount bits → stale p → stale' p) : IndexedBut stale' d :=
  ⟨fun p hp hlt hstale => h.boundary p hp hlt fun h => hstale (hle p hp hlt h), h.zero, h.summary⟩

theorem indexed_new : Indexed (new : DeviceMemoryManager bits) where
  boundary p _ _ _ := by
    have hcontinuous : continuous 0#32 0#32 = true := rfl
    simp [new, bit, hcontinuous]
  zero := by simp [new, bit]
  summary l _ w := by simp [new, bit]

theorem continuityLevels_pos (h : 1 < pageCount bits) : continuityLevels bits ≠ 0 := by
  intro hzero
  rw [continuityLevels] at hzero
  rw [pageCount, show bits - 12 = 0 by omega] at h
  exact absurd h (by decide)

theorem pageCount_le : pageCount bits ≤ 64 ^ continuityLevels bits := by
  rw [pageCount, continuityLevels, show (64 : ℕ) = 2 ^ 6 from rfl, ← Nat.pow_mul]
  exact Nat.pow_le_pow_right (by decide) (by omega)

@[simp] theorem compressedPhysicalPtr_update :
    (d.updateContinuityBoundary page).compressedPhysicalPtr = d.compressedPhysicalPtr := by
  rw [updateContinuityBoundary]
  split <;> rfl

/-- **`UpdateContinuityBoundary`** sets a boundary right. -/
theorem IndexedBut.update (h : IndexedBut stale d) (hpage : page ≤ pageCount bits) :
    IndexedBut (fun p => stale p ∧ p ≠ page) (d.updateContinuityBoundary page) := by
  rw [updateContinuityBoundary]
  split
  · rename_i hend
    exact h.mono fun p hp hlt hstale => ⟨hstale, by omega⟩
  · rename_i hinside
    rw [not_or] at hinside
    obtain ⟨hsum, hbit⟩ := @setContinuityBoundaryFrom_spec (continuityLevels bits) 0
      (continuityLevels bits) page d.continuityBoundaries
      (!continuous (d.compressedPhysicalPtr (page - 1)) (d.compressedPhysicalPtr page))
      (Nat.zero_add _) (fun _ => continuityLevels_pos (by omega)) (fun l hl w _ => h.summary l hl w)
      (fun l hl => absurd hl (Nat.succ_ne_zero l))
    refine ⟨fun p hp hlt hstale => ?_, ?_, hsum⟩
    · refine (Eq.to_iff (congrArg (· = true) (hbit p))).trans ?_
      dsimp only [setContinuityBoundary]
      by_cases hpp : p = page
      · subst hpp
        rw [if_pos ⟨rfl, rfl⟩, Bool.not_eq_true']
      · rw [if_neg fun h => hpp h.2]
        exact h.boundary p hp hlt fun h => hstale ⟨h, hpp⟩
    · refine (hbit 0).trans ?_
      rw [if_neg fun h => hinside.1 h.2.symm]
      exact h.zero

/-- A new entry of a page. -/
theorem IndexedBut.write (h : IndexedBut stale d) (page : ℕ) (physAddr : BitVec 32) :
    IndexedBut (fun p => stale p ∨ p = page ∨ p = page + 1)
      ({ d with compressedPhysicalPtr := Function.update d.compressedPhysicalPtr page physAddr } :
        DeviceMemoryManager bits) := by
  refine ⟨fun p hp hlt hstale => ?_, h.zero, h.summary⟩
  rw [not_or, not_or] at hstale
  dsimp only
  rw [Function.update_of_ne (by omega), Function.update_of_ne (by omega)]
  exact h.boundary p hp hlt hstale.1

/-- After that only the boundary behind the page is stale. -/
theorem IndexedBut.setPage (h : IndexedBut (· = page) d) (hpage : page < pageCount bits)
    (physAddr : BitVec 32) : IndexedBut (· = page + 1) (d.setPage page physAddr) := by
  refine ((h.write page physAddr).update hpage.le).mono fun p _ _ hstale => ?_
  rcases hstale.1 with hp | hp | hp
  · exact absurd hp hstale.2
  · exact absurd hp hstale.2
  · exact hp

theorem compressedPhysicalPtr_setPage (physAddr : BitVec 32) (p : ℕ) :
    (d.setPage page physAddr).compressedPhysicalPtr p = if p = page then physAddr else d.compressedPhysicalPtr p := by
  rw [setPage, compressedPhysicalPtr_update]
  exact Function.update_apply ..

/-- **A range of new entries.** -/
theorem Indexed.setPages (h : Indexed d) (startPage count : ℕ) (physAddr : ℕ → BitVec 32)
    (hlimit : startPage + count ≤ pageCount bits) :
    Indexed (endRange ((List.range count).foldl
      (fun d i => d.setPage (startPage + i) (physAddr i)) d) startPage count) ∧
    ∀ p, (endRange ((List.range count).foldl (fun d i => d.setPage (startPage + i) (physAddr i)) d)
      startPage count).compressedPhysicalPtr p =
        if startPage ≤ p ∧ p < startPage + count then physAddr (p - startPage)
        else d.compressedPhysicalPtr p := by
  have hloop : IndexedBut (fun p => p = startPage + count) ((List.range count).foldl
      (fun d i => d.setPage (startPage + i) (physAddr i)) d) ∧
      ∀ p, ((List.range count).foldl (fun d i => d.setPage (startPage + i) (physAddr i))
        d).compressedPhysicalPtr p = if startPage ≤ p ∧ p < startPage + count then
          physAddr (p - startPage) else d.compressedPhysicalPtr p := by
    induction count with
    | zero => exact ⟨h.mono fun _ _ _ => False.elim, fun p => (if_neg (by omega)).symm⟩
    | succ count ih =>
      obtain ⟨hindexed, hptr⟩ := ih (by omega)
      rw [List.range_succ, List.foldl_append, List.foldl_cons, List.foldl_nil]
      refine ⟨hindexed.setPage (by omega) _, fun p => ?_⟩
      rw [compressedPhysicalPtr_setPage, hptr]
      by_cases hp : p = startPage + count
      · rw [if_pos hp, if_pos (by omega), hp, Nat.add_sub_cancel_left]
      · rw [if_neg hp]
        exact if_congr (by omega) rfl rfl
  rw [endRange]
  split
  · refine ⟨(hloop.1.update hlimit).mono fun p _ _ hp => hp.2 hp.1, ?_⟩
    rw [compressedPhysicalPtr_update]
    exact hloop.2
  · rename_i hcount
    obtain rfl := not_not.1 hcount
    exact ⟨h, hloop.2⟩

/-- **`NextContinuityBoundary`** finds the next boundary. -/
theorem nextContinuityBoundary_spec (h : Indexed d) (hfirst : first ≤ endPage) (hend : endPage ≤ pageCount bits) :
    IsNextBoundary d.continuityBoundaries first endPage (d.nextContinuityBoundary first endPage) := by
  rw [nextContinuityBoundary]
  split
  · exact ⟨hfirst, le_rfl, fun q hq hq' => by omega, fun hlt => absurd hlt (lt_irrefl _)⟩
  · rename_i hlt
    exact ascend_spec h.summary (Nat.zero_add _) (hend.trans pageCount_le) h.zero
      (fun h => absurd rfl h) (by rw [Nat.pow_zero, Nat.mul_one]) (fun q hq hq' => by omega) (by omega)

end DeviceMemoryManager
end Core
end NXEmu
