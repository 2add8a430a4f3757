/-
# The tables of a memory manager

`src/yuzu_video_core/memory_manager.cpp`: what the vectors of a `MemoryManager` have for each page
(`MemoryManager.tables`), and what its loops do to that: `PageTableOp` fills entries of small pages,
`BigPageTableOp` those of big pages, and `PrepareSmallPageMapping` expands big pages.
-/

import NXEmu.VideoCore.MemoryManager

namespace NXEmu
namespace Tegra

open Function BitVec

/-! ### Entries of two bits -/

theorem EntryType.toWord_lt (e : EntryType) : e.toWord.toNat < 4 := by
  cases e <;> decide

/-- Two bits of a word with an entry put in. -/
theorem getLsbD_put (word : BitVec 64) (e : EntryType) {i j k : ℕ} (hj : j < 32) (hk : k < 2) :
    (((~~~((3#64) <<< (i * 2)) &&& word) ||| (e.toWord <<< (i * 2))) >>> (2 * j)).getLsbD k =
      if j = i then e.toWord.getLsbD k else (word >>> (2 * j)).getLsbD k := by
  have hthree : ∀ n, (3#64).getLsbD n = decide (n < 2) := by
    intro n
    rcases n with _ | _ | n
    · rfl
    · rfl
    · simp only [getLsbD_ofNat]
      have : Nat.testBit 3 (n + 1 + 1) = false := by
        rw [Nat.testBit_succ, Nat.testBit_succ]
        simp
      simp [this]
  have hlt : 2 * j + k < 64 := by omega
  have hword : ∀ n, 2 ≤ n → e.toWord.getLsbD n = false := by
    intro n hn
    rw [getLsbD, Nat.testBit_lt_two_pow]
    exact Nat.lt_of_lt_of_le e.toWord_lt (show 2 ^ 2 ≤ 2 ^ n from Nat.pow_le_pow_right (by decide) hn)
  simp only [getLsbD_ushiftRight, getLsbD_or, getLsbD_and, getLsbD_not,
    getLsbD_shiftLeft, hthree, hlt, decide_true, Bool.true_and]
  by_cases hij : j = i
  · subst hij
    have h₁ : ¬ 2 * j + k < j * 2 := by omega
    have h₂ : 2 * j + k - j * 2 = k := by omega
    simp [h₁, h₂, hk]
  · rw [if_neg hij]
    by_cases hlow : 2 * j + k < i * 2
    · simp [hlow]
    · have h₂ : 2 ≤ 2 * j + k - i * 2 := by omega
      simp [hlow, hword _ h₂, Nat.not_lt.2 h₂]

namespace Words

variable {v : Words} {i j : ℕ} {e : EntryType}

/-- The entry of a page. -/
def entry (v : Words) (position : ℕ) : EntryType :=
  .ofWord ((v.word (position / 32) >>> (2 * (position % 32))) &&& 3)

/-- A vector with an entry put in. -/
def putEntry (v : Words) (position : ℕ) (e : EntryType) : Words :=
  { v with
    word := Function.update v.word (position / 32)
      ((~~~((3#64) <<< (position % 32 * 2)) &&& v.word (position / 32)) |||
        (e.toWord <<< (position % 32 * 2))) }

theorem entry_zeros {size : ℕ} : (zeros size).entry i = .free := by
  have hword : (0#64 >>> (2 * (i % 32))) &&& 3 = 0 := by simp
  exact congrArg EntryType.ofWord hword

theorem getEntry_eq (hi : i / 32 < v.size) : v.getEntry i = .ret (v.entry i) true := by
  rw [getEntry, get, if_pos hi]
  rfl

theorem setEntry_eq (hi : i / 32 < v.size) : v.setEntry i e = .ret (v.putEntry i e) true := by
  rw [setEntry, get, if_pos hi, Exec.pure_eq, Exec.ret_true_bind, set, if_pos hi, Exec.pure_eq, putEntry]

theorem entry_putEntry : (v.putEntry i e).entry j = if j = i then e else v.entry j := by
  have hmod : ∀ n, n % 32 < 32 := fun n => Nat.mod_lt n (by decide)
  -- only the two low bits count
  have hword : ∀ w v : BitVec 64, (∀ k < 2, w.getLsbD k = v.getLsbD k) → w &&& 3 = v &&& 3 := by
    intro w v h
    refine eq_of_getLsbD_eq fun k hk => ?_
    rw [getLsbD_and, getLsbD_and]
    rcases k with _ | _ | k
    · rw [h 0 (by decide)]
    · rw [h 1 (by decide)]
    · have : (3 : BitVec 64).getLsbD (k + 1 + 1) = false := by
        show Nat.testBit 3 (k + 1 + 1) = false
        rw [Nat.testBit_succ, Nat.testBit_succ]
        exact Nat.zero_testBit k
      rw [this, Bool.and_false, Bool.and_false]
  rw [entry, putEntry]
  dsimp only
  by_cases hdiv : j / 32 = i / 32
  · rw [hdiv, update_self]
    by_cases hij : j = i
    · subst hij
      rw [if_pos rfl, hword _ e.toWord fun k hk => by
        rw [getLsbD_put _ _ (hmod j) hk, if_pos rfl]]
      cases e <;> rfl
    · have hne : j % 32 ≠ i % 32 := by omega
      rw [if_neg hij, entry, hdiv]
      refine congrArg EntryType.ofWord (hword _ _ fun k hk => ?_)
      rw [getLsbD_put _ _ (hmod j) hk, if_neg hne]
  · rw [update_of_ne hdiv, if_neg fun hij => hdiv (by rw [hij]), entry]

/-- The flag of a big page. -/
def flag (v : Words) (index : ℕ) : Bool := (v.word (index / 64)).getLsbD (index % 64)

theorem one_and (word : BitVec 64) : word &&& 1 = if word.getLsbD 0 = true then 1 else 0 := by
  refine eq_of_getLsbD_eq fun k hk => ?_
  rw [getLsbD_and]
  rcases k with _ | k
  · cases h : word.getLsbD 0 <;> rfl
  · have : (1 : BitVec 64).getLsbD (k + 1) = false := by
      show Nat.testBit 1 (k + 1) = false
      rw [Nat.testBit_succ]
      exact Nat.zero_testBit k
    rw [this, Bool.and_false]
    split
    · exact this.symm
    · exact getLsbD_zero.symm

theorem isBigPageContinuous_eq (hi : i / 64 < v.size) :
    v.isBigPageContinuous i = .ret (v.flag i) true := by
  rw [isBigPageContinuous, get, if_pos hi, Exec.pure_eq, Exec.ret_true_bind, Exec.pure_eq, one_and,
    getLsbD_ushiftRight, flag, Nat.add_zero]
  cases (v.word (i / 64)).getLsbD (i % 64) <;> rfl

/-- A vector with a flag put in. -/
def putFlag (v : Words) (index : ℕ) (value : Bool) : Words :=
  { v with
    word := Function.update v.word (index / 64)
      ((~~~((1#64) <<< (index % 64)) &&& v.word (index / 64)) |||
        (if value then (1#64) <<< (index % 64) else 0)) }

theorem setBigPageContinuous_eq (hi : i / 64 < v.size) (value : Bool) :
    v.setBigPageContinuous i value = .ret (v.putFlag i value) true := by
  rw [setBigPageContinuous, get, if_pos hi, Exec.pure_eq, Exec.ret_true_bind, set, if_pos hi, Exec.pure_eq, putFlag]

theorem flag_putFlag (v : Words) (i : ℕ) (value : Bool) :
    (v.putFlag i value).flag = update v.flag i value := by
  have hmod : ∀ n, n % 64 < 64 := fun n => Nat.mod_lt n (by decide)
  have hone : ∀ k, (1#64).getLsbD k = decide (k = 0) := by
    intro k
    rcases k with _ | k
    · rfl
    · show Nat.testBit 1 (k + 1) = decide (k + 1 = 0)
      rw [Nat.testBit_succ]
      simp
  funext j
  rw [flag, update_apply, putFlag]
  dsimp only
  by_cases hdiv : j / 64 = i / 64
  · rw [hdiv, update_self, getLsbD_or, getLsbD_and, getLsbD_not, getLsbD_shiftLeft, hone]
    have hval : (if value = true then (1#64) <<< (i % 64) else 0).getLsbD (j % 64) =
        (value && decide (j % 64 = i % 64)) := by
      cases value with
      | true =>
        rw [if_pos rfl, getLsbD_shiftLeft, hone, Bool.true_and, Bool.eq_iff_iff]
        simp only [hmod j, decide_true, Bool.true_and, Bool.and_eq_true, Bool.not_eq_true',
          decide_eq_false_iff_not, decide_eq_true_eq]
        omega
      | false => exact getLsbD_zero
    rw [hval]
    by_cases hij : j = i
    · subst hij
      simp [hmod j]
    · have hne : j % 64 ≠ i % 64 := by omega
      have hbit : (decide (j % 64 < 64) && !decide (j % 64 < i % 64) && decide (j % 64 - i % 64 = 0)) = false := by
        rw [Bool.eq_false_iff]
        simp only [ne_eq, Bool.and_eq_true, Bool.not_eq_true', decide_eq_false_iff_not, decide_eq_true_eq]
        omega
      rw [hbit, if_neg hij, decide_eq_false hne, Bool.and_false, Bool.or_false, Bool.not_false,
        decide_eq_true (hmod j), Bool.true_and, Bool.true_and, flag, hdiv]
  · rw [update_of_ne hdiv, if_neg fun hij => hdiv (by rw [hij]), flag]

end Words

/-! ### The tables -/

/-- The entries of all pages, and what the tables have for them. -/
@[ext] structure Tables where
  small : ℕ → EntryType
  smallDev : ℕ → ℕ
  big : ℕ → EntryType
  bigDev : ℕ → ℕ
  continuous : ℕ → Bool

/-- The tables of a manager. -/
def MemoryManager.tables (m : MemoryManager) : Tables where
  small := m.entries.entry
  smallDev i := (m.pageTable.entries i).toNat * cpuPageSize
  big := m.bigEntries.entry
  bigDev i := (m.bigPageTableDev i).toNat * cpuPageSize
  continuous := m.bigPageContinuous.flag

/-- The address a table has for a page after it was set. -/
def storedDev (devAddr : ℕ) : ℕ := devAddr / cpuPageSize % 2 ^ 32 * cpuPageSize

theorem storedDev_eq {devAddr : ℕ} (hdvd : cpuPageSize ∣ devAddr) (hlt : devAddr < 2 ^ 44) :
    storedDev devAddr = devAddr := by
  obtain ⟨k, rfl⟩ := hdvd
  rw [storedDev, Nat.mul_div_cancel_left k (by decide), Nat.mod_eq_of_lt, Nat.mul_comm]
  simp only [cpuPageSize] at hlt
  omega

namespace Tables

/-- Entries of `n` small pages from `lo` on, for device memory from `devAddr` on. -/
def fillSmall (t : Tables) (pageSize : ℕ) (entryType : EntryType) (lo n devAddr : ℕ) : Tables :=
  { t with
    small := fun i => if lo ≤ i ∧ i < lo + n then entryType else t.small i
    smallDev := fun i => if (lo ≤ i ∧ i < lo + n) ∧ entryType = .mapped then
      storedDev (devAddr + (i - lo) * pageSize) else t.smallDev i }

/-- Entries of `n` big pages from `lo` on, and none of the small pages under those that had them. -/
def fillBig (t : Tables) (bigPageSize pagesPerBig : ℕ) (isContinuous : ℕ → Bool)
    (entryType : EntryType) (lo n devAddr : ℕ) : Tables :=
  { t with
    small := fun i =>
      if (lo ≤ i / pagesPerBig ∧ i / pagesPerBig < lo + n) ∧ t.big (i / pagesPerBig) = .smallPages
      then .free else t.small i
    big := fun i => if lo ≤ i ∧ i < lo + n then entryType else t.big i
    bigDev := fun i => if (lo ≤ i ∧ i < lo + n) ∧ entryType = .mapped then
      storedDev (devAddr + (i - lo) * bigPageSize) else t.bigDev i
    continuous := fun i => if (lo ≤ i ∧ i < lo + n) ∧ entryType = .mapped then
      isContinuous (devAddr + (i - lo) * bigPageSize) else t.continuous i }

end Tables

/-! ### The vectors have their sizes -/

/-- The parameters a `MemoryManager` can have: the tables have whole words, addresses of device
memory are in units that a page has, and the first level of `page_table` has a size. -/
structure Config.Ok (c : Config) : Prop where
  page : 12 ≤ c.pageBits
  le : c.pageBits ≤ c.bigPageBits
  words : c.bigPageBits + 5 ≤ c.addressSpaceBits
  bits : c.addressSpaceBits < 64
  table : c.pageBits ≠ c.bigPageBits → 38 ≤ c.addressSpaceBits + c.pageBits ∧ c.pageBits ≤ 19

/-- A manager with the vectors that the constructor made. -/
structure Sized (c : Config) (m : MemoryManager) : Prop where
  config : m.toConfig = c
  entries : m.entries.size = 2 ^ (c.addressSpaceBits - c.pageBits) / 32
  bigEntries : m.bigEntries.size = 2 ^ (c.addressSpaceBits - c.bigPageBits) / 32
  continuous : m.bigPageContinuous.size = 2 ^ (c.addressSpaceBits - c.bigPageBits) / 64
  pageBits : m.pageTable.pageBits = if c.pageBits ≠ c.bigPageBits then c.pageBits else 0
  firstLevelShift : m.pageTable.firstLevelShift =
    if c.pageBits ≠ c.bigPageBits then 38 - c.pageBits else 0
  firstLevelSize : m.pageTable.firstLevelSize =
    if c.pageBits ≠ c.bigPageBits then 2 ^ (c.addressSpaceBits + c.pageBits - 38) else 0

namespace Config

variable {c : Config}

/-- The small pages of a big page. -/
def pagesPerBig (c : Config) : ℕ := 2 ^ (c.bigPageBits - c.pageBits)

theorem pageSize_pos (c : Config) : 0 < c.pageSize := Nat.two_pow_pos _

theorem bigPageSize_pos (c : Config) : 0 < c.bigPageSize := Nat.two_pow_pos _

theorem pagesPerBig_pos (c : Config) : 0 < c.pagesPerBig := Nat.two_pow_pos _

theorem Ok.bigPageSize_eq (h : c.Ok) : c.bigPageSize = c.pagesPerBig * c.pageSize := by
  rw [bigPageSize, pagesPerBig, pageSize, ← Nat.pow_add, Nat.sub_add_cancel h.le]

theorem Ok.dvd_bigPageSize (h : c.Ok) : c.pageSize ∣ c.bigPageSize :=
  ⟨c.pagesPerBig, by rw [h.bigPageSize_eq, Nat.mul_comm]⟩

theorem Ok.cpuPageSize_dvd (h : c.Ok) : cpuPageSize ∣ c.pageSize :=
  Nat.pow_dvd_pow 2 h.page

theorem Ok.dvd_addressSpaceSize (h : c.Ok) : c.bigPageSize ∣ c.addressSpaceSize :=
  Nat.pow_dvd_pow 2 (by have := h.words; omega)

theorem Ok.small_lt (h : c.Ok) {a : ℕ} (ha : a < c.addressSpaceSize) :
    a / c.pageSize < 2 ^ (c.addressSpaceBits - c.pageBits) := by
  have := h.le
  have := h.words
  rw [Nat.div_lt_iff_lt_mul c.pageSize_pos, pageSize, ← Nat.pow_add, Nat.sub_add_cancel (by omega)]
  exact ha

theorem Ok.big_lt (h : c.Ok) {a : ℕ} (ha : a < c.addressSpaceSize) :
    a / c.bigPageSize < 2 ^ (c.addressSpaceBits - c.bigPageBits) := by
  have := h.words
  rw [Nat.div_lt_iff_lt_mul c.bigPageSize_pos, bigPageSize, ← Nat.pow_add, Nat.sub_add_cancel (by omega)]
  exact ha

/-- The small pages of a big page have its number. -/
theorem Ok.div_pagesPerBig (h : c.Ok) (a : ℕ) :
    a / c.pageSize / c.pagesPerBig = a / c.bigPageSize := by
  rw [Nat.div_div_eq_div_mul, h.bigPageSize_eq, Nat.mul_comm]

end Config

/-- A page of a table of so many pages is in a word of its vector. -/
theorem div_lt_words {k b n : ℕ} (hk : k = 2 ^ b) (hle : b ≤ n) {i : ℕ} (hi : i < 2 ^ n) :
    i / k < 2 ^ n / k := by
  subst hk
  obtain ⟨d, rfl⟩ := Nat.exists_eq_add_of_le hle
  rw [Nat.pow_add, Nat.mul_div_cancel_left _ (Nat.two_pow_pos _)]
  rw [Nat.pow_add, Nat.mul_comm] at hi
  exact Nat.div_lt_of_lt_mul (by rwa [Nat.mul_comm])

namespace MemoryManager

open Exec

variable {c : Config} {m m' : MemoryManager}

theorem sized_new (hc : c.Ok) : Sized c (new c) where
  config := rfl
  entries := rfl
  bigEntries := rfl
  continuous := rfl
  pageBits := rfl
  firstLevelShift := by
    have := hc.words
    have := hc.le
    have := hc.page
    simp only [new, MultiLevelPageTable.new]
    by_cases hne : c.pageBits = c.bigPageBits
    · simp [hne]
    · have := (hc.table hne).1
      have : c.pageBits ≠ 0 := by omega
      simp only [ne_eq, hne, not_false_eq_true, if_true, this, if_false]
      omega
  firstLevelSize := by
    have := hc.page
    simp only [new, MultiLevelPageTable.new]
    by_cases hne : c.pageBits = c.bigPageBits
    · simp [hne]
    · have : c.pageBits ≠ 0 := by omega
      simp [hne, this]

section

variable (hc : c.Ok) (hm : Sized c m) {a : ℕ} (ha : a < c.addressSpaceSize)

include hc hm ha

/-- Which address has an entry. -/
theorem getEntry_eq (isBigPage : Bool) : m.getEntry isBigPage a =
      .ret (if isBigPage then m.tables.big (a / c.bigPageSize) else m.tables.small (a / c.pageSize)) true := by
  have := hc.le
  have := hc.words
  rw [getEntry, hm.config]
  cases isBigPage with
  | true =>
    refine Words.getEntry_eq ?_
    rw [hm.bigEntries]
    exact div_lt_words (b := 5) rfl (by omega) (hc.big_lt ha)
  | false =>
    refine Words.getEntry_eq ?_
    rw [hm.entries]
    exact div_lt_words (b := 5) rfl (by omega) (hc.small_lt ha)

/-- `SetEntry` of a small page. -/
theorem setEntry_small
    (entry : EntryType) : ∃ m', m.setEntry false a entry = .ret m' true ∧ Sized c m' ∧ m'.pageTable = m.pageTable ∧
      m'.tables = { m.tables with
        small := update m.tables.small (a / c.pageSize) entry } := by
  have := hc.le
  have := hc.words
  refine ⟨{ m with entries := m.entries.putEntry (a / c.pageSize) entry }, ?_, ?_, rfl, ?_⟩
  · rw [setEntry, hm.config, if_neg (by decide), Words.setEntry_eq, ret_true_bind, pure_eq]
    rw [hm.entries]
    exact div_lt_words (b := 5) rfl (by omega) (hc.small_lt ha)
  · exact { hm with }
  · refine Tables.ext (funext fun i => ?_) rfl rfl rfl rfl
    exact Words.entry_putEntry.trans (update_apply ..).symm

/-- `SetEntry` of a big page. -/
theorem setEntry_big
    (entry : EntryType) : ∃ m', m.setEntry true a entry = .ret m' true ∧ Sized c m' ∧ m'.tables = { m.tables with
        big := update m.tables.big (a / c.bigPageSize) entry } := by
  have := hc.words
  refine ⟨{ m with bigEntries := m.bigEntries.putEntry (a / c.bigPageSize) entry }, ?_, ?_, ?_⟩
  · rw [setEntry, hm.config, if_pos rfl, Words.setEntry_eq, ret_true_bind, pure_eq]
    rw [hm.bigEntries]
    exact div_lt_words (b := 5) rfl (by omega) (hc.big_lt ha)
  · exact { hm with }
  · refine Tables.ext rfl rfl (funext fun i => ?_) rfl rfl
    exact Words.entry_putEntry.trans (update_apply ..).symm

end

/-! ### Loops over pages -/

/-- The rounds of a loop over whole pages. -/
theorem rounds_mul (n : ℕ) {step : ℕ} (hstep : 0 < step) : (n * step + step - 1) / step = n := by
  rw [Nat.add_sub_assoc hstep, Nat.mul_comm, Nat.mul_add_div hstep, Nat.div_eq_of_lt (by omega), Nat.add_zero]

/-- The rounds of a loop over the pages from one to another. -/
theorem rounds_pages {first last step : ℕ} (hle : first ≤ last) (hstep : 0 < step) :
    (last * step + 1 - first * step + step - 1) / step = last - first + 1 := by
  have hmul : first * step ≤ last * step := Nat.mul_le_mul_right _ hle
  have hsum : last * step + 1 - first * step + step - 1 = (last - first + 1) * step := by
    rw [Nat.add_mul, Nat.sub_mul]
    omega
  rw [hsum, Nat.mul_div_cancel _ hstep]

/-- **The rule of the loops over pages**: `n` rounds. -/
theorem wp_forOffsets {I : ℕ → MemoryManager → Prop} {body : MemoryManager → ℕ → Exec MemoryManager}
    {size step n : ℕ} (hn : (size + step - 1) / step = n)
    (hbody : ∀ i m, i < n → I i m → wp (body m (i * step)) fun m' held => held = true ∧ I (i + 1) m')
    (h : I 0 m) : wp (forOffsets size step m body) fun m' held => held = true ∧ I n m' := by
  rw [forOffsets, hn]
  exact wp_foldlM_range hbody h

/-- `ReserveRange` where the first level has the end of the range. -/
theorem reserveRange_spec {t : MultiLevelPageTable} {start size : ℕ}
    (hlt : (start + size) / 2 ^ t.firstLevelShift < t.firstLevelSize) :
    wp (t.reserveRange start size) fun t' held => held = true ∧ t'.entries = t.entries ∧
      t'.pageBits = t.pageBits ∧ t'.firstLevelShift = t.firstLevelShift ∧
      t'.firstLevelSize = t.firstLevelSize := by
  refine wp_foldlM_range (I := fun _ (t' : MultiLevelPageTable) => t'.entries = t.entries ∧
      t'.pageBits = t.pageBits ∧ t'.firstLevelShift = t.firstLevelShift ∧
      t'.firstLevelSize = t.firstLevelSize) (fun i t' hi h => ?_) ⟨rfl, rfl, rfl, rfl⟩
  rw [if_pos (by rw [h.2.2.2]; omega), pure_eq, wp_ret]
  exact ⟨rfl, h⟩

/-- `page_table` has room for a range: it is there, and the range ends before its last address. -/
def HasRoom (c : Config) (stop : ℕ) : Prop := c.pageBits ≠ c.bigPageBits ∧ stop < c.addressSpaceSize

theorem HasRoom.reserve (hc : c.Ok) (hm : Sized c m) {start size : ℕ} (h : HasRoom c (start + size)) :
    (start + size) / 2 ^ m.pageTable.firstLevelShift < m.pageTable.firstLevelSize := by
  obtain ⟨hne, hlt⟩ := h
  have := (hc.table hne).1
  have := (hc.table hne).2
  rw [hm.firstLevelShift, hm.firstLevelSize, if_pos hne, if_pos hne,
    Nat.div_lt_iff_lt_mul (Nat.two_pow_pos _), ← Nat.pow_add,
    show c.addressSpaceBits + c.pageBits - 38 + (38 - c.pageBits) = c.addressSpaceBits by omega]
  exact hlt

/-- The body of the loop of `PageTableOp`. -/
theorem setPage_spec (hc : c.Ok) (hm : Sized c m) {a : ℕ} (ha : a < c.addressSpaceSize)
    {entryType : EntryType} (hne : entryType = .mapped → c.pageBits ≠ c.bigPageBits) (devAddr : ℕ) :
    wp (m.setPage entryType a devAddr) fun m' held => held = true ∧ Sized c m' ∧ m'.tables = { m.tables with
        small := update m.tables.small (a / c.pageSize) entryType
        smallDev := if entryType = .mapped then
          update m.tables.smallDev (a / c.pageSize) (storedDev devAddr)
          else m.tables.smallDev } := by
  obtain ⟨m₁, heq, hm₁, htable, htables⟩ := setEntry_small hc hm ha entryType
  rw [setPage, heq, ret_true_bind]
  by_cases hmap : entryType = .mapped
  · have hbits : m₁.pageTable.pageBits ≠ 0 := by
      have := hc.page
      rw [hm₁.pageBits, if_pos (hne hmap)]
      omega
    rw [if_pos hmap, setPageTable, MultiLevelPageTable.set, if_neg hbits, pure_eq, ret_true_bind, pure_eq, wp_ret]
    refine ⟨rfl, { hm₁ with }, ?_⟩
    have hidx : m₁.pageEntryIndex false a = a / c.pageSize := by
      rw [hm₁.config]
      exact Nat.mod_eq_of_lt (hc.small_lt ha)
    have hsmall : m₁.tables.small = _ := congrArg Tables.small htables
    have hdev : m₁.tables.smallDev = _ := congrArg Tables.smallDev htables
    have hbig : m₁.tables.big = _ := congrArg Tables.big htables
    have hbigDev : m₁.tables.bigDev = _ := congrArg Tables.bigDev htables
    have hcont : m₁.tables.continuous = _ := congrArg Tables.continuous htables
    refine Tables.ext hsmall (funext fun i => ?_) hbig hbigDev hcont
    rw [if_pos hmap, hidx]
    show BitVec.toNat (update m₁.pageTable.entries _ _ i) * cpuPageSize = _
    have hi := congrFun hdev i
    dsimp only at hi ⊢
    rw [update_apply, update_apply, ← hi]
    split
    · exact congrArg (fun n => n * cpuPageSize) (toNat_ofNat (devAddr / cpuPageSize) 32)
    · rfl
  · rw [if_neg hmap, pure_eq, wp_ret, if_neg hmap]
    exact ⟨rfl, hm₁, htables⟩

/-- **`PageTableOp`** fills the entries of its pages. -/
theorem pageTableOp_spec (hc : c.Ok) (hm : Sized c m) {entryType : EntryType} {lo n : ℕ}
    (hlimit : (lo + n) * c.pageSize ≤ c.addressSpaceSize)
    (hroom : entryType = .mapped → HasRoom c ((lo + n) * c.pageSize)) (devAddr : ℕ) (kind : PTEKind) :
    wp (m.pageTableOp entryType (lo * c.pageSize) devAddr (n * c.pageSize) kind) fun m' held =>
      held = true ∧ Sized c m' ∧ m'.tables = m.tables.fillSmall c.pageSize entryType lo n devAddr := by
  have hreserve : wp (m.reservePages entryType (lo * c.pageSize) (n * c.pageSize)) fun m' held =>
      held = true ∧ Sized c m' ∧ m'.tables = m.tables := by
    rw [reservePages]
    split
    · rename_i hmap
      rw [wp_bind]
      refine wp_mono (reserveRange_spec (HasRoom.reserve hc hm ?_)) fun t held h => ?_
      · rw [← Nat.add_mul]
        exact hroom hmap
      · obtain ⟨rfl, hentries, hbits, hshift, hsize⟩ := h
        rw [pure_eq, wp_ret]
        refine ⟨rfl, { hm with
          pageBits := hbits.trans hm.pageBits
          firstLevelShift := hshift.trans hm.firstLevelShift
          firstLevelSize := hsize.trans hm.firstLevelSize }, ?_⟩
        rw [tables, tables]
        dsimp only
        rw [hentries]
    · rw [pure_eq, wp_ret]
      exact ⟨rfl, hm, rfl⟩
  rw [pageTableOp, wp_bind]
  refine wp_mono hreserve fun m₀ held h => ?_
  obtain ⟨rfl, hm₀, htables₀⟩ := h
  rw [hm₀.config, wp_bind]
  refine wp_mono (wp_forOffsets (I := fun i m' => Sized c m' ∧
    m'.tables = m.tables.fillSmall c.pageSize entryType lo i devAddr) (rounds_mul n c.pageSize_pos)
    (fun i m' hi h => ?_) ⟨hm₀, ?_⟩) fun m' held h => ?_
  · obtain ⟨hm', htables⟩ := h
    have hlt : lo * c.pageSize + i * c.pageSize < c.addressSpaceSize := by
      rw [← Nat.add_mul]
      exact Nat.lt_of_lt_of_le (Nat.mul_lt_mul_of_pos_right (by omega) c.pageSize_pos) hlimit
    have hidx : (lo * c.pageSize + i * c.pageSize) / c.pageSize = lo + i := by
      rw [← Nat.add_mul, Nat.mul_div_cancel _ c.pageSize_pos]
    refine wp_mono (setPage_spec hc hm' hlt (fun hmap => (hroom hmap).1) _) fun m'' held h => ?_
    refine ⟨h.1, h.2.1, h.2.2.trans ?_⟩
    rw [htables, hidx]
    refine Tables.ext (funext fun j => ?_) (funext fun j => ?_) rfl rfl rfl
    · dsimp only [Tables.fillSmall]
      rw [update_apply]
      grind
    · dsimp only [Tables.fillSmall]
      split
      · rw [update_apply]
        grind
      · grind
  · rw [htables₀]
    refine Tables.ext (funext fun j => ?_) (funext fun j => ?_) rfl rfl rfl
    · exact (if_neg (by omega)).symm
    · exact (if_neg (by omega)).symm
  · rw [pure_eq, wp_ret, h.1]
    exact ⟨rfl, ⟨h.2.1.config, h.2.1.entries, h.2.1.bigEntries, h.2.1.continuous, h.2.1.pageBits,
      h.2.1.firstLevelShift, h.2.1.firstLevelSize⟩, h.2.2⟩

/-- A big page inside the address space, and its small pages. -/
theorem bigPage_inside (hc : c.Ok) {j : ℕ} (hj : (j + 1) * c.bigPageSize ≤ c.addressSpaceSize) {i : ℕ}
    (hi : i < c.pagesPerBig) : j * c.bigPageSize + i * c.pageSize < c.addressSpaceSize ∧
      (j * c.bigPageSize + i * c.pageSize) / c.pageSize = j * c.pagesPerBig + i := by
  have hsum : j * c.bigPageSize + i * c.pageSize = (j * c.pagesPerBig + i) * c.pageSize := by
    rw [Nat.add_mul, hc.bigPageSize_eq, Nat.mul_assoc]
  refine ⟨?_, by rw [hsum, Nat.mul_div_cancel _ c.pageSize_pos]⟩
  have hlt : i * c.pageSize < c.bigPageSize := by
    rw [hc.bigPageSize_eq]
    exact Nat.mul_lt_mul_of_pos_right hi c.pageSize_pos
  rw [Nat.add_mul, Nat.one_mul] at hj
  omega

/-- The small pages of a big page are cleared. -/
theorem clearSmallPages_spec (hc : c.Ok) (hm : Sized c m) {j : ℕ}
    (hj : (j + 1) * c.bigPageSize ≤ c.addressSpaceSize) :
    wp (m.clearSmallPages (j * c.bigPageSize)) fun m' held => held = true ∧ Sized c m' ∧ m'.tables = { m.tables with
        small := fun i => if i / c.pagesPerBig = j then .free else m.tables.small i } := by
  rw [clearSmallPages, hm.config, hc.bigPageSize_eq]
  refine wp_mono (wp_forOffsets (I := fun k m' => Sized c m' ∧ m'.tables = { m.tables with
    small := fun i => if j * c.pagesPerBig ≤ i ∧ i < j * c.pagesPerBig + k then .free
      else m.tables.small i }) (rounds_mul c.pagesPerBig c.pageSize_pos) (fun k m' hk h => ?_) ⟨hm, ?_⟩)
    fun m' held h => ?_
  · obtain ⟨hm', htables⟩ := h
    rw [← hc.bigPageSize_eq]
    obtain ⟨hlt, hidx⟩ := bigPage_inside hc hj hk
    obtain ⟨m₁, heq, hm₁, -, htables₁⟩ := setEntry_small hc hm' hlt .free
    rw [heq, wp_ret]
    refine ⟨rfl, hm₁, htables₁.trans ?_⟩
    rw [htables, hidx]
    refine Tables.ext (funext fun i => ?_) rfl rfl rfl rfl
    dsimp only
    rw [update_apply]
    grind
  · refine Tables.ext (funext fun i => ?_) rfl rfl rfl rfl
    exact (if_neg (by omega)).symm
  · refine ⟨h.1, h.2.1, h.2.2.trans ?_⟩
    refine Tables.ext (funext fun i => ?_) rfl rfl rfl rfl
    dsimp only
    refine if_congr ?_ rfl rfl
    rw [Nat.div_eq_iff c.pagesPerBig_pos]
    have := c.pagesPerBig_pos
    omega

/-- The part of `BigPageTableOp` for mapped pages. -/
theorem setBigPageTable_spec (hm : Sized c m) {getPointer : GetPointer} {j : ℕ}
    (hj : j / 64 < m.bigPageContinuous.size) (devAddr : ℕ) :
    wp (m.setBigPageTable getPointer j devAddr) fun m' held => held = true ∧ Sized c m' ∧ m'.tables = { m.tables with
        bigDev := update m.tables.bigDev j (storedDev devAddr)
        continuous := update m.tables.continuous j (isContinuous getPointer c devAddr) } := by
  rw [setBigPageTable, Words.setBigPageContinuous_eq hj, ret_true_bind, pure_eq, wp_ret, hm.config]
  refine ⟨rfl, { hm with config := rfl }, ?_⟩
  refine Tables.ext rfl rfl rfl (funext fun i => ?_) (Words.flag_putFlag ..)
  show BitVec.toNat (update m.bigPageTableDev _ _ i) * cpuPageSize = _
  have hi : m.tables.bigDev i = (m.bigPageTableDev i).toNat * cpuPageSize := rfl
  dsimp only
  rw [update_apply, update_apply, hi]
  split
  · exact congrArg (fun n => n * cpuPageSize) (toNat_ofNat (devAddr / cpuPageSize) 32)
  · rfl

section

variable (hc : c.Ok) (hm : Sized c m) {getPointer : GetPointer} {entryType : EntryType}
  (hbits : entryType = .mapped → c.bigPageBits + 6 ≤ c.addressSpaceBits)

include hc hm hbits

/-- The body of the loop of `BigPageTableOp`. -/
theorem setBigPage_spec {j : ℕ} (hj : (j + 1) * c.bigPageSize ≤ c.addressSpaceSize) (devAddr : ℕ) :
    wp (m.setBigPage getPointer entryType (j * c.bigPageSize) devAddr) fun m' held =>
      held = true ∧ Sized c m' ∧ m'.tables = m.tables.fillBig c.bigPageSize c.pagesPerBig
        (isContinuous getPointer c) entryType j 1 devAddr := by
  have hlt : j * c.bigPageSize < c.addressSpaceSize := by
    have := c.bigPageSize_pos
    rw [Nat.add_mul, Nat.one_mul] at hj
    omega
  have hidx : j * c.bigPageSize / c.bigPageSize = j := Nat.mul_div_cancel _ c.bigPageSize_pos
  rw [setBigPage, getEntry_eq hc hm hlt true, if_pos rfl, hidx, ret_true_bind, wp_bind]
  have hclear : wp (if m.tables.big j = .smallPages then m.clearSmallPages (j * c.bigPageSize)
      else return m : Exec MemoryManager) fun m' held => held = true ∧ Sized c m' ∧
      m'.tables = { m.tables with
        small := fun i => if i / c.pagesPerBig = j ∧ m.tables.big j = .smallPages then .free
          else m.tables.small i } := by
    by_cases hsmall : m.tables.big j = .smallPages
    · rw [if_pos hsmall]
      simp only [hsmall, and_true]
      exact clearSmallPages_spec hc hm hj
    · rw [if_neg hsmall, pure_eq, wp_ret]
      refine ⟨rfl, hm, Tables.ext (funext fun i => ?_) rfl rfl rfl rfl⟩
      exact (if_neg fun h => hsmall h.2).symm
  refine wp_mono hclear fun m₁ held h => ?_
  obtain ⟨rfl, hm₁, htables₁⟩ := h
  obtain ⟨m₂, heq, hm₂, htables₂⟩ := setEntry_big hc hm₁ hlt entryType
  rw [heq, ret_true_bind]
  rw [htables₁, hidx] at htables₂
  have hone : ∀ i, (j ≤ i ∧ i < j + 1) ↔ i = j := fun i => by omega
  have hsmall : ∀ i, m₂.tables.small i = (m.tables.fillBig c.bigPageSize c.pagesPerBig
      (isContinuous getPointer c) entryType j 1 devAddr).small i := fun i => by
    rw [htables₂, Tables.fillBig]
    dsimp only
    refine if_congr ?_ rfl rfl
    rw [hone]
    exact and_congr_right fun h => by rw [h]
  have hbig : ∀ i, m₂.tables.big i = (m.tables.fillBig c.bigPageSize c.pagesPerBig
      (isContinuous getPointer c) entryType j 1 devAddr).big i := fun i => by
    rw [htables₂, Tables.fillBig]
    dsimp only
    rw [update_apply]
    exact if_congr (hone i).symm rfl rfl
  by_cases hmap : entryType = .mapped
  · have hsize : j / 64 < m₂.bigPageContinuous.size := by
      rw [hm₂.continuous]
      refine div_lt_words (b := 6) rfl (by have := hbits hmap; omega) ?_
      rw [← hidx]
      exact hc.big_lt hlt
    have hentry : m₂.pageEntryIndex true (j * c.bigPageSize) = j := by
      rw [hm₂.config]
      exact (Nat.mod_eq_of_lt (hc.big_lt hlt)).trans hidx
    rw [if_pos hmap, hentry]
    refine wp_mono (setBigPageTable_spec hm₂ hsize devAddr) fun m₃ held h => ?_
    obtain ⟨rfl, hm₃, htables₃⟩ := h
    refine ⟨rfl, hm₃, ?_⟩
    rw [htables₃]
    refine Tables.ext (funext hsmall) ?_ (funext hbig) (funext fun i => ?_) (funext fun i => ?_)
    · rw [htables₂]
      rfl
    · rw [htables₂, Tables.fillBig]
      dsimp only
      rw [update_apply]
      refine ite_congr (by simp only [hone, hmap, and_true]) (fun h => ?_) fun _ => rfl
      rw [(hone i).1 h.1, Nat.sub_self, Nat.zero_mul, Nat.add_zero]
    · rw [htables₂, Tables.fillBig]
      dsimp only
      rw [update_apply]
      refine ite_congr (by simp only [hone, hmap, and_true]) (fun h => ?_) fun _ => rfl
      rw [(hone i).1 h.1, Nat.sub_self, Nat.zero_mul, Nat.add_zero]
  · rw [if_neg hmap, pure_eq, wp_ret]
    refine ⟨rfl, hm₂, Tables.ext (funext hsmall) ?_ (funext hbig) (funext fun i => ?_)
      (funext fun i => ?_)⟩
    · rw [htables₂]
      rfl
    · rw [htables₂]
      exact (if_neg fun h => hmap h.2).symm
    · rw [htables₂]
      exact (if_neg fun h => hmap h.2).symm

/-- **`BigPageTableOp`** fills the entries of its pages. -/
theorem bigPageTableOp_spec
    {lo n : ℕ} (hlimit : (lo + n) * c.bigPageSize ≤ c.addressSpaceSize) (devAddr : ℕ) (kind : PTEKind) :
    wp (m.bigPageTableOp getPointer entryType (lo * c.bigPageSize) devAddr (n * c.bigPageSize) kind)
      fun m' held => held = true ∧ Sized c m' ∧ m'.tables = m.tables.fillBig c.bigPageSize
        c.pagesPerBig (isContinuous getPointer c) entryType lo n devAddr := by
  rw [bigPageTableOp, hm.config, wp_bind]
  refine wp_mono (wp_forOffsets (I := fun k m' => Sized c m' ∧
    m'.tables = m.tables.fillBig c.bigPageSize c.pagesPerBig (isContinuous getPointer c) entryType lo
      k devAddr) (rounds_mul n c.bigPageSize_pos) (fun k m' hk h => ?_) ⟨hm, ?_⟩) fun m' held h => ?_
  · obtain ⟨hm', htables⟩ := h
    have hj : (lo + k + 1) * c.bigPageSize ≤ c.addressSpaceSize :=
      Nat.le_trans (Nat.mul_le_mul_right _ (by omega)) hlimit
    rw [← Nat.add_mul]
    refine wp_mono (setBigPage_spec hc hm' hbits hj _) fun m'' held h => ?_
    refine ⟨h.1, h.2.1, h.2.2.trans ?_⟩
    rw [htables]
    refine Tables.ext (funext fun i => ?_) rfl (funext fun i => ?_) (funext fun i => ?_)
      (funext fun i => ?_)
    · dsimp only [Tables.fillBig]
      grind
    · dsimp only [Tables.fillBig]
      grind
    · dsimp only [Tables.fillBig]
      grind
    · dsimp only [Tables.fillBig]
      grind
  · refine Tables.ext (funext fun i => ?_) rfl (funext fun i => ?_) (funext fun i => ?_)
      (funext fun i => ?_)
    all_goals exact (if_neg (by omega)).symm
  · rw [pure_eq, wp_ret, h.1]
    exact ⟨rfl, ⟨h.2.1.config, h.2.1.entries, h.2.1.bigEntries, h.2.1.continuous, h.2.1.pageBits,
      h.2.1.firstLevelShift, h.2.1.firstLevelSize⟩, h.2.2⟩

end

end MemoryManager
end Tegra
end NXEmu
