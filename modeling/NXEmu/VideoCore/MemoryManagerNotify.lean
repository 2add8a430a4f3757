/-
# Notifications of a memory manager

`src/yuzu_video_core/memory_manager.cpp`: before `Map`, `MapSparse` and `Unmap` change an entry of a table,
`NotifyMappingChanged` goes through the pages of the request and passes those that will change to the rasterizer, in
ranges as long as possible.  Where only the kind of a mapped page will change it passes the whole request instead.

The loop looks at the first address of a page, and goes on by a big page where the request and the old entry both have
one.  So a request that begins in the middle of a big page escapes it: `BigPageTableOp` gives the address for that
place to the begin of the page (`remapInside_not_notified`).  In runs of requests that cover whole pages of the size
they use, and at least one, every page that changes is in a range (`KindRun.notifiesChanges`).
-/

import NXEmu.Lib.MaximalRuns
import NXEmu.VideoCore.MemoryManagerKinds

variable {i a k n p : ℕ}

namespace NXEmu
namespace Tegra

open Exec

/-! ### `NotifyMappingChanged` -/

/-- A call of `rasterizer->ModifyGPUMemory`. -/
structure ModifyGPUMemory where
  addr : ℕ
  size : ℕ
  preserveContents : Bool
deriving DecidableEq

/-- The arguments of `NotifyMappingChanged`. -/
structure MappingChange where
  gpuAddr : ℕ
  devAddr : ℕ
  size : ℕ
  entryType : EntryType
  kind : PTEKind
  isBigPages : Bool

/-- `changed_ranges`, and the range that is not finished yet: `changed_addr` and `changed_size`. -/
structure ChangedRanges where
  changedRanges : List (ℕ × ℕ)
  changedAddr : ℕ
  changedSize : ℕ

namespace ChangedRanges

/-- No range. -/
def empty : ChangedRanges := ⟨[], 0, 0⟩

/-- `finish_changed_range`. -/
def finishChangedRange (r : ChangedRanges) : ChangedRanges :=
  if r.changedSize ≠ 0 then
    { r with changedRanges := r.changedRanges ++ [(r.changedAddr, r.changedSize)], changedSize := 0 }
  else r

/-- A page that changes goes to the range that is not finished. -/
def extend (r : ChangedRanges) (currentGpuAddr rangeSize : ℕ) : ChangedRanges :=
  { r with
    changedAddr := if r.changedSize = 0 then currentGpuAddr else r.changedAddr
    changedSize := r.changedSize + rangeSize }

end ChangedRanges

/-- What a request does to a page. -/
inductive PageChange where
  | same
  | kind
  | mapping
deriving DecidableEq

namespace MemoryManager

/-- What the loop of `NotifyMappingChanged` finds for a page, and whether it goes on by a big page. -/
def scanPage (m : MemoryManager) (change : MappingChange) (offset : ℕ) : Exec (PageChange × Bool) := do
  let currentGpuAddr := change.gpuAddr + offset
  let bigEntry ← m.getEntry true currentGpuAddr
  let hasSmallPages := decide (bigEntry = .free ∨ bigEntry = .smallPages)
  let useBigPage := change.isBigPages && !hasSmallPages
  let oldEntry ← (if hasSmallPages then m.getEntry false currentGpuAddr else return bigEntry : Exec EntryType)
  if change.entryType = .mapped ∧ oldEntry = .mapped then
    let oldAddr ← m.gpuToCpuAddress currentGpuAddr
    if oldAddr ≠ some (change.devAddr + offset) then return (.mapping, useBigPage)
    else if m.getPageKind currentGpuAddr ≠ change.kind then return (.kind, useBigPage)
    else return (.same, useBigPage)
  else if oldEntry ≠ change.entryType then return (.mapping, useBigPage)
  else return (.same, useBigPage)

/-- The loop of `NotifyMappingChanged` and the calls after it.  A change of kind ends it with a call for the whole
request that keeps the contents. -/
def notifyLoop (m : MemoryManager) (change : MappingChange) (offset : ℕ) (ranges : ChangedRanges) :
    Exec (List ModifyGPUMemory) :=
  if offset < change.size then do
    let page ← m.scanPage change offset
    let rangeSize := m.sizeOf page.2
    match page.1 with
    | .kind => return [⟨change.gpuAddr, change.size, true⟩]
    | .mapping => m.notifyLoop change (offset + rangeSize) (ranges.extend (change.gpuAddr + offset) rangeSize)
    | .same => m.notifyLoop change (offset + rangeSize) ranges.finishChangedRange
  else return ranges.finishChangedRange.changedRanges.map fun r => ⟨r.1, r.2, false⟩
termination_by change.size - offset
decreasing_by
  all_goals
    have : 0 < m.sizeOf page.2 := by
      unfold Config.sizeOf
      split_ifs
      · exact m.bigPageSize_pos
      · exact m.pageSize_pos
    omega

/-- `NotifyMappingChanged`: the calls that it makes. -/
def notifyMappingChanged (m : MemoryManager) (change : MappingChange) : Exec (List ModifyGPUMemory) :=
  m.notifyLoop change 0 .empty

end MemoryManager

namespace Request

/-- The change of which the request notifies. -/
def mappingChange : Request → MappingChange
  | map gpuAddr devAddr size kind isBigPages => ⟨gpuAddr, devAddr, size, .mapped, kind, isBigPages⟩
  | mapSparse gpuAddr size isBigPages => ⟨gpuAddr, 0, size, .reserved, .invalid, isBigPages⟩
  | unmap gpuAddr size => ⟨gpuAddr, 0, size, .free, .invalid, false⟩

/-- `Map`, `MapSparse` and `Unmap`: all notifications precede any change of the tables.  `Unmap` of nothing returns
at once, and the loop has no rounds for it. -/
def perform (getPointer : GetPointer) (m : MemoryManager) (r : Request) :
    Exec (List ModifyGPUMemory × MemoryManager) := do
  let calls ← m.notifyMappingChanged r.mappingChange
  let m ← r.exec getPointer m
  return (calls, m)

end Request

/-! ### The addresses of a page -/

/-- The state of an address further on in the same page. -/
def PageState.add : PageState → ℕ → PageState
  | mapped devAddr, i => mapped (devAddr + i)
  | s, _ => s

theorem PageState.add_inj {s s' : PageState} : s.add i = s'.add i ↔ s = s' := by
  cases s <;> cases s' <;> simp [add]

theorem add_mod_of_div_eq (h : (a + i) / k = a / k) : (a + i) % k = a % k + i := by
  have hsum := Nat.div_add_mod (a + i) k
  have ha := Nat.div_add_mod a k
  rw [h] at hsum
  omega

namespace Tables

variable {c : Config} {t : Tables} {a i : ℕ}

theorem entryState_add (entryType : EntryType) (devAddr i : ℕ) :
    entryState entryType (devAddr + i) = (entryState entryType devAddr).add i := by
  cases entryType <;> rfl

/-- The big page at an address has an entry of its own. -/
def HasBigPage (c : Config) (t : Tables) (a : ℕ) : Prop :=
  t.big (a / c.bigPageSize) ≠ .free ∧ t.big (a / c.bigPageSize) ≠ .smallPages

/-- The entry that `NotifyMappingChanged` takes for the old one. -/
def oldEntry (c : Config) (t : Tables) (a : ℕ) : EntryType :=
  if t.big (a / c.bigPageSize) = .free ∨ t.big (a / c.bigPageSize) = .smallPages then t.small (a / c.pageSize)
  else t.big (a / c.bigPageSize)

theorem hasBigPage_iff : HasBigPage c t a ↔
    t.big (a / c.bigPageSize) = .mapped ∨ t.big (a / c.bigPageSize) = .reserved := by
  unfold HasBigPage
  cases t.big (a / c.bigPageSize) <;> simp

/-- **The old entry** is that of the address. -/
theorem pageState_oldEntry (c : Config) (t : Tables) (a : ℕ) :
    ∃ devAddr, t.pageState c a = entryState (t.oldEntry c a) devAddr := by
  unfold oldEntry pageState
  cases t.big (a / c.bigPageSize) with
  | mapped => exact ⟨_, rfl⟩
  | reserved => exact ⟨0, rfl⟩
  | free | smallPages =>
    simp only [reduceCtorEq, or_true, or_false, if_true]
    unfold smallState
    cases t.small (a / c.pageSize) with
    | mapped => exact ⟨_, rfl⟩
    | free | reserved | smallPages => exact ⟨0, rfl⟩

/-- Two addresses are in one page: a small one, or a big one that has an entry. -/
def SamePage (c : Config) (t : Tables) (a b : ℕ) : Prop :=
  a / c.pageSize = b / c.pageSize ∨ HasBigPage c t a ∧ a / c.bigPageSize = b / c.bigPageSize

theorem SamePage.big_eq (hc : c.Ok) {b : ℕ} (h : SamePage c t a b) : a / c.bigPageSize = b / c.bigPageSize := by
  obtain h | ⟨-, h⟩ := h
  · rw [← hc.div_pagesPerBig, ← hc.div_pagesPerBig, h]
  · exact h

/-- **The state of a page** goes on through its addresses. -/
theorem pageState_add (hc : c.Ok) (h : SamePage c t a (a + i)) : t.pageState c (a + i) = (t.pageState c a).add i := by
  have hbig := h.big_eq hc
  have hmod := add_mod_of_div_eq hbig.symm
  unfold pageState
  rw [← hbig, hmod]
  obtain hsmall | ⟨hentry, -⟩ := h
  · have hmod' := add_mod_of_div_eq hsmall.symm
    cases t.big (a / c.bigPageSize) with
    | mapped => simp [PageState.add, Nat.add_assoc]
    | reserved => rfl
    | free | smallPages =>
      simp only [smallState]
      rw [← hsmall, hmod']
      cases t.small (a / c.pageSize) with
      | mapped => simp [PageState.add, Nat.add_assoc]
      | free | reserved | smallPages => rfl
  · rw [hasBigPage_iff] at hentry
    obtain hentry | hentry := hentry
    · simp [hentry, PageState.add, Nat.add_assoc]
    · simp [hentry, PageState.add]

end Tables

/-! ### What the loop finds -/

namespace MemoryManager

variable {getPointer : GetPointer} {c : Config} {m m' : MemoryManager} {change : MappingChange} {offset a i : ℕ}
  {S : ℕ → Prop} {ranges : ChangedRanges}

/-- An address has what the change puts there. -/
structure Agrees (c : Config) (m : MemoryManager) (change : MappingChange) (a : ℕ) : Prop where
  state : m.tables.pageState c a = Tables.entryState change.entryType (change.devAddr + (a - change.gpuAddr))
  kind : change.entryType = .mapped → m.getPageKind a = change.kind

theorem entryState_sub (hle : change.gpuAddr ≤ a) :
    Tables.entryState change.entryType (change.devAddr + (a + i - change.gpuAddr)) =
      (Tables.entryState change.entryType (change.devAddr + (a - change.gpuAddr))).add i := by
  rw [← Tables.entryState_add]
  congr 1
  omega

/-- **A page agrees as a whole** when an address of it does. -/
theorem agrees_add (hc : c.Ok) (hkinds : Kinds c m) (hle : change.gpuAddr ≤ a)
    (hpage : Tables.SamePage c m.tables a (a + i)) : Agrees c m change (a + i) ↔ Agrees c m change a := by
  have hstate : m.tables.pageState c (a + i) =
      Tables.entryState change.entryType (change.devAddr + (a + i - change.gpuAddr)) ↔
      m.tables.pageState c a = Tables.entryState change.entryType (change.devAddr + (a - change.gpuAddr)) := by
    rw [Tables.pageState_add hc hpage, entryState_sub hle, PageState.add_inj]
  -- a big page that agrees with a mapping is mapped, so that it has one kind
  have hkind : m.tables.pageState c a = Tables.entryState change.entryType (change.devAddr + (a - change.gpuAddr)) →
      change.entryType = .mapped → m.getPageKind (a + i) = m.getPageKind a := by
    intro hold hmap
    obtain hsmall | ⟨hentry, hbig⟩ := hpage
    · exact (hkinds.small _ _ hsmall).symm
    · refine (hkinds.big _ _ hbig ?_).symm
      rw [Tables.hasBigPage_iff] at hentry
      refine hentry.resolve_right fun hreserved => ?_
      rw [Tables.pageState, hreserved, hmap] at hold
      cases hold
  constructor
  · rintro ⟨hs, hk⟩
    have hold := hstate.1 hs
    exact ⟨hold, fun hmap => (hkind hold hmap).symm.trans (hk hmap)⟩
  · rintro ⟨hs, hk⟩
    exact ⟨hstate.2 hs, fun hmap => (hkind hs hmap).trans (hk hmap)⟩

/-- **What the loop finds for a page.** -/
theorem scanPage_spec (hc : c.Ok) (h : m.Ok c) (ha : change.gpuAddr + offset < c.addressSpaceSize) :
    wp (m.scanPage change offset) fun page held => held = true ∧
      (page.2 = true ↔ change.isBigPages = true ∧ m.tables.HasBigPage c (change.gpuAddr + offset)) ∧
      (page.1 = .same → Agrees c m change (change.gpuAddr + offset)) := by
  obtain ⟨devAddr, hold⟩ := m.tables.pageState_oldEntry c (change.gpuAddr + offset)
  have hsub : change.gpuAddr + offset - change.gpuAddr = offset := by omega
  have hbigPage : ∀ b : Bool, (b && !decide (m.tables.big ((change.gpuAddr + offset) / c.bigPageSize) = .free ∨
      m.tables.big ((change.gpuAddr + offset) / c.bigPageSize) = .smallPages)) = true ↔
      b = true ∧ m.tables.HasBigPage c (change.gpuAddr + offset) := by
    intro b
    simp [Tables.HasBigPage]
  have hentry : (if decide (m.tables.big ((change.gpuAddr + offset) / c.bigPageSize) = .free ∨
      m.tables.big ((change.gpuAddr + offset) / c.bigPageSize) = .smallPages) = true then
        m.getEntry false (change.gpuAddr + offset)
      else return m.tables.big ((change.gpuAddr + offset) / c.bigPageSize) : Exec EntryType) =
      .ret (m.tables.oldEntry c (change.gpuAddr + offset)) true := by
    by_cases hsmall : m.tables.big ((change.gpuAddr + offset) / c.bigPageSize) = .free ∨
        m.tables.big ((change.gpuAddr + offset) / c.bigPageSize) = .smallPages
    · simp [Tables.oldEntry, hsmall, getEntry_eq hc h.sized ha]
    · simp [Tables.oldEntry, hsmall]
  rw [scanPage, getEntry_eq hc h.sized ha]
  simp only [if_true, ret_true_bind]
  rw [hentry, ret_true_bind]
  by_cases hboth : change.entryType = .mapped ∧ m.tables.oldEntry c (change.gpuAddr + offset) = .mapped
  · rw [if_pos hboth]
    obtain ⟨hmap, holdMap⟩ := hboth
    rw [holdMap] at hold
    rw [gpuToCpuAddress_eq hc h, if_pos ha, hold, ret_true_bind]
    by_cases haddr : (Tables.entryState .mapped devAddr).devAddr = some (change.devAddr + offset)
    · rw [if_neg (not_not_intro haddr)]
      by_cases hkind : m.getPageKind (change.gpuAddr + offset) = change.kind
      · rw [if_neg (not_not_intro hkind)]
        refine wp_ret.2 ⟨rfl, hbigPage _, fun _ => ⟨?_, fun _ => hkind⟩⟩
        rw [hold, hmap, hsub, Option.some.inj haddr]
      · rw [if_pos hkind]
        exact wp_ret.2 ⟨rfl, hbigPage _, nofun⟩
    · rw [if_pos haddr]
      exact wp_ret.2 ⟨rfl, hbigPage _, nofun⟩
  · rw [if_neg hboth]
    by_cases heq : m.tables.oldEntry c (change.gpuAddr + offset) = change.entryType
    · rw [if_neg (not_not_intro heq)]
      have hnot : change.entryType ≠ .mapped := fun hmap => hboth ⟨hmap, heq.trans hmap⟩
      refine wp_ret.2 ⟨rfl, hbigPage _, fun _ => ⟨?_, fun hmap => absurd hmap hnot⟩⟩
      rw [hold, heq]
      cases hentryType : change.entryType with
      | mapped => exact absurd hentryType hnot
      | free | reserved | smallPages => rfl
    · rw [if_pos heq]
      exact wp_ret.2 ⟨rfl, hbigPage _, nofun⟩

/-! ### The rounds of the loop -/

/-- Behind the last small page of a big page another one begins. -/
theorem dvd_add_of_div_ne {k l a : ℕ} (hl : 0 < l) (hkl : k ∣ l) (ha : k ∣ a) (hne : (a + k) / l ≠ a / l) :
    l ∣ a + k := by
  have hsum := Nat.div_add_mod a l
  have hlt := Nat.mod_lt a hl
  have hmod : a % l + k ≤ l := Nat.le_of_lt_add_of_dvd (Nat.add_lt_add_right hlt k)
    (Nat.dvd_add ((Nat.dvd_mod_iff hkl).2 ha) (Nat.dvd_refl k)) hkl
  have hfull : a % l + k = l := by
    by_contra hnot
    refine hne ?_
    have hnext : a + k = l * (a / l) + (a % l + k) := by omega
    have hinside : a % l + k < l := by omega
    rw [hnext, Nat.mul_add_div hl, Nat.div_eq_of_lt hinside, Nat.add_zero]
  rw [← hsum, Nat.add_assoc, hfull]
  exact Nat.dvd_add (Nat.dvd_mul_right ..) (Nat.dvd_refl l)

/-- The addresses of a page have its number. -/
theorem div_eq_div_add (hdvd : k ∣ a) (hi : i < k) : a / k = (a + i) / k := by
  obtain ⟨n, rfl⟩ := hdvd
  have hk : 0 < k := Nat.lt_of_le_of_lt (Nat.zero_le i) hi
  rw [Nat.mul_add_div hk, Nat.div_eq_of_lt hi, Nat.mul_div_cancel_left n hk, Nat.add_zero]

/-- The change is for whole pages of the size that it uses, inside the address space. -/
structure WholePages (c : Config) (change : MappingChange) : Prop where
  start : c.sizeOf change.isBigPages ∣ change.gpuAddr
  size : c.sizeOf change.isBigPages ∣ change.size
  limit : change.gpuAddr + change.size ≤ c.addressSpaceSize

/-- Where the loop is: at a small page, and at the begin of a big page that it takes as a whole. -/
structure AtPage (c : Config) (m : MemoryManager) (change : MappingChange) (offset : ℕ) : Prop where
  dvd : c.pageSize ∣ offset
  le : offset ≤ change.size
  big : change.isBigPages = true → m.tables.HasBigPage c (change.gpuAddr + offset) →
    c.bigPageSize ∣ change.gpuAddr + offset

/-- A round of the loop: the addresses from one place to the next are in one page. -/
structure Round (c : Config) (m : MemoryManager) (change : MappingChange) (offset rangeSize : ℕ) : Prop where
  pos : 0 < rangeSize
  next : AtPage c m change (offset + rangeSize)
  samePage : ∀ i < rangeSize, m.tables.SamePage c (change.gpuAddr + offset) (change.gpuAddr + offset + i)

theorem dvd_sizeOf (hc : c.Ok) (isBigPage : Bool) : c.pageSize ∣ c.sizeOf isBigPage := by
  cases isBigPage with
  | true => exact hc.dvd_bigPageSize
  | false => exact Nat.dvd_refl _

theorem AtPage.start (hwhole : WholePages c change) : AtPage c m change 0 where
  dvd := Nat.dvd_zero _
  le := Nat.zero_le _
  big hbig _ := by
    have hstart := hwhole.start
    rwa [hbig] at hstart

theorem AtPage.round (hc : c.Ok) (hwhole : WholePages c change) (hat : AtPage c m change offset)
    (hlt : offset < change.size) {useBigPage : Bool}
    (huse : useBigPage = true ↔ change.isBigPages = true ∧ m.tables.HasBigPage c (change.gpuAddr + offset)) :
    Round c m change offset (c.sizeOf useBigPage) := by
  obtain ⟨hstart, hsize, -⟩ := hwhole
  have hpage : c.pageSize ∣ change.gpuAddr + offset :=
    Nat.dvd_add (Nat.dvd_trans (dvd_sizeOf hc _) hstart) hat.dvd
  cases useBigPage with
  | true =>
    obtain ⟨hbig, hentry⟩ := huse.1 rfl
    have hdvd := hat.big hbig hentry
    rw [hbig] at hstart hsize
    have hle : change.gpuAddr + offset + c.bigPageSize ≤ change.gpuAddr + change.size :=
      Nat.le_of_lt_add_of_dvd (Nat.add_lt_add_right (Nat.add_lt_add_left hlt _) _)
        (Nat.dvd_add hdvd (Nat.dvd_refl _)) (Nat.dvd_add hstart hsize)
    refine ⟨c.bigPageSize_pos, ⟨Nat.dvd_add hat.dvd hc.dvd_bigPageSize, ?_, fun _ _ => ?_⟩, fun i hi =>
      .inr ⟨hentry, div_eq_div_add hdvd hi⟩⟩
    · simp only [Config.sizeOf, if_true]
      omega
    · rw [← Nat.add_assoc]
      exact Nat.dvd_add hdvd (Nat.dvd_refl _)
  | false =>
    have hle : change.gpuAddr + offset + c.pageSize ≤ change.gpuAddr + change.size :=
      Nat.le_of_lt_add_of_dvd (Nat.add_lt_add_right (Nat.add_lt_add_left hlt _) _)
        (Nat.dvd_add hpage (Nat.dvd_refl _)) (Nat.dvd_add (Nat.dvd_trans (dvd_sizeOf hc _) hstart)
          (Nat.dvd_trans (dvd_sizeOf hc _) hsize))
    refine ⟨c.pageSize_pos, ⟨Nat.dvd_add hat.dvd (Nat.dvd_refl _), ?_, fun hbig hentry => ?_⟩, fun i hi =>
      .inl (div_eq_div_add hpage hi)⟩
    · simp only [Config.sizeOf, Bool.false_eq_true, if_false]
      omega
    · rw [← Nat.add_assoc] at hentry ⊢
      refine dvd_add_of_div_ne c.bigPageSize_pos hc.dvd_bigPageSize hpage fun heq => ?_
      -- the next small page is in a big one that has small pages
      refine Bool.false_ne_true (huse.2 ⟨hbig, ?_⟩)
      unfold Tables.HasBigPage at hentry ⊢
      rwa [← heq]

/-! ### The ranges -/

/-- Ranges as their first addresses and those behind their last ones. -/
def intervals (changedRanges : List (ℕ × ℕ)) : List (ℕ × ℕ) := changedRanges.map fun r => (r.1, r.1 + r.2)

/-- **What the loop has collected** when it is at a place: the maximal runs of the addresses of the pages that it found
changed. -/
structure Collected (S : ℕ → Prop) (ranges : ChangedRanges) (start place : ℕ) : Prop where
  bounds : ∀ a, S a → start ≤ a ∧ a < place
  runs : MaximalRuns S (intervals ranges.finishChangedRange.changedRanges)
  finished : ranges.changedSize = 0 → ∀ r ∈ intervals ranges.changedRanges, r.2 < place
  unfinished : ranges.changedSize ≠ 0 → ranges.changedAddr + ranges.changedSize = place

theorem Collected.empty (start : ℕ) : Collected (fun _ => False) .empty start start where
  bounds _ := False.elim
  runs := .nil fun _ => id
  finished _ _ hr := nomatch hr
  unfinished hne := absurd rfl hne

/-- A page that stays as it is finishes a range. -/
theorem Collected.same {start place : ℕ} (h : Collected S ranges start place) (hn : 0 < n) :
    Collected S ranges.finishChangedRange start (place + n) := by
  have hfinish : ranges.finishChangedRange.changedSize = 0 := by
    unfold ChangedRanges.finishChangedRange
    split_ifs with hsize
    · rfl
    · exact not_not.1 hsize
  have htwice : ranges.finishChangedRange.finishChangedRange = ranges.finishChangedRange := by
    rw [ChangedRanges.finishChangedRange, if_neg (not_not_intro hfinish)]
  constructor
  · intro a ha
    have := h.bounds a ha
    omega
  · rw [htwice]
    exact h.runs
  · intro _ r hr
    have := (h.runs.bounds h.bounds hr).2
    omega
  · exact fun hne => absurd hfinish hne

/-- **A page that changes** makes the range longer, or begins another one. -/
theorem Collected.mapping {start place : ℕ} (h : Collected S ranges start place) (hle : start ≤ place) (hn : 0 < n) :
    Collected (fun a => S a ∨ place ≤ a ∧ a < place + n) (ranges.extend place n) start (place + n) := by
  have hsize : (ranges.extend place n).changedSize ≠ 0 := by
    simp only [ChangedRanges.extend]
    omega
  constructor
  · rintro a (ha | ha)
    · have := h.bounds a ha
      omega
    · omega
  · have hruns := h.runs
    rw [ChangedRanges.finishChangedRange, if_pos hsize]
    unfold ChangedRanges.finishChangedRange at hruns
    by_cases hzero : ranges.changedSize = 0
    · rw [if_neg (not_not_intro hzero)] at hruns
      simpa [intervals, ChangedRanges.extend, hzero] using hruns.snoc (Nat.lt_add_of_pos_right hn) (h.finished hzero)
    · rw [if_pos hzero] at hruns
      have hplace := h.unfinished hzero
      simp only [intervals, List.map_append, List.map_cons, List.map_nil, hplace] at hruns
      simpa [intervals, ChangedRanges.extend, hzero, ← Nat.add_assoc, hplace] using
        hruns.extend (Nat.le_add_right place n)
  · exact fun hzero => absurd hzero hsize
  · intro _
    simp only [ChangedRanges.extend]
    split_ifs with hzero
    · rw [hzero, Nat.zero_add]
    · rw [← Nat.add_assoc, h.unfinished hzero]

/-- **Calls for a change**: each page that does not agree with it is in the range of one, and no range leaves it. -/
structure Complete (c : Config) (m : MemoryManager) (change : MappingChange) (calls : List ModifyGPUMemory) : Prop where
  covered : ∀ p, c.pageSize ∣ p → change.gpuAddr ≤ p → p < change.gpuAddr + change.size → ¬Agrees c m change p →
    ∃ call ∈ calls, call.addr ≤ p ∧ p + c.pageSize ≤ call.addr + call.size
  inside : ∀ call ∈ calls, change.gpuAddr ≤ call.addr ∧ call.addr + call.size ≤ change.gpuAddr + change.size

/-- A page of the change ends in it. -/
theorem WholePages.page_le (hc : c.Ok) (hwhole : WholePages c change) (hp : c.pageSize ∣ p)
    (hlt : p < change.gpuAddr + change.size) : p + c.pageSize ≤ change.gpuAddr + change.size :=
  Nat.le_of_lt_add_of_dvd (Nat.add_lt_add_right hlt _) (Nat.dvd_add hp (Nat.dvd_refl _))
    (Nat.dvd_trans (dvd_sizeOf hc _) (Nat.dvd_add hwhole.start hwhole.size))

theorem complete_whole (hc : c.Ok) (hwhole : WholePages c change) :
    Complete c m change [⟨change.gpuAddr, change.size, true⟩] where
  covered p hp hle hlt _ := ⟨_, List.mem_singleton_self _, hle, hwhole.page_le hc hp hlt⟩
  inside call hcall := by
    obtain rfl := List.mem_singleton.1 hcall
    exact ⟨Nat.le_refl _, Nat.le_refl _⟩

/-- The ranges at the end of the loop are complete. -/
theorem Collected.complete_calls (hc : c.Ok) (hkinds : Kinds c m) (hwhole : WholePages c change)
    (h : Collected S ranges change.gpuAddr (change.gpuAddr + change.size))
    (hmarked : ∀ a, change.gpuAddr ≤ a → a < change.gpuAddr + change.size → ¬Agrees c m change a → S a) :
    Complete c m change (ranges.finishChangedRange.changedRanges.map fun r => ⟨r.1, r.2, false⟩) where
  covered p hp hle hlt hnot := by
    have hend := hwhole.page_le hc hp hlt
    have hpage : ∀ a, p ≤ a → a < p + c.pageSize → S a := by
      intro a hpa hap
      obtain ⟨i, rfl⟩ := Nat.exists_eq_add_of_le hpa
      refine hmarked _ (by omega) (by omega) fun hagrees => hnot ?_
      exact (agrees_add hc hkinds hle (.inl (div_eq_div_add hp (by omega)))).1 hagrees
    obtain ⟨r, hr, hfirst, hlast⟩ := h.runs.exists_run (Nat.lt_add_of_pos_right c.pageSize_pos) hpage
    obtain ⟨range, hrange, rfl⟩ := List.mem_map.1 hr
    exact ⟨_, List.mem_map_of_mem hrange, hfirst, hlast⟩
  inside call hcall := by
    obtain ⟨range, hrange, rfl⟩ := List.mem_map.1 hcall
    exact h.runs.bounds h.bounds (List.mem_map_of_mem hrange)

/-- **The loop** makes complete calls, from each place and with what it has collected there. -/
theorem notifyLoop_spec (hc : c.Ok) (h : m.Ok c) (hkinds : Kinds c m) (hwhole : WholePages c change)
    (hat : AtPage c m change offset) (hcollected : Collected S ranges change.gpuAddr (change.gpuAddr + offset))
    (hmarked : ∀ a, change.gpuAddr ≤ a → a < change.gpuAddr + offset → ¬Agrees c m change a → S a) :
    wp (m.notifyLoop change offset ranges) fun calls held => held = true ∧ Complete c m change calls := by
  induction hrest : change.size - offset using Nat.strong_induction_on generalizing offset S ranges with
  | _ rest ih =>
    rw [notifyLoop]
    by_cases hlt : offset < change.size
    · have hlimit := hwhole.limit
      rw [if_pos hlt, wp_bind, h.sized.config]
      refine wp_mono (scanPage_spec hc h (by omega)) fun page held hpage => ?_
      obtain ⟨rfl, huse, hsame⟩ := hpage
      have hround := hat.round hc hwhole hlt huse
      have hpos := hround.pos
      cases hfound : page.1 with
      | kind => exact wp_ret.2 ⟨rfl, complete_whole hc hwhole⟩
      | mapping =>
        have hnext := hcollected.mapping (Nat.le_add_right ..) hpos
        rw [Nat.add_assoc] at hnext
        refine ih _ (by omega) hround.next hnext (fun a hle hlt' hnot => ?_) rfl
        by_cases hbefore : a < change.gpuAddr + offset
        · exact .inl (hmarked a hle hbefore hnot)
        · exact .inr ⟨by omega, by omega⟩
      | same =>
        have hnext := hcollected.same hpos
        rw [Nat.add_assoc] at hnext
        refine ih _ (by omega) hround.next hnext (fun a hle hlt' hnot => ?_) rfl
        by_cases hbefore : a < change.gpuAddr + offset
        · exact hmarked a hle hbefore hnot
        · -- the page agrees as a whole
          obtain ⟨i, rfl⟩ := Nat.exists_eq_add_of_le (Nat.not_lt.1 hbefore)
          exact absurd ((agrees_add hc hkinds (Nat.le_add_right ..) (hround.samePage i (by omega))).2
            (hsame hfound)) hnot
    · have hend : offset = change.size := by
        have := hat.le
        omega
      rw [if_neg hlt, pure_eq, wp_ret]
      subst hend
      exact ⟨rfl, hcollected.complete_calls hc hkinds hwhole hmarked⟩

end MemoryManager

/-! ### Requests -/

namespace Request

variable {c : Config} {r : Request} {a : ℕ}

theorem Valid.wholePages (hr : r.Valid c) : MemoryManager.WholePages c r.mappingChange := by
  cases r with
  | map gpuAddr devAddr size kind isBigPages => exact ⟨hr.1, hr.2.1, hr.2.2.1⟩
  | mapSparse gpuAddr size isBigPages => exact ⟨hr.1, hr.2.1, hr.2.2⟩
  | unmap gpuAddr size => exact ⟨hr.1, hr.2.1, hr.2.2⟩

theorem covers_iff : r.Covers a ↔
    r.mappingChange.gpuAddr ≤ a ∧ a < r.mappingChange.gpuAddr + r.mappingChange.size := by
  cases r <;> rfl

theorem target_eq : r.target a = Tables.entryState r.mappingChange.entryType
    (r.mappingChange.devAddr + (a - r.mappingChange.gpuAddr)) := by
  cases r <;> rfl

/-- The first address of the pages that a request meets, of the size that it uses, and the one behind them. -/
def pages (c : Config) (r : Request) : ℕ × ℕ :=
  let size := c.sizeOf r.mappingChange.isBigPages
  (r.mappingChange.gpuAddr / size * size,
    (r.mappingChange.gpuAddr + r.mappingChange.size + size - 1) / size * size)

theorem Valid.pages_eq (hr : r.Valid c) :
    r.pages c = (r.mappingChange.gpuAddr, r.mappingChange.gpuAddr + r.mappingChange.size) := by
  have hwhole := hr.wholePages
  have hpos : 0 < c.sizeOf r.mappingChange.isBigPages := by
    unfold Config.sizeOf
    split_ifs
    · exact c.bigPageSize_pos
    · exact c.pageSize_pos
  obtain ⟨n, hn⟩ := Nat.dvd_add hwhole.start hwhole.size
  rw [pages, Nat.div_mul_cancel hwhole.start, hn, Nat.mul_comm _ n, MemoryManager.rounds_mul n hpos]

end Request

namespace MemoryManager

variable {getPointer : GetPointer} {c : Config} {m m' : MemoryManager} {r : Request}

/-- The page at an address has something else after a request: another translation, or none, or another kind while
it stays mapped. -/
def PageChanged (c : Config) (m m' : MemoryManager) (p : ℕ) : Prop :=
  ∃ a, p ≤ a ∧ a < p + c.pageSize ∧ (m.tables.pageState c a ≠ m'.tables.pageState c a ∨
    (m.tables.pageState c a).devAddr ≠ none ∧ m.getPageKind a ≠ m'.getPageKind a)

/-- **A request notifies of what it changes**: each page of it that changes is in the range of a call, and the ranges
are inside its pages. -/
structure NotifiesChanges (c : Config) (r : Request) (m m' : MemoryManager) (calls : List ModifyGPUMemory) : Prop where
  complete : ∀ p, c.pageSize ∣ p → r.Covers p → PageChanged c m m' p →
    ∃ call ∈ calls, call.addr ≤ p ∧ p + c.pageSize ≤ call.addr + call.size
  inside : ∀ call ∈ calls, (r.pages c).1 ≤ call.addr ∧ call.addr + call.size ≤ (r.pages c).2

/-- **Where a page changes the manager did not agree with the request.** -/
theorem not_agrees_of_pageChanged (hc : c.Ok) (hkinds : Kinds c m) (hr : r.Valid c) (hp : c.pageSize ∣ p)
    (hcovers : r.Covers p) (hstate : ∀ a, m'.tables.pageState c a = if r.Covers a then r.target a
      else m.tables.pageState c a)
    (hkind : r.mappingChange.entryType = .mapped → ∀ a, r.Covers a → m'.getPageKind a = r.mappingChange.kind)
    (hchanged : PageChanged c m m' p) : ¬Agrees c m r.mappingChange p := by
  intro hagrees
  obtain ⟨a, hpa, hap, hchange⟩ := hchanged
  obtain ⟨i, rfl⟩ := Nat.exists_eq_add_of_le hpa
  have hin := Request.covers_iff.1 hcovers
  have hend := hr.wholePages.page_le hc hp hin.2
  have hcovers' : r.Covers (p + i) := Request.covers_iff.2 ⟨by omega, by omega⟩
  have hpage : p / c.pageSize = (p + i) / c.pageSize := div_eq_div_add hp (by omega)
  obtain ⟨hold, holdKind⟩ := (agrees_add hc hkinds hin.1 (.inl hpage)).2 hagrees
  rw [hstate, if_pos hcovers', Request.target_eq] at hchange
  obtain hne | ⟨hmapped, hne⟩ := hchange
  · exact hne hold
  · have hmap : r.mappingChange.entryType = .mapped := by
      rw [hold] at hmapped
      cases hentry : r.mappingChange.entryType with
      | mapped => rfl
      | free | reserved | smallPages =>
        rw [hentry] at hmapped
        exact absurd rfl hmapped
    exact hne ((holdKind hmap).trans (hkind hmap _ hcovers').symm)

/-- **All changes are notified**, in runs of requests that cover whole pages of the size they use, and at least one
where they map. -/
theorem KindRun.notifiesChanges (hc : c.Ok) (hbits : c.addressSpaceBits < 63) (h : KindRun c m)
    (getPointer : GetPointer) (hr : r.Valid c) (hfits : r.Fits c m) (hpages : r.MapsPages) :
    ∃ calls m', r.perform getPointer m = .ret (calls, m') true ∧ NotifiesChanges c r m m' calls := by
  have hok := h.run.ok hc
  have hkinds := h.kinds hc hbits
  obtain ⟨calls, held, hcalls, rfl, hcomplete⟩ := notifyLoop_spec hc hok hkinds hr.wholePages
    (.start hr.wholePages) (.empty _) fun a hle hlt _ => absurd hlt (Nat.not_lt.2 hle)
  obtain ⟨m', held, hexec, rfl, -, hstate⟩ := exec_spec getPointer hc hok hr hfits
  have hkind : r.mappingChange.entryType = .mapped → ∀ a, r.Covers a → m'.getPageKind a = r.mappingChange.kind := by
    have hmapped := (exec_kinds getPointer hc hkinds hr hpages m' true hexec).2
    cases r with
    | map gpuAddr devAddr size kind isBigPages => exact fun _ => hmapped _ _ _ _ _ rfl
    | mapSparse gpuAddr size isBigPages => exact nofun
    | unmap gpuAddr size => exact nofun
  refine ⟨calls, m', ?_, fun p hp hcovers hchanged => ?_, ?_⟩
  · rw [Request.perform, notifyMappingChanged, hcalls, ret_true_bind, hexec, ret_true_bind, pure_eq]
  · have hin := Request.covers_iff.1 hcovers
    exact hcomplete.covered p hp hin.1 hin.2
      (not_agrees_of_pageChanged hc hkinds hr hp hcovers hstate hkind hchanged)
  · rw [hr.pages_eq]
    exact hcomplete.inside

/-! ### A request that begins inside a big page -/

/-- `BigPageTableOp` takes a place inside a big page for its begin. -/
theorem setBigPage_inside (hc : c.Ok) (hm : Sized c m) {j i : ℕ} (hj : (j + 1) * c.bigPageSize ≤ c.addressSpaceSize)
    (hi : i < c.bigPageSize) (hsmall : m.tables.big j ≠ .smallPages) (entryType : EntryType) (devAddr : ℕ) :
    m.setBigPage getPointer entryType (j * c.bigPageSize + i) devAddr =
      m.setBigPage getPointer entryType (j * c.bigPageSize) devAddr := by
  rw [Nat.add_mul, Nat.one_mul] at hj
  have hlt : j * c.bigPageSize + i < c.addressSpaceSize := by omega
  have hlt' : j * c.bigPageSize < c.addressSpaceSize := by omega
  have hdiv : (j * c.bigPageSize + i) / c.bigPageSize = j * c.bigPageSize / c.bigPageSize :=
    (div_eq_div_add (Nat.dvd_mul_left ..) hi).symm
  have hindex : j * c.bigPageSize / c.bigPageSize = j := Nat.mul_div_cancel _ c.bigPageSize_pos
  obtain ⟨m₁, heq, hm₁, -⟩ := setEntry_big hc hm hlt' entryType
  have heq' : m.setEntry true (j * c.bigPageSize + i) entryType = m.setEntry true (j * c.bigPageSize) entryType := by
    simp only [setEntry, if_true, hm.config, hdiv]
  have hentry : m₁.pageEntryIndex true (j * c.bigPageSize + i) = m₁.pageEntryIndex true (j * c.bigPageSize) := by
    simp only [Config.pageEntryIndex, if_true, hm₁.config, hdiv]
  rw [setBigPage, setBigPage, getEntry_eq hc hm hlt, getEntry_eq hc hm hlt', hdiv, hindex]
  simp only [if_true, ret_true_bind, if_neg hsmall, pure_eq, heq, heq', hentry]

/-- The first big page is mapped. -/
def firstBigPage : Request := .map 0 0 0x10000 0 true

/-- **After the first big page was mapped** its addresses translate to themselves. -/
theorem firstBigPage_maps : ∃ m, KindRun lastPageConfig m ∧ m.tables.big 0 = .mapped ∧
    m.tables.pageState lastPageConfig 0x8000 = .mapped 0x8000 ∧ m.getPageKind 0x8000 = 0 := by
  have hc := lastPageConfig_ok
  obtain ⟨m, held, hret, rfl, -, htables⟩ := @bigPageTableOp_spec lastPageConfig _ hc (sized_new hc)
    (fun _ => 0) .mapped (fun _ => by decide) 0 1 (by decide) 0 0
  refine ⟨m, ?_, ?_, ?_, ?_⟩
  · exact .request (fun _ => 0) firstBigPage .new (by decide) (show 16 + 6 ≤ 40 by decide) (show 0 < 0x10000 by decide)
      hret
  · rw [htables]
    rfl
  · rw [htables, Tables.pageState_fillBig (fun _ => by decide) hc (ok_new hc).tables (by decide), if_pos (by decide)]
    rfl
  · exact (kinds_bigPageTableOp hc (kinds_new (by decide)) (by decide) (by decide) (by decide) (by decide) m true hret).2
      0x8000 (by decide) (by decide)

/-- A small page under it is unmapped: the request is complete. -/
theorem notifiesChanges_firstBigPage : ∃ m, KindRun lastPageConfig m ∧
    m.tables.pageState lastPageConfig 0x8000 = .mapped 0x8000 ∧
    ∃ calls m', (Request.unmap 0x8000 0x1000).perform (fun _ => 0) m = .ret (calls, m') true ∧
      NotifiesChanges lastPageConfig (.unmap 0x8000 0x1000) m m' calls := by
  obtain ⟨m, hrun, -, hstate, -⟩ := firstBigPage_maps
  have hexpand : m.Expandable lastPageConfig 0x8000 0x9000 := by
    intro j _ hlt _
    have hstart : j * 0x10000 < 0x9000 := hlt
    obtain rfl : j = 0 := by omega
    exact ⟨by decide, by decide⟩
  exact ⟨m, hrun, hstate, hrun.notifiesChanges lastPageConfig_ok (by decide) (fun _ => 0) (by decide)
    ⟨fun _ => hexpand, fun hlt => absurd hlt (by decide)⟩ trivial⟩

/-- The second half of the first big page is mapped again, to the same addresses. -/
def remapInside : Request := .map 0x8000 0x8000 0x8000 0 true

/-- The big page begins with the address that the request gives its second half. -/
theorem remapInside_exec (hok : m.Ok lastPageConfig) (hbig : m.tables.big 0 = .mapped) :
    ∃ m', remapInside.exec (fun _ => 0) m = .ret m' true ∧ m'.Ok lastPageConfig ∧
      m'.tables.pageState lastPageConfig 0x8000 = .mapped 0x10000 := by
  have hc := lastPageConfig_ok
  obtain ⟨m₁, held, hset, rfl, hm₁, htables⟩ := @setBigPage_spec lastPageConfig m hc hok.sized (fun _ => 0) .mapped
    (fun _ => by decide) 0 (by decide) 0x8000
  have hinside := @setBigPage_inside (fun _ => 0) lastPageConfig m hc hok.sized 0 0x8000 (by decide) (by decide)
    (by rw [hbig]; decide) .mapped 0x8000
  have hround : forOffsets 0x8000 lastPageConfig.bigPageSize m (fun m offset =>
      m.setBigPage (fun _ => 0) .mapped (0x8000 + offset) (0x8000 + offset)) = .ret m₁ true := by
    rw [← hset, ← hinside]
    exact bind_pure (m.setBigPage (fun _ => 0) .mapped 0x8000 0x8000)
  refine ⟨m₁.mapKind 0x8000 0x10000 0, ?_, ⟨?_, ?_⟩, ?_⟩
  · show m.bigPageTableOp (fun _ => 0) .mapped 0x8000 0x8000 0x8000 0 = _
    rw [bigPageTableOp, hok.sized.config, hround, ret_true_bind, pure_eq]
  · exact { hm₁ with }
  · show m₁.tables.Ok lastPageConfig
    rw [htables]
    exact hok.tables.fillBig (fun _ => by decide) hc
  · show m₁.tables.pageState lastPageConfig 0x8000 = _
    rw [htables, Tables.pageState_fillBig (fun _ => by decide) hc hok.tables (by decide), if_pos (by decide)]
    rfl

/-- The loop compares the address at the place of the request. -/
theorem remapInside_notify (hok : m.Ok lastPageConfig) (hbig : m.tables.big 0 = .mapped)
    (hbefore : m.gpuToCpuAddress 0x8000 = .ret (some 0x8000) true) (hkind : m.getPageKind 0x8000 = 0) :
    m.notifyMappingChanged remapInside.mappingChange = .ret [] true := by
  have hentry : m.getEntry true 0x8000 = .ret .mapped true := by
    rw [getEntry_eq lastPageConfig_ok hok.sized (by decide), ← hbig]
    rfl
  have hscan : m.scanPage remapInside.mappingChange 0 = .ret (.same, true) true := by
    simp [scanPage, remapInside, Request.mappingChange, hentry, hbefore, hkind]
  rw [notifyMappingChanged, notifyLoop, if_pos (by decide), hscan, ret_true_bind]
  dsimp only
  rw [notifyLoop, hok.sized.config, if_neg (by decide)]
  rfl

/-- **A remap inside a big page.**  Nothing is notified, and the page at its begin has another translation. -/
theorem remapInside_not_notified : ∃ m m', KindRun lastPageConfig m ∧
    remapInside.perform (fun _ => 0) m = .ret ([], m') true ∧
    m.gpuToCpuAddress 0x8000 = .ret (some 0x8000) true ∧ m'.gpuToCpuAddress 0x8000 = .ret (some 0x10000) true ∧
    ¬NotifiesChanges lastPageConfig remapInside m m' [] := by
  obtain ⟨m, hrun, hbig, hstate, hkind⟩ := firstBigPage_maps
  have hok := hrun.run.ok lastPageConfig_ok
  obtain ⟨m', hexec, hok', hstate'⟩ := remapInside_exec hok hbig
  have hbefore : m.gpuToCpuAddress 0x8000 = .ret (some 0x8000) true := by
    rw [gpuToCpuAddress_eq lastPageConfig_ok hok, if_pos (by decide), hstate]
    rfl
  have hafter : m'.gpuToCpuAddress 0x8000 = .ret (some 0x10000) true := by
    rw [gpuToCpuAddress_eq lastPageConfig_ok hok', if_pos (by decide), hstate']
    rfl
  refine ⟨m, m', hrun, ?_, hbefore, hafter, fun hnotifies => ?_⟩
  · rw [Request.perform, remapInside_notify hok hbig hbefore hkind, ret_true_bind, hexec, ret_true_bind, pure_eq]
  · have hchanged : PageChanged lastPageConfig m m' 0x8000 := by
      refine ⟨0x8000, by decide, by decide, .inl ?_⟩
      rw [hstate, hstate']
      decide
    obtain ⟨call, hcall, -⟩ := hnotifies.complete 0x8000 (by decide) (by decide) hchanged
    cases hcall

end MemoryManager

end Tegra
end NXEmu
