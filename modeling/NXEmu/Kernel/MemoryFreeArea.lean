/-
# Finding a free area

`src/nxemu-os/core/hle/kernel/k_memory_block_manager.cpp`, `KMemoryBlockManager::FindFreeArea`, and
`src/nxemu-os/core/hle/kernel/k_page_table_base.cpp`, `KPageTableBase::FindFreeArea`.

What fits a block is bounded below by the first address with the offset from the alignment, which is
the one that the loop looks at, so that a block has an area when that one fits
(`AreaRequest.Within.areaIn_le`).
-/

import NXEmu.Kernel.MemoryPageMap
import NXEmu.Common.Alignment

namespace NXEmu
namespace Kernel

open Segment Exec
open Common (alignDown)
open List Nat

/-- The arguments of `FindFreeArea`. -/
structure AreaRequest where
  regionStart : ℕ
  regionNumPages : ℕ
  numPages : ℕ
  alignment : ℕ
  offset : ℕ
  guardPages : ℕ

namespace AreaRequest

variable (r : AreaRequest)

/-- `region_end` -/
def regionEnd : ℕ := u64 (r.regionStart + r.regionNumPages * PageSize)

/-- `region_last` -/
def regionLast : ℕ := u64 (r.regionEnd + (2 ^ 64 - 1))

/-- `area` -/
def areaIn (b : KMemoryBlock) : ℕ :=
  let area := u64 ((if b.address ≤ r.regionStart then r.regionStart else b.address) + r.guardPages * PageSize)
  let offsetArea := u64 (alignDown area r.alignment + r.offset)
  if area ≤ offsetArea then offsetArea else u64 (offsetArea + r.alignment)

/-- `area_last` -/
def areaLast (area : ℕ) : ℕ :=
  u64 (u64 (u64 (area + r.numPages * PageSize) + r.guardPages * PageSize) + (2 ^ 64 - 1))

/-- The loop of `FindFreeArea`. -/
def findFrom : List KMemoryBlock → ℕ
  | [] => 0
  | b :: rest =>
    if r.regionLast < b.address then 0
    else if b.memoryState ≠ KMemoryState.free then findFrom rest
    else
      let area := r.areaIn b
      if b.address ≤ area ∧ area < r.areaLast area ∧ r.areaLast area ≤ r.regionLast ∧
        r.areaLast area ≤ b.lastAddress then area
      else findFrom rest

end AreaRequest

/-- `GenerateRandomRange`, with the word that its loop accepts. -/
def generateRandomRange (word lo hi : ℕ) : ℕ := lo + word % (hi + 1 - lo)

/-- `FindFreeArea` -/
def KMemoryBlockManager.findFreeArea (m : KMemoryBlockManager) (r : AreaRequest) : ℕ :=
  if 0 < r.numPages then r.findFrom (m.findIterator r.regionStart).2 else 0

/-- `region_num_pages - num_pages - guard_pages` -/
def AreaRequest.slack (r : AreaRequest) : ℕ := u64 (r.regionNumPages + 2 * 2 ^ 64 - r.numPages - r.guardPages)

/-- The candidate of a random word, and the first of them that will do: `QueryInfoImpl` finds no block outside the
space. -/
def AreaRequest.tryFrom (r : AreaRequest) (m : KMemoryBlockManager) : List ℕ → Exec ℕ
  | [] => return 0
  | word :: words =>
    let randomOffset := u64 (generateRandomRange word 0 (u64 (r.slack * PageSize) / r.alignment) * r.alignment)
    let candidate := u64 (alignDown (u64 (r.regionStart + randomOffset)) r.alignment + r.offset)
    let last := u64 (candidate + (r.numPages + r.guardPages) * PageSize + (2 ^ 64 - 1))
    match m.findBlock candidate with
    | none => .fault
    | some info =>
      if info.memoryState = KMemoryState.free ∧ r.regionStart ≤ candidate ∧
        u64 (info.address + r.guardPages * PageSize) ≤ candidate ∧ last ≤ info.lastAddress ∧ last ≤ r.regionLast then
        return candidate
      else r.tryFrom m words

/-- The tries at random, and the first free area after a random number of pages. -/
def AreaRequest.findRandomly (r : AreaRequest) (m : KMemoryBlockManager) (words : ℕ → ℕ) : Exec ℕ := do
  let address ← r.tryFrom m ((List.range 8).map words)
  if address = 0 then
    let offsetPages := generateRandomRange (words 8) 0 r.slack
    return m.findFreeArea { r with
      regionStart := u64 (r.regionStart + offsetPages * PageSize)
      regionNumPages := u64 (r.regionNumPages + 2 ^ 64 - offsetPages) }
  else return address

/-- `KPageTableBase::FindFreeArea`, with the random words that `GenerateRandomRange` accepts. -/
def KPageTableBase.findFreeArea (m : KMemoryBlockManager) (r : AreaRequest) (isAslrEnabled : Bool) (words : ℕ → ℕ) :
    Exec ℕ :=
  if r.numPages ≤ r.regionNumPages then do
    let address ← (if isAslrEnabled then r.findRandomly m words else pure 0)
    if address = 0 then return m.findFreeArea r else return address
  else return 0

namespace AreaRequest

/-- An area in a free block, with guards on both sides. -/
structure Placed (r : AreaRequest) (b : KMemoryBlock) (area : ℕ) : Prop where
  free : b.memoryState = KMemoryState.free
  aligned : area % r.alignment = r.offset
  inRegion : r.regionStart ≤ area ∧
    area + (r.numPages + r.guardPages) * PageSize ≤ r.regionStart + r.regionNumPages * PageSize
  inBlock : b.address + r.guardPages * PageSize ≤ area ∧
    area + (r.numPages + r.guardPages) * PageSize ≤ b.endAddress

/-- The guards in front are in the region as well. -/
structure Fits (r : AreaRequest) (b : KMemoryBlock) (area : ℕ) : Prop extends r.Placed b area where
  guarded : r.regionStart + r.guardPages * PageSize ≤ area

/-- The region is in the space, and the sums do not wrap. -/
structure Within (r : AreaRequest) (m : KMemoryBlockManager) : Prop where
  range : m.InRange r.regionStart r.regionNumPages
  pages : 0 < r.numPages
  offset : r.offset < r.alignment
  bound : m.endAddress + (r.numPages + 2 * r.guardPages) * PageSize + 2 * r.alignment ≤ 2 ^ 64

variable {r : AreaRequest} {m : KMemoryBlockManager} {b : KMemoryBlock} {bs : List KMemoryBlock} {area s : ℕ}

theorem u64_of_lt {n : ℕ} (h : n < 2 ^ 64) : u64 n = n := mod_eq_of_lt h

theorem u64_last {n : ℕ} (hpos : 0 < n) (h : n < 2 ^ 64) : u64 (n + (2 ^ 64 - 1)) = n - 1 := by
  rw [u64]
  omega

section

variable (hr : r.Within m)

include hr

theorem Within.regionLast_eq : r.regionLast = r.regionStart + r.regionNumPages * PageSize - 1 := by
  have hend := hr.range.le_end
  have hpos := mul_pos hr.range.pos (show 0 < PageSize by decide)
  have hbound := hr.bound
  have hoffset := hr.offset
  have hlt : r.regionStart + r.regionNumPages * PageSize < 2 ^ 64 := lt_of_le_of_lt hend (by omega)
  rw [regionLast, regionEnd, u64_of_lt hlt, u64_last (by omega) hlt]

/-- The area is the first address from the guarded start on with the offset. -/
theorem Within.areaIn_spec (hb : b.address < m.endAddress) :
    max b.address r.regionStart + r.guardPages * PageSize ≤ r.areaIn b ∧ r.areaIn b % r.alignment = r.offset ∧
      r.areaIn b < m.endAddress + r.guardPages * PageSize + 2 * r.alignment ∧
      ∀ area, max b.address r.regionStart + r.guardPages * PageSize ≤ area → area % r.alignment = r.offset →
        r.areaIn b ≤ area := by
  have hend := hr.range.le_end
  have hregion := mul_pos hr.range.pos (show 0 < PageSize by decide)
  have hbound := hr.bound
  have hoffset := hr.offset
  have hpos : 0 < r.alignment := zero_lt_of_lt hoffset
  have hstart : (if b.address ≤ r.regionStart then r.regionStart else b.address) = max b.address r.regionStart := by
    rw [max_def]
  rw [Nat.add_mul, mul_assoc] at hbound
  simp only [PageSize] at *
  have hlow : max b.address r.regionStart + r.guardPages * 4096 < m.endAddress + r.guardPages * 4096 := by omega
  rw [areaIn, hstart, PageSize]
  generalize max b.address r.regionStart + r.guardPages * 4096 = low at hlow ⊢
  have hdown := Common.alignDown_le low r.alignment
  have habove := Common.lt_alignDown low hpos
  have hdvd := Common.dvd_alignDown low r.alignment
  rw [u64_of_lt (show low < 2 ^ 64 by omega), u64_of_lt (show alignDown low r.alignment + r.offset < 2 ^ 64 by omega)]
  obtain ⟨q, hq⟩ := hdvd
  rw [hq] at hdown habove ⊢
  have hleast : ∀ area, low ≤ area → area % r.alignment = r.offset →
      r.alignment * q + r.offset ≤ area ∧ (area ≠ r.alignment * q + r.offset →
        r.alignment * q + r.offset + r.alignment ≤ area) := by
    intro area harea hmod
    have hdiv := div_add_mod area r.alignment
    rw [hmod] at hdiv
    have hq' : q ≤ area / r.alignment := (le_div_iff_mul_le hpos).2 (by rw [mul_comm]; omega)
    obtain ⟨k, hk⟩ := Nat.exists_eq_add_of_le hq'
    rw [hk, mul_add] at hdiv
    refine ⟨by omega, fun hne => ?_⟩
    have hk' : k ≠ 0 := fun hzero => hne (by rw [hzero] at hdiv; omega)
    have := Nat.le_mul_of_pos_right r.alignment (Nat.pos_of_ne_zero hk')
    omega
  have hmod : (r.alignment * q + r.offset) % r.alignment = r.offset := by
    rw [mul_add_mod, mod_eq_of_lt hoffset]
  split_ifs with hle
  · exact ⟨hle, hmod, by omega, fun area harea hmod' => (hleast area harea hmod').1⟩
  · rw [u64_of_lt (by omega)]
    refine ⟨by omega, by rw [add_mod_right, hmod], by omega, fun area harea hmod' => ?_⟩
    exact (hleast area harea hmod').2 fun heq => by omega

/-- The checks of the loop are that the area fits. -/
theorem Within.fits_areaIn_iff (hb : b.address < m.endAddress) (hfree : b.memoryState = KMemoryState.free) :
    (b.address ≤ r.areaIn b ∧ r.areaIn b < r.areaLast (r.areaIn b) ∧ r.areaLast (r.areaIn b) ≤ r.regionLast ∧
      r.areaLast (r.areaIn b) ≤ b.lastAddress) ↔ r.Fits b (r.areaIn b) := by
  obtain ⟨hlow, hmod, hlt, -⟩ := hr.areaIn_spec hb
  generalize r.areaIn b = area at hlow hmod hlt ⊢
  have hbound := hr.bound
  have hpages : 4096 ≤ r.numPages * PageSize := Nat.le_mul_of_pos_left 4096 hr.pages
  have hall := Nat.add_mul r.numPages r.guardPages PageSize
  rw [Nat.add_mul, mul_assoc] at hbound
  have hsum : area + r.numPages * PageSize + r.guardPages * PageSize < 2 ^ 64 := by omega
  have hlast : r.areaLast area = area + (r.numPages + r.guardPages) * PageSize - 1 := by
    rw [areaLast, u64_of_lt (lt_of_le_of_lt (le_add_right _ _) hsum), u64_of_lt hsum, u64_last (by omega) hsum,
      hall, Nat.add_assoc]
  rw [hlast, hr.regionLast_eq, KMemoryBlock.lastAddress]
  constructor
  · rintro ⟨-, -, hregion, hblock⟩
    exact ⟨⟨hfree, hmod, ⟨by omega, by omega⟩, by omega, by omega⟩, by omega⟩
  · rintro ⟨⟨-, -, hregion, hblock⟩, -⟩
    exact ⟨by omega, by omega, by omega, by omega⟩

/-- A block has an area when the one that the loop looks at fits, which is the first. -/
theorem Within.areaIn_le (hb : b.address < m.endAddress) (h : r.Fits b area) :
    r.areaIn b ≤ area ∧ r.Fits b (r.areaIn b) := by
  obtain ⟨hlow, hmod, -, hleast⟩ := hr.areaIn_spec hb
  have hregion := h.inRegion
  have hblock := h.inBlock
  have hguarded := h.guarded
  have hle := hleast area (by omega) h.aligned
  exact ⟨hle, ⟨h.free, hmod, ⟨by omega, by omega⟩, by omega, by omega⟩, by omega⟩

/-- The area that is found is the first one of those that fit blocks of the list. -/
theorem Within.findFrom_spec (ht : Tiles s bs m.endAddress) :
    (r.findFrom bs = 0 ∧ ∀ b ∈ bs, ∀ area, ¬r.Fits b area) ∨
      (∃ b ∈ bs, r.Fits b (r.findFrom bs)) ∧ ∀ b ∈ bs, ∀ area, r.Fits b area → r.findFrom bs ≤ area := by
  induction bs generalizing s with
  | nil => exact .inl ⟨rfl, fun b hb => absurd hb not_mem_nil⟩
  | cons b rest ih =>
    have hin := ht.mem_bounds (mem_cons_self (a := b))
    simp only [KMemoryBlock.lo_eq, KMemoryBlock.hi_eq] at hin
    have hb : b.address < m.endAddress := by omega
    have hpos := mul_pos hr.pages (show 0 < PageSize by decide)
    have hafter : ∀ c ∈ rest, b.endAddress ≤ c.address := fun c hc => (ht.2.2.mem_bounds hc).1
    -- what fits no block is looked for in the rest
    have hskip (hno : ∀ area, ¬r.Fits b area) (heq : r.findFrom (b :: rest) = r.findFrom rest) :
        (r.findFrom (b :: rest) = 0 ∧ ∀ c ∈ b :: rest, ∀ area, ¬r.Fits c area) ∨
          (∃ c ∈ b :: rest, r.Fits c (r.findFrom (b :: rest))) ∧
            ∀ c ∈ b :: rest, ∀ area, r.Fits c area → r.findFrom (b :: rest) ≤ area := by
      rw [heq]
      refine (ih ht.2.2).imp (fun h => ⟨h.1, forall_mem_cons.2 ⟨hno, h.2⟩⟩) fun ⟨⟨c, hc, hfits⟩, hleast⟩ => ?_
      exact ⟨⟨c, mem_cons_of_mem b hc, hfits⟩,
        forall_mem_cons.2 ⟨fun area h => absurd h (hno area), hleast⟩⟩
    by_cases hpast : r.regionLast < b.address
    · refine .inl ⟨if_pos hpast, fun c hc area h => ?_⟩
      have hle : b.address ≤ c.address := by
        rcases mem_cons.1 hc with rfl | hc
        · exact le_rfl
        · have := hafter c hc
          omega
      have hregion := h.inRegion.2
      have hblock := h.inBlock.1
      rw [hr.regionLast_eq] at hpast
      rw [Nat.add_mul] at hregion
      omega
    by_cases hfree : b.memoryState = KMemoryState.free
    · have hiff := hr.fits_areaIn_iff hb hfree
      by_cases hfits : r.Fits b (r.areaIn b)
      · have heq : r.findFrom (b :: rest) = r.areaIn b := by
          rw [findFrom, if_neg hpast, if_neg (not_not.2 hfree), if_pos (hiff.2 hfits)]
        rw [heq]
        refine .inr ⟨⟨b, mem_cons_self, hfits⟩, forall_mem_cons.2
          ⟨fun area h => (hr.areaIn_le hb h).1, fun c hc area h => ?_⟩⟩
        have := hafter c hc
        have hblock := h.inBlock.1
        have hblock' := hfits.inBlock.2
        omega
      · refine hskip (fun area h => hfits (hr.areaIn_le hb h).2) ?_
        rw [findFrom, if_neg hpast, if_neg (not_not.2 hfree), if_neg (hfits ∘ hiff.1)]
    · exact hskip (fun area h => hfree h.free) (by rw [findFrom, if_neg hpast, if_pos hfree])

end

end AreaRequest

/-- **`FindFreeArea` finds the first free area of a region**, if there is one. -/
theorem KMemoryBlockManager.WellFormed.findFreeArea_first {m : KMemoryBlockManager} {r : AreaRequest}
    (hm : m.WellFormed) (hr : r.Within m) :
    (m.findFreeArea r = 0 ∧ ∀ b ∈ m.memoryBlockTree, ∀ area, ¬r.Fits b area) ∨
      (∃ b ∈ m.memoryBlockTree, r.Fits b (m.findFreeArea r)) ∧
        ∀ b ∈ m.memoryBlockTree, ∀ area, r.Fits b area → m.findFreeArea r ≤ area := by
  have hpos := mul_pos hr.pages (show 0 < PageSize by decide)
  have hregion := mul_pos hr.range.pos (show 0 < PageSize by decide)
  have hlt : r.regionStart < m.endAddress := lt_of_lt_of_le (Nat.lt_add_of_pos_right hregion) hr.range.le_end
  obtain ⟨before, b, after, hfound, htree, hcovers⟩ := findIterator_eq hm.tiles hr.range.start_le hlt
  obtain ⟨t, hbefore, htiles⟩ := tiles_append.1 (htree ▸ hm.tiles)
  obtain rfl := htiles.1
  -- blocks that end before the region fit nothing
  have hno : ∀ c ∈ before, ∀ area, ¬r.Fits c area := fun c hc area h => by
    have hend := (hbefore.mem_bounds hc).2.2
    have hstart := hcovers.1
    have hfirst := h.inRegion.1
    have hlast := h.inBlock.2
    rw [KMemoryBlock.hi_eq] at hend
    rw [Nat.add_mul] at hlast
    omega
  rw [findFreeArea, if_pos hr.pages, hfound, htree]
  refine (hr.findFrom_spec htiles).imp (fun h => ⟨h.1, ?_⟩) fun ⟨⟨c, hc, hfits⟩, hleast⟩ =>
    ⟨⟨c, mem_append_right before hc, hfits⟩, ?_⟩
  · exact forall_mem_append.2 ⟨hno, h.2⟩
  · exact forall_mem_append.2 ⟨fun c hc area h => absurd h (hno c hc area), hleast⟩

namespace AreaRequest

/-- A request whose slack, alignment and offset leave every candidate in the region. -/
structure Random (r : AreaRequest) (m : KMemoryBlockManager) : Prop extends r.Within m where
  slack : r.numPages + r.guardPages ≤ r.regionNumPages
  start : r.alignment ∣ m.startAddress
  inside : r.offset < (r.numPages + r.guardPages) * PageSize

variable {r : AreaRequest} {m : KMemoryBlockManager} (hm : m.WellFormed) (hr : r.Random m)

include hr

theorem Random.slack_eq : r.slack = r.regionNumPages - r.numPages - r.guardPages := by
  have hslack := hr.slack
  have hend := hr.range.le_end
  have hbound := hr.bound
  rw [AreaRequest.slack, u64]
  omega

include hm

/-- **A candidate that is taken is placed in a free block**, whatever the random words. -/
theorem Random.tryFrom_spec (words : List ℕ) : (r.tryFrom m words).wp fun area held => held = true ∧
    (area = 0 ∨ ∃ b ∈ m.memoryBlockTree, r.Placed b area) := by
  induction words with
  | nil => exact wp_ret.2 ⟨rfl, .inl rfl⟩
  | cons word words ih =>
    have hend : r.regionStart + r.regionNumPages * PageSize ≤ m.endAddress := hr.range.le_end
    have hstart := hr.range.start_le
    have hbound := hr.bound
    have hoffset := hr.offset
    have hinside := hr.inside
    have hpos : 0 < r.alignment := zero_lt_of_lt hoffset
    have hroom : (r.regionNumPages - r.numPages - r.guardPages) * PageSize + (r.numPages + r.guardPages) * PageSize =
        r.regionNumPages * PageSize := by
      rw [← Nat.add_mul, Nat.sub_sub, Nat.sub_add_cancel hr.slack]
    have hall := Nat.add_mul r.numPages r.guardPages PageSize
    rw [Nat.add_mul, mul_assoc] at hbound
    rw [tryFrom, hr.slack_eq, u64_of_lt (n := _ * PageSize) (by omega)]
    have hrandom : generateRandomRange word 0 ((r.regionNumPages - r.numPages - r.guardPages) * PageSize / r.alignment) *
        r.alignment ≤ (r.regionNumPages - r.numPages - r.guardPages) * PageSize := by
      refine (Nat.mul_le_mul_right _ ?_).trans (Nat.div_mul_le_self _ _)
      rw [generateRandomRange, Nat.zero_add]
      exact le_of_lt_succ (mod_lt _ (succ_pos _))
    generalize generateRandomRange word 0 _ * r.alignment = randomOffset at hrandom ⊢
    have hdown := Common.alignDown_le (r.regionStart + randomOffset) r.alignment
    have hlow : m.startAddress ≤ alignDown (r.regionStart + randomOffset) r.alignment := by
      obtain ⟨k, hk⟩ := hr.start
      rw [Common.alignDown_eq, hk, mul_comm]
      exact Nat.mul_le_mul_right _ ((le_div_iff_mul_le hpos).2 (by rw [mul_comm, ← hk]; omega))
    obtain ⟨q, hq⟩ := Common.dvd_alignDown (r.regionStart + randomOffset) r.alignment
    rw [u64_of_lt (n := randomOffset) (by omega), u64_of_lt (n := r.regionStart + _) (by omega),
      u64_of_lt (n := alignDown _ _ + _) (by omega), u64_last (by omega) (by omega), hr.regionLast_eq]
    have hmod : (alignDown (r.regionStart + randomOffset) r.alignment + r.offset) % r.alignment = r.offset := by
      rw [hq, mul_add_mod, mod_eq_of_lt hoffset]
    generalize hcandidate : alignDown (r.regionStart + randomOffset) r.alignment + r.offset = candidate at hmod ⊢
    -- the candidate is in the space
    obtain ⟨info, hfound⟩ : ∃ info, m.findBlock candidate = some info := by
      refine Option.isSome_iff_exists.1 ?_
      rw [← Option.isSome_map, ← KMemoryBlockManager.pageInfo, KMemoryBlockManager.pageInfo_isSome hm.tiles]
      exact ⟨by omega, by omega⟩
    have hmem := mem_of_find?_eq_some hfound
    obtain ⟨-, hlt, hle⟩ := hm.tiles.mem_bounds hmem
    rw [KMemoryBlock.lo_eq, KMemoryBlock.hi_eq] at hlt
    rw [KMemoryBlock.hi_eq] at hle
    rw [hfound]
    dsimp only
    rw [u64_of_lt (n := info.address + _) (by omega), KMemoryBlock.lastAddress]
    split_ifs with hchecks
    · obtain ⟨hfree, hregion, hguard, hblock, hlast⟩ := hchecks
      exact wp_ret.2 ⟨rfl, .inr ⟨info, hmem, hfree, hmod, ⟨hregion, by omega⟩, hguard, by omega⟩⟩
    · exact ih

theorem Random.findRandomly_spec (words : ℕ → ℕ) : (r.findRandomly m words).wp fun area held => held = true ∧
    (area = 0 ∨ ∃ b ∈ m.memoryBlockTree, r.Placed b area) := by
  rw [findRandomly, wp_bind]
  refine wp_mono (hr.tryFrom_spec hm _) ?_
  rintro area held ⟨rfl, harea⟩
  split_ifs with hzero
  · have hle : generateRandomRange (words 8) 0 (r.regionNumPages - r.numPages - r.guardPages) ≤
        r.regionNumPages - r.numPages - r.guardPages := by
      rw [generateRandomRange, Nat.zero_add]
      exact le_of_lt_succ (mod_lt _ (succ_pos _))
    rw [hr.slack_eq]
    dsimp only
    generalize generateRandomRange (words 8) 0 _ = offsetPages at hle ⊢
    have hslack := hr.slack
    have hpages := hr.pages
    have hend := hr.range.le_end
    have hbound := hr.bound
    have hstart := hr.range.start_le
    have haligned := hr.range.aligned
    have hoffset := hr.offset
    have hmul := Nat.mul_le_mul_right 4096 (show offsetPages ≤ r.regionNumPages by omega)
    have hsum : r.regionStart + offsetPages * PageSize + (r.regionNumPages - offsetPages) * PageSize =
        r.regionStart + r.regionNumPages * PageSize := by
      rw [Nat.add_assoc, ← Nat.add_mul, Nat.add_sub_cancel' (by omega)]
    rw [u64_of_lt (show r.regionStart + offsetPages * 4096 < 2 ^ 64 by omega),
      show u64 (r.regionNumPages + 2 ^ 64 - offsetPages) = r.regionNumPages - offsetPages by rw [u64]; omega]
    have hwithin : Within { r with
        regionStart := r.regionStart + offsetPages * PageSize
        regionNumPages := r.regionNumPages - offsetPages } m := by
      refine ⟨⟨?_, ?_, ?_, hsum.trans_le hend⟩, hpages, hoffset, hbound⟩ <;> simp only [PageSize] <;> omega
    refine wp_ret.2 ⟨rfl, (hm.findFreeArea_first hwithin).imp (fun h => h.1) ?_⟩
    rintro ⟨⟨b, hb, hfits⟩, -⟩
    exact ⟨b, hb, hfits.free, hfits.aligned, ⟨(le_add_right _ _).trans hfits.inRegion.1,
      hfits.inRegion.2.trans_eq hsum⟩, hfits.inBlock⟩
  · exact wp_ret.2 ⟨rfl, harea⟩

end AreaRequest

/-- **`FindFreeArea` places its area in one free block of the region**, with the guards on both sides, whatever the
random words; it finds none only when none fits, and without randomization none in front of it fits. -/
theorem KPageTableBase.findFreeArea_places {r : AreaRequest} {m : KMemoryBlockManager} (hm : m.WellFormed)
    (hr : r.Random m) (isAslrEnabled : Bool) (words : ℕ → ℕ) :
    (findFreeArea m r isAslrEnabled words).wp fun area held => held = true ∧
      ((area = 0 ∧ ∀ b ∈ m.memoryBlockTree, ∀ a, ¬r.Fits b a) ∨ ∃ b ∈ m.memoryBlockTree, r.Placed b area) ∧
        (isAslrEnabled = false → ∀ b ∈ m.memoryBlockTree, ∀ a, r.Fits b a → area ≤ a) := by
  have hslack := hr.slack
  have hfirst := hm.findFreeArea_first hr.toWithin
  rw [findFreeArea, if_pos (by omega), wp_bind]
  have hrandom : (if isAslrEnabled then r.findRandomly m words else pure 0 : Exec ℕ).wp fun area held =>
      held = true ∧ (area = 0 ∨ isAslrEnabled = true ∧ ∃ b ∈ m.memoryBlockTree, r.Placed b area) := by
    cases isAslrEnabled with
    | false => exact wp_ret.2 ⟨rfl, .inl rfl⟩
    | true => exact wp_mono (hr.findRandomly_spec hm words) fun area held h => ⟨h.1, h.2.imp id fun h => ⟨rfl, h⟩⟩
  refine wp_mono hrandom fun area held ⟨hheld, harea⟩ => ?_
  rw [hheld]
  split_ifs with hzero
  · refine wp_ret.2 ⟨rfl, hfirst.imp id fun ⟨⟨b, hb, hfits⟩, _⟩ => ⟨b, hb, hfits.toPlaced⟩, fun _ b hb a ha => ?_⟩
    exact hfirst.elim (fun h => absurd ha (h.2 b hb a)) fun h => h.2 b hb a ha
  · obtain ⟨haslr, hplaced⟩ := harea.resolve_left hzero
    exact wp_ret.2 ⟨rfl, .inr hplaced, fun hfalse => absurd (haslr.symm.trans hfalse) Bool.noConfusion⟩

/-- A space of which nothing is used. -/
def unusedSpace : KMemoryBlockManager := .initialized 0x200000 0x600000

/-- Four pages, with four on each side. -/
def fourPages : AreaRequest := ⟨0x200000, 1024, 4, 0x1000, 0, 4⟩

/-- The area that is found there, with the powers of two for random words. -/
theorem findFreeArea_places_unused : ∃ area,
    KPageTableBase.findFreeArea unusedSpace fourPages true (fun i => 2 ^ i) = .ret area true ∧
      ((area = 0 ∧ ∀ b ∈ unusedSpace.memoryBlockTree, ∀ a, ¬fourPages.Fits b a) ∨
        ∃ b ∈ unusedSpace.memoryBlockTree, fourPages.Placed b area) := by
  have hm : unusedSpace.WellFormed :=
    KMemoryBlockManager.initialized_wellFormed (by decide) (by decide) (by decide) (by decide)
  have hrandom : fourPages.Random unusedSpace :=
    ⟨⟨⟨by decide, by decide, by decide, by decide⟩, by decide, by decide, by decide⟩, by decide, by decide, by decide⟩
  obtain ⟨area, held, hrun, hheld, hfound, -⟩ := KPageTableBase.findFreeArea_places hm hrandom true _
  exact ⟨area, by rw [hrun, hheld], hfound⟩

end Kernel
end NXEmu
