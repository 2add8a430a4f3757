/-
# Page groups of a page table

`KPageTableBase::MakePageGroup` and `IsValidPageGroup` both walk through a range of the page table
(`yuzu_common/page_table.cpp`) and join the pages that go on where the last one ends.  The first adds each run
of pages to an empty group; the second compares each run with the blocks of a given group, of which it takes
off what it has compared.

The blocks of the group that is made are the maximal runs of the physical pages (`makeFrom_spec`), and the
comparison is true exactly for the groups whose blocks begin with these (`validFrom_iff`): a block that is longer
than its run fails at the end of the next run, which begins elsewhere.  A group with the right number of pages
has no more blocks than that.

An entry of the page table is the physical address less the virtual one, in 64 bits, as `MapPages` of
`nxemu-os/core/memory.cpp` leaves it, and the traversal takes one that is zero for not mapped.  So it does not
find a page that is mapped at its own address: there both functions fail, and on all other maps they agree
(`MappedRange.agree_iff`).  Every entry is a page, since the tables are resized with `PageBits`.  The region that
is cached for `IsHeapPhysicalAddress` is left out: it is always one of the regions of the pools.
-/

import NXEmu.Lib.Runs
import NXEmu.Kernel.MemoryManagerPages

variable {b : KPageTableBase} {pg : KPageGroup} {cur : BlockCursor} {i : ℕ}

namespace NXEmu
namespace Kernel

open Runs Exec List

/-! ### The layout of the memory -/

/-- `KMemoryRegion` -/
structure KMemoryRegion where
  address : ℕ
  lastAddress : ℕ
  typeId : ℕ

/-- `KMemoryRegionType_DramUserPool`: its number with `LinearMapped` and `NoUserMap`. -/
def dramUserPool : ℕ := 0x266 ||| 0x80000000 ||| 0x40000000

namespace KMemoryRegion

/-- `Contains` -/
def contains (r : KMemoryRegion) (addr : ℕ) : Bool := r.address ≤ addr && addr ≤ r.lastAddress

/-- `IsDerivedFrom` -/
def isDerivedFrom (r : KMemoryRegion) (type : ℕ) : Bool := (r.typeId ||| type) == r.typeId

end KMemoryRegion

/-- `KMemoryLayout`: the tree of the linear physical regions.  The pools are in the memory, which is neither at
zero nor past what the 32 bits of a page's index reach. -/
structure KMemoryLayout where
  physicalLinearTree : List KMemoryRegion
  pools : ∀ r ∈ physicalLinearTree, r.isDerivedFrom dramUserPool = true → 0 < r.address ∧ r.lastAddress < 2 ^ 44

/-- `IsHeapPhysicalAddress` -/
def KMemoryLayout.isHeapPhysicalAddress (l : KMemoryLayout) (address : ℕ) : Bool :=
  match l.physicalLinearTree.find? fun r => r.contains address with
  | some found => found.isDerivedFrom dramUserPool
  | none => false

/-! ### Traversal of a page table -/

/-- `Common::PageTable`, whose entries have 64 bits, and which maps pages to pages. -/
structure PageTable where
  backingAddr : ℕ → ℕ
  size : ℕ
  aligned : ∀ page, PageSize ∣ backingAddr page

/-- `TraversalEntry` -/
structure TraversalEntry where
  physAddr : ℕ
  blockSize : ℕ

/-- `TraversalContext` -/
structure TraversalContext where
  nextPage : ℕ
  nextOffset : ℕ

/-- Which physical address the pages are mapped to, by their number: what a page table stands for. -/
abbrev PageMap : Type := ℕ → Option ℕ

/-- The physical pages that a map has for a range, in their order. -/
def PageMap.pages (m : PageMap) (addr numPages : ℕ) : List ℕ :=
  (List.range numPages).filterMap fun i => m (addr / PageSize + i)

/-- No page is mapped. -/
def PageMap.empty : PageMap := fun _ => none

/-- The map in which a range of pages goes to the pages from the target on; without a target, to none. -/
def PageMap.mapPages (m : PageMap) (base size target : ℕ) : PageMap := fun page =>
  if base ≤ page ∧ page < base + size then
    if target = 0 then none else some (target + (page - base) * PageSize)
  else m page

namespace PageTable

/-- The entry of a page, `target.GetValue() - (base << YUZU_PAGEBITS)`. -/
def entry (target base : ℕ) : ℕ := (target + (2 ^ 64 - base * PageSize % 2 ^ 64)) % 2 ^ 64

theorem dvd_entry {target : ℕ} (htarget : PageSize ∣ target) (base : ℕ) : PageSize ∣ entry target base := by
  have hbase : PageSize ∣ base * PageSize % 2 ^ 64 := (Nat.dvd_mod_iff (by decide)).2 (Nat.dvd_mul_left _ _)
  exact (Nat.dvd_mod_iff (by decide)).2 (Nat.dvd_add htarget (Nat.dvd_sub (by decide) hbase))

/-- `Resize`, of a new table: no page is mapped. -/
def resize (size : ℕ) : PageTable := ⟨fun _ => 0, size, fun _ => Nat.dvd_zero _⟩

/-- `MapPages`, by which pages are unmapped when there is no target. -/
def mapPages (t : PageTable) (base size target : ℕ) (htarget : PageSize ∣ target) : PageTable where
  backingAddr page :=
    if base ≤ page ∧ page < base + size then
      if target = 0 then 0 else entry (target + (page - base) * PageSize) page
    else t.backingAddr page
  size := t.size
  aligned page := by
    split_ifs
    · exact Nat.dvd_zero _
    · exact dvd_entry (Nat.dvd_add htarget (Nat.dvd_mul_left _ _)) _
    · exact t.aligned page

/-- The table has the entries of a map. -/
def Holds (t : PageTable) (m : PageMap) : Prop :=
  ∀ page < t.size, t.backingAddr page = ((m page).map fun target => entry target page).getD 0

theorem holds_resize (size : ℕ) : (resize size).Holds .empty := fun _ _ => rfl

/-- **`MapPages` maps its range and nothing else.** -/
theorem Holds.mapPages {t : PageTable} {m : PageMap} (h : t.Holds m) (base size target : ℕ)
    (htarget : PageSize ∣ target) : (t.mapPages base size target htarget).Holds (m.mapPages base size target) := by
  intro page hpage
  dsimp only [PageTable.mapPages, PageMap.mapPages]
  split_ifs
  · rfl
  · rfl
  · exact h page hpage

theorem entry_eq_zero_iff {target base : ℕ} (htarget : target < 2 ^ 64) (hbase : base * PageSize < 2 ^ 64) :
    entry target base = 0 ↔ target = base * PageSize := by
  rw [entry, Nat.mod_eq_of_lt hbase]
  omega

theorem entry_add {target base : ℕ} (htarget : target < 2 ^ 64) (hbase : base * PageSize < 2 ^ 64) :
    (entry target base + base * PageSize) % 2 ^ 64 = target := by
  rw [entry, Nat.mod_eq_of_lt hbase]
  omega

/-- `ContinueTraversal`: the entry, if there is one, and the context, which advances in any case. -/
def continueTraversal (t : PageTable) (context : TraversalContext) : Option TraversalEntry × TraversalContext :=
  (if t.size ≤ context.nextPage ∨ t.backingAddr context.nextPage = 0 then none
   else some ⟨(t.backingAddr context.nextPage + context.nextOffset) % 2 ^ 64, PageSize⟩,
   ⟨context.nextPage + 1, context.nextOffset + PageSize⟩)

/-- `BeginTraversal` -/
def beginTraversal (t : PageTable) (address : ℕ) : Option TraversalEntry × TraversalContext :=
  t.continueTraversal ⟨address / PageSize, address⟩

end PageTable

/-- The tracking variables of both walks. -/
structure Tracking where
  context : TraversalContext
  curAddr : ℕ
  curSize : ℕ
  totSize : ℕ

namespace Tracking

/-- The traversal begins. -/
def begun (t : PageTable) (addr : ℕ) : Option Tracking :=
  match t.beginTraversal addr with
  | (none, _) => none
  | (some nextEntry, context) =>
    let curSize := nextEntry.blockSize - (nextEntry.physAddr &&& (nextEntry.blockSize - 1))
    some ⟨context, nextEntry.physAddr, curSize, curSize⟩

/-- The next entry does not go on where the last one ends. -/
def Breaks (k : Tracking) (nextEntry : TraversalEntry) : Prop :=
  nextEntry.physAddr ≠ (k.curAddr + k.curSize) % 2 ^ 64

instance (k : Tracking) (nextEntry : TraversalEntry) : Decidable (k.Breaks nextEntry) :=
  inferInstanceAs (Decidable (_ ≠ _))

/-- A run begins at the entry. -/
def restart (k : Tracking) (context : TraversalContext) (nextEntry : TraversalEntry) : Tracking :=
  ⟨context, nextEntry.physAddr, nextEntry.blockSize, k.totSize + nextEntry.blockSize⟩

/-- The run goes on with the entry. -/
def extend (k : Tracking) (context : TraversalContext) (nextEntry : TraversalEntry) : Tracking :=
  ⟨context, k.curAddr, k.curSize + nextEntry.blockSize, k.totSize + nextEntry.blockSize⟩

/-- The right amount for the last block. -/
def last (k : Tracking) (size : ℕ) : Tracking :=
  if size < k.totSize then { k with curSize := k.curSize - (k.totSize - size) } else k

end Tracking

/-- The results of `MakePageGroup`, one of which is that of `AddBlock`. -/
inductive PageGroupResult where
  | invalidCurrentMemory
  | addBlock (result : AllocationResult)
deriving DecidableEq

/-- `R_SUCCEED` -/
def PageGroupResult.success : PageGroupResult := .addBlock .success

/-- `KPageTableBase` -/
structure KPageTableBase where
  impl : PageTable
  layout : KMemoryLayout

namespace KPageTableBase

variable (b : KPageTableBase)

/-- Add the run to the group, if it is in the heap. -/
def addRun (k : Tracking) (pg : KPageGroup) : Exec (PageGroupResult × KPageGroup) :=
  if b.layout.isHeapPhysicalAddress k.curAddr = false then return (.invalidCurrentMemory, pg)
  else do
    let (result, pg) ← pg.addBlock k.curAddr (k.curSize / PageSize)
    return (.addBlock result, pg)

/-- The loop of `MakePageGroup` and what follows it.  Every round adds a page, so that as many rounds as there
are pages are enough. -/
def makeFrom (size : ℕ) : (rounds : ℕ) → Tracking → KPageGroup → Exec (PageGroupResult × KPageGroup)
  | 0, k, pg => b.addRun (k.last size) pg
  | rounds + 1, k, pg =>
    if k.totSize < size then
      match b.impl.continueTraversal k.context with
      | (none, _) => return (.invalidCurrentMemory, pg)
      | (some nextEntry, context) =>
        if k.Breaks nextEntry then do
          let (result, pg) ← b.addRun k pg
          if result ≠ .success then return (result, pg)
          else makeFrom size rounds (k.restart context nextEntry) pg
        else makeFrom size rounds (k.extend context nextEntry) pg
    else b.addRun (k.last size) pg

/-- `MakePageGroup`: the runs of physical pages of a range, as the blocks of an empty group. -/
def makePageGroup (pg : KPageGroup) (addr numPages : ℕ) : Exec (PageGroupResult × KPageGroup) :=
  if pg.blocks ≠ [] then return (.invalidCurrentMemory, pg)
  else match Tracking.begun b.impl addr with
    | none => return (.invalidCurrentMemory, pg)
    | some k => b.makeFrom (numPages * PageSize) numPages k pg

end KPageTableBase

/-- The block that `IsValidPageGroup` compares, of which it takes off, and those after it. -/
structure BlockCursor where
  rest : List KBlockInfo
  curBlockAddress : ℕ
  curBlockPages : ℕ

namespace BlockCursor

/-- The first of the blocks. -/
def load : List KBlockInfo → Option BlockCursor
  | [] => none
  | block :: rest => some ⟨rest, block.getAddress, block.numPages⟩

/-- `UpdateCurrentIterator` -/
def updated (cur : BlockCursor) : Option BlockCursor := if cur.curBlockPages = 0 then load cur.rest else some cur

end BlockCursor

namespace KPageTableBase

variable (b : KPageTableBase)

/-- The last comparison of `IsValidPageGroup`. -/
def validLast (k : Tracking) (cur : BlockCursor) : Bool :=
  if b.layout.isHeapPhysicalAddress k.curAddr = false then false
  else match cur.updated with
    | none => false
    | some cur => cur.curBlockAddress == k.curAddr && cur.curBlockPages == k.curSize / PageSize

/-- The loop of `IsValidPageGroup` and what follows it. -/
def validFrom (size : ℕ) : (rounds : ℕ) → Tracking → BlockCursor → Bool
  | 0, k, cur => b.validLast (k.last size) cur
  | rounds + 1, k, cur =>
    if k.totSize < size then
      match b.impl.continueTraversal k.context with
      | (none, _) => false
      | (some nextEntry, context) =>
        if k.Breaks nextEntry then
          let curPages := k.curSize / PageSize
          if b.layout.isHeapPhysicalAddress k.curAddr = false then false
          else match cur.updated with
            | none => false
            | some cur =>
              if cur.curBlockAddress ≠ k.curAddr ∨ cur.curBlockPages < curPages then false
              else validFrom size rounds (k.restart context nextEntry)
                ⟨cur.rest, cur.curBlockAddress + k.curSize, cur.curBlockPages - curPages⟩
        else validFrom size rounds (k.extend context nextEntry) cur
    else b.validLast (k.last size) cur

/-- `IsValidPageGroup`: the blocks of the group are the physical pages of the range. -/
def isValidPageGroup (pg : KPageGroup) (addr numPages : ℕ) : Bool :=
  match BlockCursor.load pg.blocks with
  | none => false
  | some cur =>
    match Tracking.begun b.impl addr with
    | none => false
    | some k => b.validFrom (numPages * PageSize) numPages k cur

end KPageTableBase

/-- The loop of `IsEquivalentTo`. -/
def equivalentBlocks : List KBlockInfo → List KBlockInfo → Bool
  | lhs :: ls, rhs :: rs => if lhs ≠ rhs then false else equivalentBlocks ls rs
  | [], [] => true
  | _, _ => false

/-- `IsEquivalentTo` -/
def KPageGroup.isEquivalentTo (g rhs : KPageGroup) : Bool := equivalentBlocks g.blocks rhs.blocks

theorem equivalentBlocks_iff (ls rs : List KBlockInfo) : equivalentBlocks ls rs = true ↔ ls = rs := by
  induction ls generalizing rs with
  | nil => cases rs <;> simp [equivalentBlocks]
  | cons lhs ls ih =>
    cases rs with
    | nil => simp [equivalentBlocks]
    | cons rhs rs =>
      rw [equivalentBlocks, cons.injEq]
      by_cases hsame : lhs = rhs
      · rw [if_neg (not_not.2 hsame), ih]
        exact ⟨fun h => ⟨hsame, h⟩, fun h => h.2⟩
      · rw [if_pos hsame]
        exact ⟨fun h => absurd h Bool.false_ne_true, fun h => absurd h.1 hsame⟩

/-! ### The runs of pages -/

variable {l : KMemoryLayout} {t : PageTable} {a n p x addr size rounds tot numPages : ℕ} {ps : List ℕ}
  {context : TraversalContext} {bs : List KBlockInfo}

/-- The page that is so many pages after another one. -/
def pageAfter (a k : ℕ) : ℕ := a + k * PageSize

/-- The blocks of a group for the runs of a list of pages, of which the first `n` begin at `a`. -/
def runBlocks (a n : ℕ) (ps : List ℕ) : List KBlockInfo :=
  (runs pageAfter a n ps).map fun run => ⟨run.1 / PageSize, run.2⟩

theorem runBlocks_nil (a n : ℕ) : runBlocks a n [] = [⟨a / PageSize, n⟩] := rfl

theorem runBlocks_cons (a n p : ℕ) (ps : List ℕ) : runBlocks a n (p :: ps) =
    if p = a + n * PageSize then runBlocks a (n + 1) ps else ⟨a / PageSize, n⟩ :: runBlocks p 1 ps := by
  rw [runBlocks, runs]
  split_ifs with hnext hnext' hnext'
  · rfl
  · exact absurd hnext hnext'
  · exact absurd hnext' hnext
  · rfl

theorem length_runBlocks_le (a n : ℕ) (ps : List ℕ) : (runBlocks a n ps).length ≤ ps.length + 1 := by
  rw [runBlocks, length_map]
  exact length_runs_le pageAfter a n ps

theorem sum_runBlocks (a n : ℕ) (ps : List ℕ) :
    ((runBlocks a n ps).map KBlockInfo.numPages).sum = n + ps.length := by
  rw [runBlocks, map_map]
  exact sum_runs pageAfter a n ps

/-- A page of the heap. -/
structure KMemoryLayout.HeapPage (l : KMemoryLayout) (p : ℕ) : Prop where
  aligned : PageSize ∣ p
  heap : l.isHeapPhysicalAddress p = true

theorem KMemoryLayout.HeapPage.inside (h : l.HeapPage p) : 0 < p ∧ p + PageSize ≤ 2 ^ 44 := by
  have hheap := h.heap
  rw [KMemoryLayout.isHeapPhysicalAddress] at hheap
  cases hfound : l.physicalLinearTree.find? fun r => r.contains p with
  | none => rw [hfound] at hheap; exact absurd hheap Bool.false_ne_true
  | some found =>
    rw [hfound] at hheap
    obtain ⟨hfirst, hlast⟩ := l.pools found (mem_of_find?_eq_some hfound) hheap
    have hcontains := find?_some hfound
    rw [KMemoryRegion.contains, Bool.and_eq_true, decide_eq_true_eq, decide_eq_true_eq] at hcontains
    obtain ⟨q, rfl⟩ := h.aligned
    simp only [PageSize] at *
    omega

/-- A run of `n` pages from `a` and the pages after it. -/
structure RunOfPages (l : KMemoryLayout) (a n : ℕ) (ps : List ℕ) : Prop where
  first : l.HeapPage a
  pos : 0 < n
  finish : a + n * PageSize ≤ 2 ^ 44
  rest : ∀ p ∈ ps, l.HeapPage p

namespace RunOfPages

theorem extend (h : RunOfPages l a n (p :: ps)) (hp : p = a + n * PageSize) : RunOfPages l a (n + 1) ps := by
  refine ⟨h.first, Nat.succ_pos n, ?_, fun q hq => h.rest q (mem_cons_of_mem p hq)⟩
  have hinside := (h.rest p mem_cons_self).inside.2
  rw [Nat.succ_mul, ← Nat.add_assoc, ← hp]
  exact hinside

theorem single (hp : l.HeapPage p) (hps : ∀ q ∈ ps, l.HeapPage q) : RunOfPages l p 1 ps :=
  ⟨hp, Nat.one_pos, by rw [Nat.one_mul]; exact hp.inside.2, hps⟩

theorem restart (h : RunOfPages l a n (p :: ps)) : RunOfPages l p 1 ps :=
  single (h.rest p mem_cons_self) fun q hq => h.rest q (mem_cons_of_mem p hq)

/-- The addresses have 64 bits. -/
theorem breaks_iff (h : RunOfPages l a n ps) {blockSize : ℕ} :
    Tracking.Breaks ⟨context, a, n * PageSize, tot⟩ ⟨p, blockSize⟩ ↔ p ≠ a + n * PageSize := by
  have hfinish := h.finish
  show p ≠ (a + n * PageSize) % 2 ^ 64 ↔ _
  rw [Nat.mod_eq_of_lt (by omega)]

theorem count (n : ℕ) : n * PageSize / PageSize = n := Nat.mul_div_cancel n (by decide)

end RunOfPages

/-- The pages that are traversed from a context on. -/
def Traversed (t : PageTable) : TraversalContext → List ℕ → Prop
  | _, [] => True
  | context, p :: ps => ∃ context', t.continueTraversal context = (some ⟨p, PageSize⟩, context') ∧
      Traversed t context' ps

/-! ### The group that is made -/

theorem addRun_spec (h : RunOfPages b.layout a n ps)
    (hpg : ∀ block ∈ pg.blocks, block.Fits) (hapart : ∀ last, pg.blocks.getLast? = some last → a ≠ last.finish) :
    wp (b.addRun ⟨context, a, n * PageSize, tot⟩ pg) fun r held => held = true ∧
      ((r.1 = .success ∧ r.2.blocks = pg.blocks ++ [⟨a / PageSize, n⟩] ∧ pg.infos ≤ r.2.infos + 1) ∨
        (r.1 ≠ .success ∧ pg.infos = 0)) := by
  have hadd := KPageGroup.addBlock_spec hpg h.first.aligned h.first.inside.1 h.pos h.finish
  rw [KPageTableBase.addRun, if_neg (by rw [h.first.heap]; decide), RunOfPages.count, wp_bind]
  refine wp_mono hadd ?_
  rintro ⟨result, pg'⟩ held ⟨rfl, ⟨rfl, hadded, hinfos⟩ | ⟨hfailed, -, hinfos⟩⟩
  · refine wp_ret.2 ⟨rfl, .inl ⟨rfl, ?_, hinfos⟩⟩
    cases hadded with
    | concatenated before last hblocks hmeets _ =>
      exact absurd hmeets (hapart last (by rw [hblocks, getLast?_concat]))
    | appended _ hblocks => exact hblocks
  · exact wp_ret.2 ⟨rfl, .inr ⟨fun hsuccess => hfailed (PageGroupResult.addBlock.inj hsuccess), hinfos⟩⟩

/-- What `MakePageGroup` does with a run and the pages after it. -/
structure Makes (pg : KPageGroup) (blocks : List KBlockInfo) (r : PageGroupResult × KPageGroup) (held : Bool) :
    Prop where
  held : held = true
  added : r.1 = .success → r.2.blocks = pg.blocks ++ blocks
  enough : blocks.length ≤ pg.infos → r.1 = .success

/-- The last run. -/
theorem makeLast_spec (h : RunOfPages b.layout a n [])
    (hpg : ∀ block ∈ pg.blocks, block.Fits) (hapart : ∀ last, pg.blocks.getLast? = some last → a ≠ last.finish) :
    wp (b.addRun (Tracking.last ⟨context, a, n * PageSize, size⟩ size) pg) (Makes pg (runBlocks a n [])) := by
  rw [Tracking.last, if_neg (lt_irrefl size)]
  refine wp_mono (addRun_spec h hpg hapart) ?_
  rintro r held ⟨rfl, ⟨hsuccess, hblocks, -⟩ | ⟨hfailed, hinfos⟩⟩
  · exact ⟨rfl, fun _ => hblocks, fun _ => hsuccess⟩
  · refine ⟨rfl, fun hsuccess => absurd hsuccess hfailed, fun henough => ?_⟩
    rw [runBlocks_nil, hinfos] at henough
    exact absurd henough (Nat.not_succ_le_zero _)

/-- After a run was added, the next one begins elsewhere. -/
theorem apart_of_added {blocks : List KBlockInfo} (haligned : PageSize ∣ a)
    (hblocks : pg.blocks = blocks ++ [⟨a / PageSize, n⟩]) (hnext : p ≠ a + n * PageSize) :
    ∀ last, pg.blocks.getLast? = some last → p ≠ last.finish := by
  intro last hlast
  rw [hblocks, getLast?_concat, Option.some.injEq] at hlast
  rwa [← hlast, KBlockInfo.finish, KBlockInfo.getAddress, Nat.div_mul_cancel haligned]

theorem RunOfPages.fits (h : RunOfPages l a n ps) : KBlockInfo.Fits ⟨a / PageSize, n⟩ := by
  refine ⟨Nat.div_pos (Nat.le_of_dvd h.first.inside.1 h.first.aligned) (by decide), h.pos, ?_⟩
  rw [KBlockInfo.finish, KBlockInfo.getAddress, Nat.div_mul_cancel h.first.aligned]
  exact h.finish

theorem total_nil (htot : tot + ([] : List ℕ).length * PageSize = size) : tot = size := by
  rwa [length_nil, Nat.zero_mul, Nat.add_zero] at htot

theorem total_cons (htot : tot + (p :: ps).length * PageSize = size) :
    tot < size ∧ tot + PageSize + ps.length * PageSize = size := by
  rw [length_cons, Nat.succ_mul] at htot
  have hpos : 0 < PageSize := by decide
  omega

/-- **The loop of `MakePageGroup`** adds the runs. -/
theorem makeFrom_spec (hrounds : ps.length ≤ rounds)
    (h : RunOfPages b.layout a n ps) (htraversed : Traversed b.impl context ps)
    (htot : tot + ps.length * PageSize = size) (hpg : ∀ block ∈ pg.blocks, block.Fits)
    (hapart : ∀ last, pg.blocks.getLast? = some last → a ≠ last.finish) :
    wp (b.makeFrom size rounds ⟨context, a, n * PageSize, tot⟩ pg) (Makes pg (runBlocks a n ps)) := by
  induction rounds generalizing ps context a n tot pg with
  | zero =>
    obtain rfl := eq_nil_of_length_eq_zero (Nat.le_zero.1 hrounds)
    obtain rfl := total_nil htot
    exact makeLast_spec h hpg hapart
  | succ rounds ih =>
    cases ps with
    | nil =>
      obtain rfl := total_nil htot
      rw [KPageTableBase.makeFrom, if_neg (lt_irrefl tot)]
      exact makeLast_spec h hpg hapart
    | cons p ps =>
      obtain ⟨context', hcontinue, htraversed⟩ := htraversed
      obtain ⟨hlt, htot⟩ := total_cons htot
      have hlength : ps.length ≤ rounds := Nat.le_of_succ_le_succ hrounds
      rw [KPageTableBase.makeFrom, if_pos hlt]
      simp only [hcontinue]
      rw [runBlocks_cons]
      by_cases hnext : p = a + n * PageSize
      · -- the run goes on
        rw [if_neg (mt h.breaks_iff.1 (not_not.2 hnext)), if_pos hnext, Tracking.extend, ← Nat.succ_mul]
        exact ih hlength (h.extend hnext) htraversed htot hpg hapart
      · rw [if_pos (h.breaks_iff.2 hnext), if_neg hnext, wp_bind]
        refine wp_mono (addRun_spec h hpg hapart) ?_
        rintro ⟨result, pg'⟩ held ⟨rfl, ⟨hsuccess, hblocks, hinfos⟩ | ⟨hfailed, hinfos⟩⟩
        · have hfits : ∀ block ∈ pg'.blocks, block.Fits := by
            intro block hblock
            rw [hblocks, mem_append, mem_singleton] at hblock
            rcases hblock with hold | rfl
            · exact hpg block hold
            · exact h.fits
          have hrest := ih hlength h.restart htraversed htot hfits
            (apart_of_added h.first.aligned hblocks hnext)
          rw [Nat.one_mul] at hrest
          obtain rfl : result = .success := hsuccess
          rw [if_neg (not_not.2 rfl)]
          refine wp_mono hrest ?_
          rintro r held ⟨rfl, hadded, henough⟩
          refine ⟨rfl, fun hdone => ?_, fun hlen => henough ?_⟩
          · rw [hadded hdone, hblocks, append_assoc, singleton_append]
          · rw [length_cons] at hlen
            simp only at hinfos
            omega
        · rw [if_pos (show result ≠ .success from hfailed)]
          refine wp_ret.2 ⟨rfl, fun hsuccess => absurd hsuccess hfailed, fun hlen => ?_⟩
          rw [hinfos, length_cons] at hlen
          exact absurd hlen (Nat.not_succ_le_zero _)

/-! ### The group that is compared -/

/-- **A block of which only a part was taken off** fails at the end of the run, which begins elsewhere. -/
theorem validFrom_of_partial {k : Tracking}
    (hpages : cur.curBlockPages ≠ 0) (haddr : cur.curBlockAddress ≠ k.curAddr) :
    b.validFrom size rounds k cur = false := by
  have hlast {k : Tracking} (haddr : cur.curBlockAddress ≠ k.curAddr) : b.validLast (k.last size) cur = false := by
    have hsame : (k.last size).curAddr = k.curAddr := by
      rw [Tracking.last]
      split_ifs <;> rfl
    rw [KPageTableBase.validLast, hsame, BlockCursor.updated, if_neg hpages]
    by_cases hheap : b.layout.isHeapPhysicalAddress k.curAddr = false
    · rw [if_pos hheap]
    · rw [if_neg hheap]
      simp only [beq_eq_false_iff_ne.2 haddr, Bool.false_and]
  induction rounds generalizing k with
  | zero => exact hlast haddr
  | succ rounds ih =>
    rw [KPageTableBase.validFrom]
    by_cases hlt : k.totSize < size
    swap
    · rw [if_neg hlt]
      exact hlast haddr
    rw [if_pos hlt]
    split
    · rfl
    · rename_i nextEntry context _
      by_cases hbreaks : k.Breaks nextEntry
      · rw [if_pos hbreaks, BlockCursor.updated, if_neg hpages]
        by_cases hheap : b.layout.isHeapPhysicalAddress k.curAddr = false
        · simp only [if_pos hheap]
        · simp only [if_neg hheap, if_pos (Or.inl haddr)]
      · rw [if_neg hbreaks]
        exact ih haddr

/-- The blocks that the cursor has yet to compare. -/
def BlockCursor.Faces (cur : BlockCursor) (bs : List KBlockInfo) : Prop := cur.updated = BlockCursor.load bs

/-- The block is the run. -/
theorem block_eq_iff (haligned : PageSize ∣ a) (block : KBlockInfo) :
    ⟨a / PageSize, n⟩ = block ↔ block.getAddress = a ∧ block.numPages = n := by
  obtain ⟨q, rfl⟩ := haligned
  rw [Nat.mul_div_cancel_left q (by decide), KBlockInfo.getAddress, Nat.mul_comm PageSize q,
    Nat.mul_left_inj (by decide)]
  cases block
  rw [KBlockInfo.mk.injEq]
  exact and_congr eq_comm eq_comm

theorem validLast_iff (h : RunOfPages b.layout a n []) (hcur : cur.Faces bs) :
    b.validLast (Tracking.last ⟨context, a, n * PageSize, size⟩ size) cur = true ↔ runBlocks a n [] <+: bs := by
  rw [Tracking.last, if_neg (lt_irrefl size), KPageTableBase.validLast, if_neg (by rw [h.first.heap]; decide),
    hcur, runBlocks_nil]
  cases bs with
  | nil => simp [BlockCursor.load]
  | cons block bs =>
    rw [cons_prefix_cons, block_eq_iff h.first.aligned]
    simp [BlockCursor.load]

/-- **The loop of `IsValidPageGroup`** is true for the groups that begin with the runs. -/
theorem validFrom_iff (hrounds : ps.length ≤ rounds)
    (h : RunOfPages b.layout a n ps) (htraversed : Traversed b.impl context ps)
    (htot : tot + ps.length * PageSize = size) (hcur : cur.Faces bs) :
    b.validFrom size rounds ⟨context, a, n * PageSize, tot⟩ cur = true ↔ runBlocks a n ps <+: bs := by
  induction rounds generalizing ps context a n tot cur bs with
  | zero =>
    obtain rfl := eq_nil_of_length_eq_zero (Nat.le_zero.1 hrounds)
    obtain rfl := total_nil htot
    exact validLast_iff h hcur
  | succ rounds ih =>
    cases ps with
    | nil =>
      obtain rfl := total_nil htot
      rw [KPageTableBase.validFrom, if_neg (lt_irrefl tot)]
      exact validLast_iff h hcur
    | cons p ps =>
      obtain ⟨context', hcontinue, htraversed⟩ := htraversed
      obtain ⟨hlt, htot⟩ := total_cons htot
      have hlength : ps.length ≤ rounds := Nat.le_of_succ_le_succ hrounds
      rw [KPageTableBase.validFrom, if_pos hlt]
      simp only [hcontinue]
      rw [runBlocks_cons]
      by_cases hnext : p = a + n * PageSize
      · rw [if_neg (mt h.breaks_iff.1 (not_not.2 hnext)), if_pos hnext, Tracking.extend, ← Nat.succ_mul]
        exact ih hlength (h.extend hnext) htraversed htot hcur
      rw [if_pos (h.breaks_iff.2 hnext), if_neg hnext, if_neg (by rw [h.first.heap]; decide), hcur, RunOfPages.count]
      cases bs with
      | nil => simp [BlockCursor.load]
      | cons block bs =>
        rw [cons_prefix_cons, block_eq_iff h.first.aligned]
        simp only [BlockCursor.load]
        by_cases haddr : block.getAddress = a
        swap
        · rw [if_pos (.inl haddr)]
          exact ⟨fun hfalse => absurd hfalse Bool.false_ne_true, fun hand => absurd hand.1.1 haddr⟩
        rcases Nat.lt_trichotomy block.numPages n with hless | hequal | hmore
        · rw [if_pos (.inr hless)]
          exact ⟨fun hfalse => absurd hfalse Bool.false_ne_true, fun hand => absurd hand.1.2 hless.ne⟩
        · -- the block ends with the run
          rw [if_neg (by simp [haddr, hequal])]
          have hrest := ih hlength h.restart htraversed htot
            (show BlockCursor.Faces ⟨bs, block.getAddress + n * PageSize, block.numPages - n⟩ bs by
              rw [BlockCursor.Faces, BlockCursor.updated, if_pos (by simp [hequal])])
          rw [Nat.one_mul] at hrest
          exact hrest.trans ⟨fun hprefix => ⟨⟨haddr, hequal⟩, hprefix⟩, fun hand => hand.2⟩
        · -- a part of the block is left
          rw [if_neg (by simp only [haddr, not_true_eq_false, ne_eq, false_or]; omega), haddr,
            validFrom_of_partial (Nat.sub_pos_of_lt hmore).ne' (Ne.symm hnext)]
          exact ⟨fun hfalse => absurd hfalse Bool.false_ne_true, fun hand => absurd hand.1.2 hmore.ne'⟩

/-! ### The two on a range of pages -/

namespace PageTable

/-- The physical address of an address. -/
def physAddr (t : PageTable) (address : ℕ) : ℕ := (t.backingAddr (address / PageSize) + address) % 2 ^ 64

/-- The physical pages of a range, in their order. -/
def physPages (t : PageTable) (addr numPages : ℕ) : List ℕ :=
  (List.range numPages).map fun i => t.physAddr (addr + i * PageSize)

/-- The page of the address is mapped. -/
def Maps (t : PageTable) (address : ℕ) : Prop :=
  address / PageSize < t.size ∧ t.backingAddr (address / PageSize) ≠ 0

end PageTable

/-- A range of pages that the traversal finds, all of them pages of the heap. -/
structure KPageTableBase.HeapRange (b : KPageTableBase) (addr numPages : ℕ) : Prop where
  aligned : PageSize ∣ addr
  pos : 0 < numPages
  mapped : ∀ i < numPages, b.impl.Maps (addr + i * PageSize)
  heap : ∀ i < numPages, b.layout.isHeapPhysicalAddress (b.impl.physAddr (addr + i * PageSize)) = true

/-- A group to which ranges of the physical memory were added. -/
inductive KPageGroup.Built : KPageGroup → Prop
  | empty (infos : ℕ) : Built ⟨[], infos⟩
  | addBlock {g : KPageGroup} {r : AllocationResult × KPageGroup} {held : Bool} (h : Built g) (addr numPages : ℕ)
      (haddr : PageSize ∣ addr) (hpos : 0 < addr) (hfinish : addr + numPages * PageSize ≤ 2 ^ 44)
      (hadd : g.addBlock addr numPages = .ret r held) : Built r.2

theorem KPageGroup.Built.fits {g : KPageGroup} (h : g.Built) : ∀ block ∈ g.blocks, block.Fits := by
  induction h with
  | empty infos => exact fun block hblock => absurd hblock not_mem_nil
  | @addBlock g r held h addr numPages haddr hpos hfinish hadd ih =>
    rcases Nat.eq_zero_or_pos numPages with rfl | hpages
    · rw [KPageGroup.addBlock, if_pos rfl] at hadd
      cases hadd
      exact ih
    · have hspec := KPageGroup.addBlock_spec ih haddr hpos hpages hfinish
      rw [hadd, wp_ret] at hspec
      rcases hspec with ⟨-, ⟨-, hadded, -⟩ | ⟨-, hsame, -⟩⟩
      · exact hadded.fits haddr hpos hpages hfinish ih
      · rw [hsame]
        exact ih

/-- The blocks of a group do not go on where the one before ends. -/
theorem KPageGroup.Built.isChain {g : KPageGroup} (h : g.Built) :
    g.blocks.IsChain fun b c => c.getAddress ≠ b.finish := by
  induction h with
  | empty infos => exact .nil
  | @addBlock g r held h addr numPages haddr hpos hfinish hadd ih =>
    rcases Nat.eq_zero_or_pos numPages with rfl | hpages
    · rw [KPageGroup.addBlock, if_pos rfl] at hadd
      cases hadd
      exact ih
    have hspec := KPageGroup.addBlock_spec h.fits haddr hpos hpages hfinish
    rw [hadd, wp_ret] at hspec
    rcases hspec with ⟨-, ⟨-, hadded, -⟩ | ⟨-, hsame, -⟩⟩
    · cases hadded with
      | concatenated before last hblocks _ hblocks' =>
        rw [hblocks, isChain_append] at ih
        rw [hblocks', isChain_append]
        exact ⟨ih.1, .singleton _, fun b hb c hc => by
          cases hc
          exact ih.2.2 b hb last rfl⟩
      | appended hapart hblocks' =>
        rw [hblocks', isChain_append]
        refine ⟨ih, .singleton _, fun b hb c hc => ?_⟩
        cases hc
        rw [KBlockInfo.getAddress, Nat.div_mul_cancel haddr]
        exact hapart b hb
    · rw [hsame]
      exact ih

theorem head?_pageList (a : ℕ) (hpos : 0 < n) : (pageList a n).head? = some a := by
  obtain ⟨m, rfl⟩ := Nat.exists_eq_succ_of_ne_zero hpos.ne'
  rw [pageList, range_succ_eq_map, map_cons, head?_cons, Nat.zero_mul, Nat.add_zero]

theorem head?_pages {block : KBlockInfo} (h : block.Fits) (l : List ℕ) :
    (block.pages ++ l).head? = some block.getAddress := by
  rw [head?_append, KBlockInfo.pages, head?_pageList _ h.pages, Option.some_or]

/-- A run of pages does not end before the block that it is in. -/
theorem numPages_le {block other : KBlockInfo} {rest : List ℕ} (hfits : ∀ b ∈ bs, b.Fits)
    (hchain : (block :: bs).IsChain fun b c => c.getAddress ≠ b.finish) (haddr : other.getAddress = block.getAddress)
    (hpages : block.pages ++ bs.flatMap KBlockInfo.pages = other.pages ++ rest) :
    other.numPages ≤ block.numPages := by
  by_contra hlt
  obtain ⟨k, hk⟩ := Nat.exists_eq_add_of_lt (not_le.1 hlt)
  rw [KBlockInfo.pages, KBlockInfo.pages, haddr, hk, Nat.add_assoc, pageList_add, append_assoc,
    append_cancel_left_eq] at hpages
  have hhead := congrArg head? hpages
  rw [head?_append, head?_pageList _ (Nat.succ_pos k), Option.some_or] at hhead
  cases bs with
  | nil => cases hhead
  | cons next bs =>
    rw [flatMap_cons, head?_pages (hfits next mem_cons_self), Option.some.injEq] at hhead
    exact hchain.rel hhead

/-- The blocks are those of the runs of pages: there is one way to cut a list of pages. -/
theorem eq_of_pages_eq {cs : List KBlockInfo} (hbs : ∀ b ∈ bs, b.Fits) (hcs : ∀ c ∈ cs, c.Fits)
    (hchain : bs.IsChain fun b c => c.getAddress ≠ b.finish) (hchain' : cs.IsChain fun b c => c.getAddress ≠ b.finish)
    (hpages : bs.flatMap KBlockInfo.pages = cs.flatMap KBlockInfo.pages) : bs = cs := by
  have hhead := congrArg head? hpages
  induction bs generalizing cs with
  | nil =>
    cases cs with
    | nil => rfl
    | cons c cs => rw [flatMap_cons, head?_pages (hcs c mem_cons_self)] at hhead; cases hhead
  | cons b bs ih =>
    cases cs with
    | nil => rw [flatMap_cons, head?_pages (hbs b mem_cons_self)] at hhead; cases hhead
    | cons c cs =>
      rw [flatMap_cons, flatMap_cons, head?_pages (hbs b mem_cons_self),
        head?_pages (hcs c mem_cons_self), Option.some.injEq] at hhead
      rw [flatMap_cons, flatMap_cons] at hpages
      have hbs' := fun d hd => hbs d (mem_cons_of_mem b hd)
      have hcs' := fun d hd => hcs d (mem_cons_of_mem c hd)
      have hnum := Nat.le_antisymm (numPages_le hcs' hchain' hhead hpages.symm)
        (numPages_le hbs' hchain hhead.symm hpages)
      obtain rfl : b = c := by
        cases b
        cases c
        exact KBlockInfo.mk.injEq .. ▸ ⟨Nat.mul_right_cancel (by decide) hhead, hnum⟩
      have hrest := append_cancel_left hpages
      rw [ih hbs' hcs' hchain.tail hchain'.tail hrest (congrArg _ hrest)]

/-- **`IsEquivalentTo` decides whether two groups have the same pages** in the same order, however the ranges were
cut that they were given. -/
theorem KPageGroup.Built.isEquivalentTo_iff {g g' : KPageGroup} (h : g.Built) (h' : g'.Built) :
    g.isEquivalentTo g' = true ↔ g.pages = g'.pages := by
  rw [KPageGroup.isEquivalentTo, equivalentBlocks_iff]
  exact ⟨fun heq => congrArg (flatMap KBlockInfo.pages) heq, eq_of_pages_eq h.fits h'.fits h.isChain h'.isChain⟩

/-- Two pages at once, and one after the other. -/
theorem isEquivalentTo_iff_cut : (⟨[⟨0x80000, 2⟩], 2⟩ : KPageGroup).isEquivalentTo ⟨[⟨0x80000, 2⟩], 1⟩ = true ↔
    (⟨[⟨0x80000, 2⟩], 2⟩ : KPageGroup).pages = (⟨[⟨0x80000, 2⟩], 1⟩ : KPageGroup).pages := by
  have hadd : KPageGroup.addBlock ⟨[], 3⟩ 0x80000000 2 = .ret (.success, ⟨[⟨0x80000, 2⟩], 2⟩) true := rfl
  have hadd₁ : KPageGroup.addBlock ⟨[], 2⟩ 0x80000000 1 = .ret (.success, ⟨[⟨0x80000, 1⟩], 1⟩) true := rfl
  have hadd₂ : KPageGroup.addBlock ⟨[⟨0x80000, 1⟩], 1⟩ 0x80001000 1 = .ret (.success, ⟨[⟨0x80000, 2⟩], 1⟩) true := by
    simp [KPageGroup.addBlock, KBlockInfo.tryConcatenate, KBlockInfo.getEndAddress, assert, PageSize]
  have hwhole := (KPageGroup.Built.empty 3).addBlock 0x80000000 2 (by decide) (by decide) (by decide) hadd
  have hfirst := (KPageGroup.Built.empty 2).addBlock 0x80000000 1 (by decide) (by decide) (by decide) hadd₁
  exact hwhole.isEquivalentTo_iff (hfirst.addBlock 0x80001000 1 (by decide) (by decide) (by decide) hadd₂)

theorem dvd_physAddr (t : PageTable) (haddr : PageSize ∣ addr) : PageSize ∣ t.physAddr addr :=
  (Nat.dvd_mod_iff (show PageSize ∣ 2 ^ 64 by decide)).2 (Nat.dvd_add (t.aligned _) haddr)

theorem continueTraversal_eq (hmaps : t.Maps (addr + i * PageSize)) :
    t.continueTraversal ⟨addr / PageSize + i, addr + i * PageSize⟩ =
      (some ⟨t.physAddr (addr + i * PageSize), PageSize⟩,
        ⟨addr / PageSize + (i + 1), addr + (i + 1) * PageSize⟩) := by
  have hpage : addr / PageSize + i = (addr + i * PageSize) / PageSize :=
    (Nat.add_mul_div_right addr i (by decide)).symm
  obtain ⟨hsize, hbacking⟩ := hmaps
  rw [PageTable.continueTraversal, if_neg]
  · rw [PageTable.physAddr, hpage, Nat.succ_mul, Nat.add_assoc, ← hpage, Nat.add_assoc]
  · simp only [hpage]
    exact not_or.2 ⟨not_le.2 hsize, hbacking⟩

/-- The pages of a range are traversed. -/
theorem traversed_range (addr i m : ℕ) (hmapped : ∀ j < i + m, t.Maps (addr + j * PageSize)) :
    Traversed t ⟨addr / PageSize + i, addr + i * PageSize⟩
      ((range' i m).map fun j => t.physAddr (addr + j * PageSize)) := by
  induction m generalizing i with
  | zero => trivial
  | succ m ih =>
    refine ⟨_, continueTraversal_eq (hmapped i (by omega)), ih (i + 1) fun j hj => hmapped j (by omega)⟩

theorem runBlocks_pages (h : RunOfPages l a n ps) :
    (runBlocks a n ps).flatMap KBlockInfo.pages = pageList a n ++ ps := by
  have haligned : ∀ run ∈ runs pageAfter a n ps, KBlockInfo.pages ⟨run.1 / PageSize, run.2⟩ =
      elements pageAfter run := by
    intro run hrun
    have hdvd : PageSize ∣ run.1 := by
      rcases fst_of_mem_runs hrun with hfirst | hrest
      · exact hfirst ▸ h.first.aligned
      · exact (h.rest _ hrest).aligned
    rw [KBlockInfo.pages, KBlockInfo.getAddress, Nat.div_mul_cancel hdvd]
    rfl
  rw [runBlocks, flatMap_map, flatMap_congr haligned, spread_runs]
  · rfl
  · intro x
    rw [pageAfter, Nat.zero_mul, Nat.add_zero]

namespace KPageTableBase

variable {b : KPageTableBase} {pg : KPageGroup}

/-- The pages of a range after the first one. -/
def laterPages (b : KPageTableBase) (addr numPages : ℕ) : List ℕ :=
  (List.range' 1 (numPages - 1)).map fun i => b.impl.physAddr (addr + i * PageSize)

namespace HeapRange

variable (h : b.HeapRange addr numPages)
include h

theorem heapPage (hi : i < numPages) : b.layout.HeapPage (b.impl.physAddr (addr + i * PageSize)) :=
  ⟨dvd_physAddr b.impl (Nat.dvd_add h.aligned ⟨i, Nat.mul_comm ..⟩), h.heap i hi⟩

theorem firstPage : b.layout.HeapPage (b.impl.physAddr addr) := by
  have hfirst := h.heapPage h.pos
  rwa [Nat.zero_mul, Nat.add_zero] at hfirst

theorem runOfPages : RunOfPages b.layout (b.impl.physAddr addr) 1 (b.laterPages addr numPages) := by
  refine .single h.firstPage fun q hq => ?_
  obtain ⟨i, hi, rfl⟩ := mem_map.1 hq
  rw [mem_range'_1] at hi
  have hpos := h.pos
  exact h.heapPage (by omega)

theorem physPages_eq : b.impl.physPages addr numPages = b.impl.physAddr addr :: b.laterPages addr numPages := by
  obtain ⟨m, rfl⟩ := Nat.exists_eq_succ_of_ne_zero h.pos.ne'
  rw [PageTable.physPages, laterPages, range_eq_range', range'_succ, map_cons, Nat.zero_mul, Nat.add_zero]
  rfl

theorem length_laterPages : 1 + (b.laterPages addr numPages).length = numPages := by
  have hpos := h.pos
  rw [laterPages, length_map, length_range']
  omega

theorem begun_eq : Tracking.begun b.impl addr =
    some ⟨⟨addr / PageSize + 1, addr + 1 * PageSize⟩, b.impl.physAddr addr, 1 * PageSize, PageSize⟩ := by
  have hfirst := continueTraversal_eq (h.mapped 0 h.pos)
  have hoffset : b.impl.physAddr addr &&& (PageSize - 1) = 0 := by
    obtain ⟨q, hq⟩ := h.firstPage.aligned
    rw [hq, show PageSize = 2 ^ 12 from rfl, Nat.and_two_pow_sub_one_eq_mod, Nat.mul_mod_right]
  rw [Nat.add_zero, Nat.zero_mul, Nat.add_zero, Nat.zero_add] at hfirst
  rw [Tracking.begun, PageTable.beginTraversal, hfirst]
  simp only [hoffset, Nat.sub_zero, Nat.one_mul]

theorem traversed : Traversed b.impl ⟨addr / PageSize + 1, addr + 1 * PageSize⟩ (b.laterPages addr numPages) := by
  have hpos := h.pos
  exact traversed_range addr 1 (numPages - 1) fun j hj => h.mapped j (by omega)

theorem total : PageSize + (b.laterPages addr numPages).length * PageSize = numPages * PageSize := by
  rw [← h.length_laterPages, Nat.add_mul, Nat.one_mul, h.length_laterPages]

/-- **`MakePageGroup`** makes a group of the runs. -/
theorem makePageGroup_spec (infos : ℕ) : wp (b.makePageGroup ⟨[], infos⟩ addr numPages)
    (Makes ⟨[], infos⟩ (runBlocks (b.impl.physAddr addr) 1 (b.laterPages addr numPages))) := by
  have hlength := h.length_laterPages
  rw [makePageGroup, if_neg (not_not.2 rfl), h.begun_eq]
  exact makeFrom_spec (by omega) h.runOfPages h.traversed h.total (fun block hblock => absurd hblock not_mem_nil)
    fun last hlast => absurd hlast (by simp)

/-- **`IsValidPageGroup`** compares with the runs. -/
theorem isValidPageGroup_iff (hfits : ∀ block ∈ pg.blocks, block.Fits) (hpages : pg.getNumPages = numPages) :
    b.isValidPageGroup pg addr numPages = true ↔
      pg.blocks = runBlocks (b.impl.physAddr addr) 1 (b.laterPages addr numPages) := by
  have hlength := h.length_laterPages
  have hsum := sum_runBlocks (b.impl.physAddr addr) 1 (b.laterPages addr numPages)
  have hpos : ∀ block ∈ pg.blocks, 0 < block.numPages := fun block hblock => (hfits block hblock).pages
  have hprefix : runBlocks (b.impl.physAddr addr) 1 (b.laterPages addr numPages) <+: pg.blocks ↔
      pg.blocks = runBlocks (b.impl.physAddr addr) 1 (b.laterPages addr numPages) := by
    constructor
    · intro hprefix
      refine (eq_of_prefix_of_sum hprefix hpos ?_).symm
      rw [hsum, hlength]
      exact hpages.symm
    · intro hblocks
      rw [hblocks]
  rw [← hprefix, isValidPageGroup, h.begun_eq]
  cases hblocks : pg.blocks with
  | nil =>
    rw [KPageGroup.getNumPages, hblocks, map_nil, sum_nil] at hpages
    exact absurd hpages h.pos.ne
  | cons block rest =>
    have hfirst : block.numPages ≠ 0 := (hpos block (by rw [hblocks]; exact mem_cons_self)).ne'
    refine validFrom_iff (by omega) h.runOfPages h.traversed h.total ?_
    rw [BlockCursor.Faces, BlockCursor.updated, if_neg hfirst]
    rfl

/-- **The group that is made has the pages of the range**, and a group is valid for the range when it is equivalent
to it. -/
theorem makes_and_validates :
    (∀ infos, numPages ≤ infos →
      ∃ g, b.makePageGroup ⟨[], infos⟩ addr numPages = .ret (.success, g) true) ∧
    ∀ infos g held, b.makePageGroup ⟨[], infos⟩ addr numPages = .ret (.success, g) held →
      held = true ∧ g.pages = b.impl.physPages addr numPages ∧
      ∀ pg : KPageGroup, pg.Built → pg.getNumPages = numPages →
        (b.isValidPageGroup pg addr numPages = true ↔ pg.isEquivalentTo g = true) := by
  constructor
  · intro infos hinfos
    obtain ⟨⟨result, g⟩, held, hrun, hmakes⟩ := h.makePageGroup_spec infos
    have hlength := length_runBlocks_le (b.impl.physAddr addr) 1 (b.laterPages addr numPages)
    have hpages := h.length_laterPages
    have hsuccess : result = .success := hmakes.enough (hlength.trans (by simp only; omega))
    exact ⟨g, by rw [hrun, hmakes.held, hsuccess]⟩
  · intro infos g held hrun
    have hmakes := h.makePageGroup_spec infos
    rw [hrun, Exec.wp_ret] at hmakes
    have hblocks := hmakes.added rfl
    rw [List.nil_append] at hblocks
    refine ⟨hmakes.held, ?_, fun pg hpg hcount => ?_⟩
    · rw [KPageGroup.pages, hblocks, runBlocks_pages h.runOfPages, h.physPages_eq]
      simp [pageList]
    · rw [h.isValidPageGroup_iff hpg.fits hcount, KPageGroup.isEquivalentTo, equivalentBlocks_iff, hblocks]

end HeapRange

/-! ### Maps of pages -/

/-- A range of pages of the map that the table holds, all mapped to pages of the heap. -/
structure MappedRange (b : KPageTableBase) (m : PageMap) (addr numPages : ℕ) : Prop where
  holds : b.impl.Holds m
  aligned : PageSize ∣ addr
  pos : 0 < numPages
  inside : addr / PageSize + numPages ≤ b.impl.size
  finish : addr + numPages * PageSize ≤ 2 ^ 64
  heap : ∀ i < numPages, ∃ target, m (addr / PageSize + i) = some target ∧ b.layout.HeapPage target

/-- The two functions agree on a range: `MakePageGroup` makes a group, which has the pages of the map, and
`IsValidPageGroup` is true for the groups that are equivalent to it. -/
def Agree (b : KPageTableBase) (m : PageMap) (addr numPages : ℕ) : Prop :=
  (∀ infos, numPages ≤ infos → ∃ g, b.makePageGroup ⟨[], infos⟩ addr numPages = .ret (.success, g) true) ∧
    ∀ infos g held, b.makePageGroup ⟨[], infos⟩ addr numPages = .ret (.success, g) held →
      held = true ∧ g.pages = m.pages addr numPages ∧ ∀ pg : KPageGroup, pg.Built → pg.getNumPages = numPages →
        (b.isValidPageGroup pg addr numPages = true ↔ pg.isEquivalentTo g = true)

/-- A group is made only of pages that the traversal finds. -/
theorem makeFrom_finds {k : Tracking} (hrounds : size ≤ k.totSize + rounds * PageSize) :
    wlp (b.makeFrom size rounds k pg) fun r _ => r.1 = .success → ∀ j, k.totSize + j * PageSize < size →
      (b.impl.continueTraversal ⟨k.context.nextPage + j, k.context.nextOffset + j * PageSize⟩).1 ≠ none := by
  induction rounds generalizing k pg with
  | zero => exact fun r held hrun hsuccess j hj => by omega
  | succ rounds ih =>
    rw [Nat.succ_mul] at hrounds
    rw [makeFrom]
    split_ifs with hmore
    · by_cases hfound : b.impl.size ≤ k.context.nextPage ∨ b.impl.backingAddr k.context.nextPage = 0
      · rw [PageTable.continueTraversal, if_pos hfound]
        exact wlp_ret.2 fun hsuccess => by cases hsuccess
      have hstep : ∀ k' : Tracking, k'.context = ⟨k.context.nextPage + 1, k.context.nextOffset + PageSize⟩ →
          k'.totSize = k.totSize + PageSize → ∀ pg', wlp (b.makeFrom size rounds k' pg') fun r _ =>
          r.1 = .success → ∀ j, k.totSize + j * PageSize < size →
            (b.impl.continueTraversal ⟨k.context.nextPage + j, k.context.nextOffset + j * PageSize⟩).1 ≠ none := by
        intro k' hcontext htot pg'
        refine wlp_mono (ih (by omega)) fun r _ hlater hsuccess j hj => ?_
        cases j with
        | zero =>
          rw [Nat.zero_mul, Nat.add_zero, Nat.add_zero, PageTable.continueTraversal, if_neg hfound]
          exact Option.some_ne_none _
        | succ j =>
          rw [Nat.succ_mul] at hj
          have hnext := hlater hsuccess j (by omega)
          rwa [hcontext, Nat.add_assoc, Nat.add_assoc, Nat.add_comm 1 j, Nat.add_comm PageSize,
            ← Nat.succ_mul] at hnext
      rw [PageTable.continueTraversal, if_neg hfound]
      dsimp only
      split_ifs with hbreaks
      · refine wlp_bind.2 fun r held _ => ?_
        obtain ⟨result, pg'⟩ := r
        dsimp only
        split_ifs with hfailed
        · exact wlp_ret.2 fun hsuccess => absurd hsuccess hfailed
        · exact hstep _ rfl rfl pg'
      · exact hstep _ rfl rfl pg
    · exact fun r held hrun hsuccess j hj => by omega

namespace MappedRange

variable {m : PageMap} (h : MappedRange b m addr numPages)
include h

theorem page_mul (i : ℕ) : (addr / PageSize + i) * PageSize = addr + i * PageSize := by
  rw [Nat.add_mul, Nat.div_mul_cancel h.aligned]

theorem page_lt (hi : i < numPages) : (addr / PageSize + i) * PageSize < 2 ^ 64 := by
  have hfinish := h.finish
  have hnext := Nat.mul_le_mul_right PageSize (Nat.succ_le_of_lt hi)
  rw [h.page_mul]
  simp only [PageSize] at *
  omega

/-- The entry of a page of the range. -/
theorem exists_entry (hi : i < numPages) : ∃ target, m (addr / PageSize + i) = some target ∧
    b.layout.HeapPage target ∧
    b.impl.backingAddr (addr / PageSize + i) = PageTable.entry target (addr / PageSize + i) := by
  obtain ⟨target, hmap, hheap⟩ := h.heap i hi
  have hinside := h.inside
  have hentry := h.holds (addr / PageSize + i) (by omega)
  rw [hmap, Option.map_some, Option.getD_some] at hentry
  exact ⟨target, hmap, hheap, hentry⟩

theorem backingAddr_eq_zero_iff (hi : i < numPages) :
    b.impl.backingAddr (addr / PageSize + i) = 0 ↔ m (addr / PageSize + i) = some (addr + i * PageSize) := by
  obtain ⟨target, hmap, hheap, hentry⟩ := h.exists_entry hi
  have htarget := hheap.inside.2
  rw [hentry, PageTable.entry_eq_zero_iff (by omega) (h.page_lt hi), hmap, Option.some.injEq, h.page_mul]

theorem map_eq (hi : i < numPages) : m (addr / PageSize + i) = some (b.impl.physAddr (addr + i * PageSize)) := by
  obtain ⟨target, hmap, hheap, hentry⟩ := h.exists_entry hi
  have htarget := hheap.inside.2
  rw [PageTable.physAddr, Nat.add_mul_div_right addr i (by decide), hentry, ← h.page_mul,
    PageTable.entry_add (by omega) (h.page_lt hi), hmap]

theorem pages_eq : m.pages addr numPages = b.impl.physPages addr numPages := by
  rw [PageMap.pages, PageTable.physPages, ← filterMap_eq_map]
  exact filterMap_congr fun i hi => h.map_eq (mem_range.1 hi)

/-- The traversal finds what is not mapped at its own address. -/
theorem heapRange {n : ℕ} (hpos : 0 < n) (hle : n ≤ numPages)
    (hfound : ∀ i < n, m (addr / PageSize + i) ≠ some (addr + i * PageSize)) : b.HeapRange addr n where
  aligned := h.aligned
  pos := hpos
  mapped i hi := by
    have hinside := h.inside
    rw [PageTable.Maps, Nat.add_mul_div_right addr i (by decide)]
    exact ⟨by omega, fun hzero => hfound i hi ((h.backingAddr_eq_zero_iff (by omega)).1 hzero)⟩
  heap i hi := by
    obtain ⟨target, hmap, hheap, -⟩ := h.exists_entry (i := i) (by omega)
    rw [h.map_eq (by omega), Option.some.injEq] at hmap
    rw [hmap]
    exact hheap.heap

/-- **The two functions agree on a range just when no page of it is mapped at its own address**: such a page has
the entry that the traversal takes for not mapped. -/
theorem agree_iff : Agree b m addr numPages ↔
    ∀ i < numPages, m (addr / PageSize + i) ≠ some (addr + i * PageSize) := by
  constructor
  · rintro ⟨hmakes, -⟩ i hi hsame
    obtain ⟨g, hg⟩ := hmakes numPages (Nat.le_refl _)
    have hzero := (h.backingAddr_eq_zero_iff hi).2 hsame
    rw [makePageGroup, if_neg (not_not.2 rfl)] at hg
    by_cases hfirst : b.impl.backingAddr (addr / PageSize) = 0
    · rw [Tracking.begun, PageTable.beginTraversal, PageTable.continueTraversal, if_pos (.inr hfirst)] at hg
      cases hg
    · have hone : b.HeapRange addr 1 := by
        refine h.heapRange Nat.one_pos h.pos fun j hj => ?_
        obtain rfl : j = 0 := by omega
        exact fun hmap => hfirst ((h.backingAddr_eq_zero_iff h.pos).2 hmap)
      rw [hone.begun_eq] at hg
      cases i with
      | zero => exact hfirst hzero
      | succ i =>
        have hpages := Nat.mul_le_mul_right PageSize (Nat.succ_le_of_lt hi)
        have hfinds := makeFrom_finds (Nat.le_add_left _ _) _ _ hg rfl i
          (by simp only [PageSize] at *; omega)
        rw [PageTable.continueTraversal] at hfinds
        refine hfinds (if_pos (.inr ?_))
        rw [Nat.add_assoc, Nat.add_comm 1 i]
        exact hzero
  · intro hfound
    rw [Agree, h.pages_eq]
    exact (h.heapRange h.pos le_rfl hfound).makes_and_validates

end MappedRange

/-- The memory of the user pool. -/
def userPool : KMemoryLayout where
  physicalLinearTree := [⟨0x80000000, 0xFFFFFFFF, dramUserPool⟩]
  pools := by decide

/-- Two pages that are next to each other, and one that is not. -/
def fragmented : KPageTableBase :=
  ⟨((PageTable.resize 3).mapPages 0 2 0x80000000 (by decide)).mapPages 2 1 0x90000000 (by decide), userPool⟩

/-- The three pages are two blocks. -/
theorem fragmented_agrees : ∃ g, fragmented.makePageGroup ⟨[], 3⟩ 0 3 = .ret (.success, g) true ∧
    g.pages = [0x80000000, 0x80001000, 0x90000000] ∧ ∀ pg : KPageGroup, pg.Built → pg.getNumPages = 3 →
      (fragmented.isValidPageGroup pg 0 3 = true ↔ pg.isEquivalentTo g = true) := by
  have hrange : MappedRange fragmented ((PageMap.empty.mapPages 0 2 0x80000000).mapPages 2 1 0x90000000) 0 3 := by
    refine ⟨((PageTable.holds_resize 3).mapPages 0 2 _ (by decide)).mapPages 2 1 _ (by decide), by decide, by decide,
      by decide, by decide, fun i hi => ?_⟩
    match i, hi with
    | 0, _ => exact ⟨0x80000000, rfl, by decide, by decide⟩
    | 1, _ => exact ⟨0x80001000, rfl, by decide, by decide⟩
    | 2, _ => exact ⟨0x90000000, rfl, by decide, by decide⟩
  obtain ⟨hmakes, hagrees⟩ := hrange.agree_iff.2 (by decide)
  obtain ⟨g, hg⟩ := hmakes 3 (Nat.le_refl 3)
  obtain ⟨-, hpages, hvalid⟩ := hagrees 3 g true hg
  exact ⟨g, hg, hpages.trans (by decide), hvalid⟩

/-- The first page of the pool, mapped at its own address. -/
def sameAddress : KPageTableBase :=
  ⟨(PageTable.resize 0x80001).mapPages 0x80000 1 0x80000000 (by decide), userPool⟩

/-- No group is made of the page, nor is its group valid. -/
theorem sameAddress_fails : MappedRange sameAddress (PageMap.empty.mapPages 0x80000 1 0x80000000) 0x80000000 1 ∧
    sameAddress.makePageGroup ⟨[], 1⟩ 0x80000000 1 = .ret (.invalidCurrentMemory, ⟨[], 1⟩) true ∧
    sameAddress.isValidPageGroup ⟨[⟨0x80000, 1⟩], 0⟩ 0x80000000 1 = false ∧
    ¬ Agree sameAddress (PageMap.empty.mapPages 0x80000 1 0x80000000) 0x80000000 1 := by
  have hfails : sameAddress.makePageGroup ⟨[], 1⟩ 0x80000000 1 = .ret (.invalidCurrentMemory, ⟨[], 1⟩) true := rfl
  refine ⟨⟨(PageTable.holds_resize _).mapPages _ _ _ (by decide), by decide, by decide, by decide, by decide,
    fun i hi => ?_⟩, hfails, rfl, fun hagree => ?_⟩
  · obtain rfl : i = 0 := by omega
    exact ⟨0x80000000, rfl, by decide, by decide⟩
  · obtain ⟨g, hg⟩ := hagree.1 1 (Nat.le_refl 1)
    rw [hfails] at hg
    cases hg

end KPageTableBase

end Kernel
end NXEmu
