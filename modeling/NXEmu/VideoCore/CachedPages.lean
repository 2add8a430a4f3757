/-
# Counters of cached pages

`src/yuzu_video_core/host1x/gpu_device_memory_manager.cpp`: for each page of device memory a counter
says how many caches hold it.  `UpdatePagesCachedCount` adds to the counters of a range, and tells the
process behind each page whose counter leaves or reaches zero.  Pages that follow each other in the
memory of one process are told together: two runs, of pages to cache and of pages not to cache any
more, are carried through the loop.

A process is null when none is registered with the identifier of the page.  The pending runs at the
end of a stretch are then dropped, but a run that ends at a page without a transition is told to the
null pointer.

Addresses and sizes are numbers, except that the page before page zero is the last one of 64 bits.
The locks and memory orders are left out.
-/

import NXEmu.Lib.Exec
import Mathlib.Data.List.Forall2
import Mathlib.Data.BitVec
import Mathlib.Logic.Function.Basic

namespace NXEmu
namespace Core

open Exec List

/-- A call of `MarkRegionCaching`. -/
structure MarkCall where
  process : ℕ
  address : ℕ
  size : ℕ
  caching : Bool
deriving DecidableEq

/-- What `UpdatePagesCachedCount` reads of a `DeviceMemoryManager`: the backing and the counter of each
page, and the registered processes, which may be null. -/
structure CachedPages where
  cpuBackingAddress : ℕ → BitVec 64
  registeredProcesses : List (Option ℕ)
  count : ℕ → BitVec 8

namespace CachedPages

/-- The identifier of `ExtractCPUBacking`. -/
def asid (d : CachedPages) (page : ℕ) : ℕ := (d.cpuBackingAddress page).toNat / 2 ^ 39

/-- The page of the address of `ExtractCPUBacking`. -/
def vpage (d : CachedPages) (page : ℕ) : ℕ := (d.cpuBackingAddress page).toNat % 2 ^ 39 / 4096

/-- `GetRegisteredProcess`. -/
def getRegisteredProcess (d : CachedPages) (asid : ℕ) : Option ℕ := (d.registeredProcesses[asid]?).join

/-- The variables of the loop, and the calls so far. -/
structure Scan where
  count : ℕ → BitVec 8
  uncacheBegin : ℕ
  uncacheBytes : ℕ
  cacheBegin : ℕ
  cacheBytes : ℕ
  asid : ℕ
  memoryDeviceInter : Option ℕ
  oldVpage : ℕ
  calls : List MarkCall

namespace Scan

/-- `MarkRegionCaching`, which has to be given a process. -/
def markRegionCaching (s : Scan) (address size : ℕ) (caching : Bool) : Exec Scan :=
  match s.memoryDeviceInter with
  | some process => pure { s with calls := s.calls ++ [⟨process, address, size, caching⟩] }
  | none => .fault

/-- `MarkRegionCaching` of the process, if there is one. -/
def tryMarkRegionCaching (s : Scan) (address size : ℕ) (caching : Bool) : Scan :=
  match s.memoryDeviceInter with
  | some process => { s with calls := s.calls ++ [⟨process, address, size, caching⟩] }
  | none => s

/-- `release_pending`: the pages that were gathered are marked in one go. -/
def releasePending (s : Scan) : Scan :=
  let s := if s.uncacheBytes > 0 then
      { s.tryMarkRegionCaching (s.uncacheBegin * 4096) s.uncacheBytes false with uncacheBytes := 0 }
    else s
  if s.cacheBytes > 0 then
    { s.tryMarkRegionCaching (s.cacheBegin * 4096) s.cacheBytes true with cacheBytes := 0 }
  else s

/-- The end of the body: the run of pages that are not cached any more. -/
def uncachePage (s : Scan) (page vpage : ℕ) : Exec Scan :=
  if s.count page = 0 then
    pure { s with
      uncacheBegin := if s.uncacheBytes = 0 then vpage else s.uncacheBegin
      uncacheBytes := s.uncacheBytes + 4096 }
  else if s.uncacheBytes > 0 then do
    let s ← s.markRegionCaching (s.uncacheBegin * 4096) s.uncacheBytes false
    pure { s with uncacheBytes := 0 }
  else pure s

/-- The end of the body: the run of pages to cache. -/
def cachePage (s : Scan) (delta : ℤ) (page vpage : ℕ) : Exec Scan :=
  if s.count page = 1 ∧ delta > 0 then
    pure { s with
      cacheBegin := if s.cacheBytes = 0 then vpage else s.cacheBegin
      cacheBytes := s.cacheBytes + 4096 }
  else if s.cacheBytes > 0 then do
    let s ← s.markRegionCaching (s.cacheBegin * 4096) s.cacheBytes true
    pure { s with cacheBytes := 0 }
  else pure s

/-- `count.fetch_add(static_cast<CounterType>(delta))`. -/
def fetchAdd (s : Scan) (delta : ℤ) (page : ℕ) : Scan :=
  { s with count := Function.update s.count page (s.count page + BitVec.ofInt 8 delta) }

end Scan

/-- The pending runs end where the process changes. -/
def enterProcess (d : CachedPages) (s : Scan) (page : ℕ) : Scan :=
  if s.asid ≠ d.asid page then
    { s.releasePending with
      memoryDeviceInter := d.getRegisteredProcess (d.asid page)
      asid := d.asid page }
  else s

/-- The pending runs end where the page does not follow the one before. -/
def enterPage (d : CachedPages) (s : Scan) (page : ℕ) : Scan :=
  { (if d.vpage page ≠ (s.oldVpage + 1) % 2 ^ 64 then s.releasePending else s) with
    oldVpage := d.vpage page }

/-- The body of the loop. -/
def scanPage (d : CachedPages) (delta : ℤ) (s : Scan) (page : ℕ) : Exec Scan :=
  if d.vpage page = 0 then pure (s.fetchAdd delta page).releasePending
  else do
    let s := d.enterPage (d.enterProcess s page) page
    let s := s.fetchAdd delta page
    let s ← s.uncachePage page (d.vpage page)
    s.cachePage delta page (d.vpage page)

/-- The variables before the loop over the pages from `page` on. -/
def scanStart (d : CachedPages) (page : ℕ) : Scan where
  count := d.count
  uncacheBegin := 0
  uncacheBytes := 0
  cacheBegin := 0
  cacheBytes := 0
  asid := d.asid page
  memoryDeviceInter := d.getRegisteredProcess (d.asid page)
  oldVpage := (d.vpage page + (2 ^ 64 - 1)) % 2 ^ 64
  calls := []

/-- The pages of a range. -/
def pages (addr size : ℕ) : List ℕ :=
  List.range' (addr / 4096) ((addr + size + 4095) / 4096 - addr / 4096)

/-- `UpdatePagesCachedCount`, with the calls that it issues. -/
def updatePagesCachedCount (d : CachedPages) (addr size : ℕ) (delta : ℤ) :
    Exec (CachedPages × List MarkCall) := do
  let s ← (pages addr size).foldlM (d.scanPage delta) (d.scanStart (addr / 4096))
  let s := s.releasePending
  pure ({ d with count := s.count }, s.calls)

/-! ### What the calls say -/

/-- The process behind a page. -/
def process (d : CachedPages) (page : ℕ) : Option ℕ := d.getRegisteredProcess (d.asid page)

/-- A page with a backing whose counter goes from zero to one, or from one to zero. -/
def Transition (d : CachedPages) (delta : ℤ) (page : ℕ) : Prop :=
  d.vpage page ≠ 0 ∧ d.count page = if 0 < delta then 0 else 1

instance (d : CachedPages) (delta : ℤ) (page : ℕ) : Decidable (d.Transition delta page) := by
  unfold Transition
  infer_instance

/-- A transition that a process can be told. -/
def marked (d : CachedPages) (delta : ℤ) (page : ℕ) : Bool :=
  decide (d.Transition delta page) && (d.process page).isSome

/-- A call tells the process of page `run.1` about so many pages from that one on, which follow each
other in the memory of this process. -/
structure Names (d : CachedPages) (delta : ℤ) (run : ℕ × ℕ) (call : MarkCall) : Prop where
  nonempty : 0 < run.2
  process : d.process run.1 = some call.process
  address : call.address = d.vpage run.1 * 4096
  size : call.size = run.2 * 4096
  caching : call.caching = decide (0 < delta)
  same : ∀ i, i < run.2 → d.asid (run.1 + i) = d.asid run.1 ∧ d.vpage (run.1 + i) = d.vpage run.1 + i

/-- The pages of a run. -/
def runPages (run : ℕ × ℕ) : List ℕ := List.range' run.1 run.2

/-! ### The loop -/

namespace Scan

/-- The first page of the run that the sign of `delta` allows. -/
def begin (s : Scan) (delta : ℤ) : ℕ := if 0 < delta then s.cacheBegin else s.uncacheBegin

/-- The length of the run that the sign of `delta` allows. -/
def bytes (s : Scan) (delta : ℤ) : ℕ := if 0 < delta then s.cacheBytes else s.uncacheBytes

/-- The length of the other run. -/
def otherBytes (s : Scan) (delta : ℤ) : ℕ := if 0 < delta then s.uncacheBytes else s.cacheBytes

/-- What the end of a stretch leaves. -/
structure Released (s : Scan) (delta : ℤ) (s' : Scan) : Prop where
  count : s'.count = s.count
  asid : s'.asid = s.asid
  process : s'.memoryDeviceInter = s.memoryDeviceInter
  oldVpage : s'.oldVpage = s.oldVpage
  bytes : s'.bytes delta = 0
  otherBytes : s'.otherBytes delta = 0
  calls : s'.calls = s.calls ++ if s.bytes delta = 0 then [] else
    match s.memoryDeviceInter with
    | some process => [⟨process, s.begin delta * 4096, s.bytes delta, decide (0 < delta)⟩]
    | none => []

/-- `release_pending` tells the process about the one run that is pending. -/
theorem releasePending_released (s : Scan) (delta : ℤ) (ho : s.otherBytes delta = 0) :
    s.Released delta s.releasePending := by
  by_cases hd : 0 < delta
  · simp only [otherBytes, hd, if_true] at ho
    by_cases hb : s.cacheBytes = 0
    · constructor <;> simp [releasePending, bytes, otherBytes, ho, hb, hd]
    · have hpos := Nat.pos_of_ne_zero hb
      cases hm : s.memoryDeviceInter <;> constructor <;>
        simp [releasePending, tryMarkRegionCaching, bytes, begin, otherBytes, ho, hb, hd, hm, hpos]
  · simp only [otherBytes, hd, if_false] at ho
    by_cases hb : s.uncacheBytes = 0
    · constructor <;> simp [releasePending, bytes, otherBytes, ho, hb, hd]
    · have hpos := Nat.pos_of_ne_zero hb
      cases hm : s.memoryDeviceInter <;> constructor <;>
        simp [releasePending, tryMarkRegionCaching, bytes, begin, otherBytes, ho, hb, hd, hm, hpos]

end Scan

/-- The counters of the pages from `first` to `next` have been changed. -/
def counted (d : CachedPages) (delta : ℤ) (first next page : ℕ) : BitVec 8 :=
  if first ≤ page ∧ page < next then d.count page + BitVec.ofInt 8 delta else d.count page

/-- The pages of a stretch that a process has to be told about. -/
def markedPages (d : CachedPages) (delta : ℤ) (first next : ℕ) : List ℕ :=
  (List.range' first (next - first)).filter (d.marked delta)

/-- Before page `next`: the calls name the marked pages, except for a pending run of `n` pages that
ends here and that virtual page `follows` can go on with. -/
structure ScanInv (d : CachedPages) (delta : ℤ) (first next : ℕ) (runs : List (ℕ × ℕ)) (n follows : ℕ)
    (s : Scan) : Prop where
  le : first + n ≤ next
  process : s.memoryDeviceInter = d.getRegisteredProcess s.asid
  otherBytes : s.otherBytes delta = 0
  bytes : s.bytes delta = n * 4096
  begin : 0 < n → s.begin delta = d.vpage (next - n)
  pending : ∀ i, i < n → d.asid (next - n + i) = s.asid ∧
    d.vpage (next - n + i) = d.vpage (next - n) + i ∧ d.Transition delta (next - n + i)
  follows : 0 < n → follows = d.vpage (next - n) + n
  names : List.Forall₂ (d.Names delta) runs s.calls
  covers : runs.flatMap runPages ++
    (if s.memoryDeviceInter.isSome then List.range' (next - n) n else []) = d.markedPages delta first next

variable {d : CachedPages} {delta : ℤ} {first next n v w : ℕ} {runs : List (ℕ × ℕ)} {s s' : Scan}

/-- **The end of a stretch**: the pending run is named if it has a process. -/
theorem ScanInv.released (h : d.ScanInv delta first next runs n v s) (hr : s.Released delta s') :
    ∃ runs', d.ScanInv delta first next runs' 0 w s' := by
  have hcalls := hr.calls
  rw [h.bytes] at hcalls
  have hcommon : ∀ runs', List.Forall₂ (d.Names delta) runs' s'.calls →
      runs'.flatMap runPages = d.markedPages delta first next →
        d.ScanInv delta first next runs' 0 w s' := fun runs' hnames hcovers =>
    { le := by have := h.le; omega
      process := by rw [hr.process, hr.asid, h.process]
      otherBytes := hr.otherBytes
      bytes := by rw [hr.bytes, Nat.zero_mul]
      begin := fun h0 => absurd h0 (Nat.lt_irrefl 0)
      pending := fun i hi => absurd hi (Nat.not_lt_zero i)
      follows := fun h0 => absurd h0 (Nat.lt_irrefl 0)
      names := hnames
      covers := by simpa using hcovers }
  have hcovers := h.covers
  by_cases hn : n = 0
  · subst hn
    refine ⟨runs, hcommon runs ?_ (by simpa using hcovers)⟩
    rw [hcalls]
    simpa using h.names
  have hpos := Nat.pos_of_ne_zero hn
  rw [if_neg (by omega)] at hcalls
  cases hm : s.memoryDeviceInter with
  | none =>
    rw [hm] at hcalls hcovers
    refine ⟨runs, hcommon runs ?_ (by simpa using hcovers)⟩
    rw [hcalls]
    simpa using h.names
  | some process =>
    rw [hm] at hcalls hcovers
    refine ⟨runs ++ [(next - n, n)], hcommon _ ?_ (by simpa [runPages] using hcovers)⟩
    rw [hcalls]
    refine rel_append h.names (.cons ?_ .nil)
    exact
      { nonempty := hpos
        process := by rw [CachedPages.process, ← Nat.add_zero (next - n), (h.pending 0 hpos).1, ← h.process, hm]
        address := by rw [h.begin hpos]
        size := rfl
        caching := rfl
        same := fun i hi => ⟨by rw [(h.pending i hi).1, ← (h.pending 0 hpos).1, Nat.add_zero], (h.pending i hi).2.1⟩ }

/-- The next page is of the process that the loop has at hand. -/
theorem ScanInv.enterProcess (h : d.ScanInv delta first next runs n v s) :
    ∃ runs' n', d.ScanInv delta first next runs' n' v (d.enterProcess s next) ∧
      (d.enterProcess s next).asid = d.asid next ∧
      (d.enterProcess s next).oldVpage = s.oldVpage := by
  unfold CachedPages.enterProcess
  split
  · have hr := s.releasePending_released delta h.otherBytes
    obtain ⟨runs', h'⟩ := h.released (w := v) hr
    refine ⟨runs', 0, ?_, rfl, hr.oldVpage⟩
    exact
      { le := h'.le
        process := rfl
        otherBytes := h'.otherBytes
        bytes := h'.bytes
        begin := h'.begin
        pending := fun i hi => absurd hi (Nat.not_lt_zero i)
        follows := h'.follows
        names := h'.names
        covers := by simpa using h'.covers }
  · next ha => exact ⟨runs, n, h, not_not.1 ha, rfl⟩

theorem vpage_lt (d : CachedPages) (page : ℕ) : d.vpage page < 2 ^ 27 := by
  unfold vpage
  omega

/-- The next page goes on with the pending run. -/
theorem ScanInv.enterPage (h : d.ScanInv delta first next runs n (s.oldVpage + 1) s) :
    ∃ runs' n', d.ScanInv delta first next runs' n' (d.vpage next) (d.enterPage s next) ∧
      (d.enterPage s next).asid = s.asid ∧ (d.enterPage s next).oldVpage = d.vpage next := by
  unfold CachedPages.enterPage
  split
  · have hr := s.releasePending_released delta h.otherBytes
    obtain ⟨runs', h'⟩ := h.released (w := d.vpage next) hr
    exact ⟨runs', 0, { h' with }, hr.asid, rfl⟩
  · next hv =>
    refine ⟨runs, n, { h with follows := fun hn => ?_ }, rfl, rfl⟩
    have hf := h.follows hn
    have hlast := (h.pending (n - 1) (by omega)).2.1
    have hlt := d.vpage_lt (next - n + (n - 1))
    rw [not_not.1 hv, ← hf]
    omega

theorem markedPages_succ (hle : first ≤ next) : d.markedPages delta first (next + 1) =
    d.markedPages delta first next ++ if d.marked delta next then [next] else [] := by
  rw [markedPages, markedPages, show next + 1 - first = next - first + 1 by omega,
    range'_concat, filter_append, show first + 1 * (next - first) = next by omega]
  simp [filter_cons]

/-- A page that nobody is told about, behind no run. -/
theorem ScanInv.skip (h : d.ScanInv delta first next runs 0 v s) (hm : d.marked delta next = false) :
    d.ScanInv delta first (next + 1) runs 0 w s where
  le := Nat.le_succ_of_le h.le
  process := h.process
  otherBytes := h.otherBytes
  bytes := h.bytes
  begin h0 := absurd h0 (Nat.lt_irrefl 0)
  pending i hi := absurd hi (Nat.not_lt_zero i)
  follows h0 := absurd h0 (Nat.lt_irrefl 0)
  names := h.names
  covers := by
    have hle : first ≤ next := h.le
    rw [markedPages_succ hle, hm, ← h.covers]
    simp

/-! ### One page -/

/-- A counter that `delta` does not take around. -/
def Fits (delta : ℤ) (c : BitVec 8) : Prop := 0 ≤ (c.toNat : ℤ) + delta ∧ (c.toNat : ℤ) + delta < 256

/-- The run that the sign of `delta` allows goes on with a page. -/
structure Scan.Extended (s : Scan) (delta : ℤ) (vpage : ℕ) (s' : Scan) : Prop where
  count : s'.count = s.count
  asid : s'.asid = s.asid
  process : s'.memoryDeviceInter = s.memoryDeviceInter
  oldVpage : s'.oldVpage = s.oldVpage
  begin : s'.begin delta = if s.bytes delta = 0 then vpage else s.begin delta
  bytes : s'.bytes delta = s.bytes delta + 4096
  otherBytes : s'.otherBytes delta = 0
  calls : s'.calls = s.calls

/-- The counter of a transition, after the addition. -/
theorem transition_iff (hd : delta = 1 ∨ delta = -1) {c : BitVec 8} (hf : Fits delta c) :
    (c + BitVec.ofInt 8 delta = if 0 < delta then 1 else 0) ↔ c = if 0 < delta then 0 else 1 := by
  obtain rfl | rfl := hd
  · have h1 : BitVec.ofInt 8 1 = 1#8 := rfl
    simp only [h1, Int.zero_lt_one, if_true]
    constructor <;> intro h <;> bv_omega
  · have h1 : BitVec.ofInt 8 (-1) = 255#8 := rfl
    simp only [h1, show ¬(0 : ℤ) < -1 by decide, if_false]
    constructor <;> intro h <;> bv_omega

theorem add_ofInt_ne (hd : delta = 1 ∨ delta = -1) {c : BitVec 8} (hf : Fits delta c) :
    0 < delta → c + BitVec.ofInt 8 delta ≠ 0 := by
  obtain rfl | rfl := hd
  · have h1 : BitVec.ofInt 8 1 = 1#8 := rfl
    unfold Fits at hf
    intro _ h
    rw [h1] at h
    bv_omega
  · exact fun h => absurd h (by decide)

theorem Scan.uncachePage_skip {page vpage : ℕ} (h : s.count page ≠ 0) (hb : s.uncacheBytes = 0) :
    s.uncachePage page vpage = .ret s true := by
  rw [uncachePage, if_neg h, if_neg (by omega), pure_eq]

theorem Scan.cachePage_skip {page vpage : ℕ} (h : ¬(s.count page = 1 ∧ delta > 0))
    (hb : s.cacheBytes = 0) : s.cachePage delta page vpage = .ret s true := by
  rw [cachePage, if_neg h, if_neg (by omega), pure_eq]

section

variable (hd : delta = 1 ∨ delta = -1) {page vpage : ℕ} {c : BitVec 8}
  (hc : s.count page = c + BitVec.ofInt 8 delta) (hf : Fits delta c)

include hd hc hf

/-- **A page with a transition** goes on with the run. -/
theorem cachePage_transition (ht : c = if 0 < delta then 0 else 1) (ho : s.otherBytes delta = 0) :
    ∃ s', (do let s ← s.uncachePage page vpage
              s.cachePage delta page vpage) = .ret s' true ∧ s.Extended delta vpage s' := by
  have hnew := (transition_iff hd hf).2 ht
  by_cases hpos : 0 < delta
  · have hne := add_ofInt_ne hd hf hpos
    simp only [hpos, if_true, Scan.otherBytes, ← hc] at hnew ho hne
    rw [Scan.uncachePage_skip hne ho, ret_true_bind, Scan.cachePage, if_pos ⟨hnew, hpos⟩]
    refine ⟨_, rfl, ?_⟩
    constructor <;> simp [Scan.begin, Scan.bytes, Scan.otherBytes, hpos, ho]
  · simp only [hpos, if_false, Scan.otherBytes, ← hc] at hnew ho
    rw [Scan.uncachePage, if_pos hnew, pure_eq, ret_true_bind, Scan.cachePage_skip]
    · refine ⟨_, rfl, ?_⟩
      constructor <;> simp [Scan.begin, Scan.bytes, Scan.otherBytes, hpos, ho]
    · exact fun h => hpos h.2
    · exact ho

/-- **A page without a transition** ends the run, and needs a process to tell. -/
theorem cachePage_other (ht : c ≠ if 0 < delta then 0 else 1) (ho : s.otherBytes delta = 0) :
    (s.bytes delta ≠ 0 ∧ s.memoryDeviceInter = none ∧ (do let s ← s.uncachePage page vpage
                                                          s.cachePage delta page vpage) = .fault) ∨
    ∃ s', (do let s ← s.uncachePage page vpage
              s.cachePage delta page vpage) = .ret s' true ∧ s.Released delta s' := by
  have hnew := mt (transition_iff hd hf).1 ht
  by_cases hpos : 0 < delta
  · have hne := add_ofInt_ne hd hf hpos
    simp only [hpos, if_true, Scan.otherBytes, ← hc] at hnew ho hne
    have hone : ¬(s.count page = 1 ∧ delta > 0) := fun h => hnew h.1
    rw [Scan.uncachePage_skip hne ho, ret_true_bind]
    by_cases hb : s.cacheBytes = 0
    · refine .inr ⟨s, Scan.cachePage_skip hone hb, ?_⟩
      constructor <;> simp [Scan.bytes, Scan.otherBytes, hpos, ho, hb]
    rw [Scan.cachePage, if_neg hone, if_pos (Nat.pos_of_ne_zero hb), Scan.markRegionCaching]
    cases hm : s.memoryDeviceInter with
    | none => exact .inl ⟨by simpa [Scan.bytes, hpos] using hb, rfl, rfl⟩
    | some process =>
      refine .inr ⟨_, rfl, ?_⟩
      constructor <;> simp [Scan.bytes, Scan.begin, Scan.otherBytes, hpos, ho, hb, hm]
  · simp only [hpos, if_false, Scan.otherBytes, ← hc] at hnew ho
    have hone : ∀ c : BitVec 8, ¬(c = 1 ∧ delta > 0) := fun _ h => hpos h.2
    by_cases hb : s.uncacheBytes = 0
    · refine .inr ⟨s, ?_, ?_⟩
      · rw [Scan.uncachePage_skip hnew hb, ret_true_bind, Scan.cachePage_skip (hone _) ho]
      · constructor <;> simp [Scan.bytes, Scan.otherBytes, hpos, ho, hb]
    rw [Scan.uncachePage, if_neg hnew, if_pos (Nat.pos_of_ne_zero hb), Scan.markRegionCaching]
    cases hm : s.memoryDeviceInter with
    | none => exact .inl ⟨by simpa [Scan.bytes, hpos] using hb, rfl, rfl⟩
    | some process =>
      simp only [pure_eq, ret_true_bind]
      rw [Scan.cachePage_skip]
      · refine .inr ⟨_, rfl, ?_⟩
        constructor <;> simp [Scan.bytes, Scan.begin, Scan.otherBytes, hpos, ho, hb, hm]
      · exact hone _
      · exact ho

end

/-- A transition makes the run longer. -/
theorem ScanInv.extend (h : d.ScanInv delta first next runs n (d.vpage next) s)
    (ha : s.asid = d.asid next) (ht : d.Transition delta next) (he : s.Extended delta (d.vpage next) s') :
    d.ScanInv delta first (next + 1) runs (n + 1) (d.vpage next + 1) s' where
  le := by have := h.le; omega
  process := by rw [he.process, he.asid, h.process]
  otherBytes := he.otherBytes
  bytes := by rw [he.bytes, h.bytes, Nat.add_mul, Nat.one_mul]
  begin _ := by
    rw [he.begin, h.bytes, Nat.succ_sub_succ]
    by_cases hn : n = 0
    · subst hn
      rfl
    · rw [if_neg (by omega), h.begin (Nat.pos_of_ne_zero hn)]
  pending i hi := by
    rw [Nat.succ_sub_succ, he.asid]
    have hle := h.le
    obtain hlt | rfl := Nat.lt_succ_iff_lt_or_eq.1 hi
    · exact h.pending i hlt
    · have hnext : next - i + i = next := by omega
      rw [hnext]
      refine ⟨ha.symm, ?_, ht⟩
      by_cases hn : i = 0
      · subst hn
        rfl
      · exact h.follows (Nat.pos_of_ne_zero hn)
  follows _ := by
    rw [Nat.succ_sub_succ]
    by_cases hn : n = 0
    · subst hn
      rfl
    · rw [h.follows (Nat.pos_of_ne_zero hn), Nat.add_assoc]
  names := by rw [he.calls]; exact h.names
  covers := by
    have hle := h.le
    have hproc : d.process next = s.memoryDeviceInter := by rw [CachedPages.process, h.process, ha]
    rw [markedPages_succ (by omega), ← h.covers, he.process, Nat.succ_sub_succ]
    cases hm : s.memoryDeviceInter with
    | none => simp [marked, hproc, hm]
    | some process =>
      have hnext : next - n + n = next := by omega
      simp [marked, hproc, hm, ht, range'_concat, hnext]

/-- **One page**: the scan goes on, or tells a null pointer about a run. -/
theorem scanPage_spec (hd : delta = 1 ∨ delta = -1) (hle : first ≤ next)
    (h : d.ScanInv delta first next runs n (s.oldVpage + 1) s)
    (hc : ∀ page, s.count page = d.counted delta first next page) (hf : Fits delta (d.count next)) :
    (d.scanPage delta s next = .fault ∧
      ∃ page, first ≤ page ∧ page < next ∧ d.Transition delta page ∧ d.process page = none) ∨
    ∃ s' runs' n', d.scanPage delta s next = .ret s' true ∧
      d.ScanInv delta first (next + 1) runs' n' (s'.oldVpage + 1) s' ∧
      ∀ page, s'.count page = d.counted delta first (next + 1) page := by
  have hcount : ∀ s₁ : Scan, s₁.count = s.count → ∀ page,
      (s₁.fetchAdd delta next).count page = d.counted delta first (next + 1) page :=
    fun s₁ h₁ page => by
      show Function.update s₁.count next (s₁.count next + BitVec.ofInt 8 delta) page = _
      rw [h₁, counted]
      by_cases hp : page = next
      · subst hp
        rw [Function.update_self, hc page, counted, if_neg (by omega), if_pos (by omega)]
      · rw [Function.update_of_ne hp, hc page, counted]
        exact if_congr (by omega) rfl rfl
  unfold scanPage
  by_cases hv : d.vpage next = 0
  · -- a page without a backing ends the run, whatever its counter
    rw [if_pos hv]
    have hfetch : d.ScanInv delta first next runs n (s.oldVpage + 1) (s.fetchAdd delta next) :=
      { h with }
    have hr := (s.fetchAdd delta next).releasePending_released delta hfetch.otherBytes
    obtain ⟨runs', h'⟩ := hfetch.released (w := 0) hr
    refine .inr ⟨_, runs', 0, rfl, h'.skip (by simp [marked, Transition, hv]), fun page => ?_⟩
    rw [hr.count]
    exact hcount s rfl page
  rw [if_neg hv]
  obtain ⟨runs₁, n₁, h₁, ha₁, ho₁⟩ := h.enterProcess
  rw [← ho₁] at h₁
  obtain ⟨runs₂, n₂, h₂, ha₂, ho₂⟩ := h₁.enterPage
  have hsame : (d.enterPage (d.enterProcess s next) next).count = s.count := by
    have hproc : (d.enterProcess s next).count = s.count := by
      unfold enterProcess
      split
      · exact (s.releasePending_released delta h.otherBytes).count
      · rfl
    unfold enterPage
    split
    · exact ((Scan.releasePending_released _ delta h₁.otherBytes).count).trans hproc
    · exact hproc
  generalize hs₂ : d.enterPage (d.enterProcess s next) next = s₂ at h₂ ha₂ ho₂ hsame ⊢
  have hadded := hcount s₂ hsame
  have hnew : (s₂.fetchAdd delta next).count next = d.count next + BitVec.ofInt 8 delta := by
    rw [hadded, counted, if_pos (by omega)]
  have h₃ : d.ScanInv delta first next runs₂ n₂ (d.vpage next) (s₂.fetchAdd delta next) := { h₂ with }
  by_cases ht : d.count next = if 0 < delta then 0 else 1
  · obtain ⟨s', hrun, he⟩ := @cachePage_transition _ _ hd _ (d.vpage next) _ hnew hf ht h₃.otherBytes
    refine .inr ⟨s', runs₂, n₂ + 1, hrun, ?_, fun page => by rw [he.count, hadded]⟩
    have hext := h₃.extend (ha₂.trans ha₁) ⟨hv, ht⟩ he
    rwa [← ho₂, ← show s'.oldVpage = s₂.oldVpage from he.oldVpage] at hext
  · obtain ⟨hb, hm, hfault⟩ | ⟨s', hrun, hr⟩ :=
      @cachePage_other _ _ hd _ (d.vpage next) _ hnew hf ht h₃.otherBytes
    · left
      refine ⟨hfault, ?_⟩
      rw [h₃.bytes] at hb
      have hpos : 0 < n₂ := by omega
      obtain ⟨hasid, -, htrans⟩ := h₃.pending 0 hpos
      have hle₂ := h₃.le
      refine ⟨next - n₂ + 0, by omega, by omega, htrans, ?_⟩
      rw [process, hasid, ← h₃.process, hm]
    · obtain ⟨runs₄, h₄⟩ := h₃.released (w := s'.oldVpage + 1) hr
      have hno : ¬d.Transition delta next := fun h => ht h.2
      exact .inr ⟨s', runs₄, 0, hrun, h₄.skip (by simp [marked, hno]), fun page => by rw [hr.count, hadded]⟩

/-! ### The range -/

/-- Whether a page is in a range. -/
theorem mem_pages {addr size page : ℕ} :
    page ∈ pages addr size ↔ addr / 4096 ≤ page ∧ page < (addr + size + 4095) / 4096 := by
  rw [pages, mem_range'_1]
  omega

theorem scanStart_inv (d : CachedPages) (delta : ℤ) (first : ℕ) :
    d.ScanInv delta first first [] 0 v (d.scanStart first) where
  le := le_rfl
  process := rfl
  otherBytes := by simp [Scan.otherBytes, scanStart]
  bytes := by simp [Scan.bytes, scanStart]
  begin h := absurd h (Nat.lt_irrefl 0)
  pending i hi := absurd hi (Nat.not_lt_zero i)
  follows h := absurd h (Nat.lt_irrefl 0)
  names := .nil
  covers := by simp [markedPages]

/-- **The loop** over so many pages. -/
theorem scanPages_spec (hd : delta = 1 ∨ delta = -1) (first k : ℕ)
    (hf : ∀ page, first ≤ page → page < first + k → Fits delta (d.count page)) :
    ((range' first k).foldlM (d.scanPage delta) (d.scanStart first) = .fault ∧
      ∃ page, first ≤ page ∧ page < first + k ∧ d.Transition delta page ∧ d.process page = none) ∨
    ∃ s' runs' n', (range' first k).foldlM (d.scanPage delta) (d.scanStart first) = .ret s' true ∧
      d.ScanInv delta first (first + k) runs' n' (s'.oldVpage + 1) s' ∧
      ∀ page, s'.count page = d.counted delta first (first + k) page := by
  induction k with
  | zero =>
    refine .inr ⟨d.scanStart first, [], 0, rfl, d.scanStart_inv delta first, fun page => ?_⟩
    rw [counted, if_neg (by omega)]
    rfl
  | succ k ih =>
    have hlast : first + 1 * k = first + k := by omega
    rw [range'_concat, foldlM_append, hlast]
    obtain ⟨hfault, page, h1, h2, h3⟩ | ⟨s, runs, n, hrun, hinv, hcount⟩ :=
      ih fun page h1 h2 => hf page h1 (by omega)
    · left
      rw [hfault]
      exact ⟨rfl, page, h1, by omega, h3⟩
    · rw [hrun, ret_true_bind]
      simp only [foldlM_cons, foldlM_nil, bind_pure]
      obtain ⟨hfault, page, h1, h2, h3⟩ | h :=
        scanPage_spec hd (Nat.le_add_right first k) hinv hcount (hf _ (by omega) (by omega))
      · exact .inl ⟨hfault, page, h1, by omega, h3⟩
      · exact .inr h

/-- **`UpdatePagesCachedCount` tells exactly the transitions.**  Unless it tells a null pointer, which
takes a transition without a process, every counter of the range changes by `delta` and no other, and
the calls name, each in one run of one process, all pages of the range whose counter goes from zero to
one or from one to zero and that have a process, in order, once each. -/
theorem updatePagesCachedCount_exact (d : CachedPages) (addr size : ℕ) {delta : ℤ}
    (hd : delta = 1 ∨ delta = -1) (hf : ∀ page ∈ pages addr size, Fits delta (d.count page)) :
    (d.updatePagesCachedCount addr size delta = .fault →
      ∃ page ∈ pages addr size, d.Transition delta page ∧ d.process page = none) ∧
    ∀ d' calls held, d.updatePagesCachedCount addr size delta = .ret (d', calls) held →
      (∀ page, ((d'.count page).toNat : ℤ) =
        (d.count page).toNat + if page ∈ pages addr size then delta else 0) ∧
      ∃ runs, List.Forall₂ (d.Names delta) runs calls ∧
        runs.flatMap runPages = (pages addr size).filter fun page =>
          decide (d.Transition delta page) && (d.process page).isSome := by
  have hend : addr / 4096 + ((addr + size + 4095) / 4096 - addr / 4096) =
      (addr + size + 4095) / 4096 := by omega
  have hloop := scanPages_spec hd (addr / 4096) ((addr + size + 4095) / 4096 - addr / 4096)
    fun page h1 h2 => hf page (mem_pages.2 ⟨h1, by omega⟩)
  rw [hend] at hloop
  change (pages addr size).foldlM _ _ = _ ∧ _ ∨
    ∃ s' runs' n', (pages addr size).foldlM _ _ = _ ∧ _ at hloop
  rw [updatePagesCachedCount]
  obtain ⟨hfault, page, h1, h2, ht, hp⟩ | ⟨s, runs, n, hrun, hinv, hcount⟩ := hloop
  · rw [hfault]
    exact ⟨fun _ => ⟨page, mem_pages.2 ⟨h1, h2⟩, ht, hp⟩, fun _ _ _ h => by cases h⟩
  · rw [hrun]
    refine ⟨fun h => (by cases h), fun d' calls held h => ?_⟩
    have hr := s.releasePending_released delta hinv.otherBytes
    obtain ⟨runs', hinv'⟩ := hinv.released (w := 0) hr
    rw [Exec.ret_true_bind, Exec.pure_eq] at h
    cases h
    refine ⟨fun page => ?_, runs', hinv'.names, ?_⟩
    · have hpage : s.releasePending.count page =
          if page ∈ pages addr size then d.count page + BitVec.ofInt 8 delta else d.count page := by
        rw [hr.count, hcount, counted]
        exact if_congr mem_pages.symm rfl rfl
      show ((s.releasePending.count page).toNat : ℤ) = _
      rw [hpage]
      split
      · next hmem =>
        have hfit := hf page hmem
        unfold Fits at hfit
        obtain rfl | rfl := hd
        · rw [show BitVec.ofInt 8 1 = 1#8 from rfl, BitVec.toNat_add]
          simp only [BitVec.toNat_ofNat]
          omega
        · rw [show BitVec.ofInt 8 (-1) = 255#8 from rfl, BitVec.toNat_add]
          simp only [BitVec.toNat_ofNat]
          omega
      · rw [Int.add_zero]
    · have hcovers := hinv'.covers
      simp only [List.range'_zero, ite_self, List.append_nil] at hcovers
      exact hcovers

/-- Pages 1 and 2 have the virtual pages 7 and 8 of process 5, page 3 has page 9 of an identifier whose
process has been unregistered. -/
def twoRegisteredPages : CachedPages where
  cpuBackingAddress page :=
    if page = 1 then 0x7000 else if page = 2 then 0x8000 else if page = 3 then 0x8000009000 else 0
  registeredProcesses := [some 5, none]
  count _ := 0

/-- Both pages begin to be cached, at addresses of the process, in two calls or in one. -/
theorem updatePagesCachedCount_exact_registered :
    ∃ d' calls held, twoRegisteredPages.updatePagesCachedCount 0x1000 0x2000 1 = .ret (d', calls) held ∧
      ∃ runs, List.Forall₂ (twoRegisteredPages.Names 1) runs calls ∧ runs.flatMap runPages = [1, 2] := by
  have hfits : ∀ page ∈ pages 0x1000 0x2000, Fits 1 (twoRegisteredPages.count page) := fun _ _ => by
    simp [Fits, twoRegisteredPages]
  obtain ⟨hfault, hret⟩ :=
    updatePagesCachedCount_exact twoRegisteredPages 0x1000 0x2000 (.inl rfl) hfits
  cases hrun : twoRegisteredPages.updatePagesCachedCount 0x1000 0x2000 1 with
  | fault =>
    obtain ⟨page, hmem, -, hnone⟩ := hfault hrun
    rw [mem_pages] at hmem
    obtain rfl | rfl : page = 1 ∨ page = 2 := by omega
    · cases hnone
    · cases hnone
  | ret r held =>
    obtain ⟨-, runs, hnames, hcovers⟩ := hret r.1 r.2 held hrun
    exact ⟨r.1, r.2, held, rfl, runs, hnames, hcovers⟩

/-- A page whose process is not registered is not told about its transition. -/
theorem updatePagesCachedCount_unregistered :
    ∃ d', twoRegisteredPages.updatePagesCachedCount 0x3000 0x1000 1 = .ret (d', []) true ∧
      twoRegisteredPages.vpage 3 = 9 ∧ twoRegisteredPages.count 3 = 0 ∧ d'.count 3 = 1 :=
  ⟨_, rfl, rfl, rfl, rfl⟩

end CachedPages
end Core
end NXEmu
