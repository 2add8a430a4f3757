/-
# The sparse regions of a memory manager

`yuzu_video_core/memory_manager.cpp`: the map `sparse_regions` from the start of a region to its end.  `MapSparse`
merges its range with the regions that it overlaps, `Unmap` cuts its range out, and `GetSparseRegion` looks an
address up.  Both loops begin at the first region that ends behind the start of their range.  Ranges are those of an
address space of less than 64 bits: their ends do not wrap around.

After any requests the regions are not empty, sorted and apart, an address is in one of them when the last request
that mapped it sparsely or unmapped it was of the first kind, and a lookup finds the region of an address
(`sparseRegions_exact`).
-/

import NXEmu.Lib.Live
import NXEmu.Lib.OrderedMap
import NXEmu.VideoCore.MemoryManagerRuns
import Mathlib.Data.List.Induction

namespace NXEmu
namespace Tegra

open List

/-- The sparse regions, in the order of `sparse_regions`, and `has_sparse_regions`. -/
structure SparseRegions where
  regions : List (ℕ × ℕ)
  hasSparseRegions : Bool

namespace SparseRegions

/-- No region. -/
def empty : SparseRegions := ⟨[], false⟩

/-- `GetSparseRegion`: the begin and the size of the region of an address. -/
def getSparseRegion (s : SparseRegions) (gpuAddr : ℕ) : Option (ℕ × ℕ) :=
  if !s.hasSparseRegions then none
  else
    -- the entry before `upper_bound(gpu_addr)`
    match (s.regions.takeWhile fun r => r.1 ≤ gpuAddr).getLast? with
    | none => none
    | some it => if it.2 ≤ gpuAddr then none else some (it.1, it.2 - it.1)

/-- The iterator that both loops begin with: the entries before it, and those from it on. -/
def startAt (regions : List (ℕ × ℕ)) (gpuAddr : ℕ) : List (ℕ × ℕ) × List (ℕ × ℕ) :=
  let before := regions.takeWhile fun r => r.1 ≤ gpuAddr
  let it := regions.dropWhile fun r => r.1 ≤ gpuAddr
  match before.getLast? with
  | none => (before, it)
  | some previous => if gpuAddr < previous.2 then (before.dropLast, previous :: it) else (before, it)

/-- The loop of `MapSparse`: the merged region, and the entries that are left from the iterator on. -/
def merge (start stop : ℕ) : List (ℕ × ℕ) → (ℕ × ℕ) × List (ℕ × ℕ)
  | [] => ((start, stop), [])
  | region :: it =>
    if region.1 < stop then merge (min start region.1) (max stop region.2) it
    else ((start, stop), region :: it)

/-- What `MapSparse` does to the regions. -/
def mapSparse (s : SparseRegions) (gpuAddr size : ℕ) : SparseRegions :=
  let (before, it) := startAt s.regions gpuAddr
  let (merged, it) := merge gpuAddr (gpuAddr + size) it
  ⟨OrderedMap.emplaceEntry merged.1 merged.2 (before ++ it), true⟩

/-- The loop of `Unmap`, with the entries before its iterator and those from it on.  What is left of a region goes
back before the iterator: it begins inside the region that was erased. -/
def cut (gpuAddr unmapEnd : ℕ) (before : List (ℕ × ℕ)) : List (ℕ × ℕ) → List (ℕ × ℕ)
  | [] => before
  | region :: it =>
    if region.1 < unmapEnd then
      let before := if region.1 < gpuAddr then OrderedMap.emplaceEntry region.1 gpuAddr before else before
      let before := if unmapEnd < region.2 then OrderedMap.emplaceEntry unmapEnd region.2 before else before
      cut gpuAddr unmapEnd before it
    else before ++ region :: it

/-- What `Unmap` does to the regions. -/
def unmap (s : SparseRegions) (gpuAddr size : ℕ) : SparseRegions :=
  if size = 0 then s
  else
    let (before, it) := startAt s.regions gpuAddr
    let regions := cut gpuAddr (gpuAddr + size) before it
    ⟨regions, !regions.isEmpty⟩

/-- What a request does to the regions. -/
def step (s : SparseRegions) : Request → SparseRegions
  | .map .. => s
  | .mapSparse gpuAddr size _ => s.mapSparse gpuAddr size
  | .unmap gpuAddr size => s.unmap gpuAddr size

/-- The regions after some requests. -/
def run (requests : List Request) : SparseRegions := requests.foldl step empty

/-! ### Regions as sets of addresses -/

variable {regions before it : List (ℕ × ℕ)} {region : ℕ × ℕ} {gpuAddr size start stop a : ℕ} {s : SparseRegions}

/-- An address in one of the regions. -/
def Mem (regions : List (ℕ × ℕ)) (a : ℕ) : Prop := ∃ r ∈ regions, r.1 ≤ a ∧ a < r.2

/-- The regions are not empty, sorted and apart. -/
structure Valid (regions : List (ℕ × ℕ)) : Prop where
  nonempty : ∀ r ∈ regions, r.1 < r.2
  apart : regions.Pairwise fun r r' => r.2 ≤ r'.1

@[simp] theorem mem_nil : ¬Mem [] a := by simp [Mem]

@[simp] theorem mem_cons : Mem (region :: regions) a ↔ (region.1 ≤ a ∧ a < region.2) ∨ Mem regions a := by
  simp [Mem]

@[simp] theorem mem_append : Mem (before ++ it) a ↔ Mem before a ∨ Mem it a := by
  simp [Mem, or_and_right, exists_or]

theorem valid_nil : Valid [] := ⟨by simp, List.Pairwise.nil⟩

theorem valid_cons : Valid (region :: regions) ↔
    region.1 < region.2 ∧ (∀ r ∈ regions, region.2 ≤ r.1) ∧ Valid regions := by
  constructor
  · rintro ⟨hne, hapart⟩
    obtain ⟨hfirst, hrest⟩ := pairwise_cons.1 hapart
    exact ⟨hne _ mem_cons_self, hfirst, fun r hr => hne r (mem_cons_of_mem _ hr), hrest⟩
  · rintro ⟨hne, hfirst, hvalid⟩
    exact ⟨forall_mem_cons.2 ⟨hne, hvalid.nonempty⟩, pairwise_cons.2 ⟨hfirst, hvalid.apart⟩⟩

theorem valid_append : Valid (before ++ it) ↔ Valid before ∧ Valid it ∧ ∀ r ∈ before, ∀ r' ∈ it, r.2 ≤ r'.1 := by
  constructor
  · rintro ⟨hne, hapart⟩
    obtain ⟨hbefore, hit, hboth⟩ := pairwise_append.1 hapart
    exact ⟨⟨fun r hr => hne r (mem_append_left _ hr), hbefore⟩,
      ⟨fun r hr => hne r (mem_append_right _ hr), hit⟩, hboth⟩
  · rintro ⟨hbefore, hit, hboth⟩
    refine ⟨fun r hr => ?_, pairwise_append.2 ⟨hbefore.apart, hit.apart, hboth⟩⟩
    rcases List.mem_append.1 hr with hr | hr
    · exact hbefore.nonempty r hr
    · exact hit.nonempty r hr

/-- The starts of regions ascend. -/
theorem Valid.sorted (h : Valid regions) : regions.Pairwise fun r r' => r.1 < r'.1 := by
  refine h.apart.imp_of_mem fun hr _ hle => ?_
  exact (h.nonempty _ hr).trans_le hle

/-- An address is in one region only. -/
theorem Valid.eq_of_mem {region' : ℕ × ℕ} (h : Valid regions) (hmem : region ∈ regions) (hmem' : region' ∈ regions)
    (hin : region.1 ≤ a ∧ a < region.2) (hin' : region'.1 ≤ a ∧ a < region'.2) : region = region' := by
  obtain ⟨before, it, rfl⟩ := append_of_mem hmem
  obtain ⟨-, hright, hapart⟩ := valid_append.1 h
  obtain ⟨-, hfirst, -⟩ := valid_cons.1 hright
  rcases List.mem_append.1 hmem' with hleft | hright'
  · have := hapart region' hleft region mem_cons_self
    omega
  · rcases List.mem_cons.1 hright' with rfl | hlater
    · rfl
    · have := hfirst region' hlater
      omega

/-- The entries before `upper_bound(gpu_addr)` and those from it on. -/
theorem Valid.exists_upperBound (h : Valid regions) (gpuAddr : ℕ) : ∃ l r, regions = l ++ r ∧
    (regions.takeWhile fun r => r.1 ≤ gpuAddr) = l ∧ (regions.dropWhile fun r => r.1 ≤ gpuAddr) = r ∧
    (∀ e ∈ l, e.1 ≤ gpuAddr) ∧ ∀ e ∈ r, gpuAddr < e.1 := by
  obtain ⟨l, r, heq, hl, hr⟩ := OrderedMap.exists_split ⟨regions, h.sorted⟩ (p := fun k => decide (k ≤ gpuAddr))
    fun k k' hlt hle => by simp only [decide_eq_true_eq] at hle ⊢; omega
  obtain ⟨htake, hdrop⟩ := OrderedMap.takeWhile_split (p := fun e : ℕ × ℕ => decide (e.1 ≤ gpuAddr)) hl hr
  dsimp only at heq
  subst heq
  exact ⟨l, r, rfl, htake, hdrop, by simpa using hl, by simpa using hr⟩

/-- **The iterator of both loops** is at the first region that ends behind the address. -/
theorem startAt_spec (h : Valid regions) (gpuAddr : ℕ) : ∃ before it, startAt regions gpuAddr = (before, it) ∧
    regions = before ++ it ∧ (∀ r ∈ before, r.2 ≤ gpuAddr) ∧ ∀ r ∈ it, gpuAddr < r.2 := by
  obtain ⟨l, r, rfl, htake, hdrop, hl, hr⟩ := h.exists_upperBound gpuAddr
  have hit : ∀ e ∈ r, gpuAddr < e.2 := fun e he =>
    (hr e he).trans (h.nonempty e (mem_append_right l he))
  rw [startAt]
  simp only [htake, hdrop]
  rcases l.eq_nil_or_concat with rfl | ⟨l, previous, rfl⟩
  · exact ⟨[], r, rfl, rfl, by simp, hit⟩
  · rw [concat_eq_append, append_assoc, singleton_append] at h ⊢
    obtain ⟨-, -, hapart⟩ := valid_append.1 h
    -- the regions before the previous one end where it starts
    have hends : ∀ e ∈ l, e.2 ≤ gpuAddr := fun e he =>
      (hapart e he previous mem_cons_self).trans (hl previous (by simp))
    simp only [getLast?_append, getLast?_singleton, Option.some_or, dropLast_concat]
    split_ifs with hprevious
    · refine ⟨l, previous :: r, rfl, rfl, hends, forall_mem_cons.2 ⟨hprevious, hit⟩⟩
    · refine ⟨l ++ [previous], r, rfl, by simp, fun e he => ?_, hit⟩
      rcases List.mem_append.1 he with he | he
      · exact hends e he
      · rw [mem_singleton.1 he]
        exact not_lt.1 hprevious

/-! ### The loops -/

/-- **The loop of `MapSparse`** merges regions that overlap: what is merged, with what is left, is the range and the
regions. -/
theorem merge_spec (hvalid : Valid it) (hlt : start < stop) (hit : ∀ r ∈ it, start < r.2) {low : ℕ}
    (hlow : low ≤ start) (hlows : ∀ r ∈ it, low ≤ r.1) :
    ∃ b e it', merge start stop it = ((b, e), it') ∧ low ≤ b ∧ Valid ((b, e) :: it') ∧
      ∀ a, Mem ((b, e) :: it') a ↔ (start ≤ a ∧ a < stop) ∨ Mem it a := by
  induction it generalizing start stop with
  | nil => exact ⟨start, stop, [], rfl, hlow, valid_cons.2 ⟨hlt, by simp, valid_nil⟩, by simp⟩
  | cons region it ih =>
    obtain ⟨hne, hfirst, hrest⟩ := valid_cons.1 hvalid
    obtain ⟨hregion, hothers⟩ := forall_mem_cons.1 hit
    rw [merge]
    split_ifs with hover
    · obtain ⟨b, e, it', heq, hb, hvalid', hmem⟩ := ih hrest
        (show min start region.1 < max stop region.2 by omega) (fun r hr => by have := hothers r hr; omega)
        (by have := hlows region mem_cons_self; omega) fun r hr => hlows r (mem_cons_of_mem _ hr)
      refine ⟨b, e, it', heq, hb, hvalid', fun a => ?_⟩
      rw [hmem, mem_cons, ← or_assoc]
      refine or_congr_left ?_
      omega
    · refine ⟨start, stop, region :: it, rfl, hlow, valid_cons.2 ⟨hlt, ?_, hvalid⟩, fun a => mem_cons⟩
      refine forall_mem_cons.2 ⟨not_lt.1 hover, fun r hr => ?_⟩
      have := hfirst r hr
      omega

/-- **`MapSparse`** adds its range. -/
theorem mapSparse_spec (h : Valid s.regions) (gpuAddr : ℕ) (hsize : 0 < size) :
    Valid (s.mapSparse gpuAddr size).regions ∧ (s.mapSparse gpuAddr size).regions ≠ [] ∧
    ∀ a, Mem (s.mapSparse gpuAddr size).regions a ↔ Mem s.regions a ∨ (gpuAddr ≤ a ∧ a < gpuAddr + size) := by
  obtain ⟨before, it, hstart, hregions, hbefore, hit⟩ := startAt_spec h gpuAddr
  rw [hregions] at h
  obtain ⟨hleft, hright, hapart⟩ := valid_append.1 h
  obtain ⟨low, hlow, hlows, hends⟩ : ∃ low, low ≤ gpuAddr ∧ (∀ r ∈ it, low ≤ r.1) ∧ ∀ r ∈ before, r.2 ≤ low := by
    rcases before.eq_nil_or_concat with rfl | ⟨l, last, rfl⟩
    · exact ⟨0, Nat.zero_le _, fun r _ => Nat.zero_le _, by simp⟩
    · rw [concat_eq_append] at *
      refine ⟨last.2, hbefore last (by simp), hapart last (by simp), fun r hr => ?_⟩
      rcases List.mem_append.1 hr with hr | hr
      · have := (valid_append.1 hleft).2.2 r hr last (by simp)
        have := hleft.nonempty last (by simp)
        omega
      · rw [mem_singleton.1 hr]
  obtain ⟨b, e, it', hmerge, hb, hvalid', hmem⟩ := merge_spec hright (show gpuAddr < gpuAddr + size by omega) hit
    hlow hlows
  obtain ⟨hbe, hfirst, hrest⟩ := valid_cons.1 hvalid'
  have hplace : OrderedMap.emplaceEntry b e (before ++ it') = before ++ (b, e) :: it' := by
    rw [OrderedMap.emplaceEntry_append, OrderedMap.emplaceEntry_of_lt]
    · intro r hr
      have := hfirst r hr
      simp only at hbe this
      omega
    · intro r hr
      have := hends r hr
      have := hleft.nonempty r hr
      omega
  have hresult : (s.mapSparse gpuAddr size).regions = before ++ (b, e) :: it' := by
    simp only [mapSparse, hstart, hmerge, hplace]
  rw [hresult, hregions]
  refine ⟨valid_append.2 ⟨hleft, hvalid', fun r hr r' hr' => ?_⟩, by simp, fun a => ?_⟩
  · have hle := (hends r hr).trans hb
    rcases List.mem_cons.1 hr' with rfl | hr'
    · exact hle
    · have := hfirst r' hr'
      simp only at hbe this
      omega
  · rw [mem_append, hmem, mem_append]
    tauto

theorem cut_of_le (h : ∀ r ∈ it, stop ≤ r.1) : cut gpuAddr stop before it = before ++ it := by
  cases it with
  | nil => rw [cut, append_nil]
  | cons region it => rw [cut, if_neg (not_lt.2 (h region mem_cons_self))]

theorem emplaceEntry_last {k v : ℕ} (h : ∀ r ∈ regions, r.1 < k) :
    OrderedMap.emplaceEntry k v regions = regions ++ [(k, v)] := by
  rw [← append_nil regions, OrderedMap.emplaceEntry_append h, append_nil, OrderedMap.emplaceEntry_of_lt]
  simp

/-- What is left of a region outside of a range. -/
def outside (gpuAddr stop : ℕ) (region : ℕ × ℕ) : List (ℕ × ℕ) :=
  (if region.1 < gpuAddr then [(region.1, gpuAddr)] else []) ++ if stop < region.2 then [(stop, region.2)] else []

theorem mem_outside (hlt : gpuAddr < stop) (hover : region.1 < stop) (hregion : gpuAddr < region.2) :
    Mem (outside gpuAddr stop region) a ↔ (region.1 ≤ a ∧ a < region.2) ∧ ¬(gpuAddr ≤ a ∧ a < stop) := by
  rw [outside, mem_append]
  split_ifs <;> simp only [mem_cons, mem_nil, or_false, false_or, false_iff] <;> omega

theorem valid_outside (hlt : gpuAddr < stop) : Valid (outside gpuAddr stop region) := by
  rw [outside]
  split_ifs with hfront hback hback
  · simp [valid_cons, valid_nil, hfront, hback, hlt.le]
  · simp [valid_cons, valid_nil, hfront]
  · simp [valid_cons, valid_nil, hback]
  · exact valid_nil

theorem outside_bounds (hover : region.1 < stop) (hregion : gpuAddr < region.2) :
    ∀ r ∈ outside gpuAddr stop region, region.1 ≤ r.1 ∧ r.2 ≤ region.2 := by
  rw [outside]
  split_ifs <;> simp <;> omega

/-- One round of the loop of `Unmap` puts what is left of its region before the iterator. -/
theorem cut_cons (hlt : gpuAddr < stop) (hover : region.1 < stop) (hbefore : ∀ r ∈ before, r.1 < gpuAddr)
    (hstarts : ∀ r ∈ before, r.1 < region.1) :
    cut gpuAddr stop before (region :: it) = cut gpuAddr stop (before ++ outside gpuAddr stop region) it := by
  rw [cut, if_pos hover, outside]
  have hfront : (if region.1 < gpuAddr then OrderedMap.emplaceEntry region.1 gpuAddr before else before) =
      before ++ if region.1 < gpuAddr then [(region.1, gpuAddr)] else [] := by
    split_ifs
    · exact emplaceEntry_last hstarts
    · rw [append_nil]
  simp only [hfront]
  rw [← append_assoc]
  congr 1
  generalize hleft : before ++ (if region.1 < gpuAddr then [(region.1, gpuAddr)] else []) = left
  split_ifs with hback
  · refine emplaceEntry_last fun r hr => ?_
    rw [← hleft] at hr
    rcases List.mem_append.1 hr with hr | hr
    · exact (hbefore r hr).trans hlt
    · split_ifs at hr
      · rw [mem_singleton.1 hr]
        exact hover
      · cases hr
  · rw [append_nil]

/-- **The loop of `Unmap`** leaves of the regions what is outside of its range. -/
theorem cut_spec (hvalid : Valid (before ++ it)) (hlt : gpuAddr < stop) (hbefore : ∀ r ∈ before, r.2 ≤ gpuAddr)
    (hit : ∀ r ∈ it, gpuAddr < r.2) : Valid (cut gpuAddr stop before it) ∧
      ∀ a, Mem (cut gpuAddr stop before it) a ↔ Mem (before ++ it) a ∧ ¬(gpuAddr ≤ a ∧ a < stop) := by
  induction it generalizing before with
  | nil =>
    rw [cut, append_nil] at *
    refine ⟨hvalid, fun a => (and_iff_left_of_imp ?_).symm⟩
    rintro ⟨r, hr, hlow, hhigh⟩
    have := hbefore r hr
    omega
  | cons region it ih =>
    obtain ⟨hleft, hright, hapart⟩ := valid_append.1 hvalid
    obtain ⟨hne, hfirst, hrest⟩ := valid_cons.1 hright
    obtain ⟨hregion, hothers⟩ := forall_mem_cons.1 hit
    have hends : ∀ r ∈ before, r.2 ≤ region.1 := fun r hr => hapart r hr region mem_cons_self
    by_cases hover : region.1 < stop
    · rw [cut_cons hlt hover (fun r hr => (hleft.nonempty r hr).trans_le (hbefore r hr))
        fun r hr => (hleft.nonempty r hr).trans_le (hends r hr)]
      have hbounds := outside_bounds hover hregion
      have hcut : Valid (before ++ outside gpuAddr stop region ++ it) := by
        refine valid_append.2 ⟨valid_append.2 ⟨hleft, valid_outside hlt, fun r hr r' hr' => ?_⟩, hrest,
          fun r hr r' hr' => ?_⟩
        · exact (hends r hr).trans (hbounds r' hr').1
        · rcases List.mem_append.1 hr with hr | hr
          · exact hapart r hr r' (mem_cons_of_mem _ hr')
          · exact (hbounds r hr).2.trans (hfirst r' hr')
      have houtside : ∀ a, Mem (before ++ outside gpuAddr stop region ++ it) a ∧ ¬(gpuAddr ≤ a ∧ a < stop) ↔
          Mem (before ++ region :: it) a ∧ ¬(gpuAddr ≤ a ∧ a < stop) := fun a => by
        rw [mem_append, mem_append, mem_append, mem_cons, mem_outside hlt hover hregion]
        tauto
      by_cases hback : stop < region.2
      · -- the loop ends: the other regions are behind the range
        rw [cut_of_le fun r hr => hback.le.trans (hfirst r hr)]
        refine ⟨hcut, fun a => ?_⟩
        rw [← houtside, iff_self_and]
        rintro hmem ⟨hlow, hhigh⟩
        rcases mem_append.1 hmem with hmem | ⟨r, hr, hr1, -⟩
        · rcases mem_append.1 hmem with ⟨r, hr, -, hr2⟩ | hmem
          · have := hbefore r hr
            omega
          · exact ((mem_outside hlt hover hregion).1 hmem).2 ⟨hlow, hhigh⟩
        · have := hfirst r hr
          omega
      · obtain ⟨hvalid', hmem⟩ := ih hcut (fun r hr => by
            rcases List.mem_append.1 hr with hr | hr
            · exact hbefore r hr
            · rw [outside, if_neg hback, append_nil] at hr
              split_ifs at hr
              · rw [mem_singleton.1 hr]
              · cases hr) hothers
        exact ⟨hvalid', fun a => (hmem a).trans (houtside a)⟩
    · rw [cut_of_le (forall_mem_cons.2 ⟨not_lt.1 hover, fun r hr => ?_⟩)]
      · refine ⟨hvalid, fun a => (and_iff_left_of_imp ?_).symm⟩
        rintro ⟨r, hr, hlow, hhigh⟩
        rcases List.mem_append.1 hr with hr | hr
        · have := hbefore r hr
          omega
        · rcases List.mem_cons.1 hr with rfl | hr
          · omega
          · have := hfirst r hr
            omega
      · have := hfirst r hr
        omega

/-- **`Unmap`** takes its range out. -/
theorem unmap_spec (h : Valid s.regions) (hflag : s.hasSparseRegions = !s.regions.isEmpty) (gpuAddr size : ℕ) :
    Valid (s.unmap gpuAddr size).regions ∧
    (s.unmap gpuAddr size).hasSparseRegions = !(s.unmap gpuAddr size).regions.isEmpty ∧
    ∀ a, Mem (s.unmap gpuAddr size).regions a ↔ Mem s.regions a ∧ ¬(gpuAddr ≤ a ∧ a < gpuAddr + size) := by
  rw [unmap]
  split_ifs with hsize
  · refine ⟨h, hflag, fun a => ?_⟩
    rw [hsize, iff_self_and]
    omega
  · obtain ⟨before, it, hstart, hregions, hbefore, hit⟩ := startAt_spec h gpuAddr
    rw [hregions] at h ⊢
    rw [hregions] at hstart
    simp only [hstart]
    obtain ⟨hvalid, hmem⟩ := cut_spec h (show gpuAddr < gpuAddr + size by omega) hbefore hit
    exact ⟨hvalid, trivial, hmem⟩

/-- **`GetSparseRegion`** finds the region of an address. -/
theorem getSparseRegion_spec (h : Valid s.regions) (hflag : s.hasSparseRegions = !s.regions.isEmpty) :
    match s.getSparseRegion a with
    | none => ¬Mem s.regions a
    | some (start, size) => (start, start + size) ∈ s.regions ∧ start ≤ a ∧ a < start + size := by
  obtain ⟨l, r, heq, htake, hdrop, hl, hr⟩ := h.exists_upperBound a
  have hright : ¬Mem r a := by
    rintro ⟨e, he, hlow, -⟩
    have := hr e he
    omega
  rw [getSparseRegion, hflag, Bool.not_not, htake]
  rw [heq] at h ⊢
  split_ifs with hempty
  · rw [isEmpty_iff.1 hempty]
    exact mem_nil
  · rcases l.eq_nil_or_concat with rfl | ⟨l, it, rfl⟩
    · simpa using hright
    · simp only [concat_eq_append, getLast?_append, getLast?_singleton, Option.some_or] at *
      obtain ⟨hleft, -, hapart⟩ := valid_append.1 h
      obtain ⟨-, hit, hends⟩ := valid_append.1 hleft
      have hlow : it.1 ≤ a := hl it (by simp)
      split_ifs with hend
      · -- the regions in front end where this one starts
        have hfront : ¬Mem l a := by
          rintro ⟨e, he, -, hhigh⟩
          have := hends e he it (by simp)
          omega
        simp only [mem_append, mem_cons, mem_nil, hright, hfront, or_false, false_or]
        omega
      · have hne := hit.nonempty it (by simp)
        have hsize : it.1 + (it.2 - it.1) = it.2 := by omega
        simp only [hsize]
        exact ⟨by simp, hlow, not_le.1 hend⟩

/-! ### Runs -/

/-- A request that maps an address sparsely. -/
def MapsSparse (a : ℕ) (request : Request) : Prop :=
  ∃ gpuAddr size isBigPages, request = .mapSparse gpuAddr size isBigPages ∧ gpuAddr ≤ a ∧ a < gpuAddr + size

/-- A request that unmaps an address. -/
def Unmaps (a : ℕ) (request : Request) : Prop :=
  ∃ gpuAddr size, request = .unmap gpuAddr size ∧ gpuAddr ≤ a ∧ a < gpuAddr + size

/-- What holds after some requests. -/
structure Exact (requests : List Request) (s : SparseRegions) : Prop where
  valid : Valid s.regions
  mem_iff : ∀ a, Mem s.regions a ↔ Live (MapsSparse a) (Unmaps a) requests
  flag : s.hasSparseRegions = !s.regions.isEmpty

theorem exact_empty : Exact [] empty := ⟨valid_nil, by simp [empty], rfl⟩

/-- **One request more.** -/
theorem Exact.step {requests : List Request} {request : Request} (h : Exact requests s)
    (hsize : ∀ gpuAddr isBigPages, request ≠ .mapSparse gpuAddr 0 isBigPages) :
    Exact (requests ++ [request]) (s.step request) := by
  cases request with
  | map =>
    refine ⟨h.valid, fun a => ?_, h.flag⟩
    rw [Live.live_concat, SparseRegions.step, h.mem_iff]
    simp [MapsSparse, Unmaps]
  | mapSparse gpuAddr size isBigPages =>
    have hpos : 0 < size := Nat.pos_of_ne_zero fun hzero => hsize gpuAddr isBigPages (by rw [hzero])
    obtain ⟨hvalid, hne, hmem⟩ := mapSparse_spec h.valid gpuAddr hpos
    refine ⟨hvalid, fun a => ?_, ?_⟩
    · rw [Live.live_concat, SparseRegions.step, hmem, h.mem_iff]
      simp [MapsSparse, Unmaps, or_comm]
    · simpa [SparseRegions.step, mapSparse] using hne
  | unmap gpuAddr size =>
    obtain ⟨hvalid, hflag, hmem⟩ := unmap_spec h.valid h.flag gpuAddr size
    refine ⟨hvalid, fun a => ?_, hflag⟩
    rw [Live.live_concat, SparseRegions.step, hmem, h.mem_iff]
    simp [MapsSparse, Unmaps]

/-- The regions after any requests. -/
theorem run_exact (requests : List Request)
    (hsizes : ∀ gpuAddr isBigPages, Request.mapSparse gpuAddr 0 isBigPages ∉ requests) :
    Exact requests (run requests) := by
  induction requests using reverseRecOn with
  | nil => exact exact_empty
  | append_singleton requests request ih =>
    rw [run, foldl_append]
    refine (ih fun gpuAddr isBigPages hmem => ?_).step fun gpuAddr isBigPages heq => ?_
    · exact hsizes gpuAddr isBigPages (mem_append_left _ hmem)
    · exact hsizes gpuAddr isBigPages (by simp [heq])

/-- **The sparse regions are exact.**  After any requests they are not empty, sorted and apart; an address is in one
of them when a request mapped it sparsely and none behind unmapped it; a lookup finds the region of an address, and
nothing when it is in none; and the flag says that there is a region. -/
theorem sparseRegions_exact (requests : List Request)
    (hsizes : ∀ gpuAddr isBigPages, Request.mapSparse gpuAddr 0 isBigPages ∉ requests) :
    let s := run requests
    Valid s.regions ∧
    (∀ a, Mem s.regions a ↔ Live (MapsSparse a) (Unmaps a) requests) ∧
    (∀ a start size, s.getSparseRegion a = some (start, size) ↔
      (start, start + size) ∈ s.regions ∧ start ≤ a ∧ a < start + size) ∧
    (∀ a, s.getSparseRegion a = none ↔ ¬Mem s.regions a) ∧
    (s.hasSparseRegions = true ↔ s.regions ≠ []) := by
  obtain ⟨hvalid, hmem, hflag⟩ := run_exact requests hsizes
  have hget := fun a => getSparseRegion_spec (a := a) hvalid hflag
  refine ⟨hvalid, hmem, fun a start size => ?_, fun a => ?_, by rw [hflag]; simp⟩
  · constructor
    · intro hsome
      simpa [hsome] using hget a
    · rintro ⟨hregion, hlow, hhigh⟩
      have hfound := hget a
      cases heq : (run requests).getSparseRegion a with
      | none =>
        simp only [heq] at hfound
        exact (hfound ⟨_, hregion, hlow, hhigh⟩).elim
      | some found =>
        simp only [heq] at hfound
        -- two regions that hold an address are the same
        have hsame := hvalid.eq_of_mem hfound.1 hregion hfound.2 ⟨hlow, hhigh⟩
        rw [Prod.mk.injEq] at hsame
        rw [Option.some_inj, Prod.ext_iff]
        simp only
        omega
  · constructor
    · intro hnone
      simpa [hnone] using hget a
    · intro hnot
      cases heq : (run requests).getSparseRegion a with
      | none => rfl
      | some found =>
        have hfound := hget a
        simp only [heq] at hfound
        exact (hnot ⟨_, hfound.1, hfound.2⟩).elim

/-- A range that is mapped in two parts is one region; what is unmapped in its middle leaves two. -/
theorem sparseRegions_exact_middle :
    (run [.mapSparse 0x10000 0x20000 false, .mapSparse 0x20000 0x30000 false, .unmap 0x28000 0x8000]).regions =
      [(0x10000, 0x28000), (0x30000, 0x50000)] ∧
    (run [.mapSparse 0x10000 0x20000 false, .mapSparse 0x20000 0x30000 false, .unmap 0x28000 0x8000]).getSparseRegion
      0x2ffff = none := by
  refine ⟨by decide, ?_⟩
  obtain ⟨-, -, -, hnone, -⟩ := sparseRegions_exact
    [.mapSparse 0x10000 0x20000 false, .mapSparse 0x20000 0x30000 false, .unmap 0x28000 0x8000] (by simp)
  refine (hnone _).2 ?_
  rw [show (run [.mapSparse 0x10000 0x20000 false, .mapSparse 0x20000 0x30000 false, .unmap 0x28000 0x8000]).regions =
    [(0x10000, 0x28000), (0x30000, 0x50000)] from by decide]
  simp

end SparseRegions
end Tegra
end NXEmu
