/-
# Runs of a flat allocator

`src/yuzu_common/address_space.inc`, `FlatAllocator`: any sequence of `Allocate`,
`AllocateFixed` and `Free` from the constructor on, with the ranges handed out and not freed
yet.

What `Allocate` returns should be free, and it should return zero only when there is no room
(`AllocCall.Right`).  It is right where `AllocateOk` holds (`AllocRun.right_iff`).  The linear
pass takes the block behind `current_linear_alloc_end` for a free one, its loop over fixed
mappings stops at what does not fit, and without a next block it gives up; and `Free` of a
range with a free one before it and a used one behind it leaves that mapped.
-/

import NXEmu.Common.AllocatorBooks

variable {v : ℕ} {held : Bool} {c : AllocCall}

namespace NXEmu
namespace Common

open Exec

namespace FlatAddressSpaceMap

variable {w : ℕ} {ε : Type} {m : FlatAddressSpaceMap w ε} {L R : List (Block w ε)}
  {b p : Block w ε} {v size : ℕ}

/-- The last of a list is the last of what is appended to another one. -/
theorem mem_of_getLast?_append (h : (L ++ b :: R).getLast? = some p) : p ∈ b :: R := by
  obtain ⟨s, hs⟩ : ∃ s, (b :: R).getLast? = some s := by
    rw [List.getLast?_cons]
    exact ⟨_, rfl⟩
  rw [List.getLast?_append, hs] at h
  cases h
  exact List.mem_of_getLast? hs

/-- An unmapped block followed by none for `size` bytes. -/
def Gap (m : FlatAddressSpaceMap w ε) (bs : List (Block w ε)) (size : ℕ) : Prop :=
  ∃ L b c R, bs = L ++ b :: c :: R ∧ m.unmapped b ∧ b.virt + size ≤ c.virt

/-- What lies in an unmapped block is free. -/
theorem WellFormed.apart_of_unmapped (hw : m.WellFormed) (hbs : m.blocks = L ++ p :: R)
    (hp : m.unmapped p) (hpv : p.virt ≤ v) (hR : ∀ s ∈ R, v + size ≤ s.virt) :
    ∀ r ∈ m.allocated m.blocks, Apart r (v, size) := by
  intro r hr
  have hsorted := hw.sorted
  rw [hbs] at hr hsorted
  rw [allocated_append, allocated_cons_of_unmapped hp, List.mem_append] at hr
  rcases hr with hr | hr
  · obtain ⟨L', b, c, R', hL, -, rfl⟩ := mem_allocated.1 hr
    left
    have hc : c = p ∨ c.virt < p.virt := by
      have hmem : c ∈ L ++ [p] := by simp [hL]
      rcases List.mem_append.1 hmem with hmem | hmem
      · exact Or.inr ((List.pairwise_append.1 hsorted).2.2 c hmem p List.mem_cons_self)
      · exact Or.inl (List.mem_singleton.1 hmem)
    have hbc : b.virt < c.virt := by
      rw [List.append_cons, hL] at hsorted
      have hLs := (List.pairwise_append.1 (List.pairwise_append.1 hsorted).1).2.1
      exact (List.pairwise_cons.1 hLs).1 c List.mem_cons_self
    have hcp : c.virt ≤ p.virt := by
      rcases hc with rfl | hc
      · exact Nat.le_refl _
      · exact hc.le
    change b.virt + (c.virt - b.virt) ≤ v
    omega
  · obtain ⟨L', b, c, R', rfl, -, rfl⟩ := mem_allocated.1 hr
    exact Or.inr (hR b (by simp))

/-- A map that keeps no offsets has nothing mapped to `UnmappedPa`. -/
theorem denote_ne_of_not_contig (hcontig : m.paContigSplit = false) :
    m.denote v ≠ some m.unmappedPa := by
  rw [denote]
  cases blockAt m.blocks v with
  | none => exact (Option.some_ne_none _).symm
  | some b =>
    rw [Option.bind_some, value]
    split
    · exact (Option.some_ne_none _).symm
    · rw [tailPhys, if_neg (fun h => by simp [hcontig] at h), Option.some_inj.ne]
      exact ‹_›

/-- A free range lies in an unmapped block. -/
theorem WellFormed.exists_unmapped (hw : m.WellFormed) (ha : m.Alternating m.blocks) (hv : 0 < v)
    (hsize : 0 < size) (hfree : ∀ r ∈ m.allocated m.blocks, Apart r (v, size)) :
    ∃ L b R, m.blocks = L ++ b :: R ∧ m.unmapped b ∧ b.virt ≤ v ∧ ∀ s ∈ R, v + size ≤ s.virt := by
  have hsub : v + size - v = size := Nat.add_sub_cancel_left ..
  obtain ⟨C, sp, I, A, p, h, -, hsp⟩ := hw.exists_cut_free (e := v + size) ha hv (by omega)
    (by rwa [hsub])
  rcases hsp with ⟨rfl, hsp⟩ | ⟨u, rfl, huv, hu, -⟩
  · exact ⟨C, sp, A, h.blocks, hsp, h.lt.le, h.le⟩
  · exact ⟨C ++ [sp], u, A, by simp [h.blocks], hu, huv.le, h.le⟩

end FlatAddressSpaceMap

namespace FlatAllocator

open FlatAddressSpaceMap

variable {a a' : FlatAllocator} {live : Finset (ℕ × ℕ)} {size s : ℕ}
  {p b : Block 1 Unit} {L R : List (Block 1 Unit)}

/-- The books of an allocator: the ranges in use are the mapped blocks of its map, in its part
of the address space. -/
structure Books (a : FlatAllocator) (live : Finset (ℕ × ℕ)) : Prop where
  wellFormed : a.map.WellFormed
  alternating : a.map.Alternating a.map.blocks
  unmappedPa : a.map.unmappedPa = 0
  contig : a.map.paContigSplit = false
  allocated : ∀ r, r ∈ live ↔ r ∈ a.map.allocated a.map.blocks
  inside : ∀ r ∈ live, a.virtStart ≤ r.1 ∧ r.1 + r.2 ≤ a.map.vaLimit
  start : 0 < a.virtStart
  limit : a.map.vaLimit < 2 ^ a.vaBits
  cursor : a.virtStart ≤ a.currentLinearAllocEnd ∧ a.currentLinearAllocEnd < 2 ^ a.vaBits

theorem books_new {vaBits virtStart vaLimit : ℕ} (hstart : 0 < virtStart)
    (hstart' : virtStart < 2 ^ vaBits) (hlimit : vaLimit < 2 ^ vaBits) :
    (new vaBits virtStart vaLimit).Books ∅ where
  wellFormed := wellFormed_new
  alternating := List.isChain_singleton _
  unmappedPa := rfl
  contig := rfl
  allocated r := by simp [new, FlatAddressSpaceMap.new]
  inside r hr := absurd hr (Finset.notMem_empty r)
  start := hstart
  limit := hlimit
  cursor := ⟨Nat.le_refl _, hstart'⟩

/-- A range nothing in use overlaps. -/
def Free (live : Finset (ℕ × ℕ)) (v size : ℕ) : Prop := ∀ r ∈ live, Apart r (v, size)

section

variable (h : a.Books live)

include h

theorem Books.free_iff :
    Free live v size ↔ ∀ r ∈ a.map.allocated a.map.blocks, Apart r (v, size) :=
  forall_congr' fun r => by rw [h.allocated]

/-- **`MapLocked`** of a free range enters it. -/
theorem Books.map (cursor : ℕ) (hsize : 0 < size) (hv : a.virtStart ≤ v)
    (hlimit : v + size ≤ a.map.vaLimit) (hfree : Free live v size)
    (hcursor : a.virtStart ≤ cursor ∧ cursor < 2 ^ a.vaBits) :
    ∃ map, a.map.mapLocked v 1 size () = .ret map true ∧
      Books { a with map := map, currentLinearAllocEnd := cursor } (insert (v, size) live) := by
  have hpos : 0 < v := h.start.trans_le hv
  have hone : (1 : BitVec 1) ≠ a.map.unmappedPa := by
    rw [h.unmappedPa]
    decide
  obtain ⟨bs, heq, halt, halloc⟩ := mapLocked_allocated (x := ()) h.wellFormed h.alternating hpos
    hsize hlimit hone (h.free_iff.1 hfree)
  have hwf : WellFormed { a.map with blocks := bs } := by
    obtain ⟨m', hret, hw, -⟩ := (mapLocked_correct_iff 1 () h.wellFormed hpos hsize
      hlimit).2 (denote_ne_of_not_contig h.contig)
    rw [heq] at hret
    cases hret
    exact hw
  refine ⟨_, heq, hwf, halt, h.unmappedPa, h.contig, fun r => ?_, fun r hr => ?_, h.start, h.limit, hcursor⟩
  · rw [Finset.mem_insert, h.allocated, ← halloc r]
    exact iff_of_eq (congrArg _ allocated_with.symm)
  · rcases Finset.mem_insert.1 hr with rfl | hr
    · exact ⟨hv, hlimit⟩
    · exact h.inside r hr

/-- **`UnmapLocked`** of a range in use crosses it out. -/
theorem Books.unmap (hr : (v, size) ∈ live) (hok : a.map.UnmapOk v (v + size)) :
    ∃ map, a.map.unmapLocked v size = .ret map true ∧ Books { a with map := map } (live.erase (v, size)) := by
  obtain ⟨hv, hlimit⟩ := h.inside _ hr
  have hpos : 0 < v := h.start.trans_le hv
  have hr' := (h.allocated _).1 hr
  obtain ⟨bs, heq, halt, halloc⟩ :=
    unmapLocked_allocated h.wellFormed h.alternating hpos hr' hlimit hok
  have hsize : 0 < size := by
    obtain ⟨C, sp, b, s, A, hcut, hb, -⟩ := h.wellFormed.exists_cut_allocated hpos hr'
    have := (hcut.mem b List.mem_cons_self).2
    omega
  have hwf : WellFormed { a.map with blocks := bs } := by
    obtain ⟨m', hret, hw, -⟩ := (unmapLocked_correct_iff h.wellFormed hpos hsize hlimit).2 hok
    rw [heq] at hret
    cases hret
    exact hw
  refine ⟨_, heq, hwf, halt, h.unmappedPa, h.contig, fun r => ?_, fun r hr => ?_, h.start, h.limit, h.cursor⟩
  · rw [Finset.mem_erase, h.allocated, ← halloc r]
    exact iff_of_eq (congrArg _ allocated_with.symm)
  · exact h.inside r (Finset.mem_of_mem_erase hr)

/-- The first block is unmapped. -/
theorem Books.first : ∃ b bs, a.map.blocks = b :: bs ∧ a.map.unmapped b := by
  obtain ⟨b, hb, hzero⟩ := h.wellFormed.start
  obtain ⟨bs, hbs⟩ := List.head?_eq_some_iff.1 hb
  refine ⟨b, bs, hbs, ?_⟩
  by_contra hmap
  cases bs with
  | nil =>
    obtain ⟨b', hb', hun⟩ := h.wellFormed.last
    rw [hbs] at hb'
    cases hb'
    exact hmap hun
  | cons c bs =>
    have hr := (h.allocated (b.virt, c.virt - b.virt)).2 (mem_allocated.2 ⟨[], b, c, bs, hbs, hmap, rfl⟩)
    have := (h.inside _ hr).1
    have := h.start
    simp only [hzero] at *
    omega

/-- A mapped block has another one behind it. -/
theorem Books.next (hbs : a.map.blocks = L ++ b :: R) (hb : ¬ a.map.unmapped b) :
    ∃ c R', R = c :: R' ∧ b.virt < c.virt ∧ (b.virt, c.virt - b.virt) ∈ live := by
  cases R with
  | nil =>
    obtain ⟨b', hb', hun⟩ := h.wellFormed.last
    rw [hbs, List.getLast?_concat] at hb'
    cases hb'
    exact absurd hun hb
  | cons c R' =>
    have hsorted := h.wellFormed.sorted
    rw [hbs] at hsorted
    exact ⟨c, R', rfl, (List.pairwise_cons.1 (List.pairwise_append.1 hsorted).2.1).1 c List.mem_cons_self,
      (h.allocated _).2 (mem_allocated.2 ⟨L, b, c, R', hbs, hb, rfl⟩)⟩

end

/-! ### `Allocate` -/

/-- The search finds the start of a gap, unless there is none. -/
theorem searchGap_spec (a : FlatAllocator) (size : ℕ) (p : Block 1 Unit) (rest : List (Block 1 Unit))
    (hsorted : (p :: rest).Pairwise fun b c => b.virt < c.virt) :
    match a.searchGap size p rest with
    | none => ¬ a.map.Gap (p :: rest) size
    | some v => ∃ L b c R, p :: rest = L ++ b :: c :: R ∧ a.map.unmapped b ∧ b.virt + size ≤ c.virt ∧ v = b.virt := by
  induction rest generalizing p with
  | nil =>
    rintro ⟨L, b, c, R, hbs, -⟩
    have := congrArg List.length hbs
    simp only [List.length_append, List.length_cons, List.length_nil] at this
    omega
  | cons s rest ih =>
    have hps := (List.pairwise_cons.1 hsorted).1 s List.mem_cons_self
    rw [searchGap]
    by_cases hskip : s.virt - p.virt < size ∨ ¬ a.map.unmapped p
    · rw [if_pos hskip]
      have ih := ih s (List.pairwise_cons.1 hsorted).2
      cases hsearch : a.searchGap size s rest with
      | none =>
        rw [hsearch] at ih
        rintro ⟨L, b, c, R, hbs, hb, hsize⟩
        cases L with
        | nil =>
          rw [List.nil_append] at hbs
          cases hbs
          rcases hskip with hlt | hmap
          · omega
          · exact hmap hb
        | cons d L => exact ih ⟨L, b, c, R, (List.cons.inj hbs).2, hb, hsize⟩
      | some v =>
        rw [hsearch] at ih
        obtain ⟨L, b, c, R, hbs, hrest⟩ := ih
        exact ⟨p :: L, b, c, R, by rw [hbs]; rfl, hrest⟩
    · rw [if_neg hskip]
      rw [not_or, not_not] at hskip
      exact ⟨[], p, s, rest, rfl, hskip.2, by omega, rfl⟩

/-- The block with the last address before `e`. -/
theorem Books.exists_block (h : a.Books live) {e : ℕ} (he : 0 < e) :
    ∃ L p R, a.map.blocks = L ++ p :: R ∧ p.virt < e ∧ (∀ b ∈ L, b.virt < e) ∧
      (∀ s ∈ R, e ≤ s.virt) ∧ blockAt a.map.blocks (e - 1) = some p := by
  obtain ⟨L, R, hbs, hL, hR⟩ := exists_split h.wellFormed.sorted e
  rcases List.eq_nil_or_concat L with rfl | ⟨L, p, rfl⟩
  · obtain ⟨b, hb, hzero⟩ := h.wellFormed.start
    rw [hbs] at hb
    have := hR b (List.mem_of_head? hb)
    omega
  · rw [List.concat_eq_append] at hbs hL
    have hp := hL p (by simp)
    refine ⟨L, p, R, by simp [hbs], hp, fun b hb => hL b (by simp [hb]), hR, ?_⟩
    have hnone : blockAt R (e - 1) = none := blockAt_eq_none.2 fun b hb => by
      have := hR b hb
      omega
    rw [hbs, blockAt_append, hnone, blockAt_concat (by omega)]
    rfl

/-- The linear pass, when there is room up to the limit behind the linear end. -/
theorem Books.linearAlloc_of_le (h : a.Books live)
    (hfit : a.currentLinearAllocEnd + size ≤ a.map.vaLimit) (hbs : a.map.blocks = L ++ p :: R)
    (hp : p.virt < a.currentLinearAllocEnd + size) (hL : ∀ b ∈ L, b.virt < a.currentLinearAllocEnd + size)
    (hR : ∀ s ∈ R, a.currentLinearAllocEnd + size ≤ s.virt) :
    a.linearAlloc size = .ret (if p.virt ≤ a.currentLinearAllocEnd then a.currentLinearAllocEnd
      else a.skipFixed size p R) true := by
  have hmod := Nat.mod_eq_of_lt (hfit.trans_lt h.limit)
  have hlower : lowerBound a.map.blocks (a.currentLinearAllocEnd + size) = L.length + 1 := by
    have := lowerBound_eq (L := L ++ [p]) (R := R) (e := a.currentLinearAllocEnd + size)
      (fun b hb => ?_) hR
    · simpa [hbs] using this
    · rcases List.mem_append.1 hb with hb | hb
      · exact hL b hb
      · rw [List.mem_singleton.1 hb]
        exact hp
  have hget : get a.map.blocks L.length = .ret p true := by
    rw [hbs]
    exact get_append rfl
  have hdrop : a.map.blocks.drop (L.length + 1) = R := by
    rw [hbs, List.append_cons]
    exact List.drop_left' (by simp)
  rw [linearAlloc, hmod, if_pos ⟨Nat.le_add_right .., hfit⟩, hlower]
  dsimp only
  rw [Exec.assert, decide_eq_true (Nat.succ_ne_zero _), ret_true_bind, prev, pure_eq, ret_true_bind,
    hget, ret_true_bind, hdrop]
  split <;> rfl

/-- There is no linear pass without room up to the limit. -/
theorem Books.linearAlloc_of_lt (h : a.Books live) (hsize : size < 2 ^ a.vaBits)
    (hfit : a.map.vaLimit < a.currentLinearAllocEnd + size) : a.linearAlloc size = .ret 0 true := by
  rw [linearAlloc, if_neg, pure_eq]
  rintro ⟨hle, hlimit⟩
  have hcursor := h.cursor.2
  rcases Nat.lt_or_ge (a.currentLinearAllocEnd + size) (2 ^ a.vaBits) with hlt | hge
  · rw [Nat.mod_eq_of_lt hlt] at hlimit
    omega
  · rw [Nat.mod_eq_sub_mod hge, Nat.mod_eq_of_lt (by omega)] at hle
    omega

/-- `Allocate`, when the linear pass finds an address. -/
theorem allocate_of_linear (hv : a.linearAlloc size = .ret v true) (hne : v ≠ 0) :
    a.allocate size = (a.map.mapLocked v 1 size () >>= fun map => return (v, { a with
      map := map
      currentLinearAllocEnd := (v + size) % 2 ^ a.vaBits })) := by
  rw [allocate, hv, ret_true_bind, if_pos hne]

/-- `Allocate`, when the linear pass finds nothing and some range is in use. -/
theorem Books.allocate_of_search (h : a.Books live) (hzero : a.linearAlloc size = .ret 0 true)
    (hlen : 1 < a.map.blocks.length) : ∃ p rest, a.map.blocks.drop 1 = p :: rest ∧
      ¬ a.map.unmapped p ∧ a.allocate size = match a.searchGap size p rest with
        | none => .ret (0, a) true
        | some v => a.map.mapLocked v 1 size () >>= fun map => return (v, { a with map := map }) := by
  obtain ⟨b, bs, hbs, hb⟩ := h.first
  cases bs with
  | nil => simp [hbs] at hlen
  | cons p rest =>
    have halt := h.alternating
    rw [hbs] at halt
    have hp : ¬ a.map.unmapped p := halt.of_unmapped hb p rfl
    -- the second block is mapped, so it is not the last one
    obtain ⟨c, R, rfl, -⟩ := h.next (L := [b]) hbs hp
    refine ⟨p, c :: R, by rw [hbs]; rfl, hp, ?_⟩
    have hlong : 2 < a.map.blocks.length := by simp [hbs]
    rw [allocate, hzero, ret_true_bind, if_neg (by simp), Exec.assert, decide_eq_true hlong, ret_true_bind, hbs]
    rfl

/-- A range `Allocate` may hand out. -/
def Grantable (a : FlatAllocator) (live : Finset (ℕ × ℕ)) (v size : ℕ) : Prop :=
  a.virtStart ≤ v ∧ v + size ≤ a.map.vaLimit ∧ Free live v size

/-- No free range lies between the first range in use and the end of the last one, and none
from the linear end up to the limit. -/
def Full (a : FlatAllocator) (live : Finset (ℕ × ℕ)) (size : ℕ) : Prop :=
  ∀ v, Free live v size →
    ¬ ((∃ r ∈ live, r.1 ≤ v) ∧ ∃ r ∈ live, v + size ≤ r.1 + r.2) ∧
    ¬ (a.currentLinearAllocEnd ≤ v ∧ v + size ≤ a.map.vaLimit)

/-- When `Allocate` does what it should.  If the linear end is not too high, the block with the
last address of the range from there has to be unmapped if it starts at the linear end or
before it, and otherwise it has to be the last one, and then either there is a gap or that
block is too small.  If it is too high, some range has to be in use. -/
def AllocateOk (a : FlatAllocator) (size : ℕ) : Prop :=
  if a.currentLinearAllocEnd + size ≤ a.map.vaLimit then
    ∀ p ∈ blockAt a.map.blocks (a.currentLinearAllocEnd + size - 1),
      if p.virt ≤ a.currentLinearAllocEnd then a.map.unmapped p
      else a.map.blocks.getLast? = some p ∧
        (a.map.vaLimit < p.virt + size ∨ a.map.Gap (a.map.blocks.drop 1) size)
  else 1 < a.map.blocks.length

/-- What `Allocate` returns: a free range, and zero only when there is none. -/
def AllocateRight (a : FlatAllocator) (live : Finset (ℕ × ℕ)) (size : ℕ) : Prop :=
  ∃ v a', a.allocate size = .ret (v, a') true ∧
    (v ≠ 0 → Grantable a live v size) ∧ (v = 0 → a.Full live size)

/-- The fixed ranges that are free but not in a gap are behind the last range in use or before
the first one. -/
theorem Books.gap_of_between (h : a.Books live) (hsize : 0 < size) (hfree : Free live v size)
    (hlow : ∃ r ∈ live, r.1 ≤ v) (hhigh : ∃ r ∈ live, v + size ≤ r.1 + r.2) :
    a.map.Gap (a.map.blocks.drop 1) size := by
  obtain ⟨r, hr, hrv⟩ := hlow
  obtain ⟨r', hr', hrv'⟩ := hhigh
  have hv : 0 < v := h.start.trans_le ((h.inside r hr).1.trans hrv)
  obtain ⟨L, b, R, hbs, hb, hbv, hR⟩ :=
    h.wellFormed.exists_unmapped h.alternating hv hsize (h.free_iff.1 hfree)
  have hsorted := h.wellFormed.sorted
  rw [h.allocated] at hr hr'
  obtain ⟨L₁, b₁, c₁, R₁, hbs₁, hb₁, rfl⟩ := mem_allocated.1 hr
  obtain ⟨L₂, b₂, c₂, R₂, hbs₂, hb₂, rfl⟩ := mem_allocated.1 hr'
  have hlt₂ : b₂.virt < c₂.virt := by
    rw [hbs₂] at hsorted
    exact (List.pairwise_cons.1 (List.pairwise_append.1 hsorted).2.1).1 c₂ List.mem_cons_self
  simp only at hrv hrv'
  cases L with
  | nil =>
    -- the range that starts before the gap would be behind it
    have hmem : b₁ ∈ b :: R := by
      rw [← List.nil_append (b :: R), ← hbs, hbs₁]
      simp
    rcases List.mem_cons.1 hmem with rfl | hmem
    · exact absurd hb hb₁
    · have := hR b₁ hmem
      omega
  | cons d L =>
    cases R with
    | nil =>
      -- the range that ends behind the gap would be before it
      have hmem : c₂ ∈ d :: L ++ [b] := by
        rw [← hbs, hbs₂]
        simp
      have hc₂ : c₂.virt ≤ b.virt := by
        rw [hbs] at hsorted
        rcases List.mem_append.1 hmem with hmem | hmem
        · exact ((List.pairwise_append.1 hsorted).2.2 c₂ hmem b List.mem_cons_self).le
        · rw [List.mem_singleton.1 hmem]
      omega
    | cons c R =>
      have := hR c List.mem_cons_self
      exact ⟨L, b, c, R, by rw [hbs]; rfl, hb, by omega⟩

/-- What a call of `Allocate` that does what it should leaves. -/
inductive AllocateResult (a : FlatAllocator) (live : Finset (ℕ × ℕ)) (size : ℕ) :
    Exec (ℕ × FlatAllocator) → Prop
  | granted (v : ℕ) (a' : FlatAllocator) (hv : v ≠ 0) (grantable : a.Grantable live v size)
    (books : a'.Books (insert (v, size) live)) : AllocateResult a live size (.ret (v, a') true)
  | full (h : a.Full live size) : AllocateResult a live size (.ret (0, a) true)

/-- The search for a gap, given that the linear pass was right to find nothing. -/
theorem Books.allocate_search (h : a.Books live) (hsize : 0 < size)
    (hzero : a.linearAlloc size = .ret 0 true) (hlen : 1 < a.map.blocks.length)
    (hlinear : ¬ a.map.Gap (a.map.blocks.drop 1) size → ∀ v, Free live v size →
      ¬ (a.currentLinearAllocEnd ≤ v ∧ v + size ≤ a.map.vaLimit)) :
    AllocateResult a live size (a.allocate size) := by
  obtain ⟨p, rest, hdrop, hp, heq⟩ := h.allocate_of_search hzero hlen
  have hbs : a.map.blocks = a.map.blocks.take 1 ++ (p :: rest) := by
    rw [← hdrop, List.take_append_drop]
  have hsorted : (p :: rest).Pairwise fun b c => b.virt < c.virt := by
    rw [← hdrop]
    exact h.wellFormed.sorted.drop
  have hspec := a.searchGap_spec size p rest hsorted
  cases hsearch : a.searchGap size p rest with
  | none =>
    rw [hsearch] at hspec heq
    rw [← hdrop] at hspec
    rw [heq]
    refine .full fun v hfree => ⟨fun hbetween => ?_, hlinear hspec v hfree⟩
    exact hspec (h.gap_of_between hsize hfree hbetween.1 hbetween.2)
  | some v =>
    rw [hsearch] at hspec heq
    obtain ⟨c₀, -, -, -, hr₀⟩ := h.next hbs hp
    have hstart := (h.inside _ hr₀).1
    obtain ⟨L, b, c, R, hpr, hb, hbc, rfl⟩ := hspec
    have hpb : p.virt ≤ b.virt := by
      have hmem : b ∈ p :: rest := by simp [hpr]
      rcases List.mem_cons.1 hmem with rfl | hmem
      · exact Nat.le_refl _
      · exact ((List.pairwise_cons.1 hsorted).1 b hmem).le
    rw [hpr] at hbs
    have hsplit : a.map.blocks = (a.map.blocks.take 1 ++ L) ++ b :: c :: R := by
      rw [List.append_assoc]
      exact hbs
    have hmapped : ¬ a.map.unmapped c := by
      have halt := h.alternating
      rw [hsplit] at halt
      exact (Alternating.of_append halt).of_unmapped hb c rfl
    have hsortedR : (b :: c :: R).Pairwise fun b c => b.virt < c.virt := by
      have := h.wellFormed.sorted
      rw [hsplit] at this
      exact (List.pairwise_append.1 this).2.1
    have hfree : Free live b.virt size := h.free_iff.2 <|
      h.wellFormed.apart_of_unmapped hsplit hb (Nat.le_refl _) fun s hs => by
        rcases List.mem_cons.1 hs with rfl | hs
        · exact hbc
        · have := (List.pairwise_cons.1 (List.pairwise_cons.1 hsortedR).2).1 s hs
          omega
    obtain ⟨c', R', -, hcc', hc⟩ := h.next (hsplit.trans (List.append_cons ..)) hmapped
    have hlimit := (h.inside _ hc).2
    have hgrant : a.Grantable live b.virt size := ⟨hstart.trans hpb, by omega, hfree⟩
    obtain ⟨map, hmap, hbooks⟩ := h.map a.currentLinearAllocEnd hsize hgrant.1 hgrant.2.1 hfree h.cursor
    rw [heq]
    dsimp only
    rw [hmap, ret_true_bind, pure_eq]
    exact .granted b.virt _ (h.start.trans_le hgrant.1).ne' hgrant hbooks

/-- **`Allocate`** under the condition. -/
theorem Books.allocate_spec (h : a.Books live) (hsize : 0 < size) (hsize' : size < 2 ^ a.vaBits)
    (hok : a.AllocateOk size) : AllocateResult a live size (a.allocate size) := by
  rw [AllocateOk] at hok
  split at hok
  · rename_i hfit
    obtain ⟨L, p, R, hbs, hp, hL, hR, hblock⟩ :=
      h.exists_block (e := a.currentLinearAllocEnd + size) (by omega)
    have hlin := h.linearAlloc_of_le hfit hbs hp hL hR
    have hok := hok p hblock
    split at hok
    · -- the linear end lies in a free block
      rename_i hple
      rw [if_pos hple] at hlin
      have hpos := h.start.trans_le h.cursor.1
      have hgrant : a.Grantable live a.currentLinearAllocEnd size :=
        ⟨h.cursor.1, hfit, h.free_iff.2 (h.wellFormed.apart_of_unmapped hbs hok hple hR)⟩
      have hmod := Nat.mod_eq_of_lt (hfit.trans_lt h.limit)
      obtain ⟨map, hmap, hbooks⟩ := h.map (a.currentLinearAllocEnd + size) hsize hgrant.1
        hfit hgrant.2.2 ⟨h.cursor.1.trans (Nat.le_add_right ..), hfit.trans_lt h.limit⟩
      rw [allocate_of_linear hlin hpos.ne', hmap, ret_true_bind, pure_eq, hmod]
      exact .granted _ _ hpos.ne' hgrant hbooks
    · -- the last block starts behind it
      rename_i hple
      obtain ⟨hlast, hgap⟩ := hok
      have hRnil : R = [] := by
        rcases R with _ | ⟨s, R⟩
        · rfl
        · rw [hbs, List.append_cons] at hlast
          have := hR p (mem_of_getLast?_append hlast)
          omega
      subst hRnil
      rw [if_neg hple, skipFixed] at hlin
      have hlen : 1 < a.map.blocks.length := by
        rcases L with _ | ⟨d, L⟩
        · obtain ⟨b, hb, hzero⟩ := h.wellFormed.start
          rw [hbs] at hb
          cases hb
          omega
        · simp [hbs]
      refine h.allocate_search hsize hlin hlen fun hno v hfree hv => ?_
      have hsmall := hgap.resolve_right hno
      obtain ⟨L', b, R', hbs', hb, hbv, hR'⟩ := h.wellFormed.exists_unmapped h.alternating
        (h.start.trans_le (h.cursor.1.trans hv.1)) hsize (h.free_iff.1 hfree)
      -- the last block is that of the range or behind it
      have hlast' : p ∈ b :: R' := by
        rw [hbs'] at hlast
        exact mem_of_getLast?_append hlast
      rcases List.mem_cons.1 hlast' with rfl | hmem
      · omega
      · have := hR' p hmem
        omega
  · rename_i hfit
    exact h.allocate_search hsize (h.linearAlloc_of_lt hsize' (by omega)) hok
      fun _ v _ hv => hfit (by omega)

/-- What the linear pass finds is what `Allocate` returns. -/
theorem eq_of_allocate {v v' : ℕ} {a' : FlatAllocator}
    (hv : a.linearAlloc size = .ret v true) (hne : v ≠ 0) (h : a.allocate size = .ret (v', a') held) : v' = v := by
  rw [allocate_of_linear hv hne] at h
  cases hm : a.map.mapLocked v 1 size () with
  | fault =>
    rw [hm] at h
    cases h
  | ret map held' =>
    simp only [hm, pure_eq, ret_bind_ret] at h
    cases h
    rfl

/-- What the loop over fixed mappings finds is not free, whenever it runs. -/
theorem Books.skipFixed_not_free (h : a.Books live) (hsize : 0 < size) {c : Block 1 Unit}
    (hbs : a.map.blocks = L ++ p :: c :: R) (hp : 0 < p.virt) :
    a.skipFixed size p (c :: R) ≠ 0 ∧ ¬ Free live (a.skipFixed size p (c :: R)) size := by
  have hsorted := h.wellFormed.sorted
  have halt := h.alternating
  rw [hbs] at hsorted halt
  have hpc := (List.pairwise_cons.1 (List.pairwise_append.1 hsorted).2.1).1 c List.mem_cons_self
  -- a mapped block that starts in the range
  have huse : ∀ {v : ℕ} {L' R' : List (Block 1 Unit)} {d : Block 1 Unit}, a.map.blocks = L' ++ d :: R' →
      ¬ a.map.unmapped d → v ≤ d.virt → d.virt < v + size → ¬ Free live v size := by
    intro v L' R' d hbs' hd hv hd' hfree
    obtain ⟨c', R'', -, hlt, hmem⟩ := h.next hbs' hd
    have := hfree _ hmem
    simp only [Apart] at this
    omega
  rw [skipFixed]
  split
  · rename_i hskip
    refine ⟨hp.ne', ?_⟩
    by_cases hpu : a.map.unmapped p
    · have hlt := hskip.resolve_right (not_not_intro hpu)
      have hcm := (Alternating.of_append halt).of_unmapped hpu c rfl
      exact huse (hbs.trans (List.append_cons ..)) hcm hpc.le (by omega)
    · exact huse hbs hpu (Nat.le_refl _) (by omega)
  · rename_i hskip
    rw [not_or, not_not] at hskip
    have hcm := (Alternating.of_append halt).of_unmapped hskip.2 c rfl
    have hbs' := hbs.trans (List.append_cons ..)
    obtain ⟨d, R', rfl, -⟩ := h.next hbs' hcm
    rw [if_neg (List.cons_ne_nil d R'), skipFixed, if_pos (Or.inr hcm)]
    exact ⟨(hp.trans hpc).ne', huse hbs' hcm (Nat.le_refl _) (by omega)⟩

/-- **`Allocate`** outside the condition. -/
theorem Books.allocateOk_of_right (h : a.Books live) (hsize : 0 < size)
    (hsize' : size < 2 ^ a.vaBits) (hright : a.AllocateRight live size) : a.AllocateOk size := by
  obtain ⟨v, a', heq, hgrant, hfull⟩ := hright
  rw [AllocateOk]
  split
  · rename_i hfit
    obtain ⟨L, p, R, hbs, hp, hL, hR, hblock⟩ :=
      h.exists_block (e := a.currentLinearAllocEnd + size) (by omega)
    have hlin := h.linearAlloc_of_le hfit hbs hp hL hR
    rintro q hq
    rw [hblock] at hq
    obtain rfl := Option.some.inj hq
    have hpos := h.start.trans_le h.cursor.1
    split
    · rename_i hple
      rw [if_pos hple] at hlin
      obtain rfl := eq_of_allocate hlin hpos.ne' heq
      by_contra hmap
      obtain ⟨c, R', rfl, hlt, hmem⟩ := h.next hbs hmap
      have hc := hR c List.mem_cons_self
      have := (hgrant hpos.ne').2.2 _ hmem
      simp only [Apart] at this
      omega
    · rename_i hple
      rw [if_neg hple] at hlin
      cases R with
      | cons c R =>
        obtain ⟨hne, hnot⟩ := h.skipFixed_not_free hsize hbs (by omega)
        obtain rfl := eq_of_allocate hlin hne heq
        exact absurd (hgrant hne).2.2 hnot
      | nil =>
        refine ⟨by rw [hbs, List.getLast?_concat], ?_⟩
        by_contra hno
        rw [not_or, Nat.not_lt] at hno
        have hlast : a.map.unmapped p := by
          obtain ⟨b, hb, hun⟩ := h.wellFormed.last
          rw [hbs, List.getLast?_concat] at hb
          cases hb
          exact hun
        have hlen : 1 < a.map.blocks.length := by
          rcases L with _ | ⟨d, L⟩
          · obtain ⟨b, hb, hzero⟩ := h.wellFormed.start
            rw [hbs] at hb
            cases hb
            omega
          · simp [hbs]
        have hfree : Free live p.virt size := h.free_iff.2 <|
          h.wellFormed.apart_of_unmapped hbs hlast (Nat.le_refl _) (by simp)
        obtain ⟨q, rest, hdrop, -, hsearch⟩ := h.allocate_of_search hlin hlen
        have hspec := a.searchGap_spec size q rest (hdrop ▸ h.wellFormed.sorted.drop)
        cases hs : a.searchGap size q rest with
        | none =>
          rw [hs] at hsearch
          rw [hsearch] at heq
          cases heq
          exact (hfull rfl _ hfree).2 ⟨by omega, hno.1⟩
        | some g =>
          rw [hs] at hspec
          obtain ⟨L', b, c, R', hbs', hb, hbc, -⟩ := hspec
          exact hno.2 ⟨L', b, c, R', hdrop.trans hbs', hb, hbc⟩
  · rename_i hfit
    have hlin := h.linearAlloc_of_lt hsize' (by omega)
    by_contra hlen
    obtain ⟨b, bs, hbs, -⟩ := h.first
    obtain rfl : bs = [] := by
      rw [hbs, List.length_cons] at hlen
      exact List.length_eq_zero_iff.1 (by omega)
    rw [allocate, hlin, ret_true_bind, if_neg (by simp), hbs] at heq
    cases heq

/-! ### Runs -/

/-- A call of an allocator. -/
inductive AllocCall where
  | allocate (size : ℕ)
  | allocateFixed (virt size : ℕ)
  | free (virt size : ℕ)
deriving DecidableEq

namespace AllocCall

/-- What a call runs: the result of `Allocate`, zero for the others. -/
def exec (a : FlatAllocator) : AllocCall → Exec (ℕ × FlatAllocator)
  | allocate size => a.allocate size
  | allocateFixed virt size => do
    let a' ← a.allocateFixed virt size
    return (0, a')
  | free virt size => do
    let a' ← a.free virt size
    return (0, a')

/-- The ranges in use after a call with result `v`. -/
def after (live : Finset (ℕ × ℕ)) (v : ℕ) : AllocCall → Finset (ℕ × ℕ)
  | allocate size => if v = 0 then live else insert (v, size) live
  | allocateFixed virt size => insert (virt, size) live
  | free virt size => live.erase (virt, size)

/-- The calls an allocator may get: a fixed range is free and in its part of the address space,
and a range is freed as it was handed out. -/
def Valid (a : FlatAllocator) (live : Finset (ℕ × ℕ)) : AllocCall → Prop
  | allocate size => size < 2 ^ a.vaBits
  | allocateFixed virt size =>
    a.virtStart ≤ virt ∧ virt + size ≤ a.map.vaLimit ∧ Free live virt size
  | free virt size => (virt, size) ∈ live

/-- A call that is not for an empty range. -/
def Nonempty : AllocCall → Prop
  | allocate size => 0 < size
  | allocateFixed _ size => 0 < size
  | free _ _ => True

/-- What a call should do: `Allocate` hands out what is free, and the others map and unmap their
range and nothing else. -/
def Right (a : FlatAllocator) (live : Finset (ℕ × ℕ)) : AllocCall → Prop
  | allocate size => a.AllocateRight live size
  | allocateFixed virt size =>
    Correct a.map (a.map.mapLocked virt 1 size ()) (MapCall.effect a.map (.map virt 1 size ()))
  | free virt size =>
    Correct a.map (a.map.unmapLocked virt size) (MapCall.effect a.map (.unmap virt size))

/-- When a call does what it should. -/
def Ok (a : FlatAllocator) : AllocCall → Prop
  | allocate size => a.AllocateOk size
  | allocateFixed _ _ => True
  | free virt size => a.map.denote (virt - 1) = none → a.map.denote (virt + size) = none

/-- **One call** does what it should just under the condition. -/
theorem exec_right_iff (h : a.Books live) (hc : c.Valid a live) (hne : c.Nonempty) :
    c.Right a live ↔ c.Ok a := by
  cases c with
  | allocate size =>
    refine ⟨h.allocateOk_of_right hne hc, fun hok => ?_⟩
    have hresult := h.allocate_spec hne hc hok
    revert hresult
    change AllocateResult a live size _ → a.AllocateRight live size
    intro hresult
    cases heq : a.allocate size with
    | fault =>
      rw [heq] at hresult
      cases hresult
    | ret r held =>
      rw [heq] at hresult
      cases hresult with
      | granted v a' hv hgrant hbooks => exact ⟨v, a', heq, fun _ => hgrant, fun hz => absurd hz hv⟩
      | full hfull => exact ⟨0, a, heq, fun hz => absurd rfl hz, fun _ => hfull⟩
  | allocateFixed virt size =>
    obtain ⟨hv, hlimit, hfree⟩ := hc
    exact iff_of_true ((mapLocked_correct_iff 1 () h.wellFormed (h.start.trans_le hv) hne hlimit).2
      (denote_ne_of_not_contig h.contig)) trivial
  | free virt size =>
    have hpos := h.start.trans_le (h.inside _ hc).1
    have hr := (h.allocated _).1 hc
    have hsize : 0 < size := by
      obtain ⟨C, sp, b, s, A, hcut, hb, -⟩ := h.wellFormed.exists_cut_allocated hpos hr
      have := (hcut.mem b List.mem_cons_self).2
      omega
    exact (unmapLocked_correct_iff h.wellFormed hpos hsize (h.inside _ hc).2).trans
      (unmapOk_of_allocated_iff h.wellFormed h.alternating hpos hr)

/-- A call under the condition keeps the books. -/
theorem books (h : a.Books live) (hc : c.Valid a live) (hne : c.Nonempty)
    (hok : c.Ok a) (heq : c.exec a = .ret (v, a') held) :
    a'.Books (c.after live v) := by
  cases c with
  | allocate size =>
    have hresult := h.allocate_spec hne hc hok
    change a.allocate size = _ at heq
    rw [heq] at hresult
    cases hresult with
    | granted _ _ hv hgrant hbooks =>
      rw [after, if_neg hv]
      exact hbooks
    | full hfull => exact h
  | allocateFixed virt size =>
    obtain ⟨hv, hlimit, hfree⟩ := hc
    obtain ⟨map, hmap, hbooks⟩ := h.map a.currentLinearAllocEnd hne hv hlimit hfree h.cursor
    rw [exec, FlatAllocator.allocateFixed, hmap, ret_true_bind, pure_eq, ret_true_bind, pure_eq] at heq
    cases heq
    exact hbooks
  | free virt size =>
    have hpos := h.start.trans_le (h.inside _ hc).1
    obtain ⟨map, hmap, hbooks⟩ := h.unmap hc
      ((unmapOk_of_allocated_iff h.wellFormed h.alternating hpos ((h.allocated _).1 hc)).2 hok)
    rw [exec, FlatAllocator.free, hmap, ret_true_bind, pure_eq, ret_true_bind, pure_eq] at heq
    cases heq
    exact hbooks

end AllocCall

/-- The allocators reached by calls under the condition, with the ranges in use. -/
inductive AllocRun (a₀ : FlatAllocator) : FlatAllocator → Finset (ℕ × ℕ) → Prop
  | start : AllocRun a₀ a₀ ∅
  | call {a a' : FlatAllocator} {live : Finset (ℕ × ℕ)} {v : ℕ} {held : Bool} (c : AllocCall)
    (run : AllocRun a₀ a live) (valid : c.Valid a live) (nonempty : c.Nonempty) (ok : c.Ok a)
    (returned : c.exec a = .ret (v, a') held) : AllocRun a₀ a' (c.after live v)

/-- **Runs** keep the books. -/
theorem AllocRun.books {a₀ : FlatAllocator} (hrun : AllocRun a₀ a live) (h₀ : a₀.Books ∅) :
    a.Books live := by
  induction hrun with
  | start => exact h₀
  | call c _ valid nonempty ok returned ih => exact AllocCall.books ih valid nonempty ok returned

/-- In every allocator reached, a call does what it should just under the condition. -/
theorem AllocRun.right_iff {vaBits virtStart vaLimit : ℕ} (hstart : 0 < virtStart)
    (hstart' : virtStart < 2 ^ vaBits) (hlimit : vaLimit < 2 ^ vaBits)
    (hrun : AllocRun (new vaBits virtStart vaLimit) a live) (c : AllocCall) (hc : c.Valid a live)
    (hne : c.Nonempty) : c.Right a live ↔ c.Ok a :=
  AllocCall.exec_right_iff (hrun.books (books_new hstart hstart' hlimit)) hc hne

/-- A new allocator with one fixed range at its start. -/
def oneFixed : FlatAllocator :=
  ⟨16, ⟨0, false, 0x100, [⟨0, 0, ()⟩, ⟨0x10, 1, ()⟩, ⟨0x30, 0, ()⟩]⟩, 0x10, 0x10⟩

theorem allocRun_oneFixed : AllocRun (new 16 0x10 0x100) oneFixed {(0x10, 0x20)} := by
  refine .call (v := 0) (.allocateFixed 0x10 0x20) .start ⟨Nat.le_refl _, by decide, ?_⟩
    (Nat.succ_pos _) trivial rfl
  exact fun r hr => absurd hr (Finset.notMem_empty r)

/-- An allocation behind a fixed one is right just when it does not stop at it. -/
theorem oneFixed_right_iff : (AllocCall.allocate 0x10).Right oneFixed {(0x10, 0x20)} ↔
    (AllocCall.allocate 0x10).Ok oneFixed :=
  allocRun_oneFixed.right_iff (by decide) (by decide) (by decide) (.allocate 0x10)
    (by change 0x10 < 2 ^ 16; decide) (Nat.succ_pos _)

/-- `Allocate` hands out the fixed range a second time. -/
theorem oneFixed_overlap : AllocRun (new 16 0x10 0x100) oneFixed {(0x10, 0x20)} ∧
    (∃ a', oneFixed.allocate 0x10 = .ret (0x10, a') true) ∧ ¬ Free {(0x10, 0x20)} 0x10 0x10 := by
  refine ⟨allocRun_oneFixed, ⟨_, rfl⟩, fun hfree => ?_⟩
  have := hfree (0x10, 0x20) (Finset.mem_singleton_self _)
  simp [Apart] at this

end FlatAllocator
end Common
end NXEmu
