/-
# Flat address space maps as maps

`src/yuzu_common/address_space.inc`, `MapLocked` and `UnmapLocked`.

A vector of blocks stands for a map of addresses (`FlatAddressSpaceMap.denote`): an address
has what the last block that starts at it or before it is mapped to.  `MapLocked` puts a
linear mapping over a region of the map and leaves the rest (`mapLocked_correct_iff`), and
`UnmapLocked` should clear the region.  It does not where it takes the wrong iterator for
the end of what it erases, and it fails an assertion where a mapped block reaches into the
region up to an unmapped one; `UnmapOk` says where it does what it should.
-/

import NXEmu.Common.AddressSpaceBlocks

namespace NXEmu
namespace Common
namespace FlatAddressSpaceMap

open Exec List

variable {w : ℕ} {ε : Type} {m m' : FlatAddressSpaceMap w ε}
  {bs L R C I J A X Y : List (Block w ε)} {b c s sp p u q : Block w ε} {v e a size : ℕ}
  {phys : BitVec w} {x : ε}

/-! ### Blocks by address -/

/-- The block an address lies in. -/
def blockAt (blocks : List (Block w ε)) (a : ℕ) : Option (Block w ε) :=
  (blocks.filter fun b => decide (b.virt ≤ a)).getLast?

/-- What a block maps an address to. -/
def value (m : FlatAddressSpaceMap w ε) (b : Block w ε) (a : ℕ) : Option (BitVec w) :=
  if m.unmapped b then none else some (m.tailPhys b a)

/-- What the map has at an address. -/
def denote (m : FlatAddressSpaceMap w ε) (a : ℕ) : Option (BitVec w) :=
  (blockAt m.blocks a).bind fun b => m.value b a

theorem blockAt_append : blockAt (L ++ R) a = (blockAt R a).or (blockAt L a) := by
  rw [blockAt, filter_append, getLast?_append]
  rfl

theorem blockAt_eq_none : blockAt L a = none ↔ ∀ b ∈ L, a < b.virt := by
  rw [blockAt, getLast?_eq_none_iff, filter_eq_nil_iff]
  simp

theorem blockAt_singleton_of_le (h : b.virt ≤ a) : blockAt [b] a = some b := by
  rw [blockAt, filter_cons_of_pos (by simpa using h)]
  rfl

/-- The first block matters only before the next one. -/
theorem blockAt_cons : blockAt (b :: L) a = (blockAt L a).or (blockAt [b] a) :=
  blockAt_append (L := [b])

/-- Blocks behind an address do not matter. -/
theorem blockAt_of_lt (hX : ∀ b ∈ X, a < b.virt) : blockAt (C ++ sp :: X) a = blockAt (C ++ [sp]) a := by
  have : C ++ sp :: X = (C ++ [sp]) ++ X := by simp
  rw [this, blockAt_append, blockAt_eq_none.2 hX]
  rfl

theorem blockAt_concat (h : b.virt ≤ a) : blockAt (L ++ [b]) a = some b := by
  rw [blockAt_append, blockAt_singleton_of_le h]
  rfl

theorem value_of_unmapped (h : m.unmapped b) : m.value b a = none := if_pos h

/-- At its start a block does not map to `UnmappedPa`. -/
theorem value_start : m.value b b.virt ≠ some m.unmappedPa := by
  rw [value]
  by_cases hun : m.unmapped b
  · rw [if_pos hun]
    exact nofun
  · rw [if_neg hun, Option.some_inj.ne, tailPhys, Nat.sub_self]
    split
    · rwa [BitVec.add_zero]
    · exact hun

/-- The block that starts at an address has it. -/
theorem blockAt_start (hsorted : (L ++ b :: R).Pairwise fun b c => b.virt < c.virt) :
    blockAt (L ++ b :: R) b.virt = some b := by
  have hR : blockAt R b.virt = none :=
    blockAt_eq_none.2 (pairwise_cons.1 (pairwise_append.1 hsorted).2.1).1
  have : L ++ b :: R = (L ++ [b]) ++ R := by simp
  rw [this, blockAt_append, hR, blockAt_concat (Nat.le_refl _)]
  rfl

/-- The tail of a block maps an address to what the block does, unless the tail looks
unmapped. -/
theorem value_tail (hpe : p.virt ≤ e) (hea : e ≤ a) (h : m.value p e ≠ some m.unmappedPa) :
    m.value ⟨e, m.tailPhys p e, x⟩ a = m.value p a := by
  by_cases hun : m.unmapped p
  · have ht : m.tailPhys p e = m.unmappedPa := tailPhys_of_unmapped hun
    rw [value_of_unmapped hun, value_of_unmapped (b := ⟨e, m.tailPhys p e, x⟩) ht]
  · have ht : ¬ m.unmapped ⟨e, m.tailPhys p e, x⟩ := fun ht => by
      rw [value, if_neg hun] at h
      exact h (congrArg some ht)
    rw [value, value, if_neg ht, if_neg hun, tailPhys, tailPhys]
    by_cases hcontig : m.paContigSplit = true
    · rw [if_pos ⟨hcontig, ht⟩, if_pos ⟨hcontig, hun⟩, tailPhys, if_pos ⟨hcontig, hun⟩,
        BitVec.add_assoc, ← BitVec.ofNat_add]
      congr 3
      change e - p.virt + (a - e) = a - p.virt
      omega
    · rw [if_neg (fun h => hcontig h.1), if_neg (fun h => hcontig h.1), tailPhys, if_neg (fun h => hcontig h.1)]

/-! ### Well-formed vectors -/

/-- The blocks come in order of their addresses, the first one at zero, and the last one is
unmapped. -/
structure WellFormed (m : FlatAddressSpaceMap w ε) : Prop where
  sorted : m.blocks.Pairwise fun b c => b.virt < c.virt
  start : ∃ b, m.blocks.head? = some b ∧ b.virt = 0
  last : ∃ b, m.blocks.getLast? = some b ∧ m.unmapped b

theorem wellFormed_new [Inhabited ε] {unmappedPa : BitVec w} {contig : Bool} {vaLimit : ℕ} :
    (new (ε := ε) unmappedPa contig vaLimit).WellFormed :=
  ⟨pairwise_singleton .., ⟨_, rfl, rfl⟩, ⟨_, rfl, rfl⟩⟩

/-- A well-formed vector cut at the start and at the end of a region; `p` is the block with
the last address of it. -/
structure Cut (m : FlatAddressSpaceMap w ε) (v e : ℕ) (C : List (Block w ε)) (sp : Block w ε)
    (I A : List (Block w ε)) (p : Block w ε) : Prop where
  blocks : m.blocks = C ++ sp :: (I ++ A)
  lt : sp.virt < v
  ltC : ∀ b ∈ C, b.virt < v
  mem : ∀ b ∈ I, v ≤ b.virt ∧ b.virt < e
  le : ∀ b ∈ A, e ≤ b.virt
  last : (sp :: I).getLast? = some p
  end_unmapped : A = [] → m.unmapped p
  sorted : (I ++ A).Pairwise fun b c => b.virt < c.virt

/-- The part of a sorted list below a bound and the rest. -/
theorem exists_split {l : List (Block w ε)} (h : l.Pairwise fun b c => b.virt < c.virt) (v : ℕ) :
    ∃ L R, l = L ++ R ∧ (∀ b ∈ L, b.virt < v) ∧ ∀ b ∈ R, v ≤ b.virt := by
  induction l with
  | nil => exact ⟨[], [], rfl, by simp, by simp⟩
  | cons b l ih =>
    obtain ⟨hb, hl⟩ := pairwise_cons.1 h
    by_cases hv : b.virt < v
    · obtain ⟨L, R, rfl, hL, hR⟩ := ih hl
      exact ⟨b :: L, R, rfl, forall_mem_cons.2 ⟨hv, hL⟩, hR⟩
    · refine ⟨[], b :: l, rfl, by simp, forall_mem_cons.2 ⟨Nat.not_lt.1 hv, fun c hc => ?_⟩⟩
      have := hb c hc
      omega

theorem WellFormed.exists_cut (h : m.WellFormed) (hv : 0 < v) :
    ∃ C sp I A p, Cut m v e C sp I A p := by
  obtain ⟨L, R, hbs, hL, hR⟩ := exists_split h.sorted v
  have hsorted := h.sorted
  rw [hbs] at hsorted
  have hRs := (pairwise_append.1 hsorted).2.1
  obtain ⟨I, A, rfl, hI, hA⟩ := exists_split hRs e
  obtain ⟨b₀, hhead, hzero⟩ := h.start
  rcases eq_nil_or_concat L with rfl | ⟨C, sp, rfl⟩
  · -- the first block is below the region
    rw [hbs, nil_append] at hhead
    have := hR b₀ (mem_of_head? hhead)
    omega
  · rw [concat_eq_append] at *
    obtain ⟨p, hp⟩ : ∃ p, (sp :: I).getLast? = some p := by
      rw [← Option.ne_none_iff_exists', ne_eq, getLast?_eq_none_iff]
      exact cons_ne_nil _ _
    refine ⟨C, sp, I, A, p, by simp [hbs], hL sp (by simp), fun b hb => hL b (by simp [hb]),
      fun b hb => ⟨hR b (by simp [hb]), hI b hb⟩, hA, hp, ?_, hRs⟩
    rintro rfl
    obtain ⟨b, hlast, hun⟩ := h.last
    rw [hbs, append_nil, append_assoc, singleton_append, getLast?_append, hp] at hlast
    cases hlast
    exact hun

namespace Cut

variable (h : Cut m v e C sp I A p)
include h

theorem p_lt (hve : v < e) : p.virt < e := by
  rcases mem_cons.1 (mem_of_getLast? h.last) with rfl | hp
  · exact h.lt.trans hve
  · exact (h.mem p hp).2

/-- The end of a region, seen from behind. -/
theorem blockAt_of_le (hve : v < e) (ha : e ≤ a) :
    blockAt m.blocks a = (blockAt A a).or (some p) := by
  have hp : blockAt (C ++ sp :: I) a = some p := by
    obtain ⟨K, hK⟩ : ∃ K, sp :: I = K ++ [p] := by
      obtain ⟨K, hK⟩ := getLast?_eq_some_iff.1 h.last
      exact ⟨K, hK⟩
    rw [hK, ← append_assoc]
    exact blockAt_concat ((h.p_lt hve).le.trans ha)
  rw [h.blocks, ← cons_append, ← append_assoc, blockAt_append, hp]

theorem ge_v (hve : v < e) : ∀ b ∈ I ++ A, v ≤ b.virt := fun b hb => by
  rcases mem_append.1 hb with hb | hb
  · exact (h.mem b hb).1
  · exact hve.le.trans (h.le b hb)

/-- The blocks behind the first part of a cut make a well-formed vector with it. -/
theorem wellFormed (hw : m.WellFormed) (hX : X.Pairwise fun b c => b.virt < c.virt)
    (hXv : ∀ b ∈ X, v ≤ b.virt) (hlast : ∃ b, (sp :: X).getLast? = some b ∧ m.unmapped b) :
    WellFormed { m with blocks := C ++ sp :: X } := by
  have hsorted := hw.sorted
  rw [h.blocks] at hsorted
  obtain ⟨hC, hsI, hCs⟩ := pairwise_append.1 hsorted
  refine ⟨pairwise_append.2 ⟨hC, pairwise_cons.2 ⟨fun b hb => ?_, hX⟩, fun c hc b hb => ?_⟩, ?_, ?_⟩
  · exact h.lt.trans_le (hXv b hb)
  · rcases mem_cons.1 hb with rfl | hb
    · exact hCs c hc b mem_cons_self
    · exact (h.ltC c hc).trans_le (hXv b hb)
  · obtain ⟨b, hb, hzero⟩ := hw.start
    refine ⟨b, ?_, hzero⟩
    rw [h.blocks] at hb
    cases C <;> exact hb
  · obtain ⟨b, hb, hun⟩ := hlast
    refine ⟨b, ?_, hun⟩
    change (C ++ sp :: X).getLast? = some b
    rw [getLast?_append, hb]
    rfl

/-- The last block behind the region. -/
theorem last_unmapped (hw : m.WellFormed) (hA : A ≠ []) :
    ∃ b, A.getLast? = some b ∧ m.unmapped b := by
  obtain ⟨b, hb, hun⟩ := hw.last
  refine ⟨b, ?_, hun⟩
  have : m.blocks = (C ++ sp :: I) ++ A := by simp [h.blocks]
  rw [this, getLast?_append] at hb
  cases hlast : A.getLast? with
  | none => exact absurd (getLast?_eq_none_iff.1 hlast) hA
  | some b' =>
    rw [hlast] at hb
    exact hb

theorem sortedA : A.Pairwise fun b c => b.virt < c.virt := (pairwise_append.1 h.sorted).2.1

end Cut

/-! ### `MapLocked` -/

section

variable {tail : List (Block w ε)} (ht : TailOf m p e A tail) (h : Cut m v e C sp I A p)

include ht h

/-- What `MapLocked` leaves of the blocks behind a region. -/
theorem TailOf.value_of_le (hve : v < e) (hok : m.denote e ≠ some m.unmappedPa) (hea : e ≤ a) :
    ((blockAt (tail ++ A) a).bind fun b => m.value b a) = m.denote a ∧ blockAt (tail ++ A) a ≠ none := by
  rw [denote, h.blockAt_of_le hve hea]
  cases ht with
  | next s A' hA hs =>
    have hne : blockAt A a ≠ none := fun hnone => by
      have := blockAt_eq_none.1 hnone s (by simp [hA])
      omega
    obtain ⟨b, hb⟩ := Option.ne_none_iff_exists'.1 hne
    rw [nil_append, hb]
    exact ⟨rfl, Option.some_ne_none b⟩
  | part x' hs =>
    have htail : blockAt [⟨e, m.tailPhys p e, x'⟩] a = some ⟨e, m.tailPhys p e, x'⟩ := blockAt_singleton_of_le hea
    rw [blockAt_append, htail]
    refine ⟨?_, by cases blockAt A a <;> exact Option.some_ne_none _⟩
    cases hA : blockAt A a with
    | some b => rfl
    | none =>
      have hpe : m.value p e ≠ some m.unmappedPa := by
        rw [denote, h.blockAt_of_le hve (Nat.le_refl e)] at hok
        have hAe : blockAt A e = none := blockAt_eq_none.2 fun b hb =>
          hea.trans_lt (blockAt_eq_none.1 hA b hb)
        rwa [hAe] at hok
      exact value_tail (h.p_lt hve).le hea hpe

/-- The blocks behind a region after `MapLocked`, in order. -/
theorem TailOf.sorted :
    (tail ++ A).Pairwise (fun b c => b.virt < c.virt) ∧ ∀ b ∈ tail ++ A, e ≤ b.virt := by
  cases ht with
  | next s A' hA hs => exact ⟨h.sortedA, h.le⟩
  | part x' hs =>
    refine ⟨pairwise_cons.2 ⟨fun b hb => ?_, h.sortedA⟩, forall_mem_cons.2 ⟨Nat.le_refl e, h.le⟩⟩
    cases A with
    | nil => cases hb
    | cons s A =>
      have hlt : e < s.virt := lt_of_le_of_ne (h.le s mem_cons_self) (Ne.symm (hs s rfl))
      rcases mem_cons.1 hb with rfl | hb
      · exact hlt
      · exact hlt.trans ((pairwise_cons.1 h.sortedA).1 b hb)

/-- The last block after `MapLocked`. -/
theorem TailOf.last (hw : m.WellFormed) :
    ∃ b, (tail ++ A).getLast? = some b ∧ m.unmapped b := by
  cases A with
  | cons s A =>
    obtain ⟨b, hb, hun⟩ := h.last_unmapped hw (cons_ne_nil s A)
    refine ⟨b, ?_, hun⟩
    rw [getLast?_append, hb]
    rfl
  | nil =>
    cases ht with
    | next s A' hA hs => cases hA
    | part x' hs => exact ⟨_, rfl, tailPhys_of_unmapped (h.end_unmapped rfl)⟩

end

/-- What has to hold of a call: it returns with no assertion failed a well-formed vector that
stands for the map `f`. -/
def Correct (m : FlatAddressSpaceMap w ε) (r : Exec (FlatAddressSpaceMap w ε))
    (f : ℕ → Option (BitVec w)) : Prop :=
  ∃ m' : FlatAddressSpaceMap w ε, r = .ret m' true ∧ m'.WellFormed ∧
    (m'.unmappedPa = m.unmappedPa ∧ m'.paContigSplit = m.paContigSplit ∧
      m'.vaLimit = m.vaLimit) ∧ m'.denote = f

/-- **`MapLocked`** puts a linear mapping over a region, unless the map has `UnmappedPa` itself
behind it. -/
theorem mapLocked_correct_iff [Inhabited ε] (phys : BitVec w) (x : ε) (hw : m.WellFormed)
    (hv : 0 < v) (hsize : 0 < size) (hlimit : v + size ≤ m.vaLimit) :
    Correct m (m.mapLocked v phys size x)
      (fun a => if v ≤ a ∧ a < v + size then m.value ⟨v, phys, x⟩ a else m.denote a) ↔
      m.denote (v + size) ≠ some m.unmappedPa := by
  obtain ⟨e, he⟩ : ∃ e, v + size = e := ⟨_, rfl⟩
  have hve : v < e := by omega
  obtain ⟨C, sp, I, A, p, h⟩ := hw.exists_cut hv
  rw [he] at hlimit ⊢
  obtain ⟨tail, htail, heq⟩ := mapLocked_eq phys x h.blocks h.lt h.mem h.le h.ltC
    he hve hlimit h.last h.end_unmapped
  have hX : ∀ b ∈ (⟨v, phys, x⟩ : Block w ε) :: (tail ++ A), v ≤ b.virt :=
    forall_mem_cons.2 ⟨Nat.le_refl v, fun b hb => hve.le.trans ((htail.sorted h).2 b hb)⟩
  have hwf : WellFormed { m with blocks := C ++ sp :: ⟨v, phys, x⟩ :: (tail ++ A) } := by
    refine h.wellFormed hw (pairwise_cons.2 ⟨fun b hb => ?_, (htail.sorted h).1⟩) hX ?_
    · exact hve.trans_le ((htail.sorted h).2 b hb)
    · obtain ⟨b, hb, hun⟩ := htail.last h hw
      refine ⟨b, ?_, hun⟩
      rw [show sp :: ⟨v, phys, x⟩ :: (tail ++ A) = [sp, ⟨v, phys, x⟩] ++ (tail ++ A) from rfl, getLast?_append, hb]
      rfl
  constructor
  · rintro ⟨m', hret, -, -, hdenote⟩
    rw [heq] at hret
    cases hret
    have hme := congrFun hdenote e
    rw [if_neg (fun h => absurd h.2 (Nat.lt_irrefl e))] at hme
    rw [← hme]
    -- a block starts at the end of the region
    obtain ⟨t, T, hT, ht⟩ : ∃ t T, tail ++ A = t :: T ∧ t.virt = e := by
      cases htail with
      | next s A' hA hs => exact ⟨s, A', hA, hs⟩
      | part x' hs => exact ⟨_, _, rfl, rfl⟩
    have hsplit : C ++ sp :: (⟨v, phys, x⟩ : Block w ε) :: (tail ++ A) =
        (C ++ [sp, ⟨v, phys, x⟩]) ++ t :: T := by simp [hT]
    have hstart : blockAt (C ++ sp :: (⟨v, phys, x⟩ : Block w ε) :: (tail ++ A)) e = some t := by
      have hsorted := hwf.sorted
      change (C ++ sp :: (⟨v, phys, x⟩ : Block w ε) :: (tail ++ A)).Pairwise _ at hsorted
      rw [hsplit] at hsorted ⊢
      rw [← ht]
      exact blockAt_start hsorted
    rw [denote, hstart, ← ht]
    exact value_start (m := { m with blocks := _ })
  · intro hok
    refine ⟨_, heq, hwf, ⟨rfl, rfl, rfl⟩, funext fun a => ?_⟩
    change ((blockAt (C ++ sp :: ⟨v, phys, x⟩ :: (tail ++ A)) a).bind fun b => m.value b a) = _
    rcases Nat.lt_or_ge a v with hav | hav
    · rw [if_neg (fun h => absurd h.1 (Nat.not_le.2 hav)), denote, h.blocks,
        blockAt_of_lt fun b hb => hav.trans_le (hX b hb),
        blockAt_of_lt fun b hb => hav.trans_le (h.ge_v hve b hb)]
    have hsplit : C ++ sp :: (⟨v, phys, x⟩ : Block w ε) :: (tail ++ A) =
        (C ++ [sp] ++ [⟨v, phys, x⟩]) ++ (tail ++ A) := by simp
    rw [hsplit, blockAt_append]
    rcases Nat.lt_or_ge a e with hae | hae
    · have hnone : blockAt (tail ++ A) a = none :=
        blockAt_eq_none.2 fun b hb => hae.trans_le ((htail.sorted h).2 b hb)
      rw [if_pos ⟨hav, hae⟩, hnone, Option.none_or, blockAt_concat hav]
      rfl
    · obtain ⟨hvalue, hne⟩ := htail.value_of_le h hve hok hae
      obtain ⟨b, hb⟩ := Option.ne_none_iff_exists'.1 hne
      rw [if_neg (fun h => absurd h.2 (Nat.not_lt.2 hae)), ← hvalue, hb]
      rfl

/-! ### `UnmapLocked` -/

/-- When `UnmapLocked` does what it should with the blocks `I` that start in a region, those
behind it and the last one before it; `p` has the end of the region. -/
def UnmapOkParts (m : FlatAddressSpaceMap w ε) (e v : ℕ) (sp : Block w ε) (I : List (Block w ε))
    (p : Block w ε) : List (Block w ε) → Prop
  | [] => m.unmapped p → v < p.virt → ¬ m.unmapped sp → 1 < I.length
  | s :: A =>
    if m.unmapped p then v < p.virt → if m.unmapped sp then ¬ m.unmapped s else 1 < I.length
    else if s.virt = e then
      if m.unmapped s then if m.unmapped sp then ¬ m.headUnmapped A else I ≠ []
      else ¬ m.unmapped sp
    else m.denote e ≠ some m.unmappedPa ∧
      (m.unmapped sp → ∀ q ∈ I.dropLast.getLast?, m.unmapped q)

/-- When `UnmapLocked` does what it should with the region from `v` to `e`. -/
def UnmapOk (m : FlatAddressSpaceMap w ε) (v e : ℕ) : Prop :=
  let I := m.blocks.filter fun b => decide (v ≤ b.virt ∧ b.virt < e)
  ∀ sp ∈ (m.blocks.filter fun b => decide (b.virt < v)).getLast?,
    m.UnmapOkParts e v sp I (I.getLastD sp) (m.blocks.filter fun b => decide (e ≤ b.virt))

theorem Cut.unmapOk_iff (h : Cut m v e C sp I A p) (hve : v < e) :
    m.UnmapOk v e ↔ m.UnmapOkParts e v sp I p A := by
  have hbefore : (m.blocks.filter fun b => decide (b.virt < v)) = C ++ [sp] := by
    have hC : (C.filter fun b => decide (b.virt < v)) = C :=
      filter_eq_self.2 fun b hb => decide_eq_true (h.ltC b hb)
    have hIA : ((I ++ A).filter fun b => decide (b.virt < v)) = [] :=
      filter_eq_nil_iff.2 fun b hb => by simpa using h.ge_v hve b hb
    rw [h.blocks, filter_append, hC, filter_cons_of_pos (by simpa using h.lt), hIA]
  have hinside : (m.blocks.filter fun b => decide (v ≤ b.virt ∧ b.virt < e)) = I := by
    have hC : ((C ++ [sp]).filter fun b => decide (v ≤ b.virt ∧ b.virt < e)) = [] :=
      filter_eq_nil_iff.2 fun b hb => by
        have hlt : b.virt < v := by
          rcases mem_append.1 hb with hb | hb
          · exact h.ltC b hb
          · rw [mem_singleton.1 hb]
            exact h.lt
        simp only [decide_eq_true_eq]
        omega
    have hI : (I.filter fun b => decide (v ≤ b.virt ∧ b.virt < e)) = I :=
      filter_eq_self.2 fun b hb => decide_eq_true (h.mem b hb)
    have hA : (A.filter fun b => decide (v ≤ b.virt ∧ b.virt < e)) = [] :=
      filter_eq_nil_iff.2 fun b hb => by
        have := h.le b hb
        simp only [decide_eq_true_eq]
        omega
    have : m.blocks = (C ++ [sp]) ++ (I ++ A) := by simp [h.blocks]
    rw [this, filter_append, hC, filter_append, hI, hA]
    simp
  have hafter : (m.blocks.filter fun b => decide (e ≤ b.virt)) = A := by
    have hL : ((C ++ sp :: I).filter fun b => decide (e ≤ b.virt)) = [] :=
      filter_eq_nil_iff.2 fun b hb => by
        simp only [decide_eq_true_eq, Nat.not_le]
        rcases mem_append.1 hb with hb | hb
        · exact (h.ltC b hb).trans hve
        · rcases mem_cons.1 hb with rfl | hb
          · exact h.lt.trans hve
          · exact (h.mem b hb).2
    have hA : (A.filter fun b => decide (e ≤ b.virt)) = A :=
      filter_eq_self.2 fun b hb => decide_eq_true (h.le b hb)
    have : m.blocks = (C ++ sp :: I) ++ A := by simp [h.blocks]
    rw [this, filter_append, hL, hA]
    rfl
  have hlast : I.getLastD sp = p := by
    have := h.last
    rw [getLast?_cons, Option.some.injEq] at this
    rw [← this, getLastD_eq_getLast?]
  rw [UnmapOk, hbefore, hinside, hafter, getLast?_concat]
  constructor
  · intro hok
    have hparts := hok sp rfl
    rwa [hlast] at hparts
  · intro hok sp' hsp'
    obtain rfl := Option.some.inj hsp'
    rwa [hlast]

/-- A result that clears a region: unmapped blocks `M` in it from its start on, or behind an
unmapped block, and then blocks `T` that have the same at every address. -/
theorem Cut.correct_of_clear (h : Cut m v e C sp I A p) (hw : m.WellFormed) (hve : v < e)
    {M T : List (Block w ε)} (hM : M.Pairwise fun b c => b.virt < c.virt)
    (hMv : ∀ b ∈ M, m.unmapped b ∧ v ≤ b.virt ∧ b.virt < e) (hfirst : m.unmapped sp ∨ ∃ b ∈ M, b.virt = v)
    (hT : T.Pairwise fun b c => b.virt < c.virt) (hTe : ∀ b ∈ T, e ≤ b.virt)
    (hlast : T ≠ [] → ∃ b, T.getLast? = some b ∧ m.unmapped b)
    (hvalue : ∀ a, e ≤ a → ((blockAt T a).bind fun b => m.value b a) = m.denote a) :
    Correct m (.ret { m with blocks := C ++ sp :: (M ++ T) } true)
      fun a => if v ≤ a ∧ a < e then none else m.denote a := by
  have hX : ∀ b ∈ M ++ T, v ≤ b.virt := fun b hb => by
    rcases mem_append.1 hb with hb | hb
    · exact (hMv b hb).2.1
    · exact hve.le.trans (hTe b hb)
  refine ⟨_, rfl, h.wellFormed hw ?_ hX ?_, ⟨rfl, rfl, rfl⟩, funext fun a => ?_⟩
  · exact pairwise_append.2 ⟨hM, hT, fun b hb c hc => (hMv b hb).2.2.trans_le (hTe c hc)⟩
  · by_cases hT : T = []
    · subst hT
      rw [append_nil]
      cases hM : M.getLast? with
      | none =>
        obtain rfl := getLast?_eq_none_iff.1 hM
        exact ⟨sp, rfl, hfirst.resolve_right (by simp)⟩
      | some b =>
        refine ⟨b, ?_, (hMv b (mem_of_getLast? hM)).1⟩
        rw [getLast?_cons, hM]
        rfl
    · obtain ⟨b, hb, hun⟩ := hlast hT
      refine ⟨b, ?_, hun⟩
      rw [← cons_append, getLast?_append, hb]
      rfl
  change ((blockAt (C ++ sp :: (M ++ T)) a).bind fun b => m.value b a) = _
  rcases Nat.lt_or_ge a v with hav | hav
  · rw [if_neg (fun h => absurd h.1 (Nat.not_le.2 hav)), denote, h.blocks,
      blockAt_of_lt fun b hb => hav.trans_le (hX b hb),
      blockAt_of_lt fun b hb => hav.trans_le (h.ge_v hve b hb)]
  -- in the region and behind it only the blocks behind it matter
  have hnew : ((blockAt (C ++ sp :: (M ++ T)) a).bind fun b => m.value b a) =
      (blockAt T a).bind fun b => m.value b a := by
    have hsplit : C ++ sp :: (M ++ T) = (C ++ [sp]) ++ M ++ T := by simp
    rw [hsplit, blockAt_append, blockAt_append, blockAt_concat (h.lt.le.trans hav)]
    cases hbT : blockAt T a with
    | some b => rfl
    | none =>
      rw [Option.none_or]
      cases hbM : blockAt M a with
      | some b =>
        have hb : b ∈ M := mem_of_mem_filter (mem_of_getLast? hbM)
        exact value_of_unmapped (hMv b hb).1
      | none =>
        rcases hfirst with hsp | ⟨b, hb, hbv⟩
        · exact value_of_unmapped hsp
        · have := blockAt_eq_none.1 hbM b hb
          omega
  rw [hnew]
  rcases Nat.lt_or_ge a e with hae | hae
  · rw [if_pos ⟨hav, hae⟩, blockAt_eq_none.2 fun b hb => hae.trans_le (hTe b hb)]
    rfl
  · rw [if_neg (fun h => absurd h.2 (Nat.not_lt.2 hae)), hvalue a hae]

/-- What a block in the region that is mapped makes wrong. -/
theorem not_correct {M T : List (Block w ε)}
    (hsorted : (C ++ sp :: (M ++ q :: T)).Pairwise fun b c => b.virt < c.virt)
    (hq : ¬ m.unmapped q) (hqv : v ≤ q.virt ∧ q.virt < e) :
    ¬ Correct m (.ret { m with blocks := C ++ sp :: (M ++ q :: T) } true)
      fun a => if v ≤ a ∧ a < e then none else m.denote a := by
  rintro ⟨m', hret, -, -, hdenote⟩
  cases hret
  have hat := congrFun hdenote q.virt
  rw [if_pos hqv] at hat
  have hsplit : C ++ sp :: (M ++ q :: T) = (C ++ sp :: M) ++ q :: T := by simp
  have hblock : blockAt (C ++ sp :: (M ++ q :: T)) q.virt = some q := by
    rw [hsplit] at hsorted ⊢
    exact blockAt_start hsorted
  rw [denote, hblock] at hat
  change m.value q q.virt = none at hat
  rw [value, if_neg hq] at hat
  cases hat

/-- The blocks behind a region when one starts at the end of it. -/
theorem Cut.denote_end {s : Block w ε} {A' : List (Block w ε)} (h : Cut m v e C sp I A p)
    (hve : v < e) (hA : A = s :: A') (hs : s.virt = e) : m.denote e ≠ some m.unmappedPa := by
  have hblock : blockAt A e = some s := by
    have := blockAt_start (L := []) (b := s) (R := A') (hA ▸ h.sortedA)
    rw [hs, nil_append] at this
    rw [hA]
    exact this
  rw [denote, h.blockAt_of_le hve (Nat.le_refl e), hblock, ← hs]
  exact value_start

section

variable {u : Block w ε} {R : List (Block w ε)} (hends : EndsAt m I A e p J u R) (h : Cut m v e C sp I A p)

include hends h

/-- The unmapped block at the end of a region goes: behind the region there is no change. -/
theorem EndsAt.value (hve : v < e) (hu : m.unmapped u) (ha : e ≤ a) :
    ((blockAt R a).bind fun b => m.value b a) = m.denote a := by
  rw [denote, h.blockAt_of_le hve ha]
  rcases hends with ⟨-, rfl, rfl⟩ | ⟨-, rfl, -, hue⟩
  · cases blockAt A a with
    | some b => rfl
    | none => exact (value_of_unmapped hu).symm
  · rw [blockAt_cons, blockAt_singleton_of_le (hue.le.trans ha)]
    cases blockAt R a with
    | some b => rfl
    | none => exact (value_of_unmapped hu).symm

/-- The blocks behind the unmapped one at the end of a region. -/
theorem EndsAt.rest (hw : m.WellFormed) : R.Pairwise (fun b c => b.virt < c.virt) ∧
      (∀ b ∈ R, e ≤ b.virt) ∧ (R ≠ [] → ∃ b, R.getLast? = some b ∧ m.unmapped b) := by
  rcases hends with ⟨-, rfl, -⟩ | ⟨-, rfl, -⟩
  · exact ⟨h.sortedA, h.le, h.last_unmapped hw⟩
  · refine ⟨(pairwise_cons.1 h.sortedA).2, fun b hb => h.le b (mem_cons_of_mem _ hb), fun hR => ?_⟩
    obtain ⟨b, hb, hun⟩ := h.last_unmapped hw (cons_ne_nil u R)
    refine ⟨b, ?_, hun⟩
    obtain ⟨c, R', rfl⟩ := exists_cons_of_ne_nil hR
    rwa [getLast?_cons_cons] at hb

end

/-- The blocks behind a region when the last one in it is cut at its end. -/
theorem Cut.tail_value {x' : ε} (h : Cut m v e C sp I A p) (hve : v < e)
    (hA : ∀ s ∈ A.head?, s.virt ≠ e) (hok : m.denote e ≠ some m.unmappedPa) (ha : e ≤ a) :
    ((blockAt (⟨e, m.tailPhys p e, x'⟩ :: A) a).bind fun b => m.value b a) = m.denote a :=
  ((TailOf.part x' hA).value_of_le h hve hok ha).1

/-- A block that starts at the end of a region does not map that to `UnmappedPa`. -/
theorem Cut.denote_of_correct {X T : List (Block w ε)} {t : Block w ε}
    (hcorrect : Correct m (.ret { m with blocks := X ++ t :: T } true)
      fun a => if v ≤ a ∧ a < e then none else m.denote a) (ht : t.virt = e) :
    m.denote e ≠ some m.unmappedPa := by
  obtain ⟨m', hret, hw, -, hdenote⟩ := hcorrect
  cases hret
  have hme := congrFun hdenote e
  rw [if_neg (fun h => absurd h.2 (Nat.lt_irrefl e))] at hme
  rw [← hme, denote, ← ht, blockAt_start hw.sorted]
  exact value_start (m := { m with blocks := _ })

/-- The unmapped blocks the second part of `UnmapLocked` leaves in a region. -/
theorem unmapStartBlocks_spec [Inhabited ε] (sp : Block w ε) (hJ : ∀ b ∈ J, v ≤ b.virt ∧ b.virt < e) (hve : v < e)
    (hok : m.unmapped sp → ∀ q ∈ J.getLast?, m.unmapped q) :
    (m.unmapStartBlocks sp J v).Pairwise (fun b c => b.virt < c.virt) ∧
      (∀ b ∈ m.unmapStartBlocks sp J v, m.unmapped b ∧ v ≤ b.virt ∧ b.virt < e) ∧
      (m.unmapped sp ∨ ∃ b ∈ m.unmapStartBlocks sp J v, b.virt = v) := by
  rw [unmapStartBlocks]
  by_cases hsp : m.unmapped sp
  · rw [if_pos hsp]
    refine ⟨?_, fun b hb => ?_, Or.inl hsp⟩
    · cases J.getLast? <;> simp
    · rw [Option.mem_toList] at hb
      exact ⟨hok hsp b hb, hJ b (mem_of_getLast? hb)⟩
  · rw [if_neg hsp]
    exact ⟨pairwise_singleton .., by simp [unmapped, hve], Or.inr ⟨_, mem_singleton_self _, rfl⟩⟩

/-- **`UnmapLocked`** clears a region just when `UnmapOk` says so. -/
theorem unmapLocked_correct_iff [Inhabited ε] (hw : m.WellFormed) (hv : 0 < v) (hsize : 0 < size)
    (hlimit : v + size ≤ m.vaLimit) :
    Correct m (m.unmapLocked v size)
      (fun a => if v ≤ a ∧ a < v + size then none else m.denote a) ↔ m.UnmapOk v (v + size) := by
  obtain ⟨e, he⟩ : ∃ e, v + size = e := ⟨_, rfl⟩
  have hve : v < e := by omega
  obtain ⟨C, sp, I, A, p, h⟩ := hw.exists_cut (e := e) hv
  rw [he] at hlimit ⊢
  obtain ⟨bs, held, hcase, heq⟩ := unmapLocked_eq h.blocks h.lt h.mem h.le h.ltC he hve hlimit
    h.last h.end_unmapped
  rw [h.unmapOk_iff hve, heq]
  -- a result whose assertion failed is not right
  have hheld : ∀ {bs f}, Correct m (.ret { m with blocks := C ++ sp :: bs } held) f → held = true := by
    rintro _ _ ⟨m', hret, -⟩
    cases hret
    rfl
  cases hcase with
  | stay hp hpv =>
    have hparts : m.UnmapOkParts e v sp I p A := by
      cases A with
      | nil => exact fun _ hlt => absurd hlt (Nat.not_lt.2 hpv)
      | cons s A =>
        rw [UnmapOkParts, if_pos hp]
        exact fun hlt => absurd hlt (Nat.not_lt.2 hpv)
    refine iff_of_true ⟨_, rfl, ?_, ⟨rfl, rfl, rfl⟩, ?_⟩ hparts
    · rw [← h.blocks]
      exact hw
    · rw [← h.blocks]
      refine funext fun a => ?_
      by_cases ha : v ≤ a ∧ a < e
      · have hblock : blockAt m.blocks a = some p := by
          obtain ⟨K, hK⟩ := getLast?_eq_some_iff.1 h.last
          have : m.blocks = (C ++ K ++ [p]) ++ A := by
            rw [h.blocks, ← cons_append, hK]
            simp
          rw [this, blockAt_append, blockAt_concat (hpv.trans ha.1),
            blockAt_eq_none.2 fun b hb => ha.2.trans_le (h.le b hb)]
          rfl
        rw [if_pos ha]
        change ((blockAt m.blocks a).bind fun b => m.value b a) = none
        rw [hblock]
        exact value_of_unmapped hp
      · rw [if_neg ha]
  | join J R u hends hu huv hsp =>
    obtain ⟨hR, hRe, hRlast⟩ := hends.rest h hw
    have hparts : m.UnmapOkParts e v sp I p A ↔ ¬ m.headUnmapped bs := by
      rcases hends with ⟨hI, hA, hp⟩ | ⟨hI, hA, hp, hue⟩
      · rw [hI, hA, hp]
        cases bs with
        | nil => exact iff_of_true (fun _ _ hn => absurd hsp hn) (by simp [headUnmapped])
        | cons s A' =>
          rw [UnmapOkParts, if_pos hu, if_pos hsp]
          simp [headUnmapped, huv]
      · rw [hA, UnmapOkParts, if_neg hp, if_pos hue, if_pos hu, if_pos hsp]
    rw [hparts]
    constructor
    · exact fun hc => of_decide_eq_true (hheld hc)
    · intro hok
      rw [decide_eq_true hok]
      exact h.correct_of_clear (M := []) hw hve List.Pairwise.nil (by simp) (Or.inl hsp) hR hRe
        hRlast fun a ha => hends.value h hve hu ha
  | grow J R u hends hu huv hsp =>
    obtain ⟨hR, hRe, hRlast⟩ := hends.rest h hw
    have hparts : m.UnmapOkParts e v sp I p A ↔ J ≠ [] := by
      have hlen : 1 < (J ++ [u]).length ↔ J ≠ [] := by
        rw [length_append, length_singleton, ne_eq, ← length_eq_zero_iff]
        omega
      rcases hends with ⟨rfl, rfl, rfl⟩ | ⟨rfl, rfl, hp, hue⟩
      · cases A with
        | nil => exact ⟨fun hc => hlen.1 (hc hu huv hsp), fun hJ _ _ _ => hlen.2 hJ⟩
        | cons s A =>
          rw [UnmapOkParts, if_pos hu, if_neg hsp, hlen]
          exact ⟨fun hc => hc huv, fun hJ _ => hJ⟩
      · rw [UnmapOkParts, if_neg hp, if_pos hue, if_pos hu, if_neg hsp]
    rw [hparts]
    constructor
    · exact fun hc => of_decide_eq_true (hheld hc)
    · intro hok
      rw [decide_eq_true hok]
      exact h.correct_of_clear (M := [{ u with virt := v }]) hw hve (pairwise_singleton ..)
        (forall_mem_singleton.2 ⟨hu, Nat.le_refl v, hve⟩)
        (Or.inr ⟨_, mem_singleton_self _, rfl⟩) hR hRe hRlast
        fun a ha => hends.value h hve hu ha
  | split hI hp hA =>
    subst hI
    obtain ⟨s, A', rfl⟩ : ∃ s A', A = s :: A' := exists_cons_of_ne_nil fun hnil =>
      hp (h.end_unmapped hnil)
    have hse : s.virt ≠ e := hA s rfl
    have hparts : m.UnmapOkParts e v sp [] p (s :: A') ↔ m.denote e ≠ some m.unmappedPa := by
      rw [UnmapOkParts, if_neg hp, if_neg hse]
      simp
    rw [hparts]
    constructor
    · intro hc
      exact Cut.denote_of_correct (X := C ++ [sp, ⟨v, m.unmappedPa, default⟩]) (T := s :: A')
        (t := ⟨e, m.tailPhys p e, p.extraInfo⟩) (by simpa using hc) rfl
    · intro hok
      have htail := (TailOf.part (m := m) (p := p) p.extraInfo hA).sorted h
      refine h.correct_of_clear (M := [⟨v, m.unmappedPa, default⟩]) hw hve
        (pairwise_singleton ..) (by simp [unmapped, hve])
        (Or.inr ⟨_, mem_singleton_self _, rfl⟩) htail.1 htail.2 (fun _ => ?_)
        fun a ha => h.tail_value hve hA hok ha
      exact (TailOf.part (m := m) (p := p) p.extraInfo hA).last h hw
  | cut J hI hp hA =>
    obtain ⟨s, A', rfl⟩ : ∃ s A', A = s :: A' := exists_cons_of_ne_nil fun hnil =>
      hp (h.end_unmapped hnil)
    have hse : s.virt ≠ e := hA s rfl
    have hJ : ∀ b ∈ J, v ≤ b.virt ∧ b.virt < e := fun b hb => h.mem b (by simp [hI, hb])
    have hparts : m.UnmapOkParts e v sp I p (s :: A') ↔ m.denote e ≠ some m.unmappedPa ∧
        (m.unmapped sp → ∀ q ∈ J.getLast?, m.unmapped q) := by
      rw [UnmapOkParts, if_neg hp, if_neg hse, hI, dropLast_concat]
    have htail := (TailOf.part (m := m) (p := p) p.extraInfo hA).sorted h
    rw [hparts]
    constructor
    · intro hc
      refine ⟨Cut.denote_of_correct (X := C ++ sp :: m.unmapStartBlocks sp J v) (T := s :: A')
        (t := ⟨e, m.tailPhys p e, p.extraInfo⟩) (by simpa using hc) rfl, fun hsp q hq => ?_⟩
      by_contra hqm
      have hq' : J.getLast? = some q := hq
      have hbs : m.unmapStartBlocks sp J v = [q] := by
        rw [unmapStartBlocks, if_pos hsp, hq']
        rfl
      rw [hbs] at hc
      obtain ⟨m', hret, hw', hrest⟩ := hc
      cases hret
      exact not_correct (M := []) hw'.sorted hqm (hJ q (mem_of_getLast? hq))
        ⟨_, rfl, hw', hrest⟩
    · rintro ⟨hok, hsp⟩
      obtain ⟨hM, hMv, hfirst⟩ := unmapStartBlocks_spec (m := m) sp hJ hve hsp
      exact h.correct_of_clear hw hve hM hMv hfirst htail.1 htail.2
        (fun _ => (TailOf.part (m := m) (p := p) p.extraInfo hA).last h hw)
        fun a ha => h.tail_value hve hA hok ha
  | next s A' hA hp hs hm =>
    have hparts : m.UnmapOkParts e v sp I p A ↔ ¬ m.unmapped sp := by
      rw [hA, UnmapOkParts, if_neg hp, if_pos hs, if_neg hm]
    rw [hparts]
    constructor
    · intro hc hsp
      have hI : I.getLast? = some p := by
        have := h.last
        rw [getLast?_cons] at this
        cases hI : I.getLast? with
        | none =>
          rw [hI] at this
          cases this
          exact absurd hsp hp
        | some q =>
          rw [hI] at this
          exact this
      have hbs : m.unmapStartBlocks sp I v = [p] := by
        rw [unmapStartBlocks, if_pos hsp, hI]
        rfl
      rw [hbs] at hc
      obtain ⟨m', hret, hw', hrest⟩ := hc
      cases hret
      exact not_correct (M := []) hw'.sorted hp (h.mem p (mem_of_getLast? hI))
        ⟨_, rfl, hw', hrest⟩
    · intro hsp
      obtain ⟨hM, hMv, hfirst⟩ := unmapStartBlocks_spec (m := m) sp h.mem hve
        fun hn => absurd hn hsp
      exact h.correct_of_clear hw hve hM hMv hfirst h.sortedA h.le (h.last_unmapped hw)
        fun a ha => ((TailOf.next s A' hA hs).value_of_le h hve (h.denote_end hve hA hs) ha).1

end FlatAddressSpaceMap
end Common
end NXEmu
