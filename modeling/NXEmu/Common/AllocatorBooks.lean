/-
# The books of a flat allocator

`src/yuzu_common/address_space.inc`, `FlatAllocator`: the ranges handed out and not freed yet
are the mapped blocks of its map (`Books`).  `MapLocked` of a free range enters it
(`Books.map`), and `UnmapLocked` of one handed out crosses it out (`Books.unmap`).
-/

import NXEmu.Common.AddressSpaceRuns
import Mathlib.Data.Finset.Basic
import Mathlib.Data.List.Chain

namespace NXEmu
namespace Common
namespace FlatAddressSpaceMap

open Exec List

variable {w : ℕ} {ε : Type} {m : FlatAddressSpaceMap w ε} {bs L R C I A : List (Block w ε)}
  {b c s sp p u : Block w ε} {v e size : ℕ}

/-! ### The mapped blocks of a map -/

/-- The mapped blocks of a vector: the start and the size of each. -/
def allocated (m : FlatAddressSpaceMap w ε) : List (Block w ε) → List (ℕ × ℕ)
  | b :: c :: bs =>
    (if m.unmapped b then [] else [(b.virt, c.virt - b.virt)]) ++ allocated m (c :: bs)
  | _ => []

@[simp] theorem allocated_singleton : m.allocated [b] = [] := rfl

theorem allocated_append :
    m.allocated (L ++ b :: R) = m.allocated (L ++ [b]) ++ m.allocated (b :: R) := by
  induction L with
  | nil => rfl
  | cons c L ih =>
    cases L with
    | nil => simp [allocated]
    | cons d L =>
      simp only [cons_append, allocated, append_assoc] at ih ⊢
      rw [ih]

/-- The last block of a vector has no size. -/
theorem allocated_concat_congr (h : b.virt = c.virt) :
    m.allocated (L ++ [b]) = m.allocated (L ++ [c]) := by
  induction L with
  | nil => rfl
  | cons d L ih =>
    cases L with
    | nil => simp [allocated, h]
    | cons d' L =>
      simp only [cons_append, allocated] at ih ⊢
      rw [ih]

/-- Only `UnmappedPa` of the map matters. -/
theorem allocated_with : allocated { m with blocks := L } bs = m.allocated bs := by
  induction bs with
  | nil => rfl
  | cons b bs ih =>
    cases bs with
    | nil => rfl
    | cons c bs =>
      rw [allocated, allocated, ih]
      rfl

/-- A mapped block is one followed by another one. -/
theorem mem_allocated {r : ℕ × ℕ} : r ∈ m.allocated bs ↔
    ∃ L b c R, bs = L ++ b :: c :: R ∧ ¬ m.unmapped b ∧ r = (b.virt, c.virt - b.virt) := by
  constructor
  · intro hr
    induction bs with
    | nil => simp [allocated] at hr
    | cons b bs ih =>
      cases bs with
      | nil => simp [allocated] at hr
      | cons c bs =>
        rw [allocated, mem_append] at hr
        rcases hr with hr | hr
        · split at hr
          · cases hr
          · exact ⟨[], b, c, bs, rfl, ‹_›, mem_singleton.1 hr⟩
        · obtain ⟨L, b', c', R, hbs, hb', rfl⟩ := ih hr
          exact ⟨b :: L, b', c', R, by rw [hbs]; rfl, hb', rfl⟩
  · rintro ⟨L, b, c, R, rfl, hb, rfl⟩
    rw [allocated_append, mem_append, allocated, if_neg hb]
    exact Or.inr (mem_append_left _ (mem_singleton_self _))

/-- No two unmapped blocks follow each other. -/
def Alternating (m : FlatAddressSpaceMap w ε) (bs : List (Block w ε)) : Prop :=
  bs.IsChain fun b c => m.unmapped b → ¬ m.unmapped c

/-- Two ranges that do not overlap. -/
def Apart (r s : ℕ × ℕ) : Prop := r.1 + r.2 ≤ s.1 ∨ s.1 + s.2 ≤ r.1

/-- A region with no mapped block in it lies in an unmapped block, which starts with it or
before it. -/
theorem WellFormed.exists_cut_free (hw : m.WellFormed) (ha : m.Alternating m.blocks) (hv : 0 < v)
    (hve : v < e) (hfree : ∀ r ∈ m.allocated m.blocks, Apart r (v, e - v)) :
    ∃ C sp I A p, Cut m v e C sp I A p ∧ (∀ s ∈ A.head?, ¬ m.unmapped s) ∧
      ((I = [] ∧ m.unmapped sp) ∨ ∃ u, I = [u] ∧ u.virt = v ∧ m.unmapped u ∧ ¬ m.unmapped sp) := by
  obtain ⟨C, sp, I, A, p, h⟩ := hw.exists_cut (e := e) hv
  -- a block that reaches into the region is unmapped
  have hun : ∀ L b c R, m.blocks = L ++ b :: c :: R → b.virt < e → v < c.virt → m.unmapped b := by
    intro L b c R hbs hb hc
    by_contra hmap
    have := hfree _ (mem_allocated.2 ⟨L, b, c, R, hbs, hmap, rfl⟩)
    simp only [Apart] at this
    omega
  have hI : ∀ b ∈ I, m.unmapped b := by
    intro b hb
    obtain ⟨J, K, rfl⟩ := append_of_mem hb
    cases hnext : K ++ A with
    | nil =>
      obtain ⟨rfl, rfl⟩ := append_eq_nil_iff.1 hnext
      have hp := h.last
      rw [← cons_append, getLast?_concat] at hp
      cases hp
      exact h.end_unmapped rfl
    | cons c R =>
      have hbs : m.blocks = (C ++ sp :: J) ++ b :: c :: R := by
        rw [h.blocks, append_assoc, cons_append, hnext]
        simp
      have hbc := hw.sorted
      rw [hbs] at hbc
      have hlt := (pairwise_cons.1 (pairwise_append.1 hbc).2.1).1 c mem_cons_self
      exact hun _ b c R hbs (h.mem b hb).2 ((h.mem b hb).1.trans_lt hlt)
  rw [Alternating, h.blocks] at ha
  cases I with
  | nil =>
    obtain rfl : sp = p := by simpa using h.last
    have hsp : m.unmapped sp := by
      cases A with
      | nil => exact h.end_unmapped rfl
      | cons s A =>
        exact hun C sp s A h.blocks (h.lt.trans hve) (hve.trans_le (h.le s mem_cons_self))
    refine ⟨C, sp, [], A, sp, h, fun s hs => ?_, Or.inl ⟨rfl, hsp⟩⟩
    obtain ⟨A', rfl⟩ : ∃ A', A = s :: A' := head?_eq_some_iff.1 hs
    exact (isChain_cons_cons.1 (isChain_split.1 ha).2).1 hsp
  | cons u I =>
    have hu := hI u mem_cons_self
    have hchain := (isChain_split.1 ha).2
    rw [cons_append, isChain_cons_cons] at hchain
    have hsp : ¬ m.unmapped sp := fun hsp => hchain.1 hsp hu
    have huv : u.virt = v := by
      by_contra hne
      have hv := (h.mem u mem_cons_self).1
      exact hsp (hun C sp u (I ++ A) h.blocks (h.lt.trans hve) (by omega))
    have hnext : ∀ s ∈ (I ++ A).head?, ¬ m.unmapped s := fun s hs => by
      obtain ⟨R, hR⟩ := head?_eq_some_iff.1 hs
      rw [hR, isChain_cons_cons] at hchain
      exact hchain.2.1 hu
    cases I with
    | nil => exact ⟨C, sp, [u], A, p, h, hnext, Or.inr ⟨u, rfl, huv, hu, hsp⟩⟩
    | cons d I => exact absurd (hI d (by simp)) (hnext d rfl)

theorem allocated_cons_of_unmapped (hb : m.unmapped b) : m.allocated (b :: R) = m.allocated R := by
  cases R with
  | nil => rfl
  | cons c R => rw [allocated, if_pos hb, nil_append]

theorem Alternating.of_append (h : m.Alternating (L ++ R)) : m.Alternating R :=
  (isChain_append.1 h).2.1

theorem Alternating.cons (h : m.Alternating R) (hb : m.unmapped b → ∀ c ∈ R.head?, ¬ m.unmapped c) :
    m.Alternating (b :: R) := by
  cases R with
  | nil => exact isChain_singleton b
  | cons c R => exact isChain_cons_cons.2 ⟨fun hun => hb hun c rfl, h⟩

theorem Alternating.of_unmapped (h : m.Alternating (b :: R)) (hb : m.unmapped b) :
    ∀ c ∈ R.head?, ¬ m.unmapped c := fun c hc => by
  obtain ⟨R, rfl⟩ := head?_eq_some_iff.1 hc
  exact (isChain_cons_cons.1 h).1 hb

/-- **`MapLocked`** of a free region adds it to the mapped blocks. -/
theorem mapLocked_allocated [Inhabited ε] {phys : BitVec w} {x : ε} (hw : m.WellFormed)
    (ha : m.Alternating m.blocks) (hv : 0 < v) (hsize : 0 < size) (hlimit : v + size ≤ m.vaLimit)
    (hphys : phys ≠ m.unmappedPa) (hfree : ∀ r ∈ m.allocated m.blocks, Apart r (v, size)) :
    ∃ bs, m.mapLocked v phys size x = .ret { m with blocks := bs } true ∧ m.Alternating bs ∧
      ∀ r, r ∈ m.allocated bs ↔ r = (v, size) ∨ r ∈ m.allocated m.blocks := by
  obtain ⟨e, he⟩ : ∃ e, v + size = e := ⟨_, rfl⟩
  have hve : v < e := by omega
  obtain rfl : size = e - v := by omega
  rw [he] at hlimit
  obtain ⟨C, sp, I, A, p, h, hnext, hsp⟩ := hw.exists_cut_free ha hv hve hfree
  obtain ⟨tail, htail, heq⟩ := mapLocked_eq phys x h.blocks h.lt h.mem h.le h.ltC
    he hve hlimit h.last h.end_unmapped
  have hp : m.unmapped p := by
    rcases hsp with ⟨rfl, hsp⟩ | ⟨u, rfl, -, hu, -⟩
    · have := h.last
      cases this
      exact hsp
    · have := h.last
      cases this
      exact hu
  have hn : ¬ m.unmapped ⟨v, phys, x⟩ := hphys
  rw [h.blocks] at ha
  have hA : m.Alternating A := Alternating.of_append (L := C ++ sp :: I) (by simpa using ha)
  -- what comes behind the new block
  obtain ⟨t, T, hT, ht, hTA, hTc⟩ : ∃ t T, tail ++ A = t :: T ∧ t.virt = e ∧
      m.allocated (t :: T) = m.allocated A ∧ m.Alternating (t :: T) := by
    cases htail with
    | next s A' hAs hs => exact ⟨s, A', hAs, hs, by rw [← hAs], hAs ▸ hA⟩
    | part x' hs =>
      have htun : m.unmapped ⟨e, m.tailPhys p e, x'⟩ := tailPhys_of_unmapped hp
      exact ⟨_, A, rfl, rfl, allocated_cons_of_unmapped htun, hA.cons fun _ => hnext⟩
  refine ⟨_, heq, ?_, fun r => ?_⟩
  · rw [hT]
    refine isChain_split.2 ⟨(isChain_split.1 ha).1, ?_⟩
    exact (hTc.cons fun hun => absurd hun hn).cons fun _ c hc => by
      cases hc
      exact hn
  · have hnew : m.allocated (⟨v, phys, x⟩ :: t :: T) = (v, e - v) :: m.allocated A := by
      rw [allocated, if_neg hn, ht, hTA]
      rfl
    rw [hT, h.blocks]
    rcases hsp with ⟨rfl, hsp⟩ | ⟨u, rfl, huv, hu, -⟩
    · rw [nil_append, allocated_append (L := C) (R := _ :: t :: T),
        allocated_append (L := C) (R := A), allocated_cons_of_unmapped hsp,
        allocated_cons_of_unmapped hsp, hnew]
      simp only [mem_append, mem_cons]
      tauto
    · have hlist : ∀ (n : Block w ε) (X : List (Block w ε)), C ++ sp :: n :: X = (C ++ [sp]) ++ n :: X := by simp
      have hlast : m.allocated (C ++ [sp] ++ [⟨v, phys, x⟩]) = m.allocated (C ++ [sp] ++ [u]) :=
        allocated_concat_congr huv.symm
      rw [singleton_append, hlist, hlist, allocated_append (R := t :: T), hnew, hlast,
        allocated_append (R := A), allocated_cons_of_unmapped hu]
      simp only [mem_append, mem_cons]
      tauto

/-- A mapped block, cut out. -/
theorem WellFormed.exists_cut_allocated (hw : m.WellFormed) (hv : 0 < v)
    (hr : (v, size) ∈ m.allocated m.blocks) : ∃ C sp b s A, Cut m v (v + size) C sp [b] (s :: A) b ∧
      b.virt = v ∧ s.virt = v + size ∧ ¬ m.unmapped b := by
  obtain ⟨L, b, s, A, hbs, hb, heq⟩ := mem_allocated.1 hr
  obtain ⟨rfl, rfl⟩ := Prod.mk.inj heq
  have hsorted := hw.sorted
  rw [hbs] at hsorted
  obtain ⟨-, hbsA, hL⟩ := pairwise_append.1 hsorted
  obtain ⟨hbA, hsA⟩ := pairwise_cons.1 hbsA
  have hs := hbA s mem_cons_self
  have hend : b.virt + (s.virt - b.virt) = s.virt := by omega
  rcases eq_nil_or_concat L with rfl | ⟨C, sp, rfl⟩
  · -- the first block starts at zero
    obtain ⟨b₀, hhead, hzero⟩ := hw.start
    rw [hbs] at hhead
    cases hhead
    omega
  · rw [concat_eq_append] at hbs hL
    refine ⟨C, sp, b, s, A, ⟨by simp [hbs], ?_, fun c hc => ?_, ?_, ?_, rfl, nofun, hbsA⟩, rfl, hend.symm, hb⟩
    · exact hL sp (by simp) b mem_cons_self
    · exact hL c (by simp [hc]) b mem_cons_self
    · exact forall_mem_singleton.2 ⟨Nat.le_refl _, by omega⟩
    · rw [hend]
      exact forall_mem_cons.2
        ⟨Nat.le_refl _, fun c hc => ((pairwise_cons.1 hsA).1 c hc).le⟩

theorem value_eq_none {a : ℕ} : m.value b a = none ↔ m.unmapped b := by
  rw [value]
  split <;> simp_all

/-- When `UnmapLocked` does what it should with a mapped block. -/
theorem unmapOk_of_allocated_iff (hw : m.WellFormed) (ha : m.Alternating m.blocks) (hv : 0 < v)
    (hr : (v, size) ∈ m.allocated m.blocks) : m.UnmapOk v (v + size) ↔
      (m.denote (v - 1) = none → m.denote (v + size) = none) := by
  obtain ⟨C, sp, b, s, A, h, hb, hs, hmap⟩ := hw.exists_cut_allocated hv hr
  have hve : v < v + size := hb ▸ (h.mem b mem_cons_self).2
  have hbefore : m.denote (v - 1) = none ↔ m.unmapped sp := by
    have hblock : blockAt m.blocks (v - 1) = some sp := by
      have hlt := h.lt
      rw [h.blocks, blockAt_of_lt fun c hc => ?_, blockAt_concat (by omega)]
      have := h.ge_v hve c hc
      omega
    rw [denote, hblock]
    exact value_eq_none
  have hbehind : m.denote (v + size) = none ↔ m.unmapped s := by
    have hsplit : m.blocks = (C ++ [sp, b]) ++ s :: A := by simp [h.blocks]
    have hblock : blockAt m.blocks (v + size) = some s := by
      have hsorted := hw.sorted
      rw [hsplit] at hsorted ⊢
      rw [← hs]
      exact blockAt_start hsorted
    rw [denote, hblock]
    exact value_eq_none
  rw [h.unmapOk_iff hve, hbefore, hbehind, UnmapOkParts, if_neg hmap, if_pos hs]
  by_cases hsun : m.unmapped s
  · rw [if_pos hsun]
    refine iff_of_true ?_ fun _ => hsun
    split
    · -- what follows an unmapped block is mapped
      have hA : m.Alternating (s :: A) := by
        rw [h.blocks] at ha
        exact Alternating.of_append (L := C ++ [sp, b]) (by simpa using ha)
      have hd := hA.of_unmapped hsun
      cases A with
      | nil => simp [headUnmapped]
      | cons d A => simpa [headUnmapped] using hd d rfl
    · exact cons_ne_nil b []
  · rw [if_neg hsun]
    tauto

/-- The blocks before a mapped block, the block and those behind it. -/
theorem Cut.mem_allocated_iff (h : Cut m v (v + size) C sp [b] (s :: A) b) (hw : m.WellFormed)
    (hb : b.virt = v) (hs : s.virt = v + size) (hmap : ¬ m.unmapped b) (r : ℕ × ℕ) :
    r ≠ (v, size) ∧ r ∈ m.allocated m.blocks ↔ r ∈ m.allocated (C ++ [sp] ++ [b]) ∨ r ∈ m.allocated (s :: A) := by
  have hsplit : m.blocks = (C ++ [sp]) ++ b :: s :: A := by simp [h.blocks]
  have hblock : m.allocated (b :: s :: A) = (v, size) :: m.allocated (s :: A) := by
    rw [allocated, if_neg hmap, hb, hs, Nat.add_sub_cancel_left]
    rfl
  have hbefore : r ∈ m.allocated (C ++ [sp] ++ [b]) → r ≠ (v, size) := by
    rintro hr rfl
    obtain ⟨L, b', c', R, hbs, -, heq⟩ := mem_allocated.1 hr
    have hsorted : (C ++ [sp] ++ [b]).Pairwise fun b c => b.virt < c.virt := by
      have := hw.sorted
      rw [hsplit, append_cons, pairwise_append] at this
      exact this.1
    have hc' : c'.virt ≤ v := by
      have hmem : c' ∈ C ++ [sp] ++ [b] := by simp [hbs]
      simp only [mem_append, mem_singleton] at hmem
      rcases hmem with (hC | rfl) | rfl
      · exact (h.ltC _ hC).le
      · exact h.lt.le
      · exact hb.le
    rw [hbs] at hsorted
    have hlt := (pairwise_cons.1 (pairwise_append.1 hsorted).2.1).1 c' mem_cons_self
    have := congrArg Prod.fst heq
    simp only at this
    omega
  have hbehind : r ∈ m.allocated (s :: A) → r ≠ (v, size) := by
    rintro hr rfl
    obtain ⟨L, b', c', R, hbs, -, heq⟩ := mem_allocated.1 hr
    have hle := h.le b' (by simp [hbs])
    have hve := (h.mem b mem_cons_self).2
    have := congrArg Prod.fst heq
    simp only at this
    omega
  rw [hsplit, allocated_append, hblock, mem_append, mem_cons]
  tauto

/-- **`UnmapLocked`** of a mapped block takes it out. -/
theorem unmapLocked_allocated [Inhabited ε] (hw : m.WellFormed) (ha : m.Alternating m.blocks)
    (hv : 0 < v) (hr : (v, size) ∈ m.allocated m.blocks) (hlimit : v + size ≤ m.vaLimit)
    (hok : m.UnmapOk v (v + size)) :
    ∃ bs, m.unmapLocked v size = .ret { m with blocks := bs } true ∧ m.Alternating bs ∧
      ∀ r, r ∈ m.allocated bs ↔ r ≠ (v, size) ∧ r ∈ m.allocated m.blocks := by
  obtain ⟨C, sp, b, s, A, h, hb, hs, hmap⟩ := hw.exists_cut_allocated hv hr
  have hve : v < v + size := hb ▸ (h.mem b mem_cons_self).2
  obtain ⟨bs, held, hcase, heq⟩ := unmapLocked_eq h.blocks h.lt h.mem h.le h.ltC rfl hve hlimit
    h.last h.end_unmapped
  obtain ⟨m', hret, -⟩ := (unmapLocked_correct_iff hw hv (by omega) hlimit).2 hok
  have hheld : held = true := by
    rw [heq] at hret
    cases hret
    rfl
  rw [h.blocks] at ha
  have hC : m.Alternating (C ++ [sp]) := (isChain_split.1 ha).1
  have hsA : m.Alternating (s :: A) := Alternating.of_append (L := C ++ [sp, b]) (by simpa using ha)
  have hmem := h.mem_allocated_iff hw hb hs hmap
  -- an unmapped block in place of the mapped one, behind a mapped block
  have hput : ∀ (u : Block w ε) X, u.virt = v → m.unmapped u → ¬ m.unmapped sp →
      (∀ c ∈ X.head?, ¬ m.unmapped c) → m.Alternating X → m.allocated X = m.allocated (s :: A) →
      m.Alternating (C ++ sp :: u :: X) ∧
        ∀ r, r ∈ m.allocated (C ++ sp :: u :: X) ↔ r ≠ (v, size) ∧ r ∈ m.allocated m.blocks := by
    intro u X huv hu hsp hX hXa hXs
    refine ⟨isChain_split.2 ⟨hC, (hXa.cons fun _ => hX).cons fun hun => absurd hun hsp⟩, fun r => ?_⟩
    have hlast : m.allocated (C ++ [sp] ++ [u]) = m.allocated (C ++ [sp] ++ [b]) :=
      allocated_concat_congr (huv.trans hb.symm)
    rw [hmem, append_cons, allocated_append, hlast, allocated_cons_of_unmapped hu, hXs, mem_append]
  refine ⟨_, by rw [heq, hheld], ?_⟩
  clear heq hheld
  cases hcase with
  | stay hp => exact absurd hp hmap
  | join J R u hends hu huv hsp =>
    obtain ⟨hI, -, rfl⟩ | ⟨-, hA, -, -⟩ := hends
    · exact absurd hu hmap
    obtain ⟨rfl, rfl⟩ := cons.inj hA
    have hA : ∀ c ∈ A.head?, ¬ m.unmapped c := hsA.of_unmapped hu
    refine ⟨isChain_split.2 ⟨hC, (Alternating.of_append (L := [s]) hsA).cons fun _ => hA⟩, fun r => ?_⟩
    rw [hmem, allocated_append, append_assoc, singleton_append, allocated_append (R := [b]),
      allocated_cons_of_unmapped hsp, allocated_cons_of_unmapped hsp, allocated_cons_of_unmapped hu,
      mem_append, mem_append, allocated_singleton]
    simp
  | grow J R u hends hu huv hsp =>
    obtain ⟨hI, -, rfl⟩ | ⟨-, hA, -, -⟩ := hends
    · exact absurd hu hmap
    obtain ⟨rfl, rfl⟩ := cons.inj hA
    exact hput { s with virt := v } A rfl hu hsp (hsA.of_unmapped hu)
      (Alternating.of_append (L := [s]) hsA) (allocated_cons_of_unmapped hu).symm
  | split hI => cases hI
  | cut J hI hp hA => exact absurd hs (hA s rfl)
  | next s' A' hA hp hs' hm =>
    obtain ⟨rfl, rfl⟩ := cons.inj hA
    have hsp : ¬ m.unmapped sp := by
      have := (h.unmapOk_iff hve).1 hok
      rwa [UnmapOkParts, if_neg hmap, if_pos hs, if_neg hm] at this
    have hbs : m.unmapStartBlocks sp [b] v = [⟨v, m.unmappedPa, b.extraInfo⟩] := by
      rw [unmapStartBlocks, if_neg hsp]
      rfl
    rw [hbs]
    exact hput ⟨v, m.unmappedPa, b.extraInfo⟩ (s :: A) rfl rfl hsp
      (fun c hc => by cases hc; exact hm) hsA rfl

end FlatAddressSpaceMap
end Common
end NXEmu
