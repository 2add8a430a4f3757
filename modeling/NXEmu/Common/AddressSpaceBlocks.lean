/-
# The blocks of a flat address space map

`src/yuzu_common/address_space.inc`, `MapLocked` and `UnmapLocked`.

The two functions find their way by iterators.  Cut at the start and at the end of a region
the vector is `C ++ sp :: (I ++ A)`: the blocks before it with the last one of them, those that
start in it and those after it.  The lemmas here say what each function makes of the parts
(`mapLocked_eq`, `unmapLocked_eq`), and what the map then has at an address (`denote`).
-/

import NXEmu.Common.AddressSpace
import Mathlib.Data.List.Induction
import Mathlib.Order.Nat
import Mathlib.Tactic.Common

namespace NXEmu
namespace Common
namespace FlatAddressSpaceMap

open Exec List

variable {w : ℕ} {ε : Type} {m : FlatAddressSpaceMap w ε} {bs L R C I J A : List (Block w ε)}
  {b c s sp p u q : Block w ε} {i j v e a : ℕ} {phys : BitVec w} {x : ε}

/-! ### Iterators -/

theorem lowerBound_eq (hL : ∀ b ∈ L, b.virt < e) (hR : ∀ b ∈ R, e ≤ b.virt) :
    lowerBound (L ++ R) e = L.length := by
  rw [lowerBound]
  induction L with
  | nil =>
    cases R with
    | nil => rfl
    | cons b R =>
      rw [nil_append, findIdx_cons, decide_eq_true (hR b mem_cons_self)]
      rfl
  | cons b L ih =>
    have hb := hL b mem_cons_self
    rw [cons_append, findIdx_cons, decide_eq_false (Nat.not_le.2 hb), cond_false,
      ih fun b hb => hL b (mem_cons_of_mem _ hb), length_cons]

theorem get_append (hi : i = L.length) : get (L ++ b :: R) i = .ret b true := by
  subst hi
  rw [get, getElem?_append_right (Nat.le_refl _), Nat.sub_self, getElem?_cons_zero]
  rfl

theorem set_append (hi : i = L.length) : (L ++ b :: R).set i c = L ++ c :: R := by
  subst hi
  rw [set_append_right _ _ (Nat.le_refl _), Nat.sub_self, set_cons_zero]

theorem insert_append {B : List (Block w ε)} (hi : i = L.length) :
    insert (L ++ R) i B = L ++ (B ++ R) := by
  subst hi
  rw [insert, take_left, drop_left, append_assoc]

theorem erase_append {B : List (Block w ε)} (hi : i = L.length) (hj : j = L.length + B.length) :
    erase (L ++ (B ++ R)) i j = L ++ R := by
  subst hi hj
  rw [erase, take_left, ← append_assoc, ← length_append, drop_left]

/-- Going back over blocks that start at `v` or later. -/
theorem walkBack_eq (hsp : sp.virt < v) (hI : ∀ b ∈ I, v ≤ b.virt) (hi : i = C.length + 1 + I.length) :
    walkBack (C ++ sp :: (I ++ R)) v i = .ret (C.length + 1) true := by
  induction I using reverseRecOn generalizing i R with
  | nil =>
    subst hi
    rw [length_nil, Nat.add_zero, walkBack, nil_append, get_append rfl, ret_true_bind, if_neg (Nat.not_le.2 hsp)]
    rfl
  | append_singleton I b ih =>
    have hlen : i = (C.length + 1 + I.length) + 1 := by
      rw [hi, length_append, length_singleton]
      omega
    have hlist : C ++ sp :: (I ++ [b] ++ R) = (C ++ sp :: I) ++ b :: R := by simp
    have hget : get (C ++ sp :: (I ++ [b] ++ R)) (C.length + 1 + I.length) = .ret b true := by
      rw [hlist]
      exact get_append (by simp; omega)
    rw [hlen, walkBack, hget, ret_true_bind, if_pos (hI b (by simp)), append_assoc]
    exact ih (fun b hb => hI b (mem_append_left _ hb)) rfl

theorem walkBackToPredecessor_eq (hsp : sp.virt < v) (hI : ∀ b ∈ I, v ≤ b.virt) (hi : i = C.length + I.length) :
    walkBackToPredecessor (C ++ sp :: (I ++ R)) v i = .ret C.length true := by
  induction I using reverseRecOn generalizing i R with
  | nil =>
    subst hi
    rw [length_nil, Nat.add_zero, nil_append]
    have hget : get (C ++ sp :: R) C.length = .ret sp true := get_append rfl
    cases hC : C.length with
    | zero => rw [walkBackToPredecessor, ← hC, hget, ret_true_bind, if_neg (Nat.not_le.2 hsp), hC]; rfl
    | succ n =>
      rw [walkBackToPredecessor, ← hC, hget, ret_true_bind, if_neg (Nat.not_le.2 hsp), hC]
      rfl
  | append_singleton I b ih =>
    have hlen : i = (C.length + I.length) + 1 := by
      rw [hi, length_append, length_singleton]
      omega
    have hlist : C ++ sp :: (I ++ [b] ++ R) = (C ++ sp :: I) ++ b :: R := by simp
    have hget : get (C ++ sp :: (I ++ [b] ++ R)) (C.length + I.length + 1) = .ret b true := by
      rw [hlist]
      exact get_append (by simp; omega)
    rw [hlen, walkBackToPredecessor, hget, ret_true_bind, if_pos (hI b (by simp)), append_assoc]
    exact ih (fun b hb => hI b (mem_append_left _ hb)) rfl

/-- The search for the end of a region finds the first block at or behind it. -/
theorem lowerBound_end (hbs : m.blocks = C ++ sp :: (I ++ A)) (hsp : sp.virt < v)
    (hI : ∀ b ∈ I, v ≤ b.virt ∧ b.virt < e) (hA : ∀ b ∈ A, e ≤ b.virt) (hC : ∀ b ∈ C, b.virt < v)
    (hve : v < e) : lowerBound m.blocks e = C.length + 1 + I.length := by
  have := lowerBound_eq (L := C ++ sp :: I) (R := A) (e := e) (fun b hb => ?_) hA
  · simpa [hbs, Nat.add_assoc, Nat.add_comm 1] using this
  · rcases mem_append.1 hb with hb | hb
    · exact (hC b hb).trans hve
    · rcases mem_cons.1 hb with rfl | hb
      · exact hsp.trans hve
      · exact (hI b hb).2

/-- The walk back from a block in a region finds the block before the region. -/
theorem walkBack_past (hbs : m.blocks = C ++ sp :: (J ++ u :: R)) (hsp : sp.virt < v)
    (hJ : ∀ b ∈ J, v ≤ b.virt) (hu : v ≤ u.virt) (hi : i = C.length + 1 + J.length) :
    walkBackToPredecessor m.blocks v i = .ret C.length true ∧ get m.blocks C.length = .ret sp true := by
  constructor
  · have := walkBackToPredecessor_eq (C := C) (I := J ++ [u]) (R := R) hsp (fun b hb => ?_)
      (i := i) (by simp [hi]; omega)
    · simpa [hbs] using this
    · rcases mem_append.1 hb with hb | hb
      · exact hJ b hb
      · rwa [mem_singleton.1 hb]
  · rw [hbs]
    exact get_append rfl

/-! ### `MapLocked` -/

/-- The second part of `MapLocked`, when a block starts at the end of the region. -/
theorem mapStart_eq (hbs : m.blocks = C ++ sp :: (J ++ s :: R)) (hsp : sp.virt < v)
    (hJ : ∀ b ∈ J, v ≤ b.virt ∧ b.virt < e) (hs : s.virt = e) (hi : i = C.length + 1 + J.length) :
    m.mapStart v phys e x i = .ret { m with blocks := C ++ sp :: ⟨v, phys, x⟩ :: s :: R } true := by
  rw [mapStart, hbs, walkBack_eq hsp (fun b hb => (hJ b hb).1) hi, ret_true_bind]
  cases J with
  | nil =>
    have hlist : C ++ sp :: ([] ++ s :: R) = (C ++ [sp]) ++ s :: R := by simp
    have hlen : C.length + 1 = (C ++ [sp]).length := by simp
    rw [hlist, get_append hlen, ret_true_bind, if_neg (by omega), if_pos hs, insert_append hlen]
    simp
  | cons b J =>
    have hb := hJ b mem_cons_self
    have hlist : C ++ sp :: (b :: J ++ s :: R) = (C ++ [sp]) ++ b :: (J ++ s :: R) := by simp
    have hlen : C.length + 1 = (C ++ [sp]).length := by simp
    have herase : erase (C ++ [sp] ++ b :: (J ++ s :: R)) (C.length + 1 + 1) i = (C ++ [sp]) ++ b :: (s :: R) := by
      have := erase_append (L := C ++ [sp] ++ [b]) (B := J) (R := s :: R)
        (i := C.length + 1 + 1) (j := i) (by simp) (by simp [hi]; omega)
      simpa using this
    rw [hlist, get_append hlen, ret_true_bind, if_neg (by omega), if_neg (by omega), herase, set_append hlen]
    simp

/-- What `MapLocked` puts at the end of a region for the part of the block `p` that is
behind it. -/
inductive TailOf (m : FlatAddressSpaceMap w ε) (p : Block w ε) (e : ℕ) (A : List (Block w ε)) :
    List (Block w ε) → Prop
  | next (s : Block w ε) (A' : List (Block w ε)) (h : A = s :: A') (hs : s.virt = e) :
    TailOf m p e A []
  | part (x' : ε) (hs : ∀ s ∈ A.head?, s.virt ≠ e) : TailOf m p e A [⟨e, m.tailPhys p e, x'⟩]

theorem tailPhys_of_unmapped (h : m.unmapped p) : m.tailPhys p a = m.unmappedPa := by
  rw [tailPhys, if_neg (fun hc => hc.2 h)]
  exact h

/-- **`MapLocked`** puts the new block in place of those that start in the region. -/
theorem mapLocked_eq [Inhabited ε] (phys : BitVec w) (x : ε) {size : ℕ} (hbs : m.blocks = C ++ sp :: (I ++ A))
    (hsp : sp.virt < v) (hI : ∀ b ∈ I, v ≤ b.virt ∧ b.virt < e) (hA : ∀ b ∈ A, e ≤ b.virt)
    (hC : ∀ b ∈ C, b.virt < v) (he : v + size = e) (hve : v < e) (hlimit : e ≤ m.vaLimit)
    (hp : (sp :: I).getLast? = some p) (hlast : A = [] → m.unmapped p) :
    ∃ tail, TailOf m p e A tail ∧ m.mapLocked v phys size x =
      .ret { m with blocks := C ++ sp :: ⟨v, phys, x⟩ :: (tail ++ A) } true := by
  have hlower := lowerBound_end hbs hsp hI hA hC hve
  have hlen : m.blocks.length = C.length + 1 + I.length + A.length := by
    simp [hbs]
    omega
  rw [mapLocked, he, Exec.assert, decide_eq_true hlimit, ret_true_bind]
  dsimp only
  rw [hlower, Exec.assert, decide_eq_true (by omega), ret_true_bind]
  rcases eq_nil_or_concat I with rfl | ⟨J, p', rfl⟩
  · -- no block starts in the region
    obtain rfl : sp = p := by simpa using hp
    have hget : get m.blocks C.length = .ret sp true := by
      rw [hbs]
      exact get_append rfl
    rw [length_nil, Nat.add_zero, show prev (C.length + 1) = .ret C.length true from rfl,
      ret_true_bind, hget, ret_true_bind]
    have hnot : ¬ (C.length ≠ 0 ∧ v ≤ sp.virt) := fun h => absurd h.2 (Nat.not_le.2 hsp)
    cases A with
    | nil =>
      have hend : ¬ C.length + 1 ≠ m.blocks.length := by
        rw [hlen]
        simp
      rw [if_neg hend, if_neg hnot]
      refine ⟨_, .part default (by simp), ?_⟩
      have := insert_append (L := C ++ [sp]) (R := [])
        (B := [⟨v, phys, x⟩, ⟨e, m.unmappedPa, default⟩]) (i := C.length + 1) (by simp)
      rw [tailPhys_of_unmapped (hlast rfl), pure_eq, hbs]
      simpa using this
    | cons s A =>
      have hend : C.length + 1 ≠ m.blocks.length := by
        rw [hlen]
        simp
      have hget : get m.blocks (C.length + 1) = .ret s true := by
        have : m.blocks = (C ++ [sp]) ++ s :: A := by simp [hbs]
        rw [this]
        exact get_append (by simp)
      rw [if_pos hend, hget, ret_true_bind]
      by_cases hs : s.virt = e
      · rw [if_neg (fun h => h hs)]
        exact ⟨[], .next s A rfl hs, mapStart_eq (J := []) hbs hsp (by simp) hs rfl⟩
      · rw [if_pos hs, if_neg hnot]
        refine ⟨_, .part sp.extraInfo (by simpa using hs), ?_⟩
        have := insert_append (L := C ++ [sp]) (R := s :: A)
          (B := [⟨v, phys, x⟩, ⟨e, m.tailPhys sp e, sp.extraInfo⟩]) (i := C.length + 1) (by simp)
        rw [pure_eq, hbs]
        simpa using this
  · obtain rfl : p' = p := by
      have h := hp
      rw [show sp :: J.concat p' = (sp :: J) ++ [p'] by simp, getLast?_concat] at h
      exact Option.some.inj h
    rw [concat_eq_append] at *
    have hJ : ∀ b ∈ J, v ≤ b.virt ∧ b.virt < e := fun b hb => hI b (mem_append_left _ hb)
    have hp' := hI p' (by simp)
    have hidx : C.length + 1 + (J ++ [p']).length = (C.length + 1 + J.length) + 1 := by simp; omega
    have hsplit : m.blocks = (C ++ sp :: J) ++ p' :: A := by simp [hbs]
    have hget : get m.blocks (C.length + 1 + J.length) = .ret p' true := by
      rw [hsplit]
      exact get_append (by simp; omega)
    have hset : ∀ c, m.blocks.set (C.length + 1 + J.length) c = C ++ sp :: (J ++ c :: A) := by
      intro c
      rw [hsplit, set_append (by simp; omega)]
      simp
    rw [hidx, show prev (C.length + 1 + J.length + 1) = .ret (C.length + 1 + J.length) true from rfl,
      ret_true_bind, hget, ret_true_bind]
    have hreuse : C.length + 1 + J.length ≠ 0 ∧ v ≤ p'.virt := ⟨by omega, hp'.1⟩
    cases A with
    | nil =>
      have hend : ¬ C.length + 1 + J.length + 1 ≠ m.blocks.length := by
        rw [hlen]
        simp
        omega
      rw [if_neg hend, if_pos hreuse]
      refine ⟨_, .part p'.extraInfo (by simp), ?_⟩
      rw [hset, mapStart_eq (m := { m with blocks := _ }) rfl hsp hJ rfl rfl, tailPhys_of_unmapped (hlast rfl)]
      rw [show p'.phys = m.unmappedPa from hlast rfl]
      rfl
    | cons s A =>
      have hend : C.length + 1 + J.length + 1 ≠ m.blocks.length := by
        rw [hlen]
        simp
        omega
      have hget : get m.blocks (C.length + 1 + J.length + 1) = .ret s true := by
        have : m.blocks = (C ++ sp :: (J ++ [p'])) ++ s :: A := by simp [hbs]
        rw [this]
        exact get_append (by simp; omega)
      rw [if_pos hend, hget, ret_true_bind]
      by_cases hs : s.virt = e
      · rw [if_neg (fun h => h hs)]
        refine ⟨[], .next s A rfl hs, ?_⟩
        exact mapStart_eq (J := J ++ [p']) hbs hsp hI hs (by simp; omega)
      · rw [if_pos hs, if_pos hreuse, hset]
        refine ⟨_, .part p'.extraInfo (by simpa using hs), ?_⟩
        rw [mapStart_eq (m := { m with blocks := _ }) rfl hsp hJ rfl rfl]
        rfl

/-! ### `UnmapLocked` -/

/-- Whether the first block of a list is an unmapped one. -/
def headUnmapped (m : FlatAddressSpaceMap w ε) (bs : List (Block w ε)) : Prop :=
  bs.head?.any (fun b => decide (m.unmapped b)) = true

instance (m : FlatAddressSpaceMap w ε) (bs : List (Block w ε)) : Decidable (m.headUnmapped bs) :=
  inferInstanceAs (Decidable (_ = _))

section

variable (hbs : m.blocks = C ++ sp :: (J ++ u :: R)) (hsp : sp.virt < v) (hJ : ∀ b ∈ J, v ≤ b.virt)
  (hu : v ≤ u.virt) (hi : i = C.length + 1 + J.length)

include hbs hsp hJ hu hi

/-- `erase_blocks_with_end_unmapped` behind an unmapped block: it is one region with that. -/
theorem eraseBlocks_of_unmapped (hun : m.unmapped sp) : m.eraseBlocksWithEndUnmapped v i =
      .ret { m with blocks := C ++ sp :: R } (decide (¬ m.headUnmapped R)) := by
  obtain ⟨hwalk, hget⟩ := walkBack_past hbs hsp hJ hu hi
  have hgetu : get m.blocks i = .ret u true := by
    have : m.blocks = (C ++ sp :: J) ++ u :: R := by simp [hbs]
    rw [this]
    exact get_append (by simp [hi]; omega)
  have herase : erase m.blocks (C.length + 1) (i + 1) = C ++ sp :: R := by
    have := erase_append (L := C ++ [sp]) (B := J ++ [u]) (R := R) (i := C.length + 1)
      (j := i + 1) (by simp) (by simp [hi]; omega)
    simpa [hbs] using this
  have hhead : m.blocks[i + 1]? = R.head? := by
    have : m.blocks = (C ++ sp :: (J ++ [u])) ++ R := by simp [hbs]
    rw [this, getElem?_append_right (by simp [hi]; omega), head?_eq_getElem?]
    congr 1
    simp [hi]
    omega
  rw [eraseBlocksWithEndUnmapped, hwalk, ret_true_bind, hget, ret_true_bind, hgetu, ret_true_bind, if_pos hun]
  dsimp only
  rw [herase, hhead]
  have hiff : (¬ (i + 1 ≠ m.blocks.length ∧ (i + 1 = C.length + 1 ∨
      m.unmapped sp ∧ R.head?.any (fun b => decide (m.unmapped b)) = true))) ↔
      ¬ m.headUnmapped R := by
    refine not_congr ⟨fun h => ?_, fun h => ⟨?_, Or.inr ⟨hun, h⟩⟩⟩
    · rcases h.2 with h | h
      · omega
      · exact h.2
    · rw [headUnmapped] at h
      cases R with
      | nil => cases h
      | cons c R =>
        rw [hbs]
        simp [hi]
        omega
  rw [Exec.assert, decide_eq_decide.2 hiff]
  exact ret_bind_ret () _ fun _ => _

/-- `erase_blocks_with_end_unmapped` behind a mapped block: the unmapped one starts earlier. -/
theorem eraseBlocks_of_mapped (hun : ¬ m.unmapped sp) : m.eraseBlocksWithEndUnmapped v i =
      .ret { m with blocks := C ++ sp :: { u with virt := v } :: R } (decide (J ≠ [])) := by
  obtain ⟨hwalk, hget⟩ := walkBack_past hbs hsp hJ hu hi
  have hsplit : m.blocks = (C ++ sp :: J) ++ u :: R := by simp [hbs]
  have hlen : i = (C ++ sp :: J).length := by simp [hi]; omega
  have hset : m.blocks.set i { u with virt := v } = C ++ sp :: (J ++ { u with virt := v } :: R) := by
    rw [hsplit, set_append hlen]
    simp
  have herase : erase (C ++ sp :: (J ++ { u with virt := v } :: R)) (C.length + 1) i =
      C ++ sp :: { u with virt := v } :: R := by
    have := erase_append (L := C ++ [sp]) (B := J) (R := { u with virt := v } :: R)
      (i := C.length + 1) (j := i) (by simp) (by simp [hi])
    simpa using this
  rw [eraseBlocksWithEndUnmapped, hwalk, ret_true_bind, hget, ret_true_bind, hsplit,
    get_append hlen, ← hsplit, ret_true_bind, if_neg hun]
  dsimp only
  rw [hset, herase]
  have hiff : (¬ (i ≠ (C ++ sp :: (J ++ { u with virt := v } :: R)).length ∧
      (i = C.length + 1 ∨ m.unmapped sp ∧ (C ++ sp :: (J ++ { u with virt := v } :: R))[i]?.any
        (fun b => decide (m.unmapped b)) = true))) ↔ J ≠ [] := by
    refine not_congr ⟨fun h => ?_, fun h => ⟨?_, Or.inl ?_⟩⟩
    · rcases h.2 with h | h
      · exact length_eq_zero_iff.1 (by omega)
      · exact absurd h.1 hun
    · simp [hi]
      omega
    · simp [hi, h]
  rw [Exec.assert, decide_eq_decide.2 hiff]
  exact ret_bind_ret () _ fun _ => _

end

/-- What the second part of `UnmapLocked` makes of the blocks `J` in the region. -/
def unmapStartBlocks [Inhabited ε] (m : FlatAddressSpaceMap w ε) (sp : Block w ε)
    (J : List (Block w ε)) (v : ℕ) : List (Block w ε) :=
  if m.unmapped sp then J.getLast?.toList
  else [⟨v, m.unmappedPa, (J.head?.map Block.extraInfo).getD default⟩]

/-- The second part of `UnmapLocked`, when a block starts at the end of the region.  Behind an
unmapped block the last one of the region is left. -/
theorem unmapStart_eq [Inhabited ε] (hbs : m.blocks = C ++ sp :: (J ++ s :: R)) (hsp : sp.virt < v)
    (hJ : ∀ b ∈ J, v ≤ b.virt ∧ b.virt < e) (hs : s.virt = e) (hve : v < e)
    (hi : i = C.length + 1 + J.length) (hj : j = C.length + J.length) :
    m.unmapStart v e i j = .ret { m with blocks := C ++ sp :: (m.unmapStartBlocks sp J v ++ s :: R) } true := by
  obtain ⟨hwalk, hget⟩ := walkBack_past hbs hsp (fun b hb => (hJ b hb).1) (by omega) hi
  have hlen : C.length + 1 = (C ++ [sp]).length := by simp
  rw [unmapStart, hwalk, ret_true_bind, hget, ret_true_bind]
  rcases eq_nil_or_concat J with rfl | ⟨K, q, rfl⟩
  · have hlist : m.blocks = (C ++ [sp]) ++ s :: R := by simp [hbs]
    rw [hlist, get_append hlen, ret_true_bind, if_neg (by omega), if_pos hs, unmapStartBlocks]
    by_cases hun : m.unmapped sp
    · rw [if_pos hun, if_pos hun, pure_eq]
      rw [getLast?_nil, Option.toList_none, ← hbs]
    · rw [if_neg hun, if_neg hun, insert_append hlen, pure_eq]
      simp
  · rw [concat_eq_append] at *
    obtain ⟨b, K', hbK⟩ : ∃ b K', K ++ [q] = b :: K' :=
      exists_cons_of_ne_nil (by simp)
    have hb := hJ b (by simp [hbK])
    have hlist : m.blocks = (C ++ [sp]) ++ b :: (K' ++ s :: R) := by simp [hbs, hbK]
    rw [hlist, get_append hlen, ret_true_bind, if_neg (by omega), if_neg (by omega), unmapStartBlocks]
    by_cases hun : m.unmapped sp
    · rw [if_pos hun, if_pos hun]
      have herase : erase (C ++ [sp] ++ b :: (K' ++ s :: R)) (C.length + 1) j = (C ++ [sp]) ++ (q :: s :: R) := by
        have := erase_append (L := C ++ [sp]) (B := K) (R := q :: s :: R)
          (i := C.length + 1) (j := j) (by simp) (by simp [hj]; omega)
        rw [← this]
        congr 1
        have : b :: (K' ++ s :: R) = K ++ [q] ++ s :: R := by simp [hbK]
        rw [this]
        simp
      rw [herase, pure_eq]
      simp
    · rw [if_neg hun, if_neg hun, hbK]
      have hKlen : K'.length + 1 = (K ++ [q]).length := by simp [hbK]
      have herase : erase (C ++ [sp] ++ b :: (K' ++ s :: R)) (C.length + 1 + 1) i = (C ++ [sp]) ++ b :: (s :: R) := by
        have := erase_append (L := C ++ [sp] ++ [b]) (B := K') (R := s :: R)
          (i := C.length + 1 + 1) (j := i) (by simp) (by simp [hi] at hKlen ⊢; omega)
        simpa using this
      rw [herase, set_append hlen, pure_eq]
      simp

/-- The unmapped block `u` that starts in the region or at its end, with the end of the region:
the blocks before it in the region and those after it. -/
def EndsAt (m : FlatAddressSpaceMap w ε) (I A : List (Block w ε)) (e : ℕ) (p : Block w ε)
    (J : List (Block w ε)) (u : Block w ε) (R : List (Block w ε)) : Prop :=
  (I = J ++ [u] ∧ A = R ∧ p = u) ∨ (I = J ∧ A = u :: R ∧ ¬ m.unmapped p ∧ u.virt = e)

/-- What `UnmapLocked` makes of the blocks `I ++ A` behind `sp`, and whether its assertion holds.
The block `p` has the end of the region. -/
inductive UnmapCase [Inhabited ε] (m : FlatAddressSpaceMap w ε) (sp : Block w ε)
    (I A : List (Block w ε)) (v e : ℕ) (p : Block w ε) : List (Block w ε) → Bool → Prop
  /-- The region is unmapped. -/
  | stay (hp : m.unmapped p) (hv : p.virt ≤ v) : UnmapCase m sp I A v e p (I ++ A) true
  /-- The unmapped blocks before and at the end of the region become one. -/
  | join (J R : List (Block w ε)) (u : Block w ε) (h : EndsAt m I A e p J u R)
    (hu : m.unmapped u) (hv : v < u.virt) (hsp : m.unmapped sp) : UnmapCase m sp I A v e p R (decide (¬ m.headUnmapped R))
  /-- The unmapped block at the end of the region starts with the region. -/
  | grow (J R : List (Block w ε)) (u : Block w ε) (h : EndsAt m I A e p J u R)
    (hu : m.unmapped u) (hv : v < u.virt) (hsp : ¬ m.unmapped sp) : UnmapCase m sp I A v e p ({ u with virt := v } :: R) (decide (J ≠ []))
  /-- A mapped block is split in three. -/
  | split (hI : I = []) (hp : ¬ m.unmapped p) (hA : ∀ s ∈ A.head?, s.virt ≠ e) :
    UnmapCase m sp I A v e p
      (⟨v, m.unmappedPa, default⟩ :: ⟨e, m.tailPhys p e, p.extraInfo⟩ :: A) true
  /-- The last block of the region is cut. -/
  | cut (J : List (Block w ε)) (hI : I = J ++ [p]) (hp : ¬ m.unmapped p)
    (hA : ∀ s ∈ A.head?, s.virt ≠ e) : UnmapCase m sp I A v e p
      (m.unmapStartBlocks sp J v ++ ⟨e, m.tailPhys p e, p.extraInfo⟩ :: A) true
  /-- A mapped block starts at the end of the region. -/
  | next (s : Block w ε) (A' : List (Block w ε)) (hA : A = s :: A') (hp : ¬ m.unmapped p)
    (hs : s.virt = e) (hm : ¬ m.unmapped s) :
    UnmapCase m sp I A v e p (m.unmapStartBlocks sp I v ++ A) true

/-- **`UnmapLocked`**, case by case. -/
theorem unmapLocked_eq [Inhabited ε] {size : ℕ} (hbs : m.blocks = C ++ sp :: (I ++ A))
    (hsp : sp.virt < v) (hI : ∀ b ∈ I, v ≤ b.virt ∧ b.virt < e) (hA : ∀ b ∈ A, e ≤ b.virt)
    (hC : ∀ b ∈ C, b.virt < v) (he : v + size = e) (hve : v < e) (hlimit : e ≤ m.vaLimit)
    (hp : (sp :: I).getLast? = some p) (hlast : A = [] → m.unmapped p) :
    ∃ bs held, UnmapCase m sp I A v e p bs held ∧
      m.unmapLocked v size = .ret { m with blocks := C ++ sp :: bs } held := by
  have hlower := lowerBound_end hbs hsp hI hA hC hve
  have hget : get m.blocks (C.length + I.length) = .ret p true := by
    rcases eq_nil_or_concat I with rfl | ⟨J, q, rfl⟩
    · obtain rfl : sp = p := by simpa using hp
      rw [hbs]
      exact get_append (by simp)
    · obtain rfl : q = p := by
        rw [show sp :: J.concat q = (sp :: J) ++ [q] by simp, getLast?_concat] at hp
        exact Option.some.inj hp
      have : m.blocks = (C ++ sp :: J) ++ q :: A := by simp [hbs]
      rw [this]
      exact get_append (by simp)
  have hprev : prev (C.length + 1 + I.length) = .ret (C.length + I.length) true := by
    rw [Nat.add_right_comm]
    rfl
  rw [unmapLocked, he, Exec.assert, decide_eq_true hlimit, ret_true_bind]
  dsimp only
  rw [hlower, Exec.assert, decide_eq_true (by omega), ret_true_bind, hprev, ret_true_bind, hget, ret_true_bind]
  by_cases hun : m.unmapped p
  · rw [if_pos hun]
    by_cases hv : v < p.virt
    · rw [if_pos hv]
      obtain ⟨J, rfl⟩ : ∃ J, I = J ++ [p] := by
        rcases eq_nil_or_concat I with rfl | ⟨J, q, rfl⟩
        · obtain rfl : sp = p := by simpa using hp
          omega
        · refine ⟨J, ?_⟩
          rw [show sp :: J.concat q = (sp :: J) ++ [q] by simp, getLast?_concat] at hp
          rw [concat_eq_append, Option.some.inj hp]
      have hbs' : m.blocks = C ++ sp :: (J ++ p :: A) := by simp [hbs]
      have hJ : ∀ b ∈ J, v ≤ b.virt := fun b hb => (hI b (mem_append_left _ hb)).1
      have hends : EndsAt m (J ++ [p]) A e p J p A := Or.inl ⟨rfl, rfl, rfl⟩
      have hidx : C.length + (J ++ [p]).length = C.length + 1 + J.length := by simp; omega
      rw [hidx]
      by_cases hspu : m.unmapped sp
      · exact ⟨_, _, .join J A p hends hun hv hspu, eraseBlocks_of_unmapped hbs' hsp hJ hv.le rfl hspu⟩
      · exact ⟨_, _, .grow J A p hends hun hv hspu, eraseBlocks_of_mapped hbs' hsp hJ hv.le rfl hspu⟩
    · rw [if_neg hv]
      refine ⟨_, _, .stay hun (Nat.not_lt.1 hv), ?_⟩
      rw [← hbs]
      rfl
  · rw [if_neg hun]
    cases A with
    | nil => exact absurd (hlast rfl) hun
    | cons s A =>
      have hgets : get m.blocks (C.length + 1 + I.length) = .ret s true := by
        have : m.blocks = (C ++ sp :: I) ++ s :: A := by simp [hbs]
        rw [this]
        exact get_append (by simp; omega)
      rw [hgets, ret_true_bind]
      by_cases hs : s.virt = e ∧ m.unmapped s
      · rw [if_pos hs]
        have hends : EndsAt m I (s :: A) e p I s A := Or.inr ⟨rfl, rfl, hun, hs.1⟩
        have hJ : ∀ b ∈ I, v ≤ b.virt := fun b hb => (hI b hb).1
        by_cases hspu : m.unmapped sp
        · exact ⟨_, _, .join I A s hends hs.2 (by omega) hspu, eraseBlocks_of_unmapped hbs hsp hJ (by omega) rfl hspu⟩
        · exact ⟨_, _, .grow I A s hends hs.2 (by omega) hspu, eraseBlocks_of_mapped hbs hsp hJ (by omega) rfl hspu⟩
      · rw [if_neg hs]
        by_cases hse : s.virt = e
        · rw [if_neg (fun h => h hse)]
          exact ⟨_, _, .next s A rfl hun hse fun h => hs ⟨hse, h⟩, unmapStart_eq hbs hsp hI hse hve rfl rfl⟩
        · rw [if_pos hse]
          rcases eq_nil_or_concat I with rfl | ⟨J, q, rfl⟩
          · obtain rfl : sp = p := by simpa using hp
            rw [if_neg (Nat.not_le.2 hsp)]
            refine ⟨_, _, .split rfl hun (by simpa using hse), ?_⟩
            have := insert_append (L := C ++ [sp]) (R := s :: A)
              (B := [⟨v, m.unmappedPa, default⟩, ⟨e, m.tailPhys sp e, sp.extraInfo⟩])
              (i := C.length + 1) (by simp)
            rw [pure_eq, hbs]
            simpa using this
          · rw [concat_eq_append] at *
            obtain rfl : q = p := by
              rw [show sp :: (J ++ [q]) = (sp :: J) ++ [q] by simp, getLast?_concat] at hp
              exact Option.some.inj hp
            have hq := hI q (by simp)
            have hidx : C.length + (J ++ [q]).length = (C ++ sp :: J).length := by simp
            have hset : ∀ c, m.blocks.set (C.length + (J ++ [q]).length) c = C ++ sp :: (J ++ c :: s :: A) := by
              intro c
              have : m.blocks = (C ++ sp :: J) ++ q :: (s :: A) := by simp [hbs]
              rw [this, set_append hidx]
              simp
            rw [if_pos hq.1, hset]
            have hprev : prev (C.length + (J ++ [q]).length) = .ret (C.length + J.length) true := by
              rw [length_append, length_singleton, ← Nat.add_assoc]
              rfl
            rw [hprev, ret_true_bind]
            refine ⟨_, _, .cut J rfl hun (by simpa using hse), ?_⟩
            exact unmapStart_eq (m := { m with blocks := _ }) rfl hsp
              (fun b hb => hI b (mem_append_left _ hb)) rfl hve (by simp; omega) rfl

end FlatAddressSpaceMap
end Common
end NXEmu
