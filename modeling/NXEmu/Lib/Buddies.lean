/-
# Free blocks of graded sizes

A set of numbers kept as aligned blocks of a few sizes, each of which divides the next.  The books are
tidy when no number is in two blocks and no aligned group of blocks makes up one of the next size
(`Tidy`).  A block may be added when its numbers are in none (`Tidy.put`), unless it completes its group;
then the group is taken out and what it made up is to be added instead (`Tidy.regroup`).  So the set that
the blocks cover (`Covers`) grows by the block, however often the groups are completed.

Tidy books are complete: an aligned range of a size that is covered lies in a block of that size or a
larger one (`Tidy.finds`), so a search over the sizes from that on cannot miss it.
-/

import Mathlib.Data.Finset.Card
import Mathlib.Order.Interval.Finset.Nat
import Mathlib.Algebra.BigOperators.Group.Finset.Basic
import Mathlib.Algebra.BigOperators.Group.Finset.Sigma
import Mathlib.Tactic.Common

namespace NXEmu

open Finset

/-- Sizes of blocks, each of which divides the next. -/
structure Graded (n : ℕ) (size : ℕ → ℕ) : Prop where
  pos : ∀ i < n, 0 < size i
  dvd : ∀ i, i + 1 < n → size i ∣ size (i + 1)

namespace Buddies

variable {n : ℕ} {size : ℕ → ℕ} {F F' : ℕ → Finset ℕ} {i j a b g x u : ℕ}

theorem dvd_of_le (h : Graded n size) (hij : i ≤ j) (hj : j < n) : size i ∣ size j := by
  induction j, hij using Nat.le_induction with
  | base => exact Nat.dvd_refl _
  | succ j hij ih => exact (ih (by omega)).trans (h.dvd j hj)

/-- A number is in one of the blocks. -/
def Covers (n : ℕ) (size : ℕ → ℕ) (F : ℕ → Finset ℕ) (x : ℕ) : Prop :=
  ∃ i < n, ∃ a ∈ F i, a ≤ x ∧ x < a + size i

/-- Books in which the blocks are aligned and disjoint, and no group of them makes up a larger one. -/
structure Tidy (n : ℕ) (size : ℕ → ℕ) (F : ℕ → Finset ℕ) : Prop where
  aligned : ∀ i < n, ∀ a ∈ F i, size i ∣ a
  disjoint : ∀ i < n, ∀ j < n, ∀ a ∈ F i, ∀ b ∈ F j, ∀ x, a ≤ x → x < a + size i → b ≤ x →
    x < b + size j → i = j ∧ a = b
  coalesced : ∀ i, i + 1 < n → ∀ g, size (i + 1) ∣ g →
    ∃ a, size i ∣ a ∧ g ≤ a ∧ a < g + size (i + 1) ∧ a ∉ F i

/-- Aligned blocks of two sizes: if they share a number the smaller lies in the larger. -/
theorem within_of_meet {s t : ℕ} (hst : s ∣ t) (ha : s ∣ a) (hb : t ∣ b) (hax : a ≤ x)
    (hxa : x < a + s) (hbx : b ≤ x) (hxb : x < b + t) : b ≤ a ∧ a + s ≤ b + t := by
  obtain ⟨k, rfl⟩ := ha
  obtain ⟨l, hl⟩ := hst.trans hb
  obtain ⟨m, rfl⟩ := hst
  subst hl
  have hlow : l ≤ k := by
    by_contra hlt
    have hmul := Nat.mul_le_mul_left s (Nat.succ_le_of_lt (not_le.1 hlt))
    rw [Nat.mul_succ] at hmul
    omega
  have hhigh : k + 1 ≤ l + m := by
    by_contra hlt
    have hmul := Nat.mul_le_mul_left s (Nat.lt_succ_iff.1 (not_le.1 hlt))
    rw [Nat.mul_add] at hmul
    omega
  have hlow' := Nat.mul_le_mul_left s hlow
  have hhigh' := Nat.mul_le_mul_left s hhigh
  rw [Nat.mul_add, Nat.mul_add, Nat.mul_one] at hhigh'
  omega

theorem Tidy.mono (h : Tidy n size F) (hsub : ∀ i, F' i ⊆ F i) : Tidy n size F' := by
  refine ⟨fun i hi a ha => h.aligned i hi a (hsub i ha), fun i hi j hj a ha b hb =>
    h.disjoint i hi j hj a (hsub i ha) b (hsub j hb), fun i hi g hg => ?_⟩
  obtain ⟨a, hdvd, hle, hlt, hnot⟩ := h.coalesced i hi g hg
  exact ⟨a, hdvd, hle, hlt, fun ha => hnot (hsub i ha)⟩

/-- Books without blocks are tidy. -/
theorem tidy_empty (hgraded : Graded n size) (h : ∀ i < n, F i = ∅) : Tidy n size F := by
  refine ⟨fun i hi a ha => ?_, fun i hi j _ a ha => ?_, fun i hi g hg => ?_⟩
  · rw [h i hi] at ha
    exact absurd ha (notMem_empty a)
  · rw [h i hi] at ha
    exact absurd ha (notMem_empty a)
  · rw [h i (Nat.lt_of_succ_lt hi)]
    exact ⟨g, (hgraded.dvd i hi).trans hg, le_rfl, Nat.lt_add_of_pos_right (hgraded.pos (i + 1) hi), notMem_empty g⟩

/-! ### Adding a block -/

/-- The books with the blocks of one size replaced. -/
def put (F : ℕ → Finset ℕ) (i : ℕ) (blocks : Finset ℕ) : ℕ → Finset ℕ := Function.update F i blocks

theorem mem_put {blocks : Finset ℕ} : a ∈ put F i blocks j ↔ if j = i then a ∈ blocks else a ∈ F j := by
  rw [put]
  by_cases hji : j = i
  · subst hji
    rw [Function.update_self, if_pos rfl]
  · rw [Function.update_of_ne hji, if_neg hji]

theorem mem_put_insert : b ∈ put F i (insert a (F i)) j ↔ (j = i ∧ b = a) ∨ b ∈ F j := by
  rw [mem_put]
  by_cases hji : j = i
  · subst hji
    rw [if_pos rfl, mem_insert]
    simp
  · rw [if_neg hji]
    simp [hji]

theorem covers_insert (hi : i < n) :
    Covers n size (put F i (insert a (F i))) x ↔ Covers n size F x ∨ (a ≤ x ∧ x < a + size i) := by
  constructor
  · rintro ⟨j, hj, b, hb, hx⟩
    rcases mem_put_insert.1 hb with ⟨rfl, rfl⟩ | hb
    · exact .inr hx
    · exact .inl ⟨j, hj, b, hb, hx⟩
  · rintro (⟨j, hj, b, hb, hx⟩ | hx)
    · exact ⟨j, hj, b, mem_put_insert.2 (.inr hb), hx⟩
    · exact ⟨i, hi, a, mem_put_insert.2 (.inl ⟨rfl, rfl⟩), hx⟩

/-- **A block that leaves its group incomplete** keeps the books tidy. -/
theorem Tidy.insert (h : Tidy n size F) (hi : i < n) (ha : size i ∣ a)
    (hfree : ∀ x, a ≤ x → x < a + size i → ¬Covers n size F x)
    (hgroup : i + 1 < n → ∃ b g, size (i + 1) ∣ g ∧ g ≤ a ∧ a < g + size (i + 1) ∧ size i ∣ b ∧ g ≤ b ∧
      b < g + size (i + 1) ∧ b ≠ a ∧ b ∉ F i) : Tidy n size (put F i (Insert.insert a (F i))) := by
  refine ⟨fun j hj b hb => ?_, fun j hj k hk b hb c hc x hbx hxb hcx hxc => ?_, fun j hj g hg => ?_⟩
  · rcases mem_put_insert.1 hb with ⟨rfl, rfl⟩ | hb
    · exact ha
    · exact h.aligned j hj b hb
  · rcases mem_put_insert.1 hb with ⟨rfl, rfl⟩ | hold <;> rcases mem_put_insert.1 hc with ⟨rfl, rfl⟩ | hold'
    · exact ⟨rfl, rfl⟩
    · exact absurd ⟨k, hk, c, hold', hcx, hxc⟩ (hfree x hbx hxb)
    · exact absurd ⟨j, hj, b, hold, hbx, hxb⟩ (hfree x hcx hxc)
    · exact h.disjoint j hj k hk b hold c hold' x hbx hxb hcx hxc
  · by_cases hji : j = i
    · subst hji
      obtain ⟨c, g', hg', hle, hlt, hc, hcle, hclt, hne, hnot⟩ := hgroup hj
      by_cases hsame : g = g'
      · subst hsame
        exact ⟨c, hc, hcle, hclt, fun hin => (mem_put_insert.1 hin).elim (fun heq => hne heq.2) hnot⟩
      · obtain ⟨d, hd, hdle, hdlt, hdnot⟩ := h.coalesced j hj g hg
        refine ⟨d, hd, hdle, hdlt, fun hin => ?_⟩
        rcases mem_put_insert.1 hin with ⟨-, rfl⟩ | hin
        · -- a number in two aligned groups
          have hone := within_of_meet (Nat.dvd_refl _) hg hg' hdle hdlt hle hlt
          exact absurd (by omega : g = g') hsame
        · exact hdnot hin
    · obtain ⟨d, hd, hdle, hdlt, hdnot⟩ := h.coalesced j hj g hg
      exact ⟨d, hd, hdle, hdlt, fun hin => (mem_put_insert.1 hin).elim (fun heq => hji heq.1) hdnot⟩

/-! ### Completing a group -/

/-- The aligned block of a size that a number is in. -/
theorem block_of (hpos : 0 < size i) (x : ℕ) :
    size i ∣ x / size i * size i ∧ x / size i * size i ≤ x ∧ x < x / size i * size i + size i := by
  refine ⟨Nat.dvd_mul_left _ _, Nat.div_mul_le_self x _, ?_⟩
  have hmod := Nat.mod_lt x hpos
  have hdiv := Nat.div_add_mod' x (size i)
  omega

/-- The blocks of a size outside a group. -/
def outside (blocks : Finset ℕ) (g width : ℕ) : Finset ℕ :=
  blocks.filter fun b => ¬(g ≤ b ∧ b < g + width)

/-- The books without the blocks of a group. -/
def ungroup (size : ℕ → ℕ) (F : ℕ → Finset ℕ) (i g : ℕ) : ℕ → Finset ℕ :=
  put F i (outside (F i) g (size (i + 1)))

theorem mem_ungroup :
    b ∈ ungroup size F i g j ↔ b ∈ F j ∧ ¬(j = i ∧ g ≤ b ∧ b < g + size (i + 1)) := by
  rw [ungroup, mem_put]
  by_cases hji : j = i
  · subst hji
    rw [if_pos rfl, outside, mem_filter]
    simp
  · simp [hji]

theorem ungroup_subset (j : ℕ) : ungroup size F i g j ⊆ F j := fun _ hb => (mem_ungroup.1 hb).1

/-- A block that completes its group, whose numbers no block has. -/
structure Completes (n : ℕ) (size : ℕ → ℕ) (F : ℕ → Finset ℕ) (i a g : ℕ) : Prop where
  lt : i + 1 < n
  dvd : size i ∣ a
  group : size (i + 1) ∣ g
  le : g ≤ a
  below : a < g + size (i + 1)
  free : ∀ x, a ≤ x → x < a + size i → ¬Covers n size F x
  full : ∀ b, size i ∣ b → g ≤ b → b < g + size (i + 1) → b = a ∨ b ∈ F i

/-- The block of the group that a number of it is in. -/
theorem Completes.block (h : Completes n size F i a g) (hgraded : Graded n size) (hgx : g ≤ x)
    (hxg : x < g + size (i + 1)) :
    ∃ c, (c = a ∨ c ∈ F i) ∧ c ≤ x ∧ x < c + size i ∧ g ≤ c ∧ c < g + size (i + 1) := by
  have hi : i < n := Nat.lt_of_succ_lt h.lt
  obtain ⟨hdvd, hle, hlt⟩ := block_of (hgraded.pos i hi) x
  have hwithin := within_of_meet (hgraded.dvd i h.lt) hdvd h.group hle hlt hgx hxg
  have hpos := hgraded.pos i hi
  exact ⟨_, h.full _ hdvd hwithin.1 (by omega), hle, hlt, hwithin.1, by omega⟩

section

variable (h : Tidy n size F)

include h

/-- **What a completed group made up is free** once its blocks have been taken out. -/
theorem Tidy.regroup (hgraded : Graded n size) (hc : Completes n size F i a g) :
    Tidy n size (ungroup size F i g) ∧ (∀ x, g ≤ x → x < g + size (i + 1) → ¬Covers n size (ungroup size F i g) x) ∧
      ∀ x, (Covers n size (ungroup size F i g) x ∨ (g ≤ x ∧ x < g + size (i + 1))) ↔
        (Covers n size F x ∨ (a ≤ x ∧ x < a + size i)) := by
  have hi : i < n := Nat.lt_of_succ_lt hc.lt
  have hpos := hgraded.pos i hi
  refine ⟨h.mono ungroup_subset, ?_, fun x => ⟨?_, ?_⟩⟩
  · rintro x hgx hxg ⟨j, hj, b, hb, hbx, hxb⟩
    obtain ⟨hb, hout⟩ := mem_ungroup.1 hb
    obtain ⟨c, hcF, hcx, hxc, hgc, hcg⟩ := hc.block hgraded hgx hxg
    rcases hcF with rfl | hcF
    · exact hc.free x hcx hxc ⟨j, hj, b, hb, hbx, hxb⟩
    · obtain ⟨rfl, rfl⟩ := h.disjoint i hi j hj c hcF b hb x hcx hxc hbx hxb
      exact hout ⟨rfl, hgc, hcg⟩
  · rintro (⟨j, hj, b, hb, hx⟩ | ⟨hgx, hxg⟩)
    · exact .inl ⟨j, hj, b, (mem_ungroup.1 hb).1, hx⟩
    · obtain ⟨c, hcF, hcx, hxc, -⟩ := hc.block hgraded hgx hxg
      rcases hcF with rfl | hcF
      · exact .inr ⟨hcx, hxc⟩
      · exact .inl ⟨i, hi, c, hcF, hcx, hxc⟩
  · rintro (⟨j, hj, b, hb, hbx, hxb⟩ | ⟨hax, hxa⟩)
    · by_cases hin : j = i ∧ g ≤ b ∧ b < g + size (i + 1)
      · obtain ⟨rfl, hgb, hbg⟩ := hin
        have hwithin := within_of_meet (hgraded.dvd j hc.lt) (h.aligned j hj b hb) hc.group
          (le_refl b) (by omega) hgb hbg
        exact .inr ⟨by omega, by omega⟩
      · exact .inl ⟨j, hj, b, mem_ungroup.2 ⟨hb, hin⟩, hbx, hxb⟩
    · have hwithin := within_of_meet (hgraded.dvd i hc.lt) hc.dvd hc.group (le_refl a) (by omega) hc.le
        hc.below
      exact .inr ⟨by omega, by omega⟩

/-! ### Taking a block out -/

theorem covers_erase (hi : i < n) (ha : a ∈ F i) :
    Covers n size (put F i ((F i).erase a)) x ↔ Covers n size F x ∧ ¬(a ≤ x ∧ x < a + size i) := by
  constructor
  · rintro ⟨j, hj, b, hb, hbx, hxb⟩
    rw [mem_put] at hb
    have hb' : b ∈ F j ∧ ¬(j = i ∧ b = a) := by
      split_ifs at hb with hji
      · subst hji
        rw [mem_erase] at hb
        exact ⟨hb.2, fun heq => hb.1 heq.2⟩
      · exact ⟨hb, fun heq => hji heq.1⟩
    exact ⟨⟨j, hj, b, hb'.1, hbx, hxb⟩, fun hx =>
      hb'.2 (h.disjoint j hj i hi b hb'.1 a ha x hbx hxb hx.1 hx.2)⟩
  · rintro ⟨⟨j, hj, b, hb, hbx, hxb⟩, hnot⟩
    refine ⟨j, hj, b, mem_put.2 ?_, hbx, hxb⟩
    split_ifs with hji
    · subst hji
      refine mem_erase.2 ⟨?_, hb⟩
      rintro rfl
      exact hnot ⟨hbx, hxb⟩
    · exact hb

theorem Tidy.erase : Tidy n size (put F i ((F i).erase a)) := by
  refine h.mono fun j b hb => ?_
  rw [mem_put] at hb
  split_ifs at hb with hji
  · subst hji
    exact mem_of_mem_erase hb
  · exact hb

/-! ### What tidy books say -/

/-- **Tidy books are complete.** -/
theorem Tidy.finds (hgraded : Graded n size) : ∀ i < n, ∀ a, size i ∣ a →
    (∀ x, a ≤ x → x < a + size i → Covers n size F x) →
      ∃ j < n, i ≤ j ∧ ∃ b ∈ F j, b ≤ a ∧ a + size i ≤ b + size j := by
  intro i
  induction i with
  | zero =>
    intro hi a ha hall
    have hpos := hgraded.pos 0 hi
    obtain ⟨j, hj, b, hb, hba, hab⟩ := hall a le_rfl (by omega)
    exact ⟨j, hj, Nat.zero_le j, b, hb, within_of_meet (dvd_of_le hgraded (Nat.zero_le j) hj) ha
      (h.aligned j hj b hb) le_rfl (by omega) hba hab⟩
  | succ i ih =>
    intro hi a ha hall
    obtain ⟨c, hcdvd, hac, hca, hcnot⟩ := h.coalesced i hi a ha
    have hpos := hgraded.pos i (Nat.lt_of_succ_lt hi)
    have hin := within_of_meet (hgraded.dvd i hi) hcdvd ha le_rfl (by omega) hac hca
    obtain ⟨j, hj, hij, b, hb, hbc, hcb⟩ := ih (Nat.lt_of_succ_lt hi) c hcdvd fun x hcx hxc =>
      hall x (by omega) (by omega)
    rcases Nat.eq_or_lt_of_le hij with rfl | hlt
    · obtain rfl : b = c := by omega
      exact absurd hb hcnot
    · exact ⟨j, hj, hlt, b, hb, within_of_meet (dvd_of_le hgraded hlt hj) ha (h.aligned j hj b hb) hac hca
        hbc (by omega)⟩

/-- **Tidy books count right**: in units that divide the sizes, what is covered is as much as the blocks
have together. -/
theorem Tidy.card (hu : ∀ i < n, u ∣ size i) (hpos : 0 < u) {S : Finset ℕ}
    (hS : ∀ p, p ∈ S ↔ Covers n size F (p * u)) :
    S.card = ∑ i ∈ range n, (F i).card * (size i / u) := by
  have hmem : ∀ i < n, ∀ a ∈ F i, ∀ p,
      p ∈ Finset.Ico (a / u) ((a + size i) / u) ↔ a ≤ p * u ∧ p * u < a + size i := by
    intro i hi a ha p
    have hdvd : u ∣ a := (hu i hi).trans (h.aligned i hi a ha)
    obtain ⟨k, rfl⟩ := hdvd
    obtain ⟨l, hl⟩ := hu i hi
    rw [hl, ← Nat.mul_add, Nat.mul_div_cancel_left _ hpos, Nat.mul_div_cancel_left _ hpos,
      mem_Ico, Nat.mul_comm p u, Nat.mul_le_mul_left_iff hpos, Nat.mul_lt_mul_left hpos]
  have hunion : S = ((range n).sigma F).biUnion fun p =>
      Finset.Ico (p.2 / u) ((p.2 + size p.1) / u) := by
    ext p
    rw [hS, mem_biUnion]
    constructor
    · rintro ⟨i, hi, a, ha, hx⟩
      exact ⟨⟨i, a⟩, mem_sigma.2 ⟨mem_range.2 hi, ha⟩, (hmem i hi a ha p).2 hx⟩
    · rintro ⟨⟨i, a⟩, hia, hp⟩
      obtain ⟨hi, ha⟩ := mem_sigma.1 hia
      exact ⟨i, mem_range.1 hi, a, ha, (hmem i (mem_range.1 hi) a ha p).1 hp⟩
  rw [hunion, card_biUnion, sum_sigma]
  · refine sum_congr rfl fun i hi => ?_
    refine sum_const_nat fun a ha => ?_
    obtain ⟨k, rfl⟩ := (hu i (mem_range.1 hi)).trans (h.aligned i (mem_range.1 hi) a ha)
    obtain ⟨l, hl⟩ := hu i (mem_range.1 hi)
    rw [Nat.card_Ico, hl, ← Nat.mul_add, Nat.mul_div_cancel_left _ hpos, Nat.mul_div_cancel_left _ hpos,
      Nat.mul_div_cancel_left _ hpos, Nat.add_sub_cancel_left]
  · rintro ⟨i, a⟩ hia ⟨j, b⟩ hjb hne
    obtain ⟨hi, ha⟩ := mem_sigma.1 (mem_coe.1 hia)
    obtain ⟨hj, hb⟩ := mem_sigma.1 (mem_coe.1 hjb)
    refine disjoint_left.2 fun p hp hp' => hne ?_
    have hx := (hmem i (mem_range.1 hi) a ha p).1 hp
    have hx' := (hmem j (mem_range.1 hj) b hb p).1 hp'
    obtain ⟨rfl, rfl⟩ := h.disjoint i (mem_range.1 hi) j (mem_range.1 hj) a ha b hb (p * u)
      hx.1 hx.2 hx'.1 hx'.2
    rfl

end

end Buddies
end NXEmu
