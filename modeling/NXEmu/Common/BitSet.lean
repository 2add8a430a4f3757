/-
# Bit sets

`src/yuzu_common/bit_set.h`.

`BitSet w n` keeps `n` flags in words of `w` bits, the first flag of a word in
its highest bit, so that the first flag set is where the leading zeros end.
-/

import Mathlib.Algebra.Group.Nat.Defs
import Mathlib.Data.Nat.Find
import Mathlib.Logic.Function.Basic
import Mathlib.Tactic.Common

namespace NXEmu
namespace Common

open List BitVec

/-- `BitSet<Storage, N>` with `w` bits of `Storage`, `FlagsPerWord`. -/
structure BitSet (w n : ℕ) where
  words : ℕ → BitVec w := fun _ => 0

namespace BitSet

variable {w n : ℕ}

/-- `NumWords`. -/
def numWords (_ : BitSet w n) : ℕ := (n + w - 1) / w

/-- `GetBitMask`. -/
def getBitMask (w bit : ℕ) : BitVec w := 1#w <<< (w - 1 - bit)

/-- `SetBit`. -/
def setBit (s : BitSet w n) (i : ℕ) : BitSet w n :=
  ⟨Function.update s.words (i / w) (s.words (i / w) ||| getBitMask w (i % w))⟩

/-- `ClearBit`. -/
def clearBit (s : BitSet w n) (i : ℕ) : BitSet w n :=
  ⟨Function.update s.words (i / w) (s.words (i / w) &&& ~~~getBitMask w (i % w))⟩

/-- `CountLeadingZero`. -/
def countLeadingZero (s : BitSet w n) : ℕ :=
  ((List.range s.numWords).findSome? fun i =>
    if s.words i ≠ 0 then some (w * i + (s.words i).clz.toNat) else none).getD (w * s.numWords)

/-- `GetNextSet`: the part of the word up to `k` is masked out. -/
def getNextSet (s : BitSet w n) (k : ℕ) : ℕ :=
  ((List.range' ((k + 1) / w) (s.numWords - (k + 1) / w)).findSome? fun i =>
    let word := if (k + 1) % w ≠ 0 then s.words i &&& (getBitMask w (k % w) - 1) else s.words i
    if word ≠ 0 then some (w * i + word.clz.toNat) else none).getD (w * s.numWords)

/-- The flag `i`. -/
def contains (s : BitSet w n) (i : ℕ) : Bool := (s.words (i / w)).getMsbD (i % w)

/-! ### Words -/

variable {i j k : ℕ} {s : BitSet w n}

theorem toNat_getBitMask (hi : i < w) : (getBitMask w i).toNat = 2 ^ (w - 1 - i) := by
  have h : 2 ^ (w - 1 - i) < 2 ^ w := Nat.pow_lt_pow_right (by omega) (by omega)
  rw [getBitMask, toNat_shiftLeft, toNat_ofNat, Nat.shiftLeft_eq,
    Nat.mod_eq_of_lt (Nat.one_lt_two_pow (by omega)), Nat.one_mul, Nat.mod_eq_of_lt h]

theorem getMsbD_getBitMask (hi : i < w) :
    (getBitMask w i).getMsbD j = decide (i = j) := by
  rw [getMsbD, getLsbD, toNat_getBitMask hi, Nat.testBit_two_pow]
  by_cases hj : j < w <;> simp only [hj, decide_true, decide_false, Bool.true_and, Bool.false_and] <;> grind

/-- The flags after `i`. -/
theorem getMsbD_getBitMask_sub_one (hi : i < w) (hj : j < w) :
    (getBitMask w i - 1).getMsbD j = decide (i < j) := by
  have hpos : 1 ≤ 2 ^ (w - 1 - i) := Nat.one_le_two_pow
  have hone : (1 : BitVec w).toNat = 1 := by
    show (BitVec.ofNat w 1).toNat = 1
    rw [toNat_ofNat, Nat.mod_eq_of_lt (Nat.one_lt_two_pow (by omega))]
  have h : (getBitMask w i - 1).toNat = 2 ^ (w - 1 - i) - 1 := by
    rw [toNat_sub_of_le, toNat_getBitMask hi, hone]
    rw [le_def, toNat_getBitMask hi, hone]
    exact hpos
  rw [getMsbD, getLsbD, h, Nat.testBit_two_pow_sub_one, decide_eq_true hj, Bool.true_and]
  grind

/-- The leading zeros of a word end at its first flag. -/
theorem getMsbD_clz {x : BitVec w} (hx : x ≠ 0) :
    x.clz.toNat < w ∧ x.getMsbD x.clz.toNat = true ∧ ∀ i < x.clz.toNat, x.getMsbD i = false := by
  have hw : 0 < w := by
    rcases Nat.eq_zero_or_pos w with rfl | h
    · exact absurd (eq_nil x) (by simpa using hx)
    · exact h
  have hlt : x.clz.toNat < w := by
    have h := clz_lt_iff_ne_zero.2 hx
    rw [lt_def] at h
    simpa using h
  have htrue := getLsbD_true_clz_of_ne_zero hw hx
  refine ⟨hlt, ?_, fun i hi => ?_⟩
  · rw [getMsbD, decide_eq_true hlt, htrue]
    rfl
  · have h := getLsbD_false_of_lt_ctz (x := x.reverse) (i := i)
      (by rwa [← clz_eq_reverse_ctz])
    rwa [getLsbD_reverse] at h

/-! ### Flags -/

/-- A flag is its word and its place there. -/
theorem eq_iff_div_mod : i = j ↔ i / w = j / w ∧ i % w = j % w := by
  refine ⟨fun h => h ▸ ⟨rfl, rfl⟩, fun ⟨h₁, h₂⟩ => ?_⟩
  rw [← Nat.div_add_mod i w, ← Nat.div_add_mod j w, h₁, h₂]

theorem contains_setBit (hw : 0 < w) :
    (s.setBit i).contains j = (decide (i = j) || s.contains j) := by
  have hi := Nat.mod_lt i hw
  rw [contains, setBit, contains]
  dsimp only
  by_cases h : j / w = i / w
  · rw [h, Function.update_self, getMsbD_or, getMsbD_getBitMask hi, Bool.or_comm,
      decide_eq_decide.2 (show i % w = j % w ↔ i = j by
        rw [eq_iff_div_mod (i := i) (w := w), h]; simp)]
  · rw [Function.update_of_ne h, decide_eq_false fun hij => h (by rw [hij]), Bool.false_or]

theorem contains_clearBit (hw : 0 < w) :
    (s.clearBit i).contains j = (!decide (i = j) && s.contains j) := by
  have hi := Nat.mod_lt i hw
  have hj := Nat.mod_lt j hw
  rw [contains, clearBit, contains]
  dsimp only
  by_cases h : j / w = i / w
  · rw [h, Function.update_self, getMsbD_and, getMsbD_not, getMsbD_getBitMask hi,
      Bool.and_comm, decide_eq_true hj, Bool.true_and,
      decide_eq_decide.2 (show i % w = j % w ↔ i = j by
        rw [eq_iff_div_mod (i := i) (w := w), h]; simp)]
  · rw [Function.update_of_ne h, decide_eq_false fun hij => h (by rw [hij]), Bool.not_false, Bool.true_and]

/-! ### Scans -/

/-- The least number from `lo` on that has a property, or `hi` when none below `hi` has it. -/
def Least (P : ℕ → Bool) (lo hi r : ℕ) : Prop :=
  (∀ i, lo ≤ i → i < r → P i = false) ∧ (r = hi ∨ lo ≤ r ∧ r < hi ∧ P r = true)

theorem Least.unique {P : ℕ → Bool} {lo hi r r' : ℕ} (h : Least P lo hi r) (h' : Least P lo hi r') :
    r = r' := by
  rcases Nat.lt_trichotomy r r' with hlt | heq | hgt
  · rcases h.2 with rfl | ⟨hlo, -, htrue⟩
    · rcases h'.2 with rfl | ⟨-, hhi, -⟩ <;> omega
    · simp [h'.1 r hlo hlt] at htrue
  · exact heq
  · rcases h'.2 with rfl | ⟨hlo, -, htrue⟩
    · rcases h.2 with rfl | ⟨-, hhi, -⟩ <;> omega
    · simp [h.1 r' hlo hgt] at htrue

/-- **The scan of words** that both functions make finds the least flag in them. -/
theorem scan_least (hw : 0 < w) (words : ℕ → BitVec w) (first count : ℕ) :
    Least (fun i => (words (i / w)).getMsbD (i % w)) (w * first) (w * (first + count))
      (((range' first count).findSome? fun i =>
        if words i ≠ 0 then some (w * i + (words i).clz.toNat) else none).getD (w * (first + count))) := by
  induction count generalizing first with
  | zero => exact ⟨fun i hlo hhi => absurd hhi (Nat.not_lt.2 hlo), .inl rfl⟩
  | succ count ih =>
    have hplace : ∀ {i}, w * first ≤ i → i < w * (first + 1) → i / w = first ∧ i % w = i - w * first := by
      intro i hlo hhi
      have hdiv : i / w = first := Nat.div_eq_of_lt_le (by rwa [Nat.mul_comm]) (by rwa [Nat.mul_comm])
      have hmod := Nat.div_add_mod i w
      rw [hdiv] at hmod
      exact ⟨hdiv, by omega⟩
    have hnext : w * (first + 1) = w * first + w := Nat.mul_succ w first
    rw [range'_succ, findSome?_cons]
    by_cases hword : words first = 0
    · have ih := ih (first + 1)
      rw [Nat.add_right_comm, Nat.add_assoc first] at ih
      rw [if_neg (not_not.2 hword)]
      dsimp only
      refine ⟨fun i hlo hhi => ?_, ih.2.imp_right fun h => ⟨by omega, h.2⟩⟩
      by_cases hin : i < w * (first + 1)
      · simp [(hplace hlo hin).1, hword]
      · exact ih.1 i (by omega) hhi
    · obtain ⟨hlt, htrue, hfalse⟩ := getMsbD_clz hword
      have hmono : w * (first + 1) ≤ w * (first + (count + 1)) := Nat.mul_le_mul_left w (by omega)
      rw [if_pos hword]
      dsimp only [Option.getD_some]
      refine ⟨fun i hlo hhi => ?_, .inr ⟨by omega, by omega, ?_⟩⟩
      · obtain ⟨hdiv, hmod⟩ := hplace hlo (by omega)
        simp only [hdiv, hmod]
        exact hfalse _ (by omega)
      · obtain ⟨hdiv, hmod⟩ := hplace (i := w * first + (words first).clz.toNat)
          (by omega) (by omega)
        simpa only [hdiv, hmod, Nat.add_sub_cancel_left] using htrue

/-- **The first flag set**, or the number of flags when none is. -/
theorem countLeadingZero_least (s : BitSet w n) (hw : 0 < w) :
    Least s.contains 0 (w * s.numWords) s.countLeadingZero := by
  have h := scan_least hw s.words 0 s.numWords
  rw [Nat.zero_add, Nat.mul_zero, ← range_eq_range'] at h
  exact h

/-- What `GetNextSet` finds after `k`: where `k + 1` does not begin a word, it passes over every flag
whose place in its word is not behind that of `k`. -/
theorem getNextSet_least (s : BitSet w n) (hw : 0 < w) (hk : k < w * s.numWords) :
    Least (fun i => s.contains i && (decide ((k + 1) % w = 0) || decide (k % w < i % w)))
      (w * ((k + 1) / w)) (w * s.numWords) (s.getNextSet k) := by
  have hfirst : (k + 1) / w ≤ s.numWords := Nat.div_le_of_le_mul hk
  have h := scan_least hw (fun i =>
    if (k + 1) % w ≠ 0 then s.words i &&& (getBitMask w (k % w) - 1) else s.words i)
      ((k + 1) / w) (s.numWords - (k + 1) / w)
  rw [Nat.add_sub_cancel' hfirst] at h
  have hflags : (fun i => s.contains i && (decide ((k + 1) % w = 0) || decide (k % w < i % w))) =
      fun i => (if (k + 1) % w ≠ 0 then s.words (i / w) &&& (getBitMask w (k % w) - 1)
        else s.words (i / w)).getMsbD (i % w) := by
    funext i
    by_cases halign : (k + 1) % w = 0
    · simp [halign, contains]
    · rw [if_pos halign, getMsbD_and, getMsbD_getBitMask_sub_one (Nat.mod_lt k hw)
        (Nat.mod_lt i hw), decide_eq_false halign, Bool.false_or]
      rfl
  rw [hflags]
  exact h

/-- The next flag set after `k` is in a word that `k + 1` begins, or its place in its word is behind
that of `k`. -/
def NextAhead (s : BitSet w n) (k : ℕ) : Prop :=
  (k + 1) % w = 0 ∨ ∀ m, Least s.contains (k + 1) (w * s.numWords) m → m < w * s.numWords → k % w < m % w

theorem div_eq_of_not_aligned (hw : 0 < w) (h : (k + 1) % w ≠ 0) : (k + 1) / w = k / w := by
  have hk := Nat.div_add_mod k w
  have hlt := Nat.mod_lt k hw
  have hplace : k % w + 1 < w := by
    rcases Nat.lt_or_ge (k % w + 1) w with hlt' | hge
    · exact hlt'
    · rw [Nat.add_mod, show k % w = w - 1 by omega] at h
      rcases Nat.lt_or_ge 1 w with h1 | h1
      · rw [Nat.mod_eq_of_lt h1, Nat.sub_add_cancel hw, Nat.mod_self] at h
        exact absurd rfl h
      · obtain rfl : w = 1 := by omega
        exact absurd (Nat.mod_one _) h
  rw [← hk, Nat.add_assoc, Nat.mul_add_div hw, Nat.div_eq_of_lt hplace, Nat.mul_add_div hw, Nat.div_eq_of_lt hlt]

/-- A flag that `GetNextSet` does not pass over is behind `k`. -/
theorem lt_of_ahead (hw : 0 < w) (hlo : w * ((k + 1) / w) ≤ i) (h : (k + 1) % w = 0 ∨ k % w < i % w) : k < i := by
  have hk := Nat.div_add_mod (k + 1) w
  rcases h with halign | hlt
  · omega
  · by_cases halign : (k + 1) % w = 0
    · omega
    · rw [div_eq_of_not_aligned hw halign] at hlo
      have hk := Nat.div_add_mod k w
      have hi := Nat.div_add_mod i w
      have hdiv : k / w ≤ i / w := (Nat.le_div_iff_mul_le hw).2 (by rwa [Nat.mul_comm])
      have := Nat.mul_le_mul_left w hdiv
      omega

/-- **`GetNextSet`** finds the next flag set if it does not pass over it. -/
theorem getNextSet_iff (s : BitSet w n) (hw : 0 < w) (hk : k < w * s.numWords) :
    Least s.contains (k + 1) (w * s.numWords) (s.getNextSet k) ↔ s.NextAhead k := by
  have hfound := s.getNextSet_least hw hk
  have hstart : w * ((k + 1) / w) ≤ k + 1 := Nat.mul_div_le (k + 1) w
  constructor
  · intro hnext
    by_cases halign : (k + 1) % w = 0
    · exact .inl halign
    · refine .inr fun m hm hlt => ?_
      obtain rfl := hnext.unique hm
      obtain heq | ⟨-, -, htrue⟩ := hfound.2
      · omega
      · simpa [halign] using (Bool.and_eq_true_iff.1 htrue).2
  · intro hahead
    have hkeep : ∀ {i}, w * ((k + 1) / w) ≤ i → i < s.getNextSet k → s.contains i = true →
        ¬((k + 1) % w = 0 ∨ k % w < i % w) := by
      intro i hlo hhi hi hor
      have hfalse := hfound.1 i hlo hhi
      dsimp only at hfalse
      rw [hi, Bool.true_and, Bool.or_eq_false_iff, decide_eq_false_iff_not, decide_eq_false_iff_not] at hfalse
      exact hor.elim hfalse.1 hfalse.2
    have hbehind : s.getNextSet k = w * s.numWords ∨ k + 1 ≤ s.getNextSet k ∧
        s.getNextSet k < w * s.numWords ∧ s.contains (s.getNextSet k) = true := by
      refine hfound.2.imp_right fun ⟨hlo, hhi, htrue⟩ => ?_
      rw [Bool.and_eq_true_iff, Bool.or_eq_true_iff, decide_eq_true_iff, decide_eq_true_iff] at htrue
      exact ⟨lt_of_ahead hw hlo htrue.2, hhi, htrue.1⟩
    refine ⟨fun i hlo hhi => ?_, hbehind⟩
    by_contra hi
    -- the least flag set behind `k` is not passed over
    have hset : ∃ j, k + 1 ≤ j ∧ s.contains j = true := ⟨i, hlo, eq_true_of_ne_false hi⟩
    obtain ⟨hm, htrue⟩ := Nat.find_spec hset
    have hle : Nat.find hset ≤ i := Nat.find_min' hset ⟨hlo, eq_true_of_ne_false hi⟩
    have hbound : s.getNextSet k ≤ w * s.numWords := by
      rcases hbehind with h | h <;> omega
    refine hkeep (by omega) (by omega) htrue (hahead.imp_right fun h => h _ ⟨fun j hj hlt => ?_, .inr
      ⟨hm, by omega, htrue⟩⟩ (by omega))
    have hnot := Nat.find_min hset hlt
    simpa [hj] using hnot

/-- Go over the flags set, at most so many, as the code does with both functions. -/
def flags (s : BitSet w n) : ℕ → ℕ → List ℕ
  | 0, _ => []
  | rounds + 1, i => if i < w * s.numWords then i :: s.flags rounds (s.getNextSet i) else []

theorem flags_eq (s : BitSet w n) (hnext : ∀ k < w * s.numWords, s.contains k = true →
      Least s.contains (k + 1) (w * s.numWords) (s.getNextSet k)) {lo i rounds : ℕ}
    (hrounds : w * s.numWords - lo ≤ rounds) (hi : Least s.contains lo (w * s.numWords) i) :
    s.flags rounds i = (range' lo (w * s.numWords - lo)).filter s.contains := by
  induction rounds generalizing lo i with
  | zero =>
    rw [Nat.le_zero.1 hrounds]
    rfl
  | succ rounds ih =>
    rw [flags]
    rcases hi.2 with rfl | ⟨hlo, hlt, htrue⟩
    · rw [if_neg (Nat.lt_irrefl _), eq_comm, filter_eq_nil_iff]
      intro j hj
      obtain ⟨hle, hlt⟩ := mem_range'_1.1 hj
      simp [hi.1 j hle (by omega)]
    · have hsplit : range' lo (w * s.numWords - lo) =
          range' lo (i - lo) ++ i :: range' (i + 1) (w * s.numWords - (i + 1)) := by
        rw [← range'_succ, show w * s.numWords - (i + 1) + 1 = w * s.numWords - i by omega]
        have happend := range'_append_1 (s := lo) (m := i - lo) (n := w * s.numWords - i)
        rw [Nat.add_sub_cancel' hlo] at happend
        rw [happend]
        congr 1
        omega
      have hbefore : (range' lo (i - lo)).filter s.contains = [] := by
        rw [filter_eq_nil_iff]
        intro j hj
        obtain ⟨hle, hlt⟩ := mem_range'_1.1 hj
        simp [hi.1 j hle (by omega)]
      rw [if_pos hlt, hsplit, filter_append, hbefore, nil_append,
        filter_cons_of_pos htrue, ih (by omega) (hnext i hlt htrue)]

/-- **The scans find the flags**: `CountLeadingZero` the first one, `GetNextSet` after each number the
next one, and with both one goes over all of them in order, when none is beyond the size. -/
structure Scans (s : BitSet w n) : Prop where
  first : Least s.contains 0 (w * s.numWords) s.countLeadingZero
  next : ∀ k < n, Least s.contains (k + 1) (w * s.numWords) (s.getNextSet k)
  all : (∀ i, s.contains i = true → i < n) →
    s.flags (w * s.numWords) s.countLeadingZero = (List.range (w * s.numWords)).filter s.contains

theorem le_numWords (s : BitSet w n) (hw : 0 < w) : n ≤ w * s.numWords := by
  have h := Nat.lt_div_mul_add (a := n + w - 1) hw
  rw [numWords, Nat.mul_comm]
  omega

/-- **The scans find the flags exactly when no next flag is passed over.** -/
theorem scans_iff (s : BitSet w n) (hw : 0 < w) : s.Scans ↔ ∀ k < n, s.NextAhead k := by
  have hsize := s.le_numWords hw
  constructor
  · intro h k hk
    exact (s.getNextSet_iff hw (by omega)).1 (h.next k hk)
  · intro h
    have hnext : ∀ k < n, Least s.contains (k + 1) (w * s.numWords) (s.getNextSet k) :=
      fun k hk => (s.getNextSet_iff hw (by omega)).2 (h k hk)
    refine ⟨s.countLeadingZero_least hw, hnext, fun hin => ?_⟩
    rw [s.flags_eq (fun k _ htrue => hnext k (hin k htrue)) (Nat.sub_le _ _)
      (s.countLeadingZero_least hw), Nat.sub_zero, ← List.range_eq_range']

/-- Two words, with the first flag of the second one set. -/
def twoWords : BitSet 8 16 := ⟨fun i => if i = 1 then 0x80 else 0⟩

/-- What the scans of the two words depend on. -/
theorem scans_iff_twoWords : twoWords.Scans ↔ ∀ k < 16, twoWords.NextAhead k :=
  twoWords.scans_iff (by decide)

/-- After flag 3 the flag of the second word is passed over. -/
theorem not_scans_twoWords : ¬twoWords.Scans := by
  intro h
  have hnext : Least twoWords.contains 4 16 16 := h.next 3 (by decide)
  have hclear : twoWords.contains 8 = false := hnext.1 8 (by decide) (by decide)
  exact absurd hclear (by decide)

/-! ### Sets of one word -/

theorem numWords_self (s : BitSet w w) (hw : 0 < w) : s.numWords = 1 := by
  rw [numWords]
  exact Nat.div_eq_of_lt_le (by omega) (by omega)

/-- **The first flag set**, or the number of flags when none is. -/
theorem countLeadingZero_spec (s : BitSet w w) (hw : 0 < w) :
    (∀ i < s.countLeadingZero, i < w → s.contains i = false) ∧ (s.countLeadingZero = w ∨ s.countLeadingZero < w ∧
        s.contains s.countLeadingZero = true) := by
  have h := s.countLeadingZero_least hw
  rw [s.numWords_self hw, Nat.mul_one] at h
  exact ⟨fun i hi _ => h.1 i (Nat.zero_le i) hi, h.2.imp_right And.right⟩

/-- **The next flag set** after `k`, or the number of flags when none is. -/
theorem getNextSet_spec (s : BitSet w w) (hk : k < w) :
    k < s.getNextSet k ∧ (∀ i, k < i → i < s.getNextSet k → i < w → s.contains i = false) ∧
      (s.getNextSet k = w ∨ s.getNextSet k < w ∧ s.contains (s.getNextSet k) = true) := by
  have hw : 0 < w := by omega
  have htotal : w * s.numWords = w := by rw [s.numWords_self hw, Nat.mul_one]
  have hahead : s.NextAhead k := by
    refine .inr fun m hm hlt => ?_
    rw [htotal] at hm hlt
    have hlo : k + 1 ≤ m := by
      rcases hm.2 with h | h <;> omega
    rw [Nat.mod_eq_of_lt hk, Nat.mod_eq_of_lt hlt]
    exact hlo
  have h := (s.getNextSet_iff hw (by omega)).2 hahead
  rw [htotal] at h
  refine ⟨?_, fun i hi hi' _ => h.1 i hi hi', h.2.imp_right And.right⟩
  rcases h.2 with h | h <;> omega

end BitSet
end Common
end NXEmu
