/-
# Maps of segments

A map from keys to values that is kept as segments, half-open intervals with a value each, sorted and apart.
`get` is the function such a map stands for; a segment may be taken out (`get_remove`), and the segments that
meet an interval are those from `lower_bound` to `upper_bound`.

`Adding` is what a map that adds an amount to every point of an interval has to do: a point that had no value
has the amount then, and a value of zero stays.  `addAmount` does it by cutting the segments at the ends of the
interval (`adding`).
-/

import Mathlib.Order.Defs.LinearOrder
import Mathlib.Order.MinMax
import Mathlib.Data.List.Pairwise
import Mathlib.Data.List.TakeWhile
import Mathlib.Data.Int.Basic
import Mathlib.Tactic.Common

namespace NXEmu

open List

/-- A half-open interval with a value. -/
structure Stretch (K V : Type) where
  lower : K
  upper : K
  value : V
deriving DecidableEq

namespace SegmentMap

variable {K V : Type} [LinearOrder K] {m l r : List (Stretch K V)} {s : Stretch K V} {x lo hi : K}

/-- A key is in a segment. -/
def Covers (s : Stretch K V) (x : K) : Prop := s.lower ≤ x ∧ x < s.upper

instance (s : Stretch K V) (x : K) : Decidable (Covers s x) := inferInstanceAs (Decidable (_ ∧ _))

/-- The value at a key. -/
def get : List (Stretch K V) → K → Option V
  | [], _ => none
  | s :: m, x => if Covers s x then some s.value else get m x

/-- The segments are not empty, sorted and apart. -/
structure Valid (m : List (Stretch K V)) : Prop where
  nonempty : ∀ s ∈ m, s.lower < s.upper
  apart : m.Pairwise fun s t => s.upper ≤ t.lower

theorem valid_nil : Valid ([] : List (Stretch K V)) :=
  ⟨fun _ hs => absurd hs not_mem_nil, List.Pairwise.nil⟩

theorem valid_cons : Valid (s :: m) ↔ s.lower < s.upper ∧ (∀ t ∈ m, s.upper ≤ t.lower) ∧ Valid m := by
  constructor
  · rintro ⟨hne, hapart⟩
    obtain ⟨hfirst, hrest⟩ := pairwise_cons.1 hapart
    exact ⟨hne s mem_cons_self, hfirst, fun t ht => hne t (mem_cons_of_mem s ht), hrest⟩
  · rintro ⟨hne, hfirst, hm⟩
    refine ⟨fun t ht => ?_, pairwise_cons.2 ⟨hfirst, hm.apart⟩⟩
    rcases mem_cons.1 ht with rfl | ht
    · exact hne
    · exact hm.nonempty t ht

@[simp] theorem get_nil (x : K) : get ([] : List (Stretch K V)) x = none := rfl

theorem get_cons_of_covers (h : Covers s x) : get (s :: m) x = some s.value := if_pos h

theorem get_cons_of_not (h : ¬Covers s x) : get (s :: m) x = get m x := if_neg h

theorem get_eq_none (h : ∀ s ∈ m, ¬Covers s x) : get m x = none := by
  induction m with
  | nil => rfl
  | cons s m ih =>
    rw [get_cons_of_not (h s mem_cons_self)]
    exact ih fun t ht => h t (mem_cons_of_mem s ht)

/-- What a map says of a key is said by one of its segments. -/
theorem exists_of_get {v : V} (h : get m x = some v) : ∃ s ∈ m, Covers s x ∧ s.value = v := by
  induction m with
  | nil => cases h
  | cons s m ih =>
    by_cases hs : Covers s x
    · rw [get_cons_of_covers hs, Option.some.injEq] at h
      exact ⟨s, mem_cons_self, hs, h⟩
    · rw [get_cons_of_not hs] at h
      obtain ⟨t, ht, hcovers⟩ := ih h
      exact ⟨t, mem_cons_of_mem s ht, hcovers⟩

/-- Keys in a segment have its value. -/
theorem Valid.get_of_mem (h : Valid m) (hs : s ∈ m) (hx : Covers s x) : get m x = some s.value := by
  induction m with
  | nil => cases hs
  | cons t m ih =>
    obtain ⟨-, hfirst, hm⟩ := valid_cons.1 h
    rcases mem_cons.1 hs with rfl | hs
    · exact get_cons_of_covers hx
    · rw [get_cons_of_not fun ht => absurd (ht.2.trans_le ((hfirst s hs).trans hx.1)) (lt_irrefl x)]
      exact ih hm hs

theorem Valid.sublist (h : Valid m) (hl : l.Sublist m) : Valid l :=
  ⟨fun s hs => h.nonempty s (hl.subset hs), h.apart.sublist hl⟩

/-- **A segment that is taken out** takes its keys with it. -/
theorem Valid.get_remove (h : Valid (l ++ s :: r)) (x : K) :
    get (l ++ r) x = if Covers s x then none else get (l ++ s :: r) x := by
  induction l with
  | nil =>
    obtain ⟨-, hfirst, -⟩ := valid_cons.1 h
    rw [nil_append, nil_append]
    split_ifs with hs
    · exact get_eq_none fun t ht ht' => absurd (hs.2.trans_le ((hfirst t ht).trans ht'.1)) (lt_irrefl x)
    · rw [get_cons_of_not hs]
  | cons t l ih =>
    obtain ⟨-, hfirst, hm⟩ := valid_cons.1 h
    rw [cons_append, cons_append]
    by_cases ht : Covers t x
    · have hs : ¬Covers s x := fun hs =>
        absurd (ht.2.trans_le ((hfirst s (by simp)).trans hs.1)) (lt_irrefl x)
      rw [get_cons_of_covers ht, if_neg hs, get_cons_of_covers ht]
    · rw [get_cons_of_not ht, get_cons_of_not ht]
      exact ih hm

/-! ### Looking up an interval -/

/-- The segments before `lower_bound` of an interval that begins at `lo`. -/
def beforeBound (m : List (Stretch K V)) (lo : K) : List (Stretch K V) := m.takeWhile fun s => s.upper ≤ lo

/-- The segments from `lower_bound` on. -/
def fromBound (m : List (Stretch K V)) (lo : K) : List (Stretch K V) := m.dropWhile fun s => s.upper ≤ lo

theorem beforeBound_append (m : List (Stretch K V)) (lo : K) : beforeBound m lo ++ fromBound m lo = m :=
  takeWhile_append_dropWhile

theorem upper_le_of_mem_beforeBound (hs : s ∈ beforeBound m lo) : s.upper ≤ lo := by
  have hholds := mem_takeWhile_imp hs
  exact of_decide_eq_true hholds

/-! ### Adding -/

/-- **Adding an amount to the points of an interval.** -/
structure Adding (K : Type) [LinearOrder K] where
  add : List (Stretch K ℤ) → (lower upper : K) → (amount : ℤ) → List (Stretch K ℤ)
  valid_add : ∀ m lower upper amount, Valid m → Valid (add m lower upper amount)
  get_add : ∀ m lower upper amount x, Valid m → get (add m lower upper amount) x =
    if lower ≤ x ∧ x < upper then some ((get m x).getD 0 + amount) else get m x

/-- A segment, unless it is empty. -/
def piece (lower upper : K) (value : V) : List (Stretch K V) :=
  if lower < upper then [⟨lower, upper, value⟩] else []

/-- The segments of a map with an amount added from `lower` on: what lies before, in and behind the interval of
each segment, and between them. -/
def addFrom (upper : K) (amount : ℤ) : List (Stretch K ℤ) → (lower : K) → List (Stretch K ℤ)
  | [], lower => piece lower upper amount
  | s :: m, lower =>
    piece lower (min upper s.lower) amount ++ (piece s.lower (min s.upper lower) s.value ++
      (piece (max s.lower lower) (min s.upper upper) (s.value + amount) ++
        (piece (max s.lower upper) s.upper s.value ++ addFrom upper amount m (max lower s.upper))))

/-- Add an amount to the points of an interval. -/
def addAmount (m : List (Stretch K ℤ)) (lower upper : K) (amount : ℤ) : List (Stretch K ℤ) :=
  if lower < upper then addFrom upper amount m lower else m

theorem get_piece_append (lower upper : K) (value : V) (m : List (Stretch K V)) (x : K) :
    get (piece lower upper value ++ m) x = if lower ≤ x ∧ x < upper then some value else get m x := by
  rw [piece]
  split_ifs with hne hx hx
  · exact get_cons_of_covers hx
  · exact get_cons_of_not hx
  · exact absurd (hx.1.trans_lt hx.2) hne
  · rfl

theorem mem_piece {lower upper : K} {value : V} (h : s ∈ piece lower upper value) :
    s.lower = lower ∧ s.upper = upper ∧ lower < upper := by
  rw [piece] at h
  split_ifs at h with hne
  · rw [mem_singleton] at h
    exact ⟨congrArg Stretch.lower h, congrArg Stretch.upper h, hne⟩
  · cases h

theorem valid_piece_append {lower upper : K} {value : V} (hm : Valid m) (h : ∀ t ∈ m, upper ≤ t.lower) :
    Valid (piece lower upper value ++ m) := by
  rw [piece]
  split_ifs with hne
  · exact valid_cons.2 ⟨hne, h, hm⟩
  · exact hm

/-- The segments begin where the interval or a segment does, at the earliest. -/
theorem le_of_mem_addFrom {upper : K} {amount : ℤ} {b : K} : ∀ (m : List (Stretch K ℤ)) (lower : K), b ≤ lower →
    (∀ s ∈ m, b ≤ s.lower) → Valid m → ∀ t ∈ addFrom upper amount m lower, b ≤ t.lower := by
  intro m
  induction m with
  | nil =>
    intro lower hb _ _ t ht
    rw [(mem_piece ht).1]
    exact hb
  | cons s m ih =>
    intro lower hb hle hm t ht
    obtain ⟨hne, hfirst, hm⟩ := valid_cons.1 hm
    have hs := hle s mem_cons_self
    rw [addFrom, mem_append, mem_append, mem_append, mem_append] at ht
    rcases ht with ht | ht | ht | ht | ht
    · exact (mem_piece ht).1 ▸ hb
    · exact (mem_piece ht).1 ▸ hs
    · exact (mem_piece ht).1 ▸ hs.trans (le_max_left _ _)
    · exact (mem_piece ht).1 ▸ hs.trans (le_max_left _ _)
    · exact ih _ (hb.trans (le_max_left _ _)) (fun u hu => hle u (mem_cons_of_mem s hu)) hm t ht

/-- From a key in front of the end or of all stretches on, so also behind the first stretch. -/
theorem start_next {s : Stretch K ℤ} {m : List (Stretch K ℤ)} {lower upper : K} (hne : s.lower < s.upper)
    (hfirst : ∀ t ∈ m, s.upper ≤ t.lower) (hor : lower < upper ∨ ∀ t ∈ s :: m, lower ≤ t.lower) :
    max lower s.upper < upper ∨ ∀ t ∈ m, max lower s.upper ≤ t.lower := by
  rcases le_total lower s.upper with hle | hle
  · exact .inr fun t ht => (max_eq_right hle).symm ▸ hfirst t ht
  · refine .inl ((max_eq_left hle).symm ▸ hor.resolve_right fun h => ?_)
    exact absurd (hne.trans_le hle) (not_lt.2 (h s mem_cons_self))

theorem valid_addFrom (upper : K) (amount : ℤ) : ∀ (m : List (Stretch K ℤ)) (lower : K), Valid m →
    (lower < upper ∨ ∀ s ∈ m, lower ≤ s.lower) → Valid (addFrom upper amount m lower) := by
  intro m
  induction m with
  | nil =>
    intro lower _ _
    rw [addFrom, ← append_nil (piece lower upper amount)]
    exact valid_piece_append valid_nil fun t ht => absurd ht not_mem_nil
  | cons s m ih =>
    intro lower hm hor
    obtain ⟨hne, hfirst, hm⟩ := valid_cons.1 hm
    have hrest := ih (max lower s.upper) hm (start_next hne hfirst hor)
    have hafter : ∀ t ∈ addFrom upper amount m (max lower s.upper), s.upper ≤ t.lower :=
      le_of_mem_addFrom m _ (le_max_right _ _) hfirst hm
    have hhead : min s.upper lower ≤ max s.lower upper := by
      rcases hor with hlt | hle
      · exact (min_le_right _ _).trans (hlt.le.trans (le_max_right _ _))
      · exact (min_le_right _ _).trans ((hle s mem_cons_self).trans (le_max_left _ _))
    rw [addFrom]
    refine valid_piece_append (valid_piece_append (valid_piece_append (valid_piece_append hrest hafter) ?_) ?_) ?_
    · intro t ht
      rcases mem_append.1 ht with ht | ht
      · rw [(mem_piece ht).1]
        exact (min_le_right _ _).trans (le_max_right _ _)
      · exact (min_le_left _ _).trans (hafter t ht)
    · intro t ht
      rcases mem_append.1 ht with ht | ht
      · rw [(mem_piece ht).1]
        exact (min_le_right _ _).trans (le_max_right _ _)
      rcases mem_append.1 ht with ht | ht
      · rw [(mem_piece ht).1]
        exact hhead
      · exact (min_le_left _ _).trans (hafter t ht)
    · intro t ht
      have hstart : s.lower ≤ t.lower := by
        rcases mem_append.1 ht with ht | ht
        · exact (mem_piece ht).1.ge
        rcases mem_append.1 ht with ht | ht
        · rw [(mem_piece ht).1]
          exact le_max_left _ _
        rcases mem_append.1 ht with ht | ht
        · rw [(mem_piece ht).1]
          exact le_max_left _ _
        · exact hne.le.trans (hafter t ht)
      exact (min_le_right _ _).trans hstart

/-- **Adding from a key on**, point by point. -/
theorem get_addFrom (upper : K) (amount : ℤ) (x : K) : ∀ (m : List (Stretch K ℤ)) (lower : K), Valid m →
    (lower < upper ∨ ∀ s ∈ m, lower ≤ s.lower) → get (addFrom upper amount m lower) x =
      if lower ≤ x ∧ x < upper then some ((get m x).getD 0 + amount) else get m x := by
  intro m
  induction m with
  | nil =>
    intro lower _ _
    rw [addFrom, ← append_nil (piece lower upper amount), get_piece_append, get_nil, Option.getD_none,
      Int.zero_add]
  | cons s m ih =>
    intro lower hm hor
    obtain ⟨hne, hfirst, hm⟩ := valid_cons.1 hm
    have hrest := ih (max lower s.upper) hm (start_next hne hfirst hor)
    rw [addFrom, get_piece_append, get_piece_append, get_piece_append, get_piece_append, hrest]
    simp only [lt_min_iff, max_le_iff]
    rcases lt_or_ge x s.lower with hbefore | hstart
    · -- before the segment there was nothing
      have hnone : get m x = none := get_eq_none fun t ht ht' =>
        absurd (hbefore.trans_le (hne.le.trans ((hfirst t ht).trans ht'.1))) (lt_irrefl x)
      have hnot := not_le.2 hbefore
      have hnot' := not_le.2 (hbefore.trans hne)
      rw [get_cons_of_not fun hs => hnot hs.1, hnone]
      simp only [hbefore, hnot, hnot', and_true, and_false, false_and, if_false, Option.getD_none, Int.zero_add]
    have hnot := not_lt.2 hstart
    rcases lt_or_ge x s.upper with hin | hbehind
    · -- inside it the value changes from `lower` to `upper`
      rw [get_cons_of_covers ⟨hstart, hin⟩, Option.getD_some]
      simp only [hnot, hstart, hin, and_false, if_false, true_and, and_true]
      rcases lt_or_ge x lower with hlt | hge
      · rw [if_pos hlt, if_neg fun hand => absurd hand.1 (not_le.2 hlt)]
      · rw [if_neg (not_lt.2 hge)]
        simp only [hge, true_and]
        rcases lt_or_ge x upper with hlt' | hge'
        · rw [if_pos hlt', if_pos hlt']
        · rw [if_neg (not_lt.2 hge'), if_neg (not_lt.2 hge'), if_pos hge']
    · -- and behind it the rest goes on
      have hnot' := not_lt.2 hbehind
      rw [get_cons_of_not fun hs => hnot' hs.2]
      simp only [hnot, hnot', hbehind, and_false, false_and, if_false, and_true]

/-- **A map that cuts its segments adds.** -/
def adding : Adding K where
  add := addAmount
  valid_add m lower upper amount hm := by
    rw [addAmount]
    split_ifs with hlt
    · exact valid_addFrom upper amount m lower hm (.inl hlt)
    · exact hm
  get_add m lower upper amount x hm := by
    rw [addAmount]
    split_ifs with hlt hx hx
    · rw [get_addFrom upper amount x m lower hm (.inl hlt), if_pos hx]
    · rw [get_addFrom upper amount x m lower hm (.inl hlt), if_neg hx]
    · exact absurd (hx.1.trans_lt hx.2) hlt
    · rfl

end SegmentMap
end NXEmu
