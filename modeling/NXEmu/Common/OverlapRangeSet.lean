/-
# The set of overlapping ranges

`OverlapRangeSet` of `yuzu_common/range_sets.inc` counts for every address how many ranges cover it, in a
`boost::icl::split_interval_map`.  `Subtract` adds a negative amount to the whole range, also to the addresses
that were not there, and then goes through the segments of the range: the first one whose count is not
positive is erased, reported if its count is 0, and the search begins again.

An address that was not there has a negative count until its segment is erased, so it is not reported.  All
segments with a count that is not positive lie in the range, since the counts outside of it are those of
before; so the set is a counter for every address (`Reached.counts`).

What the map does when an amount is added is a parameter (`SegmentMap.Adding`).  Addresses are numbers, and no
range goes past the width of its type; the counts are below 2^31, and amounts do not overflow.
-/

import NXEmu.Lib.SegmentMap
import Mathlib.Algebra.Group.Int.Defs

namespace NXEmu
namespace Common

open SegmentMap Option

/-- `OverlapRangeSet`: the segments of `m_split_ranges_set`. -/
structure OverlapRangeSet where
  segments : List (Stretch ℕ ℤ)

namespace OverlapRangeSet

/-- `std::numeric_limits<s32>::max()` -/
def maxAmount : ℤ := 2 ^ 31 - 1

/-- The loop of `Subtract` from an iterator to `upper_bound`: the segments before the first one whose count is not
positive, this one, and those behind it. -/
def firstGone (endAddress : ℕ) :
    List (Stretch ℕ ℤ) → Option (List (Stretch ℕ ℤ) × Stretch ℕ ℤ × List (Stretch ℕ ℤ))
  | [] => none
  | s :: rest =>
    if endAddress ≤ s.lower then none
    else if s.value ≤ 0 then some ([], s, rest)
    else (firstGone endAddress rest).map fun r => (s :: r.1, r.2)

theorem firstGone_eq {endAddress : ℕ} {rest before behind : List (Stretch ℕ ℤ)} {s : Stretch ℕ ℤ}
    (h : firstGone endAddress rest = some (before, s, behind)) :
    rest = before ++ s :: behind ∧ s.value ≤ 0 ∧ s.lower < endAddress := by
  induction rest generalizing before with
  | nil => cases h
  | cons t rest ih =>
    rw [firstGone] at h
    split_ifs at h with hend hvalue
    · cases h
      exact ⟨rfl, hvalue, not_le.1 hend⟩
    · obtain ⟨r, hr, heq⟩ := map_eq_some_iff.1 h
      obtain ⟨before', s', behind'⟩ := r
      cases heq
      obtain ⟨rfl, hrest⟩ := ih hr
      exact ⟨rfl, hrest⟩

/-- The segments from `lower_bound` to `upper_bound` have positive counts when none is found. -/
theorem pos_of_firstGone {endAddress : ℕ} {rest : List (Stretch ℕ ℤ)} (hrest : Valid rest)
    (h : firstGone endAddress rest = none) : ∀ s ∈ rest, s.lower < endAddress → 0 < s.value := by
  induction rest with
  | nil => exact fun s hs => absurd hs List.not_mem_nil
  | cons t rest ih =>
    intro s hs hlt
    obtain ⟨hne, hfirst, hvalid⟩ := valid_cons.1 hrest
    rw [firstGone] at h
    split_ifs at h with hend hvalue
    · rcases List.mem_cons.1 hs with rfl | hs
      · exact absurd hlt (not_lt.2 hend)
      · exact absurd hlt (not_lt.2 (hend.trans (hne.le.trans (hfirst s hs))))
    · rcases List.mem_cons.1 hs with rfl | hs
      · exact not_le.1 hvalue
      · exact ih hvalid (map_eq_none_iff.1 h) s hs hlt

/-- The loop of `Subtract` that begins again after every segment that it erases, with the ranges that are
reported. -/
def removeGone (hasOnDelete : Bool) (baseAddress endAddress : ℕ) (m : List (Stretch ℕ ℤ)) :
    List (Stretch ℕ ℤ) × List (ℕ × ℕ) :=
  match _hfound : firstGone endAddress (fromBound m baseAddress) with
  | none => (m, [])
  | some (before, s, behind) =>
    let r := removeGone hasOnDelete baseAddress endAddress (beforeBound m baseAddress ++ (before ++ behind))
    (r.1, if hasOnDelete ∧ s.value = 0 then (s.lower, s.upper) :: r.2 else r.2)
termination_by m.length
decreasing_by
  have hm := congrArg List.length (beforeBound_append m baseAddress)
  rw [(firstGone_eq _hfound).1] at hm
  simp only [List.length_append, List.length_cons] at hm ⊢
  omega

variable (icl : Adding ℕ)

/-- `Add` -/
def add (set : OverlapRangeSet) (baseAddress size : ℕ) : OverlapRangeSet :=
  ⟨icl.add set.segments baseAddress (baseAddress + size) 1⟩

/-- `OverlapRangeSetImpl::Subtract`, with the ranges that are reported. -/
def subtractImpl (hasOnDelete : Bool) (set : OverlapRangeSet) (baseAddress size : ℕ) (amount : ℤ) :
    OverlapRangeSet × List (ℕ × ℕ) :=
  if set.segments = [] then (set, [])
  else
    let endAddress := baseAddress + size
    let r := removeGone hasOnDelete baseAddress endAddress (icl.add set.segments baseAddress endAddress (-amount))
    (⟨r.1⟩, r.2)

/-- `Subtract`, without and with `on_delete`. -/
def subtract (hasOnDelete : Bool) (set : OverlapRangeSet) (baseAddress size : ℕ) :
    OverlapRangeSet × List (ℕ × ℕ) :=
  set.subtractImpl icl hasOnDelete baseAddress size 1

/-- `DeleteAll` -/
def deleteAll (set : OverlapRangeSet) (baseAddress size : ℕ) : OverlapRangeSet :=
  (set.subtractImpl icl false baseAddress size maxAmount).1

/-! ### What is left of a range -/

/-- How many ranges are reported that an address is in. -/
def reports (ranges : List (ℕ × ℕ)) (x : ℕ) : ℕ := (ranges.filter fun r => r.1 ≤ x ∧ x < r.2).length

theorem reports_cons (r : ℕ × ℕ) (ranges : List (ℕ × ℕ)) (x : ℕ) :
    reports (r :: ranges) x = (if r.1 ≤ x ∧ x < r.2 then 1 else 0) + reports ranges x := by
  rw [reports, List.filter_cons, reports]
  by_cases hx : r.1 ≤ x ∧ x < r.2
  · rw [if_pos (decide_eq_true hx), if_pos hx, List.length_cons, Nat.add_comm]
  · rw [if_neg (by simpa using hx), if_neg hx, Nat.zero_add]

theorem removeGone_of_none {hasOnDelete : Bool} {baseAddress endAddress : ℕ} {m : List (Stretch ℕ ℤ)}
    (h : firstGone endAddress (fromBound m baseAddress) = none) :
    removeGone hasOnDelete baseAddress endAddress m = (m, []) := by
  rw [removeGone]
  split
  · rfl
  · next heq =>
    rw [h] at heq
    cases heq

theorem removeGone_of_some {hasOnDelete : Bool} {baseAddress endAddress : ℕ}
    {m before behind : List (Stretch ℕ ℤ)} {s : Stretch ℕ ℤ}
    (h : firstGone endAddress (fromBound m baseAddress) = some (before, s, behind)) :
    removeGone hasOnDelete baseAddress endAddress m =
      let r := removeGone hasOnDelete baseAddress endAddress (beforeBound m baseAddress ++ (before ++ behind))
      (r.1, if hasOnDelete ∧ s.value = 0 then (s.lower, s.upper) :: r.2 else r.2) := by
  rw [removeGone]
  split
  · next heq =>
    rw [h] at heq
    cases heq
  · next heq =>
    rw [h] at heq
    cases heq
    rfl

/-- **The loop of `Subtract`**: where the counts outside of the range are positive, it leaves the addresses with
positive counts, and reports each address once whose count is 0. -/
theorem removeGone_spec (hasOnDelete : Bool) (baseAddress endAddress : ℕ) : ∀ (n : ℕ) (m : List (Stretch ℕ ℤ)),
    m.length ≤ n → Valid m → (∀ x v, get m x = some v → ¬(baseAddress ≤ x ∧ x < endAddress) → 0 < v) →
    Valid (removeGone hasOnDelete baseAddress endAddress m).1 ∧
      (∀ x, get (removeGone hasOnDelete baseAddress endAddress m).1 x = (get m x).filter (0 < ·)) ∧
      ∀ x, reports (removeGone hasOnDelete baseAddress endAddress m).2 x =
        if hasOnDelete ∧ get m x = some 0 then 1 else 0 := by
  intro n
  induction n with
  | zero =>
    intro m hlength _ _
    obtain rfl := List.eq_nil_of_length_eq_zero (Nat.le_zero.1 hlength)
    rw [removeGone_of_none rfl]
    exact ⟨valid_nil, fun x => rfl, fun x => (if_neg fun hand => by cases hand.2).symm⟩
  | succ n ih =>
    intro m hlength hm hpos
    have hsplit := beforeBound_append m baseAddress
    cases hfound : firstGone endAddress (fromBound m baseAddress) with
    | none =>
      rw [removeGone_of_none hfound]
      have hall : ∀ x v, get m x = some v → 0 < v := by
        intro x v hv
        by_cases hx : baseAddress ≤ x ∧ x < endAddress
        · obtain ⟨s, hs, hcovers, rfl⟩ := exists_of_get hv
          rw [← hsplit] at hs
          rcases List.mem_append.1 hs with hs | hs
          · exact absurd (hcovers.2.trans_le (upper_le_of_mem_beforeBound hs)) (not_lt.2 hx.1)
          · refine pos_of_firstGone (hm.sublist (List.dropWhile_sublist _)) hfound s hs ?_
            exact hcovers.1.trans_lt hx.2
        · exact hpos x v hv hx
      refine ⟨hm, fun x => ?_, fun x => ?_⟩
      · cases hv : get m x with
        | none => rfl
        | some v => rw [filter_some, if_pos (decide_eq_true (hall x v hv))]
      · rw [if_neg fun hand => absurd (hall x 0 hand.2) (lt_irrefl 0)]
        rfl
    | some found =>
      obtain ⟨before, s, behind⟩ := found
      obtain ⟨hrest, hvalue, -⟩ := firstGone_eq hfound
      have hwhole : beforeBound m baseAddress ++ before ++ s :: behind = m := by
        rw [List.append_assoc, ← hrest, hsplit]
      have hvalid : Valid (beforeBound m baseAddress ++ before ++ s :: behind) := hwhole.symm ▸ hm
      have hmem : s ∈ m := by
        rw [← hwhole]
        simp
      -- without the segment there is none for its keys
      have hget : ∀ x, get (beforeBound m baseAddress ++ (before ++ behind)) x =
          if Covers s x then none else get m x := by
        intro x
        rw [← List.append_assoc, hvalid.get_remove, hwhole]
      have hlength' : (beforeBound m baseAddress ++ (before ++ behind)).length ≤ n := by
        have hm' := congrArg List.length hwhole
        simp only [List.length_append, List.length_cons] at hm' ⊢
        omega
      obtain ⟨hvalid', hget', hreports⟩ := ih (beforeBound m baseAddress ++ (before ++ behind)) hlength'
        (hvalid.sublist (by
          rw [← List.append_assoc]
          exact (List.sublist_cons_self s behind).append_left _)) fun x v hv hx => by
          rw [hget] at hv
          split_ifs at hv
          exact hpos x v hv hx
      rw [removeGone_of_some hfound]
      refine ⟨hvalid', fun x => ?_, fun x => ?_⟩
      · dsimp only
        rw [hget', hget]
        split_ifs with hcovers
        · rw [hm.get_of_mem hmem hcovers, filter_none, filter_some, if_neg (by simpa using hvalue)]
        · rfl
      · have hthis := hreports x
        rw [hget] at hthis
        -- the segment itself is reported when its count is 0
        have hself : Covers s x → (hasOnDelete = true ∧ s.value = 0 ↔ hasOnDelete = true ∧ get m x = some 0) := by
          intro hcovers
          rw [hm.get_of_mem hmem hcovers, Option.some.injEq]
        have hnone : ¬(hasOnDelete = true ∧ (none : Option ℤ) = some 0) := fun hand => by cases hand.2
        dsimp only
        by_cases hreport : hasOnDelete = true ∧ s.value = 0
        · rw [if_pos hreport, reports_cons, hthis]
          by_cases hcovers : Covers s x
          · rw [if_pos hcovers, if_pos (show s.lower ≤ x ∧ x < s.upper from hcovers), if_neg hnone,
              if_pos ((hself hcovers).1 hreport)]
          · rw [if_neg hcovers, if_neg (show ¬(s.lower ≤ x ∧ x < s.upper) from hcovers), Nat.zero_add]
        · rw [if_neg hreport, hthis]
          by_cases hcovers : Covers s x
          · rw [if_pos hcovers, if_neg hnone, if_neg (mt (hself hcovers).2 hreport)]
          · rw [if_neg hcovers]

/-! ### Counting -/

/-- The count of an address, 0 where there is none. -/
def count (set : OverlapRangeSet) (x : ℕ) : ℤ := (get set.segments x).getD 0

/-- The segments are apart and have positive counts. -/
structure Kept (set : OverlapRangeSet) : Prop where
  valid : Valid set.segments
  positive : ∀ x v, get set.segments x = some v → 0 < v

theorem Kept.count_nonneg {set : OverlapRangeSet} (h : Kept set) (x : ℕ) : 0 ≤ set.count x := by
  rw [count]
  cases hv : get set.segments x with
  | none => exact le_rfl
  | some v => exact (h.positive x v hv).le

/-- An address is there just when its count is positive. -/
theorem Kept.isSome_iff {set : OverlapRangeSet} (h : Kept set) (x : ℕ) :
    (get set.segments x).isSome = true ↔ 0 < set.count x := by
  rw [count]
  cases hv : get set.segments x with
  | none => exact ⟨fun hsome => absurd hsome Bool.false_ne_true, fun hlt => absurd hlt (lt_irrefl 0)⟩
  | some v => exact ⟨fun _ => h.positive x v hv, fun _ => rfl⟩

variable {icl : Adding ℕ} {set : OverlapRangeSet}

theorem Kept.add (h : Kept set) (baseAddress size : ℕ) : Kept (set.add icl baseAddress size) ∧
    ∀ x, (set.add icl baseAddress size).count x =
      if baseAddress ≤ x ∧ x < baseAddress + size then set.count x + 1 else set.count x := by
  have hget := fun x => icl.get_add set.segments baseAddress (baseAddress + size) 1 x h.valid
  refine ⟨⟨icl.valid_add _ _ _ _ h.valid, fun x v hv => ?_⟩, fun x => ?_⟩
  · rw [OverlapRangeSet.add, hget] at hv
    split_ifs at hv
    · have hcount := h.count_nonneg x
      rw [count] at hcount
      cases hv
      omega
    · exact h.positive x v hv
  · rw [count, OverlapRangeSet.add, hget]
    split_ifs <;> rfl

/-- **`Subtract`** takes the amount from every count of the range that is as large, and the address out of the set
where it is not; it reports the addresses whose counts were the amount. -/
theorem Kept.subtractImpl (h : Kept set) (hasOnDelete : Bool) (baseAddress size : ℕ) {amount : ℤ}
    (hamount : 0 < amount) :
    Kept (set.subtractImpl icl hasOnDelete baseAddress size amount).1 ∧
      (∀ x, (set.subtractImpl icl hasOnDelete baseAddress size amount).1.count x =
        if baseAddress ≤ x ∧ x < baseAddress + size then max 0 (set.count x - amount) else set.count x) ∧
      ∀ x, reports (set.subtractImpl icl hasOnDelete baseAddress size amount).2 x =
        if hasOnDelete ∧ (baseAddress ≤ x ∧ x < baseAddress + size) ∧ set.count x = amount then 1 else 0 := by
  rw [OverlapRangeSet.subtractImpl]
  split_ifs with hempty
  · have hzero : ∀ x, set.count x = 0 := fun x => by rw [count, hempty]; rfl
    refine ⟨h, fun x => ?_, fun x => ?_⟩
    · dsimp only
      rw [hzero]
      split_ifs <;> omega
    · rw [hzero, if_neg fun hand => absurd hand.2.2 hamount.ne]
      rfl
  · have hget := fun x => icl.get_add set.segments baseAddress (baseAddress + size) (-amount) x h.valid
    obtain ⟨hvalid, hget', hreports⟩ := removeGone_spec hasOnDelete baseAddress (baseAddress + size) _
      (icl.add set.segments baseAddress (baseAddress + size) (-amount)) le_rfl (icl.valid_add _ _ _ _ h.valid)
      fun x v hv hx => by
        rw [hget, if_neg hx] at hv
        exact h.positive x v hv
    refine ⟨⟨hvalid, fun x v hv => ?_⟩, fun x => ?_, fun x => ?_⟩
    · rw [hget'] at hv
      exact of_decide_eq_true (filter_eq_some_iff.1 hv).2
    · rw [count, hget', hget]
      have hcount := h.count_nonneg x
      split_ifs with hx
      · rw [← count, filter_some]
        split_ifs with hpos
        · have hpos' := of_decide_eq_true hpos
          rw [getD_some]
          omega
        · have hpos' : ¬0 < set.count x + -amount := by simpa using hpos
          rw [getD_none]
          omega
      · rw [count]
        cases hv : get set.segments x with
        | none => rfl
        | some v => rw [filter_some, if_pos (decide_eq_true (h.positive x v hv))]
    · rw [hreports, hget]
      refine if_congr (and_congr_right fun _ => ?_) rfl rfl
      split_ifs with hx
      · rw [← count, Option.some.injEq]
        constructor
        · exact fun heq => ⟨hx, by omega⟩
        · exact fun hand => by omega
      · constructor
        · exact fun heq => absurd (h.positive x 0 heq) (lt_irrefl 0)
        · exact fun hand => absurd hand.1 hx

/-! ### Sequences of calls -/

/-- A call. -/
inductive Call where
  | add (baseAddress size : ℕ)
  | subtract (hasOnDelete : Bool) (baseAddress size : ℕ)
  | deleteAll (baseAddress size : ℕ)

namespace Call

/-- The call itself, with the ranges that are reported. -/
def run (icl : Adding ℕ) (set : OverlapRangeSet) : Call → OverlapRangeSet × List (ℕ × ℕ)
  | .add baseAddress size => (set.add icl baseAddress size, [])
  | .subtract hasOnDelete baseAddress size => set.subtract icl hasOnDelete baseAddress size
  | .deleteAll baseAddress size => (set.deleteAll icl baseAddress size, [])

/-- The range of the call, with its size. -/
def range : Call → ℕ × ℕ
  | .add baseAddress size => (baseAddress, size)
  | .subtract _ baseAddress size => (baseAddress, size)
  | .deleteAll baseAddress size => (baseAddress, size)

/-- An address is in the range of the call. -/
def InRange (c : Call) (x : ℕ) : Prop := c.range.1 ≤ x ∧ x < c.range.1 + c.range.2

instance (c : Call) (x : ℕ) : Decidable (c.InRange x) := inferInstanceAs (Decidable (_ ∧ _))

/-- What the call adds to a count. -/
def delta : Call → ℤ
  | .add _ _ => 1
  | .subtract _ _ _ => -1
  | .deleteAll _ _ => -maxAmount

/-- The call reports what it deletes. -/
def hasOnDelete : Call → Bool
  | .subtract hasOnDelete _ _ => hasOnDelete
  | _ => false

end Call

/-- The sets that calls lead to. -/
inductive Reached (icl : Adding ℕ) : OverlapRangeSet → Prop
  | empty : Reached icl ⟨[]⟩
  | call {set : OverlapRangeSet} (h : Reached icl set) (c : Call) : Reached icl (c.run icl set).1

theorem maxAmount_pos : 0 < maxAmount := by decide

/-- **What a call does to the counts**, those of its range and the others, to what is there, and what it reports. -/
structure Counts (set : OverlapRangeSet) (c : Call) (r : OverlapRangeSet × List (ℕ × ℕ)) : Prop where
  inside : ∀ x, c.InRange x → r.1.count x = max 0 (set.count x + c.delta)
  outside : ∀ x, ¬c.InRange x → r.1.count x = set.count x
  present : ∀ x, (get r.1.segments x).isSome = true ↔ 0 < r.1.count x
  reported : ∀ x, reports r.2 x = if c.hasOnDelete ∧ c.InRange x ∧ set.count x = 1 then 1 else 0

/-- **One call** on a set that is kept. -/
theorem Kept.run (h : Kept set) (c : Call) : Kept (c.run icl set).1 ∧ Counts set c (c.run icl set) := by
  have hnothing : ∀ (set : OverlapRangeSet) (c : Call) x, c.hasOnDelete = false →
      reports [] x = if c.hasOnDelete ∧ c.InRange x ∧ set.count x = 1 then 1 else 0 := by
    intro set c x hsilent
    rw [hsilent, if_neg fun hand => absurd hand.1 Bool.false_ne_true]
    rfl
  cases c with
  | add baseAddress size =>
    obtain ⟨hkept, hcount⟩ : Kept (set.add icl baseAddress size) ∧ _ := h.add baseAddress size
    refine ⟨hkept, fun x hx => ?_, fun x hx => ?_, hkept.isSome_iff, fun x => hnothing set _ x rfl⟩
    · have hnonneg := h.count_nonneg x
      refine (hcount x).trans ((if_pos hx).trans ?_)
      exact (max_eq_right (by show 0 ≤ set.count x + 1; omega)).symm
    · exact (hcount x).trans (if_neg hx)
  | subtract hasOnDelete baseAddress size =>
    obtain ⟨hkept, hcount, hreports⟩ : Kept (set.subtractImpl icl hasOnDelete baseAddress size 1).1 ∧ _ :=
      h.subtractImpl hasOnDelete baseAddress size Int.one_pos
    refine ⟨hkept, fun x hx => ?_, fun x hx => ?_, hkept.isSome_iff, hreports⟩
    · exact (hcount x).trans (if_pos hx)
    · exact (hcount x).trans (if_neg hx)
  | deleteAll baseAddress size =>
    obtain ⟨hkept, hcount, -⟩ : Kept (set.subtractImpl icl false baseAddress size maxAmount).1 ∧ _ :=
      h.subtractImpl false baseAddress size maxAmount_pos
    refine ⟨hkept, fun x hx => ?_, fun x hx => ?_, hkept.isSome_iff, fun x => hnothing set _ x rfl⟩
    · exact (hcount x).trans (if_pos hx)
    · exact (hcount x).trans (if_neg hx)

theorem Reached.kept (h : Reached icl set) : Kept set := by
  induction h with
  | empty => exact ⟨valid_nil, fun x v hv => by cases hv⟩
  | call _ c ih => exact (ih.run c).1

/-- **The set is a counter for every address**, after every sequence of calls and whatever the next one is. -/
theorem Reached.counts (h : Reached icl set) (c : Call) : Counts set c (c.run icl set) := (h.kept.run c).2

/-- Two ranges that overlap, and a subtraction that goes past both. -/
theorem counts_overlapping : ∃ set, Reached adding set ∧
    set.segments = [⟨0, 4, 1⟩, ⟨4, 8, 2⟩, ⟨8, 12, 1⟩] ∧
    Counts set (.subtract true 2 20) (Call.run adding set (.subtract true 2 20)) := by
  have hreached : Reached adding _ := .call (.call .empty (.add 0 8)) (.add 4 8)
  exact ⟨_, hreached, by decide, Reached.counts hreached (.subtract true 2 20)⟩

end OverlapRangeSet

end Common
end NXEmu
