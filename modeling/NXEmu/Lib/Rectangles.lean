/-
# Rectangles of points

A list of rectangles covers each point so many times (`Rect.covers`).  Joining two neighbours with a
common edge changes none of these numbers (`Rect.covers_widen`, `Rect.covers_heighten`), and rectangles
that cover no point twice are disjoint (`Rect.pairwise_disjoint`).
-/

import Mathlib.Data.List.Basic
import Mathlib.Data.Nat.Notation
import Mathlib.Tactic.Common

namespace NXEmu

/-- The points from `(x, y)` on, so many to the right and so many down. -/
structure Rect where
  x : ℕ
  y : ℕ
  width : ℕ
  height : ℕ
deriving DecidableEq

namespace Rect

/-- Whether a point is in a rectangle. -/
def contains (r : Rect) (x y : ℕ) : Bool :=
  decide (r.x ≤ x ∧ x < r.x + r.width ∧ r.y ≤ y ∧ y < r.y + r.height)

@[simp] theorem contains_iff {r : Rect} {x y : ℕ} :
    r.contains x y = true ↔ r.x ≤ x ∧ x < r.x + r.width ∧ r.y ≤ y ∧ y < r.y + r.height := by
  simp [contains]

/-- Two rectangles without a common point. -/
def Disjoint (r s : Rect) : Prop := ∀ x y, ¬(r.contains x y = true ∧ s.contains x y = true)

/-- A rectangle with a point. -/
def Nonempty (r : Rect) : Prop := 0 < r.width ∧ 0 < r.height

/-- How many rectangles a point is in. -/
def covers (rects : List Rect) (x y : ℕ) : ℕ := rects.countP fun r => r.contains x y

variable {r s : Rect} {rects : List Rect} {x y : ℕ}

@[simp] theorem covers_nil (x y : ℕ) : covers [] x y = 0 := rfl

@[simp] theorem covers_cons (r : Rect) (rects : List Rect) (x y : ℕ) :
    covers (r :: rects) x y = covers rects x y + if r.contains x y then 1 else 0 :=
  List.countP_cons ..

@[simp] theorem covers_append (rects rects' : List Rect) (x y : ℕ) :
    covers (rects ++ rects') x y = covers rects x y + covers rects' x y :=
  List.countP_append ..

theorem covers_perm {rects' : List Rect} (h : rects.Perm rects') (x y : ℕ) :
    covers rects x y = covers rects' x y :=
  h.countP_eq _

theorem covers_set {i : ℕ} (hi : i < rects.length) (r : Rect) (x y : ℕ) :
    covers (rects.set i r) x y + covers [rects[i]] x y = covers rects x y + covers [r] x y := by
  have hpos : rects[i].contains x y = true → 0 < covers rects x y := fun h =>
    List.countP_pos_iff.2 ⟨rects[i], List.getElem_mem hi, h⟩
  have hset : covers (rects.set i r) x y = covers rects x y -
      (if rects[i].contains x y then 1 else 0) + if r.contains x y then 1 else 0 :=
    List.countP_set hi
  rw [hset]
  simp only [covers_cons, covers_nil]
  by_cases h : rects[i].contains x y = true
  · have := hpos h
    rw [if_pos h]
    omega
  · rw [if_neg h]
    omega

theorem covers_pos : 0 < covers rects x y ↔ ∃ r ∈ rects, r.contains x y = true :=
  List.countP_pos_iff

/-- **A rectangle and its right neighbour** are one rectangle. -/
theorem covers_widen (hy : r.y = s.y) (hheight : r.height = s.height) (hx : r.x + r.width = s.x) (x y : ℕ) :
    covers [{ r with width := r.width + s.width }] x y = covers [r, s] x y := by
  simp only [covers_cons, covers_nil, contains_iff]
  split_ifs <;> omega

/-- **A rectangle and the one below it** are one rectangle. -/
theorem covers_heighten (hx : r.x = s.x) (hwidth : r.width = s.width) (hy : r.y + r.height = s.y)
    (x y : ℕ) : covers [{ r with height := r.height + s.height }] x y = covers [r, s] x y := by
  simp only [covers_cons, covers_nil, contains_iff]
  split_ifs <;> omega

/-- **Rectangles that cover no point twice are disjoint.** -/
theorem pairwise_disjoint (h : ∀ x y, covers rects x y ≤ 1) : rects.Pairwise Disjoint := by
  induction rects with
  | nil => exact .nil
  | cons r rects ih =>
    refine .cons (fun s hs x y hxy => ?_) (ih fun x y => ?_)
    · have hpos : 0 < covers rects x y := covers_pos.2 ⟨s, hs, hxy.2⟩
      have hle := h x y
      rw [covers_cons, if_pos hxy.1] at hle
      omega
    · have hle := h x y
      rw [covers_cons] at hle
      omega

/-- A rectangle whose points are all left of `a` and above `b` ends there. -/
theorem Nonempty.le {a b : ℕ} (hr : r.Nonempty) (h : ∀ x y, r.contains x y = true → x < a ∧ y < b) :
    r.x + r.width ≤ a ∧ r.y + r.height ≤ b := by
  obtain ⟨hwidth, hheight⟩ := hr
  obtain ⟨hx, hy⟩ := h (r.x + r.width - 1) (r.y + r.height - 1) (contains_iff.2 (by omega))
  omega

end Rect
end NXEmu
