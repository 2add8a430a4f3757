/-
# Tilings of an interval

A store that keeps one record for each of a run of adjacent segments rests on
the segments covering an interval without gap or overlap: `Tiles s bs e` says
that the list `bs` does so for `[s, e)`.  Each point is then in exactly one
segment (`Tiles.exists_covers`, `Tiles.covers_unique`), which is what searching
the list for it finds (`Tiles.find?_eq_some`, `Tiles.span_eq`), and replacing
each segment by a tiling of it leaves a tiling (`Tiles.flatMap`).
-/

import Mathlib.Data.List.TakeDrop
import Mathlib.Data.Nat.Notation
import Mathlib.Order.Nat
import Mathlib.Tactic.Common

namespace NXEmu

open List

/-- A record about the segment `[lo b, hi b)`. -/
class Segment (β : Type) where
  lo : β → ℕ
  hi : β → ℕ

namespace Segment

variable {β : Type} [Segment β] {s t e x : ℕ} {b c : β} {bs cs : List β}

/-- `x` lies in the segment of `b`. -/
def Covers (b : β) (x : ℕ) : Prop := lo b ≤ x ∧ x < hi b

/-- `bs` are nonempty segments that follow each other from `s` to `e`. -/
def Tiles : ℕ → List β → ℕ → Prop
  | s, [], e => s = e
  | s, b :: bs, e => lo b = s ∧ s < hi b ∧ Tiles (hi b) bs e

@[simp] theorem tiles_nil : Tiles s ([] : List β) e ↔ s = e := Iff.rfl

@[simp] theorem tiles_cons : Tiles s (b :: bs) e ↔ lo b = s ∧ s < hi b ∧ Tiles (hi b) bs e :=
  Iff.rfl

/-- A tiling of an interval cut in two is a tiling of each part. -/
theorem tiles_append : Tiles s (bs ++ cs) e ↔ ∃ t, Tiles s bs t ∧ Tiles t cs e := by
  induction bs generalizing s with
  | nil => simp
  | cons b bs ih =>
    simp only [cons_append, tiles_cons, ih]
    constructor
    · rintro ⟨h₁, h₂, t, h₃, h₄⟩
      exact ⟨t, ⟨h₁, h₂, h₃⟩, h₄⟩
    · rintro ⟨t, ⟨h₁, h₂, h₃⟩, h₄⟩
      exact ⟨h₁, h₂, t, h₃, h₄⟩

section

variable (h : Tiles s bs e)

include h

theorem Tiles.le : s ≤ e := by
  induction bs generalizing s with
  | nil => exact h.le
  | cons b bs ih => exact h.2.1.le.trans (ih h.2.2)

/-- Every segment of a tiling is a nonempty part of the interval. -/
theorem Tiles.mem_bounds (hb : b ∈ bs) : s ≤ lo b ∧ lo b < hi b ∧ hi b ≤ e := by
  induction bs generalizing s with
  | nil => cases hb
  | cons c bs ih =>
    obtain ⟨rfl, h₁, h₂⟩ := h
    rcases mem_cons.1 hb with rfl | hb
    · exact ⟨le_rfl, h₁, h₂.le⟩
    · obtain ⟨h₃, h₄⟩ := ih h₂ hb
      exact ⟨h₁.le.trans h₃, h₄⟩

theorem Tiles.exists_covers (hs : s ≤ x) (he : x < e) :
    ∃ b ∈ bs, Covers b x := by
  induction bs generalizing s with
  | nil =>
    rw [tiles_nil] at h
    omega
  | cons b bs ih =>
    obtain ⟨rfl, -, h₂⟩ := h
    by_cases hx : x < hi b
    · exact ⟨b, mem_cons_self, hs, hx⟩
    · obtain ⟨c, hc, hcx⟩ := ih h₂ (not_lt.1 hx)
      exact ⟨c, mem_cons_of_mem b hc, hcx⟩

/-- **A point is in one segment of a tiling only.** -/
theorem Tiles.covers_unique (hb : b ∈ bs) (hc : c ∈ bs) (hbx : Covers b x) (hcx : Covers c x) : b = c := by
  induction bs generalizing s with
  | nil => cases hb
  | cons d bs ih =>
    obtain ⟨-, -, h⟩ := h
    rcases mem_cons.1 hb with hbd | hb <;> rcases mem_cons.1 hc with hcd | hc
    · rw [hbd, hcd]
    · have := (h.mem_bounds hc).1
      exact absurd ((hbd ▸ hbx.2).trans_le this) (not_lt.2 hcx.1)
    · have := (h.mem_bounds hb).1
      exact absurd ((hcd ▸ hcx.2).trans_le this) (not_lt.2 hbx.1)
    · exact ih h hb hc

/-- Searching a tiling for a point finds the segment it is in. -/
theorem Tiles.find?_eq_some {p : β → Bool} (hp : ∀ b ∈ bs, p b = true ↔ Covers b x) :
    bs.find? p = some b ↔ b ∈ bs ∧ Covers b x := by
  constructor
  · intro hf
    have hb := mem_of_find?_eq_some hf
    exact ⟨hb, (hp b hb).1 (find?_some hf)⟩
  · rintro ⟨hb, hbx⟩
    cases hf : bs.find? p with
    | none => exact absurd ((hp b hb).2 hbx) (find?_eq_none.1 hf b hb)
    | some c =>
      have hc := mem_of_find?_eq_some hf
      rw [h.covers_unique hb hc hbx ((hp c hc).1 (find?_some hf))]

/-- Splitting a tiling at the segment a point is in. -/
theorem Tiles.span_eq {p : β → Bool} (hp : ∀ b ∈ bs, p b = false ↔ Covers b x) (hs : s ≤ x) (he : x < e) :
    ∃ l b r, bs.span p = (l, b :: r) ∧ bs = l ++ b :: r ∧ Covers b x := by
  induction bs generalizing s with
  | nil =>
    rw [tiles_nil] at h
    omega
  | cons b bs ih =>
    obtain ⟨rfl, -, h⟩ := h
    by_cases hx : x < hi b
    · have hbx : Covers b x := ⟨hs, hx⟩
      refine ⟨[], b, bs, ?_, rfl, hbx⟩
      rw [span_eq_takeWhile_dropWhile, takeWhile_cons, dropWhile_cons, (hp b mem_cons_self).2 hbx]
      rfl
    · obtain ⟨l, c, r, h₁, h₂, h₃⟩ :=
        ih h (fun c hc => hp c (mem_cons_of_mem b hc)) (not_lt.1 hx)
      have hb : p b = true := by
        rw [← Bool.not_eq_false, hp b mem_cons_self]
        exact fun hc => hx hc.2
      refine ⟨b :: l, c, r, ?_, by rw [h₂]; rfl, h₃⟩
      rw [span_eq_takeWhile_dropWhile, Prod.mk.injEq] at h₁
      rw [span_eq_takeWhile_dropWhile, takeWhile_cons, dropWhile_cons, if_pos hb,
        if_pos hb, h₁.1, h₁.2]

/-- **Tiling every segment of a tiling gives a tiling.** -/
theorem Tiles.flatMap {f : β → List β} (hf : ∀ b ∈ bs, Tiles (lo b) (f b) (hi b)) : Tiles s (bs.flatMap f) e := by
  induction bs generalizing s with
  | nil => exact h
  | cons b bs ih =>
    obtain ⟨rfl, -, h⟩ := h
    rw [flatMap_cons, tiles_append]
    exact ⟨hi b, hf b mem_cons_self, ih h fun c hc => hf c (mem_cons_of_mem b hc)⟩

end

end Segment
end NXEmu
