/-
# Rectangles of an observed readback

`src/yuzu_video_core/texture_cache/observed_readback_plan.h`: the GOBs that some observed bytes of a
block-linear image touch are mapped back to the image, cut at its edges, merged into rows and the rows
into columns.  Merging changes how often no pixel is covered, so that the plan covers just the pixels
of these GOBs, once each (`planObservedReadback_exact`).

Coordinates are numbers: those of an image of 32-bit sizes are smaller.
-/

import NXEmu.Lib.Rectangles
import NXEmu.VideoCore.SwizzleRange
import Mathlib.Data.List.Dedup

namespace NXEmu
namespace VideoCommon

open Tegra.Texture List

/-- `ObservedReadbackRect`. -/
abbrev ObservedReadbackRect : Type := Rect

/-! ### The GOBs of the ranges -/

/-- The loop over the ranges, which gives up on a range that wraps and on too many GOBs. -/
def touchedGobs : List (ℕ × ℕ) → List ℕ → Option (List ℕ)
  | [], gobs => some gobs
  | (offset, size) :: ranges, gobs =>
    if size > 2 ^ 64 - 1 - offset then none
    else if size = 0 then touchedGobs ranges gobs
    else
      let first := offset / 512
      let last := (offset + size - 1) / 512
      if last - first ≥ 8192 ∨ gobs.length + last - first + 1 > 8192 then none
      else touchedGobs ranges (gobs ++ List.range' first (last + 1 - first))

/-- `std::unique` and `erase`. -/
def unique : List ℕ → List ℕ
  | a :: b :: gobs => if a = b then unique (b :: gobs) else a :: unique (b :: gobs)
  | gobs => gobs

/-- The sorted GOBs, each once. -/
def sortedGobs (gobs : List ℕ) : List ℕ := unique (gobs.mergeSort fun a b => decide (a ≤ b))

/-! ### The rectangles of the GOBs -/

/-- The rectangle of a GOB, unless it is outside of the image. -/
def gobRect (rowBytes height blockHeight gob : ℕ) : Option ObservedReadbackRect :=
  let width := rowBytes / 4
  let byte := gob * 512
  let x := byte % blockBytes rowBytes blockHeight / columnBytes blockHeight * 16
  let y := byte / blockBytes rowBytes blockHeight * (8 <<< blockHeight) +
    byte % columnBytes blockHeight / 512 * 8
  if x ≥ width ∨ y ≥ height then none
  else some ⟨x, y, min 16 (width - x), min 8 (height - y)⟩

/-- The comparison of the rows: first by `y`, then by `x`. -/
def rowLess (a b : ObservedReadbackRect) : Bool := decide (a.y < b.y ∨ a.y = b.y ∧ a.x < b.x)

/-- One step of the loop that merges neighbours in a row, with the rows so far, the last one first. -/
def mergeRow (out : List ObservedReadbackRect) (it : ObservedReadbackRect) :
    List ObservedReadbackRect :=
  match out with
  | last :: out =>
    if last.y = it.y ∧ last.height = it.height ∧ last.x + last.width = it.x then
      { last with width := last.width + it.width } :: out
    else it :: last :: out
  | [] => [it]

/-- The sorted and merged rows. -/
def mergedRows (rows : List ObservedReadbackRect) : List ObservedReadbackRect :=
  ((rows.mergeSort fun a b => !rowLess b a).foldl mergeRow []).reverse

/-! ### Columns -/

/-- The variables of the last loop. -/
structure Columns where
  result : List ObservedReadbackRect
  columns : ℕ × ℕ → Option ℕ
  bytes : ℕ

namespace Columns

/-- A row that begins another rectangle, unless there are too many. -/
def push (c : Columns) (maxRectangles : ℕ) (row : ObservedReadbackRect) : Option Columns :=
  if c.result.length ≥ maxRectangles then none
  else some { c with
    columns := Function.update c.columns (row.x, row.width) (some c.result.length)
    result := c.result ++ [row] }

/-- One step of the last loop. -/
def add (c : Columns) (maxRectangles : ℕ) (row : ObservedReadbackRect) : Exec (Option Columns) :=
  let c := { c with bytes := c.bytes + row.width * row.height * 4 }
  match c.columns (row.x, row.width) with
  | some found =>
    match c.result[found]? with
    | some above =>
      if above.y + above.height = row.y then
        pure (some { c with
          result := c.result.set found { above with height := above.height + row.height } })
      else pure (c.push maxRectangles row)
    | none => .fault
  | none => pure (c.push maxRectangles row)

/-- The last loop, which returns nothing when there are too many rectangles. -/
def addAll (maxRectangles : ℕ) : List ObservedReadbackRect → Columns → Exec (Option Columns)
  | [], c => pure (some c)
  | row :: rows, c => do
    match ← c.add maxRectangles row with
    | some c => addAll maxRectangles rows c
    | none => pure none

end Columns

/-- `PlanObservedReadback`: the rectangles of the GOBs that the ranges touch, when that saves a quarter of the
image. -/
def planObservedReadback (rowBytes height blockHeight : ℕ) (ranges : List (ℕ × ℕ))
    (maxRectangles : ℕ) : Exec (Option (List ObservedReadbackRect)) :=
  if rowBytes = 0 ∨ rowBytes % 4 ≠ 0 ∨ height = 0 ∨ blockHeight > 5 then pure none
  else
    match touchedGobs ranges [] with
    | none => pure none
    | some gobs => do
      let rows := mergedRows ((sortedGobs gobs).filterMap (gobRect rowBytes height blockHeight))
      match ← Columns.addAll maxRectangles rows ⟨[], fun _ => none, 0⟩ with
      | none => pure none
      | some c =>
        if c.bytes ≥ rowBytes * height * 3 % 2 ^ 64 / 4 then pure none else pure (some c.result)

/-! ### The GOBs -/

/-- A range touches a GOB when one of its bytes is in it. -/
def Touches (range : ℕ × ℕ) (gob : ℕ) : Prop :=
  ∃ byte, range.1 ≤ byte ∧ byte < range.1 + range.2 ∧ byte / 512 = gob

theorem mem_touchedGobs {ranges : List (ℕ × ℕ)} {gobs gobs' : List ℕ}
    (h : touchedGobs ranges gobs = some gobs') (gob : ℕ) :
    gob ∈ gobs' ↔ gob ∈ gobs ∨ ∃ range ∈ ranges, Touches range gob := by
  induction ranges generalizing gobs with
  | nil =>
    cases h
    simp
  | cons range ranges ih =>
    obtain ⟨offset, size⟩ := range
    simp only [touchedGobs] at h
    split_ifs at h with hwrap hzero
    · rw [ih h]
      have hnone : ¬Touches (offset, size) gob := by
        rintro ⟨byte, h1, h2, -⟩
        simp only at h1 h2
        omega
      simp [hnone]
    · rw [ih h]
      have hrange : gob ∈ range' (offset / 512) ((offset + size - 1) / 512 + 1 - offset / 512) ↔
          Touches (offset, size) gob := by
        rw [mem_range'_1]
        constructor
        · intro hgob
          show ∃ byte, offset ≤ byte ∧ byte < offset + size ∧ byte / 512 = gob
          exact ⟨max offset (512 * gob), by omega, by omega, by omega⟩
        · rintro ⟨byte, h1, h2, h3⟩
          simp only at h1 h2
          omega
      simp [hrange, or_assoc]

theorem mem_unique {gob : ℕ} : ∀ {gobs : List ℕ}, gob ∈ unique gobs ↔ gob ∈ gobs
  | [] => by simp [unique]
  | [a] => by simp [unique]
  | a :: b :: gobs => by
    rw [unique]
    split_ifs with h
    · rw [mem_unique, h]
      simp
    · rw [mem_cons, mem_unique, mem_cons, mem_cons, mem_cons]

theorem unique_nodup : ∀ {gobs : List ℕ}, gobs.Pairwise (· ≤ ·) → (unique gobs).Nodup
  | [], _ => by simp [unique]
  | [a], _ => by simp [unique]
  | a :: b :: gobs, h => by
    obtain ⟨ha, hb⟩ := pairwise_cons.1 h
    rw [unique]
    split_ifs with hab
    · exact unique_nodup hb
    · refine nodup_cons.2 ⟨fun hmem => ?_, unique_nodup hb⟩
      rw [mem_unique] at hmem
      have hle := ha b (mem_cons_self ..)
      obtain rfl | hmem := mem_cons.1 hmem
      · exact hab rfl
      · have := (pairwise_cons.1 hb).1 a hmem
        omega

/-- The sorted GOBs are the touched ones, each once. -/
theorem sortedGobs_spec (gobs : List ℕ) :
    (sortedGobs gobs).Nodup ∧ ∀ gob, gob ∈ sortedGobs gobs ↔ gob ∈ gobs := by
  constructor
  · refine unique_nodup ?_
    have htrans : ∀ a b c : ℕ, decide (a ≤ b) = true → decide (b ≤ c) = true → decide (a ≤ c) = true :=
      fun a b c => by simpa using le_trans
    have htotal : ∀ a b : ℕ, (decide (a ≤ b) || decide (b ≤ a)) = true := fun a b => by
      simpa using le_total a b
    exact (pairwise_mergeSort htrans htotal gobs).imp fun h => of_decide_eq_true h
  · intro gob
    rw [sortedGobs, mem_unique, (mergeSort_perm _ _).mem_iff]

/-! ### The pixels of the GOBs -/

variable {rowBytes height blockHeight gob x y : ℕ} {rect : ObservedReadbackRect}

/-- Whether the GOB of a pixel of the image is this one. -/
def InGob (rowBytes height blockHeight gob x y : ℕ) : Prop :=
  x < rowBytes / 4 ∧ y < height ∧ gobNumber rowBytes blockHeight (4 * x) y = gob

instance : Decidable (InGob rowBytes height blockHeight gob x y) := by
  unfold InGob
  infer_instance

/-- The rectangle of a GOB starts where `Swizzle2DRange` finds it. -/
theorem gobRect_base (rowBytes blockHeight gob : ℕ) :
    gob * 512 % blockBytes rowBytes blockHeight / columnBytes blockHeight * 16 * 4 =
        xBase rowBytes blockHeight (512 * gob) ∧
      gob * 512 / blockBytes rowBytes blockHeight * (8 <<< blockHeight) +
        gob * 512 % columnBytes blockHeight / 512 * 8 = yBase rowBytes blockHeight (512 * gob) := by
  constructor
  · rw [xBase, Nat.mul_comm gob]
    omega
  · have hdvd : columnBytes blockHeight ∣ blockBytes rowBytes blockHeight := Dvd.intro_left _ rfl
    rw [yBase, Nat.mul_comm gob, Nat.mod_mod_of_dvd _ hdvd, Nat.shiftLeft_eq, Nat.shiftLeft_eq,
      Nat.pow_add, Nat.mul_comm (2 ^ blockHeight)]

/-- **The rectangle of a GOB** has just the pixels of the image that are in it. -/
theorem gobRect_contains (hrow : rowBytes % 4 = 0) (x y : ℕ) :
    (∃ rect, gobRect rowBytes height blockHeight gob = some rect ∧ rect.contains x y = true) ↔
      InGob rowBytes height blockHeight gob x y := by
  obtain ⟨hxBase, hyBase⟩ := gobRect_base rowBytes blockHeight gob
  have hin : x < rowBytes / 4 → (gobNumber rowBytes blockHeight (4 * x) y = gob ↔
      (xBase rowBytes blockHeight (512 * gob) ≤ 4 * x ∧ 4 * x < xBase rowBytes blockHeight (512 * gob) + 64) ∧
        yBase rowBytes blockHeight (512 * gob) ≤ y ∧ y < yBase rowBytes blockHeight (512 * gob) + 8) := by
    intro hx
    constructor
    · rintro rfl
      obtain ⟨hx', hy'⟩ := base_gobNumber (show 4 * x < rowBytes by omega) blockHeight y
      rw [hx', hy']
      omega
    · rintro ⟨⟨h1, h2⟩, h3, h4⟩
      have h := gobNumber_base (x := 4 * x - xBase rowBytes blockHeight (512 * gob))
        (y := y - yBase rowBytes blockHeight (512 * gob)) (by omega) (by omega) rowBytes blockHeight gob
      rwa [Nat.add_sub_cancel' h1, Nat.add_sub_cancel' h3] at h
  unfold InGob
  rw [gobRect, hyBase]
  generalize hX : gob * 512 % blockBytes rowBytes blockHeight / columnBytes blockHeight * 16 = X at hxBase ⊢
  split_ifs with hout
  · refine iff_of_false (by simp) fun ⟨hx, hy, hgob⟩ => ?_
    have := (hin hx).1 hgob
    omega
  · simp only [Option.some.injEq, exists_eq_left', Rect.contains_iff]
    constructor
    · rintro ⟨h1, h2, h3, h4⟩
      have hx : x < rowBytes / 4 := by omega
      exact ⟨hx, by omega, (hin hx).2 (by omega)⟩
    · rintro ⟨hx, hy, hgob⟩
      have := (hin hx).1 hgob
      omega

theorem gobRect_nonempty (h : gobRect rowBytes height blockHeight gob = some rect) : rect.Nonempty := by
  rw [gobRect] at h
  split_ifs at h with hout
  cases h
  constructor
  · show 0 < min 16 _
    omega
  · show 0 < min 8 _
    omega

/-- **Each pixel of the GOBs is covered once.** -/
theorem covers_gobRects (hrow : rowBytes % 4 = 0) {gobs : List ℕ} (hnodup : gobs.Nodup) (x y : ℕ) :
    Rect.covers (gobs.filterMap (gobRect rowBytes height blockHeight)) x y =
      if ∃ gob ∈ gobs, InGob rowBytes height blockHeight gob x y then 1 else 0 := by
  induction gobs with
  | nil => simp
  | cons gob gobs ih =>
    obtain ⟨hnot, hnodup⟩ := nodup_cons.1 hnodup
    have hcons : Rect.covers ((gob :: gobs).filterMap (gobRect rowBytes height blockHeight)) x y =
        Rect.covers (gobs.filterMap (gobRect rowBytes height blockHeight)) x y +
          if InGob rowBytes height blockHeight gob x y then 1 else 0 := by
      have hiff := @gobRect_contains rowBytes height blockHeight gob hrow x y
      rw [filterMap_cons]
      cases hrect : gobRect rowBytes height blockHeight gob with
      | none =>
        have hout : ¬InGob rowBytes height blockHeight gob x y := fun h => by
          obtain ⟨rect, hsome, -⟩ := hiff.2 h
          rw [hrect] at hsome
          cases hsome
        simp [hout]
      | some rect =>
        have hsame : rect.contains x y = true ↔ InGob rowBytes height blockHeight gob x y := by
          rw [← hiff, hrect]
          simp
        simp [hsame]
    rw [hcons, ih hnodup]
    by_cases hin : InGob rowBytes height blockHeight gob x y
    · have hno : ¬∃ g ∈ gobs, InGob rowBytes height blockHeight g x y := by
        rintro ⟨g, hg, -, -, hgob⟩
        exact hnot (by rwa [← hin.2.2, hgob])
      rw [if_neg hno, if_pos hin, if_pos ⟨gob, mem_cons_self .., hin⟩]
    · simp [hin]

/-! ### Merging -/

/-- **Merging a neighbour into the last row** covers what the two did. -/
theorem covers_mergeRow (out : List ObservedReadbackRect) (it : ObservedReadbackRect) (x y : ℕ) :
    Rect.covers (mergeRow out it) x y = Rect.covers (it :: out) x y := by
  cases out with
  | nil => rfl
  | cons last out =>
    rw [mergeRow]
    split_ifs with h
    · have hwiden := Rect.covers_widen h.1 h.2.1 h.2.2 x y
      simp only [Rect.covers_cons, Rect.covers_nil] at hwiden ⊢
      omega
    · rfl

theorem nonempty_mergeRow {out : List ObservedReadbackRect} {it : ObservedReadbackRect}
    (hit : it.Nonempty) (h : ∀ r ∈ out, r.Nonempty) : ∀ r ∈ mergeRow out it, r.Nonempty := by
  cases out with
  | nil => simpa [mergeRow] using hit
  | cons last out =>
    have hlast : last.Nonempty := h last (mem_cons_self ..)
    intro r hr
    rw [mergeRow] at hr
    split_ifs at hr
    · obtain rfl | hr := mem_cons.1 hr
      · exact ⟨Nat.lt_of_lt_of_le hlast.1 (Nat.le_add_right _ _), hlast.2⟩
      · exact h r (mem_cons_of_mem _ hr)
    · obtain rfl | hr := mem_cons.1 hr
      · exact hit
      · exact h r hr

/-- The loop that merges rows covers what the rows do. -/
theorem foldl_mergeRow (rows out : List ObservedReadbackRect) (hrows : ∀ r ∈ rows, r.Nonempty)
    (hout : ∀ r ∈ out, r.Nonempty) :
    (∀ x y, Rect.covers (rows.foldl mergeRow out) x y = Rect.covers out x y + Rect.covers rows x y) ∧
      ∀ r ∈ rows.foldl mergeRow out, r.Nonempty := by
  induction rows generalizing out with
  | nil => exact ⟨fun x y => rfl, hout⟩
  | cons row rows ih =>
    obtain ⟨hcovers, hnonempty⟩ := ih (mergeRow out row)
      (fun r hr => hrows r (mem_cons_of_mem _ hr))
      (nonempty_mergeRow (hrows row (mem_cons_self ..)) hout)
    refine ⟨fun x y => ?_, hnonempty⟩
    rw [foldl_cons, hcovers, covers_mergeRow, Rect.covers_cons, Rect.covers_cons]
    omega

theorem mergedRows_spec (rows : List ObservedReadbackRect) (hrows : ∀ r ∈ rows, r.Nonempty) :
    (∀ x y, Rect.covers (mergedRows rows) x y = Rect.covers rows x y) ∧ ∀ r ∈ mergedRows rows, r.Nonempty := by
  have hperm := mergeSort_perm rows fun a b => !rowLess b a
  obtain ⟨hcovers, hnonempty⟩ := foldl_mergeRow (rows.mergeSort fun a b => !rowLess b a) []
    (fun r hr => hrows r (hperm.mem_iff.1 hr)) (by simp)
  constructor
  · intro x y
    rw [mergedRows, Rect.covers_perm (reverse_perm _), hcovers, Rect.covers_nil, Nat.zero_add,
      Rect.covers_perm hperm]
  · intro r hr
    exact hnonempty r (mem_reverse.1 hr)

/-! ### The columns -/

/-- After the rows that cover each point so many times: the index knows rectangles of the result. -/
structure Columns.Inv (c : Columns) (maxRectangles : ℕ) (covered : ℕ → ℕ → ℕ) : Prop where
  covers : ∀ x y, Rect.covers c.result x y = covered x y
  nonempty : ∀ r ∈ c.result, r.Nonempty
  length : c.result.length ≤ maxRectangles
  columns : ∀ key i, c.columns key = some i → ∃ r, c.result[i]? = some r ∧ r.x = key.1 ∧ r.width = key.2

variable {c c' : Columns} {maxRectangles : ℕ} {covered : ℕ → ℕ → ℕ} {row : ObservedReadbackRect}

theorem Columns.Inv.push (h : c.Inv maxRectangles covered) (hrow : row.Nonempty)
    (hpush : c.push maxRectangles row = some c') :
    c'.Inv maxRectangles fun x y => covered x y + Rect.covers [row] x y := by
  rw [Columns.push] at hpush
  split_ifs at hpush with hfull
  cases hpush
  constructor
  · intro x y
    rw [Rect.covers_append, h.covers]
  · intro r hr
    obtain hr | hr := mem_append.1 hr
    · exact h.nonempty r hr
    · rwa [mem_singleton.1 hr]
  · show (c.result ++ [row]).length ≤ maxRectangles
    rw [length_append, length_singleton]
    omega
  · intro key i hi
    change Function.update c.columns (row.x, row.width) (some c.result.length) key = some i at hi
    show ∃ r, (c.result ++ [row])[i]? = some r ∧ r.x = key.1 ∧ r.width = key.2
    by_cases hkey : key = (row.x, row.width)
    · subst hkey
      rw [Function.update_self] at hi
      cases hi
      exact ⟨row, by simp, rfl, rfl⟩
    · rw [Function.update_of_ne hkey] at hi
      obtain ⟨r, hr, hx, hwidth⟩ := h.columns key i hi
      refine ⟨r, ?_, hx, hwidth⟩
      rw [List.getElem?_append_left (List.getElem?_eq_some_iff.1 hr).1, hr]

/-- **Adding a row**, to the column that it continues or as a rectangle of its own. -/
theorem Columns.Inv.add (h : c.Inv maxRectangles covered) (hrow : row.Nonempty) :
    ∃ r, c.add maxRectangles row = .ret r true ∧ ∀ c', r = some c' →
      c'.Inv maxRectangles fun x y => covered x y + Rect.covers [row] x y := by
  have hbytes : ({ c with bytes := c.bytes + row.width * row.height * 4 } : Columns).Inv maxRectangles
      covered := { h with }
  rw [Columns.add]
  generalize ({ c with bytes := c.bytes + row.width * row.height * 4 } : Columns) = c at hbytes ⊢
  cases hfound : c.columns (row.x, row.width) with
  | none => exact ⟨_, rfl, fun c' hc' => hbytes.push hrow hc'⟩
  | some i =>
    obtain ⟨above, habove, hx, hwidth⟩ := hbytes.columns _ i hfound
    obtain ⟨hi, hget⟩ := List.getElem?_eq_some_iff.1 habove
    simp only [habove]
    split_ifs with hy
    · refine ⟨_, rfl, fun c' hc' => ?_⟩
      cases hc'
      have habovemem : above ∈ c.result := mem_of_getElem? habove
      have hnonempty := hbytes.nonempty above habovemem
      constructor
      · intro x y
        have hset := Rect.covers_set hi { above with height := above.height + row.height } x y
        have hjoin := Rect.covers_heighten hx hwidth hy x y
        rw [hget] at hset
        have hcovers := hbytes.covers x y
        simp only [Rect.covers_cons, Rect.covers_nil] at hjoin hset ⊢
        show Rect.covers (c.result.set i _) x y = _
        omega
      · intro r hr
        obtain hr | rfl := mem_or_eq_of_mem_set hr
        · exact hbytes.nonempty r hr
        · exact ⟨hnonempty.1, Nat.lt_of_lt_of_le hnonempty.2 (Nat.le_add_right _ _)⟩
      · show (c.result.set i _).length ≤ maxRectangles
        rw [length_set]
        exact hbytes.length
      · intro key j hj
        obtain ⟨r, hr, hrx, hrwidth⟩ := hbytes.columns key j hj
        show ∃ r, (c.result.set i _)[j]? = some r ∧ r.x = key.1 ∧ r.width = key.2
        by_cases hij : i = j
        · subst hij
          rw [habove] at hr
          cases hr
          exact ⟨_, List.getElem?_set_self hi, hrx, hrwidth⟩
        · exact ⟨r, by rw [List.getElem?_set_ne hij, hr], hrx, hrwidth⟩
    · exact ⟨_, rfl, fun c' hc' => hbytes.push hrow hc'⟩

/-- **The last loop** covers what the rows do. -/
theorem Columns.Inv.addAll {rows : List ObservedReadbackRect} (h : c.Inv maxRectangles covered)
    (hrows : ∀ r ∈ rows, r.Nonempty) :
    ∃ r, Columns.addAll maxRectangles rows c = .ret r true ∧ ∀ c', r = some c' →
      c'.Inv maxRectangles fun x y => covered x y + Rect.covers rows x y := by
  induction rows generalizing c covered with
  | nil => exact ⟨_, rfl, fun c' hc' => by cases hc'; exact h⟩
  | cons row rows ih =>
    obtain ⟨r, hrun, hinv⟩ := h.add (hrows row (mem_cons_self ..))
    rw [Columns.addAll, hrun, Exec.ret_true_bind]
    cases r with
    | none => exact ⟨none, rfl, fun c' hc' => by cases hc'⟩
    | some c₁ =>
      obtain ⟨r', hrun', hinv'⟩ := ih (hinv c₁ rfl) fun r hr => hrows r (mem_cons_of_mem _ hr)
      refine ⟨r', hrun', fun c' hc' => ?_⟩
      have heq : (fun x y => covered x y + Rect.covers (row :: rows) x y) =
          fun x y => covered x y + Rect.covers [row] x y + Rect.covers rows x y := by
        funext x y
        simp only [Rect.covers_cons, Rect.covers_nil]
        omega
      rw [heq]
      exact hinv' c' hc'

/-! ### The plan -/

/-- The tiled offset of a byte of a row, with pixels of four bytes and rows padded to so many pixels. -/
def observedOffset (rowBytes height blockHeight strideAlignment x y : ℕ) : ℕ :=
  tiledOffset 4 height blockHeight 0 (rowStride 4 (rowBytes / 4) strideAlignment) x y 0

/-- The padding of the rows, to one or two pixels, does not change the GOB of a byte. -/
theorem observedOffset_gob (hrow : rowBytes % 4 = 0) {strideAlignment : ℕ} (ha : strideAlignment ≤ 1)
    (hy : y < height) (x : ℕ) : observedOffset rowBytes height blockHeight strideAlignment x y / 512 =
      gobNumber rowBytes blockHeight x y := by
  have hwidth : rowBytes / 4 * 4 = rowBytes := by omega
  have hlayout : SameLayout 4 (rowBytes / 4) height blockHeight strideAlignment :=
    sameLayout_of_alignment _ _ _ (by
      obtain rfl | rfl : strideAlignment = 0 ∨ strideAlignment = 1 := by omega
      · exact .inl rfl
      · exact .inr ⟨rfl, by decide⟩)
  have htable := swizzleTable_lt y x
  have h1 := hlayout.tiledOffset_eq hy x
  rw [Tegra.Texture.tiledOffset_eq (by decide)] at h1
  rw [observedOffset, Tegra.Texture.tiledOffset_eq (by decide), h1, rangeOffset, hwidth]
  omega

/-- **The plan of an observed readback is exact.**  It is always computed, and when there is one it has
disjoint rectangles inside of the image, no more than allowed, and covers just the pixels of the image
in the GOBs that the ranges touch, so that no observed byte is left out. -/
theorem planObservedReadback_exact (rowBytes height blockHeight : ℕ) (ranges : List (ℕ × ℕ))
    (maxRectangles : ℕ) :
    ∃ r, planObservedReadback rowBytes height blockHeight ranges maxRectangles = .ret r true ∧
      ∀ rects, r = some rects →
        rects.length ≤ maxRectangles ∧ rects.Pairwise Rect.Disjoint ∧
        (∀ rect ∈ rects, rect.Nonempty ∧ rect.x + rect.width ≤ rowBytes / 4 ∧
          rect.y + rect.height ≤ height) ∧
        ∀ strideAlignment ≤ 1,
          (∀ x y, (∃ rect ∈ rects, rect.contains x y = true) ↔ x < rowBytes / 4 ∧ y < height ∧
            ∃ range ∈ ranges, Touches range
              (observedOffset rowBytes height blockHeight strideAlignment (4 * x) y / 512)) ∧
          ∀ x < rowBytes, ∀ y < height, (∃ range ∈ ranges,
              range.1 ≤ observedOffset rowBytes height blockHeight strideAlignment x y ∧
                observedOffset rowBytes height blockHeight strideAlignment x y < range.1 + range.2) →
            ∃ rect ∈ rects, rect.contains (x / 4) y = true := by
  rw [planObservedReadback]
  split_ifs with hbad
  · exact ⟨none, rfl, fun rects h => by cases h⟩
  have hrow : rowBytes % 4 = 0 := by omega
  cases hgobs : touchedGobs ranges [] with
  | none => exact ⟨none, rfl, fun rects h => by cases h⟩
  | some gobs =>
    obtain ⟨hnodup, hmem⟩ := sortedGobs_spec gobs
    have htouched : ∀ gob, gob ∈ sortedGobs gobs ↔ ∃ range ∈ ranges, Touches range gob := fun gob => by
      rw [hmem, mem_touchedGobs hgobs]
      simp
    obtain ⟨hmerged, hnonempty⟩ := mergedRows_spec
      ((sortedGobs gobs).filterMap (gobRect rowBytes height blockHeight)) fun r hr => by
        obtain ⟨gob, -, hrect⟩ := List.mem_filterMap.1 hr
        exact gobRect_nonempty hrect
    have hstart : (⟨[], fun _ => none, 0⟩ : Columns).Inv maxRectangles fun _ _ => 0 :=
      ⟨fun _ _ => rfl, by simp, Nat.zero_le _, fun _ _ h => by cases h⟩
    obtain ⟨r, hrun, hinv⟩ := hstart.addAll hnonempty
    simp only
    rw [hrun, Exec.ret_true_bind]
    cases r with
    | none => exact ⟨none, rfl, fun rects h => by cases h⟩
    | some c =>
      simp only
      split_ifs with hdense
      · exact ⟨none, rfl, fun rects h => by cases h⟩
      refine ⟨_, rfl, fun rects h => ?_⟩
      cases h
      have hc := hinv c rfl
      have hcovers : ∀ x y, Rect.covers c.result x y =
          if ∃ gob ∈ sortedGobs gobs, InGob rowBytes height blockHeight gob x y then 1 else 0 :=
        fun x y => by rw [hc.covers, Nat.zero_add, hmerged, covers_gobRects hrow hnodup]
      have hpixel : ∀ x y, (∃ rect ∈ c.result, rect.contains x y = true) ↔ x < rowBytes / 4 ∧ y < height ∧
          ∃ range ∈ ranges, Touches range (gobNumber rowBytes blockHeight (4 * x) y) := fun x y => by
        rw [← Rect.covers_pos, hcovers, ← htouched]
        constructor
        · intro h
          split_ifs at h with hin
          · obtain ⟨gob, hgob, hx, hy, rfl⟩ := hin
            exact ⟨hx, hy, hgob⟩
          · exact absurd h (Nat.lt_irrefl 0)
        · rintro ⟨hx, hy, hgob⟩
          rw [if_pos ⟨_, hgob, hx, hy, rfl⟩]
          exact Nat.one_pos
      refine ⟨hc.length, Rect.pairwise_disjoint fun x y => ?_, fun rect hrect => ?_, fun a ha => ⟨?_, ?_⟩⟩
      · rw [hcovers]
        split_ifs <;> omega
      · refine ⟨hc.nonempty rect hrect, (hc.nonempty rect hrect).le fun x y h => ?_⟩
        obtain ⟨hx, hy, -⟩ := (hpixel x y).1 ⟨rect, hrect, h⟩
        exact ⟨hx, hy⟩
      · intro x y
        rw [hpixel]
        refine and_congr_right fun hx => and_congr_right fun hy => ?_
        rw [observedOffset_gob hrow ha hy]
      · rintro x hx y hy ⟨range, hrange, h1, h2⟩
        rw [hpixel]
        refine ⟨by omega, hy, range, hrange, _, h1, h2, ?_⟩
        rw [observedOffset_gob hrow ha hy, gobNumber, gobNumber, show 4 * (x / 4) / 64 = x / 64 by omega]

end VideoCommon
end NXEmu
