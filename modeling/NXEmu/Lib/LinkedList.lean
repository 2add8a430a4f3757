/-
# Linked lists

A list kept in a table of links.  The nodes are the elements and the root of the
list (`none`), and `Path next x l y` says that following `next` from the node
`x` goes through the elements `l` in order and arrives at the node `y`; a whole
list is a path from the root back to it.  Paths compose (`path_append`), and one
depends on the links of the nodes it leaves only (`Path.congr`), which is what
lets other links change.

A doubly linked list, `Ring`, is a path along `next` and the reverse one along
`prev`.  Linking a node in between two neighbours and linking it out again are
its two operations (`Ring.insert`, `Ring.remove`).
-/

import Mathlib.Data.List.Nodup
import Mathlib.Logic.Function.Basic
import Mathlib.Tactic.Common

namespace NXEmu

open List Option

variable {ι : Type}

/-- Following `next` from `x` goes through `l` and arrives at `y`. -/
def Path (next : Option ι → Option ι) : Option ι → List ι → Option ι → Prop
  | x, [], y => next x = y
  | x, i :: l, y => next x = some i ∧ Path next (some i) l y

/-- The node a path through `l` from `x` leaves last. -/
def lastNode (x : Option ι) (l : List ι) : Option ι := (l.getLast?.map some).getD x

variable {next next' prev : Option ι → Option ι} {x x' y y' : Option ι} {i j : ι}
  {l l₁ l₂ : List ι}

@[simp] theorem path_cons : Path next x (i :: l) y ↔ next x = some i ∧ Path next (some i) l y :=
  Iff.rfl

@[simp] theorem lastNode_nil : lastNode x [] = x := rfl

@[simp] theorem lastNode_concat : lastNode x (l ++ [i]) = some i := by
  simp [lastNode]

theorem lastNode_cons : lastNode x (i :: l) = lastNode (some i) l := by
  rw [lastNode, lastNode, getLast?_cons]
  cases l.getLast? <;> rfl

/-- A node the path leaves is the first one or one of the elements. -/
theorem lastNode_mem : lastNode x l = x ∧ l = [] ∨ ∃ i ∈ l, lastNode x l = some i := by
  rcases eq_nil_or_concat l with rfl | ⟨l, i, rfl⟩
  · exact Or.inl ⟨rfl, rfl⟩
  · rw [concat_eq_append]
    exact Or.inr ⟨i, mem_append_right l mem_cons_self, lastNode_concat⟩

theorem mem_of_lastNode (h : lastNode none l = some i) : i ∈ l := by
  rcases lastNode_mem (x := (none : Option ι)) (l := l) with ⟨h', -⟩ | ⟨j, hj, h'⟩
  · rw [h'] at h
    cases h
  · rw [h', Option.some.injEq] at h
    exact h ▸ hj

theorem lastNode_eq_none : lastNode none l = none ↔ l = [] := by
  constructor
  · intro h
    rcases lastNode_mem (x := (none : Option ι)) (l := l) with ⟨-, h'⟩ | ⟨j, -, h'⟩
    · exact h'
    · rw [h'] at h
      cases h
  · rintro rfl
    rfl

/-- **Paths compose.** -/
theorem path_append : Path next x (l₁ ++ i :: l₂) y ↔ Path next x l₁ (some i) ∧ Path next (some i) l₂ y := by
  induction l₁ generalizing x with
  | nil => rfl
  | cons j l₁ ih => simp only [cons_append, path_cons, ih, and_assoc]

/-- A path depends on the links of the nodes it leaves only. -/
theorem Path.congr (h : Path next x l y) (hx : next' x' = next x)
    (hl : ∀ i ∈ l, next' (some i) = next (some i)) : Path next' x' l y := by
  induction l generalizing x x' with
  | nil => exact hx.trans h
  | cons i l ih =>
    exact ⟨hx.trans h.1, ih h.2 (hl i mem_cons_self) fun j hj =>
      hl j (mem_cons_of_mem i hj)⟩

/-- The last node a path leaves links to where the path arrives. -/
theorem Path.next_lastNode (h : Path next x l y) : next (lastNode x l) = y := by
  induction l generalizing x with
  | nil => exact h
  | cons i l ih =>
    rw [lastNode_cons]
    exact ih h.2

section Update

variable [DecidableEq ι]

/-- Changing the link of a node a path does not leave. -/
theorem Path.update (h : Path next x l y) {z : Option ι} (hx : x ≠ z) (hl : ∀ i ∈ l, some i ≠ z)
    (w : Option ι) : Path (Function.update next z w) x l y :=
  h.congr (Function.update_of_ne hx ..) fun i hi => Function.update_of_ne (hl i hi) ..

/-- Changing the link of the last node a path leaves takes it somewhere else. -/
theorem Path.update_lastNode (h : Path next x l y) (hx : ∀ i ∈ l, some i ≠ x) (hl : l.Nodup)
    (w : Option ι) : Path (Function.update next (lastNode x l) w) x l w := by
  induction l generalizing x with
  | nil => exact Function.update_self ..
  | cons i l ih =>
    obtain ⟨hi, hl⟩ := nodup_cons.1 hl
    have hne : x ≠ lastNode x (i :: l) := by
      rcases lastNode_mem (x := x) (l := i :: l) with ⟨-, h⟩ | ⟨j, hj, h⟩
      · cases h
      · rw [h]
        exact (hx j hj).symm
    refine ⟨(Function.update_of_ne hne ..).trans h.1, ?_⟩
    rw [lastNode_cons]
    exact ih h.2 (fun j hj hji => hi (Option.some.inj hji ▸ hj)) hl

end Update

/-! ### Doubly linked lists -/

/-- `l` is linked from the root and back to it, along `next` and in reverse along
`prev`. -/
structure Ring (next prev : Option ι → Option ι) (l : List ι) : Prop where
  forward : Path next none l none
  backward : Path prev none l.reverse none
  nodup : l.Nodup

namespace Ring

/-- A list read backwards. -/
theorem symm (h : Ring next prev l) : Ring prev next l.reverse :=
  ⟨h.backward, by rw [reverse_reverse]; exact h.forward, nodup_reverse.2 h.nodup⟩

/-- The node before an element. -/
theorem prev_eq (h : Ring next prev (l₁ ++ i :: l₂)) : prev (some i) = lastNode none l₁ := by
  have hb := h.backward
  rw [reverse_append, reverse_cons, append_assoc, singleton_append, path_append] at hb
  rcases eq_nil_or_concat l₁ with rfl | ⟨l₁, j, rfl⟩
  · exact hb.2
  · rw [concat_eq_append, reverse_append] at hb
    rw [concat_eq_append, lastNode_concat]
    exact hb.2.1

/-- The last element, or the root of an empty list. -/
theorem prev_none (h : Ring next prev l) : prev none = lastNode none l := by
  have hb := h.backward
  rcases eq_nil_or_concat l with rfl | ⟨l, j, rfl⟩
  · exact hb
  · rw [concat_eq_append, reverse_append] at hb
    rw [concat_eq_append, lastNode_concat]
    exact hb.1

/-- The first element. -/
theorem next_none (h : Ring next prev l) : next none = l.head? := by
  have hf := h.forward
  cases l with
  | nil => exact hf
  | cons j l => exact hf.1

/-- The element after another one. -/
theorem next_eq (h : Ring next prev (l₁ ++ i :: l₂)) : next (some i) = l₂.head? := by
  have hf := (path_append.1 h.forward).2
  cases l₂ with
  | nil => exact hf
  | cons j l₂ => exact hf.1

theorem congr {next' prev' : Option ι → Option ι} (h : Ring next prev l)
    (hn : next' none = next none ∧ ∀ i ∈ l, next' (some i) = next (some i))
    (hp : prev' none = prev none ∧ ∀ i ∈ l, prev' (some i) = prev (some i)) :
    Ring next' prev' l :=
  ⟨h.forward.congr hn.1 hn.2, h.backward.congr hp.1 fun i hi => hp.2 i (mem_reverse.1 hi), h.nodup⟩

/-- The node after `l₁` in a list is the one the rest starts with. -/
theorem next_lastNode (h : Ring next prev (l₁ ++ l₂)) :
    next (lastNode none l₁) = lastNode none l₂.reverse := by
  have hf := h.forward
  cases l₂ with
  | nil =>
    rw [append_nil] at hf
    exact hf.next_lastNode
  | cons j l₂ =>
    rw [(path_append.1 hf).1.next_lastNode, reverse_cons, lastNode_concat]

variable [DecidableEq ι]

/-- The forward half of linking `i` in behind `l₁`. -/
theorem insert_forward (h : Path next none (l₁ ++ l₂) none) (hn : (l₁ ++ l₂).Nodup)
    (hi : i ∉ l₁ ++ l₂) {z : Option ι} (hz : next (lastNode none l₁) = z) :
    Path (Function.update (Function.update next (some i) z) (lastNode none l₁) (some i)) none
      (l₁ ++ i :: l₂) none := by
  have hn₁ := (nodup_append.1 hn).1
  have hlast : some i ≠ lastNode none l₁ := by
    rcases lastNode_mem (x := (none : Option ι)) (l := l₁) with ⟨h, -⟩ | ⟨j, hj, h⟩
    · rw [h]
      exact some_ne_none i
    · rw [h]
      exact fun hij => hi (mem_append_left l₂ (Option.some.inj hij ▸ hj))
  have hi₁ : ∀ j ∈ l₁, some j ≠ some i := fun j hj hji =>
    hi (mem_append_left l₂ (Option.some.inj hji ▸ hj))
  have hi₂ : ∀ j ∈ l₂, some j ≠ some i := fun j hj hji =>
    hi (mem_append_right l₁ (Option.some.inj hji ▸ hj))
  have hlast₂ : ∀ j ∈ l₂, some j ≠ lastNode none l₁ := by
    intro j hj
    rcases lastNode_mem (x := (none : Option ι)) (l := l₁) with ⟨h, -⟩ | ⟨k, hk, h⟩
    · rw [h]
      exact some_ne_none j
    · rw [h]
      exact fun hjk => disjoint_of_nodup_append hn hk (Option.some.inj hjk ▸ hj)
  have hlink : Function.update (Function.update next (some i) z) (lastNode none l₁) (some i)
      (some i) = z := by
    rw [Function.update_of_ne hlast, Function.update_self]
  cases l₂ with
  | nil =>
    rw [append_nil] at h
    have hz' : z = none := hz.symm.trans h.next_lastNode
    refine path_append.2 ⟨?_, hlink.trans hz'⟩
    exact (h.update (some_ne_none i).symm hi₁ z).update_lastNode
      (fun _ _ => some_ne_none _) hn₁ _
  | cons j l₂ =>
    obtain ⟨h₁, h₂⟩ := path_append.1 h
    have hz' : z = some j := hz.symm.trans h₁.next_lastNode
    refine path_append.2 ⟨?_, hlink.trans hz', ?_⟩
    · exact (h₁.update (some_ne_none i).symm hi₁ z).update_lastNode
        (fun _ _ => some_ne_none _) hn₁ _
    · exact (h₂.update (hi₂ j mem_cons_self) (fun k hk => hi₂ k (mem_cons_of_mem j hk))
        z).update (hlast₂ j mem_cons_self) (fun k hk => hlast₂ k (mem_cons_of_mem j hk)) _

/-- **Linking a node in** between `l₁` and `l₂`. -/
theorem insert (h : Ring next prev (l₁ ++ l₂)) (hi : i ∉ l₁ ++ l₂) :
    Ring (Function.update (Function.update next (some i) (lastNode none l₂.reverse)) (lastNode none l₁) (some i))
      (Function.update (Function.update prev (some i) (lastNode none l₁)) (lastNode none l₂.reverse) (some i))
      (l₁ ++ i :: l₂) := by
  have hs := h.symm
  rw [reverse_append] at hs
  refine ⟨insert_forward h.forward h.nodup hi h.next_lastNode, ?_, ?_⟩
  · have hz := hs.next_lastNode
    rw [reverse_reverse] at hz
    rw [reverse_append, reverse_cons, append_assoc, singleton_append]
    refine insert_forward hs.forward hs.nodup (fun hi' => hi ?_) hz
    rwa [← reverse_append, mem_reverse] at hi'
  · exact nodup_middle.2 (nodup_cons.2 ⟨hi, h.nodup⟩)

/-- The forward half of linking `i` out. -/
theorem remove_forward (h : Path next none (l₁ ++ i :: l₂) none) (hn : (l₁ ++ i :: l₂).Nodup) :
    Path (Function.update next (lastNode none l₁) (next (some i))) none (l₁ ++ l₂) none := by
  obtain ⟨h₁, h₂⟩ := path_append.1 h
  have hn₁ := (nodup_append.1 hn).1
  have hlast₂ : ∀ j ∈ i :: l₂, some j ≠ lastNode none l₁ := by
    intro j hj
    rcases lastNode_mem (x := (none : Option ι)) (l := l₁) with ⟨h, -⟩ | ⟨k, hk, h⟩
    · rw [h]
      exact some_ne_none j
    · rw [h]
      exact fun hjk => disjoint_of_nodup_append hn hk (Option.some.inj hjk ▸ hj)
  have hupd := h₁.update_lastNode (fun _ _ => some_ne_none _) hn₁ (next (some i))
  cases l₂ with
  | nil =>
    rw [append_nil]
    rwa [show next (some i) = none from h₂] at hupd ⊢
  | cons j l₂ =>
    rw [path_cons] at h₂
    refine path_append.2 ⟨?_, ?_⟩
    · rwa [h₂.1] at hupd ⊢
    · exact h₂.2.update (hlast₂ j (mem_cons_of_mem i mem_cons_self))
        (fun k hk => hlast₂ k (mem_cons_of_mem i (mem_cons_of_mem j hk))) _

/-- **Linking an element out.** -/
theorem remove (h : Ring next prev (l₁ ++ i :: l₂)) :
    Ring (Function.update next (prev (some i)) (next (some i)))
      (Function.update prev (next (some i)) (prev (some i))) (l₁ ++ l₂) := by
  have hs := h.symm
  rw [reverse_append, reverse_cons, append_assoc, singleton_append] at hs
  refine ⟨?_, ?_, (nodup_cons.1 (nodup_middle.1 h.nodup)).2⟩
  · rw [h.prev_eq]
    exact remove_forward h.forward h.nodup
  · rw [hs.prev_eq, reverse_append]
    exact remove_forward hs.forward hs.nodup

end Ring
end NXEmu
