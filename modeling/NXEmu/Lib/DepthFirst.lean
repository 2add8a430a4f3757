/-
# Depth-first search with a stack of pending nodes

An iterative search keeps the nodes it still has to visit on a stack, some of them several times.
The nodes that it has entered and not left form a path, and each of them has its remaining
successors above it on the stack (`PendingStack`).  The nodes it has left are in an order in which
each comes after its successors (`Ordered`), so that there is no cycle among them.
-/

import Mathlib

namespace NXEmu.DepthFirst

open List

variable {α : Type} {edge : α → α → Prop} {left left' : α → Prop} {u v x : α}
  {stack path order pushed : List α}

/-- A stack of pending nodes, with the path of the nodes that were entered and not left, the last of
them first.  Below the first node of the path there may be anything. -/
inductive PendingStack (edge : α → α → Prop) (left : α → Prop) : List α → List α → Prop
  | stale (stack : List α) : PendingStack edge left stack []
  | enter {u : α} {stack path pushed : List α} : PendingStack edge left (u :: stack) path →
      u ∉ path → (∀ v ∈ pushed, edge u v) → (∀ v ∈ pushed, v ∉ u :: path) →
      (∀ v, edge u v → left v ∨ v ∈ pushed) →
      PendingStack edge left (pushed ++ u :: stack) (u :: path)

namespace PendingStack

theorem mono (h : PendingStack edge left stack path) (hleft : ∀ v, left v → left' v) :
    PendingStack edge left' stack path := by
  induction h with
  | stale stack => exact .stale stack
  | enter _ hnew hpushed hfresh hall ih =>
      exact .enter ih hnew hpushed hfresh fun v hv => (hall v hv).imp_left (hleft v)

/-- An empty stack has no path. -/
theorem path_of_nil (h : PendingStack edge left [] path) : path = [] := by
  generalize hstack : ([] : List α) = whole at h
  cases h with
  | stale => exact hstack
  | enter => simp at hstack

section

variable (h : PendingStack edge left (x :: stack) path)

include h

/-- A node on top that was left is popped. -/
theorem pop (hx : x ∉ path) (hleft : left x) :
    PendingStack edge left stack path := by
  generalize htop : x :: stack = whole at h
  cases h with
  | stale => exact .stale stack
  | @enter u rest path pushed hbelow hnew hpushed hfresh hall =>
      cases pushed with
      | nil =>
          obtain ⟨rfl, rfl⟩ := cons.inj htop
          exact absurd mem_cons_self hx
      | cons y pushed =>
          obtain ⟨rfl, rfl⟩ := cons.inj htop
          refine .enter hbelow hnew (fun v hv => hpushed v (mem_cons_of_mem x hv))
            (fun v hv => hfresh v (mem_cons_of_mem x hv)) fun v hv => ?_
          rcases hall v hv with hdone | hmem
          · exact .inl hdone
          · rcases mem_cons.1 hmem with rfl | hmem
            · exact .inl hleft
            · exact .inr hmem

/-- A node on top that is on the path is the last of the path, and all its successors were left. -/
theorem finish (hx : x ∈ path) :
    (∀ v, edge x v → left v) ∧ ∃ path', path = x :: path' ∧ x ∉ path' ∧
      PendingStack edge left (x :: stack) path' := by
  generalize htop : x :: stack = whole at h
  cases h with
  | stale => cases hx
  | @enter u rest path pushed hbelow hnew hpushed hfresh hall =>
      cases pushed with
      | nil =>
          obtain ⟨rfl, rfl⟩ := cons.inj htop
          refine ⟨fun v hv => ?_, path, rfl, hnew, hbelow⟩
          rcases hall v hv with hdone | hmem
          · exact hdone
          · cases hmem
      | cons y pushed =>
          obtain ⟨rfl, rfl⟩ := cons.inj htop
          exact absurd hx (hfresh x mem_cons_self)

/-- **Every node of the path leads to the node on top of the stack.** -/
theorem reaches (hx : x ∉ path) :
    ∀ v ∈ path, Relation.TransGen edge v x := by
  generalize htop : x :: stack = whole at h
  induction h generalizing x stack with
  | stale => exact fun v hv => by cases hv
  | @enter u rest path pushed hbelow hnew hpushed hfresh hall ih =>
      cases pushed with
      | nil =>
          obtain ⟨rfl, rfl⟩ := cons.inj htop
          exact absurd mem_cons_self hx
      | cons y pushed =>
          obtain ⟨rfl, rfl⟩ := cons.inj htop
          have hstep : edge u x := hpushed x mem_cons_self
          intro v hv
          rcases mem_cons.1 hv with rfl | hv
          · exact .single hstep
          · exact (ih hnew rfl v hv).tail hstep

end

end PendingStack

/-- Every node of the list comes after all its successors. -/
inductive Ordered (edge : α → α → Prop) : List α → Prop
  | nil : Ordered edge []
  | concat {order : List α} {u : α} : Ordered edge order → u ∉ order → (∀ v, edge u v → v ∈ order) →
      Ordered edge (order ++ [u])

namespace Ordered

theorem nodup (h : Ordered edge order) : order.Nodup := by
  induction h with
  | nil => exact nodup_nil
  | concat _ hnew _ ih =>
      rw [nodup_append]
      refine ⟨ih, nodup_singleton _, fun x hx y hy => ?_⟩
      rw [mem_singleton.1 hy]
      exact fun heq => hnew (heq ▸ hx)

/-- A successor of a node of the list stands before it. -/
theorem exists_split (h : Ordered edge order) (hu : u ∈ order) (huv : edge u v) :
    ∃ before after, order = before ++ after ∧ v ∈ before ∧ u ∈ after := by
  induction h with
  | nil => cases hu
  | @concat order w _ hnew hsucc ih =>
      rcases mem_append.1 hu with hold | hlast
      · obtain ⟨before, after, rfl, hv, hu⟩ := ih hold
        exact ⟨before, after ++ [w], append_assoc .., hv, mem_append_left _ hu⟩
      · rw [mem_singleton.1 hlast] at huv ⊢
        exact ⟨order, [w], rfl, hsucc v huv, mem_singleton_self w⟩

/-- **There is no cycle among the nodes of the list.** -/
theorem acyclic (h : Ordered edge order) (hu : u ∈ order) : ¬ Relation.TransGen edge u u := by
  -- every node that a node of a list in order leads to stands before it
  have hbefore : ∀ {order : List α}, Ordered edge order → ∀ {x y}, Relation.TransGen edge x y →
      x ∈ order → y ∈ order := by
    intro order h x y hxy hx
    induction hxy with
    | single hstep =>
        obtain ⟨before, after, rfl, hv, -⟩ := h.exists_split hx hstep
        exact mem_append_left _ hv
    | tail _ hstep ih =>
        obtain ⟨before, after, rfl, hv, -⟩ := h.exists_split ih hstep
        exact mem_append_left _ hv
  induction h with
  | nil => cases hu
  | @concat order w horder hnew hsucc ih =>
      rcases mem_append.1 hu with hold | hlast
      · exact ih hold
      · rw [mem_singleton.1 hlast]
        intro hcycle
        obtain ⟨x, hfirst, hrest⟩ := Relation.TransGen.head'_iff.1 hcycle
        rcases Relation.reflTransGen_iff_eq_or_transGen.1 hrest with rfl | hrest
        · exact hnew (hsucc _ hfirst)
        · exact hnew (hbefore horder hrest (hsucc x hfirst))

end Ordered
end NXEmu.DepthFirst
