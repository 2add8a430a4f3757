/-
# Traversals without marks

A traversal that follows the links of a graph and does not mark what it has seen comes to an end at
the nodes from which the links lead on only for so long, the accessible ones.  Where only finitely
many nodes are reached, these are the nodes from which no cycle is reached (`acc_iff_acyclic`).
-/

import Mathlib.Data.Fintype.EquivFin
import Mathlib.Data.Set.Finite.Basic
import Mathlib.Logic.Relation
import Mathlib.Order.WellFounded

namespace NXEmu

variable {α : Type} {r : α → α → Prop} {x y : α}

/-- An accessible node is on no cycle. -/
theorem not_cycle_of_acc (h : Acc (flip r) x) : ¬ Relation.TransGen r x x := by
  have hacc : Acc (Relation.TransGen (flip r)) x := h.transGen
  induction hacc with
  | intro x _ ih =>
    intro hcycle
    have hback : Relation.TransGen (flip r) x x := Relation.transGen_swap.2 hcycle
    exact ih x hback h hcycle

theorem acc_of_reflTransGen (h : Acc (flip r) x) (hxy : Relation.ReflTransGen r x y) :
    Acc (flip r) y := by
  induction hxy with
  | refl => exact h
  | tail _ hyz ih => exact ih.inv hyz

/-- **The links lead on only for so long** from a node from which finitely many nodes and no cycle
are reached. -/
theorem acc_iff_acyclic (hfin : {y | Relation.ReflTransGen r x y}.Finite) :
    Acc (flip r) x ↔ ∀ y, Relation.ReflTransGen r x y → ¬ Relation.TransGen r y y := by
  constructor
  · exact fun h y hy => not_cycle_of_acc (acc_of_reflTransGen h hy)
  · intro h
    let Reached := {y // Relation.ReflTransGen r x y}
    have : Finite Reached := hfin
    let step : Reached → Reached → Prop := fun a b => Relation.TransGen r b a
    have : IsTrans Reached step := ⟨fun _ _ _ hab hbc => hbc.trans hab⟩
    have : Std.Irrefl step := ⟨fun a ha => h a a.2 ha⟩
    have hwf : WellFounded step := Finite.wellFounded_of_trans_of_irrefl step
    suffices hacc : ∀ a : Reached, Acc (flip r) a.1 from hacc ⟨x, .refl⟩
    intro a
    induction a using hwf.induction with
    | _ a ih => exact Acc.intro a.1 fun b hab => ih ⟨b, a.2.tail hab⟩ (.single hab)

end NXEmu
