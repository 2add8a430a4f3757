/-
# Transfers between two arrays

A loop that copies the elements of one array to places of another is a list of copies, each a
destination and a source, done one after the other.  What it leaves depends only on which copies are
in the list once no destination has two sources (`transfer_congr`), and when no source has two
destinations either, the copies done the other way bring everything back (`transfer_converse_transfer`).
A place whose value comes from one source whatever the arrays hold is copied from there
(`mem_of_forall_transfer`).
-/

import Mathlib.Logic.Function.Basic
import Mathlib.Data.List.Basic
import Mathlib.Data.Nat.Notation
import Mathlib.Tactic.Common

namespace NXEmu
namespace Transfer

variable {α β γ ι : Type*} [DecidableEq α] {plan plan' : List (α × β)} {d : α} {s : β}

/-- The copies of a plan, from `input` to `output`. -/
def transfer (plan : List (α × β)) (input : β → γ) (output : α → γ) : α → γ :=
  plan.foldl (fun output copy => Function.update output copy.1 (input copy.2)) output

/-- No place has two partners. -/
def Functional (plan : List (α × β)) : Prop :=
  ∀ d s s', (d, s) ∈ plan → (d, s') ∈ plan → s = s'

/-- The plan the other way. -/
def converse (plan : List (α × β)) : List (β × α) := plan.map Prod.swap

omit [DecidableEq α] in
@[simp] theorem mem_converse : (s, d) ∈ converse plan ↔ (d, s) ∈ plan := by
  simp [converse]

variable (input : β → γ) (output : α → γ)

theorem transfer_cons (copy : α × β) : transfer (copy :: plan) input output =
    transfer plan input (Function.update output copy.1 (input copy.2)) := rfl

theorem transfer_append : transfer (plan ++ plan') input output =
    transfer plan' input (transfer plan input output) := List.foldl_append

/-- **A loop of transfers is one transfer.** -/
theorem foldl_transfer (l : List ι) (f : ι → List (α × β)) :
    l.foldl (fun output i => transfer (f i) input output) output = transfer (l.flatMap f) input output := by
  induction l generalizing output with
  | nil => rfl
  | cons i l ih => rw [List.foldl_cons, ih, List.flatMap_cons, transfer_append]

/-- What is no destination keeps its value. -/
theorem transfer_of_not_mem (h : ∀ s, (d, s) ∉ plan) :
    transfer plan input output d = output d := by
  induction plan generalizing output with
  | nil => rfl
  | cons copy plan ih =>
    have hne : d ≠ copy.1 := by
      rintro rfl
      exact h copy.2 List.mem_cons_self
    rw [transfer_cons, ih _ (fun s hs => h s (List.mem_cons_of_mem _ hs)), Function.update_of_ne hne]

/-- A destination with one source gets the value from there. -/
theorem transfer_of_mem (hs : (d, s) ∈ plan) (h : ∀ s', (d, s') ∈ plan → s' = s) :
    transfer plan input output d = input s := by
  induction plan generalizing output with
  | nil => exact absurd hs List.not_mem_nil
  | cons copy plan ih =>
    have hrest : ∀ s', (d, s') ∈ plan → s' = s := fun s' hs' => h s' (List.mem_cons_of_mem _ hs')
    rw [transfer_cons]
    by_cases hlater : (d, s) ∈ plan
    · exact ih _ hlater hrest
    · -- the copy is the first one, and none of the others goes to the same place
      have hfirst : copy = (d, s) := by
        obtain h | h := List.mem_cons.1 hs
        · exact h.symm
        · exact absurd h hlater
      rw [transfer_of_not_mem, hfirst, Function.update_self]
      intro s' hs'
      exact hlater (hrest s' hs' ▸ hs')

/-- A place that does not keep its value gets one from a source of a copy there. -/
theorem exists_mem_of_ne (h : transfer plan input output d ≠ output d) :
    ∃ s, (d, s) ∈ plan ∧ transfer plan input output d = input s := by
  induction plan generalizing output with
  | nil => exact absurd rfl h
  | cons copy plan ih =>
    rw [transfer_cons] at h ⊢
    by_cases hrest : transfer plan input (Function.update output copy.1 (input copy.2)) d =
        Function.update output copy.1 (input copy.2) d
    · have hd : d = copy.1 := by
        by_contra hne
        exact h (hrest.trans (Function.update_of_ne hne _ _))
      subst hd
      exact ⟨copy.2, List.mem_cons_self, hrest.trans (Function.update_self ..)⟩
    · obtain ⟨s, hs, he⟩ := ih _ hrest
      exact ⟨s, List.mem_cons_of_mem _ hs, he⟩

/-- **What always gets its value from one place is copied from there.** -/
theorem mem_of_forall_transfer [DecidableEq β] {a b : γ} (hab : a ≠ b)
    (h : ∀ (input : β → γ) (output : α → γ), transfer plan input output d = input s) :
    (d, s) ∈ plan := by
  have hmarked := h (fun s' => if s' = s then a else b) fun _ => b
  simp only [if_true] at hmarked
  obtain ⟨s', hs', he⟩ := exists_mem_of_ne (fun s' => if s' = s then a else b) (fun _ => b)
    (hmarked.trans_ne hab)
  by_cases hs : s' = s
  · rwa [← hs]
  · rw [hmarked, if_neg hs] at he
    exact absurd he hab

/-- Copies that find the same values elsewhere. -/
theorem transfer_map_congr {β' : Type*} (points : List ι) (place : ι → α) {source : ι → β}
    {source' : ι → β'} {input : β → γ} {input' : β' → γ} (h : ∀ p ∈ points, input (source p) = input' (source' p)) :
    transfer (points.map fun p => (place p, source p)) input output =
      transfer (points.map fun p => (place p, source' p)) input' output := by
  induction points generalizing output with
  | nil => rfl
  | cons p points ih =>
    rw [List.map_cons, List.map_cons, transfer_cons, transfer_cons, h p List.mem_cons_self]
    exact ih _ fun p hp => h p (List.mem_cons_of_mem _ hp)

/-- **Only the copies count**, not their order. -/
theorem transfer_congr (h : Functional plan) (hmem : ∀ d s, (d, s) ∈ plan ↔ (d, s) ∈ plan') :
    transfer plan input output = transfer plan' input output := by
  funext d
  by_cases hd : ∃ s, (d, s) ∈ plan
  · obtain ⟨s, hs⟩ := hd
    rw [transfer_of_mem input output hs fun s' hs' => h d s' s hs' hs]
    exact (transfer_of_mem input output ((hmem d s).1 hs)
      fun s' hs' => h d s' s ((hmem d s').2 hs') hs).symm
  · rw [transfer_of_not_mem input output fun s hs => hd ⟨s, hs⟩]
    exact (transfer_of_not_mem input output fun s hs => hd ⟨s, (hmem d s).2 hs⟩).symm

/-- **There and back**: what was copied is as it was, whatever was there before. -/
theorem transfer_converse_transfer [DecidableEq β] (h : Functional plan) (hconverse : Functional (converse plan))
    (output' : β → γ) (hs : (d, s) ∈ plan) :
    transfer (converse plan) (transfer plan input output) output' s = input s := by
  rw [transfer_of_mem _ _ (mem_converse.2 hs) fun d' hd' => hconverse s d' d hd' (mem_converse.2 hs)]
  exact transfer_of_mem input output hs fun s' hs' => h d s' s hs' hs

end Transfer
end NXEmu
