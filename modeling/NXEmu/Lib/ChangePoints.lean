/-
# Change points

A piecewise constant function on ordered keys is kept as the list of the keys where it changes, each
with the value from there on, and the value before all of them.  `valueAt` is the function a list
stands for, and it is `Reduced` when it names no key where nothing changes.  A list whose keys are
below a key may be put before one whose keys are not (`valueAt_append`, `valueAt_of_lt`), and so may
the function be changed on an interval by replacing the change points inside it.
-/

import NXEmu.Lib.OrderedMap

namespace NXEmu
namespace ChangePoints

variable {K V : Type} {d v : V} {k x : K} {e : K × V} {es l r : List (K × V)}

/-- The value behind all change points. -/
def lastValue (d : V) : List (K × V) → V
  | [] => d
  | e :: es => lastValue e.2 es

/-- Every change point changes the value. -/
def Reduced (d : V) : List (K × V) → Prop
  | [] => True
  | e :: es => e.2 ≠ d ∧ Reduced e.2 es

@[simp] theorem lastValue_nil : lastValue d ([] : List (K × V)) = d := rfl

@[simp] theorem lastValue_cons : lastValue d (e :: es) = lastValue e.2 es := rfl

@[simp] theorem lastValue_append : lastValue d (l ++ r) = lastValue (lastValue d l) r := by
  induction l generalizing d with
  | nil => rfl
  | cons e l ih => exact ih

theorem lastValue_of_getLast? (h : es.getLast? = some e) : lastValue d es = e.2 := by
  obtain ⟨es, rfl⟩ := List.getLast?_eq_some_iff.1 h
  rw [lastValue_append, lastValue_cons, lastValue_nil]

theorem exists_last (e : K × V) (es : List (K × V)) : ∃ l k, e :: es = l ++ [(k, lastValue e.2 es)] := by
  induction es generalizing e with
  | nil => exact ⟨[], e.1, rfl⟩
  | cons e' es ih =>
    obtain ⟨l, k, hl⟩ := ih e'
    exact ⟨e :: l, k, congrArg (e :: ·) hl⟩

@[simp] theorem reduced_nil : Reduced d ([] : List (K × V)) := trivial

@[simp] theorem reduced_cons : Reduced d (e :: es) ↔ e.2 ≠ d ∧ Reduced e.2 es := Iff.rfl

@[simp] theorem reduced_append : Reduced d (l ++ r) ↔ Reduced d l ∧ Reduced (lastValue d l) r := by
  induction l generalizing d with
  | nil => exact (and_iff_right trivial).symm
  | cons e l ih => rw [List.cons_append, Reduced, Reduced, ih, lastValue_cons, and_assoc]

/-- Reduced behind an entry means that neighbouring entries have different values. -/
theorem isChain_iff_reduced : (e :: es).IsChain (fun e e' => e.2 ≠ e'.2) ↔ Reduced e.2 es := by
  induction es generalizing e with
  | nil => exact iff_of_true (List.IsChain.singleton _) trivial
  | cons e' es ih => rw [List.isChain_cons_cons, ih, Reduced, ne_comm]

variable [LinearOrder K]

/-- The value at a key. -/
def valueAt (d : V) : List (K × V) → K → V
  | [], _ => d
  | e :: es, x => if e.1 ≤ x then valueAt e.2 es x else d

/-- Keys that are passed leave the value behind them. -/
theorem valueAt_append (h : ∀ e ∈ l, e.1 ≤ x) : valueAt d (l ++ r) x = valueAt (lastValue d l) r x := by
  induction l generalizing d with
  | nil => rfl
  | cons e l ih =>
    obtain ⟨he, hl⟩ := List.forall_mem_cons.1 h
    rw [List.cons_append, valueAt, if_pos he, ih hl, lastValue_cons]

/-- Keys that are not reached do not matter. -/
theorem valueAt_of_lt (h : ∀ e ∈ r, x < e.1) : valueAt d r x = d := by
  cases r with
  | nil => rfl
  | cons e r => rw [valueAt, if_neg (h e List.mem_cons_self).not_ge]

theorem valueAt_append_of_lt (hl : ∀ e ∈ l, e.1 ≤ x) (hr : ∀ e ∈ r, x < e.1) :
    valueAt d (l ++ r) x = lastValue d l := by
  rw [valueAt_append hl, valueAt_of_lt hr]

theorem valueAt_congr_of_lt {r' : List (K × V)} (hr : ∀ e ∈ r, x < e.1) (hr' : ∀ e ∈ r', x < e.1) :
    valueAt d (l ++ r) x = valueAt d (l ++ r') x := by
  induction l generalizing d with
  | nil => rw [List.nil_append, List.nil_append, valueAt_of_lt hr, valueAt_of_lt hr']
  | cons e l ih => rw [List.cons_append, List.cons_append, valueAt, valueAt, ih]

end ChangePoints
end NXEmu
