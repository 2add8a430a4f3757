/-
# Traces

A system whose steps are seen from outside by an event or not at all.  `Traces` are its runs, from a
state with a trace of events to a state.  A run can be cut where an event was (`Traces.split`), and
what every step keeps a run keeps (`Traces.invariant`); the invariant may speak of the events since the
run began.
-/

import Mathlib

namespace NXEmu

section Trace

variable {σ α ε : Type*}

/-- The runs of a system whose steps meet a condition. -/
inductive Traces (step : σ → α → σ → Option ε → Prop) (ok : σ → α → Prop) (s : σ) : List ε → σ → Prop
  | refl : Traces step ok s [] s
  | step {trace : List ε} {m s' : σ} {e : Option ε} (a : α) (run : Traces step ok s trace m)
    (cond : ok m a) (next : step m a s' e) : Traces step ok s (trace ++ e.toList) s'

namespace Traces

variable {step : σ → α → σ → Option ε → Prop} {ok ok' : σ → α → Prop} {s m s' : σ}
  {trace trace' pre post : List ε} {e : ε}

theorem mono (h : Traces step ok s trace s') (himp : ∀ s a, ok s a → ok' s a) :
    Traces step ok' s trace s' := by
  induction h with
  | refl => exact refl
  | step a run cond next ih => exact ih.step a (himp _ a cond) next

/-- **A run is cut at an event.** -/
theorem split (h : Traces step ok s (pre ++ e :: post) s') :
    ∃ m m' a, Traces step ok s pre m ∧ ok m a ∧ step m a m' (some e) ∧ Traces step ok m' post s' := by
  generalize htrace : pre ++ e :: post = trace at h
  induction h generalizing post with
  | refl => exact absurd htrace (by simp)
  | @step trace m s' e' a run cond next ih =>
    cases e' with
    | none =>
      obtain ⟨m₁, m₂, b, hpre, hb, hnext, hpost⟩ := ih (htrace.trans (List.append_nil trace))
      exact ⟨m₁, m₂, b, hpre, hb, hnext, by simpa using hpost.step a cond next⟩
    | some e' =>
      rw [Option.toList_some] at htrace
      rcases List.eq_nil_or_concat post with rfl | ⟨post, e'', rfl⟩
      · obtain ⟨rfl, hsame⟩ := List.append_inj' htrace rfl
        obtain rfl := (List.cons.inj hsame).1
        exact ⟨m, s', a, run, cond, next, refl⟩
      · rw [List.concat_eq_append, ← List.cons_append, ← List.append_assoc] at htrace
        obtain ⟨hinit, hlast⟩ := List.append_inj' htrace rfl
        obtain rfl := (List.cons.inj hlast).1
        obtain ⟨m₁, m₂, b, hpre, hb, hnext, hpost⟩ := ih hinit
        rw [List.concat_eq_append]
        exact ⟨m₁, m₂, b, hpre, hb, hnext, hpost.step a cond next⟩

/-- **What every step keeps** a run keeps, with the events since it began. -/
theorem invariant (h : Traces step ok s trace s') (inv : List ε → σ → Prop) (hinit : inv [] s)
    (hstep : ∀ trace m a m' e, inv trace m → ok m a → step m a m' e → inv (trace ++ e.toList) m') : inv trace s' := by
  induction h with
  | refl => exact hinit
  | step a run cond next ih => exact hstep _ _ a _ _ ih cond next

end Traces

end Trace

end NXEmu
