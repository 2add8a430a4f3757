/-
# What is live after a list of events

Some events mark a thing and some clear it again.  The thing is live after a list of events when one of them marked
it and none of those behind cleared it (`Live`).  An event at the end of the list makes it live, or leaves it live
(`live_concat`).
-/

import Mathlib.Data.List.Basic
import Mathlib.Tactic.Common

namespace NXEmu

/-- An event marked the thing, and none behind cleared it. -/
def Live {α : Type} (marks clears : α → Prop) (events : List α) : Prop :=
  ∃ before event after, events = before ++ event :: after ∧ marks event ∧ ∀ event' ∈ after, ¬clears event'

namespace Live

variable {α β : Type} {marks clears : α → Prop} {events : List α} {event : α}

@[simp] theorem live_nil : ¬Live marks clears [] := by simp [Live]

/-- **One event more.** -/
theorem live_concat : Live marks clears (events ++ [event]) ↔
    marks event ∨ Live marks clears events ∧ ¬clears event := by
  constructor
  · rintro ⟨before, e, after, heq, hmarks, hclears⟩
    rcases after.eq_nil_or_concat with rfl | ⟨after, last, rfl⟩
    · rw [List.append_singleton_inj] at heq
      obtain ⟨-, rfl⟩ := heq
      exact .inl hmarks
    · rw [List.concat_eq_append, ← List.cons_append, ← List.append_assoc, List.append_singleton_inj] at heq
      obtain ⟨rfl, rfl⟩ := heq
      exact .inr ⟨⟨before, e, after, rfl, hmarks, fun e' hmem => hclears e' (by simp [hmem])⟩,
        hclears event (by simp)⟩
  · rintro (hmarks | ⟨⟨before, e, after, rfl, hmarks, hclears⟩, hnot⟩)
    · exact ⟨events, event, [], rfl, hmarks, by simp⟩
    · refine ⟨before, e, after ++ [event], by simp, hmarks, fun e' hmem => ?_⟩
      rcases List.mem_append.1 hmem with hold | hnew
      · exact hclears e' hold
      · rwa [List.mem_singleton.1 hnew]

/-- Without events that clear, what was marked is live. -/
theorem live_of_not_clears (h : ∀ event ∈ events, ¬clears event) :
    Live marks clears events ↔ ∃ event ∈ events, marks event := by
  constructor
  · rintro ⟨before, e, after, rfl, hmarks, -⟩
    exact ⟨e, by simp, hmarks⟩
  · rintro ⟨e, hmem, hmarks⟩
    obtain ⟨before, after, rfl⟩ := List.append_of_mem hmem
    exact ⟨before, e, after, rfl, hmarks, fun e' hmem' => h e' (by simp [hmem'])⟩

end Live
end NXEmu
