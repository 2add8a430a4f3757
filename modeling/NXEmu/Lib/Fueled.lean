/-
# Programs that need fuel

A program with a state whose loops and recursion are given fuel, and which stops with nothing when
that is used up.  `Fueled.wp x s Q` says that from the state `s` the program `x` comes to an end and
that its value and the state it leaves satisfy `Q`, so that it also says that there was enough fuel.

`Memo` is a table of results that such a program fills while it computes them: a result is found
again, and one that is there is never replaced.  What is true of every result when it is written down
stays true of the table (`Memo.Sound`).
-/

import Mathlib.Logic.Function.Basic

namespace NXEmu

/-- Programs with a state, with nothing when their fuel is used up. -/
abbrev Fueled (σ : Type) : Type → Type := StateT σ Option

namespace Fueled

variable {σ α β : Type} {s : σ}

/-- There is no fuel left. -/
def exhausted : Fueled σ α := fun _ => none

/-- The weakest precondition of `x` for `Q`: `x` comes to an end, and its value and the state that it
leaves satisfy `Q`. -/
def wp (x : Fueled σ α) (s : σ) (Q : α → σ → Prop) : Prop :=
  ∃ a s', x s = some (a, s') ∧ Q a s'

@[simp] theorem wp_pure (a : α) (Q : α → σ → Prop) : wp (pure a) s Q ↔ Q a s := by
  constructor
  · rintro ⟨a', s', h, hQ⟩
    obtain ⟨rfl, rfl⟩ := Prod.mk.inj (Option.some.inj h)
    exact hQ
  · exact fun hQ => ⟨a, s, rfl, hQ⟩

@[simp] theorem wp_bind (x : Fueled σ α) (f : α → Fueled σ β) (Q : β → σ → Prop) :
    wp (x >>= f) s Q ↔ wp x s fun a s' => wp (f a) s' Q := by
  have hbind : (x >>= f) s = (x s).bind fun r => f r.1 r.2 := rfl
  constructor
  · rintro ⟨b, s'', h, hQ⟩
    rw [hbind] at h
    obtain ⟨⟨a, s'⟩, hx, hf⟩ := Option.bind_eq_some_iff.1 h
    exact ⟨a, s', hx, b, s'', hf, hQ⟩
  · rintro ⟨a, s', hx, b, s'', hf, hQ⟩
    exact ⟨b, s'', by rw [hbind, hx]; exact hf, hQ⟩

@[simp] theorem wp_get (Q : σ → σ → Prop) : wp (get : Fueled σ σ) s Q ↔ Q s s :=
  wp_pure (s := s) s Q

@[simp] theorem wp_modify (f : σ → σ) (Q : PUnit → σ → Prop) :
    wp (modify f : Fueled σ PUnit) s Q ↔ Q ⟨⟩ (f s) := by
  constructor
  · rintro ⟨a, s', h, hQ⟩
    obtain ⟨rfl, rfl⟩ := Prod.mk.inj (Option.some.inj h)
    exact hQ
  · exact fun hQ => ⟨⟨⟩, f s, rfl, hQ⟩

@[simp] theorem wp_lift (x : Option α) (Q : α → σ → Prop) :
    wp (StateT.lift x : Fueled σ α) s Q ↔ ∃ a, x = some a ∧ Q a s := by
  cases x with
  | none => exact ⟨fun ⟨_, _, h, _⟩ => absurd h nofun, fun ⟨_, h, _⟩ => absurd h nofun⟩
  | some a =>
    have hrun : (StateT.lift (some a) : Fueled σ α) s = some (a, s) := rfl
    constructor
    · rintro ⟨a', s', h, hQ⟩
      obtain ⟨rfl, rfl⟩ := Prod.mk.inj (Option.some.inj (hrun.symm.trans h))
      exact ⟨a, rfl, hQ⟩
    · rintro ⟨a', h, hQ⟩
      obtain rfl := Option.some.inj h
      exact ⟨a, s, hrun, hQ⟩

theorem wp_mono {x : Fueled σ α} {Q Q' : α → σ → Prop} (h : wp x s Q)
    (himp : ∀ a s', Q a s' → Q' a s') : wp x s Q' := by
  obtain ⟨a, s', hx, hQ⟩ := h
  exact ⟨a, s', hx, himp a s' hQ⟩

end Fueled

/-- A table of results. -/
abbrev Memo (κ ρ : Type) : Type := κ → Option ρ

namespace Memo

variable {κ ρ : Type} [DecidableEq κ] {good : κ → ρ → Prop} {memo : Memo κ ρ}

/-- The table without results. -/
def empty : Memo κ ρ := fun _ => none

/-- Write a result down, unless there is one. -/
def emplace (memo : Memo κ ρ) (k : κ) (r : ρ) : Memo κ ρ :=
  if memo k = none then Function.update memo k (some r) else memo

/-- Every result in the table is good. -/
def Sound (good : κ → ρ → Prop) (memo : Memo κ ρ) : Prop := ∀ k r, memo k = some r → good k r

omit [DecidableEq κ] in
theorem sound_empty : Sound good (empty : Memo κ ρ) := fun _ _ h => absurd h (Option.some_ne_none _).symm

/-- **A good result keeps the table sound.** -/
theorem Sound.emplace (h : Sound good memo) {k : κ} {r : ρ} (hr : good k r) :
    Sound good (memo.emplace k r) := by
  unfold Memo.emplace
  split
  · intro k' r' h'
    by_cases hk : k' = k
    · subst hk
      rw [Function.update_self] at h'
      exact Option.some.inj h' ▸ hr
    · rw [Function.update_of_ne hk] at h'
      exact h k' r' h'
  · exact h

end Memo

end NXEmu
