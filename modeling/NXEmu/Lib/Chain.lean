/-
# Chains of a partial function

Links that lead from one thing to at most one other, as a partial function `next`.
`Chain next x k y` says that the links lead from `x` to `y` in `k` steps.  A chain that comes to an
end does so in one place and after one number of steps (`Chain.unique`), and so it never comes twice
to the same place: it is no longer than there are places with a link (`Chain.length_le_card`).
-/

import Mathlib.Order.Interval.Finset.Nat

namespace NXEmu

/-- The links of `next` lead from one place to another in so many steps. -/
inductive Chain {α : Type} (next : α → Option α) : α → ℕ → α → Prop
  | refl (x : α) : Chain next x 0 x
  | step {x y z : α} {k : ℕ} : next x = some y → Chain next y k z → Chain next x (k + 1) z

namespace Chain

variable {α : Type} {next : α → Option α} {x y z : α} {k l : ℕ}

/-- **A chain comes to one end**, after one number of steps. -/
theorem unique (h : Chain next x k y) (hy : next y = none) (h' : Chain next x l z)
    (hz : next z = none) : k = l ∧ y = z := by
  induction h generalizing l with
  | refl x =>
    cases h' with
    | refl => exact ⟨rfl, rfl⟩
    | step hx _ => simp [hy] at hx
  | step hx _ ih =>
    cases h' with
    | refl => simp [hz] at hx
    | step hx' h' =>
      rw [hx, Option.some.injEq] at hx'
      subst hx'
      obtain ⟨rfl, rfl⟩ := ih hy h'
      exact ⟨rfl, rfl⟩

/-- A chain passes a place from which as many steps are left as one likes. -/
theorem exists_left (h : Chain next x k y) (hl : l ≤ k) : ∃ z, Chain next z l y := by
  induction h with
  | refl x => exact ⟨x, by rw [Nat.le_zero.1 hl]; exact refl x⟩
  | @step x _ y k hx hxy ih =>
    rcases Nat.of_le_succ hl with hlk | rfl
    · exact ih hlk
    · exact ⟨x, step hx hxy⟩

/-- The place from which a chain has steps left is one with a link. -/
theorem exists_next (h : Chain next x (k + 1) y) : ∃ z, next x = some z := by
  cases h with
  | step hx _ => exact ⟨_, hx⟩

/-- **A chain that comes to an end is no longer than there are places with a link.** -/
theorem length_le_card (s : Finset α) (hs : ∀ x y, next x = some y → x ∈ s)
    (h : Chain next x k y) (hy : next y = none) : k ≤ s.card := by
  choose f hf using fun l : Fin k => h.exists_left (Nat.succ_le_of_lt l.isLt)
  have hinj : Function.Injective f := by
    intro a b hab
    have := ((hf a).unique hy (hab ▸ hf b) hy).1
    exact Fin.ext (Nat.succ.inj this)
  have hmem : ∀ a, f a ∈ s := fun a => (hf a).exists_next.elim fun z hz => hs _ z hz
  have hcard := Finset.card_le_card_of_injOn (s := Finset.univ) f (fun a _ => hmem a)
    hinj.injOn
  rwa [Finset.card_univ, Fintype.card_fin] at hcard

end Chain
end NXEmu
