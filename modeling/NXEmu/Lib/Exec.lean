/-
# Executions that may fault and that log failed assertions

A routine of a program with assertions can end in two bad ways that have to be
told apart.  It can fault: read through a null pointer or past an array, after
which nothing is known.  Or one of its assertions can fail, which is logged and
does not stop it.  `Exec α` is the value such a routine returns together with
the flag saying whether every assertion on the way held, or nothing at all when
it faulted.

`Exec.wp x Q` says that `x` returns and that its value and its flag satisfy `Q`.
Its rules compute the weakest precondition of a routine written in `do`
notation from those of its parts.
-/

import Mathlib.Tactic.Common
import Mathlib.Data.Nat.Notation
import Mathlib.Algebra.Group.Nat.Defs

namespace NXEmu

/-- What running a routine leaves: nothing after a fault, and otherwise its value
with `held = true` when every assertion on the way held. -/
inductive Exec (α : Type) where
  | fault
  | ret (value : α) (held : Bool)
deriving DecidableEq

namespace Exec

variable {α β : Type}

/-- An assertion: its failure is recorded and the routine goes on. -/
def assert (p : Prop) [Decidable p] : Exec Unit := ret () (decide p)

/-- Run `x`, then `f` on its value. -/
def bind (x : Exec α) (f : α → Exec β) : Exec β :=
  match x with
  | fault => fault
  | ret a held =>
    match f a with
    | fault => fault
    | ret b held' => ret b (held && held')

instance : Monad Exec where
  pure a := ret a true
  bind := bind

/-- The weakest precondition of `x` for `Q`: `x` does not fault, and `Q` holds of
its value and of the flag of its assertions. -/
def wp (x : Exec α) (Q : α → Bool → Prop) : Prop := ∃ a held, x = ret a held ∧ Q a held

@[simp] theorem pure_eq (a : α) : (pure a : Exec α) = ret a true := rfl

@[simp] theorem fault_bind (f : α → Exec β) : (fault >>= f) = fault := rfl

@[simp] theorem ret_true_bind (a : α) (f : α → Exec β) : (ret a true >>= f) = f a := by
  show bind (ret a true) f = f a
  cases hf : f a <;> simp [bind, hf]

theorem bind_assoc_eq {γ : Type} (x : Exec α) (f : α → Exec β) (g : β → Exec γ) :
    bind (bind x f) g = bind x fun a => bind (f a) g := by
  cases x with
  | fault => rfl
  | ret a held =>
    cases hf : f a with
    | fault => simp [bind, hf]
    | ret b held' => cases hg : g b <;> simp [bind, hf, hg, Bool.and_assoc]

instance : LawfulMonad Exec :=
  LawfulMonad.mk' Exec (fun x => by cases x <;> simp [Functor.map, bind]) ret_true_bind bind_assoc_eq

/-- A value returned after an assertion carries the flag of that. -/
theorem ret_bind_ret (a : α) (held : Bool) (f : α → β) :
    (ret a held >>= fun a => ret (f a) true) = ret (f a) held := by
  show ret (f a) (held && true) = ret (f a) held
  rw [Bool.and_true]

variable {a : α} {Q Q' : α → Bool → Prop} {p : Prop} {x : Exec α} {f : α → Exec β}

@[simp] theorem wp_ret {held : Bool} :
    wp (ret a held) Q ↔ Q a held := by
  constructor
  · rintro ⟨_, _, h, hq⟩
    cases h
    exact hq
  · exact fun hq => ⟨a, held, rfl, hq⟩

@[simp] theorem wp_fault : wp (fault : Exec α) Q ↔ False := by
  refine ⟨?_, False.elim⟩
  rintro ⟨_, _, h, _⟩
  cases h

@[simp] theorem wp_assert [Decidable p] {Q : Unit → Bool → Prop} :
    wp (assert p) Q ↔ Q () (decide p) :=
  wp_ret

/-- **The rule of sequencing**: the flags of the two parts are conjoined. -/
@[simp] theorem wp_bind {Q : β → Bool → Prop} :
    wp (x >>= f) Q ↔ wp x fun a held => wp (f a) fun b held' => Q b (held && held') := by
  show wp (bind x f) Q ↔ _
  cases x with
  | fault => simp [bind]
  | ret a held => cases hf : f a <;> simp [bind, hf]

/-- **The rule of consequence.** -/
theorem wp_mono (h : wp x Q) (hQ : ∀ a held, Q a held → Q' a held) : wp x Q' := by
  obtain ⟨a, held, hx, hq⟩ := h
  exact ⟨a, held, hx, hQ a held hq⟩

/-- **The rule of counting loops**: a loop over the numbers below `n` whose body takes the
invariant from each of them to the next one. -/
theorem wp_foldlM_range {I : ℕ → α → Prop} {f : α → ℕ → Exec α} {n : ℕ}
    (hf : ∀ i a, i < n → I i a → wp (f a i) fun a' held => held = true ∧ I (i + 1) a')
    (h : I 0 a) : wp ((List.range n).foldlM f a) fun a' held => held = true ∧ I n a' := by
  suffices hstep : ∀ k s a, s + k = n → I s a →
      wp ((List.range' s k).foldlM f a) fun a' held => held = true ∧ I n a' by
    rw [List.range_eq_range']
    exact hstep n 0 a (Nat.zero_add n) h
  intro k
  induction k with
  | zero =>
    rintro s a rfl h
    rw [List.range'_zero, List.foldlM_nil, pure_eq, wp_ret]
    exact ⟨rfl, h⟩
  | succ k ih =>
    intro s a hs h
    rw [List.range'_succ, List.foldlM_cons, wp_bind]
    refine wp_mono (hf s a (by omega) h) fun a' held hr => ?_
    refine wp_mono (ih (s + 1) a' (by omega) hr.2) fun b held' hr' => ⟨?_, hr'.2⟩
    rw [hr.1, hr'.1]
    rfl

/-- The weakest liberal precondition of `x` for `Q`: if `x` does not fault, `Q` holds of its value and
of the flag of its assertions. -/
def wlp (x : Exec α) (Q : α → Bool → Prop) : Prop := ∀ a held, x = ret a held → Q a held

@[simp] theorem wlp_ret {held : Bool} :
    wlp (ret a held) Q ↔ Q a held := by
  constructor
  · exact fun h => h a held rfl
  · intro hq a' held' h
    cases h
    exact hq

@[simp] theorem wlp_fault : wlp (fault : Exec α) Q := fun _ _ h => by cases h

@[simp] theorem wlp_assert [Decidable p] {Q : Unit → Bool → Prop} :
    wlp (assert p) Q ↔ Q () (decide p) :=
  wlp_ret

/-- **The rule of sequencing**, for routines that may fault. -/
@[simp] theorem wlp_bind {Q : β → Bool → Prop} :
    wlp (x >>= f) Q ↔ wlp x fun a held => wlp (f a) fun b held' => Q b (held && held') := by
  show wlp (bind x f) Q ↔ _
  cases x with
  | fault => simp [bind]
  | ret a held => cases hf : f a <;> simp [bind, hf]

theorem wlp_mono (h : wlp x Q) (hQ : ∀ a held, Q a held → Q' a held) : wlp x Q' :=
  fun a held hx => hQ a held (h a held hx)

/-- A routine has one outcome at most, so what returns with `Q` satisfies it liberally. -/
theorem wlp_of_wp (h : wp x Q) : wlp x Q := by
  obtain ⟨a, held, rfl, hq⟩ := h
  exact wlp_ret.2 hq

section

variable {I : ℕ → α → Prop} {f : α → ℕ → Exec α} {n : ℕ} {a : α}

/-- **The rule of counting loops**, for bodies that may fault. -/
theorem wlp_foldlM_range (hf : ∀ i a, i < n → I i a → wlp (f a i) fun a' _ => I (i + 1) a') (h : I 0 a) :
    wlp ((List.range n).foldlM f a) fun a' _ => I n a' := by
  induction n with
  | zero => exact wlp_ret.2 h
  | succ n ih =>
    rw [List.range_succ, List.foldlM_append, wlp_bind]
    refine wlp_mono (ih fun i a hi => hf i a (Nat.lt_succ_of_lt hi)) fun a' _ ha' => ?_
    rw [List.foldlM_cons, wlp_bind]
    exact wlp_mono (hf n a' (Nat.lt_succ_self n) ha') fun b _ hb => wlp_ret.2 hb

/-- **The rule of counting loops**, for bodies whose assertions may fail. -/
theorem wlp_foldlM_held
    (hf : ∀ i a, i < n → I i a → wlp (f a i) fun a' held => held = true → I (i + 1) a') (h : I 0 a) :
    wlp ((List.range n).foldlM f a) fun a' held => held = true → I n a' := by
  induction n with
  | zero => exact wlp_ret.2 fun _ => h
  | succ n ih =>
    rw [List.range_succ, List.foldlM_append, wlp_bind]
    intro a' held hrun b held' hrest hheld
    rw [Bool.and_eq_true] at hheld
    have ha' := ih (fun i a hi => hf i a (Nat.lt_succ_of_lt hi)) a' held hrun hheld.1
    rw [List.foldlM_cons] at hrest
    have hlast : wlp (f a' n >>= fun c => pure c) fun b held => held = true → I (n + 1) b := by
      refine wlp_bind.2 (wlp_mono (hf n a' (Nat.lt_succ_self n) ha') fun c heldc hc => ?_)
      refine wlp_ret.2 fun hboth => hc ?_
      rwa [Bool.and_true] at hboth
    exact hlast b held' hrest hheld.2

end

/-- The value a routine returned, `d` after a fault. -/
def value (x : Exec α) (d : α) : α :=
  match x with
  | fault => d
  | ret a _ => a

/-- Whether a routine returned with every assertion on the way held. -/
def held (x : Exec α) : Bool :=
  match x with
  | fault => false
  | ret _ held => held

/-- A routine with a weakest precondition returns its value. -/
theorem eq_ret_of_wp (h : wp x Q) (d : α) :
    x = ret (x.value d) x.held ∧ Q (x.value d) x.held := by
  obtain ⟨a, held, rfl, hq⟩ := h
  exact ⟨rfl, hq⟩

/-- A routine in which every assertion held returned its value. -/
theorem eq_ret_of_held (h : x.held = true) (d : α) : x = ret (x.value d) true := by
  cases x with
  | fault => cases h
  | ret a held => exact congrArg (ret a) h

/-- The same for a value that is one of two results. -/
theorem eq_ret_mk_of_held {x : Exec (α × β)} (d : α × β) (h : x.held = true) (ha : (x.value d).1 = a) :
    x = ret (a, (x.value d).2) true :=
  ha ▸ eq_ret_of_held h d

/-- A routine has at most one outcome, so two postconditions hold of the same. -/
theorem wp_and (h : wp x Q) (h' : wp x Q') :
    wp x fun a held => Q a held ∧ Q' a held := by
  obtain ⟨a, held, rfl, hq⟩ := h
  exact ⟨a, held, rfl, hq, wp_ret.1 h'⟩

end Exec
end NXEmu
