/-
# Programs that throw and that leave a log

A program that reads from outside leaves a log of what it asked for, also when it throws.
`Logged.wlp x ok Q` says that every entry of the log of `x` is in order and that the value satisfies
`Q`, if there is one.  Its rules compute this for a program in `do` notation from its parts.
-/

import Mathlib.Data.List.Basic
import Mathlib.Tactic.Common

namespace NXEmu

/-- What a program leaves: a value or what it threw, and its log. -/
structure Logged (ε τ α : Type) where
  result : Except ε α
  log : List τ

namespace Logged

variable {ε τ α β : Type}

/-- Add an entry to the log. -/
def tell (entry : τ) : Logged ε τ Unit := ⟨.ok (), [entry]⟩

/-- Stop with `e`. -/
def throw (e : ε) : Logged ε τ α := ⟨.error e, []⟩

/-- The program with every entry of its log changed. -/
def mapLog (f : τ → τ) (x : Logged ε τ α) : Logged ε τ α := ⟨x.result, x.log.map f⟩

/-- Run `x`, then `f` on its value. -/
def bind (x : Logged ε τ α) (f : α → Logged ε τ β) : Logged ε τ β :=
  match x.result with
  | .error e => ⟨.error e, x.log⟩
  | .ok a => ⟨(f a).result, x.log ++ (f a).log⟩

instance : Monad (Logged ε τ) where
  pure a := ⟨.ok a, []⟩
  bind := bind

theorem bind_assoc_eq {γ : Type} (x : Logged ε τ α) (f : α → Logged ε τ β) (g : β → Logged ε τ γ) :
    bind (bind x f) g = bind x fun a => bind (f a) g := by
  obtain ⟨result, log⟩ := x
  cases result with
  | error e => rfl
  | ok a => cases hf : (f a).result <;> simp [bind, hf]

instance : LawfulMonad (Logged ε τ) :=
  LawfulMonad.mk' (Logged ε τ)
    (fun x => by
      obtain ⟨result, log⟩ := x
      cases result <;> simp [Functor.map, bind])
    (fun a f => by simp [Bind.bind, bind, pure]) bind_assoc_eq

/-- The log of `x` is in order, and its value satisfies `Q` if there is one. -/
def wlp (x : Logged ε τ α) (ok : τ → Prop) (Q : α → Prop) : Prop :=
  (∀ entry ∈ x.log, ok entry) ∧ ∀ a, x.result = .ok a → Q a

variable {ok : τ → Prop}

variable {a : α} {Q : α → Prop} {entry : τ} {x : Logged ε τ α} {f : α → Logged ε τ β}

@[simp] theorem wlp_pure : wlp (pure a : Logged ε τ α) ok Q ↔ Q a := by
  constructor
  · exact fun h => h.2 a rfl
  · intro hQ
    refine ⟨fun _ h => absurd h List.not_mem_nil, fun b h => ?_⟩
    cases h
    exact hQ

@[simp] theorem wlp_throw {e : ε} : wlp (throw e : Logged ε τ α) ok Q :=
  ⟨fun _ h => absurd h List.not_mem_nil, fun _ h => by cases h⟩

@[simp] theorem wlp_tell {Q : Unit → Prop} :
    wlp (tell entry : Logged ε τ Unit) ok Q ↔ ok entry ∧ Q () := by
  constructor
  · exact fun h => ⟨h.1 entry (List.mem_singleton_self entry), h.2 () rfl⟩
  · rintro ⟨hentry, hQ⟩
    refine ⟨fun e he => ?_, fun _ _ => hQ⟩
    rw [List.mem_singleton.1 he]
    exact hentry

/-- The changed entries are in order if those before the change become so. -/
@[simp] theorem wlp_mapLog {f : τ → τ} : wlp (mapLog f x) ok Q ↔ wlp x (fun entry => ok (f entry)) Q := by
  simp [wlp, mapLog]

/-- **The rule of sequencing.** -/
@[simp] theorem wlp_bind {Q : β → Prop} :
    wlp (x >>= f) ok Q ↔ wlp x ok fun a => wlp (f a) ok Q := by
  show wlp (bind x f) ok Q ↔ _
  obtain ⟨result, log⟩ := x
  cases result with
  | error e => simp [wlp, bind]
  | ok a =>
    simp only [wlp, bind, List.mem_append, Except.ok.injEq, forall_eq']
    constructor
    · rintro ⟨hlog, hQ⟩
      exact ⟨fun e he => hlog e (.inl he), fun e he => hlog e (.inr he), hQ⟩
    · rintro ⟨hlog, hlog', hQ⟩
      exact ⟨fun e he => he.elim (hlog e) (hlog' e), hQ⟩

@[simp] theorem wlp_map {f : α → β} {Q : β → Prop} :
    wlp (f <$> x) ok Q ↔ wlp x ok fun a => Q (f a) := by
  rw [← bind_pure_comp, wlp_bind]
  simp only [wlp_pure]

/-- A weaker order on the entries. -/
theorem wlp_imp {ok' : τ → Prop} (h : wlp x ok Q) (hok : ∀ entry, ok entry → ok' entry) : wlp x ok' Q :=
  ⟨fun entry hmem => hok entry (h.1 entry hmem), h.2⟩

/-- **The rule of consequence.** -/
theorem wlp_mono {Q Q' : α → Prop} (h : wlp x ok Q) (hQ : ∀ a, Q a → Q' a) :
    wlp x ok Q' :=
  ⟨h.1, fun a ha => hQ a (h.2 a ha)⟩

/-- **The rule of loops that collect** what their body makes of each element. -/
theorem wlp_mapM {l : List α} {P : β → Prop}
    (h : ∀ a ∈ l, wlp (f a) ok P) : wlp (l.mapM f) ok fun bs => ∀ b ∈ bs, P b := by
  induction l with
  | nil => simp
  | cons a l ih =>
    rw [List.mapM_cons, wlp_bind]
    refine wlp_mono (h a List.mem_cons_self) fun b hb => ?_
    rw [wlp_bind]
    refine wlp_mono (ih fun a' ha' => h a' (List.mem_cons_of_mem _ ha')) fun bs hbs => ?_
    rw [wlp_pure]
    exact List.forall_mem_cons.2 ⟨hb, hbs⟩

/-- What a program returns satisfies any postcondition it has. -/
theorem wlp_and_result (h : wlp x ok Q) :
    wlp x ok fun a => Q a ∧ x.result = .ok a :=
  ⟨h.1, fun a ha => ⟨h.2 a ha, ha⟩⟩

end Logged
end NXEmu
