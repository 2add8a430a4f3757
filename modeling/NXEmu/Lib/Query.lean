/-
# Programs that only ask

A program that looks values up, one after the other, and changes nothing is a tree: it is done, or
it asks for a value and goes on with the answer.  `Query.run` runs it on a store that stays the
same throughout.  As the questions stay visible it can also be run one question at a time, with
something else changing the store in between.
-/

import NXEmu.Lib.Exec

namespace NXEmu

/-- A program that asks questions `q`, each of which has an answer in `A q`. -/
inductive Query {Q : Type} (A : Q → Type) (α : Type) where
  | done (value : α)
  | ask (q : Q) (next : A q → Query A α)

namespace Query

variable {Q : Type} {A : Q → Type} {α β : Type}

/-- Go on with the value of a program. -/
def bind (x : Query A α) (f : α → Query A β) : Query A β :=
  match x with
  | done a => f a
  | ask q next => ask q fun answer => (next answer).bind f

instance : Monad (Query A) where
  pure := done
  bind := bind

/-- A single question. -/
def get (q : Q) : Query A (A q) := ask q done

/-- Run a program on a store that has the answers. -/
def run (answer : (q : Q) → Exec (A q)) : Query A α → Exec α
  | done a => return a
  | ask q next => answer q >>= fun v => (next v).run answer

variable {answer : (q : Q) → Exec (A q)}

@[simp] theorem run_pure (a : α) : (pure a : Query A α).run answer = .ret a true := rfl

@[simp] theorem wp_get {q : Q} {P : A q → Bool → Prop} :
    ((get q).run answer).wp P ↔ (answer q).wp P := by
  show (answer q >>= fun v => Exec.ret v true).wp P ↔ _
  simp

/-- **The rule of sequencing.** -/
@[simp] theorem wp_bind {x : Query A α} {f : α → Query A β} {P : β → Bool → Prop} :
    ((x >>= f).run answer).wp P ↔
      (x.run answer).wp fun a held => ((f a).run answer).wp fun b held' => P b (held && held') := by
  change ((x.bind f).run answer).wp P ↔ _
  induction x generalizing P with
  | done a => simp [bind, run]
  | ask q next ih => simp [bind, run, ih, Bool.and_assoc]

end Query
end NXEmu
