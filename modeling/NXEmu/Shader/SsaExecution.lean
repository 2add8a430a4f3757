/-
# Executions of value graphs

An execution has the values of the instructions that have been executed, and those at the entry of
the block, which are the ones that phi nodes read.  It passes to a block or executes an instruction,
in any order; the instruction reads its operands, all of them computed, and gets a value.  What the
opcodes without a meaning here give, such as loads from memory, is arbitrary, as is a shift by the
width or more.  The event of a step has the values that the instruction read.

A 128-bit load from shared memory makes its value from four words by a function, which is the
identity in the program that the recompiler is given.
-/

import NXEmu.Lib.Trace
import NXEmu.Shader.SsaGraph

namespace NXEmu
namespace Shader

/-- A word at run time. -/
def Val.word (x : BitVec 32) : Val := .scalar (.u32 x)

/-- A vector of four words at run time. -/
def Val.words (x y z w : BitVec 32) : Val := .composite .u32 [.u32 x, .u32 y, .u32 z, .u32 w]

/-- A moment of an execution. -/
structure ExecState where
  values : Valuation
  /-- The values at the entry of the block. -/
  entry : Valuation

/-- The beginning of an execution. -/
def ExecState.initial : ExecState := ⟨fun _ => none, fun _ => none⟩

/-- The execution of an instruction: what it reads and what it gives. -/
structure ExecEvent where
  inst : ℕ
  operands : List (Option Val)
  value : Val

namespace SsaGraph

/-- The values that instruction `i` reads. -/
def operandValues (g : SsaGraph) (s : ExecState) (i : ℕ) : List (Option Val) :=
  match g.op i with
  | .phi _ => (g.args i).map s.entry.eval
  | _ => (g.args i).map s.values.eval

/-- The values of the operands of an operation. -/
def operands (g : SsaGraph) (ν : Valuation) (i : ℕ) (k : Fin 5) : Option Val := ν.eval (g.arg i k)

/-- Instruction `i` may give the value `w`. -/
def Gives (g : SsaGraph) (load : Val → Val) (s : ExecState) (i : ℕ) (w : Val) : Prop :=
  match g.op i with
  | .phi _ => g.args i = [] ∨ ∃ v ∈ g.args i, s.entry.eval v = some w
  | .identity => s.values.eval (g.arg i 0) = some w
  | .selectU32 => evalSelect (g.operands s.values i) = some w
  | .iAdd32 => evalBinary (fun x y : BitVec 32 => x + y) (g.operands s.values i) = some w
  | .iSub32 => evalBinary (fun x y : BitVec 32 => x - y) (g.operands s.values i) = some w
  | .iMul32 => evalBinary (fun x y : BitVec 32 => x * y) (g.operands s.values i) = some w
  | .bitwiseAnd32 => evalBinary (fun x y : BitVec 32 => x &&& y) (g.operands s.values i) = some w
  | .bitwiseOr32 => evalBinary (fun x y : BitVec 32 => x ||| y) (g.operands s.values i) = some w
  | .bitwiseXor32 => evalBinary (fun x y : BitVec 32 => x ^^^ y) (g.operands s.values i) = some w
  | .shiftLeftLogical32 => ∃ x n : BitVec 32, s.values.eval (g.arg i 0) = some (.word x) ∧
      s.values.eval (g.arg i 1) = some (.word n) ∧ (n.toNat < 32 → w = .word (x <<< n.toNat))
  | .compositeExtractU32x4 => ∃ elements, ∃ n : BitVec 32,
      s.values.eval (g.arg i 0) = some (.composite .u32 elements) ∧
        s.values.eval (g.arg i 1) = some (.word n) ∧
          ∀ x, elements[n.toNat]? = some x → w = .scalar x
  | .loadShared .u128 => ∃ a b c d, w = load (.words a b c d)
  | _ => True

/-- A step passes to a block or executes an instruction. -/
inductive Step (g : SsaGraph) (load : Val → Val) (s : ExecState) :
    Option ℕ → ExecState → Option ExecEvent → Prop
  | enter : Step g load s none ⟨s.values, s.values⟩ none
  | execute {i : ℕ} {w : Val} (hi : i < g.size) (h : g.Gives load s i w) :
    Step g load s (some i) ⟨Function.update s.values i (some w), s.entry⟩
      (some ⟨i, g.operandValues s i, w⟩)

/-- The executions. -/
def Runs (g : SsaGraph) (load : Val → Val) : List ExecEvent → ExecState → Prop :=
  Traces (g.Step load) (fun _ _ => True) ExecState.initial

/-- A value is `w` at some time. -/
def Takes (g : SsaGraph) (v : Value) (w : Val) : Prop :=
  ∃ trace s, g.Runs id trace s ∧ s.values.eval v = some w

variable {g : SsaGraph} {trace : List ExecEvent} {s : ExecState} {i : ℕ}
  {v : Value} {w : Val} {c : Imm}

theorem takes_imm (h : g.Takes (.imm c) w) : w = .scalar c := by
  obtain ⟨_, s, -, h⟩ := h
  exact (Option.some.inj h).symm

theorem not_takes_void : ¬ g.Takes .void w := by
  rintro ⟨_, s, -, h⟩
  exact absurd h nofun

/-- What phi nodes read has been a value. -/
theorem takes_of_entry (h : g.Runs id trace s) : ∀ v w, s.entry.eval v = some w → g.Takes v w := by
  suffices h' : (∃ trace, g.Runs id trace s) ∧ ∀ v w, s.entry.eval v = some w → g.Takes v w from h'.2
  refine Traces.invariant h (fun trace s => (∃ trace, g.Runs id trace s) ∧
    ∀ v w, s.entry.eval v = some w → g.Takes v w) ⟨⟨_, .refl⟩, fun v w hv => ?_⟩ ?_
  · exact ⟨[], .initial, .refl, hv⟩
  · rintro - s a s' e ⟨⟨trace, hs⟩, hentry⟩ - hstep
    cases hstep with
    | enter => exact ⟨⟨_, .step none hs trivial .enter⟩, fun v w hv => ⟨trace, s, hs, hv⟩⟩
    | execute hi h => exact ⟨⟨_, .step _ hs trivial (.execute hi h)⟩, hentry⟩

/-- **What an instruction has been** it was given at some time. -/
theorem Takes.gives (h : g.Takes (.inst i) w) :
    i < g.size ∧ ∃ trace s, g.Runs id trace s ∧ g.Gives id s i w := by
  obtain ⟨trace, s, hs, hv⟩ := h
  suffices h' : (∃ trace, g.Runs id trace s) ∧ ∀ i w, s.values i = some w →
      i < g.size ∧ ∃ trace s, g.Runs id trace s ∧ g.Gives id s i w from h'.2 i w hv
  refine Traces.invariant hs (fun trace s => (∃ trace, g.Runs id trace s) ∧ ∀ i w,
    s.values i = some w → i < g.size ∧ ∃ trace s, g.Runs id trace s ∧ g.Gives id s i w)
    ⟨⟨_, .refl⟩, fun i w h => absurd h nofun⟩ ?_
  rintro - s a s' e ⟨⟨trace, hs⟩, hvalues⟩ - hstep
  cases hstep with
  | enter => exact ⟨⟨_, .step none hs trivial .enter⟩, hvalues⟩
  | @execute j w' hj h =>
    refine ⟨⟨_, .step _ hs trivial (.execute hj h)⟩, fun i w hw => ?_⟩
    replace hw : Function.update s.values j (some w') i = some w := hw
    by_cases hij : i = j
    · subst hij
      rw [Function.update_self] at hw
      obtain rfl := Option.some.inj hw
      exact ⟨hj, trace, s, hs, h⟩
    · rw [Function.update_of_ne hij] at hw
      exact hvalues i w hw

/-- **A value is what it resolves to**, through identities. -/
theorem Takes.resolve (h : g.Takes v w) : g.Takes (g.resolve v) w := by
  cases v with
  | void => exact absurd h not_takes_void
  | imm c => rwa [resolve_imm]
  | inst i =>
    refine resolve_induction (P := fun i => g.Takes (.inst i) w → g.Takes (g.resolve (.inst i)) w)
      ?_ ?_ i h.gives.1 h
    · intro i hi hop h
      rwa [resolve_inst hi hop]
    · intro i hi hop ih h
      obtain ⟨-, trace, s, hs, hgives⟩ := h.gives
      unfold Gives at hgives
      rw [hop] at hgives
      have harg : g.Takes (g.arg i 0) w := ⟨trace, s, hs, hgives⟩
      rw [resolve_identity hi hop]
      cases ha : g.arg i 0 with
      | void => exact absurd (ha ▸ harg) not_takes_void
      | imm c => rw [resolve_imm]; exact ha ▸ harg
      | inst j => exact ih j ha (ha ▸ harg)

end SsaGraph
end Shader
end NXEmu
