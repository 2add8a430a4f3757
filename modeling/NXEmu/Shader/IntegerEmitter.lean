/-
# The emitter of integer operations

`src/yuzu_shader_recompiler/frontend/ir/ir_emitter.cpp`: the methods of `IREmitter` that the lowering
of 64-bit integers calls, at operands of type `U32`, whose type the constructor of `TypedValue` has
checked.  Each of them puts one instruction before the one that is lowered.

A host leaves some results undefined: of shifts by the width or more, and of bit fields that leave
the word or start behind it.  An execution gives such an instruction any value at all, and the others
the value of their operands.  `Emits` states what an emitter returns in every execution of the
instructions that it adds, and has a rule for each method and one for sequences.
-/

import NXEmu.Shader.Rewriting

namespace NXEmu
namespace Shader

open Exec Function

/-! ### Opcodes without a fold -/

namespace Opcode

/-- `ShiftRightLogical32`. -/
@[match_pattern] abbrev shiftRightLogical32 : Opcode := .other 0 .u32 2

/-- `BitwiseNot32`. -/
@[match_pattern] abbrev bitwiseNot32 : Opcode := .other 1 .u32 1

/-- `ISub64`. -/
@[match_pattern] abbrev iSub64 : Opcode := .other 2 .u64 2

/-- `INeg64`. -/
@[match_pattern] abbrev iNeg64 : Opcode := .other 3 .u64 1

/-- `ShiftLeftLogical64`. -/
@[match_pattern] abbrev shiftLeftLogical64 : Opcode := .other 4 .u64 2

/-- `ShiftRightLogical64`. -/
@[match_pattern] abbrev shiftRightLogical64 : Opcode := .other 5 .u64 2

/-- `ShiftRightArithmetic64`. -/
@[match_pattern] abbrev shiftRightArithmetic64 : Opcode := .other 6 .u64 2

/-- `PackUint2x32`. -/
@[match_pattern] abbrev packUint2x32 : Opcode := .other 7 .u64 1

/-- `UnpackUint2x32`. -/
@[match_pattern] abbrev unpackUint2x32 : Opcode := .other 8 (.composite .u32 2) 1

end Opcode

/-! ### Executions -/

/-- A bit field that starts inside of the word. -/
def startsInside (offset : Option Val) : Prop := ∀ x : BitVec 32, offset.bind Val.as = some x → x.toNat < 32

instance (offset : Option Val) : Decidable (startsInside offset) :=
  match h : offset.bind (Val.as (α := BitVec 32)) with
  | none => isTrue fun x hx => by simp [h] at hx
  | some x =>
    decidable_of_iff (x.toNat < 32) ⟨fun hx y hy => by rw [h] at hy; cases hy; exact hx, fun hs => hs x h⟩

/-- The meaning of an opcode on the host, of no value where it leaves the result undefined. -/
def Opcode.hostMeaning : Opcode → Option ((Fin 5 → Option Val) → Option Val)
  | .shiftRightLogical32 => some (evalShift fun x y => x >>> y)
  | .bitwiseNot32 => some fun a => ((a 0).bind Val.as).map fun x : BitVec 32 => .scalar (.u32 (~~~x))
  | .bitFieldInsert => some fun a => if startsInside (a 2) then evalBitFieldInsert a else none
  | .bitFieldSExtract =>
    some fun a => if startsInside (a 1) then evalBitFieldExtract true a else none
  | .bitFieldUExtract =>
    some fun a => if startsInside (a 1) then evalBitFieldExtract false a else none
  | op => op.meaning

/-- An execution on a host: an operation has the value of its operands where that is defined, and any
value where it is not, and a pseudo-operation has the flag of its parent. -/
structure Executes (g : Graph) (ν : Valuation) : Prop where
  meaning : ∀ i f v, (g.op i).hostMeaning = some f → f (g.evalArg ν i) = some v → ν i = some v
  flags : ∀ z p b, (g.op z).slot.isSome = true → g.arg z 0 = .inst p →
    flag (g.op z) (g.op p) (g.evalArg ν p) (ν p) = some b → ν z = some (.scalar (.u1 b))

/-- An execution of the instructions from number `n` on. -/
structure ExecutesFrom (n : ℕ) (g : Graph) (ν : Valuation) : Prop where
  meaning : ∀ i f v, n ≤ i → i < g.next → (g.op i).hostMeaning = some f →
    f (g.evalArg ν i) = some v → ν i = some v
  flags : ∀ z p b, n ≤ z → z < g.next → n ≤ p → p < g.next → (g.op z).slot.isSome = true →
    g.arg z 0 = .inst p → flag (g.op z) (g.op p) (g.evalArg ν p) (ν p) = some b →
      ν z = some (.scalar (.u1 b))

/-- The scalar value of an argument. -/
def Valuation.Has {α : Type} [ImmType α] (ν : Valuation) (v : Value) (x : α) : Prop :=
  ν.eval v = some (.scalar (ImmType.imm x))

/-! ### Methods -/

/-- A routine that adds instructions to a graph. -/
abbrev Emitter : Type → Type := StateT Graph Exec

/-- `IREmitter::Inst`. -/
def emit (op : Opcode) (args : List Value) : Emitter Value := fun g => g.prependNewInst op args

/-- `IREmitter::Imm32`. -/
def imm32 (value : BitVec 32) : Value := .imm (.u32 value)

/-- `IREmitter::IAdd`. -/
def iAdd (a b : Value) : Emitter Value := emit .iAdd32 [a, b]

/-- `IREmitter::ISub`. -/
def iSub (a b : Value) : Emitter Value := emit .iSub32 [a, b]

/-- `IREmitter::BitwiseNot`. -/
def bitwiseNot (value : Value) : Emitter Value := emit .bitwiseNot32 [value]

/-- `IREmitter::BitwiseOr`. -/
def bitwiseOr (a b : Value) : Emitter Value := emit .bitwiseOr32 [a, b]

/-- `IREmitter::ShiftLeftLogical`. -/
def shiftLeftLogical (base shift : Value) : Emitter Value := emit .shiftLeftLogical32 [base, shift]

/-- `IREmitter::ShiftRightLogical`. -/
def shiftRightLogical (base shift : Value) : Emitter Value := emit .shiftRightLogical32 [base, shift]

/-- `IREmitter::ShiftRightArithmetic`. -/
def shiftRightArithmetic (base shift : Value) : Emitter Value :=
  emit .shiftRightArithmetic32 [base, shift]

/-- `IREmitter::BitFieldInsert`. -/
def bitFieldInsert (base insert offset count : Value) : Emitter Value :=
  emit .bitFieldInsert [base, insert, offset, count]

/-- `IREmitter::BitFieldExtract`. -/
def bitFieldExtract (base offset count : Value) (isSigned : Bool) : Emitter Value :=
  emit (if isSigned then .bitFieldSExtract else .bitFieldUExtract) [base, offset, count]

/-- `IREmitter::IEqual`. -/
def iEqual (lhs rhs : Value) : Emitter Value := emit .iEqual [lhs, rhs]

/-- `IREmitter::IGreaterThan`. -/
def iGreaterThan (lhs rhs : Value) (isSigned : Bool) : Emitter Value :=
  emit (if isSigned then .sGreaterThan else .uGreaterThan) [lhs, rhs]

/-- `IREmitter::IGreaterThanEqual`. -/
def iGreaterThanEqual (lhs rhs : Value) (isSigned : Bool) : Emitter Value :=
  emit (if isSigned then .sGreaterThanEqual else .uGreaterThanEqual) [lhs, rhs]

/-- `IREmitter::Select`. -/
def select (condition trueValue falseValue : Value) : Emitter Value :=
  emit (.select .u32) [condition, trueValue, falseValue]

/-- `IREmitter::GetCarryFromOp`. -/
def getCarryFromOp (op : Value) : Emitter Value := emit .getCarryFromOp [op]

/-- `IREmitter::CompositeConstruct`. -/
def compositeConstruct (e1 e2 : Value) : Emitter Value :=
  emit (.compositeConstruct .u32x2) [e1, e2]

/-- The composite of a type with an opcode that `Unpack` can read words with. -/
def Composite.ofWords : ValueType → Option Composite
  | .composite .u32 2 => some .u32x2
  | .composite .u32 3 => some .u32x3
  | .composite .u32 4 => some .u32x4
  | _ => none

/-- `IREmitter::CompositeExtract` to a `U32`, which throws when the vector has no such elements. -/
def compositeExtract (vector : Value) (element : ℕ) : Emitter Value := fun g =>
  match Composite.ofWords (g.type vector) with
  | some c =>
    if element < c.size then g.prependNewInst (.compositeExtract c) [vector, imm32 element] else .fault
  | none => .fault

/-! ### Added instructions -/

namespace Graph

/-- The graph with another instruction. -/
def push (g : Graph) (op : Opcode) (args : List Value) : Graph :=
  ⟨Function.update g.insts g.next ⟨op, fun k => args.getD k .void, none⟩, g.next + 1⟩

@[simp] theorem op_push_self (g : Graph) (op : Opcode) (args : List Value) :
    (g.push op args).op g.next = op := by
  simp [push, Graph.op]

@[simp] theorem arg_push_self (g : Graph) (op : Opcode) (args : List Value) (k : Fin 5) :
    (g.push op args).arg g.next k = args.getD k .void := by
  simp [push, Graph.arg]

/-- Later instructions on the same earlier ones. -/
structure Extends (g g' : Graph) : Prop where
  next_le : g.next ≤ g'.next
  insts : ∀ j, j < g.next → g'.op j = g.op j ∧ ∀ k, g'.arg j k = g.arg j k

variable {g g' g'' : Graph}

theorem Extends.refl (g : Graph) : g.Extends g :=
  ⟨le_rfl, fun _ _ => ⟨rfl, fun _ => rfl⟩⟩

theorem Extends.trans (h : g.Extends g') (h' : g'.Extends g'') : g.Extends g'' where
  next_le := h.next_le.trans h'.next_le
  insts j hj := by
    obtain ⟨hop, harg⟩ := h.insts j hj
    obtain ⟨hop', harg'⟩ := h'.insts j (Nat.lt_of_lt_of_le hj h.next_le)
    exact ⟨hop'.trans hop, fun k => (harg' k).trans (harg k)⟩

theorem extends_push (g : Graph) (op : Opcode) (args : List Value) : g.Extends (g.push op args) where
  next_le := Nat.le_succ _
  insts j hj := by
    have hne : j ≠ g.next := Nat.ne_of_lt hj
    constructor
    · simp [push, Graph.op, hne]
    · simp [push, Graph.arg, hne]

theorem extends_associate (g : Graph) (p : ℕ) (s : Slot) (z : Option ℕ) :
    g.Extends (g.associate p s z) where
  next_le := le_rfl
  insts _ _ := ⟨op_associate .., fun _ => arg_associate ..⟩

/-- Setting some arguments of an instruction that is no pseudo-operation, one after the other. -/
theorem foldlM_setArg_eq {i : ℕ} (args : List Value) (ks : List (Fin 5)) (g : Graph)
    (hn : args.length ≤ (g.op i).numArgs) (hs : (g.op i).slot = none) :
    ks.foldlM (fun (g : Graph) (k : Fin 5) =>
      if h : (k : ℕ) < args.length then g.setArg i k args[k] else pure g) g =
    .ret (g.modify i fun inst =>
      { inst with args := fun k => if k ∈ ks ∧ (k : ℕ) < args.length then args.getD k .void
        else inst.args k }) true := by
  induction ks generalizing g with
  | nil => simp [modify]
  | cons k ks ih =>
    rw [List.foldlM_cons]
    by_cases hk : (k : ℕ) < args.length
    · rw [dif_pos hk, setArg_eq hs (Nat.lt_of_lt_of_le hk hn), ret_true_bind,
        ih _ (by rwa [op_modify_self]) (by rwa [op_modify_self]), modify_modify]
      congr 2
      funext inst
      congr 1
      funext l
      by_cases hl : l = k
      · subst hl
        simp [hk]
      · simp [hl]
    · rw [dif_neg hk, pure_eq, ret_true_bind, ih g hn hs]
      congr 2
      funext inst
      congr 1
      funext l
      by_cases hl : l = k
      · subst hl
        simp [hk]
      · simp [hl]

/-- `PrependNewInst` of an operation. -/
theorem prependNewInst_push (g : Graph) (op : Opcode) (args : List Value)
    (hn : op.numArgs = args.length) (hs : op.slot = none) :
    g.prependNewInst op args = .ret (.inst g.next, g.push op args) true := by
  have hop : Graph.op ⟨update g.insts g.next (Inst.new op), g.next + 1⟩ g.next = op := by
    simp [Graph.op, Inst.new]
  rw [prependNewInst, if_neg (not_not.2 hn)]
  dsimp only
  rw [foldlM_setArg_eq args (List.finRange 5) _ (by rw [hop, hn]) (by rw [hop, hs]), ret_true_bind, pure_eq]
  congr 2
  simp only [modify, push, Inst.new, update_self, update_idem, List.mem_finRange, true_and]
  congr 3
  funext k
  by_cases hk : (k : ℕ) < args.length
  · rw [if_pos hk]
  · simp [hk]

/-- `PrependNewInst` of a question for the carry of an instruction that nothing asks yet. -/
theorem prependNewInst_carry (g : Graph) {p : ℕ} (hp : p < g.next) (hid : g.op p ≠ .identity)
    (hnone : g.associated p = none) :
    g.prependNewInst .getCarryFromOp [.inst p] =
      .ret (.inst g.next, (g.push .getCarryFromOp [.inst p]).associate p .carry (some g.next)) true := by
  have hrange : List.finRange 5 = [0, 1, 2, 3, 4] := rfl
  let g₀ : Graph := ⟨update g.insts g.next (Inst.new .getCarryFromOp), g.next + 1⟩
  have hne : p ≠ g.next := Nat.ne_of_lt hp
  have hop : g₀.op g.next = .getCarryFromOp := by simp [g₀, Graph.op, Inst.new]
  have himm : g₀.isImmediate (.inst p) = false :=
    isImmediate_of_ne_identity (by simpa [g₀, Graph.op, hne] using hid)
  have hassoc : g₀.associated p = none := by simpa [g₀, associated, hne] using hnone
  have huse : g₀.use g.next (.inst p) = .ret (g₀.associate p .carry (some g.next)) true := by
    simp [use, hop, Opcode.slot, hassoc]
  have heq : ((g₀.associate p .carry (some g.next)).modify g.next fun inst =>
      { inst with args := update inst.args 0 (.inst p) }) =
        (g.push .getCarryFromOp [.inst p]).associate p .carry (some g.next) := by
    have hargs : update (fun _ : Fin 5 => Value.void) 0 (.inst p) = fun k : Fin 5 => [Value.inst p].getD k .void := by
      funext k
      cases k using Fin.cases with
      | zero => rfl
      | succ k => simp
    simp only [associate, modify, push, g₀, Inst.new, update_of_ne hne, update_of_ne hne.symm, update_self, hargs]
    rw [update_comm hne, update_idem]
  have hset : g₀.setArg g.next 0 (.inst p) = .ret
      ((g.push .getCarryFromOp [.inst p]).associate p .carry (some g.next)) true := by
    have harg : g₀.isImmediate (g₀.arg g.next 0) = true := by
      rw [show g₀.arg g.next 0 = .void by simp [g₀, Graph.arg, Inst.new], isImmediate_void]
    rw [setArg, if_neg (by rw [hop]; decide), if_pos harg, pure_eq, ret_true_bind, himm]
    simp [huse, heq]
  rw [prependNewInst, if_neg (by simp [Opcode.numArgs]), hrange]
  simpa [g₀] using congrArg (fun x => x >>= fun g' => (pure (Value.inst g.next, g') : Exec _)) hset

end Graph

/-! ### The rules of emitters -/

variable {g₀ g g' : Graph} {ν : Valuation} {n : ℕ} {α β : Type}

/-- An execution is one of the instructions that were there before. -/
theorem ExecutesFrom.restrict (h : ExecutesFrom n g' ν) (he : g.Extends g') : ExecutesFrom n g ν := by
  have heval : ∀ j, j < g.next → g'.evalArg ν j = g.evalArg ν j := fun j hj => by
    funext k
    rw [Graph.evalArg, Graph.evalArg, (he.insts j hj).2 k]
  constructor
  · intro i f v hn hi hf hv
    rw [← (he.insts i hi).1] at hf
    rw [← heval i hi] at hv
    exact h.meaning i f v hn (Nat.lt_of_lt_of_le hi he.next_le) hf hv
  · intro z p b hn hz hnp hp hs harg hb
    rw [← (he.insts z hz).1] at hs hb
    rw [← (he.insts z hz).2] at harg
    rw [← (he.insts p hp).1, ← heval p hp] at hb
    exact h.flags z p b hn (Nat.lt_of_lt_of_le hz he.next_le) hnp
      (Nat.lt_of_lt_of_le hp he.next_le) hs harg hb

/-- On top of the instructions of `g₀` an emitter returns, it only adds to them, and what it returns
satisfies `Q` in every execution of the instructions that were added. -/
def Emits (g₀ : Graph) (m : Emitter α) (Q : Valuation → α → Prop) : Prop :=
  ∀ g, g₀.Extends g → ∃ a g', m g = .ret (a, g') true ∧ g.Extends g' ∧
    ∀ ν, ExecutesFrom g₀.next g' ν → Q ν a

variable {Q : Valuation → α → Prop} {m : Emitter α} {R : Valuation → β → Prop} {v a b : Value} {op : Opcode}

theorem emits_pure {a : α} (h : ∀ ν, Q ν a) :
    Emits g₀ (pure a : Emitter α) Q :=
  fun g _ => ⟨a, g, rfl, .refl g, fun ν _ => h ν⟩

/-- **The rule of consequence.** -/
theorem Emits.mono {Q R : Valuation → α → Prop} (hm : Emits g₀ m Q) (h : ∀ ν a, Q ν a → R ν a) : Emits g₀ m R := by
  intro g hg
  obtain ⟨a, g', hrun, he, hq⟩ := hm g hg
  exact ⟨a, g', hrun, he, fun ν hν => h ν a (hq ν hν)⟩

/-- **The rule of sequencing**: what the first part returns is known of it in the second. -/
theorem Emits.bind {f : α → Emitter β} (hm : Emits g₀ m Q)
    (hf : ∀ a, Emits g₀ (f a) fun ν b => Q ν a → R ν b) : Emits g₀ (m >>= f) R := by
  intro g hg
  obtain ⟨a, g₁, h₁, he₁, hq⟩ := hm g hg
  obtain ⟨b, g₂, h₂, he₂, hr⟩ := hf a g₁ (hg.trans he₁)
  refine ⟨b, g₂, ?_, he₁.trans he₂, fun ν hν => hr ν hν (hq ν (hν.restrict he₂))⟩
  show (m g >>= fun x => f x.1 x.2) = _
  rw [h₁, ret_true_bind, h₂]

/-- **A new instruction** has the value of its operands where that is defined. -/
theorem emits_emit (op : Opcode) (args : List Value) {f : (Fin 5 → Option Val) → Option Val}
    (hn : op.numArgs = args.length) (hs : op.slot = none) (hm : op.hostMeaning = some f) :
    Emits g₀ (emit op args) fun ν v =>
      ∀ x, f (fun k => ν.eval (args.getD k .void)) = some x → ν.eval v = some x := by
  intro g hg
  refine ⟨_, _, Graph.prependNewInst_push g op args hn hs, Graph.extends_push g op args, fun ν hν x hx => ?_⟩
  refine hν.meaning g.next f x hg.next_le (Nat.lt_succ_self _) (by rw [Graph.op_push_self, hm]) ?_
  rw [← hx]
  congr 1
  funext k
  rw [Graph.evalArg, Graph.arg_push_self]

section Scalars

variable [ImmType α] [ImmType β]

theorem bind_as_of_has {x : α} (h : ν.Has v x) : (ν.eval v).bind Val.as = some x :=
  bind_as_eq_some.2 h

@[simp] theorem has_imm32 (x : BitVec 32) : ν.Has (imm32 x) x := rfl

/-- Operations on two scalars. -/
theorem emits_binary {f : α → α → β} (hn : op.numArgs = 2)
    (hs : op.slot = none) (hm : op.hostMeaning = some (evalBinary f)) :
    Emits g₀ (emit op [a, b]) fun ν v => ∀ x y, ν.Has a x → ν.Has b y → ν.Has v (f x y) := by
  refine (emits_emit op [a, b] hn hs hm).mono fun ν v hv x y hx hy => hv _ ?_
  simp [evalBinary, bind_as_of_has hx, bind_as_of_has hy]

end Scalars

section

variable (a b : Value)

theorem emits_iAdd : Emits g₀ (iAdd a b) fun ν v =>
    ∀ x y : BitVec 32, ν.Has a x → ν.Has b y → ν.Has v (x + y) :=
  emits_binary rfl rfl rfl

theorem emits_iSub : Emits g₀ (iSub a b) fun ν v =>
    ∀ x y : BitVec 32, ν.Has a x → ν.Has b y → ν.Has v (x - y) :=
  emits_binary rfl rfl rfl

theorem emits_bitwiseOr : Emits g₀ (bitwiseOr a b) fun ν v =>
    ∀ x y : BitVec 32, ν.Has a x → ν.Has b y → ν.Has v (x ||| y) :=
  emits_binary rfl rfl rfl

theorem emits_iEqual : Emits g₀ (iEqual a b) fun ν v =>
    ∀ x y : BitVec 32, ν.Has a x → ν.Has b y → ν.Has v (decide (x = y)) :=
  emits_binary rfl rfl rfl

theorem emits_uGreaterThan : Emits g₀ (iGreaterThan a b false) fun ν v =>
    ∀ x y : BitVec 32, ν.Has a x → ν.Has b y → ν.Has v (decide (x.toNat > y.toNat)) :=
  emits_binary rfl rfl rfl

theorem emits_sGreaterThanEqual : Emits g₀ (iGreaterThanEqual a b true) fun ν v =>
    ∀ x y : BitVec 32, ν.Has a x → ν.Has b y → ν.Has v (decide (x.toInt ≥ y.toInt)) :=
  emits_binary rfl rfl rfl

end

theorem emits_bitwiseNot (a : Value) : Emits g₀ (bitwiseNot a) fun ν v =>
    ∀ x : BitVec 32, ν.Has a x → ν.Has v (~~~x) := by
  refine (emits_emit .bitwiseNot32 [a] rfl rfl rfl).mono fun ν v hv x hx => hv _ ?_
  simp [bind_as_of_has hx, ImmType.imm]

/-- Shifts by less than the width. -/
theorem emits_shift {f : BitVec 32 → ℕ → BitVec 32}
    (hn : op.numArgs = 2) (hs : op.slot = none) (hm : op.hostMeaning = some (evalShift f)) :
    Emits g₀ (emit op [a, b]) fun ν v =>
      ∀ x y : BitVec 32, ν.Has a x → ν.Has b y → y.toNat < 32 → ν.Has v (f x y.toNat) := by
  refine (emits_emit op [a, b] hn hs hm).mono fun ν v hv x y hx hy hlt => hv _ ?_
  simp [evalShift, bind_as_of_has hx, bind_as_of_has hy, hlt, ImmType.imm]

theorem emits_shiftLeftLogical (a b : Value) : Emits g₀ (shiftLeftLogical a b) fun ν v =>
    ∀ x y : BitVec 32, ν.Has a x → ν.Has b y → y.toNat < 32 → ν.Has v (x <<< y.toNat) :=
  emits_shift rfl rfl rfl

theorem emits_shiftRightLogical (a b : Value) : Emits g₀ (shiftRightLogical a b) fun ν v =>
    ∀ x y : BitVec 32, ν.Has a x → ν.Has b y → y.toNat < 32 → ν.Has v (x >>> y.toNat) :=
  emits_shift rfl rfl rfl

theorem emits_shiftRightArithmetic (a b : Value) : Emits g₀ (shiftRightArithmetic a b) fun ν v =>
    ∀ x y : BitVec 32, ν.Has a x → ν.Has b y → y.toNat < 32 → ν.Has v (x.sshiftRight y.toNat) :=
  emits_shift rfl rfl rfl

theorem startsInside_of_has {x : BitVec 32} (h : ν.Has v x) (hx : x.toNat < 32) :
    startsInside (ν.eval v) := by
  intro y hy
  rw [bind_as_of_has h] at hy
  cases hy
  exact hx

/-- Bit fields that start inside of the word and do not leave it. -/
theorem emits_bitFieldExtract (base offset count : Value) :
    Emits g₀ (bitFieldExtract base offset count false) fun ν v =>
      ∀ x o c : BitVec 32, ν.Has base x → ν.Has offset o → ν.Has count c → o.toNat < 32 →
        o.toNat + c.toNat ≤ 32 → ν.Has v (bitField false x o.toNat c.toNat) := by
  refine (emits_emit .bitFieldUExtract [base, offset, count] rfl rfl rfl).mono
    fun ν v hv x o c hx ho hc hlt hle => hv _ ?_
  simp [evalBitFieldExtract, startsInside_of_has ho hlt, bind_as_of_has hx, bind_as_of_has ho,
    bind_as_of_has hc, hle, ImmType.imm]

theorem emits_bitFieldInsert (base insert offset count : Value) :
    Emits g₀ (bitFieldInsert base insert offset count) fun ν v =>
      ∀ x y o c : BitVec 32, ν.Has base x → ν.Has insert y → ν.Has offset o → ν.Has count c →
        o.toNat < 32 → o.toNat + c.toNat ≤ 32 → ν.Has v (withBitField x y o.toNat c.toNat) := by
  refine (emits_emit .bitFieldInsert [base, insert, offset, count] rfl rfl rfl).mono
    fun ν v hv x y o c hx hy ho hc hlt hle => hv _ ?_
  simp [evalBitFieldInsert, startsInside_of_has ho hlt, bind_as_of_has hx, bind_as_of_has hy,
    bind_as_of_has ho, bind_as_of_has hc, hle, ImmType.imm]

/-- A selection has the value of the operand that is chosen, whatever the other one is. -/
theorem emits_select (c t f : Value) : Emits g₀ (select c t f) fun ν v =>
    ∀ (b : Bool) (x : BitVec 32), ν.Has c b → ν.Has (if b then t else f) x → ν.Has v x := by
  refine (emits_emit (.select .u32) [c, t, f] rfl rfl rfl).mono fun ν v hv b x hb hx => hv _ ?_
  rw [Valuation.Has] at hx
  cases b with
  | true => simpa [evalSelect, bind_as_of_has hb] using hx
  | false => simpa [evalSelect, bind_as_of_has hb] using hx

theorem emits_compositeConstruct (a b : Value) : Emits g₀ (compositeConstruct a b) fun ν v =>
    ∀ x y : BitVec 32, ν.Has a x → ν.Has b y → ν.eval v = some (.composite .u32 [.u32 x, .u32 y]) := by
  refine (emits_emit (.compositeConstruct .u32x2) [a, b] rfl rfl rfl).mono fun ν v hv x y hx hy => hv _ ?_
  have hrange : (List.finRange 5).take 2 = [0, 1] := rfl
  rw [Valuation.Has] at hx hy
  simp [evalConstruct, Composite.size, Composite.element, hrange, hx, hy, Val.imm, ImmType.imm]

/-- **An addition and the question for its carry.** -/
theorem emits_iAdd_carry {f : Value → Value → Emitter β} (hf : ∀ v z, Emits g₀ (f v z) fun ν r =>
      (∀ x y : BitVec 32, ν.Has a x → ν.Has b y → ν.Has v (x + y) ∧ ν.Has z (x.uaddOverflow y)) → R ν r) :
    Emits g₀ (do let v ← iAdd a b; let z ← getCarryFromOp v; f v z) R := by
  have hpair : Emits g₀ (do let v ← iAdd a b
                            let z ← getCarryFromOp v
                            pure (v, z)) fun ν p =>
      ∀ x y : BitVec 32, ν.Has a x → ν.Has b y → ν.Has p.1 (x + y) ∧ ν.Has p.2 (x.uaddOverflow y) := by
    intro g hg
    let g₁ := g.push .iAdd32 [a, b]
    let g₂ := (g₁.push .getCarryFromOp [.inst g.next]).associate g.next .carry (some g₁.next)
    have hadd : iAdd a b g = .ret (.inst g.next, g₁) true :=
      Graph.prependNewInst_push g .iAdd32 [a, b] rfl rfl
    have hcarry : getCarryFromOp (.inst g.next) g₁ = .ret (.inst g₁.next, g₂) true :=
      Graph.prependNewInst_carry g₁ (Nat.lt_succ_self _) (by simp [g₁])
        (by simp [g₁, Graph.push, Graph.associated])
    have hext : g₁.Extends g₂ :=
      (Graph.extends_push g₁ _ _).trans (Graph.extends_associate _ _ _ _)
    refine ⟨(.inst g.next, .inst g₁.next), g₂, ?_, (Graph.extends_push g _ _).trans hext, fun ν hν x y hx hy => ?_⟩
    · show (iAdd a b g >>= fun v => getCarryFromOp v.1 v.2 >>= fun z => pure ((v.1, z.1), z.2)) = _
      rw [hadd, ret_true_bind, hcarry, ret_true_bind, pure_eq]
    have hν₁ := hν.restrict hext
    have hlt : g.next < g₁.next := Nat.lt_succ_self _
    have harg : g₁.evalArg ν g.next = fun k : Fin 5 => ν.eval ([a, b].getD k .void) := by
      funext k
      rw [Graph.evalArg, Graph.arg_push_self]
    have hop : g₂.op g.next = .iAdd32 := by
      rw [(hext.insts _ hlt).1]
      exact Graph.op_push_self ..
    have harg₂ : g₂.evalArg ν g.next = fun k : Fin 5 => ν.eval ([a, b].getD k .void) := by
      rw [← harg]
      funext k
      rw [Graph.evalArg, (hext.insts _ hlt).2, Graph.evalArg]
    constructor
    · refine hν₁.meaning g.next _ _ hg.next_le hlt (by rw [Graph.op_push_self]; rfl) ?_
      rw [harg]
      simp [evalBinary, bind_as_of_has hx, bind_as_of_has hy]
    · have hz : g₂.op g₁.next = .getCarryFromOp := by simp [g₂]
      refine hν.flags g₁.next g.next _ (hg.next_le.trans (Nat.le_succ _)) (Nat.lt_succ_self _)
        hg.next_le (hlt.trans (Nat.lt_succ_self _)) (by rw [hz]; rfl) (by simp [g₂]) ?_
      rw [hz, hop, harg₂]
      simp [flag, bind_as_of_has hx, bind_as_of_has hy]
  have hassoc : (do let v ← iAdd a b
                    let z ← getCarryFromOp v
                    f v z) = (do
      let p ← (do let v ← iAdd a b
                  let z ← getCarryFromOp v
                  pure (v, z))
      f p.1 p.2) := by
    simp
  rw [hassoc]
  exact hpair.bind fun p => hf p.1 p.2

/-! ### Operands on top of a graph -/

/-- Looking through identities of a graph comes to an end before the fuel does. -/
theorem resolveFrom_add (hw : WellFormed g) (v : Value) (k : ℕ) :
    g.resolveFrom (g.next + k) v = g.resolve v := by
  suffices h : ∀ fuel v, (∀ j, g.resolveFrom fuel v = .inst j → g.op j ≠ .identity) →
      g.resolveFrom (fuel + k) v = g.resolveFrom fuel v from
    h g.next v fun j hj => resolve_ne_identity hw hj
  intro fuel
  induction fuel with
  | zero =>
    intro v hv
    rw [resolveFrom_zero] at hv ⊢
    cases v with
    | void => cases k <;> rfl
    | imm c => cases k <;> rfl
    | inst i =>
      cases k with
      | zero => rfl
      | succ k => rw [Nat.zero_add, Graph.resolveFrom, if_neg (hv i rfl)]
  | succ fuel ih =>
    intro v hv
    cases v with
    | void => rw [Nat.succ_add]; rfl
    | imm c => rw [Nat.succ_add]; rfl
    | inst i =>
      rw [Nat.succ_add, Graph.resolveFrom, Graph.resolveFrom]
      rw [Graph.resolveFrom] at hv
      split
      · next hid =>
        rw [if_pos hid] at hv
        exact ih _ hv
      · rfl

section

variable (hw : WellFormed g) (he : g.Extends g') {v : Value} (hv : g.Knows v)

include hw he hv

/-- **Known operands are the same** after more instructions. -/
theorem Graph.Extends.resolve :
    g'.resolve v = g.resolve v := by
  have hsame : ∀ fuel v, g.Knows v → g'.resolveFrom fuel v = g.resolveFrom fuel v := by
    intro fuel
    induction fuel with
    | zero =>
      intro v _
      rw [resolveFrom_zero, resolveFrom_zero]
    | succ fuel ih =>
      intro v hv
      cases v with
      | void => rfl
      | imm c => rfl
      | inst i =>
        obtain ⟨hop, harg⟩ := he.insts i (hv i rfl)
        rw [Graph.resolveFrom, Graph.resolveFrom, hop, harg, ih _ (hw.knows i 0)]
  obtain ⟨k, hk⟩ := Nat.exists_eq_add_of_le he.next_le
  rw [Graph.resolve, hsame _ v hv, hk, resolveFrom_add hw]

theorem Graph.Extends.isImmediate : g'.isImmediate v = g.isImmediate v := by
  rw [Graph.isImmediate, Graph.isImmediate, he.resolve hw hv]

theorem Graph.Extends.type :
    g'.type v = g.type v := by
  rw [Graph.type, Graph.type, he.resolve hw hv]
  cases hres : g.resolve v with
  | inst j => simp only [(he.insts j (hw.knows_resolve hv j hres)).1]
  | void => rfl
  | imm c => rfl

end

end Shader
end NXEmu
