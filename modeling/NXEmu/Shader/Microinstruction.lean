/-
# Microinstructions of the shader recompiler

`src/yuzu_shader_recompiler/frontend/ir/value.h` and `microinstruction.cpp`: a value is an immediate
or a reference to an instruction, and an instruction has an opcode and up to five values.  The
instructions of a program are numbered here in the order in which they are created, and a graph knows
the number of the next one.

Replacing the uses of an instruction turns it into an `Identity` of the new value, which the routines
of `Value` look through.  Pseudo-operations, which ask for a flag of the result of their parent, are
written down in the parent as well.

Opcodes that the integer and logical folds neither handle nor look for are one family, `other`, with
the type of the result.  The blocks and the operands of phi nodes, the order of instructions in a
block and the numbers of uses are left out.
-/

import NXEmu.Lib.Exec
import Mathlib.Algebra.GroupWithZero.Nat
import Mathlib.Data.Fin.VecNotation
import Mathlib.Logic.Function.Basic

namespace NXEmu
namespace Shader

/-- `IR::Type`, the types of registers, predicates, attributes and patches in one. -/
inductive ValueType where
  | void
  | name
  | u1
  | u8
  | u16
  | u32
  | u64
  | f16
  | f32
  | f64
  | composite (element : ValueType) (size : ℕ)
deriving DecidableEq

/-- An immediate.  Those of types without arithmetic here are their bits. -/
inductive Imm where
  | u1 (value : Bool)
  | u32 (value : BitVec 32)
  | u64 (value : BitVec 64)
  | bits (type : ValueType) (value : ℕ)
deriving DecidableEq

/-- The type of an immediate. -/
def Imm.type : Imm → ValueType
  | .u1 _ => .u1
  | .u32 _ => .u32
  | .u64 _ => .u64
  | .bits type _ => type

/-- The types with an immediate `IR::Value{T}`, which `Arg<T>` reads back. -/
class ImmType (α : Type) where
  imm : α → Imm
  ofImm : Imm → Option α
  ofImm_eq_some : ∀ c a, ofImm c = some a ↔ c = imm a

instance : ImmType Bool where
  imm := .u1
  ofImm
    | .u1 b => some b
    | _ => none
  ofImm_eq_some c a := by cases c <;> simp

instance : ImmType (BitVec 32) where
  imm := .u32
  ofImm
    | .u32 x => some x
    | _ => none
  ofImm_eq_some c a := by cases c <;> simp

instance : ImmType (BitVec 64) where
  imm := .u64
  ofImm
    | .u64 x => some x
    | _ => none
  ofImm_eq_some c a := by cases c <;> simp

/-- `IR::Value`: nothing, an instruction or an immediate. -/
inductive Value where
  | void
  | inst (inst : ℕ)
  | imm (imm : Imm)
deriving DecidableEq

/-- The composite types of the folded `CompositeConstruct`, `CompositeExtract` and `CompositeInsert`
opcodes. -/
inductive Composite where
  | u32x2 | u32x3 | u32x4
  | f32x2 | f32x3 | f32x4
  | f16x2 | f16x3 | f16x4
deriving DecidableEq

/-- The type of the elements. -/
def Composite.element : Composite → ValueType
  | .u32x2 | .u32x3 | .u32x4 => .u32
  | .f32x2 | .f32x3 | .f32x4 => .f32
  | .f16x2 | .f16x3 | .f16x4 => .f16

/-- The number of elements. -/
def Composite.size : Composite → ℕ
  | .u32x2 | .f32x2 | .f16x2 => 2
  | .u32x3 | .f32x3 | .f16x3 => 3
  | .u32x4 | .f32x4 | .f16x4 => 4

/-- The types `t` of the opcodes `Select<t>`. -/
inductive SelectType where
  | u1 | u8 | u16 | u32 | u64 | f16 | f32 | f64
deriving DecidableEq

/-- The type of the operands and of the result. -/
def SelectType.type : SelectType → ValueType
  | .u1 => .u1
  | .u8 => .u8
  | .u16 => .u16
  | .u32 => .u32
  | .u64 => .u64
  | .f16 => .f16
  | .f32 => .f32
  | .f64 => .f64

/-- `IR::Opcode`.  A phi node has its type in its flags. -/
inductive Opcode where
  | phi (type : ValueType)
  | identity
  | void
  | undefU32
  | getCbufU32
  | iAdd32
  | iAdd64
  | iSub32
  | iMul32
  | shiftLeftLogical32
  | shiftRightArithmetic32
  | bitwiseAnd32
  | bitwiseOr32
  | bitwiseXor32
  | bitFieldInsert
  | bitFieldSExtract
  | bitFieldUExtract
  | sLessThan
  | uLessThan
  | iEqual
  | sLessThanEqual
  | uLessThanEqual
  | sGreaterThan
  | uGreaterThan
  | iNotEqual
  | sGreaterThanEqual
  | uGreaterThanEqual
  | logicalOr
  | logicalAnd
  | logicalNot
  | select (type : SelectType)
  | compositeConstruct (type : Composite)
  | compositeExtract (type : Composite)
  | compositeInsert (type : Composite)
  | getZeroFromOp
  | getSignFromOp
  | getCarryFromOp
  | getOverflowFromOp
  | getSparseFromOp
  | getInBoundsFromOp
  | other (opcode : ℕ) (type : ValueType) (numArgs : Fin 6)
deriving DecidableEq

namespace Opcode

/-- `TypeOf`, of an identity the type of nothing. -/
def type : Opcode → ValueType
  | phi type => type
  | identity | void => .void
  | undefU32 | getCbufU32 | iAdd32 | iSub32 | iMul32 | shiftLeftLogical32 | shiftRightArithmetic32
  | bitwiseAnd32 | bitwiseOr32 | bitwiseXor32 | bitFieldInsert | bitFieldSExtract
  | bitFieldUExtract => .u32
  | iAdd64 => .u64
  | sLessThan | uLessThan | iEqual | sLessThanEqual | uLessThanEqual | sGreaterThan | uGreaterThan
  | iNotEqual | sGreaterThanEqual | uGreaterThanEqual | logicalOr | logicalAnd | logicalNot
  | getZeroFromOp | getSignFromOp | getCarryFromOp | getOverflowFromOp | getSparseFromOp
  | getInBoundsFromOp => .u1
  | select t => t.type
  | compositeConstruct c | compositeInsert c => .composite c.element c.size
  | compositeExtract c => c.element
  | other _ type _ => type

/-- `NumArgsOf`.  The operands of a phi node are not kept. -/
def numArgs : Opcode → ℕ
  | phi _ | void | undefU32 => 0
  | identity | logicalNot | getZeroFromOp | getSignFromOp | getCarryFromOp | getOverflowFromOp
  | getSparseFromOp | getInBoundsFromOp => 1
  | getCbufU32 | iAdd32 | iAdd64 | iSub32 | iMul32 | shiftLeftLogical32 | shiftRightArithmetic32
  | bitwiseAnd32 | bitwiseOr32 | bitwiseXor32 | sLessThan | uLessThan | iEqual | sLessThanEqual
  | uLessThanEqual | sGreaterThan | uGreaterThan | iNotEqual | sGreaterThanEqual
  | uGreaterThanEqual | logicalOr | logicalAnd | compositeExtract _ => 2
  | bitFieldSExtract | bitFieldUExtract | select _ | compositeInsert _ => 3
  | bitFieldInsert => 4
  | compositeConstruct c => c.size
  | other _ _ numArgs => numArgs

end Opcode

/-- The members of `AssociatedInsts`; `GetZeroFromOp`, `GetSparseFromOp` and `GetInBoundsFromOp`
share one. -/
inductive Slot where
  | zero | sign | carry | overflow
deriving DecidableEq

/-- The member in which a pseudo-operation is written down. -/
def Opcode.slot : Opcode → Option Slot
  | getZeroFromOp | getSparseFromOp | getInBoundsFromOp => some .zero
  | getSignFromOp => some .sign
  | getCarryFromOp => some .carry
  | getOverflowFromOp => some .overflow
  | _ => none

/-- `AssociatedInsts`. -/
abbrev AssociatedInsts : Type := Slot → Option ℕ

instance neZeroFive : NeZero 5 := ⟨by decide⟩

/-- `IR::Inst`. -/
structure Inst where
  op : Opcode
  args : Fin 5 → Value
  associated : Option AssociatedInsts

/-- `Inst::Inst`. -/
def Inst.new (op : Opcode) : Inst := ⟨op, fun _ => .void, none⟩

/-- The instructions of a program. -/
structure Graph where
  insts : ℕ → Inst
  next : ℕ

namespace Graph

/-- `Inst::GetOpcode`. -/
def op (g : Graph) (i : ℕ) : Opcode := (g.insts i).op

/-- `Inst::Arg`. -/
def arg (g : Graph) (i : ℕ) (index : Fin 5) : Value := (g.insts i).args index

/-- `Inst::associated_insts`. -/
def associated (g : Graph) (i : ℕ) : Option AssociatedInsts := (g.insts i).associated

/-- `Inst::HasAssociatedPseudoOperation`. -/
def hasAssociatedPseudoOperation (g : Graph) (i : ℕ) : Bool := (g.associated i).isSome

/-- Change one instruction. -/
def modify (g : Graph) (i : ℕ) (f : Inst → Inst) : Graph :=
  { g with insts := Function.update g.insts i (f (g.insts i)) }

/-! ### Values -/

/-- `Value::Resolve`, through so many identities. -/
def resolveFrom (g : Graph) : ℕ → Value → Value
  | fuel + 1, .inst i => if g.op i = .identity then g.resolveFrom fuel (g.arg i 0) else .inst i
  | _, v => v

/-- `Value::Resolve`.  No chain of identities is longer than the program. -/
def resolve (g : Graph) (v : Value) : Value := g.resolveFrom g.next v

/-- `Value::IsImmediate`. -/
def isImmediate (g : Graph) (v : Value) : Bool :=
  match g.resolve v with
  | .inst _ => false
  | _ => true

/-- `Value::TryInstRecursive`. -/
def tryInstRecursive (g : Graph) (v : Value) : Option ℕ :=
  match g.resolve v with
  | .inst i => some i
  | _ => none

/-- `Value::InstRecursive`. -/
def instRecursive (g : Graph) (v : Value) : Exec ℕ :=
  match g.resolve v with
  | .inst i => pure i
  | _ => .fault

/-- `Arg<T>`: the immediate that a value is, which has to be of the type. -/
def argAs {α : Type} [ImmType α] (g : Graph) (v : Value) : Exec α :=
  match g.resolve v with
  | .imm c =>
    match ImmType.ofImm c with
    | some a => pure a
    | none => .fault
  | _ => .fault

/-- `Value::U1`. -/
def u1 (g : Graph) (v : Value) : Exec Bool := g.argAs v

/-- `Value::U32`. -/
def u32 (g : Graph) (v : Value) : Exec (BitVec 32) := g.argAs v

/-- `Value::U64`. -/
def u64 (g : Graph) (v : Value) : Exec (BitVec 64) := g.argAs v

/-- `Value::Type`. -/
def type (g : Graph) (v : Value) : ValueType :=
  match g.resolve v with
  | .void => .void
  | .inst i => (g.op i).type
  | .imm c => c.type

/-- The constructor of `TypedValue`, which throws `InvalidArgument`. -/
def typed (g : Graph) (type : ValueType) (v : Value) : Exec Value :=
  if g.type v = type then pure v else .fault

/-! ### Instructions -/

/-- `Inst::AreAllArgsImmediates`, which throws on a phi node. -/
def areAllArgsImmediates (g : Graph) (i : ℕ) : Exec Bool :=
  match g.op i with
  | .phi _ => .fault
  | _ => pure (decide (∀ k : Fin 5, (k : ℕ) < (g.op i).numArgs → g.isImmediate (g.arg i k) = true))

/-- `Inst::GetAssociatedPseudoOperation`, which throws when another pseudo-operation is there. -/
def getAssociatedPseudoOperation (g : Graph) (i : ℕ) (opcode : Opcode) : Exec (Option ℕ) :=
  match g.associated i with
  | none => pure none
  | some insts =>
    match opcode.slot with
    | none => .fault
    | some slot =>
      match insts slot with
      | none => pure none
      | some pseudo => if g.op pseudo = opcode then pure (some pseudo) else .fault

/-- Write down in `p` the pseudo-operation of a slot. -/
def associate (g : Graph) (p : ℕ) (slot : Slot) (pseudo : Option ℕ) : Graph :=
  g.modify p fun inst =>
    { inst with associated := some (Function.update (inst.associated.getD fun _ => none) slot pseudo) }

/-- `Inst::Use` of instruction `i`, which throws when the slot is taken. -/
def use (g : Graph) (i : ℕ) (value : Value) : Exec Graph :=
  match value, (g.op i).slot with
  | .inst p, some slot =>
    match (g.associated p).bind (· slot) with
    | none => pure (g.associate p slot (some i))
    | some _ => .fault
  | .inst _, none => pure g
  | _, _ => .fault

/-- `Inst::UndoUse` of instruction `i`, which throws on a slot of another pseudo-operation. -/
def undoUse (g : Graph) (i : ℕ) (value : Value) : Exec Graph :=
  match value, (g.op i).slot with
  | .inst p, some slot =>
    match (g.associated p).bind (· slot) with
    | none => .fault
    | some pseudo => if g.op pseudo = g.op i then pure (g.associate p slot none) else .fault
  | .inst _, none => pure g
  | _, _ => .fault

/-- `Inst::SetArg`. -/
def setArg (g : Graph) (i : ℕ) (index : Fin 5) (value : Value) : Exec Graph := do
  if (g.op i).numArgs ≤ index then .fault
  else
    let g ← (if g.isImmediate (g.arg i index) then pure g else g.undoUse i (g.arg i index) :
      Exec Graph)
    let g ← (if g.isImmediate value then pure g else g.use i value : Exec Graph)
    pure (g.modify i fun inst => { inst with args := Function.update inst.args index value })

/-- `Inst::ClearArgs`. -/
def clearArgs (g : Graph) (i : ℕ) : Exec Graph := do
  let g ← (List.finRange 5).foldlM
    (fun (g : Graph) k => if g.isImmediate (g.arg i k) then pure g else g.undoUse i (g.arg i k)) g
  pure (g.modify i fun inst => { inst with args := fun _ => .void })

/-- `Inst::ReplaceUsesWith`. -/
def replaceUsesWith (g : Graph) (i : ℕ) (replacement : Value) : Exec Graph := do
  let g ← g.clearArgs i
  pure (g.modify i fun inst =>
    { inst with op := .identity, args := Function.update inst.args 0 replacement })

/-- `Block::PrependNewInst`, and the value of the new instruction. -/
def prependNewInst (g : Graph) (op : Opcode) (args : List Value) : Exec (Value × Graph) :=
  if op.numArgs ≠ args.length then .fault
  else do
    let i := g.next
    let g : Graph := ⟨Function.update g.insts i (Inst.new op), i + 1⟩
    let g ← (List.finRange 5).foldlM
      (fun (g : Graph) (k : Fin 5) =>
        if h : (k : ℕ) < args.length then g.setArg i k args[k] else pure g) g
    pure (.inst i, g)

end Graph
end Shader
end NXEmu
