/-
# The meaning of microinstructions

A valuation gives the instructions of a graph their values at one moment of an execution, where a
value may be undefined.  It is consistent when each operation has the value of its operands, equal
reads of constant buffers have equal values and each pseudo-operation has the flag of its parent.
The values of phi nodes and of the opcodes without a meaning here are arbitrary.

The meaning of an operation is that of the instruction of the host that it becomes: shifts by the
width or more, bit fields that leave the word and indices outside of a composite have undefined
results.
-/

import NXEmu.Shader.Microinstruction

namespace NXEmu
namespace Shader

/-- A value at run time. -/
inductive Val where
  | scalar (value : Imm)
  | composite (element : ValueType) (elements : List Imm)
deriving DecidableEq

namespace Val

/-- The type of a value. -/
def type : Val → ValueType
  | scalar c => c.type
  | composite element elements => .composite element elements.length

/-- The value of a type that a value is. -/
def as {α : Type} [ImmType α] : Val → Option α
  | scalar c => ImmType.ofImm c
  | _ => none

/-- The scalar that a value is. -/
def imm : Val → Option Imm
  | scalar c => some c
  | _ => none

/-- The elements of a composite. -/
def elements : Val → Option (ValueType × List Imm)
  | composite element elements => some (element, elements)
  | _ => none

end Val

/-- The values of the instructions, `none` where they are undefined. -/
abbrev Valuation : Type := ℕ → Option Val

/-- The value of an argument. -/
def Valuation.eval (ν : Valuation) : Value → Option Val
  | .void => none
  | .inst i => ν i
  | .imm c => some (.scalar c)

/-! ### Operations -/

variable {α β : Type} [ImmType α] [ImmType β]

/-- An operation on two scalars of the same type. -/
def evalBinary (f : α → α → β) (a : Fin 5 → Option Val) : Option Val := do
  let x ← (a 0).bind Val.as
  let y ← (a 1).bind Val.as
  some (.scalar (ImmType.imm (f x y)))

/-- A shift. -/
def evalShift (f : BitVec 32 → ℕ → BitVec 32) (a : Fin 5 → Option Val) : Option Val := do
  let x : BitVec 32 ← (a 0).bind Val.as
  let y : BitVec 32 ← (a 1).bind Val.as
  guard (y.toNat < 32)
  some (.scalar (.u32 (f x y.toNat)))

/-- The bits of a word from `offset` on, extended with zeros or with the last one. -/
def bitField (isSigned : Bool) (base : BitVec 32) (offset count : ℕ) : BitVec 32 :=
  let field := base.extractLsb' offset count
  if isSigned then field.signExtend 32 else field.setWidth 32

/-- A word with the low bits of `insert` in the place of its own from `offset` on. -/
def withBitField (base insert : BitVec 32) (offset count : ℕ) : BitVec 32 :=
  let mask := (BitVec.allOnes count).setWidth 32 <<< offset
  (base &&& ~~~mask) ||| (insert <<< offset &&& mask)

/-- `BitFieldUExtract` and `BitFieldSExtract`. -/
def evalBitFieldExtract (isSigned : Bool) (a : Fin 5 → Option Val) : Option Val := do
  let base : BitVec 32 ← (a 0).bind Val.as
  let offset : BitVec 32 ← (a 1).bind Val.as
  let count : BitVec 32 ← (a 2).bind Val.as
  guard (offset.toNat + count.toNat ≤ 32)
  some (.scalar (.u32 (bitField isSigned base offset.toNat count.toNat)))

/-- `BitFieldInsert`. -/
def evalBitFieldInsert (a : Fin 5 → Option Val) : Option Val := do
  let base : BitVec 32 ← (a 0).bind Val.as
  let insert : BitVec 32 ← (a 1).bind Val.as
  let offset : BitVec 32 ← (a 2).bind Val.as
  let count : BitVec 32 ← (a 3).bind Val.as
  guard (offset.toNat + count.toNat ≤ 32)
  some (.scalar (.u32 (withBitField base insert offset.toNat count.toNat)))

/-- `Select`: the operand that is not chosen may be undefined. -/
def evalSelect (a : Fin 5 → Option Val) : Option Val := do
  let cond : Bool ← (a 0).bind Val.as
  if cond then a 1 else a 2

/-- `CompositeConstruct`. -/
def evalConstruct (c : Composite) (a : Fin 5 → Option Val) : Option Val := do
  let elements ← ((List.finRange 5).take c.size).mapM fun k => (a k).bind Val.imm
  some (.composite c.element elements)

/-- `CompositeExtract`. -/
def evalExtract (a : Fin 5 → Option Val) : Option Val := do
  let (_, elements) ← (a 0).bind Val.elements
  let index : BitVec 32 ← (a 1).bind Val.as
  let x ← elements[index.toNat]?
  some (.scalar x)

/-- `CompositeInsert`. -/
def evalInsert (a : Fin 5 → Option Val) : Option Val := do
  let (element, elements) ← (a 0).bind Val.elements
  let object ← (a 1).bind Val.imm
  let index : BitVec 32 ← (a 2).bind Val.as
  guard (index.toNat < elements.length)
  some (.composite element (elements.set index.toNat object))

/-- The meaning of an opcode, if it has one here. -/
def Opcode.meaning : Opcode → Option ((Fin 5 → Option Val) → Option Val)
  | identity => some fun a => a 0
  | iAdd32 => some (evalBinary fun x y : BitVec 32 => x + y)
  | iAdd64 => some (evalBinary fun x y : BitVec 64 => x + y)
  | iSub32 => some (evalBinary fun x y : BitVec 32 => x - y)
  | iMul32 => some (evalBinary fun x y : BitVec 32 => x * y)
  | shiftLeftLogical32 => some (evalShift fun x y => x <<< y)
  | shiftRightArithmetic32 => some (evalShift fun x y => x.sshiftRight y)
  | bitwiseAnd32 => some (evalBinary fun x y : BitVec 32 => x &&& y)
  | bitwiseOr32 => some (evalBinary fun x y : BitVec 32 => x ||| y)
  | bitwiseXor32 => some (evalBinary fun x y : BitVec 32 => x ^^^ y)
  | bitFieldInsert => some evalBitFieldInsert
  | bitFieldSExtract => some (evalBitFieldExtract true)
  | bitFieldUExtract => some (evalBitFieldExtract false)
  | sLessThan => some (evalBinary fun x y : BitVec 32 => decide (x.toInt < y.toInt))
  | uLessThan => some (evalBinary fun x y : BitVec 32 => decide (x.toNat < y.toNat))
  | iEqual => some (evalBinary fun x y : BitVec 32 => decide (x = y))
  | sLessThanEqual => some (evalBinary fun x y : BitVec 32 => decide (x.toInt ≤ y.toInt))
  | uLessThanEqual => some (evalBinary fun x y : BitVec 32 => decide (x.toNat ≤ y.toNat))
  | sGreaterThan => some (evalBinary fun x y : BitVec 32 => decide (x.toInt > y.toInt))
  | uGreaterThan => some (evalBinary fun x y : BitVec 32 => decide (x.toNat > y.toNat))
  | iNotEqual => some (evalBinary fun x y : BitVec 32 => decide (x ≠ y))
  | sGreaterThanEqual => some (evalBinary fun x y : BitVec 32 => decide (x.toInt ≥ y.toInt))
  | uGreaterThanEqual => some (evalBinary fun x y : BitVec 32 => decide (x.toNat ≥ y.toNat))
  | logicalOr => some (evalBinary fun x y : Bool => x || y)
  | logicalAnd => some (evalBinary fun x y : Bool => x && y)
  | logicalNot => some fun a => ((a 0).bind Val.as).map fun b : Bool => .scalar (.u1 !b)
  | select _ => some evalSelect
  | compositeConstruct c => some (evalConstruct c)
  | compositeExtract _ => some evalExtract
  | compositeInsert _ => some evalInsert
  | _ => none

/-- The operations that have the flags of their result. -/
def Opcode.hasFlags : Opcode → Bool
  | iAdd32 | bitwiseAnd32 | bitwiseOr32 | bitwiseXor32 | bitFieldSExtract | bitFieldUExtract => true
  | _ => false

/-- The flag that a pseudo-operation asks its parent for, if that has it. -/
def flag (pseudo parent : Opcode) (a : Fin 5 → Option Val) (result : Option Val) : Option Bool :=
  match pseudo with
  | .getZeroFromOp =>
    if parent.hasFlags then (result.bind Val.as).map fun x : BitVec 32 => decide (x = 0) else none
  | .getSignFromOp => if parent.hasFlags then (result.bind Val.as).map fun x : BitVec 32 => x.msb else none
  | .getCarryFromOp =>
    if parent = .iAdd32 then do
      let x : BitVec 32 ← (a 0).bind Val.as
      let y : BitVec 32 ← (a 1).bind Val.as
      some (x.uaddOverflow y)
    else none
  | .getOverflowFromOp =>
    if parent = .iAdd32 then do
      let x : BitVec 32 ← (a 0).bind Val.as
      let y : BitVec 32 ← (a 1).bind Val.as
      some (x.saddOverflow y)
    else none
  | _ => none

/-! ### Graphs -/

/-- The value of argument `k` of instruction `i`. -/
def Graph.evalArg (g : Graph) (ν : Valuation) (i : ℕ) (k : Fin 5) : Option Val := ν.eval (g.arg i k)

/-- The flag that instruction `z` stands for: what it has been replaced with, or that of its parent. -/
def Graph.flagValue (g : Graph) (ν : Valuation) (z : ℕ) : Option Bool :=
  match g.op z, g.arg z 0 with
  | .identity, v => (ν.eval v).bind Val.as
  | pseudo, .inst p => flag pseudo (g.op p) (g.evalArg ν p) (ν p)
  | _, _ => none

/-- A valuation consistent with a graph. -/
structure Consistent (g : Graph) (ν : Valuation) : Prop where
  /-- Operations have the value of their operands. -/
  meaning : ∀ i f, (g.op i).meaning = some f → ν i = f (g.evalArg ν i)
  /-- Values have the type of their opcode. -/
  typed : ∀ i v, g.op i ≠ .identity → ν i = some v → v.type = (g.op i).type
  /-- Equal reads of constant buffers have equal values. -/
  cbuf : ∀ i j, g.op i = .getCbufU32 → g.op j = .getCbufU32 → g.arg i 0 = g.arg j 0 →
    g.arg i 1 = g.arg j 1 → ν i = ν j
  /-- Pseudo-operations have the flag of their parent. -/
  flags : ∀ z p b, (g.op z).slot.isSome = true → g.arg z 0 = .inst p →
    flag (g.op z) (g.op p) (g.evalArg ν p) (ν p) = some b → ν z = some (.scalar (.u1 b))

/-- A graph as the frontend builds it and the passes leave it. -/
structure WellFormed (g : Graph) : Prop where
  /-- Only phi nodes refer to later instructions. -/
  ordered : ∃ rank : ℕ → ℕ, ∀ i k j, g.arg i k = .inst j → rank j < rank i
  created : ∀ i k j, g.arg i k = .inst j → j < g.next
  /-- No instruction has been made with a later number. -/
  fresh : ∀ i, g.next ≤ i → g.insts i = Inst.new .void
  unused : ∀ i (k : Fin 5), (g.op i).numArgs ≤ k → g.arg i k = .void
  /-- Pseudo-operations are written down in their parent, and nothing else is. -/
  associated : ∀ p s z, (g.associated p).bind (· s) = some z ↔
    g.arg z 0 = .inst p ∧ (g.op z).slot = some s
  /-- Sparse and in-bounds flags belong to instructions without flags of a result. -/
  sparse : ∀ z p, g.op z = .getSparseFromOp ∨ g.op z = .getInBoundsFromOp → g.arg z 0 = .inst p →
    (g.op p).hasFlags = false

end Shader
end NXEmu
