/-
# Constant propagation

`src/yuzu_shader_recompiler/ir_opt/constant_propagation_pass.cpp`: one instruction is folded at a
time.  Of the routine `ConstantPropagation` the integer, logical, select and composite folds are
modelled; the folds of the other opcodes are a parameter.

`DEBUG_ASSERT`s on the type of a value and thrown exceptions end in a fault.
-/

import NXEmu.Shader.Microinstruction
import Mathlib.Data.BitVec

namespace NXEmu
namespace Shader

variable {α β : Type} [ImmType α] [ImmType β]

/-- `FoldCommutative`: the result says whether the instruction is still there. -/
def foldCommutative (immFn : α → α → α) (g : Graph) (i : ℕ) : Exec (Bool × Graph) := do
  let lhs := g.arg i 0
  let rhs := g.arg i 1
  match g.isImmediate lhs, g.isImmediate rhs with
  | true, true =>
    let a ← g.argAs lhs
    let b ← g.argAs rhs
    let g ← g.replaceUsesWith i (.imm (ImmType.imm (immFn a b)))
    pure (false, g)
  | true, false =>
    let rhsInst ← g.instRecursive rhs
    if g.op rhsInst = g.op i ∧ g.isImmediate (g.arg rhsInst 1) = true then
      let a ← g.argAs lhs
      let b ← g.argAs (g.arg rhsInst 1)
      let x := g.arg rhsInst 0
      let g ← g.setArg i 0 x
      let g ← g.setArg i 1 (.imm (ImmType.imm (immFn a b)))
      pure (true, g)
    else
      -- normalize
      let g ← g.setArg i 0 rhs
      let g ← g.setArg i 1 lhs
      pure (true, g)
  | false, true =>
    let lhsInst ← g.instRecursive lhs
    if g.op lhsInst = g.op i ∧ g.isImmediate (g.arg lhsInst 1) = true then
      let a ← g.argAs rhs
      let b ← g.argAs (g.arg lhsInst 1)
      let x := g.arg lhsInst 0
      let g ← g.setArg i 0 x
      let g ← g.setArg i 1 (.imm (ImmType.imm (immFn a b)))
      pure (true, g)
    else pure (true, g)
  | false, false => pure (true, g)

/-- `EvalImmediates` of a function of two arguments. -/
def evalImmediates₂ (g : Graph) (i : ℕ) (f : α → α → β) : Exec Imm := do
  let a ← g.argAs (g.arg i 0)
  let b ← g.argAs (g.arg i 1)
  pure (ImmType.imm (f a b))

/-- `EvalImmediates` of a function of three arguments that may throw. -/
def evalImmediates₃ (g : Graph) (i : ℕ) (f : α → α → α → Exec β) : Exec Imm := do
  let a ← g.argAs (g.arg i 0)
  let b ← g.argAs (g.arg i 1)
  let c ← g.argAs (g.arg i 2)
  let x ← f a b c
  pure (ImmType.imm x)

/-- `EvalImmediates` of a function of four arguments that may throw. -/
def evalImmediates₄ (g : Graph) (i : ℕ) (f : α → α → α → α → Exec β) : Exec Imm := do
  let a ← g.argAs (g.arg i 0)
  let b ← g.argAs (g.arg i 1)
  let c ← g.argAs (g.arg i 2)
  let d ← g.argAs (g.arg i 3)
  let x ← f a b c d
  pure (ImmType.imm x)

/-- `FoldWhenAllImmediates`: the result says whether it has folded. -/
def foldWhenAllImmediates (g : Graph) (i : ℕ) (eval : Exec Imm) : Exec (Bool × Graph) := do
  let all ← g.areAllArgsImmediates i
  if !all || g.hasAssociatedPseudoOperation i then pure (false, g)
  else
    let x ← eval
    let g ← g.replaceUsesWith i (.imm x)
    pure (true, g)

/-- `CanFoldWithZeroSign`. -/
def canFoldWithZeroSign (g : Graph) (i : ℕ) : Exec Bool := do
  let carry ← g.getAssociatedPseudoOperation i .getCarryFromOp
  if carry.isSome then pure false
  else
    let overflow ← g.getAssociatedPseudoOperation i .getOverflowFromOp
    pure overflow.isNone

/-- Replace the uses of the pseudo-operation of an instruction, if there is one. -/
def replacePseudoOperation (g : Graph) (i : ℕ) (opcode : Opcode) (flag : Bool) : Exec Graph := do
  match ← g.getAssociatedPseudoOperation i opcode with
  | none => pure g
  | some pseudo => g.replaceUsesWith pseudo (.imm (.u1 flag))

/-- `ReplaceU32WithZeroSign`. -/
def replaceU32WithZeroSign (g : Graph) (i : ℕ) (result : BitVec 32) : Exec Graph := do
  let g ← replacePseudoOperation g i .getZeroFromOp (decide (result = 0))
  let g ← replacePseudoOperation g i .getSignFromOp (decide (result &&& 0x80000000#32 ≠ 0))
  g.replaceUsesWith i (.imm (.u32 result))

/-- `FoldWhenAllImmediatesWithZeroSign`. -/
def foldWhenAllImmediatesWithZeroSign (g : Graph) (i : ℕ) (eval : Exec Imm) : Exec Graph := do
  let all ← g.areAllArgsImmediates i
  if !all then pure g
  else
    let can ← canFoldWithZeroSign g i
    if !can then pure g
    else
      match ← eval with
      | .u32 result => replaceU32WithZeroSign g i result
      | _ => .fault

/-- The result of `FoldBitwise32` for two resolved operands, if there is one. -/
def foldBitwise32Result (g : Graph) (i : ℕ) (lhs rhs : Value) : Option (BitVec 32) :=
  match g.op i, lhs, rhs with
  | .bitwiseAnd32, lhs, rhs =>
    if lhs = .imm (.u32 0) ∨ rhs = .imm (.u32 0) then some 0
    else
      match lhs, rhs with
      | .imm (.u32 a), .imm (.u32 b) => some (a &&& b)
      | _, _ => none
  | .bitwiseOr32, lhs, rhs =>
    if lhs = .imm (.u32 0xffffffff) ∨ rhs = .imm (.u32 0xffffffff) then some 0xffffffff
    else
      match lhs, rhs with
      | .imm (.u32 a), .imm (.u32 b) => some (a ||| b)
      | _, _ => none
  | .bitwiseXor32, .imm (.u32 a), .imm (.u32 b) => some (a ^^^ b)
  | .bitwiseXor32, .inst j, .inst k => if j = k ∧ g.op j ≠ .undefU32 then some 0 else none
  | _, _, _ => none

/-- `FoldBitwise32`. -/
def foldBitwise32 (g : Graph) (i : ℕ) : Exec Graph := do
  let can ← canFoldWithZeroSign g i
  if !can then pure g
  else
    match foldBitwise32Result g i (g.resolve (g.arg i 0)) (g.resolve (g.arg i 1)) with
    | none => pure g
    | some result => replaceU32WithZeroSign g i result

/-- The function that `FoldBitFieldExtract` evaluates. -/
def bitFieldExtractImm (isSigned : Bool) (base shift count : BitVec 32) : Exec (BitVec 32) :=
  if shift > 32 ∨ count > 32 - shift then .fault
  else if count = 0 then pure 0
  else
    let result := (base >>> shift.toNat) &&& (~~~0#32 >>> (32 - count).toNat)
    if !isSigned then pure result
    else
      let signBit := 1#32 <<< (count - 1).toNat
      pure ((result ^^^ signBit) - signBit)

/-- `FoldBitFieldExtract`. -/
def foldBitFieldExtract (g : Graph) (i : ℕ) (isSigned : Bool) : Exec Graph :=
  foldWhenAllImmediatesWithZeroSign g i (evalImmediates₃ g i (bitFieldExtractImm isSigned))

/-- The function that the fold of `BitFieldInsert` evaluates. -/
def bitFieldInsertImm (base insert offset bits : BitVec 32) : Exec (BitVec 32) :=
  if bits ≥ 32 ∨ offset ≥ 32 then .fault
  else
    pure ((base &&& ~~~(~~~(~~~0#32 <<< bits.toNat) <<< offset.toNat)) ||| (insert <<< offset.toNat))

/-! ### Additions -/

/-- The comparison of `AreEqual`: the same resolved value, or reads of the same constant buffer. -/
def equalResolved (g : Graph) (lhs rhs : Value) : Bool :=
  lhs = rhs ||
    match lhs, rhs with
    | .inst a, .inst b =>
      decide (g.op a = .getCbufU32 ∧ g.op b = .getCbufU32 ∧
        g.arg a 0 = g.arg b 0 ∧ g.arg a 1 = g.arg b 1)
    | _, _ => false

/-- `AreEqual`. -/
def areEqual (g : Graph) : List Value → Bool
  | a :: b :: range => equalResolved g (g.resolve a) (g.resolve b) && areEqual g (b :: range)
  | _ => true

/-- `BitFieldUExtract` of sixteen bits from `offset` on, in the pattern of `FoldXmadMultiplyAdd`. -/
def isHalf (g : Graph) (i : ℕ) (offset : BitVec 32) : Prop :=
  g.op i = .bitFieldUExtract ∧ g.arg i 1 = .imm (.u32 offset) ∧ g.arg i 2 = .imm (.u32 16)

instance {g : Graph} {i : ℕ} {offset : BitVec 32} : Decidable (isHalf g i offset) :=
  inferInstanceAs (Decidable (_ ∧ _ ∧ _))

/-- The part of the pattern under `_25`: the instructions `_22` and `_11`. -/
def matchXmadHigh (g : Graph) (i25 : ℕ) : Option (ℕ × ℕ) := do
  guard (g.op i25 = .shiftLeftLogical32 ∧ g.arg i25 1 = .imm (.u32 16))
  let i24 ← g.tryInstRecursive (g.arg i25 0)
  guard (g.op i24 = .iMul32)
  let i22 ← g.tryInstRecursive (g.arg i24 0)
  let i23 ← g.tryInstRecursive (g.arg i24 1)
  guard (isHalf g i22 16 ∧ isHalf g i23 16)
  let i11 ← g.tryInstRecursive (g.arg i23 0)
  some (i22, i11)

/-- The part of the pattern under `_11`: the instructions `_6`, `_7` and `_10`. -/
def matchXmadInsert (g : Graph) (i11 : ℕ) : Option (ℕ × ℕ × ℕ) := do
  guard (g.op i11 = .bitFieldInsert ∧ g.arg i11 2 = .imm (.u32 16) ∧ g.arg i11 3 = .imm (.u32 16))
  let i8 ← g.tryInstRecursive (g.arg i11 0)
  let i10 ← g.tryInstRecursive (g.arg i11 1)
  guard (g.op i8 = .iMul32)
  let i6 ← g.tryInstRecursive (g.arg i8 0)
  let i7 ← g.tryInstRecursive (g.arg i8 1)
  guard (isHalf g i6 0 ∧ isHalf g i7 16 ∧ isHalf g i10 0)
  some (i6, i7, i10)

/-- The part of the pattern under `_27`: the instructions `_15`, `_16` and `_18`.  An immediate as the
first operand of `_26` is no instruction and differs from `_11`. -/
def matchXmadLow (g : Graph) (i27 i11 : ℕ) : Option (ℕ × ℕ × ℕ) := do
  guard (g.op i27 = .iAdd32)
  let i26 ← g.tryInstRecursive (g.arg i27 0)
  let i18 ← g.tryInstRecursive (g.arg i27 1)
  guard (g.op i26 = .shiftLeftLogical32 ∧ g.arg i26 1 = .imm (.u32 16))
  guard (g.tryInstRecursive (g.arg i26 0) = some i11)
  guard (g.op i18 = .iAdd32)
  let i17 ← g.tryInstRecursive (g.arg i18 0)
  guard (g.op i17 = .iMul32)
  let i15 ← g.tryInstRecursive (g.arg i17 0)
  let i16 ← g.tryInstRecursive (g.arg i17 1)
  guard (isHalf g i15 0 ∧ isHalf g i16 0)
  some (i15, i16, i18)

/-- The pattern of `FoldXmadMultiplyAdd`: `op_as`, `op_bs` and `op_c`. -/
def matchXmadMultiplyAdd (g : Graph) (i : ℕ) : Option (List Value × List Value × Value) := do
  let i25 ← g.tryInstRecursive (g.arg i 0)
  let i27 ← g.tryInstRecursive (g.arg i 1)
  let (i22, i11) ← matchXmadHigh g i25
  let (i6, i7, i10) ← matchXmadInsert g i11
  let (i15, i16, i18) ← matchXmadLow g i27 i11
  some ([g.resolve (g.arg i7 0), g.resolve (g.arg i16 0), g.resolve (g.arg i10 0)],
    [g.resolve (g.arg i22 0), g.resolve (g.arg i6 0), g.resolve (g.arg i15 0)], g.arg i18 1)

/-- `FoldXmadMultiplyAdd`: the result says whether it has folded. -/
def foldXmadMultiplyAdd (g : Graph) (i : ℕ) : Exec (Bool × Graph) :=
  match matchXmadMultiplyAdd g i with
  | none => pure (false, g)
  | some (opAs, opBs, opC) => do
    let opC ← g.typed .u32 opC
    if !areEqual g opAs || !areEqual g opBs then pure (false, g)
    else
      let opA ← g.typed .u32 (opAs.getD 0 .void)
      let opB ← g.typed .u32 (opBs.getD 1 .void)
      let (temp, g) ← g.prependNewInst .iMul32 [opA, opB]
      let (result, g) ← g.prependNewInst .iAdd32 [temp, opC]
      let g ← g.replaceUsesWith i result
      pure (true, g)

/-- The start of the pattern of `FoldXmadMultiply`: `lhs_mul` and `rhs_mul`. -/
def matchXmadMultiply (g : Graph) (i : ℕ) : Option (ℕ × ℕ) := do
  let lhsShl ← g.tryInstRecursive (g.arg i 0)
  let rhsMul ← g.tryInstRecursive (g.arg i 1)
  guard (g.op lhsShl = .shiftLeftLogical32 ∧ g.arg lhsShl 1 = .imm (.u32 16))
  let lhsMul ← g.tryInstRecursive (g.arg lhsShl 0)
  guard (g.op lhsMul = .iMul32 ∧ g.op rhsMul = .iMul32)
  some (lhsMul, rhsMul)

/-- `FoldXmadMultiply`: the result says whether it has folded. -/
def foldXmadMultiply (g : Graph) (i : ℕ) : Exec (Bool × Graph) :=
  match matchXmadMultiply g i with
  | none => pure (false, g)
  | some (lhsMul, rhsMul) => do
    let factorB ← g.typed .u32 (g.arg lhsMul 1)
    if g.resolve factorB ≠ g.resolve (g.arg rhsMul 1) then pure (false, g)
    else
      match g.tryInstRecursive (g.arg lhsMul 0), g.tryInstRecursive (g.arg rhsMul 0) with
      | some lhsBfe, some rhsBfe =>
        if g.op lhsBfe ≠ .bitFieldUExtract ∨ g.op rhsBfe ≠ .bitFieldUExtract then pure (false, g)
        else if g.arg lhsBfe 1 ≠ .imm (.u32 16) ∨ g.arg lhsBfe 2 ≠ .imm (.u32 16) then
          pure (false, g)
        else if g.arg rhsBfe 1 ≠ .imm (.u32 0) ∨ g.arg rhsBfe 2 ≠ .imm (.u32 16) then
          pure (false, g)
        else
          let factorA ← g.typed .u32 (g.arg lhsBfe 0)
          if g.resolve factorA ≠ g.resolve (g.arg rhsBfe 0) then pure (false, g)
          else
            let (result, g) ← g.prependNewInst .iMul32 [factorA, factorB]
            let g ← g.replaceUsesWith i result
            pure (true, g)
      | _, _ => pure (false, g)

/-- `FoldAdd`, up to the patterns that only 32-bit additions have. -/
def foldAdd (α : Type) [ImmType α] [Add α] [Zero α] [DecidableEq α]
    (patterns : Graph → ℕ → Exec Graph) (g : Graph) (i : ℕ) : Exec Graph := do
  if g.hasAssociatedPseudoOperation i then pure g
  else
    let (goes, g) ← foldCommutative (fun a b : α => a + b) g i
    if !goes then pure g
    else
      let rhs := g.arg i 1
      let neutral ← (if g.isImmediate rhs then do
          let b : α ← g.argAs rhs
          pure (decide (b = 0))
        else pure false : Exec Bool)
      if neutral then g.replaceUsesWith i (g.arg i 0)
      else patterns g i

/-- The patterns at the end of `FoldAdd<u32>`: two multiplications, then a multiplication and an
addition. -/
def foldXmad (g : Graph) (i : ℕ) : Exec Graph := do
  let (folded, g) ← foldXmadMultiply g i
  if folded then pure g
  else
    let (_, g) ← foldXmadMultiplyAdd g i
    pure g

/-! ### Subtractions -/

/-- `equal_cbuf` in `FoldISub32`. -/
def equalCbuf (g : Graph) (a b : ℕ) : Bool :=
  decide (g.op a = .getCbufU32 ∧ g.op b = .getCbufU32 ∧
    g.arg a 0 = g.arg b 0 ∧ g.arg a 1 = g.arg b 1)

/-- `add_op_a` and `add_op_b` in `FoldISub32`, canonicalized. -/
def addOperands (g : Graph) (opA : ℕ) : Value × Value :=
  if g.isImmediate (g.arg opA 1) then (g.arg opA 1, g.arg opA 0) else (g.arg opA 0, g.arg opA 1)

/-- The end of `FoldISub32`, with the canonicalized operands: an addition and a read of a constant
buffer. -/
def foldISubCbuf (g : Graph) (i opA opB : ℕ) : Exec Graph := do
  if g.op opB ≠ .getCbufU32 ∨ g.op opA ≠ .iAdd32 then pure g
  else
    let (addOpA, addOpB) := addOperands g opA
    if g.isImmediate addOpB then pure g
    else
      let addCbuf ← g.instRecursive addOpB
      if equalCbuf g addCbuf opB then g.replaceUsesWith i addOpA else pure g

/-- `FoldISub32`. -/
def foldISub32 (g : Graph) (i : ℕ) : Exec Graph := do
  let (folded, g) ← foldWhenAllImmediates g i (evalImmediates₂ g i fun a b : BitVec 32 => a - b)
  if folded then pure g
  else if g.isImmediate (g.arg i 0) || g.isImmediate (g.arg i 1) then pure g
  else
    let opA ← g.instRecursive (g.arg i 0)
    let opB ← g.instRecursive (g.arg i 1)
    if equalCbuf g opA opB then g.replaceUsesWith i (.imm (.u32 0))
    else if g.op opB = .iAdd32 then foldISubCbuf g i opB opA
    else foldISubCbuf g i opA opB

/-! ### Selects and logical operations -/

/-- `FoldSelect`. -/
def foldSelect (g : Graph) (i : ℕ) : Exec Graph := do
  let cond := g.arg i 0
  if g.isImmediate cond then
    let b ← g.u1 cond
    g.replaceUsesWith i (if b then g.arg i 1 else g.arg i 2)
  else pure g

/-- `FoldLogicalAnd`. -/
def foldLogicalAnd (g : Graph) (i : ℕ) : Exec Graph := do
  let (goes, g) ← foldCommutative (fun a b : Bool => a && b) g i
  if !goes then pure g
  else
    let rhs := g.arg i 1
    if g.isImmediate rhs then
      let b ← g.u1 rhs
      if b then g.replaceUsesWith i (g.arg i 0) else g.replaceUsesWith i (.imm (.u1 false))
    else pure g

/-- `FoldLogicalOr`. -/
def foldLogicalOr (g : Graph) (i : ℕ) : Exec Graph := do
  let (goes, g) ← foldCommutative (fun a b : Bool => a || b) g i
  if !goes then pure g
  else
    let rhs := g.arg i 1
    if g.isImmediate rhs then
      let b ← g.u1 rhs
      if b then g.replaceUsesWith i (.imm (.u1 true)) else g.replaceUsesWith i (g.arg i 0)
    else pure g

/-- `FoldLogicalNot`. -/
def foldLogicalNot (g : Graph) (i : ℕ) : Exec Graph := do
  let value ← g.typed .u1 (g.arg i 0)
  if g.isImmediate value then
    let b ← g.u1 value
    g.replaceUsesWith i (.imm (.u1 !b))
  else
    let arg ← g.instRecursive value
    if g.op arg = .logicalNot then g.replaceUsesWith i (g.arg arg 0) else pure g

/-! ### Composites -/

/-- `FoldCompositeExtractImpl`, through so many insertions. -/
def foldCompositeExtractImpl (g : Graph) (c : Composite) (firstIndex : BitVec 32) :
    ℕ → Value → Exec (Option Value)
  | 0, _ => .fault
  | fuel + 1, instValue => do
    let inst ← g.instRecursive instValue
    if g.op inst = .compositeConstruct c then
      if h : firstIndex.toNat < 5 then pure (some (g.arg inst ⟨firstIndex.toNat, h⟩)) else .fault
    else if g.op inst ≠ .compositeInsert c then pure none
    else
      let valueIndex := g.arg inst 2
      if !g.isImmediate valueIndex then pure none
      else
        let secondIndex ← g.u32 valueIndex
        if firstIndex ≠ secondIndex then
          let valueComposite := g.arg inst 0
          if g.isImmediate valueComposite then pure none
          else foldCompositeExtractImpl g c firstIndex fuel valueComposite
        else pure (some (g.arg inst 1))

/-- `FoldCompositeExtract`. -/
def foldCompositeExtract (g : Graph) (i : ℕ) (c : Composite) : Exec Graph := do
  let value1 := g.arg i 0
  let value2 := g.arg i 1
  if g.isImmediate value1 then pure g
  else if !g.isImmediate value2 then pure g
  else
    let firstIndex ← g.u32 value2
    match ← foldCompositeExtractImpl g c firstIndex (g.next + 1) value1 with
    | none => pure g
    | some result => g.replaceUsesWith i result

/-! ### The pass -/

/-- Fold an operation on two immediates, and nothing else. -/
def foldBinary (g : Graph) (i : ℕ) (f : BitVec 32 → BitVec 32 → β) : Exec Graph := do
  let (_, g) ← foldWhenAllImmediates g i (evalImmediates₂ g i f)
  pure g

/-- `ConstantPropagation`, with the folds of opcodes that are not modelled. -/
def constantPropagation (foldOther : Graph → ℕ → Exec Graph) (g : Graph) (i : ℕ) : Exec Graph :=
  match g.op i with
  | .iAdd32 => foldAdd (BitVec 32) foldXmad g i
  | .iSub32 => foldISub32 g i
  | .iMul32 => foldBinary g i fun a b => a * b
  | .shiftRightArithmetic32 => foldBinary g i fun a b => a.sshiftRight b.toNat
  | .iAdd64 => foldAdd (BitVec 64) (fun g _ => pure g) g i
  | .select _ => foldSelect g i
  | .logicalAnd => foldLogicalAnd g i
  | .logicalOr => foldLogicalOr g i
  | .logicalNot => foldLogicalNot g i
  | .sLessThan => foldBinary g i fun a b => a.slt b
  | .uLessThan => foldBinary g i fun a b => a.ult b
  | .sLessThanEqual => foldBinary g i fun a b => a.sle b
  | .uLessThanEqual => foldBinary g i fun a b => a.ule b
  | .sGreaterThan => foldBinary g i fun a b => b.slt a
  | .uGreaterThan => foldBinary g i fun a b => b.ult a
  | .sGreaterThanEqual => foldBinary g i fun a b => b.sle a
  | .uGreaterThanEqual => foldBinary g i fun a b => b.ule a
  | .iEqual => foldBinary g i fun a b => a == b
  | .iNotEqual => foldBinary g i fun a b => a != b
  | .bitwiseAnd32 | .bitwiseOr32 | .bitwiseXor32 => foldBitwise32 g i
  | .bitFieldUExtract => foldBitFieldExtract g i false
  | .bitFieldSExtract => foldBitFieldExtract g i true
  | .bitFieldInsert => do
    let (_, g) ← foldWhenAllImmediates g i
      (evalImmediates₄ g i fun base insert offset bits => bitFieldInsertImm base insert offset bits)
    pure g
  | .compositeExtract c => foldCompositeExtract g i c
  | .shiftLeftLogical32 | .compositeConstruct _ | .compositeInsert _ => pure g
  | _ => foldOther g i

end Shader
end NXEmu
