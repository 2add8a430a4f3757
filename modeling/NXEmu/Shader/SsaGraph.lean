/-
# Value graphs with phi operands

`src/yuzu_shader_recompiler/frontend/ir/value.h` and `opcodes.inc`, as the passes over addresses see
them: an instruction has an opcode and a list of operands, of a phi node one for each incoming edge.
The opcodes that these passes tell apart are named; the others are one family, `other`, with the type
of the result.

A graph comes with what the verification pass checks of it: operands are instructions of the graph,
no identity is an identity of itself, and the operands that have to be words are.
-/

import NXEmu.Shader.Semantics
import Mathlib.Data.List.GetD

namespace NXEmu
namespace Shader

/-- The types `t` of the opcodes `GetCbuf<t>`. -/
inductive CbufRead where
  | u8 | s8 | u16 | s16 | u32 | f32 | u32x2
deriving DecidableEq

/-- The sizes `n` of the opcodes `LoadGlobal<n>` and `LoadStorage<n>`. -/
inductive MemoryRead where
  | u8 | s8 | u16 | s16 | n32 | n64 | n128
deriving DecidableEq

/-- The types `t` of the opcodes `LoadShared<t>`. -/
inductive SharedRead where
  | u8 | s8 | u16 | s16 | u32 | u64 | u128
deriving DecidableEq

/-- The types `t` of the opcodes `WriteShared<t>`. -/
inductive SharedWrite where
  | u8 | u16 | u32 | u64 | u128
deriving DecidableEq

/-- The operations `a` of the opcodes `SharedAtomic<a>`. -/
inductive SharedAtomic where
  | iAdd32 | sMin32 | uMin32 | sMax32 | uMax32 | inc32 | dec32 | and32 | or32 | xor32
  | exchange32 | exchange64 | exchange32x2
deriving DecidableEq

/-- `IR::Opcode`.  A phi node has its type in its flags. -/
inductive SsaOpcode where
  | phi (type : ValueType)
  | identity
  | selectU32
  | iAdd32
  | iSub32
  | iMul32
  | bitwiseAnd32
  | bitwiseOr32
  | bitwiseXor32
  | shiftLeftLogical32
  | compositeExtractU32x4
  | getCbuf (read : CbufRead)
  | loadGlobal (read : MemoryRead)
  | loadStorage (read : MemoryRead)
  | loadShared (read : SharedRead)
  | loadLocal
  | writeShared (write : SharedWrite)
  | sharedAtomic (atomic : SharedAtomic)
  | other (opcode : ℕ) (type : ValueType)
deriving DecidableEq

namespace SsaOpcode

/-- `TypeOf`, of an identity the type of nothing. -/
def type : SsaOpcode → ValueType
  | phi type => type
  | identity => .void
  | selectU32 | iAdd32 | iSub32 | iMul32 | bitwiseAnd32 | bitwiseOr32 | bitwiseXor32
  | shiftLeftLogical32 | compositeExtractU32x4 | loadLocal => .u32
  | getCbuf .f32 => .f32
  | getCbuf .u32x2 => .composite .u32 2
  | getCbuf _ => .u32
  | loadGlobal .n64 | loadStorage .n64 => .composite .u32 2
  | loadGlobal .n128 | loadStorage .n128 => .composite .u32 4
  | loadGlobal _ | loadStorage _ => .u32
  | loadShared .u64 => .composite .u32 2
  | loadShared .u128 => .composite .u32 4
  | loadShared _ => .u32
  | writeShared _ => .void
  | sharedAtomic .exchange64 => .u64
  | sharedAtomic .exchange32x2 => .composite .u32 2
  | sharedAtomic _ => .u32
  | other _ type => type

/-- The operands of type `U32` in `ArgTypeOf`, of the named opcodes. -/
def wordArgs : SsaOpcode → List ℕ
  | phi _ | identity | loadGlobal _ | other _ _ => []
  | selectU32 => [1, 2]
  | iAdd32 | iSub32 | iMul32 | bitwiseAnd32 | bitwiseOr32 | bitwiseXor32 | shiftLeftLogical32
  | getCbuf _ | loadStorage _ => [0, 1]
  | compositeExtractU32x4 => [1]
  | loadShared _ | loadLocal => [0]
  | writeShared .u64 | writeShared .u128 | sharedAtomic .exchange64
  | sharedAtomic .exchange32x2 => [0]
  | writeShared _ | sharedAtomic _ => [0, 1]

end SsaOpcode

/-- `IR::Inst`. -/
structure SsaInst where
  op : SsaOpcode
  args : List Value
  useCount : ℕ := 0

/-- `Inst::Arg`, and nothing where there is none. -/
def SsaInst.arg (inst : SsaInst) (index : ℕ) : Value := inst.args.getD index .void

/-- A value that is no instruction from number `n` on. -/
def Value.Below (n : ℕ) : Value → Prop
  | .inst i => i < n
  | _ => True

instance (n : ℕ) : DecidablePred (Value.Below n) := fun
  | .void => isTrue trivial
  | .inst i => inferInstanceAs (Decidable (i < n))
  | .imm _ => isTrue trivial

/-- `Value::Resolve`, through so many identities. -/
def resolveIn (insts : ℕ → SsaInst) : ℕ → Value → Value
  | fuel + 1, .inst i =>
    if (insts i).op = .identity then resolveIn insts fuel ((insts i).arg 0) else .inst i
  | _, v => v

/-- A value without identities before it that is a word. -/
def isWordIn (insts : ℕ → SsaInst) : Value → Bool
  | .void => false
  | .inst i => (insts i).op.type = .u32
  | .imm c => (ImmType.ofImm c : Option (BitVec 32)).isSome

/-- The instructions of a program. -/
structure SsaGraph where
  insts : ℕ → SsaInst
  size : ℕ
  /-- Operands are instructions of the graph. -/
  arg_below : ∀ i < size, ∀ v ∈ (insts i).args, v.Below size
  /-- An identity is made of an instruction that is there. -/
  identity_below : ∀ i < size, (insts i).op = .identity → ((insts i).arg 0).Below i
  /-- The verification pass checks the types of operands. -/
  word_args : ∀ i < size, ∀ k ∈ (insts i).op.wordArgs,
    isWordIn insts (resolveIn insts size ((insts i).arg k)) = true

namespace SsaGraph

/-- `Inst::GetOpcode`. -/
def op (g : SsaGraph) (i : ℕ) : SsaOpcode := (g.insts i).op

/-- The operands of an instruction, as many as `Inst::NumArgs`. -/
def args (g : SsaGraph) (i : ℕ) : List Value := (g.insts i).args

/-- `Inst::Arg`. -/
def arg (g : SsaGraph) (i index : ℕ) : Value := (g.insts i).arg index

/-- `Value::Resolve`.  No chain of identities is longer than the program. -/
def resolve (g : SsaGraph) (v : Value) : Value := resolveIn g.insts g.size v

/-- `Value::IsImmediate`. -/
def isImmediate (g : SsaGraph) (v : Value) : Bool :=
  match g.resolve v with
  | .inst _ => false
  | _ => true

/-- `Value::TryInstRecursive`, which is `Value::InstRecursive` of what is no immediate. -/
def instRecursive (g : SsaGraph) (v : Value) : Option ℕ :=
  match g.resolve v with
  | .inst i => some i
  | _ => none

/-- `Value::U32`, of a value that is a word. -/
def u32 (g : SsaGraph) (v : Value) : BitVec 32 :=
  match g.resolve v with
  | .imm (.u32 x) => x
  | _ => 0

variable {g : SsaGraph} {i j : ℕ} {v : Value}

theorem mem_args_of_arg_eq {k : ℕ} (h : g.arg i k = .inst j) : .inst j ∈ g.args i := by
  unfold arg SsaInst.arg at h
  by_cases hk : k < (g.insts i).args.length
  · rw [List.getD_eq_getElem _ _ hk] at h
    exact h ▸ List.getElem_mem hk
  · rw [List.getD_eq_default _ _ (not_lt.1 hk)] at h
    exact absurd h Value.noConfusion

theorem lt_of_mem_args (hi : i < g.size) (h : .inst j ∈ g.args i) : j < g.size :=
  g.arg_below i hi _ h

theorem lt_of_arg_eq {k : ℕ} (hi : i < g.size) (h : g.arg i k = .inst j) : j < g.size :=
  lt_of_mem_args hi (mem_args_of_arg_eq h)

/-! ### Identities -/

theorem resolveIn_void (fuel : ℕ) : resolveIn g.insts fuel .void = .void := by
  cases fuel <;> rfl

theorem resolveIn_imm (fuel : ℕ) (c : Imm) : resolveIn g.insts fuel (.imm c) = .imm c := by
  cases fuel <;> rfl

/-- More fuel than instructions before an instruction changes nothing. -/
theorem resolveIn_stable (fuel : ℕ) : ∀ fuel' i, i < g.size → i < fuel → i < fuel' →
    resolveIn g.insts fuel (.inst i) = resolveIn g.insts fuel' (.inst i) := by
  induction fuel with
  | zero => intro fuel' i _ h; exact absurd h (Nat.not_lt_zero i)
  | succ fuel ih =>
    intro fuel' i hi hfuel hfuel'
    obtain ⟨fuel', rfl⟩ := Nat.exists_eq_succ_of_ne_zero (Nat.ne_zero_of_lt hfuel')
    by_cases hop : (g.insts i).op = .identity
    · have harg := g.identity_below i hi hop
      rw [resolveIn, resolveIn, if_pos hop, if_pos hop]
      cases hv : (g.insts i).arg 0 with
      | void => rw [resolveIn_void, resolveIn_void]
      | imm c => rw [resolveIn_imm, resolveIn_imm]
      | inst j =>
        rw [hv] at harg
        have hj : j < i := harg
        exact ih fuel' j (hj.trans hi) (by omega) (by omega)
    · rw [resolveIn, resolveIn, if_neg hop, if_neg hop]

@[simp] theorem resolve_void : g.resolve .void = .void := resolveIn_void _

@[simp] theorem resolve_imm (c : Imm) : g.resolve (.imm c) = .imm c := resolveIn_imm _ c

/-- An identity is looked through. -/
theorem resolve_identity (hi : i < g.size) (h : g.op i = .identity) :
    g.resolve (.inst i) = g.resolve (g.arg i 0) := by
  unfold resolve
  rw [resolveIn_stable g.size (g.size + 1) i hi hi (by omega), resolveIn]
  exact if_pos h

/-- Every other instruction is what it is. -/
theorem resolve_inst (hi : i < g.size) (h : g.op i ≠ .identity) :
    g.resolve (.inst i) = .inst i := by
  obtain ⟨n, hn⟩ := Nat.exists_eq_succ_of_ne_zero (Nat.ne_zero_of_lt hi)
  unfold resolve
  rw [hn, resolveIn]
  exact if_neg h

/-- **Induction over the identities before a value.** -/
theorem resolve_induction {P : ℕ → Prop} (other : ∀ i < g.size, g.op i ≠ .identity → P i)
    (identity : ∀ i < g.size, g.op i = .identity → (∀ j, g.arg i 0 = .inst j → P j) → P i) :
    ∀ i < g.size, P i := by
  intro i
  induction i using Nat.strong_induction_on with
  | h i ih =>
    intro hi
    by_cases hop : g.op i = .identity
    · refine identity i hi hop fun j hj => ?_
      have hlt : Value.Below i (g.arg i 0) := g.identity_below i hi hop
      rw [hj] at hlt
      exact ih j hlt (Nat.lt_trans hlt hi)
    · exact other i hi hop

/-- What a value resolves to is an instruction of the graph and no identity. -/
theorem resolve_eq_inst (hv : v.Below g.size) (h : g.resolve v = .inst j) :
    j < g.size ∧ g.op j ≠ .identity := by
  cases v with
  | void => rw [resolve_void] at h; exact absurd h Value.noConfusion
  | imm c => rw [resolve_imm] at h; exact absurd h Value.noConfusion
  | inst i =>
    revert h
    refine resolve_induction (P := fun i => g.resolve (.inst i) = .inst j →
      j < g.size ∧ g.op j ≠ .identity) ?_ ?_ i hv
    · intro i hi hop h
      rw [resolve_inst hi hop] at h
      obtain rfl := Value.inst.inj h
      exact ⟨hi, hop⟩
    · intro i hi hop ih h
      rw [resolve_identity hi hop] at h
      cases ha : g.arg i 0 with
      | void => rw [ha, resolve_void] at h; exact absurd h Value.noConfusion
      | imm c => rw [ha, resolve_imm] at h; exact absurd h Value.noConfusion
      | inst k => rw [ha] at h; exact ih k ha h

theorem isImmediate_eq_false_iff : g.isImmediate v = false ↔ ∃ j, g.resolve v = .inst j := by
  unfold isImmediate
  cases g.resolve v <;> simp

theorem instRecursive_eq_some_iff : g.instRecursive v = some j ↔ g.resolve v = .inst j := by
  unfold instRecursive
  cases g.resolve v <;> simp

/-- **An operand that has to be a word** is the word that `U32` gives when it is immediate. -/
theorem resolve_word_arg {k : ℕ} (hi : i < g.size) (hk : k ∈ (g.op i).wordArgs)
    (himm : g.isImmediate (g.arg i k) = true) :
    g.resolve (g.arg i k) = .imm (.u32 (g.u32 (g.arg i k))) := by
  have hword : isWordIn g.insts (g.resolve (g.arg i k)) = true := g.word_args i hi k hk
  unfold isImmediate at himm
  unfold u32
  cases hv : g.resolve (g.arg i k) with
  | void => rw [hv] at hword; exact absurd hword Bool.false_ne_true
  | inst j => rw [hv] at himm; exact absurd himm Bool.false_ne_true
  | imm c =>
    rw [hv] at hword
    obtain ⟨x, hx⟩ := Option.isSome_iff_exists.1 hword
    rw [(ImmType.ofImm_eq_some c x).1 hx]
    rfl

end SsaGraph
end Shader
end NXEmu
