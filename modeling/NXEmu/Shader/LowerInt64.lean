/-
# Lowering 64-bit integers to pairs of words

`src/yuzu_shader_recompiler/ir_opt/lower_int64_to_int32.cpp`: every operation on 64-bit integers is
replaced with operations on the two words of its operands, which are immediates or have been lowered
to pairs before.

All cases of a shift are computed and the right one is selected at the end, so that an execution goes
through shifts by the width and more and through fields that leave the word, with any results.  None
of them is selected.
-/

import NXEmu.Shader.IntegerEmitter
import NXEmu.Shader.WordHalves

namespace NXEmu
namespace Shader

/-! ### The lowered sequences -/

/-- `Unpack`: the low and the high half of a value. -/
def unpack (packed : Value) : Emitter (Value × Value) := do
  let g ← get
  if g.isImmediate packed then
    let value ← StateT.lift (g.u64 packed)
    pure (imm32 (lowWord value), imm32 (highWord value))
  else
    let lo ← compositeExtract packed 0
    let hi ← compositeExtract packed 1
    pure (lo, hi)

/-- The constructor of `IR::U32`, which throws on a value of another type. -/
def toU32 (value : Value) : Emitter Value := do
  let g ← get
  StateT.lift (g.typed .u32 value)

/-- The value that replaces `IAdd64`. -/
def addition (a b : Value) : Emitter Value := do
  let (aLo, aHi) ← unpack a
  let (bLo, bHi) ← unpack b
  let retLo ← iAdd aLo bLo
  let carryFlag ← getCarryFromOp retLo
  let carry ← select carryFlag (imm32 1#32) (imm32 0#32)
  let sumHi ← iAdd aHi bHi
  let retHi ← iAdd sumHi carry
  compositeConstruct retLo retHi

/-- The value that replaces `ISub64`. -/
def subtraction (a b : Value) : Emitter Value := do
  let (aLo, aHi) ← unpack a
  let (bLo, bHi) ← unpack b
  let retLo ← iSub aLo bLo
  let underflow ← iGreaterThan retLo aLo false
  let underflowBit ← select underflow (imm32 1#32) (imm32 0#32)
  let differenceHi ← iSub aHi bHi
  let retHi ← iSub differenceHi underflowBit
  compositeConstruct retLo retHi

/-- The value that replaces `INeg64`. -/
def negation (a : Value) : Emitter Value := do
  let (lo, hi) ← unpack a
  let lo ← bitwiseNot lo
  let hi ← bitwiseNot hi
  let lo ← iAdd lo (imm32 1#32)
  let carryFlag ← getCarryFromOp lo
  let carry ← select carryFlag (imm32 1#32) (imm32 0#32)
  let hi ← iAdd hi carry
  compositeConstruct lo hi

/-- `inv_shift`, `is_long` and `is_zero`. -/
def shiftCases (shift : Value) : Emitter (Value × Value × Value) := do
  let invShift ← iSub shift (imm32 32#32)
  let isLong ← iGreaterThanEqual invShift (imm32 0#32) true
  let isZero ← iEqual shift (imm32 0#32)
  pure (invShift, isLong, isZero)

/-- The selection of `ret_lo` and `ret_hi`, and their pair. -/
def selectShift (isLong isZero longLo longHi shortLo shortHi zeroLo zeroHi : Value) :
    Emitter Value := do
  let nonZeroLo ← select isLong longLo shortLo
  let nonZeroHi ← select isLong longHi shortHi
  let retLo ← select isZero zeroLo nonZeroLo
  let retHi ← select isZero zeroHi nonZeroHi
  compositeConstruct retLo retHi

/-- The value that replaces `ShiftLeftLogical64`. -/
def leftShift (base shift : Value) : Emitter Value := do
  let (lo, hi) ← unpack base
  let shift ← toU32 shift
  let shiftedLo ← shiftLeftLogical lo shift
  let shiftedHi ← shiftLeftLogical hi shift
  let (invShift, isLong, isZero) ← shiftCases shift
  let longHi ← shiftLeftLogical lo invShift
  let shiftComplement ← iSub (imm32 32#32) shift
  let loExtract ← bitFieldExtract lo shiftComplement shift false
  let shortHi ← bitwiseOr shiftedHi loExtract
  selectShift isLong isZero (imm32 0#32) longHi shiftedLo shortHi lo hi

/-- The value that replaces `ShiftRightLogical64`. -/
def rightShift (base shift : Value) : Emitter Value := do
  let (lo, hi) ← unpack base
  let shift ← toU32 shift
  let shiftedLo ← shiftRightLogical lo shift
  let shiftedHi ← shiftRightLogical hi shift
  let (invShift, isLong, isZero) ← shiftCases shift
  let longLo ← shiftRightLogical hi invShift
  let shiftComplement ← iSub (imm32 32#32) shift
  let shortHiExtract ← bitFieldExtract hi (imm32 0#32) shift false
  let shortLo ← bitFieldInsert shiftedLo shortHiExtract shiftComplement shift
  selectShift isLong isZero longLo (imm32 0#32) shortLo shiftedHi lo hi

/-- The value that replaces `ShiftRightArithmetic64`. -/
def arithmeticShift (base shift : Value) : Emitter Value := do
  let (lo, hi) ← unpack base
  let shift ← toU32 shift
  let shiftedLo ← shiftRightLogical lo shift
  let shiftedHi ← shiftRightArithmetic hi shift
  let signExtension ← shiftRightArithmetic hi (imm32 31#32)
  let (invShift, isLong, isZero) ← shiftCases shift
  let longLo ← shiftRightArithmetic hi invShift
  let shiftComplement ← iSub (imm32 32#32) shift
  let shortHiExtract ← bitFieldExtract hi (imm32 0#32) shift false
  let shortLo ← bitFieldInsert shiftedLo shortHiExtract shiftComplement shift
  selectShift isLong isZero longLo signExtension shortLo shiftedHi lo hi

/-! ### The pass -/

/-- Replace instruction `i` with the value that `body` computes before it.  Instructions that are
asked for a flag are not lowered. -/
def lowerWith (g : Graph) (i : ℕ) (body : Emitter Value) : Exec Graph :=
  if g.hasAssociatedPseudoOperation i then .fault
  else do
    let (replacement, g) ← body g
    g.replaceUsesWith i replacement

/-- `IAdd64To32`. -/
def iAdd64To32 (g : Graph) (i : ℕ) : Exec Graph := lowerWith g i (addition (g.arg i 0) (g.arg i 1))

/-- `ISub64To32`. -/
def iSub64To32 (g : Graph) (i : ℕ) : Exec Graph :=
  lowerWith g i (subtraction (g.arg i 0) (g.arg i 1))

/-- `INeg64To32`. -/
def iNeg64To32 (g : Graph) (i : ℕ) : Exec Graph := lowerWith g i (negation (g.arg i 0))

/-- `ShiftLeftLogical64To32`. -/
def shiftLeftLogical64To32 (g : Graph) (i : ℕ) : Exec Graph :=
  lowerWith g i (leftShift (g.arg i 0) (g.arg i 1))

/-- `ShiftRightLogical64To32`. -/
def shiftRightLogical64To32 (g : Graph) (i : ℕ) : Exec Graph :=
  lowerWith g i (rightShift (g.arg i 0) (g.arg i 1))

/-- `ShiftRightArithmetic64To32`. -/
def shiftRightArithmetic64To32 (g : Graph) (i : ℕ) : Exec Graph :=
  lowerWith g i (arithmeticShift (g.arg i 0) (g.arg i 1))

/-- `Lower`, of the operations on one integer.  Packing and unpacking leave the pair as it is. -/
def lower (g : Graph) (i : ℕ) : Exec Graph :=
  match g.op i with
  | .packUint2x32 | .unpackUint2x32 => pure (g.modify i fun inst => { inst with op := .identity })
  | .iAdd64 => iAdd64To32 g i
  | .iSub64 => iSub64To32 g i
  | .iNeg64 => iNeg64To32 g i
  | .shiftLeftLogical64 => shiftLeftLogical64To32 g i
  | .shiftRightLogical64 => shiftRightLogical64To32 g i
  | .shiftRightArithmetic64 => shiftRightArithmetic64To32 g i
  | _ => pure g

/-! ### Operands -/

/-- The pair of words that a 64-bit word is lowered to. -/
def wide (x : BitVec 64) : Val := .composite .u32 [.u32 (lowWord x), .u32 (highWord x)]

/-- An operand that can be unpacked: an immediate, or a pair of words. -/
inductive IsOperand (g : Graph) (v : Value) : Prop where
  | imm (x : BitVec 64) (h : g.resolve v = .imm (.u64 x))
  | pair (himm : g.isImmediate v = false) (htype : g.type v = .composite .u32 2)

/-- The 64-bit value of an operand in an execution. -/
def Graph.Has64 (g : Graph) (ν : Valuation) (v : Value) (x : BitVec 64) : Prop :=
  ν.eval v = some (if g.isImmediate v then .scalar (.u64 x) else wide x)

variable {g g₀ : Graph} {ν : Valuation}

variable {v : Value} {s : BitVec 32} {i : ℕ} {body : Emitter Value} {Q : Valuation → Value → Prop}

theorem emits_compositeExtract (hw : WellFormed g₀) (hv : g₀.Knows v)
    (ht : g₀.type v = .composite .u32 2) {index : ℕ} (hi : index < 2) :
    Emits g₀ (compositeExtract v index) fun ν r => ∀ x y : BitVec 32,
      ν.eval v = some (.composite .u32 [.u32 x, .u32 y]) → ν.Has r (if index = 0 then x else y) := by
  intro g hg
  obtain ⟨r, g', h, he, hr⟩ := emits_emit (.compositeExtract .u32x2) [v, imm32 index] rfl rfl rfl g hg
  refine ⟨r, g', ?_, he, fun ν hν x y hxy => hr ν hν _ ?_⟩
  · rw [compositeExtract, hg.type hw hv, ht]
    exact (if_pos hi).trans h
  · have hindex : ∀ c : BitVec 32, (ν.eval (imm32 c)).bind Val.as = some c := fun _ => rfl
    obtain rfl | rfl : index = 0 ∨ index = 1 := by omega
    · simp [evalExtract, hxy, hindex, Val.elements, ImmType.imm]
    · simp [evalExtract, hxy, hindex, Val.elements, ImmType.imm]

theorem get_bind {α : Type} (f : Graph → Emitter α) (g : Graph) : (get >>= f : Emitter α) g = f g g :=
  Exec.ret_true_bind (g, g) fun p => f p.1 p.2

theorem lift_bind {α β : Type} (a : α) (f : α → Emitter β) (g : Graph) :
    (StateT.lift (.ret a true) >>= f : Emitter β) g = f a g := by
  show ((Exec.ret a true >>= fun a => pure (a, g)) >>= fun p => f p.1 p.2) = _
  rw [Exec.ret_true_bind, Exec.pure_eq, Exec.ret_true_bind]

/-- **`Unpack`** gives the words of its operand. -/
theorem emits_unpack (hw : WellFormed g₀) (hv : g₀.Knows v) (ho : IsOperand g₀ v) :
    Emits g₀ (unpack v) fun ν p => ∀ x, g₀.Has64 ν v x → (∀ y, ν.eval (g₀.resolve v) = some y → ν.eval v = some y) →
        ν.Has p.1 (lowWord x) ∧ ν.Has p.2 (highWord x) := by
  cases ho with
  | imm x h =>
    have himm : g₀.isImmediate v = true := by rw [Graph.isImmediate, h]
    intro g hg
    refine ⟨(imm32 (lowWord x), imm32 (highWord x)), g, ?_, .refl g, fun ν _ y hy hthrough => ?_⟩
    · have hread : g.u64 v = .ret x true := argAs_of_resolve (by rw [hg.resolve hw hv, h]; rfl)
      rw [unpack, get_bind, hg.isImmediate hw hv, himm, if_pos rfl, hread, lift_bind]
      rfl
    · have hx := hthrough (.scalar (.u64 x)) (by rw [h]; rfl)
      rw [Graph.Has64, himm, hx] at hy
      cases hy
      exact ⟨rfl, rfl⟩
  | pair himm htype =>
    have hpair : Emits g₀ (do let lo ← compositeExtract v 0
                              let hi ← compositeExtract v 1
                              pure (lo, hi)) fun ν p => ∀ x y : BitVec 32,
        ν.eval v = some (.composite .u32 [.u32 x, .u32 y]) → ν.Has p.1 x ∧ ν.Has p.2 y := by
      refine (emits_compositeExtract hw hv htype (by decide)).bind fun lo => ?_
      refine (emits_compositeExtract hw hv htype (by decide)).bind fun hi => ?_
      exact emits_pure fun ν hhi hlo x y hxy => ⟨hlo x y hxy, hhi x y hxy⟩
    intro g hg
    obtain ⟨p, g', h, he, hp⟩ := hpair g hg
    refine ⟨p, g', ?_, he, fun ν hν x hx _ => hp ν hν _ _ ?_⟩
    · rw [unpack, get_bind, hg.isImmediate hw hv, himm]
      exact h
    · rw [Graph.Has64, himm] at hx
      exact hx

theorem emits_toU32 (hw : WellFormed g₀) (hv : g₀.Knows v) (ht : g₀.type v = .u32) :
    Emits g₀ (toU32 v) fun _ r => r = v := by
  intro g hg
  refine ⟨v, g, ?_, .refl g, fun _ _ => rfl⟩
  rw [toU32, get_bind, Graph.typed, hg.type hw hv, ht, if_pos rfl]
  rfl

/-! ### Values of the sequences -/

/-- What looking through identities does to the value of an operand: nothing. -/
def Transparent (g : Graph) (ν : Valuation) (v : Value) : Prop :=
  ∀ y, ν.eval (g.resolve v) = some y → ν.eval v = some y

variable {a b v : Value}

section

variable (hw : WellFormed g₀) (ha : g₀.Knows a) (hb : g₀.Knows b) (hao : IsOperand g₀ a) (hbo : IsOperand g₀ b)

include hw ha hb hao hbo

theorem emits_addition :
    Emits g₀ (addition a b) fun ν r => ∀ x y, g₀.Has64 ν a x → g₀.Has64 ν b y →
      Transparent g₀ ν a → Transparent g₀ ν b → ν.eval r = some (wide (x + y)) := by
  refine (emits_unpack hw ha hao).bind fun ⟨aLo, aHi⟩ => ?_
  refine (emits_unpack hw hb hbo).bind fun ⟨bLo, bHi⟩ => ?_
  refine emits_iAdd_carry fun retLo flag => ?_
  refine (emits_select _ _ _).bind fun carry => ?_
  refine (emits_iAdd _ _).bind fun sumHi => ?_
  refine (emits_iAdd _ _).bind fun retHi => ?_
  refine (emits_compositeConstruct _ _).mono
    fun ν r hr hretHi hsumHi hcarry hretLo hunB hunA x y hx hy hta htb => ?_
  obtain ⟨haLo, haHi⟩ := hunA x hx hta
  obtain ⟨hbLo, hbHi⟩ := hunB y hy htb
  obtain ⟨hlo, hflag⟩ := hretLo _ _ haLo hbLo
  have hc : ν.Has carry (if (lowWord x).uaddOverflow (lowWord y) then 1#32 else 0#32) :=
    hcarry _ _ hflag (by split <;> rfl)
  rw [hr _ _ hlo (hretHi _ _ (hsumHi _ _ haHi hbHi) hc), wide, lowWord_add, highWord_add]

theorem emits_subtraction :
    Emits g₀ (subtraction a b) fun ν r => ∀ x y, g₀.Has64 ν a x → g₀.Has64 ν b y →
      Transparent g₀ ν a → Transparent g₀ ν b → ν.eval r = some (wide (x - y)) := by
  refine (emits_unpack hw ha hao).bind fun ⟨aLo, aHi⟩ => ?_
  refine (emits_unpack hw hb hbo).bind fun ⟨bLo, bHi⟩ => ?_
  refine (emits_iSub _ _).bind fun retLo => ?_
  refine (emits_uGreaterThan _ _).bind fun underflow => ?_
  refine (emits_select _ _ _).bind fun underflowBit => ?_
  refine (emits_iSub _ _).bind fun differenceHi => ?_
  refine (emits_iSub _ _).bind fun retHi => ?_
  refine (emits_compositeConstruct _ _).mono
    fun ν r hr hretHi hdiffHi hbit hunder hretLo hunB hunA x y hx hy hta htb => ?_
  obtain ⟨haLo, haHi⟩ := hunA x hx hta
  obtain ⟨hbLo, hbHi⟩ := hunB y hy htb
  have hlo := hretLo _ _ haLo hbLo
  have hc : ν.Has underflowBit
      (if (lowWord x - lowWord y).toNat > (lowWord x).toNat then 1#32 else 0#32) :=
    hbit _ _ (hunder _ _ hlo haLo) (by simp only [decide_eq_true_eq]; split <;> rfl)
  rw [hr _ _ hlo (hretHi _ _ (hdiffHi _ _ haHi hbHi) hc), wide, lowWord_sub, highWord_sub]

end

theorem emits_negation (hw : WellFormed g₀) (ha : g₀.Knows a) (hao : IsOperand g₀ a) :
    Emits g₀ (negation a) fun ν r => ∀ x, g₀.Has64 ν a x → Transparent g₀ ν a → ν.eval r = some (wide (-x)) := by
  refine (emits_unpack hw ha hao).bind fun ⟨aLo, aHi⟩ => ?_
  refine (emits_bitwiseNot _).bind fun notLo => ?_
  refine (emits_bitwiseNot _).bind fun notHi => ?_
  refine emits_iAdd_carry fun lo flag => ?_
  refine (emits_select _ _ _).bind fun carry => ?_
  refine (emits_iAdd _ _).bind fun hi => ?_
  refine (emits_compositeConstruct _ _).mono
    fun ν r hr hhi hcarry hlo hnotHi hnotLo hun x hx hta => ?_
  obtain ⟨haLo, haHi⟩ := hun x hx hta
  obtain ⟨hlo', hflag⟩ := hlo _ _ (hnotLo _ haLo) (has_imm32 1#32)
  have hc : ν.Has carry (if (~~~lowWord x).uaddOverflow 1#32 then 1#32 else 0#32) :=
    hcarry _ _ hflag (by split <;> rfl)
  rw [hr _ _ hlo' (hhi _ _ (hnotHi _ haHi) hc), wide, lowWord_neg, highWord_neg]

/-- **The selection of a case**: only the words of the case have to be known. -/
theorem emits_selectShift (isLong isZero longLo longHi shortLo shortHi zeroLo zeroHi : Value) :
    Emits g₀ (selectShift isLong isZero longLo longHi shortLo shortHi zeroLo zeroHi) fun ν r =>
      ∀ (long zero : Bool) (x y : BitVec 32), ν.Has isLong long → ν.Has isZero zero →
        ν.Has (if zero then zeroLo else if long then longLo else shortLo) x →
        ν.Has (if zero then zeroHi else if long then longHi else shortHi) y →
          ν.eval r = some (.composite .u32 [.u32 x, .u32 y]) := by
  refine (emits_select _ _ _).bind fun nonZeroLo => ?_
  refine (emits_select _ _ _).bind fun nonZeroHi => ?_
  refine (emits_select _ _ _).bind fun retLo => ?_
  refine (emits_select _ _ _).bind fun retHi => ?_
  refine (emits_compositeConstruct _ _).mono
    fun ν r hr hretHi hretLo hnonHi hnonLo long zero x y hlong hzero hx hy => ?_
  cases zero with
  | true => exact hr x y (hretLo true x hzero hx) (hretHi true y hzero hy)
  | false =>
    exact hr x y (hretLo false x hzero (hnonLo long x hlong hx))
      (hretHi false y hzero (hnonHi long y hlong hy))

/-- The distance into the high word, and the cases, of a shift by less than two words. -/
theorem emits_shiftCases (shift : Value) : Emits g₀ (shiftCases shift) fun ν r =>
    ∀ s : BitVec 32, ν.Has shift s → s.toNat < 64 → ν.Has r.1 (s - 32#32) ∧
      ν.Has r.2.1 (decide (32 ≤ s.toNat)) ∧ ν.Has r.2.2 (decide (s.toNat = 0)) := by
  refine (emits_iSub _ _).bind fun invShift => ?_
  refine (emits_sGreaterThanEqual _ _).bind fun isLong => ?_
  refine (emits_iEqual _ _).bind fun isZero => ?_
  refine emits_pure fun ν hzero hlong hinv s hs hlt => ?_
  have hi := hinv _ _ hs (has_imm32 32#32)
  refine ⟨hi, ?_, ?_⟩
  · have hl := hlong _ _ hi (has_imm32 0#32)
    have hd : (s - 32#32).toNat = (2 ^ 32 - 32 + s.toNat) % 2 ^ 32 := by simp [BitVec.toNat_sub]
    have heq : decide ((s - 32#32).toInt ≥ (0#32).toInt) = decide (32 ≤ s.toNat) := by
      rw [BitVec.toInt_zero, BitVec.toInt_eq_toNat_cond, hd]
      exact decide_eq_decide.2 (by split <;> omega)
    rwa [heq] at hl
  · have hz := hzero _ _ hs (has_imm32 0#32)
    have heq : decide (s = 0#32) = decide (s.toNat = 0) := decide_eq_decide.2 (by bv_omega)
    rwa [heq] at hz

/-- `shift_complement`, the number of the other bits. -/
theorem toNat_complement (hs : s.toNat < 32) : (32#32 - s).toNat = 32 - s.toNat := by
  bv_omega

theorem toNat_inverse (hs : 32 ≤ s.toNat) : (s - 32#32).toNat = s.toNat - 32 := by
  bv_omega

section

variable (hw : WellFormed g₀) (ha : g₀.Knows a) (hb : g₀.Knows b) (hao : IsOperand g₀ a) (hbt : g₀.type b = .u32)

include hw ha hb hao hbt

theorem emits_leftShift :
    Emits g₀ (leftShift a b) fun ν r => ∀ (x : BitVec 64) (s : BitVec 32), g₀.Has64 ν a x →
      ν.Has b s → s.toNat < 64 → Transparent g₀ ν a → ν.eval r = some (wide (x <<< s.toNat)) := by
  refine (emits_unpack hw ha hao).bind fun ⟨lo, hi⟩ => ?_
  refine (emits_toU32 hw hb hbt).bind fun shift => ?_
  refine (emits_shiftLeftLogical _ _).bind fun shiftedLo => ?_
  refine (emits_shiftLeftLogical _ _).bind fun shiftedHi => ?_
  refine (emits_shiftCases _).bind fun ⟨invShift, isLong, isZero⟩ => ?_
  refine (emits_shiftLeftLogical _ _).bind fun longHi => ?_
  refine (emits_iSub _ _).bind fun shiftComplement => ?_
  refine (emits_bitFieldExtract _ _ _).bind fun loExtract => ?_
  refine (emits_bitwiseOr _ _).bind fun shortHi => ?_
  refine (emits_selectShift _ _ _ _ _ _ _ _).mono
    fun ν r hr hor hextract hcomp hlongHi hcases hshHi hshLo hshift hun x s hx hs hlt hta => ?_
  subst hshift
  obtain ⟨hlo, hhi⟩ := hun x hx hta
  obtain ⟨hinv, hisLong, hisZero⟩ := hcases s hs hlt
  refine hr _ _ _ _ hisLong hisZero ?_ ?_
  · by_cases h0 : s.toNat = 0
    · simpa [h0] using hlo
    by_cases h32 : 32 ≤ s.toNat
    · simp [h0, h32, lowWord_shiftLeft_long x h32]
    · simpa [h0, h32, lowWord_shiftLeft] using hshLo _ _ hlo hs (by omega)
  · by_cases h0 : s.toNat = 0
    · simpa [h0] using hhi
    by_cases h32 : 32 ≤ s.toNat
    · have h := hlongHi _ _ hlo hinv (by rw [toNat_inverse h32]; omega)
      rw [toNat_inverse h32] at h
      simpa [h0, h32, highWord_shiftLeft_long x h32] using h
    · have hs32 : s.toNat < 32 := Nat.lt_of_not_le h32
      have h := hextract _ _ _ hlo (hcomp _ _ (has_imm32 _) hs) hs
        (by rw [toNat_complement hs32]; omega) (by rw [toNat_complement hs32]; omega)
      rw [toNat_complement hs32] at h
      simpa [h0, h32, highWord_shiftLeft_short x hs32] using hor _ _ (hshHi _ _ hhi hs hs32) h

theorem emits_rightShift :
    Emits g₀ (rightShift a b) fun ν r => ∀ (x : BitVec 64) (s : BitVec 32), g₀.Has64 ν a x →
      ν.Has b s → s.toNat < 64 → Transparent g₀ ν a → ν.eval r = some (wide (x >>> s.toNat)) := by
  refine (emits_unpack hw ha hao).bind fun ⟨lo, hi⟩ => ?_
  refine (emits_toU32 hw hb hbt).bind fun shift => ?_
  refine (emits_shiftRightLogical _ _).bind fun shiftedLo => ?_
  refine (emits_shiftRightLogical _ _).bind fun shiftedHi => ?_
  refine (emits_shiftCases _).bind fun ⟨invShift, isLong, isZero⟩ => ?_
  refine (emits_shiftRightLogical _ _).bind fun longLo => ?_
  refine (emits_iSub _ _).bind fun shiftComplement => ?_
  refine (emits_bitFieldExtract _ _ _).bind fun hiExtract => ?_
  refine (emits_bitFieldInsert _ _ _ _).bind fun shortLo => ?_
  refine (emits_selectShift _ _ _ _ _ _ _ _).mono
    fun ν r hr hinsert hextract hcomp hlongLo hcases hshHi hshLo hshift hun x s hx hs hlt hta => ?_
  subst hshift
  obtain ⟨hlo, hhi⟩ := hun x hx hta
  obtain ⟨hinv, hisLong, hisZero⟩ := hcases s hs hlt
  refine hr _ _ _ _ hisLong hisZero ?_ ?_
  · by_cases h0 : s.toNat = 0
    · simpa [h0] using hlo
    by_cases h32 : 32 ≤ s.toNat
    · have h := hlongLo _ _ hhi hinv (by rw [toNat_inverse h32]; omega)
      rw [toNat_inverse h32] at h
      simpa [h0, h32, lowWord_ushiftRight_long x h32] using h
    · have hs32 : s.toNat < 32 := Nat.lt_of_not_le h32
      have hfield := hextract _ _ _ hhi (has_imm32 _) hs (by decide) (by simpa using hs32.le)
      have h := hinsert _ _ _ _ (hshLo _ _ hlo hs hs32) hfield (hcomp _ _ (has_imm32 _) hs) hs
        (by rw [toNat_complement hs32]; omega) (by rw [toNat_complement hs32]; omega)
      rw [toNat_complement hs32] at h
      simpa [h0, h32, lowWord_ushiftRight_short x hs32] using h
  · by_cases h0 : s.toNat = 0
    · simpa [h0] using hhi
    by_cases h32 : 32 ≤ s.toNat
    · simp [h0, h32, highWord_ushiftRight_long x h32]
    · simpa [h0, h32, highWord_ushiftRight] using hshHi _ _ hhi hs (by omega)

theorem emits_arithmeticShift :
    Emits g₀ (arithmeticShift a b) fun ν r => ∀ (x : BitVec 64) (s : BitVec 32), g₀.Has64 ν a x →
      ν.Has b s → s.toNat < 64 → Transparent g₀ ν a → ν.eval r = some (wide (x.sshiftRight s.toNat)) := by
  refine (emits_unpack hw ha hao).bind fun ⟨lo, hi⟩ => ?_
  refine (emits_toU32 hw hb hbt).bind fun shift => ?_
  refine (emits_shiftRightLogical _ _).bind fun shiftedLo => ?_
  refine (emits_shiftRightArithmetic _ _).bind fun shiftedHi => ?_
  refine (emits_shiftRightArithmetic _ _).bind fun signExtension => ?_
  refine (emits_shiftCases _).bind fun ⟨invShift, isLong, isZero⟩ => ?_
  refine (emits_shiftRightArithmetic _ _).bind fun longLo => ?_
  refine (emits_iSub _ _).bind fun shiftComplement => ?_
  refine (emits_bitFieldExtract _ _ _).bind fun hiExtract => ?_
  refine (emits_bitFieldInsert _ _ _ _).bind fun shortLo => ?_
  refine (emits_selectShift _ _ _ _ _ _ _ _).mono
    fun ν r hr hinsert hextract hcomp hlongLo hcases hsign hshHi hshLo hshift hun x s hx hs hlt
      hta => ?_
  subst hshift
  obtain ⟨hlo, hhi⟩ := hun x hx hta
  obtain ⟨hinv, hisLong, hisZero⟩ := hcases s hs hlt
  refine hr _ _ _ _ hisLong hisZero ?_ ?_
  · by_cases h0 : s.toNat = 0
    · simpa [h0] using hlo
    by_cases h32 : 32 ≤ s.toNat
    · have h := hlongLo _ _ hhi hinv (by rw [toNat_inverse h32]; omega)
      rw [toNat_inverse h32] at h
      simpa [h0, h32, lowWord_sshiftRight_long x h32] using h
    · have hs32 : s.toNat < 32 := Nat.lt_of_not_le h32
      have hfield := hextract _ _ _ hhi (has_imm32 _) hs (by decide) (by simpa using hs32.le)
      have h := hinsert _ _ _ _ (hshLo _ _ hlo hs hs32) hfield (hcomp _ _ (has_imm32 _) hs) hs
        (by rw [toNat_complement hs32]; omega) (by rw [toNat_complement hs32]; omega)
      rw [toNat_complement hs32] at h
      simpa [h0, h32, lowWord_sshiftRight_short x hs32] using h
  · by_cases h0 : s.toNat = 0
    · simpa [h0] using hhi
    by_cases h32 : 32 ≤ s.toNat
    · simpa [h0, h32, highWord_sshiftRight_long x h32] using
        hsign _ _ hhi (has_imm32 31#32) (by decide)
    · simpa [h0, h32, highWord_sshiftRight] using hshHi _ _ hhi hs (by omega)

end

/-! ### The lowered instruction -/

/-- Replacing an instruction with what an emitter returns: its value is that one, and the operands
keep theirs. -/
theorem lowerWith_emits (hw : WellFormed g) (hs : (g.op i).slot = none) (hi : i < g.next) (hid : g.op i ≠ .identity)
    (hno : g.hasAssociatedPseudoOperation i = false) (h : Emits g body Q) :
    ∃ g', lowerWith g i body = .ret g' true ∧ ∀ ν, Executes g' ν →
      (∀ v, Transparent g ν v) ∧ ∃ r, Q ν r ∧ ∀ x, ν.eval r = some x → ν i = some x := by
  obtain ⟨r, g₁, hrun, he, hq⟩ := h g (.refl g)
  have hop : ∀ j, j ≠ i → (g₁.toIdentity i r).op j = g₁.op j := fun j hj =>
    Graph.op_modify_of_ne hj _
  have harg : ∀ j, j ≠ i → ∀ k, (g₁.toIdentity i r).arg j k = g₁.arg j k := fun j hj k =>
    Graph.arg_modify_of_ne hj _ k
  have heval : ∀ ν j, j ≠ i → (g₁.toIdentity i r).evalArg ν j = g₁.evalArg ν j := fun ν j hj => by
    funext k
    rw [Graph.evalArg, Graph.evalArg, harg j hj]
  refine ⟨g₁.toIdentity i r, ?_, fun ν hν => ⟨?_, r, hq ν ?_, fun x hx => ?_⟩⟩
  · rw [lowerWith, if_neg (by simp [hno]), hrun, Exec.ret_true_bind]
    exact Graph.replaceUsesWith_eq (by rw [(he.insts i hi).1, hs]) r
  · suffices hfrom : ∀ fuel v y, ν.eval (g.resolveFrom fuel v) = some y → ν.eval v = some y from
      fun v => hfrom g.next v
    intro fuel
    induction fuel with
    | zero =>
      intro v y hy
      rwa [resolveFrom_zero] at hy
    | succ fuel ih =>
      intro v y hy
      cases v with
      | void => exact hy
      | imm c => exact hy
      | inst j =>
        rw [Graph.resolveFrom] at hy
        split at hy
        · next hjid =>
          have hji : j ≠ i := by
            rintro rfl
            exact hid hjid
          have hj : j < g.next := by
            by_contra hge
            rw [Graph.op, hw.fresh j (Nat.le_of_not_lt hge)] at hjid
            cases hjid
          refine hν.meaning j (fun a => a 0) y ?_ ?_
          · rw [hop j hji, (he.insts j hj).1, hjid]
            rfl
          · rw [heval ν j hji, Graph.evalArg, (he.insts j hj).2]
            exact ih _ y hy
        · exact hy
  · constructor
    · intro j f v hj hlt hf hv
      have hji : j ≠ i := Nat.ne_of_gt (Nat.lt_of_lt_of_le hi hj)
      exact hν.meaning j f v (by rwa [hop j hji]) (by rwa [heval ν j hji])
    · intro z p b hz _ hp _ hsome hzp hb
      have hzi : z ≠ i := Nat.ne_of_gt (Nat.lt_of_lt_of_le hi hz)
      have hpi : p ≠ i := Nat.ne_of_gt (Nat.lt_of_lt_of_le hi hp)
      exact hν.flags z p b (by rwa [hop z hzi]) (by rwa [harg z hzi])
        (by rwa [hop z hzi, hop p hpi, heval ν p hpi])
  · refine hν.meaning i (fun a => a 0) x (by rw [Graph.op_toIdentity_self]; rfl) ?_
    rw [Graph.evalArg, Graph.arg_toIdentity_self]
    exact hx

/-- An operation on 64-bit integers whose operands can be unpacked. -/
inductive Lowerable (g : Graph) (i : ℕ) : Prop where
  | add (hop : g.op i = .iAdd64) (ha : IsOperand g (g.arg i 0)) (hb : IsOperand g (g.arg i 1))
  | sub (hop : g.op i = .iSub64) (ha : IsOperand g (g.arg i 0)) (hb : IsOperand g (g.arg i 1))
  | neg (hop : g.op i = .iNeg64) (ha : IsOperand g (g.arg i 0))
  | shiftLeft (hop : g.op i = .shiftLeftLogical64) (ha : IsOperand g (g.arg i 0))
      (hb : g.type (g.arg i 1) = .u32)
  | shiftRight (hop : g.op i = .shiftRightLogical64) (ha : IsOperand g (g.arg i 0))
      (hb : g.type (g.arg i 1) = .u32)
  | shiftRightSigned (hop : g.op i = .shiftRightArithmetic64) (ha : IsOperand g (g.arg i 0))
      (hb : g.type (g.arg i 1) = .u32)

/-- The result of an operation on 64-bit integers in an execution.  Shifts are by less than 64. -/
inductive Computes64 (g : Graph) (ν : Valuation) (i : ℕ) : BitVec 64 → Prop where
  | add (x y : BitVec 64) (hop : g.op i = .iAdd64) (ha : g.Has64 ν (g.arg i 0) x)
      (hb : g.Has64 ν (g.arg i 1) y) : Computes64 g ν i (x + y)
  | sub (x y : BitVec 64) (hop : g.op i = .iSub64) (ha : g.Has64 ν (g.arg i 0) x)
      (hb : g.Has64 ν (g.arg i 1) y) : Computes64 g ν i (x - y)
  | neg (x : BitVec 64) (hop : g.op i = .iNeg64) (ha : g.Has64 ν (g.arg i 0) x) :
      Computes64 g ν i (-x)
  | shiftLeft (x : BitVec 64) (s : BitVec 32) (hop : g.op i = .shiftLeftLogical64)
      (ha : g.Has64 ν (g.arg i 0) x) (hb : ν.Has (g.arg i 1) s) (hs : s.toNat < 64) :
      Computes64 g ν i (x <<< s.toNat)
  | shiftRight (x : BitVec 64) (s : BitVec 32) (hop : g.op i = .shiftRightLogical64)
      (ha : g.Has64 ν (g.arg i 0) x) (hb : ν.Has (g.arg i 1) s) (hs : s.toNat < 64) :
      Computes64 g ν i (x >>> s.toNat)
  | shiftRightSigned (x : BitVec 64) (s : BitVec 32) (hop : g.op i = .shiftRightArithmetic64)
      (ha : g.Has64 ν (g.arg i 0) x) (hb : ν.Has (g.arg i 1) s) (hs : s.toNat < 64) :
      Computes64 g ν i (x.sshiftRight s.toNat)

theorem Lowerable.spec (h : Lowerable g i) :
    (g.op i).slot = none ∧ g.op i ≠ .identity ∧ g.op i ≠ .void := by
  cases h with
  | add hop | sub hop | neg hop | shiftLeft hop | shiftRight hop | shiftRightSigned hop =>
    rw [hop]
    exact ⟨rfl, by simp, by simp⟩

/-- A lowered instruction is exact where what is emitted for it is. -/
theorem lowerWith_exact (hw : WellFormed g)
    (h : Lowerable g i) (hno : g.hasAssociatedPseudoOperation i = false) (he : Emits g body Q)
    (hbody : lower g i = lowerWith g i body)
    (hq : ∀ ν r, Q ν r → (∀ v, Transparent g ν v) → ∀ x, Computes64 g ν i x → ν.eval r = some (wide x)) :
    ∃ g', lower g i = .ret g' true ∧ ∀ ν, Executes g' ν → ∀ x, Computes64 g ν i x → ν i = some (wide x) := by
  obtain ⟨hs, hid, hvoid⟩ := h.spec
  have hi : i < g.next := by
    by_contra hge
    exact hvoid (by rw [Graph.op, hw.fresh i (Nat.le_of_not_lt hge)]; rfl)
  obtain ⟨g', hrun, hν⟩ := lowerWith_emits hw hs hi hid hno he
  refine ⟨g', hbody.trans hrun, fun ν he x hx => ?_⟩
  obtain ⟨ht, r, hr, heval⟩ := hν ν he
  exact heval _ (hq ν r hr ht x hx)

/-- **64-bit lowering is exact**: an operation on 64-bit integers is replaced with 32-bit operations,
and in every execution of these, whatever the results that the host leaves undefined, the pair that
takes its place holds the words of its result. -/
theorem lower_exact (hw : WellFormed g) {i : ℕ} (h : Lowerable g i)
    (hno : g.hasAssociatedPseudoOperation i = false) :
    ∃ g', lower g i = .ret g' true ∧ ∀ ν, Executes g' ν → ∀ x, Computes64 g ν i x →
      ν i = some (wide x) := by
  have ha := hw.knows i 0
  have hb := hw.knows i 1
  have h' := h
  cases h with
  | add hop hao hbo =>
    refine lowerWith_exact hw h' hno (emits_addition hw ha hb hao hbo) (by rw [lower, hop]; rfl)
      fun ν r hq ht x hx => ?_
    cases hx with
    | add x y _ hx hy => exact hq x y hx hy (ht _) (ht _)
    | _ => simp_all
  | sub hop hao hbo =>
    refine lowerWith_exact hw h' hno (emits_subtraction hw ha hb hao hbo) (by rw [lower, hop]; rfl)
      fun ν r hq ht x hx => ?_
    cases hx with
    | sub x y _ hx hy => exact hq x y hx hy (ht _) (ht _)
    | _ => simp_all
  | neg hop hao =>
    refine lowerWith_exact hw h' hno (emits_negation hw ha hao) (by rw [lower, hop]; rfl)
      fun ν r hq ht x hx => ?_
    cases hx with
    | neg x _ hx => exact hq x hx (ht _)
    | _ => simp_all
  | shiftLeft hop hao hbt =>
    refine lowerWith_exact hw h' hno (emits_leftShift hw ha hb hao hbt) (by rw [lower, hop]; rfl)
      fun ν r hq ht x hx => ?_
    cases hx with
    | shiftLeft x s _ hx hy hlt => exact hq x s hx hy hlt (ht _)
    | _ => simp_all
  | shiftRight hop hao hbt =>
    refine lowerWith_exact hw h' hno (emits_rightShift hw ha hb hao hbt) (by rw [lower, hop]; rfl)
      fun ν r hq ht x hx => ?_
    cases hx with
    | shiftRight x s _ hx hy hlt => exact hq x s hx hy hlt (ht _)
    | _ => simp_all
  | shiftRightSigned hop hao hbt =>
    refine lowerWith_exact hw h' hno (emits_arithmeticShift hw ha hb hao hbt) (by rw [lower, hop]; rfl)
      fun ν r hq ht x hx => ?_
    cases hx with
    | shiftRightSigned x s _ hx hy hlt => exact hq x s hx hy hlt (ht _)
    | _ => simp_all

/-- A program of one operation on two immediates. -/
def immediateGraph (op : Opcode) (a b : Imm) : Graph :=
  ⟨Function.update (fun _ => Inst.new .void) 0 ⟨op, ![.imm a, .imm b, .void, .void, .void], none⟩, 1⟩

theorem immediateGraph_wellFormed {op : Opcode} {a b : Imm} (hs : op.slot = none)
    (hn : op.numArgs = 2) : WellFormed (immediateGraph op a b) := by
  have hne : ∀ i, i ≠ 0 → (immediateGraph op a b).insts i = Inst.new .void := fun i h => by
    simp [immediateGraph, h]
  have harg : ∀ i k j, (immediateGraph op a b).arg i k ≠ .inst j := fun i k j => by
    by_cases h : i = 0
    · subst h
      have hall : ∀ k : Fin 5, ![Value.imm a, .imm b, .void, .void, .void] k ≠ .inst j := by
        simp [Fin.forall_fin_succ]
      simpa [immediateGraph, Graph.arg] using hall k
    · simp [Graph.arg, hne i h, Inst.new]
  have hslot : ∀ i, ((immediateGraph op a b).op i).slot = none := fun i => by
    by_cases h : i = 0
    · subst h
      simpa [immediateGraph, Graph.op] using hs
    · simp [Graph.op, hne i h, Inst.new, Opcode.slot]
  constructor
  · exact ⟨id, fun i k j h => absurd h (harg i k j)⟩
  · exact fun i k j h => absurd h (harg i k j)
  · exact fun i hi => hne i (Nat.ne_of_gt hi)
  · intro i k hk
    by_cases h : i = 0
    · subst h
      have hop : (immediateGraph op a b).op 0 = op := by simp [immediateGraph, Graph.op]
      rw [hop, hn] at hk
      have hall : ∀ k : Fin 5, 2 ≤ (k : ℕ) → ![Value.imm a, .imm b, .void, .void, .void] k = .void := by
        simp [Fin.forall_fin_succ]
      simpa [immediateGraph, Graph.arg] using hall k hk
    · simp [Graph.arg, hne i h, Inst.new]
  · intro p s z
    refine iff_of_false (fun h => ?_) fun h => absurd h.1 (harg z 0 p)
    by_cases hp : p = 0
    · subst hp
      simp [immediateGraph, Graph.associated] at h
    · simp [Graph.associated, hne p hp, Inst.new] at h
  · exact fun z p _ h => absurd h (harg z 0 p)

/-- A carry out of the low words. -/
theorem lower_exact_carry : ∃ g', lower (immediateGraph .iAdd64 (.u64 0xFFFFFFFF#64) (.u64 1#64)) 0 =
      .ret g' true ∧ ∀ ν, Executes g' ν → ν 0 = some (.composite .u32 [.u32 0#32, .u32 1#32]) := by
  obtain ⟨g', hrun, hν⟩ := lower_exact (immediateGraph_wellFormed rfl rfl) (i := 0)
    (g := immediateGraph .iAdd64 (.u64 0xFFFFFFFF#64) (.u64 1#64))
    (.add rfl (.imm _ rfl) (.imm _ rfl)) rfl
  exact ⟨g', hrun, fun ν he => hν ν he _ (.add 0xFFFFFFFF#64 1#64 rfl rfl rfl)⟩

end Shader
end NXEmu
