/-
# Folds of single operations

What folding an instruction is to keep, and that the folds of operations on immediates, of bitwise
operations and of bit-field extractions keep it.
-/

import NXEmu.Shader.Rewriting
import NXEmu.Shader.BitFields

variable {a : Fin 5 → Option Val} {v : Val} {s : Slot} {z j : ℕ} {b isSigned : Bool} {result : BitVec 32}
  {m : BitVec 32 → BitVec 32 → BitVec 32}

namespace NXEmu
namespace Shader

open Exec Option BitVec

variable {g : Graph} {ν : Valuation} {i : ℕ}

/-- **What folding instruction `i` is to keep.**  The fold returns, the instructions that there were
keep their values in the graph it leaves, and so do the flags of the pseudo-operations of `i`. -/
def Keeps (fold : Exec Graph) (g : Graph) (ν : Valuation) (i : ℕ) : Prop :=
  fold.wp fun g' _ => ∃ ν' : Valuation, (∀ j, j < g.next → ν' j = ν j) ∧ Consistent g' ν' ∧
    ∀ z b, g.arg z 0 = .inst i → (g.op z).slot.isSome = true → g.flagValue ν z = some b →
      g'.flagValue ν' z = some b

/-- No pseudo-operation has a flag of instruction `i`. -/
def NoFlags (g : Graph) (ν : Valuation) (i : ℕ) : Prop :=
  ∀ z b, g.arg z 0 = .inst i → (g.op z).slot.isSome = true → g.flagValue ν z ≠ some b

/-- The flag of a pseudo-operation is that of its parent. -/
theorem flagValue_of_slot {z p : ℕ} (hz : (g.op z).slot.isSome = true) (hp : g.arg z 0 = .inst p) :
    g.flagValue ν z = flag (g.op z) (g.op p) (g.evalArg ν p) (ν p) := by
  rw [Graph.flagValue, hp]
  cases hop : g.op z with
  | identity =>
    rw [hop] at hz
    cases hz
  | _ => rfl

theorem flag_eq_none {pseudo parent : Opcode} (h : parent.hasFlags = false)
    (a : Fin 5 → Option Val) (x : Option Val) : flag pseudo parent a x = none := by
  have hadd : parent ≠ .iAdd32 := by
    rintro rfl
    cases h
  unfold flag
  cases pseudo <;> simp [h, hadd]

theorem noFlags_of_hasFlags (h : (g.op i).hasFlags = false) : NoFlags g ν i := fun z b hz hs hb => by
  rw [flagValue_of_slot hs hz, flag_eq_none h] at hb
  cases hb

theorem noFlags_of_not_associated (hw : WellFormed g)
    (h : g.hasAssociatedPseudoOperation i = false) : NoFlags g ν i := fun z b hz hs _ => by
  rw [hw.no_parent h hz] at hs
  cases hs

/-- A fold that does nothing. -/
theorem keeps_pure (hc : Consistent g ν) (held : Bool) : Keeps (.ret g held) g ν i :=
  wp_ret.2 ⟨ν, fun _ _ => rfl, hc, fun _ _ _ _ h => h⟩

/-- A fold that leaves another consistent graph, of an instruction without flags. -/
theorem keeps_of_noFlags {g' : Graph} {ν' : Valuation} (hno : NoFlags g ν i) (held : Bool)
    (hν : ∀ j, j < g.next → ν' j = ν j) (hc : Consistent g' ν') : Keeps (.ret g' held) g ν i :=
  wp_ret.2 ⟨ν', hν, hc, fun z b hz hs hb => absurd hb (hno z b hz hs)⟩

/-- Replacing the uses of an instruction with its value. -/
theorem keeps_replaceUsesWith (hc : Consistent g ν) (hno : NoFlags g ν i)
    (hs : (g.op i).slot = none) {v : Value} (hv : ν.eval v = ν i) :
    Keeps (g.replaceUsesWith i v) g ν i := by
  rw [Graph.replaceUsesWith_eq hs]
  exact keeps_of_noFlags hno true (fun _ _ => rfl) (hc.toIdentity hv)

/-- Replacing the uses of an instruction with something else does not keep its value. -/
theorem not_keeps_replaceUsesWith (hs : (g.op i).slot = none)
    {v : Value} (hi : i < g.next) (hv : g.Knows v) (hne : ν.eval v ≠ ν i) :
    ¬Keeps (g.replaceUsesWith i v) g ν i := by
  rw [Graph.replaceUsesWith_eq hs]
  intro h
  obtain ⟨ν', hν, hc', -⟩ := wp_ret.1 h
  have hi' := hc'.meaning i _ (by rw [Graph.op_toIdentity_self]; rfl)
  rw [Graph.evalArg, Graph.arg_toIdentity_self, hν i hi] at hi'
  refine hne ?_
  rw [hi']
  cases v with
  | void => rfl
  | imm c => rfl
  | inst j => exact (hν j (hv j rfl)).symm

/-! ### Operations on immediates -/

/-- All arguments of an instruction are immediates. -/
def AllImmediate (g : Graph) (i : ℕ) : Prop :=
  ∀ k : Fin 5, (k : ℕ) < (g.op i).numArgs → g.isImmediate (g.arg i k) = true

instance : Decidable (AllImmediate g i) :=
  inferInstanceAs (Decidable (∀ k : Fin 5, (k : ℕ) < (g.op i).numArgs →
    g.isImmediate (g.arg i k) = true))

theorem areAllArgsImmediates_eq (hm : (g.op i).meaning.isSome = true) :
    g.areAllArgsImmediates i = .ret (decide (AllImmediate g i)) true := by
  rw [Graph.areAllArgsImmediates]
  split
  · next hop =>
    rw [hop] at hm
    cases hm
  · rfl

/-- `FoldWhenAllImmediates`, of an operation. -/
theorem foldWhenAllImmediates_eq (hm : (g.op i).meaning.isSome = true) (hs : (g.op i).slot = none) (eval : Exec Imm) :
    foldWhenAllImmediates g i eval = if AllImmediate g i ∧ g.hasAssociatedPseudoOperation i = false then
        eval >>= fun x => .ret (true, g.toIdentity i (.imm x)) true
      else .ret (false, g) true := by
  rw [foldWhenAllImmediates, areAllArgsImmediates_eq hm, ret_true_bind]
  by_cases hall : AllImmediate g i
  · cases hassoc : g.hasAssociatedPseudoOperation i with
    | true => simp
    | false =>
      rw [if_neg (by simp [hall]), if_pos ⟨hall, rfl⟩]
      simp only [Graph.replaceUsesWith_eq hs, ret_true_bind, pure_eq]
  · rw [if_pos (by simp [hall]), if_neg (fun h => hall h.1), pure_eq]

/-- **Folding an operation on immediates** to the value that it has. -/
theorem keeps_foldWhenAllImmediates (hc : Consistent g ν) (hw : WellFormed g)
    (hm : (g.op i).meaning.isSome = true) (hs : (g.op i).slot = none) {eval : Exec Imm}
    (heval : AllImmediate g i → g.hasAssociatedPseudoOperation i = false →
      ∃ c, eval = .ret c true ∧ ν i = some (.scalar c)) :
    Keeps (foldWhenAllImmediates g i eval >>= fun r => .ret r.2 true) g ν i := by
  rw [foldWhenAllImmediates_eq hm hs]
  split
  · next h =>
    obtain ⟨c, hcv, hv⟩ := heval h.1 h.2
    rw [hcv, ret_true_bind, ret_true_bind]
    exact keeps_of_noFlags (noFlags_of_not_associated hw h.2) true (fun _ _ => rfl)
      (hc.toIdentity hv.symm)
  · rw [ret_true_bind]
    exact keeps_pure hc true

section Binary

variable {α β : Type} [ImmType α] [ImmType β]

theorem evalBinary_eq_some {f : α → α → β} :
    evalBinary f a = some v ↔ ∃ x y, (a 0).bind Val.as = some x ∧ (a 1).bind Val.as = some y ∧
      v = .scalar (ImmType.imm (f x y)) := by
  simp only [evalBinary, bind_eq_bind, bind_eq_some_iff, some.injEq]
  constructor
  · rintro ⟨x, hx, y, hy, h⟩
    exact ⟨x, y, hx, hy, h.symm⟩
  · rintro ⟨x, y, hx, hy, h⟩
    exact ⟨x, hx, y, hy, h.symm⟩

theorem evalShift_eq_some {f : BitVec 32 → ℕ → BitVec 32} :
    evalShift f a = some v ↔ ∃ x y : BitVec 32, (a 0).bind Val.as = some x ∧
      (a 1).bind Val.as = some y ∧ y.toNat < 32 ∧ v = .scalar (.u32 (f x y.toNat)) := by
  simp only [evalShift, bind_eq_bind, bind_eq_some_iff, guard_eq_some', some.injEq]
  constructor
  · rintro ⟨x, hx, y, hy, -, hlt, h⟩
    exact ⟨x, y, hx, hy, hlt, h.symm⟩
  · rintro ⟨x, y, hx, hy, hlt, h⟩
    exact ⟨x, hx, y, hy, (), hlt, h.symm⟩

/-- The value of an operation on two immediates. -/
theorem Consistent.evalImmediates₂_eq (hc : Consistent g ν) (h0 : g.isImmediate (g.arg i 0) = true)
    (h1 : g.isImmediate (g.arg i 1) = true) {x y : α} (hx : (g.evalArg ν i 0).bind Val.as = some x)
    (hy : (g.evalArg ν i 1).bind Val.as = some y) (f : α → α → β) :
    evalImmediates₂ g i f = .ret (ImmType.imm (f x y)) true := by
  rw [evalImmediates₂, hc.argAs_eq h0 hx, ret_true_bind, hc.argAs_eq h1 hy, ret_true_bind, pure_eq]

/-- **The folds of operations on two words**, with a meaning that is what they evaluate. -/
theorem keeps_foldBinary (hc : Consistent g ν) (hw : WellFormed g) (hs : (g.op i).slot = none)
    (hn : (g.op i).numArgs = 2) {m : (Fin 5 → Option Val) → Option Val}
    (hm : (g.op i).meaning = some m) {f : BitVec 32 → BitVec 32 → β}
    (hf : ∀ v, m (g.evalArg ν i) = some v → ∃ x y : BitVec 32,
      (g.evalArg ν i 0).bind Val.as = some x ∧ (g.evalArg ν i 1).bind Val.as = some y ∧
        v = .scalar (ImmType.imm (f x y)))
    (hdef : ν i ≠ none) : Keeps (foldBinary g i f) g ν i := by
  refine keeps_foldWhenAllImmediates hc hw (by rw [hm]; rfl) hs fun hall _ => ?_
  obtain ⟨v, hv⟩ := ne_none_iff_exists'.1 hdef
  obtain ⟨x, y, hx, hy, rfl⟩ := hf v ((hc.meaning i m hm).symm.trans hv)
  exact ⟨_, hc.evalImmediates₂_eq (hall 0 (by rw [hn]; decide)) (hall 1 (by rw [hn]; decide)) hx hy f, hv⟩

end Binary

/-! ### Operations with flags of the result -/

/-- The pseudo-operation of an instruction in a slot. -/
def Graph.pseudo (g : Graph) (i : ℕ) (s : Slot) : Option ℕ := (g.associated i).bind (· s)

/-- The pseudo-operation of a flag of the result. -/
def Slot.opcode : Slot → Opcode
  | zero => .getZeroFromOp
  | sign => .getSignFromOp
  | carry => .getCarryFromOp
  | overflow => .getOverflowFromOp

theorem Slot.slot_opcode (s : Slot) : s.opcode.slot = some s := by
  cases s <;> rfl

theorem Opcode.eq_opcode {o : Opcode} (h : o.slot = some s)
    (hs : o ≠ .getSparseFromOp) (hb : o ≠ .getInBoundsFromOp) : o = s.opcode := by
  cases o <;> cases h <;> first | rfl | exact absurd rfl hs | exact absurd rfl hb

/-- The pseudo-operations of an instruction with flags of its result. -/
theorem WellFormed.op_pseudo (hw : WellFormed g) (hf : (g.op i).hasFlags = true)
    (hz : g.pseudo i s = some z) : g.op z = s.opcode := by
  obtain ⟨harg, hslot⟩ := (hw.associated i s z).1 hz
  refine Opcode.eq_opcode hslot (fun h => ?_) fun h => ?_
  · rw [hw.sparse z i (Or.inl h) harg] at hf
    cases hf
  · rw [hw.sparse z i (Or.inr h) harg] at hf
    cases hf

/-- Looking for a pseudo-operation. -/
theorem getAssociatedPseudoOperation_eq (h : ∀ z, g.pseudo i s = some z → g.op z = s.opcode) :
    g.getAssociatedPseudoOperation i s.opcode = .ret (g.pseudo i s) true := by
  unfold Graph.pseudo at h ⊢
  unfold Graph.getAssociatedPseudoOperation
  cases ha : g.associated i with
  | none => rfl
  | some insts =>
    rw [ha] at h
    simp only [s.slot_opcode, bind_some]
    cases hz : insts s with
    | none => rfl
    | some z => simp only [if_pos (h z hz), pure_eq]

/-- `CanFoldWithZeroSign`: neither the carry nor the overflow is asked for. -/
theorem canFoldWithZeroSign_eq (hw : WellFormed g) (hf : (g.op i).hasFlags = true) :
    canFoldWithZeroSign g i = .ret (decide (g.pseudo i .carry = none ∧ g.pseudo i .overflow = none)) true := by
  have hcarry := getAssociatedPseudoOperation_eq (s := .carry) fun z hz => hw.op_pseudo hf hz
  have hoverflow := getAssociatedPseudoOperation_eq (s := .overflow) fun z hz => hw.op_pseudo hf hz
  simp only [Slot.opcode] at hcarry hoverflow
  rw [canFoldWithZeroSign, hcarry, ret_true_bind]
  cases hc : g.pseudo i .carry with
  | some z => simp
  | none =>
    rw [if_neg (by simp), hoverflow, ret_true_bind, pure_eq]
    cases g.pseudo i .overflow <;> simp

/-- The graph after the uses of the pseudo-operation in a slot have been replaced. -/
def Graph.withoutPseudo (g : Graph) (i : ℕ) (s : Slot) (b : Bool) : Graph :=
  match g.pseudo i s with
  | none => g
  | some z => (g.associate i s none).toIdentity z (.imm (.u1 b))

/-- Replacing the uses of a pseudo-operation. -/
theorem replacePseudoOperation_eq (hi : g.op i ≠ .identity) (h : ∀ z, g.pseudo i s = some z →
      g.op z = s.opcode ∧ g.arg z 0 = .inst i ∧ ∀ k : Fin 5, 1 ≤ (k : ℕ) → g.arg z k = .void)
    (b : Bool) :
    replacePseudoOperation g i s.opcode b = .ret (g.withoutPseudo i s b) true := by
  rw [replacePseudoOperation, getAssociatedPseudoOperation_eq fun z hz => (h z hz).1,
    ret_true_bind, Graph.withoutPseudo]
  cases hz : g.pseudo i s with
  | none => rfl
  | some z =>
    obtain ⟨hop, harg, hvoid⟩ := h z hz
    exact replaceUsesWith_pseudo_eq (by rw [hop, s.slot_opcode]) harg hi hz hvoid _

namespace Graph

/-- Other instructions stay as they are. -/
theorem op_withoutPseudo (h : g.pseudo i s ≠ some j) :
    (g.withoutPseudo i s b).op j = g.op j := by
  unfold withoutPseudo
  split
  · rfl
  · next z hz =>
    have hj : j ≠ z := fun he => h (he ▸ hz)
    rw [toIdentity, op_modify_of_ne hj, op_associate]

theorem arg_withoutPseudo (h : g.pseudo i s ≠ some j) (k : Fin 5) :
    (g.withoutPseudo i s b).arg j k = g.arg j k := by
  unfold withoutPseudo
  split
  · rfl
  · next z hz =>
    have hj : j ≠ z := fun he => h (he ▸ hz)
    rw [toIdentity, arg_modify_of_ne hj, arg_associate]

/-- The pseudo-operation itself is an identity of its flag. -/
theorem withoutPseudo_self (h : g.pseudo i s = some z) :
    (g.withoutPseudo i s b).op z = .identity ∧ (g.withoutPseudo i s b).arg z 0 = .imm (.u1 b) := by
  rw [withoutPseudo, h]
  exact ⟨op_toIdentity_self .., arg_toIdentity_self ..⟩

/-- The pseudo-operations in the other slots stay. -/
theorem pseudo_withoutPseudo {s t : Slot} (h : t ≠ s) :
    (g.withoutPseudo i s b).pseudo i t = g.pseudo i t := by
  unfold withoutPseudo
  split
  · rfl
  · next z hz =>
    have hassoc : ∀ g : Graph, ∀ j, (g.toIdentity z (.imm (.u1 b))).associated j = g.associated j :=
      fun g j => by
        by_cases hj : j = z
        · subst hj
          simp [toIdentity, modify, associated]
        · simp [toIdentity, modify, associated, hj]
    rw [pseudo, hassoc, associated_associate, if_neg fun h' => h h'.2, pseudo]

end Graph

/-- Replacing a pseudo-operation with the flag that it has. -/
theorem Consistent.withoutPseudo (hc : Consistent g ν)
    (h : ∀ z, g.pseudo i s = some z → ν z = some (.scalar (.u1 b))) :
    Consistent (g.withoutPseudo i s b) ν := by
  unfold Graph.withoutPseudo
  split
  · exact hc
  · next z hz =>
    exact (hc.congr (Graph.op_associate g i s none) (Graph.arg_associate g i s none)).toIdentity
      (h z hz).symm

theorem and_signBit (x : BitVec 32) : decide (x &&& 0x80000000#32 ≠ 0) = x.msb := by
  rw [msb_eq_getLsbD_last]
  have hbit : ∀ k, (0x80000000#32).getLsbD k = decide (31 = k) := fun k => by
    rw [show 0x80000000#32 = twoPow 32 31 from rfl, getLsbD_twoPow]
    simp
  cases hx : x.getLsbD (32 - 1) with
  | true =>
    refine decide_eq_true fun h => ?_
    have h31 := congrArg (fun y : BitVec 32 => y.getLsbD 31) h
    rw [getLsbD_and, hbit, hx] at h31
    cases h31
  | false =>
    refine decide_eq_false (not_not.2 (eq_of_getLsbD_eq fun k _ => ?_))
    rw [getLsbD_and, hbit, show (0 : BitVec 32).getLsbD k = false from getLsbD_zero]
    by_cases hk : 31 = k
    · subst hk
      rw [hx, Bool.false_and]
    · rw [decide_eq_false hk, Bool.and_false]

/-- The flags of the result of an operation, for the two that are folded with it. -/
theorem flag_of_result {parent : Opcode} (hf : parent.hasFlags = true) :
    flag .getZeroFromOp parent a (some (.scalar (.u32 result))) = some (decide (result = 0)) ∧
      flag .getSignFromOp parent a (some (.scalar (.u32 result))) = some result.msb := by
  have has : (Val.scalar (.u32 result)).as = some result := Val.as_eq_some.2 rfl
  simp [flag, hf, has]

/-- **`ReplaceU32WithZeroSign`** of an operation and its result keeps the flags, if only the zero and
the sign are asked for. -/
theorem keeps_replaceU32WithZeroSign (hc : Consistent g ν) (hw : WellFormed g)
    (hf : (g.op i).hasFlags = true) (hν : ν i = some (.scalar (.u32 result)))
    (hcarry : g.pseudo i .carry = none) (hoverflow : g.pseudo i .overflow = none) :
    Keeps (replaceU32WithZeroSign g i result) g ν i := by
  have hslot : (g.op i).slot = none := by
    cases hop : g.op i <;> rw [hop] at hf <;> first | rfl | cases hf
  have hself : ∀ s, g.pseudo i s ≠ some i := fun s h => by
    rw [((hw.associated i s i).1 h).2] at hslot
    cases hslot
  have hid : g.op i ≠ .identity := by
    intro h
    rw [h] at hf
    cases hf
  have hpseudo : ∀ s z, g.pseudo i s = some z →
      g.op z = s.opcode ∧ g.arg z 0 = .inst i ∧ ∀ k : Fin 5, 1 ≤ (k : ℕ) → g.arg z k = .void :=
    fun s z hz => ⟨hw.op_pseudo hf hz, ((hw.associated i s z).1 hz).1,
      fun k hk => hw.arg_pseudo ((hw.associated i s z).1 hz).2 hk⟩
  have hother : ∀ z, g.pseudo i .sign = some z → g.pseudo i .zero ≠ some z := fun z hz h => by
    have h1 := (hpseudo _ z hz).1
    rw [(hpseudo _ z h).1] at h1
    cases h1
  -- the flags that the two pseudo-operations have
  have hflag : ∀ z b, (g.op z).slot.isSome = true → g.arg z 0 = .inst i →
      flag (g.op z) (g.op i) (g.evalArg ν i) (ν i) = some b → ν z = some (.scalar (.u1 b)) :=
    fun z b hz hp hb => hc.flags z i b hz hp hb
  have hzero : ∀ z, g.pseudo i .zero = some z → ν z = some (.scalar (.u1 (decide (result = 0)))) := fun z hz => by
    refine hflag z _ ?_ (hpseudo _ z hz).2.1 ?_
    · rw [(hpseudo _ z hz).1]
      rfl
    · rw [(hpseudo _ z hz).1, hν]
      exact (flag_of_result hf).1
  have hsign : ∀ z, g.pseudo i .sign = some z →
      ν z = some (.scalar (.u1 (decide (result &&& 0x80000000#32 ≠ 0)))) := fun z hz => by
    refine hflag z _ ?_ (hpseudo _ z hz).2.1 ?_
    · rw [(hpseudo _ z hz).1]
      rfl
    · rw [(hpseudo _ z hz).1, hν, and_signBit]
      exact (flag_of_result hf).2
  -- the first of them goes, then the second, then the operation itself
  set g₁ := g.withoutPseudo i .zero (decide (result = 0)) with hg₁
  have hop₁ : g₁.op i = g.op i := Graph.op_withoutPseudo (hself .zero)
  have hps₁ : g₁.pseudo i .sign = g.pseudo i .sign := Graph.pseudo_withoutPseudo (by decide)
  set g₂ := g₁.withoutPseudo i .sign (decide (result &&& 0x80000000#32 ≠ 0)) with hg₂
  have hop₂ : g₂.op i = g.op i := (Graph.op_withoutPseudo (hps₁ ▸ hself .sign)).trans hop₁
  have hfold : replaceU32WithZeroSign g i result = .ret (g₂.toIdentity i (.imm (.u32 result))) true := by
    have h1 := replacePseudoOperation_eq (s := .zero) hid (hpseudo .zero) (decide (result = 0))
    have h2 := replacePseudoOperation_eq (g := g₁) (s := .sign) (by rw [hop₁]; exact hid)
      (fun z hz => by
        rw [hps₁] at hz
        have hne := hother z hz
        rw [Graph.op_withoutPseudo hne, Graph.arg_withoutPseudo hne]
        refine ⟨(hpseudo _ z hz).1, (hpseudo _ z hz).2.1, fun k hk => ?_⟩
        rw [Graph.arg_withoutPseudo hne]
        exact (hpseudo _ z hz).2.2 k hk) (decide (result &&& 0x80000000#32 ≠ 0))
    simp only [Slot.opcode] at h1 h2
    rw [replaceU32WithZeroSign, h1, ret_true_bind, ← hg₁, h2, ret_true_bind,
      Graph.replaceUsesWith_eq (by rw [← hg₂, hop₂]; exact hslot)]
  have hcons : Consistent (g₂.toIdentity i (.imm (.u32 result))) ν := by
    refine ((hc.withoutPseudo hzero).withoutPseudo fun z hz => ?_).toIdentity hν.symm
    rw [hps₁] at hz
    exact hsign z hz
  rw [hfold]
  refine wp_ret.2 ⟨ν, fun _ _ => rfl, hcons, fun z b hz hs hb => ?_⟩
  obtain ⟨s, hs'⟩ := isSome_iff_exists.1 hs
  have hmem : g.pseudo i s = some z := (hw.associated i s z).2 ⟨hz, hs'⟩
  have hzi : z ≠ i := fun h => hself s (h ▸ hmem)
  have hidentity : ∀ b', g₂.op z = .identity → g₂.arg z 0 = .imm (.u1 b') → b' = b →
      (g₂.toIdentity i (.imm (.u32 result))).flagValue ν z = some b := by
    rintro b' hop harg rfl
    rw [Graph.flagValue, Graph.toIdentity, Graph.op_modify_of_ne hzi, Graph.arg_modify_of_ne hzi, hop, harg]
    exact bind_as_eq_some.2 rfl
  rw [flagValue_of_slot hs hz, hν, (hpseudo s z hmem).1] at hb
  cases s with
  | carry =>
    rw [hcarry] at hmem
    cases hmem
  | overflow =>
    rw [hoverflow] at hmem
    cases hmem
  | zero =>
    have hne : g₁.pseudo i .sign ≠ some z := fun h => hother z (hps₁ ▸ h) hmem
    have hself₁ := Graph.withoutPseudo_self (b := decide (result = 0)) hmem
    refine hidentity _ ((Graph.op_withoutPseudo hne).trans hself₁.1)
      ((Graph.arg_withoutPseudo hne 0).trans hself₁.2) ?_
    exact some.inj ((flag_of_result hf).1.symm.trans hb)
  | sign =>
    have hself₂ := Graph.withoutPseudo_self (g := g₁)
      (b := decide (result &&& 0x80000000#32 ≠ 0)) (hps₁.trans hmem)
    refine hidentity _ hself₂.1 hself₂.2 ?_
    rw [and_signBit]
    exact some.inj ((flag_of_result hf).2.symm.trans hb)

/-- `FoldBitwise32` folds to the value of the operation. -/
theorem foldBitwise32Result_eq (hc : Consistent g ν) (hm : (g.op i).meaning = some (evalBinary m))
    (hop : g.op i = .bitwiseAnd32 ∧ m = (· &&& ·) ∨ g.op i = .bitwiseOr32 ∧ m = (· ||| ·) ∨
      g.op i = .bitwiseXor32 ∧ m = (· ^^^ ·))
    (hr : foldBitwise32Result g i (g.resolve (g.arg i 0)) (g.resolve (g.arg i 1)) = some result)
    (hdef : ν i ≠ none) : ν i = some (.scalar (.u32 result)) := by
  obtain ⟨v, hv⟩ := ne_none_iff_exists'.1 hdef
  obtain ⟨x, y, hx, hy, rfl⟩ := evalBinary_eq_some.1 ((hc.meaning i _ hm).symm.trans hv)
  have hx' := bind_as_eq_some.1 hx
  have hy' := bind_as_eq_some.1 hy
  rw [Graph.evalArg, ← hc.eval_resolve] at hx' hy'
  rw [hv]
  congr 2
  show Imm.u32 (m x y) = Imm.u32 result
  congr 1
  generalize g.resolve (g.arg i 0) = lhs at hx' hr
  generalize g.resolve (g.arg i 1) = rhs at hy' hr
  -- an immediate operand is its value
  have himm : ∀ {w : Value} {z c : BitVec 32}, ν.eval w = some (.scalar (ImmType.imm z)) →
      w = .imm (.u32 c) → z = c := by
    rintro w z c hw rfl
    cases hw
    rfl
  unfold foldBitwise32Result at hr
  obtain ⟨ho, rfl⟩ | ⟨ho, rfl⟩ | ⟨ho, rfl⟩ := hop
  · rw [ho] at hr
    simp only at hr
    split at hr
    · next h =>
      cases hr
      obtain h | h := h
      · rw [himm hx' h]
        exact zero_and
      · rw [himm hy' h]
        exact and_zero
    · split at hr
      · next a b =>
        cases hr
        rw [himm hx' rfl, himm hy' rfl]
      · cases hr
  · rw [ho] at hr
    simp only at hr
    split at hr
    · next h =>
      cases hr
      obtain h | h := h
      · rw [himm hx' h]
        exact allOnes_or
      · rw [himm hy' h]
        exact or_allOnes
    · split at hr
      · next a b =>
        cases hr
        rw [himm hx' rfl, himm hy' rfl]
      · cases hr
  · rw [ho] at hr
    cases lhs with
    | void => cases hx'
    | imm c =>
      cases hx'
      cases rhs with
      | void => cases hy'
      | imm c =>
        cases hy'
        cases hr
        rfl
      | inst k => cases hr
    | inst j =>
      cases rhs with
      | void => cases hy'
      | imm c => cases hr
      | inst k =>
        simp only at hr
        split at hr
        · next h =>
          cases hr
          rw [h.1] at hx'
          have hxy : x = y := by
            have := hx'.symm.trans hy'
            simpa [ImmType.imm] using this
          rw [hxy]
          exact xor_self
        · cases hr

/-- **`FoldBitwise32`.** -/
theorem keeps_foldBitwise32 (hc : Consistent g ν) (hw : WellFormed g) (hm : (g.op i).meaning = some (evalBinary m))
    (hop : g.op i = .bitwiseAnd32 ∧ m = (· &&& ·) ∨ g.op i = .bitwiseOr32 ∧ m = (· ||| ·) ∨
      g.op i = .bitwiseXor32 ∧ m = (· ^^^ ·)) (hdef : ν i ≠ none) :
    Keeps (foldBitwise32 g i) g ν i := by
  have hf : (g.op i).hasFlags = true := by
    obtain ⟨h, -⟩ | ⟨h, -⟩ | ⟨h, -⟩ := hop <;> rw [h] <;> rfl
  rw [foldBitwise32, canFoldWithZeroSign_eq hw hf, ret_true_bind]
  split
  · exact keeps_pure hc true
  · next hcan =>
    obtain ⟨hcarry, hoverflow⟩ : g.pseudo i .carry = none ∧ g.pseudo i .overflow = none := by
      simpa using hcan
    split
    · exact keeps_pure hc true
    · next result hr =>
      exact keeps_replaceU32WithZeroSign hc hw hf (foldBitwise32Result_eq hc hm hop hr hdef) hcarry
        hoverflow

theorem evalBitFieldExtract_eq_some :
    evalBitFieldExtract isSigned a = some v ↔ ∃ base offset count : BitVec 32,
      (a 0).bind Val.as = some base ∧ (a 1).bind Val.as = some offset ∧
        (a 2).bind Val.as = some count ∧ offset.toNat + count.toNat ≤ 32 ∧
          v = .scalar (.u32 (bitField isSigned base offset.toNat count.toNat)) := by
  simp only [evalBitFieldExtract, bind_eq_bind, bind_eq_some_iff, guard_eq_some', some.injEq]
  constructor
  · rintro ⟨x, hx, y, hy, z, hz, -, hle, h⟩
    exact ⟨x, y, z, hx, hy, hz, hle, h.symm⟩
  · rintro ⟨x, y, z, hx, hy, hz, hle, h⟩
    exact ⟨x, hx, y, hy, z, hz, (), hle, h.symm⟩

/-- **`FoldBitFieldExtract`**: where the field is inside the word the fold does not throw. -/
theorem keeps_foldBitFieldExtract (hc : Consistent g ν) (hw : WellFormed g)
    (hm : (g.op i).meaning = some (evalBitFieldExtract isSigned)) (hf : (g.op i).hasFlags = true)
    (hn : (g.op i).numArgs = 3) (hdef : ν i ≠ none) :
    Keeps (foldBitFieldExtract g i isSigned) g ν i := by
  rw [foldBitFieldExtract, foldWhenAllImmediatesWithZeroSign,
    areAllArgsImmediates_eq (by rw [hm]; rfl), ret_true_bind]
  split
  · exact keeps_pure hc true
  · next hall =>
    have hall : AllImmediate g i := by simpa using hall
    rw [canFoldWithZeroSign_eq hw hf, ret_true_bind]
    split
    · exact keeps_pure hc true
    · next hcan =>
      obtain ⟨hcarry, hoverflow⟩ : g.pseudo i .carry = none ∧ g.pseudo i .overflow = none := by
        simpa using hcan
      obtain ⟨v, hv⟩ := ne_none_iff_exists'.1 hdef
      obtain ⟨x, y, z, hx, hy, hz, hle, rfl⟩ :=
        evalBitFieldExtract_eq_some.1 ((hc.meaning i _ hm).symm.trans hv)
      have heval : evalImmediates₃ g i (bitFieldExtractImm isSigned) =
          .ret (.u32 (bitField isSigned x y.toNat z.toNat)) true := by
        rw [evalImmediates₃, hc.argAs_eq (hall 0 (by rw [hn]; decide)) hx, ret_true_bind,
          hc.argAs_eq (hall 1 (by rw [hn]; decide)) hy, ret_true_bind,
          hc.argAs_eq (hall 2 (by rw [hn]; decide)) hz, ret_true_bind,
          bitFieldExtractImm_eq isSigned x hle, ret_true_bind]
        rfl
      rw [heval, ret_true_bind]
      exact keeps_replaceU32WithZeroSign hc hw hf hv hcarry hoverflow

theorem evalBitFieldInsert_eq_some :
    evalBitFieldInsert a = some v ↔ ∃ base insert offset count : BitVec 32,
      (a 0).bind Val.as = some base ∧ (a 1).bind Val.as = some insert ∧
        (a 2).bind Val.as = some offset ∧ (a 3).bind Val.as = some count ∧ offset.toNat + count.toNat ≤ 32 ∧
            v = .scalar (.u32 (withBitField base insert offset.toNat count.toNat)) := by
  simp only [evalBitFieldInsert, bind_eq_bind, bind_eq_some_iff, guard_eq_some', some.injEq]
  constructor
  · rintro ⟨x, hx, y, hy, z, hz, w, hw, -, hle, h⟩
    exact ⟨x, y, z, w, hx, hy, hz, hw, hle, h.symm⟩
  · rintro ⟨x, y, z, w, hx, hy, hz, hw, hle, h⟩
    exact ⟨x, hx, y, hy, z, hz, w, hw, (), hle, h.symm⟩

/-- `BitFieldInsert` is folded: its arguments are immediates, and no pseudo-operation is associated
with it. -/
def FoldsInsert (g : Graph) (i : ℕ) : Prop :=
  g.op i = .bitFieldInsert ∧ AllImmediate g i ∧ g.hasAssociatedPseudoOperation i = false

/-- **The fold of `BitFieldInsert`** keeps the value if and only if the field fits. -/
theorem keeps_bitFieldInsert_iff (hc : Consistent g ν) (hw : WellFormed g) (hi : i < g.next)
    (hop : g.op i = .bitFieldInsert) (hdef : ν i ≠ none) :
    Keeps (foldWhenAllImmediates g i (evalImmediates₄ g i bitFieldInsertImm) >>= fun r => .ret r.2 true) g ν i ↔
      (FoldsInsert g i → ∀ base insert offset bits : BitVec 32,
        g.resolve (g.arg i 0) = .imm (.u32 base) → g.resolve (g.arg i 1) = .imm (.u32 insert) →
          g.resolve (g.arg i 2) = .imm (.u32 offset) → g.resolve (g.arg i 3) = .imm (.u32 bits) →
            InsertFits base insert offset bits) := by
  have hm : (g.op i).meaning = some evalBitFieldInsert := by rw [hop]; rfl
  have hs : (g.op i).slot = none := by rw [hop]; rfl
  obtain ⟨v, hv⟩ := ne_none_iff_exists'.1 hdef
  obtain ⟨x, y, z, w, hx, hy, hz, hw', hle, rfl⟩ :=
    evalBitFieldInsert_eq_some.1 ((hc.meaning i _ hm).symm.trans hv)
  rw [foldWhenAllImmediates_eq (by rw [hm]; rfl) hs]
  by_cases hfold : AllImmediate g i ∧ g.hasAssociatedPseudoOperation i = false
  · have harg : ∀ k : Fin 5, (k : ℕ) < 4 → g.isImmediate (g.arg i k) = true := fun k hk =>
      hfold.1 k (by rw [hop]; exact hk)
    have h0 := hc.resolve_eq (harg 0 (by decide)) hx
    have h1 := hc.resolve_eq (harg 1 (by decide)) hy
    have h2 := hc.resolve_eq (harg 2 (by decide)) hz
    have h3 := hc.resolve_eq (harg 3 (by decide)) hw'
    have heval : evalImmediates₄ g i bitFieldInsertImm =
        bitFieldInsertImm x y z w >>= fun c => .ret (.u32 c) true := by
      rw [evalImmediates₄, argAs_of_resolve h0, ret_true_bind, argAs_of_resolve h1,
        ret_true_bind, argAs_of_resolve h2, ret_true_bind, argAs_of_resolve h3,
        ret_true_bind]
      rfl
    have hiff : (FoldsInsert g i → ∀ base insert offset bits : BitVec 32,
        g.resolve (g.arg i 0) = .imm (.u32 base) → g.resolve (g.arg i 1) = .imm (.u32 insert) →
          g.resolve (g.arg i 2) = .imm (.u32 offset) → g.resolve (g.arg i 3) = .imm (.u32 bits) →
            InsertFits base insert offset bits) ↔ InsertFits x y z w := by
      constructor
      · exact fun h => h ⟨hop, hfold⟩ x y z w h0 h1 h2 h3
      · intro h _ base insert offset bits e0 e1 e2 e3
        cases h0.symm.trans e0
        cases h1.symm.trans e1
        cases h2.symm.trans e2
        cases h3.symm.trans e3
        exact h
    rw [hiff, if_pos hfold, heval, ← bitFieldInsertImm_eq_iff]
    cases hfun : bitFieldInsertImm x y z w with
    | fault => exact iff_of_false (fun h => wp_fault.1 h) fun h => by cases h
    | ret c held =>
      have hheld : held = true := by
        unfold bitFieldInsertImm at hfun
        split at hfun <;> cases hfun
        rfl
      subst hheld
      rw [ret_true_bind, ret_true_bind, ret_true_bind, ret.injEq, and_iff_left rfl]
      constructor
      · intro h
        by_contra hne
        rw [← Graph.replaceUsesWith_eq hs] at h
        refine not_keeps_replaceUsesWith hs hi (fun j hj => by cases hj) (fun he => hne ?_) h
        rw [hv] at he
        simpa [Valuation.eval] using he
      · rintro rfl
        exact keeps_of_noFlags (noFlags_of_not_associated hw hfold.2) true (fun _ _ => rfl)
          (hc.toIdentity hv.symm)
  · rw [if_neg hfold, ret_true_bind]
    exact iff_of_true (keeps_pure hc true) fun h => absurd h.2 hfold

end Shader
end NXEmu
