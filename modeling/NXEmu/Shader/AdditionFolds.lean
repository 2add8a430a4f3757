/-
# Folds of additions and subtractions

Additions are moved around as commutative operations, lose a neutral operand, and two patterns of
products of halves become a multiplication, or a multiplication and an addition.  Subtractions of
equal reads of a constant buffer cancel.
-/

import NXEmu.Shader.OperandFolds

variable {v w : Value} {x y : BitVec 32} {f : BitVec 32 → BitVec 32 → BitVec 32} {j b : ℕ}

namespace NXEmu
namespace Shader

open Exec Option

variable {g : Graph} {ν : Valuation} {i : ℕ}

/-! ### Words -/

/-- A value is a word. -/
def IsWord (ν : Valuation) (v : Value) (x : BitVec 32) : Prop := ν.eval v = some (.scalar (.u32 x))

theorem IsWord.bind_as (h : IsWord ν v x) :
    (ν.eval v).bind Val.as = some x :=
  bind_as_eq_some.2 h

theorem isWord_of_bind_as (h : (ν.eval v).bind Val.as = some x) :
    IsWord ν v x :=
  bind_as_eq_some.1 h

theorem IsWord.unique (hx : IsWord ν v x) (hy : IsWord ν v y) :
    x = y := by
  have := hx.symm.trans hy
  simpa using this

theorem IsWord.of_resolve_eq (hc : Consistent g ν)
    (hx : IsWord ν v x) (h : g.resolve v = g.resolve w) : IsWord ν w x := by
  rw [IsWord, ← hc.eval_resolve w, ← h, hc.eval_resolve]
  exact hx

section

variable (hc : Consistent g ν) {v : Value} {j : ℕ} {x : BitVec 32} (hj : g.tryInstRecursive v = some j)
  (hx : IsWord ν v x)

include hc hj hx

/-- The value of an operand that is an instruction. -/
theorem Consistent.isWord_inst : ν j = some (.scalar (.u32 x)) := by
  have hres : g.resolve v = .inst j := by
    rw [Graph.tryInstRecursive] at hj
    cases hres : g.resolve v <;> rw [hres] at hj <;> cases hj
    rfl
  rw [← hx, ← hc.eval_resolve, hres]
  rfl

/-- The operands of an operation on words. -/
theorem Consistent.isWord_binary (hm : (g.op j).meaning = some (evalBinary f)) :
    ∃ a b, IsWord ν (g.arg j 0) a ∧ IsWord ν (g.arg j 1) b ∧ x = f a b := by
  obtain ⟨a, b, ha, hb, h⟩ :=
    evalBinary_eq_some.1 ((hc.meaning j _ hm).symm.trans (hc.isWord_inst hj hx))
  refine ⟨a, b, isWord_of_bind_as ha, isWord_of_bind_as hb, ?_⟩
  simpa [ImmType.imm] using h

/-- The operand of a shift to the left by half a word. -/
theorem Consistent.isWord_shift (hop : g.op j = .shiftLeftLogical32)
    (h16 : g.arg j 1 = .imm (.u32 16)) : ∃ a, IsWord ν (g.arg j 0) a ∧ x = a <<< 16 := by
  obtain ⟨a, b, ha, hb, -, h⟩ := evalShift_eq_some.1
    ((hc.meaning j _ (by rw [hop]; rfl)).symm.trans (hc.isWord_inst hj hx))
  refine ⟨a, isWord_of_bind_as ha, ?_⟩
  have hb16 : b = 16 := by
    rw [Graph.evalArg, h16] at hb
    exact (isWord_of_bind_as hb).unique rfl
  subst hb16
  simpa using h

/-- The operand of an extraction of a half. -/
theorem Consistent.isWord_half {o : BitVec 32} (ho : isHalf g j o) :
    ∃ a, IsWord ν (g.arg j 0) a ∧ x = bitField false a o.toNat 16 := by
  obtain ⟨hop, ho, h16⟩ := ho
  obtain ⟨a, b, c, ha, hb, hcount, -, h⟩ := evalBitFieldExtract_eq_some.1
    ((hc.meaning j _ (by rw [hop]; rfl)).symm.trans (hc.isWord_inst hj hx))
  refine ⟨a, isWord_of_bind_as ha, ?_⟩
  rw [Graph.evalArg, ho] at hb
  rw [Graph.evalArg, h16] at hcount
  cases (isWord_of_bind_as hb).unique (show IsWord ν (.imm (.u32 o)) o from rfl)
  cases (isWord_of_bind_as hcount).unique (show IsWord ν (.imm (.u32 16)) 16 from rfl)
  simpa using h

end

/-- The operands of an insertion of the high half. -/
theorem Consistent.isWord_insert (hc : Consistent g ν)
    (hx : ν j = some (.scalar (.u32 x))) (hop : g.op j = .bitFieldInsert)
    (h2 : g.arg j 2 = .imm (.u32 16)) (h3 : g.arg j 3 = .imm (.u32 16)) :
    ∃ a b, IsWord ν (g.arg j 0) a ∧ IsWord ν (g.arg j 1) b ∧ x = withBitField a b 16 16 := by
  obtain ⟨a, b, o, c, ha, hb, ho, hcount, -, h⟩ := evalBitFieldInsert_eq_some.1
    ((hc.meaning j _ (by rw [hop]; rfl)).symm.trans hx)
  refine ⟨a, b, isWord_of_bind_as ha, isWord_of_bind_as hb, ?_⟩
  rw [Graph.evalArg, h2] at ho
  rw [Graph.evalArg, h3] at hcount
  cases (isWord_of_bind_as ho).unique (show IsWord ν (.imm (.u32 16)) 16 from rfl)
  cases (isWord_of_bind_as hcount).unique (show IsWord ν (.imm (.u32 16)) 16 from rfl)
  simpa using h

/-- A word may be used as an operand of an emitted instruction. -/
theorem Consistent.typed_word (hc : Consistent g ν) (hw : WellFormed g)
    (hx : IsWord ν v x) : g.typed .u32 v = .ret v true :=
  hc.typed_eq hw hx rfl

/-! ### Emitting operations -/

/-- The graph and the valuation with another operation on two words. -/
theorem Consistent.append_word (hc : Consistent g ν) (hw : WellFormed g) (op : Opcode)
    (hm : op.meaning = some (evalBinary f))
    (hty : op.type = .u32) (hcbuf : op ≠ .getCbufU32) (hs : op.slot = none) {x y : Value}
    {a b : BitVec 32} (hx : IsWord ν x a) (hy : IsWord ν y b) (hkx : g.Knows x) (hky : g.Knows y) :
    Consistent (g.append op x y) (Function.update ν g.next (some (.scalar (.u32 (f a b))))) := by
  refine hc.append hw hm ?_ ?_ hcbuf hs hkx hky
  · exact evalBinary_eq_some.2 ⟨a, b, hx.bind_as, hy.bind_as, rfl⟩
  · rintro v ⟨⟩
    exact hty.symm

/-- Replacing an instruction with a new one that has its value. -/
theorem keeps_new {g' : Graph} {ν' : Valuation} (hno : NoFlags g ν i)
    (hν : ∀ j, j < g.next → ν' j = ν j) (hi : i < g.next) (hc : Consistent g' ν')
    (hj : ν' j = ν i) : Keeps (.ret (g'.toIdentity i (.inst j)) true) g ν i :=
  keeps_of_noFlags hno true hν (hc.toIdentity (hj.trans (hν i hi).symm))

/-- What a fold of a pattern leaves: the graph, or one that keeps the value of the instruction. -/
def FoldsPattern (fold : Exec (Bool × Graph)) (g : Graph) (ν : Valuation) (i : ℕ) : Prop :=
  fold = .ret (false, g) true ∨ ∃ g', fold = .ret (true, g') true ∧ Keeps (.ret g' true) g ν i

section

variable (hc : Consistent g ν)

include hc

/-- **`FoldXmadMultiply`.** -/
theorem foldXmadMultiply_spec (hw : WellFormed g) (hop : g.op i = .iAdd32)
    (hno : NoFlags g ν i) (hi : i < g.next) (hdef : ν i ≠ none) :
    FoldsPattern (foldXmadMultiply g i) g ν i := by
  have hs : (g.op i).slot = none := by rw [hop]; rfl
  obtain ⟨v, hv⟩ := ne_none_iff_exists'.1 hdef
  obtain ⟨x, y, hx, hy, rfl⟩ :=
    evalBinary_eq_some.1 ((hc.meaning i _ (by rw [hop]; rfl)).symm.trans hv)
  have hx := isWord_of_bind_as hx
  have hy := isWord_of_bind_as hy
  unfold foldXmadMultiply
  split
  · exact Or.inl rfl
  next lhsMul rhsMul hmatch =>
  simp only [matchXmadMultiply, bind_eq_bind, bind_eq_some_iff, guard_eq_some', some.injEq, Prod.mk.injEq] at hmatch
  obtain ⟨lhsShl, hshl, rhs, hrhs, -, ⟨hopshl, h16⟩, lhs, hlhs, -, ⟨hoplhs, hoprhs⟩, rfl, rfl⟩ := hmatch
  obtain ⟨l, hl, rfl⟩ := hc.isWord_shift hshl hx hopshl h16
  obtain ⟨p, q, hp, hq, rfl⟩ := hc.isWord_binary hlhs hl (by rw [hoplhs]; rfl)
  obtain ⟨r, s, hr, hsw, rfl⟩ := hc.isWord_binary hrhs hy (by rw [hoprhs]; rfl)
  simp only [hc.typed_word hw hq, ret_true_bind]
  split
  · exact Or.inl rfl
  next hfactorB =>
  have hqs : q = s := (IsWord.of_resolve_eq hc hq (not_not.1 hfactorB)).unique hsw
  subst hqs
  split
  · next lhsBfe rhsBfe hlhsBfe hrhsBfe =>
    split
    · exact Or.inl rfl
    next hopBfe =>
    split
    · exact Or.inl rfl
    next hlhsArgs =>
    split
    · exact Or.inl rfl
    next hrhsArgs =>
    rw [not_or, not_not, not_not] at hopBfe hlhsArgs hrhsArgs
    obtain ⟨a, ha, rfl⟩ := hc.isWord_half hlhsBfe hp ⟨hopBfe.1, hlhsArgs⟩
    obtain ⟨a', ha', rfl⟩ := hc.isWord_half hrhsBfe hr ⟨hopBfe.2, hrhsArgs⟩
    rw [hc.typed_word hw ha, ret_true_bind]
    split
    · exact Or.inl rfl
    next hfactorA =>
    have haa : a = a' := (IsWord.of_resolve_eq hc ha (not_not.1 hfactorA)).unique ha'
    subst haa
    rw [prependNewInst_eq g rfl rfl, ret_true_bind]
    have hslot : ((g.append .iMul32 (g.arg lhsBfe 0) (g.arg lhs 1)).op i).slot = none := by
      rw [Graph.op, Graph.insts_append_of_ne (Nat.ne_of_lt hi)]
      exact hs
    simp only [Graph.replaceUsesWith_eq hslot, ret_true_bind, pure_eq]
    refine Or.inr ⟨_, rfl, keeps_new hno (fun j hj => Function.update_of_ne (Nat.ne_of_lt hj) ..) hi
      (hc.append_word hw _ rfl rfl (by decide) rfl ha hq (hw.knows _ _) (hw.knows _ _)) ?_⟩
    rw [Function.update_self, hv]
    show some (Val.scalar (.u32 (a * q))) = some (.scalar (.u32 _))
    rw [← mul_halves a q]
    rfl
  · exact Or.inl rfl

/-- The comparison of `AreEqual` is sound for words. -/
theorem IsWord.of_equalResolved
    (hx : IsWord ν v x) (hy : IsWord ν w y) (h : equalResolved g (g.resolve v) (g.resolve w) = true) : x = y := by
  unfold equalResolved at h
  rw [Bool.or_eq_true, decide_eq_true_eq] at h
  obtain h | h := h
  · exact (hx.of_resolve_eq hc h).unique hy
  · split at h
    · next a b hv hw =>
      obtain ⟨ha, hb, h0, h1⟩ := of_decide_eq_true h
      rw [IsWord, hc.eval_of_resolve hv, hc.cbuf a b ha hb h0 h1, ← hc.eval_of_resolve hw] at hx
      exact IsWord.unique hx hy
    · cases h

/-- The parts of the pattern of `FoldXmadMultiplyAdd`: the shifted product of high halves. -/
theorem Consistent.isWord_xmadHigh {i25 i22 i11 : ℕ} (hj : g.tryInstRecursive v = some i25) (hx : IsWord ν v x)
    (h : matchXmadHigh g i25 = some (i22, i11)) : ∃ w b, ν i11 = some (.scalar (.u32 w)) ∧
      IsWord ν (g.arg i22 0) b ∧ x = (highHalf b * highHalf w) <<< 16 := by
  simp only [matchXmadHigh, bind_eq_bind, bind_eq_some_iff, guard_eq_some', some.injEq, Prod.mk.injEq] at h
  obtain ⟨-, ⟨hop25, h25⟩, i24, h24, -, hop24, i22, h22, i23, h23, -, ⟨hhalf22, hhalf23⟩, i11, h11, rfl, rfl⟩ := h
  obtain ⟨w24, hw24, rfl⟩ := hc.isWord_shift hj hx hop25 h25
  obtain ⟨w22, w23, hw22, hw23, rfl⟩ := hc.isWord_binary h24 hw24 (by rw [hop24]; rfl)
  obtain ⟨b, hb, rfl⟩ := hc.isWord_half h22 hw22 hhalf22
  obtain ⟨w, hw, rfl⟩ := hc.isWord_half h23 hw23 hhalf23
  exact ⟨w, b, hc.isWord_inst h11 hw, hb, rfl⟩

/-- The word into which a half has been put. -/
theorem Consistent.isWord_xmadInsert {i11 i6 i7 i10 : ℕ} {w : BitVec 32}
    (hw : ν i11 = some (.scalar (.u32 w))) (h : matchXmadInsert g i11 = some (i6, i7, i10)) :
    ∃ b a a', IsWord ν (g.arg i6 0) b ∧ IsWord ν (g.arg i7 0) a ∧ IsWord ν (g.arg i10 0) a' ∧
      w = withBitField (lowHalf b * highHalf a) (lowHalf a') 16 16 := by
  simp only [matchXmadInsert, bind_eq_bind, bind_eq_some_iff, guard_eq_some', some.injEq, Prod.mk.injEq] at h
  obtain ⟨-, ⟨hop11, h2, h3⟩, i8, h8, i10, h10, -, hop8, i6, h6, i7, h7, -, ⟨hhalf6, hhalf7, hhalf10⟩,
    rfl, rfl, rfl⟩ := h
  obtain ⟨w8, w10, hw8, hw10, rfl⟩ := hc.isWord_insert hw hop11 h2 h3
  obtain ⟨w6, w7, hw6, hw7, rfl⟩ := hc.isWord_binary h8 hw8 (by rw [hop8]; rfl)
  obtain ⟨a', ha', rfl⟩ := hc.isWord_half h10 hw10 hhalf10
  obtain ⟨b, hb, rfl⟩ := hc.isWord_half h6 hw6 hhalf6
  obtain ⟨a, ha, rfl⟩ := hc.isWord_half h7 hw7 hhalf7
  exact ⟨b, a, a', hb, ha, ha', rfl⟩

/-- The sum of that word, shifted, and a product of low halves. -/
theorem Consistent.isWord_xmadLow {i27 i11 i15 i16 i18 : ℕ} (hj : g.tryInstRecursive v = some i27) (hx : IsWord ν v x)
    (h : matchXmadLow g i27 i11 = some (i15, i16, i18)) :
    ∃ w b a c, ν i11 = some (.scalar (.u32 w)) ∧ IsWord ν (g.arg i15 0) b ∧
      IsWord ν (g.arg i16 0) a ∧ IsWord ν (g.arg i18 1) c ∧ x = w <<< 16 + (lowHalf b * lowHalf a + c) := by
  simp only [matchXmadLow, bind_eq_bind, bind_eq_some_iff, guard_eq_some', some.injEq, Prod.mk.injEq] at h
  obtain ⟨-, hop27, i26, h26, i18, h18, -, ⟨hop26, h26s⟩, -, h11, -, hop18, i17, h17, -, hop17, i15,
    h15, i16, h16, -, ⟨hhalf15, hhalf16⟩, rfl, rfl, rfl⟩ := h
  obtain ⟨w26, w18, hw26, hw18, rfl⟩ := hc.isWord_binary hj hx (by rw [hop27]; rfl)
  obtain ⟨w, hw, rfl⟩ := hc.isWord_shift h26 hw26 hop26 h26s
  obtain ⟨w17, c, hw17, hcw, rfl⟩ := hc.isWord_binary h18 hw18 (by rw [hop18]; rfl)
  obtain ⟨w15, w16, hw15, hw16, rfl⟩ := hc.isWord_binary h17 hw17 (by rw [hop17]; rfl)
  obtain ⟨b, hb, rfl⟩ := hc.isWord_half h15 hw15 hhalf15
  obtain ⟨a, ha, rfl⟩ := hc.isWord_half h16 hw16 hhalf16
  exact ⟨w, b, a, c, hc.isWord_inst h11 hw, hb, ha, hcw, rfl⟩

/-- **The pattern of `FoldXmadMultiplyAdd`** has the value of a multiplication and an addition. -/
theorem matchXmadMultiplyAdd_spec (hw : WellFormed g) (hop : g.op i = .iAdd32)
    (hdef : ν i ≠ none) {opAs opBs : List Value} {opC : Value}
    (hmatch : matchXmadMultiplyAdd g i = some (opAs, opBs, opC)) :
    ∃ c, IsWord ν opC c ∧ g.Knows opC ∧
      (areEqual g opAs = true → areEqual g opBs = true → ∃ a b, IsWord ν (opAs.getD 0 .void) a ∧
        g.Knows (opAs.getD 0 .void) ∧ IsWord ν (opBs.getD 1 .void) b ∧ g.Knows (opBs.getD 1 .void) ∧
          ν i = some (.scalar (.u32 (a * b + c)))) := by
  obtain ⟨v, hv⟩ := ne_none_iff_exists'.1 hdef
  obtain ⟨x, y, hx, hy, rfl⟩ :=
    evalBinary_eq_some.1 ((hc.meaning i _ (by rw [hop]; rfl)).symm.trans hv)
  have hx := isWord_of_bind_as hx
  have hy := isWord_of_bind_as hy
  simp only [matchXmadMultiplyAdd, bind_eq_bind, bind_eq_some_iff, some.injEq, Prod.mk.injEq, Prod.exists] at hmatch
  obtain ⟨i25, h25, i27, h27, i22, i11, hhigh, i6, i7, i10, hinsert, i15, i16, i18, hlow, rfl, rfl, rfl⟩ := hmatch
  obtain ⟨w11, b22, hw11, hb22, rfl⟩ := hc.isWord_xmadHigh h25 hx hhigh
  obtain ⟨b6, a7, a10, hb6, ha7, ha10, rfl⟩ := hc.isWord_xmadInsert hw11 hinsert
  obtain ⟨w11', b15, a16, c, hw11', hb15, ha16, hcw, rfl⟩ := hc.isWord_xmadLow h27 hy hlow
  cases hw11'.symm.trans hw11
  refine ⟨c, hcw, hw.knows _ _, fun hA hB => ?_⟩
  have hres : ∀ {u : Value} {z : BitVec 32}, IsWord ν u z → IsWord ν (g.resolve u) z :=
    fun {u z} h => (hc.eval_resolve u).trans h
  simp only [areEqual, Bool.and_true, Bool.and_eq_true] at hA hB
  cases (hres ha7).of_equalResolved hc (hres ha16) hA.1
  cases (hres ha16).of_equalResolved hc (hres ha10) hA.2
  cases (hres hb22).of_equalResolved hc (hres hb6) hB.1
  cases (hres hb6).of_equalResolved hc (hres hb15) hB.2
  refine ⟨a7, b22, hres ha7, hw.knows_resolve (hw.knows _ _), hres hb6, hw.knows_resolve (hw.knows _ _), ?_⟩
  rw [hv]
  exact congrArg (fun z => some (Val.scalar (.u32 z))) (mul_add_halves a7 b22 c)

end

section

variable (hc : Consistent g ν) (hw : WellFormed g) (hop : g.op i = .iAdd32) (hno : NoFlags g ν i) (hi : i < g.next)
  (hdef : ν i ≠ none)

include hc hw hop hno hi hdef

/-- **`FoldXmadMultiplyAdd`.** -/
theorem foldXmadMultiplyAdd_spec :
    FoldsPattern (foldXmadMultiplyAdd g i) g ν i := by
  have hs : (g.op i).slot = none := by rw [hop]; rfl
  unfold foldXmadMultiplyAdd
  split
  · exact Or.inl rfl
  next opAs opBs opC hmatch =>
  obtain ⟨c, hcw, hck, hval⟩ := matchXmadMultiplyAdd_spec hc hw hop hdef hmatch
  rw [hc.typed_word hw hcw, ret_true_bind]
  split
  · exact Or.inl rfl
  next hequal =>
  rw [Bool.or_eq_true, not_or, Bool.not_eq_true', Bool.not_eq_true', Bool.not_eq_false, Bool.not_eq_false] at hequal
  obtain ⟨a, b, ha, hak, hb, hbk, hv⟩ := hval hequal.1 hequal.2
  simp only [hc.typed_word hw ha, hc.typed_word hw hb, ret_true_bind,
    prependNewInst_eq _ (show Opcode.numArgs .iMul32 = 2 from rfl) rfl,
    prependNewInst_eq _ (show Opcode.numArgs .iAdd32 = 2 from rfl) rfl]
  generalize opAs.getD 0 .void = opA at ha hak
  generalize opBs.getD 1 .void = opB at hb hbk
  -- the multiplication, and after it the addition
  have hc₁ := hc.append_word hw .iMul32 rfl rfl (by decide) rfl ha hb hak hbk
  have hw₁ := hw.append .iMul32 rfl rfl hak hbk
  set g₁ := g.append .iMul32 opA opB
  set ν₁ : Valuation := Function.update ν g.next (some (.scalar (.u32 (a * b))))
  have hnext : g₁.next = g.next + 1 := rfl
  have htemp : IsWord ν₁ (.inst g.next) (a * b) := Function.update_self ..
  have hcw₁ : IsWord ν₁ opC c := (eval_update hck _).trans hcw
  have hktemp : g₁.Knows (.inst g.next) := fun j hj => by
    cases hj
    exact Nat.lt_succ_self _
  have hkc : g₁.Knows opC := fun j hj => Nat.lt_succ_of_lt (hck j hj)
  have hc₂ := hc₁.append_word hw₁ .iAdd32 rfl rfl (by decide) rfl htemp hcw₁ hktemp hkc
  have hslot : ((g₁.append .iAdd32 (.inst g.next) opC).op i).slot = none := by
    rw [Graph.op, Graph.insts_append_of_ne (by omega), Graph.insts_append_of_ne (by omega)]
    exact hs
  rw [Graph.replaceUsesWith_eq hslot, ret_true_bind, pure_eq]
  refine Or.inr ⟨_, rfl, keeps_new hno (fun j hj => ?_) hi hc₂ ?_⟩
  · rw [Function.update_of_ne (by omega)]
    exact Function.update_of_ne (by omega) ..
  · rw [Function.update_self, hv]

/-- The patterns of 32-bit additions, one after the other. -/
theorem keeps_foldXmad : Keeps (foldXmad g i) g ν i := by
  rw [foldXmad]
  obtain h | ⟨g', h, hkeeps⟩ := foldXmadMultiply_spec hc hw hop hno hi hdef
  · rw [h, ret_true_bind]
    obtain h' | ⟨g', h', hkeeps⟩ := foldXmadMultiplyAdd_spec hc hw hop hno hi hdef
    · simp only [Bool.false_eq_true, ↓reduceIte, h', ret_true_bind]
      exact keeps_pure hc true
    · simp only [Bool.false_eq_true, ↓reduceIte, h', ret_true_bind]
      exact hkeeps
  · rw [h, ret_true_bind]
    exact hkeeps

end

/-- **`FoldAdd`**, with patterns that keep the value. -/
theorem keeps_foldAdd {α : Type} [ImmType α] [Add α] [Zero α] [DecidableEq α]
    (hcomm : ∀ a b : α, a + b = b + a) (hassoc : ∀ a b c : α, a + b + c = a + (b + c))
    (hzero : ∀ a : α, a + 0 = a) (hc : Consistent g ν) (hw : WellFormed g)
    (hm : (g.op i).meaning = some (evalBinary fun a b : α => a + b)) (hs : (g.op i).slot = none)
    (hn : (g.op i).numArgs = 2) (hdef : ν i ≠ none) {patterns : Graph → ℕ → Exec Graph}
    (hpatterns : ∀ g', Consistent g' ν → WellFormed g' → g'.op i = g.op i → NoFlags g' ν i →
      Keeps (patterns g' i) g' ν i) : Keeps (foldAdd α patterns g i) g ν i := by
  rw [foldAdd]
  split
  · exact keeps_pure hc true
  next hassociated =>
  rw [Bool.not_eq_true] at hassociated
  refine keeps_foldCommutative hc hw hcomm hassoc hm hs hn (Or.inr hassociated) hdef
    (fun g' => rfl) fun g' hc' hw' hop' hassociated' => ?_
  have hno' : NoFlags g' ν i := noFlags_of_not_associated hw' (hassociated'.trans hassociated)
  have hs' : (g'.op i).slot = none := by rw [hop']; exact hs
  obtain ⟨v, hv⟩ := ne_none_iff_exists'.1 hdef
  obtain ⟨a, b, ha, hb, rfl⟩ :=
    evalBinary_eq_some.1 ((hc'.meaning i _ (by rw [hop']; exact hm)).symm.trans hv)
  have hneutral : (if g'.isImmediate (g'.arg i 1) then do
        let b : α ← g'.argAs (g'.arg i 1)
        pure (decide (b = 0))
      else pure false : Exec Bool) = .ret (g'.isImmediate (g'.arg i 1) && decide (b = 0)) true := by
    cases himm : g'.isImmediate (g'.arg i 1) with
    | false => rfl
    | true => simp [hc'.argAs_eq himm hb]
  simp only [Bool.not_true, Bool.false_eq_true, ↓reduceIte, hneutral, ret_true_bind]
  split
  · next h =>
    rw [Bool.and_eq_true, decide_eq_true_eq] at h
    refine keeps_replaceUsesWith hc' hno' hs' ?_
    rw [hv, h.2, hzero]
    exact bind_as_eq_some.1 ha
  · exact hpatterns g' hc' hw' hop' hno'

/-! ### Subtractions -/

/-- Instruction `i` subtracts the sum of `x` and a read of a constant buffer from an equal read. -/
def SubtractsSum (g : Graph) (i : ℕ) (x : Value) : Prop :=
  ∃ a b c, g.resolve (g.arg i 0) = .inst a ∧ g.resolve (g.arg i 1) = .inst b ∧ g.op b = .iAdd32 ∧
    (addOperands g b).1 = x ∧ g.resolve (addOperands g b).2 = .inst c ∧ equalCbuf g c a = true

/-- The operands of an addition, in the order in which they are looked at. -/
theorem Consistent.isWord_addOperands (hc : Consistent g ν)
    (hop : g.op b = .iAdd32) (hx : ν b = some (.scalar (.u32 x))) :
    ∃ p q, IsWord ν (addOperands g b).1 p ∧ IsWord ν (addOperands g b).2 q ∧ x = p + q := by
  obtain ⟨p, q, hp, hq, h⟩ :=
    evalBinary_eq_some.1 ((hc.meaning b _ (by rw [hop]; rfl)).symm.trans hx)
  have h : x = p + q := by simpa [ImmType.imm] using h
  rw [addOperands]
  split
  · exact ⟨q, p, isWord_of_bind_as hq, isWord_of_bind_as hp, by rw [h, BitVec.add_comm]⟩
  · exact ⟨p, q, isWord_of_bind_as hp, isWord_of_bind_as hq, h⟩

theorem Consistent.equalCbuf (hc : Consistent g ν) {a b : ℕ} (h : equalCbuf g a b = true) :
    ν a = ν b := by
  obtain ⟨ha, hb, h0, h1⟩ := of_decide_eq_true h
  exact hc.cbuf a b ha hb h0 h1

theorem knows_addOperands (hw : WellFormed g) (b : ℕ) : g.Knows (addOperands g b).1 := by
  rw [addOperands]
  split
  · exact hw.knows b 1
  · exact hw.knows b 0

/-- The end of `FoldISub32`: it looks for an addition to an equal read, and replaces the subtraction
with the other operand. -/
theorem foldISubCbuf_eq (g : Graph) (i opA opB : ℕ) :
    foldISubCbuf g i opA opB = .ret g true ∧ (g.op opA = .iAdd32 →
        ∀ c, g.resolve (addOperands g opA).2 = .inst c → equalCbuf g c opB = false) ∨
      g.op opA = .iAdd32 ∧ ∃ c, g.resolve (addOperands g opA).2 = .inst c ∧ equalCbuf g c opB = true ∧
          foldISubCbuf g i opA opB = g.replaceUsesWith i (addOperands g opA).1 := by
  rw [foldISubCbuf]
  split
  · next h =>
    refine Or.inl ⟨rfl, fun hop c _ => ?_⟩
    obtain h | h := h
    · exact decide_eq_false fun h' => h h'.2.1
    · exact absurd hop h
  next hops =>
  rw [not_or, not_not, not_not] at hops
  simp only
  split
  · next himm =>
    refine Or.inl ⟨rfl, fun _ c hres => ?_⟩
    rw [Graph.isImmediate, hres] at himm
    cases himm
  next himm =>
  obtain ⟨c, hres⟩ := resolve_inst (Bool.not_eq_true _ ▸ himm)
  simp only [Graph.instRecursive, hres, pure_eq, ret_true_bind]
  split
  · next h => exact Or.inr ⟨hops.2, c, rfl, h, rfl⟩
  · next h =>
    refine Or.inl ⟨rfl, fun _ c' hc' => ?_⟩
    cases hc'
    exact Bool.not_eq_true _ ▸ h

theorem eq_neg_iff (w : BitVec 32) : w = -w ↔ w = 0 ∨ w = 0x80000000#32 := by
  constructor
  · intro h
    have := congrArg BitVec.toNat h
    rw [BitVec.toNat_neg] at this
    bv_omega
  · rintro (rfl | rfl) <;> decide

/-- **`FoldISub32`** keeps the value if and only if, where it takes the sum of a value and a read of a
constant buffer for the minuend, the value is its own negation. -/
theorem keeps_foldISub32_iff (hc : Consistent g ν) (hw : WellFormed g) (hi : i < g.next)
    (hop : g.op i = .iSub32) (hdef : ν i ≠ none) :
    Keeps (foldISub32 g i) g ν i ↔ ∀ x w, SubtractsSum g i x →
      ν.eval x = some (.scalar (.u32 w)) → w = 0 ∨ w = 0x80000000#32 := by
  have hs : (g.op i).slot = none := by rw [hop]; rfl
  have hno : NoFlags g ν i := noFlags_of_hasFlags (by rw [hop]; rfl)
  obtain ⟨v, hv⟩ := ne_none_iff_exists'.1 hdef
  obtain ⟨x, y, hx, hy, rfl⟩ :=
    evalBinary_eq_some.1 ((hc.meaning i _ (by rw [hop]; rfl)).symm.trans hv)
  have hinst : ∀ z k j, SubtractsSum g i z → k < 2 → g.resolve (g.arg i k) = .imm j → False := by
    rintro z k j ⟨a, b, c, ha, hb, -⟩ hk h
    have hk : k = 0 ∨ k = 1 := by omega
    obtain rfl | rfl := hk
    · rw [ha] at h
      cases h
    · rw [hb] at h
      cases h
  rw [foldISub32, foldWhenAllImmediates_eq (by rw [hop]; rfl) hs]
  split
  · next h =>
    have h0 := h.1 0 (by rw [hop]; decide)
    have h1 := h.1 1 (by rw [hop]; decide)
    rw [hc.evalImmediates₂_eq h0 h1 hx hy, ret_true_bind, ret_true_bind]
    exact iff_of_true (keeps_of_noFlags hno true (fun _ _ => rfl) (hc.toIdentity hv.symm))
      fun z w hz _ => (hinst z 0 _ hz (by decide) (hc.resolve_eq h0 hx)).elim
  rw [ret_true_bind]
  simp only [Bool.false_eq_true, ↓reduceIte]
  split
  · next h =>
    refine iff_of_true (keeps_pure hc true) fun z w hz _ => ?_
    obtain h | h := (Bool.or_eq_true _ _).mp h
    · exact (hinst z 0 _ hz (by decide) (hc.resolve_eq h hx)).elim
    · exact (hinst z 1 _ hz (by decide) (hc.resolve_eq h hy)).elim
  next himm =>
  rw [Bool.or_eq_true, not_or, Bool.not_eq_true, Bool.not_eq_true] at himm
  obtain ⟨a, ha⟩ := resolve_inst himm.1
  obtain ⟨b, hb⟩ := resolve_inst himm.2
  have hνa : ν a = some (.scalar (.u32 x)) :=
    (hc.eval_of_resolve ha).symm.trans (isWord_of_bind_as hx)
  have hνb : ν b = some (.scalar (.u32 y)) :=
    (hc.eval_of_resolve hb).symm.trans (isWord_of_bind_as hy)
  have hν : ν i = some (.scalar (.u32 (x - y))) := hv
  simp only [Graph.instRecursive, ha, hb, pure_eq, ret_true_bind]
  -- what the pattern that is taken the wrong way round looks like
  have hpattern : ∀ z, SubtractsSum g i z → g.op b = .iAdd32 ∧ (addOperands g b).1 = z ∧
      ∃ c, g.resolve (addOperands g b).2 = .inst c ∧ equalCbuf g c a = true := by
    rintro z ⟨a', b', c, ha', hb', hopb, hz, hc', hequal⟩
    cases ha.symm.trans ha'
    cases hb.symm.trans hb'
    exact ⟨hopb, hz, c, hc', hequal⟩
  split
  · next hequal =>
    have hxy : x = y := by
      have := hνa.symm.trans ((hc.equalCbuf hequal).trans hνb)
      simpa using this
    refine iff_of_true (keeps_replaceUsesWith hc hno hs ?_) fun z w hz _ => ?_
    · rw [hν, hxy, BitVec.sub_self]
      rfl
    · obtain ⟨-, hopb, -⟩ := of_decide_eq_true hequal
      rw [(hpattern z hz).1] at hopb
      cases hopb
  split
  · next hopb =>
    obtain ⟨p, q, hp, hq, rfl⟩ := hc.isWord_addOperands hopb hνb
    obtain ⟨hfold, hnone⟩ | ⟨-, c, hcres, hequal, hfold⟩ := foldISubCbuf_eq g i b a
    · rw [hfold]
      refine iff_of_true (keeps_pure hc true) fun z w hz _ => ?_
      obtain ⟨-, -, c, hcres, hequal⟩ := hpattern z hz
      rw [hnone hopb c hcres] at hequal
      cases hequal
    · have hqx : q = x := by
        have := hq.symm.trans ((hc.eval_of_resolve hcres).trans ((hc.equalCbuf hequal).trans hνa))
        simpa using this
      have hdiff : x - (p + q) = -p := by rw [hqx]; bv_omega
      rw [hdiff] at hν
      have hiff : (∀ z w, SubtractsSum g i z → ν.eval z = some (.scalar (.u32 w)) →
          w = 0 ∨ w = 0x80000000#32) ↔ p = -p := by
        rw [eq_neg_iff]
        constructor
        · exact fun h => h _ p ⟨a, b, c, ha, hb, hopb, rfl, hcres, hequal⟩ hp
        · intro h z w hz hw'
          rw [← (hpattern z hz).2.1] at hw'
          rw [IsWord.unique hw' hp]
          exact h
      rw [hiff, hfold]
      constructor
      · intro h
        by_contra hne
        refine not_keeps_replaceUsesWith hs hi (knows_addOperands hw b) (fun he => hne ?_) h
        rw [hν] at he
        exact IsWord.unique hp he
      · intro h
        refine keeps_replaceUsesWith hc hno hs ?_
        rw [hν, ← h]
        exact hp
  · next hopb =>
    refine iff_of_true ?_ fun z w hz _ => absurd (hpattern z hz).1 hopb
    obtain ⟨hfold, -⟩ | ⟨hopa, c, hcres, hequal, hfold⟩ := foldISubCbuf_eq g i a b
    · rw [hfold]
      exact keeps_pure hc true
    · obtain ⟨p, q, hp, hq, rfl⟩ := hc.isWord_addOperands hopa hνa
      have hqy : q = y := by
        have := hq.symm.trans ((hc.eval_of_resolve hcres).trans ((hc.equalCbuf hequal).trans hνb))
        simpa using this
      rw [hfold]
      refine keeps_replaceUsesWith hc hno hs ?_
      rw [hν, hqy, BitVec.add_sub_cancel]
      exact hp

end Shader
end NXEmu
