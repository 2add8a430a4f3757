/-
# What constant propagation keeps

The integer, logical, select and composite folds keep values and flags, with two exceptions that
`FoldFits` rules out: the fold of `BitFieldInsert` does not cut the inserted value to the field and
throws on fields that are a whole word or empty at its end, and `FoldISub32` takes the difference of a
read of a constant buffer and a sum for the difference of the sum and the read.
-/

import NXEmu.Shader.AdditionFolds
import Mathlib.Tactic.FinCases

namespace NXEmu
namespace Shader

variable {g : Graph} {ν : Valuation} {i : ℕ}

/-- The integer, logical, select and composite operations that `ConstantPropagation` looks at. -/
def Opcode.isFolded : Opcode → Bool
  | iAdd32 | iAdd64 | iSub32 | iMul32 | shiftLeftLogical32 | shiftRightArithmetic32 | bitwiseAnd32
  | bitwiseOr32 | bitwiseXor32 | bitFieldInsert | bitFieldSExtract | bitFieldUExtract | sLessThan
  | uLessThan | iEqual | sLessThanEqual | uLessThanEqual | sGreaterThan | uGreaterThan | iNotEqual
  | sGreaterThanEqual | uGreaterThanEqual | logicalOr | logicalAnd | logicalNot | select _
  | compositeConstruct _ | compositeExtract _ | compositeInsert _ => true
  | _ => false

/-- The folds go right: an insertion of an immediate field fits, and what is added to the subtracted
read of a constant buffer is its own negation. -/
structure FoldFits (g : Graph) (ν : Valuation) (i : ℕ) : Prop where
  insert : FoldsInsert g i → ∀ base insert offset bits : BitVec 32,
    g.resolve (g.arg i 0) = .imm (.u32 base) → g.resolve (g.arg i 1) = .imm (.u32 insert) →
      g.resolve (g.arg i 2) = .imm (.u32 offset) → g.resolve (g.arg i 3) = .imm (.u32 bits) →
        InsertFits base insert offset bits
  subtract : g.op i = .iSub32 → ∀ x w, SubtractsSum g i x →
    ν.eval x = some (.scalar (.u32 w)) → w = 0 ∨ w = 0x80000000#32

/-- The fold of `BitFieldInsert`. -/
theorem constantPropagation_bitFieldInsert (foldOther : Graph → ℕ → Exec Graph)
    (hop : g.op i = .bitFieldInsert) : constantPropagation foldOther g i =
      foldWhenAllImmediates g i (evalImmediates₄ g i bitFieldInsertImm) >>= fun r => .ret r.2 true := by
  simp only [constantPropagation, hop]
  rfl

/-- An operation with a meaning on two words that the fold evaluates. -/
theorem keeps_foldBinary_of_meaning {β : Type} [ImmType β] (hc : Consistent g ν)
    (hw : WellFormed g) (hs : (g.op i).slot = none) (hn : (g.op i).numArgs = 2)
    {m : BitVec 32 → BitVec 32 → β} (hm : (g.op i).meaning = some (evalBinary m))
    (hdef : ν i ≠ none) {f : BitVec 32 → BitVec 32 → β} (hf : ∀ x y, f x y = m x y) :
    Keeps (foldBinary g i f) g ν i := by
  refine keeps_foldBinary hc hw hs hn hm (fun v hv => ?_) hdef
  obtain ⟨x, y, hx, hy, rfl⟩ := evalBinary_eq_some.1 hv
  exact ⟨x, y, hx, hy, by rw [hf]⟩

/-- **The folds without exceptions.** -/
theorem keeps_constantPropagation (foldOther : Graph → ℕ → Exec Graph) (hc : Consistent g ν)
    (hw : WellFormed g) (hfolded : (g.op i).isFolded = true) (hdef : ν i ≠ none)
    (hinsert : g.op i ≠ .bitFieldInsert) (hsub : g.op i ≠ .iSub32) :
    Keeps (constantPropagation foldOther g i) g ν i := by
  have hslot : (g.op i).slot = none := by
    cases hop : g.op i <;> rw [hop] at hfolded <;> first | rfl | cases hfolded
  -- operations on two words, and the bitwise ones
  have hbinary : ∀ {β : Type} [ImmType β] {m f : BitVec 32 → BitVec 32 → β},
      (g.op i).numArgs = 2 ∧ (g.op i).meaning = some (evalBinary m) → (∀ x y, f x y = m x y) →
        Keeps (foldBinary g i f) g ν i := fun hm hf =>
    keeps_foldBinary_of_meaning hc hw hslot hm.1 hm.2 hdef hf
  unfold constantPropagation
  cases hop : g.op i with
  | iAdd32 =>
    exact keeps_foldAdd BitVec.add_comm BitVec.add_assoc BitVec.add_zero hc hw (by rw [hop]; rfl)
      hslot (by rw [hop]; rfl) hdef fun g' hc' hw' hop' hno' => keeps_foldXmad hc' hw'
        (hop'.trans hop) hno' (by
          by_contra h
          rw [Graph.op, hw'.fresh i (Nat.le_of_not_lt h), hop] at hop'
          cases hop') hdef
  | iAdd64 =>
    exact keeps_foldAdd BitVec.add_comm BitVec.add_assoc BitVec.add_zero hc hw (by rw [hop]; rfl)
      hslot (by rw [hop]; rfl) hdef fun g' hc' _ _ _ => keeps_pure hc' true
  | iSub32 => exact absurd hop hsub
  | bitFieldInsert => exact absurd hop hinsert
  | iMul32 => exact hbinary (hop ▸ ⟨rfl, rfl⟩) fun x y => rfl
  | shiftRightArithmetic32 =>
    refine keeps_foldBinary hc hw hslot (by rw [hop]; rfl) (by rw [hop]; rfl) (fun v hv => ?_) hdef
    obtain ⟨x, y, hx, hy, -, rfl⟩ := evalShift_eq_some.1 hv
    exact ⟨x, y, hx, hy, rfl⟩
  | shiftLeftLogical32 => exact keeps_pure hc true
  | compositeConstruct c => exact keeps_pure hc true
  | compositeInsert c => exact keeps_pure hc true
  | bitwiseAnd32 =>
    exact keeps_foldBitwise32 hc hw (by rw [hop]; rfl) (Or.inl ⟨hop, rfl⟩) hdef
  | bitwiseOr32 =>
    exact keeps_foldBitwise32 hc hw (by rw [hop]; rfl) (Or.inr (Or.inl ⟨hop, rfl⟩)) hdef
  | bitwiseXor32 =>
    exact keeps_foldBitwise32 hc hw (by rw [hop]; rfl) (Or.inr (Or.inr ⟨hop, rfl⟩)) hdef
  | bitFieldSExtract =>
    exact keeps_foldBitFieldExtract hc hw (by rw [hop]; rfl) (by rw [hop]; rfl) (by rw [hop]; rfl) hdef
  | bitFieldUExtract =>
    exact keeps_foldBitFieldExtract hc hw (by rw [hop]; rfl) (by rw [hop]; rfl) (by rw [hop]; rfl) hdef
  | sLessThan => exact hbinary (hop ▸ ⟨rfl, rfl⟩) fun x y => rfl
  | uLessThan => exact hbinary (hop ▸ ⟨rfl, rfl⟩) fun x y => rfl
  | sLessThanEqual => exact hbinary (hop ▸ ⟨rfl, rfl⟩) fun x y => rfl
  | uLessThanEqual => exact hbinary (hop ▸ ⟨rfl, rfl⟩) fun x y => rfl
  | sGreaterThan => exact hbinary (hop ▸ ⟨rfl, rfl⟩) fun x y => rfl
  | uGreaterThan => exact hbinary (hop ▸ ⟨rfl, rfl⟩) fun x y => rfl
  | sGreaterThanEqual => exact hbinary (hop ▸ ⟨rfl, rfl⟩) fun x y => rfl
  | uGreaterThanEqual => exact hbinary (hop ▸ ⟨rfl, rfl⟩) fun x y => rfl
  | iEqual => exact hbinary (by rw [hop]; exact ⟨rfl, rfl⟩) fun x y => by rw [beq_eq_decide]
  | iNotEqual =>
    exact hbinary (by rw [hop]; exact ⟨rfl, rfl⟩) fun x y => by rw [bne, beq_eq_decide, decide_not]
  | logicalOr => exact keeps_foldLogicalOr hc hw hop hdef
  | logicalAnd => exact keeps_foldLogicalAnd hc hw hop hdef
  | logicalNot => exact keeps_foldLogicalNot hc hw hop hdef
  | select t => exact keeps_foldSelect hc hop hdef
  | compositeExtract c => exact keeps_foldCompositeExtract hc hw hop hdef
  | _ =>
    rw [hop] at hfolded
    cases hfolded

/-! ### An insertion of immediates -/

/-- The graph of one insertion of immediates. -/
def insertGraph (base insert offset bits : BitVec 32) : Graph :=
  ⟨Function.update (fun _ => Inst.new .void) 0 ⟨.bitFieldInsert,
    ![.imm (.u32 base), .imm (.u32 insert), .imm (.u32 offset), .imm (.u32 bits), .void], none⟩, 1⟩

/-- Its value. -/
def insertValuation (base insert offset bits : BitVec 32) : Valuation :=
  Function.update (fun _ => none) 0
    (some (.scalar (.u32 (withBitField base insert offset.toNat bits.toNat))))

section Insert

variable {base insert offset bits : BitVec 32}

theorem insertGraph_of_ne {j : ℕ} (h : j ≠ 0) :
    (insertGraph base insert offset bits).insts j = Inst.new .void := by
  simp [insertGraph, h]

theorem insertGraph_arg (j : ℕ) (k : Fin 5) :
    ∀ l, (insertGraph base insert offset bits).arg j k ≠ .inst l := by
  intro l h
  by_cases hj : j = 0
  · subst hj
    fin_cases k <;> cases h
  · rw [Graph.arg, insertGraph_of_ne hj] at h
    cases h

variable (base insert offset bits) in
theorem insertGraph_slot (j : ℕ) : ((insertGraph base insert offset bits).op j).slot = none := by
  by_cases hj : j = 0
  · subst hj
    rfl
  · rw [Graph.op, insertGraph_of_ne hj]
    rfl

theorem insertGraph_wellFormed : WellFormed (insertGraph base insert offset bits) where
  ordered := ⟨fun _ => 0, fun i k j h => absurd h (insertGraph_arg i k j)⟩
  created i k j h := absurd h (insertGraph_arg i k j)
  fresh i hi := insertGraph_of_ne (Nat.ne_of_gt hi)
  unused i k hk := by
    by_cases hi : i = 0
    · subst hi
      have hk : 4 ≤ (k : ℕ) := hk
      obtain rfl : k = 4 := by omega
      rfl
    · rw [Graph.arg, insertGraph_of_ne hi]
      rfl
  associated p s z := by
    refine iff_of_false (fun h => ?_) fun h => insertGraph_arg _ _ _ h.1
    by_cases hp : p = 0
    · subst hp
      cases h
    · rw [Graph.associated, insertGraph_of_ne hp] at h
      cases h
  sparse z p hz _ := by
    have hs := insertGraph_slot base insert offset bits z
    obtain h | h := hz <;> rw [h] at hs <;> cases hs

theorem insertGraph_consistent (h : offset.toNat + bits.toNat ≤ 32) :
    Consistent (insertGraph base insert offset bits) (insertValuation base insert offset bits) where
  meaning i f hf := by
    by_cases hi : i = 0
    · subst hi
      cases hf
      exact (evalBitFieldInsert_eq_some.2 ⟨base, insert, offset, bits, rfl, rfl, rfl, rfl, h, rfl⟩).symm
    · rw [Graph.op, insertGraph_of_ne hi] at hf
      cases hf
  typed i v _ hv := by
    by_cases hi : i = 0
    · subst hi
      cases hv
      rfl
    · rw [insertValuation, Function.update_of_ne hi] at hv
      cases hv
  cbuf i j hi _ _ _ := by
    by_cases h0 : i = 0
    · subst h0
      cases hi
    · rw [Graph.op, insertGraph_of_ne h0] at hi
      cases hi
  flags z p b hz _ _ := by
    rw [insertGraph_slot] at hz
    cases hz

end Insert

/-- **Integer and logical constant folding keeps values and flags** if and only if the insertions and
subtractions that it folds are of the right kind. -/
theorem constantPropagation_keeps_iff (foldOther : Graph → ℕ → Exec Graph) (hw : WellFormed g)
    (hc : Consistent g ν) (hfolded : (g.op i).isFolded = true) (hdef : ν i ≠ none) :
    Keeps (constantPropagation foldOther g i) g ν i ↔ FoldFits g ν i := by
  have hi : i < g.next := by
    by_contra h
    rw [Graph.op, hw.fresh i (Nat.le_of_not_lt h)] at hfolded
    cases hfolded
  by_cases hinsert : g.op i = .bitFieldInsert
  · rw [constantPropagation_bitFieldInsert foldOther hinsert,
      keeps_bitFieldInsert_iff hc hw hi hinsert hdef]
    refine ⟨fun h => ⟨h, fun hsub => ?_⟩, fun h => h.insert⟩
    rw [hinsert] at hsub
    cases hsub
  by_cases hsub : g.op i = .iSub32
  · have hfold : constantPropagation foldOther g i = foldISub32 g i := by
      simp only [constantPropagation, hsub]
    rw [hfold, keeps_foldISub32_iff hc hw hi hsub hdef]
    exact ⟨fun h => ⟨fun hins => absurd hins.1 hinsert, fun _ => h⟩, fun h => h.subtract hsub⟩
  · exact iff_of_true (keeps_constantPropagation foldOther hc hw hfolded hdef hinsert hsub)
      ⟨fun h => absurd h.1 hinsert, fun h => absurd h hsub⟩

/-- One bit put into an empty word. -/
theorem insert_one_keeps :
    Keeps (constantPropagation (fun g _ => pure g) (insertGraph 0 1 0 1) 0) (insertGraph 0 1 0 1)
      (insertValuation 0 1 0 1) 0 :=
  (constantPropagation_keeps_iff _ insertGraph_wellFormed (insertGraph_consistent (by decide)) rfl
    (by decide)).2
    { insert := fun _ base insert offset bits h0 h1 h2 h3 => by
        cases h0
        cases h1
        cases h2
        cases h3
        refine ⟨by decide, by decide, fun k hk hk32 h => ?_⟩
        have hlow : (1 : BitVec 32).getLsbD k = decide (k = 0) := BitVec.getLsbD_one.trans (by simp)
        rw [hlow, decide_eq_true_eq] at h
        rw [h] at hk
        exact absurd hk (by decide)
      subtract := fun h => by cases h }

/-- One bit of the number 3 put into an empty word becomes 3. -/
theorem insert_three_not_keeps :
    WellFormed (insertGraph 0 3 0 1) ∧
      Consistent (insertGraph 0 3 0 1) (insertValuation 0 3 0 1) ∧
        insertValuation 0 3 0 1 0 = some (.scalar (.u32 1)) ∧
          ¬Keeps (constantPropagation (fun g _ => pure g) (insertGraph 0 3 0 1) 0)
            (insertGraph 0 3 0 1) (insertValuation 0 3 0 1) 0 := by
  refine ⟨insertGraph_wellFormed, insertGraph_consistent (by decide), by decide, fun h => ?_⟩
  rw [constantPropagation_bitFieldInsert _ rfl, keeps_bitFieldInsert_iff
    (insertGraph_consistent (by decide)) insertGraph_wellFormed (by decide) rfl (by decide)] at h
  have hfits := h ⟨rfl, by decide, rfl⟩ 0 3 0 1 rfl rfl rfl rfl
  exact absurd (hfits.2.2 1 (by decide) (by decide) (by decide)) (by decide)

end Shader
end NXEmu
