/-
# Folds that look at operands

Selects, logical operations and extractions from composites take the value of an operand, and
commutative operations are moved around: an immediate goes to the right and into an operand that is
the same operation on an immediate.
-/

import NXEmu.Shader.ConstantFolds

variable {j : ℕ} {v x y : Value} {t : ValueType} {es : List Imm} {c : Composite} {a : Fin 5 → Option Val}

namespace NXEmu
namespace Shader

open Exec Option Function Bool

variable {g : Graph} {ν : Valuation} {i : ℕ}

/-! ### Values from before an instruction -/

/-- A value that refers to instructions before `i` only, in whatever order the graph has. -/
def Graph.Before (g : Graph) (i : ℕ) (v : Value) : Prop :=
  ∀ rank : ℕ → ℕ, (∀ i k j, g.arg i k = .inst j → rank j < rank i) → ∀ j, v = .inst j → rank j < rank i

theorem before_arg (g : Graph) (i : ℕ) (k : Fin 5) : g.Before i (g.arg i k) :=
  fun _ hr j hj => hr i k j hj

theorem before_imm (g : Graph) (i : ℕ) (c : Imm) : g.Before i (.imm c) := fun _ _ _ h => by cases h

/-- Arguments of an instruction before are before. -/
theorem Graph.Before.arg (h : g.Before i (.inst j)) (k : Fin 5) : g.Before i (g.arg j k) :=
  fun rank hr l hl => (hr j k l hl).trans (h rank hr j rfl)

/-- What a value resolves to is before. -/
theorem Graph.Before.resolve (h : g.Before i v) : g.Before i (g.resolve v) := by
  suffices hfuel : ∀ fuel v, g.Before i v → g.Before i (g.resolveFrom fuel v) from hfuel g.next v h
  intro fuel
  induction fuel with
  | zero =>
    intro v hv
    rwa [resolveFrom_zero]
  | succ fuel ih =>
    intro v hv
    cases v with
    | void => exact hv
    | imm c => exact hv
    | inst j =>
      rw [Graph.resolveFrom]
      split
      · exact ih _ (hv.arg 0)
      · exact hv

/-- Other first arguments, from before the operation. -/
theorem WellFormed.withArgs (hw : WellFormed g) (hs : (g.op i).slot = none)
    (hn : (g.op i).numArgs = 2) (hx : g.Before i x) (hy : g.Before i y)
    (hkx : g.Knows x) (hky : g.Knows y) : WellFormed (g.withArgs i x y) := by
  have harg : ∀ j k, (j ≠ i → (g.withArgs i x y).arg j k = g.arg j k) := fun j k h =>
    Graph.arg_modify_of_ne h _ k
  have hself : ∀ k, (g.withArgs i x y).arg i k = update (update (g.insts i).args 0 x) 1 y k := fun k =>
    Graph.arg_modify_self ..
  -- an argument is one of the new ones or one from before
  have hcases : ∀ {C : Value → Prop} (j : ℕ) (k : Fin 5), (∀ k, C (g.arg j k)) →
      (j = i → C x ∧ C y) → C ((g.withArgs i x y).arg j k) := fun {C} j k h hxy => by
    by_cases hj : j = i
    · subst hj
      rw [hself]
      by_cases h1 : k = 1
      · subst h1
        rw [update_self]
        exact (hxy rfl).2
      rw [update_of_ne h1]
      by_cases h0 : k = 0
      · subst h0
        rw [update_self]
        exact (hxy rfl).1
      rw [update_of_ne h0]
      exact h k
    · rw [harg j k hj]
      exact h k
  have hin : i < g.next := by
    by_contra h
    rw [Graph.op, hw.fresh i (Nat.le_of_not_lt h)] at hn
    cases hn
  constructor
  · obtain ⟨rank, hr⟩ := hw.ordered
    refine ⟨rank, fun j k l => ?_⟩
    refine hcases (C := fun v => v = .inst l → rank l < rank j) j k (fun k => hr j k l) ?_
    rintro rfl
    exact ⟨hx rank hr l, hy rank hr l⟩
  · exact fun j k l => hcases (C := fun v => v = .inst l → l < g.next) j k
      (fun k => hw.created j k l) fun _ => ⟨hkx l, hky l⟩
  · intro j hj
    have hji : j ≠ i := fun h => absurd hj (Nat.not_le.2 (h ▸ hin))
    rw [Graph.withArgs, Graph.modify]
    exact (update_of_ne hji ..).trans (hw.fresh j hj)
  · intro j k hk
    rw [Graph.op_withArgs] at hk
    by_cases hj : j = i
    · subst hj
      rw [hn] at hk
      have h1 : k ≠ 1 := fun h => by subst h; exact absurd hk (by decide)
      have h0 : k ≠ 0 := fun h => by subst h; exact absurd hk (by decide)
      rw [hself, update_of_ne h1, update_of_ne h0]
      exact hw.unused j k (by rw [hn]; exact hk)
    · rw [harg j k hj]
      exact hw.unused j k hk
  · intro p s z
    have hassoc : (g.withArgs i x y).associated p = g.associated p := by
      by_cases hp : p = i
      · subst hp
        simp [Graph.withArgs, Graph.modify, Graph.associated]
      · simp [Graph.withArgs, Graph.modify, Graph.associated, hp]
    rw [hassoc, Graph.op_withArgs]
    by_cases hz : z = i
    · subst hz
      rw [hw.associated p s z, hs]
      refine iff_of_false ?_ ?_
      · rintro ⟨-, h⟩
        cases h
      · rintro ⟨-, h⟩
        cases h
    · rw [harg z 0 hz]
      exact hw.associated p s z
  · intro z p hz hp
    rw [Graph.op_withArgs] at hz ⊢
    have hzi : z ≠ i := by
      rintro rfl
      obtain h | h := hz <;> rw [h] at hs <;> cases hs
    rw [harg z 0 hzi] at hp
    exact hw.sparse z p hz hp

/-! ### Selects -/

/-- **`FoldSelect`** takes the operand that the condition chooses. -/
theorem keeps_foldSelect (hc : Consistent g ν) {t : SelectType} (hop : g.op i = .select t)
    (hdef : ν i ≠ none) : Keeps (foldSelect g i) g ν i := by
  have hno : NoFlags g ν i := noFlags_of_hasFlags (by rw [hop]; rfl)
  have hs : (g.op i).slot = none := by rw [hop]; rfl
  obtain ⟨v, hv⟩ := ne_none_iff_exists'.1 hdef
  have hval : ν i = evalSelect (g.evalArg ν i) := hc.meaning i _ (by rw [hop]; rfl)
  have hev := hval.symm.trans hv
  simp only [evalSelect, bind_eq_bind, bind_eq_some_iff] at hev
  obtain ⟨b, hb, hchoice⟩ := hev
  simp only [foldSelect]
  split
  · next himm =>
    rw [Graph.u1, hc.argAs_eq himm (bind_as_eq_some.2 (bind_as_eq_some.1
      (bind_eq_some_iff.2 hb))), ret_true_bind]
    refine keeps_replaceUsesWith hc hno hs ?_
    rw [hv, ← hchoice]
    cases b <;> rfl
  · exact keeps_pure hc true

/-! ### Commutative operations -/

section Commutative

variable {α : Type} [ImmType α] {f : α → α → α}

/-- The value that a resolved operand has. -/
theorem Consistent.eval_of_resolve (hc : Consistent g ν) (h : g.resolve v = .inst j) : ν.eval v = ν j := by
  rw [← hc.eval_resolve, h]
  rfl

/-- Setting new arguments of an operation that have the value of the old ones. -/
theorem Consistent.withArgs_binary (hc : Consistent g ν)
    (hm : (g.op i).meaning = some (evalBinary f)) (hs : (g.op i).slot = none)
    (hflags : (g.op i).hasFlags = false ∨ g.hasAssociatedPseudoOperation i = false)
    (hw : WellFormed g) {a b : α} (hx : (ν.eval x).bind Val.as = some a) (hy : (ν.eval y).bind Val.as = some b)
    (hν : ν i = some (.scalar (ImmType.imm (f a b)))) : Consistent (g.withArgs i x y) ν := by
  refine hc.withArgs (fun m hm' => ?_) ?_ ?_ hs fun z hz hzs => ?_
  · rw [hm, some.injEq] at hm'
    subst hm'
    rw [hν]
    exact (evalBinary_eq_some.2 ⟨a, b, hx, hy, rfl⟩).symm
  · intro h
    rw [h] at hm
    have := congrFun (some.inj hm) (fun k => if k = 0 then some (.composite .void []) else none)
    simp [evalBinary, Val.as] at this
  · intro h
    rw [h] at hm
    cases hm
  · obtain h | h := hflags
    · exact h
    · rw [hw.no_parent h hz] at hzs
      cases hzs

section

variable (hc : Consistent g ν) (hw : WellFormed g) (hcomm : ∀ a b, f a b = f b a)
  (hassoc : ∀ a b c, f (f a b) c = f a (f b c)) (hm : (g.op i).meaning = some (evalBinary f))
  (hs : (g.op i).slot = none) (hn : (g.op i).numArgs = 2)
  (hflags : (g.op i).hasFlags = false ∨ g.hasAssociatedPseudoOperation i = false) (hdef : ν i ≠ none)

include hc hw hcomm hassoc hm hs hn hflags hdef

/-- **`FoldCommutative`** of an associative and commutative operation: either the instruction has been
replaced with its value, or it is the same operation on other operands with the same value. -/
theorem foldCommutative_spec :
    (foldCommutative f g i).wp fun r _ => r.2.next = g.next ∧ Consistent r.2 ν ∧
      (r.1 = true → WellFormed r.2 ∧ r.2.op i = g.op i ∧
        r.2.hasAssociatedPseudoOperation i = g.hasAssociatedPseudoOperation i) := by
  obtain ⟨v, hv⟩ := ne_none_iff_exists'.1 hdef
  obtain ⟨a, b, ha, hb, rfl⟩ := evalBinary_eq_some.1 ((hc.meaning i _ hm).symm.trans hv)
  rw [Graph.evalArg] at ha hb
  have hassociated : ∀ x y, (g.withArgs i x y).hasAssociatedPseudoOperation i =
      g.hasAssociatedPseudoOperation i := fun x y => by
    simp [Graph.hasAssociatedPseudoOperation, Graph.associated, Graph.withArgs, Graph.modify]
  -- what new arguments have to be
  have hset : ∀ x y a' b', g.Before i x → g.Before i y → g.Knows x → g.Knows y →
      (ν.eval x).bind Val.as = some a' → (ν.eval y).bind Val.as = some b' → f a' b' = f a b →
      (g.withArgs i x y).next = g.next ∧ Consistent (g.withArgs i x y) ν ∧
        (true = true → WellFormed (g.withArgs i x y) ∧ (g.withArgs i x y).op i = g.op i ∧
          (g.withArgs i x y).hasAssociatedPseudoOperation i = g.hasAssociatedPseudoOperation i) :=
    fun x y a' b' hxb hyb hxk hyk hx hy hab => ⟨rfl, hc.withArgs_binary hm hs hflags hw hx hy (by rw [hv, hab]),
      fun _ => ⟨hw.withArgs hs hn hxb hyb hxk hyk, Graph.op_withArgs .., hassociated x y⟩⟩
  -- an operand that is the same operation on an immediate
  have hinner : ∀ k c, (ν.eval (g.arg i k)).bind Val.as = some c → ∀ j,
      g.resolve (g.arg i k) = .inst j → g.op j = g.op i → ∃ p q, (ν.eval (g.arg j 0)).bind Val.as = some p ∧
        (ν.eval (g.arg j 1)).bind Val.as = some q ∧ c = f p q := fun k c hk j hj hop => by
    rw [hc.eval_of_resolve hj, bind_as_eq_some] at hk
    obtain ⟨p, q, hp, hq, he⟩ :=
      evalBinary_eq_some.1 ((hc.meaning j _ (by rw [hop]; exact hm)).symm.trans hk)
    refine ⟨p, q, hp, hq, ?_⟩
    have h1 := (ImmType.ofImm_eq_some (ImmType.imm c) c).2 rfl
    have h2 := (ImmType.ofImm_eq_some (ImmType.imm c) (f p q)).2 (Val.scalar.inj he)
    exact some.inj (h1.symm.trans h2)
  have himm : ∀ c : α, (ν.eval (.imm (ImmType.imm c))).bind Val.as = some c := fun c =>
    bind_as_eq_some.2 rfl
  have hknows : ∀ k j, g.resolve (g.arg i k) = .inst j → g.Knows (g.arg j 0) := fun _ j _ =>
    hw.knows j 0
  have hbefore : ∀ k j, g.resolve (g.arg i k) = .inst j → g.Before i (g.arg j 0) := fun k j h => by
    have := (before_arg g i k).resolve
    rw [h] at this
    exact this.arg 0
  simp only [foldCommutative]
  cases hl : g.isImmediate (g.arg i 0) with
  | true =>
    cases hr : g.isImmediate (g.arg i 1) with
    | true =>
      simp only [hc.argAs_eq hl ha, hc.argAs_eq hr hb, ret_true_bind, Graph.replaceUsesWith_eq hs, pure_eq, wp_ret]
      exact ⟨rfl, hc.toIdentity hv.symm, fun h => by cases h⟩
    | false =>
      obtain ⟨j, hj⟩ := resolve_inst hr
      simp only [Graph.instRecursive, hj, pure_eq, ret_true_bind]
      split
      · next h =>
        obtain ⟨p, q, hp, hq, rfl⟩ := hinner 1 b hb j hj h.1
        rw [hc.argAs_eq hl ha, ret_true_bind, hc.argAs_eq h.2 hq, ret_true_bind, setArg_setArg hs hn, wp_ret]
        refine hset _ _ p (f a q) (hbefore 1 j hj) (before_imm _ _ _) (hknows 1 j hj)
          (fun _ h => by cases h) hp (himm _) ?_
        rw [← hassoc, hcomm p a, hassoc]
      · rw [setArg_setArg hs hn, wp_ret]
        exact hset _ _ b a (before_arg _ _ _) (before_arg _ _ _) (hw.knows _ _) (hw.knows _ _) hb ha
          (hcomm b a)
  | false =>
    cases hr : g.isImmediate (g.arg i 1) with
    | true =>
      obtain ⟨j, hj⟩ := resolve_inst hl
      simp only [Graph.instRecursive, hj, pure_eq, ret_true_bind]
      split
      · next h =>
        obtain ⟨p, q, hp, hq, rfl⟩ := hinner 0 a ha j hj h.1
        rw [hc.argAs_eq hr hb, ret_true_bind, hc.argAs_eq h.2 hq, ret_true_bind, setArg_setArg hs hn, wp_ret]
        refine hset _ _ p (f b q) (hbefore 0 j hj) (before_imm _ _ _) (hknows 0 j hj)
          (fun _ h => by cases h) hp (himm _) ?_
        rw [hcomm b q, hassoc]
      · rw [wp_ret]
        exact ⟨rfl, hc, fun _ => ⟨hw, rfl, rfl⟩⟩
    | false =>
      simp only [pure_eq, wp_ret]
      exact ⟨trivial, hc, fun _ => ⟨hw, trivial, trivial⟩⟩

/-- A fold that goes on after `FoldCommutative`. -/
theorem keeps_foldCommutative {k : Bool × Graph → Exec Graph} (hfalse : ∀ g', k (false, g') = .ret g' true)
    (htrue : ∀ g', Consistent g' ν → WellFormed g' → g'.op i = g.op i →
      g'.hasAssociatedPseudoOperation i = g.hasAssociatedPseudoOperation i →
        Keeps (k (true, g')) g' ν i) : Keeps (foldCommutative f g i >>= k) g ν i := by
  have hno : NoFlags g ν i := hflags.elim noFlags_of_hasFlags (noFlags_of_not_associated hw)
  rw [Keeps, wp_bind]
  refine wp_mono (foldCommutative_spec hc hw hcomm hassoc hm hs hn hflags hdef) ?_
  rintro ⟨goes, g'⟩ held ⟨hnext, hc', hgoes⟩
  cases goes with
  | false =>
    rw [hfalse, wp_ret]
    exact ⟨ν, fun _ _ => rfl, hc', fun z b hz hs hb => absurd hb (hno z b hz hs)⟩
  | true =>
    obtain ⟨hw', hop, hassociated⟩ := hgoes rfl
    refine wp_mono (htrue g' hc' hw' hop hassociated) ?_
    rintro g'' held' ⟨ν', hν, hc'', -⟩
    simp only at hnext
    rw [hnext] at hν
    exact ⟨ν', hν, hc'', fun z b hz hs hb => absurd hb (hno z b hz hs)⟩

end

end Commutative

/-! ### Logical operations -/

section

variable (hc : Consistent g ν)

include hc

/-- What remains of `FoldLogicalAnd` and `FoldLogicalOr`: an immediate on the right is neutral, or it
decides. -/
theorem keeps_logical_right {f : Bool → Bool → Bool}
    (hm : (g.op i).meaning = some (evalBinary f)) (hs : (g.op i).slot = none)
    (hf : (g.op i).hasFlags = false) (hdef : ν i ≠ none) {tail : Bool → Exec Graph}
    (htail : ∀ b, (tail b = g.replaceUsesWith i (g.arg i 0) ∧ ∀ a, f a b = a) ∨
      ∃ c, tail b = g.replaceUsesWith i (.imm (.u1 c)) ∧ ∀ a, f a b = c) :
    Keeps (if g.isImmediate (g.arg i 1) then g.u1 (g.arg i 1) >>= tail else .ret g true) g ν i := by
  have hno : NoFlags g ν i := noFlags_of_hasFlags hf
  obtain ⟨v, hv⟩ := ne_none_iff_exists'.1 hdef
  obtain ⟨a, b, ha, hb, rfl⟩ := evalBinary_eq_some.1 ((hc.meaning i _ hm).symm.trans hv)
  split
  · next himm =>
    rw [Graph.u1, hc.argAs_eq himm hb, ret_true_bind]
    obtain ⟨h, hfa⟩ | ⟨c, h, hfc⟩ := htail b
    · rw [h]
      refine keeps_replaceUsesWith hc hno hs ?_
      rw [hv, hfa]
      exact bind_as_eq_some.1 ha
    · rw [h]
      refine keeps_replaceUsesWith hc hno hs ?_
      rw [hv, hfc]
      rfl
  · exact keeps_pure hc true

/-- **`FoldLogicalAnd`.** -/
theorem keeps_foldLogicalAnd (hw : WellFormed g) (hop : g.op i = .logicalAnd)
    (hdef : ν i ≠ none) : Keeps (foldLogicalAnd g i) g ν i := by
  have hm : (g.op i).meaning = some (evalBinary fun x y : Bool => x && y) := by rw [hop]; rfl
  have hs : (g.op i).slot = none := by rw [hop]; rfl
  have hf : (g.op i).hasFlags = false := by rw [hop]; rfl
  refine keeps_foldCommutative hc hw and_comm and_assoc hm hs (by rw [hop]; rfl) (Or.inl hf)
    hdef (fun g' => rfl) fun g' hc' _ hop' _ => ?_
  refine keeps_logical_right hc' (by rw [hop']; exact hm) (by rw [hop']; exact hs)
    (by rw [hop']; exact hf) hdef fun b => ?_
  cases b with
  | true => exact Or.inl ⟨rfl, and_true⟩
  | false => exact Or.inr ⟨false, rfl, and_false⟩

/-- **`FoldLogicalOr`.** -/
theorem keeps_foldLogicalOr (hw : WellFormed g) (hop : g.op i = .logicalOr)
    (hdef : ν i ≠ none) : Keeps (foldLogicalOr g i) g ν i := by
  have hm : (g.op i).meaning = some (evalBinary fun x y : Bool => x || y) := by rw [hop]; rfl
  have hs : (g.op i).slot = none := by rw [hop]; rfl
  have hf : (g.op i).hasFlags = false := by rw [hop]; rfl
  refine keeps_foldCommutative hc hw or_comm or_assoc hm hs (by rw [hop]; rfl) (Or.inl hf)
    hdef (fun g' => rfl) fun g' hc' _ hop' _ => ?_
  refine keeps_logical_right hc' (by rw [hop']; exact hm) (by rw [hop']; exact hs)
    (by rw [hop']; exact hf) hdef fun b => ?_
  cases b with
  | true => exact Or.inr ⟨true, rfl, or_true⟩
  | false => exact Or.inl ⟨rfl, or_false⟩

/-- The value of a negation. -/
theorem Consistent.logicalNot (hop : g.op j = .logicalNot) {v : Val} (hv : ν j = some v) :
    ∃ b : Bool, (ν.eval (g.arg j 0)).bind Val.as = some b ∧ v = .scalar (.u1 !b) := by
  have h := (hc.meaning j _ (by rw [hop]; rfl)).symm.trans hv
  obtain ⟨b, hb, rfl⟩ := map_eq_some_iff.1 h
  exact ⟨b, hb, rfl⟩

/-- **`FoldLogicalNot`.** -/
theorem keeps_foldLogicalNot (hw : WellFormed g) (hop : g.op i = .logicalNot)
    (hdef : ν i ≠ none) : Keeps (foldLogicalNot g i) g ν i := by
  have hno : NoFlags g ν i := noFlags_of_hasFlags (by rw [hop]; rfl)
  have hs : (g.op i).slot = none := by rw [hop]; rfl
  obtain ⟨v, hv⟩ := ne_none_iff_exists'.1 hdef
  obtain ⟨b, hb, rfl⟩ := hc.logicalNot hop hv
  rw [foldLogicalNot, hc.typed_eq (t := .u1) hw (bind_as_eq_some.1 hb) rfl, ret_true_bind]
  split
  · next himm =>
    rw [Graph.u1, hc.argAs_eq himm hb, ret_true_bind]
    exact keeps_replaceUsesWith hc hno hs hv.symm
  · next himm =>
    obtain ⟨j, hj⟩ := resolve_inst (not_eq_true _ ▸ himm)
    simp only [Graph.instRecursive, hj, pure_eq, ret_true_bind]
    split
    · next hopj =>
      have hbj := bind_as_eq_some.1 hb
      rw [hc.eval_of_resolve hj] at hbj
      obtain ⟨c, hcj, he⟩ := hc.logicalNot hopj hbj
      refine keeps_replaceUsesWith hc hno hs ?_
      rw [hv, bind_as_eq_some.1 hcj]
      cases he
      cases c <;> rfl
    · exact keeps_pure hc true

end

/-! ### Composites -/

theorem mapM_getElem? {α β : Type} {f : α → Option β} :
    ∀ {l : List α} {r : List β}, l.mapM f = some r → ∀ k : ℕ, r[k]? = (l[k]?).bind f
  | [], r, h, k => by
    cases h
    rfl
  | a :: l, r, h, k => by
    rw [List.mapM_cons] at h
    simp only [bind_eq_bind, bind_eq_some_iff, pure_def, some.injEq] at h
    obtain ⟨b, hb, r', hr', rfl⟩ := h
    cases k with
    | zero => simp [hb]
    | succ k => simpa using mapM_getElem? hr' k

theorem Val.imm_eq_some {x : Option Val} {c : Imm} :
    x.bind Val.imm = some c ↔ x = some (.scalar c) := by
  cases x with
  | none => simp
  | some x => cases x <;> simp [Val.imm]

theorem Val.elements_eq_some {x : Option Val} :
    x.bind Val.elements = some (t, es) ↔ x = some (.composite t es) := by
  cases x with
  | none => simp
  | some x => cases x <;> simp [Val.elements]

/-- The elements of a constructed composite are the arguments. -/
theorem evalConstruct_eq_some (h : evalConstruct c a = some (.composite t es)) {k : ℕ} {x : Imm}
    (hx : es[k]? = some x) : ∃ hk : k < 5, a ⟨k, hk⟩ = some (.scalar x) := by
  simp only [evalConstruct, bind_eq_bind, bind_eq_some_iff, some.injEq, Val.composite.injEq] at h
  obtain ⟨es', hes, -, rfl⟩ := h
  rw [mapM_getElem? hes, bind_eq_some_iff] at hx
  obtain ⟨j, hj, hx⟩ := hx
  rw [List.getElem?_take] at hj
  obtain ⟨-, hj⟩ : k < c.size ∧ (List.finRange 5)[k]? = some j := by
    split at hj
    · next h => exact ⟨h, hj⟩
    · cases hj
  obtain ⟨hlt, hj'⟩ := List.getElem?_eq_some_iff.1 hj
  rw [List.length_finRange] at hlt
  rw [List.getElem_finRange] at hj'
  refine ⟨hlt, ?_⟩
  rw [← Val.imm_eq_some, ← hx, ← hj']
  rfl

/-- The elements of a composite with another element. -/
theorem evalInsert_eq_some (h : evalInsert a = some (.composite t es)) : ∃ es' object, ∃ index : BitVec 32,
      a 0 = some (.composite t es') ∧ a 1 = some (.scalar object) ∧
        (a 2).bind Val.as = some index ∧ index.toNat < es'.length ∧ es = es'.set index.toNat object := by
  simp only [evalInsert, bind_eq_bind, bind_eq_some_iff, guard_eq_some', some.injEq, Prod.exists] at h
  obtain ⟨t', es', hes', object, hobject, index, hindex, -, hlt, h⟩ := h
  simp only [Val.composite.injEq] at h
  obtain ⟨rfl, rfl⟩ := h
  exact ⟨es', object, index, Val.elements_eq_some.1 (bind_eq_some_iff.2 hes'),
    Val.imm_eq_some.1 (bind_eq_some_iff.2 hobject), bind_eq_some_iff.2 hindex, hlt, rfl⟩

theorem evalExtract_eq_some {v : Val} (h : evalExtract a = some v) :
    ∃ t es, ∃ index : BitVec 32, ∃ x, a 0 = some (.composite t es) ∧
      (a 1).bind Val.as = some index ∧ es[index.toNat]? = some x ∧ v = .scalar x := by
  simp only [evalExtract, bind_eq_bind, bind_eq_some_iff, some.injEq, Prod.exists] at h
  obtain ⟨t, es, hes, index, hindex, x, hx, rfl⟩ := h
  exact ⟨t, es, index, x, Val.elements_eq_some.1 (bind_eq_some_iff.2 hes), bind_eq_some_iff.2 hindex, hx, rfl⟩

/-- **`FoldCompositeExtractImpl`** returns, and what it finds is the element of the composite. -/
theorem foldCompositeExtractImpl_spec (hc : Consistent g ν) (hw : WellFormed g) {rank : ℕ → ℕ}
    (hr : ∀ i k j, g.arg i k = .inst j → rank j < rank i) {index : BitVec 32} {x : Imm} (fuel : ℕ)
    (hes : ν.eval v = some (.composite t es)) (hx : es[index.toNat]? = some x) (hv : g.isImmediate v = false)
    (hfuel : ∀ j, g.resolve v = .inst j → (rankedBelow rank g.next j).card < fuel) :
    (foldCompositeExtractImpl g c index fuel v).wp fun r held =>
      held = true ∧ ∀ w, r = some w → ν.eval w = some (.scalar x) := by
  induction fuel generalizing v t es with
  | zero =>
    obtain ⟨j, hj⟩ := resolve_inst hv
    exact absurd (hfuel j hj) (Nat.not_lt_zero _)
  | succ fuel ih =>
    obtain ⟨j, hj⟩ := resolve_inst hv
    rw [hc.eval_of_resolve hj] at hes
    simp only [foldCompositeExtractImpl, Graph.instRecursive, hj, pure_eq, ret_true_bind]
    split
    · next hop =>
      have hval := (hc.meaning j _ (by rw [hop]; rfl)).symm.trans hes
      obtain ⟨hk, harg⟩ := evalConstruct_eq_some hval hx
      rw [dif_pos hk, wp_ret]
      refine ⟨rfl, ?_⟩
      rintro w ⟨⟩
      exact harg
    · split
      · rw [wp_ret]
        exact ⟨rfl, fun w h => by cases h⟩
      · next hop =>
        have hval := (hc.meaning j _ (by rw [not_not.1 hop]; rfl)).symm.trans hes
        obtain ⟨es', object, second, hes', hobject, hsecond, hlt, rfl⟩ := evalInsert_eq_some hval
        split
        · rw [wp_ret]
          exact ⟨rfl, fun w h => by cases h⟩
        · next himm =>
          rw [Graph.u32, hc.argAs_eq (by simpa using himm) hsecond, ret_true_bind]
          split
          · next hne =>
            split
            · rw [wp_ret]
              exact ⟨rfl, fun w h => by cases h⟩
            · next himm' =>
              have hne' : second.toNat ≠ index.toNat := fun h => hne (BitVec.eq_of_toNat_eq h.symm)
              rw [List.getElem?_set_ne hne'] at hx
              refine ih hes' hx (by simpa using himm') fun k hk => ?_
              have hkj : rank k < rank j := ((before_arg g j 0).resolve) rank hr k hk
              have hkn : k < g.next := hw.knows_resolve (hw.knows j 0) k hk
              exact Nat.lt_of_lt_of_le (rankedBelow_card_lt hkn hkj) (Nat.le_of_lt_succ (hfuel j hj))
          · next heq =>
            rw [wp_ret]
            refine ⟨rfl, ?_⟩
            rintro w ⟨⟩
            rw [not_not.1 heq, List.getElem?_set_self hlt] at hx
            rw [← some.inj hx]
            exact hobject

/-- **`FoldCompositeExtract`.** -/
theorem keeps_foldCompositeExtract (hc : Consistent g ν) (hw : WellFormed g)
    (hop : g.op i = .compositeExtract c) (hdef : ν i ≠ none) :
    Keeps (foldCompositeExtract g i c) g ν i := by
  have hno : NoFlags g ν i := noFlags_of_hasFlags (by rw [hop]; rfl)
  have hs : (g.op i).slot = none := by rw [hop]; rfl
  obtain ⟨v, hv⟩ := ne_none_iff_exists'.1 hdef
  obtain ⟨t, es, index, x, hes, hindex, hx, rfl⟩ :=
    evalExtract_eq_some ((hc.meaning i _ (by rw [hop]; rfl)).symm.trans hv)
  simp only [foldCompositeExtract]
  split
  · exact keeps_pure hc true
  split
  · exact keeps_pure hc true
  next hv1 hv2 =>
    obtain ⟨rank, hr⟩ := hw.ordered
    have hfuel : ∀ j, g.resolve (g.arg i 0) = .inst j → (rankedBelow rank g.next j).card < g.next + 1 := fun j hj =>
      (rankedBelow_card_lt_next (hw.knows_resolve (hw.knows i 0) j hj)).trans (Nat.lt_succ_self _)
    rw [Graph.u32, hc.argAs_eq (by simpa using hv2) hindex, ret_true_bind]
    obtain ⟨r, held, hrun, rfl, hfound⟩ := foldCompositeExtractImpl_spec hc hw hr (c := c)
      (g.next + 1) hes hx (by simpa using hv1) hfuel
    rw [hrun, ret_true_bind]
    cases r with
    | none => exact keeps_pure hc true
    | some w => exact keeps_replaceUsesWith hc hno hs ((hfound w rfl).trans hv.symm)

end Shader
end NXEmu
