/-
# Rewriting a graph of instructions

What the operations of `Inst` do to a well-formed graph, and when a valuation stays consistent: an
instruction may become anything that has the value it had, as long as no pseudo-operation asks it for
a flag that it no longer has.
-/

import NXEmu.Shader.Semantics
import Mathlib.Data.Finset.Card
import Mathlib.Order.Interval.Finset.Nat
import Mathlib.Algebra.Order.BigOperators.Group.Finset

variable {i j next z : ℕ} {rank : ℕ → ℕ} {v x y : Value} {k : Fin 5} {s : Slot} {op : Opcode}

namespace NXEmu
namespace Shader

open Exec Function Finset

variable {g : Graph} {ν : Valuation}

/-! ### Changing one instruction -/

namespace Graph

@[simp] theorem op_modify_self (g : Graph) (i : ℕ) (f : Inst → Inst) :
    (g.modify i f).op i = (f (g.insts i)).op := by
  simp [modify, op]

@[simp] theorem arg_modify_self (g : Graph) (i : ℕ) (f : Inst → Inst) (k : Fin 5) :
    (g.modify i f).arg i k = (f (g.insts i)).args k := by
  simp [modify, arg]

theorem op_modify_of_ne (h : j ≠ i) (f : Inst → Inst) : (g.modify i f).op j = g.op j := by
  simp [modify, op, h]

theorem arg_modify_of_ne (h : j ≠ i) (f : Inst → Inst) (k : Fin 5) :
    (g.modify i f).arg j k = g.arg j k := by
  simp [modify, arg, h]

section

variable (g : Graph) (p : ℕ) (s : Slot) (z : Option ℕ)

@[simp] theorem op_associate (i : ℕ) :
    (g.associate p s z).op i = g.op i := by
  by_cases h : i = p
  · subst h
    rw [associate, op_modify_self]
    rfl
  · exact op_modify_of_ne h _

@[simp] theorem arg_associate (i : ℕ) (k : Fin 5) :
    (g.associate p s z).arg i k = g.arg i k := by
  by_cases h : i = p
  · subst h
    rw [associate, arg_modify_self]
    rfl
  · exact arg_modify_of_ne h _ k

/-- What is written down in an instruction, in a slot. -/
theorem associated_associate (q : ℕ) (t : Slot) :
    ((g.associate p s z).associated q).bind (· t) = if q = p ∧ t = s then z else (g.associated q).bind (· t) := by
  by_cases hq : q = p
  · subst hq
    by_cases ht : t = s
    · subst ht
      simp [associate, associated, modify]
    · cases ha : (g.insts q).associated <;> simp [associate, associated, modify, ha, ht]
  · simp [associate, associated, modify, hq]

end

end Graph

/-! ### Looking through identities -/

theorem resolveFrom_zero (g : Graph) (v : Value) : g.resolveFrom 0 v = v := by
  cases v <;> rfl

/-- The instructions of a lower rank. -/
def rankedBelow (rank : ℕ → ℕ) (next i : ℕ) : Finset ℕ :=
  (Finset.range next).filter fun k => rank k < rank i

theorem rankedBelow_card_lt (hj : j < next) (h : rank j < rank i) :
    (rankedBelow rank next j).card < (rankedBelow rank next i).card := by
  refine card_lt_card (Finset.ssubset_iff_subset_ne.2 ⟨fun k hk => ?_, fun he => ?_⟩)
  · have hk := mem_filter.1 hk
    exact mem_filter.2 ⟨hk.1, hk.2.trans h⟩
  · have hmem : j ∈ rankedBelow rank next i := mem_filter.2 ⟨mem_range.2 hj, h⟩
    rw [← he] at hmem
    exact lt_irrefl _ (mem_filter.1 hmem).2

theorem rankedBelow_card_lt_next (hi : i < next) :
    (rankedBelow rank next i).card < next := by
  have hss : rankedBelow rank next i ⊂ range next := by
    refine Finset.ssubset_iff_subset_ne.2 ⟨filter_subset _ _, fun he => ?_⟩
    have hmem : i ∈ rankedBelow rank next i := by
      rw [he]
      exact mem_range.2 hi
    exact lt_irrefl _ (mem_filter.1 hmem).2
  have := card_lt_card hss
  rwa [card_range] at this

theorem resolveFrom_ne_identity (hw : WellFormed g)
    (hr : ∀ i k j, g.arg i k = .inst j → rank j < rank i) (fuel : ℕ) (v : Value)
    (hv : ∀ i, v = .inst i → i < g.next → (rankedBelow rank g.next i).card < fuel)
    (h : g.resolveFrom fuel v = .inst j) : g.op j ≠ .identity := by
  induction fuel generalizing v with
  | zero =>
    rw [resolveFrom_zero] at h
    subst h
    intro hid
    have hj : g.next ≤ j := by
      by_contra hlt
      exact Nat.not_lt_zero _ (hv j rfl (Nat.lt_of_not_le hlt))
    rw [Graph.op, hw.fresh j hj] at hid
    cases hid
  | succ fuel ih =>
    cases v with
    | void => cases h
    | imm c => cases h
    | inst i =>
      rw [Graph.resolveFrom] at h
      split at h
      · next hid =>
        refine ih _ (fun k hk hlt => ?_) h
        have hi : i < g.next := by
          by_contra hge
          rw [Graph.op, hw.fresh i (Nat.le_of_not_lt hge)] at hid
          cases hid
        exact Nat.lt_of_lt_of_le (rankedBelow_card_lt hlt (hr i 0 k hk)) (Nat.le_of_lt_succ (hv i rfl hi))
      · next hid =>
        cases h
        exact hid

/-- A resolved value is no identity. -/
theorem resolve_ne_identity (hw : WellFormed g) (h : g.resolve v = .inst j) :
    g.op j ≠ .identity := by
  obtain ⟨rank, hr⟩ := hw.ordered
  exact resolveFrom_ne_identity hw hr g.next v (fun i _ hi => rankedBelow_card_lt_next hi) h

/-- Looking through identities keeps the value. -/
theorem Consistent.eval_resolve (hc : Consistent g ν) (v : Value) : ν.eval (g.resolve v) = ν.eval v := by
  suffices h : ∀ fuel v, ν.eval (g.resolveFrom fuel v) = ν.eval v from h g.next v
  intro fuel
  induction fuel with
  | zero =>
    intro v
    rw [resolveFrom_zero]
  | succ fuel ih =>
    intro v
    cases v with
    | void => rfl
    | imm c => rfl
    | inst i =>
      rw [Graph.resolveFrom]
      split
      · next hid =>
        rw [ih]
        exact (hc.meaning i _ (by rw [hid]; rfl)).symm
      · rfl

/-- A value that is an immediate is one. -/
theorem Consistent.resolve_imm (hc : Consistent g ν) {x : Val}
    (himm : g.isImmediate v = true) (hx : ν.eval v = some x) :
    ∃ c, g.resolve v = .imm c ∧ x = .scalar c := by
  rw [← hc.eval_resolve] at hx
  rw [Graph.isImmediate] at himm
  cases hres : g.resolve v with
  | void =>
    rw [hres] at hx
    cases hx
  | inst i =>
    rw [hres] at himm
    cases himm
  | imm c =>
    rw [hres] at hx
    cases hx
    exact ⟨c, rfl, rfl⟩

theorem resolve_inst (h : g.isImmediate v = false) : ∃ i, g.resolve v = .inst i := by
  rw [Graph.isImmediate] at h
  cases hres : g.resolve v with
  | inst i => exact ⟨i, rfl⟩
  | void =>
    rw [hres] at h
    cases h
  | imm c =>
    rw [hres] at h
    cases h

/-! ### Reading operands -/

section Operands

variable {α : Type} [ImmType α]

theorem Val.as_eq_some {x : Val} {a : α} : x.as = some a ↔ x = .scalar (ImmType.imm a) := by
  cases x with
  | scalar c => rw [Val.as, ImmType.ofImm_eq_some, Val.scalar.injEq]
  | composite element elements => simp [Val.as]

theorem bind_as_eq_some {x : Option Val} {a : α} :
    x.bind Val.as = some a ↔ x = some (.scalar (ImmType.imm a)) := by
  cases x with
  | none => simp
  | some x => rw [Option.bind_some, Val.as_eq_some, Option.some.injEq]

/-- An immediate of a type is the one that it resolves to. -/
theorem Consistent.resolve_eq (hc : Consistent g ν) {a : α}
    (himm : g.isImmediate v = true) (hv : (ν.eval v).bind Val.as = some a) :
    g.resolve v = .imm (ImmType.imm a) := by
  obtain ⟨c, hres, hx⟩ := hc.resolve_imm himm (bind_as_eq_some.1 hv)
  rw [hres, (Val.scalar.inj hx).symm]

theorem argAs_of_resolve {a : α} (h : g.resolve v = .imm (ImmType.imm a)) :
    g.argAs v = .ret a true := by
  rw [Graph.argAs, h]
  simp only [(ImmType.ofImm_eq_some _ a).2 rfl, pure_eq]

/-- Reading an immediate gives its value. -/
theorem Consistent.argAs_eq (hc : Consistent g ν) {a : α}
    (himm : g.isImmediate v = true) (hv : (ν.eval v).bind Val.as = some a) :
    g.argAs v = .ret a true :=
  argAs_of_resolve (hc.resolve_eq himm hv)

end Operands

/-- The type of a value with a defined value. -/
theorem Consistent.type_eq (hc : Consistent g ν) (hw : WellFormed g) {x : Val}
    (hx : ν.eval v = some x) : g.type v = x.type := by
  rw [← hc.eval_resolve] at hx
  rw [Graph.type]
  cases hres : g.resolve v with
  | void =>
    rw [hres] at hx
    cases hx
  | inst i =>
    rw [hres] at hx
    exact (hc.typed i x (resolve_ne_identity hw hres) hx).symm
  | imm c =>
    rw [hres] at hx
    cases hx
    rfl

theorem Consistent.typed_eq (hc : Consistent g ν) (hw : WellFormed g) {x : Val}
    {t : ValueType} (hx : ν.eval v = some x) (ht : x.type = t) : g.typed t v = .ret v true := by
  rw [Graph.typed, if_pos ((hc.type_eq hw hx).trans ht), pure_eq]

/-! ### Consistency after a change -/

/-- Consistency is about the opcodes and arguments. -/
theorem Consistent.congr (hc : Consistent g ν) {g' : Graph} (hop : ∀ i, g'.op i = g.op i)
    (harg : ∀ i k, g'.arg i k = g.arg i k) : Consistent g' ν := by
  have heval : ∀ i, g'.evalArg ν i = g.evalArg ν i := fun i => by
    funext k
    rw [Graph.evalArg, Graph.evalArg, harg]
  constructor
  · intro i f hf
    rw [hop] at hf
    rw [heval]
    exact hc.meaning i f hf
  · intro i v hi
    rw [hop] at hi ⊢
    exact hc.typed i v hi
  · intro i j hi hj h0 h1
    rw [hop] at hi hj
    rw [harg, harg] at h0 h1
    exact hc.cbuf i j hi hj h0 h1
  · intro z p b hz hp hb
    rw [hop] at hz
    rw [harg] at hp
    rw [hop, hop, heval] at hb
    exact hc.flags z p b hz hp hb

/-- **Changing one instruction keeps a valuation consistent** when the new one has the value of the
old one, and its pseudo-operations do not notice. -/
theorem Consistent.modify (hc : Consistent g ν) {f : Inst → Inst}
    (hmeaning : ∀ m, (f (g.insts i)).op.meaning = some m → ν i = m fun k => ν.eval ((f (g.insts i)).args k))
    (htyped : ∀ x, (f (g.insts i)).op ≠ .identity → ν i = some x → x.type = (f (g.insts i)).op.type)
    (hcbuf : (f (g.insts i)).op ≠ .getCbufU32) (hslot : (f (g.insts i)).op.slot = none)
    (hflags : ∀ z b, g.arg z 0 = .inst i → (g.op z).slot.isSome = true →
      flag (g.op z) (f (g.insts i)).op (fun k => ν.eval ((f (g.insts i)).args k)) (ν i) = some b →
        ν z = some (.scalar (.u1 b))) : Consistent (g.modify i f) ν := by
  have heval : ∀ j, j ≠ i → (g.modify i f).evalArg ν j = g.evalArg ν j := fun j hj => by
    funext k
    rw [Graph.evalArg, Graph.evalArg, Graph.arg_modify_of_ne hj]
  have hevali : (g.modify i f).evalArg ν i = fun k => ν.eval ((f (g.insts i)).args k) := by
    funext k
    rw [Graph.evalArg, Graph.arg_modify_self]
  constructor
  · intro j m hm
    by_cases hj : j = i
    · subst hj
      rw [Graph.op_modify_self] at hm
      rw [hevali]
      exact hmeaning m hm
    · rw [Graph.op_modify_of_ne hj] at hm
      rw [heval j hj]
      exact hc.meaning j m hm
  · intro j x hj hx
    by_cases hji : j = i
    · subst hji
      rw [Graph.op_modify_self] at hj ⊢
      exact htyped x hj hx
    · rw [Graph.op_modify_of_ne hji] at hj ⊢
      exact hc.typed j x hj hx
  · intro j k hj hk h0 h1
    by_cases hji : j = i
    · subst hji
      rw [Graph.op_modify_self] at hj
      exact absurd hj hcbuf
    by_cases hki : k = i
    · subst hki
      rw [Graph.op_modify_self] at hk
      exact absurd hk hcbuf
    rw [Graph.op_modify_of_ne hji] at hj
    rw [Graph.op_modify_of_ne hki] at hk
    rw [Graph.arg_modify_of_ne hji, Graph.arg_modify_of_ne hki] at h0 h1
    exact hc.cbuf j k hj hk h0 h1
  · intro z p b hz hp hb
    by_cases hzi : z = i
    · subst hzi
      rw [Graph.op_modify_self, hslot] at hz
      cases hz
    rw [Graph.op_modify_of_ne hzi] at hz hb
    rw [Graph.arg_modify_of_ne hzi] at hp
    by_cases hpi : p = i
    · subst hpi
      rw [Graph.op_modify_self, hevali] at hb
      exact hflags z b hp hz hb
    · rw [Graph.op_modify_of_ne hpi, heval p hpi] at hb
      exact hc.flags z p b hz hp hb

/-! ### Replacing the uses of an instruction -/

namespace Graph

/-- The graph in which instruction `i` is an identity. -/
def toIdentity (g : Graph) (i : ℕ) (replacement : Value) : Graph :=
  g.modify i fun inst =>
    { inst with op := .identity, args := Function.update (fun _ : Fin 5 => Value.void) 0 replacement }

@[simp] theorem op_toIdentity_self (g : Graph) (i : ℕ) (v : Value) :
    (g.toIdentity i v).op i = .identity :=
  op_modify_self ..

@[simp] theorem arg_toIdentity_self (g : Graph) (i : ℕ) (v : Value) :
    (g.toIdentity i v).arg i 0 = v := by
  rw [toIdentity, arg_modify_self]
  rfl

theorem modify_modify (g : Graph) (i : ℕ) (f f' : Inst → Inst) :
    (g.modify i f).modify i f' = g.modify i fun inst => f' (f inst) := by
  simp [modify]

/-- An argument that is no immediate is an instruction. -/
theorem arg_of_not_isImmediate (h : g.isImmediate v = false) : ∃ j, v = .inst j := by
  cases v with
  | inst j => exact ⟨j, rfl⟩
  | void => cases hn : g.next <;> simp [isImmediate, resolve, resolveFrom, hn] at h
  | imm c => cases hn : g.next <;> simp [isImmediate, resolve, resolveFrom, hn] at h

section

variable {i : ℕ} {v : Value} (hs : (g.op i).slot = none) (hv : g.isImmediate v = false)

include hs hv

/-- An instruction that is no pseudo-operation leaves the others alone when a use of it ends. -/
theorem undoUse_eq :
    g.undoUse i v = .ret g true := by
  obtain ⟨j, rfl⟩ := arg_of_not_isImmediate hv
  simp [undoUse, hs]

theorem use_eq :
    g.use i v = .ret g true := by
  obtain ⟨j, rfl⟩ := arg_of_not_isImmediate hv
  simp [use, hs]

end

/-- `ReplaceUsesWith` of an instruction that is no pseudo-operation. -/
theorem replaceUsesWith_eq (hs : (g.op i).slot = none) (v : Value) :
    g.replaceUsesWith i v = .ret (g.toIdentity i v) true := by
  have hstep : ∀ k : Fin 5, (if g.isImmediate (g.arg i k) then pure g
      else g.undoUse i (g.arg i k)) = (pure g : Exec Graph) := fun k => by
    cases hk : g.isImmediate (g.arg i k) with
    | true => rfl
    | false => exact undoUse_eq hs hk
  have hloop : (List.finRange 5).foldlM (fun (g : Graph) k =>
      if g.isImmediate (g.arg i k) then pure g else g.undoUse i (g.arg i k)) g = ret g true := by
    generalize List.finRange 5 = ks
    induction ks with
    | nil => rfl
    | cons k ks ih => rw [List.foldlM_cons, hstep, pure_eq, ret_true_bind, ih]
  rw [replaceUsesWith, clearArgs, hloop]
  simp only [ret_true_bind, pure_eq, modify_modify]
  rfl

/-- `SetArg` of an instruction that is no pseudo-operation. -/
theorem setArg_eq (hs : (g.op i).slot = none) (hk : (k : ℕ) < (g.op i).numArgs) (v : Value) :
    g.setArg i k v = .ret (g.modify i fun inst => { inst with args := update inst.args k v }) true := by
  have hundo : (if g.isImmediate (g.arg i k) then pure g
      else g.undoUse i (g.arg i k) : Exec Graph) = pure g := by
    cases hk : g.isImmediate (g.arg i k) with
    | true => rfl
    | false => exact undoUse_eq hs hk
  have huse : (if g.isImmediate v then pure g else g.use i v) = (pure g : Exec Graph) := by
    cases hv : g.isImmediate v with
    | true => rfl
    | false => exact use_eq hs hv
  rw [setArg, if_neg (Nat.not_le.2 hk), hundo, pure_eq, ret_true_bind, huse, pure_eq, ret_true_bind, pure_eq]

end Graph

/-- No pseudo-operation gets a flag of an identity. -/
theorem flag_identity (pseudo : Opcode) (a : Fin 5 → Option Val) (x : Option Val) :
    flag pseudo .identity a x = none := by
  cases pseudo <;> rfl

/-- **Replacing the uses of an instruction with its own value** keeps a valuation consistent. -/
theorem Consistent.toIdentity (hc : Consistent g ν) (hv : ν.eval v = ν i) :
    Consistent (g.toIdentity i v) ν := by
  refine hc.modify (fun m hm => ?_) (fun x h => absurd rfl h) (by simp) rfl fun z b _ _ hb => ?_
  · cases hm
    exact hv.symm
  · rw [flag_identity] at hb
    cases hb

/-! ### Pseudo-operations -/

theorem resolve_of_ne_identity (h : g.op i ≠ .identity) : g.resolve (.inst i) = .inst i := by
  rw [Graph.resolve]
  cases g.next with
  | zero => rfl
  | succ n => rw [Graph.resolveFrom, if_neg h]

theorem isImmediate_of_ne_identity (h : g.op i ≠ .identity) :
    g.isImmediate (.inst i) = false := by
  rw [Graph.isImmediate, resolve_of_ne_identity h]

theorem isImmediate_void (g : Graph) : g.isImmediate .void = true := by
  simp [Graph.isImmediate, Graph.resolve, Graph.resolveFrom]

/-- A pseudo-operation has one argument. -/
theorem WellFormed.arg_pseudo (hw : WellFormed g) (hs : (g.op z).slot = some s)
    (hk : 1 ≤ (k : ℕ)) : g.arg z k = .void := by
  refine hw.unused z k ?_
  cases hop : g.op z <;> rw [hop] at hs <;> first | exact hk | cases hs

/-- `ReplaceUsesWith` of a pseudo-operation that is written down in its parent. -/
theorem replaceUsesWith_pseudo_eq {z p : ℕ}
    (hs : (g.op z).slot = some s) (hz : g.arg z 0 = .inst p) (hp : g.op p ≠ .identity)
    (hmem : (g.associated p).bind (· s) = some z) (hvoid : ∀ k : Fin 5, 1 ≤ (k : ℕ) → g.arg z k = .void) (v : Value) :
    g.replaceUsesWith z v = .ret ((g.associate p s none).toIdentity z v) true := by
  have hfirst : (if g.isImmediate (g.arg z 0) then pure g
      else g.undoUse z (g.arg z 0) : Exec Graph) = .ret (g.associate p s none) true := by
    rw [hz, isImmediate_of_ne_identity hp]
    simp [Graph.undoUse, hs, hmem]
  have hrest : ∀ k : Fin 5, 1 ≤ (k : ℕ) → (if (g.associate p s none).isImmediate ((g.associate p s none).arg z k)
        then pure (g.associate p s none)
        else (g.associate p s none).undoUse z ((g.associate p s none).arg z k) : Exec Graph) =
      .ret (g.associate p s none) true := fun k hk => by
    rw [Graph.arg_associate, hvoid k hk, isImmediate_void]
    rfl
  have hrange : List.finRange 5 = [0, 1, 2, 3, 4] := rfl
  rw [Graph.replaceUsesWith, Graph.clearArgs, hrange, List.foldlM_cons, hfirst,
    ret_true_bind, List.foldlM_cons, hrest 1 (by decide), ret_true_bind,
    List.foldlM_cons, hrest 2 (by decide), ret_true_bind, List.foldlM_cons,
    hrest 3 (by decide), ret_true_bind, List.foldlM_cons, hrest 4 (by decide),
    ret_true_bind, List.foldlM_nil]
  simp only [ret_true_bind, pure_eq, Graph.modify_modify]
  rfl

/-- An instruction without associated pseudo-operations is no parent. -/
theorem WellFormed.no_parent (hw : WellFormed g)
    (h : g.hasAssociatedPseudoOperation i = false) (hz : g.arg z 0 = .inst i) :
    (g.op z).slot = none := by
  cases hs : (g.op z).slot with
  | none => rfl
  | some s =>
    have hmem := (hw.associated i s z).2 ⟨hz, hs⟩
    rw [Graph.hasAssociatedPseudoOperation, Option.isSome_eq_false_iff, Option.isNone_iff_eq_none]
      at h
    rw [h] at hmem
    cases hmem

/-! ### Setting both arguments of an operation -/

/-- The graph in which instruction `i` has other first arguments. -/
def Graph.withArgs (g : Graph) (i : ℕ) (x y : Value) : Graph :=
  g.modify i fun inst =>
    { inst with args := Function.update (Function.update inst.args 0 x) 1 y }

@[simp] theorem Graph.op_withArgs (g : Graph) (i : ℕ) (x y : Value) (j : ℕ) :
    (g.withArgs i x y).op j = g.op j := by
  by_cases h : j = i
  · subst h
    rw [withArgs, op_modify_self]
    rfl
  · exact op_modify_of_ne h _

/-- Setting one argument after the other. -/
theorem setArg_setArg {α : Type} (hs : (g.op i).slot = none) (hn : (g.op i).numArgs = 2)
    (x y : Value) (k : Graph → Exec α) :
    (do let g ← g.setArg i 0 x; let g ← g.setArg i 1 y; k g) = k (g.withArgs i x y) := by
  have h0 := Graph.setArg_eq hs (show ((0 : Fin 5) : ℕ) < (g.op i).numArgs by rw [hn]; decide) x
  have h1 := Graph.setArg_eq
    (g := g.modify i fun inst => { inst with args := update inst.args 0 x }) (i := i)
    (k := 1) (by rw [Graph.op_modify_self]; exact hs)
    (by rw [Graph.op_modify_self]; show 1 < (g.op i).numArgs; omega) y
  rw [h0, ret_true_bind, h1, ret_true_bind, Graph.modify_modify]
  rfl

/-- Other arguments with the same value. -/
theorem Consistent.withArgs (hc : Consistent g ν) (hmeaning : ∀ m, (g.op i).meaning = some m →
      ν i = m fun k => ν.eval (update (update (g.insts i).args 0 x) 1 y k))
    (hid : g.op i ≠ .identity) (hcbuf : g.op i ≠ .getCbufU32) (hslot : (g.op i).slot = none)
    (hflags : ∀ z, g.arg z 0 = .inst i → (g.op z).slot.isSome = true → (g.op i).hasFlags = false) :
    Consistent (g.withArgs i x y) ν := by
  refine hc.modify hmeaning (fun v _ hv => hc.typed i v hid hv) hcbuf hslot fun z b hz hzs hb => ?_
  have hno := hflags z hz hzs
  have hadd : (g.op i) ≠ .iAdd32 := by
    intro h
    rw [h] at hno
    cases hno
  have hnone : flag (g.op z) (g.op i)
      (fun k => ν.eval (update (update (g.insts i).args 0 x) 1 y k)) (ν i) = none := by
    unfold flag
    cases g.op z <;> simp [hno, hadd]
  exact absurd (hnone.symm.trans hb) (by simp)

/-! ### New instructions -/

/-- The graph with another operation on two values. -/
def Graph.append (g : Graph) (op : Opcode) (x y : Value) : Graph :=
  ⟨Function.update g.insts g.next
    ⟨op, Function.update (Function.update (fun _ : Fin 5 => Value.void) 0 x) 1 y, none⟩, g.next + 1⟩

theorem Graph.insts_append_of_ne (h : j ≠ g.next) :
    (g.append op x y).insts j = g.insts j := by
  simp [append, h]

theorem Graph.insts_append_self (g : Graph) (op : Opcode) (x y : Value) :
    (g.append op x y).insts g.next = ⟨op, update (update (fun _ : Fin 5 => Value.void) 0 x) 1 y, none⟩ := by
  simp [append]

/-- `PrependNewInst` of an operation on two values. -/
theorem prependNewInst_eq (g : Graph) (hn : op.numArgs = 2) (hs : op.slot = none) (x y : Value) :
    g.prependNewInst op [x, y] = .ret (.inst g.next, g.append op x y) true := by
  have hrange : List.finRange 5 = [0, 1, 2, 3, 4] := rfl
  let g₀ : Graph := ⟨update g.insts g.next (Inst.new op), g.next + 1⟩
  have hop : g₀.op g.next = op := by simp [g₀, Graph.op, Inst.new]
  have hset := setArg_setArg (g := g₀) (i := g.next) (by rw [hop]; exact hs) (by rw [hop]; exact hn)
    x y fun g' => (pure (Value.inst g.next, g') : Exec (Value × Graph))
  have happend : g₀.withArgs g.next x y = g.append op x y := by
    simp [g₀, Graph.withArgs, Graph.append, Graph.modify, Inst.new]
  rw [happend] at hset
  rw [Graph.prependNewInst, if_neg (by simp [hn]), hrange]
  simpa using hset

/-- A value that refers to no instruction of a later number. -/
def Graph.Knows (g : Graph) (v : Value) : Prop := ∀ j, v = .inst j → j < g.next

theorem WellFormed.knows (hw : WellFormed g) (i : ℕ) (k : Fin 5) : g.Knows (g.arg i k) :=
  hw.created i k

/-- A resolved argument is known as well. -/
theorem WellFormed.knows_resolve (hw : WellFormed g) (hv : g.Knows v) :
    g.Knows (g.resolve v) := by
  suffices h : ∀ fuel v, g.Knows v → g.Knows (g.resolveFrom fuel v) from h g.next v hv
  intro fuel
  induction fuel with
  | zero =>
    intro v hv
    rwa [resolveFrom_zero]
  | succ fuel ih =>
    intro v hv
    cases v with
    | void => exact hv
    | imm c => exact hv
    | inst i =>
      rw [Graph.resolveFrom]
      split
      · exact ih _ (hw.knows i 0)
      · exact hv

/-- The new value of an instruction does not matter to those made before. -/
theorem eval_update (hv : g.Knows v) (x : Option Val) :
    Valuation.eval (update ν g.next x) v = ν.eval v := by
  cases v with
  | void => rfl
  | imm c => rfl
  | inst j => exact update_of_ne (Nat.ne_of_lt (hv j rfl)) ..

/-- The arguments of a new instruction. -/
theorem args_cases {C : Value → Prop} (h0 : C x) (h1 : C y) (h : C .void)
    (k : Fin 5) : C (update (update (fun _ : Fin 5 => Value.void) 0 x) 1 y k) := by
  by_cases hk1 : k = 1
  · subst hk1
    rwa [update_self]
  rw [update_of_ne hk1]
  by_cases hk0 : k = 0
  · subst hk0
    rwa [update_self]
  · rwa [update_of_ne hk0]

theorem WellFormed.append (hw : WellFormed g) (op : Opcode) (hn : op.numArgs = 2)
    (hs : op.slot = none) (hx : g.Knows x) (hy : g.Knows y) : WellFormed (g.append op x y) := by
  have hargs : ∀ i k, (i ≠ g.next → (g.append op x y).arg i k = g.arg i k) ∧
      (i = g.next → g.Knows ((g.append op x y).arg i k)) := fun i k => by
    refine ⟨fun h => by rw [Graph.arg, Graph.insts_append_of_ne h, Graph.arg], ?_⟩
    rintro rfl
    rw [Graph.arg, Graph.insts_append_self]
    exact args_cases hx hy (fun j h => by cases h) k
  have hknows : ∀ i k, g.Knows ((g.append op x y).arg i k) := fun i k => by
    by_cases h : i = g.next
    · exact (hargs i k).2 h
    · rw [(hargs i k).1 h]
      exact hw.knows i k
  have hop : ∀ i, i ≠ g.next → (g.append op x y).op i = g.op i := fun i h => by
    rw [Graph.op, Graph.insts_append_of_ne h, Graph.op]
  have hopself : (g.append op x y).op g.next = op := by rw [Graph.op, Graph.insts_append_self]
  constructor
  · obtain ⟨rank, hr⟩ := hw.ordered
    refine ⟨update rank g.next (∑ j ∈ range g.next, rank j + 1), fun i k j hj => ?_⟩
    have hjlt : j < g.next := hknows i k j hj
    rw [update_of_ne (Nat.ne_of_lt hjlt)]
    by_cases h : i = g.next
    · subst h
      rw [update_self]
      exact Nat.lt_succ_of_le (single_le_sum (fun _ _ => Nat.zero_le _)
        (mem_range.2 hjlt))
    · rw [update_of_ne h]
      rw [(hargs i k).1 h] at hj
      exact hr i k j hj
  · exact fun i k j hj => Nat.lt_succ_of_lt (hknows i k j hj)
  · intro i hi
    have h : g.next < i := hi
    rw [Graph.insts_append_of_ne (Nat.ne_of_gt h)]
    exact hw.fresh i (Nat.le_of_lt h)
  · intro i k hk
    by_cases h : i = g.next
    · subst h
      rw [hopself, hn] at hk
      have hk0 : k ≠ 0 := by
        rintro rfl
        exact absurd hk (by decide)
      have hk1 : k ≠ 1 := by
        rintro rfl
        exact absurd hk (by decide)
      rw [Graph.arg, Graph.insts_append_self]
      exact (update_of_ne hk1 ..).trans (update_of_ne hk0 ..)
    · rw [hop i h] at hk
      rw [(hargs i k).1 h]
      exact hw.unused i k hk
  · intro p s z
    by_cases hp : p = g.next
    · subst hp
      rw [Graph.associated, Graph.insts_append_self]
      constructor
      · intro h
        cases h
      · rintro ⟨h, -⟩
        exact absurd (hknows z 0 _ h) (lt_irrefl _)
    · rw [Graph.associated, Graph.insts_append_of_ne hp]
      by_cases hz : z = g.next
      · subst hz
        rw [hopself, hs]
        refine (iff_of_false (fun h => ?_) fun h => by cases h.2)
        have := ((hw.associated p s g.next).1 h).2
        rw [Graph.op, hw.fresh g.next le_rfl] at this
        cases this
      · rw [(hargs z 0).1 hz, hop z hz]
        exact hw.associated p s z
  · intro z p hz hp
    have hzn : z ≠ g.next := by
      rintro rfl
      rw [hopself] at hz
      obtain rfl | rfl := hz <;> cases hs
    rw [hop z hzn] at hz
    have hpn : p ≠ g.next := Nat.ne_of_lt (hknows z 0 p hp)
    rw [hop p hpn]
    rw [(hargs z 0).1 hzn] at hp
    exact hw.sparse z p hz hp

/-- **A new operation** on known values takes the value of its operands. -/
theorem Consistent.append (hc : Consistent g ν) (hw : WellFormed g)
    {m : (Fin 5 → Option Val) → Option Val} {w : Option Val} (hm : op.meaning = some m) (hval : m (fun k => ν.eval
      (update (update (fun _ : Fin 5 => Value.void) 0 x) 1 y k)) = w)
    (hty : ∀ v, w = some v → v.type = op.type) (hcbuf : op ≠ .getCbufU32) (hs : op.slot = none)
    (hx : g.Knows x) (hy : g.Knows y) :
    Consistent (g.append op x y) (update ν g.next w) := by
  have harg : ∀ i, i ≠ g.next → ∀ k, (g.append op x y).arg i k = g.arg i k := fun i h k => by
    rw [Graph.arg, Graph.insts_append_of_ne h, Graph.arg]
  have hop : ∀ i, i ≠ g.next → (g.append op x y).op i = g.op i := fun i h => by
    rw [Graph.op, Graph.insts_append_of_ne h, Graph.op]
  have hopself : (g.append op x y).op g.next = op := by rw [Graph.op, Graph.insts_append_self]
  have heval : ∀ i, i ≠ g.next → (g.append op x y).evalArg (update ν g.next w) i = g.evalArg ν i := fun i h => by
    funext k
    rw [Graph.evalArg, harg i h, eval_update (hw.knows i k), Graph.evalArg]
  have hevalself : (g.append op x y).evalArg (update ν g.next w) g.next = fun k => ν.eval
      (update (update (fun _ : Fin 5 => Value.void) 0 x) 1 y k) := by
    funext k
    rw [Graph.evalArg, Graph.arg, Graph.insts_append_self]
    exact args_cases (C := fun v => Valuation.eval (update ν g.next w) v = ν.eval v)
      (eval_update hx w) (eval_update hy w) rfl k
  constructor
  · intro i f hf
    by_cases h : i = g.next
    · subst h
      rw [hopself, hm] at hf
      cases hf
      rw [update_self, hevalself, hval]
    · rw [hop i h] at hf
      rw [update_of_ne h, heval i h]
      exact hc.meaning i f hf
  · intro i v hi hv
    by_cases h : i = g.next
    · subst h
      rw [update_self] at hv
      rw [hopself]
      exact hty v hv
    · rw [hop i h] at hi ⊢
      rw [update_of_ne h] at hv
      exact hc.typed i v hi hv
  · intro i j hi hj h0 h1
    have hne : ∀ i, (g.append op x y).op i = .getCbufU32 → i ≠ g.next := by
      rintro i hi rfl
      exact hcbuf (hopself.symm.trans hi)
    have hin := hne i hi
    have hjn := hne j hj
    rw [hop i hin] at hi
    rw [hop j hjn] at hj
    rw [harg i hin, harg j hjn] at h0 h1
    rw [update_of_ne hin, update_of_ne hjn]
    exact hc.cbuf i j hi hj h0 h1
  · intro z p b hz hp hb
    have hzn : z ≠ g.next := by
      rintro rfl
      rw [hopself, hs] at hz
      cases hz
    rw [hop z hzn] at hz hb
    rw [harg z hzn] at hp
    have hpn : p ≠ g.next := Nat.ne_of_lt (hw.created z 0 p hp)
    rw [hop p hpn, heval p hpn, update_of_ne hpn] at hb
    rw [update_of_ne hzn]
    exact hc.flags z p b hz hp hb

end Shader
end NXEmu
