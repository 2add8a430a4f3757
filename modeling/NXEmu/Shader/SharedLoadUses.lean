/-
# The uses of 128-bit loads from shared memory

`src/yuzu_shader_recompiler/ir_opt/shared_memory_packing_pass.cpp`, `SharedLoadUses`: the W of a load
is never observed when all uses of the load, and of the identities of it, take another component.
Uses outside of the blocks are found by comparing with the number of uses.

`Program.runs_drop` says what not observing W means: an execution in which every such load has a zero
for W runs the same instructions and reads and gives the same values, except for the loads, their
identities and the vectors that components are taken from.
-/

import NXEmu.Shader.SsaExecution
import Mathlib.Data.List.Flatten
import Mathlib.Data.List.Perm.Subperm

namespace NXEmu
namespace Shader

open List Function

/-- `Stage`. -/
inductive Stage where
  | vertexB | tessellationControl | tessellationEval | geometry | fragment | compute | vertexA
deriving DecidableEq

namespace SsaGraph

/-- The direct uses of instruction `i` by some instructions, with the index of the operand.  An operand
that is an instruction is an identity or no immediate. -/
def directUses (g : SsaGraph) (users : List ℕ) (i : ℕ) : List (ℕ × ℕ) :=
  users.flatMap fun user =>
    ((g.args user).zipIdx.filter fun arg => arg.1 = .inst i).map fun arg => (user, arg.2)

/-- A use of a 128-bit load that does not need W. -/
def usesXYZ (g : SsaGraph) (use : ℕ × ℕ) : Bool :=
  if g.op use.1 = .identity ∧ use.2 = 0 then true
  else if g.op use.1 ≠ .compositeExtractU32x4 ∨ use.2 ≠ 0 then false
  else if !g.isImmediate (g.arg use.1 1) ∨ 3 ≤ (g.u32 (g.arg use.1 1)).toNat then false
  else true

/-- A use by an identity, whose own uses have to be looked at. -/
def isIdentityUse (g : SsaGraph) (use : ℕ × ℕ) : Bool := g.op use.1 = .identity ∧ use.2 = 0

end SsaGraph

/-- `IR::Program`. -/
structure Program where
  graph : SsaGraph
  blocks : List (List ℕ)
  stage : Stage
  sharedMemorySize : BitVec 32
  sharedMemory16To12Packing : Bool
  /-- The blocks are of instructions of the graph, each in one place. -/
  inst_lt : ∀ i ∈ blocks.flatten, i < graph.size
  nodup : blocks.flatten.Nodup
  /-- Instructions count their uses, by those outside of the blocks as well. -/
  useCount_eq : ∀ i < graph.size, graph.isImmediate (.inst i) = false →
    (graph.insts i).useCount = (graph.directUses (List.range graph.size) i).length

/-- `EmitLoadSharedU128`, after packing: W is zero. -/
def packedLoad : Val → Val
  | .composite element [x, y, z, _] => .composite element [x, y, z, .u32 0]
  | w => w

namespace Program

/-- The instructions of the blocks, in order. -/
def insts (p : Program) : List ℕ := p.blocks.flatten

/-- `SharedLoadUses::OnlyUsesXYZ`, for so many instructions; the last of `pending` comes first. -/
def onlyUsesXYZ (p : Program) : ℕ → List ℕ → List ℕ → Option Bool
  | _, [], _ => some true
  | 0, _ :: _, _ => none
  | fuel + 1, value :: pending, visited =>
    if value ∈ visited then some false
    else
      let uses := p.graph.directUses p.insts value
      -- Also reject uses outside program.blocks (including associated/pseudo uses).
      if uses.length ≠ (p.graph.insts value).useCount then some false
      else if uses.all p.graph.usesXYZ = false then some false
      else p.onlyUsesXYZ fuel (((uses.filter p.graph.isIdentityUse).map Prod.fst).reverse ++ pending)
        (value :: visited)

/-- The executions of the instructions in the blocks. -/
def Runs (p : Program) (load : Val → Val) : List ExecEvent → ExecState → Prop :=
  Traces (p.graph.Step load) (fun _ a => ∀ i, a = some i → i ∈ p.insts) ExecState.initial

end Program

/-! ### Uses -/

namespace SsaGraph

variable {g : SsaGraph} {users : List ℕ} {i user index : ℕ}

theorem mem_directUses :
    (user, index) ∈ g.directUses users i ↔ user ∈ users ∧ (g.args user)[index]? = some (.inst i) := by
  unfold directUses
  simp only [mem_flatMap, mem_map, mem_filter, decide_eq_true_eq, Prod.exists, Prod.mk.injEq, mem_zipIdx_iff_getElem?]
  constructor
  · rintro ⟨u, hu, v, k, ⟨hk, rfl⟩, rfl, rfl⟩
    exact ⟨hu, hk⟩
  · rintro ⟨hu, hk⟩
    exact ⟨user, hu, .inst i, index, ⟨hk, rfl⟩, rfl, rfl⟩

theorem usesXYZ_iff : g.usesXYZ (user, index) = true ↔
    index = 0 ∧ (g.op user = .identity ∨ g.op user = .compositeExtractU32x4 ∧
      g.isImmediate (g.arg user 1) = true ∧ (g.u32 (g.arg user 1)).toNat < 3) := by
  unfold usesXYZ
  by_cases hindex : index = 0 <;> by_cases hid : g.op user = .identity <;>
    by_cases hextract : g.op user = .compositeExtractU32x4 <;> simp_all

/-- An instruction whose value is a 128-bit load: the load and the identities of it. -/
def Carries (g : SsaGraph) (l i : ℕ) : Prop := i < g.size ∧ g.resolve (.inst i) = .inst l

/-- **Identities of a load** are found one use after the other. -/
theorem carries_induction {l : ℕ} {P : ℕ → Prop} (hl : P l)
    (identity : ∀ i j, i < g.size → g.op i = .identity → g.arg i 0 = .inst j → g.Carries l j → P j →
      P i) : ∀ i, g.Carries l i → P i := by
  rintro i ⟨hi, hres⟩
  refine resolve_induction (P := fun i => g.resolve (.inst i) = .inst l → P i) ?_ ?_ i hi hres
  · intro i hi hop hres
    rw [resolve_inst hi hop] at hres
    exact Value.inst.inj hres ▸ hl
  · intro i hi hop ih hres
    rw [resolve_identity hi hop] at hres
    cases ha : g.arg i 0 with
    | void => rw [ha, resolve_void] at hres; exact absurd hres nofun
    | imm c => rw [ha, resolve_imm] at hres; exact absurd hres nofun
    | inst j =>
      rw [ha] at hres
      exact identity i j hi hop ha ⟨lt_of_arg_eq hi ha, hres⟩ (ih j ha hres)

end SsaGraph

namespace Program

open SsaGraph

variable {p : Program} {l i v : ℕ}

/-- What is to be shown of the value of a load: every use of it takes a component. -/
def UsesOk (p : Program) (v : ℕ) : Prop :=
  ∀ user index, user < p.graph.size → (p.graph.args user)[index]? = some (.inst v) →
    p.graph.usesXYZ (user, index) = true

/-- **No use is outside of the blocks** when there are as many uses as are counted. -/
theorem mem_insts_of_use (hv : v < p.graph.size) (himm : p.graph.isImmediate (.inst v) = false)
    (hcount : (p.graph.directUses p.insts v).length = (p.graph.insts v).useCount) {user index : ℕ}
    (huser : user < p.graph.size) (huse : (p.graph.args user)[index]? = some (.inst v)) :
    user ∈ p.insts := by
  have hsub : p.insts ⊆ range p.graph.size := fun i hi => mem_range.2 (p.inst_lt i hi)
  obtain ⟨insts, hperm, hinsts⟩ := p.nodup.subperm hsub
  have hlength : (p.graph.directUses insts v).length = (p.graph.directUses p.insts v).length :=
    (hperm.flatMap_right _).length_eq
  have heq := (hinsts.flatMap _).eq_of_length
    (hlength.trans (hcount.trans (p.useCount_eq v hv himm)))
  have hmem : (user, index) ∈ p.graph.directUses insts v := by
    unfold directUses
    rw [heq]
    exact mem_directUses.2 ⟨mem_range.2 huser, huse⟩
  exact hperm.subset (mem_directUses.1 hmem).1

/-- The values of the load that have been looked at are fine, and so are their identities, or they
are pending. -/
def Checked (p : Program) (l : ℕ) (visited pending : List ℕ) : Prop :=
  (∀ v ∈ pending, p.graph.Carries l v) ∧ ∀ v ∈ visited, p.UsesOk v ∧
    ∀ i < p.graph.size, p.graph.op i = .identity → p.graph.arg i 0 = .inst v →
      i ∈ visited ∨ i ∈ pending

theorem getElem?_zero_of_arg {g : SsaGraph} {j : ℕ} (h : g.arg i 0 = .inst j) :
    (g.args i)[0]? = some (.inst j) := by
  unfold SsaGraph.arg SsaInst.arg at h
  unfold SsaGraph.args
  cases hargs : (g.insts i).args with
  | nil => rw [hargs] at h; exact absurd h nofun
  | cons a as => rw [hargs] at h; exact congrArg some h

/-- One more value has been looked at. -/
theorem Checked.step {visited pending : List ℕ} (h : p.Checked l visited (v :: pending))
    (hcount : (p.graph.directUses p.insts v).length = (p.graph.insts v).useCount)
    (hall : (p.graph.directUses p.insts v).all p.graph.usesXYZ = true) :
    p.Checked l (v :: visited)
      ((((p.graph.directUses p.insts v).filter p.graph.isIdentityUse).map Prod.fst).reverse ++ pending) := by
  obtain ⟨hcarries, hvisited⟩ := h
  obtain ⟨hv, hres⟩ := hcarries v (mem_cons_self ..)
  have himm : p.graph.isImmediate (.inst v) = false := isImmediate_eq_false_iff.2 ⟨l, hres⟩
  have hids : ∀ i, i ∈ ((p.graph.directUses p.insts v).filter p.graph.isIdentityUse).map Prod.fst ↔
      i ∈ p.insts ∧ p.graph.op i = .identity ∧ p.graph.arg i 0 = .inst v := by
    intro i
    simp only [mem_map, mem_filter, isIdentityUse, Bool.decide_and, Bool.and_eq_true,
      decide_eq_true_eq, Prod.exists, exists_and_right, exists_eq_right]
    constructor
    · rintro ⟨index, huse, hop, rfl⟩
      obtain ⟨hi, hget⟩ := mem_directUses.1 huse
      refine ⟨hi, hop, ?_⟩
      unfold SsaGraph.arg SsaInst.arg
      rw [getD_eq_getElem?_getD]
      exact congrArg (Option.getD · Value.void) hget
    · rintro ⟨hi, hop, harg⟩
      exact ⟨0, mem_directUses.2 ⟨hi, getElem?_zero_of_arg harg⟩, hop, rfl⟩
  constructor
  · intro i hi
    rcases mem_append.1 hi with hi | hi
    · obtain ⟨hi, hop, harg⟩ := (hids i).1 (mem_reverse.1 hi)
      have hlt := p.inst_lt i hi
      exact ⟨hlt, by rw [resolve_identity hlt hop, harg, hres]⟩
    · exact hcarries i (mem_cons_of_mem _ hi)
  · rw [forall_mem_cons]
    constructor
    · constructor
      · intro user index huser huse
        have hmem := mem_insts_of_use hv himm hcount huser huse
        exact all_eq_true.1 hall _ (mem_directUses.2 ⟨hmem, huse⟩)
      · intro i hi hop harg
        refine .inr (mem_append_left _ (mem_reverse.2 ((hids i).2 ⟨?_, hop, harg⟩)))
        exact mem_insts_of_use hv himm hcount hi (getElem?_zero_of_arg harg)
    · intro u hu
      obtain ⟨hok, hident⟩ := hvisited u hu
      refine ⟨hok, fun i hi hop harg => ?_⟩
      rcases hident i hi hop harg with h | h
      · exact .inl (mem_cons_of_mem _ h)
      · rcases mem_cons.1 h with rfl | h
        · exact .inl (mem_cons_self ..)
        · exact .inr (mem_append_right _ h)

/-- What is looked at in the end is closed under identities. -/
theorem exists_checked (fuel : ℕ) :
    ∀ pending visited, p.Checked l visited pending → p.onlyUsesXYZ fuel pending visited = some true →
      ∃ all, (∀ v ∈ visited, v ∈ all) ∧ (∀ v ∈ pending, v ∈ all) ∧ p.Checked l all [] := by
  induction fuel with
  | zero =>
    rintro (_ | ⟨v, pending⟩) visited h hrun
    · exact ⟨visited, fun v hv => hv, nofun, h⟩
    · exact absurd hrun nofun
  | succ fuel ih =>
    rintro (_ | ⟨v, pending⟩) visited h hrun
    · exact ⟨visited, fun v hv => hv, nofun, h⟩
    · unfold onlyUsesXYZ at hrun
      split at hrun
      · exact absurd hrun nofun
      simp only at hrun
      split at hrun
      · exact absurd hrun nofun
      split at hrun
      · exact absurd hrun nofun
      rename_i hcount hall
      obtain ⟨all, hvisited, hpending, hchecked⟩ :=
        ih _ _ (h.step (not_not.1 hcount) (by simpa using hall)) hrun
      refine ⟨all, fun u hu => hvisited u (mem_cons_of_mem _ hu), ?_, hchecked⟩
      rw [forall_mem_cons]
      exact ⟨hvisited v (mem_cons_self ..), fun u hu => hpending u (mem_append_right _ hu)⟩

/-- **Accepted loads are used without W**, through identities and by all instructions. -/
theorem usesOk_of_onlyUsesXYZ {fuel : ℕ} (hlt : l < p.graph.size) (hl : p.graph.op l ≠ .identity)
    (h : p.onlyUsesXYZ fuel [l] [] = some true) : ∀ i, p.graph.Carries l i → p.UsesOk i := by
  have hstart : p.Checked l [] [l] := by
    refine ⟨fun v hv => ?_, nofun⟩
    obtain rfl := mem_singleton.1 hv
    exact ⟨hlt, SsaGraph.resolve_inst hlt hl⟩
  obtain ⟨all, -, hpending, -, hall⟩ := exists_checked fuel [l] [] hstart h
  have hmem : ∀ i, p.graph.Carries l i → i ∈ all := by
    refine carries_induction (hpending l (mem_singleton_self l)) ?_
    intro i j hi hop harg _ hj
    exact ((hall j hj).2 i hi hop harg).resolve_right not_mem_nil
  exact fun i hi => (hall i (hmem i hi)).1

/-- **The search through the uses comes to an end**: each value is looked at once. -/
theorem onlyUsesXYZ_isSome (fuel : ℕ) : ∀ pending visited : List ℕ, visited.Nodup →
    (∀ v ∈ visited, v < p.graph.size) → (∀ v ∈ pending, v < p.graph.size) → p.graph.size + 1 ≤ fuel + visited.length →
    (p.onlyUsesXYZ fuel pending visited).isSome = true := by
  induction fuel with
  | zero =>
    intro pending visited hnodup hvisited hpending hfuel
    have hsub : visited ⊆ range p.graph.size := fun v hv => mem_range.2 (hvisited v hv)
    have hle := (hnodup.subperm hsub).length_le
    rw [length_range] at hle
    omega
  | succ fuel ih =>
    rintro (_ | ⟨v, pending⟩) visited hnodup hvisited hpending hfuel
    · rfl
    · unfold onlyUsesXYZ
      split
      · rfl
      simp only
      split
      · rfl
      split
      · rfl
      rename_i hnew _ _
      refine ih _ _ (nodup_cons.2 ⟨hnew, hnodup⟩) ?_ ?_ ?_
      · exact forall_mem_cons.2 ⟨hpending v (mem_cons_self ..), hvisited⟩
      · intro u hu
        rcases mem_append.1 hu with hu | hu
        · obtain ⟨⟨user, index⟩, huse, rfl⟩ := mem_map.1 (mem_reverse.1 hu)
          exact p.inst_lt _ (mem_directUses.1 (mem_filter.1 huse).1).1
        · exact hpending u (mem_cons_of_mem _ hu)
      · rw [length_cons]
        omega

/-! ### Executions without W -/

/-- Instruction `i` is a 128-bit load of the blocks or an identity of one. -/
def carriesLoad (p : Program) (i : ℕ) : Bool :=
  match p.graph.instRecursive (.inst i) with
  | some l => decide (l ∈ p.insts) && p.graph.op l = .loadShared .u128
  | none => false

/-- The value without W. -/
def dropValue (p : Program) (i : ℕ) (w : Val) : Val := if p.carriesLoad i then packedLoad w else w

/-- The values without W. -/
def dropValues (p : Program) (ν : Valuation) : Valuation := fun i => (ν i).map (p.dropValue i)

/-- The moment of an execution in which no W has been loaded. -/
def dropState (p : Program) (s : ExecState) : ExecState :=
  ⟨p.dropValues s.values, p.dropValues s.entry⟩

/-- The same but for W: the instruction reads the same operands, unless it is an identity or takes a
component, and its value is the same, that of a load but for W. -/
structure SameButW (p : Program) (e e' : ExecEvent) : Prop where
  inst : e'.inst = e.inst
  value : e'.value = p.dropValue e.inst e.value
  operands : p.graph.op e.inst ≠ .identity → p.graph.op e.inst ≠ .compositeExtractU32x4 →
    e'.operands = e.operands

/-- The W of the 128-bit loads of the blocks is not used. -/
def SafeLoads (p : Program) : Prop :=
  ∀ l ∈ p.insts, p.graph.op l = .loadShared .u128 → ∀ i, p.graph.Carries l i → p.UsesOk i

variable {trace : List ExecEvent} {s : ExecState} {w : Val} {ν : Valuation} {u : Value} {j : ℕ}

theorem carriesLoad_iff : p.carriesLoad i = true ↔
    ∃ l ∈ p.insts, p.graph.op l = .loadShared .u128 ∧ p.graph.resolve (.inst i) = .inst l := by
  unfold carriesLoad
  cases hinst : p.graph.instRecursive (.inst i) with
  | none =>
    simp only [Bool.false_eq_true, false_iff, not_exists, not_and]
    intro l _ _ hres
    rw [instRecursive_eq_some_iff.2 hres] at hinst
    exact absurd hinst nofun
  | some l =>
    have hres := instRecursive_eq_some_iff.1 hinst
    rw [Bool.and_eq_true, decide_eq_true_eq, decide_eq_true_eq]
    constructor
    · exact fun h => ⟨l, h.1, h.2, hres⟩
    · rintro ⟨l', hl', hop, hres'⟩
      obtain rfl := Value.inst.inj (hres.symm.trans hres')
      exact ⟨hl', hop⟩

/-- Of the instructions that are no identities only the loads have a W to lose. -/
theorem carriesLoad_eq_false (hi : i < p.graph.size) (hid : p.graph.op i ≠ .identity)
    (hload : p.graph.op i ≠ .loadShared .u128) : p.carriesLoad i = false := by
  rw [← Bool.not_eq_true, carriesLoad_iff]
  rintro ⟨l, -, hop, hres⟩
  rw [SsaGraph.resolve_inst hi hid] at hres
  exact hload (Value.inst.inj hres ▸ hop)

theorem carriesLoad_identity (hi : i < p.graph.size) (hid : p.graph.op i = .identity)
    (harg : p.graph.arg i 0 = .inst j) : p.carriesLoad i = p.carriesLoad j := by
  rw [Bool.eq_iff_iff, carriesLoad_iff, carriesLoad_iff, resolve_identity hi hid, harg]

/-- A value that is no load is the same without W. -/
theorem eval_dropValues (h : ∀ j, u = .inst j → p.carriesLoad j = false) :
    (p.dropValues ν).eval u = ν.eval u := by
  cases u with
  | void => rfl
  | imm c => rfl
  | inst j =>
    show (ν j).map (p.dropValue j) = ν j
    have hid : p.dropValue j = id := by
      funext w
      rw [dropValue, h j rfl]
      rfl
    rw [hid, Option.map_id, id]

theorem dropValues_update : p.dropValues (update ν i (some w)) =
    update (p.dropValues ν) i (some (p.dropValue i w)) := by
  funext k
  unfold dropValues
  by_cases hk : k = i
  · subst hk
    rw [update_self, update_self]
    rfl
  · rw [update_of_ne hk, update_of_ne hk]

section

variable (safe : p.SafeLoads) (hi : i < p.graph.size) (hid : p.graph.op i ≠ .identity)
  (hextract : p.graph.op i ≠ .compositeExtractU32x4)

include safe hi hid hextract

/-- Only identities and extracts use loads. -/
theorem carriesLoad_arg (hu : .inst j ∈ p.graph.args i) : p.carriesLoad j = false := by
  rw [← Bool.not_eq_true, carriesLoad_iff]
  rintro ⟨l, hl, hop, hres⟩
  obtain ⟨index, huse⟩ := mem_iff_getElem?.1 hu
  have hok := safe l hl hop j ⟨lt_of_mem_args hi hu, hres⟩ i index hi huse
  rcases (usesXYZ_iff.1 hok).2 with h | h
  · exact hid h
  · exact hextract h.1

/-- Other instructions read the same operands. -/
theorem eval_arg_dropValues (k : ℕ) :
    (p.dropValues ν).eval (p.graph.arg i k) = ν.eval (p.graph.arg i k) :=
  eval_dropValues fun _ hj => carriesLoad_arg safe hi hid hextract (mem_args_of_arg_eq hj)

theorem operandValues_dropState :
    p.graph.operandValues (p.dropState s) i = p.graph.operandValues s i := by
  have hmap : ∀ ν, (p.graph.args i).map (p.dropValues ν).eval = (p.graph.args i).map ν.eval := by
    intro ν
    refine map_congr_left fun v hv => eval_dropValues fun j hj => ?_
    subst hj
    exact carriesLoad_arg safe hi hid hextract hv
  unfold operandValues
  split
  · exact hmap s.entry
  · exact hmap s.values

theorem gives_other :
    p.graph.operands (p.dropState s).values i = p.graph.operands s.values i := by
  funext k
  exact eval_arg_dropValues safe hi hid hextract k

end

/-- **An instruction gives the same value without W**, or its own without W. -/
theorem gives_dropState (safe : p.SafeLoads) (hs : p.graph.Runs id trace s) (hi : i ∈ p.insts)
    (h : p.graph.Gives id s i w) :
    p.graph.Gives packedLoad (p.dropState s) i (p.dropValue i w) := by
  have hlt := p.inst_lt i hi
  by_cases hid : p.graph.op i = .identity
  · unfold Gives at h ⊢
    rw [hid] at h ⊢
    simp only at h ⊢
    cases harg : p.graph.arg i 0 with
    | void => rw [harg] at h; exact absurd h nofun
    | imm c =>
      rw [harg] at h
      have hcarries : p.carriesLoad i = false := by
        rw [← Bool.not_eq_true, carriesLoad_iff, resolve_identity hlt hid, harg, resolve_imm]
        exact fun ⟨_, _, _, hres⟩ => absurd hres nofun
      rw [dropValue, hcarries]
      exact h
    | inst j =>
      rw [harg] at h
      rw [dropValue, carriesLoad_identity hlt hid harg]
      exact congrArg (Option.map (p.dropValue j)) h
  by_cases hload : p.graph.op i = .loadShared .u128
  · have hcarries : p.carriesLoad i = true :=
      carriesLoad_iff.2 ⟨i, hi, hload, SsaGraph.resolve_inst hlt hid⟩
    unfold Gives at h ⊢
    rw [hload] at h ⊢
    obtain ⟨a, b, c, d, rfl⟩ := h
    refine ⟨a, b, c, d, ?_⟩
    rw [dropValue, if_pos hcarries]
    rfl
  have hsame : p.dropValue i w = w := by
    rw [dropValue, carriesLoad_eq_false hlt hid hload]
    rfl
  rw [hsame]
  by_cases hextract : p.graph.op i = .compositeExtractU32x4
  · unfold Gives at h ⊢
    rw [hextract] at h ⊢
    obtain ⟨elements, n, hvector, hindex, helement⟩ := h
    -- A load is only used as the vector, and then the index is below 3.
    have huse : ∀ j k, p.graph.arg i k = .inst j → p.carriesLoad j = true → k = 0 ∧ n.toNat < 3 := by
      intro j k harg hcarries
      obtain ⟨l, hl, hop, hres⟩ := carriesLoad_iff.1 hcarries
      have hget : (p.graph.args i)[k]? = some (.inst j) := by
        unfold SsaGraph.arg SsaInst.arg at harg
        rw [getD_eq_getElem?_getD] at harg
        cases hk : (p.graph.insts i).args[k]? with
        | none => rw [hk] at harg; exact absurd harg nofun
        | some v => rw [hk] at harg; exact hk.trans (congrArg some harg)
      have hok := usesXYZ_iff.1 (safe l hl hop j ⟨lt_of_arg_eq hlt harg, hres⟩ i k hlt hget)
      rw [hextract] at hok
      obtain ⟨hk, -, himm, hthree⟩ := hok.imp_right fun h => h.resolve_left nofun
      have hword := resolve_word_arg hlt (k := 1) (by rw [hextract]; decide) himm
      have htakes : p.graph.Takes (p.graph.arg i 1) (.word n) := ⟨trace, s, hs, hindex⟩
      have hres := htakes.resolve
      rw [hword] at hres
      have hn := Imm.u32.inj (Val.scalar.inj (takes_imm hres))
      exact ⟨hk, hn ▸ hthree⟩
    have hindex' : (p.dropState s).values.eval (p.graph.arg i 1) = some (.word n) := by
      refine (eval_dropValues fun j hj => ?_).trans hindex
      rw [← Bool.not_eq_true]
      exact fun hcarries => absurd (huse j 1 hj hcarries).1 Nat.one_ne_zero
    cases harg : p.graph.arg i 0 with
    | void => rw [harg] at hvector; exact absurd hvector nofun
    | imm c => rw [harg] at hvector; exact absurd hvector nofun
    | inst j =>
      rw [harg] at hvector
      have hvalue : (p.dropState s).values.eval (.inst j) = some (p.dropValue j (.composite .u32 elements)) :=
        congrArg (Option.map (p.dropValue j)) hvector
      by_cases hcarries : p.carriesLoad j = true
      · have hn := (huse j 0 harg hcarries).2
        rw [dropValue, if_pos hcarries] at hvalue
        rcases elements with _ | ⟨x, _ | ⟨y, _ | ⟨z, _ | ⟨t, _ | ⟨t', rest⟩⟩⟩⟩⟩
        iterate 4 exact ⟨_, n, hvalue, hindex', helement⟩
        · refine ⟨[x, y, z, .u32 0], n, hvalue, hindex', fun c hc => helement c ?_⟩
          rw [← hc]
          interval_cases n.toNat <;> rfl
        · exact ⟨_, n, hvalue, hindex', helement⟩
      · rw [dropValue, if_neg hcarries] at hvalue
        exact ⟨elements, n, hvalue, hindex', helement⟩
  have hoperands := gives_other (s := s) safe hlt hid hextract
  have heval := fun ν => eval_arg_dropValues (ν := ν) safe hlt hid hextract
  unfold Gives at h ⊢
  rw [hoperands]
  revert h
  cases hop : p.graph.op i with
  | identity => exact absurd hop hid
  | compositeExtractU32x4 => exact absurd hop hextract
  | phi type =>
    refine Or.imp_right fun h => ?_
    obtain ⟨v, hv, h⟩ := h
    refine ⟨v, hv, (eval_dropValues fun j hj => ?_).trans h⟩
    subst hj
    exact carriesLoad_arg safe hlt hid hextract hv
  | shiftLeftLogical32 =>
    rintro ⟨x, n, hx, hn, h⟩
    exact ⟨x, n, (heval _ 0).trans hx, (heval _ 1).trans hn, h⟩
  | loadShared read =>
    cases read with
    | u128 => exact absurd hop hload
    | _ => exact fun h => h
  | _ => exact fun h => h

/-- **W is not observed.**  An execution in which the 128-bit loads have a zero for W executes the same
instructions; it reads the same operands, but for identities and vectors that components are taken
from, and gives the same values, but for the loads and their identities. -/
theorem runs_drop (safe : p.SafeLoads) (h : p.Runs id trace s) :
    ∃ trace', p.Runs packedLoad trace' (p.dropState s) ∧ List.Forall₂ p.SameButW trace trace' := by
  induction h with
  | refl => exact ⟨[], .refl, .nil⟩
  | @step trace m s' e a hrun hok hstep ih =>
    obtain ⟨trace', hrun', hsame⟩ := ih
    have hruns : p.graph.Runs id trace m := Traces.mono hrun fun _ _ _ => trivial
    cases hstep with
    | enter => exact ⟨_, .step none hrun' nofun .enter, by simpa using hsame⟩
    | @execute i w hi hgives =>
      have hmem := hok i rfl
      have hnext : p.graph.Step packedLoad (p.dropState m) (some i)
          (p.dropState ⟨update m.values i (some w), m.entry⟩)
          (some ⟨i, p.graph.operandValues (p.dropState m) i, p.dropValue i w⟩) := by
        have hupdate : p.dropState ⟨update m.values i (some w), m.entry⟩ =
            ⟨update (p.dropState m).values i (some (p.dropValue i w)), (p.dropState m).entry⟩ :=
          congrArg (ExecState.mk · _) dropValues_update
        rw [hupdate]
        exact .execute hi (gives_dropState safe hruns hmem hgives)
      refine ⟨_, .step (some i) hrun' hok hnext, ?_⟩
      refine rel_append hsame (.cons ⟨rfl, rfl, fun hid hextract => ?_⟩ .nil)
      exact operandValues_dropState safe hi hid hextract

end Program
end Shader
end NXEmu
