/-
# The residues of addresses

`src/yuzu_shader_recompiler/ir_opt/shared_memory_packing_pass.cpp`, `ResidueAnalyzer`: the set of the
residues modulo 16 that the value of an instruction may have, as a mask of 16 bits.  The operands of
an instruction are analysed first, at most 128 deep; results are kept in a cache, and an instruction
that is still being analysed may have any residue.

Whatever the order of the questions, a mask has the residue of every value in every execution
(`get_spec`): the sets of values that executions give are closed under the operations of the analysis,
and a mask in the cache covers the values of its instruction.
-/

import NXEmu.Lib.Fueled
import NXEmu.Shader.SsaExecution

variable {operation : BitVec 32 → BitVec 32} {n : ℕ} {f : BitVec 32 → BitVec 32 → BitVec 32}

namespace NXEmu
namespace Shader

open BitVec

/-- `ResidueMask`. -/
abbrev ResidueMask : Type := BitVec 16

namespace ResidueMask

/-- `ALL_RESIDUES`. -/
def allResidues : ResidueMask := 0xffff

/-- `Residue`. -/
def residue (value : BitVec 32) : ResidueMask := (1#32 <<< (value &&& 15#32).toNat).setWidth 16

/-- A mask has the residue of a value. -/
def Has (mask : ResidueMask) (value : BitVec 32) : Prop := mask &&& residue value ≠ 0#16

instance (mask : ResidueMask) (value : BitVec 32) : Decidable (mask.Has value) :=
  inferInstanceAs (Decidable (_ ≠ _))

/-- Add to `result` the residues that the residues of `source` have after `operation`. -/
def mapResidues (source : ResidueMask) (operation : BitVec 32 → BitVec 32) (result : ResidueMask) :
    ResidueMask :=
  (List.range 16).foldl (fun result x =>
    if source.Has (.ofNat 32 x) then result ||| residue (operation (.ofNat 32 x)) else result) result

/-- `BinaryResidues`. -/
def binaryResidues (lhs rhs : ResidueMask) (operation : BitVec 32 → BitVec 32 → BitVec 32) :
    ResidueMask :=
  (List.range 16).foldl (fun result x =>
    if lhs.Has (.ofNat 32 x) then rhs.mapResidues (operation (.ofNat 32 x)) result else result) 0

variable {mask lhs rhs result : ResidueMask} {x y z : BitVec 32}

/-! ### Membership -/

theorem toNat_and_fifteen (x : BitVec 32) : (x &&& 15#32).toNat = x.toNat % 16 := by
  rw [toNat_and]
  exact Nat.and_two_pow_sub_one_eq_mod x.toNat 4

theorem getLsbD_residue (x : BitVec 32) (k : ℕ) :
    (residue x).getLsbD k = decide (k = x.toNat % 16) := by
  have hx : x.toNat % 16 < 16 := Nat.mod_lt _ (by decide)
  rw [residue, toNat_and_fifteen, getLsbD_setWidth, getLsbD_shiftLeft]
  simp only [getLsbD_one]
  by_cases h : k = x.toNat % 16
  · simp [h, hx]
    omega
  · simp [h]
    omega

/-- A mask has a residue when the bit of the residue is set. -/
theorem has_iff : mask.Has x ↔ mask.getLsbD (x.toNat % 16) = true := by
  unfold Has
  constructor
  · intro h
    by_contra hbit
    refine h (eq_of_getLsbD_eq fun k hk => ?_)
    rw [getLsbD_and, getLsbD_residue, getLsbD_zero]
    by_cases hkx : k = x.toNat % 16
    · rw [hkx]
      simpa using hbit
    · simp [hkx]
  · intro h hzero
    have hbit := congrArg (fun m : BitVec 16 => m.getLsbD (x.toNat % 16)) hzero
    simp [getLsbD_residue, h] at hbit

theorem has_congr (h : x.toNat % 16 = y.toNat % 16) (hx : mask.Has x) : mask.Has y := by
  rw [has_iff] at hx ⊢
  exact h ▸ hx

theorem has_allResidues (x : BitVec 32) : allResidues.Has x := by
  have hx : x.toNat % 16 < 16 := Nat.mod_lt _ (by decide)
  have hall : ∀ k < 16, allResidues.getLsbD k = true := by decide
  rw [has_iff]
  exact hall _ hx

theorem has_residue (x : BitVec 32) : (residue x).Has x := by
  rw [has_iff, getLsbD_residue, decide_eq_true rfl]

theorem has_or : (lhs ||| rhs).Has x ↔ lhs.Has x ∨ rhs.Has x := by
  simp [has_iff]

/-- The residues below 16 are those of a value. -/
theorem has_ofNat_mod (hx : mask.Has x) : mask.Has (.ofNat 32 (x.toNat % 16)) := by
  refine has_congr ?_ hx
  rw [toNat_ofNat]
  omega

/-! ### Operations -/

section

variable {α β : Type} {P : β → Prop} {f : β → α → β} (keep : ∀ r a, P r → P (f r a))

include keep

/-- What every step of a loop keeps holds in the end. -/
theorem foldl_keeps (l : List α) : ∀ r, P r → P (l.foldl f r) := by
  induction l with
  | nil => exact fun _ h => h
  | cons a l ih => exact fun r h => ih _ (keep r a h)

/-- What one step of a loop brings about and every step keeps holds in the end. -/
theorem foldl_of_mem {a : α} (set : ∀ r, P (f r a)) {l : List α} (ha : a ∈ l) : ∀ r, P (l.foldl f r) := by
  induction l with
  | nil => exact absurd ha List.not_mem_nil
  | cons b l ih =>
    intro r
    rcases List.mem_cons.1 ha with rfl | ha
    · exact foldl_keeps keep l _ (set r)
    · exact ih ha _

end

theorem mod_mem_range (x : BitVec 32) : x.toNat % 16 ∈ List.range 16 :=
  List.mem_range.2 (Nat.mod_lt _ (by decide))

/-- Residues that are there stay. -/
theorem has_mapResidues_of_has (h : result.Has z) :
    (mapResidues mask operation result).Has z := by
  refine foldl_keeps (P := fun r => Has r z) (fun r a hr => ?_) _ _ h
  split
  · exact has_or.2 (.inl hr)
  · exact hr

/-- The residue of a value becomes that of the operation. -/
theorem has_mapResidues (hx : mask.Has x) :
    (mapResidues mask operation result).Has (operation (.ofNat 32 (x.toNat % 16))) := by
  refine foldl_of_mem (P := fun r => Has r (operation (.ofNat 32 (x.toNat % 16))))
    (fun r a hr => ?_) (fun r => ?_) (mod_mem_range x) _
  · split
    · exact has_or.2 (.inl hr)
    · exact hr
  · rw [if_pos (has_ofNat_mod hx)]
    exact has_or.2 (.inr (has_residue _))

/-- The operations whose low bits come from the low bits of their operands. -/
def OfLowBits (operation : BitVec 32 → BitVec 32 → BitVec 32) : Prop :=
  ∀ x y, (operation (.ofNat 32 (x.toNat % 16)) (.ofNat 32 (y.toNat % 16))).toNat % 16 =
    (operation x y).toNat % 16

/-- **The mask of an operation covers its results.** -/
theorem has_binaryResidues {operation : BitVec 32 → BitVec 32 → BitVec 32}
    (hop : OfLowBits operation) (hx : lhs.Has x) (hy : rhs.Has y) :
    (binaryResidues lhs rhs operation).Has (operation x y) := by
  refine has_congr (hop x y) ?_
  refine foldl_of_mem (P := fun r => Has r
    (operation (.ofNat 32 (x.toNat % 16)) (.ofNat 32 (y.toNat % 16))))
    (fun r a hr => ?_) (fun r => ?_) (mod_mem_range x) _
  · split
    · exact has_mapResidues_of_has hr
    · exact hr
  · rw [if_pos (has_ofNat_mod hx)]
    exact has_mapResidues hy

theorem toNat_ofNat_mod (x : BitVec 32) : (BitVec.ofNat 32 (x.toNat % 16)).toNat = x.toNat % 16 := by
  rw [toNat_ofNat]
  omega

theorem ofLowBits_add : OfLowBits fun x y => x + y := by
  intro x y
  simp only [toNat_add, toNat_ofNat_mod]
  omega

theorem ofLowBits_sub : OfLowBits fun x y => x - y := by
  intro x y
  have hy := y.isLt
  simp only [toNat_sub, toNat_ofNat_mod]
  omega

theorem ofLowBits_mul : OfLowBits fun x y => x * y := by
  intro x y
  simp only [toNat_mul, toNat_ofNat_mod]
  rw [Nat.mod_mod_of_dvd _ (by decide), Nat.mod_mod_of_dvd _ (by decide), ← Nat.mul_mod]

theorem ofLowBits_and : OfLowBits fun x y => x &&& y := by
  intro x y
  simp only [toNat_and, toNat_ofNat_mod]
  rw [show 16 = 2 ^ 4 from rfl, ← Nat.and_mod_two_pow, Nat.mod_mod]

theorem ofLowBits_or : OfLowBits fun x y => x ||| y := by
  intro x y
  simp only [toNat_or, toNat_ofNat_mod]
  rw [show 16 = 2 ^ 4 from rfl, ← Nat.or_mod_two_pow, Nat.mod_mod]

theorem ofLowBits_xor : OfLowBits fun x y => x ^^^ y := by
  intro x y
  simp only [toNat_xor, toNat_ofNat_mod]
  rw [show 16 = 2 ^ 4 from rfl, ← Nat.xor_mod_two_pow, Nat.mod_mod]

/-- **The mask of a shift covers its results.** -/
theorem has_shiftResidues (hx : mask.Has x) :
    (mapResidues mask (fun x => x <<< n) 0).Has (x <<< n) := by
  refine has_congr ?_ (has_mapResidues hx)
  simp only [toNat_shiftLeft, toNat_ofNat_mod, Nat.shiftLeft_eq]
  rw [Nat.mod_mod_of_dvd _ (by decide), Nat.mod_mod_of_dvd _ (by decide), Nat.mod_mul_mod]

/-- A shift by four bits or more leaves no residue. -/
theorem has_residue_zero_shift (hn : 4 ≤ n) : (residue 0).Has (x <<< n) := by
  refine has_congr ?_ (has_residue 0)
  obtain ⟨m, rfl⟩ := Nat.exists_eq_add_of_le hn
  simp only [toNat_shiftLeft, Nat.shiftLeft_eq, Nat.pow_add]
  rw [Nat.mod_mod_of_dvd _ (by decide), Nat.mul_left_comm, Nat.mul_mod_right]
  rfl

end ResidueMask

open ResidueMask

/-- `ResidueAnalyzer`. -/
structure ResidueAnalyzer where
  cache : Memo ℕ ResidueMask
  visiting : List ℕ

/-- An analyzer that has not been asked. -/
def ResidueAnalyzer.initial : ResidueAnalyzer := ⟨Memo.empty, []⟩

abbrev Analysis : Type → Type := Fueled ResidueAnalyzer

namespace SsaGraph

/-! ### The analyzer -/

/-- The lambda `binary` of `Analyze`. -/
def binary (g : SsaGraph) (get : Value → Analysis ResidueMask) (inst : ℕ)
    (operation : BitVec 32 → BitVec 32 → BitVec 32) : Analysis ResidueMask := do
  let lhs ← get (g.arg inst 0)
  let rhs ← get (g.arg inst 1)
  pure (binaryResidues lhs rhs operation)

/-- The residues of the operands of a phi. -/
def unionResidues (get : Value → Analysis ResidueMask) :
    List Value → ResidueMask → Analysis ResidueMask
  | [], result => pure result
  | arg :: args, result => do
    let residues ← get arg
    unionResidues get args (result ||| residues)

/-- `Analyze`: the residues of an instruction, from those of its operands. -/
def analyze (g : SsaGraph) (get : Value → Analysis ResidueMask) (inst : ℕ) :
    Analysis ResidueMask :=
  match g.op inst with
  | .identity => get (g.arg inst 0)
  | .phi _ => if g.args inst = [] then pure allResidues else unionResidues get (g.args inst) 0
  | .selectU32 => do
    let lhs ← get (g.arg inst 1)
    let rhs ← get (g.arg inst 2)
    pure (lhs ||| rhs)
  | .iAdd32 => g.binary get inst fun x y => x + y
  | .iSub32 => g.binary get inst fun x y => x - y
  | .iMul32 => g.binary get inst fun x y => x * y
  | .bitwiseAnd32 => g.binary get inst fun x y => x &&& y
  | .bitwiseOr32 => g.binary get inst fun x y => x ||| y
  | .bitwiseXor32 => g.binary get inst fun x y => x ^^^ y
  | .shiftLeftLogical32 =>
    if !g.isImmediate (g.arg inst 1) then pure allResidues
    else
      let amount := (g.u32 (g.arg inst 1)).toNat
      if 32 ≤ amount then pure allResidues
      else if 4 ≤ amount then pure (residue 0)
      else do
        let source ← get (g.arg inst 0)
        pure (mapResidues source (fun x => x <<< amount) 0)
  -- Unknown sources are fine when a parent operation subsequently proves alignment.
  | _ => pure allResidues

/-- `Get`, to this depth of recursion. -/
def getResidues (g : SsaGraph) : ℕ → Value → Analysis ResidueMask
  | 0, _ => Fueled.exhausted
  | _ + 1, .void => pure allResidues
  | _ + 1, .imm c => pure (if c.type = .u32 then residue (g.u32 (.imm c)) else allResidues)
  | depth + 1, .inst inst => do
    if 128 ≤ (← get).visiting.length then pure allResidues
    else
      match (← get).cache inst with
      | some result => pure result
      | none =>
        -- Be deliberately conservative for loop-carried phi values.
        if inst ∈ (← get).visiting then pure allResidues
        else
          modify fun state => { state with visiting := inst :: state.visiting }
          let result ← g.analyze (g.getResidues depth) inst
          modify fun state =>
            { state with
              visiting := state.visiting.erase inst
              cache := state.cache.emplace inst result }
          pure result

/-! ### Masks cover values -/

/-- A mask has the residues of all the words that a value is in executions. -/
def Covers (g : SsaGraph) (v : Value) (mask : ResidueMask) : Prop :=
  ∀ x, g.Takes v (.word x) → mask.Has x

/-- The masks in the cache cover the values of their instructions. -/
def Analysed (g : SsaGraph) (state : ResidueAnalyzer) : Prop :=
  Memo.Sound (fun i mask => g.Covers (.inst i) mask) state.cache

/-- While `n` instructions are being analysed, an answer comes and covers its value. -/
def CoversWithin (g : SsaGraph) (n : ℕ) (get : Value → Analysis ResidueMask) : Prop :=
  ∀ v state, g.Analysed state → state.visiting.length = n →
    Fueled.wp (get v) state fun mask state' =>
      g.Analysed state' ∧ state'.visiting = state.visiting ∧ g.Covers v mask

variable {g : SsaGraph} {get : Value → Analysis ResidueMask} {state : ResidueAnalyzer}
  {i n : ℕ} {v : Value} {w : Val} {ν : Valuation} {x : BitVec 32}

theorem covers_allResidues : g.Covers v allResidues := fun x _ => has_allResidues x

theorem as_eq_some_iff : (w.as : Option (BitVec 32)) = some x ↔ w = .word x := by
  cases w with
  | scalar c =>
    rw [Val.as, ImmType.ofImm_eq_some]
    constructor
    · rintro rfl
      rfl
    · exact fun h => Val.scalar.inj h
  | composite element elements => exact ⟨nofun, nofun⟩

/-- The operands of an operation on words are words. -/
theorem evalBinary_eq_word (h : evalBinary f (g.operands ν i) = some (.word x)) :
    ∃ y z, ν.eval (g.arg i 0) = some (.word y) ∧ ν.eval (g.arg i 1) = some (.word z) ∧ x = f y z := by
  obtain ⟨y, hy, h⟩ := Option.bind_eq_some_iff.1 h
  obtain ⟨z, hz, h⟩ := Option.bind_eq_some_iff.1 h
  obtain ⟨y', hy', hy⟩ := Option.bind_eq_some_iff.1 hy
  obtain ⟨z', hz', hz⟩ := Option.bind_eq_some_iff.1 hz
  rw [as_eq_some_iff] at hy hz
  subst hy hz
  exact ⟨y, z, hy', hz', (Imm.u32.inj (Val.scalar.inj (Option.some.inj h))).symm⟩

/-- A select has the value of one of its operands. -/
theorem evalSelect_eq_some (h : evalSelect (g.operands ν i) = some w) :
    ν.eval (g.arg i 1) = some w ∨ ν.eval (g.arg i 2) = some w := by
  obtain ⟨cond, -, h⟩ := Option.bind_eq_some_iff.1 h
  cases cond with
  | true => exact .inl h
  | false => exact .inr h

section

variable (hget : g.CoversWithin n get)

include hget

/-- The answers for two operands cover both. -/
theorem two_spec (hstate : g.Analysed state)
    (hn : state.visiting.length = n) (u v : Value) {f : ResidueMask → ResidueMask → ResidueMask}
    {Q : ResidueMask → Prop} (hQ : ∀ lhs rhs, g.Covers u lhs → g.Covers v rhs → Q (f lhs rhs)) :
    Fueled.wp (do let lhs ← get u; let rhs ← get v; pure (f lhs rhs) : Analysis ResidueMask) state
      fun mask state' => g.Analysed state' ∧ state'.visiting = state.visiting ∧ Q mask := by
  rw [Fueled.wp_bind]
  refine Fueled.wp_mono (hget u state hstate hn) fun lhs state' h => ?_
  obtain ⟨hstate', hvisiting, hlhs⟩ := h
  rw [Fueled.wp_bind]
  refine Fueled.wp_mono (hget v state' hstate' (hvisiting ▸ hn)) fun rhs state'' h => ?_
  obtain ⟨hstate'', hvisiting', hrhs⟩ := h
  exact (Fueled.wp_pure ..).2 ⟨hstate'', hvisiting'.trans hvisiting, hQ lhs rhs hlhs hrhs⟩

/-- An operation on words whose low bits come from those of its operands. -/
theorem binary_spec (hstate : g.Analysed state) (hn : state.visiting.length = n)
    (hf : OfLowBits f) (hgives : ∀ s w, g.Gives id s i w → evalBinary f (g.operands s.values i) = some w) :
    Fueled.wp (g.binary get i f) state fun mask state' =>
      g.Analysed state' ∧ state'.visiting = state.visiting ∧ g.Covers (.inst i) mask := by
  refine two_spec hget hstate hn _ _ fun lhs rhs hlhs hrhs x hx => ?_
  obtain ⟨-, trace, s, hs, h⟩ := hx.gives
  obtain ⟨y, z, hy, hz, rfl⟩ := evalBinary_eq_word (hgives s _ h)
  exact has_binaryResidues hf (hlhs y ⟨trace, s, hs, hy⟩) (hrhs z ⟨trace, s, hs, hz⟩)

/-- The union over the operands of a phi covers each of them. -/
theorem unionResidues_spec (args : List Value) :
    ∀ (result : ResidueMask) (state : ResidueAnalyzer), g.Analysed state → state.visiting.length = n →
      Fueled.wp (unionResidues get args result) state fun mask state' =>
        g.Analysed state' ∧ state'.visiting = state.visiting ∧
          (∀ x, result.Has x → mask.Has x) ∧ ∀ v ∈ args, g.Covers v mask := by
  induction args with
  | nil =>
    intro result state hstate hn
    exact (Fueled.wp_pure ..).2 ⟨hstate, rfl, fun x hx => hx, nofun⟩
  | cons v args ih =>
    intro result state hstate hn
    unfold unionResidues
    rw [Fueled.wp_bind]
    refine Fueled.wp_mono (hget v state hstate hn) fun residues state' h => ?_
    obtain ⟨hstate', hvisiting, hv⟩ := h
    refine Fueled.wp_mono (ih _ state' hstate' (hvisiting ▸ hn)) fun mask state'' h => ?_
    obtain ⟨hstate'', hvisiting', hkeeps, hargs⟩ := h
    refine ⟨hstate'', hvisiting'.trans hvisiting, fun x hx => hkeeps x (has_or.2 (.inl hx)), ?_⟩
    rw [List.forall_mem_cons]
    exact ⟨fun x hx => hkeeps x (has_or.2 (.inr (hv x hx))), hargs⟩

/-- **The mask of an instruction covers its values** when those of its operands cover theirs. -/
theorem analyze_spec (hstate : g.Analysed state) (hn : state.visiting.length = n) (i : ℕ) :
    Fueled.wp (g.analyze get i) state fun mask state' =>
      g.Analysed state' ∧ state'.visiting = state.visiting ∧ g.Covers (.inst i) mask := by
  have hall : Fueled.wp (pure allResidues : Analysis ResidueMask) state fun mask state' =>
      g.Analysed state' ∧ state'.visiting = state.visiting ∧ g.Covers (.inst i) mask :=
    (Fueled.wp_pure ..).2 ⟨hstate, rfl, covers_allResidues⟩
  unfold analyze
  cases hop : g.op i with
  | identity =>
    refine Fueled.wp_mono (hget (g.arg i 0) state hstate hn) fun mask state' h => ?_
    obtain ⟨hstate', hvisiting, hmask⟩ := h
    refine ⟨hstate', hvisiting, fun x hx => ?_⟩
    obtain ⟨-, trace, s, hs, h⟩ := hx.gives
    rw [Gives, hop] at h
    exact hmask x ⟨trace, s, hs, h⟩
  | phi type =>
    by_cases hargs : g.args i = []
    · simp only [if_pos hargs]
      exact hall
    · simp only [if_neg hargs]
      refine Fueled.wp_mono (unionResidues_spec hget (g.args i) 0 state hstate hn)
        fun mask state' h => ?_
      obtain ⟨hstate', hvisiting, -, hmask⟩ := h
      refine ⟨hstate', hvisiting, fun x hx => ?_⟩
      obtain ⟨-, trace, s, hs, h⟩ := hx.gives
      rw [Gives, hop] at h
      obtain ⟨v, hv, h⟩ := h.resolve_left hargs
      exact hmask v hv x (takes_of_entry hs v _ h)
  | selectU32 =>
    refine two_spec hget hstate hn _ _ fun lhs rhs hlhs hrhs x hx => ?_
    obtain ⟨-, trace, s, hs, h⟩ := hx.gives
    rw [Gives, hop] at h
    rcases evalSelect_eq_some h with h | h
    · exact has_or.2 (.inl (hlhs x ⟨trace, s, hs, h⟩))
    · exact has_or.2 (.inr (hrhs x ⟨trace, s, hs, h⟩))
  | iAdd32 =>
    exact binary_spec hget hstate hn ofLowBits_add fun s w h => by rwa [Gives, hop] at h
  | iSub32 =>
    exact binary_spec hget hstate hn ofLowBits_sub fun s w h => by rwa [Gives, hop] at h
  | iMul32 =>
    exact binary_spec hget hstate hn ofLowBits_mul fun s w h => by rwa [Gives, hop] at h
  | bitwiseAnd32 =>
    exact binary_spec hget hstate hn ofLowBits_and fun s w h => by rwa [Gives, hop] at h
  | bitwiseOr32 =>
    exact binary_spec hget hstate hn ofLowBits_or fun s w h => by rwa [Gives, hop] at h
  | bitwiseXor32 =>
    exact binary_spec hget hstate hn ofLowBits_xor fun s w h => by rwa [Gives, hop] at h
  | shiftLeftLogical32 =>
    by_cases himm : g.isImmediate (g.arg i 1) = true
    · -- The amount is the word that the second operand always is.
      have hshift : ∀ x, g.Takes (.inst i) (.word x) → ∃ y, g.Takes (g.arg i 0) (.word y) ∧
          ((g.u32 (g.arg i 1)).toNat < 32 → x = y <<< (g.u32 (g.arg i 1)).toNat) := by
        intro x hx
        obtain ⟨hi, trace, s, hs, h⟩ := hx.gives
        rw [Gives, hop] at h
        obtain ⟨y, m, hy, hm, h⟩ := h
        have hword := resolve_word_arg hi (k := 1) (by rw [hop]; decide) himm
        have htakes : g.Takes (g.arg i 1) (.word m) := ⟨trace, s, hs, hm⟩
        have hres := htakes.resolve
        rw [hword] at hres
        obtain rfl := Imm.u32.inj (Val.scalar.inj (takes_imm hres))
        exact ⟨y, ⟨trace, s, hs, hy⟩, fun hlt => Imm.u32.inj (Val.scalar.inj (h hlt))⟩
      simp only [himm, Bool.not_true, Bool.false_eq_true, if_false]
      by_cases hwide : 32 ≤ (g.u32 (g.arg i 1)).toNat
      · rw [if_pos hwide]
        exact hall
      · rw [if_neg hwide]
        by_cases hfour : 4 ≤ (g.u32 (g.arg i 1)).toNat
        · rw [if_pos hfour]
          refine (Fueled.wp_pure ..).2 ⟨hstate, rfl, fun x hx => ?_⟩
          obtain ⟨y, -, h⟩ := hshift x hx
          rw [h (not_le.1 hwide)]
          exact has_residue_zero_shift hfour
        · rw [if_neg hfour, Fueled.wp_bind]
          refine Fueled.wp_mono (hget (g.arg i 0) state hstate hn) fun source state' h => ?_
          obtain ⟨hstate', hvisiting, hsource⟩ := h
          refine (Fueled.wp_pure ..).2 ⟨hstate', hvisiting, fun x hx => ?_⟩
          obtain ⟨y, hy, h⟩ := hshift x hx
          rw [h (not_le.1 hwide)]
          exact has_shiftResidues (hsource y hy)
    · rw [Bool.not_eq_true] at himm
      simp only [himm, Bool.not_false, if_true]
      exact hall
  | _ => exact hall

end

/-- **Every answer covers its value**, however deep it is asked for and whatever is in the cache. -/
theorem get_spec (depth : ℕ) :
    ∀ n ≤ 128, n + depth = 129 → g.CoversWithin n (g.getResidues depth) := by
  induction depth with
  | zero => intro n hn h; omega
  | succ depth ih =>
    intro n hn h v state hstate hvisiting
    cases v with
    | void => exact (Fueled.wp_pure ..).2 ⟨hstate, rfl, covers_allResidues⟩
    | imm c =>
      refine (Fueled.wp_pure ..).2 ⟨hstate, rfl, fun x hx => ?_⟩
      obtain rfl := Val.scalar.inj (takes_imm hx)
      have htype : (Imm.u32 x).type = .u32 := rfl
      rw [if_pos htype, u32, resolve_imm]
      exact has_residue x
    | inst i =>
      unfold getResidues
      rw [Fueled.wp_bind, Fueled.wp_get]
      by_cases hdeep : 128 ≤ state.visiting.length
      · rw [if_pos hdeep]
        exact (Fueled.wp_pure ..).2 ⟨hstate, rfl, covers_allResidues⟩
      · rw [if_neg hdeep, Fueled.wp_bind, Fueled.wp_get]
        cases hcached : state.cache i with
        | some mask => exact (Fueled.wp_pure ..).2 ⟨hstate, rfl, hstate i mask hcached⟩
        | none =>
          simp only [Fueled.wp_bind, Fueled.wp_get]
          by_cases hcyclic : i ∈ state.visiting
          · rw [if_pos hcyclic]
            exact (Fueled.wp_pure ..).2 ⟨hstate, rfl, covers_allResidues⟩
          · rw [if_neg hcyclic]
            simp only [Fueled.wp_bind, Fueled.wp_modify, Fueled.wp_pure]
            have hdeeper : ({ state with visiting := i :: state.visiting } :
                ResidueAnalyzer).visiting.length = n + 1 := by simp [hvisiting]
            have hanalysed : g.Analysed { state with visiting := i :: state.visiting } := hstate
            refine Fueled.wp_mono (analyze_spec (ih (n + 1) (by omega) (by omega)) hanalysed hdeeper i)
              fun mask state' h => ?_
            obtain ⟨hstate', hvisiting', hmask⟩ := h
            exact ⟨hstate'.emplace hmask, by simp [hvisiting'], hmask⟩

end SsaGraph
end Shader
end NXEmu
