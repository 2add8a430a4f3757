/-
# Packing shared memory

`src/yuzu_shader_recompiler/ir_opt/shared_memory_packing_pass.cpp`: a compute program that uses lanes
of 16 bytes in shared memory, of which the last four are padding, is made to fit by packing each lane
into 12 bytes.  That is done when the residues of all offsets show that no access touches the padding,
except for 128-bit loads whose fourth word nobody uses.

`tryPack_safe` says what this comes to in executions: no access leaves the first 12 bytes of its lane,
the bytes that are accessed stay apart, an access below the old size is below the new one, and an
execution in which the fourth words are zeros reads the same values everywhere else.
-/

import NXEmu.Shader.ResidueAnalyzer
import NXEmu.Shader.SharedLoadUses
import Mathlib.Data.Set.Function

namespace NXEmu
namespace Shader

open ResidueMask

namespace SsaOpcode

/-- `IsSharedAccess`. -/
def isSharedAccess : SsaOpcode → Bool
  | loadShared _ | writeShared _ | sharedAtomic _ => true
  | _ => false

/-- The bytes of an access to shared memory, of a 128-bit load without those of W. -/
def accessSize : SsaOpcode → ℕ
  | loadShared .u8 | loadShared .s8 | writeShared .u8 => 1
  | loadShared .u16 | loadShared .s16 | writeShared .u16 => 2
  | loadShared .u64 | writeShared .u64 => 8
  | sharedAtomic .exchange64 | sharedAtomic .exchange32x2 => 8
  | loadShared .u32 | writeShared .u32 | sharedAtomic _ => 4
  | loadShared .u128 => 12
  | writeShared .u128 => 16
  | _ => 0

end SsaOpcode

/-- `AccessFitsPackedLane`. -/
def accessFitsPackedLane (residues : ResidueMask) (accessSize : ℕ) : Bool :=
  residues ≠ 0#16 && (List.range 16).all fun residue =>
    if residues.Has (.ofNat 32 residue) then
      residue % accessSize = 0 ∧ residue + accessSize ≤ 12
    else true

/-- `PackedSize`: 12 bytes of each lane of 16, in whole words. -/
def packedSize (sourceSize : BitVec 32) : BitVec 32 :=
  let fullLanes := sourceSize / 16#32
  let tail := sourceSize % 16#32
  let bytes := fullLanes * 12#32 + if tail < 12#32 then tail else 12#32
  -- The SPIR-V backend allocates whole u32 words, including any partial tail.
  (bytes + 3#32) &&& ~~~3#32

/-- `EmitContext::RemapSharedMemoryOffset`, after packing. -/
def remapSharedMemoryOffset (offset : BitVec 32) : BitVec 32 := offset - ((offset >>> 4) <<< 2)

namespace Program

/-- `IsSafeAccess`: the access stays in the part of its lane that is kept, whatever its offset is. -/
def isSafeAccess (p : Program) (inst : ℕ) : Analysis Bool := do
  let offsetResidues ← p.graph.getResidues 129 (p.graph.arg inst 0)
  match p.graph.op inst with
  | .loadShared .u8 | .loadShared .s8 | .writeShared .u8 =>
    pure (accessFitsPackedLane offsetResidues 1)
  | .loadShared .u16 | .loadShared .s16 | .writeShared .u16 =>
    pure (accessFitsPackedLane offsetResidues 2)
  | .sharedAtomic .exchange64 => pure false
  | .loadShared .u64 | .writeShared .u64 | .sharedAtomic .exchange32x2 =>
    pure (accessFitsPackedLane offsetResidues 8)
  | .loadShared .u32 | .writeShared .u32 | .sharedAtomic _ =>
    pure (accessFitsPackedLane offsetResidues 4)
  | .loadShared .u128 =>
    if offsetResidues = residue 0 then StateT.lift (p.onlyUsesXYZ (p.graph.size + 1) [inst] [])
    else pure false
  | .writeShared .u128 => pure false
  | _ => pure false

/-- The loop over the instructions. -/
def allSafe (p : Program) : List ℕ → Analysis Bool
  | [] => pure true
  | inst :: insts => do
    if (p.graph.op inst).isSharedAccess then
      if ← p.isSafeAccess inst then p.allSafe insts else pure false
    else p.allSafe insts

/-- `TryPackSharedMemory16To12`: whether it packs, and the program it leaves. -/
def tryPack (p : Program) (maxSharedMemory : BitVec 32) : Option (Bool × Program) :=
  if p.stage ≠ .compute ∨ p.sharedMemorySize ≤ maxSharedMemory ∨ p.sharedMemory16To12Packing then
    some (false, p)
  else
    let packed := packedSize p.sharedMemorySize
    if p.sharedMemorySize ≤ packed ∨ maxSharedMemory < packed then some (false, p)
    else do
      let (safe, _) ← p.allSafe p.insts ResidueAnalyzer.initial
      if safe then
        some (true, { p with sharedMemorySize := packed, sharedMemory16To12Packing := true })
      else some (false, p)

/-- The masks that the analyzer computes for the accesses, in order. -/
def accessMasks (p : Program) : List ℕ → Analysis (List (ℕ × ResidueMask))
  | [] => pure []
  | inst :: insts =>
    if (p.graph.op inst).isSharedAccess then do
      let mask ← p.graph.getResidues 129 (p.graph.arg inst 0)
      let masks ← p.accessMasks insts
      pure ((inst, mask) :: masks)
    else p.accessMasks insts

/-- An access to shared memory at an offset, in an execution. -/
def Accesses (p : Program) (i : ℕ) (offset : BitVec 32) : Prop :=
  ∃ trace s e, p.Runs id trace s ∧ e ∈ trace ∧ e.inst = i ∧
    (p.graph.op i).isSharedAccess = true ∧ e.operands.head? = some (some (.word offset))

/-- A mask for which an access is safe. -/
def SafeMask (p : Program) (i : ℕ) (mask : ResidueMask) : Prop :=
  p.graph.op i ≠ .loadShared .u128 ∧
      accessFitsPackedLane mask (p.graph.op i).accessSize = true ∨
    p.graph.op i = .loadShared .u128 ∧ mask = residue 0 ∧
      p.onlyUsesXYZ (p.graph.size + 1) [i] [] = some true

/-- The bytes that are accessed in executions. -/
def accessedBytes (p : Program) : Set ℕ :=
  {b | ∃ i offset, p.Accesses i offset ∧ offset.toNat ≤ b ∧
    b < offset.toNat + (p.graph.op i).accessSize}

open SsaGraph

variable {p : Program} {i : ℕ} {mask : ResidueMask} {state : ResidueAnalyzer} {x : BitVec 32}

/-! ### What is checked -/

/-- **An access is checked** by the mask of its offset, which covers it. -/
theorem isSafeAccess_spec (hi : i ∈ p.insts) (hshared : (p.graph.op i).isSharedAccess = true)
    (hstate : p.graph.Analysed state) (hvisiting : state.visiting.length = 0) :
    Fueled.wp (p.isSafeAccess i) state fun safe state' =>
      p.graph.Analysed state' ∧ state'.visiting.length = 0 ∧ ∃ mask,
        p.graph.getResidues 129 (p.graph.arg i 0) state = some (mask, state') ∧
          p.graph.Covers (p.graph.arg i 0) mask ∧ (safe = true → p.SafeMask i mask) := by
  obtain ⟨mask, state', hrun, hstate', hvisiting', hcovers⟩ :=
    get_spec 129 0 (by decide) rfl (p.graph.arg i 0) state hstate hvisiting
  rw [← hvisiting'] at hvisiting
  unfold isSafeAccess
  refine (Fueled.wp_bind ..).2 ⟨mask, state', hrun, ?_⟩
  have hpure : ∀ size, p.graph.op i ≠ .loadShared .u128 → (p.graph.op i).accessSize = size →
      Fueled.wp (pure (accessFitsPackedLane mask size)) state' fun safe state'' =>
        p.graph.Analysed state'' ∧ state''.visiting.length = 0 ∧ ∃ mask,
          p.graph.getResidues 129 (p.graph.arg i 0) state = some (mask, state'') ∧
            p.graph.Covers (p.graph.arg i 0) mask ∧ (safe = true → p.SafeMask i mask) := by
    intro size hop hsize
    refine (Fueled.wp_pure ..).2
      ⟨hstate', hvisiting, mask, hrun, hcovers, fun hfits => .inl ⟨hop, ?_⟩⟩
    rwa [hsize]
  have hfalse : Fueled.wp (pure false) state' fun safe state'' =>
      p.graph.Analysed state'' ∧ state''.visiting.length = 0 ∧ ∃ mask,
        p.graph.getResidues 129 (p.graph.arg i 0) state = some (mask, state'') ∧
          p.graph.Covers (p.graph.arg i 0) mask ∧ (safe = true → p.SafeMask i mask) :=
    (Fueled.wp_pure ..).2 ⟨hstate', hvisiting, mask, hrun, hcovers, fun h => by cases h⟩
  cases hop : p.graph.op i with
  | loadShared read =>
    cases read with
    | u128 =>
      by_cases hzero : mask = residue 0
      · have hsome := p.onlyUsesXYZ_isSome (p.graph.size + 1) [i] [] List.nodup_nil (by simp)
          (fun v hv => List.mem_singleton.1 hv ▸ p.inst_lt i hi) (by simp)
        obtain ⟨only, honly⟩ := Option.isSome_iff_exists.1 hsome
        simp only [if_pos hzero, Fueled.wp_lift]
        refine ⟨only, honly, hstate', hvisiting, mask, hrun, hcovers, fun h => .inr ⟨hop, hzero, ?_⟩⟩
        rw [honly, h]
      · simp only [if_neg hzero]
        exact hfalse
    | _ => exact hpure _ (by simp [hop]) (by rw [hop]; rfl)
  | writeShared write =>
    cases write with
    | u128 => exact hfalse
    | _ => exact hpure _ (by simp [hop]) (by rw [hop]; rfl)
  | sharedAtomic atomic =>
    cases atomic with
    | exchange64 => exact hfalse
    | _ => exact hpure _ (by simp [hop]) (by rw [hop]; rfl)
  | _ => rw [hop] at hshared; cases hshared

/-- **The loop over the instructions** checks every access by the mask that the analyzer computes. -/
theorem allSafe_spec (insts : List ℕ) : ∀ state : ResidueAnalyzer, (∀ i ∈ insts, i ∈ p.insts) →
    p.graph.Analysed state → state.visiting.length = 0 →
    Fueled.wp (p.allSafe insts) state fun safe state' => safe = true →
      ∃ masks, p.accessMasks insts state = some (masks, state') ∧
        masks.map Prod.fst = insts.filter (fun i => (p.graph.op i).isSharedAccess) ∧
          ∀ m ∈ masks, p.graph.Covers (p.graph.arg m.1 0) m.2 ∧ p.SafeMask m.1 m.2 := by
  induction insts with
  | nil =>
    intro state _ _ _
    exact (Fueled.wp_pure ..).2 fun _ => ⟨[], rfl, rfl, nofun⟩
  | cons i insts ih =>
    intro state hinsts hstate hvisiting
    have hrest : ∀ i ∈ insts, i ∈ p.insts := fun i hi => hinsts i (List.mem_cons_of_mem _ hi)
    unfold allSafe accessMasks
    by_cases hshared : (p.graph.op i).isSharedAccess = true
    · have hfilter : (i :: insts).filter (fun i => (p.graph.op i).isSharedAccess) =
          i :: insts.filter (fun i => (p.graph.op i).isSharedAccess) := by simp [hshared]
      rw [if_pos hshared, if_pos hshared, Fueled.wp_bind, hfilter]
      refine Fueled.wp_mono (isSafeAccess_spec (hinsts i (List.mem_cons_self ..)) hshared hstate
        hvisiting) fun safe state' h => ?_
      obtain ⟨hstate', hvisiting', mask, hrun, hcovers, hsafe⟩ := h
      cases safe with
      | false => exact (Fueled.wp_pure ..).2 nofun
      | true =>
        refine Fueled.wp_mono (ih state' hrest hstate' hvisiting') fun safe' state'' h hsafe' => ?_
        obtain ⟨masks, hmasks, hmap, hall⟩ := h hsafe'
        refine ⟨(i, mask) :: masks, ?_, by rw [List.map_cons, hmap], ?_⟩
        · show (p.graph.getResidues 129 (p.graph.arg i 0) state).bind _ = _
          rw [hrun]
          show (p.accessMasks insts state').bind _ = _
          rw [hmasks]
          rfl
        · exact List.forall_mem_cons.2 ⟨⟨hcovers, hsafe rfl⟩, hall⟩
    · have hfilter : (i :: insts).filter (fun i => (p.graph.op i).isSharedAccess) =
          insts.filter (fun i => (p.graph.op i).isSharedAccess) := by simp [hshared]
      rw [if_neg hshared, if_neg hshared, hfilter]
      exact ih state hrest hstate hvisiting

/-! ### Packing -/

/-- Where a byte is after packing. -/
def packedOffset (b : ℕ) : ℕ := b / 16 * 12 + b % 16

/-- **Bytes in the first 12 of their lanes** stay apart. -/
theorem packedOffset_injOn : Set.InjOn packedOffset {b | b % 16 < 12} := by
  intro a ha b hb h
  replace ha : a % 16 < 12 := ha
  replace hb : b % 16 < 12 := hb
  unfold packedOffset at h
  omega

/-- The bytes of an access stay together. -/
theorem toNat_remap_add {offset : BitVec 32} {size k : ℕ} (hsize : offset.toNat % 16 + size ≤ 12) (hk : k < size) :
    (remapSharedMemoryOffset offset).toNat + k = packedOffset (offset.toNat + k) := by
  have hlt := offset.isLt
  have hlane : ((offset >>> 4) <<< 2).toNat = offset.toNat / 16 * 4 := by
    rw [BitVec.toNat_shiftLeft, BitVec.toNat_ushiftRight, Nat.shiftLeft_eq, Nat.shiftRight_eq_div_pow]
    omega
  unfold remapSharedMemoryOffset packedOffset
  rw [BitVec.toNat_sub, hlane]
  omega

theorem toNat_and_not_three (x : BitVec 32) : (x &&& ~~~3#32).toNat = x.toNat / 4 * 4 := by
  have hshift : x &&& ~~~3#32 = (x >>> 2) <<< 2 := by
    refine BitVec.eq_of_getLsbD_eq fun k hk => ?_
    rw [BitVec.getLsbD_and, BitVec.getLsbD_shiftLeft, BitVec.getLsbD_ushiftRight]
    by_cases hlow : k < 2
    · interval_cases k <;> simp
    · have hnot : (~~~3#32).getLsbD k = true := by
        interval_cases k <;> rfl
      rw [hnot, show 2 + (k - 2) = k by omega]
      simp [hlow, hk]
  have hlt := x.isLt
  rw [hshift, BitVec.toNat_shiftLeft, BitVec.toNat_ushiftRight, Nat.shiftLeft_eq, Nat.shiftRight_eq_div_pow]
  omega

/-- The packed size is in words. -/
theorem toNat_packedSize (sourceSize : BitVec 32) : (packedSize sourceSize).toNat =
    (sourceSize.toNat / 16 * 12 + min (sourceSize.toNat % 16) 12 + 3) / 4 * 4 := by
  have hlt := sourceSize.isLt
  have htail : (if sourceSize % 16#32 < 12#32 then sourceSize % 16#32 else 12#32).toNat =
      min (sourceSize.toNat % 16) 12 := by
    split
    · rename_i h
      rw [BitVec.lt_def, BitVec.toNat_umod] at h
      rw [BitVec.toNat_umod]
      exact (min_eq_left h.le).symm
    · rename_i h
      rw [BitVec.lt_def, BitVec.toNat_umod] at h
      exact (min_eq_right (not_lt.1 h)).symm
  unfold packedSize
  simp only
  rw [toNat_and_not_three, BitVec.toNat_add, BitVec.toNat_add, BitVec.toNat_mul, htail,
    BitVec.toNat_udiv, show (16#32).toNat = 16 from rfl, show (12#32).toNat = 12 from rfl,
    show (3#32).toNat = 3 from rfl]
  omega

/-- **An access below the old size** is below the packed one. -/
theorem toNat_remap_add_le {offset sourceSize : BitVec 32} {size : ℕ} (hpos : 0 < size)
    (hsize : offset.toNat % 16 + size ≤ 12) (hle : offset.toNat + size ≤ sourceSize.toNat) :
    (remapSharedMemoryOffset offset).toNat + size ≤ (packedSize sourceSize).toNat := by
  have hlast := toNat_remap_add hsize (Nat.sub_lt hpos Nat.one_pos)
  unfold packedOffset at hlast
  rw [toNat_packedSize]
  omega

/-- A mask that fits has only offsets that fit. -/
theorem mod_add_le_of_fits {size : ℕ} (h : accessFitsPackedLane mask size = true)
    (hx : mask.Has x) : x.toNat % 16 + size ≤ 12 := by
  have hall := (Bool.and_eq_true_iff.1 h).2
  have hresidue := List.all_eq_true.1 hall _ (mod_mem_range x)
  simp only [if_pos (has_ofNat_mod hx), decide_eq_true_eq] at hresidue
  exact hresidue.2

/-- **A safe access** is in the first 12 bytes of its lane. -/
theorem SafeMask.mod_add_le (h : p.SafeMask i mask) (hx : mask.Has x) :
    x.toNat % 16 + (p.graph.op i).accessSize ≤ 12 := by
  rcases h with ⟨-, h⟩ | ⟨hop, rfl, -⟩
  · exact mod_add_le_of_fits h hx
  · rw [has_iff, getLsbD_residue, decide_eq_true_eq] at hx
    rw [hop, hx]
    decide

/-! ### Executions -/

/-- The instruction of an event is in a block, and has read its operands at some time. -/
theorem mem_trace {trace : List ExecEvent} {s : ExecState} {e : ExecEvent} (h : p.Runs id trace s)
    (he : e ∈ trace) : e.inst ∈ p.insts ∧ ∃ trace s, p.graph.Runs id trace s ∧
      e.operands = p.graph.operandValues s e.inst := by
  obtain ⟨pre, post, rfl⟩ := List.append_of_mem he
  obtain ⟨m, m', a, hpre, hok, hstep, -⟩ := Traces.split h
  cases hstep with
  | execute hi hgives =>
    exact ⟨hok _ rfl, pre, m, Traces.mono hpre fun _ _ _ => trivial, rfl⟩

/-- The offset of an access is a value of its first operand. -/
theorem Accesses.takes {offset : BitVec 32} (h : p.Accesses i offset) :
    i ∈ p.insts ∧ (p.graph.op i).isSharedAccess = true ∧ p.graph.Takes (p.graph.arg i 0) (.word offset) := by
  obtain ⟨trace, s, e, hrun, he, rfl, hshared, hoffset⟩ := h
  obtain ⟨hmem, trace', s', hrun', hoperands⟩ := mem_trace hrun he
  refine ⟨hmem, hshared, trace', s', hrun', ?_⟩
  have hvalues : p.graph.operandValues s' e.inst = (p.graph.args e.inst).map s'.values.eval := by
    unfold operandValues
    cases hop : p.graph.op e.inst with
    | phi type => rw [hop] at hshared; exact absurd hshared nofun
    | _ => rfl
  rw [hoperands, hvalues] at hoffset
  unfold SsaGraph.arg SsaInst.arg
  unfold SsaGraph.args at hoffset
  cases hargs : (p.graph.insts e.inst).args with
  | nil => rw [hargs] at hoffset; exact absurd hoffset nofun
  | cons v args =>
    rw [hargs] at hoffset
    exact Option.some.inj hoffset

theorem accessSize_pos {op : SsaOpcode} (h : op.isSharedAccess = true) : 0 < op.accessSize := by
  cases op with
  | loadShared read => cases read <;> decide
  | writeShared write => cases write <;> decide
  | sharedAtomic atomic => cases atomic <;> decide
  | _ => exact absurd h nofun

/-- `TryPackSharedMemory16To12` returns. -/
theorem tryPack_isSome (p : Program) (maxSharedMemory : BitVec 32) :
    (p.tryPack maxSharedMemory).isSome = true := by
  obtain ⟨safe, state, hrun, -⟩ := allSafe_spec p.insts ResidueAnalyzer.initial (fun i hi => hi)
    Memo.sound_empty rfl
  unfold tryPack
  split
  · rfl
  simp only
  split
  · rfl
  rw [hrun]
  cases safe <;> rfl

/-- When it packs the masks of all accesses are safe. -/
theorem masks_of_tryPack {p' : Program} {maxSharedMemory : BitVec 32}
    (h : p.tryPack maxSharedMemory = some (true, p')) :
    p'.sharedMemorySize = packedSize p.sharedMemorySize ∧ ∃ masks state,
      p.accessMasks p.insts ResidueAnalyzer.initial = some (masks, state) ∧
        masks.map Prod.fst = p.insts.filter (fun i => (p.graph.op i).isSharedAccess) ∧
          ∀ m ∈ masks, p.graph.Covers (p.graph.arg m.1 0) m.2 ∧ p.SafeMask m.1 m.2 := by
  obtain ⟨safe, state, hrun, hsafe⟩ := allSafe_spec p.insts ResidueAnalyzer.initial
    (fun i hi => hi) Memo.sound_empty rfl
  unfold tryPack at h
  split at h
  · exact absurd (Prod.mk.inj (Option.some.inj h)).1 Bool.false_ne_true
  simp only at h
  split at h
  · exact absurd (Prod.mk.inj (Option.some.inj h)).1 Bool.false_ne_true
  rw [hrun] at h
  cases safe with
  | false => exact absurd (Prod.mk.inj (Option.some.inj h)).1 Bool.false_ne_true
  | true =>
    obtain rfl := (Prod.mk.inj (Option.some.inj h)).2
    obtain ⟨masks, hmasks⟩ := hsafe rfl
    exact ⟨rfl, masks, state, hmasks⟩

/-- **Packing is safe.**  The pass comes to an end.  When it packs a program, then in every execution
the offset of an access has its residue in the mask that the analyzer has computed, and the access is
in the first 12 bytes of its lane, where W of a 128-bit load does not count; its bytes stay together,
and below the packed size if they were below the size.  No two bytes that are accessed get to the same
place.  And W is not observed: an execution with a zero for every W executes the same instructions on
the same operands. -/
theorem tryPack_safe (p : Program) (maxSharedMemory : BitVec 32) :
    (p.tryPack maxSharedMemory).isSome = true ∧
    ∀ p', p.tryPack maxSharedMemory = some (true, p') →
      (∃ masks state, p.accessMasks p.insts ResidueAnalyzer.initial = some (masks, state) ∧
        masks.map Prod.fst = p.insts.filter (fun i => (p.graph.op i).isSharedAccess) ∧
          ∀ m ∈ masks, ∀ offset, p.Accesses m.1 offset → m.2.Has offset) ∧
      (∀ i offset, p.Accesses i offset →
        offset.toNat % 16 + (p.graph.op i).accessSize ≤ 12 ∧
        (∀ k < (p.graph.op i).accessSize,
          (remapSharedMemoryOffset offset).toNat + k = packedOffset (offset.toNat + k)) ∧
        (offset.toNat + (p.graph.op i).accessSize ≤ p.sharedMemorySize.toNat →
          (remapSharedMemoryOffset offset).toNat + (p.graph.op i).accessSize ≤
            p'.sharedMemorySize.toNat)) ∧
      Set.InjOn packedOffset p.accessedBytes ∧
      ∀ trace s, p.Runs id trace s → ∃ trace', p.Runs packedLoad trace' (p.dropState s) ∧
        List.Forall₂ p.SameButW trace trace' := by
  refine ⟨p.tryPack_isSome maxSharedMemory, fun p' h => ?_⟩
  obtain ⟨hsize, masks, state, hrun, hmap, hmasks⟩ := masks_of_tryPack h
  have hmask : ∀ i ∈ p.insts, (p.graph.op i).isSharedAccess = true →
      ∃ mask, (i, mask) ∈ masks := by
    intro i hi hshared
    have hmem : i ∈ masks.map Prod.fst := by
      rw [hmap]
      exact List.mem_filter.2 ⟨hi, hshared⟩
    obtain ⟨⟨i', mask⟩, hm, rfl⟩ := List.mem_map.1 hmem
    exact ⟨mask, hm⟩
  have hlane : ∀ i offset, p.Accesses i offset →
      offset.toNat % 16 + (p.graph.op i).accessSize ≤ 12 := by
    intro i offset haccess
    obtain ⟨hi, hshared, htakes⟩ := haccess.takes
    obtain ⟨mask, hm⟩ := hmask i hi hshared
    obtain ⟨hcovers, hsafe⟩ := hmasks _ hm
    exact hsafe.mod_add_le (hcovers offset htakes)
  have hloads : p.SafeLoads := by
    intro l hl hop
    obtain ⟨mask, hm⟩ := hmask l hl (by rw [hop]; rfl)
    have hid : p.graph.op l ≠ .identity := by rw [hop]; exact nofun
    rcases (hmasks _ hm).2 with ⟨hne, -⟩ | ⟨-, -, honly⟩
    · exact absurd hop hne
    · exact usesOk_of_onlyUsesXYZ (p.inst_lt l hl) hid honly
  refine ⟨⟨masks, state, hrun, hmap, fun m hm offset haccess => ?_⟩, ?_, ?_, ?_⟩
  · exact (hmasks m hm).1 offset haccess.takes.2.2
  · intro i offset haccess
    have hle := hlane i offset haccess
    refine ⟨hle, fun k hk => toNat_remap_add hle hk, fun hbelow => ?_⟩
    rw [hsize]
    exact toNat_remap_add_le (accessSize_pos haccess.takes.2.1) hle hbelow
  · refine packedOffset_injOn.mono ?_
    rintro b ⟨i, offset, haccess, hle, hlt⟩
    have := hlane i offset haccess
    show b % 16 < 12
    omega
  · exact fun trace s hruns => runs_drop hloads hruns

/-- The component of a vector that each invocation reads from its own lane. -/
def laneGraph : SsaGraph where
  insts
    | 0 => ⟨.other 0 .u32, [], 1⟩
    | 1 => ⟨.shiftLeftLogical32, [.inst 0, .imm (.u32 4)], 2⟩
    | 2 => ⟨.loadShared .u128, [.inst 1], 1⟩
    | 3 => ⟨.compositeExtractU32x4, [.inst 2, .imm (.u32 2)], 1⟩
    | _ => ⟨.writeShared .u32, [.inst 1, .inst 3], 0⟩
  size := 5
  arg_below := by decide
  identity_below := by decide
  word_args := by decide

/-- A program with 48 KiB of shared memory. -/
def laneProgram : Program where
  graph := laneGraph
  blocks := [[0, 1, 2, 3, 4]]
  stage := .compute
  sharedMemorySize := 0xc000
  sharedMemory16To12Packing := false
  inst_lt := by decide
  nodup := by decide
  useCount_eq := by decide

/-- The program fits into 40 KiB. -/
theorem tryPack_safe_laneProgram :
    (laneProgram.tryPack 0xa000).map (fun r => (r.1, r.2.sharedMemorySize)) = some (true, 0x9000) ∧
      Set.InjOn packedOffset laneProgram.accessedBytes := by
  have hrun : (laneProgram.tryPack 0xa000).map (fun r => (r.1, r.2.sharedMemorySize)) =
      some (true, 0x9000) := by decide
  obtain ⟨⟨packs, p'⟩, hpack, hresult⟩ := Option.map_eq_some_iff.1 hrun
  obtain rfl := (Prod.mk.inj hresult).1
  exact ⟨hrun, ((tryPack_safe laneProgram 0xa000).2 p' hpack).2.2.1⟩

end Program
end Shader
end NXEmu
