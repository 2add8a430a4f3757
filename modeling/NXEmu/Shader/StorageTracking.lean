/-
# The base of a storage buffer pointer

`src/yuzu_shader_recompiler/ir_opt/global_memory_to_storage_buffer_pass.cpp`: the pointer of a global
memory instruction is followed backwards to the word of a constant buffer that it is made of.  The
search is breadth first.  At a select or a phi it is started anew for each input, with a table of
the merges that have been settled and a set of those that are being settled, of which there are 64 at
most.

`Tracks` says what a base of a value is without an order of search: a merge has the base that all its
inputs have, copies of a phi itself aside, and no base is behind a load.  The search comes to an end,
and what it finds is a base in this sense (`track_chain`).
-/

import NXEmu.Lib.Fueled
import NXEmu.Shader.SsaGraph
import Mathlib.Data.List.Basic
import Mathlib.Data.Finset.Range
import Mathlib.Data.Finset.Card

variable {op : SsaOpcode} {fuel : ℕ} {queue : SearchQueue}

namespace NXEmu
namespace Shader

open List

/-- `StorageBufferAddr`: address in constant buffers to the storage buffer descriptor. -/
structure StorageBufferAddr where
  index : BitVec 32
  offset : BitVec 32
deriving DecidableEq

/-- `Bias` towards a certain range of constant buffers. -/
structure Bias where
  index : BitVec 32
  offsetBegin : BitVec 32
  offsetEnd : BitVec 32
  alignment : BitVec 32

/-- `MeetsBias`. -/
def meetsBias (storageBuffer : StorageBufferAddr) (bias : Bias) : Bool :=
  storageBuffer.index = bias.index && bias.offsetBegin ≤ storageBuffer.offset &&
    storageBuffer.offset < bias.offsetEnd

/-- `Common::IsAligned`. -/
def isAligned (value alignment : BitVec 32) : Bool := value &&& (alignment - 1) = 0

namespace SsaOpcode

/-- `IsIndirectPointerLoad`. -/
def isIndirectPointerLoad : SsaOpcode → Bool
  | loadGlobal _ | loadStorage _ | loadShared _ | loadLocal => true
  | getCbuf .u8 | getCbuf .s8 | getCbuf .u16 | getCbuf .s16 | getCbuf .f32 => true
  | _ => false

/-- The reads of constant buffers that may be descriptors. -/
def isDescriptorRead : SsaOpcode → Bool
  | getCbuf .u32 | getCbuf .u32x2 => true
  | _ => false

/-- The loads from memory and from constant buffers. -/
def isLoad : SsaOpcode → Bool
  | loadGlobal _ | loadStorage _ | loadShared _ | loadLocal | getCbuf _ => true
  | _ => false

/-- `SelectU32` and `Phi`. -/
def isMerge : SsaOpcode → Bool
  | selectU32 | phi _ => true
  | _ => false

/-- `Phi`. -/
def isPhi : SsaOpcode → Bool
  | phi _ => true
  | _ => false

/-- The search stops at every load. -/
theorem isLoad_iff :
    op.isLoad = true ↔ op.isIndirectPointerLoad = true ∨ op.isDescriptorRead = true := by
  cases op with
  | getCbuf read => cases read <;> simp [isLoad, isIndirectPointerLoad, isDescriptorRead]
  | _ => simp [isLoad, isIndirectPointerLoad, isDescriptorRead]

end SsaOpcode

/-- `TrackingState`, and what `indirect_pointer` points to. -/
structure TrackingState where
  selections : Memo ℕ (Option StorageBufferAddr)
  active : List ℕ
  indirectPointer : Bool

/-- The state that `Track` begins with. -/
def TrackingState.initial : TrackingState := ⟨Memo.empty, [], false⟩

abbrev Tracking : Type → Type := Fueled TrackingState

/-- The instructions that a search has met and those that it has not looked at. -/
structure SearchQueue where
  visited : List ℕ
  pending : List ℕ

namespace SsaGraph

/-! ### The search -/

/-- `pred`: the base that an instruction reads. -/
def storageBase (g : SsaGraph) (bias : Option Bias) (inst : ℕ) : Option StorageBufferAddr :=
  if !(g.op inst).isDescriptorRead then none
  else if !g.isImmediate (g.arg inst 0) then none
  else if !g.isImmediate (g.arg inst 1) then none
  else
    let storageBuffer : StorageBufferAddr := ⟨g.u32 (g.arg inst 0), g.u32 (g.arg inst 1)⟩
    if !isAligned storageBuffer.offset (bias.elim 8 Bias.alignment) then none
    else if bias.any fun bias => !meetsBias storageBuffer bias then none
    else some storageBuffer

/-- `enqueue`. -/
def enqueue (g : SsaGraph) (queue : SearchQueue) (arg : Value) : SearchQueue :=
  match g.instRecursive arg with
  | none => queue
  | some inst =>
    if inst ∈ queue.visited then queue
    else ⟨queue.visited ++ [inst], queue.pending ++ [inst]⟩

/-- The inputs of a merge: of a select not its condition. -/
def incoming (g : SsaGraph) (inst : ℕ) : List Value :=
  if g.op inst = .selectU32 then (g.args inst).drop 1 else g.args inst

/-- An identity copy of this exact phi. -/
def isSelf (g : SsaGraph) (inst : ℕ) (incoming : Value) : Bool :=
  (g.op inst).isPhi && g.instRecursive incoming == some inst

/-- The base that the inputs of a merge share, nothing on a mismatch. -/
def common (g : SsaGraph) (track : Value → Tracking (Option StorageBufferAddr)) (inst : ℕ) :
    List Value → Option StorageBufferAddr → Tracking (Option StorageBufferAddr)
  | [], common => pure common
  | incoming :: args, common =>
    if g.isSelf inst incoming then g.common track inst args common
    else do
      let branch ← track incoming
      if branch = none ∨ (common ≠ none ∧ common ≠ branch) then pure none
      else g.common track inst args branch

/-- What is known of a select or a phi when the search gets there. -/
def selection (g : SsaGraph) (track : Value → Tracking (Option StorageBufferAddr)) (inst : ℕ) :
    Tracking (Option StorageBufferAddr) := do
  match (← get).selections inst with
  | some cached => pure cached
  | none =>
    -- Cyclic/very deep SSA merges remain on the global-memory path.
    if 64 ≤ (← get).active.length ∨ inst ∈ (← get).active then pure none
    else
      modify fun state => { state with active := inst :: state.active }
      let result ← g.common track inst (g.incoming inst) none
      modify fun state =>
        { state with
          active := state.active.erase inst
          selections := state.selections.emplace inst result }
      pure ((← get).selections inst).join

/-- The loop of `TrackImpl`, for so many instructions. -/
def search (g : SsaGraph) (bias : Option Bias)
    (track : Value → Tracking (Option StorageBufferAddr)) :
    ℕ → SearchQueue → Tracking (Option StorageBufferAddr)
  | _, ⟨_, []⟩ => pure none
  | 0, _ => Fueled.exhausted
  | fuel + 1, ⟨visited, inst :: pending⟩ =>
    if g.storageBase bias inst ≠ none then pure (g.storageBase bias inst)
    else if (g.op inst).isMerge then do
      match ← g.selection track inst with
      | some base => pure (some base)
      | none =>
        modify fun state => { state with indirectPointer := true }
        -- A separate additive base may still be present in the pending queue.
        g.search bias track fuel ⟨visited, pending⟩
    else if (g.op inst).isIndirectPointerLoad then do
      modify fun state => { state with indirectPointer := true }
      g.search bias track fuel ⟨visited, pending⟩
    else if (g.op inst).isDescriptorRead then g.search bias track fuel ⟨visited, pending⟩
    else g.search bias track fuel ((g.args inst).reverse.foldl g.enqueue ⟨visited, pending⟩)

/-- `TrackImpl`, to this depth of recursion. -/
def trackImpl (g : SsaGraph) (bias : Option Bias) :
    ℕ → Value → Tracking (Option StorageBufferAddr)
  | 0, _ => Fueled.exhausted
  | depth + 1, value =>
    if g.isImmediate value then pure none
    else g.search bias (g.trackImpl bias depth) g.size (g.enqueue ⟨[], []⟩ value)

/-- `Track`, with `indirect_pointer`: nothing when the search has not come to its end after 65
searches inside one another, each of as many instructions as there are. -/
def track (g : SsaGraph) (value : Value) (bias : Option Bias) :
    Option (Option StorageBufferAddr × Bool) :=
  (g.trackImpl bias 65 value TrackingState.initial).map fun r => (r.1, r.2.indirectPointer)

/-! ### Bases -/

/-- Instruction `i` reads the word of a constant buffer at the address `base`. -/
structure Reads (g : SsaGraph) (bias : Option Bias) (i : ℕ) (base : StorageBufferAddr) : Prop where
  op : g.op i = .getCbuf .u32 ∨ g.op i = .getCbuf .u32x2
  index : g.resolve (g.arg i 0) = .imm (.u32 base.index)
  offset : g.resolve (g.arg i 1) = .imm (.u32 base.offset)
  aligned : isAligned base.offset (bias.elim 8 Bias.alignment) = true
  inBias : ∀ range, bias = some range → meetsBias base range = true

/-- The operands that a pointer may come from: of a merge the inputs that are not copies of itself. -/
def pointerArgs (g : SsaGraph) (i : ℕ) : List Value :=
  if (g.op i).isMerge then (g.incoming i).filter fun v => !g.isSelf i v else g.args i

/-- A value tracks to a base. -/
inductive Tracks (g : SsaGraph) (bias : Option Bias) (base : StorageBufferAddr) : Value → Prop
  | read {v : Value} {i : ℕ} (hv : g.resolve v = .inst i) (h : g.Reads bias i base) :
    Tracks g bias base v
  | merge {v u : Value} {i : ℕ} (hv : g.resolve v = .inst i) (hi : (g.op i).isMerge = true)
    (hu : u ∈ g.pointerArgs i) (h : ∀ w ∈ g.pointerArgs i, Tracks g bias base w) :
    Tracks g bias base v
  | operand {v u : Value} {i : ℕ} (hv : g.resolve v = .inst i) (hi : (g.op i).isMerge = false)
    (hload : (g.op i).isIndirectPointerLoad = false) (hread : (g.op i).isDescriptorRead = false)
    (hu : u ∈ g.pointerArgs i) (h : Tracks g bias base u) : Tracks g bias base v

variable {g : SsaGraph} {bias : Option Bias} {base b : StorageBufferAddr} {i j n : ℕ} {u v : Value}

theorem isMerge_of_isDescriptorRead (h : op.isDescriptorRead = true) :
    op.isMerge = false ∧ op.isIndirectPointerLoad = false ∧ op ≠ .identity := by
  cases op with
  | getCbuf read => cases read <;> first | exact ⟨rfl, rfl, nofun⟩ | exact absurd h nofun
  | _ => exact absurd h nofun

theorem isMerge_of_isIndirectPointerLoad (h : op.isIndirectPointerLoad = true) :
    op.isMerge = false ∧ op.isDescriptorRead = false := by
  cases op with
  | getCbuf read => cases read <;> first | exact ⟨rfl, rfl⟩ | exact absurd h nofun
  | loadGlobal _ | loadStorage _ | loadShared _ | loadLocal => exact ⟨rfl, rfl⟩
  | _ => exact absurd h nofun

theorem isDescriptorRead_iff :
    op.isDescriptorRead = true ↔ op = .getCbuf .u32 ∨ op = .getCbuf .u32x2 := by
  cases op with
  | getCbuf read => cases read <;> simp [SsaOpcode.isDescriptorRead]
  | _ => simp [SsaOpcode.isDescriptorRead]

/-- **The bases that the search looks for** are the words that are read. -/
theorem storageBase_eq_some_iff (hi : i < g.size) :
    g.storageBase bias i = some base ↔ g.Reads bias i base := by
  have hword : ∀ k, k = 0 ∨ k = 1 → (g.op i).isDescriptorRead = true → g.isImmediate (g.arg i k) = true →
      g.resolve (g.arg i k) = .imm (.u32 (g.u32 (g.arg i k))) := by
    intro k hk hop himm
    refine resolve_word_arg hi ?_ himm
    rcases isDescriptorRead_iff.1 hop with h | h <;> rw [h] <;> simpa [SsaOpcode.wordArgs] using hk
  constructor
  · intro h
    unfold storageBase at h
    simp only [Bool.not_eq_true'] at h
    split at h
    · exact absurd h nofun
    split at h
    · exact absurd h nofun
    split at h
    · exact absurd h nofun
    split at h
    · exact absurd h nofun
    split at h
    · exact absurd h nofun
    rename_i hop hindex hoffset haligned hbias
    rw [Bool.not_eq_false] at hop hindex hoffset haligned
    obtain rfl := Option.some.inj h
    exact ⟨isDescriptorRead_iff.1 hop, hword 0 (.inl rfl) hop hindex, hword 1 (.inr rfl) hop hoffset,
      haligned, fun range hrange => by subst hrange; simpa using hbias⟩
  · intro h
    have hindex : g.isImmediate (g.arg i 0) = true := by unfold isImmediate; rw [h.index]
    have hoffset : g.isImmediate (g.arg i 1) = true := by unfold isImmediate; rw [h.offset]
    have hbase : (⟨g.u32 (g.arg i 0), g.u32 (g.arg i 1)⟩ : StorageBufferAddr) = base := by
      unfold u32
      rw [h.index, h.offset]
    have hbias : (bias.any fun range => !meetsBias base range) = false := by
      cases bias with
      | none => rfl
      | some range => simpa using h.inBias range rfl
    unfold storageBase
    rw [hbase, isDescriptorRead_iff.2 h.op, hindex, hoffset]
    simp only [Bool.not_true, Bool.false_eq_true, if_false, h.aligned, hbias]

/-- A value has the bases of the instruction that it is. -/
theorem tracks_congr (h : g.resolve u = g.resolve v) (hu : g.Tracks bias base u) :
    g.Tracks bias base v := by
  cases hu with
  | read hv hread => exact .read (h.symm.trans hv) hread
  | merge hv hi hu hall => exact .merge (h.symm.trans hv) hi hu hall
  | operand hv hi hload hread hu hone => exact .operand (h.symm.trans hv) hi hload hread hu hone

/-- **A base has no other base.** -/
theorem Reads.tracks_iff (hv : g.resolve v = .inst i) (h : g.Reads bias i base) :
    g.Tracks bias b v ↔ b = base := by
  have hop := isMerge_of_isDescriptorRead (isDescriptorRead_iff.2 h.op)
  constructor
  · intro hb
    cases hb with
    | read hj hread =>
      obtain rfl := Value.inst.inj (hv.symm.trans hj)
      have hindex := Imm.u32.inj (Value.imm.inj (hread.index.symm.trans h.index))
      have hoffset := Imm.u32.inj (Value.imm.inj (hread.offset.symm.trans h.offset))
      cases b
      cases base
      simp_all
    | merge hj hi _ _ =>
      obtain rfl := Value.inst.inj (hv.symm.trans hj)
      exact absurd hi (by simp [hop.1])
    | operand hj _ _ hread _ _ =>
      obtain rfl := Value.inst.inj (hv.symm.trans hj)
      exact absurd (isDescriptorRead_iff.2 h.op) (by simp [hread])
  · rintro rfl
    exact .read hv h

/-- **A load has no base.** -/
theorem not_tracks_load (hv : g.resolve v = .inst i)
    (h : (g.op i).isIndirectPointerLoad = true) : ¬ g.Tracks bias b v := by
  have hop := isMerge_of_isIndirectPointerLoad h
  intro hb
  cases hb with
  | read hj hread =>
    obtain rfl := Value.inst.inj (hv.symm.trans hj)
    exact absurd (isDescriptorRead_iff.2 hread.op) (by simp [hop.2])
  | merge hj hi _ _ =>
    obtain rfl := Value.inst.inj (hv.symm.trans hj)
    exact absurd hi (by simp [hop.1])
  | operand hj _ hload _ _ _ =>
    obtain rfl := Value.inst.inj (hv.symm.trans hj)
    exact absurd h (by simp [hload])

/-- **A merge has the bases that all its inputs have.** -/
theorem tracks_merge (hv : g.resolve v = .inst i) (hi : (g.op i).isMerge = true) (h : g.Tracks bias b v) :
    (∃ w, w ∈ g.pointerArgs i) ∧ ∀ w ∈ g.pointerArgs i, g.Tracks bias b w := by
  cases h with
  | read hj hread =>
    obtain rfl := Value.inst.inj (hv.symm.trans hj)
    have hop := isMerge_of_isDescriptorRead (isDescriptorRead_iff.2 hread.op)
    exact absurd hi (by simp [hop.1])
  | merge hj _ hu hall =>
    obtain rfl := Value.inst.inj (hv.symm.trans hj)
    exact ⟨⟨_, hu⟩, hall⟩
  | operand hj hmerge _ _ _ _ =>
    obtain rfl := Value.inst.inj (hv.symm.trans hj)
    exact absurd hi (by simp [hmerge])

/-! ### What the search finds -/

/-- The merges that have been settled have the bases that are written down. -/
def Settled (g : SsaGraph) (bias : Option Bias) (state : TrackingState) : Prop :=
  Memo.Sound (fun i base => ∀ b, base = some b → g.Tracks bias b (.inst i)) state.selections

/-- A search comes to an end while `n` merges are being settled, and finds a base of its value. -/
def TracksWithin (g : SsaGraph) (bias : Option Bias) (n : ℕ)
    (track : Value → Tracking (Option StorageBufferAddr)) : Prop :=
  ∀ v state, v.Below g.size → g.Settled bias state → state.active.length = n →
    Fueled.wp (track v) state fun base state' =>
      g.Settled bias state' ∧ state'.active = state.active ∧
        ∀ b, base = some b → g.Tracks bias b v

variable {track : Value → Tracking (Option StorageBufferAddr)} {state : TrackingState}

/-- The inputs of a merge that are looked at share the base that is returned. -/
theorem common_spec (htrack : g.TracksWithin bias n track) (args : List Value) :
    ∀ (common : Option StorageBufferAddr) (state : TrackingState), (∀ w ∈ args, w.Below g.size) →
      g.Settled bias state → state.active.length = n →
      Fueled.wp (g.common track i args common) state fun result state' =>
        g.Settled bias state' ∧ state'.active = state.active ∧ ∀ b, result = some b →
          (common = some b ∨ common = none ∧ ∃ w ∈ args, g.isSelf i w = false) ∧
            ∀ w ∈ args, g.isSelf i w = false → g.Tracks bias b w := by
  induction args with
  | nil =>
    intro common state _ hstate hn
    unfold SsaGraph.common
    exact (Fueled.wp_pure ..).2 ⟨hstate, rfl, fun b hb => ⟨.inl hb, by simp⟩⟩
  | cons w args ih =>
    intro common state hbelow hstate hn
    have hargs : ∀ w ∈ args, w.Below g.size := fun w hw => hbelow w (mem_cons_of_mem _ hw)
    unfold SsaGraph.common
    by_cases hself : g.isSelf i w = true
    · rw [if_pos hself]
      refine Fueled.wp_mono (ih common state hargs hstate hn) fun result state' h => ?_
      obtain ⟨hstate', hactive, hresult⟩ := h
      refine ⟨hstate', hactive, fun b hb => ?_⟩
      obtain ⟨hcommon, hall⟩ := hresult b hb
      simp only [mem_cons, exists_eq_or_imp, forall_eq_or_imp]
      exact ⟨hcommon.imp_right fun h => ⟨h.1, .inr h.2⟩, fun h => absurd hself (by simp [h]), hall⟩
    · rw [if_neg hself, Fueled.wp_bind]
      refine Fueled.wp_mono (htrack w state (hbelow w (mem_cons_self ..)) hstate hn)
        fun branch state' h => ?_
      obtain ⟨hstate', hactive, hbranch⟩ := h
      split
      · exact (Fueled.wp_pure ..).2 ⟨hstate', hactive, nofun⟩
      · rename_i hmatch
        rw [not_or, not_and_not_right] at hmatch
        refine Fueled.wp_mono (ih branch state' hargs hstate' (hactive ▸ hn))
          fun result state'' h => ?_
        obtain ⟨hstate'', hactive', hresult⟩ := h
        refine ⟨hstate'', hactive'.trans hactive, fun b hb => ?_⟩
        obtain ⟨hcommon, hall⟩ := hresult b hb
        have hb' : branch = some b := hcommon.resolve_right fun h => hmatch.1 h.1
        simp only [mem_cons, exists_eq_or_imp, forall_eq_or_imp]
        refine ⟨?_, fun _ => hbranch b hb', hall⟩
        by_cases hnone : common = none
        · exact .inr ⟨hnone, .inl (by simpa using hself)⟩
        · exact .inl ((hmatch.2 hnone).trans hb')

theorem mem_pointerArgs (hi : (g.op i).isMerge = true) :
    v ∈ g.pointerArgs i ↔ v ∈ g.incoming i ∧ g.isSelf i v = false := by
  rw [pointerArgs, if_pos hi, mem_filter, Bool.not_eq_true']

theorem mem_args_of_mem_incoming (h : v ∈ g.incoming i) : v ∈ g.args i := by
  unfold incoming at h
  split at h
  · exact mem_of_mem_drop h
  · exact h

/-- **A merge is settled with its base**, or not at all while it is being settled. -/
theorem selection_spec (htrack : n < 64 → g.TracksWithin bias (n + 1) track) (hi : i < g.size)
    (hmerge : (g.op i).isMerge = true) (hid : g.op i ≠ .identity) (hstate : g.Settled bias state)
    (hn : state.active.length = n) :
    Fueled.wp (g.selection track i) state fun result state' =>
      g.Settled bias state' ∧ state'.active = state.active ∧ ∀ b, result = some b → g.Tracks bias b (.inst i) := by
  unfold selection
  rw [Fueled.wp_bind, Fueled.wp_get]
  cases hcached : state.selections i with
  | some cached => exact (Fueled.wp_pure ..).2 ⟨hstate, rfl, hstate i cached hcached⟩
  | none =>
    simp only [Fueled.wp_bind, Fueled.wp_get]
    by_cases hcyclic : 64 ≤ state.active.length ∨ i ∈ state.active
    · rw [if_pos hcyclic]
      exact (Fueled.wp_pure ..).2 ⟨hstate, rfl, fun b h => by cases h⟩
    · rw [if_neg hcyclic]
      rw [not_or] at hcyclic
      simp only [Fueled.wp_bind, Fueled.wp_modify, Fueled.wp_get, Fueled.wp_pure]
      have hbelow : ∀ w ∈ g.incoming i, w.Below g.size := fun w hw =>
        g.arg_below i hi w (mem_args_of_mem_incoming hw)
      refine Fueled.wp_mono (common_spec (i := i) (htrack (by omega)) (g.incoming i) none
        { state with active := i :: state.active } hbelow hstate (by simp [hn]))
        fun result state' h => ?_
      obtain ⟨hstate', hactive, hresult⟩ := h
      have hgood : ∀ b, result = some b → g.Tracks bias b (.inst i) := by
        intro b hb
        obtain ⟨hsome, hall⟩ := hresult b hb
        obtain ⟨w, hw, hself⟩ := (hsome.resolve_left fun h => by cases h).2
        refine .merge (resolve_inst hi hid) hmerge ((mem_pointerArgs hmerge).2 ⟨hw, hself⟩)
          fun w hw => ?_
        obtain ⟨hw, hself⟩ := (mem_pointerArgs hmerge).1 hw
        exact hall w hw hself
      have hsettled := hstate'.emplace (k := i) (r := result) hgood
      refine ⟨hsettled, by simp [hactive], fun b hb => ?_⟩
      rw [Option.join_eq_some_iff] at hb
      exact hsettled i _ hb b rfl

/-- The queue of a search for the base of `v` that has so much fuel. -/
structure Searching (g : SsaGraph) (bias : Option Bias) (v : Value) (fuel : ℕ)
    (queue : SearchQueue) : Prop where
  /-- There is fuel for what is pending and for what has not been met. -/
  fuel : g.size + queue.pending.length ≤ fuel + queue.visited.length
  nodup : queue.visited.Nodup
  lt : ∀ i ∈ queue.visited, i < g.size
  /-- Whatever is pending has only bases of `v`. -/
  pending : ∀ i ∈ queue.pending, i < g.size ∧ g.op i ≠ .identity ∧
    ∀ b, g.Tracks bias b (.inst i) → g.Tracks bias b v

/-- What is new is met and pending. -/
theorem Searching.enqueue (h : g.Searching bias v fuel queue)
    (hu : u.Below g.size) (htracks : ∀ b, g.Tracks bias b u → g.Tracks bias b v) :
    g.Searching bias v fuel (g.enqueue queue u) := by
  unfold SsaGraph.enqueue
  cases hinst : g.instRecursive u with
  | none => exact h
  | some i =>
    have hres := instRecursive_eq_some_iff.1 hinst
    obtain ⟨hi, hid⟩ := resolve_eq_inst hu hres
    simp only
    by_cases hmem : i ∈ queue.visited
    · rw [if_pos hmem]
      exact h
    · rw [if_neg hmem]
      refine ⟨?_, ?_, ?_, ?_⟩
      · have := h.fuel
        simp only [length_append, length_singleton]
        omega
      · rw [nodup_append]
        refine ⟨h.nodup, nodup_singleton i, fun a ha c hc hac => hmem ?_⟩
        rw [mem_singleton] at hc
        exact hc ▸ hac ▸ ha
      · intro j hj
        rcases mem_append.1 hj with hj | hj
        · exact h.lt j hj
        · rw [mem_singleton] at hj
          exact hj ▸ hi
      · intro j hj
        rcases mem_append.1 hj with hj | hj
        · exact h.pending j hj
        · rw [mem_singleton] at hj
          subst hj
          refine ⟨hi, hid, fun b hb => htracks b (tracks_congr ?_ hb)⟩
          rw [resolve_inst hi hid, hres]

theorem Searching.foldl_enqueue (args : List Value) :
    ∀ {queue : SearchQueue}, g.Searching bias v fuel queue → (∀ u ∈ args, u.Below g.size) →
      (∀ u ∈ args, ∀ b, g.Tracks bias b u → g.Tracks bias b v) →
        g.Searching bias v fuel (args.foldl g.enqueue queue) := by
  induction args with
  | nil => exact fun h _ _ => h
  | cons u args ih =>
    intro queue h hbelow htracks
    exact ih (h.enqueue (hbelow u (mem_cons_self ..)) (htracks u (mem_cons_self ..)))
      (fun w hw => hbelow w (mem_cons_of_mem _ hw))
      fun w hw => htracks w (mem_cons_of_mem _ hw)

/-- The instruction that is looked at is no longer pending. -/
theorem Searching.tail {visited pending : List ℕ} (h : g.Searching bias v (fuel + 1) ⟨visited, i :: pending⟩) :
    g.Searching bias v fuel ⟨visited, pending⟩ := by
  refine ⟨?_, h.nodup, h.lt, fun j hj => h.pending j (mem_cons_of_mem _ hj)⟩
  have := h.fuel
  simp only [length_cons] at this ⊢
  omega

/-- There is always fuel for what is pending. -/
theorem Searching.pending_eq_nil (h : g.Searching bias v 0 queue) :
    queue.pending = [] := by
  have hsub : queue.visited.toFinset ⊆ Finset.range g.size := fun i hi =>
    Finset.mem_range.2 (h.lt i (mem_toFinset.1 hi))
  have hcard := Finset.card_le_card hsub
  rw [toFinset_card_of_nodup h.nodup, Finset.card_range] at hcard
  have := h.fuel
  exact length_eq_zero_iff.1 (by omega)

/-- **The loop of a search** comes to an end, and finds a base of the value. -/
theorem search_spec (htrack : n < 64 → g.TracksWithin bias (n + 1) track) (fuel : ℕ) :
    ∀ (queue : SearchQueue) (state : TrackingState), g.Searching bias v fuel queue →
      g.Settled bias state → state.active.length = n →
      Fueled.wp (g.search bias track fuel queue) state fun base state' =>
        g.Settled bias state' ∧ state'.active = state.active ∧ ∀ b, base = some b → g.Tracks bias b v := by
  induction fuel with
  | zero =>
    rintro ⟨visited, pending⟩ state hqueue hstate hn
    obtain rfl : pending = [] := hqueue.pending_eq_nil
    exact (Fueled.wp_pure ..).2 ⟨hstate, rfl, nofun⟩
  | succ fuel ih =>
    rintro ⟨visited, _ | ⟨i, pending⟩⟩ state hqueue hstate hn
    · exact (Fueled.wp_pure ..).2 ⟨hstate, rfl, nofun⟩
    · obtain ⟨hi, hid, hv⟩ := hqueue.pending i (mem_cons_self ..)
      have hres := resolve_inst hi hid
      unfold search
      by_cases hbase : g.storageBase bias i = none
      · rw [if_neg (not_not.2 hbase)]
        by_cases hmerge : (g.op i).isMerge = true
        · rw [if_pos hmerge, Fueled.wp_bind]
          refine Fueled.wp_mono (selection_spec htrack hi hmerge hid hstate hn)
            fun result state' h => ?_
          obtain ⟨hstate', hactive, hresult⟩ := h
          cases result with
          | some base =>
            exact (Fueled.wp_pure ..).2 ⟨hstate', hactive, fun b hb => hv b (hresult b hb)⟩
          | none =>
            simp only [Fueled.wp_bind, Fueled.wp_modify]
            exact hactive ▸ ih _ _ hqueue.tail hstate' (hactive ▸ hn)
        · rw [if_neg hmerge]
          by_cases hload : (g.op i).isIndirectPointerLoad = true
          · rw [if_pos hload]
            simp only [Fueled.wp_bind, Fueled.wp_modify]
            exact ih _ { state with indirectPointer := true } hqueue.tail hstate hn
          · rw [if_neg hload]
            by_cases hread : (g.op i).isDescriptorRead = true
            · rw [if_pos hread]
              exact ih _ state hqueue.tail hstate hn
            · rw [if_neg hread]
              rw [Bool.not_eq_true] at hmerge hload hread
              have hargs : g.pointerArgs i = g.args i := by simp [pointerArgs, hmerge]
              refine ih _ state (hqueue.tail.foldl_enqueue _ (fun u hu => ?_) fun u hu b hb => ?_)
                hstate hn
              · exact g.arg_below i hi u (mem_reverse.1 hu)
              · exact hv b (.operand hres hmerge hload hread (hargs ▸ mem_reverse.1 hu) hb)
      · rw [if_pos hbase]
        refine (Fueled.wp_pure ..).2 ⟨hstate, rfl, fun b hb => hv b ?_⟩
        exact .read hres ((storageBase_eq_some_iff hi).1 hb)

/-- **A search inside others** comes to an end, as deep as it may be. -/
theorem trackImpl_spec (depth : ℕ) :
    ∀ n ≤ 64, n + depth = 65 → g.TracksWithin bias n (g.trackImpl bias depth) := by
  induction depth with
  | zero => intro n hn h; omega
  | succ depth ih =>
    intro n hn h v state hv hstate hactive
    unfold trackImpl
    split
    · exact (Fueled.wp_pure ..).2 ⟨hstate, rfl, nofun⟩
    · refine search_spec (fun hlt => ih (n + 1) (by omega) (by omega)) g.size _ state
        (Searching.enqueue ⟨?_, nodup_nil, nofun, nofun⟩ hv fun _ hb => hb) hstate hactive
      simp

/-! ### Chains of operands -/

/-- A chain of operands from a value through the instructions `chain` to the instruction `last`. -/
inductive OperandChain (g : SsaGraph) : Value → List ℕ → ℕ → Prop
  | last {v : Value} {i : ℕ} (hv : g.resolve v = .inst i) : OperandChain g v [] i
  | through {v u : Value} {i last : ℕ} {chain : List ℕ} (hv : g.resolve v = .inst i)
    (hu : u ∈ g.pointerArgs i) (h : OperandChain g u chain last) :
    OperandChain g v (i :: chain) last

/-- The chain leads from the value to a read of its base. -/
structure BaseChain (g : SsaGraph) (bias : Option Bias) (v : Value) (base : StorageBufferAddr)
    (chain : List ℕ) (last : ℕ) : Prop where
  operands : g.OperandChain v chain last
  reads : g.Reads bias last base
  /-- The chain does not go through a load from memory or from a constant buffer. -/
  noLoad : ∀ i ∈ chain, (g.op i).isLoad = false
  /-- The inputs of a merge on the chain, copies of itself aside, have the same base. -/
  merges : ∀ i ∈ chain, (g.op i).isMerge = true →
    (∃ w, w ∈ g.pointerArgs i) ∧ ∀ w ∈ g.pointerArgs i, g.Tracks bias base w

/-- **A base is at the end of a chain of operands.** -/
theorem Tracks.exists_chain (h : g.Tracks bias base v) :
    ∃ chain last, g.BaseChain bias v base chain last := by
  induction h with
  | @read v i hv hread => exact ⟨[], i, .last hv, hread, nofun, nofun⟩
  | @merge v u i hv hmerge hu hall ih =>
    obtain ⟨chain, last, h⟩ := ih u hu
    have hload : (g.op i).isLoad = false := by
      by_contra hload
      rw [Bool.not_eq_false, SsaOpcode.isLoad_iff] at hload
      rcases hload with hload | hload
      · exact absurd hmerge (by simp [(isMerge_of_isIndirectPointerLoad hload).1])
      · exact absurd hmerge (by simp [(isMerge_of_isDescriptorRead hload).1])
    refine ⟨i :: chain, last, .through hv hu h.operands, h.reads, ?_, ?_⟩
    · exact forall_mem_cons.2 ⟨hload, h.noLoad⟩
    · exact forall_mem_cons.2 ⟨fun _ => ⟨⟨u, hu⟩, hall⟩, h.merges⟩
  | @operand v u i hv hmerge hload hread hu _ ih =>
    obtain ⟨chain, last, h⟩ := ih
    have hload' : (g.op i).isLoad = false := by
      by_contra h'
      rw [Bool.not_eq_false, SsaOpcode.isLoad_iff] at h'
      simp [hload, hread] at h'
    refine ⟨i :: chain, last, .through hv hu h.operands, h.reads, ?_, ?_⟩
    · exact forall_mem_cons.2 ⟨hload', h.noLoad⟩
    · exact forall_mem_cons.2 ⟨fun h' => absurd h' (by simp [hmerge]), h.merges⟩

/-- The search returns, and what it returns is a base. -/
theorem track_spec (hv : v.Below g.size) (bias : Option Bias) :
    ∃ base indirect, g.track v bias = some (base, indirect) ∧ ∀ b, base = some b → g.Tracks bias b v := by
  obtain ⟨base, state, hrun, -, -, hbase⟩ :=
    (show g.TracksWithin bias 0 (g.trackImpl bias 65) from trackImpl_spec 65 0 (by decide) rfl) v
      TrackingState.initial hv Memo.sound_empty rfl
  exact ⟨base, state.indirectPointer, by rw [track, hrun]; rfl, hbase⟩

/-- **Tracking never guesses.**  The search for a base comes to an end.  What it returns is the
aligned word in the range of the bias that is read at the end of a chain of operands, which goes
through no load and only through merges whose inputs have that base.  A merge of a base with another
base or with a loaded pointer is on no such chain and has no base itself. -/
theorem track_chain (g : SsaGraph) (bias : Option Bias) (v : Value) (hv : v.Below g.size) :
    (∃ base indirect, g.track v bias = some (base, indirect) ∧
      ∀ b, base = some b → ∃ chain last, g.BaseChain bias v b chain last) ∧
    ∀ i u w j k b₁, i < g.size → (g.op i).isMerge = true → u ∈ g.pointerArgs i →
      w ∈ g.pointerArgs i → g.resolve u = .inst j → g.Reads bias j b₁ → g.resolve w = .inst k →
      ((g.op k).isIndirectPointerLoad = true ∨ ∃ b₂, b₂ ≠ b₁ ∧ g.Reads bias k b₂) →
      (∀ b chain last, g.BaseChain bias v b chain last → i ∉ chain) ∧
        ∃ indirect, g.track (.inst i) bias = some (none, indirect) := by
  constructor
  · obtain ⟨base, indirect, hrun, hbase⟩ := track_spec hv bias
    exact ⟨base, indirect, hrun, fun b hb => (hbase b hb).exists_chain⟩
  · intro i u w j k b₁ hi hmerge hu hw hju hread hkw hother
    have hnone : ∀ b, ¬ ∀ w ∈ g.pointerArgs i, g.Tracks bias b w := by
      intro b hall
      obtain rfl := (hread.tracks_iff hju).1 (hall u hu)
      rcases hother with hload | ⟨b₂, hne, hread₂⟩
      · exact not_tracks_load hkw hload (hall w hw)
      · exact hne ((hread₂.tracks_iff hkw).1 (hall w hw)).symm
    have hid : g.op i ≠ .identity := by
      intro h
      rw [h] at hmerge
      exact absurd hmerge nofun
    constructor
    · intro b chain last h hmem
      exact hnone b (h.merges i hmem hmerge).2
    · obtain ⟨base, indirect, hrun, hbase⟩ := track_spec (v := .inst i) hi bias
      cases base with
      | none => exact ⟨indirect, hrun⟩
      | some b =>
        exact absurd (tracks_merge (resolve_inst hi hid) hmerge (hbase b rfl)).2 (hnone b)

/-- A pointer that a loop does not change: a phi of a base and of a copy of the phi. -/
def loopGraph : SsaGraph where
  insts
    | 0 => ⟨.getCbuf .u32, [.imm (.u32 0), .imm (.u32 0x650)], 1⟩
    | 1 => ⟨.phi .u32, [.inst 0, .inst 2], 1⟩
    | _ => ⟨.identity, [.inst 1], 1⟩
  size := 3
  arg_below := by decide
  identity_below := by decide
  word_args := by decide

/-- The base of the pointer is found through the loop. -/
theorem track_chain_loopGraph :
    loopGraph.track (.inst 1) none = some (some ⟨0, 0x650⟩, false) ∧
      ∃ chain last, loopGraph.BaseChain none (.inst 1) ⟨0, 0x650⟩ chain last := by
  have hrun : loopGraph.track (.inst 1) none = some (some ⟨0, 0x650⟩, false) := by decide
  obtain ⟨base, indirect, h, hchain⟩ := (track_chain loopGraph none (.inst 1) (by decide)).1
  obtain ⟨rfl, rfl⟩ := Prod.mk.inj (Option.some.inj (hrun.symm.trans h))
  exact ⟨hrun, hchain _ rfl⟩

end SsaGraph
end Shader
end NXEmu
