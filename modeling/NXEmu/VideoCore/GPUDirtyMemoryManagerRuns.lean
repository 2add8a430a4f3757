/-
# No write is lost

`src/nxemu-os/core/gpu_dirty_memory_manager.h`: what a thread has collected is marked in the current
window, or waits in the back buffers, or is in the hands of `Gather`, or has been reported (`Safe`).
Every step keeps this but one: the exchange that replaces the window, when the window has changed since
it was loaded.  Where that never drops a mark, every byte is reported in time (`collected`).
-/

import NXEmu.Lib.Trace
import NXEmu.VideoCore.GPUDirtyMemoryManager

namespace NXEmu
namespace Core
namespace GPUDirtyMemoryManager

open SummaryBitmap Function List

/-! ### Masks -/

theorem createMask_getLsbD {topBit minorBit : ℕ} (htop : topBit ≤ 32) (j : ℕ) :
    (createMask topBit minorBit).getLsbD j = decide (minorBit ≤ j ∧ j < topBit) := by
  rw [createMask, BitVec.getLsbD_and, BitVec.getLsbD_ushiftRight, BitVec.getLsbD_shiftLeft,
    BitVec.getLsbD_allOnes, BitVec.getLsbD_allOnes, Bool.eq_iff_iff]
  simp only [Bool.and_eq_true, decide_eq_true_eq, Bool.not_eq_true', decide_eq_false_iff_not]
  omega

/-- The bytes of a range in one window are those of the blocks it meets. -/
theorem buildTransform_covers {address size : ℕ}
    (hwindow : address % pageSize + size ≤ pageSize) (haddress : address < 2 ^ 43) {b : ℕ} :
    (buildTransform address size).Covers b ↔ b / alignSize * alignSize < address + size ∧
      address < (b / alignSize + 1) * alignSize := by
  have htop : (address % pageSize + size + (alignSize - 1)) / alignSize ≤ 32 := by
    unfold pageSize alignSize at *
    omega
  have hwindowAddress : (BitVec.ofNat 32 (address / pageSize)).toNat = address / pageSize := by
    rw [BitVec.toNat_ofNat]
    exact Nat.mod_eq_of_lt (by unfold pageSize; omega)
  show b / pageSize = (BitVec.ofNat 32 (address / pageSize)).toNat ∧ (createMask _ _).getLsbD _ = true ↔ _
  rw [hwindowAddress, createMask_getLsbD htop, decide_eq_true_iff]
  unfold pageSize alignSize at *
  omega

/-- Some range has the byte. -/
def Covered (calls : List Range) (b : ℕ) : Prop := ∃ r ∈ calls, r.Mem b

/-- **The loop of `Gather`** invalidates the blocks that are marked. -/
theorem gatherMask_spec {base n rounds offset : ℕ} {mask : BitVec 64} (hn : n ≤ 32)
    (hmask : ∀ j, n ≤ j → mask.getLsbD j = false) (hrounds : n ≤ rounds) (halign : alignSize ∣ base + offset) :
    ∃ calls, gatherMask base rounds offset mask = some calls ∧ (∀ b, Covered calls b ↔ ∃ j, mask.getLsbD j = true ∧
        base + offset + j * alignSize ≤ b ∧ b < base + offset + (j + 1) * alignSize) ∧
      ∀ r ∈ calls, alignSize ∣ r.address ∧ alignSize ∣ r.size := by
  induction rounds generalizing n offset mask with
  | zero =>
    have hzero : mask = 0 := BitVec.eq_of_getLsbD_eq fun j _ => by
      rw [hmask j (by omega)]; exact BitVec.getLsbD_zero.symm
    refine ⟨[], if_pos hzero, fun b => ?_, fun r hr => absurd hr not_mem_nil⟩
    rw [hzero]
    simp [Covered]
  | succ rounds ih =>
    by_cases hzero : mask = 0
    · refine ⟨[], if_pos hzero, fun b => ?_, fun r hr => absurd hr not_mem_nil⟩
      rw [hzero]
      simp [Covered]
    obtain ⟨he, hset, hclear⟩ := firstBit_spec hzero
    generalize hfirst : firstBit mask = e at he hset hclear
    have hen : e < n := by
      by_contra hle
      rw [hmask e (not_lt.1 hle)] at hset
      cases hset
    have hshift : ∀ j, (mask >>> e).getLsbD j = mask.getLsbD (e + j) := fun j =>
      BitVec.getLsbD_ushiftRight ..
    have hnot : ~~~(mask >>> e) ≠ 0 := by
      intro h
      have hbit : (~~~(mask >>> e)).getLsbD 63 = true := by
        rw [BitVec.getLsbD_not, hshift, hmask (e + 63) (by omega)]
        rfl
      rw [h] at hbit
      cases hbit
    obtain ⟨hk, hkset, hkclear⟩ := firstBit_spec hnot
    generalize hcontinuous : firstBit (~~~(mask >>> e)) = k at hk hkset hkclear
    rw [BitVec.getLsbD_not, decide_eq_true hk, Bool.true_and, hshift, Bool.not_eq_true'] at hkset
    have hones : ∀ j, j < k → mask.getLsbD (e + j) = true := by
      intro j hj
      have hbit := hkclear j hj
      rwa [BitVec.getLsbD_not, decide_eq_true (hj.trans hk), Bool.true_and, hshift, Bool.not_eq_false'] at hbit
    have hkpos : 0 < k := by
      by_contra hle
      obtain rfl : k = 0 := by omega
      rw [Nat.add_zero, hset] at hkset
      cases hkset
    have hkn : e + k ≤ n := by
      by_contra hle
      have hbit := hones (k - 1) (by omega)
      rw [hmask _ (by omega)] at hbit
      cases hbit
    have hshift₂ : ∀ j, (mask >>> e >>> k).getLsbD j = mask.getLsbD (e + k + j) := fun j => by
      rw [BitVec.getLsbD_ushiftRight, hshift, Nat.add_assoc]
    unfold alignSize at *
    obtain ⟨calls, hcalls, hcovered, haligned⟩ := @ih (n - (e + k))
      (offset + e * 64 + k * 64) (mask >>> e >>> k) (by omega)
      (fun j hj => by rw [hshift₂]; exact hmask _ (by omega)) (by omega) (by omega)
    refine ⟨⟨base + (offset + e * 64), k * 64⟩ :: calls, ?_, fun b => ?_, ?_⟩
    · rw [gatherMask, if_neg hzero]
      simp only [hfirst, hcontinuous]
      rw [if_pos hk, hcalls, Nat.mod_eq_of_lt (show k * 64 < 2 ^ 32 by omega)]
      rfl
    · have hcons : Covered (⟨base + (offset + e * 64), k * 64⟩ :: calls) b ↔
          Range.Mem ⟨base + (offset + e * 64), k * 64⟩ b ∨ Covered calls b :=
        exists_mem_cons_iff ..
      rw [hcons, hcovered, Range.Mem]
      constructor
      · rintro (⟨hle, hlt⟩ | ⟨j, hj, hle, hlt⟩)
        · dsimp only at hle hlt
          exact ⟨e + (b - (base + (offset + e * 64))) / 64, hones _ (by omega), by omega, by omega⟩
        · rw [hshift₂] at hj
          exact ⟨e + k + j, hj, by omega, by omega⟩
      · rintro ⟨j, hj, hle, hlt⟩
        have hej : e ≤ j := by
          by_contra hlt'
          rw [hclear j (not_le.1 hlt')] at hj
          cases hj
        by_cases hjk : j < e + k
        · exact .inl ⟨by dsimp only; omega, by dsimp only; omega⟩
        · refine .inr ⟨j - (e + k), ?_, by omega, by omega⟩
          rw [hshift₂, Nat.add_sub_cancel' (not_lt.1 hjk)]
          exact hj
    · intro r hr
      rcases mem_cons.1 hr with rfl | hr
      · exact ⟨by dsimp only; omega, by dsimp only; omega⟩
      · exact haligned r hr

/-- The ranges that are invalidated for a window are its marked blocks. -/
theorem Transform.calls_spec (t : Transform) : ∃ calls, t.calls = some calls ∧
    (∀ b, Covered calls b ↔ t.Covers b) ∧ ∀ r ∈ calls, alignSize ∣ r.address ∧ alignSize ∣ r.size := by
  have hbit : ∀ j, (t.mask.zeroExtend 64).getLsbD j = t.mask.getLsbD j := by
    intro j
    rw [BitVec.getLsbD_setWidth]
    by_cases hj : j < 64
    · rw [decide_eq_true hj, Bool.true_and]
    · rw [decide_eq_false hj, Bool.false_and, BitVec.getLsbD_of_ge _ _ (by omega)]
  obtain ⟨calls, hcalls, hcovered, haligned⟩ := @gatherMask_spec (t.address.toNat * pageSize)
    32 64 0 (t.mask.zeroExtend 64) le_rfl
    (fun j hj => by rw [hbit]; exact BitVec.getLsbD_of_ge _ _ hj) (by decide)
    (by unfold pageSize alignSize; omega)
  refine ⟨calls, hcalls, fun b => ?_, haligned⟩
  rw [hcovered, Transform.Covers]
  unfold pageSize alignSize
  constructor
  · rintro ⟨j, hj, hle, hlt⟩
    rw [hbit] at hj
    have hj32 := BitVec.lt_of_getLsbD hj
    refine ⟨by omega, ?_⟩
    rwa [show b % 2048 / 64 = j by omega]
  · rintro ⟨hb, hj⟩
    exact ⟨b % 2048 / 64, by rwa [hbit], by omega, by omega⟩

/-! ### Windows -/

/-- What is left of a range is its end, and not empty. -/
structure Window.Within (w : Window) : Prop where
  start : w.args.address ≤ w.left.address
  stop : w.left.address + w.left.size = w.args.address + w.args.size
  pos : 0 < w.left.size
  bound : w.args.address + w.args.size ≤ 2 ^ 42

variable {w : Window} {b : ℕ}

theorem Window.Within.transform_covers (h : w.Within) : w.transform.Covers b ↔
    b / alignSize * alignSize < w.left.address + w.chunk ∧ w.left.address < (b / alignSize + 1) * alignSize := by
  obtain ⟨hstart, hstop, hpos, hbound⟩ := h
  refine buildTransform_covers ?_ (by omega)
  unfold Window.chunk pageSize
  omega

theorem Window.Within.chunk_pos (h : w.Within) : 0 < w.chunk := by
  have := h.pos
  unfold Window.chunk pageSize
  omega

theorem Window.chunk_le : w.chunk ≤ w.left.size := Nat.min_le_left ..

/-- The bytes of the window are marked. -/
theorem Window.Within.covers (h : w.Within) (hle : w.left.address ≤ b)
    (hlt : b < w.left.address + w.chunk) : w.transform.Covers b :=
  h.transform_covers.2 (by unfold alignSize; omega)

/-- What is marked is in a block with a byte of the range. -/
theorem Window.Within.block (h : w.Within) (hb : w.transform.Covers b) :
    ∃ b', w.args.Mem b' ∧ b' / alignSize = b / alignSize := by
  obtain ⟨hlt, hle⟩ := h.transform_covers.1 hb
  have hchunk := w.chunk_le
  have hpos := h.chunk_pos
  obtain ⟨hstart, hstop, -, -⟩ := h
  unfold alignSize at *
  exact ⟨max w.left.address (b / 64 * 64), ⟨by omega, by omega⟩, by omega⟩

/-! ### What is marked -/

namespace State

variable {ι : Type} (s : State ι) (b : ℕ)

/-- The byte waits in the back buffers. -/
def InBack : Prop := (∃ t ∈ s.backBuffer, t.Covers b) ∨ Covered s.exactBackBuffer b

/-- The byte is in the hands of `Gather`. -/
def InHand : Prop :=
  match s.gather with
  | .taken t => t.Covers b
  | .reporting => (∃ t ∈ s.frontBuffer, t.Covers b) ∨ Covered s.exactFrontBuffer b
  | _ => False

/-- The byte has been reported in a trace. -/
def Reported (trace : List (Event ι)) (b : ℕ) : Prop :=
  ∃ calls, .gathered calls ∈ trace ∧ Covered calls b

/-- The byte is not lost. -/
def Safe (trace : List (Event ι)) : Prop :=
  s.current.Covers b ∨ s.InBack b ∨ s.InHand b ∨ Reported trace b

end State

open State

variable {ι : Type} [DecidableEq ι] {s s' : State ι} {a : Action ι} {e : Option (Event ι)}
  {trace : List (Event ι)}

/-- The step drops no mark: a window is replaced when all that it marks is in the back buffers, and the
sizes of exact ranges fit the calls of `Gather`. -/
def Keeps (s : State ι) : Action ι → Prop
  | .exchange _ => ∀ b, s.current.Covers b → s.InBack b
  | .call _ (.collectExact r) => r.size < 2 ^ 32
  | _ => True

omit [DecidableEq ι] in
theorem Reported.append (h : Reported trace b) (more : List (Event ι)) :
    Reported (trace ++ more) b := by
  obtain ⟨calls, hmem, hcovered⟩ := h
  exact ⟨calls, mem_append_left more hmem, hcovered⟩

/-- Sizes of exact ranges. -/
structure Exact (s : State ι) : Prop where
  back : ∀ r ∈ s.exactBackBuffer, r.size < 2 ^ 32
  front : ∀ r ∈ s.exactFrontBuffer, r.size < 2 ^ 32
  pc : ∀ i r, s.pc i = .exact r → r.size < 2 ^ 32

/-- The front buffers are empty but while they are reported. -/
def Idle (s : State ι) : Prop :=
  match s.gather with
  | .reporting => True
  | _ => s.frontBuffer = [] ∧ s.exactFrontBuffer = []

/-- A thread that is going to compare and swap adds to the window it has loaded. -/
def Grows (pc : Pc) : Prop :=
  ∀ w original tmp, pc = .compareExchange w original tmp →
    (∀ b, original.Covers b → tmp.Covers b) ∧ ∀ b, w.transform.Covers b → tmp.Covers b

theorem isValid_window (address : BitVec 32) : isValid address.toNat = true :=
  decide_eq_true (lt_trans address.isLt (by decide))

/-- After the load a thread replaces the window, or its own is marked there, or it adds to it. -/
theorem Window.loaded_cases (w : Window) (current : Transform) :
    w.loaded current = .replace w current ∨
      (w.loaded current = w.next ∧ ∀ b, w.transform.Covers b → current.Covers b) ∨
      ∃ tmp, w.loaded current = .compareExchange w current tmp ∧
        (∀ b, current.Covers b → tmp.Covers b) ∧ (∀ b, w.transform.Covers b → tmp.Covers b) ∧
        ∀ b, tmp.Covers b → current.Covers b ∨ w.transform.Covers b := by
  by_cases haddress : current.address = w.transform.address
  · have hloaded : w.loaded current = if current.mask ||| w.transform.mask = current.mask then w.next
        else .compareExchange w current ⟨current.address, current.mask ||| w.transform.mask⟩ :=
      if_neg (not_not.2 haddress)
    by_cases hmask : current.mask ||| w.transform.mask = current.mask
    · refine .inr (.inl ⟨hloaded.trans (if_pos hmask), fun b hb => ⟨haddress ▸ hb.1, ?_⟩⟩)
      rw [← hmask, BitVec.getLsbD_or, hb.2, Bool.or_true]
    · refine .inr (.inr ⟨_, hloaded.trans (if_neg hmask), fun b hb => ⟨hb.1, ?_⟩,
        fun b hb => ⟨haddress ▸ hb.1, ?_⟩, fun b hb => ?_⟩)
      · rw [BitVec.getLsbD_or, hb.2, Bool.true_or]
      · rw [BitVec.getLsbD_or, hb.2, Bool.or_true]
      · obtain ⟨hwindow, hbit⟩ := hb
        rw [BitVec.getLsbD_or, Bool.or_eq_true] at hbit
        exact hbit.imp (fun h => ⟨hwindow, h⟩) fun h => ⟨haddress ▸ hwindow, h⟩
  · exact .inl ((if_pos haddress).trans (if_pos (isValid_window _)))

/-! ### Reports -/

theorem mapM_calls (l : List Transform) : ∃ calls, l.mapM Transform.calls = some calls ∧
    (∀ b, Covered calls.flatten b ↔ ∃ t ∈ l, t.Covers b) ∧
    ∀ r ∈ calls.flatten, alignSize ∣ r.address ∧ alignSize ∣ r.size := by
  induction l with
  | nil => exact ⟨[], rfl, fun b => by simp [Covered], fun r hr => absurd hr not_mem_nil⟩
  | cons t l ih =>
    obtain ⟨calls, hcalls, hcovered, haligned⟩ := ih
    obtain ⟨first, hfirst, hcovered₁, haligned₁⟩ := t.calls_spec
    refine ⟨first :: calls, ?_, fun b => ?_, fun r hr => ?_⟩
    · rw [mapM_cons, hfirst, hcalls]
      rfl
    · rw [flatten_cons, exists_mem_cons_iff, ← hcovered₁, ← hcovered]
      simp only [Covered, mem_append, or_and_right, exists_or]
    · rw [flatten_cons, mem_append] at hr
      exact hr.elim (haligned₁ r) (haligned r)

omit [DecidableEq ι] in
/-- **`Gather` reports** what is in the front buffers. -/
theorem State.calls_spec (s : State ι) (hexact : ∀ r ∈ s.exactFrontBuffer, r.size < 2 ^ 32) :
    ∃ calls, s.calls = some calls ∧
      (∀ b, Covered calls b ↔ (∃ t ∈ s.frontBuffer, t.Covers b) ∨ Covered s.exactFrontBuffer b) ∧
      ∀ r ∈ calls, r ∈ s.exactFrontBuffer ∨ alignSize ∣ r.address ∧ alignSize ∣ r.size ∧
        ∀ b, r.Mem b → ∃ t ∈ s.frontBuffer, t.Covers b := by
  obtain ⟨l, hl, hcovered, haligned⟩ := mapM_calls s.frontBuffer
  have hsame : s.exactFrontBuffer.map (fun r => (⟨r.address, r.size % 2 ^ 32⟩ : Range)) = s.exactFrontBuffer := by
    conv_rhs => rw [← map_id s.exactFrontBuffer]
    exact map_congr_left fun r hr => by rw [Nat.mod_eq_of_lt (hexact r hr)]; rfl
  refine ⟨s.exactFrontBuffer ++ l.flatten, ?_, fun b => ?_, fun r hr => ?_⟩
  · rw [State.calls, hl, Option.map_some, hsame]
  · rw [← hcovered, or_comm]
    simp only [Covered, mem_append, or_and_right, exists_or]
  · rcases mem_append.1 hr with hr | hr
    · exact .inl hr
    · exact .inr ⟨(haligned r hr).1, (haligned r hr).2, fun b hb => (hcovered b).1 ⟨r, hr, hb⟩⟩

/-! ### Invariants -/

/-- What holds in every state of a run that drops no mark. -/
structure Invariant (s : State ι) : Prop where
  exact : Exact s
  idle : Idle s
  grows : ∀ i, Grows (s.pc i)

omit [DecidableEq ι] in
theorem invariant_init : Invariant (init : State ι) :=
  ⟨⟨fun _ hr => absurd hr not_mem_nil, fun _ hr => absurd hr not_mem_nil,
    fun _ _ h => Pc.noConfusion h⟩, ⟨rfl, rfl⟩, fun _ _ _ _ h => Pc.noConfusion h⟩

/-- The head of the loop is before a load or at the end. -/
theorem collectLoop_cases (args left : Range) :
    (left.size = 0 ∧ collectLoop args left = .returning (.collect args)) ∨
      (0 < left.size ∧ collectLoop args left = .load ⟨args, left⟩) := by
  rcases Nat.eq_zero_or_pos left.size with h | h
  · exact .inl ⟨h, if_pos h⟩
  · exact .inr ⟨h, if_neg h.ne'⟩

/-- What the invariant says of the place of a thread. -/
def Place (pc : Pc) : Prop := Grows pc ∧ ∀ r, pc = .exact r → r.size < 2 ^ 32

theorem place_collectLoop (args left : Range) : Place (collectLoop args left) := by
  rcases collectLoop_cases args left with ⟨-, h⟩ | ⟨-, h⟩ <;> rw [h] <;>
    exact ⟨fun _ _ _ h => Pc.noConfusion h, fun _ h => Pc.noConfusion h⟩

/-- A thread goes on to a place where the invariant holds. -/
theorem Invariant.setPc (h : Invariant s) (i : ι) {pc : Pc} (hpc : Place pc) : Invariant (s.setPc i pc) := by
  refine ⟨⟨h.exact.back, h.exact.front, fun j r hj => ?_⟩, h.idle, fun j => ?_⟩
  · by_cases hji : j = i
    · subst hji
      exact hpc.2 r ((update_self ..).symm.trans hj)
    · exact h.exact.pc j r ((update_of_ne hji ..).symm.trans hj)
  · show Grows (update s.pc i pc j)
    by_cases hji : j = i
    · rw [hji, update_self]
      exact hpc.1
    · rw [update_of_ne hji]
      exact h.grows j

theorem Invariant.step (h : Invariant s) (hkeeps : Keeps s a) (hstep : Step s a s' e) :
    Invariant s' := by
  cases hstep with
  | call i c pc =>
    cases c with
    | collect r => exact h.setPc i (place_collectLoop r r)
    | collectExact r =>
      refine h.setPc i ⟨fun _ _ _ h' => Pc.noConfusion h', fun r' h' => ?_⟩
      obtain rfl := Pc.exact.inj h'
      exact hkeeps
  | load i w pc =>
    rcases w.loaded_cases s.current with hl | ⟨hl, -⟩ | ⟨tmp, hl, hold, hnew, -⟩ <;> rw [hl]
    · exact h.setPc i ⟨fun _ _ _ h' => Pc.noConfusion h', fun _ h' => Pc.noConfusion h'⟩
    · exact h.setPc i (place_collectLoop ..)
    · refine h.setPc i ⟨fun w' o' tmp' heq => ?_, fun r h' => Pc.noConfusion h'⟩
      obtain ⟨rfl, rfl, rfl⟩ := Pc.compareExchange.inj heq
      exact ⟨hold, hnew⟩
  | pushBack i w tmp pc guard =>
    have := @Invariant.setPc _ _ _ h i (.exchange w)
      ⟨fun _ _ _ h' => Pc.noConfusion h', fun _ h' => Pc.noConfusion h'⟩
    exact { this with exact := { this.exact with } }
  | exchange i w pc | compareExchange i w _ _ pc =>
    have := h.setPc i (place_collectLoop w.args ⟨w.left.address + w.chunk, w.left.size - w.chunk⟩)
    exact { this with exact := { this.exact with } }
  | compareExchangeFails i w original tmp pc =>
    exact h.setPc i ⟨fun _ _ _ h' => Pc.noConfusion h', fun _ h' => Pc.noConfusion h'⟩
  | pushExact i r pc guard =>
    have := @Invariant.setPc _ _ _ h i (.returning (.collectExact r))
      ⟨fun _ _ _ h' => Pc.noConfusion h', fun _ h' => Pc.noConfusion h'⟩
    refine { this with exact := { this.exact with back := fun r' hr' => ?_ } }
    rcases mem_append.1 hr' with hr' | hr'
    · exact h.exact.back r' hr'
    · exact mem_singleton.1 hr' ▸ h.exact.pc i r pc
  | leave i c pc => exact h.setPc i ⟨fun _ _ _ h' => Pc.noConfusion h', fun _ h' => Pc.noConfusion h'⟩
  | gather pc | take pc =>
    have hidle := h.idle
    rw [Idle, pc] at hidle
    exact ⟨⟨h.exact.back, h.exact.front, h.exact.pc⟩, hidle, h.grows⟩
  | swap t pc => exact ⟨⟨h.exact.front, h.exact.back, h.exact.pc⟩, trivial, h.grows⟩
  | report calls pc eq =>
    exact ⟨⟨h.exact.back, fun r hr => absurd hr not_mem_nil, h.exact.pc⟩, ⟨rfl, rfl⟩, h.grows⟩

/-- **No step loses a byte** that is safe. -/
theorem Safe.step (hinv : Invariant s) (hkeeps : Keeps s a) (hstep : Step s a s' e)
    (h : s.Safe b trace) : s'.Safe b (trace ++ e.toList) := by
  have hreported : Reported trace b → s'.Safe b (trace ++ e.toList) := fun h =>
    .inr (.inr (.inr (Reported.append h _)))
  rcases h with hcurrent | hback | hhand | h
  rotate_right
  · exact hreported h
  all_goals clear hreported
  · -- The window is kept, or grows, or is replaced or taken.
    cases hstep with
    | exchange i w pc => exact .inr (.inl (hkeeps b hcurrent))
    | compareExchange i w original tmp pc current =>
      exact .inl ((hinv.grows i w original tmp pc).1 b (current ▸ hcurrent))
    | take pc guard => exact .inr (.inr (.inl hcurrent))
    | _ => exact .inl hcurrent
  · cases hstep with
    | pushBack i w tmp pc guard =>
      refine .inr (.inl (hback.imp_left fun ⟨t, ht, hb⟩ => ⟨t, mem_append_left _ ht, hb⟩))
    | pushExact i r pc guard =>
      refine .inr (.inl (hback.imp_right fun ⟨r', hr', hb⟩ => ⟨r', mem_append_left _ hr', hb⟩))
    | swap t pc =>
      refine .inr (.inr (.inl (hback.imp_left fun ⟨t, ht, hb⟩ => ⟨t, mem_append_left _ ht, hb⟩)))
    | _ => exact .inr (.inl hback)
  · cases hstep with
    | gather pc =>
      rw [InHand, pc] at hhand
      exact hhand.elim
    | take pc guard =>
      rw [InHand, pc] at hhand
      exact hhand.elim
    | swap t pc =>
      rw [InHand, pc] at hhand
      refine .inr (.inr (.inl (.inl ⟨t, mem_append_right _ ?_, hhand⟩)))
      rw [if_pos (isValid_window _)]
      exact mem_singleton_self t
    | report calls pc eq =>
      rw [InHand, pc] at hhand
      obtain ⟨calls', hcalls, hcovered, -⟩ := s.calls_spec hinv.exact.front
      obtain rfl := Option.some.inj (eq.symm.trans hcalls)
      exact .inr (.inr (.inr ⟨calls, mem_append_right _ (mem_singleton_self _), (hcovered b).2 hhand⟩))
    | _ => exact .inr (.inr (.inl hhand))

/-- The byte is reported by the end of the `Gather` that has started. -/
def Due (s : State ι) (b : ℕ) (trace : List (Event ι)) : Prop :=
  match s.gather with
  | .idle => Reported trace b
  | .starting => s.Safe b trace
  | .taken t => t.Covers b ∨ s.InBack b ∨ Reported trace b
  | .reporting => s.InHand b ∨ Reported trace b

/-- A step is one of `Gather`, or leaves to it what it has and takes nothing from the back buffers. -/
theorem Step.frame (hstep : Step s a s' e) :
    (s'.gather = s.gather ∧ s'.frontBuffer = s.frontBuffer ∧
      s'.exactFrontBuffer = s.exactFrontBuffer ∧ ∀ b, s.InBack b → s'.InBack b) ∨
    (s.gather = .idle ∧ s' = { s with gather := .starting }) ∨
    (s.gather = .starting ∧ s' = { s with
      gather := .taken s.current, guarded := true, current := defaultTransform }) ∨
    (∃ t, s.gather = .taken t ∧ s' = { s with
      gather := .reporting, guarded := false, frontBuffer := s.backBuffer ++ [t]
      backBuffer := s.frontBuffer, exactFrontBuffer := s.exactBackBuffer
      exactBackBuffer := s.exactFrontBuffer }) ∨
    ∃ calls, s.gather = .reporting ∧ s.calls = some calls ∧ e = some (.gathered calls) ∧
      s' = { s with gather := .idle, frontBuffer := [], exactFrontBuffer := [] } := by
  cases hstep with
  | gather pc => exact .inr (.inl ⟨pc, rfl⟩)
  | take pc guard => exact .inr (.inr (.inl ⟨pc, rfl⟩))
  | swap t pc =>
    refine .inr (.inr (.inr (.inl ⟨t, pc, ?_⟩)))
    rw [if_pos (isValid_window _)]
  | report calls pc eq => exact .inr (.inr (.inr (.inr ⟨calls, pc, eq, rfl, rfl⟩)))
  | pushBack i w tmp pc guard =>
    exact .inl ⟨rfl, rfl, rfl, fun b hb => hb.imp_left fun ⟨t, ht, hb⟩ =>
      ⟨t, mem_append_left _ ht, hb⟩⟩
  | pushExact i r pc guard =>
    exact .inl ⟨rfl, rfl, rfl, fun b hb => hb.imp_right fun ⟨r', hr', hb⟩ =>
      ⟨r', mem_append_left _ hr', hb⟩⟩
  | _ => exact .inl ⟨rfl, rfl, rfl, fun _ => id⟩

/-- What is due stays due, until it is reported. -/
theorem Due.step (hinv : Invariant s) (hkeeps : Keeps s a) (hstep : Step s a s' e)
    (h : Due s b trace) : Due s' b (trace ++ e.toList) := by
  rcases hstep.frame with ⟨hgather, hfront, hexact, hback⟩ | ⟨hpc, rfl⟩ | ⟨hpc, rfl⟩ |
    ⟨t, hpc, rfl⟩ | ⟨calls, hpc, hcalls, rfl, rfl⟩
  · have hsafe : s.Safe b trace → s'.Safe b (trace ++ e.toList) :=
      Safe.step hinv hkeeps hstep
    unfold Due InHand at *
    rw [hgather, hfront, hexact]
    generalize s.gather = gather at h ⊢
    cases gather with
    | idle => exact Reported.append h _
    | starting => exact hsafe h
    | taken t => exact h.imp_right fun h => h.imp (hback b) fun h => Reported.append h _
    | reporting => exact h.imp_right fun h => Reported.append h _
  · rw [Due, hpc] at h
    exact .inr (.inr (.inr (Reported.append h _)))
  · rw [Due, hpc] at h
    rcases h with hcurrent | hback | hhand | h
    · exact .inl hcurrent
    · exact .inr (.inl hback)
    · rw [InHand, hpc] at hhand
      exact hhand.elim
    · exact .inr (.inr (Reported.append h _))
  · rw [Due, hpc] at h
    rcases h with htaken | hback | h
    · exact .inl (.inl ⟨t, mem_append_right _ (mem_singleton_self t), htaken⟩)
    · exact .inl (hback.imp_left fun ⟨t, ht, hb⟩ => ⟨t, mem_append_left _ ht, hb⟩)
    · exact .inr (Reported.append h _)
  · rw [Due, hpc] at h
    rcases h with hhand | h
    · rw [InHand, hpc] at hhand
      obtain ⟨calls', hcalls', hcovered, -⟩ := s.calls_spec hinv.exact.front
      obtain rfl := Option.some.inj (hcalls.symm.trans hcalls')
      exact ⟨calls, mem_append_right _ (mem_singleton_self _), (hcovered b).2 hhand⟩
    · exact Reported.append h _

/-! ### Calls -/

/-- What a call has done so far is safe. -/
def Progress (s : State ι) (i : ι) (c : Call) (trace : List (Event ι)) : Prop :=
  match s.pc i with
  | .idle => False
  | .load w | .replace w _ | .exchange w | .compareExchange w _ _ =>
    c = .collect w.args ∧ w.Within ∧
      ∀ b, w.args.address ≤ b → b < w.left.address → s.Safe b trace
  | .exact r => c = .collectExact r
  | .returning c' => c = c' ∧ ∀ b, c.range.Mem b → s.Safe b trace

variable {i : ι} {c : Call} {w : Window}

omit [DecidableEq ι] in
/-- A window is done with. -/
theorem Progress.next (hpc : s'.pc i = w.next) (hwithin : w.Within)
    (hdone : ∀ b, w.args.address ≤ b → b < w.left.address → s'.Safe b trace)
    (hwindow : ∀ b, w.transform.Covers b → s'.Safe b trace) :
    Progress s' i (.collect w.args) trace := by
  have hsafe : ∀ b, w.args.address ≤ b → b < w.left.address + w.chunk → s'.Safe b trace := by
    intro b hle hlt
    rcases Nat.lt_or_ge b w.left.address with hb | hb
    · exact hdone b hle hb
    · exact hwindow b (hwithin.covers hb hlt)
  have hchunk := w.chunk_le
  obtain ⟨hstart, hstop, hpos, hbound⟩ := hwithin
  unfold Progress
  rw [hpc, Window.next]
  rcases collectLoop_cases w.args ⟨w.left.address + w.chunk, w.left.size - w.chunk⟩ with
    ⟨hsize, h⟩ | ⟨hsize, h⟩ <;> rw [h]
  · refine ⟨rfl, fun b hb => hsafe b hb.1 ?_⟩
    have hlt : b < w.args.address + w.args.size := hb.2
    dsimp only at hsize
    omega
  · dsimp only at hsize
    exact ⟨rfl, ⟨by dsimp only; omega, by dsimp only; omega, hsize, hbound⟩, hsafe⟩

omit [DecidableEq ι] in
/-- The other threads keep what a call has done. -/
theorem Progress.of_pc_eq {trace' : List (Event ι)} (h : Progress s i c trace)
    (hsafe : ∀ b, s.Safe b trace → s'.Safe b trace') (hpc : s'.pc i = s.pc i) :
    Progress s' i c trace' := by
  unfold Progress at *
  rw [hpc]
  split at h
  · exact h
  · exact ⟨h.1, h.2.1, fun b hle hlt => hsafe b (h.2.2 b hle hlt)⟩
  · exact ⟨h.1, h.2.1, fun b hle hlt => hsafe b (h.2.2 b hle hlt)⟩
  · exact ⟨h.1, h.2.1, fun b hle hlt => hsafe b (h.2.2 b hle hlt)⟩
  · exact ⟨h.1, h.2.1, fun b hle hlt => hsafe b (h.2.2 b hle hlt)⟩
  · exact h
  · exact ⟨h.1, fun b hb => hsafe b (h.2 b hb)⟩

omit [DecidableEq ι] in
/-- A thread stays in its window. -/
theorem Progress.stay {pc : Pc} (hpc : s'.pc i = pc)
    (hw : pc = .load w ∨ (∃ tmp, pc = .replace w tmp) ∨ pc = .exchange w ∨
      ∃ original tmp, pc = .compareExchange w original tmp)
    (hwithin : w.Within) (hdone : ∀ b, w.args.address ≤ b → b < w.left.address → s'.Safe b trace) :
    Progress s' i (.collect w.args) trace := by
  unfold Progress
  rw [hpc]
  rcases hw with rfl | ⟨tmp, rfl⟩ | rfl | ⟨original, tmp, rfl⟩ <;> exact ⟨rfl, hwithin, hdone⟩

omit [DecidableEq ι] in
/-- A call is at its end. -/
theorem Progress.returning (hpc : s'.pc i = .returning c)
    (hdone : ∀ b, c.range.Mem b → s'.Safe b trace) : Progress s' i c trace := by
  unfold Progress
  rw [hpc]
  exact ⟨rfl, hdone⟩

/-- Its own steps take a call on, to the return. -/
theorem Progress.step (hinv : Invariant s) (hkeeps : Keeps s a) (hstep : Step s a s' e)
    (h : Progress s i c trace) (hreturn : ∀ c', e ≠ some (.returned i c')) :
    Progress s' i c (trace ++ e.toList) := by
  have hsafe : ∀ b, s.Safe b trace → s'.Safe b (trace ++ e.toList) := fun b =>
    Safe.step hinv hkeeps hstep
  by_cases hsame : s'.pc i = s.pc i
  · exact h.of_pc_eq hsafe hsame
  have hown : ∀ {j : ι} {pc : Pc}, (update s.pc j pc) i ≠ s.pc i → j = i := fun hne =>
    by_contra fun hj => hne (update_of_ne (Ne.symm hj) ..)
  cases hstep with
  | call j c' pc =>
    obtain rfl := hown hsame
    rw [Progress, pc] at h
    exact h.elim
  | load j w pc =>
    obtain rfl := hown hsame
    rw [Progress, pc] at h
    obtain ⟨rfl, hwithin, hdone⟩ := h
    have hdone' := fun b hle hlt => hsafe b (hdone b hle hlt)
    rcases w.loaded_cases s.current with hl | ⟨hl, hmarked⟩ | ⟨tmp, hl, -, -, -⟩
    · exact Progress.stay ((update_self ..).trans hl) (.inr (.inl ⟨_, rfl⟩)) hwithin hdone'
    · exact Progress.next ((update_self ..).trans hl) hwithin hdone' fun b hb =>
        .inl (hmarked b hb)
    · exact Progress.stay ((update_self ..).trans hl) (.inr (.inr (.inr ⟨_, _, rfl⟩)))
        hwithin hdone'
  | pushBack j w tmp pc guard =>
    obtain rfl := hown hsame
    rw [Progress, pc] at h
    obtain ⟨rfl, hwithin, hdone⟩ := h
    exact Progress.stay (update_self ..) (.inr (.inr (.inl rfl))) hwithin
      fun b hle hlt => hsafe b (hdone b hle hlt)
  | exchange j w pc =>
    obtain rfl := hown hsame
    rw [Progress, pc] at h
    obtain ⟨rfl, hwithin, hdone⟩ := h
    exact Progress.next (update_self ..) hwithin
      (fun b hle hlt => hsafe b (hdone b hle hlt)) fun b hb => .inl hb
  | compareExchange j w original tmp pc current =>
    obtain rfl := hown hsame
    have hgrows := (hinv.grows j w original tmp pc).2
    rw [Progress, pc] at h
    obtain ⟨rfl, hwithin, hdone⟩ := h
    exact Progress.next (update_self ..) hwithin
      (fun b hle hlt => hsafe b (hdone b hle hlt)) fun b hb => .inl (hgrows b hb)
  | compareExchangeFails j w original tmp pc =>
    obtain rfl := hown hsame
    rw [Progress, pc] at h
    obtain ⟨rfl, hwithin, hdone⟩ := h
    exact Progress.stay (update_self ..) (.inl rfl) hwithin
      fun b hle hlt => hsafe b (hdone b hle hlt)
  | pushExact j r pc guard =>
    obtain rfl := hown hsame
    rw [Progress, pc] at h
    subst h
    exact Progress.returning (update_self ..) fun b hb =>
      .inr (.inl (.inr ⟨r, mem_append_right _ (mem_singleton_self r), hb⟩))
  | leave j c' pc =>
    obtain rfl := hown hsame
    exact absurd rfl (hreturn c')
  | gather pc | take pc guard | swap t pc | report calls pc eq => exact absurd rfl hsame

omit [DecidableEq ι] in
/-- A valid call has done nothing yet. -/
theorem Progress.enter (hvalid : c.Valid) (hpc : s.pc i = c.enter) : Progress s i c trace := by
  cases c with
  | collect r =>
    have hpos : r.size ≠ 0 := Nat.ne_of_gt hvalid.1
    exact Progress.stay (hpc.trans (if_neg hpos)) (.inl rfl) ⟨le_rfl, rfl, hvalid.1, hvalid.2⟩
      fun b hle hlt => absurd hlt (Nat.not_lt.2 hle)
  | collectExact r =>
    unfold Progress
    rw [hpc]
    rfl

/-! ### Blocks that are reported -/

/-- A collected range meets the block of the byte. -/
def Source (trace : List (Event ι)) (b : ℕ) : Prop :=
  ∃ i r b', .called i (.collect r) ∈ trace ∧ r.Mem b' ∧ b' / alignSize = b / alignSize

/-- The exact range was collected. -/
def ExactSource (trace : List (Event ι)) (r : Range) : Prop :=
  ∃ i, .called i (.collectExact r) ∈ trace

/-- Where the marks of a thread come from. -/
def Pc.Sourced (trace : List (Event ι)) : Pc → Prop
  | .load w | .exchange w => w.Within ∧ ∃ i, .called i (.collect w.args) ∈ trace
  | .replace w tmp | .compareExchange w _ tmp =>
    (w.Within ∧ ∃ i, .called i (.collect w.args) ∈ trace) ∧ ∀ b, tmp.Covers b → Source trace b
  | .exact r => ExactSource trace r
  | _ => True

/-- Where the marks come from. -/
structure Sourced (s : State ι) (trace : List (Event ι)) : Prop where
  current : ∀ b, s.current.Covers b → Source trace b
  back : ∀ t ∈ s.backBuffer, ∀ b, t.Covers b → Source trace b
  front : ∀ t ∈ s.frontBuffer, ∀ b, t.Covers b → Source trace b
  taken : ∀ t, s.gather = .taken t → ∀ b, t.Covers b → Source trace b
  exactBack : ∀ r ∈ s.exactBackBuffer, ExactSource trace r
  exactFront : ∀ r ∈ s.exactFrontBuffer, ExactSource trace r
  pc : ∀ i, (s.pc i).Sourced trace

section Mono

omit [DecidableEq ι]

variable (more : List (Event ι))

theorem Source.mono (h : Source trace b) : Source (trace ++ more) b := by
  obtain ⟨i, r, b', hmem, hb⟩ := h
  exact ⟨i, r, b', mem_append_left _ hmem, hb⟩

theorem ExactSource.mono {r : Range} (h : ExactSource trace r) : ExactSource (trace ++ more) r := by
  obtain ⟨i, hmem⟩ := h
  exact ⟨i, mem_append_left _ hmem⟩

theorem Pc.Sourced.mono {pc : Pc} (h : pc.Sourced trace) : pc.Sourced (trace ++ more) := by
  have hcalled : ∀ {r : Range}, (∃ i, Event.called i (.collect r) ∈ trace) →
      ∃ i, Event.called i (.collect r) ∈ trace ++ more := fun ⟨i, hmem⟩ =>
    ⟨i, mem_append_left _ hmem⟩
  cases pc with
  | load w => exact ⟨h.1, hcalled h.2⟩
  | exchange w => exact ⟨h.1, hcalled h.2⟩
  | replace w tmp => exact ⟨⟨h.1.1, hcalled h.1.2⟩, fun b hb => (h.2 b hb).mono more⟩
  | compareExchange w original tmp =>
    exact ⟨⟨h.1.1, hcalled h.1.2⟩, fun b hb => (h.2 b hb).mono more⟩
  | exact r => exact ExactSource.mono more h
  | idle => trivial
  | returning c => trivial

theorem Sourced.mono (h : Sourced s trace) : Sourced s (trace ++ more) :=
  ⟨fun b hb => (h.current b hb).mono more, fun t ht b hb => (h.back t ht b hb).mono more,
    fun t ht b hb => (h.front t ht b hb).mono more, fun t ht b hb => (h.taken t ht b hb).mono more,
    fun r hr => (h.exactBack r hr).mono more, fun r hr => (h.exactFront r hr).mono more,
    fun i => (h.pc i).mono more⟩

theorem defaultTransform_covers : ¬ defaultTransform.Covers b := by
  rintro ⟨-, hbit⟩
  rw [show defaultTransform.mask = 0#32 from rfl, BitVec.getLsbD_zero] at hbit
  cases hbit

theorem sourced_init : Sourced (init : State ι) [] :=
  ⟨fun _ hb => absurd hb defaultTransform_covers, fun _ ht => absurd ht not_mem_nil,
    fun _ ht => absurd ht not_mem_nil, fun _ ht => GatherPc.noConfusion ht,
    fun _ hr => absurd hr not_mem_nil, fun _ hr => absurd hr not_mem_nil, fun _ => trivial⟩

theorem Window.Within.source (h : w.Within) (hcalled : ∃ i, Event.called i (.collect w.args) ∈ trace)
    (hb : w.transform.Covers b) : Source trace b := by
  obtain ⟨i, hmem⟩ := hcalled
  obtain ⟨b', hb', hblock⟩ := h.block hb
  exact ⟨i, w.args, b', hmem, hb', hblock⟩

/-- The window after this one is of the same call. -/
theorem Window.Within.next_sourced (h : w.Within)
    (hcalled : ∃ i, Event.called i (.collect w.args) ∈ trace) : w.next.Sourced trace := by
  have hchunk := w.chunk_le
  rw [Window.next]
  rcases collectLoop_cases w.args ⟨w.left.address + w.chunk, w.left.size - w.chunk⟩ with
    ⟨-, hnext⟩ | ⟨hsize, hnext⟩ <;> rw [hnext]
  · trivial
  · obtain ⟨hstart, hstop, hpos, hbound⟩ := h
    exact ⟨⟨by dsimp only; omega, by dsimp only at hsize ⊢; omega, hsize, hbound⟩, hcalled⟩

end Mono

theorem Sourced.setPc (h : Sourced s trace) (i : ι) {pc : Pc} (hpc : pc.Sourced trace) :
    Sourced (s.setPc i pc) trace := by
  refine ⟨h.current, h.back, h.front, h.taken, h.exactBack, h.exactFront, fun j => ?_⟩
  show (update s.pc i pc j).Sourced trace
  by_cases hj : j = i
  · rw [hj, update_self]
    exact hpc
  · rw [update_of_ne hj]
    exact h.pc j

/-- **Every mark comes from a call.** -/
theorem Sourced.step (hvalid : Valid s a) (hstep : Step s a s' e) (h : Sourced s trace) :
    Sourced s' (trace ++ e.toList) := by
  have h' := h.mono e.toList
  cases hstep with
  | call i c pc =>
    refine h'.setPc i ?_
    have hmem : Event.called i c ∈ trace ++ [.called i c] :=
      mem_append_right _ (mem_singleton_self _)
    cases c with
    | collect r =>
      have hpos : r.size ≠ 0 := Nat.ne_of_gt hvalid.1
      rw [Call.enter, collectLoop, if_neg hpos]
      exact ⟨⟨le_rfl, rfl, hvalid.1, hvalid.2⟩, i, hmem⟩
    | collectExact r => exact ⟨i, hmem⟩
  | load i w pc =>
    have hw := h'.pc i
    rw [pc] at hw
    refine h'.setPc i ?_
    rcases w.loaded_cases s.current with hl | ⟨hl, -⟩ | ⟨tmp, hl, -, -, honly⟩
    · rw [hl]
      exact ⟨hw, h'.current⟩
    · rw [hl]
      exact hw.1.next_sourced hw.2
    · rw [hl]
      exact ⟨hw, fun b hb => (honly b hb).elim (h'.current b) (hw.1.source hw.2)⟩
  | pushBack i w tmp pc guard =>
    have hw := h'.pc i
    rw [pc] at hw
    refine { @Sourced.setPc _ _ _ _ h' i (.exchange w) hw.1 with back := fun t ht => ?_ }
    rcases mem_append.1 ht with ht | ht
    · exact h'.back t ht
    · exact mem_singleton.1 ht ▸ hw.2
  | exchange i w pc =>
    have hw := h'.pc i
    rw [pc] at hw
    exact { h'.setPc i (hw.1.next_sourced hw.2) with current := fun b => hw.1.source hw.2 }
  | compareExchange i w original tmp pc current =>
    have hw := h'.pc i
    rw [pc] at hw
    exact { h'.setPc i (hw.1.1.next_sourced hw.1.2) with current := hw.2 }
  | compareExchangeFails i w original tmp pc =>
    have hw := h'.pc i
    rw [pc] at hw
    exact @Sourced.setPc _ _ _ _ h' i (.load w) hw.1
  | pushExact i r pc guard =>
    have hr := h'.pc i
    rw [pc] at hr
    refine { @Sourced.setPc _ _ _ _ h' i (.returning (.collectExact r)) trivial with
      exactBack := fun r' hr' => ?_ }
    rcases mem_append.1 hr' with hr' | hr'
    · exact h'.exactBack r' hr'
    · exact mem_singleton.1 hr' ▸ hr
  | leave i c pc => exact h'.setPc i trivial
  | gather pc => exact { h' with taken := fun _ ht => GatherPc.noConfusion ht }
  | take pc guard =>
    exact { h' with
      current := fun _ hb => absurd hb defaultTransform_covers
      taken := fun t ht => GatherPc.taken.inj ht ▸ h'.current }
  | swap t pc =>
    refine ⟨h'.current, h'.front, fun t' ht' => ?_, fun _ ht => GatherPc.noConfusion ht,
      h'.exactFront, h'.exactBack, h'.pc⟩
    rw [if_pos (isValid_window _)] at ht'
    rcases mem_append.1 ht' with ht' | ht'
    · exact h'.back t' ht'
    · exact mem_singleton.1 ht' ▸ h'.taken t pc
  | report calls pc eq =>
    exact { h' with
      front := fun _ ht => absurd ht not_mem_nil
      taken := fun _ ht => GatherPc.noConfusion ht
      exactFront := fun _ hr => absurd hr not_mem_nil }

/-! ### Runs -/

/-- What a trace promises. -/
structure Collected (trace : List (Event ι)) : Prop where
  /-- The bytes of a call that has returned are reported since the call, at the latest by the first
  `Gather` that starts after the return. -/
  in_time : ∀ (pre : List (Event ι)) (i : ι) (c : Call) (mid p q : List (Event ι))
    (calls : List Range) (rest : List (Event ι)),
    trace = pre ++ Event.called i c :: (mid ++ Event.returned i c ::
      (p ++ Event.gatherStarted :: (q ++ Event.gathered calls :: rest))) →
    (∀ c', Event.returned i c' ∉ mid) → (∀ calls', Event.gathered calls' ∉ q) →
    ∀ b, c.range.Mem b → Reported (mid ++ p ++ [Event.gathered calls]) b
  /-- Only exact ranges that were collected are reported, and blocks that a collected range meets. -/
  only : ∀ (pre : List (Event ι)) (calls : List Range) (post : List (Event ι)),
    trace = pre ++ Event.gathered calls :: post → ∀ r ∈ calls,
    ExactSource pre r ∨
      alignSize ∣ r.address ∧ alignSize ∣ r.size ∧ ∀ b, r.Mem b → Source pre b

/-- The steps of runs in which nothing is dropped. -/
def Good (s : State ι) (a : Action ι) : Prop := Valid s a ∧ Keeps s a

theorem invariant_of_run {m : State ι} (h : Traces Step Good m trace s) (hinv : Invariant m) :
    Invariant s :=
  h.invariant (fun _ => Invariant) hinv fun _ _ _ _ _ hinv hgood hstep => hinv.step hgood.2 hstep

/-- **Nothing is reported that was not collected.** -/
theorem only_sourced (h : Traces Step Good init trace s) {pre post : List (Event ι)}
    {calls : List Range} (htrace : trace = pre ++ .gathered calls :: post) {r : Range}
    (hr : r ∈ calls) : ExactSource pre r ∨
      alignSize ∣ r.address ∧ alignSize ∣ r.size ∧ ∀ b, r.Mem b → Source pre b := by
  subst htrace
  obtain ⟨m, m', a, hpre, -, hstep, -⟩ := h.split
  have hinv := invariant_of_run hpre invariant_init
  have hsourced : Sourced m pre := hpre.invariant (fun trace s => Sourced s trace) sourced_init
    fun _ _ _ _ _ h hgood hstep => h.step hgood.1 hstep
  cases hstep with
  | report calls pc eq =>
    obtain ⟨calls', hcalls, -, honly⟩ := m.calls_spec hinv.exact.front
    obtain rfl := Option.some.inj (eq.symm.trans hcalls)
    rcases honly r hr with hexact | ⟨haddress, hsize, hcovers⟩
    · exact .inl (hsourced.exactFront r hexact)
    · refine .inr ⟨haddress, hsize, fun b hb => ?_⟩
      obtain ⟨t, ht, htb⟩ := hcovers b hb
      exact hsourced.front t ht b htb

/-- **A call that returns has made its bytes safe.** -/
theorem safe_of_returned {m n : State ι} {i : ι} {c : Call} {mid : List (Event ι)}
    (hmid : Traces Step Good m mid n) (hinv : Invariant m) (henter : Progress m i c [])
    (hreturn : ∀ c', .returned i c' ∉ mid) : Progress n i c mid := by
  refine (hmid.invariant (fun trace s => Invariant s ∧
    ((∀ c', .returned i c' ∉ trace) → Progress s i c trace)) ⟨hinv, fun _ => henter⟩ ?_).2 hreturn
  intro trace s a s' e h hgood hstep
  refine ⟨h.1.step hgood.2 hstep, fun hno => ?_⟩
  refine Progress.step h.1 hgood.2 hstep (h.2 fun c' hc' => hno c' (mem_append_left _ hc'))
    fun c' he => hno c' ?_
  rw [he]
  exact mem_append_right _ (mem_singleton_self _)

/-- **No write is lost** in runs in which nothing is dropped, and `Gather` always ends. -/
theorem collected (h : Traces Step Good init trace s) : Collected trace ∧ s.calls.isSome := by
  refine ⟨⟨fun pre i c mid p q calls rest htrace hmid hq b hb => ?_,
    fun pre calls post htrace r hr => only_sourced h htrace hr⟩, ?_⟩
  · subst htrace
    obtain ⟨m, m', a, hpre, hgood, hstep, hrun⟩ := h.split
    have hinv := (invariant_of_run hpre invariant_init).step hgood.2 hstep
    have henter : Progress m' i c [] := by
      cases hstep with
      | call i c pc => exact Progress.enter hgood.1 (Function.update_self ..)
    clear h hpre hstep hgood
    -- The call returns.
    obtain ⟨n, n', a, hcall, hgood, hstep, hrun⟩ := hrun.split
    have hprogress := safe_of_returned hcall hinv henter hmid
    replace hinv := invariant_of_run hcall hinv
    have hsafe : n.Safe b mid := by
      cases hstep with
      | leave i c pc =>
        rw [Progress, pc] at hprogress
        exact hprogress.2 b hb
    replace hsafe := Safe.step hinv hgood.2 hstep hsafe
    replace hinv := hinv.step hgood.2 hstep
    clear hcall henter hprogress hstep hgood
    -- It stays safe until `Gather` starts.
    obtain ⟨o, o', a, hidle, hgood, hstep, hrun⟩ := hrun.split
    obtain ⟨hinv, hsafe⟩ := hidle.invariant
      (fun trace s => Invariant s ∧ s.Safe b (mid ++ [.returned i c] ++ trace))
      ⟨hinv, by rw [List.append_nil]; exact hsafe⟩ fun _ _ _ _ _ h hgood hstep =>
        ⟨h.1.step hgood.2 hstep, by
          rw [← List.append_assoc]; exact Safe.step h.1 hgood.2 hstep h.2⟩
    replace hsafe := Safe.step hinv hgood.2 hstep hsafe
    replace hinv := hinv.step hgood.2 hstep
    have hdue : Due o' b (mid ++ [.returned i c] ++ p ++ [.gatherStarted]) := by
      cases hstep with
      | gather pc => exact hsafe
    clear hidle hsafe hstep hgood
    -- And it is due until `Gather` is done.
    obtain ⟨u, u', a, hgather, hgood, hstep, -⟩ := hrun.split
    obtain ⟨hinv, hdue⟩ := hgather.invariant
      (fun trace s => Invariant s ∧
        Due s b (mid ++ [.returned i c] ++ p ++ [.gatherStarted] ++ trace))
      ⟨hinv, by rw [List.append_nil]; exact hdue⟩ fun _ _ _ _ _ h hgood hstep =>
        ⟨h.1.step hgood.2 hstep, by
          rw [← List.append_assoc]; exact Due.step h.1 hgood.2 hstep h.2⟩
    have hreported := Due.step hinv hgood.2 hstep hdue
    cases hstep with
    | report calls pc eq =>
      obtain ⟨calls', hmem, hcovered⟩ := hreported
      refine ⟨calls', ?_, hcovered⟩
      have hne : Event.gathered calls' ∉ q := hq calls'
      simp only [Option.toList_some, List.mem_append, List.mem_singleton, reduceCtorEq,
        or_false, hne] at hmem ⊢
      exact hmem
  · obtain ⟨calls, hcalls, -⟩ := s.calls_spec (invariant_of_run h invariant_init).exact.front
    rw [hcalls]
    rfl

/-- Two threads add blocks to a window, and it is gathered. -/
theorem two_blocks_collected : ∃ (trace : List (Event Bool)) (s : State Bool),
    Traces Step Good init trace s ∧ .gathered [⟨0, 128⟩] ∈ trace ∧ Collected trace := by
  have hvalid : ∀ a : ℕ, a ≤ 4096 → (Call.collect ⟨a, 64⟩).Valid := fun a ha =>
    ⟨Nat.zero_lt_succ 63, show a + 64 ≤ 2 ^ 42 by omega⟩
  have h : Traces Step Good (init : State Bool) [] init := .refl
  replace h := h.step (Action.call false (.collect ⟨0, 64⟩)) ⟨hvalid 0 (by omega), trivial⟩
    (.call false _ rfl)
  replace h := h.step (Action.load false) ⟨trivial, trivial⟩ (.load false _ rfl)
  replace h := h.step (Action.pushBack false) ⟨trivial, trivial⟩ (.pushBack false _ _ rfl rfl)
  replace h := h.step (Action.exchange false)
    ⟨trivial, fun _ hb => absurd hb defaultTransform_covers⟩ (.exchange false _ rfl)
  replace h := h.step (Action.leave false) ⟨trivial, trivial⟩ (.leave false _ rfl)
  replace h := h.step (Action.call true (.collect ⟨64, 64⟩)) ⟨hvalid 64 (by omega), trivial⟩
    (.call true _ rfl)
  replace h := h.step (Action.load true) ⟨trivial, trivial⟩ (.load true _ rfl)
  replace h := h.step (Action.compareExchange true) ⟨trivial, trivial⟩
    (.compareExchange true _ _ _ rfl rfl)
  replace h := h.step (Action.leave true) ⟨trivial, trivial⟩ (.leave true _ rfl)
  replace h := h.step Action.gather ⟨trivial, trivial⟩ (.gather rfl)
  replace h := h.step Action.take ⟨trivial, trivial⟩ (.take rfl rfl)
  replace h := h.step Action.swap ⟨trivial, trivial⟩ (.swap _ rfl)
  replace h := h.step Action.report ⟨trivial, trivial⟩ (.report [⟨0, 128⟩] rfl (by decide +kernel))
  exact ⟨_, _, h, List.mem_append_right _ (List.mem_singleton_self _), (collected h).1⟩

/-- The window of one thread is current, it loads it to replace it, and another thread adds a block before
it does: the block is lost. -/
theorem lost_block : ∃ (trace : List (Event Bool)) (s : State Bool),
    Traces Step Valid init trace s ∧ ¬ Collected trace := by
  have hvalid : ∀ a : ℕ, a ≤ 4096 → (Call.collect ⟨a, 64⟩).Valid := fun a ha =>
    ⟨Nat.zero_lt_succ 63, show a + 64 ≤ 2 ^ 42 by omega⟩
  have h : Traces Step Valid (init : State Bool) [] init := .refl
  -- The window of thread `false` becomes current.
  replace h := h.step (Action.call false (.collect ⟨0, 64⟩)) (hvalid 0 (by omega)) (.call false _ rfl)
  replace h := h.step (Action.load false) trivial (.load false _ rfl)
  replace h := h.step (Action.pushBack false) trivial (.pushBack false _ _ rfl rfl)
  replace h := h.step (Action.exchange false) trivial (.exchange false _ rfl)
  replace h := h.step (Action.leave false) trivial (.leave false _ rfl)
  -- It loads the window to replace it, and thread `true` adds a block meanwhile.
  replace h := h.step (Action.call false (.collect ⟨2048, 64⟩)) (hvalid 2048 (by omega)) (.call false _ rfl)
  replace h := h.step (Action.load false) trivial (.load false _ rfl)
  replace h := h.step (Action.call true (.collect ⟨64, 64⟩)) (hvalid 64 (by omega)) (.call true _ rfl)
  replace h := h.step (Action.load true) trivial (.load true _ rfl)
  replace h := h.step (Action.compareExchange true) trivial (.compareExchange true _ _ _ rfl rfl)
  replace h := h.step (Action.leave true) trivial (.leave true _ rfl)
  replace h := h.step (Action.pushBack false) trivial (.pushBack false _ _ rfl rfl)
  replace h := h.step (Action.exchange false) trivial (.exchange false _ rfl)
  replace h := h.step (Action.leave false) trivial (.leave false _ rfl)
  replace h := h.step Action.gather trivial (.gather rfl)
  replace h := h.step Action.take trivial (.take rfl rfl)
  replace h := h.step Action.swap trivial (.swap _ rfl)
  replace h := h.step Action.report trivial (.report [⟨0, 64⟩, ⟨2048, 64⟩] rfl (by decide +kernel))
  refine ⟨_, _, h, fun hcollected => ?_⟩
  obtain ⟨calls, hmem, r, hr, hb⟩ := hcollected.in_time
    [.called false (.collect ⟨0, 64⟩), .returned false (.collect ⟨0, 64⟩),
      .called false (.collect ⟨2048, 64⟩)] true (.collect ⟨64, 64⟩) []
    [.returned false (.collect ⟨2048, 64⟩)] [] [⟨0, 64⟩, ⟨2048, 64⟩] [] rfl
    (fun _ => List.not_mem_nil) (fun _ => List.not_mem_nil) 64 ⟨le_rfl, by decide⟩
  obtain rfl : calls = [⟨0, 64⟩, ⟨2048, 64⟩] := by simpa using hmem
  rcases List.mem_pair.1 hr with rfl | rfl
  · exact absurd hb.2 (by decide)
  · exact absurd hb.1 (by decide)

end GPUDirtyMemoryManager
end Core
end NXEmu
