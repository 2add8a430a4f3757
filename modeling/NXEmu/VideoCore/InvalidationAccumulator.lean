/-
# The invalidation accumulator

`yuzu_video_core/invalidation_accumulator.h`: the ranges of GPU memory that were written behind the caches,
collected until `Callback` hands them out.  `Add` rounds a range to units of 32 bytes, joins it to the running
range if it starts where that one ends, and leaves out a range that lies in the running one.

The size is rounded before the address.  The rounded size is the rounded end less the address as it came in,
so that with the address rounded down the range ends `address % 32` bytes before the rounded end
(`toNat_roundedEnd`).  Where the end had less padding than that, the last bytes of the range are not collected:
a write of sixteen bytes at `0x10` hands out the sixteen bytes before it (`upperHalf_lost`).  Nothing
outside the rounded ranges is collected (`run_within`), and a run loses no byte exactly when no call of it does
(`collects_iff`).
-/

import Mathlib.Algebra.Group.Nat.Defs
import Mathlib.Data.List.Infix
import Mathlib.Tactic.Common

namespace NXEmu
namespace VideoCore

open List

/-- `GPUVAddr` and `size_t`. -/
abbrev Word64 : Type := BitVec 64

/-- `InvalidationAccumulator` -/
structure InvalidationAccumulator where
  startAddress : Word64 := 0
  lastCollection : Word64 := 0
  accumulatedSize : Word64 := 0
  hasCollected : Bool := false
  buffer : List (Word64 × Word64) := []

namespace InvalidationAccumulator

/-- `atomicity_size_mask` -/
def atomicitySizeMask : Word64 := 0x1f

/-- `atomicity_mask` -/
def atomicityMask : Word64 := ~~~atomicitySizeMask

section Operations

variable (a : InvalidationAccumulator) (address size : Word64)

/-- `reset_values` -/
def resetValues : InvalidationAccumulator :=
  { a with
    buffer := if a.hasCollected then a.buffer ++ [(a.startAddress, a.accumulatedSize)] else a.buffer
    startAddress := address
    accumulatedSize := size
    lastCollection := address + size }

/-- `size` once it is rounded: with the address as it came in. -/
def roundedSize : Word64 := ((address + size + atomicitySizeMask) &&& atomicityMask) - address

/-- The range lies in the running one. -/
def Inside : Prop := a.startAddress ≤ address ∧ address + size ≤ a.lastCollection

instance : Decidable (a.Inside address size) := inferInstanceAs (Decidable (_ ∧ _))

/-- `Add`: unless it is inside of the last unit, the range goes on the accumulated one or starts a new one. -/
def add : InvalidationAccumulator :=
  if a.Inside address size then a
  else
    let size := roundedSize address size
    let address := address &&& atomicityMask
    if !a.hasCollected then { a.resetValues address size with hasCollected := true }
    else if address ≠ a.lastCollection then a.resetValues address size
    else
      { a with
        accumulatedSize := a.accumulatedSize + size
        lastCollection := a.lastCollection + size }

/-- `Clear`, which leaves the accumulated size. -/
def clear : InvalidationAccumulator :=
  { a with
    buffer := []
    startAddress := 0
    lastCollection := 0
    hasCollected := false }

/-- `Callback`: the ranges that the function is called with, in order, and what is left. -/
def callback : List (Word64 × Word64) × InvalidationAccumulator :=
  if !a.hasCollected then ([], a)
  else
    let buffer := a.buffer ++ [(a.startAddress, a.accumulatedSize)]
    (buffer, { a with buffer })

end Operations

/-- A call. -/
inductive Call where
  | add (address size : Word64)
  | clear
  | callback

/-- What a call does. -/
def step (a : InvalidationAccumulator) : Call → InvalidationAccumulator
  | .add address size => a.add address size
  | .clear => a.clear
  | .callback => a.callback.2

/-- The state after some calls. -/
def run (calls : List Call) : InvalidationAccumulator := calls.foldl step {}

/-- The ranges that were added since the last `Clear`. -/
def added (calls : List Call) : List (Word64 × Word64) :=
  calls.foldl (fun ranges call =>
    match call with
    | .add address size => ranges ++ [(address, size)]
    | .clear => []
    | .callback => ranges) []

/-- The range is not empty, and neither its end nor its rounded end wraps. -/
def Call.Valid : Call → Prop
  | .add address size => 0 < size.toNat ∧ address.toNat + size.toNat + 31 < 2 ^ 64
  | _ => True

/-- A byte lies in a range. -/
def InRange (range : Word64 × Word64) (byte : ℕ) : Prop :=
  range.1.toNat ≤ byte ∧ byte < range.1.toNat + range.2.toNat

/-- A byte lies in a range that is rounded outwards to units of 32 bytes. -/
def InUnits (range : Word64 × Word64) (byte : ℕ) : Prop :=
  range.1.toNat / 32 * 32 ≤ byte ∧ byte < (range.1.toNat + range.2.toNat + 31) / 32 * 32

/-- A byte lies in a range that `Callback` hands out. -/
def Collected (a : InvalidationAccumulator) (byte : ℕ) : Prop := ∃ range ∈ a.callback.1, InRange range byte

/-- **Every byte of every added range is handed out.** -/
def Covers (calls : List Call) : Prop :=
  ∀ range ∈ added calls, ∀ byte, InRange range byte → Collected (run calls) byte

/-- **No byte outside the rounded ranges is handed out.** -/
def Within (calls : List Call) : Prop :=
  ∀ byte, Collected (run calls) byte → ∃ range ∈ added calls, InUnits range byte

/-- A call that loses no byte: the range lies in the running one, or what is cut off its end, the bytes from
`address % 32` before the rounded end on, was collected before. -/
def Keeps (a : InvalidationAccumulator) (address size : Word64) : Prop :=
  a.Inside address size ∨ ∀ byte, InRange (address, size) byte →
    (address.toNat + size.toNat + 31) / 32 * 32 ≤ byte + address.toNat % 32 → Collected a byte

/-- Without a range the state is the one `Clear` leaves, and the running range ends where the next one would be
joined. -/
structure Inv (a : InvalidationAccumulator) : Prop where
  idle : a.hasCollected = false → a.startAddress = 0 ∧ a.lastCollection = 0 ∧ a.buffer = []
  running : a.hasCollected = true →
    a.startAddress.toNat + a.accumulatedSize.toNat = a.lastCollection.toNat

variable {a : InvalidationAccumulator} {address size : Word64} {byte : ℕ}

theorem inv_new : Inv {} := ⟨fun _ => ⟨rfl, rfl, rfl⟩, fun h => absurd h Bool.false_ne_true⟩

/-- What is handed out is the buffer and the running range. -/
theorem collected_iff (hrun : a.hasCollected = true) :
    a.Collected byte ↔ (∃ range ∈ a.buffer, InRange range byte) ∨
      InRange (a.startAddress, a.accumulatedSize) byte := by
  simp [Collected, callback, hrun, or_and_right, exists_or]

theorem not_collected (hrun : a.hasCollected = false) : ¬a.Collected byte := by
  simp [Collected, callback, hrun]

section Rounding

theorem toNat_and_mask (word : Word64) : (word &&& atomicityMask).toNat = word.toNat / 32 * 32 := by
  have heq : word &&& atomicityMask = word >>> 5 <<< 5 := by
    refine BitVec.eq_of_getLsbD_eq fun i hi => ?_
    rw [BitVec.getLsbD_and, BitVec.getLsbD_shiftLeft, BitVec.getLsbD_ushiftRight]
    have hmask : atomicityMask.getLsbD i = decide (5 ≤ i) := by
      revert i
      decide
    rw [hmask]
    by_cases hle : 5 ≤ i
    · rw [decide_eq_true hle, decide_eq_true hi, decide_eq_false (by omega), Bool.and_true, Bool.not_false,
        Bool.true_and, Bool.true_and, show 5 + (i - 5) = i by omega]
    · have hlt : decide (i < 5) = true := decide_eq_true (by omega)
      rw [decide_eq_false hle, hlt, Bool.and_false, Bool.not_true, Bool.and_false, Bool.false_and]
  rw [heq, BitVec.toNat_shiftLeft, BitVec.toNat_ushiftRight, Nat.shiftRight_eq_div_pow, Nat.shiftLeft_eq,
    Nat.mod_eq_of_lt]
  have := word.isLt
  omega

/-- The rounded range ends as far before the rounded end as the address was from its unit. -/
theorem toNat_roundedEnd (hvalid : address.toNat + size.toNat + 31 < 2 ^ 64) (hpos : 0 < size.toNat) :
    (address &&& atomicityMask).toNat + (roundedSize address size).toNat =
      (address.toNat + size.toNat + 31) / 32 * 32 - address.toNat % 32 := by
  have hsum : (address + size + atomicitySizeMask).toNat = address.toNat + size.toNat + 31 := by
    rw [BitVec.toNat_add, BitVec.toNat_add, Nat.mod_eq_of_lt (a := address.toNat + size.toNat) (by omega)]
    exact Nat.mod_eq_of_lt hvalid
  have hle : address ≤ (address + size + atomicitySizeMask) &&& atomicityMask := by
    rw [BitVec.le_def, toNat_and_mask, hsum]
    omega
  rw [roundedSize, BitVec.toNat_sub_of_le hle, toNat_and_mask, toNat_and_mask, hsum]
  omega

end Rounding

section Steps

/-- `reset_values` puts the running range into the buffer and starts another one. -/
theorem collected_resetValues (h : Inv a) :
    Collected { a.resetValues address size with hasCollected := true } byte ↔
      a.Collected byte ∨ InRange (address, size) byte := by
  rw [collected_iff rfl]
  cases hrun : a.hasCollected with
  | true =>
    rw [collected_iff hrun]
    simp [resetValues, hrun, or_and_right, exists_or]
  | false =>
    have hbuffer := (h.idle hrun).2.2
    have hnone : ¬a.Collected byte := not_collected hrun
    simp [resetValues, hrun, hbuffer, hnone]

theorem inv_resetValues (h : address.toNat + size.toNat < 2 ^ 64) :
    Inv { a.resetValues address size with hasCollected := true } := by
  refine ⟨fun hrun => absurd hrun.symm Bool.false_ne_true, fun _ => ?_⟩
  simp only [resetValues]
  rw [BitVec.toNat_add, Nat.mod_eq_of_lt h]

/-- A range that starts where the running one ends makes it longer. -/
theorem extend_spec (h : Inv a) (hrun : a.hasCollected = true) (haddress : a.lastCollection = address)
    (hlt : address.toNat + size.toNat < 2 ^ 64) {b : InvalidationAccumulator} (hb : b = { a with
      accumulatedSize := a.accumulatedSize + size
      lastCollection := a.lastCollection + size }) :
    Inv b ∧ ∀ byte, b.Collected byte ↔ a.Collected byte ∨ InRange (address, size) byte := by
  have hlast := h.running hrun
  rw [haddress] at hlast
  have hacc : (a.accumulatedSize + size).toNat = a.accumulatedSize.toNat + size.toNat := by
    rw [BitVec.toNat_add, Nat.mod_eq_of_lt (by omega)]
  have hend : (a.lastCollection + size).toNat = address.toNat + size.toNat := by
    rw [haddress, BitVec.toNat_add, Nat.mod_eq_of_lt hlt]
  have hrunb : b.hasCollected = true := by rw [hb, hrun]
  constructor
  · refine ⟨fun hfalse => absurd (hrunb.symm.trans hfalse) Bool.noConfusion, fun _ => ?_⟩
    simp only [hb]
    omega
  · intro byte
    rw [collected_iff hrunb, collected_iff hrun, hb, or_assoc]
    refine or_congr_right ?_
    simp only [InRange]
    omega

/-- **`Add` collects the bytes from the unit of the address to the end of the rounded range**, unless the range
lies in the running one. -/
theorem add_spec (h : Inv a) (hvalid : (Call.add address size).Valid) :
    Inv (a.add address size) ∧ ∀ byte, (a.add address size).Collected byte ↔ a.Collected byte ∨
      ¬a.Inside address size ∧ address.toNat / 32 * 32 ≤ byte ∧
        byte + address.toNat % 32 < (address.toNat + size.toNat + 31) / 32 * 32 := by
  obtain ⟨hpos, hlt⟩ := hvalid
  have hend := toNat_roundedEnd hlt hpos
  have hrange : ∀ byte, InRange (address &&& atomicityMask, roundedSize address size) byte ↔
      address.toNat / 32 * 32 ≤ byte ∧ byte + address.toNat % 32 < (address.toNat + size.toNat + 31) / 32 * 32 := by
    intro byte
    rw [InRange, hend, toNat_and_mask]
    omega
  have hbound : (address &&& atomicityMask).toNat + (roundedSize address size).toNat < 2 ^ 64 := by omega
  rw [add]
  by_cases hinside : a.Inside address size
  · simp [h, hinside]
  simp only [hinside, not_false_eq_true, true_and, ← hrange, if_false]
  cases hrun : a.hasCollected with
  | false =>
    simp only [Bool.not_false, if_true]
    exact ⟨inv_resetValues hbound, fun _ => collected_resetValues h⟩
  | true =>
    simp only [Bool.not_true, Bool.false_eq_true, if_false]
    split_ifs with hlast
    · have hsame : a.resetValues (address &&& atomicityMask) (roundedSize address size) =
          { a.resetValues (address &&& atomicityMask) (roundedSize address size) with hasCollected := true } := by
        simp [resetValues, hrun]
      rw [hsame]
      exact ⟨inv_resetValues hbound, fun _ => collected_resetValues h⟩
    · exact extend_spec h hrun (not_not.1 hlast).symm hbound (by rw [hrun])

theorem inv_clear : Inv a.clear := ⟨fun _ => ⟨rfl, rfl, rfl⟩, fun h => absurd h Bool.false_ne_true⟩

/-- `Callback` may hand the running range out again. -/
theorem callback_spec (h : Inv a) :
    Inv a.callback.2 ∧ ∀ byte, a.callback.2.Collected byte ↔ a.Collected byte := by
  cases hrun : a.hasCollected with
  | false => simp [callback, hrun, h]
  | true =>
    constructor
    · refine ⟨fun hfalse => ?_, fun _ => ?_⟩
      · simp [callback, hrun] at hfalse
      · simpa [callback, hrun] using h.running hrun
    · simp [Collected, callback, hrun, or_and_right, exists_or]

/-- A call keeps the invariant. -/
theorem inv_step (h : Inv a) {call : Call} (hvalid : call.Valid) : Inv (a.step call) := by
  cases call with
  | add address size => exact (add_spec h hvalid).1
  | clear => exact inv_clear
  | callback => exact (callback_spec h).1

/-- A range in the running one is collected. -/
theorem collected_of_inside (h : Inv a) (hvalid : (Call.add address size).Valid) (hinside : a.Inside address size)
    (hbyte : InRange (address, size) byte) : a.Collected byte := by
  obtain ⟨hpos, hlt⟩ := hvalid
  obtain ⟨hstart, hlast⟩ := hinside
  rw [BitVec.le_def] at hstart hlast
  rw [BitVec.toNat_add, Nat.mod_eq_of_lt (by omega)] at hlast
  cases hrun : a.hasCollected with
  | false =>
    rw [(h.idle hrun).2.1, BitVec.ofNat_eq_ofNat, BitVec.toNat_ofNat, Nat.zero_mod] at hlast
    omega
  | true =>
    have hsize := h.running hrun
    rw [collected_iff hrun]
    refine .inr ?_
    simp only [InRange] at hbyte ⊢
    omega

end Steps

section Runs

variable {calls : List Call} {call : Call}

theorem run_concat : run (calls ++ [call]) = (run calls).step call := by
  rw [run, run, foldl_append, foldl_cons, foldl_nil]

theorem added_concat : added (calls ++ [call]) = match call with
    | .add address size => added calls ++ [(address, size)]
    | .clear => []
    | .callback => added calls := by
  rw [added, added, foldl_append, foldl_cons, foldl_nil]

theorem inv_run (hvalid : ∀ c ∈ calls, c.Valid) : Inv (run calls) := by
  induction calls using reverseRecOn with
  | nil => exact inv_new
  | append_singleton calls call ih =>
    rw [run_concat]
    exact inv_step (ih fun c hc => hvalid c (mem_append_left _ hc)) (hvalid call (by simp))

/-- **Nothing outside the rounded ranges is collected**, in any run. -/
theorem run_within (hvalid : ∀ c ∈ calls, c.Valid) : Within calls := by
  induction calls using reverseRecOn with
  | nil =>
    intro byte hbyte
    exact absurd hbyte (not_collected rfl)
  | append_singleton calls call ih =>
    have hcalls : ∀ c ∈ calls, c.Valid := fun c hc => hvalid c (mem_append_left _ hc)
    have hinv := inv_run hcalls
    have hcall := hvalid call (by simp)
    intro byte hbyte
    rw [run_concat] at hbyte
    rw [added_concat]
    cases call with
    | add address size =>
      rcases ((add_spec hinv hcall).2 byte).1 hbyte with hold | ⟨-, hlow, hhigh⟩
      · obtain ⟨range, hmem, hrange⟩ := ih hcalls byte hold
        exact ⟨range, mem_append_left _ hmem, hrange⟩
      · refine ⟨(address, size), by simp, hlow, ?_⟩
        simp only
        omega
    | clear => exact absurd hbyte (not_collected rfl)
    | callback => exact ih hcalls byte (((callback_spec hinv).2 byte).1 hbyte)

/-- **A call loses no byte when it keeps those of its own range.** -/
theorem covers_concat_iff (hvalid : ∀ c ∈ calls ++ [call], c.Valid) (hcovers : Covers calls) :
    Covers (calls ++ [call]) ↔ ∀ address size, call = .add address size → (run calls).Keeps address size := by
  have hinv := inv_run fun c hc => hvalid c (mem_append_left _ hc)
  have hcall := hvalid call (by simp)
  rw [Covers, run_concat, added_concat]
  cases call with
  | add address size =>
    have hadd := (add_spec hinv hcall).2
    simp only [mem_append, mem_singleton, Call.add.injEq, and_imp]
    constructor
    · rintro h _ _ rfl rfl
      refine or_iff_not_imp_left.2 fun hinside byte hbyte hcut => ?_
      rcases (hadd byte).1 (h _ (.inr rfl) byte hbyte) with hold | ⟨-, -, hhigh⟩
      · exact hold
      · omega
    · rintro h range (hold | rfl) byte hbyte
      · exact (hadd byte).2 (.inl (hcovers range hold byte hbyte))
      · refine (hadd byte).2 ?_
        rcases h address size rfl rfl with hinside | hkeeps
        · exact .inl (collected_of_inside hinv hcall hinside hbyte)
        · by_cases hinside : (run calls).Inside address size
          · exact .inl (collected_of_inside hinv hcall hinside hbyte)
          · by_cases hcut : (address.toNat + size.toNat + 31) / 32 * 32 ≤ byte + address.toNat % 32
            · exact .inl (hkeeps byte hbyte hcut)
            · have hlow := hbyte.1
              simp only at hlow
              exact .inr ⟨hinside, by omega, by omega⟩
  | clear => simp
  | callback =>
    have hcallback := (callback_spec hinv).2
    simp only [reduceCtorEq, false_imp_iff, implies_true, iff_true]
    intro range hrange byte hbyte
    exact (hcallback byte).2 (hcovers range hrange byte hbyte)

/-- At every moment of a run the added ranges are covered just when each `Add` on the way keeps what it cuts
off. -/
theorem covers_iff (hvalid : ∀ c ∈ calls, c.Valid) :
    (∀ before, before <+: calls → Covers before) ↔
      ∀ before address size, before ++ [.add address size] <+: calls → (run before).Keeps address size := by
  induction calls using reverseRecOn with
  | nil =>
    constructor
    · intro _ before address size hbefore
      simp at hbefore
    · intro _ before hbefore range hrange
      rw [prefix_nil.1 hbefore] at hrange
      exact absurd hrange not_mem_nil
  | append_singleton calls call ih =>
    have ih := ih fun c hc => hvalid c (mem_append_left _ hc)
    simp only [prefix_concat_iff, append_singleton_inj]
    constructor
    · rintro h before address size (⟨rfl, rfl⟩ | hbefore)
      · exact (covers_concat_iff hvalid (h _ (.inr (prefix_refl _)))).1 (h _ (.inl rfl)) _ _ rfl
      · exact ih.1 (fun b hb => h b (.inr hb)) before address size hbefore
    · rintro h before (rfl | hbefore)
      · have hcovers := ih.2 (fun b x n hb => h b x n (.inr hb)) calls (prefix_refl _)
        exact (covers_concat_iff hvalid hcovers).2 fun x n hcall => h calls x n (.inl ⟨rfl, hcall.symm⟩)
      · exact ih.2 (fun b x n hb => h b x n (.inr hb)) before hbefore

/-- **A run loses no byte exactly when no call of it does.**  At every moment of a run `Callback` hands out every
byte of every range that was added since the last `Clear`, and none outside the rounded ranges, just when each
`Add` on the way is of a range that lies in the running one, or cuts off its end only what was collected before. -/
theorem collects_iff (calls : List Call) (hvalid : ∀ c ∈ calls, c.Valid) :
    (∀ before, before <+: calls → Covers before ∧ Within before) ↔
      ∀ before address size, before ++ [.add address size] <+: calls → (run before).Keeps address size := by
  rw [← covers_iff hvalid]
  constructor
  · intro h before hbefore
    exact (h before hbefore).1
  · intro h before hbefore
    exact ⟨h before hbefore, run_within fun c hc => hvalid c (hbefore.subset hc)⟩

/-- Two writes that join, one inside of them, and one in the lower half of a unit after everything was handed out
and cleared. -/
def joinedCalls : List Call :=
  [.add 0x20 0x20, .add 0x40 0x10, .add 0x28 0x10, .callback, .clear, .add 0x108 8, .callback]

/-- Every byte that was added is handed out at the end of the run and at each point of it, and none outside of the
units. -/
theorem collects_joinedCalls : Covers joinedCalls ∧ Within joinedCalls ∧
    ∀ before, before <+: joinedCalls → Covers before ∧ Within before := by
  have hprefixes : ∀ before, before <+: joinedCalls → Covers before ∧ Within before := by
    refine (collects_iff joinedCalls fun c hc => ?_).2 fun before address size ⟨rest, hcalls⟩ => ?_
    · simp only [joinedCalls, mem_cons, not_mem_nil, or_false] at hc
      rcases hc with rfl | rfl | rfl | rfl | rfl | rfl | rfl <;> simp [Call.Valid]
    · -- the third range lies in the running one, the others reach no byte that is cut off
      rcases before with _ | ⟨_, _ | ⟨_, _ | ⟨_, _ | ⟨_, _ | ⟨_, _ | ⟨_, _ | ⟨_, before⟩⟩⟩⟩⟩⟩⟩ <;>
        simp only [joinedCalls, nil_append, cons_append, append_assoc, cons.injEq, Call.add.injEq, reduceCtorEq,
          false_and, and_false] at hcalls
      · obtain ⟨⟨rfl, rfl⟩, -⟩ := hcalls
        exact .inr fun byte hbyte hcut => absurd hcut (by simp [InRange] at hbyte ⊢; omega)
      · obtain ⟨-, ⟨rfl, rfl⟩, -⟩ := hcalls
        exact .inr fun byte hbyte hcut => absurd hcut (by simp [InRange] at hbyte ⊢; omega)
      · obtain ⟨rfl, rfl, ⟨rfl, rfl⟩, -⟩ := hcalls
        exact .inl (by decide)
      · obtain ⟨-, -, -, -, -, ⟨rfl, rfl⟩, -⟩ := hcalls
        exact .inr fun byte hbyte hcut => absurd hcut (by simp [InRange] at hbyte ⊢; omega)
      · simp at hcalls
  obtain ⟨hcovers, hwithin⟩ := hprefixes joinedCalls (prefix_refl _)
  exact ⟨hcovers, hwithin, hprefixes⟩

/-- **The upper half of a unit is lost**: after a write of sixteen bytes at `0x10` the accumulator hands out the
bytes below `0x10`. -/
theorem upperHalf_lost : ¬∀ calls : List Call, (∀ c ∈ calls, c.Valid) → Covers calls ∧ Within calls := by
  intro h
  have hvalid : ∀ c ∈ [Call.add 0x10 0x10], c.Valid := by
    intro c hc
    obtain rfl := List.mem_singleton.1 hc
    exact ⟨by decide, by decide⟩
  obtain ⟨range, hrange, hlow, hhigh⟩ := (h _ hvalid).1 (0x10, 0x10) (by decide) 0x10 ⟨by decide, by decide⟩
  have hcallback : (run [.add 0x10 0x10]).callback.1 = [(0, 0x10)] := by decide
  rw [hcallback, List.mem_singleton] at hrange
  subst hrange
  exact absurd hhigh (by decide)

end Runs

end InvalidationAccumulator

end VideoCore
end NXEmu
