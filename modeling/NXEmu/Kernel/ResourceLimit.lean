/-
# Resource limits

`k_resource_limit.cpp`: for every resource how much may be reserved, how much is, how much of that counts
as taken for a caller that has to decide whether waiting is worth it (the hint), and the peak.  `Reserve`
that does not fit waits, without the lock, and looks again when it wakes; everything may have changed then.

The callers are threads that interleave between the sections under the lock.  What each of them has
reserved and not given back is kept in a ledger: the counters are its totals (`Reached.balanced`), and so
they stay in order whatever the interleaving is, and a `Reserve` changes the counters only when it
succeeds, by what it reserves (`Reached.keepsOrder`).
-/

import NXEmu.Lib.Exec
import NXEmu.Lib.Ledger
import Mathlib.Data.Int.Bitwise

namespace NXEmu
namespace Kernel

open Exec Function

/-- `LimitableResource` -/
inductive LimitableResource where
  | physicalMemoryMax
  | threadCountMax
  | eventCountMax
  | transferMemoryCountMax
  | sessionCountMax
deriving DecidableEq

/-- The values of `KResourceLimit` for one resource, all of them `s64`. -/
structure Counters where
  limitValue : ℤ
  currentValue : ℤ
  currentHint : ℤ
  peakValue : ℤ
deriving DecidableEq

/-- Whether a number is an `s64`. -/
def IsS64 (a : ℤ) : Prop := -2 ^ 63 ≤ a ∧ a < 2 ^ 63

/-- `Common::WrappingAdd` of `s64`. -/
def wrappingAdd (lhs rhs : ℤ) : ℤ := (BitVec.ofInt 64 lhs + BitVec.ofInt 64 rhs).toInt

/-- How a round of `Reserve` ends. -/
inductive Round where
  | granted (c : Counters)
  | refused
  | waits

namespace Counters

variable (c : Counters)

/-- `SetLimitValue` -/
def setLimitValue (value : ℤ) : Bool × Counters :=
  if c.currentValue ≤ value then (true, { c with limitValue := value, peakValue := c.currentValue })
  else (false, c)

/-- A round of the loop of `Reserve`, at the tick `tick`. -/
def reserveRound (value timeout tick : ℤ) : Exec Round := do
  Exec.assert (c.currentValue ≤ c.limitValue)
  Exec.assert (c.currentHint ≤ c.currentValue)
  if wrappingAdd c.currentValue value ≤ c.currentValue then return .refused
  else if c.currentValue + value ≤ c.limitValue then
    return .granted { c with
      currentValue := c.currentValue + value
      currentHint := c.currentHint + value
      peakValue := max c.peakValue (c.currentValue + value) }
  else if c.currentHint + value ≤ c.limitValue ∧ (timeout < 0 ∨ tick < timeout) then return .waits
  else return .refused

/-- `Reserve` up to where it returns or waits. -/
def reserve (value timeout tick : ℤ) : Exec Round := do
  Exec.assert (0 ≤ value)
  Exec.assert (c.currentHint ≤ c.currentValue)
  if c.limitValue ≤ c.currentHint then return .refused
  else c.reserveRound value timeout tick

/-- `Release`: the reservation is taken off the counters. -/
def release (value hint : ℤ) : Exec Counters := do
  Exec.assert (0 ≤ value)
  Exec.assert (0 ≤ hint)
  Exec.assert (c.currentValue ≤ c.limitValue)
  Exec.assert (c.currentHint ≤ c.currentValue)
  Exec.assert (value ≤ c.currentValue)
  Exec.assert (hint ≤ c.currentHint)
  return { c with currentValue := c.currentValue - value, currentHint := c.currentHint - hint }

/-! ### What a round does -/

/-- The counters in order. -/
structure InOrder (c : Counters) : Prop where
  hint_nonneg : 0 ≤ c.currentHint
  hint_le : c.currentHint ≤ c.currentValue
  le_limit : c.currentValue ≤ c.limitValue
  le_peak : c.currentValue ≤ c.peakValue
  limit : c.limitValue < 2 ^ 63

/-- **How a `Reserve` may end**: refused or to wait, without a change, or with what it reserves added. -/
inductive Ends (c : Counters) (value : ℤ) : Round → Prop
  | refused : Ends c value .refused
  | waits : Ends c value .waits
  | granted (hpos : 0 < value) (hle : c.currentValue + value ≤ c.limitValue) : Ends c value (.granted { c with
      currentValue := c.currentValue + value
      currentHint := c.currentHint + value
      peakValue := max c.peakValue (c.currentValue + value) })

variable {c} {value timeout tick : ℤ}

/-- What is not refused at once for an overflow reserves something, and does not overflow. -/
theorem lt_wrappingAdd (hc : InOrder c) (hvalue : IsS64 value)
    (hlt : c.currentValue < wrappingAdd c.currentValue value) : 0 < value ∧ c.currentValue + value < 2 ^ 63 := by
  have hcurrent : 0 ≤ c.currentValue := hc.hint_nonneg.trans hc.hint_le
  have hbound : c.currentValue < 2 ^ 63 := hc.le_limit.trans_lt hc.limit
  obtain ⟨hlow, hhigh⟩ := hvalue
  rw [wrappingAdd, ← BitVec.ofInt_add, BitVec.toInt_ofInt] at hlt
  rw [Int.bmod_def] at hlt
  split_ifs at hlt <;> omega

theorem reserveRound_spec (hc : InOrder c) (hvalue : IsS64 value) (timeout tick : ℤ) :
    wp (c.reserveRound value timeout tick) fun round held => held = true ∧ Ends c value round := by
  rw [reserveRound]
  simp only [wp_bind, wp_assert]
  split_ifs with hover hfits hwait
  · simp only [pure_eq, wp_ret]
    exact ⟨by simp [hc.le_limit, hc.hint_le], .refused⟩
  · simp only [pure_eq, wp_ret]
    exact ⟨by simp [hc.le_limit, hc.hint_le], .granted (lt_wrappingAdd hc hvalue (not_le.1 hover)).1 hfits⟩
  · simp only [pure_eq, wp_ret]
    exact ⟨by simp [hc.le_limit, hc.hint_le], .waits⟩
  · simp only [pure_eq, wp_ret]
    exact ⟨by simp [hc.le_limit, hc.hint_le], .refused⟩

theorem reserve_spec (hc : InOrder c) (hvalue : IsS64 value) (timeout tick : ℤ) :
    wp (c.reserve value timeout tick) fun round held => (held = true ↔ 0 ≤ value) ∧ Ends c value round := by
  rw [reserve]
  simp only [wp_bind, wp_assert]
  split_ifs
  · simp only [pure_eq, wp_ret]
    exact ⟨by simp [hc.hint_le], .refused⟩
  · refine wp_mono (reserveRound_spec hc hvalue timeout tick) ?_
    rintro round held ⟨rfl, hends⟩
    exact ⟨by simp [hc.hint_le], hends⟩

theorem release_eq {hint : ℤ} (hc : InOrder c) (hvalue : 0 ≤ value) (hhint : 0 ≤ hint) (hle : value ≤ c.currentValue)
    (hle' : hint ≤ c.currentHint) : c.release value hint =
      .ret { c with currentValue := c.currentValue - value, currentHint := c.currentHint - hint } true := by
  simp only [release, assert, decide_eq_true hvalue, decide_eq_true hhint, decide_eq_true hc.le_limit,
    decide_eq_true hc.hint_le, decide_eq_true hle, decide_eq_true hle', ret_true_bind, pure_eq]

end Counters

/-! ### Callers that interleave -/

open Ledger

/-- The limits, the callers that wait in `Reserve`, and what every caller has reserved and not given back. -/
structure System (Caller : Type) where
  counters : LimitableResource → Counters
  waiting : Caller → Option (LimitableResource × ℤ × ℤ)
  value : LimitableResource → (Caller →₀ ℤ)
  hint : LimitableResource → (Caller →₀ ℤ)

/-- A section under the lock. -/
inductive Event (Caller : Type) where
  | setLimitValue (which : LimitableResource) (value : ℤ)
  | reserve (caller : Caller) (which : LimitableResource) (value : ℤ) (round : Round)
  | release (caller : Caller) (which : LimitableResource) (value hint : ℤ)

/-- What of its reservations a caller may release: no more than is left of them, and the hint not later
than the value. -/
def MayRelease (value hint released releasedHint : ℤ) : Prop :=
  0 ≤ released ∧ released ≤ value ∧ 0 ≤ releasedHint ∧ releasedHint ≤ hint ∧ hint - releasedHint ≤ value - released

instance (value hint released releasedHint : ℤ) : Decidable (MayRelease value hint released releasedHint) :=
  inferInstanceAs (Decidable (_ ∧ _))

namespace System

variable {Caller : Type} [DecidableEq Caller]

/-- `KResourceLimit` as it is created. -/
def initial : System Caller := ⟨fun _ => ⟨0, 0, 0, 0⟩, fun _ => none, fun _ => 0, fun _ => 0⟩

/-- What is left when a round of `Reserve` ends. -/
noncomputable def settle (s : System Caller) (caller : Caller) (which : LimitableResource) (value timeout : ℤ) :
    Round → System Caller
  | .granted c => {
      counters := Function.update s.counters which c
      waiting := Function.update s.waiting caller none
      value := Function.update s.value which ((s.value which).update caller (s.value which caller + value))
      hint := Function.update s.hint which ((s.hint which).update caller (s.hint which caller + value)) }
  | .refused => { s with waiting := Function.update s.waiting caller none }
  | .waits => { s with waiting := Function.update s.waiting caller (some (which, value, timeout)) }

/-- What a caller does next: a limit is set, a `Reserve` begins or wakes, or something is released. -/
inductive Step (s : System Caller) : Event Caller → System Caller → Prop
  | setLimitValue (which : LimitableResource) (value : ℤ) (hvalue : IsS64 value) :
      Step s (.setLimitValue which value)
        { s with counters := Function.update s.counters which ((s.counters which).setLimitValue value).2 }
  | reserve {caller : Caller} {which : LimitableResource} {value timeout tick : ℤ} {round : Round} {held : Bool}
      (hidle : s.waiting caller = none) (hvalue : IsS64 value)
      (hround : (s.counters which).reserve value timeout tick = .ret round held) :
      Step s (.reserve caller which value round) (s.settle caller which value timeout round)
  | wake {caller : Caller} {which : LimitableResource} {value timeout tick : ℤ} {round : Round} {held : Bool}
      (hwaiting : s.waiting caller = some (which, value, timeout))
      (hround : (s.counters which).reserveRound value timeout tick = .ret round held) :
      Step s (.reserve caller which value round) (s.settle caller which value timeout round)
  | release {caller : Caller} {which : LimitableResource} {value hint : ℤ} {c : Counters} {held : Bool}
      (hmay : MayRelease (s.value which caller) (s.hint which caller) value hint)
      (hrelease : (s.counters which).release value hint = .ret c held) :
      Step s (.release caller which value hint) { s with
        counters := Function.update s.counters which c
        value := Function.update s.value which ((s.value which).update caller (s.value which caller - value))
        hint := Function.update s.hint which ((s.hint which).update caller (s.hint which caller - hint)) }

/-- The states that can be reached. -/
inductive Reached : System Caller → Prop
  | initial : Reached initial
  | step {s s' : System Caller} {e : Event Caller} (h : Reached s) (hstep : Step s e s') : Reached s'

/-- **The counters are the totals of the ledgers**, and nobody holds a hint without its value. -/
structure Balanced (s : System Caller) : Prop where
  inOrder : ∀ which, (s.counters which).InOrder
  current : ∀ which, (s.counters which).currentValue = total (s.value which)
  hint : ∀ which, (s.counters which).currentHint = total (s.hint which)
  shares : ∀ which caller, 0 ≤ s.hint which caller ∧ s.hint which caller ≤ s.value which caller
  waiting : ∀ caller which value timeout, s.waiting caller = some (which, value, timeout) → IsS64 value

variable {s s' : System Caller} {e : Event Caller}

omit [DecidableEq Caller] in
theorem balanced_initial : Balanced (initial : System Caller) where
  inOrder _ := ⟨le_rfl, le_rfl, le_rfl, le_rfl, show (0 : ℤ) < 2 ^ 63 by decide⟩
  current _ := total_zero.symm
  hint _ := total_zero.symm
  shares _ _ := ⟨le_rfl, le_rfl⟩
  waiting _ _ _ _ h := by cases h

/-- Changing what one caller holds of one resource, with its counters. -/
theorem Balanced.change (h : Balanced s) {caller : Caller} {which : LimitableResource} {c : Counters} {value hint : ℤ}
    (hlimit : c.currentValue ≤ c.limitValue) (hpeak : c.currentValue ≤ c.peakValue) (hbound : c.limitValue < 2 ^ 63)
    (hcurrent : c.currentValue = (s.counters which).currentValue + (value - s.value which caller))
    (hhint : c.currentHint = (s.counters which).currentHint + (hint - s.hint which caller))
    (hshare : 0 ≤ hint ∧ hint ≤ value) {waiting : Caller → Option (LimitableResource × ℤ × ℤ)}
    (hwaiting : ∀ caller which value timeout, waiting caller = some (which, value, timeout) → IsS64 value) :
    Balanced ⟨update s.counters which c, waiting, update s.value which ((s.value which).update caller value),
      update s.hint which ((s.hint which).update caller hint)⟩ := by
  have hshares : ∀ other, 0 ≤ (s.hint which).update caller hint other ∧
      (s.hint which).update caller hint other ≤ (s.value which).update caller value other := by
    intro other
    rw [Finsupp.coe_update, Finsupp.coe_update]
    by_cases hother : other = caller
    · rw [hother, update_self, update_self]
      exact hshare
    · rw [update_of_ne hother, update_of_ne hother]
      exact h.shares which other
  rw [h.current, ← total_update] at hcurrent
  rw [h.hint, ← total_update] at hhint
  refine ⟨fun w => ?_, fun w => ?_, fun w => ?_, fun w other => ?_, hwaiting⟩ <;> dsimp only <;>
    by_cases hw : w = which
  · rw [hw, update_self]
    refine ⟨?_, ?_, hlimit, hpeak, hbound⟩
    · rw [hhint]
      exact total_nonneg fun other => (hshares other).1
    · rw [hhint, hcurrent]
      exact total_le_total fun other => (hshares other).2
  · rw [update_of_ne hw]
    exact h.inOrder w
  · rw [hw, update_self, update_self, hcurrent]
  · rw [update_of_ne hw, update_of_ne hw]
    exact h.current w
  · rw [hw, update_self, update_self, hhint]
  · rw [update_of_ne hw, update_of_ne hw]
    exact h.hint w
  · rw [hw, update_self, update_self]
    exact hshares other
  · rw [update_of_ne hw, update_of_ne hw]
    exact h.shares w other

theorem waiting_update {caller : Caller} {w : Option (LimitableResource × ℤ × ℤ)} (h : Balanced s)
    (hw : ∀ which value timeout, w = some (which, value, timeout) → IsS64 value) (other : Caller)
    (which : LimitableResource) (value timeout : ℤ)
    (hother : update s.waiting caller w other = some (which, value, timeout)) : IsS64 value := by
  by_cases hne : other = caller
  · rw [hne, update_self] at hother
    exact hw which value timeout hother
  · rw [update_of_ne hne] at hother
    exact h.waiting other which value timeout hother

/-- **A round of `Reserve`** keeps the balance. -/
theorem Balanced.settle (h : Balanced s) {caller : Caller} {which : LimitableResource} {value timeout : ℤ}
    {round : Round} (hvalue : IsS64 value) (hends : (s.counters which).Ends value round) :
    Balanced (s.settle caller which value timeout round) := by
  have hnone : ∀ (which : LimitableResource) (value timeout : ℤ),
      (none : Option (LimitableResource × ℤ × ℤ)) = some (which, value, timeout) → IsS64 value :=
    fun _ _ _ hw => by cases hw
  cases hends with
  | refused => exact { h with waiting := waiting_update h hnone }
  | waits =>
    refine { h with waiting := waiting_update h fun w v t hw => ?_ }
    obtain ⟨rfl, rfl, rfl⟩ := by simpa only [Option.some.injEq, Prod.mk.injEq] using hw
    exact hvalue
  | granted hpos hle =>
    obtain ⟨hlow, hhigh⟩ := h.shares which caller
    refine h.change (c := { s.counters which with
      currentValue := (s.counters which).currentValue + value
      currentHint := (s.counters which).currentHint + value
      peakValue := max (s.counters which).peakValue ((s.counters which).currentValue + value) })
      hle (le_max_right _ _) (h.inOrder which).limit ?_ ?_ ⟨?_, ?_⟩ (waiting_update h hnone)
    · dsimp only
      omega
    · dsimp only
      omega
    · omega
    · omega

theorem Balanced.step (h : Balanced s) (hstep : Step s e s') : Balanced s' := by
  cases hstep with
  | setLimitValue which value hvalue =>
    have hc := h.inOrder which
    have hset : ((s.counters which).setLimitValue value).2.InOrder ∧
        ((s.counters which).setLimitValue value).2.currentValue = (s.counters which).currentValue ∧
        ((s.counters which).setLimitValue value).2.currentHint = (s.counters which).currentHint := by
      rw [Counters.setLimitValue]
      split_ifs with hle
      · exact ⟨⟨hc.hint_nonneg, hc.hint_le, hle, le_rfl, hvalue.2⟩, rfl, rfl⟩
      · exact ⟨hc, rfl, rfl⟩
    refine ⟨fun w => ?_, fun w => ?_, fun w => ?_, h.shares, h.waiting⟩ <;> dsimp only <;> by_cases hw : w = which
    · rw [hw, update_self]
      exact hset.1
    · rw [update_of_ne hw]
      exact h.inOrder w
    · rw [hw, update_self, hset.2.1, h.current]
    · rw [update_of_ne hw]
      exact h.current w
    · rw [hw, update_self, hset.2.2, h.hint]
    · rw [update_of_ne hw]
      exact h.hint w
  | @reserve caller which value timeout tick round held hidle hvalue hround =>
    obtain ⟨round', held', hround', -, hends⟩ := Counters.reserve_spec (h.inOrder which) hvalue timeout tick
    rw [hround] at hround'
    cases hround'
    exact h.settle hvalue hends
  | @wake caller which value timeout tick round held hwaiting hround =>
    have hvalue := h.waiting caller which value timeout hwaiting
    obtain ⟨round', held', hround', -, hends⟩ := Counters.reserveRound_spec (h.inOrder which) hvalue timeout tick
    rw [hround] at hround'
    cases hround'
    exact h.settle hvalue hends
  | @release caller which value hint c held hmay hrelease =>
    obtain ⟨hvalue, hle, hhint, hle', hlater⟩ := hmay
    have hc := h.inOrder which
    -- a share is no more than the total, which is what the counter shows
    have hcurrent : s.value which caller ≤ (s.counters which).currentValue := by
      rw [h.current]
      exact le_total fun i => (h.shares which i).1.trans (h.shares which i).2
    have hhints : s.hint which caller ≤ (s.counters which).currentHint := by
      rw [h.hint]
      exact le_total fun i => (h.shares which i).1
    rw [Counters.release_eq hc hvalue hhint (hle.trans hcurrent) (hle'.trans hhints)] at hrelease
    cases hrelease
    refine h.change (c := { s.counters which with
      currentValue := (s.counters which).currentValue - value
      currentHint := (s.counters which).currentHint - hint }) ?_ ?_ hc.limit ?_ ?_ ⟨?_, hlater⟩ h.waiting
    · exact (Int.sub_le_self _ hvalue).trans hc.le_limit
    · exact (Int.sub_le_self _ hvalue).trans hc.le_peak
    · dsimp only
      omega
    · dsimp only
      omega
    · omega

theorem Reached.balanced (h : Reached s) : Balanced s := by
  induction h with
  | initial => exact balanced_initial
  | step _ hstep ih => exact ih.step hstep

/-- **What a section of `Reserve` does to the counters**: one that succeeds adds what is reserved, and any
other changes none. -/
def Right (s : System Caller) (e : Event Caller) (s' : System Caller) : Prop :=
  match e with
  | .reserve _ which value (.granted c) => s'.counters = Function.update s.counters which c ∧
    c.currentValue = (s.counters which).currentValue + value ∧
    c.currentHint = (s.counters which).currentHint + value ∧
    c.peakValue = max (s.counters which).peakValue c.currentValue ∧ c.limitValue = (s.counters which).limitValue
  | .reserve _ _ _ .refused => s'.counters = s.counters
  | .reserve _ _ _ .waits => s'.counters = s.counters
  | _ => True

theorem right_settle {caller : Caller} {which : LimitableResource} {value timeout : ℤ} {round : Round}
    (hends : (s.counters which).Ends value round) :
    Right s (.reserve caller which value round) (s.settle caller which value timeout round) := by
  cases hends with
  | refused => rfl
  | waits => rfl
  | granted _ _ => exact ⟨rfl, rfl, rfl, rfl, rfl⟩

/-- **Whatever the interleaving of the callers is**, the counters are in order, and a `Reserve` changes them
by what it reserves when it succeeds and not at all when it does not. -/
theorem Reached.keepsOrder (h : Reached s) : (∀ which, (s.counters which).InOrder) ∧
    ∀ e s', Step s e s' → Right s e s' := by
  refine ⟨h.balanced.inOrder, fun e s' hstep => ?_⟩
  cases hstep with
  | setLimitValue => trivial
  | @reserve caller which value timeout tick round held hidle hvalue hround =>
    obtain ⟨round', held', hround', -, hends⟩ :=
      Counters.reserve_spec (h.balanced.inOrder which) hvalue timeout tick
    rw [hround] at hround'
    cases hround'
    exact right_settle hends
  | @wake caller which value timeout tick round held hwaiting hround =>
    obtain ⟨round', held', hround', -, hends⟩ := Counters.reserveRound_spec (h.balanced.inOrder which)
      (h.balanced.waiting caller which value timeout hwaiting) timeout tick
    rw [hround] at hround'
    cases hround'
    exact right_settle hends
  | release => trivial

/-- One of ten places for threads is reserved. -/
theorem inOrder_one : ∃ s : System ℕ, (s.counters .threadCountMax).currentValue = 1 ∧
    (∀ which, (s.counters which).InOrder) ∧ ∀ e s', Step s e s' → Right s e s' := by
  have hlimited := Reached.step (.initial : Reached (initial : System ℕ))
    (.setLimitValue .threadCountMax 10 ⟨by decide, by decide⟩)
  have hreserved := hlimited.step (@Step.reserve ℕ _ _ 0 .threadCountMax 1 (-1) 0 (.granted ⟨10, 1, 1, 1⟩) true
    rfl ⟨by decide, by decide⟩ rfl)
  exact ⟨_, rfl, Reached.keepsOrder hreserved⟩

end System

end Kernel
end NXEmu
