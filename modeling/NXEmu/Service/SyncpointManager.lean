/-
# Syncpoints

`src/nxemu-os/core/hle/service/nvdrv/core/syncpoint_manager.{h,cpp}`, for one syncpoint.  Its counters
have 32 bits and wrap around.  Behind them are counts without bound (`Counts`): what has been submitted,
what the host has done, and the host's count when the cached lower value was read.  While these stay
within 2 ^ 31 of each other, both comparisons of `HasSyncpointExpired` compare the counts
(`hasSyncpointExpired_iff`).

The host may go on between the two checks of `PollSyncpoint`, so many times as its last argument says.
-/

import Mathlib.Algebra.Order.Group.Nat
import Mathlib.Tactic.Common

namespace NXEmu
namespace Service

/-- `SyncpointInfo`, with the value of the syncpoint of the host. -/
structure Syncpoint where
  counterMin : BitVec 32
  counterMax : BitVec 32
  hostValue : BitVec 32
  interfaceManaged : Bool
  reserved : Bool

namespace Syncpoint

/-- `HasSyncpointExpired`. -/
def hasSyncpointExpired (s : Syncpoint) (threshold : BitVec 32) : Bool :=
  if s.interfaceManaged then decide (0 ≤ (s.counterMin - threshold).toInt)
  else decide (s.counterMin - threshold ≤ s.counterMax - threshold)

/-- `IncrementSyncpointMaxExt`. -/
def incrementSyncpointMaxExt (s : Syncpoint) (amount : BitVec 32) : BitVec 32 × Syncpoint :=
  if s.reserved then (s.counterMax + amount, { s with counterMax := s.counterMax + amount })
  else (0, s)

/-- `HostSyncpointIncrement`, so many times. -/
def hostIncrements (s : Syncpoint) (times : ℕ) : Syncpoint :=
  { s with hostValue := s.hostValue + BitVec.ofNat 32 times }

/-- `IncrementSyncpoint`. -/
def incrementSyncpoint (s : Syncpoint) : Syncpoint :=
  (if s.interfaceManaged then { s with counterMax := s.counterMax + 1 } else s).hostIncrements 1

/-- `UpdateMin`. -/
def updateMin (s : Syncpoint) : Syncpoint := { s with counterMin := s.hostValue }

/-- `PollSyncpoint`, with `value`. -/
def pollSyncpoint (s : Syncpoint) (threshold : BitVec 32) (arrivals : ℕ) :
    (Bool × BitVec 32) × Syncpoint :=
  if s.hasSyncpointExpired threshold then ((true, s.counterMin), s)
  else
    let s := (s.hostIncrements arrivals).updateMin
    if s.hasSyncpointExpired threshold then ((true, s.counterMin), s) else ((false, 0), s)

/-- The value of `GetSyncpointFence`. -/
def getSyncpointFence (s : Syncpoint) : BitVec 32 := if s.reserved then s.counterMax else 0

end Syncpoint

/-- The counts behind the counters. -/
structure Counts where
  submitted : ℕ
  host : ℕ
  cached : ℕ

/-- The host does what is submitted, and what is cached does not trail by half of the range. -/
structure Counts.Bounded (c : Counts) : Prop where
  host_le : c.host ≤ c.submitted
  host_near : c.submitted - c.host < 2 ^ 31
  cached_near : c.submitted - c.cached < 2 ^ 31

/-- The counters are the residues of the counts. -/
structure Represents (s : Syncpoint) (c : Counts) : Prop where
  reserved : s.reserved = true
  max_eq : s.counterMax = BitVec.ofNat 32 c.submitted
  host_eq : s.hostValue = BitVec.ofNat 32 c.host
  min_eq : s.counterMin = BitVec.ofNat 32 c.cached
  cached_le : c.cached ≤ c.host
  bounded : c.Bounded

/-- What happens to a syncpoint. -/
inductive SyncpointAction where
  | incrementMaxExt (amount : BitVec 32)
  | hostIncrement
  | increment
  | poll (threshold : BitVec 32) (arrivals : ℕ)

/-- An action, on the counters and on the counts. -/
def syncpointStep (σ : Syncpoint × Counts) : SyncpointAction → Syncpoint × Counts
  | .incrementMaxExt amount =>
      ((σ.1.incrementSyncpointMaxExt amount).2, { σ.2 with submitted := σ.2.submitted + amount.toNat })
  | .hostIncrement => (σ.1.hostIncrements 1, { σ.2 with host := σ.2.host + 1 })
  | .increment => (σ.1.incrementSyncpoint, { σ.2 with
      submitted := if σ.1.interfaceManaged then σ.2.submitted + 1 else σ.2.submitted
      host := σ.2.host + 1 })
  | .poll threshold arrivals =>
      ((σ.1.pollSyncpoint threshold arrivals).2,
        if σ.1.hasSyncpointExpired threshold then σ.2
        else ⟨σ.2.submitted, σ.2.host + arrivals, σ.2.host + arrivals⟩)

/-- The runs whose counts stay within bounds. -/
inductive SyncpointRun (σ : Syncpoint × Counts) : Syncpoint × Counts → Prop
  | refl : SyncpointRun σ σ
  | step {τ : Syncpoint × Counts} (run : SyncpointRun σ τ) (action : SyncpointAction)
      (bounded : (syncpointStep τ action).2.Bounded) : SyncpointRun σ (syncpointStep τ action)

variable {s : Syncpoint} {c : Counts} {σ τ : Syncpoint × Counts} {V : ℕ}

theorem toNat_sub_ofNat (m v : ℕ) : (BitVec.ofNat 32 m - BitVec.ofNat 32 v).toNat =
    (2 ^ 32 - v % 2 ^ 32 + m % 2 ^ 32) % 2 ^ 32 := by
  rw [BitVec.toNat_sub, BitVec.toNat_ofNat, BitVec.toNat_ofNat]

/-- **Both comparisons** ask whether the cached count has come to that of the fence. -/
theorem hasSyncpointExpired_iff (h : Represents s c) (hV : V ≤ c.submitted) (hnear : c.submitted - V < 2 ^ 31) :
    s.hasSyncpointExpired (BitVec.ofNat 32 V) = true ↔ V ≤ c.cached := by
  have hcached := h.bounded.cached_near
  have hhost := h.bounded.host_le
  have hle := h.cached_le
  unfold Syncpoint.hasSyncpointExpired
  rw [h.min_eq, h.max_eq]
  split
  · rw [decide_eq_true_iff, BitVec.toInt_eq_toNat_cond, toNat_sub_ofNat]
    split <;> omega
  · rw [decide_eq_true_iff, BitVec.le_def, toNat_sub_ofNat, toNat_sub_ofNat]
    omega

/-- **An action keeps** the counters the residues of the counts. -/
theorem Represents.step (h : Represents σ.1 σ.2) (action : SyncpointAction)
    (hbounded : (syncpointStep σ action).2.Bounded) :
    Represents (syncpointStep σ action).1 (syncpointStep σ action).2 := by
  obtain ⟨s, c⟩ := σ
  obtain ⟨hreserved, hmax, hhost, hmin, hle, -⟩ := h
  dsimp only at hreserved hmax hhost hmin hle
  cases action with
  | incrementMaxExt amount =>
    refine ⟨?_, ?_, ?_, ?_, hle, hbounded⟩ <;>
      simp [syncpointStep, Syncpoint.incrementSyncpointMaxExt, hreserved, hmax, hhost, hmin, BitVec.ofNat_add]
  | hostIncrement =>
    refine ⟨?_, ?_, ?_, ?_, Nat.le_succ_of_le hle, hbounded⟩ <;>
      simp [syncpointStep, Syncpoint.hostIncrements, hreserved, hmax, hhost, hmin, BitVec.ofNat_add]
  | increment =>
    refine ⟨?_, ?_, ?_, ?_, Nat.le_succ_of_le hle, hbounded⟩ <;> cases hmanaged : s.interfaceManaged <;>
      simp [syncpointStep, Syncpoint.incrementSyncpoint, Syncpoint.hostIncrements, hreserved, hmax, hhost,
        hmin, hmanaged, BitVec.ofNat_add]
  | poll threshold arrivals =>
    unfold syncpointStep Syncpoint.pollSyncpoint at hbounded ⊢
    dsimp only at hbounded ⊢
    split at hbounded
    next hexpired =>
      rw [if_pos hexpired, if_pos hexpired]
      exact ⟨hreserved, hmax, hhost, hmin, hle, hbounded⟩
    next hnot =>
      rw [if_neg hnot, if_neg hnot]
      refine ⟨?_, ?_, ?_, ?_, le_rfl, hbounded⟩ <;> split <;>
        simp [Syncpoint.hostIncrements, Syncpoint.updateMin, hreserved, hmax, hhost, BitVec.ofNat_add]

/-- The counts do not go down. -/
theorem le_syncpointStep (σ : Syncpoint × Counts) (action : SyncpointAction) :
    σ.2.submitted ≤ (syncpointStep σ action).2.submitted ∧ σ.2.host ≤ (syncpointStep σ action).2.host := by
  cases action with
  | incrementMaxExt amount => exact ⟨Nat.le_add_right _ _, le_rfl⟩
  | hostIncrement => exact ⟨le_rfl, Nat.le_succ _⟩
  | increment =>
    refine ⟨?_, Nat.le_succ _⟩
    simp only [syncpointStep]
    split <;> omega
  | poll threshold arrivals =>
    simp only [syncpointStep]
    split
    · exact ⟨le_rfl, le_rfl⟩
    · exact ⟨le_rfl, Nat.le_add_right _ _⟩

/-- **What a run keeps**: the counters are the residues of the counts, which do not go down. -/
theorem SyncpointRun.represents (hrun : SyncpointRun σ τ) (h : Represents σ.1 σ.2) :
    Represents τ.1 τ.2 ∧ σ.2.submitted ≤ τ.2.submitted ∧ σ.2.host ≤ τ.2.host := by
  induction hrun with
  | refl => exact ⟨h, le_rfl, le_rfl⟩
  | @step τ run action hbounded ih =>
    obtain ⟨hτ, hsubmitted, hhost⟩ := ih
    have hle := le_syncpointStep τ action
    exact ⟨hτ.step action hbounded, hsubmitted.trans hle.1, hhost.trans hle.2⟩

/-- **`PollSyncpoint` is exact.**  Of a fence that was obtained in a run it says whether the host has
come to its count when the host value is read; once it has said so it goes on to, and the cached value
never says so of a fence that the host has not reached. -/
theorem pollSyncpoint_exact {start fenced : Syncpoint × Counts} (hstart : Represents start.1 start.2)
    (hbefore : SyncpointRun start fenced) (hafter : SyncpointRun fenced τ)
    (hnear : τ.2.submitted - fenced.2.submitted < 2 ^ 31) (arrivals : ℕ)
    (hbounded : (syncpointStep τ (.poll fenced.1.getSyncpointFence arrivals)).2.Bounded) :
    ((τ.1.pollSyncpoint fenced.1.getSyncpointFence arrivals).1.1 = true ↔
        fenced.2.submitted ≤ (syncpointStep τ (.poll fenced.1.getSyncpointFence arrivals)).2.host) ∧
      (τ.1.hasSyncpointExpired fenced.1.getSyncpointFence = true →
        fenced.2.submitted ≤ τ.2.host) ∧
      ∀ later laterArrivals, (τ.1.pollSyncpoint fenced.1.getSyncpointFence arrivals).1.1 = true →
        SyncpointRun (syncpointStep τ (.poll fenced.1.getSyncpointFence arrivals)) later →
        later.2.submitted - fenced.2.submitted < 2 ^ 31 →
        (syncpointStep later (.poll fenced.1.getSyncpointFence laterArrivals)).2.Bounded →
        (later.1.pollSyncpoint fenced.1.getSyncpointFence laterArrivals).1.1 = true := by
  obtain ⟨hfenced, -, -⟩ := hbefore.represents hstart
  have hfence : fenced.1.getSyncpointFence = BitVec.ofNat 32 fenced.2.submitted := by
    unfold Syncpoint.getSyncpointFence
    rw [if_pos hfenced.reserved, hfenced.max_eq]
  rw [hfence] at hbounded ⊢
  -- one poll, in a state that a run has come to
  have hpoll : ∀ {τ : Syncpoint × Counts} {arrivals : ℕ}, Represents τ.1 τ.2 →
      fenced.2.submitted ≤ τ.2.submitted → τ.2.submitted - fenced.2.submitted < 2 ^ 31 →
      (syncpointStep τ (.poll (BitVec.ofNat 32 fenced.2.submitted) arrivals)).2.Bounded →
      ((τ.1.pollSyncpoint (BitVec.ofNat 32 fenced.2.submitted) arrivals).1.1 = true ↔
        fenced.2.submitted ≤
          (syncpointStep τ (.poll (BitVec.ofNat 32 fenced.2.submitted) arrivals)).2.host) := by
    intro τ arrivals hτ hle hnear hbounded
    have hstep := hτ.step _ hbounded
    have hcached := hasSyncpointExpired_iff hτ hle hnear
    have hhost := hτ.cached_le
    unfold syncpointStep Syncpoint.pollSyncpoint at hstep ⊢
    dsimp only at hstep ⊢
    by_cases hexpired : τ.1.hasSyncpointExpired (BitVec.ofNat 32 fenced.2.submitted) = true
    · rw [if_pos hexpired, if_pos hexpired]
      exact iff_of_true rfl ((hcached.1 hexpired).trans hhost)
    · rw [if_neg hexpired, if_neg hexpired] at hstep ⊢
      split at hstep
      next hread =>
        rw [if_pos hread]
        exact iff_of_true rfl ((hasSyncpointExpired_iff hstep hle hnear).1 hread)
      next hread =>
        rw [if_neg hread]
        exact iff_of_false nofun fun h => hread ((hasSyncpointExpired_iff hstep hle hnear).2 h)
  obtain ⟨hτ, hle, -⟩ := hafter.represents hfenced
  refine ⟨hpoll hτ hle hnear hbounded, fun hexpired => ?_, fun later laterArrivals htrue hrun hnear'
    hbounded' => ?_⟩
  · exact ((hasSyncpointExpired_iff hτ hle hnear).1 hexpired).trans hτ.cached_le
  · obtain ⟨hlater, hle', hhost'⟩ := hrun.represents (hτ.step _ hbounded)
    have hsubmitted : (syncpointStep τ
        (.poll (BitVec.ofNat 32 fenced.2.submitted) arrivals)).2.submitted = τ.2.submitted := by
      dsimp only [syncpointStep]
      split <;> rfl
    have hread := (hpoll hτ hle hnear hbounded).1 htrue
    have hhost := le_syncpointStep later (.poll (BitVec.ofNat 32 fenced.2.submitted) laterArrivals)
    exact (hpoll hlater (by omega) hnear' hbounded').2 (hread.trans (hhost'.trans hhost.2))

/-- A syncpoint that clients do not manage, one increment before its counters wrap around. -/
def lastSyncpoint : Syncpoint × Counts :=
  (⟨0xFFFFFFFF, 0xFFFFFFFF, 0xFFFFFFFF, false, true⟩, ⟨2 ^ 32 - 1, 2 ^ 32 - 1, 2 ^ 32 - 1⟩)

/-- Three increments are submitted. -/
def submittedSyncpoint : Syncpoint × Counts := syncpointStep lastSyncpoint (.incrementMaxExt 3)

/-- The host does one of them. -/
def startedSyncpoint : Syncpoint × Counts := syncpointStep submittedSyncpoint .hostIncrement

/-- The fence for them is 2.  A poll during which the host does the other two says that it is reached, and so does
every later one. -/
theorem pollSyncpoint_exact_wrapped : submittedSyncpoint.1.getSyncpointFence = 2 ∧
    (startedSyncpoint.1.pollSyncpoint 2 2).1.1 = true ∧
    submittedSyncpoint.2.submitted ≤ (syncpointStep startedSyncpoint (.poll 2 2)).2.host ∧
    (startedSyncpoint.1.hasSyncpointExpired 2 = true → submittedSyncpoint.2.submitted ≤ startedSyncpoint.2.host) ∧
    ∀ later arrivals, SyncpointRun (syncpointStep startedSyncpoint (.poll 2 2)) later →
      later.2.submitted - submittedSyncpoint.2.submitted < 2 ^ 31 → (syncpointStep later (.poll 2 arrivals)).2.Bounded →
      (later.1.pollSyncpoint 2 arrivals).1.1 = true := by
  have hstart : Represents lastSyncpoint.1 lastSyncpoint.2 :=
    ⟨rfl, rfl, rfl, rfl, le_rfl, by decide, by decide, by decide⟩
  have hsubmitted : SyncpointRun lastSyncpoint submittedSyncpoint :=
    .step .refl (.incrementMaxExt 3) ⟨by decide, by decide, by decide⟩
  have hstarted : SyncpointRun submittedSyncpoint startedSyncpoint :=
    .step .refl .hostIncrement ⟨by decide, by decide, by decide⟩
  have htrue : (startedSyncpoint.1.pollSyncpoint 2 2).1.1 = true := by decide
  obtain ⟨hexact, hcached, hstays⟩ := pollSyncpoint_exact hstart hsubmitted hstarted (by decide) 2
    ⟨by decide, by decide, by decide⟩
  exact ⟨rfl, htrue, hexact.1 htrue, hcached, fun later arrivals => hstays later arrivals htrue⟩

end Service
end NXEmu
