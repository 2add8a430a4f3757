/-
# What holds of the shared clock in every run

`src/nxemu-os/core/shared_cpu_clock.h`: after `Reset` and any atomic calls, at readings of a host clock
that does not go back, the published time is not past that of any active core nor past the pace clock
(`Sound`).  From it follows what the clock promises (`Promises`): no subtraction wraps, `Now` never goes
back, stands still in a pause and for a core that compiles, and follows the host when no core is active.
-/

import NXEmu.Timing.SharedCpuClock

namespace NXEmu
namespace Core
namespace Timing

namespace SharedCpuClock

open List

/-- The time of a core at a reading of the host clock: it stands still in a pause and while it compiles. -/
def slotTime (c : SharedCpuClock) (core : Fin numCpuCores) (host : ℕ) : ℕ :=
  (c.slots core).base +
    if c.paused || (c.slots core).compiling then 0 else host - (c.slots core).anchor

/-- The pace clock at a reading: the host time outside pauses. -/
def paceTime (c : SharedCpuClock) (host : ℕ) : ℕ :=
  c.paceBase + if c.paused then 0 else host - c.paceAnchor

/-- The idle clock at a reading, which `Now` follows when no core is active. -/
def idleTime (c : SharedCpuClock) (host : ℕ) : ℕ := c.idleBase + (host - c.idleAnchor)

/-- **The invariant**, at a reading of the host clock, with the host time outside pauses: no anchor is ahead of
the host, and what is published is past none of the clocks that `Now` takes the least of. -/
structure Sound (c : SharedCpuClock) (host unpaused : ℕ) : Prop where
  anchors : ∀ core, (c.slots core).anchor ≤ host
  idleAnchor : c.idleAnchor ≤ host
  paceAnchor : c.paceAnchor ≤ host
  active : c.active = c.running ||| c.runnable
  slots : ∀ core, contains c.active core = true → c.published ≤ c.slotTime core host
  pace : c.published ≤ c.paceTime host
  pace_le : c.paceTime host ≤ unpaused
  unpaused_le : unpaused ≤ host
  idle : c.active = 0 → c.paused = false →
    c.published ≤ c.idleTime host ∧ c.idleTime host ≤ c.paceTime host

/-- The host time outside pauses, at a later reading. -/
def unpausedAt (c : SharedCpuClock) (host unpaused host' : ℕ) : ℕ :=
  unpaused + if c.paused then 0 else host' - host

variable {c : SharedCpuClock} {host host' unpaused : ℕ} {core : Fin numCpuCores}

theorem contains_or (m m' : BitVec 32) : contains (m ||| m') core = (contains m core || contains m' core) :=
  BitVec.getLsbD_or ..

theorem contains_zero : contains 0 core = false := BitVec.getLsbD_zero ..

theorem contains_coreBit (core core' : Fin numCpuCores) :
    contains (coreBit core) core' = decide (core' = core) := by
  revert core core'
  decide

theorem or_coreBit_ne_zero (mask : BitVec 32) : mask ||| coreBit core ≠ 0 := by
  intro h
  have hbit : contains (mask ||| coreBit core) core =
      (contains mask core || contains (coreBit core) core) := contains_or mask (coreBit core)
  rw [h, contains_zero, contains_coreBit, decide_eq_true rfl, Bool.or_true] at hbit
  exact Bool.false_ne_true hbit

theorem sub_eq {x y : ℕ} (h : y ≤ x) : sub x y = .ret (x - y) true := by
  rw [sub, Exec.assert, decide_eq_true h]
  rfl

/-! ### Readings -/

theorem slotTime_mono (h : (c.slots core).anchor ≤ host) (hle : host ≤ host') :
    c.slotTime core host ≤ c.slotTime core host' := by
  unfold slotTime
  split <;> omega

theorem Sound.advance (h : Sound c host unpaused) (hle : host ≤ host') :
    Sound c host' (c.unpausedAt host unpaused host') := by
  obtain ⟨hanchors, hidleAnchor, hpaceAnchor, hactive, hslots, hpace, hunpaused, hhost, hidle⟩ := h
  unfold paceTime at hpace hunpaused hidle
  refine ⟨fun core => (hanchors core).trans hle, hidleAnchor.trans hle, hpaceAnchor.trans hle, hactive,
    fun core hcore => (hslots core hcore).trans (slotTime_mono (hanchors core) hle), ?_, ?_, ?_,
    fun hzero hpaused => ?_⟩
  · unfold paceTime
    split_ifs at hpace ⊢ <;> omega
  · unfold paceTime unpausedAt
    split_ifs at hunpaused ⊢ <;> omega
  · unfold unpausedAt
    split_ifs <;> omega
  · obtain ⟨hle', hpace'⟩ := hidle hzero hpaused
    unfold idleTime at *
    unfold paceTime
    rw [hpaused, if_neg Bool.false_ne_true] at hpace' ⊢
    omega

/-! ### `Now` -/

theorem slotsCandidate_spec (hanchors : ∀ core, (c.slots core).anchor ≤ host) (hpaused : c.paused = false)
    (candidate : ℕ) (cores : List (Fin numCpuCores)) :
    ∃ least, c.slotsCandidate host candidate cores = .ret least true ∧ least ≤ candidate ∧
      (∀ core ∈ cores, contains c.active core = true → least ≤ c.slotTime core host) ∧
      ∀ x, x ≤ candidate → (∀ core, contains c.active core = true → x ≤ c.slotTime core host) → x ≤ least := by
  induction cores generalizing candidate with
  | nil => exact ⟨candidate, rfl, Nat.le_refl _, fun core hcore => absurd hcore List.not_mem_nil, fun x hx _ => hx⟩
  | cons core cores ih =>
    by_cases hactive : contains c.active core = true
    · have htime : c.elapsed core host = .ret (c.slotTime core host - (c.slots core).base) true := by
        unfold elapsed slotTime
        rw [hpaused, Bool.false_or, Nat.add_sub_cancel_left]
        split
        · rfl
        · exact sub_eq (hanchors core)
      have hbase : (c.slots core).base + (c.slotTime core host - (c.slots core).base) = c.slotTime core host := by
        unfold slotTime
        omega
      obtain ⟨least, hleast, hle, hcores, hgreatest⟩ := ih (min candidate (c.slotTime core host))
      refine ⟨least, ?_, hle.trans (Nat.min_le_left _ _), fun core' hmem hcore' => ?_,
        fun x hx htimes => hgreatest x (Nat.le_min.2 ⟨hx, htimes core hactive⟩) htimes⟩
      · rw [slotsCandidate, foldlM_cons, if_pos hactive, htime, Exec.ret_true_bind, hbase,
          Exec.pure_eq, Exec.ret_true_bind]
        exact hleast
      · rcases mem_cons.1 hmem with rfl | hmem
        · exact hle.trans (Nat.min_le_right _ _)
        · exact hcores core' hmem hcore'
    · obtain ⟨least, hleast, hle, hcores, hgreatest⟩ := ih candidate
      refine ⟨least, ?_, hle, fun core' hmem hcore' => ?_, hgreatest⟩
      · rw [slotsCandidate, foldlM_cons, if_neg hactive, Exec.pure_eq, Exec.ret_true_bind]
        exact hleast
      · rcases mem_cons.1 hmem with rfl | hmem
        · exact absurd hcore' hactive
        · exact hcores core' hmem hcore'

/-- **`Now`** publishes a time that no active core and no pace clock is behind. -/
theorem Sound.now (h : Sound c host unpaused) (hhost : host < 2 ^ 64) :
    ∃ value, c.now host = .ret (value, { c with published := value }) true ∧ c.published ≤ value ∧
      Sound { c with published := value } host unpaused ∧ (c.paused = true → value = c.published) ∧
      (c.paused = false → c.active = 0 → value = c.idleTime host) ∧
      (c.paused = false → c.active ≠ 0 → (∀ core, contains c.active core = false) → value = c.paceTime host) := by
  obtain ⟨hanchors, hidleAnchor, hpaceAnchor, hactive, hslots, hpace, hpaceLe, hunpausedLe, hidle⟩ := h
  unfold SharedCpuClock.now
  by_cases hpaused : c.paused = true
  · rw [if_pos hpaused]
    exact ⟨c.published, rfl, Nat.le_refl _, ⟨hanchors, hidleAnchor, hpaceAnchor, hactive, hslots, hpace,
      hpaceLe, hunpausedLe, hidle⟩, fun _ => rfl, fun h => absurd hpaused (by rw [h]; decide),
      fun h => absurd hpaused (by rw [h]; decide)⟩
  · rw [if_neg hpaused]
    rw [Bool.not_eq_true] at hpaused
    have hpaceTime : c.paceBase + host - c.paceAnchor = c.paceTime host := by
      unfold paceTime
      rw [hpaused, if_neg Bool.false_ne_true]
      omega
    obtain ⟨candidate, hcandidate, hzero, hcores, hgreatest, hnone⟩ : ∃ candidate,
        c.candidate host = .ret candidate true ∧
        (c.active = 0 → candidate = c.idleTime host) ∧
        (∀ core, contains c.active core = true → candidate ≤ c.slotTime core host) ∧
        c.published ≤ candidate ∧
        (c.active ≠ 0 → (∀ core, contains c.active core = false) → c.paceTime host ≤ candidate) := by
      unfold SharedCpuClock.candidate
      by_cases hmask : c.active = 0
      · rw [if_pos hmask]
        have hle := (hidle hmask hpaused).1
        unfold idleTime at *
        refine ⟨_, sub_eq (by omega), fun _ => by omega, fun core hcore => ?_, by omega, fun hne => absurd hmask hne⟩
        rw [hmask, contains_zero] at hcore
        exact absurd hcore Bool.false_ne_true
      · rw [if_neg hmask]
        obtain ⟨least, hleast, hle, hcores, hgreatest⟩ :=
          slotsCandidate_spec hanchors hpaused (2 ^ 64 - 1) (finRange numCpuCores)
        refine ⟨least, hleast, fun hzero => absurd hzero hmask,
          fun core hcore => hcores core (mem_finRange core) hcore,
          hgreatest _ (by omega) hslots, fun _ hnone => hgreatest _ (by omega) fun core hcore => ?_⟩
        rw [hnone core] at hcore
        exact absurd hcore Bool.false_ne_true
    rw [hcandidate, Exec.ret_true_bind, sub_eq (by omega), Exec.ret_true_bind, hpaceTime]
    refine ⟨_, rfl, Nat.le_max_left _ _, ⟨hanchors, hidleAnchor, hpaceAnchor, hactive,
      fun core hcore => Nat.max_le.2 ⟨hslots core hcore, (Nat.min_le_left _ _).trans (hcores core hcore)⟩,
      Nat.max_le.2 ⟨hpace, Nat.min_le_right _ _⟩, hpaceLe, hunpausedLe, fun hmask hp => ?_⟩,
      fun h => absurd h (by rw [hpaused]; decide), fun _ hmask => ?_, fun _ hmask hcores' => ?_⟩
    · have hboth := hidle hmask hp
      exact ⟨Nat.max_le.2 ⟨hboth.1, (Nat.min_le_left _ _).trans (hzero hmask).le⟩, hboth.2⟩
    · have hboth := hidle hmask hpaused
      rw [hzero hmask, Nat.min_eq_left hboth.2, Nat.max_eq_right hboth.1]
    · rw [Nat.min_eq_right (hnone hmask hcores'), Nat.max_eq_right hpace]

/-! ### The other calls -/

/-- A call keeps the invariant, and no subtraction wraps in it. -/
def Keeps (c : SharedCpuClock) (x : Exec SharedCpuClock) (host unpaused : ℕ) : Prop :=
  ∃ c', x = .ret c' true ∧ c.published ≤ c'.published ∧
    (c.paused = true → c'.published = c.published) ∧ Sound c' host unpaused

/-- A call that begins with `Now`. -/
theorem Sound.keeps_now (h : Sound c host unpaused) (hle : host ≤ host') (hhost : host < 2 ^ 64)
    {body : ℕ × SharedCpuClock → Exec SharedCpuClock}
    (hbody : ∀ c₁, Sound c₁ host' (c.unpausedAt host unpaused host') →
      ∃ c', body (c₁.published, c₁) = .ret c' true ∧ c'.published = c₁.published ∧
        Sound c' host' (c.unpausedAt host unpaused host')) :
    c.Keeps (c.now host >>= body) host' (c.unpausedAt host unpaused host') := by
  obtain ⟨value, hvalue, hpublished, hsound, hpaused, -⟩ := h.now hhost
  obtain ⟨c', hc', hsame, hsound'⟩ := hbody _ (hsound.advance hle)
  refine ⟨c', ?_, hpublished.trans hsame.ge, fun hp => hsame.trans (hpaused hp), hsound'⟩
  rw [hvalue, Exec.ret_true_bind]
  exact hc'

theorem accumulate_eq (hanchor : (c.slots core).anchor ≤ host) : c.accumulate (c.slots core) host =
    .ret ⟨c.slotTime core host, host, (c.slots core).compiling⟩ true := by
  unfold accumulate slotTime
  by_cases hruns : (!c.paused && !(c.slots core).compiling) = true
  · have hstands : (c.paused || (c.slots core).compiling) = false := by
      rw [← Bool.not_or, Bool.not_eq_true'] at hruns
      exact hruns
    rw [if_pos hruns, sub_eq hanchor, Exec.ret_true_bind, hstands, if_neg Bool.false_ne_true]
    rfl
  · have hstands : (c.paused || (c.slots core).compiling) = true := by
      rw [← Bool.not_or, Bool.not_eq_true', Bool.not_eq_false] at hruns
      exact hruns
    rw [if_neg hruns, if_pos hstands]
    rfl

theorem setSlot_slots (slot : Slot) (core' : Fin numCpuCores) :
    (c.setSlot core slot).slots core' = if core' = core then slot else c.slots core' :=
  Function.update_apply ..

/-- The time of a core whose slot has just been anchored is its base. -/
theorem slotTime_of_anchor (h : (c.slots core).anchor = host) :
    c.slotTime core host = (c.slots core).base := by
  unfold slotTime
  rw [h, Nat.sub_self, ite_self, Nat.add_zero]

theorem slotTime_congr {c' : SharedCpuClock} (hslot : c'.slots core = c.slots core)
    (hpaused : c'.paused = c.paused) : c'.slotTime core host = c.slotTime core host := by
  rw [slotTime, hslot, hpaused, slotTime]

theorem Sound.beginCore (h : Sound c host unpaused) (hle : host ≤ host') (hhost : host < 2 ^ 64)
    (core : Fin numCpuCores) :
    c.Keeps (c.beginCore core host host') host' (c.unpausedAt host unpaused host') := by
  refine h.keeps_now hle hhost fun c₁ h₁ => ?_
  obtain ⟨own, hown⟩ : ∃ own, c₁.ownTime core c₁.published host' = .ret own true := by
    unfold ownTime
    split
    · exact ⟨_, rfl⟩
    · split
      · rw [sub_eq (h₁.anchors core)]
        exact ⟨_, rfl⟩
      · exact ⟨_, rfl⟩
  dsimp only
  rw [hown, Exec.ret_true_bind]
  refine ⟨_, rfl, rfl, ⟨fun core' => ?_, h₁.idleAnchor, h₁.paceAnchor, ?_, fun core' hcore' => ?_,
    h₁.pace, h₁.pace_le, h₁.unpaused_le, fun hzero => absurd hzero (or_coreBit_ne_zero _)⟩⟩
  · dsimp only
    rw [setSlot_slots]
    split
    · exact Nat.le_refl _
    · exact h₁.anchors core'
  · dsimp only
    rw [h₁.active, BitVec.or_assoc, BitVec.or_comm c₁.runnable, ← BitVec.or_assoc]
    rfl
  · by_cases hsame : core' = core
    · subst hsame
      have hslot : (c₁.setSlot core' ⟨max c₁.published own, host', false⟩).slots core' = _ :=
        (setSlot_slots _ core').trans (if_pos rfl)
      refine le_of_le_of_eq ?_ (slotTime_of_anchor (by dsimp only; rw [hslot])).symm
      dsimp only
      rw [hslot]
      exact Nat.le_max_left _ _
    · have hslot : (c₁.setSlot core ⟨max c₁.published own, host', false⟩).slots core' = _ :=
        (setSlot_slots _ core').trans (if_neg hsame)
      have hactive : contains c₁.active core' = true := by
        dsimp only at hcore'
        rw [contains_or, contains_coreBit, decide_eq_false hsame, Bool.or_false] at hcore'
        exact hcore'
      exact le_of_le_of_eq (h₁.slots core' hactive) (slotTime_congr hslot rfl).symm

/-- The times of the cores when a slot is brought to a reading. -/
theorem slotTime_accumulated {c' : SharedCpuClock} (core : Fin numCpuCores) (compiling : Bool)
    (hslots : c'.slots = Function.update c.slots core ⟨c.slotTime core host, host, compiling⟩)
    (hpaused : c'.paused = c.paused) (core' : Fin numCpuCores) :
    c'.slotTime core' host = c.slotTime core' host := by
  by_cases hsame : core' = core
  · subst hsame
    have hslot : c'.slots core' = _ := (congrFun hslots core').trans (Function.update_self ..)
    rw [slotTime_of_anchor (by rw [hslot]), hslot]
  · exact slotTime_congr ((congrFun hslots core').trans (Function.update_of_ne hsame ..)) hpaused

theorem anchor_accumulated {c' : SharedCpuClock} {compiling : Bool} {time : ℕ}
    (hanchors : ∀ core, (c.slots core).anchor ≤ host)
    (hslots : c'.slots = Function.update c.slots core ⟨time, host, compiling⟩) (core' : Fin numCpuCores) :
    (c'.slots core').anchor ≤ host := by
  rw [hslots, Function.update_apply]
  split
  · exact Nat.le_refl _
  · exact hanchors core'

section

variable (h : Sound c host unpaused) (hle : host ≤ host')

include h hle

theorem Sound.endCore (hhost : host < 2 ^ 64) (core : Fin numCpuCores) :
    c.Keeps (c.endCore core host host') host' (c.unpausedAt host unpaused host') := by
  refine h.keeps_now hle hhost fun c₁ h₁ => ?_
  dsimp only
  rw [accumulate_eq (h₁.anchors core), Exec.ret_true_bind]
  refine ⟨_, rfl, rfl, { h₁ with
    anchors := anchor_accumulated h₁.anchors rfl, idleAnchor := Nat.le_refl _, active := rfl
    slots := fun core' hcore' => ?_, idle := fun _ _ => ?_ }⟩
  · refine le_of_le_of_eq (h₁.slots core' ?_)
      (Eq.symm (slotTime_accumulated core (c₁.slots core).compiling ?_ ?_ core'))
    rotate_left
    · rfl
    · rfl
    dsimp only at hcore'
    rw [contains_or, Bool.or_eq_true] at hcore'
    rw [h₁.active, contains_or, Bool.or_eq_true]
    refine hcore'.imp_left fun hrunning => ?_
    unfold contains at *
    rw [BitVec.getLsbD_and, Bool.and_eq_true] at hrunning
    exact hrunning.1
  · refine ⟨Nat.le_add_right _ _, ?_⟩
    show c₁.published + (host' - host') ≤ c₁.paceTime host'
    rw [Nat.sub_self]
    exact h₁.pace

theorem Sound.compile (core : Fin numCpuCores)
    (value : Bool) : c.Keeps (c.compile core value host') host' (c.unpausedAt host unpaused host') := by
  have h₁ := h.advance hle
  unfold SharedCpuClock.compile
  split
  · exact ⟨c, rfl, Nat.le_refl _, fun _ => rfl, h₁⟩
  · rw [accumulate_eq (h₁.anchors core), Exec.ret_true_bind]
    refine ⟨_, rfl, Nat.le_refl _, fun _ => rfl, { h₁ with
      anchors := anchor_accumulated h₁.anchors rfl, slots := fun core' hcore' => ?_ }⟩
    refine le_of_le_of_eq (h₁.slots core' hcore')
      (Eq.symm (slotTime_accumulated core value ?_ ?_ core'))
    · rfl
    · rfl

theorem Sound.setRunnableMask (hhost : host < 2 ^ 64) (mask : BitVec 32) :
    c.Keeps (c.setRunnableMask mask host host') host' (c.unpausedAt host unpaused host') := by
  unfold SharedCpuClock.setRunnableMask
  split
  · exact ⟨c, rfl, Nat.le_refl _, fun _ => rfl, h.advance hle⟩
  refine h.keeps_now hle hhost fun c₁ h₁ => ?_
  refine ⟨_, rfl, rfl, ⟨fun core => ?_, Nat.le_refl _, h₁.paceAnchor, BitVec.or_comm .., fun core hcore => ?_,
    h₁.pace, h₁.pace_le, h₁.unpaused_le, fun _ _ => ?_⟩⟩
  · dsimp only
    split
    · exact h₁.anchors core
    · exact Nat.le_refl _
  · by_cases hstays : (!contains mask core || contains c₁.active core) = true
    · have hactive : contains c₁.active core = true := by
        rw [Bool.or_eq_true, Bool.not_eq_true'] at hstays
        rcases hstays with hmask | hactive
        · dsimp only at hcore
          rw [contains_or, hmask, Bool.false_or] at hcore
          rw [h₁.active, contains_or, hcore, Bool.true_or]
        · exact hactive
      refine le_of_le_of_eq (h₁.slots core hactive) (Eq.symm (slotTime_congr ?_ ?_))
      · exact if_pos hstays
      · rfl
    · refine Nat.le_trans ?_ (Nat.le_add_right _ _)
      dsimp only
      rw [if_neg hstays]
  · refine ⟨Nat.le_add_right _ _, ?_⟩
    show c₁.published + (host' - host') ≤ c₁.paceTime host'
    rw [Nat.sub_self]
    exact h₁.pace

end

/-- The loop of `Pause` anchors the cores, with times that are not below the common one. -/
theorem pauseSlots_spec (value : ℕ) (c : SharedCpuClock) (hanchors : ∀ core, (c.slots core).anchor ≤ host)
    (cores : List (Fin numCpuCores)) :
    ∃ slots, pauseSlots value host c cores = .ret { c with slots := slots } true ∧
      (∀ core, (slots core).anchor ≤ host) ∧
      (∀ core, (c.slots core).anchor = host ∧ value ≤ (c.slots core).base →
        (slots core).anchor = host ∧ value ≤ (slots core).base) ∧
      ∀ core ∈ cores, (slots core).anchor = host ∧ value ≤ (slots core).base := by
  induction cores generalizing c with
  | nil => exact ⟨c.slots, rfl, hanchors, fun _ h => h, fun core hcore => absurd hcore List.not_mem_nil⟩
  | cons core cores ih =>
    obtain ⟨slot, hslot⟩ : ∃ slot, c.pausedSlot core host = .ret slot true := by
      unfold pausedSlot
      split
      · exact ⟨_, accumulate_eq (hanchors core)⟩
      · exact ⟨_, rfl⟩
    set anchored : Slot := ⟨max value slot.base, host, slot.compiling⟩ with hanchored
    have hset : ∀ core', (c.setSlot core anchored).slots core' =
        if core' = core then anchored else c.slots core' := setSlot_slots anchored
    obtain ⟨slots, hslots, hle, hkeeps, hmem⟩ := ih (c.setSlot core anchored) fun core' => by
      rw [hset]
      split
      · exact Nat.le_refl _
      · exact hanchors core'
    have hfirst : (slots core).anchor = host ∧ value ≤ (slots core).base := by
      refine hkeeps core ?_
      rw [hset, if_pos rfl]
      exact ⟨rfl, Nat.le_max_left _ _⟩
    refine ⟨slots, ?_, hle, fun core' hcore' => hkeeps core' ?_, fun core' hcore' => ?_⟩
    · rw [pauseSlots, foldlM_cons, hslot, Exec.ret_true_bind, Exec.pure_eq, Exec.ret_true_bind]
      exact hslots
    · rw [hset]
      split
      · exact ⟨rfl, Nat.le_max_left _ _⟩
      · exact hcore'
    · rcases mem_cons.1 hcore' with rfl | hcore'
      · exact hfirst
      · exact hmem core' hcore'

theorem Sound.pause (h : Sound c host unpaused) (hle : host ≤ host') (hhost : host < 2 ^ 64)
    (value : Bool) : c.Keeps (c.pause value host host') host' (c.unpausedAt host unpaused host') := by
  refine h.keeps_now hle hhost fun c₁ h₁ => ?_
  obtain ⟨slots, hslots, hanchors, -, hmem⟩ := pauseSlots_spec c₁.published
    { c₁ with
      idleBase := c₁.published
      idleAnchor := host'
      paceBase := c₁.published
      paceAnchor := host' } h₁.anchors (finRange numCpuCores)
  have hpace : ∀ p : Bool, c₁.published + (if p then 0 else host' - host') = c₁.published := by
    intro p
    rw [Nat.sub_self, ite_self, Nat.add_zero]
  dsimp only
  rw [hslots, Exec.ret_true_bind]
  refine ⟨_, rfl, rfl, ⟨hanchors, Nat.le_refl _, Nat.le_refl _, h₁.active, fun core hcore => ?_,
    (hpace value).ge, (hpace value).trans_le (h₁.pace.trans h₁.pace_le), h₁.unpaused_le,
    fun _ hvalue => ⟨Nat.le_add_right _ _, ?_⟩⟩⟩
  · exact (hmem core (mem_finRange core)).2.trans (Nat.le_add_right _ _)
  · dsimp only at hvalue
    show c₁.published + (host' - host') ≤ c₁.published + if value then 0 else host' - host'
    rw [hvalue, if_neg Bool.false_ne_true]

end SharedCpuClock

/-! ### Runs -/

open SharedCpuClock

/-- The clock at a reading of the host clock, with the host time outside pauses since `Reset`. -/
structure Timed where
  clock : SharedCpuClock
  host : ℕ
  unpaused : ℕ

/-- A call at two readings of the host clock, which does not go back; `Now` is seen from outside. -/
def Step (t : Timed) (a : Call × ℕ × ℕ) (t' : Timed) (e : Option ℕ) : Prop :=
  t.host ≤ a.2.1 ∧ a.2.1 ≤ a.2.2 ∧ a.2.2 < 2 ^ 64 ∧ t'.host = a.2.2 ∧
    t'.unpaused = t.clock.unpausedAt t.host t.unpaused a.2.2 ∧
    ∃ held, a.1.exec t.clock a.2.1 a.2.2 = .ret (e, t'.clock) held

/-- A run of calls after `Reset`, with what `Now` returned. -/
abbrev Run (host host' : ℕ) : List ℕ → Timed → Prop :=
  Traces Step (fun _ _ => True) ⟨reset host host', host', 0⟩

/-- **What the clock promises** where it has got to. -/
structure Promises (t : Timed) (trace : List ℕ) : Prop where
  /-- `Now` never decreases. -/
  sorted : trace.Pairwise (· ≤ ·)
  last : ∀ value ∈ trace, value ≤ t.clock.published
  /-- No subtraction wraps. -/
  held : ∀ (call : Call) host host', t.host ≤ host → host ≤ host' → host' < 2 ^ 64 →
    (call.exec t.clock host host').held = true
  slots : ∀ core, contains t.clock.active core = true →
    t.clock.published ≤ t.clock.slotTime core t.host
  pace : t.clock.published ≤ t.clock.paceTime t.host ∧ t.clock.published ≤ t.unpaused
  paused : t.clock.paused = true → ∀ a t' e, Step t a t' e → t'.clock.published = t.clock.published
  compiling : ∀ core, contains t.clock.active core = true → (t.clock.slots core).compiling = true →
    t.clock.published ≤ (t.clock.slots core).base
  blocks : ∀ deadline, t.clock.compilationBlocks deadline = true ↔ ∃ core,
    contains t.clock.active core = true ∧ (t.clock.slots core).compiling = true ∧
      (t.clock.slots core).base < deadline
  /-- Without active cores `Now` advances with the host clock. -/
  idle : (∀ core, contains t.clock.active core = false) → t.clock.paused = false →
    ∀ host host', t.host ≤ host → host ≤ host' → host' < 2 ^ 64 → ∃ value c value' c',
      t.clock.now host = .ret (value, c) true ∧ c.now host' = .ret (value', c') true ∧
        value' = value + (host' - host)

theorem unpausedAt_trans {c : SharedCpuClock} {host host' last unpaused : ℕ} (hle : last ≤ host)
    (hle' : host ≤ host') : c.unpausedAt host (c.unpausedAt last unpaused host) host' =
      c.unpausedAt last unpaused host' := by
  unfold unpausedAt
  split_ifs <;> omega

/-- **A call** keeps the invariant. -/
theorem Call.exec_spec {c : SharedCpuClock} {host host' last unpaused : ℕ}
    (h : Sound c last unpaused) (hlast : last ≤ host) (hle : host ≤ host') (hhost : host' < 2 ^ 64) (call : Call) :
    ∃ e c', call.exec c host host' = .ret (e, c') true ∧ c.published ≤ c'.published ∧
      (∀ value ∈ e, value = c'.published) ∧ (c.paused = true → c'.published = c.published) ∧
      Sound c' host' (c.unpausedAt last unpaused host') := by
  have h₁ := h.advance hlast
  rw [← unpausedAt_trans hlast hle]
  have hlt := hle.trans_lt hhost
  have hkeeps : ∀ {x : Exec SharedCpuClock}, c.Keeps x host'
      (c.unpausedAt host (c.unpausedAt last unpaused host) host') → ∃ (e : Option ℕ) (c' : _),
        (x >>= fun c' => pure (none, c')) = .ret (e, c') true ∧ c.published ≤ c'.published ∧
        (∀ value ∈ e, value = c'.published) ∧ (c.paused = true → c'.published = c.published) ∧
        Sound c' host' (c.unpausedAt host (c.unpausedAt last unpaused host) host') := by
    rintro x ⟨c', hc', hpublished, hpaused, hsound⟩
    refine ⟨none, c', ?_, hpublished, fun value hvalue => absurd hvalue (Option.not_mem_none value), hpaused, hsound⟩
    rw [hc', Exec.ret_true_bind]
    rfl
  cases call with
  | beginCore core => exact hkeeps (h₁.beginCore hle hlt core)
  | endCore core => exact hkeeps (h₁.endCore hle hlt core)
  | pause value => exact hkeeps (h₁.pause hle hlt value)
  | setRunnableMask mask => exact hkeeps (h₁.setRunnableMask hle hlt mask)
  | compile core value => exact hkeeps (h₁.compile hle core value)
  | now =>
    obtain ⟨value, hvalue, hpublished, hsound, hpaused, -⟩ := h₁.now hlt
    refine ⟨some value, _, ?_, hpublished, fun x hx => (Option.mem_some_iff.1 hx).symm, hpaused, hsound.advance hle⟩
    rw [Call.exec, hvalue, Exec.ret_true_bind]
    rfl

theorem sound_reset {host host' : ℕ} (hle : host ≤ host') : Sound (reset host host') host' 0 where
  anchors _ := Nat.zero_le _
  idleAnchor := hle
  paceAnchor := Nat.le_refl _
  active := (BitVec.or_self (x := 0)).symm
  slots _ _ := Nat.zero_le _
  pace := Nat.zero_le _
  pace_le := Nat.le_refl _
  unpaused_le := Nat.zero_le _
  idle _ h := absurd h.symm Bool.false_ne_true

theorem Run.readings {host host' : ℕ} (hle : host ≤ host') {trace : List ℕ} {t : Timed}
    (h : Run host host' trace t) : Sound t.clock t.host t.unpaused ∧ trace.Pairwise (· ≤ ·) ∧
      ∀ value ∈ trace, value ≤ t.clock.published := by
  refine h.invariant (fun trace t => Sound t.clock t.host t.unpaused ∧ trace.Pairwise (· ≤ ·) ∧
    ∀ value ∈ trace, value ≤ t.clock.published)
    ⟨sound_reset hle, List.Pairwise.nil, fun value hvalue => absurd hvalue List.not_mem_nil⟩ ?_
  rintro trace t ⟨call, first, second⟩ t' e ⟨hsound, hsorted, hlast⟩ -
    ⟨hfirst, hsecond, hlt, hhost, hunpaused, held, hexec⟩
  obtain ⟨e', c', hc', hpublished, hvalue, -, hsound'⟩ :=
    Call.exec_spec hsound hfirst hsecond hlt call
  obtain ⟨⟨rfl, rfl⟩, rfl⟩ : (e = e' ∧ t'.clock = c') ∧ held = true := by
    have heq := hexec.symm.trans hc'
    cases heq
    exact ⟨⟨rfl, rfl⟩, rfl⟩
  change t'.unpaused = t.clock.unpausedAt t.host t.unpaused second at hunpaused
  change t'.host = second at hhost
  rw [← hunpaused, ← hhost] at hsound'
  have hold : ∀ value ∈ trace, value ≤ t'.clock.published := fun value hmem =>
    (hlast value hmem).trans hpublished
  refine ⟨hsound', ?_, fun value hmem => ?_⟩
  · refine List.pairwise_append.2 ⟨hsorted, ?_, fun value hmem value' hmem' => ?_⟩
    · cases e <;> simp
    · rw [Option.mem_toList] at hmem'
      rw [hvalue value' hmem']
      exact hold value hmem
  · rcases List.mem_append.1 hmem with hmem | hmem
    · exact hold value hmem
    · rw [Option.mem_toList] at hmem
      exact (hvalue value hmem).le

/-- Where a call at two readings leads. -/
def Timed.after (t : Timed) (call : Call) (host host' : ℕ) : Timed :=
  ⟨((call.exec t.clock host host').value (none, t.clock)).2, host',
    t.clock.unpausedAt t.host t.unpaused host'⟩

/-- Every run goes on with every call. -/
theorem Run.call {host host' : ℕ} (hle : host ≤ host') {trace : List ℕ} {t : Timed}
    (h : Run host host' trace t) (call : Call) {first second : ℕ} (hfirst : t.host ≤ first)
    (hsecond : first ≤ second) (hlt : second < 2 ^ 64) :
    Run host host' (trace ++ ((call.exec t.clock first second).value (none, t.clock)).1.toList)
      (t.after call first second) := by
  obtain ⟨e, c', hexec, -⟩ := Call.exec_spec (h.readings hle).1 hfirst hsecond hlt call
  refine h.step (call, first, second) trivial ⟨hfirst, hsecond, hlt, rfl, rfl, true, ?_⟩
  rw [Timed.after, hexec]
  rfl

/-- Without active cores `Now` advances with the host clock. -/
theorem SharedCpuClock.Sound.now_idle {c : SharedCpuClock} {host host' unpaused : ℕ} (h : Sound c host unpaused)
    (hle : host ≤ host') (hlt : host' < 2 ^ 64) (hnone : ∀ core, contains c.active core = false)
    (hpaused : c.paused = false) : ∃ value c₁ value' c₂, c.now host = .ret (value, c₁) true ∧
      c₁.now host' = .ret (value', c₂) true ∧ value' = value + (host' - host) := by
  obtain ⟨value, hvalue, -, h₁, -, hidle, hpace⟩ := h.now (hle.trans_lt hlt)
  obtain ⟨value', hvalue', -, -, -, hidle', hpace'⟩ := (h₁.advance hle).now hlt
  refine ⟨value, _, value', _, hvalue, hvalue', ?_⟩
  have hidleAnchor := h.idleAnchor
  have hpaceAnchor := h.paceAnchor
  by_cases hzero : c.active = 0
  · have hfirst : value = c.idleTime host := hidle hpaused hzero
    have hsecond : value' = c.idleTime host' := hidle' hpaused hzero
    unfold idleTime at hfirst hsecond
    omega
  · have hfirst : value = c.paceTime host := hpace hpaused hzero hnone
    have hsecond : value' = c.paceTime host' := hpace' hpaused hzero hnone
    unfold paceTime at hfirst hsecond
    rw [hpaused, if_neg Bool.false_ne_true] at hfirst hsecond
    omega

/-- **The shared clock follows its slowest participant**, in every run. -/
theorem Run.promises {host host' : ℕ} (hle : host ≤ host') {trace : List ℕ} {t : Timed}
    (h : Run host host' trace t) : Promises t trace := by
  obtain ⟨hsound, hsorted, hlast⟩ := h.readings hle
  refine ⟨hsorted, hlast, fun call first second hfirst hsecond hlt => ?_, hsound.slots,
    ⟨hsound.pace, hsound.pace.trans hsound.pace_le⟩, fun hpaused a t' e hstep => ?_,
    fun core hactive hcompiling => ?_, fun deadline => ?_,
    fun hnone hpaused first second hfirst hsecond hlt =>
      (hsound.advance hfirst).now_idle hsecond hlt hnone hpaused⟩
  · obtain ⟨e, c', hexec, -⟩ := Call.exec_spec hsound hfirst hsecond hlt call
    rw [hexec]
    rfl
  · obtain ⟨hfirst, hsecond, hlt, -, -, held, hexec⟩ := hstep
    obtain ⟨e', c', hc', -, -, hsame, -⟩ := Call.exec_spec hsound hfirst hsecond hlt a.1
    obtain rfl : t'.clock = c' := by
      have heq := hexec.symm.trans hc'
      cases heq
      rfl
    exact hsame hpaused
  · have htime := hsound.slots core hactive
    rwa [slotTime, hcompiling, Bool.or_true, if_pos rfl, Nat.add_zero] at htime
  · unfold compilationBlocks
    rw [List.any_eq_true]
    constructor
    · rintro ⟨core, -, hcore⟩
      rw [Bool.and_eq_true, Bool.and_eq_true, decide_eq_true_iff] at hcore
      exact ⟨core, hcore.1.1, hcore.1.2, hcore.2⟩
    · rintro ⟨core, hactive, hcompiling, hlt⟩
      refine ⟨core, List.mem_finRange core, ?_⟩
      rw [hactive, hcompiling, decide_eq_true hlt]
      rfl

/-- A core that compiles two nanoseconds after the first pause has ended holds the clock there. -/
theorem promises_compiling : ∃ t, Promises t [2] ∧ t.clock.published = 2 ∧ t.unpaused = 4 := by
  have hpause := @Run.call 5 5 (le_refl 5) _ _ .refl (.pause false) 5 5 (by decide) (by decide) (by decide)
  have hbegin := @Run.call 5 5 (le_refl 5) _ _ hpause (.beginCore ⟨0, by decide⟩) 6 6 (by decide) (by decide)
    (by decide)
  have hcompile := @Run.call 5 5 (le_refl 5) _ _ hbegin (.compile ⟨0, by decide⟩ true) 7 7 (by decide)
    (by decide) (by decide)
  have hnow := @Run.call 5 5 (le_refl 5) _ _ hcompile .now 9 9 (by decide) (by decide) (by decide)
  obtain ⟨trace, t, hrun, rfl, hpublished, hunpaused⟩ : ∃ trace t, Run 5 5 trace t ∧ trace = [2] ∧
      t.clock.published = 2 ∧ t.unpaused = 4 := ⟨_, _, hnow, by decide, by decide, by decide⟩
  exact ⟨t, Run.promises (le_refl 5) hrun, hpublished, hunpaused⟩

end Timing
end Core
end NXEmu
