/-
# Runs of the ring of audio buffers

The purpose of the ring is stated with three queues (`Stages`): buffers go from the appended to the
registered to the released ones, and leave in the order in which they came.  A ring stands for three
queues (`AudioBuffers.Represents`) when its three sections are next to each other and hold them.

`FlushBuffers` takes appended buffers past the registered section without moving the end of that
section, so that a ring stands for the queues throughout a run if and only if every flush finds no
appended buffer or `N` of them (`Run.fifo_iff`).
-/

import NXEmu.Audio.AudioBuffers
import NXEmu.Lib.Ring

variable {session : Session} {i stop size count : ℕ} {xs : List AudioBuffer} {c : Call}

namespace NXEmu.AudioCore.AudioBuffers

open Option List Function

/-- The buffers that were played or flushed, the registered ones and the appended ones, each in the
order in which they were appended. -/
structure Stages where
  released : List AudioBuffer
  registered : List AudioBuffer
  appended : List AudioBuffer

namespace Stages

/-- All buffers, the oldest first. -/
def all (s : Stages) : List AudioBuffer := s.released ++ s.registered ++ s.appended

/-- How many buffers are registered next. -/
def toRegister (s : Stages) : ℕ := min (min s.appended.length 4) (4 - s.registered.length)

/-- How many of the registered buffers are released, after `i` others. -/
def consumed (session : Session) (force : Bool) : ℕ → List AudioBuffer → ℕ
  | _, [] => 0
  | i, x :: xs =>
      if force || session.isBufferConsumed i x then consumed session force (i + 1) xs + 1 else 0

/-- The buffers with the times of their release. -/
def stamp (session : Session) : ℕ → List AudioBuffer → List AudioBuffer
  | _, [] => []
  | i, x :: xs =>
      { x with playedTimestamp := session.globalTime i } :: stamp session (i + 1) xs

@[simp] theorem length_stamp :
    (stamp session i xs).length = xs.length := by
  induction xs generalizing i with
  | nil => rfl
  | cons x xs ih => rw [stamp, length_cons, ih, length_cons]

@[simp] theorem map_tag_stamp :
    (stamp session i xs).map AudioBuffer.tag = xs.map AudioBuffer.tag := by
  induction xs generalizing i with
  | nil => rfl
  | cons x xs ih => rw [stamp, map_cons, ih, map_cons]

end Stages

section

variable {N : ℕ} {b : AudioBuffers N} {rel reg app : List AudioBuffer} {x : AudioBuffer}

/-- The sections of a ring that starts at `start` are three queues, but that the registered section
ends at `stop`. -/
structure RepresentsAt (b : AudioBuffers N) (s : Stages) (start stop : ℕ) : Prop where
  fits : s.all.length ≤ N
  releasedCount : b.releasedCount = s.released.length
  registeredCount : b.registeredCount = s.registered.length
  appendedCount : b.appendedCount = s.appended.length
  releasedIndex : b.releasedIndex = ((start + s.released.length) % N : ℕ)
  registeredIndex : b.registeredIndex = (stop % N : ℕ)
  appendedIndex : b.appendedIndex = ((start + s.all.length) % N : ℕ)
  cells : Ring.Holds N b.buffers start s.all

/-- The three sections of a ring are next to each other, and hold three queues. -/
def Represents (b : AudioBuffers N) (s : Stages) : Prop :=
  ∃ start, b.RepresentsAt s start (start + s.released.length + s.registered.length)

theorem get_mod (hN : 0 < N) (p : ℕ) : b.get (p % N : ℕ) = some (b.buffers (p % N)) := by
  have hlt := Nat.mod_lt p hN
  rw [get, if_pos ⟨Int.natCast_nonneg _, Int.ofNat_lt.2 hlt⟩, Int.toNat_natCast]

theorem set_mod (hN : 0 < N) (p : ℕ) : b.set (p % N : ℕ) x =
    some { b with buffers := update b.buffers (p % N) x } := by
  have hlt := Nat.mod_lt p hN
  rw [set, if_pos ⟨Int.natCast_nonneg _, Int.ofNat_lt.2 hlt⟩, Int.toNat_natCast]

theorem advance_mod (p : ℕ) : advance N (p % N : ℕ) = ((p + 1) % N : ℕ) := by
  rw [advance, ← Int.natCast_one, ← Int.natCast_add, ← Int.natCast_emod, Nat.mod_add_mod]

theorem before_mod (p : ℕ) {k : ℕ} (hk : k ≤ N) (hpos : 0 < k) :
    before N ((p + k) % N : ℕ) k = (p % N : ℕ) :=
  Ring.start_of_end hk hpos

theorem length_concat : ((rel ++ [x]).length : ℤ) = rel.length + 1 := by
  rw [length_append, length_singleton, Int.natCast_add, Int.natCast_one]

theorem length_tail : ((x :: rel).length : ℤ) - 1 = rel.length := by
  rw [length_cons, Int.natCast_add, Int.natCast_one, Int.add_sub_cancel]

namespace RepresentsAt

variable {start stop : ℕ}

theorem pos (h : b.RepresentsAt ⟨rel, reg, app⟩ start stop) (hx : x ∈ rel ++ reg ++ app) : 0 < N :=
  Nat.lt_of_lt_of_le (length_pos_of_mem hx) h.fits

theorem appendedIndex_eq {s s' : Stages} {start' : ℕ} (h : b.RepresentsAt s start stop)
    (heq : start + s.all.length = start' + s'.all.length) :
    b.appendedIndex = ((start' + s'.all.length) % N : ℕ) := by
  rw [h.appendedIndex, heq]

/-- The oldest registered buffer, which `registered_index - registered_count` finds. -/
theorem get_registered (h : b.RepresentsAt ⟨rel, x :: reg, app⟩ start (start + rel.length + (x :: reg).length)) :
    before N b.registeredIndex b.registeredCount = ((start + rel.length) % N : ℕ) ∧
      b.get ((start + rel.length) % N : ℕ) = some x := by
  have hfits := h.fits
  have hcells := h.cells
  simp only [Stages.all, length_append, length_cons] at hfits
  simp only [Stages.all, append_assoc, Ring.holds_append, cons_append, Ring.holds_cons] at hcells
  constructor
  · rw [h.registeredIndex, h.registeredCount]
    exact before_mod _ (by simp only [length_cons]; omega) (Nat.succ_pos _)
  · rw [get_mod (by omega), hcells.2.1]

/-- The oldest appended buffer, which `appended_index - appended_count` finds. -/
theorem get_appended (h : b.RepresentsAt ⟨rel, reg, x :: app⟩ start stop) :
    before N b.appendedIndex b.appendedCount = ((start + rel.length + reg.length) % N : ℕ) ∧
      b.get ((start + rel.length + reg.length) % N : ℕ) = some x := by
  have hfits := h.fits
  have hcells := h.cells
  simp only [Stages.all, length_append, length_cons] at hfits
  simp only [Stages.all, Ring.holds_append, length_append, Ring.holds_cons] at hcells
  constructor
  · rw [h.appendedIndex, h.appendedCount]
    have hsum : start + (Stages.mk rel reg (x :: app)).all.length =
        start + rel.length + reg.length + (x :: app).length := by
      simp only [Stages.all, length_append]
      omega
    rw [hsum]
    exact before_mod _ (by simp only [length_cons]; omega) (Nat.succ_pos _)
  · rw [get_mod (by omega), Nat.add_assoc, hcells.2.1]

/-- The oldest released buffer, which `released_index - released_count` finds. -/
theorem get_released (h : b.RepresentsAt ⟨x :: rel, reg, app⟩ start stop) :
    before N b.releasedIndex b.releasedCount = (start % N : ℕ) ∧ b.get (start % N : ℕ) = some x := by
  have hfits := h.fits
  have hcells := h.cells
  simp only [Stages.all, length_append, length_cons] at hfits
  simp only [Stages.all, cons_append, Ring.holds_cons] at hcells
  constructor
  · rw [h.releasedIndex, h.releasedCount]
    exact before_mod _ (by simp only [length_cons]; omega) (Nat.succ_pos _)
  · rw [get_mod (by omega), hcells.1]

/-- A registered buffer becomes a released one, perhaps with another time. -/
theorem release (h : b.RepresentsAt ⟨rel, x :: reg, app⟩ start stop) (y : AudioBuffer) :
    RepresentsAt (N := N)
      { b with
        buffers := update b.buffers ((start + rel.length) % N) y
        registeredCount := b.registeredCount - 1
        releasedCount := b.releasedCount + 1
        releasedIndex := advance N b.releasedIndex }
      ⟨rel ++ [y], reg, app⟩ start stop where
  fits := by
    have hfits := h.fits
    simp only [Stages.all, length_append, length_cons, length_nil] at hfits ⊢
    omega
  releasedCount := by rw [h.releasedCount, length_concat]
  registeredCount := by rw [h.registeredCount, length_tail]
  appendedCount := h.appendedCount
  releasedIndex := by
    rw [h.releasedIndex, advance_mod, length_append, length_singleton, Nat.add_assoc]
  registeredIndex := h.registeredIndex
  appendedIndex := h.appendedIndex_eq (by simp [Stages.all])
  cells := by
    have hfits := h.fits
    have hcells := h.cells
    simp only [Stages.all, append_assoc, cons_append] at hfits hcells ⊢
    exact hcells.replace_append hfits y

/-- An appended buffer becomes a registered one. -/
theorem register (h : b.RepresentsAt ⟨rel, reg, x :: app⟩ start stop) :
    RepresentsAt (N := N)
      { b with
        registeredCount := b.registeredCount + 1
        registeredIndex := advance N b.registeredIndex
        appendedCount := b.appendedCount - 1 }
      ⟨rel, reg ++ [x], app⟩ start (stop + 1) where
  fits := by simpa [Stages.all] using h.fits
  releasedCount := h.releasedCount
  registeredCount := by rw [h.registeredCount, length_concat]
  appendedCount := by rw [h.appendedCount, length_tail]
  releasedIndex := h.releasedIndex
  registeredIndex := by rw [h.registeredIndex, advance_mod]
  appendedIndex := h.appendedIndex_eq (by simp [Stages.all])
  cells := by simpa [Stages.all] using h.cells

/-- An appended buffer becomes a released one while none is registered. -/
theorem flush (h : b.RepresentsAt ⟨rel, [], x :: app⟩ start stop) :
    RepresentsAt (N := N)
      { b with
        appendedCount := b.appendedCount - 1
        releasedCount := b.releasedCount + 1
        releasedIndex := advance N b.releasedIndex }
      ⟨rel ++ [x], [], app⟩ start stop where
  fits := by simpa [Stages.all] using h.fits
  releasedCount := by rw [h.releasedCount, length_concat]
  registeredCount := h.registeredCount
  appendedCount := by rw [h.appendedCount, length_tail]
  releasedIndex := by
    rw [h.releasedIndex, advance_mod, length_append, length_singleton, Nat.add_assoc]
  registeredIndex := h.registeredIndex
  appendedIndex := h.appendedIndex_eq (by simp [Stages.all])
  cells := by simpa [Stages.all] using h.cells

/-- The oldest released buffer leaves the ring, and its cell is overwritten. -/
theorem pop (h : b.RepresentsAt ⟨x :: rel, reg, app⟩ start stop) (y : AudioBuffer) :
    RepresentsAt (N := N)
      { b with
        buffers := update b.buffers (start % N) y
        releasedCount := b.releasedCount - 1 }
      ⟨rel, reg, app⟩ (start + 1) stop where
  fits := by
    have hfits := h.fits
    simp only [Stages.all, cons_append, length_cons] at hfits ⊢
    omega
  releasedCount := by rw [h.releasedCount, length_tail]
  registeredCount := h.registeredCount
  appendedCount := h.appendedCount
  releasedIndex := by rw [h.releasedIndex, length_cons, Nat.add_right_comm, Nat.add_assoc]
  registeredIndex := h.registeredIndex
  appendedIndex := h.appendedIndex_eq (by simp [Stages.all]; omega)
  cells := by
    have hfits := h.fits
    have hcells := h.cells
    simp only [Stages.all, cons_append] at hfits hcells
    exact (hcells.replace hfits y).2

/-- A buffer is appended behind the others. -/
theorem append (h : b.RepresentsAt ⟨rel, reg, app⟩ start stop)
    (hroom : (Stages.mk rel reg app).all.length < N) (y : AudioBuffer) :
    RepresentsAt (N := N)
      { b with
        buffers := update b.buffers
          ((start + (Stages.mk rel reg app).all.length) % N) y
        appendedCount := b.appendedCount + 1
        appendedIndex := advance N b.appendedIndex }
      ⟨rel, reg, app ++ [y]⟩ start stop where
  fits := by
    simp only [Stages.all, length_append, length_cons, length_nil] at hroom ⊢
    omega
  releasedCount := h.releasedCount
  registeredCount := h.registeredCount
  appendedCount := by rw [h.appendedCount, length_concat]
  releasedIndex := h.releasedIndex
  registeredIndex := h.registeredIndex
  appendedIndex := by
    rw [h.appendedIndex, advance_mod]
    simp [Stages.all, Nat.add_assoc]
  cells := by
    have hpush := h.cells.push hroom y
    simpa only [Stages.all, append_assoc] using hpush

/-- A registered buffer is flushed: it becomes a released one as it is. -/
theorem unregister (h : b.RepresentsAt ⟨rel, x :: reg, app⟩ start stop) :
    RepresentsAt (N := N)
      { b with
        registeredCount := b.registeredCount - 1
        releasedCount := b.releasedCount + 1
        releasedIndex := advance N b.releasedIndex }
      ⟨rel ++ [x], reg, app⟩ start stop := by
  have hcells := h.cells
  simp only [Stages.all, append_assoc, Ring.holds_append, cons_append, Ring.holds_cons] at hcells
  have hrelease := h.release x
  rwa [update_eq_self_iff.2 hcells.2.1.symm] at hrelease

/-! ### The loops -/

theorem registerLoop_eq {n : ℕ} (h : b.RepresentsAt ⟨rel, reg, app⟩ start (start + rel.length + reg.length))
    (hn : n ≤ app.length) (out : List AudioBuffer) (hout : out.length + n ≤ N) :
    ∃ b', registerLoop n b out = some (b', out ++ app.take n) ∧
      b'.RepresentsAt ⟨rel, reg ++ app.take n, app.drop n⟩ start
        (start + rel.length + (reg ++ app.take n).length) := by
  induction n generalizing b reg app out with
  | zero => exact ⟨b, by simp [registerLoop], by simpa using h⟩
  | succ n ih =>
      obtain ⟨x, app, rfl⟩ := exists_cons_of_length_pos (Nat.lt_of_lt_of_le n.succ_pos hn)
      obtain ⟨hbefore, hget⟩ := h.get_appended
      have hnext := h.register
      rw [show start + rel.length + reg.length + 1 = start + rel.length + (reg ++ [x]).length by
        rw [length_append, length_singleton, Nat.add_assoc _ reg.length]] at hnext
      rw [registerLoop, hbefore, hget, bind_eq_bind, bind_some, if_pos (by omega)]
      rw [length_cons] at hn
      by_cases hlast : b.appendedCount - 1 = 0
      · have hnil : app = [] := by
          rw [h.appendedCount, length_cons] at hlast
          exact eq_nil_of_length_eq_zero (by omega)
        subst hnil
        obtain rfl : n = 0 := by simpa using hn
        refine ⟨_, if_pos hlast, ?_⟩
        simpa using hnext
      · obtain ⟨b', hloop, hb'⟩ := ih hnext
          (Nat.le_of_succ_le_succ hn) (out ++ [x])
          (by rw [length_append, length_singleton]; omega)
        refine ⟨b', (if_neg hlast).trans ?_, ?_⟩
        · simpa using hloop
        · simpa using hb'

/-- One round of `ReleaseBuffers` that releases the oldest registered buffer. -/
theorem releaseBuffer_eq (h : b.RepresentsAt ⟨rel, x :: reg, app⟩ start stop)
    (hstop : stop = start + rel.length + (x :: reg).length) (timestamp : BitVec 64) :
    ∃ b', b.releaseBuffer ((start + rel.length) % N : ℕ) timestamp = some b' ∧
      b'.RepresentsAt ⟨rel ++ [{ x with playedTimestamp := timestamp }], reg, app⟩ start stop := by
  subst hstop
  have hget := h.get_registered.2
  have hN : 0 < N := h.pos (x := x) (by simp)
  refine ⟨_, ?_, h.release { x with playedTimestamp := timestamp }⟩
  rw [releaseBuffer, hget, bind_eq_bind, bind_some, set_mod hN]
  rfl

theorem releaseLoop_eq (session : Session) (force : Bool)
    (h : b.RepresentsAt ⟨rel, reg, app⟩ start stop) (hstop : stop = start + rel.length + reg.length)
    (asked done : List AudioBuffer) :
    ∃ b', releaseLoop session force reg.length b ⟨asked, done⟩ = some (b', ⟨if force then asked else
            asked ++ reg.take (Stages.consumed session force done.length reg + 1),
          done ++ reg.take (Stages.consumed session force done.length reg)⟩) ∧
      RepresentsAt b' ⟨rel ++ Stages.stamp session done.length
            (reg.take (Stages.consumed session force done.length reg)),
          reg.drop (Stages.consumed session force done.length reg), app⟩ start stop := by
  induction reg generalizing b rel asked done with
  | nil => exact ⟨b, by simp [releaseLoop], by simpa [Stages.stamp] using h⟩
  | cons x reg ih =>
      have hbefore := (hstop ▸ h).get_registered
      rw [length_cons, releaseLoop]
      dsimp only
      rw [hbefore.1, hbefore.2, bind_eq_bind, bind_some]
      by_cases hstay : !force && !session.isBufferConsumed done.length x
      · have hcount : Stages.consumed session force done.length (x :: reg) = 0 := by
          rw [Stages.consumed, if_neg]
          simpa using hstay
        have hforce : force = false := by
          rw [Bool.and_eq_true, Bool.not_eq_true'] at hstay
          exact hstay.1
        subst hforce
        refine ⟨b, (if_pos hstay).trans ?_, ?_⟩
        · simp [hcount]
        · simpa [hcount, Stages.stamp] using h
      · have hcount : Stages.consumed session force done.length (x :: reg) =
            Stages.consumed session force (done ++ [x]).length reg + 1 := by
          rw [Stages.consumed, if_pos, length_append, length_singleton]
          simpa [imp_iff_not_or, or_comm] using hstay
        obtain ⟨b₁, hrelease, hb₁⟩ := releaseBuffer_eq h hstop (session.globalTime done.length)
        obtain ⟨b', hloop, hb'⟩ := ih hb₁
          (by rw [hstop, length_append, length_cons, length_singleton]; omega)
          (if force then asked else asked ++ [x]) (done ++ [x])
        refine ⟨b', (if_neg hstay).trans ?_, ?_⟩
        · rw [hrelease, bind_eq_bind, bind_some, hloop, hcount]
          cases force <;> simp
        · rw [hcount]
          simpa [Stages.stamp] using hb'

theorem releasedTagsLoop_eq (h : b.RepresentsAt ⟨rel, reg, app⟩ start stop)
    (htags : ∀ x ∈ rel, x.tag ≠ 0) (written : List (BitVec 64)) (hsize : written.length < size) :
    ∃ b', releasedTagsLoop size rel.length b ⟨written, written.length⟩ =
        some (b', ⟨written ++ (rel.take (size - written.length)).map AudioBuffer.tag,
          written.length + (rel.take (size - written.length)).length⟩) ∧
      b'.RepresentsAt ⟨rel.drop (size - written.length), reg, app⟩
        (start + (rel.take (size - written.length)).length) stop := by
  induction rel generalizing b start written with
  | nil => exact ⟨b, by simp [releasedTagsLoop], by simpa using h⟩
  | cons x rel ih =>
      have hN : 0 < N := h.pos (x := x) (by simp)
      obtain ⟨hbefore, hget⟩ := h.get_released
      have htag : x.tag ≠ 0 := htags x mem_cons_self
      have hpop := h.pop { x with playedTimestamp := 0, samples := 0, tag := 0, size := 0 }
      obtain ⟨left, hleft⟩ : ∃ left, size - written.length = left + 1 :=
        ⟨size - written.length - 1, by omega⟩
      have hset : ∀ (c : AudioBuffers N) y, c.set (start % N : ℕ) y = some
          { c with buffers := update c.buffers (start % N) y } :=
        fun c y => set_mod hN start
      rw [length_cons, releasedTagsLoop]
      dsimp only
      rw [hbefore, hget, bind_eq_bind, bind_some, hset, bind_eq_bind,
        bind_some, if_neg htag, if_pos hsize, hleft, take_succ_cons, drop_succ_cons,
        map_cons, length_cons]
      by_cases hlast : written.length + 1 ≥ size
      · obtain rfl : left = 0 := by omega
        exact ⟨_, if_pos hlast, by simpa using hpop⟩
      · obtain ⟨b', hloop, hb'⟩ := ih hpop (fun y hy => htags y (mem_cons_of_mem x hy))
          (written ++ [x.tag]) (by rw [length_append, length_singleton]; omega)
        have hnext : size - (written ++ [x.tag]).length = left := by
          rw [length_append, length_singleton]
          omega
        rw [hnext] at hloop hb'
        refine ⟨b', (if_neg hlast).trans ?_, ?_⟩
        · simpa [Nat.add_assoc, Nat.add_comm 1] using hloop
        · simpa [Nat.add_assoc, Nat.add_comm 1] using hb'

theorem flushRegisteredLoop_eq (h : b.RepresentsAt ⟨rel, reg, app⟩ start stop)
    (hstop : stop = start + rel.length + reg.length) (flushed : List AudioBuffer)
    (hcount : flushed.length + reg.length ≤ count) (hroom : flushed.length + reg.length ≤ N) :
    ∃ b', flushRegisteredLoop count reg.length b flushed = some (b', flushed ++ reg) ∧
      b'.RepresentsAt ⟨rel ++ reg, [], app⟩ start stop := by
  induction reg generalizing b rel flushed with
  | nil => exact ⟨b, by simp [flushRegisteredLoop], by simpa using h⟩
  | cons x reg ih =>
      obtain ⟨hbefore, hget⟩ := (hstop ▸ h).get_registered
      have hnext := h.unregister
      rw [length_cons] at hcount hroom
      rw [length_cons, flushRegisteredLoop, hbefore, hget, bind_eq_bind, bind_some, if_pos (by omega)]
      dsimp only
      by_cases hlast : (flushed ++ [x]).length ≥ count
      · rw [length_append, length_singleton] at hlast
        obtain rfl : reg = [] := eq_nil_of_length_eq_zero (by omega)
        exact ⟨_, if_pos (by simpa using hlast), by simpa using hnext⟩
      · obtain ⟨b', hloop, hb'⟩ := ih hnext
          (by rw [hstop, length_append, length_cons, length_singleton]; omega)
          (flushed ++ [x])
          (by rw [length_append, length_singleton]; omega)
          (by rw [length_append, length_singleton]; omega)
        refine ⟨b', (if_neg hlast).trans ?_, by simpa using hb'⟩
        simpa using hloop

theorem flushAppendedLoop_eq (h : b.RepresentsAt ⟨rel, [], app⟩ start stop)
    (flushed : List AudioBuffer) (hcount : flushed.length + app.length ≤ count)
    (hroom : flushed.length + app.length ≤ N) :
    ∃ b', flushAppendedLoop count app.length b flushed = some (b', flushed ++ app) ∧
      b'.RepresentsAt ⟨rel ++ app, [], []⟩ start stop := by
  induction app generalizing b rel flushed with
  | nil => exact ⟨b, by simp [flushAppendedLoop], by simpa using h⟩
  | cons x app ih =>
      obtain ⟨hbefore, hget⟩ := h.get_appended
      have hnext := h.flush
      rw [length_cons] at hcount hroom
      rw [length_cons, flushAppendedLoop, hbefore, hget, bind_eq_bind, bind_some, if_pos (by omega)]
      dsimp only
      by_cases hlast : (flushed ++ [x]).length ≥ count
      · rw [length_append, length_singleton] at hlast
        obtain rfl : app = [] := eq_nil_of_length_eq_zero (by omega)
        exact ⟨_, if_pos (by simpa using hlast), by simpa using hnext⟩
      · obtain ⟨b', hloop, hb'⟩ := ih hnext (flushed ++ [x])
          (by rw [length_append, length_singleton]; omega)
          (by rw [length_append, length_singleton]; omega)
        refine ⟨b', (if_neg hlast).trans ?_, by simpa using hb'⟩
        simpa using hloop

end RepresentsAt

/-! ### The functions -/

variable {s : Stages}

theorem Represents.appendBuffer_eq (h : b.Represents s) (hroom : s.all.length < N)
    (y : AudioBuffer) : ∃ b', b.appendBuffer y = some b' ∧
      b'.Represents { s with appended := s.appended ++ [y] } := by
  obtain ⟨start, h⟩ := h
  refine ⟨_, ?_, start, h.append hroom y⟩
  rw [appendBuffer, h.appendedIndex, set_mod (Nat.zero_lt_of_lt hroom)]
  simp [h.appendedIndex]

theorem Represents.registerBuffers_eq (h : b.Represents s) :
    ∃ b', b.registerBuffers = some (b', s.appended.take s.toRegister) ∧
      b'.Represents ⟨s.released, s.registered ++ s.appended.take s.toRegister, s.appended.drop s.toRegister⟩ := by
  obtain ⟨start, h⟩ := h
  have hle : s.toRegister ≤ s.appended.length := by
    unfold Stages.toRegister
    omega
  have hroom : s.appended.length ≤ N := by
    have hfits := h.fits
    rw [Stages.all, length_append] at hfits
    omega
  have hcount : (min (min b.appendedCount bufferAppendLimit)
      (bufferAppendLimit - b.registeredCount)).toNat = s.toRegister := by
    rw [h.appendedCount, h.registeredCount, Stages.toRegister, bufferAppendLimit]
    omega
  obtain ⟨b', hloop, hb'⟩ := h.registerLoop_eq hle [] (by rw [length_nil]; omega)
  refine ⟨b', ?_, start, hb'⟩
  rw [registerBuffers, hcount, hloop, nil_append]

theorem Represents.releaseBuffers_eq (h : b.Represents s) (session : Session) (force : Bool) :
    ∃ b', b.releaseBuffers session force = some (b', ⟨if force then [] else
            s.registered.take (Stages.consumed session force 0 s.registered + 1),
          s.registered.take (Stages.consumed session force 0 s.registered)⟩,
          !(s.registered.take (Stages.consumed session force 0 s.registered)).isEmpty ||
            (s.registered.drop (Stages.consumed session force 0 s.registered)).isEmpty) ∧
      b'.Represents ⟨s.released ++ Stages.stamp session 0
            (s.registered.take (Stages.consumed session force 0 s.registered)),
          s.registered.drop (Stages.consumed session force 0 s.registered), s.appended⟩ := by
  obtain ⟨start, h⟩ := h
  obtain ⟨b', hloop, hb'⟩ := h.releaseLoop_eq session force rfl [] []
  rw [length_nil] at hloop hb'
  generalize Stages.consumed session force 0 s.registered = k at hloop hb' ⊢
  refine ⟨b', ?_, start, ?_⟩
  · have hempty : decide (b'.registeredCount = 0) = (s.registered.drop k).isEmpty := by
      rw [hb'.registeredCount, Bool.eq_iff_iff, decide_eq_true_iff, List.isEmpty_iff,
        Int.natCast_eq_zero, length_eq_zero_iff]
    rw [releaseBuffers, h.registeredCount, Int.toNat_natCast, hloop]
    simp [hempty]
  · have hlength : (Stages.stamp session 0 (s.registered.take k)).length +
        (s.registered.drop k).length = s.registered.length := by
      rw [Stages.length_stamp, ← length_append, take_append_drop]
    have hstop : start + (s.released ++ Stages.stamp session 0 (s.registered.take k)).length +
        (s.registered.drop k).length = start + s.released.length + s.registered.length := by
      rw [length_append]
      omega
    rwa [hstop]

theorem Represents.getReleasedBuffers_eq (h : b.Represents s) (htags : ∀ x ∈ s.released, x.tag ≠ 0)
    (hsize : 0 < size) :
    ∃ b', b.getReleasedBuffers size =
        some (b', ⟨(s.released.take size).map AudioBuffer.tag, (s.released.take size).length⟩) ∧
      b'.Represents ⟨s.released.drop size, s.registered, s.appended⟩ := by
  obtain ⟨start, h⟩ := h
  obtain ⟨b', hloop, hb'⟩ := h.releasedTagsLoop_eq htags [] hsize
  refine ⟨b', ?_, start + (s.released.take size).length, ?_⟩
  · rw [getReleasedBuffers, h.releasedCount, Int.toNat_natCast]
    simpa using hloop
  · have hlength : (s.released.take size).length + (s.released.drop size).length = s.released.length := by
      rw [← length_append, take_append_drop]
    have hstart : start + (s.released.take size).length + (s.released.drop size).length =
        start + s.released.length := by omega
    simpa only [length_nil, Nat.sub_zero, hstart] using hb'

section

variable {start stop : ℕ} (h : b.RepresentsAt s start stop)
  (hstop : stop = start + s.released.length + s.registered.length)

include h hstop

theorem RepresentsAt.getRegisteredAppendedBuffers_eq :
    ∃ b', b.getRegisteredAppendedBuffers N = some (b', s.registered ++ s.appended) ∧
      b'.RepresentsAt ⟨s.all, [], []⟩ start stop := by
  have hfits := h.fits
  simp only [Stages.all, length_append] at hfits
  have htotal : b.registeredCount + b.appendedCount = ((s.registered.length + s.appended.length : ℕ) : ℤ) := by
    rw [h.registeredCount, h.appendedCount, Int.natCast_add]
  rw [getRegisteredAppendedBuffers, htotal, Int.toNat_natCast, Nat.min_eq_left (by omega)]
  by_cases hnone : s.registered.length + s.appended.length = 0
  · have hreg : s.registered = [] := eq_nil_of_length_eq_zero (by omega)
    have happ : s.appended = [] := eq_nil_of_length_eq_zero (by omega)
    obtain ⟨rel, reg, app⟩ := s
    dsimp only at hreg happ
    subst hreg happ
    exact ⟨b, by simp, by simpa [Stages.all] using h⟩
  · have hcount : ([] : List AudioBuffer).length + s.registered.length ≤ s.registered.length + s.appended.length := by
      rw [length_nil]
      omega
    obtain ⟨b₁, hloop₁, hb₁⟩ := h.flushRegisteredLoop_eq hstop [] hcount (by omega)
    obtain ⟨b₂, hloop₂, hb₂⟩ := hb₁.flushAppendedLoop_eq s.registered (Nat.le_refl _) (by omega)
    have hcount₁ : b₁.appendedCount.toNat = s.appended.length := by
      rw [hb₁.appendedCount, Int.toNat_natCast]
    refine ⟨b₂, ?_, hb₂⟩
    rw [if_neg (by omega), h.registeredCount, Int.toNat_natCast]
    dsimp only
    rw [if_neg hnone, hloop₁, bind_eq_bind, bind_some]
    dsimp only
    rw [hcount₁, nil_append, hloop₂]

/-- **A flush empties both sections**, but the end of the registered one stays where it was. -/
theorem RepresentsAt.flushBuffers_eq :
    ∃ b', b.flushBuffers = some (b', (s.registered ++ s.appended).length, true) ∧
      b'.RepresentsAt ⟨s.all, [], []⟩ start stop := by
  obtain ⟨b', hflush, hb'⟩ := h.getRegisteredAppendedBuffers_eq hstop
  refine ⟨b', ?_, hb'⟩
  have hreg : b'.registeredCount = 0 := hb'.registeredCount
  have happ : b'.appendedCount = 0 := hb'.appendedCount
  have hrel : b'.releasedCount ≤ N := by
    have hfits := hb'.fits
    simp only [Stages.all, append_nil] at hfits
    rw [hb'.releasedCount]
    exact Int.ofNat_le.2 hfits
  rw [flushBuffers, hflush, bind_eq_bind, bind_some]
  simp [hreg, happ, hrel]

end

theorem containsLoop_eq (hN : 0 < N) {p : ℕ} {tag : BitVec 64} (h : Ring.Holds N b.buffers p xs) :
    b.containsLoop tag xs.length (p % N : ℕ) = some (decide (tag ∈ xs.map AudioBuffer.tag)) := by
  induction xs generalizing p with
  | nil => rfl
  | cons x xs ih =>
      rw [length_cons, containsLoop, get_mod hN, h.1, bind_eq_bind, bind_some, advance_mod, ih h.2]
      by_cases htag : x.tag = tag
      · rw [if_pos htag]
        simp [htag]
      · rw [if_neg htag]
        simp [Ne.symm htag]

/-- **`ContainsBuffer` looks at exactly the buffers of the three sections.** -/
theorem Represents.containsBuffer_eq (h : b.Represents s) (tag : BitVec 64) :
    b.containsBuffer tag = some (decide (tag ∈ s.all.map AudioBuffer.tag)) := by
  obtain ⟨start, h⟩ := h
  have hfits := h.fits
  have htotal : b.appendedCount + b.registeredCount + b.releasedCount = (s.all.length : ℤ) := by
    rw [h.appendedCount, h.registeredCount, h.releasedCount, Stages.all, length_append, length_append]
    omega
  rw [containsBuffer, htotal, Int.toNat_natCast]
  by_cases hnone : s.all.length = 0
  · rw [if_pos (by omega), eq_nil_of_length_eq_zero hnone]
    rfl
  · have hstart : before N b.releasedIndex b.releasedCount = (start % N : ℕ) := by
      rw [h.releasedIndex, h.releasedCount]
      by_cases hzero : s.released.length = 0
      · rw [hzero, before, Nat.add_zero, Int.natCast_zero, Int.sub_zero, if_neg (by omega)]
      · refine before_mod _ ?_ (by omega)
        rw [Stages.all, length_append, length_append] at hfits
        omega
    rw [if_neg (by omega), hstart, containsLoop_eq (by omega) h.cells]

end

/-! ### Calls -/

/-- A call of a ring. -/
inductive Call where
  | appendBuffer (buffer : AudioBuffer)
  | registerBuffers
  | releaseBuffers (session : Session) (force : Bool)
  | flushBuffers
  | getReleasedBuffers (size : ℕ)

/-- What a call gives back or asks of the session. -/
inductive Answer where
  | none
  | registered (buffers : List AudioBuffer)
  | released (requests : AudioBuffers.Requests) (any : Bool)
  | flushed (count : ℕ) (done : Bool)
  | tags (tags : AudioBuffers.Tags)

/-- The buffers that a call hands out to be played. -/
def Answer.handedOut : Answer → List AudioBuffer
  | registered buffers => buffers
  | _ => []

/-- The tags that a call returns. -/
def Answer.returned : Answer → List (BitVec 64)
  | tags t => t.written
  | _ => []

namespace Call

variable {N : ℕ}

/-- Call a ring. -/
def exec (b : AudioBuffers N) : Call → Option (AudioBuffers N × Answer)
  | appendBuffer buffer => (b.appendBuffer buffer).map fun b => (b, .none)
  | registerBuffers => b.registerBuffers.map fun r => (r.1, .registered r.2)
  | releaseBuffers session force =>
      (b.releaseBuffers session force).map fun r => (r.1, .released r.2.1 r.2.2)
  | flushBuffers => b.flushBuffers.map fun r => (r.1, .flushed r.2.1 r.2.2)
  | getReleasedBuffers size => (b.getReleasedBuffers size).map fun r => (r.1, .tags r.2)

/-- A buffer with a tag is appended only while the ring has room, and a span of tags is not
empty. -/
def Valid (b : AudioBuffers N) : Call → Prop
  | appendBuffer buffer => b.getTotalBufferCount < N ∧ buffer.tag ≠ 0
  | getReleasedBuffers size => 0 < size
  | _ => True

/-- What a call does to the three queues. -/
def next (s : Stages) : Call → Stages
  | appendBuffer buffer => { s with appended := s.appended ++ [buffer] }
  | registerBuffers =>
      ⟨s.released, s.registered ++ s.appended.take s.toRegister, s.appended.drop s.toRegister⟩
  | releaseBuffers session force =>
      let k := Stages.consumed session force 0 s.registered
      ⟨s.released ++ Stages.stamp session 0 (s.registered.take k), s.registered.drop k, s.appended⟩
  | flushBuffers => ⟨s.all, [], []⟩
  | getReleasedBuffers size => { s with released := s.released.drop size }

/-- What a call of the three queues gives back or asks: the oldest appended buffers are handed out,
the session is asked about the oldest registered ones, up to the first that is not consumed, and the
tags of the oldest released ones are returned. -/
def answer (s : Stages) : Call → Answer
  | appendBuffer _ => .none
  | registerBuffers => .registered (s.appended.take s.toRegister)
  | releaseBuffers session force =>
      let k := Stages.consumed session force 0 s.registered
      .released ⟨if force then [] else s.registered.take (k + 1), s.registered.take k⟩
        (!(s.registered.take k).isEmpty || (s.registered.drop k).isEmpty)
  | flushBuffers => .flushed (s.registered ++ s.appended).length true
  | getReleasedBuffers size =>
      .tags ⟨(s.released.take size).map AudioBuffer.tag, (s.released.take size).length⟩

/-- The buffers that a call moves on from the appended section, with whether it hands them out. -/
def departures (s : Stages) : Call → List (Bool × AudioBuffer)
  | registerBuffers => (s.appended.take s.toRegister).map (true, ·)
  | flushBuffers => s.appended.map (false, ·)
  | _ => []

/-- The buffer that a call appends. -/
def arrival : Call → List AudioBuffer
  | appendBuffer buffer => [buffer]
  | _ => []

end Call

section

variable {N : ℕ} {b : AudioBuffers N} {s : Stages}

theorem Represents.getTotalBufferCount_eq (h : b.Represents s) :
    b.getTotalBufferCount = s.all.length := by
  obtain ⟨start, h⟩ := h
  rw [getTotalBufferCount, h.appendedCount, h.registeredCount, h.releasedCount, Stages.all,
    length_append, length_append]
  omega

/-- With no registered buffer, the registered and the released section end at one place. -/
theorem Represents.releasedIndex_eq (h : b.Represents s) (hreg : s.registered = []) :
    b.releasedIndex = b.registeredIndex := by
  obtain ⟨start, h⟩ := h
  rw [h.releasedIndex, h.registeredIndex, hreg, length_nil, Nat.add_zero]

/-- **After a flush the sections are next to each other** if and only if there was no appended
buffer, or the whole ring was full of them. -/
theorem RepresentsAt.represents_flushed_iff {b' : AudioBuffers N} {start stop : ℕ} (h : b.RepresentsAt s start stop)
    (hstop : stop = start + s.released.length + s.registered.length)
    (h' : b'.RepresentsAt ⟨s.all, [], []⟩ start stop) :
    b'.Represents ⟨s.all, [], []⟩ ↔ s.appended = [] ∨ s.appended.length = N := by
  have hfits := h.fits
  have hall : s.all.length = s.released.length + s.registered.length + s.appended.length := by
    rw [Stages.all, length_append, length_append]
  have hend : start + s.all.length = stop + s.appended.length := by omega
  constructor
  · intro hrep
    have heq := hrep.releasedIndex_eq rfl
    rw [h'.releasedIndex, h'.registeredIndex, Int.natCast_inj] at heq
    dsimp only at heq
    rw [hend] at heq
    by_contra hnot
    obtain ⟨hsome, hless⟩ := not_or.1 hnot
    have hpos := length_pos_iff.2 hsome
    exact Ring.mod_ne hpos (by omega) heq
  · intro hwhole
    have hmod : stop % N = (start + s.all.length + 0) % N := by
      rw [Nat.add_zero, hend]
      rcases hwhole with hnil | hfull
      · rw [hnil, length_nil, Nat.add_zero]
      · rw [hfull, Nat.add_mod_right]
    exact ⟨start, { h' with registeredIndex := by rw [h'.registeredIndex, hmod]; rfl }⟩

end

namespace Call

variable {N : ℕ} {b : AudioBuffers N} {s : Stages}

/-- **One call.**  It does not leave the ring, it gives what the queues give, and afterwards the ring
stands for the queues again, unless it is a flush that takes some appended buffers but not `N`. -/
theorem exec_iff (h : b.Represents s) (htags : ∀ x ∈ s.all, x.tag ≠ 0) (hc : c.Valid b) :
    ∃ b', c.exec b = some (b', c.answer s) ∧ (b'.Represents (c.next s) ↔
        (c = .flushBuffers → s.appended = [] ∨ s.appended.length = N)) := by
  cases c with
  | appendBuffer buffer =>
      have hroom := hc.1
      rw [h.getTotalBufferCount_eq, Int.ofNat_lt] at hroom
      obtain ⟨b', hexec, hb'⟩ := h.appendBuffer_eq hroom buffer
      exact ⟨b', by rw [exec, hexec]; rfl, iff_of_true hb' (fun heq => by cases heq)⟩
  | registerBuffers =>
      obtain ⟨b', hexec, hb'⟩ := h.registerBuffers_eq
      exact ⟨b', by rw [exec, hexec]; rfl, iff_of_true hb' (fun heq => by cases heq)⟩
  | releaseBuffers session force =>
      obtain ⟨b', hexec, hb'⟩ := h.releaseBuffers_eq session force
      exact ⟨b', by rw [exec, hexec]; rfl, iff_of_true hb' (fun heq => by cases heq)⟩
  | flushBuffers =>
      obtain ⟨start, h⟩ := h
      obtain ⟨b', hexec, hb'⟩ := h.flushBuffers_eq rfl
      refine ⟨b', by rw [exec, hexec]; rfl, (h.represents_flushed_iff rfl hb').trans ?_⟩
      exact ⟨fun hwhole _ => hwhole, fun hwhole => hwhole rfl⟩
  | getReleasedBuffers size =>
      have hreleased : ∀ x ∈ s.released, x.tag ≠ 0 := fun x hx =>
        htags x (mem_append_left _ (mem_append_left _ hx))
      obtain ⟨b', hexec, hb'⟩ := h.getReleasedBuffers_eq hreleased hc
      exact ⟨b', by rw [exec, hexec]; rfl, iff_of_true hb' (fun heq => by cases heq)⟩

end Call

namespace Stages

/-- The queues after some calls. -/
def run (s : Stages) (calls : List Call) : Stages := calls.foldl Call.next s

/-- What some calls of the queues give. -/
def answers : Stages → List Call → List Answer
  | _, [] => []
  | s, c :: calls => c.answer s :: answers (c.next s) calls

/-- The buffers that left the appended section during some calls. -/
def departed : Stages → List Call → List (Bool × AudioBuffer)
  | _, [] => []
  | s, c :: calls => c.departures s ++ departed (c.next s) calls

variable {s : Stages}

theorem answers_concat (calls : List Call) (c : Call) :
    s.answers (calls ++ [c]) = s.answers calls ++ [c.answer (s.run calls)] := by
  induction calls generalizing s with
  | nil => rfl
  | cons d calls ih => exact congrArg (d.answer s :: ·) ih

theorem next_appended (c : Call) :
    s.appended ++ c.arrival = (c.departures s).map Prod.snd ++ (c.next s).appended := by
  cases c <;> simp [Call.arrival, Call.departures, Call.next, comp_def]

theorem handedOut_answer (c : Call) :
    (c.answer s).handedOut = ((c.departures s).filter Prod.fst).map Prod.snd := by
  cases c with
  | registerBuffers =>
      have hall : ∀ d ∈ (s.appended.take s.toRegister).map (true, ·), Prod.fst d = true :=
        forall_mem_map.2 fun _ _ => rfl
      rw [Call.departures, filter_eq_self.2 hall, List.map_map]
      simp [Call.answer, Answer.handedOut, comp_def]
  | _ => simp [Call.answer, Call.departures, Answer.handedOut]

theorem next_tags (c : Call) :
    (s.all ++ c.arrival).map AudioBuffer.tag = (c.answer s).returned ++ (c.next s).all.map AudioBuffer.tag := by
  cases c with
  | appendBuffer buffer => simp [Call.arrival, Call.answer, Answer.returned, Call.next, all]
  | registerBuffers =>
      simp only [Call.arrival, Call.answer, Answer.returned, Call.next, all, append_nil,
        nil_append, append_assoc, take_append_drop]
  | releaseBuffers session force =>
      have hregistered := congrArg (map AudioBuffer.tag)
        (take_append_drop (consumed session force 0 s.registered) s.registered)
      rw [map_append] at hregistered
      simp only [Call.arrival, Call.answer, Answer.returned, Call.next, all, append_nil,
        nil_append, map_append, map_tag_stamp, append_assoc, ← hregistered]
  | flushBuffers => simp [Call.arrival, Call.answer, Answer.returned, Call.next, all]
  | getReleasedBuffers size =>
      have hreleased := congrArg (map AudioBuffer.tag) (take_append_drop size s.released)
      rw [map_append] at hreleased
      simp only [Call.arrival, Call.answer, Answer.returned, Call.next, all, append_nil,
        map_append, append_assoc, ← hreleased]

/-- **Buffers leave the appended section in the order in which they came.** -/
theorem run_appended (calls : List Call) :
    s.appended ++ calls.flatMap Call.arrival = (s.departed calls).map Prod.snd ++ (s.run calls).appended := by
  induction calls generalizing s with
  | nil => simp [departed, run]
  | cons c calls ih =>
      rw [flatMap_cons, ← append_assoc, next_appended, append_assoc, ih, departed, map_append, append_assoc]
      rfl

theorem run_handedOut (calls : List Call) :
    (s.answers calls).flatMap Answer.handedOut = ((s.departed calls).filter Prod.fst).map Prod.snd := by
  induction calls generalizing s with
  | nil => rfl
  | cons c calls ih =>
      rw [answers, flatMap_cons, ih, handedOut_answer, departed, filter_append, map_append]

/-- **Every tag is returned once**, in the order in which the buffers came. -/
theorem run_tags (calls : List Call) :
    (s.all ++ calls.flatMap Call.arrival).map AudioBuffer.tag =
      (s.answers calls).flatMap Answer.returned ++ (s.run calls).all.map AudioBuffer.tag := by
  induction calls generalizing s with
  | nil => simp [answers, run]
  | cons c calls ih =>
      rw [flatMap_cons, ← append_assoc, map_append, next_tags, append_assoc,
        ← map_append, ih, answers, flatMap_cons, append_assoc]
      rfl

theorem run_concat (calls : List Call) (c : Call) :
    s.run (calls ++ [c]) = c.next (s.run calls) := by
  rw [run, foldl_append]
  rfl

end Stages

/-! ### Runs -/

/-- The queues of a new ring after some calls. -/
def stagesAfter (calls : List Call) : Stages := Stages.run ⟨[], [], []⟩ calls

/-- A new ring of `N` buffers reaches a state by valid calls, which give these answers. -/
inductive Run (N : ℕ) : List Call → AudioBuffers N → List Answer → Prop
  | new : Run N [] (.new N) []
  | call {calls b answers c b' a} : Run N calls b answers → c.Valid b → c.exec b = some (b', a) →
      Run N (calls ++ [c]) b' (answers ++ [a])

/-- What a ring of audio buffers is for: its sections are next to each other and hold the three
queues, everything that was given or asked is what the queues say, and no valid call leaves the ring.
The appended buffers leave their section in order and those handed out are so each once, and each tag
comes back once, in order. -/
structure Fifo {N : ℕ} (calls : List Call) (b : AudioBuffers N) (answers : List Answer) : Prop where
  sections : b.Represents (stagesAfter calls)
  answers_eq : answers = Stages.answers ⟨[], [], []⟩ calls
  returns : ∀ c : Call, c.Valid b → ∃ b', c.exec b = some (b', c.answer (stagesAfter calls))
  contains : ∀ tag, b.containsBuffer tag =
    some (decide (tag ∈ (stagesAfter calls).all.map AudioBuffer.tag))
  handsOut : ∃ departed : List (Bool × AudioBuffer),
    calls.flatMap Call.arrival = departed.map Prod.snd ++ (stagesAfter calls).appended ∧
      answers.flatMap Answer.handedOut = (departed.filter Prod.fst).map Prod.snd
  tags : (calls.flatMap Call.arrival).map AudioBuffer.tag =
    answers.flatMap Answer.returned ++ (stagesAfter calls).all.map AudioBuffer.tag

/-- Every flush finds no appended buffer or `N` of them. -/
def FlushesWhole (N : ℕ) (calls : List Call) : Prop :=
  ∀ before, before ++ [.flushBuffers] <+: calls →
    (stagesAfter before).appended = [] ∨ (stagesAfter before).appended.length = N

namespace Run

variable {N : ℕ} {calls before : List Call} {b : AudioBuffers N} {answers : List Answer}

theorem of_prefix (h : Run N calls b answers) (hbefore : before <+: calls) :
    ∃ b' answers', Run N before b' answers' := by
  induction h with
  | new =>
      rw [prefix_nil.1 hbefore]
      exact ⟨_, _, .new⟩
  | call h hc hexec ih =>
      rcases prefix_concat_iff.1 hbefore with rfl | hshorter
      · exact ⟨_, _, .call h hc hexec⟩
      · exact ih hshorter

theorem of_concat (h : Run N (calls ++ [c]) b answers) :
    ∃ b₀ answers₀ a, Run N calls b₀ answers₀ ∧ c.exec b₀ = some (b, a) := by
  generalize hall : calls ++ [c] = all at h
  cases h with
  | new => simp at hall
  | call h hc hexec =>
      obtain ⟨rfl, hlast⟩ := append_inj' hall rfl
      cases hlast
      exact ⟨_, _, _, h, hexec⟩

theorem arrival_tag (h : Run N calls b answers) :
    ∀ x ∈ calls.flatMap Call.arrival, x.tag ≠ 0 := by
  induction h with
  | new => simp
  | @call calls b answers c b' a h hc hexec ih =>
      rw [flatMap_append, flatMap_singleton]
      intro x hx
      rcases mem_append.1 hx with hold | hnew
      · exact ih x hold
      · cases c with
        | appendBuffer buffer =>
            rw [mem_singleton.1 hnew]
            exact hc.2
        | _ => cases hnew

theorem stages_tag (h : Run N calls b answers) : ∀ x ∈ (stagesAfter calls).all, x.tag ≠ 0 := by
  intro x hx
  have htags := Stages.run_tags (s := ⟨[], [], []⟩) calls
  have hmem : x.tag ∈ (calls.flatMap Call.arrival).map AudioBuffer.tag := by
    change _ = _ ++ (stagesAfter calls).all.map AudioBuffer.tag at htags
    rw [show (Stages.mk [] [] []).all = [] from rfl, nil_append] at htags
    rw [htags]
    exact mem_append_right _ (mem_map_of_mem hx)
  obtain ⟨y, hy, htag⟩ := mem_map.1 hmem
  rw [← htag]
  exact h.arrival_tag y hy

/-- A ring that stands for the queues does what it is for. -/
theorem fifo_of_sections (h : Run N calls b answers) (hsections : b.Represents (stagesAfter calls))
    (hanswers : answers = Stages.answers ⟨[], [], []⟩ calls) : Fifo calls b answers where
  sections := hsections
  answers_eq := hanswers
  returns c hc := by
    obtain ⟨b', hexec, -⟩ := Call.exec_iff hsections h.stages_tag hc
    exact ⟨b', hexec⟩
  contains tag := hsections.containsBuffer_eq tag
  handsOut := by
    have hleave := Stages.run_appended (s := ⟨[], [], []⟩) calls
    rw [nil_append] at hleave
    refine ⟨_, hleave, ?_⟩
    rw [hanswers, Stages.run_handedOut]
  tags := by
    have htags := Stages.run_tags (s := ⟨[], [], []⟩) calls
    rw [hanswers]
    exact htags

theorem represents_new (N : ℕ) : (AudioBuffers.new N).Represents (stagesAfter []) :=
  ⟨0, Nat.zero_le _, rfl, rfl, rfl, by simp [AudioBuffers.new, stagesAfter, Stages.run],
    by simp [AudioBuffers.new, stagesAfter, Stages.run],
    by simp [AudioBuffers.new, stagesAfter, Stages.run, Stages.all], trivial⟩

theorem fifo (h : Run N calls b answers) (hflush : FlushesWhole N calls) :
    Fifo calls b answers := by
  induction h with
  | new => exact Run.new.fifo_of_sections (represents_new N) rfl
  | @call calls b answers c b' a h hc hexec ih =>
      have hfifo := ih fun before hbefore =>
        hflush before (hbefore.trans (prefix_append calls [c]))
      obtain ⟨b₁, hexec₁, hiff⟩ := Call.exec_iff hfifo.sections h.stages_tag hc
      rw [hexec] at hexec₁
      cases hexec₁
      refine (Run.call h hc hexec).fifo_of_sections ?_ ?_
      · rw [stagesAfter, Stages.run_concat]
        exact hiff.2 fun heq => hflush calls (by rw [heq])
      · rw [hfifo.answers_eq, Stages.answers_concat]
        rfl

/-- **The ring is a FIFO in three stages throughout a run** if and only if every flush finds no
appended buffer or a ring full of them. -/
theorem fifo_iff (h : Run N calls b answers) :
    (∀ before b' answers', before <+: calls → Run N before b' answers' →
      Fifo before b' answers') ↔ FlushesWhole N calls := by
  constructor
  · intro hfifo before hbefore
    obtain ⟨b', answers', hrun⟩ := h.of_prefix hbefore
    have hafter := (hfifo _ _ _ hbefore hrun).sections
    obtain ⟨b, answers, a, hrun, hexec⟩ := hrun.of_concat
    have hfirst := (hfifo _ _ _ ((List.prefix_append _ _).trans hbefore) hrun).sections
    obtain ⟨b₁, hexec₁, hiff⟩ := Call.exec_iff hfirst hrun.stages_tag (c := .flushBuffers) trivial
    rw [hexec] at hexec₁
    cases hexec₁
    rw [stagesAfter, Stages.run_concat] at hafter
    exact hiff.1 hafter rfl
  · intro hflush before b' answers' hbefore hrun
    exact hrun.fifo fun earlier hearlier => hflush earlier (hearlier.trans hbefore)

/-- A buffer with a tag. -/
def tagged (tag : BitVec 64) : AudioBuffer := ⟨0, 0, 0, 0, tag, 0⟩

/-- Two buffers are appended and registered and the first is released when it is consumed.  A third one goes
around the end of the ring.  The tags are collected before and after a flush of the registered buffers. -/
def playedCalls : List Call :=
  [.appendBuffer (tagged 1), .appendBuffer (tagged 2), .registerBuffers,
    .releaseBuffers ⟨fun _ buffer => buffer.tag = 1, fun _ => 7⟩ false, .getReleasedBuffers 2,
    .appendBuffer (tagged 3), .registerBuffers, .flushBuffers, .getReleasedBuffers 4]

theorem run_playedCalls : ∃ b answers, Run 2 playedCalls b answers := by
  have hregistered := (((Run.new (N := 2)).call (c := .appendBuffer (tagged 1)) (by constructor <;> decide) rfl).call
    (c := .appendBuffer (tagged 2)) (by constructor <;> decide) rfl).call (c := .registerBuffers) trivial rfl
  have hcollected := (hregistered.call (c := .releaseBuffers ⟨fun _ buffer => buffer.tag = 1, fun _ => 7⟩ false)
    trivial rfl).call (c := .getReleasedBuffers 2) (show 0 < 2 by decide) rfl
  exact ⟨_, _, (((hcollected.call (c := .appendBuffer (tagged 3)) (by constructor <;> decide) rfl).call
    (c := .registerBuffers) trivial rfl).call (c := .flushBuffers) trivial rfl).call (c := .getReleasedBuffers 4)
    (show 0 < 4 by decide) rfl⟩

/-- The flush comes when no buffer is left in the appended section. -/
theorem flushesWhole_playedCalls : FlushesWhole 2 playedCalls := by
  rintro before ⟨rest, hrest⟩
  have hcall : playedCalls[before.length]? = some .flushBuffers := by simp [← hrest]
  have hbefore : before = playedCalls.take before.length := by simp [← hrest]
  have hseven : ∀ k, playedCalls[k]? = some .flushBuffers → k = 7
    | 7, _ => rfl
    | 0, h | 1, h | 2, h | 3, h | 4, h | 5, h | 6, h | 8, h => nomatch h
    | _ + 9, h => nomatch h
  rw [hbefore, hseven _ hcall]
  exact .inl rfl

/-- The played buffers keep their order, and their tags come back in it. -/
theorem fifo_played : ∃ b answers, Run 2 playedCalls b answers ∧ Fifo playedCalls b answers ∧
    answers.flatMap Answer.returned = [1, 2, 3] := by
  obtain ⟨b, answers, hrun⟩ := run_playedCalls
  have hfifo := (fifo_iff hrun).2 flushesWhole_playedCalls _ _ _ (prefix_refl _) hrun
  refine ⟨b, answers, hrun, hfifo, ?_⟩
  rw [hfifo.answers_eq]
  decide

/-- A flush of one appended buffer in a ring of two: the ends of the sections differ afterwards. -/
theorem not_fifo_flushed : ∃ b answers,
    Run 2 [.appendBuffer ⟨0, 0, 0, 0, 1, 0⟩, .flushBuffers] b answers ∧
      ¬ Fifo [.appendBuffer ⟨0, 0, 0, 0, 1, 0⟩, .flushBuffers] b answers := by
  have hrun := ((Run.new (N := 2)).call (c := .appendBuffer ⟨0, 0, 0, 0, 1, 0⟩)
    (by constructor <;> decide) rfl).call (c := .flushBuffers) trivial rfl
  refine ⟨_, _, hrun, fun hfifo => ?_⟩
  have hindex := hfifo.sections.releasedIndex_eq rfl
  revert hindex
  decide

end Run
end NXEmu.AudioCore.AudioBuffers
