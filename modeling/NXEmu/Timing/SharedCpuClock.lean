/-
# The shared clock of the CPU cores

`src/nxemu-os/core/shared_cpu_clock.h`: a clock that follows the least advanced of the cores that take
part.  A core's own time is a base and what the host clock has advanced since an anchor; it stands still
while the core compiles, and all of them stand still in a pause.  Without cores the clock follows the
host, and never does it pass the pace clock, which is the host time outside pauses.

Calls are atomic, so the sequence number, which readers compare, is always even and left out.  Times are
unbounded; a subtraction asserts that it does not wrap.  The host clock is read once by `Now` and once
more by the calls that change the clock, and those two readings are parameters.
-/

import NXEmu.Lib.Exec
import NXEmu.Lib.Trace

namespace NXEmu
namespace Core
namespace Timing

/-- `Hardware::NUM_CPU_CORES`. -/
def numCpuCores : ℕ := 4

/-- `SharedCpuClock::Slot`: what a core's time was when the host clock was at the anchor. -/
structure Slot where
  base : ℕ
  anchor : ℕ
  compiling : Bool

/-- `SharedCpuClock`, with the masks of the cores that run, that could, and that take part (`active`). -/
structure SharedCpuClock where
  slots : Fin numCpuCores → Slot
  idleBase : ℕ
  idleAnchor : ℕ
  paceBase : ℕ
  paceAnchor : ℕ
  active : BitVec 32
  running : BitVec 32
  runnable : BitVec 32
  paused : Bool
  published : ℕ

/-- A subtraction of two `u64`. -/
def sub (x y : ℕ) : Exec ℕ := do
  Exec.assert (y ≤ x)
  return x - y

/-- `1U << core`. -/
def coreBit (core : Fin numCpuCores) : BitVec 32 := 1#32 <<< core.val

/-- Whether a core is in a mask. -/
def contains (mask : BitVec 32) (core : Fin numCpuCores) : Bool := mask.getLsbD core

namespace SharedCpuClock

/-- `Reset`, with its two readings of the host clock. -/
def reset (host host' : ℕ) : SharedCpuClock where
  slots _ := ⟨0, 0, false⟩
  idleBase := 0
  idleAnchor := host
  paceBase := 0
  paceAnchor := host'
  active := 0
  running := 0
  runnable := 0
  paused := true
  published := 0

/-- What a core's time has advanced since its anchor, in `Now`. -/
def elapsed (c : SharedCpuClock) (core : Fin numCpuCores) (host : ℕ) : Exec ℕ :=
  if (c.slots core).compiling then return 0 else sub host (c.slots core).anchor

/-- The least time of the active cores, in `Now`. -/
def slotsCandidate (c : SharedCpuClock) (host : ℕ) (candidate : ℕ) (cores : List (Fin numCpuCores)) :
    Exec ℕ :=
  cores.foldlM (fun candidate core =>
    if contains c.active core then do
      let elapsed ← c.elapsed core host
      return min candidate ((c.slots core).base + elapsed)
    else return candidate) candidate

/-- The time of the cores, or the idle clock, in `Now`. -/
def candidate (c : SharedCpuClock) (host : ℕ) : Exec ℕ :=
  if c.active = 0 then sub (c.idleBase + host) c.idleAnchor
  else c.slotsCandidate host (2 ^ 64 - 1) (List.finRange numCpuCores)

/-- `Now`: the time of the slowest participant, not past the pace clock and never less than published before.
In a pause it is what was published last. -/
def now (c : SharedCpuClock) (host : ℕ) : Exec (ℕ × SharedCpuClock) :=
  if c.paused then return (c.published, c)
  else do
    let candidate ← c.candidate host
    let pace ← sub (c.paceBase + host) c.paceAnchor
    let published := max c.published (min candidate pace)
    return (published, { c with published := published })

/-- `CompilationBlocks`: a core that compiles holds the clock before the deadline. -/
def compilationBlocks (c : SharedCpuClock) (deadline : ℕ) : Bool :=
  (List.finRange numCpuCores).any fun core =>
    contains c.active core && (c.slots core).compiling && decide ((c.slots core).base < deadline)

/-- `Accumulate`: the slot with its time brought up to the host clock, unless it stands still. -/
def accumulate (c : SharedCpuClock) (slot : Slot) (host : ℕ) : Exec Slot :=
  if !c.paused && !slot.compiling then do
    let elapsed ← sub host slot.anchor
    return { slot with base := slot.base + elapsed, anchor := host }
  else return { slot with anchor := host }

/-- The clock with the slot of one core replaced. -/
def setSlot (c : SharedCpuClock) (core : Fin numCpuCores) (slot : Slot) : SharedCpuClock :=
  { c with slots := Function.update c.slots core slot }

/-- The time of a core itself, in `Begin`. -/
def ownTime (c : SharedCpuClock) (core : Fin numCpuCores) (now host : ℕ) : Exec ℕ :=
  if !contains c.active core then return now
  else if !c.paused && !(c.slots core).compiling then do
    let elapsed ← sub host (c.slots core).anchor
    return (c.slots core).base + elapsed
  else return (c.slots core).base

/-- `Begin`: a core starts to run, at its own time or that of the clock, whichever is later. -/
def beginCore (c : SharedCpuClock) (core : Fin numCpuCores) (host host' : ℕ) : Exec SharedCpuClock := do
  let (now, c) ← c.now host
  let own ← c.ownTime core now host'
  return { c.setSlot core ⟨max now own, host', false⟩ with
    running := c.running ||| coreBit core
    active := c.active ||| coreBit core }

/-- `End`: a core stops, and takes part only while it is runnable. -/
def endCore (c : SharedCpuClock) (core : Fin numCpuCores) (host host' : ℕ) : Exec SharedCpuClock := do
  let (now, c) ← c.now host
  let slot ← c.accumulate (c.slots core) host'
  let runs := c.running &&& ~~~coreBit core
  return { c.setSlot core slot with
    running := runs
    active := runs ||| c.runnable
    idleBase := now
    idleAnchor := host' }

/-- The slot of a core, in `Pause`. -/
def pausedSlot (c : SharedCpuClock) (core : Fin numCpuCores) (host : ℕ) : Exec Slot :=
  if contains c.active core then c.accumulate (c.slots core) host else return c.slots core

/-- The loop of `Pause` over the cores. -/
def pauseSlots (now host : ℕ) (c : SharedCpuClock) (cores : List (Fin numCpuCores)) :
    Exec SharedCpuClock :=
  cores.foldlM (fun c core => do
    let slot ← c.pausedSlot core host
    return c.setSlot core { slot with base := max now slot.base, anchor := host }) c

/-- `Pause`, begun or ended: every clock is anchored at the time that is published. -/
def pause (c : SharedCpuClock) (value : Bool) (host host' : ℕ) : Exec SharedCpuClock := do
  let (now, c) ← c.now host
  let c := { c with idleBase := now, idleAnchor := host', paceBase := now, paceAnchor := host' }
  let c ← pauseSlots now host' c (List.finRange numCpuCores)
  return { c with paused := value }

/-- `SetRunnableMask`: the cores that begin to take part start at the time of the clock. -/
def setRunnableMask (c : SharedCpuClock) (mask : BitVec 32) (host host' : ℕ) : Exec SharedCpuClock :=
  if c.runnable = mask then return c
  else do
    let (now, c) ← c.now host
    return { c with
      slots := fun core =>
        if !contains mask core || contains c.active core then c.slots core else ⟨now, host', false⟩
      runnable := mask
      active := mask ||| c.running
      idleBase := now
      idleAnchor := host' }

/-- `Compile`, with its only reading: the time of a running core stands still, or goes on. -/
def compile (c : SharedCpuClock) (core : Fin numCpuCores) (value : Bool) (host : ℕ) :
    Exec SharedCpuClock :=
  if !contains c.running core then return c
  else do
    let slot ← c.accumulate (c.slots core) host
    return c.setSlot core { slot with compiling := value }

end SharedCpuClock

/-! ### Calls -/

/-- A call of one of the public functions that read or change the clock. -/
inductive Call where
  | beginCore (core : Fin numCpuCores)
  | endCore (core : Fin numCpuCores)
  | pause (value : Bool)
  | setRunnableMask (mask : BitVec 32)
  | compile (core : Fin numCpuCores) (value : Bool)
  | now

/-- What a call returns, and the clock after it. -/
def Call.exec (c : SharedCpuClock) (host host' : ℕ) : Call → Exec (Option ℕ × SharedCpuClock)
  | beginCore core => do return (none, ← c.beginCore core host host')
  | endCore core => do return (none, ← c.endCore core host host')
  | pause value => do return (none, ← c.pause value host host')
  | setRunnableMask mask => do return (none, ← c.setRunnableMask mask host host')
  | compile core value => do return (none, ← c.compile core value host')
  | now => do
    let (value, c) ← c.now host
    return (some value, c)

end Timing
end Core
end NXEmu
