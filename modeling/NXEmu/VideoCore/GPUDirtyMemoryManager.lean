/-
# CPU writes for the GPU

`src/nxemu-os/core/gpu_dirty_memory_manager.h`: threads of the CPU collect the ranges they write, and
the thread of the GPU gathers them.  One window of 2 KiB with a bit for each block of 64 bytes is
current; it grows by compare-and-swap without the lock, and a window that is replaced goes to a
buffer under the lock.

The threads take turns step by step: a step is one access to the current window, or one access to the
buffers under the lock, and the end of a section of the lock goes with its last access.  What is seen
from outside are calls and their returns, and the ranges `Gather` passes to `OnCacheInvalidation`.
-/

import Mathlib
import NXEmu.Lib.SummaryBitmap

namespace NXEmu
namespace Core
namespace GPUDirtyMemoryManager

/-- Bytes of memory, by address and size. -/
structure Range where
  address : ℕ
  size : ℕ
deriving DecidableEq

/-- The byte is one of them. -/
def Range.Mem (r : Range) (b : ℕ) : Prop := r.address ≤ b ∧ b < r.address + r.size

/-- `page_size`, a window. -/
abbrev pageSize : ℕ := 2048

/-- `align_size`, a block. -/
abbrev alignSize : ℕ := 64

/-- `TransformAddress`. -/
structure Transform where
  address : BitVec 32
  mask : BitVec 32
deriving DecidableEq

/-- `default_transform`. -/
def defaultTransform : Transform := ⟨BitVec.allOnes 32, 0⟩

/-- `IsValid`. -/
def isValid (address : ℕ) : Bool := decide (address < 2 ^ 39)

/-- `CreateMask<u32>`. -/
def createMask (topBit minorBit : ℕ) : BitVec 32 :=
  (BitVec.allOnes 32 >>> (32 - topBit)) &&& (BitVec.allOnes 32 <<< minorBit)

/-- `BuildTransform`: the page of a write, and the bits of the blocks that it touches. -/
def buildTransform (address size : ℕ) : Transform :=
  let minorAddress := address % pageSize
  let minorBit := minorAddress / alignSize
  let topBit := (minorAddress + size + (alignSize - 1)) / alignSize
  ⟨.ofNat 32 (address / pageSize), createMask topBit minorBit⟩

/-- The byte is in a block that is marked. -/
def Transform.Covers (t : Transform) (b : ℕ) : Prop :=
  b / pageSize = t.address.toNat ∧ t.mask.getLsbD (b % pageSize / alignSize) = true

/-- The loop of `Gather` over the mask of a window, if it ends within so many rounds: the ranges that
are invalidated. -/
def gatherMask (base : ℕ) : ℕ → (offset : ℕ) → BitVec 64 → Option (List Range)
  | 0, _, mask => if mask = 0 then some [] else none
  | rounds + 1, offset, mask =>
    if mask = 0 then some []
    else
      let emptyBits := SummaryBitmap.firstBit mask
      let offset := offset + emptyBits * alignSize
      let mask := mask >>> emptyBits
      let continuousBits := SummaryBitmap.firstBit (~~~mask)
      let call : Range := ⟨base + offset, continuousBits * alignSize % 2 ^ 32⟩
      let mask := if continuousBits < alignSize then mask >>> continuousBits else 0
      (gatherMask base rounds (offset + continuousBits * alignSize) mask).map (call :: ·)

/-- The ranges that are invalidated for a window. -/
def Transform.calls (t : Transform) : Option (List Range) :=
  gatherMask (t.address.toNat * pageSize) 64 0 (t.mask.zeroExtend 64)

/-! ### Threads -/

/-- What the CPU calls. -/
inductive Call where
  | collect (r : Range)
  | collectExact (r : Range)

/-- The range of a call. -/
def Call.range : Call → Range
  | collect r | collectExact r => r

/-- A round of the loop of `Collect`: the range of the call, and what of it is left. -/
structure Window where
  args : Range
  left : Range

namespace Window

/-- `chunk`. -/
def chunk (w : Window) : ℕ := min w.left.size (pageSize - w.left.address % pageSize)

/-- `t` of `CollectSingleWindow`. -/
def transform (w : Window) : Transform := buildTransform w.left.address w.chunk

end Window

/-- Where a thread of the CPU is: before an access, or at the end of a call. -/
inductive Pc where
  | idle
  | load (w : Window)
  | replace (w : Window) (tmp : Transform)
  | exchange (w : Window)
  | compareExchange (w : Window) (original tmp : Transform)
  | exact (r : Range)
  | returning (c : Call)

/-- The head of the loop of `Collect`. -/
def collectLoop (args left : Range) : Pc :=
  if left.size = 0 then .returning (.collect args) else .load ⟨args, left⟩

/-- The head of the loop after a window. -/
def Window.next (w : Window) : Pc :=
  collectLoop w.args ⟨w.left.address + w.chunk, w.left.size - w.chunk⟩

/-- A call begins. -/
def Call.enter : Call → Pc
  | collect r => collectLoop r r
  | collectExact r => .exact r

/-- `CollectSingleWindow` after `current.load`. -/
def Window.loaded (w : Window) (current : Transform) : Pc :=
  let t := w.transform
  let merge (tmp : Transform) : Pc :=
    if tmp.mask ||| t.mask = tmp.mask then w.next
    else .compareExchange w current ⟨tmp.address, tmp.mask ||| t.mask⟩
  if current.address ≠ t.address then
    if isValid current.address.toNat then .replace w current else merge ⟨t.address, 0⟩
  else merge current

/-- Where the thread of the GPU is in `Gather`. -/
inductive GatherPc where
  | idle
  | starting
  | taken (t : Transform)
  | reporting

/-- `GPUDirtyMemoryManager` with its threads. -/
structure State (ι : Type) where
  current : Transform
  guarded : Bool
  backBuffer : List Transform
  frontBuffer : List Transform
  exactBackBuffer : List Range
  exactFrontBuffer : List Range
  pc : ι → Pc
  gather : GatherPc

/-- What is seen from outside. -/
inductive Event (ι : Type) where
  | called (i : ι) (c : Call)
  | returned (i : ι) (c : Call)
  | gatherStarted
  | gathered (calls : List Range)

/-- Which step is taken, and by which thread. -/
inductive Action (ι : Type) where
  | call (i : ι) (c : Call)
  | load (i : ι)
  | pushBack (i : ι)
  | exchange (i : ι)
  | compareExchange (i : ι)
  | compareExchangeFails (i : ι)
  | pushExact (i : ι)
  | leave (i : ι)
  | gather
  | take
  | swap
  | report

variable {ι : Type} [DecidableEq ι]

namespace State

/-- No thread has called anything. -/
def init : State ι := ⟨defaultTransform, false, [], [], [], [], fun _ => .idle, .idle⟩

/-- A thread goes on. -/
def setPc (s : State ι) (i : ι) (pc : Pc) : State ι := { s with pc := Function.update s.pc i pc }

/-- The calls of `OnCacheInvalidation` for the front buffers. -/
def calls (s : State ι) : Option (List Range) :=
  (s.frontBuffer.mapM Transform.calls).map fun l =>
    s.exactFrontBuffer.map (fun r => ⟨r.address, r.size % 2 ^ 32⟩) ++ l.flatten

end State

/-- A step of a thread. -/
inductive Step (s : State ι) : Action ι → State ι → Option (Event ι) → Prop
  | call (i : ι) (c : Call) (pc : s.pc i = .idle) :
    Step s (.call i c) (s.setPc i c.enter) (some (.called i c))
  | load (i : ι) (w : Window) (pc : s.pc i = .load w) :
    Step s (.load i) (s.setPc i (w.loaded s.current)) none
  | pushBack (i : ι) (w : Window) (tmp : Transform) (pc : s.pc i = .replace w tmp)
    (guard : s.guarded = false) : Step s (.pushBack i)
      { s.setPc i (.exchange w) with guarded := true, backBuffer := s.backBuffer ++ [tmp] } none
  | exchange (i : ι) (w : Window) (pc : s.pc i = .exchange w) : Step s (.exchange i)
      { s.setPc i w.next with guarded := false, current := w.transform } none
  | compareExchange (i : ι) (w : Window) (original tmp : Transform)
    (pc : s.pc i = .compareExchange w original tmp) (current : s.current = original) :
    Step s (.compareExchange i) { s.setPc i w.next with current := tmp } none
  | compareExchangeFails (i : ι) (w : Window) (original tmp : Transform)
    (pc : s.pc i = .compareExchange w original tmp) :
    Step s (.compareExchangeFails i) (s.setPc i (.load w)) none
  | pushExact (i : ι) (r : Range) (pc : s.pc i = .exact r) (guard : s.guarded = false) :
    Step s (.pushExact i) { s.setPc i (.returning (.collectExact r)) with
      exactBackBuffer := s.exactBackBuffer ++ [r] } none
  | leave (i : ι) (c : Call) (pc : s.pc i = .returning c) :
    Step s (.leave i) (s.setPc i .idle) (some (.returned i c))
  | gather (pc : s.gather = .idle) :
    Step s .gather { s with gather := .starting } (some .gatherStarted)
  | take (pc : s.gather = .starting) (guard : s.guarded = false) : Step s .take
      { s with gather := .taken s.current, guarded := true, current := defaultTransform } none
  | swap (t : Transform) (pc : s.gather = .taken t) : Step s .swap
      { s with
        gather := .reporting
        guarded := false
        frontBuffer := s.backBuffer ++ (if isValid t.address.toNat then [t] else [])
        backBuffer := s.frontBuffer
        exactFrontBuffer := s.exactBackBuffer
        exactBackBuffer := s.exactFrontBuffer } none
  | report (calls : List Range) (pc : s.gather = .reporting) (eq : s.calls = some calls) :
    Step s .report { s with gather := .idle, frontBuffer := [], exactFrontBuffer := [] }
      (some (.gathered calls))

/-- Ranges that are not empty and below 2^42. -/
def Call.Valid (c : Call) : Prop := 0 < c.range.size ∧ c.range.address + c.range.size ≤ 2 ^ 42

/-- What threads call is valid. -/
def Valid (_ : State ι) : Action ι → Prop
  | .call _ c => c.Valid
  | _ => True

end GPUDirtyMemoryManager
end Core
end NXEmu
