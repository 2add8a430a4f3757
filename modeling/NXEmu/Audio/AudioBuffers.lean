/-
# The ring of audio buffers

`AudioBuffers` of `src/yuzu_audio_core/device/audio_buffers.h`: a ring of `N` audio buffers that are
first appended, then registered with the audio backend and at last released.  An index of each
section says where it ends, and a count says how long it is.

A function fails (`none`) where the source reads outside the ring or pushes to a full
`static_vector`.  The source's `append_limit` is `N`.  The counts are at most `N`, so that nothing
overflows; each `while` loop goes on for as long as a count is positive, and takes one off it in
every round.
-/

import Mathlib

namespace NXEmu.AudioCore

/-- `AudioBuffer`. -/
structure AudioBuffer where
  startTimestamp : BitVec 64
  endTimestamp : BitVec 64
  playedTimestamp : BitVec 64
  samples : BitVec 64
  tag : BitVec 64
  size : BitVec 64
deriving DecidableEq, Repr

/-- `BufferAppendLimit`. -/
def bufferAppendLimit : ℤ := 4

/-- `AudioBuffers`. -/
structure AudioBuffers (N : ℕ) where
  buffers : ℕ → AudioBuffer
  releasedIndex : ℤ
  releasedCount : ℤ
  registeredIndex : ℤ
  registeredCount : ℤ
  appendedIndex : ℤ
  appendedCount : ℤ

/-- What a `DeviceSession` and `CoreTiming` answer during one call: whether the buffer of the `i`-th
question is consumed, and what the time of the `i`-th release is. -/
structure Session where
  isBufferConsumed : ℕ → AudioBuffer → Bool
  globalTime : ℕ → BitVec 64

namespace AudioBuffers

variable {N : ℕ}

/-- `AudioBuffers::AudioBuffers`. -/
def new (N : ℕ) : AudioBuffers N := ⟨fun _ => ⟨0, 0, 0, 0, 0, 0⟩, 0, 0, 0, 0, 0, 0⟩

/-- `buffers[index]`. -/
def get (b : AudioBuffers N) (index : ℤ) : Option AudioBuffer :=
  if 0 ≤ index ∧ index < N then some (b.buffers index.toNat) else none

/-- `buffers[index] = buffer`. -/
def set (b : AudioBuffers N) (index : ℤ) (buffer : AudioBuffer) : Option (AudioBuffers N) :=
  if 0 ≤ index ∧ index < N then
    some { b with buffers := Function.update b.buffers index.toNat buffer }
  else none

/-- `(index + 1) % append_limit`. -/
def advance (N : ℕ) (index : ℤ) : ℤ := (index + 1) % N

/-- `index - count`, and `N` more if that is negative. -/
def before (N : ℕ) (index count : ℤ) : ℤ :=
  if index - count < 0 then index - count + N else index - count

/-- `AppendBuffer`. -/
def appendBuffer (b : AudioBuffers N) (buffer : AudioBuffer) : Option (AudioBuffers N) := do
  let b ← b.set b.appendedIndex buffer
  return { b with
    appendedCount := b.appendedCount + 1
    appendedIndex := advance N b.appendedIndex }

/-- The loop of `RegisterBuffers`. -/
def registerLoop : ℕ → AudioBuffers N → List AudioBuffer →
    Option (AudioBuffers N × List AudioBuffer)
  | 0, b, out => some (b, out)
  | n + 1, b, out => do
      let buffer ← b.get (before N b.appendedIndex b.appendedCount)
      if out.length < N then
        let b := { b with
          registeredCount := b.registeredCount + 1
          registeredIndex := advance N b.registeredIndex
          appendedCount := b.appendedCount - 1 }
        if b.appendedCount = 0 then some (b, out ++ [buffer])
        else registerLoop n b (out ++ [buffer])
      else none

/-- `RegisterBuffers`, which gives the buffers it registers. -/
def registerBuffers (b : AudioBuffers N) : Option (AudioBuffers N × List AudioBuffer) :=
  let toRegister := min (min b.appendedCount bufferAppendLimit)
    (bufferAppendLimit - b.registeredCount)
  registerLoop toRegister.toNat b []

/-- `ReleaseBuffer`: the oldest registered buffer becomes a released one. -/
def releaseBuffer (b : AudioBuffers N) (index : ℤ) (timestamp : BitVec 64) :
    Option (AudioBuffers N) := do
  let buffer ← b.get index
  let b ← b.set index { buffer with playedTimestamp := timestamp }
  return { b with
    registeredCount := b.registeredCount - 1
    releasedCount := b.releasedCount + 1
    releasedIndex := advance N b.releasedIndex }

/-- What `ReleaseBuffers` asks of the session: the buffers it asks about, and those it releases. -/
structure Requests where
  asked : List AudioBuffer
  released : List AudioBuffer
deriving DecidableEq, Repr

/-- The loop of `ReleaseBuffers`; the session is not asked when the release is forced. -/
def releaseLoop (session : Session) (force : Bool) : ℕ → AudioBuffers N → Requests →
    Option (AudioBuffers N × Requests)
  | 0, b, requests => some (b, requests)
  | n + 1, b, requests => do
      let index := before N b.registeredIndex b.registeredCount
      let buffer ← b.get index
      let asked := if force then requests.asked else requests.asked ++ [buffer]
      if !force && !session.isBufferConsumed requests.released.length buffer then
        some (b, ⟨asked, requests.released⟩)
      else
        let b ← b.releaseBuffer index (session.globalTime requests.released.length)
        releaseLoop session force n b ⟨asked, requests.released ++ [buffer]⟩

/-- `ReleaseBuffers`: the registered buffers that the session has consumed, or all of them. -/
def releaseBuffers (b : AudioBuffers N) (session : Session) (force : Bool) :
    Option (AudioBuffers N × Requests × Bool) := do
  let (b, requests) ← releaseLoop session force b.registeredCount.toNat b ⟨[], []⟩
  return (b, requests, !requests.released.isEmpty || decide (b.registeredCount = 0))

/-- What `GetReleasedBuffers` has written to its span of tags, and how many it has released. -/
structure Tags where
  written : List (BitVec 64)
  released : ℕ
deriving DecidableEq, Repr

/-- The loop of `GetReleasedBuffers` for a span of `size` tags. -/
def releasedTagsLoop (size : ℕ) : ℕ → AudioBuffers N → Tags → Option (AudioBuffers N × Tags)
  | 0, b, tags => some (b, tags)
  | n + 1, b, tags => do
      let index := before N b.releasedIndex b.releasedCount
      let buffer ← b.get index
      let b := { b with releasedCount := b.releasedCount - 1 }
      let b ← b.set index { buffer with playedTimestamp := 0, samples := 0, tag := 0, size := 0 }
      if buffer.tag = 0 then some (b, tags)
      else
        let written := if tags.released < size then tags.written ++ [buffer.tag] else tags.written
        if tags.released + 1 ≥ size then some (b, ⟨written, tags.released + 1⟩)
        else releasedTagsLoop size n b ⟨written, tags.released + 1⟩

/-- `GetReleasedBuffers` for a span of `size` tags. -/
def getReleasedBuffers (b : AudioBuffers N) (size : ℕ) : Option (AudioBuffers N × Tags) :=
  releasedTagsLoop size b.releasedCount.toNat b ⟨[], 0⟩

/-- The first loop of `GetRegisteredAppendedBuffers`. -/
def flushRegisteredLoop (buffersToFlush : ℕ) : ℕ → AudioBuffers N → List AudioBuffer →
    Option (AudioBuffers N × List AudioBuffer)
  | 0, b, flushed => some (b, flushed)
  | n + 1, b, flushed => do
      let buffer ← b.get (before N b.registeredIndex b.registeredCount)
      if flushed.length < N then
        let b := { b with
          registeredCount := b.registeredCount - 1
          releasedCount := b.releasedCount + 1
          releasedIndex := advance N b.releasedIndex }
        let flushed := flushed ++ [buffer]
        if flushed.length ≥ buffersToFlush then some (b, flushed)
        else flushRegisteredLoop buffersToFlush n b flushed
      else none

/-- The second loop of `GetRegisteredAppendedBuffers`. -/
def flushAppendedLoop (buffersToFlush : ℕ) : ℕ → AudioBuffers N → List AudioBuffer →
    Option (AudioBuffers N × List AudioBuffer)
  | 0, b, flushed => some (b, flushed)
  | n + 1, b, flushed => do
      let buffer ← b.get (before N b.appendedIndex b.appendedCount)
      if flushed.length < N then
        -- the registered index stays where it is
        let b := { b with
          appendedCount := b.appendedCount - 1
          releasedCount := b.releasedCount + 1
          releasedIndex := advance N b.releasedIndex }
        let flushed := flushed ++ [buffer]
        if flushed.length ≥ buffersToFlush then some (b, flushed)
        else flushAppendedLoop buffersToFlush n b flushed
      else none

/-- `GetRegisteredAppendedBuffers`: the buffers in use, the registered ones before the appended ones. -/
def getRegisteredAppendedBuffers (b : AudioBuffers N) (maxBuffers : ℕ) :
    Option (AudioBuffers N × List AudioBuffer) :=
  if b.registeredCount + b.appendedCount = 0 then some (b, [])
  else
    let buffersToFlush := min (b.registeredCount + b.appendedCount).toNat maxBuffers
    if buffersToFlush = 0 then some (b, [])
    else do
      let (b, flushed) ← flushRegisteredLoop buffersToFlush b.registeredCount.toNat b []
      flushAppendedLoop buffersToFlush b.appendedCount.toNat b flushed

/-- `FlushBuffers`, with the number of buffers released. -/
def flushBuffers (b : AudioBuffers N) : Option (AudioBuffers N × ℕ × Bool) := do
  let (b, flushed) ← b.getRegisteredAppendedBuffers N
  return (b, flushed.length,
    decide (¬ b.registeredCount > 0) && decide (¬ b.releasedCount + b.appendedCount > N))

/-- The loop of `ContainsBuffer`. -/
def containsLoop (b : AudioBuffers N) (tag : BitVec 64) : ℕ → ℤ → Option Bool
  | 0, _ => some false
  | n + 1, index => do
      let buffer ← b.get index
      if buffer.tag = tag then some true else containsLoop b tag n (advance N index)

/-- `ContainsBuffer`: a buffer with the tag is in use. -/
def containsBuffer (b : AudioBuffers N) (tag : BitVec 64) : Option Bool :=
  let registeredBuffers := b.appendedCount + b.registeredCount + b.releasedCount
  if registeredBuffers = 0 then some false
  else b.containsLoop tag registeredBuffers.toNat (before N b.releasedIndex b.releasedCount)

/-- `GetTotalBufferCount`. -/
def getTotalBufferCount (b : AudioBuffers N) : ℤ :=
  b.appendedCount + b.registeredCount + b.releasedCount

end AudioBuffers
end NXEmu.AudioCore
