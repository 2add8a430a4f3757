/-
# Decoding ADPCM piece by piece

`DecodeAdpcm` of `src/yuzu_audio_core/renderer/command/data_source/decode.cpp`.  A frame of 8 bytes is
a header and 14 samples of a nibble each; a sample is computed from its nibble, the header and the two
samples before.  A call decodes the next samples of a range: it fetches a span of the wave buffer,
decodes whole frames byte by byte and the others nibble by nibble, and leaves the header and the last
two samples in a context, from which the next call goes on.

The loop is given as many rounds as there are samples.  A byte read outside the span that was fetched
is `none`.
-/

import Mathlib

namespace NXEmu.AudioCore.Adpcm

/-- `SamplesPerFrame`. -/
def SamplesPerFrame : ℕ := 14

/-- `NibblesPerFrame`, with the two of the header. -/
def NibblesPerFrame : ℕ := 16

/-- `VoiceState::AdpcmContext`. -/
structure AdpcmContext where
  header : ℕ
  yn0 : ℤ
  yn1 : ℤ
deriving DecidableEq

/-- `DecodeArg`. -/
structure DecodeArg where
  buffer : ℕ
  bufferSize : ℕ
  startOffset : ℕ
  endOffset : ℕ
  coefficients : ℕ → ℤ
  offset : ℕ
  samplesToRead : ℕ

/-- The differences that the codes of a nibble stand for. -/
def Steps : List ℤ := [0, 1, 2, 3, 4, 5, 6, 7, -8, -7, -6, -5, -4, -3, -2, -1]

/-- Arithmetic of 32 bits. -/
def s32 (x : ℤ) : ℤ := x.bmod (2 ^ 32)

/-- The sample that a code stands for after the samples `yn0` and, before it, `yn1`. -/
def nextSample (coefficients : ℕ → ℤ) (header : ℕ) (yn0 yn1 : ℤ) (code : ℕ) : ℤ :=
  let coeffIndex := header / 2 ^ 4 % 8
  let scale := header % 16
  let xn := Steps.getD code 0 * 2 ^ scale
  let prediction :=
    s32 (coefficients (coeffIndex * 2 + 0) * yn0 + coefficients (coeffIndex * 2 + 1) * yn1)
  let sample := s32 (xn * 2 ^ 11 + 0x400 + prediction) / 2 ^ 11
  max (-0x8000) (min sample 0x7FFF)

/-- `decode_sample`: the new sample is the last one. -/
def decodeSample (coefficients : ℕ → ℤ) (context : AdpcmContext) (code : ℕ) : AdpcmContext :=
  { context with
    yn0 := nextSample coefficients context.header context.yn0 context.yn1 code
    yn1 := context.yn0 }

/-- Where the loop is: the nibble of the buffer, the byte of the span and the decoder. -/
structure Cursor where
  positionInFrame : ℕ
  readIndex : ℕ
  context : AdpcmContext

section Loop

variable (wavebuffer : ℕ → Option ℕ) (coefficients : ℕ → ℤ)

/-- The samples of the next bytes of a frame. -/
def decodeBytes : ℕ → ℕ → AdpcmContext → Option (List ℤ × AdpcmContext)
  | 0, _, context => some ([], context)
  | bytes + 1, readIndex, context => do
      let byte ← wavebuffer readIndex
      let context0 := decodeSample coefficients context (byte / 2 ^ 4 % 16)
      let context1 := decodeSample coefficients context0 (byte % 16)
      let rest ← decodeBytes bytes (readIndex + 1) context1
      some (context0.yn0 :: context1.yn0 :: rest.1, rest.2)

/-- The header of a new frame. -/
def readHeader (c : Cursor) : Option Cursor := do
  let header ← wavebuffer c.readIndex
  some {
    positionInFrame := (c.positionInFrame + 2) % 2 ^ 32
    readIndex := c.readIndex + 1
    context := { c.context with header := header } }

/-- All samples of a frame whose header was read. -/
def decodeFrame (c : Cursor) : Option (List ℤ × Cursor) := do
  let frame ← decodeBytes wavebuffer coefficients (SamplesPerFrame / 2) c.readIndex c.context
  some (frame.1, {
    positionInFrame := (c.positionInFrame + SamplesPerFrame) % 2 ^ 32
    readIndex := c.readIndex + SamplesPerFrame / 2
    context := frame.2 })

/-- A single sample. -/
def decodeSingle (c : Cursor) : Option (List ℤ × Cursor) := do
  let byte ← wavebuffer c.readIndex
  let odd := c.positionInFrame % 2 = 1
  let context := decodeSample coefficients c.context (if odd then byte % 16 else byte / 2 ^ 4)
  some ([context.yn0], {
    positionInFrame := (c.positionInFrame + 1) % 2 ^ 32
    readIndex := if odd then c.readIndex + 1 else c.readIndex
    context := context })

/-- One round of the loop, with `samplesToRead` samples to go. -/
def decodeRound (samplesToRead : ℕ) (c : Cursor) : Option (List ℤ × Cursor) :=
  if c.positionInFrame % NibblesPerFrame = 0 then do
    let c ← readHeader wavebuffer c
    if SamplesPerFrame ≤ samplesToRead then decodeFrame wavebuffer coefficients c
    else decodeSingle wavebuffer coefficients c
  else decodeSingle wavebuffer coefficients c

/-- The loop that decodes `samplesToRead` samples. -/
def decodeLoop : ℕ → ℕ → Cursor → Option (List ℤ × AdpcmContext)
  | _, 0, c => some ([], c.context)
  | 0, _ + 1, _ => none
  | rounds + 1, samplesToRead + 1, c => do
      let round ← decodeRound wavebuffer coefficients (samplesToRead + 1) c
      let rest ← decodeLoop rounds (samplesToRead + 1 - round.1.length) round.2
      some (round.1 ++ rest.1, rest.2)

end Loop

/-- The span of guest memory that is fetched: `size` bytes from `address`. -/
def guestMemory (memory : ℕ → UInt8) (address size : ℕ) (index : ℕ) : Option ℕ :=
  if index < size then some (memory (address + index)).toNat else none

/-- The nibbles up to the end of a range, rounded up to a byte. -/
def endNibble (endOffset : ℕ) : ℕ :=
  (endOffset % SamplesPerFrame + NibblesPerFrame * (endOffset / SamplesPerFrame) +
    if endOffset % SamplesPerFrame ≠ 0 then 3 else 1) % 2 ^ 32

/-- The nibble of the first sample of a call: past the header, if it is inside a frame. -/
def startNibble (startPos : ℕ) : ℕ :=
  (startPos / SamplesPerFrame * NibblesPerFrame + startPos % SamplesPerFrame +
    if startPos % SamplesPerFrame ≠ 0 then 2 else 0) % 2 ^ 32

/-- `DecodeAdpcm`: the samples, whose number it returns, and the context it leaves. -/
def decodeAdpcm (memory : ℕ → UInt8) (req : DecodeArg) (context : AdpcmContext) :
    Option (List ℤ × AdpcmContext) :=
  if req.buffer = 0 ∨ req.bufferSize = 0 then some ([], context)
  else if req.endOffset < req.startOffset then some ([], context)
  else if req.bufferSize < endNibble req.endOffset / 2 then some ([], context)
  else
    let startPos := (req.startOffset + req.offset) % 2 ^ 32
    let samplesToProcess := min ((req.endOffset + 2 ^ 32 - startPos) % 2 ^ 32) req.samplesToRead
    if samplesToProcess = 0 then some ([], context)
    else
      let position := startNibble startPos
      let size := max (samplesToProcess / 8 * SamplesPerFrame % 2 ^ 32) 8
      decodeLoop (guestMemory memory (req.buffer + position / 2) size) req.coefficients
        samplesToProcess samplesToProcess ⟨position, 0, context⟩

/-- Consecutive calls, each for so many samples at most: the offset is advanced by the number of
samples returned, and the context is carried over. -/
def decodeCalls (memory : ℕ → UInt8) (req : DecodeArg) :
    List ℕ → ℕ → AdpcmContext → Option (List ℤ × AdpcmContext)
  | [], _, context => some ([], context)
  | request :: requests, offset, context => do
      let call ← decodeAdpcm memory { req with offset := offset, samplesToRead := request } context
      let rest ← decodeCalls memory req requests ((offset + call.1.length) % 2 ^ 32) call.2
      some (call.1 ++ rest.1, rest.2)

end NXEmu.AudioCore.Adpcm
