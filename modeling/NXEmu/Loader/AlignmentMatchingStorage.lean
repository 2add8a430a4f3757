/-
# Aligned access to a storage

`AlignmentMatchingStorageImpl::Read` and `Write` access a base storage only in blocks of
`data_alignment`: the whole blocks in the middle at once, and those at the ends by way of a work
buffer.  `Read` leaves the bytes that were asked for in the buffer (`wp_read`), and `Write` changes
those bytes of the base and no others (`wp_write`).

A place in a buffer is counted from its start, and a copy past the end of a buffer is a fault.  The
accesses to the base storage are left in a list.
-/

import NXEmu.Common.Alignment
import NXEmu.Lib.CopyRange
import NXEmu.Lib.Exec

namespace NXEmu
namespace FileSys
namespace AlignmentMatching

open Common Exec

/-- A storage: its bytes and its size. -/
structure BaseStorage where
  bytes : ℕ → UInt8
  size : ℕ

/-- The buffers and the storage, and the offsets and sizes of the accesses to it so far. -/
structure State where
  base : BaseStorage
  buffer : ℕ → UInt8
  work : ℕ → UInt8
  accesses : List (ℕ × ℕ)

/-- The arguments of a call that stay as they are, with the address of the buffer.  The alignments are
powers of two, and the work buffer has room for a block. -/
structure Params where
  workBufSize : ℕ
  dataAlignment : ℕ
  bufferAlignment : ℕ
  offset : ℕ
  bufferAddress : ℕ
  size : ℕ
  dataAlignment_pow : ∃ n, dataAlignment = 2 ^ n
  bufferAlignment_pow : ∃ n, bufferAlignment = 2 ^ n
  dataAlignment_le : dataAlignment ≤ workBufSize

/-- `Common::IsAligned`. -/
def isAligned (value alignment : ℕ) : Bool := value &&& (alignment - 1) = 0

def getRoundDownDifference (x align : ℕ) : ℕ := x - alignDown x align

def getRoundUpDifference (x align : ℕ) : ℕ := alignUp x align - x

namespace State

variable (s : State)

/-- `base_storage->Read` into the buffer at a place. -/
def readToBuffer (p : Params) (place size offset : ℕ) : Exec State :=
  if place + size ≤ p.size then
    pure { s with
      buffer := copyRange s.buffer place s.base.bytes offset (min size (s.base.size - offset))
      accesses := s.accesses ++ [(offset, size)] }
  else .fault

/-- `base_storage->Read` into the work buffer. -/
def readToWork (p : Params) (size offset : ℕ) : Exec State :=
  if size ≤ p.workBufSize then
    pure { s with
      work := copyRange s.work 0 s.base.bytes offset (min size (s.base.size - offset))
      accesses := s.accesses ++ [(offset, size)] }
  else .fault

/-- `std::memmove` within the buffer. -/
def moveBuffer (p : Params) (place start size : ℕ) : Exec State :=
  if place + size ≤ p.size ∧ start + size ≤ p.size then
    pure { s with buffer := copyRange s.buffer place s.buffer start size }
  else .fault

/-- `std::memcpy` from the work buffer to the buffer. -/
def copyToBuffer (p : Params) (place start size : ℕ) : Exec State :=
  if place + size ≤ p.size ∧ start + size ≤ p.workBufSize then
    pure { s with buffer := copyRange s.buffer place s.work start size }
  else .fault

/-- `std::memcpy` from the buffer to the work buffer. -/
def copyToWork (p : Params) (place start size : ℕ) : Exec State :=
  if place + size ≤ p.workBufSize ∧ start + size ≤ p.size then
    pure { s with work := copyRange s.work place s.buffer start size }
  else .fault

/-- `base_storage->Write` from the buffer. -/
def writeFromBuffer (p : Params) (start size offset : ℕ) : Exec State :=
  if start + size ≤ p.size then
    pure { s with
      base := ⟨copyRange s.base.bytes offset s.buffer start size, max s.base.size (offset + size)⟩
      accesses := s.accesses ++ [(offset, size)] }
  else .fault

/-- `base_storage->Write` from the work buffer. -/
def writeFromWork (p : Params) (size offset : ℕ) : Exec State :=
  if size ≤ p.workBufSize then
    pure { s with
      base := ⟨copyRange s.base.bytes offset s.work 0 size, max s.base.size (offset + size)⟩
      accesses := s.accesses ++ [(offset, size)] }
  else .fault

end State

/-- What the first part of a call determines. -/
structure Extents where
  /-- Where the core is in the buffer. -/
  alignedCoreBuffer : ℕ
  coreOffset : ℕ
  coreSize : ℕ
  bufferGap : ℕ
  offsetGap : ℕ
  coveredOffset : ℕ

/-- The extents of `Read`. -/
def readExtents (p : Params) : Extents :=
  let offsetRoundUpDifference := getRoundUpDifference p.offset p.dataAlignment
  if isAligned (p.bufferAddress + offsetRoundUpDifference) p.bufferAlignment then
    let coreOffset := alignUp p.offset p.dataAlignment
    let coreSize :=
      if p.size < offsetRoundUpDifference then 0
      else alignDown (p.size - offsetRoundUpDifference) p.dataAlignment
    { alignedCoreBuffer := offsetRoundUpDifference
      coreOffset := coreOffset
      coreSize := coreSize
      bufferGap := 0
      offsetGap := 0
      coveredOffset := if 0 < coreSize then coreOffset else p.offset }
  else
    let bufferRoundUpDifference := getRoundUpDifference p.bufferAddress p.bufferAlignment
    { alignedCoreBuffer := bufferRoundUpDifference
      coreOffset := alignDown p.offset p.dataAlignment
      coreSize :=
        if p.size < bufferRoundUpDifference then 0
        else alignDown (p.size - bufferRoundUpDifference) p.dataAlignment
      bufferGap := bufferRoundUpDifference
      offsetGap := getRoundDownDifference p.offset p.dataAlignment
      coveredOffset := p.offset }

/-- The core portion of `Read`, and the size of it that is left after the move. -/
def readCore (p : Params) (e : Extents) (s : State) : Exec (State × ℕ) := do
  if 0 < e.coreSize then
    let s ← s.readToBuffer p e.alignedCoreBuffer e.coreSize e.coreOffset
    if e.offsetGap ≠ 0 ∨ e.bufferGap ≠ 0 then
      let s ← s.moveBuffer p (e.alignedCoreBuffer - e.bufferGap) (e.alignedCoreBuffer + e.offsetGap)
        (e.coreSize - e.offsetGap)
      pure (s, e.coreSize - e.offsetGap)
    else pure (s, e.coreSize)
  else pure (s, e.coreSize)

/-- The head portion of `Read`. -/
def readHead (p : Params) (e : Extents) (s : State) : Exec State := do
  if p.offset < e.coveredOffset then
    let headOffset := alignDown p.offset p.dataAlignment
    let headSize := e.coveredOffset - p.offset
    Exec.assert (getRoundDownDifference p.offset p.dataAlignment + headSize ≤ p.workBufSize)
    let s ← s.readToWork p p.dataAlignment headOffset
    s.copyToBuffer p 0 (getRoundDownDifference p.offset p.dataAlignment) headSize
  else pure s

/-- The loop for the tail portion of `Read`.  Each round takes some of what remains, so that this is fuel
enough. -/
def readTail (p : Params) : ℕ → (tailOffset remainingTailSize : ℕ) → State → Exec State
  | 0, _, remainingTailSize, s => if remainingTailSize = 0 then pure s else .fault
  | fuel + 1, tailOffset, remainingTailSize, s => do
    if 0 < remainingTailSize then
      let alignedTailOffset := alignDown tailOffset p.dataAlignment
      let curSize := min (alignedTailOffset + p.dataAlignment - tailOffset) remainingTailSize
      let s ← s.readToWork p p.dataAlignment alignedTailOffset
      Exec.assert (tailOffset - p.offset + curSize ≤ p.size)
      Exec.assert (tailOffset - alignedTailOffset + curSize ≤ p.dataAlignment)
      let s ← s.copyToBuffer p (tailOffset - p.offset) (tailOffset - alignedTailOffset) curSize
      readTail p fuel (tailOffset + curSize) (remainingTailSize - curSize) s
    else pure s

/-- `AlignmentMatchingStorageImpl::Read`: the core, the head and the tail; the ends are read by way of whole
blocks. -/
def read (p : Params) (s : State) : Exec (State × ℕ) := do
  Exec.assert (p.dataAlignment ≤ p.workBufSize)
  if p.size = 0 then pure (s, p.size)
  else
    let e := readExtents p
    let (s, coreSize) ← readCore p e s
    let s ← readHead p e s
    let tailOffset := e.coveredOffset + coreSize
    let remainingTailSize := p.offset + p.size - tailOffset
    let s ← readTail p remainingTailSize tailOffset remainingTailSize s
    pure (s, p.size)

/-- The extents of `Write`, which has no gaps. -/
def writeExtents (p : Params) : Extents :=
  let offsetRoundUpDifference := getRoundUpDifference p.offset p.dataAlignment
  if isAligned (p.bufferAddress + offsetRoundUpDifference) p.bufferAlignment then
    let coreOffset := alignUp p.offset p.dataAlignment
    let coreSize :=
      if p.size < offsetRoundUpDifference then 0
      else alignDown (p.size - offsetRoundUpDifference) p.dataAlignment
    { alignedCoreBuffer := offsetRoundUpDifference
      coreOffset := coreOffset
      coreSize := coreSize
      bufferGap := 0
      offsetGap := 0
      coveredOffset := if 0 < coreSize then coreOffset else p.offset }
  else
    { alignedCoreBuffer := 0
      coreOffset := alignDown p.offset p.dataAlignment
      coreSize := 0
      bufferGap := 0
      offsetGap := 0
      coveredOffset := p.offset }

/-- The core portion of `Write`. -/
def writeCore (p : Params) (e : Extents) (s : State) : Exec State :=
  if 0 < e.coreSize then s.writeFromBuffer p e.alignedCoreBuffer e.coreSize e.coreOffset else pure s

/-- The head portion of `Write`. -/
def writeHead (p : Params) (e : Extents) (s : State) : Exec State := do
  if p.offset < e.coveredOffset then
    let headOffset := alignDown p.offset p.dataAlignment
    let headSize := e.coveredOffset - p.offset
    Exec.assert (p.offset - headOffset + headSize ≤ p.dataAlignment)
    let s ← s.readToWork p p.dataAlignment headOffset
    let s ← s.copyToWork p (p.offset - headOffset) 0 headSize
    s.writeFromWork p p.dataAlignment headOffset
  else pure s

/-- The loop for the tail portion of `Write`. -/
def writeTail (p : Params) : ℕ → (tailOffset remainingTailSize : ℕ) → State → Exec State
  | 0, _, remainingTailSize, s => if remainingTailSize = 0 then pure s else .fault
  | fuel + 1, tailOffset, remainingTailSize, s => do
    if 0 < remainingTailSize then
      Exec.assert (tailOffset - p.offset < p.size)
      let alignedTailOffset := alignDown tailOffset p.dataAlignment
      let curSize := min (alignedTailOffset + p.dataAlignment - tailOffset) remainingTailSize
      let s ← s.readToWork p p.dataAlignment alignedTailOffset
      let s ← s.copyToWork p (getRoundDownDifference tailOffset p.dataAlignment)
        (tailOffset - p.offset) curSize
      let s ← s.writeFromWork p p.dataAlignment alignedTailOffset
      writeTail p fuel (tailOffset + curSize) (remainingTailSize - curSize) s
    else pure s

/-- `AlignmentMatchingStorageImpl::Write`: the core, the head and the tail; the ends are written by way of
whole blocks. -/
def write (p : Params) (s : State) : Exec (State × ℕ) := do
  Exec.assert (p.dataAlignment ≤ p.workBufSize)
  if p.size = 0 then pure (s, p.size)
  else
    let e := writeExtents p
    let s ← writeCore p e s
    let s ← writeHead p e s
    let tailOffset := e.coveredOffset + e.coreSize
    let remainingTailSize := p.offset + p.size - tailOffset
    let s ← writeTail p remainingTailSize tailOffset remainingTailSize s
    pure (s, p.size)

/-! ### Blocks -/

variable {p : Params} {s s' : State} {place start size offset lo hi bound : ℕ}

theorem Params.dataAlignment_pos (p : Params) : 0 < p.dataAlignment := by
  obtain ⟨n, h⟩ := p.dataAlignment_pow
  rw [h]
  exact Nat.two_pow_pos n

/-- A block with a place before the end of the storage is in the storage. -/
theorem block_le (hdvd : p.dataAlignment ∣ bound) (hlt : offset < bound) :
    alignDown offset p.dataAlignment + p.dataAlignment ≤ bound := by
  obtain ⟨blocks, rfl⟩ := hdvd
  rw [alignDown_eq, ← Nat.succ_mul, Nat.mul_comm]
  refine Nat.mul_le_mul_left _ (Nat.succ_le_of_lt ?_)
  exact Nat.div_lt_of_lt_mul hlt

/-- What is left to the next block is the rest of this one. -/
theorem alignUp_eq_of_lt (h : p.offset < alignUp p.offset p.dataAlignment) :
    alignUp p.offset p.dataAlignment = alignDown p.offset p.dataAlignment + p.dataAlignment := by
  rw [alignUp, alignDown] at *
  split
  · next hzero =>
    rw [if_pos hzero] at h
    omega
  · rfl

/-- An access is of whole blocks of the storage. -/
def Aligned (p : Params) (bound : ℕ) (access : ℕ × ℕ) : Prop :=
  p.dataAlignment ∣ access.1 ∧ p.dataAlignment ∣ access.2 ∧ access.1 + access.2 ≤ bound

/-- The accesses since `s` are of whole blocks. -/
def Accesses (p : Params) (s s' : State) : Prop :=
  ∃ later, s'.accesses = s.accesses ++ later ∧ ∀ access ∈ later, Aligned p s.base.size access

theorem Accesses.refl (p : Params) (s : State) : Accesses p s s :=
  ⟨[], (List.append_nil _).symm, fun _ h => absurd h List.not_mem_nil⟩

theorem Accesses.add (h : Accesses p s s') (hoffset : p.dataAlignment ∣ offset)
    (hsize : p.dataAlignment ∣ size) (hle : offset + size ≤ s.base.size) {t : State}
    (ht : t.accesses = s'.accesses ++ [(offset, size)]) : Accesses p s t := by
  obtain ⟨later, heq, hall⟩ := h
  refine ⟨later ++ [(offset, size)], by rw [ht, heq, List.append_assoc], fun access hmem => ?_⟩
  obtain hmem | hmem := List.mem_append.1 hmem
  · exact hall access hmem
  · rw [List.mem_singleton.1 hmem]
    exact ⟨hoffset, hsize, hle⟩

/-! ### Reading -/

/-- Since `s` the bytes from `lo` to `hi` of the buffer have been read, and nothing past its size has
changed. -/
structure Filled (p : Params) (s s' : State) (lo hi : ℕ) : Prop where
  base : s'.base = s.base
  accesses : Accesses p s s'
  read : ∀ i, lo ≤ i → i < hi → s'.buffer i = s.base.bytes (p.offset + i)
  beyond : ∀ i, p.size ≤ i → s'.buffer i = s.buffer i

theorem readToBuffer_eq (h : place + size ≤ p.size) (hle : offset + size ≤ s.base.size) :
    s.readToBuffer p place size offset = pure { s with
      buffer := copyRange s.buffer place s.base.bytes offset size
      accesses := s.accesses ++ [(offset, size)] } := by
  rw [State.readToBuffer, if_pos h, Nat.min_eq_left (by omega)]

theorem readToWork_eq (h : size ≤ p.workBufSize) (hle : offset + size ≤ s.base.size) :
    s.readToWork p size offset = pure { s with
      work := copyRange s.work 0 s.base.bytes offset size
      accesses := s.accesses ++ [(offset, size)] } := by
  rw [State.readToWork, if_pos h, Nat.min_eq_left (by omega)]

/-- A part of a block goes to the buffer by way of the work buffer. -/
theorem readBlock_spec (hfilled : Filled p s s' lo hi) (hdvd : p.dataAlignment ∣ s.base.size)
    (hlt : offset < s.base.size) (hsize : offset - alignDown offset p.dataAlignment + size ≤ p.dataAlignment)
    (hplace : p.offset + place = offset) (hle : place + size ≤ p.size) :
    ∃ t, s'.readToWork p p.dataAlignment (alignDown offset p.dataAlignment) = pure t ∧
      (t.copyToBuffer p place (offset - alignDown offset p.dataAlignment) size).wp fun t held =>
        held = true ∧ Filled p s t place (place + size) ∧
          ∀ i, i < place ∨ place + size ≤ i → t.buffer i = s'.buffer i := by
  have hblock := block_le hdvd hlt
  have hdown := alignDown_le offset p.dataAlignment
  have hwork := p.dataAlignment_le
  refine ⟨_, readToWork_eq hwork (by rw [hfilled.base]; exact hblock), ?_⟩
  rw [State.copyToBuffer, if_pos ⟨hle, by omega⟩, pure_eq, wp_ret]
  refine ⟨rfl, ⟨hfilled.base, hfilled.accesses.add (dvd_alignDown _ _) (Nat.dvd_refl _) hblock rfl, ?_, ?_⟩, ?_⟩
  · intro i hi hi'
    show copyRange _ _ (copyRange _ _ _ _ _) _ _ i = _
    rw [copyRange_of_mem hi hi', copyRange_of_mem (Nat.zero_le _) (by omega), hfilled.base]
    congr 1
    omega
  · intro i hi
    show copyRange _ _ _ _ _ i = _
    rw [copyRange_of_le (by omega), hfilled.beyond i hi]
  · intro i hi
    show copyRange _ _ _ _ _ i = _
    obtain hi | hi := hi
    · exact copyRange_of_lt hi
    · exact copyRange_of_le hi

theorem Filled.join {t : State} (h : Filled p s s' lo hi) (ht : Filled p s t place (place + size))
    (hkept : ∀ i, i < place ∨ place + size ≤ i → t.buffer i = s'.buffer i) (hlo : lo ≤ place + size)
    (hhi : place ≤ hi) : Filled p s t (min lo place) (max hi (place + size)) := by
  refine ⟨ht.base, ht.accesses, fun i hi hi' => ?_, ht.beyond⟩
  by_cases hin : place ≤ i ∧ i < place + size
  · exact ht.read i hin.1 hin.2
  · rw [hkept i (by omega), h.read i (by omega) (by omega)]

/-- **The tail is read block by block.** -/
theorem wp_readTail {fuel tailOffset remaining : ℕ} (hdvd : p.dataAlignment ∣ s.base.size)
    (hrange : p.offset + p.size ≤ s.base.size) (hfilled : Filled p s s' 0 (tailOffset - p.offset))
    (hfrom : p.offset ≤ tailOffset) (htail : tailOffset + remaining = p.offset + p.size) (hfuel : remaining ≤ fuel) :
    (readTail p fuel tailOffset remaining s').wp fun t held => held = true ∧ Filled p s t 0 p.size := by
  induction fuel generalizing tailOffset remaining s' with
  | zero =>
    obtain rfl := Nat.le_zero.1 hfuel
    rw [readTail, if_pos rfl, pure_eq, wp_ret]
    rw [show tailOffset - p.offset = p.size by omega] at hfilled
    exact ⟨rfl, hfilled⟩
  | succ fuel ih =>
    rw [readTail]
    split
    · next hpos =>
      dsimp only
      have hnext := lt_alignDown tailOffset p.dataAlignment_pos
      have hdown := alignDown_le tailOffset p.dataAlignment
      generalize hcur : min (alignDown tailOffset p.dataAlignment + p.dataAlignment - tailOffset) remaining = cur
      obtain ⟨t, ht, hcopy⟩ := readBlock_spec hfilled hdvd (show tailOffset < s.base.size by omega)
        (show tailOffset - alignDown tailOffset p.dataAlignment + cur ≤ p.dataAlignment by omega)
        (show p.offset + (tailOffset - p.offset) = tailOffset by omega) (by omega)
      rw [ht, pure_bind, wp_bind, wp_assert, wp_bind, wp_assert, wp_bind]
      refine wp_mono hcopy fun t held ⟨hheld, ht, hkept⟩ => ?_
      have hjoin := hfilled.join ht hkept (Nat.zero_le _) (Nat.le_refl _)
      rw [Nat.zero_min, show tailOffset - p.offset + cur = tailOffset + cur - p.offset by omega,
        Nat.max_eq_right (by omega)] at hjoin
      refine wp_mono (ih hjoin (by omega) (by omega) (by omega)) fun t held' ⟨hheld', ht⟩ => ⟨?_, ht⟩
      rw [hheld, hheld', decide_eq_true (by omega), decide_eq_true (by omega)]
      rfl
    · next hzero =>
      obtain rfl : remaining = 0 := by omega
      rw [pure_eq, wp_ret]
      rw [show tailOffset - p.offset = p.size by omega] at hfilled
      exact ⟨rfl, hfilled⟩

/-- The core is whole blocks of the storage and of the buffer, and what it covers begins where the head
is to end. -/
structure Extents.Fits (p : Params) (e : Extents) : Prop where
  aligned : p.dataAlignment ∣ e.coreOffset ∧ p.dataAlignment ∣ e.coreSize
  inBuffer : 0 < e.coreSize → e.alignedCoreBuffer + e.coreSize ≤ p.size
  bufferGap : e.bufferGap ≤ e.alignedCoreBuffer
  offsetGap : e.offsetGap < p.dataAlignment
  /-- The first byte that is covered is the first one after the gaps. -/
  covered : 0 < e.coreSize → e.coreOffset + e.offsetGap = e.coveredOffset ∧
    p.offset + (e.alignedCoreBuffer - e.bufferGap) = e.coveredOffset
  head : e.coveredOffset = p.offset ∨ 0 < e.coreSize ∧ e.offsetGap = 0 ∧
    e.coveredOffset = alignUp p.offset p.dataAlignment

theorem dvd_ite_alignDown (p : Params) (c : Prop) [Decidable c] (n : ℕ) :
    p.dataAlignment ∣ if c then 0 else alignDown n p.dataAlignment := by
  split
  · exact Nat.dvd_zero _
  · exact dvd_alignDown _ _

theorem ite_alignDown_le {n align : ℕ} (h : 0 < if size < n then 0 else alignDown (size - n) align) :
    n + (if size < n then 0 else alignDown (size - n) align) ≤ size := by
  split at h
  · exact absurd h (Nat.lt_irrefl 0)
  · next hle =>
    rw [if_neg hle]
    have := alignDown_le (size - n) align
    omega

theorem ite_covered (coreSize coreOffset offset : ℕ) :
    (if 0 < coreSize then coreOffset else offset) = offset ∨
      0 < coreSize ∧ 0 = 0 ∧ (if 0 < coreSize then coreOffset else offset) = coreOffset := by
  by_cases h : 0 < coreSize
  · exact .inr ⟨h, rfl, if_pos h⟩
  · exact .inl (if_neg h)

theorem readExtents_fits (p : Params) : (readExtents p).Fits p := by
  have hup := le_alignUp p.offset p.dataAlignment_pos
  have hdown := alignDown_le p.offset p.dataAlignment
  unfold readExtents
  dsimp only
  split
  · refine ⟨⟨dvd_alignUp _ _, dvd_ite_alignDown p _ _⟩, ite_alignDown_le, Nat.zero_le _,
      p.dataAlignment_pos, fun h => ?_, ?_⟩
    · dsimp only at h ⊢
      rw [if_pos h]
      exact ⟨rfl, by rw [getRoundUpDifference]; omega⟩
    · exact ite_covered _ _ _
  · refine ⟨⟨dvd_alignDown _ _, dvd_ite_alignDown p _ _⟩, ite_alignDown_le, Nat.le_refl _, ?_,
      fun _ => ⟨?_, ?_⟩, .inl rfl⟩
    · have := lt_alignDown p.offset p.dataAlignment_pos
      show p.offset - alignDown p.offset p.dataAlignment < p.dataAlignment
      omega
    · show alignDown p.offset p.dataAlignment + (p.offset - alignDown p.offset p.dataAlignment) = p.offset
      omega
    · exact congrArg (p.offset + ·) (Nat.sub_self _)

variable {e : Extents}

theorem Extents.Fits.le_coveredOffset (he : e.Fits p) : p.offset ≤ e.coveredOffset := by
  obtain h | ⟨-, -, h⟩ := he.head
  · exact Nat.le_of_eq h.symm
  · have := le_alignUp p.offset p.dataAlignment_pos
    omega

/-- **The core is read** at once, and moved to where it belongs. -/
theorem wp_readCore (he : e.Fits p) (hrange : p.offset + p.size ≤ s.base.size) :
    (readCore p e s).wp fun r held => held = true ∧
      Filled p s r.1 (e.coveredOffset - p.offset) (e.coveredOffset - p.offset + r.2) ∧
        e.coveredOffset - p.offset + r.2 ≤ p.size ∧ (e.coveredOffset ≠ p.offset → 0 < r.2) := by
  have hgap := he.offsetGap
  unfold readCore
  split
  · next hpos =>
    obtain ⟨hstart, hplace⟩ := he.covered hpos
    have hin := he.inBuffer hpos
    have hle := Nat.le_of_dvd hpos he.aligned.2
    have hback := he.bufferGap
    rw [readToBuffer_eq hin (by omega), pure_bind]
    have haccess : ∀ {t : State}, t.accesses = s.accesses ++ [(e.coreOffset, e.coreSize)] → Accesses p s t := fun h =>
      (Accesses.refl p s).add he.aligned.1 he.aligned.2 (by omega) h
    split
    · rw [State.moveBuffer, if_pos ⟨by omega, by omega⟩, pure_eq, ret_true_bind, pure_eq, wp_ret]
      refine ⟨rfl, ⟨rfl, haccess rfl, fun i hi hi' => ?_, fun i hi => ?_⟩, ?_, fun _ => ?_⟩
      · show copyRange (copyRange _ _ _ _ _) _ (copyRange _ _ _ _ _) _ _ i = _
        dsimp only at hi'
        rw [copyRange_of_mem (by omega) (by omega), copyRange_of_mem (by omega) (by omega)]
        congr 1
        omega
      · show copyRange (copyRange _ _ _ _ _) _ _ _ _ i = _
        rw [copyRange_of_le (by omega), copyRange_of_le (by omega)]
      · dsimp only
        omega
      · dsimp only
        omega
    · next hgaps =>
      obtain ⟨hzero, hzero'⟩ := not_or.1 hgaps
      rw [pure_eq, wp_ret]
      refine ⟨rfl, ⟨rfl, haccess rfl, fun i hi hi' => ?_, fun i hi => ?_⟩, ?_, fun _ => hpos⟩
      · show copyRange _ _ _ _ _ i = _
        dsimp only at hi'
        rw [copyRange_of_mem (by omega) (by omega)]
        congr 1
        omega
      · show copyRange _ _ _ _ _ i = _
        exact copyRange_of_le (by omega)
      · dsimp only
        omega
  · next hzero =>
    have hcovered : e.coveredOffset = p.offset := he.head.resolve_right fun h => hzero h.1
    rw [pure_eq, wp_ret]
    dsimp only
    refine ⟨rfl, ⟨rfl, Accesses.refl p s, fun i hi hi' => ?_, fun i hi => rfl⟩, by omega, fun h => absurd hcovered h⟩
    omega

/-- **The head is read** into what the core left in front. -/
theorem wp_readHead {core : ℕ} (he : e.Fits p) (hdvd : p.dataAlignment ∣ s.base.size)
    (hrange : p.offset + p.size ≤ s.base.size)
    (hfilled : Filled p s s' (e.coveredOffset - p.offset) (e.coveredOffset - p.offset + core))
    (hle : e.coveredOffset - p.offset + core ≤ p.size) (hcore : e.coveredOffset ≠ p.offset → 0 < core) :
    (readHead p e s').wp fun t held => held = true ∧ Filled p s t 0 (e.coveredOffset + core - p.offset) := by
  unfold readHead
  split
  · next hlt =>
    have hcovered := (he.head.resolve_left (Nat.ne_of_gt hlt)).2.2
    rw [hcovered] at hlt
    have hblock := alignUp_eq_of_lt hlt
    have hdown := alignDown_le p.offset p.dataAlignment
    have hwork := p.dataAlignment_le
    have hpos := hcore (by omega)
    dsimp only
    obtain ⟨t, ht, hcopy⟩ := readBlock_spec hfilled hdvd (show p.offset < s.base.size by omega)
      (show p.offset - alignDown p.offset p.dataAlignment + (e.coveredOffset - p.offset) ≤
        p.dataAlignment by omega) (Nat.add_zero _) (by omega)
    rw [wp_bind, wp_assert, ht, pure_bind]
    refine wp_mono hcopy fun t held ⟨hheld, ht, hkept⟩ => ⟨?_, ?_⟩
    · rw [hheld, decide_eq_true]
      · rfl
      · unfold getRoundDownDifference
        omega
    · have hjoin := hfilled.join ht hkept (by omega) (Nat.zero_le _)
      rwa [Nat.min_zero, Nat.max_eq_left (by omega),
        show e.coveredOffset - p.offset + core = e.coveredOffset + core - p.offset by omega] at hjoin
  · next hge =>
    have hcovered := Nat.le_antisymm (Nat.not_lt.1 hge) he.le_coveredOffset
    rw [hcovered, Nat.sub_self, Nat.zero_add] at hfilled
    rw [pure_eq, wp_ret, hcovered, Nat.add_sub_cancel_left]
    exact ⟨rfl, hfilled⟩

/-- **`Read` leaves the bytes of the range in the buffer**, with accesses to whole blocks only. -/
theorem wp_read (hdvd : p.dataAlignment ∣ s.base.size) (hrange : p.offset + p.size ≤ s.base.size) :
    (read p s).wp fun r held => held = true ∧ r.2 = p.size ∧ Filled p s r.1 0 p.size := by
  have he := readExtents_fits p
  have hcovered := he.le_coveredOffset
  unfold read
  rw [wp_bind, wp_assert]
  split
  · next hzero =>
    rw [pure_eq, wp_ret]
    refine ⟨by rw [decide_eq_true p.dataAlignment_le]; rfl, rfl, rfl, Accesses.refl p s, ?_, fun _ _ => rfl⟩
    intro i _ hi
    omega
  · dsimp only
    rw [wp_bind]
    refine wp_mono (wp_readCore he hrange) fun r held ⟨hheld, hcore, hle, hpos⟩ => ?_
    obtain ⟨t, core⟩ := r
    rw [wp_bind]
    refine wp_mono (wp_readHead he hdvd hrange hcore hle hpos) fun t held' ⟨hheld', hhead⟩ => ?_
    dsimp only at hle hhead ⊢
    rw [wp_bind]
    refine wp_mono (wp_readTail hdvd hrange hhead (by omega) (by omega) (Nat.le_refl _))
      fun t held'' ⟨hheld'', htail⟩ => ?_
    rw [pure_eq, wp_ret]
    refine ⟨?_, rfl, htail⟩
    rw [hheld, hheld', hheld'', decide_eq_true p.dataAlignment_le]
    rfl

/-! ### Writing -/

/-- Since `s` the bytes from `lo` to `hi` of the buffer have been written, and nothing else of the base
has changed, nor the buffer. -/
structure Written (p : Params) (s s' : State) (lo hi : ℕ) : Prop where
  size : s'.base.size = s.base.size
  buffer : s'.buffer = s.buffer
  accesses : Accesses p s s'
  written : ∀ i, lo ≤ i → i < hi → s'.base.bytes (p.offset + i) = s.buffer i
  kept : ∀ j, j < p.offset + lo ∨ p.offset + hi ≤ j → s'.base.bytes j = s.base.bytes j

theorem writeFromBuffer_eq (h : start + size ≤ p.size) (hle : offset + size ≤ s.base.size) :
    s.writeFromBuffer p start size offset = pure { s with
      base := ⟨copyRange s.base.bytes offset s.buffer start size, s.base.size⟩
      accesses := s.accesses ++ [(offset, size)] } := by
  rw [State.writeFromBuffer, if_pos h, Nat.max_eq_left hle]

theorem writeFromWork_eq (h : size ≤ p.workBufSize) (hle : offset + size ≤ s.base.size) :
    s.writeFromWork p size offset = pure { s with
      base := ⟨copyRange s.base.bytes offset s.work 0 size, s.base.size⟩
      accesses := s.accesses ++ [(offset, size)] } := by
  rw [State.writeFromWork, if_pos h, Nat.max_eq_left hle]

section

variable (hwritten : Written p s s' lo hi) (hdvd : p.dataAlignment ∣ s.base.size) (hlt : offset < s.base.size)
  (hsize : offset - alignDown offset p.dataAlignment + size ≤ p.dataAlignment) (hplace : p.offset + place = offset)
  (hle : place + size ≤ p.size)

include hwritten hdvd hlt hsize hplace hle

/-- A part of a block goes to the storage by way of the work buffer: the block is read, changed and
written back. -/
theorem writeBlock_eq :
    ∃ t u v, s'.readToWork p p.dataAlignment (alignDown offset p.dataAlignment) = pure t ∧
      t.copyToWork p (offset - alignDown offset p.dataAlignment) place size = pure u ∧
      u.writeFromWork p p.dataAlignment (alignDown offset p.dataAlignment) = pure v ∧
      v.base.size = s.base.size ∧ v.buffer = s.buffer ∧ Accesses p s v ∧
      ∀ j, v.base.bytes j =
        if offset ≤ j ∧ j < offset + size then s.buffer (place + (j - offset)) else s'.base.bytes j := by
  have hblock := block_le hdvd hlt
  have hdown := alignDown_le offset p.dataAlignment
  have hwork := p.dataAlignment_le
  have hsize' := hwritten.size
  refine ⟨_, _, _, readToWork_eq hwork (by rw [hsize']; exact hblock), if_pos ⟨by omega, hle⟩,
    writeFromWork_eq hwork (by rw [← hsize'] at hblock; exact hblock), hsize', hwritten.buffer, ?_, ?_⟩
  · exact (hwritten.accesses.add (dvd_alignDown _ _) (Nat.dvd_refl _) hblock rfl).add
      (dvd_alignDown _ _) (Nat.dvd_refl _) hblock rfl
  · intro j
    show copyRange s'.base.bytes _ (copyRange (copyRange _ _ _ _ _) _ s'.buffer _ _) _ _ j = _
    rw [hwritten.buffer]
    by_cases hin : alignDown offset p.dataAlignment ≤ j ∧ j < alignDown offset p.dataAlignment + p.dataAlignment
    · rw [copyRange_of_mem hin.1 hin.2, Nat.zero_add]
      by_cases hpart : offset ≤ j ∧ j < offset + size
      · rw [if_pos hpart, copyRange_of_mem (by omega) (by omega)]
        congr 1
        omega
      · rw [if_neg hpart]
        have hother : j - alignDown offset p.dataAlignment < offset - alignDown offset p.dataAlignment ∨
            offset - alignDown offset p.dataAlignment + size ≤ j - alignDown offset p.dataAlignment := by
          omega
        have hback : copyRange s'.work 0 s'.base.bytes (alignDown offset p.dataAlignment) p.dataAlignment
            (j - alignDown offset p.dataAlignment) = s'.base.bytes j := by
          rw [copyRange_of_mem (Nat.zero_le _) (by omega)]
          congr 1
          omega
        obtain hother | hother := hother
        · rw [copyRange_of_lt hother, hback]
        · rw [copyRange_of_le hother, hback]
    · rw [if_neg (by omega)]
      obtain h | h : j < alignDown offset p.dataAlignment ∨
          alignDown offset p.dataAlignment + p.dataAlignment ≤ j := by omega
      · exact copyRange_of_lt h
      · exact copyRange_of_le h

/-- **A part of a block is written** next to what has been. -/
theorem writeBlock_spec (hlo : lo ≤ place + size) (hhi : place ≤ hi) :
    ∃ t u v, s'.readToWork p p.dataAlignment (alignDown offset p.dataAlignment) = pure t ∧
      t.copyToWork p (offset - alignDown offset p.dataAlignment) place size = pure u ∧
      u.writeFromWork p p.dataAlignment (alignDown offset p.dataAlignment) = pure v ∧
      Written p s v (min lo place) (max hi (place + size)) := by
  obtain ⟨t, u, v, ht, hu, hv, hbase, hbuffer, haccesses, hbytes⟩ :=
    writeBlock_eq hwritten hdvd hlt hsize hplace hle
  refine ⟨t, u, v, ht, hu, hv, hbase, hbuffer, haccesses, fun i hi hi' => ?_, fun j hj => ?_⟩
  · rw [hbytes]
    split
    · congr 1
      omega
    · exact hwritten.written i (by omega) (by omega)
  · rw [hbytes, if_neg (by omega)]
    exact hwritten.kept j (by omega)

end

theorem writeExtents_fits (p : Params) : (writeExtents p).Fits p ∧ (writeExtents p).offsetGap = 0 ∧
    (writeExtents p).bufferGap = 0 := by
  have hup := le_alignUp p.offset p.dataAlignment_pos
  unfold writeExtents
  dsimp only
  split
  · refine ⟨⟨⟨dvd_alignUp _ _, dvd_ite_alignDown p _ _⟩, ite_alignDown_le, Nat.zero_le _,
      p.dataAlignment_pos, fun h => ?_, ite_covered _ _ _⟩, rfl, rfl⟩
    dsimp only at h ⊢
    rw [if_pos h]
    exact ⟨rfl, by rw [getRoundUpDifference]; omega⟩
  · exact ⟨⟨⟨dvd_alignDown _ _, Nat.dvd_zero _⟩, fun h => absurd h (Nat.lt_irrefl 0), Nat.le_refl _,
      p.dataAlignment_pos, fun h => absurd h (Nat.lt_irrefl 0), .inl rfl⟩, rfl, rfl⟩

/-- **The core is written** at once. -/
theorem writeCore_spec (he : e.Fits p) (hoffsetGap : e.offsetGap = 0) (hbufferGap : e.bufferGap = 0)
    (hrange : p.offset + p.size ≤ s.base.size) :
    ∃ t, writeCore p e s = pure t ∧
      Written p s t (e.coveredOffset - p.offset) (e.coveredOffset - p.offset + e.coreSize) ∧
        e.coveredOffset - p.offset + e.coreSize ≤ p.size ∧ (e.coveredOffset ≠ p.offset → 0 < e.coreSize) := by
  unfold writeCore
  split
  · next hpos =>
    obtain ⟨hstart, hplace⟩ := he.covered hpos
    have hin := he.inBuffer hpos
    refine ⟨_, writeFromBuffer_eq hin (by omega), ⟨rfl, rfl,
      (Accesses.refl p s).add he.aligned.1 he.aligned.2 (by omega) rfl, fun i hi hi' => ?_,
      fun j hj => ?_⟩, by omega, fun _ => hpos⟩
    · show copyRange _ _ _ _ _ _ = _
      rw [copyRange_of_mem (by omega) (by omega)]
      congr 1
      omega
    · show copyRange _ _ _ _ _ _ = _
      obtain hj | hj := hj
      · exact copyRange_of_lt (by omega)
      · exact copyRange_of_le (by omega)
  · next hzero =>
    have hcovered : e.coveredOffset = p.offset := he.head.resolve_right fun h => hzero h.1
    refine ⟨s, rfl, ⟨rfl, rfl, Accesses.refl p s, fun i hi hi' => ?_, fun _ _ => rfl⟩, by omega,
      fun h => absurd hcovered h⟩
    omega

/-- **The head is written** in front of the core. -/
theorem wp_writeHead (he : e.Fits p) (hdvd : p.dataAlignment ∣ s.base.size) (hrange : p.offset + p.size ≤ s.base.size)
    (hwritten : Written p s s' (e.coveredOffset - p.offset) (e.coveredOffset - p.offset + e.coreSize))
    (hle : e.coveredOffset - p.offset + e.coreSize ≤ p.size) (hcore : e.coveredOffset ≠ p.offset → 0 < e.coreSize) :
    (writeHead p e s').wp fun t held => held = true ∧ Written p s t 0 (e.coveredOffset + e.coreSize - p.offset) := by
  unfold writeHead
  split
  · next hlt =>
    have hcovered := (he.head.resolve_left (Nat.ne_of_gt hlt)).2.2
    rw [hcovered] at hlt
    have hblock := alignUp_eq_of_lt hlt
    have hdown := alignDown_le p.offset p.dataAlignment
    have hpos := hcore (by omega)
    have hhead : p.offset - alignDown p.offset p.dataAlignment + (e.coveredOffset - p.offset) ≤
        p.dataAlignment := by omega
    dsimp only
    obtain ⟨t, u, v, ht, hu, hv, hjoin⟩ := writeBlock_spec hwritten hdvd
      (show p.offset < s.base.size by omega) hhead (Nat.add_zero _) (by omega) (by omega) (Nat.zero_le _)
    rw [wp_bind, wp_assert, ht, pure_bind, hu, pure_bind, hv, pure_eq, wp_ret, decide_eq_true hhead]
    rw [Nat.min_zero, Nat.max_eq_left (by omega),
      show e.coveredOffset - p.offset + e.coreSize = e.coveredOffset + e.coreSize - p.offset by omega] at hjoin
    exact ⟨rfl, hjoin⟩
  · next hge =>
    have hcovered := Nat.le_antisymm (Nat.not_lt.1 hge) he.le_coveredOffset
    rw [hcovered, Nat.sub_self, Nat.zero_add] at hwritten
    rw [pure_eq, wp_ret, hcovered, Nat.add_sub_cancel_left]
    exact ⟨rfl, hwritten⟩

/-- **The tail is written block by block.** -/
theorem wp_writeTail {fuel tailOffset remaining : ℕ} (hdvd : p.dataAlignment ∣ s.base.size)
    (hrange : p.offset + p.size ≤ s.base.size) (hwritten : Written p s s' 0 (tailOffset - p.offset))
    (hfrom : p.offset ≤ tailOffset) (htail : tailOffset + remaining = p.offset + p.size) (hfuel : remaining ≤ fuel) :
    (writeTail p fuel tailOffset remaining s').wp fun t held => held = true ∧ Written p s t 0 p.size := by
  induction fuel generalizing tailOffset remaining s' with
  | zero =>
    obtain rfl := Nat.le_zero.1 hfuel
    rw [writeTail, if_pos rfl, pure_eq, wp_ret]
    rw [show tailOffset - p.offset = p.size by omega] at hwritten
    exact ⟨rfl, hwritten⟩
  | succ fuel ih =>
    rw [writeTail]
    split
    · next hpos =>
      dsimp only
      have hnext := lt_alignDown tailOffset p.dataAlignment_pos
      have hdown := alignDown_le tailOffset p.dataAlignment
      generalize hcur : min (alignDown tailOffset p.dataAlignment + p.dataAlignment - tailOffset) remaining = cur
      obtain ⟨t, u, v, ht, hu, hv, hjoin⟩ := writeBlock_spec hwritten hdvd
        (show tailOffset < s.base.size by omega)
        (show tailOffset - alignDown tailOffset p.dataAlignment + cur ≤ p.dataAlignment by omega)
        (show p.offset + (tailOffset - p.offset) = tailOffset by omega) (by omega) (Nat.zero_le _)
        (Nat.le_refl _)
      rw [wp_bind, wp_assert, ht, pure_bind, getRoundDownDifference, hu, pure_bind, hv, pure_bind]
      rw [Nat.zero_min, show tailOffset - p.offset + cur = tailOffset + cur - p.offset by omega,
        Nat.max_eq_right (by omega)] at hjoin
      refine wp_mono (ih hjoin (by omega) (by omega) (by omega)) fun t held ⟨hheld, ht⟩ => ⟨?_, ht⟩
      rw [hheld, decide_eq_true (by omega)]
      rfl
    · next hzero =>
      obtain rfl : remaining = 0 := by omega
      rw [pure_eq, wp_ret]
      rw [show tailOffset - p.offset = p.size by omega] at hwritten
      exact ⟨rfl, hwritten⟩

/-- **`Write` changes the bytes of the range to those of the buffer** and nothing else, with accesses to
whole blocks only. -/
theorem wp_write (hdvd : p.dataAlignment ∣ s.base.size) (hrange : p.offset + p.size ≤ s.base.size) :
    (write p s).wp fun r held => held = true ∧ r.2 = p.size ∧ Written p s r.1 0 p.size := by
  obtain ⟨he, hoffsetGap, hbufferGap⟩ := writeExtents_fits p
  have hcovered := he.le_coveredOffset
  unfold write
  rw [wp_bind, wp_assert]
  split
  · next hzero =>
    rw [pure_eq, wp_ret]
    refine ⟨by rw [decide_eq_true p.dataAlignment_le]; rfl, rfl, rfl, rfl, Accesses.refl p s, ?_, fun _ _ => rfl⟩
    intro i _ hi
    omega
  · dsimp only
    obtain ⟨t, ht, hcore, hle, hpos⟩ := writeCore_spec he hoffsetGap hbufferGap hrange
    rw [ht, pure_bind, wp_bind]
    refine wp_mono (wp_writeHead he hdvd hrange hcore hle hpos) fun t held ⟨hheld, hhead⟩ => ?_
    rw [wp_bind]
    refine wp_mono (wp_writeTail hdvd hrange hhead (by omega) (by omega) (Nat.le_refl _))
      fun t held' ⟨hheld', htail⟩ => ?_
    rw [pure_eq, wp_ret]
    refine ⟨?_, rfl, htail⟩
    rw [hheld, hheld', decide_eq_true p.dataAlignment_le]
    rfl

/-- **Alignment matching is transparent**: `Read` leaves the bytes of the range in the buffer and
`Write` puts those of the buffer in the range, without touching others. -/
theorem read_write_spec (hdvd : p.dataAlignment ∣ s.base.size) (hrange : p.offset + p.size ≤ s.base.size) :
    ((read p s).wp fun r held => held = true ∧ r.2 = p.size ∧ Filled p s r.1 0 p.size) ∧
      (write p s).wp fun r held => held = true ∧ r.2 = p.size ∧ Written p s r.1 0 p.size :=
  ⟨wp_read hdvd hrange, wp_write hdvd hrange⟩

/-- Nine bytes from the third on, with blocks of four and a buffer that is off by five of eight. -/
def offBlocks : Params where
  workBufSize := 4
  dataAlignment := 4
  bufferAlignment := 8
  offset := 3
  bufferAddress := 5
  size := 9
  dataAlignment_pow := ⟨2, rfl⟩
  bufferAlignment_pow := ⟨3, rfl⟩
  dataAlignment_le := by decide

/-- A storage of sixteen bytes. -/
def sixteenBytes : State where
  base := ⟨fun i => UInt8.ofNat i, 16⟩
  buffer := fun _ => 0xFF
  work := fun _ => 0
  accesses := []

/-- Nine bytes from the third one on, across blocks. -/
theorem read_write_spec_offBlocks :
    ((read offBlocks sixteenBytes).wp fun r held => held = true ∧ r.2 = 9 ∧
        Filled offBlocks sixteenBytes r.1 0 9 ∧
        (List.range 10).map r.1.buffer = [3, 4, 5, 6, 7, 8, 9, 10, 11, 0xFF]) ∧
      (write offBlocks sixteenBytes).wp fun r held => held = true ∧ r.2 = 9 ∧
        Written offBlocks sixteenBytes r.1 0 9 := by
  obtain ⟨hread, hwrite⟩ := @read_write_spec offBlocks sixteenBytes (by decide) (by decide)
  refine ⟨Exec.wp_mono hread fun r held ⟨hheld, hsize, hfilled⟩ => ⟨hheld, hsize, hfilled, ?_⟩, hwrite⟩
  have hin : ∀ i, i < 9 → r.1.buffer i = UInt8.ofNat (3 + i) := fun i hi =>
    hfilled.read i (Nat.zero_le i) hi
  have hout : r.1.buffer 9 = 0xFF := hfilled.beyond 9 (Nat.le_refl 9)
  simp [List.range_succ, hin, hout]

end AlignmentMatching
end FileSys
end NXEmu
