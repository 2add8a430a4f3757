/-
# An ADPCM stream as a recurrence on its samples

`recurrence` computes the samples of a stream one by one, each from its nibble, the header of its
frame and the two samples before.  `samplesFrom` does the same with a context that is carried from
sample to sample, as `DecodeAdpcm` does: its loop over whole frames and single nibbles is that
(`decodeLoop_eq`), and so a range decoded by any calls is what one call decodes
(`decodeCalls_eq`).
-/

import NXEmu.Audio.AdpcmDecoder

variable {wavebuffer : ℕ → Option ℕ} {n rounds : ℕ}

namespace NXEmu.AudioCore.Adpcm

open Option

/-- The header of a frame of the stream at `buffer`. -/
def frameHeader (memory : ℕ → UInt8) (buffer frame : ℕ) : ℕ := (memory (buffer + 8 * frame)).toNat

/-- The nibble of a sample. -/
def sampleCode (memory : ℕ → UInt8) (buffer sample : ℕ) : ℕ :=
  let byte := (memory (buffer + (8 * (sample / 14) + 1 + sample % 14 / 2))).toNat
  if sample % 14 % 2 = 1 then byte % 16 else byte / 16

/-- **The samples of a stream**: so many from one on, after `yn0` and, before it, `yn1`. -/
def recurrence (coefficients : ℕ → ℤ) (header code : ℕ → ℕ) : ℕ → ℕ → ℤ → ℤ → List ℤ
  | 0, _, _, _ => []
  | count + 1, sample, yn0, yn1 =>
      let y := nextSample coefficients (header (sample / 14)) yn0 yn1 (code sample)
      y :: recurrence coefficients header code count (sample + 1) y yn0

/-- The context after a sample. -/
def afterSample (memory : ℕ → UInt8) (buffer : ℕ) (coefficients : ℕ → ℤ) (sample : ℕ)
    (context : AdpcmContext) : AdpcmContext :=
  decodeSample coefficients
    (if sample % 14 = 0 then { context with header := frameHeader memory buffer (sample / 14) }
      else context)
    (sampleCode memory buffer sample)

/-- So many samples from one on, and the context after them. -/
def samplesFrom (memory : ℕ → UInt8) (buffer : ℕ) (coefficients : ℕ → ℤ) :
    ℕ → ℕ → AdpcmContext → List ℤ × AdpcmContext
  | 0, _, context => ([], context)
  | count + 1, sample, context =>
      let context := afterSample memory buffer coefficients sample context
      let rest := samplesFrom memory buffer coefficients count (sample + 1) context
      (context.yn0 :: rest.1, rest.2)

section Stream

variable {memory : ℕ → UInt8} {buffer : ℕ} {coefficients : ℕ → ℤ} {header : ℕ → ℕ}
  {count sample frame : ℕ} {context : AdpcmContext}

@[simp] theorem length_samplesFrom :
    (samplesFrom memory buffer coefficients count sample context).1.length = count := by
  induction count generalizing sample context with
  | zero => rfl
  | succ count ih => simp [samplesFrom, ih]

/-- **Samples are decoded one after the other.** -/
theorem samplesFrom_add (m n : ℕ) :
    samplesFrom memory buffer coefficients (m + n) sample context =
      let first := samplesFrom memory buffer coefficients m sample context
      let rest := samplesFrom memory buffer coefficients n (sample + m) first.2
      (first.1 ++ rest.1, rest.2) := by
  induction m generalizing sample context with
  | zero => simp [samplesFrom]
  | succ m ih =>
    have hsample : sample + (m + 1) = sample + 1 + m := by omega
    rw [Nat.add_right_comm, hsample]
    simp only [samplesFrom, ih, List.cons_append]

/-- **The carried context is the recurrence**, where `header` has the headers of the frames that begin
in the range and the one of the context for the frame the range begins in. -/
theorem samplesFrom_eq_recurrence (hcurrent : sample % 14 ≠ 0 → header (sample / 14) = context.header)
    (hnew : ∀ frame, sample ≤ 14 * frame → header frame = frameHeader memory buffer frame) :
    (samplesFrom memory buffer coefficients count sample context).1 =
      recurrence coefficients header (sampleCode memory buffer) count sample context.yn0 context.yn1 := by
  induction count generalizing sample context with
  | zero => rfl
  | succ count ih =>
    have hheader : header (sample / 14) =
        (if sample % 14 = 0 then { context with header := frameHeader memory buffer (sample / 14) }
          else context).header := by
      split
      next hzero => exact hnew _ (by omega)
      next hne => exact hcurrent hne
    have hyn : ∀ c : AdpcmContext, (c.yn0, c.yn1) = (context.yn0, context.yn1) →
        (decodeSample coefficients c (sampleCode memory buffer sample)).yn0 =
          nextSample coefficients c.header context.yn0 context.yn1
            (sampleCode memory buffer sample) := by
      intro c hc
      obtain ⟨h0, h1⟩ := Prod.mk.inj hc
      simp only [decodeSample, h0, h1]
    have hhead : (afterSample memory buffer coefficients sample context).yn0 =
        nextSample coefficients (header (sample / 14)) context.yn0 context.yn1
          (sampleCode memory buffer sample) := by
      rw [hheader, afterSample]
      exact hyn _ (by split <;> rfl)
    have htail : (afterSample memory buffer coefficients sample context).yn1 = context.yn0 := by
      simp only [afterSample, decodeSample]
      split <;> rfl
    have hafter : (afterSample memory buffer coefficients sample context).header = header (sample / 14) := by
      rw [hheader]
      rfl
    simp only [samplesFrom, recurrence]
    rw [ih (fun hne => ?_) fun frame hframe => hnew frame (by omega), hhead, htail]
    have hsame : (sample + 1) / 14 = sample / 14 := by omega
    rw [hsame, hafter]

theorem afterSample_eq (h : sample % 14 = 0 → context.header = frameHeader memory buffer (sample / 14)) :
    afterSample memory buffer coefficients sample context =
      decodeSample coefficients context (sampleCode memory buffer sample) := by
  unfold afterSample
  split
  next hzero => rw [← h hzero]
  next => rfl

/-- The first sample of a frame does not depend on the header in the context. -/
theorem samplesFrom_header (hzero : sample % 14 = 0) (h : ℕ) :
    samplesFrom memory buffer coefficients (count + 1) sample { context with header := h } =
      samplesFrom memory buffer coefficients (count + 1) sample context := by
  simp only [samplesFrom, afterSample, if_pos hzero]

/-- **The bytes of a frame** are its samples two by two. -/
theorem decodeBytes_eq {bytes k readIndex : ℕ} (hk : k + bytes = 7)
    (hheader : k = 0 → context.header = frameHeader memory buffer frame)
    (hread : ∀ j < bytes, wavebuffer (readIndex + j) = some (memory (buffer + (8 * frame + 1 + (k + j)))).toNat) :
    decodeBytes wavebuffer coefficients bytes readIndex context =
      some (samplesFrom memory buffer coefficients (2 * bytes) (14 * frame + 2 * k) context) := by
  induction bytes generalizing k readIndex context with
  | zero => rfl
  | succ bytes ih =>
    have hbyte := (memory (buffer + (8 * frame + 1 + k))).toNat_lt
    have hcode0 : sampleCode memory buffer (14 * frame + 2 * k) =
        (memory (buffer + (8 * frame + 1 + k))).toNat / 2 ^ 4 % 16 := by
      have hplace : 8 * ((14 * frame + 2 * k) / 14) + 1 + (14 * frame + 2 * k) % 14 / 2 =
          8 * frame + 1 + k := by omega
      rw [sampleCode, hplace, if_neg (by omega)]
      omega
    have hcode1 : sampleCode memory buffer (14 * frame + 2 * k + 1) =
        (memory (buffer + (8 * frame + 1 + k))).toNat % 16 := by
      have hplace : 8 * ((14 * frame + 2 * k + 1) / 14) + 1 + (14 * frame + 2 * k + 1) % 14 / 2 =
          8 * frame + 1 + k := by omega
      rw [sampleCode, hplace, if_pos (by omega)]
    have hframe : (14 * frame + 2 * k) / 14 = frame := by omega
    have hfirst : wavebuffer readIndex = some (memory (buffer + (8 * frame + 1 + k))).toNat := hread 0 (by omega)
    have hrest : 14 * frame + 2 * k + 1 + 1 = 14 * frame + 2 * (k + 1) := by omega
    rw [decodeBytes, hfirst, Nat.mul_succ]
    simp only [bind_eq_bind, bind_some, samplesFrom]
    have hafter0 : afterSample memory buffer coefficients (14 * frame + 2 * k) context =
        decodeSample coefficients context (sampleCode memory buffer (14 * frame + 2 * k)) := by
      refine afterSample_eq fun hzero => ?_
      rw [hframe]
      exact hheader (by omega)
    have hafter1 : ∀ context, afterSample memory buffer coefficients (14 * frame + 2 * k + 1) context =
        decodeSample coefficients context (sampleCode memory buffer (14 * frame + 2 * k + 1)) :=
      fun context => afterSample_eq fun hzero => by omega
    rw [hafter0, hafter1, hcode0, hcode1, hrest]
    have hbelow : ∀ j < bytes, wavebuffer (readIndex + 1 + j) =
        some (memory (buffer + (8 * frame + 1 + (k + 1 + j)))).toNat := by
      intro j hj
      rw [Nat.add_right_comm readIndex, Nat.add_right_comm k]
      exact hread (j + 1) (by omega)
    rw [ih (by omega) (fun h => absurd h k.succ_ne_zero) hbelow]
    rfl

/-- The nibble from which a sample is looked for: the header of its frame, if it is the first one. -/
def position (sample : ℕ) : ℕ := sample / 14 * 16 + sample % 14 + if sample % 14 ≠ 0 then 2 else 0

theorem position_cases (sample : ℕ) :
    sample % 14 = 0 ∧ position sample = 16 * (sample / 14) ∨
      sample % 14 ≠ 0 ∧ position sample = 16 * (sample / 14) + sample % 14 + 2 := by
  rcases Nat.eq_zero_or_pos (sample % 14) with h | h
  · exact .inl ⟨h, by rw [position, if_neg (not_not.2 h)]; omega⟩
  · exact .inr ⟨by omega, by rw [position, if_pos (by omega)]; omega⟩

/-- The cursor is at a sample. -/
structure At (base sample : ℕ) (c : Cursor) : Prop where
  position_eq : c.positionInFrame = position sample
  readIndex_eq : base + c.readIndex = position sample / 2

/-- The cursor is at the nibble of a sample, whose header was read. -/
structure Inside (memory : ℕ → UInt8) (buffer base sample : ℕ) (c : Cursor) : Prop where
  position_eq : c.positionInFrame = 16 * (sample / 14) + sample % 14 + 2
  readIndex_eq : base + c.readIndex = 8 * (sample / 14) + 1 + sample % 14 / 2
  header_eq : sample % 14 = 0 → c.context.header = frameHeader memory buffer (sample / 14)

variable {wavebuffer : ℕ → Option ℕ} {base size : ℕ} {c : Cursor}

/-- A single sample. -/
theorem decodeSingle_eq (hc : Inside memory buffer base sample c)
    (hwave : ∀ i < size, wavebuffer i = some (memory (buffer + (base + i))).toNat)
    (hin : 8 * (sample / 14) + 1 + sample % 14 / 2 < base + size) (hpos : position (sample + 1) < 2 ^ 32) :
    ∃ c', decodeSingle wavebuffer coefficients c =
        some ((samplesFrom memory buffer coefficients 1 sample c.context).1, c') ∧
      c'.context = (samplesFrom memory buffer coefficients 1 sample c.context).2 ∧
      At base (sample + 1) c' := by
  obtain ⟨hposition, hread, hheader⟩ := hc
  have hbyte : wavebuffer c.readIndex = some (memory (buffer + (8 * (sample / 14) + 1 + sample % 14 / 2))).toNat := by
    rw [hwave c.readIndex (by omega), hread]
  have hodd : c.positionInFrame % 2 = 1 ↔ sample % 14 % 2 = 1 := by omega
  simp only [decodeSingle, hbyte, bind_eq_bind, bind_some, samplesFrom,
    afterSample_eq hheader, sampleCode, hodd]
  refine ⟨_, rfl, rfl, ?_, ?_⟩
  · dsimp only
    rcases position_cases (sample + 1) with ⟨h, hp⟩ | ⟨h, hp⟩ <;> rw [hp] at hpos ⊢ <;> omega
  · dsimp only
    rcases position_cases (sample + 1) with ⟨h, hp⟩ | ⟨h, hp⟩ <;> rw [hp] <;> split <;> omega

/-- All samples of a frame. -/
theorem decodeFrame_eq (hc : Inside memory buffer base sample c) (hzero : sample % 14 = 0)
    (hwave : ∀ i < size, wavebuffer i = some (memory (buffer + (base + i))).toNat)
    (hin : 8 * (sample / 14) + 7 < base + size) (hpos : position (sample + 14) < 2 ^ 32) :
    ∃ c', decodeFrame wavebuffer coefficients c =
        some ((samplesFrom memory buffer coefficients 14 sample c.context).1, c') ∧
      c'.context = (samplesFrom memory buffer coefficients 14 sample c.context).2 ∧
      At base (sample + 14) c' := by
  obtain ⟨hposition, hread, hheader⟩ := hc
  have hbytes : decodeBytes wavebuffer coefficients 7 c.readIndex c.context =
      some (samplesFrom memory buffer coefficients (2 * 7) (14 * (sample / 14) + 2 * 0)
        c.context) := by
    refine decodeBytes_eq (k := 0) rfl (fun _ => hheader hzero) fun j hj => ?_
    rw [hwave _ (by omega)]
    congr 4
    omega
  have hsample : 14 * (sample / 14) + 2 * 0 = sample := by omega
  rw [hsample] at hbytes
  simp only [decodeFrame, SamplesPerFrame, hbytes, bind_eq_bind, bind_some]
  obtain ⟨h, hp⟩ | ⟨h, -⟩ := position_cases (sample + 14)
  · rw [hp] at hpos
    exact ⟨_, rfl, rfl, by rw [hp]; dsimp only; omega, by rw [hp]; dsimp only; omega⟩
  · omega

variable (coefficients) in
/-- **A round of the loop** decodes some of the samples that are to be decoded. -/
theorem decodeRound_eq (hc : At base sample c)
    (hwave : ∀ i < size, wavebuffer i = some (memory (buffer + (base + i))).toNat)
    (hin : ∀ t, sample ≤ t → t < sample + (n + 1) → 8 * (t / 14) + 1 + t % 14 / 2 < base + size)
    (hpos : ∀ t, t ≤ sample + (n + 1) → position t < 2 ^ 32) :
    ∃ m ≤ n, ∃ c', decodeRound wavebuffer coefficients (n + 1) c =
        some ((samplesFrom memory buffer coefficients (m + 1) sample c.context).1, c') ∧
      c'.context = (samplesFrom memory buffer coefficients (m + 1) sample c.context).2 ∧
      At base (sample + (m + 1)) c' := by
  obtain ⟨hposition, hread⟩ := hc
  have hsmall := hpos sample (by omega)
  have hfirst := hin sample le_rfl (by omega)
  simp only [decodeRound, NibblesPerFrame, hposition]
  rcases position_cases sample with ⟨hzero, hp⟩ | ⟨hne, hp⟩
  · have hheader : wavebuffer c.readIndex = some (frameHeader memory buffer (sample / 14)) := by
      rw [hwave c.readIndex (by omega), hread, hp, frameHeader,
        show 16 * (sample / 14) / 2 = 8 * (sample / 14) by omega]
    have hframe : position sample % 16 = 0 := by omega
    rw [if_pos hframe]
    simp only [readHeader, hheader, bind_eq_bind, bind_some]
    have hinside : Inside memory buffer base sample
        ⟨(c.positionInFrame + 2) % 2 ^ 32, c.readIndex + 1,
          { c.context with header := frameHeader memory buffer (sample / 14) }⟩ :=
      ⟨by dsimp only; omega, by dsimp only; omega, fun _ => rfl⟩
    by_cases hfull : SamplesPerFrame ≤ n + 1
    · rw [if_pos hfull]
      simp only [SamplesPerFrame] at hfull
      have hlast := hin (sample + 13) (by omega) (by omega)
      obtain ⟨c', hrun, hctx, hat⟩ := decodeFrame_eq hinside hzero hwave (by omega)
        (hpos (sample + 14) (by omega))
      rw [samplesFrom_header hzero] at hrun hctx
      exact ⟨13, by omega, c', hrun, hctx, hat⟩
    · rw [if_neg hfull]
      obtain ⟨c', hrun, hctx, hat⟩ := decodeSingle_eq hinside hwave hfirst
        (hpos (sample + 1) (by omega))
      rw [samplesFrom_header hzero] at hrun hctx
      exact ⟨0, n.zero_le, c', hrun, hctx, hat⟩
  · rw [if_neg (by omega)]
    have hinside : Inside memory buffer base sample c :=
      ⟨by omega, by omega, fun hzero => absurd hzero hne⟩
    obtain ⟨c', hrun, hctx, hat⟩ := decodeSingle_eq hinside hwave hfirst
      (hpos (sample + 1) (by omega))
    exact ⟨0, n.zero_le, c', hrun, hctx, hat⟩

/-- **The loop decodes the samples of the stream.** -/
theorem decodeLoop_eq (hrounds : n ≤ rounds) (hc : At base sample c)
    (hwave : ∀ i < size, wavebuffer i = some (memory (buffer + (base + i))).toNat)
    (hin : ∀ t, sample ≤ t → t < sample + n → 8 * (t / 14) + 1 + t % 14 / 2 < base + size)
    (hpos : ∀ t, t ≤ sample + n → position t < 2 ^ 32) :
    decodeLoop wavebuffer coefficients rounds n c =
      some (samplesFrom memory buffer coefficients n sample c.context) := by
  induction rounds generalizing n sample c with
  | zero =>
    obtain rfl := Nat.le_zero.1 hrounds
    rfl
  | succ rounds ih =>
    cases n with
    | zero => rfl
    | succ n =>
      obtain ⟨m, hm, c', hround, hctx, hat⟩ :=
        decodeRound_eq coefficients hc hwave hin hpos
      have hleft : n + 1 - (m + 1) = n - m := by omega
      have hsplit : n + 1 = (m + 1) + (n - m) := by omega
      have hrest := ih (n := n - m) (by omega) hat (fun t h h' => hin t (by omega) (by omega))
        fun t ht => hpos t (by omega)
      rw [decodeLoop, hround]
      simp only [bind_eq_bind, bind_some, length_samplesFrom, hleft, hrest, hctx]
      rw [hsplit, samplesFrom_add (m + 1) (n - m)]

end Stream

/-! ## Calls -/

/-- The range of some calls: there is a buffer, and it covers the end of the range. -/
structure Covered (req : DecodeArg) : Prop where
  buffer_ne : req.buffer ≠ 0
  start_le : req.startOffset ≤ req.endOffset
  covers : (req.endOffset % 14 + 16 * (req.endOffset / 14) +
    if req.endOffset % 14 ≠ 0 then 3 else 1) / 2 ≤ req.bufferSize

/-- Neither the nibbles up to the end of the range nor the size of the span that one call fetches for
the range exceed 32 bits. -/
structure Fits (req : DecodeArg) : Prop extends Covered req where
  nibbles_lt : 16 * (req.endOffset / 14) + req.endOffset % 14 + 3 < 2 ^ 32
  size_lt : (req.endOffset - req.startOffset) / 8 * 14 < 2 ^ 32

section Calls

variable {memory : ℕ → UInt8} {req : DecodeArg} {context : AdpcmContext}

/-- The span that is fetched has the bytes of its samples. -/
theorem byte_lt_size {first n t : ℕ} (ht : first ≤ t) (ht' : t < first + n) :
    8 * (t / 14) + 1 + t % 14 / 2 < position first / 2 + max (n / 8 * 14) 8 := by
  rcases position_cases first with ⟨h, hp⟩ | ⟨h, hp⟩ <;> rw [hp] <;> omega

variable (memory context) in
/-- **A call** decodes the next samples of the range, as many as are asked for. -/
theorem decodeAdpcm_eq (h : Fits req) (hoffset : req.startOffset + req.offset ≤ req.endOffset) :
    decodeAdpcm memory req context = some (samplesFrom memory req.buffer req.coefficients
        (min (req.endOffset - req.startOffset - req.offset) req.samplesToRead)
        (req.startOffset + req.offset) context) := by
  obtain ⟨⟨hbuffer, hstart, hcovers⟩, hnibbles, hsize⟩ := h
  have hpos : ∀ t ≤ req.endOffset, position t < 2 ^ 32 := by
    intro t ht
    rcases position_cases t with ⟨_, hp⟩ | ⟨_, hp⟩ <;> rw [hp] <;> omega
  have hend : endNibble req.endOffset / 2 ≤ req.bufferSize :=
    (Nat.div_le_div_right (Nat.mod_le _ _)).trans hcovers
  have hmod : (req.startOffset + req.offset) % 2 ^ 32 = req.startOffset + req.offset := by omega
  have hleft : (req.endOffset + 2 ^ 32 - (req.startOffset + req.offset)) % 2 ^ 32 =
      req.endOffset - req.startOffset - req.offset := by omega
  simp only [decodeAdpcm, hmod, hleft]
  by_cases hempty : req.bufferSize = 0
  · -- a buffer of no bytes covers the empty range only
    have hzero : req.endOffset = 0 := by
      rw [hempty] at hcovers
      split at hcovers <;> omega
    rw [if_pos (.inr hempty), show req.endOffset - req.startOffset - req.offset = 0 by omega, Nat.zero_min]
    rfl
  rw [if_neg (not_or.2 ⟨hbuffer, hempty⟩), if_neg (Nat.not_lt.2 hstart), if_neg (Nat.not_lt.2 hend)]
  generalize hn : min (req.endOffset - req.startOffset - req.offset) req.samplesToRead = n
  by_cases hzero : n = 0
  · rw [if_pos hzero, hzero]
    rfl
  rw [if_neg hzero]
  have hposition : startNibble (req.startOffset + req.offset) =
      position (req.startOffset + req.offset) := Nat.mod_eq_of_lt (hpos _ hoffset)
  have hspan : n / 8 * SamplesPerFrame % 2 ^ 32 = n / 8 * 14 :=
    Nat.mod_eq_of_lt (show n / 8 * 14 < 2 ^ 32 by omega)
  have hwave : ∀ i < max (n / 8 * 14) 8, guestMemory memory (req.buffer + position (req.startOffset + req.offset) / 2)
        (max (n / 8 * 14) 8) i =
          some (memory (req.buffer + (position (req.startOffset + req.offset) / 2 + i))).toNat := by
    intro i hi
    rw [guestMemory, if_pos hi, Nat.add_assoc]
  rw [hposition, hspan]
  exact decodeLoop_eq le_rfl ⟨rfl, Nat.add_zero _⟩ hwave (fun t ht ht' => byte_lt_size ht ht')
    fun t ht => hpos t (by omega)

variable (memory context) in
/-- **Consecutive calls** decode the samples of the range one after the other, as many as are asked
for. -/
theorem decodeCalls_eq (h : Fits req) (requests : List ℕ) {offset : ℕ}
    (hoffset : req.startOffset + offset ≤ req.endOffset) :
    decodeCalls memory req requests offset context = some (samplesFrom memory req.buffer req.coefficients
        (min (req.endOffset - req.startOffset - offset) requests.sum)
        (req.startOffset + offset) context) := by
  induction requests generalizing offset context with
  | nil =>
    rw [List.sum_nil, Nat.min_zero]
    rfl
  | cons request requests ih =>
    have hreq : Fits { req with offset := offset, samplesToRead := request } :=
      ⟨⟨h.buffer_ne, h.start_le, h.covers⟩, h.nibbles_lt, h.size_lt⟩
    have hcall := decodeAdpcm_eq memory context hreq hoffset
    dsimp only at hcall
    have hnibbles := h.nibbles_lt
    generalize hm : min (req.endOffset - req.startOffset - offset) request = m at hcall
    have hmod : (offset + m) % 2 ^ 32 = offset + m := Nat.mod_eq_of_lt (by omega)
    have hcount : min (req.endOffset - req.startOffset - offset) (request :: requests).sum =
        m + min (req.endOffset - req.startOffset - (offset + m)) requests.sum := by
      rw [List.sum_cons]
      omega
    rw [decodeCalls, hcall]
    simp only [bind_eq_bind, bind_some, length_samplesFrom, hmod]
    rw [ih _ (by omega), hcount, samplesFrom_add, Nat.add_assoc]
    rfl

/-- The header of a frame for a range that begins at sample `first`: the frame in whose middle the
range begins has the header of the context. -/
def headerInRange (memory : ℕ → UInt8) (buffer first contextHeader frame : ℕ) : ℕ :=
  if frame = first / 14 ∧ first % 14 ≠ 0 then contextHeader else frameHeader memory buffer frame

/-- The whole range is decoded by one call and by any calls that make it up, each reading inside the
span that it fetched, to the samples of the stream with these headers. -/
def DecodesStream (memory : ℕ → UInt8) (req : DecodeArg) (context : AdpcmContext)
    (header : ℕ → ℕ) : Prop :=
  ∀ requests : List ℕ, requests.sum = req.endOffset - req.startOffset →
    ∃ samples context',
      decodeAdpcm memory
        { req with offset := 0, samplesToRead := req.endOffset - req.startOffset } context =
          some (samples, context') ∧
      decodeCalls memory req requests 0 context = some (samples, context') ∧
      samples = recurrence req.coefficients header (sampleCode memory req.buffer)
        (req.endOffset - req.startOffset) req.startOffset context.yn0 context.yn1

/-- **A range is decoded in pieces as it is in one**, and to the samples of the stream. -/
theorem decodesStream (memory : ℕ → UInt8) (context : AdpcmContext) (h : Fits req) :
    DecodesStream memory req context
      (headerInRange memory req.buffer req.startOffset context.header) := by
  intro requests hsplit
  have hone : Fits { req with offset := 0, samplesToRead := req.endOffset - req.startOffset } :=
    ⟨⟨h.buffer_ne, h.start_le, h.covers⟩, h.nibbles_lt, h.size_lt⟩
  have hcall := decodeAdpcm_eq memory context hone h.start_le
  have hstart : req.startOffset + 0 ≤ req.endOffset := h.start_le
  have hcalls := decodeCalls_eq memory context h requests hstart
  dsimp only at hcall
  rw [Nat.sub_zero, Nat.min_self, Nat.add_zero] at hcall
  rw [hsplit, Nat.sub_zero, Nat.min_self, Nat.add_zero] at hcalls
  refine ⟨_, _, hcall, hcalls, samplesFrom_eq_recurrence (fun hne => ?_) fun frame hframe => ?_⟩
  · exact if_pos ⟨rfl, hne⟩
  · refine if_neg fun hmid => ?_
    omega

end Calls

/-- Bytes that are 0 but for one or two. -/
def bytesAt (place0 : ℕ) (byte0 : UInt8) (place1 : ℕ) (byte1 : UInt8) (place : ℕ) : UInt8 :=
  if place = place0 then byte0 else if place = place1 then byte1 else 0

/-- A request for a range of the stream at address 8. -/
def request (bufferSize startOffset endOffset : ℕ) : DecodeArg where
  buffer := 8
  bufferSize := bufferSize
  startOffset := startOffset
  endOffset := endOffset
  coefficients := fun _ => 0
  offset := 0
  samplesToRead := 0

/-- From the second sample of a frame on into the next one. -/
theorem decodesStream_twoFrames :
    DecodesStream (bytesAt 8 0x04 9 0x11) (request 16 1 20) ⟨0x05, 3, 4⟩
      (headerInRange (bytesAt 8 0x04 9 0x11) 8 1 0x05) :=
  decodesStream _ ⟨0x05, 3, 4⟩ (show Fits (request 16 1 20) from
    ⟨⟨by decide, by decide, by decide⟩, by decide, by decide⟩)

/-- The loop ends at the first round that reads outside the span. -/
theorem decodeLoop_eq_none {coefficients : ℕ → ℤ}
    {out : List ℤ} {c c' : Cursor} (hfirst : decodeRound wavebuffer coefficients (n + 1) c = some (out, c'))
    (hsecond : ∀ n, 14 ≤ n → decodeRound wavebuffer coefficients n c' = none) (hn : out.length + 14 ≤ n + 1) :
    decodeLoop wavebuffer coefficients (rounds + 2) (n + 1) c = none := by
  obtain ⟨m, hm⟩ : ∃ m, n + 1 - out.length = m + 1 := ⟨n - out.length, by omega⟩
  rw [decodeLoop, hfirst]
  simp only [bind_eq_bind, bind_some, hm]
  rw [decodeLoop, hsecond (m + 1) (by omega)]
  rfl

/-- In the middle of a frame the header is the one of the context and not the one of the frame; from
nibble `2 ^ 32` on the position wraps around to the beginning of the stream; and a call for enough
samples fetches a span whose size has wrapped around. -/
theorem not_decodesStream_ownHeaders :
    (Covered (request 8 1 2) ∧
      ¬ DecodesStream (bytesAt 8 0x04 9 0x11) (request 8 1 2) ⟨0, 0, 0⟩
        (frameHeader (bytesAt 8 0x04 9 0x11) 8)) ∧
    (Covered (request (2 ^ 32) 3758096384 3758096385) ∧
      ¬ DecodesStream (bytesAt 9 0x10 8 0) (request (2 ^ 32) 3758096384 3758096385) ⟨0, 0, 0⟩
        (frameHeader (bytesAt 9 0x10 8 0) 8)) ∧
    (Covered (request (2 ^ 32) 0 2454267032) ∧
      ¬ DecodesStream (bytesAt 8 0 9 0) (request (2 ^ 32) 0 2454267032) ⟨0, 0, 0⟩
        (frameHeader (bytesAt 8 0 9 0) 8)) := by
  refine ⟨⟨⟨by decide, by decide, by decide⟩, ?_⟩, ⟨⟨by decide, by decide, by decide⟩, ?_⟩,
    ⟨⟨by decide, by decide, by decide⟩, ?_⟩⟩
  · intro h
    obtain ⟨samples, context', hone, -, hsamples⟩ := h [1] rfl
    have hrun : decodeAdpcm (bytesAt 8 0x04 9 0x11)
        { request 8 1 2 with offset := 0, samplesToRead := 1 } ⟨0, 0, 0⟩ = some ([1], ⟨0, 1, 0⟩) := by
      decide
    obtain ⟨rfl, -⟩ := Prod.mk.inj (Option.some.inj (hrun.symm.trans hone))
    revert hsamples
    decide
  · intro h
    obtain ⟨samples, context', hone, -, hsamples⟩ := h [1] rfl
    have hrun : decodeAdpcm (bytesAt 9 0x10 8 0)
        { request (2 ^ 32) 3758096384 3758096385 with offset := 0, samplesToRead := 1 } ⟨0, 0, 0⟩ =
          some ([1], ⟨0, 1, 0⟩) := by
      decide
    obtain ⟨rfl, -⟩ := Prod.mk.inj (Option.some.inj (hrun.symm.trans hone))
    revert hsamples
    decide
  · intro h
    obtain ⟨samples, context', hone, -⟩ := h [2454267032] rfl
    have hrun : decodeAdpcm (bytesAt 8 0 9 0)
        { request (2 ^ 32) 0 2454267032 with offset := 0, samplesToRead := 2454267032 } ⟨0, 0, 0⟩ =
          none := by
      have hfetch : ∀ n, 14 ≤ n → decodeRound (guestMemory (bytesAt 8 0 9 0) 8 10) (fun _ => 0) n
          ⟨0, 0, ⟨0, 0, 0⟩⟩ = some (List.replicate 14 0, ⟨16, 8, ⟨0, 0, 0⟩⟩) := by
        intro n hn
        simp only [decodeRound]
        rw [if_pos (by decide)]
        show (if SamplesPerFrame ≤ n then _ else _) = _
        rw [if_pos (show SamplesPerFrame ≤ n from hn)]
        rfl
      have hfault : ∀ n, 14 ≤ n → decodeRound (guestMemory (bytesAt 8 0 9 0) 8 10) (fun _ => 0) n
          ⟨16, 8, ⟨0, 0, 0⟩⟩ = none := by
        intro n hn
        simp only [decodeRound]
        rw [if_pos (by decide)]
        show (if SamplesPerFrame ≤ n then _ else _) = _
        rw [if_pos (show SamplesPerFrame ≤ n from hn)]
        rfl
      have hloop : decodeLoop (guestMemory (bytesAt 8 0 9 0) 8 10) (fun _ => 0) (2454267030 + 2)
          (2454267031 + 1) ⟨0, 0, ⟨0, 0, 0⟩⟩ = none :=
        decodeLoop_eq_none (hfetch (2454267031 + 1) (by decide)) hfault (by decide)
      have hcount : min ((2454267032 + 2 ^ 32 - (0 + 0) % 2 ^ 32) % 2 ^ 32) 2454267032 =
          2454267031 + 1 := by decide
      have hsize : max ((2454267031 + 1) / 8 * SamplesPerFrame % 2 ^ 32) 8 = 10 := by decide
      simp only [decodeAdpcm, request, hcount, hsize]
      rw [if_neg (by decide), if_neg (by decide), if_neg (by decide), if_neg (by decide)]
      exact hloop
    cases hrun.symm.trans hone

end NXEmu.AudioCore.Adpcm
