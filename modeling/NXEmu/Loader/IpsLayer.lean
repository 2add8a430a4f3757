/-
# IPS patches

`PatchIPS` of `ips_layer.cpp` reads a patch record by record and writes each one into a copy of the
input.  What the bytes of a patch say is `next`: a record, the marker at the end, or that they are cut
short (`next_record_iff`).  The loop does what the records say except in the cases of `Defect`, which
are the only ones where it goes wrong (`patchLoop_iff`, `patchesExactly_iff`): a literal record that
reaches past the input, an end of a record that wraps in 32 bits, and a patch cut within an offset
whose bytes complete the marker with those of the offset before.
-/

import NXEmu.Lib.Bytes
import NXEmu.Lib.Exec

namespace NXEmu
namespace FileSys

open Bytes List

inductive IPSFileType where
  | ips
  | ips32
  | error
deriving DecidableEq

def identifyMagic (magic : Bytes) : IPSFileType :=
  if magic.length ≠ 5 then .error
  else if magic = ascii "PATCH" then .ips
  else if magic = ascii "IPS32" then .ips32
  else .error

def isEOF (type : IPSFileType) (data : Bytes) : Bool :=
  if type = .ips ∧ data = ascii "EOF" then true
  else decide (type = .ips32 ∧ data = ascii "EEOF")

/-- The bytes of an offset, `temp.size()`. -/
def offsetWidth (type : IPSFileType) : ℕ := if type = .ips then 3 else 4

/-- `VfsFile::Read` from a place in the file: the bytes there, as many as there are. -/
def readAt (file : Bytes) (length offset : ℕ) : Bytes := (file.drop offset).take length

/-- Bytes read into the front of a buffer. -/
def readOver (buffer bytes : Bytes) : Bytes := bytes ++ buffer.drop bytes.length

/-- Bytes written into a buffer, with a fault if they do not fit. -/
def writeAt (buffer : Bytes) (offset : ℕ) (bytes : Bytes) : Exec Bytes :=
  if offset + bytes.length ≤ buffer.length then
    pure (buffer.take offset ++ bytes ++ buffer.drop (offset + bytes.length))
  else .fault

/-- The size of what is written: cut off at the end of the input if the sum in 32 bits is past it. -/
def clip (inSize offset size : ℕ) : ℕ :=
  if inSize < (offset + size) % 2 ^ 32 then (inSize - offset) % 2 ^ 16 else size

/-- What a round of the loop of `PatchIPS` comes to. -/
inductive Round where
  | done (temp : Bytes)
  | null
  | record (inData temp : Bytes) (offset : ℕ)
deriving DecidableEq

/-- The run of one byte in a record. -/
def patchRun (ips inData temp : Bytes) (realOffset offset : ℕ) : Exec Round :=
  let rleSize := readAt ips 2 offset
  if rleSize.length ≠ 2 then pure .null
  else
    match readAt ips 1 (offset + 2) with
    | [data] => do
      let size := clip inData.length realOffset (bigEndian rleSize)
      let inData ← writeAt inData realOffset (List.replicate size data)
      pure (.record inData temp (offset + 3))
    | _ => pure .null

/-- The bytes in a record. -/
def patchBytes (ips inData temp : Bytes) (realOffset dataSize offset : ℕ) : Exec Round := do
  let data := readAt ips (clip inData.length realOffset dataSize) offset
  let inData ← writeAt inData realOffset data
  if data.length ≠ dataSize then pure .null else pure (.record inData temp (offset + dataSize))

/-- The part of a round after the offset. -/
def patchRecord (ips inData temp : Bytes) (realOffset offset : ℕ) : Exec Round :=
  if inData.length < realOffset then pure .null
  else
    let dataSize := readAt ips 2 offset
    if dataSize.length ≠ 2 then pure .null
    else if bigEndian dataSize = 0 then patchRun ips inData temp realOffset (offset + 2)
    else patchBytes ips inData temp realOffset (bigEndian dataSize) (offset + 2)

/-- A round of the loop of `PatchIPS`. -/
def patchRound (type : IPSFileType) (ips inData temp : Bytes) (offset : ℕ) : Exec Round :=
  let read := readAt ips temp.length offset
  let temp := readOver temp read
  if read.length ≠ temp.length then pure (.done temp)
  else if isEOF type temp then pure (.done temp)
  else patchRecord ips inData temp (bigEndian temp) (offset + temp.length)

/-- The loop of `PatchIPS` and what follows it.  Every round but the last reads some of the patch, so
that its length is fuel enough. -/
def patchLoop (type : IPSFileType) (ips : Bytes) : ℕ → (inData temp : Bytes) → ℕ → Exec (Option Bytes)
  | 0, _, _, _ => .fault
  | fuel + 1, inData, temp, offset => do
    match ← patchRound type ips inData temp offset with
    | .done temp => pure (if isEOF type temp then some inData else none)
    | .null => pure none
    | .record inData temp offset => patchLoop type ips fuel inData temp offset

/-- `PatchIPS`: the bytes of the patched file, or `nullptr`. -/
def patchIPS (input ips : Bytes) : Exec (Option Bytes) :=
  let type := identifyMagic (readAt ips 5 0)
  if type = .error then pure none
  else if input.length = 0 then pure none
  else patchLoop type ips (ips.length + 1) input (List.replicate (offsetWidth type) 0) 5

/-! ### What a patch says -/

/-- A record of a patch: bytes for a place, or one byte for a run of places. -/
inductive IPSRecord where
  | literal (offset : ℕ) (data : Bytes)
  | run (offset size : ℕ) (byte : UInt8)
deriving DecidableEq

namespace IPSRecord

def offset : IPSRecord → ℕ
  | literal offset _ => offset
  | run offset _ _ => offset

/-- What the record is to write. -/
def data : IPSRecord → Bytes
  | literal _ data => data
  | run _ size byte => List.replicate size byte

/-- The bytes of the record after its offset. -/
def body : IPSRecord → Bytes
  | literal _ data => toBigEndian 2 data.length ++ data
  | run _ size byte => [0, 0] ++ toBigEndian 2 size ++ [byte]

/-- The bytes of the record in a patch. -/
def encode (type : IPSFileType) (r : IPSRecord) : Bytes :=
  toBigEndian (offsetWidth type) r.offset ++ r.body

/-- The size fits in two bytes, and a literal record, which a run would be otherwise, has one. -/
def SizeFits : IPSRecord → Prop
  | literal _ data => 0 < data.length ∧ data.length < 2 ^ 16
  | run _ size _ => size < 2 ^ 16

/-- The record can be written in a patch: its numbers fit, and its offset is not the marker. -/
def Valid (type : IPSFileType) (r : IPSRecord) : Prop :=
  r.offset < 256 ^ offsetWidth type ∧ isEOF type (toBigEndian (offsetWidth type) r.offset) = false ∧
    r.SizeFits

/-- The record applied to a file, clipped to the size of the file. -/
def apply (file : Bytes) (r : IPSRecord) : Bytes :=
  let data := r.data.take (file.length - r.offset)
  file.take r.offset ++ data ++ file.drop (r.offset + data.length)

end IPSRecord

/-- The marker at the end. -/
def marker (type : IPSFileType) : Bytes := if type = .ips then ascii "EOF" else ascii "EEOF"

/-- What the front of a patch's bytes says. -/
inductive Next where
  | torn
  | marker
  | cut (offset size : ℕ) (data : Bytes)
  | record (r : IPSRecord) (rest : Bytes)

/-- The record at `offset` read from the bytes after its offset. -/
def nextRecord (offset : ℕ) (rest : Bytes) : Next :=
  if rest.length < 2 then .cut offset 0 []
  else
    let size := bigEndian (rest.take 2)
    let rest := rest.drop 2
    if size = 0 then
      match rest with
      | hi :: lo :: byte :: rest => .record (.run offset (bigEndian [hi, lo]) byte) rest
      | _ => .cut offset 0 []
    else if rest.length < size then .cut offset size rest
    else .record (.literal offset (rest.take size)) (rest.drop size)

/-- The front of `bytes` read by the format: fewer bytes than an offset, the marker, a record that is
cut short, with what there is of its bytes, or a record. -/
def next (type : IPSFileType) (bytes : Bytes) : Next :=
  let width := offsetWidth type
  if bytes.length < width then .torn
  else if isEOF type (bytes.take width) then .marker
  else nextRecord (bigEndian (bytes.take width)) (bytes.drop width)

variable {type : IPSFileType} {ips inData temp body rest : Bytes} {offset size inSize fuel : ℕ}
  {r : IPSRecord} {records : List IPSRecord}

/-- `body` is records at offsets within `inSize`, and then the marker. -/
inductive WellFormed (type : IPSFileType) (inSize : ℕ) : Bytes → List IPSRecord → Prop
  | marker {body : Bytes} (h : next type body = .marker) : WellFormed type inSize body []
  | record {body rest : Bytes} {r : IPSRecord} {records : List IPSRecord}
    (h : next type body = .record r rest) (hoffset : r.offset ≤ inSize)
    (hrest : WellFormed type inSize rest records) : WellFormed type inSize body (r :: records)

/-- The record is written as it should be: it ends within the input, or it is a run that ends below
2 ^ 32. -/
def IPSRecord.Clips (inSize : ℕ) : IPSRecord → Prop
  | .literal offset data => offset + data.length ≤ inSize
  | .run offset size _ => offset + size ≤ inSize ∨ offset + size < 2 ^ 32

/-- The cases where the loop goes wrong, for an input of `inSize` bytes, with `temp` left over from the
offset before and `body` still to be read. -/
inductive Defect (type : IPSFileType) (inSize : ℕ) : (temp body : Bytes) → Prop
  /-- The patch ends within an offset, and its last bytes over those of the offset before are the
  marker. -/
  | torn {temp body : Bytes} (h : next type body = .torn)
    (hmarker : isEOF type (readOver temp body) = true) : Defect type inSize temp body
  /-- A record ends past the input and its end wraps in 32 bits. -/
  | wraps {temp body rest : Bytes} {r : IPSRecord} (h : next type body = .record r rest)
    (hoffset : r.offset ≤ inSize) (hpast : inSize < r.offset + r.data.length)
    (hwraps : 2 ^ 32 ≤ r.offset + r.data.length) : Defect type inSize temp body
  /-- So does one that is cut short. -/
  | wrapsCut {temp body data : Bytes} {offset size : ℕ} (h : next type body = .cut offset size data)
    (hoffset : offset ≤ inSize) (hpast : inSize < offset + data.length)
    (hwraps : 2 ^ 32 ≤ offset + size) : Defect type inSize temp body
  /-- A literal record ends past the input, in a patch that is well formed. -/
  | refused {temp body rest data : Bytes} {offset : ℕ} {records : List IPSRecord}
    (h : next type body = .record (.literal offset data) rest) (hoffset : offset ≤ inSize)
    (hpast : inSize < offset + data.length) (hrest : WellFormed type inSize rest records) :
    Defect type inSize temp body
  | later {temp body rest : Bytes} {r : IPSRecord} (h : next type body = .record r rest)
    (hoffset : r.offset ≤ inSize) (hclips : r.Clips inSize)
    (hrest : Defect type inSize (toBigEndian (offsetWidth type) r.offset) rest) :
    Defect type inSize temp body

/-! ### Reading a record -/

theorem offsetWidth_pos (type : IPSFileType) : 0 < offsetWidth type := by
  unfold offsetWidth
  split <;> decide

theorem isEOF_iff (htype : type ≠ .error) (data : Bytes) : isEOF type data = true ↔ data = marker type := by
  cases type <;> simp [isEOF, marker] at htype ⊢

theorem length_marker (htype : type ≠ .error) : (marker type).length = offsetWidth type := by
  cases type with
  | ips => rfl
  | ips32 => rfl
  | error => exact absurd rfl htype

theorem readAt_add (ips : Bytes) (length offset k : ℕ) :
    readAt ips length (offset + k) = ((ips.drop offset).drop k).take length := by
  rw [readAt, drop_drop]

/-- A number in front of bytes. -/
theorem take_toBigEndian (width value : ℕ) (rest : Bytes) :
    (toBigEndian width value ++ rest).take width = toBigEndian width value ∧
      (toBigEndian width value ++ rest).drop width = rest := by
  have h := length_toBigEndian width value
  constructor
  · rw [take_append_of_le_length (Nat.le_of_eq h.symm), take_of_length_le (Nat.le_of_eq h)]
  · rw [drop_append_of_le_length (Nat.le_of_eq h.symm), drop_of_length_le (Nat.le_of_eq h), nil_append]

theorem eq_toBigEndian {bytes : Bytes} {width : ℕ} (h : bytes.length = width) :
    bytes = toBigEndian width (bigEndian bytes) := by
  rw [← h, toBigEndian_bigEndian]

theorem nextRecord_body {type : IPSFileType} (hvalid : r.Valid type) (rest : Bytes) :
    nextRecord r.offset (r.body ++ rest) = .record r rest := by
  obtain ⟨-, -, hsize⟩ := hvalid
  cases r with
  | literal offset data =>
    obtain ⟨htake, hdrop⟩ := take_toBigEndian 2 data.length (data ++ rest)
    have hlong : ¬(toBigEndian 2 data.length ++ (data ++ rest)).length < 2 := by
      rw [length_append, length_toBigEndian]
      omega
    have henough : ¬(data ++ rest).length < data.length := by
      rw [length_append]
      omega
    rw [IPSRecord.body, append_assoc]
    unfold nextRecord
    rw [if_neg hlong, htake, hdrop, bigEndian_toBigEndian (show data.length < 256 ^ 2 from hsize.2)]
    dsimp only
    rw [if_neg (Nat.ne_of_gt hsize.1), if_neg henough, take_left, drop_left]
    rfl
  | run offset size byte =>
    have hnum : bigEndian [UInt8.ofNat (size / 256), UInt8.ofNat size] = size :=
      bigEndian_toBigEndian (show size < 256 ^ 2 from hsize)
    show Next.record (.run offset (bigEndian [UInt8.ofNat (size / 256), UInt8.ofNat size]) byte) rest = _
    rw [hnum]

/-- **A record is read back**, whatever follows it. -/
theorem next_encode (hvalid : r.Valid type) (rest : Bytes) :
    next type (r.encode type ++ rest) = .record r rest := by
  obtain ⟨htake, hdrop⟩ := take_toBigEndian (offsetWidth type) r.offset (r.body ++ rest)
  have hlong : ¬(toBigEndian (offsetWidth type) r.offset ++ (r.body ++ rest)).length < offsetWidth type := by
    rw [length_append, length_toBigEndian]
    omega
  have hmarker : ¬isEOF type (toBigEndian (offsetWidth type) r.offset) = true := by
    rw [hvalid.2.1]
    decide
  rw [IPSRecord.encode, append_assoc]
  unfold next
  rw [if_neg hlong, htake, hdrop, if_neg hmarker, bigEndian_toBigEndian hvalid.1]
  exact nextRecord_body hvalid rest

theorem nextRecord_eq_record (h : nextRecord offset body = .record r rest) :
    r.offset = offset ∧ body = r.body ++ rest ∧ r.SizeFits := by
  unfold nextRecord at h
  split at h
  · cases h
  · next hlong =>
    have htake : (body.take 2).length = 2 := length_take_of_le (Nat.le_of_not_lt hlong)
    have hbody := take_append_drop 2 body
    have hlt := bigEndian_lt (body.take 2)
    rw [htake] at hlt
    dsimp only at h
    split at h
    · next hzero =>
      have hfront : body.take 2 = [0, 0] := by
        rw [eq_toBigEndian htake, hzero]
        rfl
      split at h
      · next hi lo byte rest' hrest =>
        cases h
        have hnum : toBigEndian 2 (bigEndian [hi, lo]) = [hi, lo] := toBigEndian_bigEndian [hi, lo]
        have hsize : bigEndian [hi, lo] < 256 ^ 2 := bigEndian_lt [hi, lo]
        refine ⟨rfl, ?_, hsize⟩
        calc body = [0, 0] ++ hi :: lo :: byte :: rest := by rw [← hfront, ← hrest, hbody]
          _ = _ := by
            rw [IPSRecord.body, hnum]
            rfl
      · cases h
    · next hsize =>
      split at h
      · cases h
      · next henough =>
        cases h
        have hlen : ((body.drop 2).take (bigEndian (body.take 2))).length = bigEndian (body.take 2) :=
          length_take_of_le (Nat.le_of_not_lt henough)
        refine ⟨rfl, ?_, ?_⟩
        · rw [IPSRecord.body, hlen, ← eq_toBigEndian htake, append_assoc, take_append_drop, hbody]
        · rw [IPSRecord.SizeFits, hlen]
          exact ⟨Nat.pos_of_ne_zero hsize, hlt⟩

theorem nextRecord_ne (offset : ℕ) (bytes : Bytes) :
    nextRecord offset bytes ≠ .torn ∧ nextRecord offset bytes ≠ .marker := by
  unfold nextRecord
  dsimp only
  constructor <;> repeat' split
  all_goals exact fun h => by cases h

/-- The three ways a patch goes on. -/
theorem next_cases (type : IPSFileType) (body : Bytes) :
    body.length < offsetWidth type ∧ next type body = .torn ∨
      offsetWidth type ≤ body.length ∧ isEOF type (body.take (offsetWidth type)) = true ∧ next type body = .marker ∨
      offsetWidth type ≤ body.length ∧ isEOF type (body.take (offsetWidth type)) = false ∧
        next type body = nextRecord (bigEndian (body.take (offsetWidth type))) (body.drop (offsetWidth type)) := by
  unfold next
  by_cases hshort : body.length < offsetWidth type
  · exact .inl ⟨hshort, if_pos hshort⟩
  · have hlong := Nat.le_of_not_lt hshort
    by_cases hmarker : isEOF type (body.take (offsetWidth type)) = true
    · exact .inr (.inl ⟨hlong, hmarker, by rw [if_neg hshort, if_pos hmarker]⟩)
    · exact .inr (.inr ⟨hlong, eq_false_of_ne_true hmarker, by rw [if_neg hshort, if_neg hmarker]⟩)

/-- **What is read as a record is one.** -/
theorem next_eq_record (h : next type body = .record r rest) :
    r.Valid type ∧ body = r.encode type ++ rest := by
  obtain ⟨-, hnext⟩ | ⟨-, -, hnext⟩ | ⟨hlong, hmarker, hnext⟩ := next_cases type body
  · cases hnext.symm.trans h
  · cases hnext.symm.trans h
  · obtain ⟨hoffset, hbody, hsize⟩ := nextRecord_eq_record (hnext.symm.trans h)
    have hwidth : (body.take (offsetWidth type)).length = offsetWidth type := length_take_of_le hlong
    have hbytes : toBigEndian (offsetWidth type) r.offset = body.take (offsetWidth type) := by
      rw [hoffset, ← eq_toBigEndian hwidth]
    refine ⟨⟨?_, by rw [hbytes, hmarker], hsize⟩, ?_⟩
    · have hlt := bigEndian_lt (body.take (offsetWidth type))
      rwa [hwidth, ← hoffset] at hlt
    · rw [IPSRecord.encode, hbytes, append_assoc, ← hbody, take_append_drop]

theorem next_eq_marker (htype : type ≠ .error) :
    next type body = .marker ↔ ∃ rest, body = marker type ++ rest := by
  constructor
  · intro h
    obtain ⟨-, hnext⟩ | ⟨-, hmarker, -⟩ | ⟨-, -, hnext⟩ := next_cases type body
    · cases hnext.symm.trans h
    · refine ⟨body.drop (offsetWidth type), ?_⟩
      rw [← (isEOF_iff htype _).1 hmarker, take_append_drop]
    · exact absurd (hnext.symm.trans h) (nextRecord_ne _ _).2
  · rintro ⟨rest, rfl⟩
    have hwidth := length_marker htype
    have htake : (marker type ++ rest).take (offsetWidth type) = marker type := by
      rw [← hwidth, take_left]
    unfold next
    rw [if_neg (by rw [length_append]; omega), htake, if_pos ((isEOF_iff htype _).2 rfl)]

/-- **A patch is well formed** if its bytes are those of records at offsets within the input, and then
the marker. -/
theorem wellFormed_iff (htype : type ≠ .error) :
    WellFormed type inSize body records ↔ (∀ r ∈ records, r.Valid type ∧ r.offset ≤ inSize) ∧
        ∃ rest, body = records.flatMap (IPSRecord.encode type) ++ (marker type ++ rest) := by
  constructor
  · intro h
    induction h with
    | marker h =>
      obtain ⟨rest, rfl⟩ := (next_eq_marker htype).1 h
      exact ⟨fun _ h => absurd h not_mem_nil, rest, rfl⟩
    | record h hoffset _ ih =>
      obtain ⟨hvalid, rfl⟩ := next_eq_record h
      obtain ⟨hall, rest, rfl⟩ := ih
      refine ⟨forall_mem_cons.2 ⟨⟨hvalid, hoffset⟩, hall⟩, rest, ?_⟩
      rw [flatMap_cons, append_assoc]
  · rintro ⟨hall, rest, rfl⟩
    induction records with
    | nil => exact .marker ((next_eq_marker htype).2 ⟨rest, rfl⟩)
    | cons r records ih =>
      obtain ⟨⟨hvalid, hoffset⟩, hall⟩ := forall_mem_cons.1 hall
      rw [flatMap_cons, append_assoc]
      exact .record (next_encode hvalid _) hoffset (ih hall)

/-! ### A round of the loop -/

variable {realOffset : ℕ} {data : Bytes}

theorem clip_le (hoffset : offset ≤ inSize) : clip inSize offset size ≤ size := by
  unfold clip
  split <;> omega

theorem clip_of_le (h : offset + size ≤ inSize) : clip inSize offset size = size :=
  if_neg (by omega)

theorem clip_of_lt (hsize : size < 2 ^ 16) (hpast : inSize < offset + size)
    (h : offset + size < 2 ^ 32) (hoffset : offset ≤ inSize) :
    clip inSize offset size = inSize - offset := by
  rw [clip, if_pos (by omega), Nat.mod_eq_of_lt (by omega)]

theorem clip_of_wraps (hsize : size < 2 ^ 16) (hwidth : offset < 2 ^ 32) (hoffset : offset ≤ inSize)
    (h : 2 ^ 32 ≤ offset + size) : clip inSize offset size = size :=
  if_neg (by omega)

theorem writeAt_eq (h : offset + data.length ≤ inData.length) :
    writeAt inData offset data = pure (inData.take offset ++ data ++ inData.drop (offset + data.length)) :=
  if_pos h

theorem writeAt_fault (h : inData.length < offset + data.length) : writeAt inData offset data = .fault :=
  if_neg (Nat.not_le.2 h)

theorem IPSRecord.length_apply (file : Bytes) (hoffset : r.offset ≤ file.length) :
    (r.apply file).length = file.length := by
  simp only [IPSRecord.apply, length_append, length_take, length_drop]
  omega

/-- A run in the patch. -/
theorem patchRecord_run {byte : UInt8} (hrest : ips.drop offset = body)
    (hnext : nextRecord realOffset body = .record (.run realOffset size byte) rest)
    (hoffset : realOffset ≤ inData.length) :
    ips.drop (offset + 5) = rest ∧ patchRecord ips inData temp realOffset offset =
      (writeAt inData realOffset (replicate (clip inData.length realOffset size) byte) >>=
        fun inData => pure (.record inData temp (offset + 5))) := by
  obtain ⟨-, hbody, hsize⟩ := nextRecord_eq_record hnext
  obtain ⟨a, b, hab⟩ : ∃ a b, toBigEndian 2 size = [a, b] := ⟨_, _, rfl⟩
  have hnum : bigEndian [a, b] = size := by
    rw [← hab]
    exact bigEndian_toBigEndian hsize
  have hcons : body = 0 :: 0 :: a :: b :: byte :: rest := by
    rw [hbody, IPSRecord.body, hab]
    rfl
  have hsizeBytes : readAt ips 2 offset = [0, 0] := by
    rw [readAt, hrest, hcons]
    rfl
  have hrleSize : readAt ips 2 (offset + 2) = [a, b] := by
    rw [readAt_add, hrest, hcons]
    rfl
  have hbyte : readAt ips 1 (offset + 2 + 2) = [byte] := by
    rw [Nat.add_assoc, readAt_add, hrest, hcons]
    rfl
  refine ⟨by rw [← drop_drop, hrest, hcons]; rfl, ?_⟩
  rw [patchRecord, if_neg (Nat.not_lt.2 hoffset), hsizeBytes, patchRun, hrleSize, hbyte, hnum]
  rfl

/-- Bytes in the patch. -/
theorem patchRecord_literal (hrest : ips.drop offset = body)
    (hnext : nextRecord realOffset body = .record (.literal realOffset data) rest)
    (hoffset : realOffset ≤ inData.length) :
    ips.drop (offset + 2 + data.length) = rest ∧ patchRecord ips inData temp realOffset offset =
      (writeAt inData realOffset (data.take (clip inData.length realOffset data.length)) >>= fun inData' =>
        if (data.take (clip inData.length realOffset data.length)).length ≠ data.length then pure .null
        else pure (.record inData' temp (offset + 2 + data.length))) := by
  obtain ⟨-, hbody, hpos, hsize⟩ := nextRecord_eq_record hnext
  have hbody : body = toBigEndian 2 data.length ++ (data ++ rest) := by
    rw [hbody, IPSRecord.body, append_assoc]
  obtain ⟨htake, hdrop⟩ := take_toBigEndian 2 data.length (data ++ rest)
  rw [← hbody] at htake hdrop
  have hsizeBytes : readAt ips 2 offset = toBigEndian 2 data.length := by rw [readAt, hrest, htake]
  have hnum : bigEndian (toBigEndian 2 data.length) = data.length := bigEndian_toBigEndian hsize
  have hread : readAt ips (clip inData.length realOffset data.length) (offset + 2) =
      data.take (clip inData.length realOffset data.length) := by
    rw [readAt_add, hrest, hdrop, take_append_of_le_length (clip_le hoffset)]
  refine ⟨by rw [← drop_drop, ← drop_drop, hrest, hdrop, drop_left], ?_⟩
  rw [patchRecord, if_neg (Nat.not_lt.2 hoffset), hsizeBytes]
  dsimp only
  rw [if_neg (by rw [length_toBigEndian]; decide), hnum, if_neg (Nat.ne_of_gt hpos), patchBytes, hread]

theorem short_cases {bytes : Bytes} (h : ∀ a b c rest, bytes = a :: b :: c :: rest → False) :
    bytes = [] ∨ (∃ a, bytes = [a]) ∨ ∃ a b, bytes = [a, b] := by
  match bytes with
  | [] => exact .inl rfl
  | [a] => exact .inr (.inl ⟨a, rfl⟩)
  | [a, b] => exact .inr (.inr ⟨a, b, rfl⟩)
  | a :: b :: c :: rest => exact (h a b c rest rfl).elim

/-- A record that is cut short. -/
theorem patchRecord_cut (hrest : ips.drop offset = body)
    (hnext : nextRecord realOffset body = .cut realOffset size data) (hoffset : realOffset ≤ inData.length) :
    (size = 0 ∧ data = [] ∨ data.length < size ∧ size < 2 ^ 16) ∧ patchRecord ips inData temp realOffset offset =
        (writeAt inData realOffset (data.take (clip inData.length realOffset size)) >>= fun _ =>
          pure .null) := by
  have hempty : writeAt inData realOffset ([].take (clip inData.length realOffset 0)) =
      pure (inData.take realOffset ++ [] ++ inData.drop (realOffset + 0)) := by
    rw [take_nil]
    exact writeAt_eq hoffset
  rw [patchRecord, if_neg (Nat.not_lt.2 hoffset)]
  dsimp only
  have hsizeBytes : readAt ips 2 offset = body.take 2 := by rw [readAt, hrest]
  rw [hsizeBytes]
  unfold nextRecord at hnext
  split at hnext
  · next hshort =>
    cases hnext
    refine ⟨.inl ⟨rfl, rfl⟩, ?_⟩
    rw [if_pos (by rw [length_take]; omega), hempty]
    rfl
  · next hlong =>
    have hlen : (body.take 2).length = 2 := length_take_of_le (Nat.le_of_not_lt hlong)
    rw [if_neg (not_not.2 hlen)]
    dsimp only at hnext
    split at hnext
    · next hzero =>
      rw [if_pos hzero]
      split at hnext
      · cases hnext
      · next hshort =>
        cases hnext
        refine ⟨.inl ⟨rfl, rfl⟩, ?_⟩
        rw [hempty]
        unfold patchRun
        rw [Nat.add_assoc, readAt_add, readAt_add, hrest, ← drop_drop]
        obtain hnil | ⟨a, hone⟩ | ⟨a, b, htwo⟩ := short_cases hshort
        · rw [hnil]
          rfl
        · rw [hone]
          rfl
        · rw [htwo]
          rfl
    · next hsize =>
      rw [if_neg hsize]
      split at hnext
      · next hshort =>
        cases hnext
        have hlt := bigEndian_lt (body.take 2)
        rw [hlen] at hlt
        refine ⟨.inr ⟨hshort, hlt⟩, ?_⟩
        rw [patchBytes, readAt_add, hrest]
        refine congrArg _ (funext fun _ => if_pos ?_)
        rw [length_take]
        omega
      · cases hnext

theorem patchRound_eq (hbody : ips.drop offset = body) (htemp : temp.length = offsetWidth type) :
    patchRound type ips inData temp offset = if body.length < offsetWidth type then pure (.done (readOver temp body))
      else if isEOF type (body.take (offsetWidth type)) then pure (.done (body.take (offsetWidth type)))
      else patchRecord ips inData (body.take (offsetWidth type))
        (bigEndian (body.take (offsetWidth type))) (offset + offsetWidth type) := by
  unfold patchRound
  rw [htemp, show readAt ips (offsetWidth type) offset = body.take (offsetWidth type) by rw [readAt, hbody]]
  by_cases hshort : body.length < offsetWidth type
  · rw [if_pos hshort, take_of_length_le (Nat.le_of_lt hshort)]
    refine if_pos ?_
    rw [readOver, length_append, length_drop]
    omega
  · have hlen : (body.take (offsetWidth type)).length = offsetWidth type :=
      length_take_of_le (Nat.le_of_not_lt hshort)
    have hover : readOver temp (body.take (offsetWidth type)) = body.take (offsetWidth type) := by
      rw [readOver, hlen, drop_of_length_le (Nat.le_of_eq htemp), append_nil]
    rw [if_neg hshort]
    dsimp only
    rw [hover, if_neg (not_not.2 rfl), hlen]

/-! ### The loop -/

/-- The outcome is what the patch says: the records applied in order, or nothing if it is not well
formed. -/
def Right (type : IPSFileType) (inData body : Bytes) (result : Exec (Option Bytes)) : Prop :=
  (∀ records, WellFormed type inData.length body records →
      result = .ret (some (records.foldl IPSRecord.apply inData)) true) ∧
    ((∀ records, ¬WellFormed type inData.length body records) → result = .ret none true)

variable {result : Exec (Option Bytes)}

theorem not_right_fault : ¬Right type inData body .fault := by
  rintro ⟨hwell, hnot⟩
  by_cases h : ∃ records, WellFormed type inData.length body records
  · obtain ⟨records, h⟩ := h
    cases hwell records h
  · cases hnot fun records hrecords => h ⟨records, hrecords⟩

theorem right_of_not (h : ∀ records, ¬WellFormed type inData.length body records) :
    Right type inData body result ↔ result = .ret none true :=
  ⟨fun hright => hright.2 h, fun heq => ⟨fun records hrecords => absurd hrecords (h records), fun _ => heq⟩⟩

theorem wellFormed_record_iff (h : next type body = .record r rest) :
    WellFormed type inSize body records ↔
      r.offset ≤ inSize ∧ ∃ later, records = r :: later ∧ WellFormed type inSize rest later := by
  constructor
  · rintro (hmarker | ⟨hrecord, hoffset, hrest⟩)
    · cases h.symm.trans hmarker
    · cases h.symm.trans hrecord
      exact ⟨hoffset, _, rfl, hrest⟩
  · rintro ⟨hoffset, later, rfl, hrest⟩
    exact .record h hoffset hrest

/-- After a record the rest of the patch is about the file that it has been applied to. -/
theorem right_record (h : next type body = .record r rest) (hoffset : r.offset ≤ inData.length) :
    Right type inData body result ↔ Right type (r.apply inData) rest result := by
  unfold Right
  rw [IPSRecord.length_apply inData hoffset]
  simp only [wellFormed_record_iff h, hoffset, true_and]
  constructor
  · rintro ⟨hwell, hnot⟩
    refine ⟨fun later hlater => hwell (r :: later) ⟨later, rfl, hlater⟩, fun hnone => hnot ?_⟩
    rintro _ ⟨later, rfl, hlater⟩
    exact hnone later hlater
  · rintro ⟨hwell, hnot⟩
    refine ⟨?_, fun hnone => hnot fun later hlater => hnone (r :: later) ⟨later, rfl, hlater⟩⟩
    rintro _ ⟨later, rfl, hlater⟩
    exact hwell later hlater

/-- A record that clips is applied. -/
theorem patchRecord_clips (hrest : ips.drop offset = body)
    (hnext : nextRecord r.offset body = .record r rest) (hoffset : r.offset ≤ inData.length)
    (hclips : r.Clips inData.length) :
    ∃ offset', ips.drop offset' = rest ∧
      patchRecord ips inData temp r.offset offset = pure (.record (r.apply inData) temp offset') := by
  obtain ⟨-, -, hsize⟩ := nextRecord_eq_record hnext
  cases r with
  | literal realOffset data =>
    change nextRecord realOffset body = _ at hnext
    obtain ⟨hdrop, hround⟩ := @patchRecord_literal ips inData temp _ _ _ _ _ hrest hnext hoffset
    refine ⟨_, hdrop, hround.trans ?_⟩
    rw [clip_of_le hclips, take_length, writeAt_eq hclips, pure_bind, if_neg (not_not.2 rfl)]
    have htake : data.take (inData.length - realOffset) = data :=
      take_of_length_le (Nat.le_sub_of_add_le (Nat.add_comm _ _ ▸ hclips))
    simp only [IPSRecord.apply, IPSRecord.data, IPSRecord.offset, htake]
  | run realOffset size byte =>
    change nextRecord realOffset body = _ at hnext
    change realOffset ≤ inData.length at hoffset
    obtain ⟨hdrop, hround⟩ := @patchRecord_run ips inData temp _ _ _ _ _ _ hrest hnext hoffset
    refine ⟨_, hdrop, hround.trans ?_⟩
    have hclip : clip inData.length realOffset size = min size (inData.length - realOffset) := by
      by_cases hfits : realOffset + size ≤ inData.length
      · rw [clip_of_le hfits]
        omega
      · rw [clip_of_lt hsize (Nat.lt_of_not_le hfits) (hclips.resolve_left hfits) hoffset]
        omega
    have hwritten : replicate (clip inData.length realOffset size) byte =
        (replicate size byte).take (inData.length - realOffset) := by
      rw [take_replicate, hclip, Nat.min_comm]
    rw [hwritten, writeAt_eq (by rw [length_take]; omega)]
    rfl

theorem offset_lt (hvalid : r.Valid type) : r.offset < 2 ^ 32 := by
  have h := hvalid.1
  unfold offsetWidth at h
  split at h <;> omega

/-- The records end as the loop's do: with one that does not clip, the loop stops. -/
theorem patchRecord_stops (hvalid : r.Valid type) (hrest : ips.drop offset = body)
    (hnext : nextRecord r.offset body = .record r rest) (hoffset : r.offset ≤ inData.length)
    (hclips : ¬r.Clips inData.length) :
    inData.length < r.offset + r.data.length ∧ patchRecord ips inData temp r.offset offset =
      if r.offset + r.data.length < 2 ^ 32 then pure .null else .fault := by
  have hlt := offset_lt hvalid
  obtain ⟨-, -, hsize⟩ := nextRecord_eq_record hnext
  cases r with
  | literal realOffset data =>
    change nextRecord realOffset body = _ at hnext
    change realOffset < 2 ^ 32 at hlt
    have hpast : inData.length < realOffset + data.length := Nat.lt_of_not_le hclips
    obtain ⟨-, hround⟩ := @patchRecord_literal ips inData temp _ _ _ _ _ hrest hnext hoffset
    refine ⟨hpast, hround.trans ?_⟩
    show _ = if realOffset + data.length < 2 ^ 32 then _ else _
    change realOffset ≤ inData.length at hoffset
    by_cases hbelow : realOffset + data.length < 2 ^ 32
    · have hlen : (data.take (inData.length - realOffset)).length = inData.length - realOffset := by
        rw [length_take]
        omega
      rw [if_pos hbelow, clip_of_lt hsize.2 hpast hbelow hoffset, writeAt_eq (by rw [hlen]; omega),
        pure_bind, if_pos (by rw [hlen]; omega)]
    · rw [if_neg hbelow, clip_of_wraps hsize.2 hlt hoffset (Nat.le_of_not_lt hbelow), take_length,
        writeAt_fault hpast, Exec.fault_bind]
  | run realOffset size byte =>
    change nextRecord realOffset body = _ at hnext
    change realOffset < 2 ^ 32 at hlt
    obtain ⟨hpast, habove⟩ := not_or.1 hclips
    have hlen : (IPSRecord.run realOffset size byte).data.length = size := length_replicate
    obtain ⟨-, hround⟩ := @patchRecord_run ips inData temp _ _ _ _ _ _ hrest hnext hoffset
    rw [hlen]
    refine ⟨Nat.lt_of_not_le hpast, hround.trans ?_⟩
    show _ = if realOffset + size < 2 ^ 32 then _ else _
    rw [clip_of_wraps hsize hlt hoffset (Nat.le_of_not_lt habove), if_neg habove,
      writeAt_fault (by rw [length_replicate]; omega), Exec.fault_bind]

/-- A record that is cut short ends the loop, with a fault if its end wraps past the input. -/
theorem patchRecord_cut_eq (hlt : realOffset < 2 ^ 32) (hrest : ips.drop offset = body)
    (hnext : nextRecord realOffset body = .cut realOffset size data) (hoffset : realOffset ≤ inData.length) :
    patchRecord ips inData temp realOffset offset =
      if inData.length < realOffset + data.length ∧ 2 ^ 32 ≤ realOffset + size then .fault
      else pure .null := by
  obtain ⟨hsize, hround⟩ := @patchRecord_cut ips inData temp _ _ _ _ _ hrest hnext hoffset
  rw [hround]
  split
  · next h =>
    rw [clip_of_wraps (by omega) hlt hoffset h.2, take_of_length_le (by omega), writeAt_fault h.1, Exec.fault_bind]
  · next h =>
    have hlen : data.length ≤ size := by
      obtain ⟨rfl, rfl⟩ | h := hsize
      · exact Nat.le_refl _
      · exact Nat.le_of_lt h.1
    rw [writeAt_eq ?_, pure_bind]
    rw [length_take]
    by_cases hpast : inData.length < realOffset + size
    · by_cases hbelow : realOffset + size < 2 ^ 32
      · rw [clip_of_lt (by omega) hpast hbelow hoffset]
        omega
      · omega
    · omega

theorem patchLoop_done {last : Bytes} (hround : patchRound type ips inData temp offset = pure (.done last)) :
    patchLoop type ips (fuel + 1) inData temp offset = pure (if isEOF type last then some inData else none) := by
  rw [patchLoop, hround, pure_bind]

theorem patchLoop_null (hround : patchRound type ips inData temp offset = pure .null) :
    patchLoop type ips (fuel + 1) inData temp offset = pure none := by
  rw [patchLoop, hround, pure_bind]

theorem patchLoop_record {inData' temp' : Bytes} {offset' : ℕ}
    (hround : patchRound type ips inData temp offset = pure (.record inData' temp' offset')) :
    patchLoop type ips (fuel + 1) inData temp offset = patchLoop type ips fuel inData' temp' offset' := by
  rw [patchLoop, hround, pure_bind]

theorem patchLoop_fault (hround : patchRound type ips inData temp offset = .fault) :
    patchLoop type ips (fuel + 1) inData temp offset = .fault := by
  rw [patchLoop, hround, Exec.fault_bind]

theorem next_encode_length (h : next type body = .record r rest) : rest.length < body.length := by
  obtain ⟨-, rfl⟩ := next_eq_record h
  have hpos := offsetWidth_pos type
  simp only [IPSRecord.encode, length_append, length_toBigEndian]
  omega

theorem nextRecord_eq_cut (h : nextRecord realOffset body = .cut offset size data) :
    offset = realOffset := by
  unfold nextRecord at h
  dsimp only at h
  repeat' split at h
  all_goals cases h
  all_goals rfl

theorem IPSRecord.Clips.not_wraps (h : r.Clips inSize) (hpast : inSize < r.offset + r.data.length)
    (hwraps : 2 ^ 32 ≤ r.offset + r.data.length) : False := by
  cases r with
  | literal offset data => exact Nat.not_le.2 hpast h
  | run offset size byte =>
    rw [IPSRecord.data, length_replicate] at hpast hwraps
    obtain h | h := h
    · exact Nat.not_le.2 hpast h
    · exact Nat.not_le.2 h hwraps

theorem exists_literal (hclips : ¬r.Clips inSize) (hbelow : r.offset + r.data.length < 2 ^ 32) :
    ∃ offset data, r = .literal offset data := by
  cases r with
  | literal offset data => exact ⟨offset, data, rfl⟩
  | run offset size byte =>
    rw [IPSRecord.data, length_replicate] at hbelow
    exact absurd (.inr hbelow) hclips

/-- A record is right if the rest is, or it is one that the loop is to stop at. -/
theorem patchLoop_record_iff (hvalid : r.Valid type) (hnext : next type body = .record r rest)
    (hround : patchRound type ips inData temp offset =
      patchRecord ips inData (toBigEndian (offsetWidth type) r.offset) r.offset realOffset)
    (hrest : ips.drop realOffset = r.body ++ rest) (ih : ∀ {inData : Bytes} {offset : ℕ}, ips.drop offset = rest →
      (Right type inData rest (patchLoop type ips fuel inData (toBigEndian (offsetWidth type) r.offset) offset) ↔
        ¬Defect type inData.length (toBigEndian (offsetWidth type) r.offset) rest)) :
    Right type inData body (patchLoop type ips (fuel + 1) inData temp offset) ↔
      ¬Defect type inData.length temp body := by
  have hrecord := nextRecord_body hvalid rest
  by_cases hoffset : r.offset ≤ inData.length
  · rw [right_record hnext hoffset]
    by_cases hclips : r.Clips inData.length
    · obtain ⟨offset', hdrop, happly⟩ := @patchRecord_clips ips inData
        (toBigEndian (offsetWidth type) r.offset) _ rest _ r hrest hrecord hoffset hclips
      rw [patchLoop_record (hround.trans happly), ih hdrop, IPSRecord.length_apply _ hoffset, not_iff_not]
      refine ⟨.later hnext hoffset hclips, ?_⟩
      rintro (⟨h, -⟩ | ⟨h, -, hpast, hwraps⟩ | ⟨h, -⟩ | ⟨h, -, hpast, -⟩ | ⟨h, -, -, hlater⟩) <;>
        cases hnext.symm.trans h
      · exact (hclips.not_wraps hpast hwraps).elim
      · exact absurd hclips (Nat.not_le.2 hpast)
      · exact hlater
    · obtain ⟨hpast, hstop⟩ := @patchRecord_stops type ips inData
        (toBigEndian (offsetWidth type) r.offset) _ rest _ r hvalid hrest hrecord hoffset hclips
      by_cases hbelow : r.offset + r.data.length < 2 ^ 32
      · rw [if_pos hbelow] at hstop
        rw [patchLoop_null (hround.trans hstop)]
        obtain ⟨realOffset, data, rfl⟩ := exists_literal hclips hbelow
        have hlen := IPSRecord.length_apply inData hoffset
        by_cases hwell : ∃ records, WellFormed type inData.length rest records
        · obtain ⟨records, hrecords⟩ := hwell
          refine iff_of_false (fun h => ?_) (not_not.2 (.refused hnext hoffset hpast hrecords))
          cases h.1 records (by rwa [hlen])
        · refine iff_of_true ((right_of_not fun records h => hwell ⟨records, ?_⟩).2 rfl) ?_
          · rwa [hlen] at h
          rintro (⟨h, -⟩ | ⟨h, -, -, hwraps⟩ | ⟨h, -⟩ | ⟨h, -, -, hrecords⟩ | ⟨h, -, hclips, -⟩) <;>
            cases hnext.symm.trans h
          · exact Nat.not_le.2 hbelow hwraps
          · exact hwell ⟨_, hrecords⟩
          · exact Nat.not_le.2 hpast hclips
      · rw [if_neg hbelow] at hstop
        rw [patchLoop_fault (hround.trans hstop)]
        exact iff_of_false not_right_fault
          (not_not.2 (.wraps hnext hoffset hpast (Nat.le_of_not_lt hbelow)))
  · have hnull : patchRecord ips inData (toBigEndian (offsetWidth type) r.offset) r.offset realOffset =
        pure .null := if_pos (Nat.lt_of_not_le hoffset)
    rw [patchLoop_null (hround.trans hnull)]
    refine iff_of_true ((right_of_not fun records h => ?_).2 rfl) ?_
    · exact hoffset ((wellFormed_record_iff hnext).1 h).1
    · rintro (⟨h, -⟩ | ⟨h, h', -⟩ | ⟨h, -⟩ | ⟨h, h', -⟩ | ⟨h, h', -⟩) <;> cases hnext.symm.trans h
      all_goals exact hoffset h'

/-- **The loop is right except at a defect.** -/
theorem patchLoop_iff (hbody : ips.drop offset = body)
    (htemp : temp.length = offsetWidth type) (hfuel : body.length < fuel) :
    Right type inData body (patchLoop type ips fuel inData temp offset) ↔ ¬Defect type inData.length temp body := by
  induction fuel generalizing inData temp offset body with
  | zero => exact absurd hfuel (Nat.not_lt_zero _)
  | succ fuel ih =>
    have hround := @patchRound_eq type ips inData temp body offset hbody htemp
    obtain ⟨hshort, hnext⟩ | ⟨hlong, hmarker, hnext⟩ | ⟨hlong, hmarker, hnext⟩ := next_cases type body
    · -- the patch is cut within an offset
      rw [if_pos hshort] at hround
      rw [patchLoop_done hround, right_of_not]
      · constructor
        · rintro h (⟨-, heof⟩ | ⟨h', -⟩ | ⟨h', -⟩ | ⟨h', -⟩ | ⟨h', -⟩)
          · rw [if_pos heof] at h
            cases h
          all_goals cases hnext.symm.trans h'
        · intro h
          exact congrArg pure (if_neg fun heof => h (.torn hnext heof))
      · rintro records (h' | ⟨h', -⟩) <;> cases hnext.symm.trans h'
    · -- the marker
      rw [if_neg (Nat.not_lt.2 hlong), if_pos hmarker] at hround
      rw [patchLoop_done hround, if_pos hmarker]
      refine iff_of_true ⟨fun records h => ?_, fun h => absurd (.marker hnext) (h [])⟩ ?_
      · obtain h' | ⟨h', -⟩ := h
        · rfl
        · cases hnext.symm.trans h'
      · rintro (⟨h', -⟩ | ⟨h', -⟩ | ⟨h', -⟩ | ⟨h', -⟩ | ⟨h', -⟩) <;> cases hnext.symm.trans h'
    · -- a record, which may be cut short
      rw [if_neg (Nat.not_lt.2 hlong), if_neg (by rw [hmarker]; decide)] at hround
      have htake : (body.take (offsetWidth type)).length = offsetWidth type :=
        length_take_of_le hlong
      have hdrop : ips.drop (offset + offsetWidth type) = body.drop (offsetWidth type) := by
        rw [← drop_drop, hbody]
      match hfront : next type body with
      | .torn => exact absurd (hnext.symm.trans hfront) (nextRecord_ne _ _).1
      | .marker => exact absurd (hnext.symm.trans hfront) (nextRecord_ne _ _).2
      | .cut realOffset size data =>
        have hcut := hnext.symm.trans hfront
        have hoff := nextRecord_eq_cut hcut
        rw [← hoff] at hround hcut
        have hlt := bigEndian_lt (body.take (offsetWidth type))
        rw [htake, ← hoff] at hlt
        have hlt : realOffset < 2 ^ 32 := by
          unfold offsetWidth at hlt
          split at hlt <;> omega
        rw [right_of_not (by rintro records (h' | ⟨h', -⟩) <;> cases hfront.symm.trans h')]
        by_cases hoffset : realOffset ≤ inData.length
        · rw [patchRecord_cut_eq hlt hdrop hcut hoffset] at hround
          split at hround
          · next h =>
            rw [patchLoop_fault hround]
            exact iff_of_false (fun h => by cases h) (not_not.2 (.wrapsCut hfront hoffset h.1 h.2))
          · next h =>
            rw [patchLoop_null hround]
            refine iff_of_true rfl ?_
            rintro (⟨h', -⟩ | ⟨h', -⟩ | ⟨h', -, hpast, hwraps⟩ | ⟨h', -⟩ | ⟨h', -⟩) <;> cases hfront.symm.trans h'
            exact h ⟨hpast, hwraps⟩
        · have hnull : patchRecord ips inData (body.take (offsetWidth type)) realOffset
              (offset + offsetWidth type) = pure .null := if_pos (Nat.lt_of_not_le hoffset)
          rw [patchLoop_null (hround.trans hnull)]
          refine iff_of_true rfl ?_
          rintro (⟨h', -⟩ | ⟨h', -⟩ | ⟨h', hle, -⟩ | ⟨h', -⟩ | ⟨h', -⟩) <;> cases hfront.symm.trans h'
          exact hoffset hle
      | .record r rest =>
        obtain ⟨hvalid, hencode⟩ := next_eq_record hfront
        obtain ⟨htake', hdrop'⟩ := take_toBigEndian (offsetWidth type) r.offset (r.body ++ rest)
        rw [← append_assoc, ← IPSRecord.encode, ← hencode] at htake' hdrop'
        rw [htake', bigEndian_toBigEndian hvalid.1] at hround
        rw [hdrop'] at hdrop
        have hlen := next_encode_length hfront
        exact patchLoop_record_iff hvalid hfront hround hdrop fun hoff =>
          ih hoff (length_toBigEndian _ _) (by omega)

/-! ### Patching a file -/

/-- The bytes before the records. -/
def magic (type : IPSFileType) : Bytes := if type = .ips then ascii "PATCH" else ascii "IPS32"

/-- The bytes are those of a patch: the magic, the records, which are at offsets within the input, and
the marker. -/
def IsPatch (inSize : ℕ) (ips : Bytes) (records : List IPSRecord) : Prop :=
  ∃ type rest, type ≠ .error ∧
    ips = magic type ++ records.flatMap (IPSRecord.encode type) ++ marker type ++ rest ∧
    ∀ r ∈ records, r.Valid type ∧ r.offset ≤ inSize

/-- `PatchIPS` applies a patch exactly: each record in order, clipped to the size of the input, and
nothing of bytes that are not a patch.  It does not fault. -/
def PatchesExactly (input ips : Bytes) : Prop :=
  (∀ records, IsPatch input.length ips records →
      patchIPS input ips = .ret (some (records.foldl IPSRecord.apply input)) true) ∧
    ((∀ records, ¬IsPatch input.length ips records) → patchIPS input ips = .ret none true)

/-- The patch has a defect for the input. -/
def Defective (input ips : Bytes) : Prop :=
  ∃ type body, type ≠ .error ∧ ips = magic type ++ body ∧
    Defect type input.length (List.replicate (offsetWidth type) 0) body

theorem length_magic (type : IPSFileType) : (magic type).length = 5 := by
  cases type <;> rfl

theorem identifyMagic_eq (htype : type ≠ .error) : identifyMagic (readAt ips 5 0) = type ↔
    ∃ body, ips = magic type ++ body := by
  rw [readAt, drop_zero]
  constructor
  · intro h
    refine ⟨ips.drop 5, ?_⟩
    have hmagic : ips.take 5 = magic type := by
      unfold identifyMagic at h
      split at h
      · exact absurd h.symm htype
      · split at h
        · next heq =>
          subst h
          exact heq
        · split at h
          · next heq =>
            subst h
            exact heq
          · exact absurd h.symm htype
    rw [← hmagic, take_append_drop]
  · rintro ⟨body, rfl⟩
    have htake : (magic type ++ body).take 5 = magic type := by
      rw [← length_magic type, take_left]
    rw [htake]
    cases type with
    | ips => decide
    | ips32 => decide
    | error => exact absurd rfl htype

/-- **A patch is applied exactly unless it has a defect.** -/
theorem patchesExactly_iff (input ips : Bytes) (hinput : input ≠ []) :
    PatchesExactly input ips ↔ ¬Defective input ips := by
  by_cases hmagic : identifyMagic (readAt ips 5 0) = .error
  · have hnone : ∀ type, type ≠ .error → ∀ body, ips ≠ magic type ++ body := by
      intro type htype body h
      rw [(identifyMagic_eq htype).2 ⟨body, h⟩] at hmagic
      exact htype hmagic
    refine iff_of_true ⟨?_, fun _ => if_pos hmagic⟩ ?_
    · rintro records ⟨type, rest, htype, h, -⟩
      exact absurd (h.trans (by rw [List.append_assoc, List.append_assoc])) (hnone type htype _)
    · rintro ⟨type, body, htype, h, -⟩
      exact hnone type htype body h
  · obtain ⟨type, htype⟩ : ∃ type, identifyMagic (readAt ips 5 0) = type := ⟨_, rfl⟩
    rw [htype] at hmagic
    obtain ⟨body, hbody⟩ := (identifyMagic_eq hmagic).1 htype
    have hunique : ∀ type' body', type' ≠ .error → ips = magic type' ++ body' →
        type' = type ∧ body' = body := by
      intro type' body' htype' h
      have heq : type' = type := by rw [← htype, (identifyMagic_eq htype').2 ⟨body', h⟩]
      subst heq
      exact ⟨rfl, List.append_cancel_left (h.symm.trans hbody)⟩
    have hrun : patchIPS input ips =
        patchLoop type ips (ips.length + 1) input (List.replicate (offsetWidth type) 0) 5 := by
      rw [patchIPS, htype, if_neg hmagic, if_neg (mt List.length_eq_zero_iff.1 hinput)]
    have hdrop : ips.drop 5 = body := by rw [hbody, ← length_magic type, List.drop_left]
    have hpatch : ∀ records, IsPatch input.length ips records ↔
        WellFormed type input.length body records := by
      intro records
      rw [wellFormed_iff hmagic]
      constructor
      · rintro ⟨type', rest, htype', h, hall⟩
        rw [List.append_assoc, List.append_assoc] at h
        obtain ⟨rfl, rfl⟩ := hunique type' _ htype' h
        exact ⟨hall, rest, rfl⟩
      · rintro ⟨hall, rest, h⟩
        refine ⟨type, rest, hmagic, ?_, hall⟩
        rw [hbody, h, List.append_assoc, List.append_assoc]
    have hloop := @patchLoop_iff type ips input _ body 5 (ips.length + 1) hdrop
      (List.length_replicate (n := offsetWidth type) (a := 0)) (by rw [hbody, List.length_append]; omega)
    unfold PatchesExactly
    rw [hrun]
    simp only [hpatch]
    refine hloop.trans (not_congr ?_)
    constructor
    · exact fun h => ⟨type, body, hmagic, hbody, h⟩
    · rintro ⟨type', body', htype', h, hdefect⟩
      obtain ⟨rfl, rfl⟩ := hunique type' body' htype' h
      exact hdefect

/-- A run of nine bytes, of which the input has room for two. -/
def runPatch : Bytes := ascii "PATCH" ++ ([0, 0, 1, 0, 0, 0, 9, 7] ++ ascii "EOF")

/-- The run is cut off at the end of the input. -/
theorem patchesExactly_iff_runPatch :
    patchIPS [1, 2, 3] runPatch = .ret (some [1, 7, 7]) true ∧ PatchesExactly [1, 2, 3] runPatch := by
  refine ⟨by decide, (patchesExactly_iff _ _ (by decide)).2 ?_⟩
  rintro ⟨type, body, htype, h, hdefect⟩
  cases type with
  | error => exact htype rfl
  | ips32 => cases congrArg List.head? h
  | ips =>
    obtain rfl := List.append_cancel_left h
    have hrun : next .ips ([0, 0, 1, 0, 0, 0, 9, 7] ++ ascii "EOF") =
        .record (.run 1 9 7) (ascii "EOF") := rfl
    have hmarker : next .ips (ascii "EOF") = .marker := rfl
    obtain ⟨h, -⟩ | ⟨h, -, -, hwraps⟩ | ⟨h, -⟩ | ⟨h, -⟩ | ⟨h, -, -, hdefect⟩ := hdefect
    all_goals cases hrun.symm.trans h
    · exact absurd hwraps (by decide)
    · obtain ⟨h, -⟩ | ⟨h, -⟩ | ⟨h, -⟩ | ⟨h, -⟩ | ⟨h, -⟩ := hdefect
      all_goals cases hmarker.symm.trans h

/-- Two bytes in a record, of which the input has room for one. -/
def literalPatch : Bytes := ascii "PATCH" ++ [0, 0, 0, 0, 2, 1, 2] ++ ascii "EOF"

/-- The patch is well formed, and refused. -/
theorem not_patchesExactly_literalPatch :
    IsPatch 1 literalPatch [.literal 0 [1, 2]] ∧ patchIPS [0] literalPatch = .ret none true ∧
      ¬PatchesExactly [0] literalPatch := by
  have hpatch : IsPatch 1 literalPatch [.literal 0 [1, 2]] := by
    refine ⟨.ips, [], by decide, by decide, ?_⟩
    rw [List.forall_mem_singleton]
    exact ⟨⟨by decide, by decide, by decide, by decide⟩, by decide⟩
  have hnull : patchIPS [0] literalPatch = .ret none true := by decide
  refine ⟨hpatch, hnull, fun h => ?_⟩
  cases hnull.symm.trans (h.1 _ hpatch)

end FileSys
end NXEmu
