/-
# The files of a game container

`shader_profile_container.h`.  An NSP is a PFS0 partition and an XCI a gamecard header with an HFS0
partition of partitions, of which the one called "secure" holds the game's files.  Every count, offset
and size of these headers comes from the file, in 32 or 64 bits, and sums of them are taken modulo
2 ^ 64.  Yet every read stays within the file and within its partition, and so does every file that is
listed (`parse_safe`).

A container is the list of its bytes.  Every read of the file is left in a log, one that is made for a
partition inside an XCI with the bounds of that partition.
-/

import NXEmu.Lib.Bytes
import NXEmu.Lib.Logged

variable {Q : Unit → Prop} {bytes : Bytes} {pos a b offset : ℕ}

namespace NXEmu
namespace VideoCommon
namespace ShaderProfile

open Bytes

structure ContainerEntry where
  name : Bytes
  /-- From the start of the container file. -/
  offset : ℕ
  size : ℕ
deriving DecidableEq

/-- A read of the file: its first byte and length, and those of the partition that it is for, inside an XCI. -/
structure Access where
  offset : ℕ
  length : ℕ
  partition : Option (ℕ × ℕ)
deriving DecidableEq

/-- The programs of this file: they read, and throw a message. -/
abbrev Reads : Type → Type := Logged String Access

/-- A sum in 64 bits. -/
def add64 (a b : ℕ) : ℕ := (a + b) % 2 ^ 64

/-- A product in 64 bits. -/
def mul64 (a b : ℕ) : ℕ := a * b % 2 ^ 64

/-- A difference in 64 bits. -/
def sub64 (a b : ℕ) : ℕ := (a + 2 ^ 64 - b) % 2 ^ 64

def check (ok : Prop) [Decidable ok] (message : String) : Reads Unit :=
  if ok then pure () else .throw message

def get (bytes : Bytes) (pos count : ℕ) : Reads ℕ := do
  check (pos ≤ bytes.length ∧ count ≤ bytes.length - pos) "Container header bounds"
  pure (littleEndian ((bytes.drop pos).take count))

def bounds (offset size total : ℕ) : Reads Unit :=
  check (offset ≤ total ∧ size ≤ total - offset) "Container storage bounds"

/-- `std::string::find` of a terminator from a position on. -/
def findTerminator (bytes : Bytes) (begin : ℕ) : Option ℕ :=
  ((bytes.drop begin).findIdx? (· = 0)).map (begin + ·)

/-- `std::string::substr`. -/
def substr (bytes : Bytes) (pos count : ℕ) : Reads Bytes := do
  check (pos ≤ bytes.length) "out_of_range"
  pure ((bytes.drop pos).take count)

/-- One round of the loop of `PartitionEntries`. -/
def partitionEntry (size count stride strings : ℕ) (table : Bytes) (i : ℕ) : Reads ContainerEntry := do
  let payload := add64 (add64 16 (mul64 count stride)) strings
  let off ← get table (mul64 i stride) 8
  let length ← get table (add64 (mul64 i stride) 8) 8
  let name ← get table (add64 (mul64 i stride) 16) 4
  check (name < strings) "PFS string bounds"
  let begin := add64 (mul64 count stride) name
  match findTerminator table begin with
  | none => .throw "PFS string termination"
  | some last => do
    check (last < add64 (mul64 count stride) strings) "PFS string termination"
    bounds payload off size
    bounds (add64 payload off) length size
    let name ← substr table begin (sub64 last begin)
    pure ⟨name, add64 payload off, length⟩

/-- Files of a plaintext PFS0 or HFS0 partition of `size` bytes. -/
def partitionEntries (size : ℕ) (read : ℕ → ℕ → Reads Bytes) : Reads (List ContainerEntry) := do
  check (16 ≤ size) "Truncated partition"
  let h ← read 0 16
  let magic ← substr h 0 4
  let hfs : Bool := decide (magic = ascii "HFS0")
  check (hfs ∨ magic = ascii "PFS0") "Expected plaintext PFS0/HFS0 game container"
  let count ← get h 4 4
  let strings ← get h 8 4
  let stride := if hfs then 64 else 24
  check (count ≤ 65536 ∧ strings ≤ 16 * 1024 * 1024) "PFS metadata limit"
  bounds 16 (add64 (mul64 count stride) strings) size
  let table ← read 16 (add64 (mul64 count stride) strings)
  (List.range count).mapM (partitionEntry size count stride strings table)

/-- `in`: reads of a partition of `length` bytes from `base` on. -/
def within (read : ℕ → ℕ → Reads Bytes) (base length off n : ℕ) : Reads Bytes := do
  bounds off n length
  (read (add64 base off) n).mapLog fun access => { access with partition := some (base, length) }

/-- Files of an NSP, or of the secure partition of an XCI (where its NCAs are). -/
def containerEntries (size : ℕ) (read : ℕ → ℕ → Reads Bytes) : Reads (List ContainerEntry) := do
  check (16 ≤ size) "Truncated game container"
  let magic ← read 0 4
  if magic = ascii "PFS0" ∨ magic = ascii "HFS0" then partitionEntries size read
  else do
    check (0x200 ≤ size) "Truncated gamecard header"
    let header ← read 0x100 0x100
    let kind ← substr header 0 4
    check (kind = ascii "DXCI" ∨ kind = ascii "HEAD") "Unsupported game container"
    let root ← get header 0x30 8
    bounds root 16 size
    let partitions ← partitionEntries (sub64 size root) (within read root (sub64 size root))
    match partitions.find? fun partition => partition.name = ascii "secure" with
    | none => .throw "Gamecard secure partition missing"
    | some secure => do
      let base := add64 root secure.offset
      let files ← partitionEntries secure.size (within read base secure.size)
      pure (files.map fun file => { file with offset := add64 file.offset base })

/-- Reads of a file. -/
def readFile (file : Bytes) (offset length : ℕ) : Reads Bytes := do
  .tell ⟨offset, length, none⟩
  pure ((file.drop offset).take length)

/-! ### Safety -/

variable {size base length off n count stride strings : ℕ} {ok : Access → Prop}
  {read : ℕ → ℕ → Reads Bytes}

/-- The access reads bytes that there are, of a file of `size` bytes, and of its partition. -/
def Access.Inside (size : ℕ) (access : Access) : Prop :=
  access.offset + access.length ≤ size ∧ ∀ base length, access.partition = some (base, length) →
    base ≤ access.offset ∧ access.offset + access.length ≤ base + length ∧ base + length ≤ size

/-- The reads of a program are in order whenever they are within `size` bytes. -/
def ReadsWithin (read : ℕ → ℕ → Reads Bytes) (ok : Access → Prop) (size : ℕ) : Prop :=
  ∀ offset length, offset + length ≤ size → (read offset length).wlp ok fun _ => True

@[simp] theorem wlp_check {p : Prop} [Decidable p] {message : String} :
    (check p message).wlp ok Q ↔ (p → Q ()) := by
  unfold check
  split
  · next h => simp [h]
  · next h => simp [h]

@[simp] theorem wlp_bounds {offset total : ℕ} :
    (bounds offset size total).wlp ok Q ↔ (offset ≤ total ∧ size ≤ total - offset → Q ()) :=
  wlp_check

@[simp] theorem wlp_get {Q : ℕ → Prop} :
    (get bytes pos count).wlp ok Q ↔ (pos ≤ bytes.length ∧ count ≤ bytes.length - pos →
        Q (littleEndian ((bytes.drop pos).take count))) := by
  simp [get]

@[simp] theorem wlp_substr {Q : Bytes → Prop} :
    (substr bytes pos count).wlp ok Q ↔ (pos ≤ bytes.length → Q ((bytes.drop pos).take count)) := by
  simp [substr]

theorem add64_eq (h : a + b < 2 ^ 64) : add64 a b = a + b := Nat.mod_eq_of_lt h

theorem sub64_eq (h : b ≤ a) (ha : a < 2 ^ 64) : sub64 a b = a - b := by
  unfold sub64
  omega

/-- Two bounds in a row keep a sum of three within the partition. -/
theorem add64_le {payload : ℕ} (hsize : size < 2 ^ 64) (hoff : payload ≤ size ∧ off ≤ size - payload)
    (hlength : add64 payload off ≤ size ∧ length ≤ size - add64 payload off) :
    add64 payload off + length ≤ size := by
  rw [add64_eq (by omega)] at hlength ⊢
  omega

/-- A file that is listed is within the partition. -/
theorem wlp_partitionEntry (hsize : size < 2 ^ 64) (table : Bytes) (i : ℕ) :
    (partitionEntry size count stride strings table i).wlp ok fun file =>
      file.offset + file.size ≤ size := by
  unfold partitionEntry
  simp only [Logged.wlp_bind, wlp_get, wlp_check]
  intro _ _ _ _
  split
  · exact Logged.wlp_throw
  · simp only [Logged.wlp_bind, wlp_check, wlp_bounds, wlp_substr, Logged.wlp_pure]
    exact fun _ hoff hlength _ => add64_le hsize hoff hlength

/-- **A partition is read within its size**, and the files that it lists are within it. -/
theorem wlp_partitionEntries (hsize : size < 2 ^ 64) (hread : ReadsWithin read ok size) :
    (partitionEntries size read).wlp ok fun files => ∀ file ∈ files, file.offset + file.size ≤ size := by
  unfold partitionEntries
  simp only [Logged.wlp_bind, wlp_get, wlp_substr, wlp_check, wlp_bounds]
  intro htruncated
  refine Logged.wlp_mono (hread 0 16 (by omega)) fun h _ _ _ _ _ _ hbounds => ?_
  exact Logged.wlp_mono (hread _ _ (by omega)) fun table _ =>
    Logged.wlp_mapM fun i _ => wlp_partitionEntry hsize table i

@[simp] theorem wlp_readFile {file : Bytes} {Q : Bytes → Prop} :
    (readFile file offset length).wlp ok Q ↔ ok ⟨offset, length, none⟩ ∧ Q ((file.drop offset).take length) := by
  simp [readFile]

/-- The access is one for the partition of `length` bytes from `base` on, and reads bytes of it. -/
def Access.In (base length : ℕ) (access : Access) : Prop :=
  access.partition = some (base, length) ∧ base ≤ access.offset ∧ access.offset + access.length ≤ base + length

/-- What is read for a partition within the file is of that partition. -/
theorem readsWithin_within {file : Bytes} (hfile : file.length < 2 ^ 64) (hpart : base + length ≤ file.length) :
    ReadsWithin (within (readFile file) base length) (Access.In base length) length := by
  intro offset n h
  simp only [within, Logged.wlp_bind, wlp_bounds, Logged.wlp_mapLog, wlp_readFile, and_true]
  intro _
  show _ = _ ∧ base ≤ add64 base offset ∧ add64 base offset + n ≤ base + length
  rw [add64_eq (by omega)]
  exact ⟨rfl, by omega, by omega⟩

/-- A container as it is opened: its bytes, with a size in 64 bits. -/
structure ContainerFile where
  bytes : Bytes
  size_lt : bytes.length < 2 ^ 64

namespace ContainerFile

variable (file : ContainerFile)

/-- `PartitionEntries` of the file. -/
def partitionEntries : Reads (List ContainerEntry) :=
  ShaderProfile.partitionEntries file.bytes.length (readFile file.bytes)

/-- `ContainerEntries` of the file. -/
def containerEntries : Reads (List ContainerEntry) :=
  ShaderProfile.containerEntries file.bytes.length (readFile file.bytes)

/-- The offset of the root partition of a gamecard. -/
def root : ℕ := littleEndian ((file.bytes.drop 0x130).take 8)

/-- `PartitionEntries` of the root partition. -/
def rootEntries : Reads (List ContainerEntry) :=
  ShaderProfile.partitionEntries (sub64 file.bytes.length file.root)
    (within (readFile file.bytes) file.root (sub64 file.bytes.length file.root))

/-- The file does not start as a partition does. -/
def Card : Prop :=
  file.bytes.take 4 ≠ ascii "PFS0" ∧ file.bytes.take 4 ≠ ascii "HFS0"

/-- The partition that is opened: the first of the root's that is called "secure". -/
def IsSecure (secure : ContainerEntry) : Prop :=
  ∃ partitions, file.rootEntries.result = .ok partitions ∧
    partitions.find? (fun partition => partition.name = ascii "secure") = some secure

/-- The partitions that files are looked for in, by first byte and size: the root and the secure one. -/
def IsPartition (partition : ℕ × ℕ) : Prop :=
  partition = (file.root, file.bytes.length - file.root) ∨
    ∃ secure, file.IsSecure secure ∧ partition = (file.root + secure.offset, secure.size)

/-- The read is within the file and, if it is one for a partition, that is one of the container's and the
read is within it. -/
def InOrder (access : Access) : Prop :=
  access.Inside file.bytes.length ∧ ∀ partition, access.partition = some partition → file.IsPartition partition

/-- The reads are within the file and their partition, and so are the files that are listed. -/
def Safe (entries : Reads (List ContainerEntry)) : Prop :=
  (∀ access ∈ entries.log, file.InOrder access) ∧
    ∀ files, entries.result = .ok files → ∀ entry ∈ files, entry.offset + entry.size ≤ file.bytes.length

/-- The files are in the secure partition, which is within the file. -/
def Secure (files : List ContainerEntry) : Prop :=
  ∃ secure, file.IsSecure secure ∧ file.root + secure.offset + secure.size ≤ file.bytes.length ∧
    ∀ entry ∈ files, file.root + secure.offset ≤ entry.offset ∧
      entry.offset + entry.size ≤ file.root + secure.offset + secure.size

variable {file}

/-- A read of the file itself. -/
theorem inOrder_none (h : offset + length ≤ file.bytes.length) : file.InOrder ⟨offset, length, none⟩ :=
  ⟨⟨h, nofun⟩, nofun⟩

/-- A read for one of the partitions. -/
theorem inOrder_of_in {access : Access} (hpart : file.IsPartition (base, length))
    (hle : base + length ≤ file.bytes.length) (h : access.In base length) : file.InOrder access := by
  obtain ⟨heq, hbegin, hend⟩ := h
  refine ⟨⟨by omega, fun base' length' h' => ?_⟩, fun partition h' => ?_⟩
  · cases heq.symm.trans h'
    exact ⟨hbegin, hend, hle⟩
  · cases heq.symm.trans h'
    exact hpart

variable (file)

theorem wlp_partitionEntries : file.partitionEntries.wlp file.InOrder fun files =>
    ∀ entry ∈ files, entry.offset + entry.size ≤ file.bytes.length :=
  ShaderProfile.wlp_partitionEntries file.size_lt fun _ _ h => wlp_readFile.2 ⟨inOrder_none h, trivial⟩

/-- The root partition is read within itself, and so are the partitions that it lists. -/
theorem wlp_rootEntries (hroot : file.root ≤ file.bytes.length) :
    file.rootEntries.wlp file.InOrder fun partitions =>
      ∀ partition ∈ partitions, file.root + partition.offset + partition.size ≤ file.bytes.length := by
  have hlt := file.size_lt
  have hle : file.root + (file.bytes.length - file.root) ≤ file.bytes.length := by omega
  unfold rootEntries
  rw [sub64_eq hroot hlt]
  refine Logged.wlp_imp (Logged.wlp_mono (ShaderProfile.wlp_partitionEntries (by omega)
    (readsWithin_within hlt hle)) fun partitions h partition hmem => ?_) fun _ => inOrder_of_in (.inl rfl) hle
  have := h partition hmem
  omega

/-- The secure partition is read within itself; its files from the start of the container. -/
theorem wlp_secure {secure : ContainerEntry} (hsecure : file.IsSecure secure)
    (h : file.root + secure.offset + secure.size ≤ file.bytes.length) :
    (ShaderProfile.partitionEntries secure.size
        (within (readFile file.bytes) (add64 file.root secure.offset) secure.size)).wlp
      file.InOrder fun files => ∀ entry ∈ files,
        add64 entry.offset (add64 file.root secure.offset) =
          file.root + secure.offset + entry.offset ∧ entry.offset + entry.size ≤ secure.size := by
  have hlt := file.size_lt
  have hbase : add64 file.root secure.offset = file.root + secure.offset := add64_eq (by omega)
  rw [hbase]
  refine Logged.wlp_imp (Logged.wlp_mono (ShaderProfile.wlp_partitionEntries (by omega)
    (readsWithin_within hlt h)) fun files hfiles entry hmem => ?_) fun _ =>
      inOrder_of_in (.inr ⟨secure, hsecure, rfl⟩) h
  have hentry := hfiles entry hmem
  rw [add64_eq (by omega)]
  omega

theorem wlp_containerEntries : file.containerEntries.wlp file.InOrder fun files =>
    (∀ entry ∈ files, entry.offset + entry.size ≤ file.bytes.length) ∧ (file.Card → file.Secure files) := by
  unfold containerEntries ShaderProfile.containerEntries
  simp only [Logged.wlp_bind, wlp_check, wlp_readFile]
  refine fun htruncated => ⟨inOrder_none (by omega), ?_⟩
  split
  · next hmagic =>
    refine Logged.wlp_mono file.wlp_partitionEntries fun files h => ⟨h, fun hcard => ?_⟩
    rw [List.drop_zero] at hmagic
    exact absurd hmagic (not_or.2 hcard)
  · simp only [Logged.wlp_bind, wlp_check, wlp_readFile, wlp_substr, wlp_get, wlp_bounds]
    refine fun hheader => ⟨inOrder_none hheader, fun _ _ _ hroot => ?_⟩
    rw [List.drop_take, List.drop_drop, List.take_take] at hroot ⊢
    change file.root ≤ _ ∧ _ at hroot
    refine Logged.wlp_mono (Logged.wlp_and_result (file.wlp_rootEntries hroot.1))
      fun partitions hpartitions => ?_
    split
    · exact Logged.wlp_throw
    · next secure hfind =>
      have hsecure : file.IsSecure secure := ⟨partitions, hpartitions.2, hfind⟩
      have hinside := hpartitions.1 secure (List.mem_of_find?_eq_some hfind)
      rw [Logged.wlp_bind]
      refine Logged.wlp_mono (file.wlp_secure hsecure hinside) fun files hfiles => ?_
      rw [Logged.wlp_pure]
      have hentry : ∀ entry ∈ files.map fun file_1 : ContainerEntry =>
            { file_1 with offset := add64 file_1.offset (add64 file.root secure.offset) },
          file.root + secure.offset ≤ entry.offset ∧
            entry.offset + entry.size ≤ file.root + secure.offset + secure.size := by
        intro entry hentry
        obtain ⟨inner, hinner, rfl⟩ := List.mem_map.1 hentry
        obtain ⟨hoffset, hle⟩ := hfiles inner hinner
        show file.root + secure.offset ≤ add64 _ _ ∧ add64 _ _ + inner.size ≤ _
        rw [hoffset]
        omega
      exact ⟨fun entry hmem => Nat.le_trans (hentry entry hmem).2 hinside, fun _ =>
        ⟨secure, hsecure, hinside, hentry⟩⟩

/-- **Parsing is safe on every file**: every read is within the file and, inside an XCI, within the
partition that it is made for, the root or the first one called "secure"; every file that is listed is
within the container, and those of a card are within its secure partition. -/
theorem parse_safe : file.Safe file.partitionEntries ∧ file.Safe file.containerEntries ∧
    ∀ files, file.containerEntries.result = .ok files → file.Card → file.Secure files :=
  ⟨file.wlp_partitionEntries, ⟨file.wlp_containerEntries.1, fun files h =>
    (file.wlp_containerEntries.2 files h).1⟩, fun files h => (file.wlp_containerEntries.2 files h).2⟩

/-- An HFS0 partition of one file. -/
def hfs0 (name content : Bytes) : Bytes :=
  ascii "HFS0" ++ [1, 0, 0, 0] ++ [UInt8.ofNat (name.length + 1), 0, 0, 0] ++ List.replicate 4 0 ++
    List.replicate 8 0 ++ [UInt8.ofNat content.length] ++ List.replicate 55 0 ++ name ++ [0] ++ content

/-- A gamecard whose secure partition holds a file of three bytes. -/
def card : ContainerFile where
  bytes := List.replicate 0x100 0 ++ ascii "HEAD" ++ List.replicate 0x2D 0 ++ [2] ++
    List.replicate 0xCE 0 ++ hfs0 (ascii "secure") (hfs0 (ascii "a") [1, 2, 3])
  size_lt := by decide +kernel

/-- The card lists the file of its secure partition, and nothing is read outside. -/
theorem parse_safe_card :
    card.containerEntries.result = .ok [⟨ascii "a", 0x2A9, 3⟩] ∧ card.Card ∧
      card.Secure [⟨ascii "a", 0x2A9, 3⟩] := by
  have hresult : card.containerEntries.result = .ok [⟨ascii "a", 0x2A9, 3⟩] := by decide +kernel
  have hcard : card.Card := by
    unfold Card
    decide +kernel
  exact ⟨hresult, hcard, card.parse_safe.2.2 _ hresult hcard⟩

end ContainerFile

end ShaderProfile
end VideoCommon
end NXEmu
