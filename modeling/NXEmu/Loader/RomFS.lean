/-
# Extracting a RomFS

`ExtractRomFS` of `src/nxemu-loader/core/file_sys/romfs.cpp`, with `ProcessDirectory`, `ProcessFile`
and `GetEntry`.  The directories and files of a RomFS are entries of two tables, linked by their
offsets.  The links are followed as the file has them: nothing marks the entries that were seen, and
an offset outside a table is taken for an entry of zeros, whose links lead to offset 0 and not to
`ROMFS_ENTRY_EMPTY`.

Each call and each round of a loop takes one unit of fuel.  A read outside a table stops the run.
-/

import Mathlib
import NXEmu.Lib.Acyclic
import NXEmu.Lib.Bytes

namespace NXEmu.FileSys.RomFS

open Bytes

/-- The link that leads nowhere. -/
def ROMFS_ENTRY_EMPTY : ℕ := 0xFFFFFFFF

/-- Why a run did not return. -/
inductive Stop where
  /-- A byte was read outside a table. -/
  | outside
  /-- The fuel is used up. -/
  | fuel
deriving DecidableEq, Repr

/-- What is read here of a `RomFSHeader`. -/
structure RomFSHeader where
  headerSize : ℕ
  directoryMetaOffset : ℕ
  directoryMetaSize : ℕ
  fileMetaOffset : ℕ
  fileMetaSize : ℕ
  dataOffset : ℕ

/-- `sizeof(RomFSHeader)`. -/
def headerBytes : ℕ := 0x50

/-- `DirectoryEntry`. -/
structure DirectoryEntry where
  parent : ℕ
  sibling : ℕ
  childDir : ℕ
  childFile : ℕ
  hash : ℕ
  nameLength : ℕ

/-- `FileEntry`. -/
structure FileEntry where
  parent : ℕ
  sibling : ℕ
  offset : ℕ
  size : ℕ
  hash : ℕ
  nameLength : ℕ

/-- The little-endian field of so many bytes at a place. -/
def field (bytes : Bytes) (place width : ℕ) : ℕ := littleEndian ((bytes.drop place).take width)

/-- The header with the given bytes. -/
def readHeader (bytes : Bytes) : RomFSHeader where
  headerSize := field bytes 0x00 8
  directoryMetaOffset := field bytes 0x18 8
  directoryMetaSize := field bytes 0x20 8
  fileMetaOffset := field bytes 0x38 8
  fileMetaSize := field bytes 0x40 8
  dataOffset := field bytes 0x48 8

/-- How the entries of a table are read: their size, the entry with the given bytes, the entry of
zeros and the length of the name that follows an entry. -/
structure EntryType (α : Type) where
  size : ℕ
  parse : Bytes → α
  empty : α
  nameLength : α → ℕ

/-- The entries of the directory table. -/
def directoryEntryType : EntryType DirectoryEntry where
  size := 0x18
  parse bytes := ⟨field bytes 0x00 4, field bytes 0x04 4, field bytes 0x08 4, field bytes 0x0C 4,
    field bytes 0x10 4, field bytes 0x14 4⟩
  empty := ⟨0, 0, 0, 0, 0, 0⟩
  nameLength entry := entry.nameLength

/-- The entries of the file table. -/
def fileEntryType : EntryType FileEntry where
  size := 0x20
  parse bytes := ⟨field bytes 0x00 4, field bytes 0x04 4, field bytes 0x08 8, field bytes 0x10 8,
    field bytes 0x18 4, field bytes 0x1C 4⟩
  empty := ⟨0, 0, 0, 0, 0, 0⟩
  nameLength entry := entry.nameLength

/-- `RomFSTraversalContext`. -/
structure RomFSTraversalContext where
  header : RomFSHeader
  directoryMeta : Bytes
  fileMeta : Bytes

/-- An `OffsetVfsFile` of the file that is extracted. -/
structure OffsetVfsFile where
  size : ℕ
  offset : ℕ
  name : Bytes

/-- `VectorVfsDirectory`. -/
inductive VectorVfsDirectory where
  | mk (files : List OffsetVfsFile) (dirs : List VectorVfsDirectory) (name : Bytes)

namespace VectorVfsDirectory

/-- `GetName`. -/
def getName : VectorVfsDirectory → Bytes
  | mk _ _ name => name

/-- `AddFile`. -/
def addFile : VectorVfsDirectory → OffsetVfsFile → VectorVfsDirectory
  | mk files dirs name, file => mk (files ++ [file]) dirs name

/-- `AddDirectory`. -/
def addDirectory : VectorVfsDirectory → VectorVfsDirectory → VectorVfsDirectory
  | mk files dirs name, dir => mk files (dirs ++ [dir]) name

/-- `GetSubdirectory`. -/
def getSubdirectory : VectorVfsDirectory → Bytes → Option VectorVfsDirectory
  | mk _ dirs _, name => dirs.find? fun dir => dir.getName == name

end VectorVfsDirectory

/-- The bytes of a table at a place; a place outside it must not be read. -/
def readSpan (table : Bytes) (start length : ℕ) : Except Stop Bytes :=
  if start + length ≤ table.length then .ok ((table.drop start).take length) else .error .outside

/-- `GetEntry`. -/
def getEntry {α : Type} (type : EntryType α) (table : Bytes) (offset : ℕ) :
    Except Stop (α × Bytes) :=
  let entryEnd := offset + type.size
  if entryEnd > table.length then .ok (type.empty, [])
  else do
    let bytes ← readSpan table offset type.size
    let entry := type.parse bytes
    let nameLength := min (entryEnd + type.nameLength entry) table.length - entryEnd
    let name ← readSpan table entryEnd nameLength
    .ok (entry, name)

/-- `ProcessFile`: the files of a directory, one sibling after the other. -/
def processFile (ctx : RomFSTraversalContext) :
    ℕ → ℕ → VectorVfsDirectory → Except Stop VectorVfsDirectory
  | 0, _, _ => .error .fuel
  | fuel + 1, thisFileOffset, parent =>
      if thisFileOffset ≠ ROMFS_ENTRY_EMPTY then do
        let entry ← getEntry fileEntryType ctx.fileMeta thisFileOffset
        processFile ctx fuel entry.1.sibling (parent.addFile
          ⟨entry.1.size, (entry.1.offset + ctx.header.dataOffset) % 2 ^ 64, entry.2⟩)
      else .ok parent

/-- `ProcessDirectory`: the files and the directories in a directory, one sibling after the other. -/
def processDirectory (ctx : RomFSTraversalContext) :
    ℕ → ℕ → VectorVfsDirectory → Except Stop VectorVfsDirectory
  | 0, _, _ => .error .fuel
  | fuel + 1, thisDirOffset, parent =>
      if thisDirOffset ≠ ROMFS_ENTRY_EMPTY then do
        let entry ← getEntry directoryEntryType ctx.directoryMeta thisDirOffset
        let current := .mk [] [] entry.2
        let current ← (
          if entry.1.childFile ≠ ROMFS_ENTRY_EMPTY then processFile ctx fuel entry.1.childFile current
          else .ok current)
        let current ← (
          if entry.1.childDir ≠ ROMFS_ENTRY_EMPTY then
            processDirectory ctx fuel entry.1.childDir current
          else .ok current)
        processDirectory ctx fuel entry.1.sibling (parent.addDirectory current)
      else .ok parent

/-- `VfsFile::ReadBytes`: no more than the file has. -/
def readBytes (file : Bytes) (size offset : ℕ) : Bytes := (file.drop offset).take size

/-- The checks of the header and the tables that are read before the traversal. -/
def openContext (file : Bytes) : Option RomFSTraversalContext :=
  let bytes := readBytes file headerBytes 0
  let header := readHeader bytes
  if bytes.length ≠ headerBytes then none
  else if header.headerSize ≠ headerBytes then none
  else some {
    header := header
    directoryMeta := readBytes file header.directoryMetaSize header.directoryMetaOffset
    fileMeta := readBytes file header.fileMetaSize header.fileMetaOffset }

/-- `ExtractRomFS`; without a file there is an empty directory. -/
def extractRomFS (fuel : ℕ) : Option Bytes → Except Stop (Option VectorVfsDirectory)
  | none => .ok (some (.mk [] [] []))
  | some file =>
      match openContext file with
      | none => .ok none
      | some ctx => do
          let rootContainer ← processDirectory ctx fuel 0 (.mk [] [] [])
          .ok (rootContainer.getSubdirectory [])

/-! ## The links -/

/-- The entry of a table at an offset, the entry of zeros outside the table. -/
def entryAt {α : Type} (type : EntryType α) (table : Bytes) (offset : ℕ) : α :=
  if offset + type.size > table.length then type.empty
  else type.parse ((table.drop offset).take type.size)

/-- A directory or a file, by its offset. -/
inductive Node where
  | dir (offset : ℕ)
  | file (offset : ℕ)

/-- Where the links of an entry lead to. -/
inductive Links (ctx : RomFSTraversalContext) : Node → Node → Prop
  | nextFile {offset sibling : ℕ} :
      (entryAt fileEntryType ctx.fileMeta offset).sibling = sibling →
      sibling ≠ ROMFS_ENTRY_EMPTY → Links ctx (.file offset) (.file sibling)
  | childFile {offset child : ℕ} :
      (entryAt directoryEntryType ctx.directoryMeta offset).childFile = child →
      child ≠ ROMFS_ENTRY_EMPTY → Links ctx (.dir offset) (.file child)
  | childDir {offset child : ℕ} :
      (entryAt directoryEntryType ctx.directoryMeta offset).childDir = child →
      child ≠ ROMFS_ENTRY_EMPTY → Links ctx (.dir offset) (.dir child)
  | nextDir {offset sibling : ℕ} :
      (entryAt directoryEntryType ctx.directoryMeta offset).sibling = sibling →
      sibling ≠ ROMFS_ENTRY_EMPTY → Links ctx (.dir offset) (.dir sibling)

section Traversal

variable {ctx : RomFSTraversalContext} {fuel offset : ℕ} {parent result : VectorVfsDirectory}

/-- **Every entry is read inside its table.** -/
theorem getEntry_eq {α : Type} (type : EntryType α) (table : Bytes) (offset : ℕ) :
    ∃ name, getEntry type table offset = .ok (entryAt type table offset, name) := by
  unfold getEntry entryAt
  by_cases hout : offset + type.size > table.length
  · exact ⟨[], by simp only [if_pos hout]⟩
  · have hentry : readSpan table offset type.size = .ok ((table.drop offset).take type.size) :=
      if_pos (Nat.le_of_not_gt hout)
    simp only [if_neg hout, hentry, bind, Except.bind]
    rw [readSpan, if_pos (by omega)]
    exact ⟨_, rfl⟩

section

variable (ctx : RomFSTraversalContext) (fuel : ℕ) (parent : VectorVfsDirectory)

/-- A round of `ProcessFile`. -/
theorem processFile_succ
    (hoffset : offset ≠ ROMFS_ENTRY_EMPTY) : ∃ parent', processFile ctx (fuel + 1) offset parent =
      processFile ctx fuel (entryAt fileEntryType ctx.fileMeta offset).sibling parent' := by
  obtain ⟨name, hentry⟩ := getEntry_eq fileEntryType ctx.fileMeta offset
  rw [processFile, if_pos hoffset, hentry]
  exact ⟨_, rfl⟩

/-- A round of `ProcessDirectory`. -/
theorem processDirectory_succ {entry : DirectoryEntry}
    (hentry : entryAt directoryEntryType ctx.directoryMeta offset = entry)
    (hoffset : offset ≠ ROMFS_ENTRY_EMPTY) : ∃ name, processDirectory ctx (fuel + 1) offset parent =
      ((if entry.childFile ≠ ROMFS_ENTRY_EMPTY then
          processFile ctx fuel entry.childFile (.mk [] [] name) else .ok (.mk [] [] name)) >>=
        fun current =>
          (if entry.childDir ≠ ROMFS_ENTRY_EMPTY then
            processDirectory ctx fuel entry.childDir current else .ok current) >>=
          fun current => processDirectory ctx fuel entry.sibling (parent.addDirectory current)) := by
  obtain ⟨name, hget⟩ := getEntry_eq directoryEntryType ctx.directoryMeta offset
  rw [processDirectory, if_pos hoffset, hget, hentry]
  exact ⟨name, rfl⟩

end

theorem ok_bind {α β : Type} (a : α) (f : α → Except Stop β) : (Except.ok a >>= f) = f a := rfl

/-- What a run returned before it went on. -/
theorem bind_eq_ok {α β : Type} {x : Except Stop α} {f : α → Except Stop β} {b : β}
    (h : (x >>= f) = .ok b) : ∃ a, x = .ok a ∧ f a = .ok b := by
  cases x with
  | error stop => cases h
  | ok a => exact ⟨a, rfl, h⟩

/-- Nothing is read outside a table by two runs one after the other if nothing is by either. -/
theorem bind_ne_outside {α β : Type} {x : Except Stop α} {f : α → Except Stop β}
    (hx : x ≠ .error .outside) (hf : ∀ a, f a ≠ .error .outside) :
    (x >>= f) ≠ .error .outside := by
  cases x with
  | error stop =>
    intro h
    cases h
    exact hx rfl
  | ok a => exact hf a

section

variable (ctx : RomFSTraversalContext) (fuel offset : ℕ) (parent : VectorVfsDirectory)

theorem processFile_ne_outside : processFile ctx fuel offset parent ≠ .error .outside := by
  induction fuel generalizing offset parent with
  | zero => simp [processFile]
  | succ fuel ih =>
    by_cases hoffset : offset = ROMFS_ENTRY_EMPTY
    · simp [processFile, hoffset]
    · obtain ⟨parent', hstep⟩ := processFile_succ ctx fuel parent hoffset
      rw [hstep]
      exact ih _ _

/-- **Nothing is read outside the tables**, however long the traversal goes on. -/
theorem processDirectory_ne_outside : processDirectory ctx fuel offset parent ≠ .error .outside := by
  induction fuel generalizing offset parent with
  | zero => simp [processDirectory]
  | succ fuel ih =>
    by_cases hoffset : offset = ROMFS_ENTRY_EMPTY
    · simp [processDirectory, hoffset]
    · obtain ⟨name, hstep⟩ := processDirectory_succ ctx fuel parent rfl hoffset
      rw [hstep]
      refine bind_ne_outside ?_ fun current => bind_ne_outside ?_ fun current => ih _ _
      · split
        · exact processFile_ne_outside ctx fuel _ _
        · simp
      · split
        · exact ih _ _
        · simp

end

/-- The files from which the traversal comes to an end are accessible. -/
theorem acc_of_processFile (h : processFile ctx fuel offset parent = .ok result)
    (hoffset : offset ≠ ROMFS_ENTRY_EMPTY) : Acc (flip (Links ctx)) (.file offset) := by
  induction fuel generalizing offset parent with
  | zero => cases h
  | succ fuel ih =>
    obtain ⟨parent', hstep⟩ := processFile_succ ctx fuel parent hoffset
    rw [hstep] at h
    refine Acc.intro _ fun node hlink => ?_
    cases hlink with
    | nextFile hsibling hne =>
      subst hsibling
      exact ih h hne

/-- The directories from which the traversal comes to an end are accessible. -/
theorem acc_of_processDirectory (h : processDirectory ctx fuel offset parent = .ok result)
    (hoffset : offset ≠ ROMFS_ENTRY_EMPTY) : Acc (flip (Links ctx)) (.dir offset) := by
  induction fuel generalizing offset parent result with
  | zero => cases h
  | succ fuel ih =>
    obtain ⟨name, hstep⟩ :=
      processDirectory_succ ctx fuel parent rfl hoffset
    rw [hstep] at h
    obtain ⟨withFiles, hfiles, h⟩ := bind_eq_ok h
    obtain ⟨current, hdirs, hnext⟩ := bind_eq_ok h
    refine Acc.intro _ fun node hlink => ?_
    cases hlink with
    | childFile hchild hne =>
      subst hchild
      rw [if_pos hne] at hfiles
      exact acc_of_processFile hfiles hne
    | childDir hchild hne =>
      subst hchild
      rw [if_pos hne] at hdirs
      exact ih hdirs hne
    | nextDir hsibling hne =>
      subst hsibling
      exact ih hnext hne

/-- From an accessible file the traversal comes to an end. -/
theorem exists_processFile {node : Node} (h : Acc (flip (Links ctx)) node) :
    ∀ offset, node = .file offset → ∃ least, ∀ fuel ≥ least, ∀ parent, ∃ result,
      processFile ctx fuel offset parent = .ok result := by
  induction h with
  | intro node _ ih =>
    rintro offset rfl
    have hnext : ∃ least, ∀ fuel ≥ least, ∀ parent, ∃ result,
        processFile ctx fuel (entryAt fileEntryType ctx.fileMeta offset).sibling parent = .ok result := by
      by_cases hempty : (entryAt fileEntryType ctx.fileMeta offset).sibling = ROMFS_ENTRY_EMPTY
      · refine ⟨1, fun fuel hfuel parent => ⟨parent, ?_⟩⟩
        obtain ⟨n, rfl⟩ := Nat.exists_eq_add_of_le' hfuel
        rw [processFile, if_neg (not_not.2 hempty)]
      · exact ih _ (.nextFile rfl hempty) _ rfl
    obtain ⟨least, hleast⟩ := hnext
    refine ⟨least + 1, fun fuel hfuel parent => ?_⟩
    obtain ⟨n, rfl⟩ := Nat.exists_eq_add_of_le' (Nat.le_of_add_left_le hfuel)
    by_cases hoffset : offset = ROMFS_ENTRY_EMPTY
    · exact ⟨parent, by rw [processFile, if_neg (not_not.2 hoffset)]⟩
    · obtain ⟨parent', hstep⟩ := processFile_succ ctx n parent hoffset
      rw [hstep]
      exact hleast n (by omega) parent'

/-- **From an accessible directory the traversal comes to an end.** -/
theorem exists_processDirectory {node : Node} (h : Acc (flip (Links ctx)) node) :
    ∀ offset, node = .dir offset → ∃ least, ∀ fuel ≥ least, ∀ parent, ∃ result,
      processDirectory ctx fuel offset parent = .ok result := by
  induction h with
  | intro node hacc ih =>
    rintro offset rfl
    -- each of the three links of the entry has a least fuel
    have hfiles : ∃ least, ∀ fuel ≥ least, ∀ current, ∃ result,
        (if (entryAt directoryEntryType ctx.directoryMeta offset).childFile ≠ ROMFS_ENTRY_EMPTY then
          processFile ctx fuel (entryAt directoryEntryType ctx.directoryMeta offset).childFile current
        else .ok current) = .ok result := by
      split
      next hne => exact exists_processFile (hacc _ (.childFile rfl hne)) _ rfl
      next => exact ⟨0, fun _ _ current => ⟨current, rfl⟩⟩
    have hdirs : ∃ least, ∀ fuel ≥ least, ∀ current, ∃ result,
        (if (entryAt directoryEntryType ctx.directoryMeta offset).childDir ≠ ROMFS_ENTRY_EMPTY then
          processDirectory ctx fuel
            (entryAt directoryEntryType ctx.directoryMeta offset).childDir current
        else .ok current) = .ok result := by
      split
      next hne => exact ih _ (.childDir rfl hne) _ rfl
      next => exact ⟨0, fun _ _ current => ⟨current, rfl⟩⟩
    have hnext : ∃ least, ∀ fuel ≥ least, ∀ parent, ∃ result,
        processDirectory ctx fuel (entryAt directoryEntryType ctx.directoryMeta offset).sibling
          parent = .ok result := by
      by_cases hempty :
          (entryAt directoryEntryType ctx.directoryMeta offset).sibling = ROMFS_ENTRY_EMPTY
      · refine ⟨1, fun fuel hfuel parent => ⟨parent, ?_⟩⟩
        obtain ⟨n, rfl⟩ := Nat.exists_eq_add_of_le' hfuel
        rw [processDirectory, if_neg (not_not.2 hempty)]
      · exact ih _ (.nextDir rfl hempty) _ rfl
    obtain ⟨least₁, h₁⟩ := hfiles
    obtain ⟨least₂, h₂⟩ := hdirs
    obtain ⟨least₃, h₃⟩ := hnext
    refine ⟨max least₁ (max least₂ least₃) + 1, fun fuel hfuel parent => ?_⟩
    obtain ⟨n, rfl⟩ := Nat.exists_eq_add_of_le' (Nat.le_of_add_left_le hfuel)
    by_cases hoffset : offset = ROMFS_ENTRY_EMPTY
    · exact ⟨parent, by rw [processDirectory, if_neg (not_not.2 hoffset)]⟩
    · obtain ⟨name, hstep⟩ :=
        processDirectory_succ ctx n parent rfl hoffset
      obtain ⟨withFiles, hfiles⟩ := h₁ n (by omega) (.mk [] [] name)
      obtain ⟨current, hdirs⟩ := h₂ n (by omega) withFiles
      rw [hstep, hfiles, ok_bind, hdirs, ok_bind]
      exact h₃ n (by omega) _

end Traversal

/-! ## When the traversal comes to an end -/

/-- Every link is an offset of 32 bits. -/
theorem field_lt (bytes : Bytes) (place : ℕ) : field bytes place 4 < 2 ^ 32 := by
  refine Nat.lt_of_lt_of_le (littleEndian_lt _) ?_
  calc 256 ^ ((bytes.drop place).take 4).length ≤ 256 ^ 4 :=
        Nat.pow_le_pow_right (by decide) (List.length_take_le _ _)
    _ = 2 ^ 32 := by decide

/-- The offset of a directory or a file. -/
def Node.offset : Node → ℕ
  | .dir offset => offset
  | .file offset => offset

theorem Links.offset_lt {ctx : RomFSTraversalContext} {a b : Node} (h : Links ctx a b) :
    b.offset < 2 ^ 32 := by
  cases h with
  | nextFile h | childFile h | childDir h | nextDir h =>
    subst h
    unfold entryAt
    split
    · exact Nat.pow_pos (by decide)
    · exact field_lt _ _

/-- Only finitely many entries are reached. -/
theorem finite_reached (ctx : RomFSTraversalContext) :
    {node | Relation.ReflTransGen (Links ctx) (.dir 0) node}.Finite := by
  have hfin := ((Set.finite_Iio (2 ^ 32)).image Node.dir).union
    ((Set.finite_Iio (2 ^ 32)).image Node.file)
  refine hfin.subset fun node hnode => ?_
  have hlt : node.offset < 2 ^ 32 := by
    cases hnode with
    | refl => exact Nat.pow_pos (by decide)
    | tail _ hlink => exact hlink.offset_lt
  cases node with
  | dir offset => exact .inl ⟨offset, hlt, rfl⟩
  | file offset => exact .inr ⟨offset, hlt, rfl⟩

/-- The traversal comes to an end, and nothing is ever read outside a table. -/
structure Extracts (file : Option Bytes) : Prop where
  terminates : ∃ fuel result, extractRomFS fuel file = .ok result
  inside : ∀ fuel, extractRomFS fuel file ≠ .error .outside

/-- No entry that is reached from the directory at offset 0 is reached from itself. -/
def LinksEnd (ctx : RomFSTraversalContext) : Prop :=
  ∀ node, Relation.ReflTransGen (Links ctx) (.dir 0) node →
    ¬ Relation.TransGen (Links ctx) node node

theorem extractRomFS_ne_outside (fuel : ℕ) (file : Option Bytes) :
    extractRomFS fuel file ≠ .error .outside := by
  unfold extractRomFS
  split
  · simp
  · split
    · simp
    · exact bind_ne_outside (processDirectory_ne_outside _ _ _ _) fun _ => by simp

/-- **The extraction comes to an end** exactly if the header is refused or no cycle of links is
reached, and it reads inside the tables in any case. -/
theorem extracts_iff (file : Option Bytes) :
    Extracts file ↔ ∀ bytes ctx, file = some bytes → openContext bytes = some ctx → LinksEnd ctx := by
  have hroot : (0 : ℕ) ≠ ROMFS_ENTRY_EMPTY := by decide
  constructor
  · rintro ⟨⟨fuel, result, hrun⟩, -⟩ bytes ctx rfl hctx
    simp only [extractRomFS, hctx] at hrun
    obtain ⟨root, hroot', -⟩ := bind_eq_ok hrun
    exact (acc_iff_acyclic (finite_reached ctx)).1 (acc_of_processDirectory hroot' hroot)
  · intro h
    refine ⟨?_, fun fuel => extractRomFS_ne_outside fuel file⟩
    cases file with
    | none => exact ⟨0, _, rfl⟩
    | some bytes =>
      cases hctx : openContext bytes with
      | none => exact ⟨0, none, by simp only [extractRomFS, hctx]⟩
      | some ctx =>
        have hacc := (acc_iff_acyclic (finite_reached ctx)).2 (h bytes ctx rfl hctx)
        obtain ⟨least, hleast⟩ := exists_processDirectory hacc 0 rfl
        obtain ⟨root, hrun⟩ := hleast least le_rfl (.mk [] [] [])
        exact ⟨least, root.getSubdirectory [], by simp only [extractRomFS, hctx, hrun]; rfl⟩

/-- A header alone: its tables have no bytes. -/
def headerAlone : Bytes := UInt8.ofNat headerBytes :: List.replicate (headerBytes - 1) 0

/-- Without tables the first directory is an entry of zeros.  Its first file is the one at offset 0,
which is an entry of zeros again and comes after itself. -/
theorem not_extracts_headerAlone : ¬ ∀ file, Extracts file := by
  intro hall
  obtain ⟨⟨fuel, result, hrun⟩, -⟩ := hall (some headerAlone)
  have hctx : openContext headerAlone = some ⟨readHeader headerAlone, [], []⟩ := rfl
  simp only [extractRomFS, hctx] at hrun
  obtain ⟨root, hdir, -⟩ := bind_eq_ok hrun
  have hfile : ∀ fuel parent,
      processFile ⟨readHeader headerAlone, [], []⟩ fuel 0 parent = .error .fuel := by
    intro fuel
    induction fuel with
    | zero => exact fun _ => rfl
    | succ fuel ih => exact fun _ => ih _
  cases fuel with
  | zero => cases hdir
  | succ fuel =>
    obtain ⟨name, hstep⟩ := processDirectory_succ ⟨readHeader headerAlone, [], []⟩ fuel (.mk [] [] [])
      (show entryAt directoryEntryType [] 0 = ⟨0, 0, 0, 0, 0, 0⟩ from rfl) (by decide)
    rw [hstep, if_pos (by decide)] at hdir
    obtain ⟨current, hfiles, -⟩ := bind_eq_ok hdir
    exact absurd ((hfile fuel _).symm.trans hfiles) (by simp)

end NXEmu.FileSys.RomFS
