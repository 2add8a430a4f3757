/-
# Exact lookup in bucket trees

`src/nxemu-loader/core/file_sys/fssystem/fssystem_bucket_tree.{h,cpp}`: the count of entry sets is
rounded up with 32 bits.  When the rounding overflows the tree has no entry set, and nothing is found;
`exact_iff` has that this is the only way for lookup to fail.
-/

import NXEmu.Loader.BucketTreeVisitor

namespace NXEmu
namespace FileSys

section Exact

variable {nodeSize entrySize : ℕ} {t : Table} {nodeStorage entryStorage : Storage}
  {virtualAddress : ℤ} {entry : ℕ} (ha : Admitted nodeSize entrySize)
  (h : t.LaidOut nodeStorage entryStorage nodeSize entrySize)

/-- Lookup in a tree is exact for a table. -/
structure Table.ExactIn (t : Table) (tree : BucketTree) (entryStorage : Storage)
    (nodeSize entrySize : ℕ) : Prop where
  start : tree.startOffset = t.offsets 0
  stop : tree.endOffset = t.endOffset
  find : ∀ virtualAddress, tree.startOffset ≤ virtualAddress → virtualAddress < tree.endOffset →
    ∃ entry, t.LastAt virtualAddress entry ∧
      tree.find virtualAddress = .ok (t.visitor entryStorage nodeSize entrySize entry)
  fails : ∀ virtualAddress, ¬(tree.startOffset ≤ virtualAddress ∧ virtualAddress < tree.endOffset) →
    ∃ result, tree.find virtualAddress = .error result
  nexts : ∀ entry fuel, entry < t.count → t.count ≤ fuel →
    Visitor.nexts tree fuel (t.visitor entryStorage nodeSize entrySize entry) =
      .ok ((List.range' (entry + 1) (t.count - (entry + 1))).map
        (t.visitor entryStorage nodeSize entrySize))
  previouses : ∀ entry fuel, entry < t.count → t.count ≤ fuel →
    Visitor.previouses tree fuel (t.visitor entryStorage nodeSize entrySize entry) =
      .ok ((List.range entry).reverse.map (t.visitor entryStorage nodeSize entrySize))
  last : ∀ entry, entry + 1 = t.count →
    (t.visitor entryStorage nodeSize entrySize entry).moveNext tree = .error .outOfRange
  first : (t.visitor entryStorage nodeSize entrySize 0).movePrevious tree = .error .outOfRange
  sets : ∀ virtualAddress nodeIndex, (tree.findEntrySetWithBuffer virtualAddress nodeIndex).toOption =
    (tree.findEntrySetWithoutBuffer virtualAddress nodeIndex).toOption
  sets_above : ∀ virtualAddress (node : ℕ), tree.isExistL2 → node < getCount tree.nodeL1 →
    getArray tree.nodeL1 node ≤ virtualAddress → tree.findEntrySetWithBuffer virtualAddress node =
      tree.findEntrySetWithoutBuffer virtualAddress node
  entries : ∀ virtualAddress entrySetIndex, tree.findEntryWithBuffer virtualAddress entrySetIndex =
    tree.findEntryWithoutBuffer virtualAddress entrySetIndex

/-- **Lookup is exact**: the tree that `Initialize` makes of the storages. -/
def Table.Exact (t : Table) (nodeStorage entryStorage : Storage) (nodeSize entrySize : ℕ) : Prop :=
  ∃ tree, BucketTree.initializeTree nodeStorage entryStorage nodeSize entrySize t.count = .ok tree ∧
    t.ExactIn tree entryStorage nodeSize entrySize

namespace Table.LaidOut

include ha h

theorem searches_above {node : ℕ} (hexist : perNode nodeSize < t.setCount (perSet nodeSize entrySize))
    (hnode : node < getCount (nodeStorage.read nodeSize 0))
    (hle : getArray (nodeStorage.read nodeSize 0) node ≤ virtualAddress) :
    (t.tree nodeStorage entryStorage nodeSize entrySize).findEntrySetWithBuffer virtualAddress node =
      (t.tree nodeStorage entryStorage nodeSize entrySize).findEntrySetWithoutBuffer virtualAddress node := by
  have hmax := ha.max
  have hmin := ha.min
  obtain ⟨nodes, hnodes⟩ := h.nodes hexist
  rw [getCount_read ha, hnodes.count] at hnode
  have hlt : node < nodes := Int.ofNat_lt.1 hnode
  rw [getArray_read ha (hlt.trans_le hnodes.le), hnodes.starts node hlt] at hle
  obtain ⟨set, hset, -⟩ := @findEntrySet_of_le _ _ _ _ entryStorage _ ha _ hnodes _ hlt hle
  unfold BucketTree.findEntrySet at hset
  rw [if_pos (by unfold pooledBufferSize Table.tree; dsimp only; omega)] at hset
  have hboth := @findEntrySet_buffers (t.tree nodeStorage entryStorage nodeSize entrySize)
    virtualAddress (by show (16 : ℤ) ≤ nodeSize; omega) node
  rw [hset] at hboth ⊢
  cases hwithout : (t.tree nodeStorage entryStorage nodeSize entrySize).findEntrySetWithoutBuffer
      virtualAddress node with
  | error result =>
    rw [hwithout] at hboth
    cases hboth
  | ok found =>
    rw [hwithout] at hboth
    exact congrArg Except.ok (Option.some.inj hboth)

theorem exact_of_le (hcount : t.count + perSet nodeSize entrySize ≤ 2 ^ 31) :
    t.Exact nodeStorage entryStorage nodeSize entrySize := by
  have hstart : t.setStart (perSet nodeSize entrySize) 0 = t.offsets 0 := by
    rw [setStart, Nat.zero_mul]
  have hnode := ha.node
  refine ⟨_, initializeTree_eq ha h hcount, hstart, rfl, fun va hle hlt => ?_, fun va hout => ?_,
    fun entry fuel hentry hfuel => nexts_eq ha h fuel hentry (by omega),
    fun entry fuel hentry hfuel => previouses_eq ha h fuel hentry (by omega),
    fun entry hentry => moveNext_last ha hentry, movePrevious_first ha,
    fun va nodeIndex => findEntrySet_buffers va (by show (16 : ℤ) ≤ nodeSize; omega) nodeIndex,
    fun va node hexist hlt hle => searches_above ha h (Int.ofNat_lt.1 hexist) hlt hle,
    fun va set => findEntry_buffers va (by exact Int.ofNat_le.2 ha.entry)
      (by exact Int.ofNat_le.2 ha.node) set⟩
  · exact find_eq ha h (hstart.symm.trans_le hle) hlt
  · exact find_error ha h fun hin => hout ⟨hstart.trans_le hin.1, hin.2⟩

end Table.LaidOut

theorem eq_ok_of_ite {α : Type} {p : Prop} [Decidable p] {result : Result} {a : Except Result α}
    {x : α} (hok : (if p then a else .error result) = .ok x) : a = .ok x := by
  split at hok
  · exact hok
  · exact absurd hok error_ne_ok

theorem initializeTree_entrySetCount {nodeSize entrySize entryCount : ℤ} {tree : BucketTree}
    (htree : BucketTree.initializeTree nodeStorage entryStorage nodeSize entrySize entryCount =
      .ok tree) : tree.entrySetCount = getEntrySetCount nodeSize entrySize entryCount := by
  unfold BucketTree.initializeTree at htree
  dsimp only at htree
  rw [rUnless_bind] at htree
  replace htree := eq_ok_of_ite htree
  cases hverify : ((nodeStorage.read nodeSize 0).header 0).verify 0 nodeSize 8 with
  | error result =>
    rw [hverify] at htree
    exact absurd htree error_ne_ok
  | ok =>
    rw [hverify] at htree
    change (rUnless _ _ >>= _) = _ at htree
    rw [rUnless_bind, rUnless_bind] at htree
    cases eq_ok_of_ite (eq_ok_of_ite htree)
    rfl

/-- Without entry sets nothing is found. -/
theorem find_of_entrySetCount_nonpos {tree : BucketTree} (hcount : tree.entrySetCount ≤ 0)
    {v : Visitor} : tree.find virtualAddress ≠ .ok v := by
  intro hfind
  unfold BucketTree.find at hfind
  rw [rUnless_bind, rUnless_bind, rUnless_bind] at hfind
  replace hfind := eq_ok_of_ite (eq_ok_of_ite (eq_ok_of_ite hfind))
  cases hset : tree.findEntrySetIndex virtualAddress with
  | error result =>
    rw [hset] at hfind
    exact error_ne_ok hfind
  | ok set =>
    rw [hset] at hfind
    change (rUnless _ _ >>= _) = _ at hfind
    rw [rUnless_bind, if_neg (by omega)] at hfind
    exact error_ne_ok hfind

include ha

theorem not_exact_of_lt (hcount : 2 ^ 31 < t.count + perSet nodeSize entrySize) :
    ¬t.Exact nodeStorage entryStorage nodeSize entrySize := by
  rintro ⟨tree, htree, hexact⟩
  have hsets : tree.entrySetCount ≤ 0 := by
    rw [initializeTree_entrySetCount htree]
    exact ha.getEntrySetCount_overflow t.bound hcount
  obtain ⟨entry, -, hfind⟩ := hexact.find (t.offsets 0) hexact.start.le
    (lt_of_lt_of_eq (t.last 0 t.pos) hexact.stop.symm)
  exact find_of_entrySetCount_nonpos hsets hfind

end Exact

/-! ### Tables with an entry at every offset -/

/-- The storage of so many words. -/
def wordStorage (words : ℤ → BitVec 64) : Storage := fun i =>
  (words (i / 8)).extractLsb' (8 * (i % 8).toNat) 8

theorem wordStorage_byte {words : ℤ → BitVec 64} (q : ℤ) (i : ℕ) (hi : i < 8) :
    wordStorage words (q * 8 + i) = (words q).extractLsb' (8 * i) 8 := by
  unfold wordStorage
  rw [show (q * 8 + i) / 8 = q by omega, show ((q * 8 + i) % 8).toNat = i by omega]

section WordStorage

variable {words : ℤ → BitVec 64} (q : ℤ)

theorem wordStorage_readS32_low :
    (wordStorage words).readS32 (q * 8) = ((words q).extractLsb' 0 32).toInt := by
  unfold Storage.readS32
  rw [show q * 8 + 3 = q * 8 + (3 : ℕ) from rfl, show q * 8 + 2 = q * 8 + (2 : ℕ) from rfl,
    show q * 8 + 1 = q * 8 + (1 : ℕ) from rfl, wordStorage_byte q 3 (by decide),
    wordStorage_byte q 2 (by decide), wordStorage_byte q 1 (by decide),
    (congrArg _ (Int.add_zero (q * 8)).symm).trans (wordStorage_byte q 0 (by decide))]
  repeat rw [BitVec.extractLsb'_append_extractLsb'_eq_extractLsb' (by decide)]

theorem wordStorage_readS32_high :
    (wordStorage words).readS32 (q * 8 + 4) = ((words q).extractLsb' 32 32).toInt := by
  unfold Storage.readS32
  rw [show q * 8 + 4 + 3 = q * 8 + (7 : ℕ) by omega, show q * 8 + 4 + 2 = q * 8 + (6 : ℕ) by omega,
    show q * 8 + 4 + 1 = q * 8 + (5 : ℕ) by omega, show q * 8 + 4 = q * 8 + (4 : ℕ) from rfl,
    wordStorage_byte q 7 (by decide), wordStorage_byte q 6 (by decide),
    wordStorage_byte q 5 (by decide), wordStorage_byte q 4 (by decide)]
  repeat rw [BitVec.extractLsb'_append_extractLsb'_eq_extractLsb' (by decide)]

theorem wordStorage_readS64 : (wordStorage words).readS64 (q * 8) = (words q).toInt := by
  unfold Storage.readS64
  rw [show q * 8 + 7 = q * 8 + (7 : ℕ) from rfl, show q * 8 + 6 = q * 8 + (6 : ℕ) from rfl,
    show q * 8 + 5 = q * 8 + (5 : ℕ) from rfl, show q * 8 + 4 = q * 8 + (4 : ℕ) from rfl,
    show q * 8 + 3 = q * 8 + (3 : ℕ) from rfl, show q * 8 + 2 = q * 8 + (2 : ℕ) from rfl,
    show q * 8 + 1 = q * 8 + (1 : ℕ) from rfl, wordStorage_byte q 7 (by decide),
    wordStorage_byte q 6 (by decide), wordStorage_byte q 5 (by decide),
    wordStorage_byte q 4 (by decide), wordStorage_byte q 3 (by decide),
    wordStorage_byte q 2 (by decide), wordStorage_byte q 1 (by decide),
    (congrArg _ (Int.add_zero (q * 8)).symm).trans (wordStorage_byte q 0 (by decide))]
  repeat rw [BitVec.extractLsb'_append_extractLsb'_eq_extractLsb' (by decide)]
  exact congrArg _ BitVec.extractLsb'_eq_self

end WordStorage

/-- A table with an entry at every offset. -/
def ramp (count : ℕ) (hpos : 0 < count) (hbound : count < 2 ^ 31) : Table where
  count := count
  offsets i := i
  endOffset := count
  pos := hpos
  bound := hbound
  nonneg := Int.le_refl 0
  sorted _ _ hlt _ := Int.ofNat_lt.2 hlt
  last _ hlt := Int.ofNat_lt.2 hlt

/-- The first word of a header. -/
def headerWord (index count : ℕ) : BitVec 64 := BitVec.ofInt 32 count ++ BitVec.ofInt 32 index

/-- The nodes of a table, when all its sets fit in L1. -/
def nodeWords (t : Table) (entries : ℕ) (q : ℤ) : BitVec 64 :=
  if q = 0 then headerWord 0 (t.setCount entries)
  else if q = 1 then BitVec.ofInt 64 t.endOffset
  else BitVec.ofInt 64 (t.setStart entries (q - 2).toNat)

/-- The entry sets of a table of offsets alone, of so many words each. -/
def entryWords (t : Table) (entries nodeWords : ℕ) (q : ℤ) : BitVec 64 :=
  let set := (q / nodeWords).toNat
  let r := (q % nodeWords).toNat
  if r = 0 then headerWord set (t.setEntries entries set)
  else if r = 1 then BitVec.ofInt 64 (t.setEnd entries set)
  else BitVec.ofInt 64 (t.offsets (set * entries + (r - 2)))

theorem headerWord_low {index count : ℕ} (h : index < 2 ^ 31) :
    ((headerWord index count).extractLsb' 0 32).toInt = index := by
  rw [headerWord, BitVec.extractLsb'_append_eq_of_add_le (by decide), BitVec.extractLsb'_eq_self, BitVec.toInt_ofInt]
  exact s32_eq (by omega)

theorem headerWord_high {index count : ℕ} (h : count < 2 ^ 31) :
    ((headerWord index count).extractLsb' 32 32).toInt = count := by
  rw [headerWord, BitVec.extractLsb'_append_eq_of_le (by decide), Nat.sub_self,
    BitVec.extractLsb'_eq_self, BitVec.toInt_ofInt]
  exact s32_eq (by omega)

theorem toInt_ofInt_64 {x : ℤ} (h : -2 ^ 63 ≤ x ∧ x < 2 ^ 63) : (BitVec.ofInt 64 x).toInt = x := by
  rw [BitVec.toInt_ofInt, Int.bmod_eq_of_le] <;> omega

theorem perSet_words : perSet 524288 8 = 65534 := rfl

theorem admitted_words : Admitted 524288 8 := ⟨by decide, by decide, by decide, by decide, 19, rfl⟩

/-- The storages of a table of offsets alone, whose sets fit in L1. -/
theorem laidOut_words {t : Table} (hfit : t.setCount 65534 ≤ 65534) (hend : t.endOffset < 2 ^ 63) :
    t.LaidOut (wordStorage (nodeWords t 65534)) (wordStorage (entryWords t 65534 65536)) 524288 8 := by
  have hbound := t.bound
  have hoffset : ∀ i, i < t.count → -2 ^ 63 ≤ t.offsets i ∧ t.offsets i < 2 ^ 63 := fun i hi =>
    ⟨(by decide : (-2 ^ 63 : ℤ) ≤ 0).trans (Table.offsets_nonneg hi), (t.last i hi).trans hend⟩
  have hword : ∀ set r : ℕ, r < 65536 → entryWords t 65534 65536 (set * 65536 + r) =
      if r = 0 then headerWord set (t.setEntries 65534 set)
      else if r = 1 then BitVec.ofInt 64 (t.setEnd 65534 set)
      else BitVec.ofInt 64 (t.offsets (set * 65534 + (r - 2))) := by
    intro set r hr
    unfold entryWords
    dsimp only
    rw [show (((set : ℤ) * 65536 + r) / (65536 : ℕ)).toNat = set by omega,
      show (((set : ℤ) * 65536 + r) % (65536 : ℕ)).toNat = r by omega]
  have hentries : ∀ set, t.setEntries 65534 set ≤ 65534 := fun set => Table.setEntries_le
  have hlast : ∀ set, set < t.setCount 65534 → t.setEnd 65534 set < 2 ^ 63 := by
    intro set hset
    unfold Table.setEnd
    split
    · exact (hoffset _ ‹_›).2
    · exact hend
  refine ⟨fun set hset => ⟨?_, ?_, ?_⟩, fun set hset j hj => ?_, ?_, ?_, fun _ => ⟨?_, fun j hj => ?_⟩,
    fun hmany => absurd hfit (Nat.not_le.2 hmany)⟩
  · rw [show (set : ℤ) * (524288 : ℕ) = ((set : ℤ) * 65536 + (0 : ℕ)) * 8 by omega,
      wordStorage_readS32_low, hword set 0 (by decide), if_pos rfl, headerWord_low]
    have : set < 65534 := hset.trans_le hfit
    omega
  · rw [show (set : ℤ) * (524288 : ℕ) + 4 = ((set : ℤ) * 65536 + (0 : ℕ)) * 8 + 4 by omega,
      wordStorage_readS32_high, hword set 0 (by decide), if_pos rfl, headerWord_high, perSet_words]
    exact (hentries set).trans_lt (by decide)
  · rw [show (set : ℤ) * (524288 : ℕ) + 8 = ((set : ℤ) * 65536 + (1 : ℕ)) * 8 by omega,
      wordStorage_readS64, hword set 1 (by decide), if_neg (by decide), if_pos rfl, toInt_ofInt_64]
    · rfl
    · exact ⟨(by decide : (-2 ^ 63 : ℤ) ≤ 0).trans (Table.setEnd_nonneg (by decide) hset), hlast set hset⟩
  · rw [perSet_words] at hj hset ⊢
    have hle := hentries set
    have hin := Table.setEntries_bound (by decide) hset
    rw [show (set : ℤ) * (524288 : ℕ) + 16 + j * (8 : ℕ) =
      ((set : ℤ) * 65536 + (j + 2 : ℕ)) * 8 by omega, wordStorage_readS64,
      hword set (j + 2) (by omega), if_neg (by omega), if_neg (by omega),
      toInt_ofInt_64 (hoffset _ (by omega)), Nat.add_sub_cancel]
  · rw [show (0 : ℤ) = 0 * 8 from rfl, wordStorage_readS32_low]
    unfold nodeWords
    rw [if_pos rfl, headerWord_low (by decide)]
    rfl
  · rw [show (8 : ℤ) = 1 * 8 from rfl, wordStorage_readS64]
    unfold nodeWords
    rw [if_neg (by decide), if_pos rfl, toInt_ofInt_64 ⟨?_, hend⟩]
    exact (by decide : (-2 ^ 63 : ℤ) ≤ 0).trans ((t.nonneg.trans (t.last 0 t.pos).le))
  · rw [show (4 : ℤ) = 0 * 8 + 4 from rfl, wordStorage_readS32_high]
    unfold nodeWords
    rw [if_pos rfl, headerWord_high (by omega), perSet_words]
  · rw [perSet_words] at hj ⊢
    rw [show (16 : ℤ) + j * 8 = (j + 2 : ℕ) * 8 by omega, wordStorage_readS64]
    unfold nodeWords
    rw [if_neg (by omega), if_neg (by omega), show (((j + 2 : ℕ) : ℤ) - 2).toNat = j by omega]
    exact toInt_ofInt_64 (hoffset _ ((Table.lt_setCount_iff (by decide)).1 hj))

/-! ### When lookup is exact -/

theorem ramp_laidOut {count : ℕ} (hpos : 0 < count) (hbound : count < 2 ^ 31) :
    (ramp count hpos hbound).LaidOut (wordStorage (nodeWords (ramp count hpos hbound) 65534))
      (wordStorage (entryWords (ramp count hpos hbound) 65534 65536)) 524288 8 := by
  refine laidOut_words ?_ ?_
  · show (count + (65534 - 1)) / 65534 ≤ 65534
    omega
  · show (count : ℤ) < 2 ^ 63
    omega

/-- **Lookup is exact** when rounding up the count of entry sets does not overflow, and only then. -/
theorem exact_iff {t : Table} {nodeStorage entryStorage : Storage} {nodeSize entrySize : ℕ}
    (ha : Admitted nodeSize entrySize) (h : t.LaidOut nodeStorage entryStorage nodeSize entrySize) :
    t.Exact nodeStorage entryStorage nodeSize entrySize ↔
      t.count + perSet nodeSize entrySize ≤ 2 ^ 31 :=
  ⟨fun hexact => Nat.le_of_not_lt fun hlt => not_exact_of_lt ha hlt hexact, h.exact_of_le ha⟩

/-- A table of 100,000 entries of eight bytes in nodes of 512 KiB. -/
theorem ramp_exact_iff : (ramp 100000 (by decide) (by decide)).Exact
    (wordStorage (nodeWords (ramp 100000 (by decide) (by decide)) 65534))
    (wordStorage (entryWords (ramp 100000 (by decide) (by decide)) 65534 65536)) 524288 8 ↔
      100000 + perSet 524288 8 ≤ 2 ^ 31 :=
  exact_iff admitted_words (ramp_laidOut (by decide) (by decide))

/-- Nothing is found in a table of 2³¹ - 1 entries of eight bytes in nodes of 512 KiB. -/
theorem long_ramp_not_exact : Admitted 524288 8 ∧
    (ramp (2 ^ 31 - 1) (by decide) (by decide)).LaidOut
      (wordStorage (nodeWords (ramp (2 ^ 31 - 1) (by decide) (by decide)) 65534))
      (wordStorage (entryWords (ramp (2 ^ 31 - 1) (by decide) (by decide)) 65534 65536)) 524288 8 ∧
    ¬(ramp (2 ^ 31 - 1) (by decide) (by decide)).Exact
      (wordStorage (nodeWords (ramp (2 ^ 31 - 1) (by decide) (by decide)) 65534))
      (wordStorage (entryWords (ramp (2 ^ 31 - 1) (by decide) (by decide)) 65534 65536)) 524288 8 :=
  ⟨admitted_words, ramp_laidOut (by decide) (by decide), not_exact_of_lt admitted_words (by
    show 2 ^ 31 < 2 ^ 31 - 1 + perSet 524288 8
    rw [perSet_words]
    decide)⟩

end FileSys
end NXEmu
