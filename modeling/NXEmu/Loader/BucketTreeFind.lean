/-
# Lookup in a bucket tree

`src/nxemu-loader/core/file_sys/fssystem/fssystem_bucket_tree.{h,cpp}`: in the storages of a table
`Find` goes to the last entry that is not above an address (`find_spec`), and the visitor walks over the
entries in both directions.  The count of entry sets is computed with 32 bits, and when the rounding up
overflows nothing is found at all; `Exact` holds when it does not overflow, and only then.
-/

import NXEmu.Loader.BucketTreeLayout

namespace NXEmu
namespace FileSys

open BinarySearch

/-! ### Counts -/

variable {nodeSize entrySize : ℕ}

theorem s32_eq {x : ℤ} (h : -2 ^ 31 ≤ x ∧ x < 2 ^ 31) : s32 x = x := by
  unfold s32
  rw [Int.bmod_eq_of_le] <;> omega

theorem s32_overflow {x : ℤ} (h : 2 ^ 31 ≤ x ∧ x < 2 ^ 32) : s32 x < 0 := by
  have hshift : s32 x = s32 (x - 2 ^ 32) := (Int.sub_bmod_right x (2 ^ 32)).symm
  rw [hshift, s32_eq (by omega)]
  omega

namespace Admitted

variable (h : Admitted nodeSize entrySize)

include h

theorem perSet_pos : 0 < perSet nodeSize entrySize := by
  have := h.entry
  have := h.node
  exact Nat.div_pos (by omega) (by omega)

theorem perSet_lt : perSet nodeSize entrySize < 2 ^ 16 := by
  have := h.entry
  have := h.max
  exact lt_of_le_of_lt (Nat.div_le_div_left h.entry (by decide)) (by omega)

theorem perNode_bounds : 126 ≤ perNode nodeSize ∧ perNode nodeSize < 2 ^ 16 ∧
    perNode nodeSize * 8 + 16 ≤ nodeSize := by
  have := h.min
  have := h.max
  unfold perNode
  omega

theorem getEntryCount_eq : getEntryCount nodeSize entrySize = perSet nodeSize entrySize := by
  have hlt := h.perSet_lt
  have hnode := h.node
  have hcast : ((nodeSize : ℤ) - nodeHeaderSize) / entrySize = perSet nodeSize entrySize := by
    rw [nodeHeaderSize, perSet, Int.natCast_div, Nat.cast_sub (by omega)]
    rfl
  rw [getEntryCount, hcast, s32_eq (by omega)]

theorem getOffsetCount_eq : getOffsetCount nodeSize = perNode nodeSize := by
  have hbounds := h.perNode_bounds
  have hcast : ((nodeSize : ℤ) - nodeHeaderSize) / 8 = perNode nodeSize := by
    unfold nodeHeaderSize perNode
    omega
  rw [getOffsetCount, hcast, s32_eq (by omega)]

variable {count : ℕ}

theorem getEntrySetCount_eq (hcount : count + perSet nodeSize entrySize ≤ 2 ^ 31) :
    getEntrySetCount nodeSize entrySize count =
      ((count + (perSet nodeSize entrySize - 1)) / perSet nodeSize entrySize : ℕ) := by
  have hpos := h.perSet_pos
  rw [getEntrySetCount, h.getEntryCount_eq, divideUp, s32_eq (by omega),
    Int.tdiv_eq_ediv_of_nonneg (by omega), show ((count : ℤ) + (perSet nodeSize entrySize - 1)) =
      ((count + (perSet nodeSize entrySize - 1) : ℕ) : ℤ) by omega]
  rfl

theorem getEntrySetCount_overflow (hbound : count < 2 ^ 31) (hcount : 2 ^ 31 < count + perSet nodeSize entrySize) :
    getEntrySetCount nodeSize entrySize count ≤ 0 := by
  have hpos := h.perSet_pos
  have hlt := h.perSet_lt
  rw [getEntrySetCount, h.getEntryCount_eq, divideUp]
  have hneg : s32 ((count : ℤ) + (perSet nodeSize entrySize - 1)) < 0 := s32_overflow (by omega)
  have hdiv := Int.tdiv_nonneg (neg_nonneg.2 hneg.le)
    (Int.natCast_nonneg (perSet nodeSize entrySize))
  rw [Int.neg_tdiv] at hdiv
  omega

end Admitted

/-! ### Sorted arrays -/

section Sorted

variable {f : ℕ → ℤ} {n : ℕ} {value : ℤ}

section

variable {array : ℤ → ℤ} {first : ℤ} (harray : ∀ j : ℕ, j < n → array (first + j) = f j)
  (hf : ∀ i j, i < j → j < n → f i < f j)

include harray hf

theorem upperBound_of_lt (h : value < f 0) :
    upperBound array value first (first + n) = first := by
  have hcongr : bisect (fun j => decide (array (first + j) ≤ value)) 0 n =
      bisect (fun j => decide (f j ≤ value)) 0 n :=
    bisectFrom_congr fun i _ hi => by rw [harray i (by omega)]
  rw [upperBound, add_sub_cancel_left, Int.toNat_natCast, hcongr, bisect_eq_zero h hf]
  exact Int.add_zero first

theorem upperBound_of_le (hn : 0 < n) (h : f 0 ≤ value) :
    ∃ i : ℕ, upperBound array value first (first + n) = first + (i + 1) ∧ i < n ∧ f i ≤ value ∧
      (i + 1 < n → value < f (i + 1)) := by
  have hcongr : bisect (fun j => decide (array (first + j) ≤ value)) 0 n =
      bisect (fun j => decide (f j ≤ value)) 0 n :=
    bisectFrom_congr fun i _ hi => by rw [harray i (by omega)]
  obtain ⟨i, hi, hlt, hle, hnext⟩ := bisect_eq_succ h hn hf
  refine ⟨i, ?_, hlt, hle, hnext⟩
  rw [upperBound, add_sub_cancel_left, Int.toNat_natCast, hcongr, hi, Nat.cast_succ]

end

theorem StorageNode.find_of_le (storage : Storage) (start : ℤ) {stride : ℤ} (hstride : 0 < stride)
    (harray : ∀ j : ℕ, j < n → storage.readS64 (start + j * stride) = f j)
    (hf : ∀ i j, i < j → j < n → f i < f j) (hn : 0 < n) (h : f 0 ≤ value) :
    ∃ i : ℕ, (⟨start, stride, n⟩ : StorageNode).find storage value = i ∧ i < n ∧ f i ≤ value ∧
      (i + 1 < n → value < f (i + 1)) := by
  have hcongr : bisect (fun j => decide (storage.readS64 (start + j * stride) ≤ value)) 0 n =
      bisect (fun j => decide (f j ≤ value)) 0 n :=
    bisectFrom_congr fun i _ hi => by rw [harray i (by omega)]
  obtain ⟨i, hi, hlt, hle, hnext⟩ := bisect_eq_succ h hn hf
  refine ⟨i, ?_, hlt, hle, hnext⟩
  rw [StorageNode.find_eq hstride, Int.toNat_natCast, hcongr, hi]
  push_cast
  ring

end Sorted

/-! ### Both ways to read a node -/

section Buffers

variable {t : BucketTree} (virtualAddress : ℤ)

/-- **`FindEntrySet`** has the same result with a buffer and without, but for the error of an address
below the node. -/
theorem findEntrySet_buffers (hnode : 16 ≤ t.nodeSize) (nodeIndex : ℤ) :
    (t.findEntrySetWithBuffer virtualAddress nodeIndex).toOption =
      (t.findEntrySetWithoutBuffer virtualAddress nodeIndex).toOption := by
  unfold BucketTree.findEntrySetWithBuffer BucketTree.findEntrySetWithoutBuffer
  dsimp only
  rw [Storage.header_read (by omega), Int.add_zero]
  generalize t.nodeStorage.header ((nodeIndex + 1) * t.nodeSize) = header
  by_cases hverify : header.verify nodeIndex t.nodeSize 8 = .ok ()
  · obtain ⟨-, -, ⟨hpos, hcount⟩, -⟩ := NodeHeader.verify_eq_ok.1 hverify
    rw [hverify, StorageNode.find_read (by decide) (by decide) (by
      have := Int.mul_le_of_le_ediv (by decide) hcount
      omega)]
    show Except.toOption (rUnless _ _ >>= _) = Except.toOption (rUnless _ _ >>= _)
    rw [rUnless_bind, rUnless_bind]
    split <;> rfl
  · cases hresult : header.verify nodeIndex t.nodeSize 8 with
    | error result => rfl
    | ok u => exact absurd hresult hverify

/-- **`FindEntry`** has the same result with a buffer and without. -/
theorem findEntry_buffers (hentry : 8 ≤ t.entrySize) (hnode : t.entrySize + 16 ≤ t.nodeSize)
    (entrySetIndex : ℤ) : t.findEntryWithBuffer virtualAddress entrySetIndex =
      t.findEntryWithoutBuffer virtualAddress entrySetIndex := by
  unfold BucketTree.findEntryWithBuffer BucketTree.findEntryWithoutBuffer
  dsimp only
  rw [Storage.entrySet_read (by omega), Int.add_zero]
  generalize t.entryStorage.entrySet (entrySetIndex * t.nodeSize) = entrySet
  by_cases hverify : entrySet.header.verify entrySetIndex t.nodeSize t.entrySize = .ok ()
  · obtain ⟨-, -, ⟨hpos, hcount⟩, -⟩ := NodeHeader.verify_eq_ok.1 hverify
    have hsize := Int.mul_le_of_le_ediv (show 0 < t.entrySize by omega) hcount
    have hfit : entrySet.count * t.entrySize + 16 ≤ t.nodeSize := by
      have hheader : nodeHeaderSize = 16 := rfl
      rw [hheader] at hsize
      show entrySet.header.count * t.entrySize + 16 ≤ t.nodeSize
      omega
    rw [hverify, StorageNode.find_read (by decide) hentry (by unfold nodeHeaderSize; omega)]
    show (rUnless _ _ >>= _) = (rUnless _ _ >>= _)
    rw [rUnless_bind, rUnless_bind]
    split
    · rename_i hindex
      have hlt := @StorageNode.find_lt t.entryStorage ⟨nodeHeaderSize + entrySetIndex * t.nodeSize,
        t.entrySize, entrySet.count⟩ (by dsimp only; omega) hpos virtualAddress
      generalize StorageNode.find _ _ _ = entryIndex at hindex hlt ⊢
      have hmul : (entryIndex + 1) * t.entrySize ≤ entrySet.count * t.entrySize :=
        Int.mul_le_mul_of_nonneg_right hlt (by omega)
      have hnonneg : 0 ≤ entryIndex * t.entrySize := Int.mul_nonneg hindex (by omega)
      rw [Int.add_mul, Int.one_mul] at hmul
      unfold getBucketTreeEntryOffset nodeHeaderSize
      rw [Storage.read_read (by omega), show entrySetIndex * t.nodeSize + (0 + 16 +
        entryIndex * t.entrySize) = entrySetIndex * t.nodeSize + 16 + entryIndex * t.entrySize by omega]
    · rfl
  · cases hresult : entrySet.header.verify entrySetIndex t.nodeSize t.entrySize with
    | error result => rfl
    | ok u => exact absurd hresult hverify

end Buffers

/-! ### The branches of `Find` -/

namespace BucketTree

variable (t : BucketTree) {virtualAddress : ℤ} {count : ℤ} (hcount : getCount t.nodeL1 = count)

include hcount

theorem findEntrySetIndex_tail (hexist : t.isExistOffsetL2OnL1)
    (hlt : virtualAddress < getBeginOffset t.nodeL1) : t.findEntrySetIndex virtualAddress =
      if count < upperBound (getArray t.nodeL1) virtualAddress count t.offsetCount then
        .ok (upperBound (getArray t.nodeL1) virtualAddress count t.offsetCount - 1 - count)
      else .error .outOfRange := by
  rw [findEntrySetIndex]
  dsimp only
  rw [if_pos ⟨hexist, hlt⟩, rUnless_bind, hcount]
  rfl

theorem findEntrySetIndex_head (hnot : ¬(t.isExistOffsetL2OnL1 ∧
    virtualAddress < getBeginOffset t.nodeL1)) : t.findEntrySetIndex virtualAddress =
      if 0 < upperBound (getArray t.nodeL1) virtualAddress 0 count then
        if t.isExistL2 then
          if 0 ≤ upperBound (getArray t.nodeL1) virtualAddress 0 count - 1 ∧
              upperBound (getArray t.nodeL1) virtualAddress 0 count - 1 < t.offsetCount then
            t.findEntrySet virtualAddress (upperBound (getArray t.nodeL1) virtualAddress 0 count - 1)
          else .error .invalidBucketTreeNodeOffset
        else .ok (upperBound (getArray t.nodeL1) virtualAddress 0 count - 1)
      else .error .outOfRange := by
  rw [findEntrySetIndex]
  dsimp only
  rw [if_neg hnot, rUnless_bind, rUnless_bind, hcount]
  rfl

end BucketTree

/-! ### The tree of a table -/

/-- The set whose entries are around an address. -/
def Table.SetOf (t : Table) (entries : ℕ) (virtualAddress : ℤ) (set : ℕ) : Prop :=
  set < t.setCount entries ∧ t.setStart entries set ≤ virtualAddress ∧
    (set + 1 < t.setCount entries → virtualAddress < t.setStart entries (set + 1))

/-- The tree that `Initialize` gives. -/
def Table.tree (t : Table) (nodeStorage entryStorage : Storage) (nodeSize entrySize : ℕ) :
    BucketTree :=
  ⟨nodeStorage, entryStorage, nodeStorage.read nodeSize 0, nodeSize, entrySize, t.count,
    perNode nodeSize, t.setCount (perSet nodeSize entrySize), t.setStart (perSet nodeSize entrySize) 0,
    t.endOffset⟩

section Tree

variable {t : Table} {nodeStorage entryStorage : Storage}

theorem tree_nodeL1 : (t.tree nodeStorage entryStorage nodeSize entrySize).nodeL1 = nodeStorage.read nodeSize 0 := rfl

theorem tree_offsetCount : (t.tree nodeStorage entryStorage nodeSize entrySize).offsetCount = perNode nodeSize := rfl

end Tree

namespace Table.LaidOut

variable {t : Table} {nodeStorage entryStorage : Storage} {virtualAddress : ℤ}
  (ha : Admitted nodeSize entrySize) (h : t.LaidOut nodeStorage entryStorage nodeSize entrySize)

include ha

theorem getCount_read : getCount (nodeStorage.read nodeSize 0) = nodeStorage.readS32 4 := by
  have := ha.min
  rw [getCount, Storage.readS32_read (by omega), Int.zero_add]

theorem getEndOffset_read : getEndOffset (nodeStorage.read nodeSize 0) = nodeStorage.readS64 8 := by
  have := ha.min
  rw [getEndOffset, Storage.readS64_read (by omega), Int.zero_add]

theorem getArray_read {j : ℕ} (hj : j < perNode nodeSize) :
    getArray (nodeStorage.read nodeSize 0) j = nodeStorage.readS64 (16 + j * 8) := by
  obtain ⟨-, -, hsize⟩ := ha.perNode_bounds
  rw [getArray, nodeHeaderSize, Storage.readS64_read (by omega), Int.zero_add]

include h

/-- The count of L1 is at least one and fits. -/
theorem count_bounds : 0 < nodeStorage.readS32 4 ∧ nodeStorage.readS32 4 ≤ perNode nodeSize := by
  have hpos := t.setCount_pos ha.perSet_pos
  rcases Nat.lt_or_ge (perNode nodeSize) (t.setCount (perSet nodeSize entrySize)) with hlt | hge
  · obtain ⟨nodes, hnodes⟩ := h.nodes hlt
    have := hnodes.pos
    have := hnodes.le
    rw [hnodes.count]
    omega
  · rw [(h.sets_fit hge).1]
    omega

/-- The first set starts where the tree starts. -/
theorem startOffset_eq :
    (if (perNode nodeSize : ℤ) < t.setCount (perSet nodeSize entrySize) ∧
        getCount (nodeStorage.read nodeSize 0) < perNode nodeSize then
      getArray (nodeStorage.read nodeSize 0) (getCount (nodeStorage.read nodeSize 0))
    else getArray (nodeStorage.read nodeSize 0) 0) = t.setStart (perSet nodeSize entrySize) 0 := by
  have hbounds := ha.perNode_bounds
  have hfirst : getArray (nodeStorage.read nodeSize 0) 0 = nodeStorage.readS64 16 :=
    getArray_read (j := 0) ha (by omega)
  rw [getCount_read ha]
  rcases Nat.lt_or_ge (perNode nodeSize) (t.setCount (perSet nodeSize entrySize)) with hlt | hge
  · obtain ⟨nodes, hnodes⟩ := h.nodes hlt
    have hpos := hnodes.pos
    have hle := hnodes.le
    rw [hnodes.count]
    by_cases htail : nodes < perNode nodeSize
    · rw [if_pos ⟨by omega, by omega⟩, getArray_read ha htail]
      exact hnodes.tail 0 (by omega)
    · obtain rfl : nodes = perNode nodeSize := by omega
      rw [if_neg fun hn => htail (by omega)]
      refine hfirst.trans ((hnodes.starts 0 hpos).trans ?_)
      rw [firstSet, Nat.sub_self, Nat.zero_mul]
  · rw [if_neg fun hn => absurd hn.1 (by omega)]
    exact hfirst.trans ((h.sets_fit hge).2 0 (t.setCount_pos ha.perSet_pos))

/-- **`Initialize`** accepts the storages of a table. -/
theorem initializeTree_eq (hcount : t.count + perSet nodeSize entrySize ≤ 2 ^ 31) :
    BucketTree.initializeTree nodeStorage entryStorage nodeSize entrySize t.count =
      .ok (t.tree nodeStorage entryStorage nodeSize entrySize) := by
  have hbounds := ha.perNode_bounds
  have hmin := ha.min
  have hpos := t.pos
  obtain ⟨hcountPos, hcountLe⟩ := count_bounds ha h
  have hsets : getEntrySetCount nodeSize entrySize t.count =
      t.setCount (perSet nodeSize entrySize) := ha.getEntrySetCount_eq hcount
  have hheader : (nodeStorage.read nodeSize 0).header 0 = ⟨0, nodeStorage.readS32 4, t.endOffset⟩ := by
    rw [Storage.header_read (by omega), Storage.header, Int.add_zero, h.index, Int.zero_add, Int.zero_add, h.stop]
  have hend : t.setStart (perSet nodeSize entrySize) 0 < t.endOffset :=
    t.last _ ((Table.lt_setCount_iff ha.perSet_pos).1 (t.setCount_pos ha.perSet_pos))
  have hnonneg : 0 ≤ t.setStart (perSet nodeSize entrySize) 0 := by
    rw [Table.setStart, Nat.zero_mul]
    exact t.nonneg
  have hverify : ((nodeStorage.read nodeSize 0).header 0).verify 0 nodeSize 8 = .ok () := by
    rw [NodeHeader.verify_eq_ok, hheader]
    refine ⟨rfl, ⟨by decide, by unfold nodeHeaderSize; omega⟩, ⟨hcountPos, ?_⟩, hnonneg.trans hend.le⟩
    unfold nodeHeaderSize
    dsimp only
    omega
  have hbegin : t.setStart (perSet nodeSize entrySize) 0 ≤ getBeginOffset (nodeStorage.read nodeSize 0) := by
    rw [getBeginOffset]
    refine le_of_le_of_eq ?_ (getArray_read ha (j := 0) (by omega)).symm
    rcases Nat.lt_or_ge (perNode nodeSize) (t.setCount (perSet nodeSize entrySize)) with hlt | hge
    · obtain ⟨nodes, hnodes⟩ := h.nodes hlt
      refine le_of_le_of_eq ?_ (hnodes.starts 0 hnodes.pos).symm
      have hleast := hnodes.least
      have hpos := hnodes.pos
      rcases Nat.eq_zero_or_pos (firstSet (perNode nodeSize) nodes 0) with hzero | hfirst
      · rw [hzero]
      · refine (Table.setStart_lt ha.perSet_pos hfirst (lt_of_le_of_lt ?_ hleast)).le
        exact Nat.add_le_add_left (Nat.mul_le_mul_right _ (Nat.zero_le _)) _
    · exact ((h.sets_fit hge).2 0 (t.setCount_pos ha.perSet_pos)).ge
  unfold BucketTree.initializeTree
  dsimp only
  rw [rUnless_bind, if_pos (by omega), hverify, ha.getOffsetCount_eq, hsets, startOffset_eq ha h]
  show (rUnless _ _ >>= _) = _
  rw [rUnless_bind, if_pos ⟨hnonneg, hbegin⟩, rUnless_bind, getEndOffset_read ha, h.stop, if_pos hend]
  rfl

/-! ### The entry set of an address -/

section Nodes

variable {nodes : ℕ}
  (hnodes : t.NodesLaidOut (perSet nodeSize entrySize) nodeStorage nodeSize (perNode nodeSize) nodes)

include hnodes

omit h

/-- **`FindEntrySet`** in a node L2 that starts at or below the address. -/
theorem findEntrySet_of_le {node : ℕ} (hnode : node < nodes)
    (hle : t.setStart (perSet nodeSize entrySize) (firstSet (perNode nodeSize) nodes node) ≤ virtualAddress) :
    ∃ set : ℕ, (t.tree nodeStorage entryStorage nodeSize entrySize).findEntrySet virtualAddress node =
        .ok set ∧ set < t.setCount (perSet nodeSize entrySize) ∧
      set < firstSet (perNode nodeSize) nodes (node + 1) ∧
      t.setStart (perSet nodeSize entrySize) set ≤ virtualAddress ∧
      (set + 1 < t.setCount (perSet nodeSize entrySize) → set + 1 < firstSet (perNode nodeSize) nodes (node + 1) →
          virtualAddress < t.setStart (perSet nodeSize entrySize) (set + 1)) := by
  have hbounds := ha.perNode_bounds
  have hmin := ha.min
  have hmax := ha.max
  have hpos := ha.perSet_pos
  obtain ⟨hindex, hcount, hoffset, harray⟩ := hnodes.nodes node hnode
  have hnodesLe := hnodes.le
  have hleast := hnodes.least
  have hcountL1 := hnodes.count
  have hfirstLt : firstSet (perNode nodeSize) nodes node < t.setCount (perSet nodeSize entrySize) :=
    lt_of_le_of_lt (Nat.add_le_add_left (Nat.mul_le_mul_right _ (Nat.le_sub_one_of_lt hnode)) _) hleast
  have hfirstSucc : firstSet (perNode nodeSize) nodes (node + 1) =
      firstSet (perNode nodeSize) nodes node + perNode nodeSize := by
    unfold firstSet
    rw [Nat.add_mul]
    omega
  have hfirst : firstSet (perNode nodeSize) nodes node = (perNode nodeSize - nodes) + node * perNode nodeSize := rfl
  generalize hm : Nat.min (perNode nodeSize) (t.setCount (perSet nodeSize entrySize) -
    firstSet (perNode nodeSize) nodes node) = m at hcount harray
  have hmLe : m ≤ perNode nodeSize := hm ▸ Nat.min_le_left ..
  have hmSets : m ≤ t.setCount (perSet nodeSize entrySize) - firstSet (perNode nodeSize) nodes node :=
    hm ▸ Nat.min_le_right ..
  have hmEq : m = perNode nodeSize ∨
      m = t.setCount (perSet nodeSize entrySize) - firstSet (perNode nodeSize) nodes node := by
    rw [← hm]
    exact min_choice _ _
  generalize firstSet (perNode nodeSize) nodes node = first at *
  obtain ⟨j, hfind, hj, hjle, hjnext⟩ := StorageNode.find_of_le nodeStorage
    (16 + ((node + 1 : ℕ) : ℤ) * nodeSize) (show (0 : ℤ) < 8 by decide)
    (fun j hj => by rw [← harray j hj]; congr 1; omega)
    (fun i j hij hj => Table.setStart_lt hpos (Nat.add_lt_add_left hij first) (by omega))
    (show 0 < m by omega) hle
  have hheader : nodeStorage.header (((node : ℤ) + 1) * nodeSize) =
      ⟨node, m, nodeStorage.readS64 (((node : ℤ) + 1) * nodeSize + 8)⟩ := by
    rw [Nat.cast_add, Nat.cast_one] at hindex hcount
    rw [Storage.header, hindex, hcount]
  have hverify : (nodeStorage.header (((node : ℤ) + 1) * nodeSize)).verify node nodeSize 8 = .ok () := by
    rw [Nat.cast_add, Nat.cast_one] at hoffset
    rw [NodeHeader.verify_eq_ok, hheader]
    unfold nodeHeaderSize
    dsimp only
    refine ⟨rfl, ⟨by decide, by omega⟩, ⟨by omega, by omega⟩, hoffset⟩
  refine ⟨first + j, ?_, by omega, by omega, hjle, fun hnext hlt => hjnext (by omega)⟩
  unfold BucketTree.findEntrySet
  rw [if_pos (by unfold pooledBufferSize Table.tree; dsimp only; omega)]
  unfold BucketTree.findEntrySetWithBuffer Table.tree
  dsimp only
  rw [Storage.header_read (by omega), Int.add_zero, hverify, hheader]
  dsimp only
  rw [StorageNode.find_read (by decide) (by decide) (by unfold nodeHeaderSize; omega)]
  show (rUnless _ _ >>= _) = _
  unfold nodeHeaderSize
  rw [Nat.cast_add, Nat.cast_one] at hfind
  rw [hfind, rUnless_bind, if_pos (by omega)]
  unfold BucketTree.getEntrySetIndex
  dsimp only
  rw [getCount_read ha, hcountL1, Nat.cast_add, hfirst, Nat.cast_add, Nat.cast_sub hnodesLe,
    Nat.cast_mul, Int.mul_comm (perNode nodeSize : ℤ) node]
  rfl

theorem getArray_tail (j : ℕ) (hj : j < perNode nodeSize - nodes) :
    getArray (nodeStorage.read nodeSize 0) (nodes + j) = t.setStart (perSet nodeSize entrySize) j :=
  (show getArray (nodeStorage.read nodeSize 0) (nodes + j) =
    getArray _ ((nodes + j : ℕ) : ℤ) by rw [Nat.cast_add]).trans
      ((getArray_read ha (by omega)).trans (hnodes.tail j hj))

theorem getArray_nodes (j : ℕ) (hj : j < nodes) : getArray (nodeStorage.read nodeSize 0) (0 + j) =
    t.setStart (perSet nodeSize entrySize) (firstSet (perNode nodeSize) nodes j) := by
  have hle := hnodes.le
  exact (congrArg (getArray (nodeStorage.read nodeSize 0)) (Int.zero_add _)).trans
    ((getArray_read ha (by omega)).trans (hnodes.starts j hj))

theorem setStart_nodes_lt (i j : ℕ) (hij : i < j) (hj : j < nodes) :
    t.setStart (perSet nodeSize entrySize) (firstSet (perNode nodeSize) nodes i) <
      t.setStart (perSet nodeSize entrySize) (firstSet (perNode nodeSize) nodes j) := by
  have hbounds := ha.perNode_bounds
  exact Table.setStart_lt ha.perSet_pos (Nat.add_lt_add_left
    (Nat.mul_lt_mul_of_pos_right hij (by omega)) _) (lt_of_le_of_lt (Nat.add_le_add_left
      (Nat.mul_le_mul_right _ (Nat.le_sub_one_of_lt hj)) _) hnodes.least)

/-- The search of the sets that L1 itself has, behind the nodes. -/
theorem upperBound_tail (htail : nodes < perNode nodeSize)
    (hlt : virtualAddress < t.setStart (perSet nodeSize entrySize) (perNode nodeSize - nodes))
    (hle : t.setStart (perSet nodeSize entrySize) 0 ≤ virtualAddress) :
    ∃ set : ℕ, upperBound (getArray (nodeStorage.read nodeSize 0)) virtualAddress nodes
        (perNode nodeSize) = nodes + (set + 1) ∧
      t.SetOf (perSet nodeSize entrySize) virtualAddress set := by
  have hfirst : perNode nodeSize - nodes < t.setCount (perSet nodeSize entrySize) :=
    lt_of_le_of_lt (Nat.le_add_right _ _) hnodes.least
  obtain ⟨i, hi, hlti, hlei, hnexti⟩ := upperBound_of_le (getArray_tail ha hnodes)
    (fun i j hij hj => Table.setStart_lt ha.perSet_pos hij (by omega)) (by omega) hle
  refine ⟨i, ?_, by omega, hlei, fun _ => ?_⟩
  · rw [← hi]
    congr 1
    omega
  · rcases Nat.lt_or_ge (i + 1) (perNode nodeSize - nodes) with hin | hout
    · exact hnexti hin
    · rw [show i + 1 = perNode nodeSize - nodes by omega]
      exact hlt

theorem upperBound_nodes_of_lt (hlt : virtualAddress <
      t.setStart (perSet nodeSize entrySize) (firstSet (perNode nodeSize) nodes 0)) :
    upperBound (getArray (nodeStorage.read nodeSize 0)) virtualAddress 0 nodes = 0 := by
  have hsearch := upperBound_of_lt (getArray_nodes ha hnodes) (setStart_nodes_lt ha hnodes) hlt
  rwa [Int.zero_add] at hsearch

/-- The search of the nodes L2. -/
theorem upperBound_nodes (hle : t.setStart (perSet nodeSize entrySize) (firstSet (perNode nodeSize) nodes 0) ≤
      virtualAddress) :
    ∃ node : ℕ, upperBound (getArray (nodeStorage.read nodeSize 0)) virtualAddress 0 nodes = node + 1 ∧ node < nodes ∧
      t.setStart (perSet nodeSize entrySize) (firstSet (perNode nodeSize) nodes node) ≤ virtualAddress ∧
      (node + 1 < nodes → virtualAddress <
        t.setStart (perSet nodeSize entrySize) (firstSet (perNode nodeSize) nodes (node + 1))) := by
  obtain ⟨i, hi, hrest⟩ :=
    upperBound_of_le (getArray_nodes ha hnodes) (setStart_nodes_lt ha hnodes) hnodes.pos hle
  rw [Int.zero_add, Int.zero_add] at hi
  exact ⟨i, hi, hrest⟩

/-- The set that the node L2 of an address finds. -/
theorem findEntrySet_node {node : ℕ} (hnode : node < nodes)
    (hle : t.setStart (perSet nodeSize entrySize) (firstSet (perNode nodeSize) nodes node) ≤ virtualAddress)
    (hlt : node + 1 < nodes → virtualAddress <
      t.setStart (perSet nodeSize entrySize) (firstSet (perNode nodeSize) nodes (node + 1))) :
    ∃ set : ℕ, (t.tree nodeStorage entryStorage nodeSize entrySize).findEntrySet virtualAddress node =
        .ok set ∧ t.SetOf (perSet nodeSize entrySize) virtualAddress set := by
  obtain ⟨set, hset, hltset, hltfirst, hleset, hnext⟩ :=
    @findEntrySet_of_le _ _ _ _ entryStorage _ ha _ hnodes _ hnode hle
  refine ⟨set, hset, hltset, hleset, fun hsucc => ?_⟩
  rcases Nat.lt_or_ge (set + 1) (firstSet (perNode nodeSize) nodes (node + 1)) with hin | hout
  · exact hnext hsucc hin
  · rw [show set + 1 = firstSet (perNode nodeSize) nodes (node + 1) by omega]
    refine hlt (Nat.lt_of_not_ge fun hge => ?_)
    have henough := hnodes.enough
    have hmono : firstSet (perNode nodeSize) nodes nodes ≤ firstSet (perNode nodeSize) nodes (node + 1) :=
      Nat.add_le_add_left (Nat.mul_le_mul_right _ hge) _
    omega

/-- The begin offset of L1 when there are nodes L2: the set behind those that L1 itself has. -/
theorem getBeginOffset_nodes :
    getBeginOffset (nodeStorage.read nodeSize 0) =
      t.setStart (perSet nodeSize entrySize) (perNode nodeSize - nodes) := by
  have hbounds := ha.perNode_bounds
  refine (getArray_read (j := 0) ha (by omega)).trans ((hnodes.starts 0 hnodes.pos).trans ?_)
  rw [firstSet, Nat.zero_mul, Nat.add_zero]

end Nodes

theorem getArray_sets (hge : t.setCount (perSet nodeSize entrySize) ≤ perNode nodeSize) (j : ℕ)
    (hj : j < t.setCount (perSet nodeSize entrySize)) :
    getArray (nodeStorage.read nodeSize 0) (0 + j) = t.setStart (perSet nodeSize entrySize) j :=
  (congrArg (getArray (nodeStorage.read nodeSize 0)) (Int.zero_add _)).trans
    ((getArray_read ha (by omega)).trans ((h.sets_fit hge).2 j hj))

/-- The search of the sets when they all fit in L1. -/
theorem upperBound_sets (hge : t.setCount (perSet nodeSize entrySize) ≤ perNode nodeSize)
    (hle : t.setStart (perSet nodeSize entrySize) 0 ≤ virtualAddress) :
    ∃ set : ℕ, upperBound (getArray (nodeStorage.read nodeSize 0)) virtualAddress 0
        (t.setCount (perSet nodeSize entrySize)) = set + 1 ∧
      t.SetOf (perSet nodeSize entrySize) virtualAddress set := by
  obtain ⟨i, hi, hrest⟩ := upperBound_of_le (getArray_sets ha h hge)
    (fun i j hij hj => Table.setStart_lt ha.perSet_pos hij hj)
    (t.setCount_pos ha.perSet_pos) hle
  rw [Int.zero_add, Int.zero_add] at hi
  exact ⟨i, hi, hrest⟩

/-- **The search of `Find` for the entry set** goes to the one whose entries are around the address. -/
theorem findEntrySetIndex_of_le (hle : t.setStart (perSet nodeSize entrySize) 0 ≤ virtualAddress) :
    ∃ set : ℕ, (t.tree nodeStorage entryStorage nodeSize entrySize).findEntrySetIndex virtualAddress =
        .ok set ∧ t.SetOf (perSet nodeSize entrySize) virtualAddress set := by
  rcases Nat.lt_or_ge (perNode nodeSize) (t.setCount (perSet nodeSize entrySize)) with hlt | hge
  · obtain ⟨nodes, hnodes⟩ := h.nodes hlt
    have hcount : getCount (nodeStorage.read nodeSize 0) = nodes :=
      (getCount_read ha).trans hnodes.count
    have hbegin := getBeginOffset_nodes ha hnodes
    have hle' := hnodes.le
    by_cases htail : nodes < perNode nodeSize ∧
        virtualAddress < t.setStart (perSet nodeSize entrySize) (perNode nodeSize - nodes)
    · obtain ⟨set, hset, hof⟩ := upperBound_tail ha hnodes htail.1 htail.2 hle
      refine ⟨set, ?_, hof⟩
      refine (BucketTree.findEntrySetIndex_tail (t.tree nodeStorage entryStorage nodeSize entrySize)
        hcount ⟨Int.ofNat_lt.2 hlt, ?_⟩ ?_).trans ?_
      · exact hcount.trans_lt (Int.ofNat_lt.2 htail.1)
      · exact lt_of_lt_of_eq htail.2 hbegin.symm
      · rw [tree_nodeL1, tree_offsetCount, hset, if_pos (by omega)]
        exact congrArg Except.ok (by omega)
    · have hfirst : t.setStart (perSet nodeSize entrySize) (firstSet (perNode nodeSize) nodes 0) ≤
          virtualAddress := by
        rw [firstSet, Nat.zero_mul, Nat.add_zero]
        rcases Nat.lt_or_ge nodes (perNode nodeSize) with hn | hn
        · exact not_lt.1 fun hv => htail ⟨hn, hv⟩
        · rw [Nat.sub_eq_zero_of_le hn]
          exact hle
      obtain ⟨node, hnode, hltnode, hlenode, hnext⟩ := upperBound_nodes ha hnodes hfirst
      obtain ⟨set, hset, hof⟩ :=
        @findEntrySet_node _ _ _ _ entryStorage _ ha _ hnodes _ hltnode hlenode hnext
      refine ⟨set, ?_, hof⟩
      refine (BucketTree.findEntrySetIndex_head (t.tree nodeStorage entryStorage nodeSize entrySize)
        hcount ?_).trans ?_
      · rintro ⟨⟨-, hn⟩, hv⟩
        exact htail ⟨Int.ofNat_lt.1 (hcount.symm.trans_lt hn), lt_of_lt_of_eq hv hbegin⟩
      · have hexist : (t.tree nodeStorage entryStorage nodeSize entrySize).isExistL2 :=
          Int.ofNat_lt.2 hlt
        rw [tree_nodeL1, tree_offsetCount, hnode, if_pos (by omega), if_pos hexist,
          if_pos (by omega), add_sub_cancel_right]
        exact hset
  · obtain ⟨set, hset, hof⟩ := upperBound_sets ha h hge hle
    have hcount : getCount (nodeStorage.read nodeSize 0) = t.setCount (perSet nodeSize entrySize) :=
      (getCount_read ha).trans (h.sets_fit hge).1
    have hnot : ¬(t.tree nodeStorage entryStorage nodeSize entrySize).isExistL2 := fun hn =>
      absurd (Int.ofNat_lt.1 hn) (by omega)
    refine ⟨set, ?_, hof⟩
    refine (BucketTree.findEntrySetIndex_head (t.tree nodeStorage entryStorage nodeSize entrySize)
      hcount fun hn => hnot hn.1.1).trans ?_
    rw [tree_nodeL1, hset, if_pos (by omega), if_neg hnot]
    exact congrArg Except.ok (by omega)

/-- Below the first entry nothing is found. -/
theorem findEntrySetIndex_of_lt (hlt : virtualAddress < t.setStart (perSet nodeSize entrySize) 0) :
    (t.tree nodeStorage entryStorage nodeSize entrySize).findEntrySetIndex virtualAddress = .error .outOfRange := by
  have hpos := ha.perSet_pos
  rcases Nat.lt_or_ge (perNode nodeSize) (t.setCount (perSet nodeSize entrySize)) with hmany | hge
  · obtain ⟨nodes, hnodes⟩ := h.nodes hmany
    have hcount : getCount (nodeStorage.read nodeSize 0) = nodes :=
      (getCount_read ha).trans hnodes.count
    have hbegin := getBeginOffset_nodes ha hnodes
    have hnodesLe := hnodes.le
    have hfirst : perNode nodeSize - nodes < t.setCount (perSet nodeSize entrySize) :=
      lt_of_le_of_lt (Nat.le_add_right _ _) hnodes.least
    by_cases htail : nodes < perNode nodeSize
    · have hstart : t.setStart (perSet nodeSize entrySize) 0 <
          t.setStart (perSet nodeSize entrySize) (perNode nodeSize - nodes) :=
        Table.setStart_lt hpos (by omega) hfirst
      have hsearch := upperBound_of_lt (getArray_tail ha hnodes)
        (fun i j hij hj => Table.setStart_lt hpos hij (by omega)) hlt
      refine (BucketTree.findEntrySetIndex_tail (t.tree nodeStorage entryStorage nodeSize entrySize)
        hcount ⟨Int.ofNat_lt.2 hmany, hcount.trans_lt (Int.ofNat_lt.2 htail)⟩
        (lt_of_lt_of_eq (hlt.trans hstart) hbegin.symm)).trans ?_
      rw [tree_nodeL1, tree_offsetCount, show (perNode nodeSize : ℤ) =
        nodes + (perNode nodeSize - nodes : ℕ) by omega, hsearch, if_neg (by omega)]
    · obtain rfl : nodes = perNode nodeSize := by omega
      have hlt' : virtualAddress < t.setStart (perSet nodeSize entrySize)
          (firstSet (perNode nodeSize) (perNode nodeSize) 0) := by
        rw [firstSet, Nat.sub_self, Nat.zero_mul]
        exact hlt
      refine (BucketTree.findEntrySetIndex_head (t.tree nodeStorage entryStorage nodeSize entrySize)
        hcount fun hn => htail (Int.ofNat_lt.1 (hcount.symm.trans_lt hn.1.2))).trans ?_
      rw [tree_nodeL1, upperBound_nodes_of_lt ha hnodes hlt', if_neg (by omega)]
  · have hcount : getCount (nodeStorage.read nodeSize 0) = t.setCount (perSet nodeSize entrySize) :=
      (getCount_read ha).trans (h.sets_fit hge).1
    have hsearch := upperBound_of_lt (getArray_sets ha h hge)
      (fun i j hij hj => Table.setStart_lt hpos hij hj) hlt
    rw [Int.zero_add] at hsearch
    refine (BucketTree.findEntrySetIndex_head (t.tree nodeStorage entryStorage nodeSize entrySize)
      hcount fun hn => absurd (Int.ofNat_lt.1 hn.1.1) (by omega)).trans ?_
    rw [tree_nodeL1, hsearch, if_neg (by omega)]

end Table.LaidOut

end FileSys
end NXEmu
