/-
# Tables in the format of a bucket tree

`src/nxemu-loader/core/file_sys/fssystem/fssystem_bucket_tree.{h,cpp}`: what a table is (`Table`), how
the format lays it out in two storages (`LaidOut`), and what the searches of the code find in a node.
Both ways to read a node, into a buffer and from the storage, are the same search.
-/

import NXEmu.Loader.BucketTree

namespace NXEmu
namespace FileSys

open BinarySearch

/-! ### Reading -/

variable {s : Storage} {size offset i : ℤ}

theorem Storage.read_apply (h : 0 ≤ i ∧ i < size) : s.read size offset i = s (offset + i) := if_pos h

theorem Storage.readS32_read (h : 0 ≤ i ∧ i + 4 ≤ size) :
    (s.read size offset).readS32 i = s.readS32 (offset + i) := by
  unfold readS32
  rw [read_apply (by omega), read_apply (by omega), read_apply (by omega), read_apply (by omega)]
  simp only [Int.add_assoc]

theorem Storage.readS64_read (h : 0 ≤ i ∧ i + 8 ≤ size) :
    (s.read size offset).readS64 i = s.readS64 (offset + i) := by
  unfold readS64
  rw [read_apply (by omega), read_apply (by omega), read_apply (by omega), read_apply (by omega),
    read_apply (by omega), read_apply (by omega), read_apply (by omega), read_apply (by omega)]
  simp only [Int.add_assoc]

theorem Storage.header_read (h : 0 ≤ i ∧ i + 16 ≤ size) :
    (s.read size offset).header i = s.header (offset + i) := by
  rw [header, header, readS32_read (by omega), readS32_read (by omega), readS64_read (by omega)]
  simp only [Int.add_assoc]

theorem Storage.entrySet_read (h : 0 ≤ i ∧ i + 24 ≤ size) :
    (s.read size offset).entrySet i = s.entrySet (offset + i) := by
  rw [entrySet, entrySet, readS32_read (by omega), readS32_read (by omega), readS64_read (by omega),
    readS64_read (by omega)]
  simp only [Int.add_assoc]

theorem Storage.read_read {size' offset' : ℤ} (h : 0 ≤ offset' ∧ offset' + size' ≤ size) :
    (s.read size offset).read size' offset' = s.read size' (offset + offset') := by
  funext j
  unfold read
  by_cases hj : 0 ≤ j ∧ j < size'
  · rw [if_pos hj, if_pos hj, if_pos (by omega), Int.add_assoc]
  · rw [if_neg hj, if_neg hj]

/-! ### Searching a node -/

theorem StorageNode.findFrom_eq (start stride virtualAddress : ℤ) (pos stop rounds : ℕ) :
    findFrom s stride virtualAddress rounds (start + pos * stride) stop = start +
      bisectFrom (fun j => decide (s.readS64 (start + j * stride) ≤ virtualAddress)) rounds pos stop * stride := by
  induction rounds generalizing pos stop with
  | zero => rfl
  | succ rounds ih =>
    have hmid : start + pos * stride + ((stop / 2 : ℕ) : ℤ) * stride =
        start + ((pos + stop / 2 : ℕ) : ℤ) * stride := by
      push_cast
      ring
    have hnext : start + ((pos + stop / 2 : ℕ) : ℤ) * stride + stride =
        start + ((pos + stop / 2 + 1 : ℕ) : ℤ) * stride := by
      push_cast
      ring
    rw [findFrom, bisectFrom]
    by_cases hstop : stop = 0
    · rw [if_pos hstop, if_pos hstop]
    · rw [if_neg hstop, if_neg hstop]
      dsimp only
      rw [hmid]
      by_cases hle : s.readS64 (start + ((pos + stop / 2 : ℕ) : ℤ) * stride) ≤ virtualAddress
      · rw [if_pos hle, if_pos (decide_eq_true hle), hnext, ih]
      · rw [if_neg hle, if_neg (by rw [decide_eq_false hle]; exact Bool.false_ne_true), ih]

/-- `StorageNode::Find` is a binary search over the records of the node. -/
theorem StorageNode.find_eq {n : StorageNode} (hstride : 0 < n.stride) (virtualAddress : ℤ) :
    n.find s virtualAddress = bisect (fun j =>
      decide (s.readS64 (n.start + j * n.stride) ≤ virtualAddress)) 0 n.count.toNat - 1 := by
  have hfind := findFrom_eq (s := s) n.start n.stride virtualAddress 0 n.count.toNat n.count.toNat
  rw [Nat.cast_zero, Int.zero_mul, Int.add_zero] at hfind
  rw [find, hfind, add_sub_cancel_left, Int.mul_ediv_cancel _ hstride.ne', bisect]

theorem StorageNode.find_lt {n : StorageNode} (hstride : 0 < n.stride) (hcount : 0 < n.count)
    (virtualAddress : ℤ) : n.find s virtualAddress < n.count := by
  have hle : bisect (fun j => decide (s.readS64 (n.start + j * n.stride) ≤ virtualAddress)) 0
      n.count.toNat ≤ 0 + n.count.toNat := bisectFrom_le
  rw [find_eq hstride]
  omega

/-- **The buffered search is the unbuffered one.** -/
theorem StorageNode.find_read {start stride count : ℤ} (hstart : 0 ≤ start) (hstride : 8 ≤ stride)
    (hsize : start + count * stride ≤ size) (virtualAddress : ℤ) :
    (⟨start, stride, count⟩ : StorageNode).find (s.read size offset) virtualAddress =
      (⟨start + offset, stride, count⟩ : StorageNode).find s virtualAddress := by
  rw [find_eq (by dsimp only; omega), find_eq (by dsimp only; omega)]
  dsimp only
  congr 2
  refine bisectFrom_congr fun i _ hi => ?_
  have hcount : ((i : ℤ) + 1) * stride ≤ count * stride :=
    Int.mul_le_mul_of_nonneg_right (by omega) (by omega)
  have hpos : 0 ≤ (i : ℤ) * stride := Int.mul_nonneg (by omega) (by omega)
  rw [Int.add_mul, Int.one_mul] at hcount
  rw [Storage.readS64_read (by omega), show offset + (start + i * stride) = start + offset + i * stride by omega]

/-! ### Checks -/

theorem rUnless_bind {α : Type} (p : Prop) [Decidable p] (result : Result) (f : Unit → Except Result α) :
    (rUnless p result >>= f) = if p then f () else .error result := by
  unfold rUnless
  split <;> rfl

theorem error_ne_ok {α : Type} {result : Result} {a : α} : Except.error result ≠ .ok a := by
  intro h
  cases h

theorem rUnless_eq_ok {p : Prop} [Decidable p] {result : Result} :
    rUnless p result = .ok () ↔ p := by
  unfold rUnless
  split
  · exact iff_of_true rfl ‹p›
  · exact iff_of_false error_ne_ok ‹¬p›

/-- What a header has when it passes its check. -/
theorem NodeHeader.verify_eq_ok {h : NodeHeader} {nodeIndex nodeSize entrySize : ℤ} :
    h.verify nodeIndex nodeSize entrySize = .ok () ↔
      h.index = nodeIndex ∧ (entrySize ≠ 0 ∧ entrySize + nodeHeaderSize ≤ nodeSize) ∧
        (0 < h.count ∧ h.count ≤ (nodeSize - nodeHeaderSize) / entrySize) ∧ 0 ≤ h.offset := by
  unfold verify
  rw [rUnless_bind, rUnless_bind, rUnless_bind]
  by_cases hindex : h.index = nodeIndex
  · rw [if_pos hindex, and_iff_right hindex]
    by_cases hsize : entrySize ≠ 0 ∧ entrySize + nodeHeaderSize ≤ nodeSize
    · rw [if_pos hsize, and_iff_right hsize]
      by_cases hcount : 0 < h.count ∧ h.count ≤ (nodeSize - nodeHeaderSize) / entrySize
      · rw [if_pos hcount, and_iff_right hcount, rUnless_eq_ok]
      · rw [if_neg hcount]
        exact iff_of_false error_ne_ok fun h => hcount h.1
    · rw [if_neg hsize]
      exact iff_of_false error_ne_ok fun h => hsize h.1
  · rw [if_neg hindex]
    exact iff_of_false error_ne_ok fun h => hindex h.1

/-! ### Tables -/

/-- A table: entries by their virtual offsets, and where the last one ends. -/
structure Table where
  count : ℕ
  offsets : ℕ → ℤ
  endOffset : ℤ
  pos : 0 < count
  bound : count < 2 ^ 31
  nonneg : 0 ≤ offsets 0
  sorted : ∀ i j, i < j → j < count → offsets i < offsets j
  last : ∀ i, i < count → offsets i < endOffset

/-- The sizes that `Initialize` admits. -/
structure Admitted (nodeSize entrySize : ℕ) : Prop where
  entry : 8 ≤ entrySize
  node : entrySize + 16 ≤ nodeSize
  min : 1024 ≤ nodeSize
  max : nodeSize ≤ 524288
  pow : ∃ k, nodeSize = 2 ^ k

/-- The entries of a full entry set. -/
def perSet (nodeSize entrySize : ℕ) : ℕ := (nodeSize - 16) / entrySize

/-- The offsets of a full node. -/
def perNode (nodeSize : ℕ) : ℕ := (nodeSize - 16) / 8

namespace Table

variable (t : Table) (entries : ℕ)

/-- The number of entry sets of so many entries each. -/
def setCount : ℕ := (t.count + (entries - 1)) / entries

/-- The number of entries of an entry set. -/
def setEntries (set : ℕ) : ℕ := Nat.min entries (t.count - set * entries)

/-- Where an entry set starts. -/
def setStart (set : ℕ) : ℤ := t.offsets (set * entries)

/-- Where an entry set ends. -/
def setEnd (set : ℕ) : ℤ :=
  if (set + 1) * entries < t.count then t.offsets ((set + 1) * entries) else t.endOffset

/-- The header of an entry set, with its first entry. -/
def setInfo (set : ℕ) : EntrySetInfo :=
  ⟨set, t.setEntries entries set, t.setEnd entries set, t.setStart entries set⟩

/-- The offsets of nodes L2 in L1, which has so many, begin behind the sets that L1 itself has. -/
def firstSet (offsets nodes node : ℕ) : ℕ := (offsets - nodes) + node * offsets

/-- A node L2 among so many. -/
structure NodeLaidOut (storage : Storage) (position : ℤ) (offsets nodes node : ℕ) : Prop where
  index : storage.readS32 position = node
  count : storage.readS32 (position + 4) =
    Nat.min offsets (t.setCount entries - firstSet offsets nodes node)
  offset : 0 ≤ storage.readS64 (position + 8)
  array : ∀ j, j < Nat.min offsets (t.setCount entries - firstSet offsets nodes node) →
    storage.readS64 (position + 16 + j * 8) = t.setStart entries (firstSet offsets nodes node + j)

/-- The nodes, when there are so many nodes L2. -/
structure NodesLaidOut (storage : Storage) (nodeSize offsets nodes : ℕ) : Prop where
  pos : 0 < nodes
  le : nodes ≤ offsets
  enough : t.setCount entries ≤ firstSet offsets nodes nodes
  least : firstSet offsets nodes (nodes - 1) < t.setCount entries
  count : storage.readS32 4 = nodes
  starts : ∀ j, j < nodes →
    storage.readS64 (16 + j * 8) = t.setStart entries (firstSet offsets nodes j)
  tail : ∀ j, j < offsets - nodes → storage.readS64 (16 + (nodes + j : ℕ) * 8) = t.setStart entries j
  nodes : ∀ node, node < nodes →
    t.NodeLaidOut entries storage ((node + 1 : ℕ) * nodeSize) offsets nodes node

/-- **The table in the format.** -/
structure LaidOut (nodeStorage entryStorage : Storage) (nodeSize entrySize : ℕ) : Prop where
  sets : ∀ set, set < t.setCount (perSet nodeSize entrySize) →
    entryStorage.readS32 (set * nodeSize) = set ∧
    entryStorage.readS32 (set * nodeSize + 4) = t.setEntries (perSet nodeSize entrySize) set ∧
    entryStorage.readS64 (set * nodeSize + 8) = t.setEnd (perSet nodeSize entrySize) set
  entries : ∀ set, set < t.setCount (perSet nodeSize entrySize) →
    ∀ j, j < t.setEntries (perSet nodeSize entrySize) set →
      entryStorage.readS64 (set * nodeSize + 16 + j * entrySize) =
        t.offsets (set * perSet nodeSize entrySize + j)
  index : nodeStorage.readS32 0 = 0
  stop : nodeStorage.readS64 8 = t.endOffset
  sets_fit : t.setCount (perSet nodeSize entrySize) ≤ perNode nodeSize →
    nodeStorage.readS32 4 = t.setCount (perSet nodeSize entrySize) ∧
    ∀ j, j < t.setCount (perSet nodeSize entrySize) →
      nodeStorage.readS64 (16 + j * 8) = t.setStart (perSet nodeSize entrySize) j
  nodes : perNode nodeSize < t.setCount (perSet nodeSize entrySize) →
    ∃ nodes, t.NodesLaidOut (perSet nodeSize entrySize) nodeStorage nodeSize (perNode nodeSize) nodes

variable {t entries} {set set' : ℕ}

theorem setCount_pos (hentries : 0 < entries) : 0 < t.setCount entries := by
  have := t.pos
  exact Nat.div_pos (by omega) hentries

/-- The entries of the sets are those of the table. -/
theorem lt_setCount_iff (hentries : 0 < entries) :
    set < t.setCount entries ↔ set * entries < t.count := by
  rw [setCount, Nat.lt_iff_add_one_le, Nat.le_div_iff_mul_le hentries, Nat.add_mul, Nat.one_mul]
  omega

theorem setEntries_pos (hentries : 0 < entries) (hset : set < t.setCount entries) :
    0 < t.setEntries entries set := by
  have := (lt_setCount_iff hentries).1 hset
  exact Nat.lt_min.2 ⟨hentries, by omega⟩

theorem setEntries_le : t.setEntries entries set ≤ entries := Nat.min_le_left ..

section

variable (hentries : 0 < entries)

include hentries

theorem setEntries_bound (hset : set < t.setCount entries) :
    set * entries + t.setEntries entries set ≤ t.count := by
  have := (lt_setCount_iff hentries).1 hset
  have hmin : t.setEntries entries set ≤ t.count - set * entries := Nat.min_le_right ..
  omega

/-- A set that is not the last one is full. -/
theorem setEntries_of_next (hset : set + 1 < t.setCount entries) :
    t.setEntries entries set = entries := by
  have := (lt_setCount_iff hentries).1 hset
  rw [Nat.add_mul, Nat.one_mul] at this
  exact Nat.min_eq_left (by omega)

theorem setStart_lt (hlt : set < set') (hset : set' < t.setCount entries) :
    t.setStart entries set < t.setStart entries set' :=
  t.sorted _ _ (Nat.mul_lt_mul_of_pos_right hlt hentries) ((lt_setCount_iff hentries).1 hset)

theorem setEnd_of_next (hset : set + 1 < t.setCount entries) :
    t.setEnd entries set = t.setStart entries (set + 1) :=
  if_pos ((lt_setCount_iff hentries).1 hset)

theorem setEnd_of_last (hset : set + 1 = t.setCount entries) :
    t.setEnd entries set = t.endOffset :=
  if_neg fun h => absurd ((lt_setCount_iff hentries).2 h) (by omega)

theorem setStart_lt_setEnd (hset : set < t.setCount entries) :
    t.setStart entries set < t.setEnd entries set := by
  rcases Nat.lt_or_ge (set + 1) (t.setCount entries) with hnext | hlast
  · rw [setEnd_of_next hentries hnext]
    exact setStart_lt hentries (Nat.lt_succ_self set) hnext
  · rw [setEnd_of_last hentries (by omega)]
    exact t.last _ ((lt_setCount_iff hentries).1 hset)

end

theorem offsets_nonneg {i : ℕ} (hi : i < t.count) : 0 ≤ t.offsets i := by
  rcases Nat.eq_zero_or_pos i with rfl | hpos
  · exact t.nonneg
  · exact t.nonneg.trans (t.sorted 0 i hpos hi).le

theorem setEnd_nonneg (hentries : 0 < entries) (hset : set < t.setCount entries) :
    0 ≤ t.setEnd entries set :=
  (offsets_nonneg ((lt_setCount_iff hentries).1 hset)).trans (setStart_lt_setEnd hentries hset).le

end Table

end FileSys
end NXEmu
