/-
# The visitor of a bucket tree

`src/nxemu-loader/core/file_sys/fssystem/fssystem_bucket_tree.{h,cpp}`: in the storages of a table `Find`
puts the visitor on the last entry that is not above the address (`find_eq`), and from there the visitor
walks over the entries that follow and those before, each once (`nexts_eq`, `previouses_eq`).
-/

import NXEmu.Loader.BucketTreeFind

namespace NXEmu
namespace FileSys

open Nat

/-- The last entry that is not above an address. -/
def Table.LastAt (t : Table) (virtualAddress : ℤ) (entry : ℕ) : Prop :=
  entry < t.count ∧ t.offsets entry ≤ virtualAddress ∧
    ∀ i, entry < i → i < t.count → virtualAddress < t.offsets i

/-- The visitor on an entry, with the bytes of the entry. -/
def Table.visitor (t : Table) (entryStorage : Storage) (nodeSize entrySize entry : ℕ) : Visitor :=
  let entries := perSet nodeSize entrySize
  let set := entry / entries
  let index := entry % entries
  ⟨entryStorage.read entrySize (set * nodeSize + 16 + index * entrySize), index, t.setCount entries,
    t.setInfo entries set⟩

namespace Visitor

/-- A client that moves a visitor to the next entry while it can, at most so many times: the visitors. -/
def nexts (t : BucketTree) : ℕ → Visitor → Except Result (List Visitor)
  | 0, _ => .ok []
  | fuel + 1, v =>
    if v.canMoveNext then do
      let next ← v.moveNext t
      return next :: (← nexts t fuel next)
    else .ok []

/-- A client that moves a visitor to the previous entry while it can. -/
def previouses (t : BucketTree) : ℕ → Visitor → Except Result (List Visitor)
  | 0, _ => .ok []
  | fuel + 1, v =>
    if v.canMovePrevious then do
      let previous ← v.movePrevious t
      return previous :: (← previouses t fuel previous)
    else .ok []

end Visitor

/-! ### The entries of a set -/

section Entries

variable {nodeSize entrySize : ℕ} {t : Table} {nodeStorage entryStorage : Storage}
  {virtualAddress : ℤ} {set entry : ℕ} (ha : Admitted nodeSize entrySize)
  (h : t.LaidOut nodeStorage entryStorage nodeSize entrySize)

namespace Table

theorem visitor_eq {index : ℕ} (hindex : index < perSet nodeSize entrySize) :
    t.visitor entryStorage nodeSize entrySize (set * perSet nodeSize entrySize + index) =
      ⟨entryStorage.read entrySize (set * nodeSize + 16 + index * entrySize), index,
        t.setCount (perSet nodeSize entrySize), t.setInfo (perSet nodeSize entrySize) set⟩ := by
  have hset : (set * perSet nodeSize entrySize + index) / perSet nodeSize entrySize = set := by
    rw [mul_comm, mul_add_div (zero_lt_of_lt hindex), div_eq_of_lt hindex, add_zero]
  have hmod : (set * perSet nodeSize entrySize + index) % perSet nodeSize entrySize = index := by
    rw [mul_add_mod_self_right, mod_eq_of_lt hindex]
  unfold visitor
  dsimp only
  rw [hset, hmod]

include ha

/-- Every entry is one of an entry set. -/
theorem exists_set (hentry : entry < t.count) :
    ∃ set index, entry = set * perSet nodeSize entrySize + index ∧ set < t.setCount (perSet nodeSize entrySize) ∧
      index < t.setEntries (perSet nodeSize entrySize) set := by
  have hpos := ha.perSet_pos
  have hmod := mod_lt entry hpos
  have hdiv := div_add_mod' entry (perSet nodeSize entrySize)
  refine ⟨entry / perSet nodeSize entrySize, entry % perSet nodeSize entrySize, hdiv.symm,
    (lt_setCount_iff hpos).2 (by omega), Nat.lt_min.2 ⟨hmod, by omega⟩⟩

/-- What is behind the last entry of a set. -/
theorem setEntries_end (hset : set < t.setCount (perSet nodeSize entrySize)) :
    (set + 1 < t.setCount (perSet nodeSize entrySize) ∧
      t.setEntries (perSet nodeSize entrySize) set = perSet nodeSize entrySize) ∨
    (set + 1 = t.setCount (perSet nodeSize entrySize) ∧
      set * perSet nodeSize entrySize + t.setEntries (perSet nodeSize entrySize) set = t.count) := by
  have hpos := ha.perSet_pos
  rcases lt_or_ge (set + 1) (t.setCount (perSet nodeSize entrySize)) with hnext | hlast
  · exact .inl ⟨hnext, setEntries_of_next hpos hnext⟩
  · refine .inr ⟨by omega, ?_⟩
    have hin := (lt_setCount_iff hpos).1 hset
    have hout := mt (lt_setCount_iff hpos).2 (not_lt.2 hlast)
    rw [add_mul, one_mul] at hout
    have hmin : t.setEntries (perSet nodeSize entrySize) set =
        t.count - set * perSet nodeSize entrySize := min_eq_right (by omega)
    omega

end Table

namespace Table.LaidOut

include ha h

theorem entrySet_eq (hset : set < t.setCount (perSet nodeSize entrySize)) :
    entryStorage.entrySet (set * nodeSize) = t.setInfo (perSet nodeSize entrySize) set := by
  obtain ⟨hindex, hcount, hstop⟩ := h.sets set hset
  have hstart := h.entries set hset 0 (setEntries_pos ha.perSet_pos hset)
  rw [cast_zero, Int.zero_mul, Int.add_zero, add_zero] at hstart
  rw [Storage.entrySet, hindex, hcount, hstop, hstart]
  rfl

omit h in
theorem verify_setInfo (hset : set < t.setCount (perSet nodeSize entrySize)) :
    (t.setInfo (perSet nodeSize entrySize) set).header.verify set nodeSize entrySize = .ok () := by
  have hentry := ha.entry
  have hnode := ha.node
  have hpos := setEntries_pos ha.perSet_pos hset
  have hle := @setEntries_le t (perSet nodeSize entrySize) set
  have hcount : ((nodeSize : ℤ) - nodeHeaderSize) / entrySize = perSet nodeSize entrySize := by
    rw [nodeHeaderSize, perSet, Int.natCast_div, cast_sub (by omega)]
    rfl
  rw [NodeHeader.verify_eq_ok, hcount]
  refine ⟨rfl, ⟨by omega, by unfold nodeHeaderSize; omega⟩, ⟨Int.ofNat_lt.2 hpos, Int.ofNat_le.2 hle⟩,
    setEnd_nonneg ha.perSet_pos hset⟩

/-- **`FindEntry`** in the set of an address. -/
theorem findEntry_of_le (hset : set < t.setCount (perSet nodeSize entrySize))
    (hle : t.setStart (perSet nodeSize entrySize) set ≤ virtualAddress) :
    ∃ index, (t.tree nodeStorage entryStorage nodeSize entrySize).findEntry virtualAddress set =
        .ok { t.visitor entryStorage nodeSize entrySize (set * perSet nodeSize entrySize + index) with
          entrySetCount := 0 } ∧
      index < t.setEntries (perSet nodeSize entrySize) set ∧
      t.offsets (set * perSet nodeSize entrySize + index) ≤ virtualAddress ∧
      (index + 1 < t.setEntries (perSet nodeSize entrySize) set →
        virtualAddress < t.offsets (set * perSet nodeSize entrySize + (index + 1))) := by
  have hentry := ha.entry
  have hnode := ha.node
  have hbound := setEntries_bound ha.perSet_pos hset
  have hentries := @setEntries_le t (perSet nodeSize entrySize) set
  obtain ⟨index, hfind, hlt, hleIndex, hnext⟩ := StorageNode.find_of_le entryStorage
    (set * nodeSize + 16) (show (0 : ℤ) < entrySize by omega) (h.entries set hset)
    (fun i j hij hj => t.sorted _ _ (Nat.add_lt_add_left hij _) (by omega))
    (setEntries_pos ha.perSet_pos hset) hle
  refine ⟨index, ?_, hlt, hleIndex, hnext⟩
  have hwithout : (t.tree nodeStorage entryStorage nodeSize entrySize).findEntryWithoutBuffer
      virtualAddress set = .ok { t.visitor entryStorage nodeSize entrySize
        (set * perSet nodeSize entrySize + index) with entrySetCount := 0 } := by
    unfold BucketTree.findEntryWithoutBuffer Table.tree
    dsimp only
    rw [entrySet_eq ha h hset, verify_setInfo ha hset, visitor_eq (by omega)]
    show (rUnless _ _ >>= _) = _
    have hcount : (t.setInfo (perSet nodeSize entrySize) set).count =
        t.setEntries (perSet nodeSize entrySize) set := rfl
    unfold nodeHeaderSize
    rw [hcount, Int.add_comm 16, hfind, rUnless_bind, if_pos (by omega)]
    rfl
  unfold BucketTree.findEntry
  rw [findEntry_buffers virtualAddress (by exact Int.ofNat_le.2 hentry) (by exact Int.ofNat_le.2 hnode), ite_self]
  exact hwithout

end Table.LaidOut

/-! ### Lookup -/

namespace Table.LaidOut

include ha h

/-- **`Find`** puts the visitor on the last entry that is not above the address. -/
theorem find_eq (hle : t.offsets 0 ≤ virtualAddress) (hlt : virtualAddress < t.endOffset) :
    ∃ entry, t.LastAt virtualAddress entry ∧
      (t.tree nodeStorage entryStorage nodeSize entrySize).find virtualAddress =
        .ok (t.visitor entryStorage nodeSize entrySize entry) := by
  have hpos := ha.perSet_pos
  have hentry := ha.entry
  have hnonneg := t.nonneg
  have hstart : t.setStart (perSet nodeSize entrySize) 0 ≤ virtualAddress := by
    rw [setStart, zero_mul]
    exact hle
  obtain ⟨set, hset, hltSet, hleSet, hnextSet⟩ := findEntrySetIndex_of_le ha h hstart
  obtain ⟨index, hfind, hltIndex, hleIndex, hnextIndex⟩ := findEntry_of_le ha h hltSet hleSet
  have hbound := setEntries_bound hpos hltSet
  refine ⟨set * perSet nodeSize entrySize + index, ⟨by omega, hleIndex, fun i hi hcount => ?_⟩, ?_⟩
  · -- the next entry is in the same set, or it is the first of the next set
    have hnext : set * perSet nodeSize entrySize + (index + 1) < t.count →
        virtualAddress < t.offsets (set * perSet nodeSize entrySize + (index + 1)) := by
      intro hlt
      rcases lt_or_ge (index + 1) (t.setEntries (perSet nodeSize entrySize) set) with hin | hout
      · exact hnextIndex hin
      · rcases setEntries_end ha hltSet with ⟨hsucc, hfull⟩ | ⟨-, hend⟩
        · rw [show set * perSet nodeSize entrySize + (index + 1) =
            (set + 1) * perSet nodeSize entrySize by rw [add_mul]; omega]
          exact hnextSet hsucc
        · omega
    rcases Nat.eq_or_lt_of_le hi with heq | hgt
    · rw [← heq]
      exact hnext (by omega)
    · exact (hnext (by omega)).trans (t.sorted _ _ (by omega) hcount)
  · unfold BucketTree.find
    rw [rUnless_bind, if_pos (by omega), rUnless_bind, if_pos (by
      show (entrySize : ℤ) ≠ 0
      omega), rUnless_bind, tree_nodeL1, getEndOffset_read ha, h.stop, if_pos hlt, hset]
    show (rUnless _ _ >>= _) = _
    rw [rUnless_bind, if_pos ⟨Int.natCast_nonneg set, Int.ofNat_lt.2 hltSet⟩, hfind]
    rfl

/-- **`Find`** fails for every other address. -/
theorem find_error (hout : ¬(t.offsets 0 ≤ virtualAddress ∧ virtualAddress < t.endOffset)) :
    ∃ result, (t.tree nodeStorage entryStorage nodeSize entrySize).find virtualAddress = .error result := by
  have hentry := ha.entry
  unfold BucketTree.find
  rw [rUnless_bind]
  split
  · rw [rUnless_bind, if_pos (by
      show (entrySize : ℤ) ≠ 0
      omega), rUnless_bind, tree_nodeL1, getEndOffset_read ha, h.stop]
    split
    · rw [findEntrySetIndex_of_lt ha h (by
        rw [setStart, zero_mul]
        omega)]
      exact ⟨_, rfl⟩
    · exact ⟨_, rfl⟩
  · exact ⟨_, rfl⟩

end Table.LaidOut

/-! ### Moves -/

namespace Table

include ha

theorem canMoveNext_iff (hentry : entry < t.count) :
    (t.visitor entryStorage nodeSize entrySize entry).canMoveNext ↔ entry + 1 < t.count := by
  obtain ⟨set, index, rfl, hset, hindex⟩ := exists_set ha hentry
  have hbound := setEntries_bound ha.perSet_pos hset
  have hle := @setEntries_le t (perSet nodeSize entrySize) set
  rw [visitor_eq (by omega)]
  unfold Visitor.canMoveNext Visitor.isValid setInfo
  dsimp only
  rcases setEntries_end ha hset with ⟨hnext, hfull⟩ | ⟨hlast, hend⟩
  · have hfirst := (lt_setCount_iff ha.perSet_pos).1 hnext
    rw [add_mul, one_mul] at hfirst
    omega
  · omega

theorem canMovePrevious_iff (hentry : entry < t.count) :
    (t.visitor entryStorage nodeSize entrySize entry).canMovePrevious ↔ 0 < entry := by
  obtain ⟨set, index, rfl, hset, hindex⟩ := exists_set ha hentry
  have hpos := ha.perSet_pos
  have hle := @setEntries_le t (perSet nodeSize entrySize) set
  rw [visitor_eq (by omega)]
  unfold Visitor.canMovePrevious Visitor.isValid setInfo
  dsimp only
  rw [add_pos_iff_pos_or_pos, mul_pos_iff_of_pos_right hpos]
  omega

end Table

namespace Visitor

variable (tree : BucketTree) {v : Visitor} (next : EntrySetInfo) (hv : v.isValid)

include hv

theorem moveNext_within (hcount : v.entryIndex + 1 ≠ v.entrySet.count) :
    v.moveNext tree = .ok (v.readEntry tree v.entrySet (v.entryIndex + 1)) := by
  unfold moveNext
  rw [rUnless_bind, if_pos hv]
  dsimp only
  rw [if_neg hcount]
  rfl

theorem moveNext_across (hcount : v.entryIndex + 1 = v.entrySet.count) (hlt : v.entrySet.index + 1 < v.entrySetCount)
    (hnext : tree.entryStorage.entrySet ((v.entrySet.index + 1) * tree.nodeSize) = next)
    (hverify : next.header.verify (v.entrySet.index + 1) tree.nodeSize tree.entrySize = .ok ())
    (hstart : next.start = v.entrySet.stop ∧ next.start < next.stop) :
    v.moveNext tree = .ok (v.readEntry tree next 0) := by
  unfold moveNext
  rw [rUnless_bind, if_pos hv]
  dsimp only
  rw [if_pos hcount, rUnless_bind, if_pos hlt, hnext, hverify]
  show (rUnless _ _ >>= _) = _
  rw [rUnless_bind, if_pos hstart]
  rfl

theorem moveNext_end (hcount : v.entryIndex + 1 = v.entrySet.count)
    (hge : v.entrySetCount ≤ v.entrySet.index + 1) : v.moveNext tree = .error .outOfRange := by
  unfold moveNext
  rw [rUnless_bind, if_pos hv]
  dsimp only
  rw [if_pos hcount, rUnless_bind, if_neg (Int.not_lt.2 hge)]

theorem movePrevious_within (hindex : v.entryIndex ≠ 0) :
    v.movePrevious tree = .ok (v.readEntry tree v.entrySet (v.entryIndex - 1)) := by
  unfold movePrevious
  rw [rUnless_bind, if_pos hv]
  dsimp only
  rw [if_neg hindex]
  rfl

theorem movePrevious_across (hindex : v.entryIndex = 0) (hlt : 0 < v.entrySet.index)
    (hprevious : tree.entryStorage.entrySet ((v.entrySet.index - 1) * tree.nodeSize) = next)
    (hverify : next.header.verify (v.entrySet.index - 1) tree.nodeSize tree.entrySize = .ok ())
    (hstop : next.stop = v.entrySet.start ∧ next.start < next.stop) :
    v.movePrevious tree = .ok (v.readEntry tree next (next.count - 1)) := by
  unfold movePrevious
  rw [rUnless_bind, if_pos hv]
  dsimp only
  rw [if_pos hindex, rUnless_bind, if_pos hlt, hprevious, hverify]
  show (rUnless _ _ >>= _) = _
  rw [rUnless_bind, if_pos hstop]
  rfl

theorem movePrevious_begin (hindex : v.entryIndex = 0) (hle : v.entrySet.index ≤ 0) :
    v.movePrevious tree = .error .outOfRange := by
  unfold movePrevious
  rw [rUnless_bind, if_pos hv]
  dsimp only
  rw [if_pos hindex, rUnless_bind, if_neg (Int.not_lt.2 hle)]

end Visitor

namespace Table.LaidOut

/-- The entry that a visitor of an entry set reads. -/
theorem readEntry_eq {v : Visitor} {index : ℕ} (hindex : index < perSet nodeSize entrySize)
    (hcount : v.entrySetCount = t.setCount (perSet nodeSize entrySize)) :
    v.readEntry (t.tree nodeStorage entryStorage nodeSize entrySize)
      (t.setInfo (perSet nodeSize entrySize) set) index =
        t.visitor entryStorage nodeSize entrySize (set * perSet nodeSize entrySize + index) := by
  rw [visitor_eq hindex, Visitor.readEntry, hcount]
  rfl

include ha h

/-- **`MoveNext`** goes to the entry that follows. -/
theorem moveNext_eq (hentry : entry + 1 < t.count) :
    (t.visitor entryStorage nodeSize entrySize entry).moveNext (t.tree nodeStorage entryStorage nodeSize entrySize) =
        .ok (t.visitor entryStorage nodeSize entrySize (entry + 1)) := by
  have hpos := ha.perSet_pos
  obtain ⟨set, index, rfl, hset, hindex⟩ := exists_set ha (lt_of_succ_lt hentry)
  have hle := @setEntries_le t (perSet nodeSize entrySize) set
  rw [visitor_eq (hindex.trans_le hle)]
  rcases lt_or_ge (index + 1) (t.setEntries (perSet nodeSize entrySize) set) with hin | hout
  · refine Eq.trans (Visitor.moveNext_within _ ?_ ?_)
      (congrArg Except.ok (readEntry_eq (hin.trans_le hle) rfl))
    · exact Int.natCast_nonneg index
    · exact fun heq => hin.ne (Int.ofNat.inj heq)
  · rcases setEntries_end ha hset with ⟨hnext, hfull⟩ | ⟨-, hend⟩
    · have hfirst : set * perSet nodeSize entrySize + index + 1 = (set + 1) * perSet nodeSize entrySize + 0 := by
        rw [add_mul]
        omega
      rw [hfirst]
      refine Eq.trans (Visitor.moveNext_across _ _ ?_ ?_ ?_ (entrySet_eq ha h hnext)
        (verify_setInfo ha hnext) ⟨?_, setStart_lt_setEnd hpos hnext⟩)
          (congrArg Except.ok (readEntry_eq hpos rfl))
      · exact Int.natCast_nonneg index
      · exact congrArg Nat.cast (show index + 1 = t.setEntries (perSet nodeSize entrySize) set by omega)
      · exact Int.ofNat_lt.2 hnext
      · exact (setEnd_of_next hpos hnext).symm
    · omega

/-- **`MovePrevious`** goes to the entry before. -/
theorem movePrevious_eq (hentry : entry + 1 < t.count) :
    (t.visitor entryStorage nodeSize entrySize (entry + 1)).movePrevious
      (t.tree nodeStorage entryStorage nodeSize entrySize) =
        .ok (t.visitor entryStorage nodeSize entrySize entry) := by
  have hpos := ha.perSet_pos
  obtain ⟨set, index, rfl, hset, hindex⟩ := exists_set ha (lt_of_succ_lt hentry)
  have hle := @setEntries_le t (perSet nodeSize entrySize) set
  rcases lt_or_ge (index + 1) (t.setEntries (perSet nodeSize entrySize) set) with hin | hout
  · rw [add_assoc, visitor_eq (hin.trans_le hle)]
    refine Eq.trans (Visitor.movePrevious_within _ ?_ ?_) (congrArg Except.ok ?_)
    · exact Int.natCast_nonneg (index + 1)
    · exact fun heq => succ_ne_zero index (Int.ofNat.inj heq)
    · have hprevious : ((index + 1 : ℕ) : ℤ) - 1 = index := by omega
      exact (congrArg (Visitor.readEntry _ _ _) hprevious).trans
        (readEntry_eq (hindex.trans_le hle) rfl)
  · rcases setEntries_end ha hset with ⟨hnext, hfull⟩ | ⟨-, hend⟩
    · have hfirst : set * perSet nodeSize entrySize + index + 1 = (set + 1) * perSet nodeSize entrySize + 0 := by
        rw [add_mul]
        omega
      have hprevious : ((set + 1 : ℕ) : ℤ) - 1 = set := by omega
      have hcount : ((t.setEntries (perSet nodeSize entrySize) set : ℕ) : ℤ) - 1 = index := by omega
      rw [hfirst, visitor_eq hpos]
      refine Eq.trans (Visitor.movePrevious_across _
        (t.setInfo (perSet nodeSize entrySize) set) ?_ ?_ ?_ ?_ ?_
          ⟨?_, setStart_lt_setEnd hpos hset⟩) (congrArg Except.ok ?_)
      · exact Int.natCast_nonneg 0
      · rfl
      · exact Int.natCast_pos.2 (succ_pos set)
      · exact (congrArg (fun i : ℤ => entryStorage.entrySet (i * nodeSize)) hprevious).trans
          (entrySet_eq ha h hset)
      · exact (congrArg (fun i : ℤ => NodeHeader.verify _ i nodeSize entrySize) hprevious).trans
          (verify_setInfo ha hset)
      · exact setEnd_of_next hpos hnext
      · exact (congrArg (Visitor.readEntry _ _ _) hcount).trans
          (readEntry_eq (hindex.trans_le hle) rfl)
    · omega

omit h in
/-- Behind the last entry **`MoveNext`** fails. -/
theorem moveNext_last (hentry : entry + 1 = t.count) :
    (t.visitor entryStorage nodeSize entrySize entry).moveNext
      (t.tree nodeStorage entryStorage nodeSize entrySize) = .error .outOfRange := by
  obtain ⟨set, index, rfl, hset, hindex⟩ := exists_set ha (by omega : entry < t.count)
  have hle := @setEntries_le t (perSet nodeSize entrySize) set
  have hbound := setEntries_bound ha.perSet_pos hset
  rw [visitor_eq (hindex.trans_le hle)]
  rcases setEntries_end ha hset with ⟨hnext, hfull⟩ | ⟨hlast, -⟩
  · have := (lt_setCount_iff ha.perSet_pos).1 hnext
    rw [add_mul, one_mul] at this
    omega
  · refine Visitor.moveNext_end _ ?_ ?_ ?_
    · exact Int.natCast_nonneg index
    · exact congrArg Nat.cast (show index + 1 = t.setEntries (perSet nodeSize entrySize) set by omega)
    · exact Int.ofNat_le.2 hlast.ge

omit h in
/-- Before the first entry **`MovePrevious`** fails. -/
theorem movePrevious_first : (t.visitor entryStorage nodeSize entrySize 0).movePrevious
    (t.tree nodeStorage entryStorage nodeSize entrySize) = .error .outOfRange := by
  have heq : t.visitor entryStorage nodeSize entrySize 0 = _ :=
    (congrArg _ (zero_mul (perSet nodeSize entrySize)).symm).trans (visitor_eq ha.perSet_pos)
  rw [heq]
  refine Visitor.movePrevious_begin _ ?_ ?_ ?_
  · exact Int.natCast_nonneg 0
  · rfl
  · exact Int.le_refl 0

end Table.LaidOut

/-! ### Walks -/

namespace Table.LaidOut

include ha h

/-- **The walk forwards** is over the entries that follow, each once. -/
theorem nexts_eq (fuel : ℕ) (hentry : entry < t.count) (hfuel : t.count ≤ entry + 1 + fuel) :
    Visitor.nexts (t.tree nodeStorage entryStorage nodeSize entrySize) fuel
      (t.visitor entryStorage nodeSize entrySize entry) = .ok ((List.range' (entry + 1) (t.count - (entry + 1))).map
          (t.visitor entryStorage nodeSize entrySize)) := by
  induction fuel generalizing entry with
  | zero =>
    rw [Nat.sub_eq_zero_of_le hfuel]
    rfl
  | succ fuel ih =>
    rw [Visitor.nexts]
    by_cases hnext : entry + 1 < t.count
    · rw [if_pos ((canMoveNext_iff ha hentry).2 hnext), moveNext_eq ha h hnext,
        show t.count - (entry + 1) = t.count - (entry + 1 + 1) + 1 by omega, List.range'_succ,
        List.map_cons]
      show (Visitor.nexts _ fuel (t.visitor entryStorage nodeSize entrySize (entry + 1)) >>= _) = _
      rw [ih hnext (by omega)]
      rfl
    · rw [if_neg (mt (canMoveNext_iff ha hentry).1 hnext), Nat.sub_eq_zero_of_le (by omega)]
      rfl

/-- **The walk backwards** is over the entries before, each once. -/
theorem previouses_eq (fuel : ℕ) (hentry : entry < t.count) (hfuel : entry ≤ fuel) :
    Visitor.previouses (t.tree nodeStorage entryStorage nodeSize entrySize) fuel
      (t.visitor entryStorage nodeSize entrySize entry) =
        .ok ((List.range entry).reverse.map (t.visitor entryStorage nodeSize entrySize)) := by
  induction fuel generalizing entry with
  | zero =>
    obtain rfl : entry = 0 := by omega
    rfl
  | succ fuel ih =>
    rw [Visitor.previouses]
    rcases eq_zero_or_eq_succ_pred entry with rfl | hsucc
    · rw [if_neg fun hcan => absurd ((canMovePrevious_iff ha hentry).1 hcan) (lt_irrefl 0)]
      rfl
    · generalize entry.pred = previous at hsucc
      subst hsucc
      rw [if_pos ((canMovePrevious_iff ha hentry).2 (succ_pos previous)),
        movePrevious_eq ha h hentry, List.range_succ, List.reverse_append, List.map_append]
      show (Visitor.previouses _ fuel (t.visitor entryStorage nodeSize entrySize previous) >>= _) = _
      rw [ih (lt_of_succ_lt hentry) (by omega)]
      rfl

end Table.LaidOut

end Entries

end FileSys
end NXEmu
