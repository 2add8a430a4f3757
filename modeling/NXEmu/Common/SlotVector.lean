/-
# The slot vector

`yuzu_common/slot_vector.h`: objects in slots that keep their index, a bit for every slot and a list of
the free ones.  A full vector doubles its capacity and moves every object whose bit is set.  While there
are no more than 2^31 objects, a slot is free or holds the object inserted into it, and both ways to go
through the slots come by the occupied ones in order (`Reached.keepsSlots`).

The index is a `u32` and the last value of it stands for no slot.  At one object more the capacity
becomes 2^32: the slot handed out is the one with that index, and the number of bits, which is computed
in 32 bits, becomes 0, so that the iterator stays where it is for ever (`full_not_exact`).
-/

import NXEmu.Lib.Exec
import NXEmu.Lib.SummaryBitmap
import Mathlib.Data.List.Sort

namespace NXEmu
namespace Common

open SummaryBitmap Function List

/-- `SlotId::INVALID_INDEX` -/
def invalidIndex : ℕ := 2 ^ 32 - 1

/-- `SlotVector`, with the objects that are constructed, the words of the bitset and their number. -/
structure SlotVector (T : Type) where
  values : ℕ → Option T
  valuesCapacity : ℕ
  storedBitset : ℕ → BitVec 64
  numWords : ℕ
  freeList : List ℕ

namespace SlotVector

variable {T : Type}

/-- The vector without slots. -/
def new : SlotVector T := ⟨fun _ => none, 0, fun _ => 0, 0, []⟩

/-- Move the objects of a word: the loop over its bits from `bit` on. -/
def moveBits (values : ℕ → Option T) (index : ℕ) :
    ℕ → ℕ → BitVec 64 → (ℕ → Option T) → (ℕ → Option T)
  | 0, _, _, newValues => newValues
  | rounds + 1, bit, bits, newValues =>
    if bits = 0 then newValues
    else
      let newValues := if bits &&& 1 = 0 then newValues
        else Function.update newValues (index + bit) (values (index + bit))
      moveBits values index rounds (bit + 1) (bits >>> 1) newValues

variable (v : SlotVector T)

/-- Move the objects of all words. -/
def moveValues : ℕ → Option T :=
  (List.range v.numWords).foldl (fun newValues word =>
    moveBits v.values (word * 64) 64 0 (v.storedBitset word) newValues) fun _ => none

/-- `Reserve` -/
def reserve (newCapacity : ℕ) : SlotVector T where
  values := v.moveValues
  valuesCapacity := newCapacity
  storedBitset := fun word => if word < v.numWords ∧ word < (newCapacity + 63) / 64 then v.storedBitset word else 0
  numWords := (newCapacity + 63) / 64
  freeList := v.freeList ++ (List.range (newCapacity - v.valuesCapacity)).map fun k =>
    (v.valuesCapacity + k) % 2 ^ 32

/-- `FreeValueIndex` -/
def freeValueIndex : ℕ × SlotVector T :=
  let v := if v.freeList = [] then
      v.reserve (if v.valuesCapacity ≠ 0 then v.valuesCapacity * 2 else 1)
    else v
  (v.freeList.getLastD 0, { v with freeList := v.freeList.dropLast })

/-- Set or reset the bit of a slot: `SetStorageBit` and `ResetStorageBit`. -/
def writeStorageBit (index : ℕ) (value : Bool) : SlotVector T :=
  let word := putWord (v.storedBitset (index / 64)) (index % 64) value
  { v with storedBitset := Function.update v.storedBitset (index / 64) word }

/-- `insert` -/
def insert (object : T) : ℕ × SlotVector T :=
  let (index, v) := v.freeValueIndex
  let v := { v with values := Function.update v.values index (some object) }
  (index, v.writeStorageBit index true)

/-- `erase` -/
def erase (id : ℕ) : SlotVector T :=
  let v := { v with values := Function.update v.values id none, freeList := v.freeList ++ [id] }
  v.writeStorageBit id false

/-- Whether the bit of a slot is set: `IsValid` of an iterator. -/
def isValid (index : ℕ) : Bool := ((v.storedBitset (index / 64)) >>> (index % 64)) &&& 1 ≠ 0

/-- `operator[]`, with the assertions of `ValidateIndex`. -/
def get (id : ℕ) : Exec T := do
  Exec.assert (id ≠ invalidIndex)
  Exec.assert (id / 64 < v.numWords)
  Exec.assert (v.isValid id = true)
  match v.values id with
  | none => .fault
  | some object => return object

/-- `size` -/
def size : ℕ := v.valuesCapacity - v.freeList.length

/-- The number of bits, as the iterator computes it. -/
def bitsSize : ℕ := v.numWords % 2 ^ 32 * 64 % 2 ^ 32

/-- The loop of `operator++`: there are no more rounds than bits. -/
def nextIndex (size : ℕ) : ℕ → ℕ → ℕ
  | 0, index => index
  | rounds + 1, index =>
    let index := (index + 1) % 2 ^ 32
    if index < size ∧ v.isValid index = false then nextIndex size rounds index else index

/-- `operator++` of an iterator, on its index. -/
def next (index : ℕ) : ℕ :=
  if index < v.bitsSize then
    let index := v.nextIndex v.bitsSize v.bitsSize index
    if index = v.bitsSize then invalidIndex else index
  else index

/-- `begin` -/
def begin : ℕ :=
  match (List.range v.numWords).find? fun word => v.storedBitset word ≠ 0 with
  | none => invalidIndex
  | some word => (word % 2 ^ 32 * 64 + firstBit (v.storedBitset word)) % 2 ^ 32

/-- A loop from an iterator to `end()` ends and comes by the slots `l`. -/
inductive Traversal (v : SlotVector T) : ℕ → List ℕ → Prop
  | done : Traversal v invalidIndex []
  | step {index : ℕ} {l : List ℕ} (hindex : index ≠ invalidIndex) (h : Traversal v (v.next index) l) :
      Traversal v index (index :: l)

/-- The occupied slots of a word: the loop of `ForEachOccupied` that takes off the first bit. -/
def visitWord (word : ℕ) : ℕ → BitVec 64 → List ℕ
  | 0, _ => []
  | rounds + 1, remaining =>
    if remaining = 0 then []
    else (word * 64 + firstBit remaining) :: visitWord word rounds (remaining &&& (remaining - 1))

/-- `ForEachOccupied`: the slots and the objects a visitor gets. -/
def forEachOccupied : List (ℕ × Option T) :=
  (List.range v.numWords).flatMap fun word =>
    (visitWord word 64 (v.storedBitset word)).map fun index => (index, v.values index)

/-! ### Bits and objects -/

variable {v} {i j n k index bit : ℕ} {word : BitVec 64}

/-- The bit of a slot. -/
def bitAt (v : SlotVector T) (i : ℕ) : Bool := (v.storedBitset (i / 64)).getLsbD (i % 64)

theorem isValid_eq (v : SlotVector T) (i : ℕ) : v.isValid i = v.bitAt i := by
  have hiff := @and_bit_eq_zero_iff 0 (v.storedBitset (i / 64) >>> (i % 64)) (by decide)
  rw [BitVec.shiftLeft_zero, BitVec.getLsbD_ushiftRight, Nat.add_zero] at hiff
  rw [isValid, bitAt]
  cases hbit : (v.storedBitset (i / 64)).getLsbD (i % 64) with
  | false => exact decide_eq_false (not_not.2 (hiff.2 hbit))
  | true =>
    refine decide_eq_true fun h => ?_
    rw [hiff.1 h] at hbit
    exact Bool.false_ne_true hbit

theorem bitAt_writeStorageBit (v : SlotVector T) (i : ℕ) (value : Bool) (j : ℕ) :
    (v.writeStorageBit i value).bitAt j = if j = i then value else v.bitAt j := by
  rw [bitAt, bitAt, writeStorageBit]
  dsimp only
  rw [update_apply]
  split_ifs with hword hji
  · rw [getLsbD_putWord (Nat.mod_lt _ (by decide)), if_pos (by rw [hji])]
  · rw [getLsbD_putWord (Nat.mod_lt _ (by decide)), if_neg (by omega), hword]
  · exact absurd (by rw [‹j = i›]) hword
  · rfl

/-- The loop over the bits of a word moves the objects whose bits are set. -/
theorem moveBits_eq (values : ℕ → Option T) (index : ℕ) (hlt : word.toNat < 2 ^ n) (newValues : ℕ → Option T) :
    moveBits values index n bit word newValues i =
      if index + bit ≤ i ∧ word.getLsbD (i - (index + bit)) = true then values i else newValues i := by
  induction n generalizing bit word newValues with
  | zero =>
    have hzero : word = 0 := BitVec.eq_of_toNat_eq (by
      rw [Nat.pow_zero] at hlt
      exact Nat.lt_one_iff.1 hlt)
    rw [moveBits, hzero, if_neg (by simp)]
  | succ n ih =>
    rw [moveBits]
    by_cases hzero : word = 0
    · rw [if_pos hzero, hzero, if_neg (by simp)]
    have hshift : (word >>> 1).toNat < 2 ^ n := by
      rw [BitVec.toNat_ushiftRight, Nat.shiftRight_eq_div_pow, Nat.pow_one, Nat.div_lt_iff_lt_mul (by decide),
        ← Nat.pow_succ]
      exact hlt
    have hfirst : word &&& 1 = 0 ↔ word.getLsbD 0 = false := by
      have hiff := @and_bit_eq_zero_iff 0 word (by decide)
      rwa [BitVec.shiftLeft_zero] at hiff
    rw [if_neg hzero, ih hshift, BitVec.getLsbD_ushiftRight]
    rcases lt_trichotomy i (index + bit) with hlt | heq | hgt
    · -- before the bit
      have hbefore : ∀ p : Prop, ¬ (index + bit ≤ i ∧ p) := fun p h => by omega
      have hbefore' : ∀ p : Prop, ¬ (index + (bit + 1) ≤ i ∧ p) := fun p h => by omega
      rw [if_neg (hbefore _), if_neg (hbefore' _)]
      split_ifs
      · rfl
      · exact update_of_ne hlt.ne ..
    · -- the bit itself
      have hbefore' : ∀ p : Prop, ¬ (index + (bit + 1) ≤ i ∧ p) := fun p h => by omega
      rw [if_neg (hbefore' _), heq, Nat.sub_self]
      cases hbit : word.getLsbD 0 with
      | false => rw [if_pos (hfirst.2 hbit), if_neg (by simp)]
      | true =>
        have hne : ¬ word &&& 1 = 0 := fun h => Bool.false_ne_true ((hfirst.1 h).symm.trans hbit)
        rw [if_neg hne, if_pos ⟨le_rfl, rfl⟩, update_self]
    · have hpos : 1 + (i - (index + (bit + 1))) = i - (index + bit) := by omega
      rw [hpos]
      have hnew : (if word &&& 1 = 0 then newValues else
          update newValues (index + bit) (values (index + bit))) i = newValues i := by
        split_ifs
        · rfl
        · exact update_of_ne hgt.ne' ..
      rw [hnew]
      have hle : index + (bit + 1) ≤ i ↔ index + bit ≤ i := by omega
      simp only [hle]

/-- **Growing moves every object whose bit is set.** -/
theorem moveValues_eq (v : SlotVector T) (hi : i / 64 < v.numWords) :
    v.moveValues i = if v.bitAt i = true then v.values i else none := by
  have hall : ∀ n, (∀ i, i / 64 < n → ((range n).foldl (fun newValues word =>
      moveBits v.values (word * 64) 64 0 (v.storedBitset word) newValues) fun _ => none) i =
        if v.bitAt i = true then v.values i else none) ∧ ∀ i, n ≤ i / 64 → ((range n).foldl (fun newValues word =>
      moveBits v.values (word * 64) 64 0 (v.storedBitset word) newValues) fun _ => none) i = none := by
    intro n
    induction n with
    | zero => exact ⟨fun i hi => absurd hi (Nat.not_lt_zero _), fun i _ => rfl⟩
    | succ n ih =>
      rw [range_succ]
      constructor <;> intro i hi <;> rw [foldl_append, foldl_cons, foldl_nil,
        moveBits_eq v.values (n * 64) (BitVec.isLt _), Nat.add_zero]
      · rcases Nat.lt_succ_iff_lt_or_eq.1 hi with hlt | heq
        · have hbefore : ∀ p : Prop, ¬ (n * 64 ≤ i ∧ p) := fun p h => by omega
          rw [if_neg (hbefore _), ih.1 i hlt]
        · have hbit : v.bitAt i = (v.storedBitset n).getLsbD (i - n * 64) := by
            rw [bitAt, heq, show i - n * 64 = i % 64 by omega]
          rw [hbit, ih.2 i heq.ge]
          have hle : n * 64 ≤ i := by omega
          simp only [hle, true_and]
      · rw [BitVec.getLsbD_of_ge _ _ (by omega), if_neg (by simp), ih.2 i (by omega)]
  exact (hall v.numWords).1 i hi

/-! ### What the slots hold -/

variable {live : ℕ → Option T} {id newCapacity : ℕ}

/-- The vector holds what is live: the bits tell the slots apart, an occupied slot has its object, and the
others are in the free list, each of them once. -/
structure Holds (v : SlotVector T) (live : ℕ → Option T) : Prop where
  words : v.numWords = (v.valuesCapacity + 63) / 64
  bits : ∀ i, v.bitAt i = true ↔ live i ≠ none
  inside : ∀ i, live i ≠ none → i < v.valuesCapacity
  objects : ∀ i object, live i = some object → v.values i = some object
  nodup : v.freeList.Nodup
  free : ∀ i, i ∈ v.freeList ↔ i < v.valuesCapacity ∧ live i = none
  capacity : v.valuesCapacity ≤ 2 ^ 32

theorem holds_new : Holds (new : SlotVector T) fun _ => none where
  words := by simp [new]
  bits i := by simp [bitAt, new]
  inside i h := absurd rfl h
  objects i object h := by cases h
  nodup := nodup_nil
  free i := by simp [new]
  capacity := Nat.zero_le _

/-- **Growing** changes nothing that is held. -/
theorem Holds.reserve (h : Holds v live) (hlt : v.valuesCapacity < newCapacity) (hle : newCapacity ≤ 2 ^ 32) :
    Holds (v.reserve newCapacity) live := by
  have hwords := h.words
  have hbit : ∀ i, (v.reserve newCapacity).bitAt i = v.bitAt i := by
    intro i
    rw [bitAt, SlotVector.reserve]
    dsimp only
    split_ifs with hin
    · rfl
    · have hlive : ¬ v.bitAt i = true := fun hbit => by
        have := h.inside i ((h.bits i).1 hbit)
        omega
      rw [Bool.eq_false_iff.2 hlive]
      exact BitVec.getLsbD_zero
  have hnew : ∀ i, i ∈ (range (newCapacity - v.valuesCapacity)).map (fun k => (v.valuesCapacity + k) % 2 ^ 32) ↔
      v.valuesCapacity ≤ i ∧ i < newCapacity := by
    intro i
    rw [mem_map]
    constructor
    · rintro ⟨k, hk, rfl⟩
      rw [mem_range] at hk
      rw [Nat.mod_eq_of_lt (by omega)]
      omega
    · rintro ⟨hlow, hhigh⟩
      refine ⟨i - v.valuesCapacity, mem_range.2 (by omega), ?_⟩
      rw [Nat.mod_eq_of_lt (by omega)]
      omega
  refine ⟨rfl, fun i => (hbit i).symm ▸ h.bits i, fun i hi => (h.inside i hi).trans hlt, fun i object hi => ?_, ?_,
    fun i => ?_, hle⟩
  · have hne : live i ≠ none := by
      rw [hi]
      exact Option.some_ne_none _
    have hin := h.inside i hne
    show v.moveValues i = some object
    rw [moveValues_eq v (by omega), if_pos ((h.bits i).2 hne), h.objects i object hi]
  · refine nodup_append.2 ⟨h.nodup, ?_, fun i hi j hj hij => ?_⟩
    · refine (nodup_map_iff_inj_on nodup_range).2 fun k hk k' hk' heq => ?_
      rw [mem_range] at hk hk'
      rw [Nat.mod_eq_of_lt (by omega), Nat.mod_eq_of_lt (by omega)] at heq
      omega
    · have hlow := ((hnew j).1 hj).1
      have hhigh := ((h.free i).1 hi).1
      omega
  · show i ∈ v.freeList ++ _ ↔ i < newCapacity ∧ live i = none
    rw [mem_append, h.free, hnew]
    have hin := h.inside i
    by_cases hlive : live i = none
    · simp only [hlive, and_true]
      omega
    · have := hin hlive
      simp only [hlive, and_false, false_or, iff_false]
      omega

/-- The slots of a vector that has a free one. -/
def grown (v : SlotVector T) : SlotVector T :=
  if v.freeList = [] then v.reserve (if v.valuesCapacity ≠ 0 then v.valuesCapacity * 2 else 1) else v

theorem Holds.grown (h : Holds v live) (hroom : v.freeList = [] → v.valuesCapacity ≤ 2 ^ 31) :
    Holds v.grown live ∧ v.grown.freeList ≠ [] := by
  rw [SlotVector.grown]
  by_cases hfull : v.freeList = []
  · rw [if_pos hfull]
    have hcapacity := hroom hfull
    have hlt : v.valuesCapacity < if v.valuesCapacity ≠ 0 then v.valuesCapacity * 2 else 1 := by
      split_ifs <;> omega
    have hle : (if v.valuesCapacity ≠ 0 then v.valuesCapacity * 2 else 1) ≤ 2 ^ 32 := by
      split_ifs <;> omega
    refine ⟨h.reserve hlt hle, fun hnil => ?_⟩
    have hlength := congrArg length hnil
    rw [SlotVector.reserve, length_append, length_map, length_range, length_nil] at hlength
    omega
  · rw [if_neg hfull]
    exact ⟨h, hfull⟩

/-- The slot that is handed out is the last one of the free list. -/
theorem insert_eq (v : SlotVector T) {l : List ℕ} (hfree : v.grown.freeList = l ++ [id]) (object : T) :
    v.insert object = (id, { v.grown with
      freeList := l, values := update v.grown.values id (some object) }.writeStorageBit id true) := by
  have hindex : v.freeValueIndex = (id, { v.grown with freeList := l }) := by
    show (v.grown.freeList.getLastD 0, { v.grown with freeList := v.grown.freeList.dropLast }) = _
    rw [hfree, dropLast_concat, getLastD_concat]
  rw [insert, hindex]

/-- **Inserting** hands out a slot that is not occupied. -/
theorem Holds.insert (h : Holds v live) (hroom : v.freeList = [] → v.valuesCapacity ≤ 2 ^ 31) (object : T) :
    live (v.insert object).1 = none ∧ Holds (v.insert object).2 (update live (v.insert object).1 (some object)) := by
  obtain ⟨hgrown, hne⟩ := h.grown hroom
  obtain ⟨l, id, hfree⟩ := (eq_nil_or_concat _).resolve_left hne
  rw [concat_eq_append] at hfree
  rw [insert_eq v hfree]
  have hnodup := hgrown.nodup
  have hmem := hgrown.free
  rw [hfree] at hnodup hmem
  obtain ⟨hlt, hlive⟩ := (hmem id).1 (by simp)
  have hnotMem : id ∉ l := fun hid => (nodup_append.1 hnodup).2.2 id hid id (by simp) rfl
  refine ⟨hlive, hgrown.words, fun i => ?_, fun i hi => ?_, fun i object' hi => ?_,
    (nodup_append.1 hnodup).1, fun i => ?_, hgrown.capacity⟩
  · rw [bitAt_writeStorageBit]
    by_cases hne : i = id
    · rw [if_pos hne, hne, update_self]
      exact iff_of_true rfl (Option.some_ne_none _)
    · rw [if_neg hne, update_of_ne hne]
      exact hgrown.bits i
  · by_cases hne : i = id
    · rw [hne]
      exact hlt
    · rw [update_of_ne hne] at hi
      exact hgrown.inside i hi
  · show update v.grown.values id (some object) i = some object'
    by_cases hne : i = id
    · rw [hne, update_self] at hi ⊢
      exact hi
    · rw [update_of_ne hne] at hi ⊢
      exact hgrown.objects i object' hi
  · show i ∈ l ↔ i < v.grown.valuesCapacity ∧ _
    have hi := hmem i
    rw [mem_append, mem_singleton] at hi
    by_cases hne : i = id
    · rw [hne, update_self]
      exact iff_of_false hnotMem fun hboth => Option.some_ne_none _ hboth.2
    · rw [update_of_ne hne, ← hi]
      exact (or_iff_left hne).symm

/-- **Erasing** an occupied slot. -/
theorem Holds.erase (h : Holds v live) (hid : live id ≠ none) :
    Holds (v.erase id) (update live id none) := by
  refine ⟨h.words, fun i => ?_, fun i hi => ?_, fun i object hi => ?_, ?_, fun i => ?_, h.capacity⟩
  · rw [SlotVector.erase, bitAt_writeStorageBit]
    by_cases hne : i = id
    · rw [if_pos hne, hne, update_self]
      exact iff_of_false Bool.false_ne_true (not_not.2 rfl)
    · rw [if_neg hne, update_of_ne hne]
      exact h.bits i
  · by_cases hne : i = id
    · rw [hne, update_self] at hi
      exact absurd rfl hi
    · rw [update_of_ne hne] at hi
      exact h.inside i hi
  · show update v.values id none i = some object
    by_cases hne : i = id
    · rw [hne, update_self] at hi
      cases hi
    · rw [update_of_ne hne] at hi ⊢
      exact h.objects i object hi
  · refine nodup_append.2 ⟨h.nodup, nodup_singleton _, fun i hi j hj hij => ?_⟩
    rw [mem_singleton.1 hj] at hij
    exact hid ((h.free id).1 (hij ▸ hi)).2
  · show i ∈ v.freeList ++ [id] ↔ i < v.valuesCapacity ∧ _
    rw [mem_append, mem_singleton, h.free]
    by_cases hne : i = id
    · rw [hne, update_self]
      exact iff_of_true (.inr rfl) ⟨h.inside id hid, rfl⟩
    · rw [update_of_ne hne]
      exact or_iff_left hne

/-! ### Going through the slots -/

variable {p : ℕ → Bool} {a : ℕ}

/-- What a predicate picks from a range, once its first one is known. -/
theorem filter_range'_first (hlow : a ≤ j) (hhigh : j < a + n) (hj : p j = true)
    (hbefore : ∀ k, a ≤ k → k < j → p k = false) :
    (range' a n).filter p = j :: (range' (j + 1) (a + n - (j + 1))).filter p := by
  have hsplit : range' a n = range' a (j - a) ++ j :: range' (j + 1) (a + n - (j + 1)) := by
    rw [← range'_succ, show a + n - (j + 1) + 1 = n - (j - a) by omega]
    conv_rhs => rw [show j = a + 1 * (j - a) by omega]
    rw [show a + 1 * (j - a) - a = j - a by omega, range'_append, show j - a + (n - (j - a)) = n by omega]
  have hnone : (range' a (j - a)).filter p = [] := by
    refine filter_eq_nil_iff.2 fun k hk => ?_
    rw [mem_range'_1] at hk
    rw [hbefore k hk.1 (by omega)]
    exact Bool.false_ne_true
  rw [hsplit, filter_append, hnone, nil_append, filter_cons_of_pos hj]

theorem filter_range'_none (h : ∀ k, a ≤ k → k < a + n → p k = false) : (range' a n).filter p = [] := by
  refine filter_eq_nil_iff.2 fun k hk => ?_
  rw [mem_range'_1] at hk
  rw [h k hk.1 hk.2]
  exact Bool.false_ne_true

/-- The loop of `operator++` goes to the next bit that is set. -/
theorem nextIndex_spec {size : ℕ} (hsize : size < 2 ^ 32) (hindex : index < size) (hrounds : size ≤ index + n) :
    index < v.nextIndex size n index ∧ v.nextIndex size n index ≤ size ∧
      (∀ k, index < k → k < v.nextIndex size n index → v.bitAt k = false) ∧
      (v.nextIndex size n index < size → v.bitAt (v.nextIndex size n index) = true) := by
  induction n generalizing index with
  | zero => omega
  | succ n ih =>
    rw [nextIndex, Nat.mod_eq_of_lt (by omega)]
    split_ifs with hon
    · obtain ⟨hlt, hunset⟩ := hon
      rw [isValid_eq] at hunset
      obtain ⟨hgt, hle, hbetween, hbit⟩ := ih hlt (by omega)
      refine ⟨by omega, hle, fun k hk hk' => ?_, hbit⟩
      rcases Nat.lt_or_ge (index + 1) k with hlt' | hge
      · exact hbetween k hlt' hk'
      · rw [show k = index + 1 by omega]
        exact hunset
    · refine ⟨by omega, by omega, fun k hk hk' => by omega, fun hlt => ?_⟩
      rw [← isValid_eq]
      by_contra hunset
      exact hon ⟨hlt, Bool.eq_false_iff.2 hunset⟩

/-- From an occupied slot on, an iterator comes by the occupied ones. -/
theorem traversal_from {size : ℕ} (hsize : size < 2 ^ 32) (hbits : v.bitsSize = size) (hindex : index < size) :
    Traversal v index (index :: (range' (index + 1) (size - (index + 1))).filter v.bitAt) := by
  induction hn : size - index using Nat.strong_induction_on generalizing index with
  | _ n ih =>
    obtain ⟨hgt, hle, hbetween, hbit⟩ := nextIndex_spec (v := v) (n := size) hsize hindex (by omega)
    set j := v.nextIndex size size index with hj
    refine .step (by rw [invalidIndex]; omega) ?_
    rw [next, hbits, if_pos hindex, ← hj]
    rcases hle.lt_or_eq with hlt | heq
    · rw [if_neg hlt.ne, filter_range'_first (j := j) (by omega) (by omega) (hbit hlt) fun k hk hk' =>
        hbetween k (by omega) hk', show index + 1 + (size - (index + 1)) = size by omega]
      exact ih _ (by omega) hlt rfl
    · rw [if_pos heq, filter_range'_none fun k hk hk' => hbetween k (by omega) (by omega)]
      exact .done

/-- **The iterator** from `begin()` comes by the occupied slots in order and ends. -/
theorem traversal_begin {size : ℕ} (hsize : size < 2 ^ 32) (hnum : v.numWords * 64 = size) :
    Traversal v v.begin ((range size).filter v.bitAt) := by
  have hbits : v.bitsSize = size := by
    rw [bitsSize, Nat.mod_eq_of_lt (show v.numWords < 2 ^ 32 by omega), hnum, Nat.mod_eq_of_lt hsize]
  rw [range_eq_range', begin]
  cases hfind : (range v.numWords).find? fun word => v.storedBitset word ≠ 0 with
  | none =>
    rw [filter_range'_none fun k _ hk => ?_]
    · exact .done
    · have hword := find?_eq_none.1 hfind (k / 64) (mem_range.2 (by omega))
      rw [decide_eq_true_iff, not_not] at hword
      rw [bitAt, hword]
      exact BitVec.getLsbD_zero
  | some word =>
    obtain ⟨hne, before, after, hrange, hbefore⟩ := find?_eq_some_iff_append.1 hfind
    have hlt : word < v.numWords := mem_range.1 (hrange ▸ by simp)
    rw [decide_eq_true_iff] at hne
    obtain ⟨hfirst, hbit, hbelow⟩ := firstBit_spec hne
    dsimp only
    rw [Nat.mod_eq_of_lt (show word < 2 ^ 32 by omega), Nat.mod_eq_of_lt (by omega)]
    rw [filter_range'_first (j := word * 64 + firstBit (v.storedBitset word)) (by omega) (by omega)]
    · rw [Nat.zero_add]
      exact traversal_from hsize hbits (by omega)
    · rw [bitAt, show (word * 64 + firstBit (v.storedBitset word)) / 64 = word by omega,
        show (word * 64 + firstBit (v.storedBitset word)) % 64 = firstBit (v.storedBitset word) by omega]
      exact hbit
    · intro k _ hk
      rw [bitAt]
      rcases Nat.lt_or_ge (k / 64) word with hless | hge
      · have hmem : k / 64 ∈ before ++ word :: after := hrange ▸ mem_range.2 (by omega)
        have hsorted := pairwise_lt_range (n := v.numWords)
        rw [hrange] at hsorted
        have hafter := (pairwise_cons.1 (pairwise_append.1 hsorted).2.1).1
        rcases mem_append.1 hmem with hmem | hmem
        · have hzero := hbefore _ hmem
          rw [Bool.not_eq_true', decide_eq_false_iff_not, not_not] at hzero
          rw [hzero]
          exact BitVec.getLsbD_zero
        · rcases mem_cons.1 hmem with heq | hmem
          · omega
          · have := hafter _ hmem
            omega
      · rw [show k / 64 = word by omega]
        exact hbelow _ (by omega)

theorem visitWord_eq {rounds : ℕ} (hbelow : ∀ j < a, word.getLsbD j = false) (hrounds : 64 ≤ a + rounds) (w : ℕ) :
    visitWord w rounds word = (range' (w * 64 + a) (64 - a)).filter fun i => word.getLsbD (i - w * 64) := by
  induction rounds generalizing a word with
  | zero =>
    rw [show 64 - a = 0 by omega]
    rfl
  | succ rounds ih =>
    rw [visitWord]
    by_cases hzero : word = 0
    · rw [if_pos hzero, hzero]
      exact (filter_range'_none fun k _ _ => BitVec.getLsbD_zero).symm
    · obtain ⟨hfirst, hbit, hless⟩ := firstBit_spec hzero
      have hle : a ≤ firstBit word := by
        by_contra hnot
        rw [hbelow _ (by omega)] at hbit
        exact Bool.false_ne_true hbit
      have hrest : ∀ j, (word &&& (word - 1)).getLsbD j = (word.getLsbD j && decide (j ≠ firstBit word)) :=
        fun j => getLsbD_and_sub_one hzero
      have hpick := filter_range'_first (p := fun i => word.getLsbD (i - w * 64)) (a := w * 64 + a) (n := 64 - a)
        (j := w * 64 + firstBit word) (by omega) (by omega) (by rwa [Nat.add_sub_cancel_left])
        fun k hk hk' => hless _ (by omega)
      rw [if_neg hzero, hpick, ih (a := firstBit word + 1) (fun j hj => ?_) (by omega)]
      · rw [show w * 64 + a + (64 - a) - (w * 64 + firstBit word + 1) = 64 - (firstBit word + 1) by omega,
          Nat.add_assoc]
        refine congrArg (_ :: ·) (filter_congr fun i hi => ?_)
        rw [mem_range'_1] at hi
        rw [hrest, decide_eq_true (by omega), Bool.and_true]
      · rw [hrest]
        rcases Nat.lt_succ_iff_lt_or_eq.1 hj with hlt | heq
        · rw [hless j hlt, Bool.false_and]
        · simp [heq]

theorem range_mul (n : ℕ) : range (n * 64) = (range n).flatMap fun w => range' (w * 64) 64 := by
  induction n with
  | zero => rfl
  | succ n ih =>
    rw [range_succ, flatMap_append, ← ih, flatMap_singleton, Nat.succ_mul, range_eq_range',
      range_eq_range', ← range'_append, Nat.zero_add, Nat.one_mul]

/-- **`ForEachOccupied`** comes by the occupied slots in order. -/
theorem forEachOccupied_eq (v : SlotVector T) :
    v.forEachOccupied = ((range (v.numWords * 64)).filter v.bitAt).map fun i => (i, v.values i) := by
  rw [range_mul, filter_flatMap, map_flatMap, forEachOccupied]
  refine flatMap_congr fun w _ => congrArg _ ?_
  rw [visitWord_eq (a := 0) (fun j hj => absurd hj (Nat.not_lt_zero _)) le_rfl]
  refine filter_congr fun i hi => ?_
  rw [Nat.add_zero, mem_range'_1] at hi
  rw [bitAt, show i / 64 = w by omega, show i % 64 = i - w * 64 by omega]

/-! ### Sequences of calls -/

/-- **What a vector promises** of what is live in it. -/
structure Exact (v : SlotVector T) (live : ℕ → Option T) : Prop where
  free (i : ℕ) : v.freeList.count i = if i < v.valuesCapacity ∧ v.bitAt i = false then 1 else 0
  fresh (object : T) : live (v.insert object).1 = none
  objects (i : ℕ) (object : T) : live i = some object → v.get i = .ret object true
  visits : ∃ ids : List ℕ, ids.Pairwise (· < ·) ∧ (∀ i, i ∈ ids ↔ live i ≠ none) ∧ v.size = ids.length ∧
    Traversal v v.begin ids ∧ v.forEachOccupied = ids.map fun i => (i, live i)

theorem Holds.bit_false (h : Holds v live) : v.bitAt i = false ↔ live i = none := by
  rw [← not_iff_not, Bool.not_eq_false, h.bits]

theorem Holds.get_eq (h : Holds v live) (hcapacity : v.valuesCapacity ≤ 2 ^ 31) {object : T}
    (hi : live i = some object) : v.get i = .ret object true := by
  have hne : live i ≠ none := by
    rw [hi]
    exact Option.some_ne_none _
  have hlt := h.inside i hne
  have hwords := h.words
  have hvalid : v.isValid i = true := (isValid_eq v i).trans ((h.bits i).2 hne)
  have hindex : i ≠ invalidIndex := by
    rw [invalidIndex]
    omega
  rw [get, Exec.assert, Exec.assert, Exec.assert, decide_eq_true hindex, decide_eq_true (by omega), hvalid,
    h.objects i object hi]
  rfl

theorem Holds.exact_live (h : Holds v live) (hcapacity : v.valuesCapacity ≤ 2 ^ 31) : Exact v live := by
  have hwords := h.words
  have hmem : ∀ i, i ∈ (range (v.numWords * 64)).filter v.bitAt ↔ live i ≠ none := by
    intro i
    rw [mem_filter, h.bits, mem_range]
    refine and_iff_right_of_imp fun hi => ?_
    have := h.inside i hi
    omega
  refine ⟨fun i => ?_, fun object => (h.insert (fun _ => hcapacity) object).1, fun i object => h.get_eq hcapacity,
    _, pairwise_lt_range.filter _, hmem, ?_, traversal_begin (by omega) rfl, ?_⟩
  · rw [h.nodup.count]
    simp only [h.free, h.bit_false]
  · have hperm : (v.freeList ++ (range (v.numWords * 64)).filter v.bitAt).Perm
        (range v.valuesCapacity) := by
      refine (perm_ext_iff_of_nodup ?_ nodup_range).2 fun i => ?_
      · refine nodup_append.2 ⟨h.nodup, nodup_range.filter _, fun i hi j hj hij => ?_⟩
        exact (hmem j).1 hj (hij ▸ ((h.free i).1 hi).2)
      · rw [mem_append, h.free, hmem, mem_range]
        have := h.inside i
        by_cases hlive : live i = none
        · simp [hlive]
        · simp [hlive, this hlive]
    have hlength := hperm.length_eq
    rw [length_append, length_range] at hlength
    rw [size]
    omega
  · rw [forEachOccupied_eq]
    refine map_congr_left fun i hi => ?_
    obtain ⟨object, hobject⟩ := Option.ne_none_iff_exists'.1 ((hmem i).1 hi)
    rw [hobject, h.objects i object hobject]

/-- **The vectors that can be reached**, with what is live in them, when an object is inserted only into a
vector with room. -/
inductive Reached (room : SlotVector T → Prop) : SlotVector T → (ℕ → Option T) → Prop
  | new : Reached room new fun _ => none
  | insert {v : SlotVector T} {live : ℕ → Option T} (object : T) (h : Reached room v live) (hroom : room v) :
      Reached room (v.insert object).2 (Function.update live (v.insert object).1 (some object))
  | erase {v : SlotVector T} {live : ℕ → Option T} {id : ℕ} (h : Reached room v live) (hid : live id ≠ none) :
      Reached room (v.erase id) (Function.update live id none)

/-- The capacity after an object is inserted. -/
theorem insert_capacity (v : SlotVector T) (object : T) :
    (v.insert object).2.valuesCapacity = v.grown.valuesCapacity := rfl

theorem grown_capacity (v : SlotVector T) : v.grown.valuesCapacity =
    if v.freeList = [] then if v.valuesCapacity ≠ 0 then v.valuesCapacity * 2 else 1 else v.valuesCapacity := by
  rw [grown]
  split_ifs <;> rfl

theorem Reached.holds (h : Reached (fun v => v.size < 2 ^ 31) v live) :
    Holds v live ∧ (v.valuesCapacity = 0 ∨ ∃ k ≤ 31, v.valuesCapacity = 2 ^ k) := by
  induction h with
  | new => exact ⟨holds_new, .inl rfl⟩
  | @insert v live object _ hroom ih =>
    obtain ⟨h, hcapacity⟩ := ih
    have hle : v.valuesCapacity ≤ 2 ^ 31 := by
      rcases hcapacity with hzero | ⟨k, hk, hpow⟩
      · omega
      · exact hpow ▸ Nat.pow_le_pow_right (by decide) hk
    refine ⟨(h.insert (fun _ => hle) object).2, ?_⟩
    rw [insert_capacity, grown_capacity]
    split_ifs with hfull hne
    · rcases hcapacity with hzero | ⟨k, hk, hpow⟩
      · exact absurd hzero hne
      · -- a full vector has room for more, so that it can double
        rw [size, hfull, length_nil, Nat.sub_zero, hpow] at hroom
        have hlt : k < 31 := (Nat.pow_lt_pow_iff_right (by decide)).1 hroom
        exact .inr ⟨k + 1, hlt, by rw [hpow, Nat.pow_succ]⟩
    · exact .inr ⟨0, by decide, rfl⟩
    · exact hcapacity
  | erase _ hid ih => exact ⟨ih.1.erase hid, ih.2⟩

/-- **While an object is inserted only into a vector with less than 2^31 objects**, every vector that can
be reached keeps its promises. -/
theorem Reached.keepsSlots (h : Reached (fun v => v.size < 2 ^ 31) v live) : Exact v live := by
  obtain ⟨hholds, hcapacity⟩ := h.holds
  refine hholds.exact_live ?_
  rcases hcapacity with hzero | ⟨k, hk, hpow⟩
  · omega
  · exact hpow ▸ Nat.pow_le_pow_right (by decide) hk

/-- Three objects, of which the second one is erased. -/
theorem keepsSlots_three : ∃ (v : SlotVector ℕ) (live : ℕ → Option ℕ), v.valuesCapacity = 4 ∧ Exact v live := by
  have hthree : Reached (fun v => v.size < 2 ^ 31) _ _ :=
    @Reached.erase _ _ _ _ 1 (.insert 7 (.insert 6 (.insert 5 .new (by decide)) (by decide)) (by decide)) (by decide)
  exact ⟨_, _, by decide, Reached.keepsSlots hthree⟩

/-! ### One object too many -/

/-- Inserting until the vector is full. -/
theorem Reached.fill (object : T) (h : Reached (fun _ => True) v live) (hholds : Holds v live)
    (hcapacity : v.valuesCapacity ≤ 2 ^ 31) : ∃ (v' : SlotVector T) (live' : ℕ → Option T),
      Reached (fun _ => True) v' live' ∧ Holds v' live' ∧ v'.valuesCapacity = v.valuesCapacity ∧ v'.freeList = [] := by
  induction hn : v.freeList.length generalizing v live with
  | zero => exact ⟨v, live, h, hholds, rfl, length_eq_zero_iff.1 hn⟩
  | succ n ih =>
    have hne : v.freeList ≠ [] := fun hnil => by simp [hnil] at hn
    obtain ⟨l, id, hfree⟩ := (eq_nil_or_concat _).resolve_left hne
    rw [concat_eq_append] at hfree
    have hgrown : v.grown = v := if_neg hne
    have hfree' : v.grown.freeList = l ++ [id] := hgrown.symm ▸ hfree
    have hinsert := insert_eq v hfree' object
    have hsame : (v.insert object).2.valuesCapacity = v.valuesCapacity := by
      rw [insert_capacity, hgrown]
    have hlength : (v.insert object).2.freeList.length = n := by
      rw [hinsert]
      show l.length = n
      rw [hfree, length_append, length_singleton] at hn
      omega
    obtain ⟨v', live', h', hholds', hcapacity', hfull⟩ := ih (.insert object h trivial)
      (hholds.insert (fun _ => hcapacity) object).2 (hsame ▸ hcapacity) hlength
    exact ⟨v', live', h', hholds', hcapacity'.trans hsame, hfull⟩

/-- A full vector of every power of two. -/
theorem exists_full (object : T) {k : ℕ} (hk : k ≤ 31) : ∃ (v : SlotVector T) (live : ℕ → Option T),
    Reached (fun _ => True) v live ∧ Holds v live ∧ v.valuesCapacity = 2 ^ k ∧ v.freeList = [] := by
  induction k with
  | zero =>
    obtain ⟨v, live, h, hholds, hcapacity, hfull⟩ := Reached.fill object
      (.insert object .new trivial) (holds_new.insert (fun _ => Nat.zero_le _) object).2 (show 1 ≤ 2 ^ 31 by decide)
    exact ⟨v, live, h, hholds, hcapacity, hfull⟩
  | succ k ih =>
    obtain ⟨v, live, h, hholds, hcapacity, hfull⟩ := ih (by omega)
    have hpow : 2 ^ (k + 1) ≤ 2 ^ 31 := Nat.pow_le_pow_right (by decide) hk
    have hle : v.valuesCapacity ≤ 2 ^ 31 := by
      rw [hcapacity]
      exact (Nat.pow_le_pow_right (by decide) (Nat.le_succ k)).trans hpow
    have hdouble : (v.insert object).2.valuesCapacity = 2 ^ (k + 1) := by
      have hne : v.valuesCapacity ≠ 0 := hcapacity ▸ (Nat.two_pow_pos k).ne'
      rw [insert_capacity, grown_capacity, if_pos hfull, if_pos hne, hcapacity, Nat.pow_succ]
    obtain ⟨v', live', h', hholds', hcapacity', hfull'⟩ := Reached.fill object (.insert object h trivial)
      (hholds.insert (fun _ => hle) object).2 (hdouble ▸ hpow)
    exact ⟨v', live', h', hholds', hcapacity'.trans hdouble, hfull'⟩

/-- An iterator that does not move does not arrive. -/
theorem traversal_of_still (hstill : v.bitsSize = 0) {l : List ℕ} (h : Traversal v i l) : l = [] := by
  induction h with
  | done => rfl
  | @step index l hindex h ih =>
    rw [next, hstill, if_neg (Nat.not_lt_zero _)] at h
    rw [ih] at h
    cases h
    exact absurd rfl hindex

/-- **One object more than 2^31**: the number of bits is 2^32, which is 0 for the iterator. -/
theorem full_not_exact : ∃ (v : SlotVector ℕ) (live : ℕ → Option ℕ),
    Reached (fun _ => True) v live ∧ ¬ Exact v live := by
  obtain ⟨v, live, h, hholds, hcapacity, hfull⟩ := exists_full 0 (le_refl 31)
  have hdouble : (v.insert 0).2.valuesCapacity = 2 ^ 32 := by
    have hne : v.valuesCapacity ≠ 0 := by
      rw [hcapacity]
      decide
    rw [insert_capacity, grown_capacity, if_pos hfull, if_pos hne, hcapacity, ← Nat.pow_succ]
  obtain ⟨-, hnext⟩ := hholds.insert (fun _ => hcapacity.le) 0
  refine ⟨_, _, .insert 0 h trivial, fun hexact => ?_⟩
  obtain ⟨ids, -, hids, -, htraversal, -⟩ := hexact.visits
  have hstill : (v.insert 0).2.bitsSize = 0 := by
    rw [bitsSize, hnext.words, hdouble]
    rfl
  have hmem := (hids (v.insert 0).1).2 (by
    rw [Function.update_self]
    exact Option.some_ne_none _)
  rw [traversal_of_still hstill htraversal] at hmem
  exact List.not_mem_nil hmem

end SlotVector
end Common
end NXEmu
