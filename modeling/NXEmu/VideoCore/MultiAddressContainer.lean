/-
# Lists of device pages in one table

`src/yuzu_video_core/host1x/gpu_device_memory_manager.cpp`: a `MultiAddressContainer` keeps many lists
of device pages in one table.  Entries are counted from one, zero is the end of a list, and a list is
known by its first entry.  Entries that are given back are used again before the table grows.

A list is a path through the links, so that appending to it and taking a page out of it change one
link each.  `Holds` says that the table keeps a family of lists and nothing else: the entries of two
lists and the free ones are apart, and every entry is one of them.
-/

import Mathlib
import NXEmu.Lib.LinkedList

namespace NXEmu
namespace Core

open Function List

/-- `Entry`. -/
structure Entry where
  nextEntry : ℕ
  value : ℕ

/-- `MultiAddressContainer`. -/
structure MultiAddressContainer where
  storage : List Entry
  freeEntries : List ℕ

namespace MultiAddressContainer

/-- `storage[id - 1]`. -/
def entry (c : MultiAddressContainer) (id : ℕ) : Option Entry :=
  if id = 0 then none else c.storage[id - 1]?

/-- An assignment to `storage[id - 1]`. -/
def setEntry (c : MultiAddressContainer) (id : ℕ) (e : Entry) : MultiAddressContainer :=
  { c with storage := c.storage.set (id - 1) e }

/-- `GetNewEntry`: an entry that was freed, or a new one. -/
def getNewEntry (c : MultiAddressContainer) : ℕ × MultiAddressContainer :=
  match c.freeEntries with
  | result :: freeEntries => (result, { c with freeEntries := freeEntries })
  | [] =>
    let c := { c with storage := c.storage ++ [⟨0, 0⟩] }
    (c.storage.length % 2 ^ 32, c)

/-- `RegisterImplementation`, which is `Register` of a value alone. -/
def registerImplementation (c : MultiAddressContainer) (value : ℕ) :
    Option (ℕ × MultiAddressContainer) :=
  let (entryId, c) := c.getNewEntry
  (c.entry entryId).map fun _ => (entryId, c.setEntry entryId ⟨0, value⟩)

/-- The loop of `GatherValues`, if it ends within so many entries. -/
def gatherValuesFrom (c : MultiAddressContainer) : ℕ → ℕ → Option (List ℕ)
  | 0, _ => none
  | entries + 1, iterEntry => do
    let current ← c.entry iterEntry
    if current.nextEntry = 0 then return [current.value]
    else return current.value :: (← gatherValuesFrom c entries current.nextEntry)

/-- `GatherValues`. -/
def gatherValues (c : MultiAddressContainer) (startEntry : ℕ) : Option (List ℕ) :=
  c.gatherValuesFrom c.storage.length startEntry

/-- The loop of `Register` to the last entry of a list, if it ends within so many entries. -/
def lastEntryFrom (c : MultiAddressContainer) : ℕ → ℕ → Option ℕ
  | 0, _ => none
  | entries + 1, iterEntry => do
    let current ← c.entry iterEntry
    if current.nextEntry = 0 then return iterEntry
    else lastEntryFrom c entries current.nextEntry

/-- `Register` of a value at the end of a list. -/
def register (c : MultiAddressContainer) (value startEntry : ℕ) : Option MultiAddressContainer := do
  let (entryId, c) ← c.registerImplementation value
  let iterEntry ← c.lastEntryFrom c.storage.length startEntry
  let current ← c.entry iterEntry
  return c.setEntry iterEntry { current with nextEntry := entryId }

/-- The loop of `Unregister`, if it ends within so many entries: the entry before the one that has
the value, that entry, and how many come before it. -/
def findValueFrom (c : MultiAddressContainer) (value : ℕ) :
    ℕ → (previous : Option ℕ) → (iterEntry count : ℕ) → Option (Option ℕ × ℕ × ℕ)
  | 0, _, _, _ => none
  | entries + 1, previous, iterEntry, count => do
    let current ← c.entry iterEntry
    if current.value ≠ value then
      findValueFrom c value entries (some iterEntry) current.nextEntry (count + 1)
    else return (previous, iterEntry, count)

/-- `Unregister`: whether more than one value remains, and the first entry. -/
def unregister (c : MultiAddressContainer) (value startEntry : ℕ) :
    Option ((Bool × ℕ) × MultiAddressContainer) := do
  let (previous, iterEntry, count) ← c.findValueFrom value c.storage.length none startEntry 0
  let current ← c.entry iterEntry
  let nextEntry := current.nextEntry
  let moreThanOneRemaining ←
    (if nextEntry ≠ 0 then
      (c.entry nextEntry).map fun next => decide (next.nextEntry ≠ 0) || previous.isSome
    else some false)
  match previous with
  | some id =>
    let e ← c.entry id
    let c := c.setEntry id { e with nextEntry := nextEntry }
    return ((moreThanOneRemaining || decide (1 < count), startEntry),
      { c with freeEntries := c.freeEntries ++ [iterEntry] })
  | none =>
    return ((moreThanOneRemaining || decide (1 < count), nextEntry),
      { c with freeEntries := c.freeEntries ++ [iterEntry] })

/-- `ReleaseEntry`. -/
def releaseEntry (c : MultiAddressContainer) (startEntry : ℕ) : Option (ℕ × MultiAddressContainer) :=
  (c.entry startEntry).map fun current =>
    (current.value, { c with freeEntries := c.freeEntries ++ [startEntry] })

/-! ### Links -/

/-- The entry after an entry. -/
def nextOf (c : MultiAddressContainer) (id : ℕ) : ℕ := ((c.entry id).map (·.nextEntry)).getD 0

/-- The value of an entry. -/
def valueOf (c : MultiAddressContainer) (id : ℕ) : ℕ := ((c.entry id).map (·.value)).getD 0

/-- An entry by its number. -/
def number (id : ℕ) : Option ℕ := if id = 0 then none else some id

/-- The links of the list that starts with an entry. -/
def next (c : MultiAddressContainer) (startEntry : ℕ) : Option ℕ → Option ℕ
  | none => number startEntry
  | some id => number (c.nextOf id)

/-- The entries of a list in order. -/
def Linked (c : MultiAddressContainer) (ids : List ℕ) : Prop :=
  Path (c.next (ids.headD 0)) none ids none

variable {c : MultiAddressContainer} {id startEntry value : ℕ} {e : Entry} {ids : List ℕ}

@[simp] theorem number_eq_none : number id = none ↔ id = 0 := by
  unfold number
  split <;> simp_all

@[simp] theorem number_eq_some {i : ℕ} : number id = some i ↔ id = i ∧ i ≠ 0 := by
  unfold number
  split <;> grind

theorem entry_isSome : (c.entry id).isSome ↔ 0 < id ∧ id ≤ c.storage.length := by
  unfold entry
  split
  · simp_all
  · rw [isSome_getElem?]
    omega

theorem entry_eq (h : 0 < id ∧ id ≤ c.storage.length) :
    c.entry id = some ⟨c.nextOf id, c.valueOf id⟩ := by
  obtain ⟨e, he⟩ := Option.isSome_iff_exists.1 (entry_isSome.2 h)
  simp [nextOf, valueOf, he]

theorem entry_setEntry (h : 0 < id ∧ id ≤ c.storage.length) (e : Entry) (i : ℕ) :
    (c.setEntry id e).entry i = if i = id then some e else c.entry i := by
  unfold entry setEntry
  by_cases hi : i = 0
  · rw [if_pos hi, if_pos hi, if_neg (by omega)]
  · rw [if_neg hi, if_neg hi, getElem?_set]
    by_cases hid : i = id
    · rw [if_pos (by omega), if_pos (by omega), if_pos hid]
    · rw [if_neg (by omega), if_neg hid]

@[simp] theorem setEntry_length : (c.setEntry id e).storage.length = c.storage.length :=
  length_set

theorem nextOf_setEntry (h : 0 < id ∧ id ≤ c.storage.length) (e : Entry) :
    (c.setEntry id e).nextOf = update c.nextOf id e.nextEntry := by
  funext i
  rw [nextOf, entry_setEntry h, update_apply]
  split <;> rfl

theorem valueOf_setEntry (h : 0 < id ∧ id ≤ c.storage.length) (e : Entry) :
    (c.setEntry id e).valueOf = update c.valueOf id e.value := by
  funext i
  rw [valueOf, entry_setEntry h, update_apply]
  split <;> rfl

/-- A list starts with its first entry. -/
theorem headD_eq_of_path (h : Path (c.next startEntry) none ids none) : ids.headD 0 = startEntry := by
  cases ids with
  | nil => exact (number_eq_none.1 h).symm
  | cons i l => exact (number_eq_some.1 h.1).1.symm

/-- A path through the links is a list. -/
theorem Linked.of_path (h : Path (c.next startEntry) none ids none) : c.Linked ids := by
  rw [Linked, headD_eq_of_path h]
  exact h

/-- The lists that none of the changed entries is in. -/
theorem Linked.congr {c' : MultiAddressContainer} (h : c.Linked ids)
    (heq : ∀ i ∈ ids, c'.nextOf i = c.nextOf i) : c'.Linked ids :=
  Path.congr h rfl fun i hi => congrArg number (heq i hi)

/-! ### Loops -/

/-- The loops that go through a list to its end. -/
theorem loops_eq {l : List ℕ} (h : Path (c.next startEntry) (some id) l none)
    (hids : ∀ i ∈ id :: l, 0 < i ∧ i ≤ c.storage.length) {entries : ℕ} (hl : l.length < entries) :
    c.gatherValuesFrom entries id = some ((id :: l).map c.valueOf) ∧
      c.lastEntryFrom entries id = lastNode (some id) l := by
  induction l generalizing id entries with
  | nil =>
    obtain ⟨entries, rfl⟩ := Nat.exists_eq_add_one_of_ne_zero (Nat.ne_of_gt (Nat.zero_lt_of_lt hl))
    have hnext : c.nextOf id = 0 := number_eq_none.1 h
    simp [gatherValuesFrom, lastEntryFrom, entry_eq (hids id mem_cons_self), hnext]
  | cons j l ih =>
    obtain ⟨entries, rfl⟩ := Nat.exists_eq_add_one_of_ne_zero (Nat.ne_of_gt (Nat.zero_lt_of_lt hl))
    obtain ⟨hnext, hj⟩ := number_eq_some.1 h.1
    have hrest := ih h.2 (fun i hi => hids i (mem_cons_of_mem id hi))
      (Nat.lt_of_succ_lt_succ hl)
    simp [gatherValuesFrom, lastEntryFrom, entry_eq (hids id mem_cons_self), hnext, hj, hrest, lastNode_cons]

/-- The search stops at the first entry that has the value. -/
theorem findValueFrom_eq {l₁ l₂ : List ℕ} {x : Option ℕ} {i count : ℕ}
    (h : Path (c.next startEntry) x (l₁ ++ i :: l₂) none) (hx : ∀ j, c.next startEntry x = some j → j = id)
    (hids : ∀ j ∈ l₁ ++ [i], 0 < j ∧ j ≤ c.storage.length) (hne : ∀ j ∈ l₁, c.valueOf j ≠ value)
    (hvalue : c.valueOf i = value) {entries : ℕ} (hl : l₁.length < entries) :
    c.findValueFrom value entries x id count = some (lastNode x l₁, i, count + l₁.length) := by
  induction l₁ generalizing id entries x count with
  | nil =>
    obtain ⟨entries, rfl⟩ := Nat.exists_eq_add_one_of_ne_zero (Nat.ne_of_gt (Nat.zero_lt_of_lt hl))
    obtain rfl := hx i h.1
    simp [findValueFrom, entry_eq (hids i (by simp)), hvalue]
  | cons j l₁ ih =>
    obtain ⟨entries, rfl⟩ := Nat.exists_eq_add_one_of_ne_zero (Nat.ne_of_gt (Nat.zero_lt_of_lt hl))
    obtain rfl := hx j h.1
    have hrest : c.findValueFrom value entries (some j) (c.nextOf j) (count + 1) =
        some (lastNode (some j) l₁, i, count + 1 + l₁.length) := ih h.2
      (fun k hk => ((number_eq_some.1 hk).1).symm)
      (fun k hk => hids k (mem_cons_of_mem j hk))
      (fun k hk => hne k (mem_cons_of_mem j hk)) (Nat.lt_of_succ_lt_succ hl)
    simp [findValueFrom, entry_eq (hids j (by simp)), hne j mem_cons_self, hrest,
      lastNode_cons, Nat.add_assoc, Nat.add_comm 1]

/-! ### A family of lists -/

/-- The table keeps a list of entries for each key, with these values, and nothing else. -/
structure Holds {κ : Type} (c : MultiAddressContainer) (ids values : κ → List ℕ) : Prop where
  linked : ∀ k, c.Linked (ids k)
  values : ∀ k, (ids k).map c.valueOf = values k
  nodup : ∀ k, (ids k).Nodup
  disjoint : ∀ k l, k ≠ l → (ids k).Disjoint (ids l)
  free_nodup : c.freeEntries.Nodup
  free_disjoint : ∀ k, (ids k).Disjoint c.freeEntries
  mem_iff : ∀ i, (0 < i ∧ i ≤ c.storage.length) ↔ i ∈ c.freeEntries ∨ ∃ k, i ∈ ids k
  length_lt : c.storage.length < 2 ^ 31

variable {κ : Type} {ids values : κ → List ℕ} {k : κ}

theorem length_le_of_bounded {l : List ℕ} {n : ℕ} (hl : l.Nodup) (h : ∀ i ∈ l, 0 < i ∧ i ≤ n) :
    l.length ≤ n := by
  rw [← toFinset_card_of_nodup hl, ← Nat.add_sub_cancel n 1, ← Nat.card_Icc 1 n]
  exact Finset.card_le_card fun i hi => Finset.mem_Icc.2 (h i (mem_toFinset.1 hi))

namespace Holds

theorem bounds (h : c.Holds ids values) {i : ℕ} (hi : i ∈ ids k) :
    0 < i ∧ i ≤ c.storage.length :=
  (h.mem_iff i).2 (.inr ⟨k, hi⟩)

theorem length_le (h : c.Holds ids values) : (ids k).length ≤ c.storage.length :=
  length_le_of_bounded (h.nodup k) fun _ hi => h.bounds hi

/-- `GatherValues` gives the values of a list in order. -/
theorem gatherValues_eq (h : c.Holds ids values) {l : List ℕ} (hk : ids k = startEntry :: l) :
    c.gatherValues startEntry = some (values k) := by
  have hlen := h.length_le (k := k)
  have hlinked : Path (c.next ((ids k).headD 0)) none (ids k) none := h.linked k
  rw [hk] at hlen hlinked
  rw [gatherValues, (loops_eq hlinked.2 (fun i hi => h.bounds (k := k) (hk ▸ hi)) hlen).1, ← h.values k, hk]

/-- The values of the entries that are in a list are a value each, so there is room for one more. -/
theorem room (h : c.Holds ids values) (hnodup : ∀ k, (values k).Nodup)
    (hdisjoint : ∀ k l, k ≠ l → (values k).Disjoint (values l)) {n d : ℕ}
    (hlt : ∀ k, ∀ v ∈ values k, 0 < v ∧ v < n) (hd : 0 < d ∧ d < n)
    (hnew : ∀ k, d ∈ values k → ids k = []) (hfree : c.freeEntries = []) :
    c.storage.length + 1 < n := by
  have howner : ∀ i, 0 < i ∧ i ≤ c.storage.length → ∃ k, i ∈ ids k := fun i hi =>
    ((h.mem_iff i).1 hi).resolve_left (by rw [hfree]; exact not_mem_nil)
  have hvalue : ∀ {k i}, i ∈ ids k → c.valueOf i ∈ values k := fun {k i} hi =>
    h.values k ▸ mem_map_of_mem hi
  have hcard : (Finset.Icc 1 c.storage.length).card ≤ ((Finset.Ioo 0 n).erase d).card := by
    refine Finset.card_le_card_of_injOn c.valueOf (fun i hi => ?_) fun i hi j hj hij => ?_
    · obtain ⟨k, hk⟩ := howner i (Finset.mem_Icc.1 hi)
      rw [Finset.mem_coe, Finset.mem_erase, Finset.mem_Ioo]
      refine ⟨fun heq => ?_, hlt k _ (hvalue hk)⟩
      rw [hnew k (heq ▸ hvalue hk)] at hk
      exact not_mem_nil hk
    · obtain ⟨k, hk⟩ := howner i (Finset.mem_Icc.1 hi)
      obtain ⟨l, hl⟩ := howner j (Finset.mem_Icc.1 hj)
      obtain rfl : k = l := by
        by_contra hkl
        exact hdisjoint k l hkl (hvalue hk) (hij ▸ hvalue hl)
      exact inj_on_of_nodup_map (h.values k ▸ hnodup k) hk hl hij
  rw [Finset.card_erase_of_mem (Finset.mem_Ioo.2 hd), Nat.card_Icc, Nat.card_Ioo] at hcard
  omega

end Holds

/-- An entry that is in no list was taken for a value. -/
structure Registered (c c' : MultiAddressContainer) (ids : κ → List ℕ) (id value : ℕ) : Prop where
  fresh : ∀ k, id ∉ ids k
  bounds : 0 < id ∧ id ≤ c'.storage.length
  length_lt : c'.storage.length < 2 ^ 31
  nextOf_eq : c'.nextOf = Function.update c.nextOf id 0
  valueOf_eq : c'.valueOf = Function.update c.valueOf id value
  not_free : id ∉ c'.freeEntries
  free_nodup : c'.freeEntries.Nodup
  free_disjoint : ∀ k, (ids k).Disjoint c'.freeEntries
  mem_iff : ∀ i, (0 < i ∧ i ≤ c'.storage.length) ↔ i = id ∨ i ∈ c'.freeEntries ∨ ∃ k, i ∈ ids k

namespace Holds

/-- `RegisterImplementation` takes a free entry, or a new one where there is none. -/
theorem registerImplementation_eq (h : c.Holds ids values)
    (hroom : c.freeEntries = [] → c.storage.length + 1 < 2 ^ 31) (value : ℕ) :
    ∃ id c', c.registerImplementation value = some (id, c') ∧ Registered c c' ids id value := by
  cases hfree : c.freeEntries with
  | cons id freeEntries =>
    have hid : 0 < id ∧ id ≤ c.storage.length :=
      (h.mem_iff id).2 (.inl (hfree ▸ mem_cons_self))
    have hnodup := h.free_nodup
    rw [hfree, nodup_cons] at hnodup
    set c₁ : MultiAddressContainer := { c with freeEntries := freeEntries } with hc₁
    have hnew : c.getNewEntry = (id, c₁) := by rw [getNewEntry, hfree]
    refine ⟨id, c₁.setEntry id ⟨0, value⟩, ?_, fun k hk => ?_, ⟨hid.1, ?_⟩, ?_,
      nextOf_setEntry (c := c₁) hid _, valueOf_setEntry (c := c₁) hid _, hnodup.1, hnodup.2,
      fun k i hi hi' => ?_, fun i => ?_⟩
    · rw [registerImplementation, hnew]
      show Option.map _ (c₁.entry id) = _
      rw [entry_eq (c := c₁) hid]
      rfl
    · exact h.free_disjoint k hk (hfree ▸ mem_cons_self)
    · rw [setEntry_length]
      exact hid.2
    · rw [setEntry_length]
      exact h.length_lt
    · exact h.free_disjoint k hi (hfree ▸ mem_cons_of_mem id hi')
    · rw [setEntry_length]
      show _ ∧ i ≤ c.storage.length ↔ i = id ∨ i ∈ freeEntries ∨ _
      rw [h.mem_iff i, hfree, mem_cons, or_assoc]
  | nil =>
    have hlt := hroom hfree
    set c₁ : MultiAddressContainer := ⟨c.storage ++ [⟨0, 0⟩], []⟩ with hc₁
    have hlen : c₁.storage.length = c.storage.length + 1 := by simp [hc₁]
    have hid : 0 < c.storage.length + 1 ∧ c.storage.length + 1 ≤ c₁.storage.length := by omega
    have hnew : c.getNewEntry = (c.storage.length + 1, c₁) := by
      rw [getNewEntry, hfree]
      show (c₁.storage.length % 2 ^ 32, c₁) = _
      rw [hlen, Nat.mod_eq_of_lt (by omega)]
    have hentry : ∀ i, i ≠ c.storage.length + 1 → c₁.entry i = c.entry i := by
      intro i hi
      unfold entry
      by_cases h0 : i = 0
      · rw [if_pos h0, if_pos h0]
      · rw [if_neg h0, if_neg h0]
        rcases Nat.lt_or_ge (i - 1) c.storage.length with hlt | hge
        · exact getElem?_append_left hlt
        · rw [getElem?_eq_none hge, getElem?_eq_none (by rw [hlen]; omega)]
    have hnext : (c₁.setEntry (c.storage.length + 1) ⟨0, value⟩).nextOf =
        update c.nextOf (c.storage.length + 1) 0 := by
      rw [nextOf_setEntry hid]
      funext i
      rw [update_apply, update_apply]
      split
      · rfl
      · rename_i hi
        rw [nextOf, hentry i hi, nextOf]
    have hvalue : (c₁.setEntry (c.storage.length + 1) ⟨0, value⟩).valueOf =
        update c.valueOf (c.storage.length + 1) value := by
      rw [valueOf_setEntry hid]
      funext i
      rw [update_apply, update_apply]
      split
      · rfl
      · rename_i hi
        rw [valueOf, hentry i hi, valueOf]
    have hfree₁ : (c₁.setEntry (c.storage.length + 1) ⟨0, value⟩).freeEntries = [] := rfl
    refine ⟨c.storage.length + 1, c₁.setEntry (c.storage.length + 1) ⟨0, value⟩, ?_, fun k hk => ?_,
      ⟨hid.1, ?_⟩, ?_, hnext, hvalue, ?_, ?_, fun k i hi => ?_, fun i => ?_⟩
    · rw [registerImplementation, hnew]
      show Option.map _ (c₁.entry _) = _
      rw [entry_eq hid]
      rfl
    · exact absurd (h.bounds hk).2 (Nat.not_succ_le_self _)
    · rw [setEntry_length]
      exact hid.2
    · rw [setEntry_length, hlen]
      exact hlt
    · rw [hfree₁]
      exact not_mem_nil
    · rw [hfree₁]
      exact nodup_nil
    · rw [hfree₁]
      exact not_mem_nil
    · have hmem := h.mem_iff i
      rw [hfree] at hmem
      rw [setEntry_length, hlen, hfree₁, ← hmem]
      omega

end Holds

variable [DecidableEq κ]

theorem Registered.holds {c' c'' : MultiAddressContainer} (h : c.Holds ids values)
    (hr : Registered c c' ids id value) (hlen : c''.storage.length = c'.storage.length)
    (hfree : c''.freeEntries = c'.freeEntries) (hvalue : c''.valueOf = c'.valueOf)
    (hnext : ∀ l, l ≠ k → ∀ i ∈ ids l, c''.nextOf i = c.nextOf i) (hlinked : c''.Linked (ids k ++ [id])) :
    c''.Holds (update ids k (ids k ++ [id])) (update values k (values k ++ [value])) := by
  have hold : ∀ {l i}, i ∈ ids l → c''.valueOf i = c.valueOf i := by
    intro l i hi
    have hne : i ≠ id := fun heq => hr.fresh l (heq ▸ hi)
    rw [hvalue, hr.valueOf_eq, update_of_ne hne]
  have hnewest : c''.valueOf id = value := by rw [hvalue, hr.valueOf_eq, update_self]
  refine ⟨fun l => ?_, fun l => ?_, fun l => ?_, fun l m hlm => ?_, hfree ▸ hr.free_nodup,
    fun l => ?_, fun i => ?_, hlen ▸ hr.length_lt⟩
  · by_cases hl : l = k
    · rw [hl, update_self]
      exact hlinked
    · rw [update_of_ne hl]
      exact (h.linked l).congr (hnext l hl)
  · by_cases hl : l = k
    · rw [hl, update_self, update_self, map_append, ← h.values k,
        map_congr_left fun i hi => hold hi, map_singleton, hnewest]
    · rw [update_of_ne hl, update_of_ne hl, ← h.values l, map_congr_left fun i hi => hold hi]
  · by_cases hl : l = k
    · rw [hl, update_self, nodup_append_comm, singleton_append, nodup_cons]
      exact ⟨hr.fresh k, h.nodup k⟩
    · rw [update_of_ne hl]
      exact h.nodup l
  · by_cases hl : l = k
    · rw [hl, update_self, update_of_ne (hl ▸ hlm.symm), disjoint_append_left, singleton_disjoint]
      exact ⟨h.disjoint k m (hl ▸ hlm), hr.fresh m⟩
    · rw [update_of_ne hl]
      by_cases hm : m = k
      · rw [hm, update_self, disjoint_append_right, disjoint_singleton]
        exact ⟨h.disjoint l k hl, hr.fresh l⟩
      · rw [update_of_ne hm]
        exact h.disjoint l m hlm
  · rw [hfree]
    by_cases hl : l = k
    · rw [hl, update_self, disjoint_append_left, singleton_disjoint]
      exact ⟨hr.free_disjoint k, hr.not_free⟩
    · rw [update_of_ne hl]
      exact hr.free_disjoint l
  · rw [hlen, hfree, hr.mem_iff i]
    constructor
    · rintro (rfl | hi | ⟨l, hl⟩)
      · exact .inr ⟨k, by simp⟩
      · exact .inl hi
      · refine .inr ⟨l, ?_⟩
        by_cases hlk : l = k
        · rw [hlk, update_self]
          exact mem_append_left _ (hlk ▸ hl)
        · rwa [update_of_ne hlk]
    · rintro (hi | ⟨l, hl⟩)
      · exact .inr (.inl hi)
      · by_cases hlk : l = k
        · rw [hlk, update_self, mem_append, mem_singleton] at hl
          exact hl.elim (fun hl => .inr (.inr ⟨k, hl⟩)) .inl
        · rw [update_of_ne hlk] at hl
          exact .inr (.inr ⟨l, hl⟩)

/-- An entry of a list is given back. -/
theorem Holds.released {c' : MultiAddressContainer} (h : c.Holds ids values) {l₁ l₂ : List ℕ} {i : ℕ}
    (hk : ids k = l₁ ++ i :: l₂) (hlen : c'.storage.length = c.storage.length)
    (hfree : c'.freeEntries = c.freeEntries ++ [i]) (hvalue : c'.valueOf = c.valueOf)
    (hnext : ∀ l, l ≠ k → ∀ i ∈ ids l, c'.nextOf i = c.nextOf i) (hlinked : c'.Linked (l₁ ++ l₂)) :
    c'.Holds (update ids k (l₁ ++ l₂)) (update values k ((l₁ ++ l₂).map c.valueOf)) := by
  have hnodup := h.nodup k
  rw [hk, nodup_middle, nodup_cons] at hnodup
  have hsub : ∀ {j}, j ∈ l₁ ++ l₂ → j ∈ ids k := by
    intro j hj
    rw [hk]
    simp only [mem_append, mem_cons] at hj ⊢
    tauto
  have hi : i ∈ ids k := by simp [hk]
  refine ⟨fun l => ?_, fun l => ?_, fun l => ?_, fun l m hlm => ?_, ?_, fun l => ?_, fun j => ?_, hlen ▸ h.length_lt⟩
  · by_cases hl : l = k
    · rw [hl, update_self]
      exact hlinked
    · rw [update_of_ne hl]
      exact (h.linked l).congr (hnext l hl)
  · by_cases hl : l = k
    · rw [hl, update_self, update_self, hvalue]
    · rw [update_of_ne hl, update_of_ne hl, hvalue, h.values l]
  · by_cases hl : l = k
    · rw [hl, update_self]
      exact hnodup.2
    · rw [update_of_ne hl]
      exact h.nodup l
  · by_cases hl : l = k
    · rw [hl, update_self, update_of_ne (hl ▸ hlm.symm)]
      exact fun j hj => h.disjoint k m (hl ▸ hlm) (hsub hj)
    · rw [update_of_ne hl]
      by_cases hm : m = k
      · rw [hm, update_self]
        exact fun j hj hj' => h.disjoint l k hl hj (hsub hj')
      · rw [update_of_ne hm]
        exact h.disjoint l m hlm
  · rw [hfree, nodup_append_comm, singleton_append, nodup_cons]
    exact ⟨h.free_disjoint k hi, h.free_nodup⟩
  · rw [hfree, disjoint_append_right, disjoint_singleton]
    by_cases hl : l = k
    · rw [hl, update_self]
      exact ⟨fun j hj => h.free_disjoint k (hsub hj), hnodup.1⟩
    · rw [update_of_ne hl]
      exact ⟨h.free_disjoint l, fun hil => h.disjoint l k hl hil hi⟩
  · rw [hlen, hfree, h.mem_iff j, mem_append, mem_singleton]
    constructor
    · rintro (hj | ⟨l, hl⟩)
      · exact .inl (.inl hj)
      · by_cases hlk : l = k
        · rw [hlk, hk, mem_append, mem_cons] at hl
          by_cases hji : j = i
          · exact .inl (.inr hji)
          · refine .inr ⟨k, ?_⟩
            rw [update_self, mem_append]
            exact hl.imp_right fun hl => hl.resolve_left hji
        · refine .inr ⟨l, ?_⟩
          rwa [update_of_ne hlk]
    · rintro ((hj | rfl) | ⟨l, hl⟩)
      · exact .inl hj
      · exact .inr ⟨k, hi⟩
      · by_cases hlk : l = k
        · rw [hlk, update_self] at hl
          exact .inr ⟨k, hsub hl⟩
        · rw [update_of_ne hlk] at hl
          exact .inr ⟨l, hl⟩

/-! ### Operations on a list -/

theorem next_setEntry (h : 0 < id ∧ id ≤ c.storage.length) (e : Entry) (startEntry : ℕ) :
    (c.setEntry id e).next startEntry = update (c.next startEntry) (some id) (number e.nextEntry) := by
  funext x
  rw [update_apply]
  cases x with
  | none => rfl
  | some i =>
    simp only [next, nextOf_setEntry h, update_apply, Option.some.injEq]
    split <;> rfl

omit [DecidableEq κ] in
theorem Registered.next_eq {c' : MultiAddressContainer} (hr : Registered c c' ids id value)
    (startEntry : ℕ) : c'.next startEntry = update (c.next startEntry) (some id) none := by
  funext x
  rw [update_apply]
  cases x with
  | none => rfl
  | some i =>
    simp only [next, hr.nextOf_eq, update_apply, Option.some.injEq]
    split <;> rfl

namespace Holds

section

variable (h : c.Holds ids values)

include h

omit [DecidableEq κ] in
/-- The entry after an entry of a list. -/
theorem nextOf_eq {l₁ l₂ : List ℕ} {i : ℕ} (hk : ids k = l₁ ++ i :: l₂) :
    c.nextOf i = l₂.headD 0 := by
  have hlinked : Path _ none (ids k) none := h.linked k
  rw [hk, path_append] at hlinked
  cases l₂ with
  | nil => exact number_eq_none.1 hlinked.2
  | cons j l₂ => exact (number_eq_some.1 hlinked.2.1).1

/-- `Register` of a first value. -/
theorem register_first (hk : ids k = []) (hroom : c.freeEntries = [] → c.storage.length + 1 < 2 ^ 31) (value : ℕ) :
    ∃ id c', c.registerImplementation value = some (id, c') ∧
      c'.Holds (update ids k [id]) (update values k [value]) := by
  obtain ⟨id, c', hregister, hr⟩ := h.registerImplementation_eq hroom value
  refine ⟨id, c', hregister, ?_⟩
  have hvalues : values k = [] := by rw [← h.values k, hk, map_nil]
  have hlinked : c'.Linked (ids k ++ [id]) := by
    rw [hk]
    refine ⟨number_eq_some.2 ⟨rfl, hr.bounds.1.ne'⟩, ?_⟩
    rw [hr.next_eq]
    exact update_self ..
  have hnext : ∀ l, l ≠ k → ∀ i ∈ ids l, c'.nextOf i = c.nextOf i := by
    intro l _ i hi
    have hne : i ≠ id := fun heq => hr.fresh l (heq ▸ hi)
    rw [hr.nextOf_eq, update_of_ne hne]
  have hholds := Registered.holds h hr rfl rfl rfl hnext hlinked
  rwa [hk, hvalues] at hholds

/-- **`Register`** puts a value at the end of a list. -/
theorem register_eq {l : List ℕ} (hk : ids k = startEntry :: l)
    (hroom : c.freeEntries = [] → c.storage.length + 1 < 2 ^ 31) (value : ℕ) :
    ∃ id c', c.register value startEntry = some c' ∧ c'.Holds (update ids k (startEntry :: l ++ [id]))
        (update values k (values k ++ [value])) := by
  obtain ⟨id, c₁, hregister, hr⟩ := h.registerImplementation_eq hroom value
  have hlinked : Path (c.next startEntry) none (startEntry :: l) none := by
    have hpath : Path (c.next ((ids k).headD 0)) none (ids k) none := h.linked k
    rwa [hk] at hpath
  have hne : ∀ i ∈ startEntry :: l, i ≠ id := fun i hi heq => hr.fresh k (hk ▸ heq ▸ hi)
  have hbounds : ∀ i ∈ startEntry :: l, 0 < i ∧ i ≤ c₁.storage.length := fun i hi =>
    (hr.mem_iff i).2 (.inr (.inr ⟨k, hk ▸ hi⟩))
  -- The walk in the new table meets the old entries.
  have hlinked₁ : Path (c₁.next startEntry) none (startEntry :: l) none := by
    rw [hr.next_eq]
    exact hlinked.update (Option.some_ne_none id).symm
      (fun i hi heq => hne i hi (Option.some.inj heq)) none
  have hlen : (startEntry :: l).length ≤ c₁.storage.length :=
    length_le_of_bounded (hk ▸ h.nodup k) hbounds
  have hlast : c₁.lastEntryFrom c₁.storage.length startEntry = lastNode (some startEntry) l :=
    (loops_eq hlinked₁.2 hbounds hlen).2
  obtain ⟨last, hmem, hlastNode⟩ : ∃ i ∈ startEntry :: l, lastNode none (startEntry :: l) = some i :=
    lastNode_mem.resolve_left fun hnil => cons_ne_nil _ _ hnil.2
  have hlastNode' := hlastNode
  rw [lastNode_cons] at hlastNode'
  set c₂ := c₁.setEntry last ⟨id, c₁.valueOf last⟩ with hc₂
  have hregister₂ : c.register value startEntry = some c₂ := by
    simp [register, hregister, hlast, hlastNode', entry_eq (hbounds last hmem), hc₂]
  have hnext : ∀ m, m ≠ k → ∀ i ∈ ids m, c₂.nextOf i = c.nextOf i := by
    intro m hm i hi
    have hid : i ≠ id := fun heq => hr.fresh m (heq ▸ hi)
    have hil : i ≠ last := fun heq => h.disjoint m k hm hi (heq ▸ hk ▸ hmem)
    rw [nextOf_setEntry (hbounds last hmem), update_of_ne hil, hr.nextOf_eq, update_of_ne hid]
  have hvalue : c₂.valueOf = c₁.valueOf := by
    rw [valueOf_setEntry (hbounds last hmem), update_eq_self]
  have hlinked₂ : c₂.Linked (ids k ++ [id]) := by
    refine @Linked.of_path _ startEntry _ ?_
    rw [next_setEntry (hbounds last hmem), hr.next_eq, hk, ← hlastNode,
      show number id = some id from number_eq_some.2 ⟨rfl, hr.bounds.1.ne'⟩]
    refine Ring.insert_forward ?_ ?_ ?_ hlinked.next_lastNode
    · rwa [append_nil]
    · rw [append_nil]
      exact hk ▸ h.nodup k
    · rw [append_nil]
      exact fun hi => hne id hi rfl
  have hholds := Registered.holds h hr (k := k) setEntry_length rfl hvalue hnext hlinked₂
  rw [hk] at hholds
  exact ⟨id, c₂, hregister₂, hholds⟩

/-- **`Unregister`** finds the value, takes it out, and tells whether two values or more remain. -/
theorem unregister_eq {l : List ℕ} (hk : ids k = startEntry :: l) (hvalue : value ∈ values k) :
    ∃ ids' c', c.unregister value startEntry = some ((decide (3 ≤ (values k).length), ids'.headD 0), c') ∧
      c'.Holds (update ids k ids') (update values k ((values k).erase value)) := by
  obtain ⟨v₁, v₂, hsplit, hfirst⟩ := eq_append_cons_of_mem hvalue
  obtain ⟨l₁, l', hids, rfl, hl'⟩ := map_eq_append_iff.1 ((h.values k).trans hsplit)
  obtain ⟨i, l₂, rfl, rfl, rfl⟩ := map_eq_cons_iff.1 hl'
  have herase : (values k).erase (c.valueOf i) = (l₁ ++ l₂).map c.valueOf := by
    rw [hsplit, erase_append_right _ hfirst, erase_cons_head, map_append]
  have hlength : (values k).length = l₁.length + (l₂.length + 1) := by rw [hsplit]; simp
  have hlinked : Path (c.next startEntry) none (l₁ ++ i :: l₂) none := by
    have hpath : Path (c.next ((ids k).headD 0)) none (ids k) none := h.linked k
    rwa [show (ids k).headD 0 = startEntry by rw [hk]; rfl, hids] at hpath
  have hbounds : ∀ j ∈ l₁ ++ i :: l₂, 0 < j ∧ j ≤ c.storage.length := fun j hj =>
    h.bounds (k := k) (hids ▸ hj)
  have hlen := h.length_le (k := k)
  rw [hids, length_append, length_cons] at hlen
  have hfind : c.findValueFrom (c.valueOf i) c.storage.length none startEntry 0 =
      some (lastNode none l₁, i, 0 + l₁.length) :=
    findValueFrom_eq hlinked (fun j hj => (number_eq_some.1 hj).1.symm)
      (fun j hj => hbounds j (by simp only [mem_append, mem_cons] at hj ⊢; tauto))
      (fun j hj heq => hfirst (mem_map.2 ⟨j, hj, heq⟩)) rfl (by omega)
  have hi : i ∈ l₁ ++ i :: l₂ := mem_append_right l₁ mem_cons_self
  have hnext := h.nextOf_eq hids
  -- What the two entries behind the value tell about the rest of the list.
  have hmore : (if c.nextOf i ≠ 0 then
      (c.entry (c.nextOf i)).map fun next => decide (next.nextEntry ≠ 0) || (lastNode none l₁).isSome
      else some false) = some (decide (2 ≤ l₂.length) || decide (l₂ ≠ [] ∧ l₁ ≠ [])) := by
    cases l₂ with
    | nil => simp [hnext]
    | cons j l₃ =>
      have hj := hbounds j (by simp)
      have hnext' : c.nextOf j = l₃.headD 0 :=
        @nextOf_eq _ _ _ _ _ h (l₁ ++ [i]) l₃ j (by rw [hids]; simp)
      have hisSome : (lastNode none l₁).isSome = decide (l₁ ≠ []) := by
        rw [Bool.eq_iff_iff, decide_eq_true_iff, Option.isSome_iff_ne_none, Ne, lastNode_eq_none]
      rw [hnext, headD_cons, if_pos hj.1.ne', entry_eq hj, Option.map_some, hisSome, hnext']
      cases l₃ with
      | nil => simp
      | cons m l₄ => simp [(hbounds m (by simp)).1.ne']
  have hcount : (decide (2 ≤ l₂.length) || decide (l₂ ≠ [] ∧ l₁ ≠ []) ||
      decide (1 < 0 + l₁.length)) = decide (3 ≤ (values k).length) := by
    have hpos₁ : l₁ ≠ [] ↔ 0 < l₁.length := length_pos_iff.symm
    have hpos₂ : l₂ ≠ [] ↔ 0 < l₂.length := length_pos_iff.symm
    rw [hlength, Bool.eq_iff_iff]
    simp only [Bool.or_eq_true, decide_eq_true_eq, hpos₁, hpos₂]
    omega
  have hrun : c.unregister (c.valueOf i) startEntry = match lastNode none l₁ with
      | some p => (c.entry p).map fun e => ((decide (3 ≤ (values k).length), startEntry),
        { c.setEntry p { e with nextEntry := c.nextOf i } with
          freeEntries := c.freeEntries ++ [i] })
      | none => some ((decide (3 ≤ (values k).length), c.nextOf i),
        { c with freeEntries := c.freeEntries ++ [i] }) := by
    unfold unregister
    rw [hfind]
    simp only [Option.bind_eq_bind, Option.bind_some]
    rw [entry_eq (hbounds i hi)]
    simp only [Option.bind_some]
    rw [hmore]
    simp only [Option.bind_some]
    rw [hcount]
    cases lastNode none l₁ with
    | none => rfl
    | some p => exact Option.map_eq_bind.symm
  rcases eq_nil_or_concat l₁ with rfl | ⟨l₁, p, rfl⟩
  · refine ⟨l₂, { c with freeEntries := c.freeEntries ++ [i] }, ?_, ?_⟩
    · rw [hrun, hnext]
      rfl
    · rw [herase]
      exact h.released hids rfl rfl rfl (fun _ _ _ _ => rfl)
        (@Linked.of_path _ (c.nextOf i) _
          (Path.congr (path_append.1 hlinked).2 rfl fun _ _ => rfl))
  · rw [concat_eq_append] at hids hlinked hbounds herase hrun
    have hp := hbounds p (by simp)
    set c₁ := c.setEntry p ⟨c.nextOf i, c.valueOf p⟩ with hc₁
    have hlinked₁ : Path (c₁.next startEntry) none (l₁ ++ [p] ++ l₂) none := by
      have hremove := Ring.remove_forward hlinked (hids ▸ h.nodup k)
      rw [lastNode_concat] at hremove
      rw [hc₁, next_setEntry hp]
      exact hremove
    have hstart : (l₁ ++ [p] ++ l₂).headD 0 = startEntry := headD_eq_of_path hlinked₁
    refine ⟨l₁ ++ [p] ++ l₂, { c₁ with freeEntries := c.freeEntries ++ [i] }, ?_, ?_⟩
    · rw [hrun, lastNode_concat, hstart]
      show Option.map _ (c.entry p) = _
      rw [entry_eq hp]
      rfl
    · rw [herase]
      refine h.released hids setEntry_length rfl ?_ (fun m hm j hj => ?_)
        (Linked.of_path (Path.congr hlinked₁ rfl fun _ _ => rfl))
      · show c₁.valueOf = _
        rw [hc₁, valueOf_setEntry hp, update_eq_self]
      · have hjp : j ≠ p := fun heq => h.disjoint m k hm hj (by rw [heq, hids]; simp)
        show c₁.nextOf j = _
        rw [hc₁, nextOf_setEntry hp, update_of_ne hjp]

/-- `ReleaseEntry` of the only entry of a list. -/
theorem releaseEntry_eq (hk : ids k = [startEntry]) :
    ∃ c', c.releaseEntry startEntry = some (c.valueOf startEntry, c') ∧
      c'.Holds (update ids k []) (update values k []) := by
  have hbounds := h.bounds (k := k) (hk ▸ mem_singleton_self startEntry)
  refine ⟨{ c with freeEntries := c.freeEntries ++ [startEntry] }, ?_, ?_⟩
  · rw [releaseEntry, entry_eq hbounds]
    rfl
  · exact @released _ _ _ _ _ _ _ h [] [] startEntry hk rfl rfl rfl (fun _ _ _ _ => rfl) rfl

end

end Holds

end MultiAddressContainer
end Core
end NXEmu
