/-
# Handles over whole runs

`src/nxemu-os/core/hle/kernel/k_handle_table.{h,cpp}`.

A run issues one linear id after the other, so the handle of ticket `t` has the
id `1 + t % 0x7FFF`.  `Slots` is what the entries keep between two operations:
the free ones are linked from the head, and with the ones in use they are all.
`HandleInv` adds what the handles in use have to do with the entries.  A stale
handle resolves to nothing until its id comes round again: the entry it names
may be in use under a later ticket, whose id differs, and cannot be in use under
an earlier one, since it was free when the stale handle was issued.
-/

import NXEmu.Kernel.HandleTable
import NXEmu.Lib.LinkedList
import Mathlib.Data.List.Perm.Basic
import Mathlib.Data.List.Range
import Mathlib.Tactic.Common

namespace NXEmu
namespace Kernel

open Exec

namespace Handle

variable {i l : ℕ}

theorem toNat_encode (i l : ℕ) :
    (encode i l).toNat = i % 2 ^ 15 + l % 2 ^ 15 * 2 ^ 15 := by
  rw [encode, BitVec.toNat_ofNat]
  omega

theorem index_encode (hi : i < 2 ^ 15) : (encode i l).index = i := by
  rw [index, toNat_encode]
  omega

theorem linearId_encode (hl : l < 2 ^ 15) : (encode i l).linearId = l := by
  rw [linearId, toNat_encode]
  omega

theorem reserved_encode : (encode i l).reserved = 0 := by
  rw [reserved, toNat_encode]
  omega

end Handle

namespace KHandleTable

variable {α : Type} {t t' : KHandleTable α} {used free : List ℕ} {i : ℕ}

/-- The entry a free index stands for, -1 for none. -/
def link (z : ℤ) : Option ℕ := if 0 ≤ z then some z.toNat else none

theorem link_natCast (i : ℕ) : link (i : ℤ) = some i := if_pos (Int.natCast_nonneg i)

/-- The free entry the head or an entry links to. -/
def nextFree (t : KHandleTable α) : Option ℕ → Option ℕ
  | none => link t.freeHeadIndex
  | some i => link (t.entryInfos i).getNextFreeIndex

/-- The entries `free` are linked from the head, and with the entries `used` they are all
entries of the table. -/
structure Slots (t : KHandleTable α) (used free : List ℕ) : Prop where
  size : t.tableSize ≤ maxTableSize
  chain : Path t.nextFree none free none
  head : -1 ≤ t.freeHeadIndex
  links : ∀ i ∈ free, -1 ≤ (t.entryInfos i).getNextFreeIndex
  perm : (free ++ used).Perm (List.range t.tableSize)
  count : t.count = used.length
  empty : ∀ i ∈ free, t.objects i = none

namespace Slots

section

variable (h : Slots t used free)

include h

theorem nodup : (free ++ used).Nodup :=
  h.perm.nodup_iff.2 List.nodup_range

theorem lt_of_mem_free (hi : i ∈ free) : i < t.tableSize :=
  List.mem_range.1 (h.perm.mem_iff.1 (List.mem_append_left used hi))

theorem lt_of_mem_used (hi : i ∈ used) : i < t.tableSize :=
  List.mem_range.1 (h.perm.mem_iff.1 (List.mem_append_right free hi))

/-- The head of the free entries is the first of them. -/
theorem head_lt : t.freeHeadIndex < 1024 := by
  have hsize : t.tableSize ≤ 1024 := h.size
  cases free with
  | nil =>
    have hc : link t.freeHeadIndex = none := h.chain
    rw [link] at hc
    split at hc
    · cases hc
    · omega
  | cons i free =>
    have hlt := h.lt_of_mem_free List.mem_cons_self
    have hc : link t.freeHeadIndex = some i := h.chain.1
    rw [link] at hc
    split at hc
    · have := Option.some.inj hc
      omega
    · cases hc

/-- An entry outside the free ones may be written. -/
theorem set (hi : i ∉ free) (e : EntryInfo) (o : Option α) :
    Slots { t with
      entryInfos := Function.update t.entryInfos i e
      objects := Function.update t.objects i o } used free := by
  have hne : ∀ j ∈ free, Function.update t.entryInfos i e j = t.entryInfos j := fun j hj =>
    Function.update_of_ne (ne_of_mem_of_not_mem hj hi) ..
  refine ⟨h.size, h.chain.congr rfl fun j hj => ?_, h.head, fun j hj => ?_, h.perm, h.count, fun j hj => ?_⟩
  · exact congrArg (fun e => link (EntryInfo.getNextFreeIndex e)) (hne j hj)
  · dsimp only
    rw [hne j hj]
    exact h.links j hj
  · exact (Function.update_of_ne (ne_of_mem_of_not_mem hj hi) ..).trans (h.empty j hj)

/-- `AllocateEntry` takes the first free entry. -/
theorem wp_allocateEntry (hc : t.count < t.tableSize) :
    ∃ i free', free = i :: free' ∧ wp t.allocateEntry fun r held => r.1 = i ∧
      Slots r.2 (i :: used) free' ∧ r.2 = { t with
        freeHeadIndex := r.2.freeHeadIndex, count := r.2.count, maxCount := r.2.maxCount } ∧
      held = true := by
  have hlen := h.perm.length_eq
  rw [List.length_append, List.length_range, ← h.count] at hlen
  have hhead := h.head_lt
  cases free with
  | nil =>
    rw [List.length_nil] at hlen
    omega
  | cons i free =>
    refine ⟨i, free, rfl, ?_⟩
    have hi : 0 ≤ t.freeHeadIndex ∧ t.freeHeadIndex.toNat = i := by
      have : link t.freeHeadIndex = some i := h.chain.1
      rw [link] at this
      split at this
      · exact ⟨‹_›, Option.some.inj this⟩
      · cases this
    rw [allocateEntry, wp_bind, wp_assert, if_pos ⟨hi.1, hhead⟩, pure_eq, wp_ret, hi.2]
    refine ⟨rfl, ⟨h.size, h.chain.2.congr rfl fun _ _ => rfl, h.links i List.mem_cons_self,
      fun j hj => h.links j (List.mem_cons_of_mem i hj), ?_, ?_,
      fun j hj => h.empty j (List.mem_cons_of_mem i hj)⟩, rfl, ?_⟩
    · exact List.perm_middle.trans h.perm
    · exact congrArg (· + 1) h.count
    · rw [decide_eq_true hc]
      rfl

end

/-- `FreeEntry` puts a used entry in front of the free ones. -/
theorem wp_freeEntry {used' : List ℕ} (h : Slots t used free) (hu : used.Perm (i :: used')) :
    wp (t.freeEntry i) fun t' held => Slots t' used' (i :: free) ∧ t' = { t with
        objects := Function.update t.objects i none
        entryInfos := t'.entryInfos, freeHeadIndex := t'.freeHeadIndex, count := t'.count } ∧
      (∀ j, j ≠ i → t'.entryInfos j = t.entryInfos j) ∧ held = true := by
  have hlen := hu.length_eq
  have hcount := h.count
  have hhead := h.head
  have hlt := h.head_lt
  have hnodup := (h.perm.symm.trans (hu.append_left free)).nodup_iff.1 List.nodup_range
  have hi : i ∉ free := fun hi =>
    (List.disjoint_of_nodup_append hnodup) hi List.mem_cons_self
  have hz : (BitVec.ofInt 16 t.freeHeadIndex).toInt = t.freeHeadIndex := by
    rw [BitVec.toInt_ofInt]
    exact Int.bmod_eq_of_le (by omega) (by omega)
  have hne : ∀ j, j ≠ i → Function.update t.entryInfos i (BitVec.ofInt 16 t.freeHeadIndex) j =
      t.entryInfos j := fun j hj => Function.update_of_ne hj ..
  have hself : Function.update t.entryInfos i (BitVec.ofInt 16 t.freeHeadIndex) i =
      BitVec.ofInt 16 t.freeHeadIndex := Function.update_self ..
  rw [List.length_cons] at hlen
  rw [freeEntry, wp_bind, wp_assert, pure_eq, wp_ret]
  refine ⟨⟨h.size, ⟨?_, ?_⟩, ?_, fun j hj => ?_, ?_, ?_, fun j hj => ?_⟩, rfl, hne, ?_⟩
  · exact link_natCast i
  · have hnext : link (EntryInfo.getNextFreeIndex (Function.update t.entryInfos i
        (BitVec.ofInt 16 t.freeHeadIndex) i)) = link t.freeHeadIndex := by
      rw [hself, EntryInfo.getNextFreeIndex, hz]
    exact h.chain.congr hnext fun j hj => congrArg (fun e => link (EntryInfo.getNextFreeIndex e))
      (hne j (ne_of_mem_of_not_mem hj hi))
  · exact (by omega : (-1 : ℤ) ≤ (i : ℤ))
  · dsimp only
    rcases List.mem_cons.1 hj with rfl | hj
    · rw [hself, EntryInfo.getNextFreeIndex, hz]
      exact hhead
    · rw [hne j (ne_of_mem_of_not_mem hj hi)]
      exact h.links j hj
  · rw [List.cons_append]
    exact (List.perm_middle.symm.trans (hu.symm.append_left free)).trans h.perm
  · show t.count - 1 = used'.length
    omega
  · rcases List.mem_cons.1 hj with rfl | hj
    · exact Function.update_self ..
    · exact (Function.update_of_ne (ne_of_mem_of_not_mem hj hi) ..).trans (h.empty j hj)
  · rw [decide_eq_true (by omega : 0 < t.count)]
    rfl

/-- The entries `Initialize` has gone through. -/
theorem foldl_initializeEntry (t : KHandleTable α) (k : ℕ) :
    ∃ infos objs, (List.range k).foldl initializeEntry { t with freeHeadIndex := -1 } =
      { t with entryInfos := infos, objects := objs, freeHeadIndex := k - 1 } ∧
      ∀ i < k, infos i = BitVec.ofInt 16 (i - 1) ∧ objs i = none := by
  induction k with
  | zero => exact ⟨_, _, rfl, fun i hi => absurd hi i.not_lt_zero⟩
  | succ k ih =>
    obtain ⟨infos, objs, heq, h⟩ := ih
    refine ⟨Function.update infos k (BitVec.ofInt 16 (k - 1)), Function.update objs k none, ?_, fun i hi => ?_⟩
    · have hk : ((k + 1 : ℕ) : ℤ) - 1 = k := by omega
      rw [List.range_succ, List.foldl_append, heq, hk]
      rfl
    · by_cases hik : i = k
      · subst hik
        rw [Function.update_self, Function.update_self]
        exact ⟨rfl, rfl⟩
      · rw [Function.update_of_ne hik, Function.update_of_ne hik]
        exact h i (by omega)

/-- A new table has all its entries free. -/
theorem initialized {size : ℤ} (h : t.initialized size = some t') :
    Slots t' [] (List.range t'.tableSize).reverse ∧ t'.nextLinearId = 1 := by
  rw [KHandleTable.initialized] at h
  split at h
  case isFalse => cases h
  case isTrue hsize =>
    obtain ⟨infos, objs, heq, hall⟩ := foldl_initializeEntry
      { t with
        maxCount := 0
        tableSize := if size ≤ 0 then maxTableSize else size.toNat
        nextLinearId := minLinearId
        count := 0 } (if size ≤ 0 then maxTableSize else size.toNat)
    have h := (congrArg some heq).symm.trans h
    cases h
    have hn : (if size ≤ 0 then maxTableSize else size.toNat) ≤ 1024 := by
      have : size ≤ 1024 := hsize
      split
      · exact le_rfl
      · omega
    have hz : ∀ i : ℕ, i < 1024 → (BitVec.ofInt 16 ((i : ℤ) - 1)).toInt = i - 1 := fun i hi => by
      rw [BitVec.toInt_ofInt]
      exact Int.bmod_eq_of_le (by omega) (by omega)
    generalize (if size ≤ 0 then maxTableSize else size.toNat) = n at *
    refine ⟨⟨hn, ?_, ?_, fun i hi => ?_, ?_, rfl, fun i hi => ?_⟩, rfl⟩
    · suffices hs : ∀ k ≤ n, ∀ next : Option ℕ → Option ℕ, next none = link ((k : ℤ) - 1) →
          (∀ i < k, next (some i) = link (infos i).toInt) →
          Path next none (List.range k).reverse none from
        hs n le_rfl _ rfl fun _ _ => rfl
      intro k hk
      induction k with
      | zero => exact fun next h₀ _ => h₀
      | succ k ih =>
        intro next h₀ h₁
        have hk₁ : ((k + 1 : ℕ) : ℤ) - 1 = k := by omega
        rw [hk₁, link_natCast] at h₀
        rw [List.range_succ, List.reverse_append]
        refine ⟨h₀, (ih (by omega) (fun | none => next (some k) | some i => next (some i)) ?_
          fun i hi => h₁ i (by omega)).congr rfl fun _ _ => rfl⟩
        refine (h₁ k (by omega)).trans ?_
        rw [(hall k hk).1, hz k (by omega)]
    · exact (by omega : (-1 : ℤ) ≤ (n : ℤ) - 1)
    · have hi : i < n := List.mem_range.1 (List.mem_reverse.1 hi)
      show -1 ≤ (infos i).toInt
      rw [(hall i hi).1, hz i (by omega)]
      omega
    · rw [List.append_nil]
      exact List.reverse_perm _
    · exact (hall i (List.mem_range.1 (List.mem_reverse.1 hi))).2

/-- The ids do not matter to the slots. -/
theorem setNextLinearId (h : Slots t used free) (id : ℕ) :
    Slots { t with nextLinearId := id } used free :=
  { h with }

end Slots
end KHandleTable

/-! ### Runs -/

/-- A handle that is in use: the ticket it was issued as, and its object once it has
one. -/
structure LiveHandle (α : Type) where
  ticket : ℕ
  handle : Handle
  object : Option α

/-- A table, the handles it issued one after the other, and those in use. -/
structure HandleState (α : Type) where
  table : KHandleTable α
  issued : List Handle
  live : List (LiveHandle α)

/-- A call of one of the operations. -/
inductive HandleCall (α : Type) where
  | add (obj : α)
  | reserve
  | register (h : Handle) (obj : α)
  | unreserve (h : Handle)
  | remove (h : Handle)

variable {α : Type}

namespace HandleState

/-- Record the handle `r` as issued for `object`, if it is one. -/
def issue (s : HandleState α) (table : KHandleTable α) (r : Option Handle) (object : Option α) :
    HandleState α :=
  match r with
  | none => { s with table := table }
  | some h =>
    { table := table
      issued := s.issued ++ [h]
      live := ⟨s.issued.length, h, object⟩ :: s.live }

/-- Record that `h` is not in use any more. -/
def drop (s : HandleState α) (table : KHandleTable α) (h : Handle) : HandleState α :=
  { s with table := table, live := s.live.eraseP fun e => e.handle = h }

/-- Record the object `h` got. -/
def setObject (s : HandleState α) (table : KHandleTable α) (h : Handle) (obj : α) :
    HandleState α :=
  { s with
    table := table
    live := s.live.map fun e => if e.handle = h then { e with object := some obj } else e }

end HandleState

namespace HandleCall

/-- Make the call. -/
def exec (c : HandleCall α) (s : HandleState α) : Exec (HandleState α) :=
  match c with
  | add obj => do
    let (r, t) ← s.table.add obj
    return s.issue t r (some obj)
  | reserve => do
    let (r, t) ← s.table.reserve
    return s.issue t r none
  | register h obj => do
    let t ← s.table.register h obj
    return s.setObject t h obj
  | unreserve h => do
    let t ← s.table.unreserve h
    return s.drop t h
  | remove h => do
    let (removed, t) ← s.table.remove h
    return if removed then s.drop t h else { s with table := t }

/-- `Register` and `Unreserve` are for reserved handles without an object. -/
def Valid (c : HandleCall α) (s : HandleState α) : Prop :=
  match c with
  | register h _ | unreserve h => ∃ e ∈ s.live, e.handle = h ∧ e.object = none
  | _ => True

end HandleCall

/-- The states runs of valid calls lead to. -/
inductive HandleRun (s₀ : HandleState α) : HandleState α → Prop
  | refl : HandleRun s₀ s₀
  | step {s s' : HandleState α} {c : HandleCall α} {held} : HandleRun s₀ s → c.Valid s →
    c.exec s = ret s' held → HandleRun s₀ s'

/-- What runs keep. -/
structure HandleInv (s : HandleState α) : Prop where
  slots : ∃ free, s.table.Slots (s.live.map fun e => e.handle.index) free
  nextId : s.table.nextLinearId = 1 + s.issued.length % 0x7FFF
  issued : ∀ t h, s.issued[t]? = some h → h.linearId = 1 + t % 0x7FFF ∧ h.reserved = 0
  ticket : ∀ e ∈ s.live, s.issued[e.ticket]? = some e.handle
  object : ∀ e ∈ s.live, s.table.objects e.handle.index = e.object
  linearId : ∀ e ∈ s.live, e.object ≠ none →
    (s.table.entryInfos e.handle.index).getLinearId = e.handle.linearId
  later : ∀ e ∈ s.live, ∀ t h, e.ticket < t → s.issued[t]? = some h →
    h.index ≠ e.handle.index

/-- A handle is its three parts. -/
theorem Handle.ext {h h' : Handle} (hi : h.index = h'.index) (hl : h.linearId = h'.linearId)
    (hr : h.reserved = h'.reserved) : h = h' := by
  apply BitVec.eq_of_toNat_eq
  rw [index, index] at hi
  rw [linearId, linearId] at hl
  rw [reserved, reserved] at hr
  omega

namespace HandleInv

variable {s : HandleState α} {h : Handle}

variable {e : LiveHandle α} {t t₀ : KHandleTable α} {size : ℤ}

section

variable (hs : HandleInv s)

include hs

theorem nodup : (s.live.map fun e => e.handle.index).Nodup := by
  obtain ⟨free, hf⟩ := hs.slots
  exact (List.nodup_append.1 hf.nodup).2.1

/-- An entry belongs to one handle in use. -/
theorem unique {e e' : LiveHandle α} (he : e ∈ s.live) (he' : e' ∈ s.live)
    (hi : e.handle.index = e'.handle.index) : e = e' :=
  List.inj_on_of_nodup_map hs.nodup he he' hi

theorem parts (he : e ∈ s.live) :
    e.handle.linearId = 1 + e.ticket % 0x7FFF ∧ e.handle.reserved = 0 :=
  hs.issued _ _ (hs.ticket e he)

/-- The handles that pass for valid are those in use with an object. -/
theorem wp_isValidHandle (hr : h.reserved = 0) :
    wp (s.table.isValidHandle h) fun v held => held = true ∧
      (v = true ↔ ∃ e ∈ s.live, e.handle = h ∧ e.object ≠ none) := by
  obtain ⟨free, hf⟩ := hs.slots
  rw [KHandleTable.isValidHandle, wp_bind, wp_assert, pure_eq, wp_ret, decide_eq_true hr, decide_eq_true_eq]
  refine ⟨rfl, ?_⟩
  constructor
  · rintro ⟨-, -, hlt, ho, hid⟩
    have hused : h.index ∈ s.live.map fun e => e.handle.index := by
      rcases List.mem_append.1 (hf.perm.mem_iff.2 (List.mem_range.2 hlt)) with hfree | hused
      · rw [hf.empty _ hfree] at ho
        cases ho
      · exact hused
    obtain ⟨e, he, hei⟩ := List.mem_map.1 hused
    have hobj : e.object ≠ none := by
      rw [← hs.object e he, hei]
      exact Option.isSome_iff_ne_none.1 ho
    have hlin := hs.linearId e he hobj
    rw [hei, hid] at hlin
    exact ⟨e, he, Handle.ext hei hlin.symm ((hs.parts he).2.trans hr.symm), hobj⟩
  · rintro ⟨e, he, rfl, hobj⟩
    have hlin := (hs.parts he).1
    refine ⟨fun h0 => ?_, by omega, hf.lt_of_mem_used (List.mem_map.2 ⟨e, he, rfl⟩), ?_, hs.linearId e he hobj⟩
    · rw [h0, show Handle.linearId 0 = 0 from rfl] at hlin
      omega
    · rw [hs.object e he]
      exact Option.isSome_iff_ne_none.2 hobj

/-- **A lookup finds the object of a handle in use**, and nothing else. -/
theorem wp_getObjectImpl (h : Handle) :
    wp (s.table.getObjectImpl h) fun o held => held = true ∧
      ∀ obj, o = some obj ↔ ∃ e ∈ s.live, e.handle = h ∧ e.object = some obj := by
  rw [KHandleTable.getObjectImpl]
  by_cases hr : h.reserved = 0
  · rw [if_neg (not_not.2 hr), wp_bind]
    refine wp_mono (hs.wp_isValidHandle hr) fun v held ⟨hheld, hv⟩ => ?_
    rw [pure_eq, wp_ret, hheld]
    refine ⟨rfl, fun obj => ⟨fun ho => ?_, ?_⟩⟩
    · split at ho
      case isTrue hvt =>
        obtain ⟨e, he, rfl, -⟩ := hv.1 hvt
        exact ⟨e, he, rfl, (hs.object e he).symm.trans ho⟩
      case isFalse => cases ho
    · rintro ⟨e, he, rfl, hobj⟩
      rw [if_pos (hv.2 ⟨e, he, rfl, hobj ▸ Option.some_ne_none obj⟩), hs.object e he, hobj]
  · rw [if_pos hr, pure_eq, wp_ret]
    refine ⟨rfl, fun obj => ⟨fun ho => (by cases ho), ?_⟩⟩
    rintro ⟨e, he, rfl, -⟩
    exact absurd (hs.parts he).2 hr

/-- **Issuing a handle** for the free entry `i` under the next id keeps the invariant. -/
theorem issue {i : ℕ} {free : List ℕ} {o : Option α} (hslots : t.Slots (i :: s.live.map fun e => e.handle.index) free)
    (hid : t.nextLinearId = 1 + (s.issued.length + 1) % 0x7FFF) (hobj : ∀ j, j ≠ i → t.objects j = s.table.objects j)
    (hinfo : ∀ j, j ≠ i → t.entryInfos j = s.table.entryInfos j) (hi : t.objects i = o)
    (hlin : o ≠ none → (t.entryInfos i).getLinearId = s.table.nextLinearId) :
    HandleInv (s.issue t (some (Handle.encode i s.table.nextLinearId)) o) := by
  have hnext := hs.nextId
  have hilt : i < 2 ^ 15 := by
    have h₁ := hslots.lt_of_mem_used List.mem_cons_self
    have h₂ : t.tableSize ≤ 1024 := hslots.size
    omega
  have hindex := Handle.index_encode (l := s.table.nextLinearId) hilt
  have hlinear := Handle.linearId_encode (i := i) (l := s.table.nextLinearId) (by omega)
  have hreserved := Handle.reserved_encode (i := i) (l := s.table.nextLinearId)
  set h := Handle.encode i s.table.nextLinearId
  have hne : ∀ e ∈ s.live, e.handle.index ≠ i := fun e he hei =>
    (List.nodup_cons.1 (List.nodup_append.1 hslots.nodup).2.1).1
      (List.mem_map.2 ⟨e, he, hei⟩)
  have hold : ∀ {k h'}, s.issued[k]? = some h' → k < s.issued.length := fun hk =>
    (List.getElem?_eq_some_iff.1 hk).1
  have hget : ∀ k h', (s.issued ++ [h])[k]? = some h' → s.issued[k]? = some h' ∨ k = s.issued.length ∧ h' = h := by
    intro k h' hk
    rcases lt_or_ge k s.issued.length with hlt | hge
    · rw [List.getElem?_append_left hlt] at hk
      exact Or.inl hk
    · rw [List.getElem?_append_right hge] at hk
      obtain ⟨hk₀, hk₁⟩ := List.getElem?_eq_some_iff.1 hk
      rw [List.length_singleton] at hk₀
      obtain rfl : k = s.issued.length := by omega
      exact Or.inr ⟨rfl, by simpa using hk₁.symm⟩
  refine ⟨⟨free, ?_⟩, ?_, fun k h' hk => ?_, fun e he => ?_, fun e he => ?_, fun e he hne' => ?_,
    fun e he k h' hk hk' => ?_⟩
  · show t.Slots (h.index :: s.live.map fun e => e.handle.index) free
    rw [hindex]
    exact hslots
  · show t.nextLinearId = 1 + (s.issued ++ [h]).length % 0x7FFF
    rw [hid, List.length_append, List.length_singleton]
  · rcases hget k h' hk with hk | ⟨rfl, rfl⟩
    · exact hs.issued k h' hk
    · exact ⟨hlinear.trans hnext, hreserved⟩
  · rcases List.mem_cons.1 he with rfl | he
    · exact List.getElem?_concat_length
    · have := hs.ticket e he
      exact (List.getElem?_append_left (hold this)).trans this
  · rcases List.mem_cons.1 he with rfl | he
    · exact (congrArg t.objects hindex).trans hi
    · exact (hobj _ (hne e he)).trans (hs.object e he)
  · rcases List.mem_cons.1 he with rfl | he
    · show (t.entryInfos h.index).getLinearId = h.linearId
      rw [hindex, hlinear]
      exact hlin hne'
    · show (t.entryInfos _).getLinearId = _
      rw [hinfo _ (hne e he)]
      exact hs.linearId e he hne'
  · rcases List.mem_cons.1 he with rfl | he
    · have hlen := (List.getElem?_eq_some_iff.1 hk').1
      have hlen' : k < (s.issued ++ [h]).length := hlen
      rw [List.length_append, List.length_singleton] at hlen'
      have hk : s.issued.length < k := hk
      omega
    · rcases hget k h' hk' with hk' | ⟨rfl, rfl⟩
      · exact hs.later e he k h' hk hk'
      · rw [hindex]
        exact (hne e he).symm

/-- The id after the next one. -/
theorem allocateLinearId (ht : t.nextLinearId = s.table.nextLinearId) :
    t.allocateLinearId = (s.table.nextLinearId, { t with nextLinearId := 1 + (s.issued.length + 1) % 0x7FFF }) := by
  have hnext := hs.nextId
  have h : (if t.nextLinearId + 1 > KHandleTable.maxLinearId then KHandleTable.minLinearId
      else t.nextLinearId + 1) = 1 + (s.issued.length + 1) % 0x7FFF := by
    rw [KHandleTable.maxLinearId, KHandleTable.minLinearId]
    split <;> omega
  rw [KHandleTable.allocateLinearId, h, ht]

theorem add (obj : α) :
    wp ((HandleCall.add obj).exec s) fun s' held => held = true ∧ HandleInv s' := by
  rw [HandleCall.exec, KHandleTable.add]
  by_cases hc : s.table.count < s.table.tableSize
  · obtain ⟨free, hf⟩ := hs.slots
    have hf' := hf.setNextLinearId (1 + (s.issued.length + 1) % 0x7FFF)
    obtain ⟨i, free', rfl, hw⟩ := hf'.wp_allocateEntry hc
    rw [if_pos hc, hs.allocateLinearId rfl]
    simp only [wp_bind]
    refine wp_mono hw fun r held halloc => ?_
    obtain ⟨j, t⟩ := r
    obtain ⟨hj, hslots, ht, hheld⟩ := halloc
    obtain rfl : j = i := hj
    dsimp only at hslots ht ⊢
    rw [pure_eq, wp_ret]
    dsimp only
    rw [pure_eq, wp_ret]
    refine ⟨by rw [hheld]; rfl, ?_⟩
    have hnotfree : j ∉ free' := (List.nodup_cons.1 (List.nodup_append.1 hf.nodup).1).1
    refine hs.issue (hslots.set hnotfree _ _) (by rw [ht]) (fun k hk => ?_) (fun k hk => ?_)
      (Function.update_self ..) fun _ => ?_
    · exact (Function.update_of_ne hk ..).trans (by rw [ht])
    · exact (Function.update_of_ne hk ..).trans (by rw [ht])
    · have hnext := hs.nextId
      refine (congrArg EntryInfo.getLinearId (Function.update_self j
        (BitVec.ofNat 16 s.table.nextLinearId) t.entryInfos)).trans ?_
      rw [EntryInfo.getLinearId, BitVec.toNat_ofNat]
      omega
  · rw [if_neg hc, pure_eq, wp_bind, wp_ret]
    dsimp only
    rw [pure_eq, wp_ret]
    exact ⟨rfl, hs⟩

theorem reserve :
    wp ((HandleCall.reserve (α := α)).exec s) fun s' held => held = true ∧ HandleInv s' := by
  rw [HandleCall.exec, KHandleTable.reserve]
  by_cases hc : s.table.count < s.table.tableSize
  · obtain ⟨free, hf⟩ := hs.slots
    obtain ⟨i, free', rfl, hw⟩ := hf.wp_allocateEntry hc
    rw [if_pos hc]
    simp only [wp_bind]
    refine wp_mono hw fun r held halloc => ?_
    obtain ⟨j, t⟩ := r
    obtain ⟨hj, hslots, ht, hheld⟩ := halloc
    obtain rfl : j = i := hj
    dsimp only at hslots ht ⊢
    rw [hs.allocateLinearId (by rw [ht]), pure_eq, wp_ret]
    dsimp only
    rw [pure_eq, wp_ret]
    refine ⟨by rw [hheld]; rfl, ?_⟩
    refine hs.issue (hslots.setNextLinearId _) rfl (fun k _ => by rw [ht]) (fun k _ => by rw [ht])
      ?_ fun h => absurd rfl h
    rw [ht]
    exact hf.empty j List.mem_cons_self
  · rw [if_neg hc, pure_eq, wp_bind, wp_ret]
    dsimp only
    rw [pure_eq, wp_ret]
    exact ⟨rfl, hs⟩

/-- **Freeing the entry** of a handle in use keeps the invariant. -/
theorem drop (he : e ∈ s.live) :
    wp (s.table.freeEntry e.handle.index) fun t held =>
      held = true ∧ HandleInv (s.drop t e.handle) := by
  obtain ⟨free, hf⟩ := hs.slots
  obtain ⟨e', l₁, l₂, -, heq, hl, herase⟩ :=
    List.exists_of_eraseP (p := fun e' => e'.handle = e.handle) he (decide_eq_true rfl)
  have hmem : ∀ {x}, x ∈ l₁ ++ l₂ → x ∈ s.live := fun hx => by
    rw [hl]
    exact (List.perm_middle.mem_iff).2 (List.mem_cons_of_mem e' hx)
  obtain rfl : e' = e := hs.unique (hl ▸ List.mem_append_right l₁ List.mem_cons_self) he
    (congrArg Handle.index (of_decide_eq_true heq))
  have hperm : (s.live.map fun e => e.handle.index).Perm
      (e'.handle.index :: (l₁ ++ l₂).map fun e => e.handle.index) := by
    rw [hl]
    exact List.perm_middle.map _
  have hne : ∀ x ∈ l₁ ++ l₂, x.handle.index ≠ e'.handle.index := fun x hx hxe =>
    (List.nodup_cons.1 (hperm.nodup_iff.1 hs.nodup)).1 (List.mem_map.2 ⟨x, hx, hxe⟩)
  refine wp_mono (hf.wp_freeEntry hperm) fun t held ⟨hslots, ht, hinfo, hheld⟩ => ⟨hheld, ?_⟩
  rw [HandleState.drop, herase]
  refine ⟨⟨_, hslots⟩, ?_, hs.issued, fun x hx => hs.ticket x (hmem hx), fun x hx => ?_,
    fun x hx hxo => ?_, fun x hx => hs.later x (hmem hx)⟩
  · rw [ht]
    exact hs.nextId
  · rw [ht]
    exact (Function.update_of_ne (hne x hx) ..).trans (hs.object x (hmem hx))
  · exact (congrArg EntryInfo.getLinearId (hinfo _ (hne x hx))).trans
      (hs.linearId x (hmem hx) hxo)

theorem unreserve (hc : (HandleCall.unreserve (α := α) h).Valid s) :
    wp ((HandleCall.unreserve h).exec s) fun s' held => held = true ∧ HandleInv s' := by
  obtain ⟨e, he, rfl, ho⟩ := hc
  obtain ⟨free, hf⟩ := hs.slots
  obtain ⟨hlin, hres⟩ := hs.parts he
  have hlt := hf.lt_of_mem_used (List.mem_map.2 ⟨e, he, rfl⟩)
  have hlin₀ : e.handle.linearId ≠ 0 := by omega
  have hnone : (s.table.objects e.handle.index).isNone = true := by
    rw [hs.object e he, ho]
    rfl
  rw [HandleCall.exec, KHandleTable.unreserve]
  simp only [wp_bind, wp_assert, if_pos hlt]
  refine wp_mono (hs.drop he) fun t held h => ?_
  rw [pure_eq, wp_ret]
  refine ⟨?_, h.2⟩
  rw [h.1, decide_eq_true hres, decide_eq_true hlin₀, decide_eq_true hnone]
  rfl

theorem remove (h : Handle) :
    wp ((HandleCall.remove h).exec s) fun s' held => held = true ∧ HandleInv s' := by
  have hsame : HandleInv { s with table := s.table } := hs
  rw [HandleCall.exec, KHandleTable.remove]
  by_cases hp : h.isPseudoHandle = true
  · rw [if_pos hp]
    simpa using hsame
  by_cases hr : h.reserved = 0
  · rw [if_neg hp, if_neg (not_not.2 hr)]
    simp only [wp_bind]
    refine wp_mono (hs.wp_isValidHandle hr) fun v held hvalid => ?_
    obtain ⟨rfl, hv⟩ := hvalid
    cases v with
    | false => simpa using hsame
    | true =>
      obtain ⟨e, he, rfl, -⟩ := hv.1 rfl
      rw [if_pos rfl, wp_bind]
      refine wp_mono (hs.drop he) fun t held hdrop => ?_
      obtain ⟨rfl, ht⟩ := hdrop
      simpa using ht
  · rw [if_neg hp, if_pos hr]
    simpa using hsame

theorem register {obj : α} (hc : (HandleCall.register h obj).Valid s) :
    wp ((HandleCall.register h obj).exec s) fun s' held => held = true ∧ HandleInv s' := by
  obtain ⟨e, he, rfl, ho⟩ := hc
  obtain ⟨free, hf⟩ := hs.slots
  obtain ⟨hlin, hres⟩ := hs.parts he
  have hused : e.handle.index ∈ s.live.map fun e => e.handle.index :=
    List.mem_map.2 ⟨e, he, rfl⟩
  have hlt := hf.lt_of_mem_used hused
  have hlin₀ : e.handle.linearId ≠ 0 := by omega
  have hnone : (s.table.objects e.handle.index).isNone = true := by
    rw [hs.object e he, ho]
    rfl
  have hfree : e.handle.index ∉ free := fun hfree =>
    List.disjoint_of_nodup_append hf.nodup hfree hused
  rw [HandleCall.exec, KHandleTable.register]
  simp only [wp_bind, wp_assert, if_pos hlt, pure_eq, wp_ret, decide_eq_true hres,
    decide_eq_true hlin₀, decide_eq_true hnone]
  refine ⟨rfl, ?_⟩
  rw [HandleState.setObject]
  set f : LiveHandle α → LiveHandle α := fun x =>
    if x.handle = e.handle then { x with object := some obj } else x with hfdef
  have hhandle : ∀ x, (f x).handle = x.handle := fun x => by
    rw [hfdef]
    dsimp only
    split <;> rfl
  have hticket : ∀ x, (f x).ticket = x.ticket := fun x => by
    rw [hfdef]
    dsimp only
    split <;> rfl
  have hself : f e = { e with object := some obj } := if_pos rfl
  have hother : ∀ x ∈ s.live, x ≠ e → f x = x ∧ x.handle.index ≠ e.handle.index := by
    intro x hx hxe
    have hi : x.handle.index ≠ e.handle.index := fun hi => hxe (hs.unique hx he hi)
    exact ⟨if_neg fun hh => hi (congrArg Handle.index hh), hi⟩
  have hslots := hf.set hfree (BitVec.ofNat 16 e.handle.linearId) (some obj)
  refine ⟨⟨free, ?_⟩, hs.nextId, hs.issued, fun y hy => ?_, fun y hy => ?_, fun y hy hyo => ?_, fun y hy => ?_⟩
  · rw [List.map_map, show ((fun e => e.handle.index) ∘ f) = fun e => e.handle.index from
      funext fun x => congrArg Handle.index (hhandle x)]
    exact hslots
  · obtain ⟨x, hx, rfl⟩ := List.mem_map.1 hy
    rw [hticket, hhandle]
    exact hs.ticket x hx
  · obtain ⟨x, hx, rfl⟩ := List.mem_map.1 hy
    rw [hhandle]
    by_cases hxe : x = e
    · subst hxe
      rw [hself]
      exact Function.update_self ..
    · obtain ⟨hfx, hi⟩ := hother x hx hxe
      rw [hfx]
      exact (Function.update_of_ne hi ..).trans (hs.object x hx)
  · obtain ⟨x, hx, rfl⟩ := List.mem_map.1 hy
    rw [hhandle]
    by_cases hxe : x = e
    · subst hxe
      refine (congrArg EntryInfo.getLinearId (Function.update_self x.handle.index
        (BitVec.ofNat 16 x.handle.linearId) s.table.entryInfos)).trans ?_
      rw [EntryInfo.getLinearId, BitVec.toNat_ofNat]
      omega
    · obtain ⟨hfx, hi⟩ := hother x hx hxe
      rw [hfx] at hyo
      exact (congrArg EntryInfo.getLinearId (Function.update_of_ne hi ..)).trans
        (hs.linearId x hx hyo)
  · obtain ⟨x, hx, rfl⟩ := List.mem_map.1 hy
    rw [hticket, hhandle]
    exact hs.later x hx

/-- **Every valid call keeps the invariant**, and no assertion fails in it. -/
theorem call {c : HandleCall α} (hc : c.Valid s) :
    wp (c.exec s) fun s' held => held = true ∧ HandleInv s' := by
  cases c with
  | add obj => exact hs.add obj
  | reserve => exact hs.reserve
  | register h obj => exact hs.register hc
  | unreserve h => exact hs.unreserve hc
  | remove h => exact hs.remove h

end

theorem init (h : t₀.initialized size = some t) :
    HandleInv ⟨t, [], []⟩ := by
  obtain ⟨hslots, hnext⟩ := KHandleTable.Slots.initialized h
  exact ⟨⟨_, hslots⟩, hnext, (fun k h hk => by cases hk), (fun e he => by cases he),
    (fun e he => by cases he), (fun e he => by cases he), (fun e he => by cases he)⟩

/-- Runs keep the invariant. -/
theorem run (h : t₀.initialized size = some t) (hs : HandleRun ⟨t, [], []⟩ s) : HandleInv s := by
  induction hs with
  | refl => exact init h
  | step _ hc he ih =>
    have := ih.call hc
    rw [he, wp_ret] at this
    exact this.2

/-- **A stale handle resolves to nothing** until 0x7FFF ids were issued after it: the
entry can only be in use under another ticket, and an earlier one would have kept the
entry from being given out again. -/
theorem wp_getObjectImpl_stale (hs : HandleInv s) {k : ℕ} (hk : s.issued[k]? = some h)
    (hdead : ∀ e ∈ s.live, e.ticket = k → e.object = none) (hrecent : s.issued.length - 1 - k < 0x7FFF) :
    wp (s.table.getObjectImpl h) fun o _ => o = none := by
  refine wp_mono (hs.wp_getObjectImpl h) fun o held ⟨_, ho⟩ => ?_
  by_contra hne
  obtain ⟨obj, hobj⟩ := Option.ne_none_iff_exists'.1 hne
  obtain ⟨e, he, rfl, heo⟩ := (ho obj).1 hobj
  have hlt := (List.getElem?_eq_some_iff.1 (hs.ticket e he)).1
  have hid := (hs.issued k _ hk).1
  have hid' := (hs.parts he).1
  rcases lt_trichotomy e.ticket k with hek | hek | hek
  · exact hs.later e he k _ hek hk rfl
  · rw [hdead e he hek] at heo
    cases heo
  · omega

end HandleInv

/-- **Handles over whole runs.**  In every state a run leads to, the free entries are linked
without a cycle and with those in use they are the entries of the table, which counts those
in use; no two handles in use are equal; the object of one is found under it; a handle that
is not in use any more, or has no object yet, is found to have none while fewer than 0x7FFF
ids were issued after it; and no valid call faults or fails an assertion. -/
theorem handleRun_safe {t₀ t : KHandleTable α} {size : ℤ} (h : t₀.initialized size = some t)
    {s : HandleState α} (hs : HandleRun ⟨t, [], []⟩ s) :
    (∃ free, Path s.table.nextFree none free none ∧
      (free ++ s.live.map fun e => e.handle.index).Perm (List.range s.table.tableSize)) ∧
    s.table.count = s.live.length ∧
    (s.live.map fun e => e.handle).Nodup ∧
    (∀ e ∈ s.live, ∀ obj, e.object = some obj →
      wp (s.table.getObjectImpl e.handle) fun o _ => o = some obj) ∧
    (∀ k h, s.issued[k]? = some h → (∀ e ∈ s.live, e.ticket = k → e.object = none) →
      s.issued.length - 1 - k < 0x7FFF → wp (s.table.getObjectImpl h) fun o _ => o = none) ∧
    (∀ c : HandleCall α, c.Valid s → wp (c.exec s) fun _ held => held = true) := by
  have hinv := HandleInv.run h hs
  obtain ⟨free, hf⟩ := hinv.slots
  refine ⟨⟨free, hf.chain, hf.perm⟩, ?_, ?_, fun e he obj ho => ?_,
    fun k h hk hdead hrecent => hinv.wp_getObjectImpl_stale hk hdead hrecent, fun c hc => ?_⟩
  · rw [hf.count, List.length_map]
  · refine List.Nodup.of_map Handle.index ?_
    rw [List.map_map]
    exact hinv.nodup
  · exact wp_mono (hinv.wp_getObjectImpl e.handle) fun o _ hr => (hr.2 obj).2 ⟨e, he, rfl, ho⟩
  · exact wp_mono (hinv.call hc) fun _ _ hr => hr.1

/-- The state after some calls of a table of four entries. -/
def stateAfter (calls : List (HandleCall ℕ)) : HandleState ℕ :=
  calls.foldl (fun s c => (c.exec s).value s)
    ⟨(({} : KHandleTable ℕ).initialized 4).getD {}, [], []⟩

/-- In a table of four entries an object is added, a handle is reserved, and the object is
removed: its handle, the first one issued, resolves to nothing. -/
theorem handleRun_safe_four :
    let s := stateAfter [.add 7, .reserve, .remove (Handle.encode 3 1)]
    s.issued = [Handle.encode 3 1, Handle.encode 2 2] ∧ s.table.count = s.live.length ∧
      wp (s.table.getObjectImpl (Handle.encode 3 1)) fun o _ => o = none := by
  have hrun : HandleRun (stateAfter [])
      (stateAfter [.add 7, .reserve, .remove (Handle.encode 3 1)]) :=
    .step (s := stateAfter [.add 7, .reserve]) (c := .remove (Handle.encode 3 1))
      (.step (s := stateAfter [.add 7]) (c := .reserve)
        (.step (s := stateAfter []) (c := .add 7) .refl trivial rfl) trivial rfl) trivial rfl
  have hinit : ({} : KHandleTable ℕ).initialized 4 = some (stateAfter []).table := rfl
  have h := handleRun_safe hinit hrun
  exact ⟨by decide, h.2.1, h.2.2.2.2.1 0 _ (by decide) (by decide) (by decide)⟩

end Kernel
end NXEmu
