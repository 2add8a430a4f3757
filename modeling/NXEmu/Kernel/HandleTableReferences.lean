/-
# References of a handle table

`src/nxemu-os/core/hle/kernel/k_handle_table.{h,cpp}`: `Add` and `Register` open the object that they
put in an entry, `Remove` closes it, and `Finalize` closes what is left.

A call changes one entry at most, so that what it closes, with the objects of the entries after it,
is what it opens with those before it (`HandleInv.entries_exec`).
-/

import NXEmu.Kernel.HandleTableRuns

namespace NXEmu
namespace Kernel

open Exec List

variable {α : Type}

namespace KHandleTable

/-- The objects of the entries. -/
def entries (t : KHandleTable α) : List α := (List.range t.tableSize).filterMap t.objects

/-- `Finalize`: the objects that it closes, and the table. -/
def finalized (t : KHandleTable α) : List α × KHandleTable α := (t.entries, { t with tableSize := 0 })

/-- An entry takes an object for the one that it has. -/
theorem perm_entries {t u : KHandleTable α} {i : ℕ} {o : Option α} (hi : i < t.tableSize)
    (hsize : u.tableSize = t.tableSize) (hobjects : u.objects = Function.update t.objects i o) :
    ((t.objects i).toList ++ u.entries).Perm (o.toList ++ t.entries) := by
  have hperm := perm_cons_erase (mem_range.2 hi)
  have hcons (f : ℕ → Option α) (l : List ℕ) : (i :: l).filterMap f = (f i).toList ++ l.filterMap f := by
    rw [filterMap_cons]
    cases f i <;> rfl
  have hrest : ((range t.tableSize).erase i).filterMap u.objects =
      ((range t.tableSize).erase i).filterMap t.objects := by
    rw [hobjects]
    exact filterMap_congr fun j hj => Function.update_of_ne (nodup_range.mem_erase_iff.1 hj).1 ..
  have hbefore := hperm.filterMap t.objects
  have hafter := hperm.filterMap u.objects
  have hself : u.objects i = o := by rw [hobjects, Function.update_self]
  rw [hcons] at hbefore hafter
  rw [hrest, hself] at hafter
  rw [entries, entries, hsize]
  exact ((hafter.append_left _).trans (perm_append_comm_assoc ..)).trans (hbefore.symm.append_left _)

end KHandleTable

namespace HandleCall

/-- The object that a call opens. -/
def opens (c : HandleCall α) (s : HandleState α) : List α :=
  match c with
  | add obj => if s.table.count < s.table.tableSize then [obj] else []
  | register h obj => if h.index < s.table.tableSize then [obj] else []
  | _ => []

/-- The object that a call closes. -/
def closes (c : HandleCall α) (s : HandleState α) : List α :=
  match c with
  | remove h =>
    match s.table.remove h with
    | .ret (true, _) _ => (s.table.objects h.index).toList
    | _ => []
  | _ => []

end HandleCall

/-- The runs, with the objects that were opened and closed. -/
inductive HandleLedger (s₀ : HandleState α) : HandleState α → List α → List α → Prop
  | refl : HandleLedger s₀ s₀ [] []
  | step {s s' : HandleState α} {c : HandleCall α} {held : Bool} {opened closed : List α}
      (h : HandleLedger s₀ s opened closed) (hc : c.Valid s) (he : c.exec s = ret s' held) :
      HandleLedger s₀ s' (c.opens s ++ opened) (c.closes s ++ closed)

namespace HandleInv

variable {s : HandleState α}

theorem mem_index {e : LiveHandle α} (he : e ∈ s.live) : e.handle.index ∈ s.live.map fun e => e.handle.index :=
  mem_map.2 ⟨e, he, rfl⟩

variable (hs : HandleInv s)

include hs

theorem remove_eq (h : Handle) : s.table.remove h = ret (false, s.table) true ∨
    ∃ t, s.table.remove h = ret (true, t) true ∧ h.index < s.table.tableSize ∧ t.tableSize = s.table.tableSize ∧
      t.objects = Function.update s.table.objects h.index none := by
  rw [KHandleTable.remove]
  split_ifs with hp hr
  · exact .inl rfl
  · exact .inl rfl
  obtain ⟨v, held, heq, rfl, hv⟩ := hs.wp_isValidHandle (not_not.1 hr)
  rw [heq, ret_true_bind]
  cases v with
  | false => exact .inl rfl
  | true =>
    obtain ⟨e, he, rfl, -⟩ := hv.1 rfl
    obtain ⟨free, hf⟩ := hs.slots
    have hmem := mem_index he
    obtain ⟨t, held, hfree, -, ht, -, rfl⟩ := hf.wp_freeEntry (perm_cons_erase hmem)
    refine .inr ⟨t, ?_, hf.lt_of_mem_used hmem, by rw [ht], by rw [ht]⟩
    rw [if_pos rfl, hfree]
    rfl

/-- **A call closes what it takes out of the entries**, and opens what it puts in. -/
theorem entries_exec {c : HandleCall α} (hc : c.Valid s) : wp (c.exec s) fun s' _ =>
    (c.closes s ++ s'.table.entries).Perm (c.opens s ++ s.table.entries) := by
  obtain ⟨free, hf⟩ := hs.slots
  cases c with
  | add obj =>
    rw [HandleCall.exec, KHandleTable.add, HandleCall.opens]
    split_ifs with hroom
    · have hf' := hf.setNextLinearId (1 + (s.issued.length + 1) % 0x7FFF)
      obtain ⟨i, free', rfl, hw⟩ := hf'.wp_allocateEntry hroom
      rw [hs.allocateLinearId rfl]
      simp only [wp_bind]
      refine wp_mono hw ?_
      rintro ⟨j, t⟩ held ⟨rfl, -, ht, -⟩
      dsimp only at ht
      have hswap := KHandleTable.perm_entries (t := s.table) (i := j) (o := some obj)
        (hf.lt_of_mem_free mem_cons_self) (u := { t with objects := Function.update t.objects j (some obj) })
        (by rw [ht]) (by rw [ht])
      rw [hf.empty j mem_cons_self] at hswap
      exact wp_ret.2 (wp_ret.2 hswap)
    · exact wp_ret.2 (.refl _)
  | reserve =>
    rw [HandleCall.exec, KHandleTable.reserve]
    split_ifs with hroom
    · obtain ⟨i, free', rfl, hw⟩ := hf.wp_allocateEntry hroom
      simp only [wp_bind]
      refine wp_mono hw ?_
      rintro ⟨j, t⟩ held ⟨rfl, -, ht, -⟩
      dsimp only at ht ⊢
      rw [hs.allocateLinearId (by rw [ht]), ht]
      exact wp_ret.2 (wp_ret.2 (.refl _))
    · exact wp_ret.2 (.refl _)
  | register h obj =>
    obtain ⟨e, he, rfl, ho⟩ := hc
    have hlt := hf.lt_of_mem_used (mem_index he)
    have hswap := KHandleTable.perm_entries (t := s.table) (u := { s.table with
      objects := Function.update s.table.objects e.handle.index (some obj) }) (o := some obj) hlt rfl rfl
    rw [hs.object e he, ho] at hswap
    rw [HandleCall.exec, KHandleTable.register, HandleCall.opens, if_pos hlt]
    simp only [wp_bind, wp_assert, if_pos hlt, pure_eq, wp_ret]
    exact hswap
  | unreserve h =>
    obtain ⟨e, he, rfl, ho⟩ := hc
    have hmem := mem_index he
    have hlt := hf.lt_of_mem_used hmem
    rw [HandleCall.exec, KHandleTable.unreserve]
    simp only [wp_bind, wp_assert, if_pos hlt]
    refine wp_mono (hf.wp_freeEntry (perm_cons_erase hmem)) fun t held hfree => ?_
    have hswap := KHandleTable.perm_entries (o := none) hlt (u := t) (by rw [hfree.2.1]) (by rw [hfree.2.1])
    rw [hs.object e he, ho] at hswap
    exact wp_ret.2 hswap
  | remove h =>
    rw [HandleCall.exec, HandleCall.closes]
    rcases hs.remove_eq h with hsame | ⟨t, hremove, hlt, hsize, hobjects⟩
    · rw [hsame, ret_true_bind]
      exact wp_ret.2 (.refl _)
    · rw [hremove, ret_true_bind]
      exact wp_ret.2 (KHandleTable.perm_entries (o := none) hlt hsize hobjects)

end HandleInv

/-- **Each reference that is opened is closed once**: what a run has opened is what it has closed and what `Finalize`
closes, after which no handle has an object. -/
theorem HandleLedger.balances {t₀ t : KHandleTable α} {size : ℤ} (h : t₀.initialized size = some t)
    {s : HandleState α} {opened closed : List α} (hl : HandleLedger ⟨t, [], []⟩ s opened closed) :
    opened.Perm (closed ++ s.table.finalized.1) ∧
      ∀ h, wp (s.table.finalized.2.getObjectImpl h) fun o held => held = true ∧ o = none := by
  constructor
  · have hboth : HandleInv s ∧ opened.Perm (closed ++ s.table.entries) := by
      induction hl with
      | refl =>
        have hinit := HandleInv.init h
        obtain ⟨free, hf⟩ := hinit.slots
        refine ⟨hinit, .of_eq (Eq.symm (filterMap_eq_nil_iff.2 fun i hi => hf.empty i ?_))⟩
        simpa using hf.perm.mem_iff.2 hi
      | @step s s' c held opened closed _ hc he ih =>
        have hinv := ih.1.call hc
        have hmoved := ih.1.entries_exec hc
        rw [he, wp_ret] at hinv hmoved
        refine ⟨hinv.2, (ih.2.append_left _).trans ?_⟩
        rw [append_assoc]
        exact (perm_append_comm_assoc ..).trans ((hmoved.symm.append_left _).trans (perm_append_comm_assoc ..))
    exact hboth.2
  · intro h
    rw [KHandleTable.getObjectImpl]
    split_ifs with hr
    · exact wp_ret.2 ⟨rfl, rfl⟩
    · rw [KHandleTable.isValidHandle]
      simp [KHandleTable.finalized, not_not.1 hr, Exec.assert]

/-- Of two objects in a table of four entries one is removed. -/
theorem balances_four : [8, 7].Perm
    ([7] ++ (stateAfter [.add 7, .add 8, .remove (Handle.encode 3 1)]).table.finalized.1) := by
  have hinit : ({} : KHandleTable ℕ).initialized 4 = some (stateAfter []).table := rfl
  have hl : HandleLedger (stateAfter []) (stateAfter [.add 7, .add 8, .remove (Handle.encode 3 1)]) [8, 7] [7] :=
    .step (s := stateAfter [.add 7, .add 8]) (c := .remove (Handle.encode 3 1))
      (.step (s := stateAfter [.add 7]) (c := .add 8)
        (.step (s := stateAfter []) (c := .add 7) .refl trivial rfl) trivial rfl) trivial rfl
  exact (HandleLedger.balances hinit hl).1

end Kernel
end NXEmu
