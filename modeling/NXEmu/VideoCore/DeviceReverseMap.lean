/-
# From physical pages back to device pages

`src/yuzu_video_core/host1x/gpu_device_memory_manager.cpp`: `compressed_device_addr` has a word for each
page of physical memory.  It is zero, or the one device page that is mapped there, or the flag with
the first entry of a list of device pages.  `Map` and `Unmap` take a word from one form to another.

What the words stand for is a list of device pages for each physical page: `Map` puts a page at the
end of one, `Unmap` takes it out.  `Form` relates a word to its list, and in every state reached by
requests the list has the pages that `compressed_physical_ptr` sends there (`Reversed`).

`cpu_backing_address` and the calls of the rasterizer are left out.
-/

import Mathlib
import NXEmu.VideoCore.MultiAddressContainer
import NXEmu.VideoCore.DeviceMemoryManagerRuns

variable {id w : ℕ} {c c₁ c₂ : MultiAddressContainer} {physAddr : BitVec 32}

namespace NXEmu
namespace Core

open Function List Option

/-- `DeviceMemoryManager<Traits>` with the way back from physical pages, `compressed_device_addr` and
`impl->multi_dev_address`. -/
structure DeviceReverseMap (deviceVirtualBits : ℕ) extends DeviceMemoryManager deviceVirtualBits where
  compressedDeviceAddr : ℕ → ℕ
  multiDevAddress : MultiAddressContainer

namespace DeviceReverseMap

open DeviceMemoryManager

/-- `MULTI_FLAG_BITS`. -/
def multiFlagBits : ℕ := 31

/-- `MULTI_FLAG`. -/
def multiFlag : ℕ := 1 <<< multiFlagBits

/-- `MULTI_MASK`, the other bits of a word of 32. -/
def multiMask : ℕ := 2 ^ 32 - 1 - multiFlag

variable {bits : ℕ}

/-- The manager without pages. -/
def new : DeviceReverseMap bits := ⟨DeviceMemoryManager.new, fun _ => 0, ⟨[], []⟩⟩

/-- An assignment to `compressed_device_addr[phys_addr - 1U]`. -/
def setDeviceAddr (m : DeviceReverseMap bits) (phys word : ℕ) : DeviceReverseMap bits :=
  { m with compressedDeviceAddr := Function.update m.compressedDeviceAddr phys word }

/-- The loop body of `Map`. -/
def mapPage (m : DeviceReverseMap bits) (page : ℕ) (ptr : Option ℕ) :
    Option (DeviceReverseMap bits) :=
  let physAddr := physicalPage ptr
  let m := { m with toDeviceMemoryManager := m.setPage page physAddr }
  if ptr = none then some m
  else
    let phys := (physAddr - 1).toNat
    let baseDev := m.compressedDeviceAddr phys
    let newDev := page % 2 ^ 32
    if baseDev = 0 then some (m.setDeviceAddr phys newDev)
    else if baseDev >>> multiFlagBits = 0 then do
      let (startId, multiDevAddress) ← m.multiDevAddress.registerImplementation baseDev
      let m := m.setDeviceAddr phys (multiFlag ||| startId)
      let multiDevAddress ← multiDevAddress.register newDev startId
      return { m with multiDevAddress := multiDevAddress }
    else do
      let multiDevAddress ← m.multiDevAddress.register newDev (baseDev &&& multiMask)
      return { m with multiDevAddress := multiDevAddress }

/-- The loop body of `Unmap`. -/
def unmapPage (m : DeviceReverseMap bits) (page : ℕ) : Option (DeviceReverseMap bits) :=
  let physAddr := m.compressedPhysicalPtr page
  let m := { m with toDeviceMemoryManager := m.setPage page 0 }
  if physAddr = 0 then some m
  else
    let phys := (physAddr - 1).toNat
    let baseDev := m.compressedDeviceAddr phys
    if baseDev >>> multiFlagBits = 0 then some (m.setDeviceAddr phys 0)
    else do
      let ((moreEntries, newStart), multiDevAddress) ←
        m.multiDevAddress.unregister (page % 2 ^ 32) (baseDev &&& multiMask)
      if !moreEntries then
        let (value, multiDevAddress) ← multiDevAddress.releaseEntry newStart
        return { m.setDeviceAddr phys value with multiDevAddress := multiDevAddress }
      else
        return { m.setDeviceAddr phys (newStart ||| multiFlag) with multiDevAddress := multiDevAddress }

/-- The page behind the last one of a range may no longer go on from it. -/
def endPages (m : DeviceReverseMap bits) (startPage numPages : ℕ) : DeviceReverseMap bits :=
  { m with toDeviceMemoryManager := m.endRange startPage numPages }

/-- `Map`, with `GetPointerSilent` of the memory of the process. -/
def map (getPointerSilent : ℕ → Option ℕ) (m : DeviceReverseMap bits)
    (address virtualAddress size : ℕ) : Option (DeviceReverseMap bits) := do
  let startPage := address / devicePageSize
  let m ← (List.range (numPages size)).foldlM (fun m i =>
    m.mapPage (startPage + i) (getPointerSilent (virtualAddress + i * devicePageSize))) m
  return m.endPages startPage (numPages size)

/-- `Unmap`. -/
def unmap (m : DeviceReverseMap bits) (address size : ℕ) : Option (DeviceReverseMap bits) := do
  let startPage := address / devicePageSize
  let m ← (List.range (numPages size)).foldlM (fun m i => m.unmapPage (startPage + i)) m
  return m.endPages startPage (numPages size)

/-- `InnerGatherDeviceAddresses`: all device pages of a physical page. -/
def innerGatherDeviceAddresses (m : DeviceReverseMap bits) (address : ℕ) : Option (List ℕ) :=
  let backing := m.compressedDeviceAddr (address / devicePageSize)
  if backing >>> multiFlagBits ≠ 0 then m.multiDevAddress.gatherValues (backing &&& multiMask)
  else some [backing]

/-! ### Words -/

theorem multiFlag_or (h : id < 2 ^ 31) : multiFlag ||| id = 2 ^ 31 + id := by
  have hor := Nat.two_pow_add_eq_or_of_lt h 1
  rw [Nat.mul_one] at hor
  rw [multiFlag, multiFlagBits, Nat.one_shiftLeft, hor]

theorem flag_shiftRight (h : id < 2 ^ 31) : (multiFlag ||| id) >>> multiFlagBits = 1 := by
  rw [multiFlag_or h, multiFlagBits, Nat.shiftRight_eq_div_pow]
  omega

theorem flag_and_mask (h : id < 2 ^ 31) : (multiFlag ||| id) &&& multiMask = id := by
  rw [multiFlag_or h, show multiMask = 2 ^ 31 - 1 from rfl, Nat.and_two_pow_sub_one_eq_mod]
  omega

theorem shiftRight_of_lt {d : ℕ} (h : d < 2 ^ 31) : d >>> multiFlagBits = 0 := by
  rw [multiFlagBits, Nat.shiftRight_eq_div_pow]
  exact Nat.div_eq_of_lt h

/-- A word, the entries of its list, the values that are in the table, and the device pages they
stand for. -/
inductive Form : ℕ → List ℕ → List ℕ → List ℕ → Prop
  | unmapped : Form 0 [] [] []
  | single (d : ℕ) : Form d [] [] [d]
  | list (startEntry : ℕ) (ids pages : List ℕ) (two : 2 ≤ pages.length) :
    Form (multiFlag ||| startEntry) (startEntry :: ids) pages pages

/-- The lists of device pages are those of the pages that are mapped. -/
structure Listed (d : DeviceMemoryManager bits) (pages : ℕ → List ℕ) : Prop where
  mem_iff : ∀ phys page, page ∈ pages phys ↔ (d.compressedPhysicalPtr page).toNat = phys + 1
  nodup : ∀ phys, (pages phys).Nodup
  zero : d.compressedPhysicalPtr 0 = 0
  outside : ∀ page, pageCount bits ≤ page → d.compressedPhysicalPtr page = 0

/-- The words and the table stand for lists of device pages. -/
structure Represents (m : DeviceReverseMap bits) (ids values pages : ℕ → List ℕ) : Prop where
  holds : m.multiDevAddress.Holds ids values
  form : ∀ phys, Form (m.compressedDeviceAddr phys) (ids phys) (values phys) (pages phys)

/-- The way back is the one from the lists of mapped pages. -/
structure Reversed (m : DeviceReverseMap bits) (ids values pages : ℕ → List ℕ) : Prop where
  listed : Listed m.toDeviceMemoryManager pages
  represents : m.Represents ids values pages

variable {m : DeviceReverseMap bits} {ids values pages : ℕ → List ℕ} {phys page : ℕ}

theorem Listed.bounds {d : DeviceMemoryManager bits} (h : Listed d pages) (hmem : page ∈ pages phys) :
    0 < page ∧ page < pageCount bits := by
  have hptr := (h.mem_iff phys page).1 hmem
  constructor
  · rw [Nat.pos_iff_ne_zero]
    rintro rfl
    rw [h.zero] at hptr
    exact absurd hptr (Nat.succ_ne_zero phys).symm
  · by_contra hle
    rw [h.outside page (not_lt.1 hle)] at hptr
    exact absurd hptr (Nat.succ_ne_zero phys).symm

theorem Listed.disjoint {d : DeviceMemoryManager bits} (h : Listed d pages) {phys' : ℕ}
    (hne : phys ≠ phys') : (pages phys).Disjoint (pages phys') := by
  intro page hmem hmem'
  have := ((h.mem_iff phys page).1 hmem).symm.trans ((h.mem_iff phys' page).1 hmem')
  omega

theorem Form.values_eq {ids values pages : List ℕ} (h : Form w ids values pages) :
    values = [] ∧ ids = [] ∨ values = pages := by
  cases h with
  | unmapped => exact .inl ⟨rfl, rfl⟩
  | single d => exact .inl ⟨rfl, rfl⟩
  | list => exact .inr rfl

/-! ### One page -/

/-- There is room for the entry of a page that is not in the table. -/
theorem Represents.room {d : DeviceMemoryManager bits} (hl : Listed d pages) (h : c.Holds ids values)
    (hvalues : ∀ phys, values phys = [] ∧ ids phys = [] ∨ values phys = pages phys)
    (hbits : pageCount bits ≤ 2 ^ 31) (hpage : 0 < page ∧ page < pageCount bits)
    (hnew : ∀ phys, page ∈ values phys → ids phys = []) (hfree : c.freeEntries = []) :
    c.storage.length + 1 < 2 ^ 31 := by
  have hsub : ∀ {phys v}, v ∈ values phys → v ∈ pages phys := by
    intro phys v hv
    rcases hvalues phys with hnil | heq
    · rw [hnil.1] at hv
      exact absurd hv not_mem_nil
    · exact heq ▸ hv
  refine lt_of_lt_of_le (h.room (fun phys => ?_) (fun phys phys' hne v hv hv' => ?_)
    (fun phys v hv => hl.bounds (hsub hv)) hpage hnew hfree) hbits
  · rcases hvalues phys with hnil | heq
    · rw [hnil.1]
      exact nodup_nil
    · exact heq ▸ hl.nodup phys
  · exact hl.disjoint hne (hsub hv) (hsub hv')

section

variable {d : DeviceMemoryManager bits} (h : Listed d pages)

include h

theorem Listed.map (hpage : 0 < page ∧ page < pageCount bits) (hunmapped : d.compressedPhysicalPtr page = 0)
    (hphys : physAddr.toNat = phys + 1) :
    Listed (d.setPage page physAddr) (update pages phys (pages phys ++ [page])) := by
  have hnot : ∀ p, page ∉ pages p := by
    intro p hmem
    have hptr := (h.mem_iff p page).1 hmem
    rw [hunmapped] at hptr
    exact absurd hptr (Nat.succ_ne_zero p).symm
  refine ⟨fun p q => ?_, fun p => ?_, ?_, fun q hq => ?_⟩
  · rw [compressedPhysicalPtr_setPage]
    by_cases hp : p = phys
    · subst hp
      rw [update_self, mem_append, mem_singleton]
      by_cases hq : q = page
      · rw [if_pos hq]
        exact iff_of_true (.inr hq) hphys
      · rw [if_neg hq, h.mem_iff]
        exact or_iff_left hq
    · rw [update_of_ne hp]
      by_cases hq : q = page
      · rw [if_pos hq, hq]
        exact iff_of_false (hnot p) (by omega)
      · rw [if_neg hq, h.mem_iff]
  · by_cases hp : p = phys
    · subst hp
      rw [update_self, nodup_append_comm, singleton_append, nodup_cons]
      exact ⟨hnot p, h.nodup p⟩
    · rw [update_of_ne hp]
      exact h.nodup p
  · rw [compressedPhysicalPtr_setPage, if_neg hpage.1.ne]
    exact h.zero
  · rw [compressedPhysicalPtr_setPage, if_neg (by omega)]
    exact h.outside q hq

theorem Listed.unmap (hphys : (d.compressedPhysicalPtr page).toNat = phys + 1) :
    Listed (d.setPage page 0) (update pages phys ((pages phys).erase page)) := by
  refine ⟨fun p q => ?_, fun p => ?_, ?_, fun q hq => ?_⟩
  · rw [compressedPhysicalPtr_setPage]
    by_cases hp : p = phys
    · subst hp
      rw [update_self, (h.nodup p).mem_erase_iff, h.mem_iff]
      by_cases hq : q = page
      · rw [if_pos hq]
        exact iff_of_false (fun hmem => hmem.1 hq) (Nat.succ_ne_zero p).symm
      · rw [if_neg hq]
        exact and_iff_right hq
    · rw [update_of_ne hp, h.mem_iff]
      by_cases hq : q = page
      · rw [if_pos hq, hq]
        exact iff_of_false (by omega) (Nat.succ_ne_zero p).symm
      · rw [if_neg hq]
  · by_cases hp : p = phys
    · subst hp
      rw [update_self]
      exact (h.nodup p).erase page
    · rw [update_of_ne hp]
      exact h.nodup p
  · rw [compressedPhysicalPtr_setPage]
    split
    · rfl
    · exact h.zero
  · rw [compressedPhysicalPtr_setPage]
    split
    · rfl
    · exact h.outside q hq

theorem Listed.skip (hunmapped : d.compressedPhysicalPtr page = 0) : Listed (d.setPage page 0) pages := by
  have hptr : (d.setPage page 0).compressedPhysicalPtr = d.compressedPhysicalPtr := by
    funext q
    rw [compressedPhysicalPtr_setPage]
    split
    · rename_i hq
      rw [hq, hunmapped]
    · rfl
  exact ⟨hptr ▸ h.mem_iff, h.nodup, hptr ▸ h.zero, hptr ▸ h.outside⟩

end

/-- The way back is right, for some lists in the table. -/
def IsReversed (m : DeviceReverseMap bits) : Prop := ∃ ids values pages, m.Reversed ids values pages

/-- One word changes, and one list in the table. -/
theorem Represents.isReversed {word : ℕ} {ids₁ values₁ pages₁ : List ℕ}
    (h : m.Represents ids values pages) {d : DeviceMemoryManager bits} (hl : Listed d (update pages phys pages₁))
    (hc : c.Holds (update ids phys ids₁) (update values phys values₁)) (hform : Form word ids₁ values₁ pages₁) :
    IsReversed ⟨d, update m.compressedDeviceAddr phys word, c⟩ := by
  refine ⟨_, _, _, hl, hc, fun p => ?_⟩
  show Form (update m.compressedDeviceAddr phys word p) _ _ _
  by_cases hp : p = phys
  · rw [hp]
    simp only [update_self]
    exact hform
  · simp only [update_of_ne hp]
    exact h.form p

/-- Nothing changes in the table. -/
theorem Represents.unchanged (h : m.Represents ids values pages) (hids : ids phys = [])
    (hvalues : values phys = []) : m.multiDevAddress.Holds (update ids phys []) (update values phys []) := by
  rw [← hids, update_eq_self, hids, ← hvalues, update_eq_self]
  exact h.holds

theorem physicalPage_toNat {raw : ℕ} (h : raw / devicePageSize < 2 ^ 32 - 1) :
    (physicalPage (some raw)).toNat = raw / devicePageSize + 1 := by
  rw [physicalPage, BitVec.toNat_add, BitVec.toNat_ofNat]
  simp
  omega

theorem toNat_sub_one (h : physAddr.toNat = phys + 1) :
    (physAddr - 1).toNat = phys := by
  have hlt := physAddr.isLt
  rw [BitVec.toNat_sub, h]
  simp
  omega

section MapPage

variable {raw : ℕ} (hphys : (physicalPage (some raw)).toNat = phys + 1) (hpage : page < 2 ^ 32)

include hphys hpage

theorem mapPage_first (hword : m.compressedDeviceAddr phys = 0) :
    m.mapPage page (some raw) = some ⟨m.setPage page (physicalPage (some raw)),
      update m.compressedDeviceAddr phys page, m.multiDevAddress⟩ := by
  simp only [mapPage, reduceCtorEq, if_false, toNat_sub_one hphys, hword, if_true, Nat.mod_eq_of_lt hpage]
  rfl

theorem mapPage_second (hword : m.compressedDeviceAddr phys = w) (hw : w ≠ 0) (hflag : w >>> multiFlagBits = 0)
    (hfirst : m.multiDevAddress.registerImplementation w = some (id, c₁))
    (hregister : c₁.register page id = some c₂) :
    m.mapPage page (some raw) = some ⟨m.setPage page (physicalPage (some raw)),
      update m.compressedDeviceAddr phys (multiFlag ||| id), c₂⟩ := by
  simp only [mapPage, reduceCtorEq, if_false, toNat_sub_one hphys, hword, hw, hflag, if_true,
    Nat.mod_eq_of_lt hpage, hfirst, bind_eq_bind, bind_some, hregister]
  rfl

theorem mapPage_more (hword : m.compressedDeviceAddr phys = w) (hw : w ≠ 0) (hflag : w >>> multiFlagBits ≠ 0)
    (hregister : m.multiDevAddress.register page (w &&& multiMask) = some c) :
    m.mapPage page (some raw) = some ⟨m.setPage page (physicalPage (some raw)), m.compressedDeviceAddr, c⟩ := by
  simp only [mapPage, reduceCtorEq, if_false, toNat_sub_one hphys, hword, hw, hflag,
    Nat.mod_eq_of_lt hpage, bind_eq_bind, bind_some, hregister]
  rfl

end MapPage

/-- **A page is mapped.** -/
theorem IsReversed.mapPage (h : m.IsReversed) (hbits : pageCount bits ≤ 2 ^ 31)
    (hpage : 0 < page ∧ page < pageCount bits) (hunmapped : m.compressedPhysicalPtr page = 0)
    {ptr : Option ℕ} (hptr : ∀ raw, ptr = some raw → raw / devicePageSize < 2 ^ 32 - 1) :
    ∃ m', m.mapPage page ptr = some m' ∧
      m'.toDeviceMemoryManager = m.setPage page (physicalPage ptr) ∧ m'.IsReversed := by
  obtain ⟨ids, values, pages, hlisted, hrep⟩ := h
  cases ptr with
  | none => exact ⟨_, rfl, rfl, ids, values, pages, hlisted.skip hunmapped, hrep.holds, hrep.form⟩
  | some raw =>
    have hphys := physicalPage_toNat (hptr raw rfl)
    generalize raw / devicePageSize = phys at hphys
    have hmapped := hlisted.map hpage hunmapped hphys
    have hlt : page < 2 ^ 32 := by omega
    have hnot : ∀ p, page ∉ pages p := by
      intro p hmem
      have hptr := (hlisted.mem_iff p page).1 hmem
      rw [hunmapped] at hptr
      exact absurd hptr (Nat.succ_ne_zero p).symm
    have hvaluesEq := fun p => (hrep.form p).values_eq
    have hnotValue : ∀ p, page ∉ values p := by
      intro p hmem
      rcases hvaluesEq p with hnil | heq
      · rw [hnil.1] at hmem
        exact not_mem_nil hmem
      · exact hnot p (heq ▸ hmem)
    have hform := hrep.form phys
    generalize hword : m.compressedDeviceAddr phys = w at hform
    generalize hids : ids phys = i at hform
    generalize hvalues : values phys = v at hform
    generalize hpages : pages phys = l at hform
    cases hform with
    | unmapped =>
      refine ⟨_, mapPage_first hphys hlt hword, rfl, ?_⟩
      rw [hpages] at hmapped
      exact hrep.isReversed hmapped (hrep.unchanged hids hvalues) (.single page)
    | single =>
      have hmem : w ∈ pages phys := hpages ▸ mem_singleton_self w
      have hd := hlisted.bounds hmem
      -- The page that was there alone moves to the table, and the new one follows it.
      obtain ⟨id, c₁, hfirst, hc₁⟩ := hrep.holds.register_first hids
        (Represents.room hlisted hrep.holds hvaluesEq hbits hd fun p hmem => by
          rcases hvaluesEq p with hnil | heq
          · exact hnil.2
          · obtain rfl : p = phys := by
              by_contra hne
              exact hlisted.disjoint hne (heq ▸ hmem) (hpages ▸ mem_singleton_self w)
            exact hids) w
      obtain ⟨id₂, c₂, hregister, hc₂⟩ := hc₁.register_eq (k := phys) (l := [])
        (update_self ..)
        (Represents.room hlisted hc₁ (fun p => by
          by_cases hp : p = phys
          · rw [hp]
            simp only [update_self, hpages]
            exact .inr trivial
          · simp only [update_of_ne hp]
            exact hvaluesEq p) hbits hpage fun p hmem => by
              by_cases hp : p = phys
              · rw [hp, update_self, mem_singleton] at hmem
                exact absurd (hpages ▸ hmem ▸ mem_singleton_self w) (hnot phys)
              · rw [update_of_ne hp] at hmem
                exact absurd hmem (hnotValue p)) page
      refine ⟨_, mapPage_second hphys hlt hword hd.1.ne' (shiftRight_of_lt (by omega)) hfirst
        hregister, rfl, ?_⟩
      rw [update_idem, update_idem, update_self] at hc₂
      rw [hpages] at hmapped
      exact hrep.isReversed hmapped hc₂ (.list id [id₂] [w, page] le_rfl)
    | list s rest l two =>
      have hs : s < 2 ^ 31 := lt_of_le_of_lt
        (hrep.holds.bounds (k := phys) (hids ▸ mem_cons_self)).2 hrep.holds.length_lt
      obtain ⟨id, c, hregister, hc⟩ := hrep.holds.register_eq hids
        (Represents.room hlisted hrep.holds hvaluesEq hbits hpage fun p hmem =>
          absurd hmem (hnotValue p)) page
      have hw : multiFlag ||| s ≠ 0 := by
        rw [multiFlag_or hs]
        omega
      have hflag : (multiFlag ||| s) >>> multiFlagBits ≠ 0 := by
        rw [flag_shiftRight hs]
        exact one_ne_zero
      refine ⟨_, mapPage_more hphys hlt hword hw hflag (by rwa [flag_and_mask hs]), rfl, ?_⟩
      rw [hvalues] at hc
      rw [hpages] at hmapped
      have hreversed := hrep.isReversed hmapped hc
        (.list s (rest ++ [id]) (v ++ [page]) (by rw [length_append]; omega))
      rwa [← hword, update_eq_self] at hreversed

section UnmapPage

variable (hphys : (m.compressedPhysicalPtr page).toNat = phys + 1) (hpage : page < 2 ^ 32)

include hphys

theorem ptr_ne_zero : m.compressedPhysicalPtr page ≠ 0 := by
  intro hzero
  rw [hzero] at hphys
  exact absurd hphys (Nat.succ_ne_zero phys).symm

theorem unmapPage_only (hflag : m.compressedDeviceAddr phys >>> multiFlagBits = 0) :
    m.unmapPage page = some ⟨m.setPage page 0, update m.compressedDeviceAddr phys 0, m.multiDevAddress⟩ := by
  simp only [unmapPage, if_neg (ptr_ne_zero hphys), toNat_sub_one hphys, hflag, if_true]
  rfl

include hpage

theorem unmapPage_release {w newStart value : ℕ}
    (hword : m.compressedDeviceAddr phys = w) (hflag : w >>> multiFlagBits ≠ 0)
    (hunregister : m.multiDevAddress.unregister page (w &&& multiMask) = some ((false, newStart), c₁))
    (hrelease : c₁.releaseEntry newStart = some (value, c₂)) :
    m.unmapPage page = some ⟨m.setPage page 0, update m.compressedDeviceAddr phys value, c₂⟩ := by
  simp only [unmapPage, if_neg (ptr_ne_zero hphys), toNat_sub_one hphys, hword, hflag, if_false,
    Nat.mod_eq_of_lt hpage, hunregister, bind_eq_bind, bind_some, hrelease,
    Bool.not_false, if_true]
  rfl

theorem unmapPage_more {w newStart : ℕ} (hword : m.compressedDeviceAddr phys = w) (hflag : w >>> multiFlagBits ≠ 0)
    (hunregister : m.multiDevAddress.unregister page (w &&& multiMask) = some ((true, newStart), c)) :
    m.unmapPage page = some ⟨m.setPage page 0, update m.compressedDeviceAddr phys (multiFlag ||| newStart), c⟩ := by
  simp only [unmapPage, if_neg (ptr_ne_zero hphys), toNat_sub_one hphys, hword, hflag, if_false,
    Nat.mod_eq_of_lt hpage, hunregister, bind_eq_bind, bind_some, Bool.not_true,
    Nat.or_comm newStart]
  rfl

end UnmapPage

/-- **A page is unmapped.** -/
theorem IsReversed.unmapPage (h : m.IsReversed) (hbits : pageCount bits ≤ 2 ^ 31) (page : ℕ) :
    ∃ m', m.unmapPage page = some m' ∧ m'.toDeviceMemoryManager = m.setPage page 0 ∧ m'.IsReversed := by
  obtain ⟨ids, values, pages, hlisted, hrep⟩ := h
  by_cases hzero : m.compressedPhysicalPtr page = 0
  · refine ⟨_, if_pos hzero, rfl, ids, values, pages, hlisted.skip hzero, hrep.holds, hrep.form⟩
  obtain ⟨phys, hphys⟩ : ∃ phys, (m.compressedPhysicalPtr page).toNat = phys + 1 :=
    Nat.exists_eq_add_one_of_ne_zero fun htoNat => hzero (BitVec.eq_of_toNat_eq htoNat)
  have hmem : page ∈ pages phys := (hlisted.mem_iff phys page).2 hphys
  have hlt : page < 2 ^ 32 := by
    have := (hlisted.bounds hmem).2
    omega
  have hunmapped := hlisted.unmap hphys
  have hform := hrep.form phys
  generalize hword : m.compressedDeviceAddr phys = w at hform
  generalize hids : ids phys = i at hform
  generalize hvalues : values phys = v at hform
  generalize hpages : pages phys = l at hform
  rw [hpages] at hmem hunmapped
  cases hform with
  | unmapped => exact absurd hmem not_mem_nil
  | single =>
    obtain rfl := mem_singleton.1 hmem
    have hflag : m.compressedDeviceAddr phys >>> multiFlagBits = 0 := by
      rw [hword]
      exact shiftRight_of_lt (lt_of_lt_of_le (hlisted.bounds (hpages ▸ hmem)).2 hbits)
    refine ⟨_, unmapPage_only hphys hflag, rfl, ?_⟩
    rw [erase_cons_head] at hunmapped
    exact hrep.isReversed hunmapped (hrep.unchanged hids hvalues) .unmapped
  | list s rest l two =>
    have hs : s < 2 ^ 31 := lt_of_le_of_lt
      (hrep.holds.bounds (k := phys) (hids ▸ mem_cons_self)).2 hrep.holds.length_lt
    have hflag : (multiFlag ||| s) >>> multiFlagBits ≠ 0 := by
      rw [flag_shiftRight hs]
      exact one_ne_zero
    obtain ⟨ids', c, hunregister, hc⟩ := hrep.holds.unregister_eq hids (hvalues ▸ hmem)
    rw [hvalues] at hunregister hc
    have hlength : (v.erase page).length = v.length - 1 := length_erase_of_mem hmem
    have hids' : ids'.map c.valueOf = v.erase page := by
      have hvalues' := hc.values phys
      rwa [update_self, update_self] at hvalues'
    have hlength' : ids'.length = (v.erase page).length := by rw [← hids', length_map]
    by_cases hthree : 3 ≤ v.length
    · rw [decide_eq_true hthree] at hunregister
      refine ⟨_, unmapPage_more hphys hlt hword hflag (by rwa [flag_and_mask hs]), rfl, ?_⟩
      cases ids' with
      | nil => simp at hlength'; omega
      | cons s' rest' =>
        exact hrep.isReversed hunmapped hc (.list s' rest' (v.erase page) (by omega))
    · rw [decide_eq_false hthree] at hunregister
      obtain ⟨s', rfl⟩ := length_eq_one_iff.1 (show ids'.length = 1 by omega)
      obtain ⟨c₂, hrelease, hc₂⟩ := hc.releaseEntry_eq (k := phys) (update_self ..)
      refine ⟨_, unmapPage_release hphys hlt hword hflag (by rwa [flag_and_mask hs]) hrelease, rfl, ?_⟩
      rw [update_idem, update_idem] at hc₂
      rw [← hids'] at hunmapped
      exact hrep.isReversed hunmapped hc₂ (.single _)

/-! ### Requests -/

/-- The request. -/
def exec (m : DeviceReverseMap bits) : Request → Option (DeviceReverseMap bits)
  | .map getPointerSilent address virtualAddress size =>
    m.map getPointerSilent address virtualAddress size
  | .unmap address size => m.unmap address size

/-- The pages of a request are pages of the address space.  Those of a `Map` are behind page zero and
not mapped, and its pointers are into physical memory, whose pages have numbers of 32 bits. -/
def Valid (m : DeviceReverseMap bits) (r : Request) : Prop :=
  r.InRange bits ∧ match r with
    | .map getPointerSilent address virtualAddress size => ∀ i < numPages size,
      0 < address / devicePageSize + i ∧
      m.compressedPhysicalPtr (address / devicePageSize + i) = 0 ∧
      ∀ raw, getPointerSilent (virtualAddress + i * devicePageSize) = some raw →
        raw / devicePageSize < 2 ^ 32 - 1
    | .unmap _ _ => True

/-- The managers reached by valid requests. -/
inductive Run : DeviceReverseMap bits → Prop
  | new : Run new
  | request {m m' : DeviceReverseMap bits} (r : Request) (run : Run m) (valid : m.Valid r)
    (exec : m.exec r = some m') : Run m'

theorem isReversed_new : IsReversed (new : DeviceReverseMap bits) := by
  refine ⟨fun _ => [], fun _ => [], fun _ => [], ⟨fun phys page => ?_, fun _ => nodup_nil, rfl,
    fun _ _ => rfl⟩, ?_, fun _ => .unmapped⟩
  · exact iff_of_false not_mem_nil (Nat.succ_ne_zero phys).symm
  · refine ⟨fun _ => rfl, fun _ => rfl, fun _ => nodup_nil, fun _ _ _ => disjoint_nil_left _,
      nodup_nil, fun _ => disjoint_nil_left _, fun i => ?_, Nat.two_pow_pos 31⟩
    refine iff_of_false (fun hi => ?_) fun hi => ?_
    · exact absurd (hi.1.trans_le hi.2) (Nat.lt_irrefl 0)
    · rcases hi with hi | ⟨_, hi⟩ <;> exact not_mem_nil hi

theorem compressedPhysicalPtr_setPages (d : DeviceMemoryManager bits) (startPage count : ℕ)
    (physAddr : ℕ → BitVec 32) {p : ℕ} (hp : startPage + count ≤ p) :
    ((range count).foldl (fun d i => d.setPage (startPage + i) (physAddr i))
      d).compressedPhysicalPtr p = d.compressedPhysicalPtr p := by
  induction count with
  | zero => rfl
  | succ count ih =>
    rw [range_succ, foldl_append, foldl_cons, foldl_nil,
      compressedPhysicalPtr_setPage, if_neg (by omega), ih (by omega)]

theorem IsReversed.mapPages (h : m.IsReversed) (hbits : pageCount bits ≤ 2 ^ 31)
    (startPage count : ℕ) (ptr : ℕ → Option ℕ) (hrange : startPage + count ≤ pageCount bits)
    (hpages : ∀ i < count, 0 < startPage + i ∧ m.compressedPhysicalPtr (startPage + i) = 0 ∧
      ∀ raw, ptr i = some raw → raw / devicePageSize < 2 ^ 32 - 1) :
    ∃ m', (range count).foldlM (fun m i => m.mapPage (startPage + i) (ptr i)) m = some m' ∧
      m'.toDeviceMemoryManager = (range count).foldl
        (fun d i => d.setPage (startPage + i) (physicalPage (ptr i))) m.toDeviceMemoryManager ∧
      m'.IsReversed := by
  induction count with
  | zero => exact ⟨m, rfl, rfl, h⟩
  | succ count ih =>
    obtain ⟨m₁, hfold, hd, hm₁⟩ := ih (by omega) fun i hi => hpages i (by omega)
    obtain ⟨hpos, hunmapped, hptr⟩ := hpages count (Nat.lt_succ_self count)
    have hunmapped₁ : m₁.compressedPhysicalPtr (startPage + count) = 0 := by
      rw [hd, compressedPhysicalPtr_setPages _ _ _ (fun i => physicalPage (ptr i)) le_rfl, hunmapped]
    obtain ⟨m', hm', hd', hreversed⟩ :=
      hm₁.mapPage hbits ⟨hpos, by omega⟩ hunmapped₁ hptr
    refine ⟨m', ?_, ?_, hreversed⟩
    · rw [range_succ, foldlM_append, hfold]
      show (m₁.mapPage _ _).bind _ = _
      rw [hm']
      rfl
    · rw [range_succ, foldl_append, ← hd, hd']
      rfl

theorem IsReversed.unmapPages (h : m.IsReversed) (hbits : pageCount bits ≤ 2 ^ 31) (startPage count : ℕ) :
    ∃ m', (range count).foldlM (fun m i => m.unmapPage (startPage + i)) m = some m' ∧
      m'.toDeviceMemoryManager = (range count).foldl
        (fun d i => d.setPage (startPage + i) 0) m.toDeviceMemoryManager ∧ m'.IsReversed := by
  induction count with
  | zero => exact ⟨m, rfl, rfl, h⟩
  | succ count ih =>
    obtain ⟨m₁, hfold, hd, hm₁⟩ := ih
    obtain ⟨m', hm', hd', hreversed⟩ := hm₁.unmapPage hbits (startPage + count)
    refine ⟨m', ?_, ?_, hreversed⟩
    · rw [range_succ, foldlM_append, hfold]
      show (m₁.unmapPage _).bind _ = _
      rw [hm']
      rfl
    · rw [range_succ, foldl_append, ← hd, hd']
      rfl

theorem IsReversed.endPages (h : m.IsReversed) (startPage count : ℕ) :
    (m.endPages startPage count).IsReversed := by
  obtain ⟨ids, values, pages, hlisted, hrep⟩ := h
  have hptr : (m.endRange startPage count).compressedPhysicalPtr = m.compressedPhysicalPtr := by
    unfold endRange
    split
    · exact compressedPhysicalPtr_update
    · rfl
  exact ⟨ids, values, pages, ⟨hptr ▸ hlisted.mem_iff, hlisted.nodup, hptr ▸ hlisted.zero, hptr ▸ hlisted.outside⟩,
    hrep.holds, hrep.form⟩

/-- **A request** goes through, does to the entries of the device pages what it does without the way
back, and keeps the way back right. -/
theorem IsReversed.exec (h : m.IsReversed) (hbits : pageCount bits ≤ 2 ^ 31) {r : Request} (valid : m.Valid r) :
    ∃ m', m.exec r = some m' ∧ m'.toDeviceMemoryManager = r.exec m.toDeviceMemoryManager ∧ m'.IsReversed := by
  cases r with
  | map getPointerSilent address virtualAddress size =>
    obtain ⟨m', hfold, hd, hreversed⟩ := h.mapPages hbits (address / devicePageSize) (numPages size)
      (fun i => getPointerSilent (virtualAddress + i * devicePageSize)) valid.1 valid.2
    refine ⟨m'.endPages (address / devicePageSize) (numPages size), ?_, ?_, hreversed.endPages _ _⟩
    · show Option.bind (foldlM _ m _) _ = _
      rw [hfold]
      rfl
    · show m'.endRange _ _ = _
      rw [hd]
      rfl
  | unmap address size =>
    obtain ⟨m', hfold, hd, hreversed⟩ :=
      h.unmapPages hbits (address / devicePageSize) (numPages size)
    refine ⟨m'.endPages (address / devicePageSize) (numPages size), ?_, ?_, hreversed.endPages _ _⟩
    · show Option.bind (foldlM _ m _) _ = _
      rw [hfold]
      rfl
    · show m'.endRange _ _ = _
      rw [hd]
      rfl

theorem Run.isReversed (hbits : pageCount bits ≤ 2 ^ 31) (h : Run m) : m.IsReversed := by
  induction h with
  | new => exact isReversed_new
  | request r run valid hexec ih =>
    obtain ⟨m'', hm'', -, hreversed⟩ := ih.exec hbits valid
    obtain rfl := Option.some.inj (hm''.symm.trans hexec)
    exact hreversed

/-- What the way back promises. -/
structure Exact (m : DeviceReverseMap bits) : Prop where
  /-- `InnerGatherDeviceAddresses` lists the device pages of a physical page, each once. -/
  gather : ∀ address, (∃ page, (m.compressedPhysicalPtr page).toNat = address / devicePageSize + 1) →
    ∃ l, m.innerGatherDeviceAddresses address = some l ∧ l.Nodup ∧
      ∀ page, page ∈ l ↔ (m.compressedPhysicalPtr page).toNat = address / devicePageSize + 1
  gather_none : ∀ address,
    (¬ ∃ page, (m.compressedPhysicalPtr page).toNat = address / devicePageSize + 1) →
    m.innerGatherDeviceAddresses address = some [0]
  /-- The lists of the words end, and they and the list of free entries are apart. -/
  lists : ∃ ids : ℕ → List ℕ,
    (∀ phys, m.compressedDeviceAddr phys >>> multiFlagBits ≠ 0 →
      ids phys ≠ [] ∧ (ids phys).headD 0 = m.compressedDeviceAddr phys &&& multiMask ∧
      m.multiDevAddress.Linked (ids phys)) ∧
    (∀ phys, (ids phys).Nodup) ∧ (∀ phys phys', phys ≠ phys' → (ids phys).Disjoint (ids phys')) ∧
    m.multiDevAddress.freeEntries.Nodup ∧
    ∀ phys, (ids phys).Disjoint m.multiDevAddress.freeEntries
  /-- `Unregister` finds a page that is mapped. -/
  unregister : ∀ phys page, (m.compressedPhysicalPtr page).toNat = phys + 1 →
    m.compressedDeviceAddr phys >>> multiFlagBits ≠ 0 →
    (m.multiDevAddress.unregister page (m.compressedDeviceAddr phys &&& multiMask)).isSome

/-- A word with the flag has a list. -/
theorem Represents.of_flag (h : m.Represents ids values pages) (hlt : ∀ page ∈ pages phys, page < 2 ^ 31)
    (hflag : m.compressedDeviceAddr phys >>> multiFlagBits ≠ 0) :
    ∃ l, ids phys = (m.compressedDeviceAddr phys &&& multiMask) :: l ∧ values phys = pages phys := by
  have hform := h.form phys
  have hholds := h.holds
  generalize hword : m.compressedDeviceAddr phys = w at hform hflag
  generalize hids : ids phys = i at hform
  generalize hvalues : values phys = v at hform
  generalize hpages : pages phys = l at hform hlt
  cases hform with
  | unmapped => exact absurd (Nat.zero_shiftRight _) hflag
  | single => exact absurd (shiftRight_of_lt (hlt w (mem_singleton_self w))) hflag
  | list s rest l two =>
    rw [flag_and_mask (lt_of_le_of_lt (hholds.bounds (k := phys) (hids ▸ mem_cons_self)).2
      hholds.length_lt)]
    exact ⟨rest, rfl, rfl⟩

theorem Reversed.isExact (h : m.Reversed ids values pages) (hbits : pageCount bits ≤ 2 ^ 31) :
    Exact m := by
  obtain ⟨hlisted, hrep⟩ := h
  have hlt : ∀ phys, ∀ page ∈ pages phys, page < 2 ^ 31 := fun phys page hmem =>
    (hlisted.bounds hmem).2.trans_le hbits
  have hgather : ∀ address, m.innerGatherDeviceAddresses address =
      some (if pages (address / devicePageSize) = [] then [0]
        else pages (address / devicePageSize)) := by
    intro address
    unfold innerGatherDeviceAddresses
    generalize address / devicePageSize = phys
    by_cases hflag : m.compressedDeviceAddr phys >>> multiFlagBits = 0
    · have hform := hrep.form phys
      generalize hword : m.compressedDeviceAddr phys = w at hform hflag
      generalize hids : ids phys = i at hform
      generalize pages phys = l at hform
      generalize values phys = v at hform
      cases hform with
      | unmapped => rfl
      | single => simp [hflag]
      | list s rest l two =>
        rw [flag_shiftRight (lt_of_le_of_lt
          (hrep.holds.bounds (k := phys) (hids ▸ mem_cons_self)).2 hrep.holds.length_lt)] at hflag
        exact absurd hflag one_ne_zero
    · obtain ⟨l, hids, hvalues⟩ := hrep.of_flag (hlt phys) hflag
      have hne : pages phys ≠ [] := by
        rw [← hvalues, ← hrep.holds.values phys, hids]
        exact cons_ne_nil _ _
      simp only [ne_eq, hflag, not_false_iff, if_true]
      rw [hrep.holds.gatherValues_eq hids, hvalues, if_neg hne]
  refine ⟨fun address hmapped => ?_, fun address hnone => ?_, ⟨ids, ?_, hrep.holds.nodup,
    hrep.holds.disjoint, hrep.holds.free_nodup, hrep.holds.free_disjoint⟩,
    fun phys page hphys hflag => ?_⟩
  · obtain ⟨page, hpage⟩ := hmapped
    have hne := ne_nil_of_mem ((hlisted.mem_iff _ page).2 hpage)
    exact ⟨_, (hgather address).trans (by rw [if_neg hne]), hlisted.nodup _, hlisted.mem_iff _⟩
  · rw [hgather, if_pos]
    exact eq_nil_iff_forall_not_mem.2 fun page hmem => hnone ⟨page, (hlisted.mem_iff _ page).1 hmem⟩
  · intro phys hflag
    obtain ⟨l, hids, -⟩ := hrep.of_flag (hlt phys) hflag
    refine ⟨?_, ?_, hrep.holds.linked phys⟩
    · rw [hids]
      exact cons_ne_nil _ _
    · rw [hids, headD_cons]
  · obtain ⟨l, hids, hvalues⟩ := hrep.of_flag (hlt phys) hflag
    obtain ⟨ids', c', hunregister, -⟩ := hrep.holds.unregister_eq hids
      (hvalues ▸ (hlisted.mem_iff phys page).2 hphys)
    rw [hunregister]
    rfl

/-- **The way back is exact** after every request, and every valid request goes through; what it does
to the device pages is what it does without the way back. -/
theorem Run.reverse_exact (hbits : bits ≤ 43) (h : Run m) : Exact m ∧ ∀ r, m.Valid r →
    ∃ m', m.exec r = some m' ∧ m'.toDeviceMemoryManager = r.exec m.toDeviceMemoryManager := by
  have hcount : pageCount bits ≤ 2 ^ 31 := Nat.pow_le_pow_right (by decide) (by omega)
  obtain ⟨ids, values, pages, hreversed⟩ := h.isReversed hcount
  refine ⟨hreversed.isExact hcount, fun r valid => ?_⟩
  obtain ⟨m', hm', hd, -⟩ := IsReversed.exec ⟨ids, values, pages, hreversed⟩ hcount valid
  exact ⟨m', hm', hd⟩

/-- Two device pages share a physical page, and the first of them is unmapped. -/
theorem aliased_reverse_exact : ∃ m : DeviceReverseMap 34,
    (new.exec (.map (fun _ => some 0x3000) 0x5000 0 0x2000)).bind (·.exec (.unmap 0x5000 0x1000)) =
      some m ∧ Exact m := by
  have hvalid : (new : DeviceReverseMap 34).Valid (.map (fun _ => some 0x3000) 0x5000 0 0x2000) :=
    ⟨show 5 + 2 ≤ 2 ^ 22 by decide, fun i _ => ⟨Nat.add_pos_left (by decide) i, rfl, by
      rintro raw ⟨⟩
      decide⟩⟩
  obtain ⟨m₁, hm₁, -⟩ := (Run.reverse_exact (by decide) Run.new).2 _ hvalid
  have hrun₁ := Run.request _ Run.new hvalid hm₁
  have hvalid₁ : m₁.Valid (.unmap 0x5000 0x1000) := ⟨show 5 + 1 ≤ 2 ^ 22 by decide, trivial⟩
  obtain ⟨m₂, hm₂, -⟩ := (Run.reverse_exact (by decide) hrun₁).2 _ hvalid₁
  refine ⟨m₂, ?_, (Run.reverse_exact (by decide) (hrun₁.request _ hvalid₁ hm₂)).1⟩
  rw [hm₁, Option.bind_some, hm₂]

end DeviceReverseMap
end Core
end NXEmu
