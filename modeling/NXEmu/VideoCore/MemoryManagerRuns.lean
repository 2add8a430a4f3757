/-
# Runs of a memory manager

`src/yuzu_video_core/memory_manager.cpp`: after any requests `GpuToCpuAddress` gives what the last
request for an address said, whatever big and small pages were used.  `ReserveRange` asks for the
part of the first level that is behind its range, so a request that fills entries of `page_table` up
to the end of the address space runs past it (`lastPage_faults`).
-/

import NXEmu.VideoCore.MemoryManagerPages

variable {r : Request} {a stop i : ℕ} {P : ℕ → Bool → Prop}

namespace NXEmu
namespace Tegra

open Exec

/-- A request to a manager. -/
inductive Request where
  | map (gpuAddr devAddr size : ℕ) (kind : PTEKind) (isBigPages : Bool)
  | mapSparse (gpuAddr size : ℕ) (isBigPages : Bool)
  | unmap (gpuAddr size : ℕ)

namespace Request

/-- The request, with the device memory that there is. -/
def exec (getPointer : GetPointer) (m : MemoryManager) : Request → Exec MemoryManager
  | map gpuAddr devAddr size kind isBigPages => m.map getPointer gpuAddr devAddr size kind isBigPages
  | mapSparse gpuAddr size isBigPages => m.mapSparse getPointer gpuAddr size isBigPages
  | unmap gpuAddr size => m.unmap getPointer gpuAddr size

/-- An address in the range of the request. -/
def Covers (a : ℕ) : Request → Prop
  | map gpuAddr _ size _ _ | mapSparse gpuAddr size _ | unmap gpuAddr size =>
    gpuAddr ≤ a ∧ a < gpuAddr + size

instance (r : Request) (a : ℕ) : Decidable (r.Covers a) := by
  cases r <;> exact inferInstanceAs (Decidable (_ ∧ _))

/-- What the request puts at an address of its range. -/
def target (a : ℕ) : Request → PageState
  | map gpuAddr devAddr .. => .mapped (devAddr + (a - gpuAddr))
  | mapSparse .. => .reserved
  | unmap .. => .free

/-- A range of whole pages inside the address space; device memory has 34 bits. -/
def Valid (c : Config) : Request → Prop
  | map gpuAddr devAddr size _ isBigPages => c.sizeOf isBigPages ∣ gpuAddr ∧
    c.sizeOf isBigPages ∣ size ∧ gpuAddr + size ≤ c.addressSpaceSize ∧ cpuPageSize ∣ devAddr ∧
    devAddr + size ≤ 2 ^ 34
  | mapSparse gpuAddr size isBigPages => c.sizeOf isBigPages ∣ gpuAddr ∧
    c.sizeOf isBigPages ∣ size ∧ gpuAddr + size ≤ c.addressSpaceSize
  | unmap gpuAddr size => c.pageSize ∣ gpuAddr ∧ c.pageSize ∣ size ∧
    gpuAddr + size ≤ c.addressSpaceSize

instance (c : Config) (r : Request) : Decidable (r.Valid c) := by
  cases r <;> exact inferInstanceAs (Decidable (_ ∧ _))

theorem Valid.lt {c : Config} (hr : r.Valid c) (h : r.Covers a) :
    a < c.addressSpaceSize := by
  cases r with
  | map gpuAddr devAddr size kind isBigPages => exact Nat.lt_of_lt_of_le h.2 hr.2.2.1
  | mapSparse gpuAddr size isBigPages => exact Nat.lt_of_lt_of_le h.2 hr.2.2
  | unmap gpuAddr size => exact Nat.lt_of_lt_of_le h.2 hr.2.2

/-- The entries that the request fills are there. -/
def Fits (c : Config) (m : MemoryManager) : Request → Prop
  | map _ _ _ _ true => c.bigPageBits + 6 ≤ c.addressSpaceBits
  | map gpuAddr _ size _ false => m.Expandable c gpuAddr (gpuAddr + size) ∧
    MemoryManager.HasRoom c (gpuAddr + size)
  | mapSparse _ _ true => True
  | mapSparse gpuAddr size false => m.Expandable c gpuAddr (gpuAddr + size)
  | unmap gpuAddr size =>
    -- the parts at both ends that are no big pages
    let firstEnd := min (gpuAddr + size)
      ((gpuAddr + c.bigPageSize - 1) / c.bigPageSize * c.bigPageSize)
    let lastStart := max firstEnd ((gpuAddr + size) / c.bigPageSize * c.bigPageSize)
    (gpuAddr < firstEnd → m.Expandable c gpuAddr firstEnd) ∧
      (lastStart < gpuAddr + size → m.Expandable c lastStart (gpuAddr + size))

end Request

namespace MemoryManager

variable {c : Config} {m m' : MemoryManager} {getPointer : GetPointer} {entryType : EntryType}
  {start size devAddr : ℕ} {kind : PTEKind}

/-- What filling a range does. -/
structure Filled (c : Config) (entryType : EntryType) (start size devAddr : ℕ) (m m' : MemoryManager) :
    Prop where
  ok : m'.Ok c
  state : ∀ a, m'.tables.pageState c a = if start ≤ a ∧ a < start + size then
    Tables.entryState entryType (devAddr + (a - start)) else m.tables.pageState c a
  big : ∀ j, m'.tables.big j = .mapped → m.tables.big j = .mapped ∨ entryType = .mapped

/-- A range of small pages, after the big pages over it were prepared. -/
theorem fillSmall_spec (hc : c.Ok) (h : m.Ok c) (hstart : c.pageSize ∣ start)
    (hsize : c.pageSize ∣ size) (hlimit : start + size ≤ c.addressSpaceSize)
    (hdev : entryType = .mapped → cpuPageSize ∣ devAddr ∧ devAddr + size ≤ 2 ^ 34)
    (hexpand : m.Expandable c start (start + size)) (hroom : entryType = .mapped → HasRoom c (start + size)) :
    wp (m.prepareSmallPageMapping start size >>= fun m =>
      m.pageTableOp entryType start devAddr size kind) fun m' held => held = true ∧
      Filled c entryType start size devAddr m m' := by
  rw [wp_bind]
  refine wp_mono (prepareSmallPageMapping_spec hc h hlimit hexpand) fun m₁ held hr => ?_
  obtain ⟨rfl, hm₁, hstate, hsmall, hbig⟩ := hr
  obtain ⟨lo, rfl⟩ := hstart
  obtain ⟨n, rfl⟩ := hsize
  rw [Nat.mul_comm c.pageSize lo, Nat.mul_comm c.pageSize n] at *
  rw [← Nat.add_mul] at hlimit hroom
  have hunder : ∀ i, lo ≤ i → i < lo + n → m₁.tables.big (i / c.pagesPerBig) = .smallPages := by
    intro i hlo hhi
    have hdiv : i / c.pagesPerBig = i * c.pageSize / c.bigPageSize := by
      rw [← hc.div_pagesPerBig, Nat.mul_div_cancel _ c.pageSize_pos]
    rw [hdiv]
    refine hsmall _ (Nat.mul_le_mul_right _ hlo) ?_
    rw [← Nat.add_mul]
    exact Nat.mul_lt_mul_of_pos_right hhi c.pageSize_pos
  have hdev' : entryType = .mapped → cpuPageSize ∣ devAddr ∧ devAddr + n * c.pageSize ≤ 2 ^ 44 :=
    fun hmap => ⟨(hdev hmap).1, Nat.le_trans (hdev hmap).2 (by decide)⟩
  refine wp_mono (pageTableOp_spec hc hm₁.sized hlimit hroom devAddr kind) fun m₂ held hr => ?_
  obtain ⟨rfl, hm₂, htables⟩ := hr
  refine ⟨rfl, ⟨hm₂, ?_⟩, fun a => ?_, fun j hj => ?_⟩
  · rw [htables]
    exact hm₁.tables.fillSmall (fun hmap => (hroom hmap).1) hunder
  · rw [htables, Tables.pageState_fillSmall hdev' hc hunder, hstate, Nat.add_mul]
  · rw [htables] at hj
    rcases hbig j with hb | hb
    · exact .inl (hb ▸ hj)
    · exact absurd (hb.symm.trans hj) (by decide)

variable (getPointer) in
/-- A range of big pages. -/
theorem fillBig_spec (hc : c.Ok) (h : m.Ok c) (hne : entryType ≠ .smallPages)
    (hstart : c.bigPageSize ∣ start) (hsize : c.bigPageSize ∣ size) (hlimit : start + size ≤ c.addressSpaceSize)
    (hdev : entryType = .mapped → cpuPageSize ∣ devAddr ∧ devAddr + size ≤ 2 ^ 34)
    (hbits : entryType = .mapped → c.bigPageBits + 6 ≤ c.addressSpaceBits) :
    wp (m.bigPageTableOp getPointer entryType start devAddr size kind) fun m' held =>
      held = true ∧ Filled c entryType start size devAddr m m' := by
  obtain ⟨lo, rfl⟩ := hstart
  obtain ⟨n, rfl⟩ := hsize
  rw [Nat.mul_comm c.bigPageSize lo, Nat.mul_comm c.bigPageSize n] at *
  have hdev' : entryType = .mapped → cpuPageSize ∣ devAddr ∧ devAddr + n * c.bigPageSize ≤ 2 ^ 44 :=
    fun hmap => ⟨(hdev hmap).1, Nat.le_trans (hdev hmap).2 (by decide)⟩
  rw [← Nat.add_mul] at hlimit
  refine wp_mono (bigPageTableOp_spec hc h.sized hbits hlimit devAddr kind) fun m₂ held hr => ?_
  obtain ⟨rfl, hm₂, htables⟩ := hr
  refine ⟨rfl, ⟨hm₂, ?_⟩, fun a => ?_, fun j hj => ?_⟩
  · rw [htables]
    exact h.tables.fillBig hdev' hc
  · rw [htables, Tables.pageState_fillBig hdev' hc h.tables hne, Nat.add_mul]
  · rw [htables] at hj
    dsimp only [Tables.fillBig] at hj
    split at hj
    · exact .inr hj
    · exact .inl hj

/-- One range after the other. -/
theorem Filled.trans {size₁ size₂ : ℕ} {m₁ : MemoryManager} (hne : entryType ≠ .mapped)
    (h : Filled c entryType start size₁ 0 m m₁) (h' : Filled c entryType (start + size₁) size₂ 0 m₁ m') :
    Filled c entryType start (size₁ + size₂) 0 m m' := by
  have hstate : ∀ d, Tables.entryState entryType d = Tables.entryState entryType 0 := fun d => by
    cases entryType with
    | mapped => exact absurd rfl hne
    | free | reserved | smallPages => rfl
  refine ⟨h'.ok, fun a => ?_, fun j hj => (h'.big j hj).elim (h.big j) .inr⟩
  rw [h'.state, h.state, hstate, hstate (0 + (a - start))]
  by_cases ha : start + size₁ ≤ a ∧ a < start + size₁ + size₂
  · rw [if_pos ha, if_pos (by omega)]
  · rw [if_neg ha]
    by_cases ha' : start ≤ a ∧ a < start + size₁
    · rw [if_pos ha', if_pos (by omega)]
    · rw [if_neg ha', if_neg (by omega)]

/-- Nothing to fill. -/
theorem Filled.refl (h : m.Ok c) (entryType : EntryType) (start devAddr : ℕ) :
    Filled c entryType start 0 devAddr m m :=
  ⟨h, fun _ => (if_neg (by omega)).symm, fun _ hj => .inl hj⟩

/-- An end of the range of `Unmap`. -/
theorem unmapSmall_spec (hc : c.Ok) (h : m.Ok c) (hle : start ≤ stop)
    (hstart : c.pageSize ∣ start) (hstop : c.pageSize ∣ stop) (hlimit : stop ≤ c.addressSpaceSize)
    (hexpand : start < stop → m.Expandable c start stop) :
    wp (m.unmapSmall start stop) fun m' held => held = true ∧ Filled c .free start (stop - start) 0 m m' := by
  have hsum : start + (stop - start) = stop := by omega
  rw [unmapSmall]
  split
  · rename_i hlt
    refine fillSmall_spec hc h hstart (Nat.dvd_sub hstop hstart) (by rwa [hsum])
      (fun h => nomatch h) ?_ fun h => nomatch h
    rw [hsum]
    exact hexpand hlt
  · rename_i hnot
    rw [pure_eq, wp_ret, show stop - start = 0 by omega]
    exact ⟨rfl, .refl h ..⟩

variable (getPointer) in
/-- The big pages of the range of `Unmap`. -/
theorem unmapBig_spec (hc : c.Ok) (h : m.Ok c) (hle : start ≤ stop)
    (hstart : c.bigPageSize ∣ start) (hstop : c.bigPageSize ∣ stop) (hlimit : stop ≤ c.addressSpaceSize) :
    wp (m.unmapBig getPointer start stop) fun m' held => held = true ∧
      Filled c .free start (stop - start) 0 m m' := by
  have hsum : start + (stop - start) = stop := by omega
  rw [unmapBig]
  split
  · exact fillBig_spec getPointer hc h (by decide) hstart (Nat.dvd_sub hstop hstart) (by rwa [hsum])
      (fun h => nomatch h) fun h => nomatch h
  · rename_i hnot
    rw [pure_eq, wp_ret, show stop - start = 0 by omega]
    exact ⟨rfl, .refl h ..⟩

theorem Filled.expandable (h : Filled c .free start size devAddr m m') {start' stop' : ℕ}
    (hexpand : m.Expandable c start' stop') : m'.Expandable c start' stop' :=
  fun j hj hj' hmap => hexpand j hj hj' ((h.big j hmap).resolve_right (by decide))

/-- **`Unmap`** frees its range: small pages at both ends, and the big pages between. -/
theorem unmap_spec (hc : c.Ok) (h : m.Ok c) (hr : (Request.unmap start size).Valid c)
    (hfits : (Request.unmap start size).Fits c m) :
    wp (m.unmap getPointer start size) fun m' held => held = true ∧ Filled c .free start size 0 m m' := by
  obtain ⟨hstart, hsize, hlimit⟩ := hr
  rw [unmap]
  by_cases hzero : size = 0
  · rw [if_pos hzero, pure_eq, wp_ret, hzero]
    exact ⟨rfl, .refl h ..⟩
  rw [if_neg hzero, h.sized.config]
  have hpos := c.bigPageSize_pos
  obtain ⟨up, hup⟩ : ∃ up, up = (start + c.bigPageSize - 1) / c.bigPageSize * c.bigPageSize := ⟨_, rfl⟩
  obtain ⟨down, hdown⟩ : ∃ down, down = (start + size) / c.bigPageSize * c.bigPageSize := ⟨_, rfl⟩
  have hupdvd : c.bigPageSize ∣ up := hup ▸ Nat.dvd_mul_left ..
  have hdowndvd : c.bigPageSize ∣ down := hdown ▸ Nat.dvd_mul_left ..
  have hupge : start ≤ up := by
    have := Nat.div_add_mod (start + c.bigPageSize - 1) c.bigPageSize
    have := Nat.mod_lt (start + c.bigPageSize - 1) hpos
    rw [hup, Nat.mul_comm]
    omega
  have hdownle : down ≤ start + size := hdown ▸ Nat.div_mul_le_self ..
  have hupdown : up ≤ start + size → up ≤ down := fun hle => by
    obtain ⟨k, rfl⟩ := hupdvd
    rw [hdown, Nat.mul_comm]
    exact Nat.mul_le_mul_right _ ((Nat.le_div_iff_mul_le hpos).2 (by rwa [Nat.mul_comm]))
  have hdvd : c.pageSize ∣ start + size := Nat.dvd_add hstart hsize
  have hupdvd' : c.pageSize ∣ up := Nat.dvd_trans hc.dvd_bigPageSize hupdvd
  have hdowndvd' : c.pageSize ∣ down := Nat.dvd_trans hc.dvd_bigPageSize hdowndvd
  obtain ⟨hhead, htail⟩ := hfits
  rw [← hup] at hhead htail
  rw [← hdown] at htail
  dsimp only
  rw [← hup, ← hdown]
  obtain ⟨firstEnd, hfirst⟩ : ∃ firstEnd, firstEnd = min (start + size) up := ⟨_, rfl⟩
  rw [← hfirst] at hhead htail ⊢
  have hfirstdvd : c.pageSize ∣ firstEnd := by
    rw [hfirst]
    rcases Nat.le_total (start + size) up with hle | hle
    · rwa [Nat.min_eq_left hle]
    · rwa [Nat.min_eq_right hle]
  rw [wp_bind]
  refine wp_mono (unmapSmall_spec hc h (by omega) hstart hfirstdvd (by omega) hhead)
    fun m₁ held hr => ?_
  obtain ⟨rfl, h₁⟩ := hr
  rw [wp_bind]
  have hsum : start + (firstEnd - start) = firstEnd := by omega
  by_cases hlt : firstEnd < down
  · -- there are big pages, so the first part ends with a big page
    have hfirstup : firstEnd = up := by omega
    have hbig := unmapBig_spec getPointer hc h₁.ok (by omega) (hfirstup ▸ hupdvd)
      hdowndvd (by omega)
    refine wp_mono hbig fun m₂ held hr => ?_
    obtain ⟨rfl, h₂⟩ := hr
    rw [Nat.max_eq_right (by omega)]
    rw [Nat.max_eq_right (by omega)] at htail
    refine wp_mono (unmapSmall_spec hc h₂.ok hdownle hdowndvd' hdvd hlimit fun hlt' =>
      h₂.expandable (h₁.expandable (htail hlt'))) fun m₃ held hr => ?_
    obtain ⟨rfl, h₃⟩ := hr
    refine ⟨rfl, ?_⟩
    have h₂' : Filled c .free (start + (firstEnd - start)) (down - firstEnd) 0 m₁ m₂ := by rwa [hsum]
    have h₁₂ := h₁.trans (by decide) h₂'
    have hsum₂ : start + (firstEnd - start + (down - firstEnd)) = down := by omega
    have h₃' : Filled c .free (start + (firstEnd - start + (down - firstEnd))) (start + size - down)
        0 m₂ m₃ := by rwa [hsum₂]
    have h₁₃ := h₁₂.trans (by decide) h₃'
    rwa [show firstEnd - start + (down - firstEnd) + (start + size - down) = size by omega] at h₁₃
  · rw [unmapBig, if_neg hlt, pure_eq, wp_ret, Nat.max_eq_left (by omega)]
    rw [Nat.max_eq_left (by omega)] at htail
    refine wp_mono (unmapSmall_spec hc h₁.ok (by omega) hfirstdvd hdvd hlimit fun hlt' =>
      h₁.expandable (htail hlt')) fun m₃ held hr => ?_
    obtain ⟨rfl, h₃⟩ := hr
    refine ⟨rfl, ?_⟩
    have h₃' : Filled c .free (start + (firstEnd - start)) (start + size - firstEnd) 0 m₁ m₃ := by
      rwa [hsum]
    have h₁₃ := h₁.trans (by decide) h₃'
    rwa [show firstEnd - start + (start + size - firstEnd) = size by omega] at h₁₃

variable (getPointer) in
/-- **A request** changes what is at the addresses of its range, and nothing else. -/
theorem exec_spec (hc : c.Ok) (h : m.Ok c) (hr : r.Valid c) (hfits : r.Fits c m) :
    wp (r.exec getPointer m) fun m' held => held = true ∧ m'.Ok c ∧ ∀ a,
      m'.tables.pageState c a = if r.Covers a then r.target a else m.tables.pageState c a := by
  cases r with
  | map gpuAddr devAddr size kind isBigPages =>
    obtain ⟨hstart, hsize, hlimit, hdvd, hdev⟩ := hr
    cases isBigPages with
    | true =>
      refine wp_mono (fillBig_spec getPointer hc h (by decide) hstart hsize hlimit
        (fun _ => ⟨hdvd, hdev⟩) fun _ => hfits) fun m' held hr => ⟨hr.1, hr.2.ok, hr.2.state⟩
    | false =>
      exact wp_mono (fillSmall_spec hc h hstart hsize hlimit (fun _ => ⟨hdvd, hdev⟩) hfits.1
        fun _ => hfits.2) fun m' held hr => ⟨hr.1, hr.2.ok, hr.2.state⟩
  | mapSparse gpuAddr size isBigPages =>
    obtain ⟨hstart, hsize, hlimit⟩ := hr
    cases isBigPages with
    | true =>
      exact wp_mono (fillBig_spec getPointer hc h (by decide) hstart hsize hlimit
        (fun h => nomatch h) fun h => nomatch h) fun m' held hr => ⟨hr.1, hr.2.ok, hr.2.state⟩
    | false =>
      exact wp_mono (fillSmall_spec hc h hstart hsize hlimit (fun h => nomatch h) hfits
        fun h => nomatch h) fun m' held hr => ⟨hr.1, hr.2.ok, hr.2.state⟩
  | unmap gpuAddr size =>
    exact wp_mono (unmap_spec hc h hr hfits) fun m' held hr => ⟨hr.1, hr.2.ok, hr.2.state⟩

/-! ### Translation -/

@[simp] theorem wp_run_getEntry {isBigPage : Bool} {P : EntryType → Bool → Prop} :
    wp ((Tegra.getEntry isBigPage a).run m.read) P ↔ wp (m.getEntry isBigPage a) P :=
  Query.wp_get

@[simp] theorem wp_run_devAddrBase_big :
    wp ((devAddrBase true i).run m.read) P ↔ P ((m.bigPageTableDev i).toNat * cpuPageSize) true := by
  have hrun : (devAddrBase true i).run m.read = .ret ((m.bigPageTableDev i).toNat * cpuPageSize) true := rfl
  rw [hrun, wp_ret]

@[simp] theorem wp_run_devAddrBase_small (hbits : m.pageTable.pageBits ≠ 0) :
    wp ((devAddrBase false i).run m.read) P ↔ P ((m.pageTable.entries i).toNat * cpuPageSize) true := by
  have hrun : (devAddrBase false i).run m.read =
      m.pageTable.get i >>= fun v => .ret (v.toNat * cpuPageSize) true := rfl
  rw [hrun, MultiLevelPageTable.get, if_neg hbits, pure_eq, ret_true_bind, wp_ret]

/-- `GpuToCpuAddress` gives what the tables have. -/
theorem gpuToCpuAddress_eq (hc : c.Ok) (h : m.Ok c) (a : ℕ) : m.gpuToCpuAddress a =
    .ret (if a < c.addressSpaceSize then (m.tables.pageState c a).devAddr else none) true := by
  suffices hwp : wp (m.gpuToCpuAddress a) fun v held => held = true ∧
      v = if a < c.addressSpaceSize then (m.tables.pageState c a).devAddr else none by
    obtain ⟨v, held, hret, rfl, rfl⟩ := hwp
    exact hret
  rw [gpuToCpuAddress, h.sized.config, Config.gpuToCpuAddress]
  by_cases ha : a < c.addressSpaceSize
  · have hidx : c.pageEntryIndex true a = a / c.bigPageSize := Nat.mod_eq_of_lt (hc.big_lt ha)
    have hidx' : c.pageEntryIndex false a = a / c.pageSize := Nat.mod_eq_of_lt (hc.small_lt ha)
    rw [if_neg (not_not_intro ha), if_pos ha, Query.wp_bind, wp_run_getEntry,
      getEntry_eq hc h.sized ha, wp_ret, if_pos rfl]
    by_cases hbig : m.tables.big (a / c.bigPageSize) = .mapped
    · rw [if_neg (not_not_intro hbig), Query.wp_bind, wp_run_devAddrBase_big, hidx, Query.run_pure,
        wp_ret, Tables.pageState, hbig]
      exact ⟨rfl, rfl⟩
    · have hstate : (m.tables.pageState c a).devAddr = if m.tables.small (a / c.pageSize) = .mapped then
            some (m.tables.smallDev (a / c.pageSize) + a % c.pageSize) else none := by
        by_cases hres : m.tables.big (a / c.bigPageSize) = .reserved
        · have hfree := h.tables.clean (a / c.pageSize)
          rw [hc.div_pagesPerBig, hres] at hfree
          rw [Tables.pageState, hres, hfree (by decide)]
          rfl
        · rw [Tables.pageState_of_big rfl hbig hres, Tables.smallState]
          cases m.tables.small (a / c.pageSize) <;> rfl
      have hentry : m.getEntry false a = .ret (m.tables.small (a / c.pageSize)) true :=
        getEntry_eq hc h.sized ha false
      rw [if_pos hbig, Query.wp_bind, wp_run_getEntry, hentry, wp_ret, hstate]
      by_cases hsmall : m.tables.small (a / c.pageSize) = .mapped
      · have hbits : m.pageTable.pageBits ≠ 0 := by
          have := hc.page
          rw [h.sized.pageBits, if_pos (h.tables.table _ hsmall)]
          omega
        rw [if_neg (not_not_intro hsmall), if_pos hsmall, Query.wp_bind,
          wp_run_devAddrBase_small hbits, hidx', Query.run_pure, wp_ret]
        exact ⟨rfl, rfl⟩
      · rw [if_pos hsmall, if_neg hsmall, Query.run_pure, wp_ret]
        exact ⟨rfl, rfl⟩
  · rw [if_pos ha, if_neg ha, Query.run_pure, wp_ret]
    exact ⟨rfl, rfl⟩

/-! ### Runs -/

theorem ok_new (hc : c.Ok) : (new c).Ok c where
  sized := sized_new hc
  tables :=
    { clean := fun _ _ => Words.entry_zeros
      table := fun i hi => by
        rw [show (new c).tables.small i = .free from Words.entry_zeros] at hi
        cases hi
      dvd := fun j => Nat.dvd_mul_left _ _
      dev := fun j hj => by
        rw [show (new c).tables.big j = .free from Words.entry_zeros] at hj
        cases hj }

/-- The managers reached by requests, whatever device memory there is at each. -/
inductive Run (c : Config) : MemoryManager → Prop
  | new : Run c (new c)
  | request {m m' : MemoryManager} {held : Bool} (getPointer : GetPointer) (r : Request)
    (run : Run c m) (valid : r.Valid c) (fits : r.Fits c m)
    (returned : r.exec getPointer m = .ret m' held) : Run c m'

/-- **Runs** keep the tables well-formed. -/
theorem Run.ok (hc : c.Ok) (h : Run c m) : m.Ok c := by
  induction h with
  | new => exact ok_new hc
  | request getPointer r run valid fits returned ih =>
    obtain ⟨m'', held, hret, -, hok, -⟩ := exec_spec getPointer hc ih valid fits
    rw [returned] at hret
    cases hret
    exact hok

/-- What a manager promises of its addresses. -/
structure Translates (c : Config) (m : MemoryManager) : Prop where
  /-- Under a big page that has an entry no small page has one. -/
  clean : ∀ a, a < c.addressSpaceSize → ∃ bigEntry entry, m.getEntry true a = .ret bigEntry true ∧
    m.getEntry false a = .ret entry true ∧ (bigEntry ≠ .smallPages → entry = .free)
  /-- A request changes the translation of its range, and of nothing else. -/
  request : ∀ getPointer (r : Request), r.Valid c → r.Fits c m →
    ∃ m', r.exec getPointer m = .ret m' true ∧ ∀ a, m'.gpuToCpuAddress a =
      if r.Covers a then .ret (r.target a).devAddr true else m.gpuToCpuAddress a

/-- **A memory manager translates addresses as a page map**, as long as its requests fit. -/
theorem Run.translates (hc : c.Ok) (h : Run c m) : Translates c m where
  clean a ha := by
    refine ⟨_, _, getEntry_eq hc (h.ok hc).sized ha true, getEntry_eq hc (h.ok hc).sized ha false,
      fun hne => ?_⟩
    refine (h.ok hc).tables.clean (a / c.pageSize) ?_
    rwa [hc.div_pagesPerBig]
  request getPointer r hr hfits := by
    obtain ⟨m', held, hret, rfl, hok, hstate⟩ :=
      exec_spec getPointer hc (h.ok hc) hr hfits
    refine ⟨m', hret, fun a => ?_⟩
    rw [gpuToCpuAddress_eq hc hok, gpuToCpuAddress_eq hc (h.ok hc), hstate]
    by_cases hcover : r.Covers a
    · rw [if_pos hcover, if_pos hcover, if_pos (Request.Valid.lt hr hcover)]
    · rw [if_neg hcover, if_neg hcover]

/-- 40 bits of addresses, as most address spaces have. -/
def lastPageConfig : Config := ⟨40, 16, 12⟩

theorem lastPageConfig_ok : lastPageConfig.Ok where
  page := by decide
  le := by decide
  words := by decide
  bits := by decide
  table _ := by decide

theorem gpuToCpuAddress_new (hc : c.Ok) (a : ℕ) : (new c).gpuToCpuAddress a = .ret none true := by
  have hfree : (new c).tables.pageState c a = .free := by
    rw [Tables.pageState_of_big Words.entry_zeros (by decide) (by decide), Tables.smallState,
      show (new c).tables.small (a / c.pageSize) = .free from Words.entry_zeros]
  rw [gpuToCpuAddress_eq hc (ok_new hc), hfree, show PageState.free.devAddr = none from rfl, ite_self]

/-- Two big pages are mapped, two small ones in the first of them are freed, and one of these is mapped again. -/
theorem mixedPages_translate : ∃ m, Run lastPageConfig m ∧ Translates lastPageConfig m ∧ ∀ a, m.gpuToCpuAddress a =
    .ret (if 0x105000 ≤ a ∧ a < 0x105000 + 0x1000 then some (0x50000 + (a - 0x105000))
      else if 0x104000 ≤ a ∧ a < 0x104000 + 0x2000 then none
      else if 0x100000 ≤ a ∧ a < 0x100000 + 0x20000 then some (0x10000 + (a - 0x100000)) else none) true := by
  have hexpand : ∀ m : MemoryManager, ∀ start, m.Expandable lastPageConfig start 0x106000 := fun m start j _ hj _ => by
    have hlt : (j + 1) * lastPageConfig.bigPageSize < 0x106000 + lastPageConfig.bigPageSize := by
      rw [Nat.succ_mul]
      exact Nat.add_lt_add_right hj _
    exact ⟨by decide, Nat.lt_trans hlt (by decide)⟩
  have htranslates := fun {m} => @Run.translates _ m lastPageConfig_ok
  have hfits₁ : (Request.map 0x100000 0x10000 0x20000 0 true).Fits lastPageConfig (new lastPageConfig) :=
    show 16 + 6 ≤ 40 by decide
  obtain ⟨m₁, hret₁, hstate₁⟩ := (htranslates .new).request (fun _ => 0) _ (by decide) hfits₁
  have h₁ : Run lastPageConfig m₁ := .request _ _ .new (by decide) hfits₁ hret₁
  have hfits₂ : (Request.unmap 0x104000 0x2000).Fits lastPageConfig m₁ :=
    ⟨fun _ => hexpand m₁ _, fun h => absurd h (by decide)⟩
  obtain ⟨m₂, hret₂, hstate₂⟩ := (htranslates h₁).request (fun _ => 0) _ (by decide) hfits₂
  have h₂ : Run lastPageConfig m₂ := .request _ _ h₁ (by decide) hfits₂ hret₂
  have hfits₃ : (Request.map 0x105000 0x50000 0x1000 0 false).Fits lastPageConfig m₂ :=
    ⟨hexpand m₂ _, by decide, by decide⟩
  obtain ⟨m₃, hret₃, hstate₃⟩ := (htranslates h₂).request (fun _ => 0) _ (by decide) hfits₃
  have h₃ : Run lastPageConfig m₃ := .request _ _ h₂ (by decide) hfits₃ hret₃
  refine ⟨m₃, h₃, htranslates h₃, fun a => ?_⟩
  rw [hstate₃, hstate₂, hstate₁, gpuToCpuAddress_new lastPageConfig_ok]
  by_cases hthird : (Request.map 0x105000 0x50000 0x1000 0 false).Covers a
  · rw [if_pos hthird, if_pos (show 0x105000 ≤ a ∧ a < 0x105000 + 0x1000 from hthird)]
    rfl
  rw [if_neg hthird, if_neg (show ¬(0x105000 ≤ a ∧ a < 0x105000 + 0x1000) from hthird)]
  by_cases hsecond : (Request.unmap 0x104000 0x2000).Covers a
  · rw [if_pos hsecond, if_pos (show 0x104000 ≤ a ∧ a < 0x104000 + 0x2000 from hsecond)]
    rfl
  rw [if_neg hsecond, if_neg (show ¬(0x104000 ≤ a ∧ a < 0x104000 + 0x2000) from hsecond)]
  by_cases hfirst : (Request.map 0x100000 0x10000 0x20000 0 true).Covers a
  · rw [if_pos hfirst, if_pos (show 0x100000 ≤ a ∧ a < 0x100000 + 0x20000 from hfirst)]
    rfl
  · rw [if_neg hfirst, if_neg (show ¬(0x100000 ≤ a ∧ a < 0x100000 + 0x20000) from hfirst)]

/-- The request for the last page. -/
def lastPage : Request := .map (2 ^ 40 - 0x1000) 0 0x1000 0 false

/-- The last page is not: `ReserveRange` runs past the first level of the page table. -/
theorem lastPage_faults : lastPageConfig.Ok ∧ Run lastPageConfig (new lastPageConfig) ∧
    lastPage.Valid lastPageConfig ∧ lastPage.exec (fun _ => 0) (new lastPageConfig) = .fault ∧
    ¬ ∃ m' held, lastPage.exec (fun _ => 0) (new lastPageConfig) = .ret m' held ∧
      m'.gpuToCpuAddress (2 ^ 40 - 1) = .ret (some 0xfff) true := by
  have hfault : lastPage.exec (fun _ => 0) (new lastPageConfig) = .fault := rfl
  refine ⟨lastPageConfig_ok, .new, by decide, hfault, ?_⟩
  rintro ⟨m', held, hret, -⟩
  rw [hfault] at hret
  cases hret

end MemoryManager
end Tegra
end NXEmu
