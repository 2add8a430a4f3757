/-
# The kinds of pages of a memory manager

`src/yuzu_video_core/memory_manager.cpp`: `kind_map` is a range map of the kinds, and `PageTableOp` and
`BigPageTableOp` map their range in it.  As long as requests cover whole pages, all addresses of a small page have
one kind, and all of a mapped big page too (`Kinds`), so that `GetPageKind` of its first address is good for the page.
A big page that is expanded passes the kind of its first address on to all its small ones.

A mapping of no pages maps an empty range, which may change the kinds behind it, and an address of 63 bits or
more is no key of the range map.  So the runs here have neither (`KindRun`).
-/

import NXEmu.VideoCore.GranularRange

namespace NXEmu
namespace Tegra

open Exec Function Common

/-- Two addresses of one page are both in a range of whole pages, or both are not. -/
theorem mem_range_iff {k start stop a b : ℕ} (hk : 0 < k) (hstart : k ∣ start) (hstop : k ∣ stop)
    (hab : a / k = b / k) : (start ≤ a ∧ a < stop) ↔ (start ≤ b ∧ b < stop) := by
  obtain ⟨lo, rfl⟩ := hstart
  obtain ⟨hi, rfl⟩ := hstop
  rw [Nat.mul_comm k lo, Nat.mul_comm k hi, ← Nat.le_div_iff_mul_le hk, ← Nat.le_div_iff_mul_le hk,
    ← Nat.div_lt_iff_lt_mul hk, ← Nat.div_lt_iff_lt_mul hk, hab]

theorem Words.getEntry_wlp {v : Words} {i : ℕ} : wlp (v.getEntry i) fun e _ => e = v.entry i := by
  by_cases hi : i / 32 < v.size
  · rw [Words.getEntry_eq hi, wlp_ret]
  · rw [Words.getEntry, Words.get, if_neg hi, fault_bind]
    exact wlp_fault

namespace MemoryManager

variable {getPointer : GetPointer} {c : Config} {m m' m'' : MemoryManager} {entryType : EntryType}
  {gpuAddr devAddr size start stop base : ℕ} {kind : PTEKind}

/-! ### What changes neither kinds nor big pages -/

/-- No kind and no entry of a big page changes. -/
structure KeepsKinds (m m' : MemoryManager) : Prop where
  config : m'.toConfig = m.toConfig
  kindMap : m'.kindMap = m.kindMap
  bigEntries : m'.bigEntries = m.bigEntries

theorem KeepsKinds.refl (m : MemoryManager) : KeepsKinds m m := ⟨rfl, rfl, rfl⟩

theorem KeepsKinds.trans (h : KeepsKinds m m') (h' : KeepsKinds m' m'') : KeepsKinds m m'' :=
  ⟨h'.config.trans h.config, h'.kindMap.trans h.kindMap, h'.bigEntries.trans h.bigEntries⟩

theorem keepsKinds_setEntry (m : MemoryManager) (position : ℕ) (entry : EntryType) :
    wlp (m.setEntry false position entry) fun m' _ => KeepsKinds m m' := by
  rw [setEntry]
  simp only [Bool.false_eq_true, if_false, wlp_bind]
  exact fun entries _ _ => wlp_ret.2 ⟨rfl, rfl, rfl⟩

theorem keepsKinds_setPage (m : MemoryManager) (a d : ℕ) :
    wlp (m.setPage entryType a d) fun m' _ => KeepsKinds m m' := by
  rw [setPage, wlp_bind]
  refine wlp_mono (keepsKinds_setEntry m a entryType) fun m₁ _ h₁ => ?_
  split_ifs
  · rw [setPageTable, wlp_bind]
    exact fun pageTable _ _ => wlp_ret.2 (h₁.trans ⟨rfl, rfl, rfl⟩)
  · exact wlp_ret.2 h₁

theorem keepsKinds_reservePages (m : MemoryManager) :
    wlp (m.reservePages entryType gpuAddr size) fun m' _ => KeepsKinds m m' := by
  rw [reservePages]
  split_ifs
  · rw [wlp_bind]
    exact fun pageTable _ _ => wlp_ret.2 ⟨rfl, rfl, rfl⟩
  · exact wlp_ret.2 (.refl m)

theorem keepsKinds_forOffsets {step : ℕ} {body : MemoryManager → ℕ → Exec MemoryManager} (m : MemoryManager)
    (hbody : ∀ m' offset, wlp (body m' offset) fun m'' _ => KeepsKinds m' m'') :
    wlp (forOffsets size step m body) fun m' _ => KeepsKinds m m' :=
  wlp_foldlM_range (I := fun _ m' => KeepsKinds m m')
    (fun _ m' _ h => wlp_mono (hbody m' _) fun _ _ h' => h.trans h') (.refl m)

theorem keepsKinds_clearSmallPages (m : MemoryManager) :
    wlp (m.clearSmallPages gpuAddr) fun m' _ => KeepsKinds m m' :=
  keepsKinds_forOffsets m fun m' _ => keepsKinds_setEntry m' _ _

theorem keepsKinds_setBigPageTable (m : MemoryManager) (index : ℕ) :
    wlp (m.setBigPageTable getPointer index devAddr) fun m' _ => KeepsKinds m m' := by
  rw [setBigPageTable, wlp_bind]
  exact fun continuous _ _ => wlp_ret.2 ⟨rfl, rfl, rfl⟩

/-! ### Pages of one kind -/

/-- All addresses of a small page have one kind, and all addresses of a mapped big page. -/
structure Kinds (c : Config) (m : MemoryManager) : Prop where
  config : m.toConfig = c
  bits : c.addressSpaceBits < 63
  canonical : m.kindMap.Canonical
  small : ∀ a b, a / c.pageSize = b / c.pageSize → m.getPageKind a = m.getPageKind b
  big : ∀ a b, a / c.bigPageSize = b / c.bigPageSize → m.bigEntries.entry (a / c.bigPageSize) = .mapped →
    m.getPageKind a = m.getPageKind b

theorem Kinds.keeps (h : Kinds c m) (h' : KeepsKinds m m') : Kinds c m' where
  config := h'.config.trans h.config
  bits := h.bits
  canonical := h'.kindMap.symm ▸ h.canonical
  small a b hab := by
    rw [getPageKind, getPageKind, h'.kindMap]
    exact h.small a b hab
  big a b hab hmapped := by
    rw [h'.bigEntries] at hmapped
    rw [getPageKind, getPageKind, h'.kindMap]
    exact h.big a b hab hmapped

theorem kinds_new (hbits : c.addressSpaceBits < 63) : Kinds c (new c) := by
  have hkind : ∀ a, (new c).getPageKind a = .invalid := fun a =>
    RangeMap.getValueAt_of_entry (e := (minKey, PTEKind.invalid)) (l := []) (r := []) rfl (Int.natCast_nonneg a)
      ((show minKey ≤ 0 by decide).trans (Int.natCast_nonneg a)) nofun
  exact ⟨rfl, hbits, RangeMap.canonical_new _, fun a b _ => (hkind a).trans (hkind b).symm,
    fun a b _ _ => (hkind a).trans (hkind b).symm⟩

/-- **What `kind_map.Map` does** to a range of the address space that is not empty: the addresses of the range have
the kind and the others keep theirs. -/
theorem mapKind_spec (hbits : c.addressSpaceBits < 63) (h : m.kindMap.Canonical) (hlt : start < stop)
    (hlimit : stop ≤ c.addressSpaceSize) (kind : PTEKind) : (m.mapKind start stop kind).kindMap.Canonical ∧
      ∀ a, (m.mapKind start stop kind).getPageKind a = if start ≤ a ∧ a < stop then kind else m.getPageKind a := by
  have hkey : stop < 2 ^ 63 := Nat.lt_of_le_of_lt hlimit (Nat.pow_lt_pow_right (by decide) hbits)
  have hint : ∀ n ≤ stop, (BitVec.ofNat 64 n).toInt = n := fun n hn => by
    rw [BitVec.toInt_eq_toNat_of_lt] <;> rw [BitVec.toNat_ofNat, Nat.mod_eq_of_lt] <;> omega
  have hmap : (m.mapKind start stop kind).kindMap = m.kindMap.internalMap start stop kind := by
    rw [mapKind, RangeMap.map_eq (by rw [hint start hlt.le]; omega) (by rw [hint stop le_rfl]; omega),
      hint start hlt.le, hint stop le_rfl]
  obtain ⟨hcanonical, hvalue⟩ := h.internalMap (a := start) (b := stop) (v := kind) (by omega) (by omega)
    (by rw [maxKey]; omega) fun hempty => hlt.ne (Int.ofNat.inj hempty.1)
  refine ⟨hmap ▸ hcanonical, fun a => ?_⟩
  rw [getPageKind, hmap, hvalue a (Int.natCast_nonneg a)]
  simp only [Int.ofNat_le, Int.ofNat_lt, getPageKind]

/-- A range of whole small pages has a mapped big page as a whole, or nothing of it. -/
def Whole (c : Config) (m : MemoryManager) (start stop : ℕ) : Prop :=
  ∀ a b, a / c.bigPageSize = b / c.bigPageSize → m.bigEntries.entry (a / c.bigPageSize) = .mapped →
    ((start ≤ a ∧ a < stop) ↔ (start ≤ b ∧ b < stop))

/-- **A kind for a range.** -/
theorem Kinds.mapKind (h : Kinds c m) (hstart : c.pageSize ∣ start) (hstop : c.pageSize ∣ stop)
    (hlt : start < stop) (hlimit : stop ≤ c.addressSpaceSize) (hwhole : m.Whole c start stop) (kind : PTEKind) :
    Kinds c (m.mapKind start stop kind) := by
  obtain ⟨hcanonical, hkind⟩ := mapKind_spec h.bits h.canonical hlt hlimit kind
  refine ⟨h.config, h.bits, hcanonical, fun a b hab => ?_, fun a b hab hmapped => ?_⟩
  · rw [hkind, hkind, h.small a b hab]
    simp only [mem_range_iff c.pageSize_pos hstart hstop hab]
  · rw [hkind, hkind, h.big a b hab hmapped]
    simp only [hwhole a b hab hmapped]

/-- **`PageTableOp`** on such a range. -/
theorem kinds_pageTableOp (h : Kinds c m) (hstart : c.pageSize ∣ start) (hsize : c.pageSize ∣ size)
    (hpos : 0 < size) (hlimit : start + size ≤ c.addressSpaceSize) (hwhole : m.Whole c start (start + size)) :
    wlp (m.pageTableOp entryType start devAddr size kind) fun m' _ => Kinds c m' ∧ m'.bigEntries = m.bigEntries ∧
      ∀ a, start ≤ a → a < start + size → m'.getPageKind a = kind := by
  rw [pageTableOp, wlp_bind]
  refine wlp_mono (keepsKinds_reservePages m) fun m₁ _ h₁ => wlp_bind.2 ?_
  refine wlp_mono (keepsKinds_forOffsets m₁ fun m' _ => keepsKinds_setPage m' _ _) fun m₂ _ h₂ => wlp_ret.2 ?_
  have hkeeps := h₁.trans h₂
  have hlt : start < start + size := by omega
  have hkinds := h.keeps hkeeps
  refine ⟨hkinds.mapKind hstart (Nat.dvd_add hstart hsize) hlt hlimit (fun a b hab hmapped => ?_) kind,
    hkeeps.bigEntries, fun a ha ha' => ?_⟩
  · rw [hkeeps.bigEntries] at hmapped
    exact hwhole a b hab hmapped
  · rw [(mapKind_spec h.bits hkinds.canonical hlt hlimit kind).2, if_pos ⟨ha, ha'⟩]

/-- The body of the loop of `PrepareSmallPageMapping`. -/
theorem kinds_prepareSmallPage (hc : c.Ok) (h : Kinds c m) (hbase : c.bigPageSize ∣ base)
    (hlimit : base + c.bigPageSize ≤ c.addressSpaceSize) :
    wlp (m.prepareSmallPage base) fun m' _ => Kinds c m' ∧
      m'.bigEntries.entry = update m.bigEntries.entry (base / c.bigPageSize) .smallPages := by
  have hwhole : m.Whole c base (base + c.bigPageSize) := fun a b hab _ =>
    mem_range_iff c.bigPageSize_pos hbase (Nat.dvd_add hbase (Nat.dvd_refl _)) hab
  have hpage : c.pageSize ∣ base := Nat.dvd_trans hc.dvd_bigPageSize hbase
  rw [prepareSmallPage, wlp_bind, getEntry, if_pos rfl, h.config]
  refine wlp_mono Words.getEntry_wlp fun oldEntry _ hold => ?_
  split_ifs with hsmall
  · refine wlp_ret.2 ⟨h, (update_eq_self_iff.2 ?_).symm⟩
    rw [← hsmall, hold]
  · have hexpand : wlp (m.expandBigPage oldEntry base) fun m' _ => Kinds c m' ∧ m'.bigEntries = m.bigEntries := by
      rw [expandBigPage, h.config]
      split_ifs
      · exact wlp_mono (kinds_pageTableOp h hpage hc.dvd_bigPageSize c.bigPageSize_pos hlimit hwhole)
          fun _ _ h' => ⟨h'.1, h'.2.1⟩
      · exact wlp_mono (kinds_pageTableOp h hpage hc.dvd_bigPageSize c.bigPageSize_pos hlimit hwhole)
          fun _ _ h' => ⟨h'.1, h'.2.1⟩
      · exact wlp_ret.2 ⟨h, rfl⟩
    rw [wlp_bind]
    refine wlp_mono hexpand fun m₁ _ h₁ => ?_
    obtain ⟨hkinds, hbig⟩ := h₁
    rw [setEntry, if_pos rfl, wlp_bind, hkinds.config, hbig]
    refine wlp_mono Words.setEntry_wlp fun bigEntries _ hentries => wlp_ret.2 ?_
    have hentry : bigEntries.entry = update m.bigEntries.entry (base / c.bigPageSize) .smallPages := by
      rw [hentries]
      exact funext fun j => Words.entry_putEntry.trans (update_apply ..).symm
    refine ⟨⟨rfl, hkinds.bits, hkinds.canonical, hkinds.small, fun a b hab hmapped => ?_⟩, hentry⟩
    -- a page that is mapped still was before
    refine hkinds.big a b hab ?_
    dsimp only at hmapped
    rw [hentry, update_apply] at hmapped
    rw [hbig]
    split_ifs at hmapped
    exact hmapped

/-- The rule of the loops over pages, for bodies that may fault. -/
theorem wlp_forOffsets {I : ℕ → MemoryManager → Prop} {body : MemoryManager → ℕ → Exec MemoryManager} {step n : ℕ}
    (hn : (size + step - 1) / step = n)
    (hbody : ∀ i m, i < n → I i m → wlp (body m (i * step)) fun m' _ => I (i + 1) m') (h : I 0 m) :
    wlp (forOffsets size step m body) fun m' _ => I n m' := by
  rw [forOffsets, hn]
  exact wlp_foldlM_range hbody h

/-- **`PrepareSmallPageMapping`**: the big pages of the range have small ones. -/
theorem kinds_prepareSmallPageMapping (hc : c.Ok) (h : Kinds c m) (hlimit : start + size ≤ c.addressSpaceSize) :
    wlp (m.prepareSmallPageMapping start size) fun m' _ => Kinds c m' ∧
      ∀ a, start ≤ a → a < start + size → m'.bigEntries.entry (a / c.bigPageSize) = .smallPages := by
  rw [prepareSmallPageMapping]
  split_ifs with hsize
  · exact wlp_ret.2 ⟨h, fun a _ _ => by omega⟩
  have hpos := c.bigPageSize_pos
  obtain ⟨first, hfirst⟩ : ∃ first, first = start / c.bigPageSize := ⟨_, rfl⟩
  obtain ⟨last, hlast⟩ : ∃ last, last = (start + size - 1) / c.bigPageSize := ⟨_, rfl⟩
  have hle : first ≤ last := by
    rw [hfirst, hlast]
    exact Nat.div_le_div_right (by omega)
  have hinside : (last + 1) * c.bigPageSize ≤ c.addressSpaceSize := by
    obtain ⟨n, hn⟩ := hc.dvd_addressSpaceSize
    have hlt : last < n := hlast ▸ (Nat.div_lt_iff_lt_mul hpos).2 (by rw [Nat.mul_comm, ← hn]; omega)
    rw [hn, Nat.mul_comm]
    exact Nat.mul_le_mul_left _ hlt
  rw [h.config, ← hfirst, ← hlast]
  refine wlp_mono (wlp_forOffsets (I := fun k m' => Kinds c m' ∧
    ∀ j, first ≤ j → j < first + k → m'.bigEntries.entry j = .smallPages) (rounds_pages hle hpos)
    (fun k m' hk hI => ?_) ⟨h, fun j _ _ => by omega⟩) fun m' _ h' => ⟨h'.1, fun a ha ha' => h'.2 _ ?_ ?_⟩
  · have hpage : (first + k) * c.bigPageSize + c.bigPageSize ≤ c.addressSpaceSize := by
      rw [← Nat.succ_mul]
      exact Nat.le_trans (Nat.mul_le_mul_right _ (by omega)) hinside
    rw [← Nat.add_mul]
    refine wlp_mono (kinds_prepareSmallPage hc hI.1 (Nat.dvd_mul_left ..) hpage) fun m'' _ h'' => ⟨h''.1, fun j hj hj' => ?_⟩
    rw [h''.2, Nat.mul_div_cancel _ hpos, update_apply]
    split_ifs
    · rfl
    · exact hI.2 j hj (by omega)
  · rw [hfirst]
    exact Nat.div_le_div_right ha
  · have : a / c.bigPageSize ≤ last := hlast ▸ Nat.div_le_div_right (by omega)
    omega

/-- A range of small pages. -/
theorem kinds_fillSmall (hc : c.Ok) (h : Kinds c m) (hstart : c.pageSize ∣ start) (hsize : c.pageSize ∣ size)
    (hpos : 0 < size) (hlimit : start + size ≤ c.addressSpaceSize) :
    wlp (m.prepareSmallPageMapping start size >>= fun m => m.pageTableOp entryType start devAddr size kind)
      fun m' _ => Kinds c m' ∧ ∀ a, start ≤ a → a < start + size → m'.getPageKind a = kind := by
  rw [wlp_bind]
  refine wlp_mono (kinds_prepareSmallPageMapping hc h hlimit) fun m₁ _ h₁ => ?_
  have hout : ∀ a, m₁.bigEntries.entry (a / c.bigPageSize) = .mapped → ¬(start ≤ a ∧ a < start + size) := by
    intro a hmapped hin
    rw [h₁.2 a hin.1 hin.2] at hmapped
    cases hmapped
  refine wlp_mono (kinds_pageTableOp h₁.1 hstart hsize hpos hlimit fun a b hab hmapped => ?_) fun _ _ h₂ =>
    ⟨h₂.1, h₂.2.2⟩
  exact iff_of_false (hout a hmapped) (hout b (hab ▸ hmapped))

/-- The body of the loop of `BigPageTableOp`. -/
theorem setBigPage_wlp (hm : m.toConfig = c) (a : ℕ) :
    wlp (m.setBigPage getPointer entryType a devAddr) fun m' _ => m'.toConfig = c ∧ m'.kindMap = m.kindMap ∧
      m'.bigEntries.entry = update m.bigEntries.entry (a / c.bigPageSize) entryType := by
  have hclear : ∀ oldEntry, wlp (if oldEntry = EntryType.smallPages then m.clearSmallPages a else return m : Exec MemoryManager)
      fun m' _ => KeepsKinds m m' := by
    intro oldEntry
    split_ifs
    · exact keepsKinds_clearSmallPages m
    · exact wlp_ret.2 (.refl m)
  rw [setBigPage, wlp_bind]
  intro oldEntry _ _
  rw [wlp_bind]
  refine wlp_mono (hclear oldEntry) fun m₁ _ h₁ => ?_
  rw [setEntry, if_pos rfl, bind_assoc, wlp_bind, h₁.config, hm, h₁.bigEntries]
  refine wlp_mono Words.setEntry_wlp fun bigEntries _ hentries => ?_
  have hentry : bigEntries.entry = update m.bigEntries.entry (a / c.bigPageSize) entryType := by
    rw [hentries]
    exact funext fun j => Words.entry_putEntry.trans (update_apply ..).symm
  rw [pure_eq, ret_true_bind]
  split_ifs
  · refine wlp_mono (keepsKinds_setBigPageTable _ _) fun m₂ _ h₂ => ?_
    rw [h₂.config, h₂.kindMap, h₂.bigEntries]
    exact ⟨rfl, h₁.kindMap, hentry⟩
  · exact wlp_ret.2 ⟨rfl, h₁.kindMap, hentry⟩

/-- **`BigPageTableOp`** on a range of big pages. -/
theorem kinds_bigPageTableOp (hc : c.Ok) (h : Kinds c m) (hstart : c.bigPageSize ∣ start)
    (hsize : c.bigPageSize ∣ size) (hsizePos : 0 < size) (hlimit : start + size ≤ c.addressSpaceSize) :
    wlp (m.bigPageTableOp getPointer entryType start devAddr size kind) fun m' _ =>
      Kinds c m' ∧ ∀ a, start ≤ a → a < start + size → m'.getPageKind a = kind := by
  have hpos := c.bigPageSize_pos
  have hstop := Nat.dvd_add hstart hsize
  have hpage : ∀ {k}, c.bigPageSize ∣ k → c.pageSize ∣ k := Nat.dvd_trans hc.dvd_bigPageSize
  obtain ⟨lo, hlo⟩ : ∃ lo, start = lo * c.bigPageSize := ⟨_, (Nat.div_mul_cancel hstart).symm⟩
  obtain ⟨n, hn⟩ : ∃ n, size = n * c.bigPageSize := ⟨_, (Nat.div_mul_cancel hsize).symm⟩
  rw [bigPageTableOp, wlp_bind, h.config]
  refine wlp_mono (wlp_forOffsets (I := fun k m' => m'.toConfig = c ∧ m'.kindMap = m.kindMap ∧
    ∀ j, ¬(lo ≤ j ∧ j < lo + n) → m'.bigEntries.entry j = m.bigEntries.entry j) (hn ▸ rounds_mul n hpos)
    (fun k m' hk hI => ?_) ⟨h.config, rfl, fun _ _ => rfl⟩) fun m₁ _ h₁ => wlp_ret.2 ?_
  · refine wlp_mono (setBigPage_wlp hI.1 _) fun m'' _ h'' => ⟨h''.1, h''.2.1.trans hI.2.1, fun j hj => ?_⟩
    rw [h''.2.2, hlo, ← Nat.add_mul, Nat.mul_div_cancel _ hpos, update_of_ne (by omega)]
    exact hI.2.2 j hj
  · obtain ⟨hconfig, hkind, hentry⟩ := h₁
    obtain ⟨hcanonical, hmap⟩ := @mapKind_spec c m₁ start (start + size) h.bits (hkind.symm ▸ h.canonical)
      (by omega) hlimit kind
    have hkept : ∀ a, m₁.getPageKind a = m.getPageKind a := fun a => by rw [getPageKind, hkind, getPageKind]
    refine ⟨⟨hconfig, h.bits, hcanonical, fun a b hab => ?_, fun a b hab hmapped => ?_⟩, fun a ha ha' => ?_⟩
    · rw [hmap, hmap, hkept, hkept, h.small a b hab]
      simp only [mem_range_iff c.pageSize_pos (hpage hstart) (hpage hstop) hab]
    · rw [hmap, hmap, hkept, hkept]
      simp only [mem_range_iff hpos hstart hstop hab]
      split_ifs with hb
      · rfl
      · -- the page is not in the range, so it was mapped before
        refine h.big a b hab ((hentry _ fun hin => hb ?_).symm.trans hmapped)
        rw [hlo, hn, ← Nat.add_mul]
        exact (div_mem_iff hpos).1 (hab ▸ hin)
    · rw [hmap, if_pos ⟨ha, ha'⟩]

/-- An end of the range of `Unmap`. -/
theorem kinds_unmapSmall (hc : c.Ok) (h : Kinds c m) (hstart : c.pageSize ∣ start) (hstop : c.pageSize ∣ stop)
    (hlimit : stop ≤ c.addressSpaceSize) : wlp (m.unmapSmall start stop) fun m' _ => Kinds c m' := by
  rw [unmapSmall]
  split_ifs
  · exact wlp_mono (kinds_fillSmall hc h hstart (Nat.dvd_sub hstop hstart) (by omega) (by omega)) fun _ _ h' => h'.1
  · exact wlp_ret.2 h

/-- **`Unmap`**: where the big pages begin and end, small ones do too. -/
theorem kinds_unmap (hc : c.Ok) (h : Kinds c m) (hstart : c.pageSize ∣ start) (hsize : c.pageSize ∣ size)
    (hlimit : start + size ≤ c.addressSpaceSize) : wlp (m.unmap getPointer start size) fun m' _ => Kinds c m' := by
  rw [unmap]
  split_ifs with hzero
  · exact wlp_ret.2 h
  obtain ⟨up, hup⟩ : ∃ up, up = (start + c.bigPageSize - 1) / c.bigPageSize * c.bigPageSize := ⟨_, rfl⟩
  obtain ⟨down, hdown⟩ : ∃ down, down = (start + size) / c.bigPageSize * c.bigPageSize := ⟨_, rfl⟩
  have hupdvd : c.bigPageSize ∣ up := hup ▸ Nat.dvd_mul_left ..
  have hdowndvd : c.bigPageSize ∣ down := hdown ▸ Nat.dvd_mul_left ..
  have hdownle : down ≤ start + size := hdown ▸ Nat.div_mul_le_self ..
  have hstop : c.pageSize ∣ start + size := Nat.dvd_add hstart hsize
  have hfirst : c.pageSize ∣ min (start + size) up := by
    rcases Nat.le_total (start + size) up with hle | hle
    · rwa [Nat.min_eq_left hle]
    · rw [Nat.min_eq_right hle]
      exact Nat.dvd_trans hc.dvd_bigPageSize hupdvd
  have hlast : c.pageSize ∣ max (min (start + size) up) down := by
    rcases Nat.le_total (min (start + size) up) down with hle | hle
    · rw [Nat.max_eq_right hle]
      exact Nat.dvd_trans hc.dvd_bigPageSize hdowndvd
    · rwa [Nat.max_eq_left hle]
  rw [h.config]
  dsimp only
  rw [← hup, ← hdown]
  refine wlp_bind.2 (wlp_mono (kinds_unmapSmall hc h hstart hfirst (by omega)) fun m₁ _ h₁ => wlp_bind.2 ?_)
  have hbig : wlp (m₁.unmapBig getPointer (min (start + size) up) down) fun m' _ => Kinds c m' := by
    rw [unmapBig]
    split_ifs with hlt
    · have heq : min (start + size) up = up := by omega
      rw [heq]
      exact wlp_mono (kinds_bigPageTableOp hc h₁ hupdvd (Nat.dvd_sub hdowndvd hupdvd) (by omega) (by omega))
        fun _ _ h' => h'.1
    · exact wlp_ret.2 h₁
  exact wlp_mono hbig fun m₂ _ h₂ => kinds_unmapSmall hc h₂ hlast hstop hlimit

end MemoryManager

/-- The request maps no empty range of kinds: `Unmap` of nothing returns at once. -/
def Request.MapsPages : Request → Prop
  | map _ _ size _ _ | mapSparse _ size _ => 0 < size
  | unmap _ _ => True

namespace MemoryManager

variable (getPointer) in
/-- **A request** keeps pages of one kind, and a mapping has its kind. -/
theorem exec_kinds (hc : c.Ok) (h : Kinds c m) {r : Request} (hr : r.Valid c) (hpages : r.MapsPages) :
    wlp (r.exec getPointer m) fun m' _ => Kinds c m' ∧ ∀ gpuAddr devAddr size kind isBigPages,
      r = .map gpuAddr devAddr size kind isBigPages → ∀ a, r.Covers a → m'.getPageKind a = kind := by
  cases r with
  | map gpuAddr devAddr size kind isBigPages =>
    obtain ⟨hstart, hsize, hlimit, -⟩ := hr
    have hfill : wlp (m.map getPointer gpuAddr devAddr size kind isBigPages) fun m' _ =>
        Kinds c m' ∧ ∀ a, gpuAddr ≤ a → a < gpuAddr + size → m'.getPageKind a = kind := by
      cases isBigPages with
      | true => exact kinds_bigPageTableOp hc h hstart hsize hpages hlimit
      | false => exact kinds_fillSmall hc h hstart hsize hpages hlimit
    refine wlp_mono hfill fun m' _ h' => ⟨h'.1, fun _ _ _ _ _ heq a ha => ?_⟩
    cases heq
    exact h'.2 a ha.1 ha.2
  | mapSparse gpuAddr size isBigPages =>
    obtain ⟨hstart, hsize, hlimit⟩ := hr
    have hfill : wlp (m.mapSparse getPointer gpuAddr size isBigPages) fun m' _ => Kinds c m' := by
      cases isBigPages with
      | true => exact wlp_mono (kinds_bigPageTableOp hc h hstart hsize hpages hlimit) fun _ _ h' => h'.1
      | false => exact wlp_mono (kinds_fillSmall hc h hstart hsize hpages hlimit) fun _ _ h' => h'.1
    exact wlp_mono hfill fun m' _ h' => ⟨h', nofun⟩
  | unmap gpuAddr size => exact wlp_mono (kinds_unmap hc h hr.1 hr.2.1 hr.2.2) fun m' _ h' => ⟨h', nofun⟩

/-- The managers reached by requests of which none maps an empty range. -/
inductive KindRun (c : Config) : MemoryManager → Prop
  | new : KindRun c (new c)
  | request {m m' : MemoryManager} {held : Bool} (getPointer : GetPointer) (r : Request)
    (run : KindRun c m) (valid : r.Valid c) (fits : r.Fits c m) (pages : r.MapsPages)
    (returned : r.exec getPointer m = .ret m' held) : KindRun c m'

theorem KindRun.run (h : KindRun c m) : Run c m := by
  induction h with
  | new => exact .new
  | request getPointer r run valid fits pages returned ih => exact .request getPointer r ih valid fits returned

/-- **Runs** keep pages of one kind. -/
theorem KindRun.kinds (hc : c.Ok) (hbits : c.addressSpaceBits < 63) (h : KindRun c m) : Kinds c m := by
  induction h with
  | new => exact kinds_new hbits
  | request getPointer r run valid fits pages returned ih =>
    exact (exec_kinds getPointer hc ih valid pages _ _ returned).1

end MemoryManager
end Tegra
end NXEmu
