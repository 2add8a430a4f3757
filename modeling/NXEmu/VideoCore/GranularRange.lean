/-
# Granular ranges of a memory manager

`yuzu_video_core/memory_manager.cpp`: `IsGranularRange` says that a range lies in one mapped page whose host memory
is contiguous, so that a pointer taken at its start is good for the whole range.  The bit that `BigPageTableOp` sets
for a big page says that the memory of its small pages is contiguous (`RunOver.flagged`).

For such a big page the code takes the offset of the range from the index of the page, and not from the address.
So it says yes to ranges that leave the page (`pageEnd_not_granular`).  It is right for every size exactly at the
addresses whose offset is no larger than the one that it takes (`isGranularRange_iff`), as far as the sum of that
offset and the size does not wrap around in `size_t`.
-/

import NXEmu.VideoCore.DeviceMemoryManager
import NXEmu.VideoCore.MemoryManagerRuns

namespace NXEmu
namespace Tegra

open Exec Nat

/-! ### What is not a mapped big page -/

theorem Words.setEntry_wlp {v : Words} {i : ℕ} {e : EntryType} :
    wlp (v.setEntry i e) fun v' _ => v' = v.putEntry i e := by
  by_cases hi : i / 32 < v.size
  · rw [Words.setEntry_eq hi, wlp_ret]
  · rw [Words.setEntry, Words.get, if_neg hi, fault_bind]
    exact wlp_fault

namespace MemoryManager

variable {getPointer : GetPointer} {c : Config} {m m' m'' : MemoryManager} {entryType : EntryType}
  {gpuAddr devAddr size start stop : ℕ} {kind : PTEKind}

/-- No big page was mapped. -/
structure Keeps (m m' : MemoryManager) : Prop where
  dev : m'.bigPageTableDev = m.bigPageTableDev
  continuous : m'.bigPageContinuous = m.bigPageContinuous
  big : ∀ j, m'.bigEntries.entry j = .mapped → m.bigEntries.entry j = .mapped

theorem Keeps.refl (m : MemoryManager) : Keeps m m := ⟨rfl, rfl, fun _ h => h⟩

theorem Keeps.trans (h : Keeps m m') (h' : Keeps m' m'') : Keeps m m'' :=
  ⟨h'.dev.trans h.dev, h'.continuous.trans h.continuous, fun j hj => h.big j (h'.big j hj)⟩

/-- One routine after the other. -/
theorem keeps_bind {α : Type} {x : Exec α} {f : α → Exec MemoryManager} {P : α → Prop}
    (hx : wlp x fun a _ => P a) (hf : ∀ a, P a → wlp (f a) fun m' _ => Keeps m m') :
    wlp (x >>= f) fun m' _ => Keeps m m' :=
  wlp_bind.2 (wlp_mono hx fun a _ ha => hf a ha)

theorem keeps_then {x : Exec MemoryManager} {f : MemoryManager → Exec MemoryManager}
    (hx : wlp x fun m' _ => Keeps m m') (hf : ∀ m', wlp (f m') fun m'' _ => Keeps m' m'') :
    wlp (x >>= f) fun m'' _ => Keeps m m'' :=
  keeps_bind hx fun m' h => wlp_mono (hf m') fun _ _ h' => h.trans h'

theorem keeps_setEntry (isBigPage : Bool) (m : MemoryManager) (position : ℕ)
    (hentry : isBigPage = true → entryType ≠ .mapped) :
    wlp (m.setEntry isBigPage position entryType) fun m' _ => Keeps m m' := by
  rw [setEntry]
  cases isBigPage with
  | false =>
    refine wlp_bind.2 (wlp_mono Words.setEntry_wlp fun v _ _ => ?_)
    exact wlp_ret.2 ⟨rfl, rfl, fun _ h => h⟩
  | true =>
    refine wlp_bind.2 (wlp_mono Words.setEntry_wlp fun v _ hv => ?_)
    refine wlp_ret.2 ⟨rfl, rfl, fun j hj => ?_⟩
    rw [hv, Words.entry_putEntry] at hj
    split_ifs at hj
    · exact absurd hj (hentry rfl)
    · exact hj

theorem keeps_forOffsets {step : ℕ} {body : MemoryManager → ℕ → Exec MemoryManager} (m : MemoryManager)
    (hbody : ∀ m' offset, wlp (body m' offset) fun m'' _ => Keeps m' m'') :
    wlp (forOffsets size step m body) fun m' _ => Keeps m m' :=
  wlp_foldlM_range (I := fun _ m' => Keeps m m')
    (fun _ m' _ h => wlp_mono (hbody m' _) fun _ _ h' => h.trans h') (.refl m)

theorem keeps_pageTableOp (m : MemoryManager) :
    wlp (m.pageTableOp entryType gpuAddr devAddr size kind) fun m' _ => Keeps m m' := by
  have hset : ∀ (m' : MemoryManager) a d, wlp (m'.setPage entryType a d) fun m'' _ => Keeps m' m'' := by
    intro m' a d
    refine keeps_then (keeps_setEntry false m' a nofun) fun m₁ => ?_
    split_ifs
    · refine keeps_bind (P := fun _ => True) (fun _ _ _ => trivial) fun t _ => ?_
      exact wlp_ret.2 ⟨rfl, rfl, fun _ h => h⟩
    · exact wlp_ret.2 (.refl m₁)
  rw [pageTableOp]
  refine keeps_then ?_ fun m₁ => keeps_then (keeps_forOffsets m₁ fun m' _ => hset m' _ _) fun m₂ => ?_
  · rw [reservePages]
    split_ifs
    · refine keeps_bind (P := fun _ => True) (fun _ _ _ => trivial) fun t _ => ?_
      exact wlp_ret.2 ⟨rfl, rfl, fun _ h => h⟩
    · exact wlp_ret.2 (.refl m)
  · exact wlp_ret.2 ⟨rfl, rfl, fun _ h => h⟩

theorem keeps_prepareSmallPageMapping (m : MemoryManager) :
    wlp (m.prepareSmallPageMapping gpuAddr size) fun m' _ => Keeps m m' := by
  rw [prepareSmallPageMapping]
  split_ifs
  · exact wlp_ret.2 (.refl m)
  · refine keeps_forOffsets m fun m' offset => ?_
    rw [prepareSmallPage]
    refine keeps_bind (P := fun _ => True) (fun _ _ _ => trivial) fun oldEntry _ => ?_
    split_ifs
    · exact wlp_ret.2 (.refl m')
    · refine keeps_then ?_ fun m₁ => keeps_setEntry true m₁ _ fun _ => by decide
      rw [expandBigPage]
      split_ifs
      · exact keeps_pageTableOp m'
      · exact keeps_pageTableOp m'
      · exact wlp_ret.2 (.refl m')

theorem keeps_bigPageTableOp (m : MemoryManager) (hentry : entryType ≠ .mapped) :
    wlp (m.bigPageTableOp getPointer entryType gpuAddr devAddr size kind) fun m' _ => Keeps m m' := by
  rw [bigPageTableOp]
  refine keeps_then (keeps_forOffsets m fun m' offset => ?_) fun m₁ => wlp_ret.2 ⟨rfl, rfl, fun _ h => h⟩
  rw [setBigPage]
  refine keeps_bind (P := fun _ => True) (fun _ _ _ => trivial) fun oldEntry _ => ?_
  refine keeps_then ?_ fun m₁ => keeps_then (keeps_setEntry true m₁ _ fun _ => hentry) fun m₂ => ?_
  · split_ifs
    · exact keeps_forOffsets m' fun m'' _ => keeps_setEntry false m'' _ (by simp)
    · exact wlp_ret.2 (.refl m')
  · rw [if_neg hentry]
    exact wlp_ret.2 (.refl m₂)

theorem keeps_unmap (m : MemoryManager) : wlp (m.unmap getPointer gpuAddr size) fun m' _ => Keeps m m' := by
  have hsmall : ∀ (m' : MemoryManager) start stop, wlp (m'.unmapSmall start stop) fun m'' _ => Keeps m' m'' := by
    intro m' start stop
    rw [unmapSmall]
    split_ifs
    · exact keeps_then (keeps_prepareSmallPageMapping m') fun m'' => keeps_pageTableOp m''
    · exact wlp_ret.2 (.refl m')
  rw [unmap]
  split_ifs
  · exact wlp_ret.2 (.refl m)
  · refine keeps_then (hsmall m _ _) fun m₁ => keeps_then ?_ fun m₂ => hsmall m₂ _ _
    rw [unmapBig]
    split_ifs
    · exact keeps_bigPageTableOp m₁ (by decide)
    · exact wlp_ret.2 (.refl m₁)

/-! ### Memory -/

end MemoryManager

/-- Device memory: each of its pages is contiguous, or there is nothing. -/
structure DeviceMemory where
  getPointer : GetPointer
  page : ∀ address, getPointer address = if getPointer (address / cpuPageSize * cpuPageSize) = 0 then 0
    else getPointer (address / cpuPageSize * cpuPageSize) + address % cpuPageSize

/-- The memory behind a device memory manager. -/
def DeviceMemory.ofManager {bits : ℕ} (d : Core.DeviceMemoryManager bits) (physicalBase : ℕ)
    (hbase : 0 < physicalBase) : DeviceMemory where
  getPointer address := ((d.getPointer address).map (physicalBase + ·)).getD 0
  page address := by
    have hpage : address / cpuPageSize * cpuPageSize / Core.devicePageSize = address / Core.devicePageSize :=
      Nat.mul_div_cancel _ (by decide)
    have hoffset : address / cpuPageSize * cpuPageSize % Core.devicePageSize = 0 := Nat.mul_mod_left ..
    rw [Core.DeviceMemoryManager.getPointer, Core.DeviceMemoryManager.getPointer, hpage, hoffset]
    split_ifs with hnone hzero hzero
    · rfl
    · exact absurd rfl hzero
    · simp at hzero
      omega
    · simp [Core.DeviceMemoryManager.rawAddress, Nat.add_assoc]

/-- A range in one page. -/
theorem DeviceMemory.getPointer_add (memory : DeviceMemory) {devAddr i : ℕ} (hne : memory.getPointer devAddr ≠ 0)
    (hin : devAddr % cpuPageSize + i < cpuPageSize) :
    memory.getPointer (devAddr + i) = memory.getPointer devAddr + i := by
  have hpage : (devAddr + i) / cpuPageSize = devAddr / cpuPageSize := by
    simp only [cpuPageSize] at *
    omega
  have hoffset : (devAddr + i) % cpuPageSize = devAddr % cpuPageSize + i := by
    simp only [cpuPageSize] at *
    omega
  have hstart := memory.page devAddr
  have hnext := memory.page (devAddr + i)
  rw [hpage, hoffset] at hnext
  split_ifs at hstart hnext
  · exact absurd hstart hne
  · omega

namespace MemoryManager

variable {getPointer : GetPointer} {c : Config} {m m' : MemoryManager} {devAddr size a : ℕ}

/-- What the loop of `BigPageTableOp` finds: the small pages follow each other. -/
theorem isContinuous_spec (hc : c.Ok) (h : isContinuous getPointer c devAddr = true) {k : ℕ}
    (hk : k < c.pagesPerBig) : getPointer devAddr ≠ 0 ∧
      getPointer (devAddr + k * c.pageSize) = getPointer devAddr + k * c.pageSize := by
  rw [isContinuous, Bool.and_eq_true, decide_eq_true_eq] at h
  refine ⟨h.1, ?_⟩
  rcases k with _ | k
  · simp
  · have hrounds : (c.bigPageSize - c.pageSize + c.pageSize - 1) / c.pageSize = c.pagesPerBig - 1 := by
      obtain ⟨n, hn⟩ : ∃ n, c.pagesPerBig = n + 1 := ⟨c.pagesPerBig - 1, by omega⟩
      rw [hc.bigPageSize_eq, hn, succ_mul, Nat.add_sub_cancel, rounds_mul n c.pageSize_pos]
      rfl
    have hnext := List.all_eq_true.1 h.2 k (by rw [hrounds, List.mem_range]; omega)
    simp only [Bool.and_eq_true, decide_eq_true_eq] at hnext
    rw [hnext.2, add_assoc]
    congr 2
    rw [succ_mul, add_comm]

/-- The managers reached by requests over one device memory. -/
inductive RunOver (getPointer : GetPointer) (c : Config) : MemoryManager → Prop
  | new : RunOver getPointer c (new c)
  | request {m m' : MemoryManager} {held : Bool} (r : Request) (run : RunOver getPointer c m) (valid : r.Valid c)
    (fits : r.Fits c m) (returned : r.exec getPointer m = .ret m' held) : RunOver getPointer c m'

theorem RunOver.run (h : RunOver getPointer c m) : Run c m := by
  induction h with
  | new => exact .new
  | request r _ valid fits returned ih => exact .request getPointer r ih valid fits returned

/-- Mapped big pages have a bit, and the memory of those where it is set is contiguous. -/
structure Flagged (getPointer : GetPointer) (c : Config) (t : Tables) : Prop where
  bits : ∀ j, t.big j = .mapped → c.bigPageBits + 6 ≤ c.addressSpaceBits
  contiguous : ∀ j, t.big j = .mapped → t.continuous j = true → isContinuous getPointer c (t.bigDev j) = true

theorem Keeps.flagged (h : Keeps m m') (hflagged : Flagged getPointer c m.tables) :
    Flagged getPointer c m'.tables := by
  refine ⟨fun j hbig => hflagged.bits j (h.big j hbig), fun j hbig hcontinuous => ?_⟩
  have hold := hflagged.contiguous j (h.big j hbig)
  simp only [tables] at hold hcontinuous ⊢
  rw [h.dev]
  rw [h.continuous] at hcontinuous
  exact hold hcontinuous

/-- **A request** keeps the bits. -/
theorem exec_flagged (hc : c.Ok) (h : m.Ok c) (hflagged : Flagged getPointer c m.tables) {r : Request}
    (hr : r.Valid c) (hfits : r.Fits c m) : wlp (r.exec getPointer m) fun m' _ => Flagged getPointer c m'.tables := by
  have hkeeps : ∀ {x : Exec MemoryManager}, (wlp x fun m' _ => Keeps m m') →
      wlp x fun m' _ => Flagged getPointer c m'.tables := fun hx => wlp_mono hx fun m' _ h' => h'.flagged hflagged
  cases r with
  | map gpuAddr devAddr size kind isBigPages =>
    cases isBigPages with
    | false =>
      exact hkeeps (keeps_then (keeps_prepareSmallPageMapping m) fun m' => keeps_pageTableOp m')
    | true =>
      obtain ⟨⟨lo, rfl⟩, ⟨n, rfl⟩, hlimit, hdvd, hdev⟩ := hr
      rw [Config.sizeOf, if_pos rfl, mul_comm c.bigPageSize lo, mul_comm c.bigPageSize n] at *
      rw [← Nat.add_mul] at hlimit
      refine wlp_mono (wlp_of_wp (bigPageTableOp_spec hc h.sized (fun _ => hfits) hlimit devAddr kind))
        fun m' held hr => ⟨fun _ _ => hfits, fun j hbig hcontinuous => ?_⟩
      rw [hr.2.2] at hbig hcontinuous ⊢
      dsimp only [Tables.fillBig] at hbig hcontinuous ⊢
      by_cases hj : lo ≤ j ∧ j < lo + n
      · rw [if_pos ⟨hj, rfl⟩] at hcontinuous ⊢
        have hdvd' : cpuPageSize ∣ c.bigPageSize := Nat.dvd_trans hc.cpuPageSize_dvd hc.dvd_bigPageSize
        rwa [storedDev_eq (Nat.dvd_add hdvd (Nat.dvd_mul_left_of_dvd hdvd' _))]
        have hle : (j - lo) * c.bigPageSize ≤ n * c.bigPageSize := mul_le_mul_right _ (by omega)
        omega
      · rw [if_neg hj] at hbig
        rw [if_neg fun hboth => hj hboth.1] at hcontinuous ⊢
        exact hflagged.contiguous j hbig hcontinuous
  | mapSparse gpuAddr size isBigPages =>
    cases isBigPages with
    | false => exact hkeeps (keeps_then (keeps_prepareSmallPageMapping m) fun m' => keeps_pageTableOp m')
    | true => exact hkeeps (keeps_bigPageTableOp m (by decide))
  | unmap gpuAddr size => exact hkeeps (keeps_unmap m)

/-- **Runs over one device memory** keep the bits. -/
theorem RunOver.flagged (hc : c.Ok) (h : RunOver getPointer c m) : Flagged getPointer c m.tables := by
  induction h with
  | new =>
    have hnot : ∀ j, (MemoryManager.new c).tables.big j ≠ .mapped := fun j hbig => by
      rw [show (MemoryManager.new c).tables.big j = .free from Words.entry_zeros] at hbig
      cases hbig
    exact ⟨fun j hbig => absurd hbig (hnot j), fun j hbig => absurd hbig (hnot j)⟩
  | request r run valid fits returned ih => exact exec_flagged hc (run.run.ok hc) ih valid fits _ _ returned

/-! ### `IsGranularRange` -/

/-- The comparison of a sum of `size_t` with the size of a page. -/
def endsInPage (offset size pageSize : ℕ) : Bool := (offset + size) % 2 ^ 64 ≤ pageSize

/-- `IsGranularRange`.  For a big page the offset is taken from the index of the page. -/
def isGranularRange (m : MemoryManager) (gpuAddr size : ℕ) : Exec Bool := do
  let bigEntry ← m.getEntry true gpuAddr
  if bigEntry = .mapped then
    let pageIndex := gpuAddr / m.bigPageSize
    let continuous ← m.bigPageContinuous.isBigPageContinuous pageIndex
    if continuous then return endsInPage (pageIndex % m.bigPageSize) size m.bigPageSize
    else return endsInPage (gpuAddr % Core.devicePageSize) size Core.devicePageSize
  else
    let entry ← m.getEntry false gpuAddr
    if entry ≠ .mapped then return false
    else return endsInPage (gpuAddr % Core.devicePageSize) size Core.devicePageSize

/-- The address is in a big page whose bit is set. -/
def InContinuous (c : Config) (t : Tables) (a : ℕ) : Prop :=
  t.big (a / c.bigPageSize) = .mapped ∧ t.continuous (a / c.bigPageSize) = true

/-- The address is in another mapped page. -/
def InMapped (c : Config) (t : Tables) (a : ℕ) : Prop :=
  ¬InContinuous c t a ∧ (t.big (a / c.bigPageSize) = .mapped ∨ t.small (a / c.pageSize) = .mapped)

/-- The range is inside a big page whose bit is set, or inside a page of device memory in a mapped page. -/
def InOnePage (c : Config) (t : Tables) (a size : ℕ) : Prop :=
  InContinuous c t a ∧ a % c.bigPageSize + size ≤ c.bigPageSize ∨
  InMapped c t a ∧ a % cpuPageSize + size ≤ cpuPageSize

/-- **A granular range** lies in one mapped page, and a pointer taken at its start is good for all of it. -/
structure Granular (getPointer : GetPointer) (m : MemoryManager) (a size : ℕ) : Prop where
  inOnePage : InOnePage m.toConfig m.tables a size
  pointer : ∃ devAddr, (∀ i < size, m.gpuToCpuAddress (a + i) = .ret (some (devAddr + i)) true) ∧
    (getPointer devAddr ≠ 0 → ∀ i < size, getPointer (devAddr + i) = getPointer devAddr + i)

instance {c : Config} {t : Tables} {a : ℕ} : Decidable (InContinuous c t a) := inferInstanceAs (Decidable (_ ∧ _))

instance {c : Config} {t : Tables} {a : ℕ} : Decidable (InMapped c t a) := inferInstanceAs (Decidable (_ ∧ _))

/-- The offset that the code takes for that of the address in its page. -/
def takenOffset (c : Config) (t : Tables) (a : ℕ) : ℕ :=
  if InContinuous c t a then a / c.bigPageSize % c.bigPageSize else a % cpuPageSize

/-- What the code answers. -/
theorem isGranularRange_eq (hc : c.Ok) (h : m.Ok c) (hflagged : Flagged getPointer c m.tables)
    (ha : a < c.addressSpaceSize) (size : ℕ) : m.isGranularRange a size = .ret
      (if InContinuous c m.tables a then endsInPage (a / c.bigPageSize % c.bigPageSize) size c.bigPageSize
      else decide (InMapped c m.tables a) && endsInPage (a % cpuPageSize) size cpuPageSize) true := by
  rw [isGranularRange, getEntry_eq hc h.sized ha, if_pos rfl, ret_true_bind, h.sized.config]
  by_cases hbig : m.tables.big (a / c.bigPageSize) = .mapped
  · have hindex : a / c.bigPageSize / 64 < m.bigPageContinuous.size := by
      rw [h.sized.continuous]
      exact div_lt_words (b := 6) rfl (by have := hflagged.bits _ hbig; omega) (hc.big_lt ha)
    rw [if_pos hbig]
    dsimp only
    rw [Words.isBigPageContinuous_eq hindex, ret_true_bind]
    cases hbit : m.bigPageContinuous.flag (a / c.bigPageSize) with
    | true => rw [if_pos rfl, if_pos ⟨hbig, hbit⟩, pure_eq]
    | false =>
      have hnot : ¬InContinuous c m.tables a := fun hin => by
        have hset : m.bigPageContinuous.flag (a / c.bigPageSize) = true := hin.2
        rw [hbit] at hset
        cases hset
      rw [if_neg (by decide), if_neg hnot, decide_eq_true ⟨hnot, .inl hbig⟩, Bool.true_and, pure_eq]
  · have hnot : ¬InContinuous c m.tables a := fun hin => hbig hin.1
    have hentry : m.getEntry false a = .ret (m.tables.small (a / c.pageSize)) true :=
      getEntry_eq hc h.sized ha false
    rw [if_neg hbig, hentry, ret_true_bind, if_neg hnot]
    by_cases hsmall : m.tables.small (a / c.pageSize) = .mapped
    · rw [if_neg (not_not_intro hsmall), decide_eq_true ⟨hnot, .inr hsmall⟩, Bool.true_and, pure_eq]
    · rw [if_pos hsmall, decide_eq_false fun hin => hin.2.elim hbig hsmall, Bool.false_and, pure_eq]

/-- An address behind the tables. -/
theorem isGranularRange_fault (hc : c.Ok) (h : m.Ok c) (ha : c.addressSpaceSize ≤ a) (size : ℕ) :
    m.isGranularRange a size = .fault := by
  have hindex : ¬a / c.bigPageSize / 32 < m.bigEntries.size := by
    have hdiv : 2 ^ (c.addressSpaceBits - c.bigPageBits) ≤ a / c.bigPageSize := by
      rw [← Nat.pow_div (by have := hc.words; omega) (by decide)]
      exact Nat.div_le_div_right ha
    rw [h.sized.bigEntries, not_lt]
    exact Nat.div_le_div_right hdiv
  rw [isGranularRange, getEntry, if_pos rfl, h.sized.config, Words.getEntry, Words.get, if_neg hindex]
  rfl

/-- Addresses behind one in its page. -/
theorem add_page {n i : ℕ} (hin : a % n + i < n) : (a + i) / n = a / n ∧ (a + i) % n = a % n + i := by
  have hadd : (a + i) % n = a % n + i := by
    rw [add_mod, mod_eq_of_lt (show i < n by omega), mod_eq_of_lt hin]
  refine ⟨?_, hadd⟩
  have h₁ := div_add_mod a n
  have h₂ := div_add_mod (a + i) n
  have hmul : n * ((a + i) / n) = n * (a / n) := by omega
  exact Nat.eq_of_mul_eq_mul_left (by omega) hmul

/-- A page of device memory is in a page of each size. -/
theorem mod_add_lt {n i : ℕ} (hpos : 0 < n) (hdvd : cpuPageSize ∣ n) (hin : a % cpuPageSize + i < cpuPageSize) :
    a % n + i < n := by
  obtain ⟨k, rfl⟩ := hdvd
  have hsplit : a % (cpuPageSize * k) = a % cpuPageSize + cpuPageSize * (a / cpuPageSize % k) := mod_mul ..
  have hlt : a / cpuPageSize % k < k := mod_lt _ (Nat.pos_of_mul_pos_left hpos)
  have hmul : cpuPageSize * (a / cpuPageSize % k + 1) ≤ cpuPageSize * k := mul_le_mul_left _ hlt
  rw [Nat.mul_add, mul_one] at hmul
  omega

/-- The address of device memory behind addresses of one page. -/
theorem pageState_add (hc : c.Ok) (h : m.tables.Ok c) (hpage : InOnePage c m.tables a size) :
    ∃ devAddr, (∀ i < size, m.tables.pageState c (a + i) = .mapped (devAddr + i)) ∧
      devAddr % cpuPageSize = a % cpuPageSize ∧
      (InContinuous c m.tables a → devAddr = m.tables.bigDev (a / c.bigPageSize) + a % c.bigPageSize) := by
  have hpage₂ : cpuPageSize ∣ c.bigPageSize := Nat.dvd_trans hc.cpuPageSize_dvd hc.dvd_bigPageSize
  have hbigpage : ∀ {i}, m.tables.big (a / c.bigPageSize) = .mapped → a % c.bigPageSize + i < c.bigPageSize →
      m.tables.pageState c (a + i) = .mapped (m.tables.bigDev (a / c.bigPageSize) + a % c.bigPageSize + i) := by
    intro i hbig hin
    obtain ⟨hdiv, hmod⟩ := add_page hin
    rw [Tables.pageState, hdiv, hbig, hmod, add_assoc]
  have hbigmod : (m.tables.bigDev (a / c.bigPageSize) + a % c.bigPageSize) % cpuPageSize = a % cpuPageSize := by
    rw [add_mod, mod_eq_zero_of_dvd (h.dvd _), zero_add, mod_mod, mod_mod_of_dvd _ hpage₂]
  rcases hpage with ⟨hin, hends⟩ | ⟨⟨hnot, hbig | hsmall⟩, hends⟩
  · exact ⟨_, fun i hi => hbigpage hin.1 (by omega), hbigmod, fun _ => rfl⟩
  · exact ⟨_, fun i hi => hbigpage hbig (mod_add_lt c.bigPageSize_pos hpage₂ (by omega)), hbigmod,
      fun hin => absurd hin hnot⟩
  · -- no big page has an entry over a small page that has one
    have hbig : m.tables.big (a / c.bigPageSize) = .smallPages := by
      by_contra hne
      have hfree := h.clean (a / c.pageSize) (by rwa [hc.div_pagesPerBig])
      rw [hsmall] at hfree
      cases hfree
    refine ⟨m.tables.smallDev (a / c.pageSize) + a % c.pageSize, fun i hi => ?_, ?_, fun hin => absurd hin hnot⟩
    · have hin : a % cpuPageSize + i < cpuPageSize := by omega
      obtain ⟨hdiv, hmod⟩ := add_page (mod_add_lt c.pageSize_pos hc.cpuPageSize_dvd hin)
      obtain ⟨hdiv₂, -⟩ := add_page (mod_add_lt c.bigPageSize_pos hpage₂ hin)
      rw [Tables.pageState, hdiv₂, hbig]
      dsimp only
      rw [Tables.smallState, hdiv, hsmall, hmod, add_assoc]
    · have hdvd : cpuPageSize ∣ m.tables.smallDev (a / c.pageSize) := Nat.dvd_mul_left ..
      rw [add_mod, mod_eq_zero_of_dvd hdvd, zero_add, mod_mod, mod_mod_of_dvd _ hc.cpuPageSize_dvd]

/-- The memory of a big page that has the bit. -/
theorem getPointer_bigPage (memory : DeviceMemory) (hc : c.Ok) (hbits : c.pageBits = 12) {devAddr x : ℕ}
    (hdvd : cpuPageSize ∣ devAddr) (hcontinuous : isContinuous memory.getPointer c devAddr = true)
    (hx : x < c.bigPageSize) : memory.getPointer (devAddr + x) = memory.getPointer devAddr + x := by
  have hpage : c.pageSize = cpuPageSize := by rw [Config.pageSize, hbits]; rfl
  have hk : x / cpuPageSize < c.pagesPerBig := by
    rw [hc.bigPageSize_eq, hpage] at hx
    exact (div_lt_iff_lt_mul (by decide)).2 hx
  obtain ⟨hne, hnext⟩ := isContinuous_spec hc hcontinuous hk
  rw [hpage] at hnext
  have hsplit : devAddr + x = devAddr + x / cpuPageSize * cpuPageSize + x % cpuPageSize := by
    rw [add_assoc, div_add_mod']
  have hstart : (devAddr + x / cpuPageSize * cpuPageSize) % cpuPageSize = 0 :=
    mod_eq_zero_of_dvd (Nat.dvd_add hdvd (Nat.dvd_mul_left ..))
  rw [hsplit, memory.getPointer_add (by rw [hnext]; omega), hnext, add_assoc, div_add_mod']
  rw [hstart, zero_add]
  exact mod_lt _ (by decide)

/-- **Ranges in one page** are granular. -/
theorem granular_of_inOnePage (memory : DeviceMemory) (hc : c.Ok) (hbits : c.pageBits = 12)
    (h : RunOver memory.getPointer c m) (ha : a < c.addressSpaceSize) (hpage : InOnePage c m.tables a size) :
    Granular memory.getPointer m a size := by
  have hok := h.run.ok hc
  refine ⟨by rwa [hok.sized.config], ?_⟩
  obtain ⟨devAddr, hstate, hmod, hcontinuous⟩ := pageState_add hc hok.tables hpage
  have hpage₂ : cpuPageSize ∣ c.bigPageSize := Nat.dvd_trans hc.cpuPageSize_dvd hc.dvd_bigPageSize
  refine ⟨devAddr, fun i hi => ?_, fun hne i hi => ?_⟩
  · have hlt : a + i < c.addressSpaceSize := by
      have hin : a % c.bigPageSize + i < c.bigPageSize := by
        rcases hpage with ⟨-, hends⟩ | ⟨-, hends⟩
        · omega
        · exact mod_add_lt c.bigPageSize_pos hpage₂ (by omega)
      obtain ⟨k, hk⟩ := hc.dvd_addressSpaceSize
      rw [hk, mul_comm, ← div_lt_iff_lt_mul c.bigPageSize_pos] at ha ⊢
      rwa [(add_page hin).1]
    rw [gpuToCpuAddress_eq hc hok, if_pos hlt, hstate i hi]
    rfl
  · rcases hpage with ⟨hin, hends⟩ | ⟨-, hends⟩
    · have hflag := (h.flagged hc).contiguous _ hin.1 hin.2
      have hdvd := hok.tables.dvd (a / c.bigPageSize)
      rw [hcontinuous hin, add_assoc, getPointer_bigPage memory hc hbits hdvd hflag (by omega),
        getPointer_bigPage memory hc hbits hdvd hflag (by omega), add_assoc]
    · exact memory.getPointer_add hne (by omega)

/-- **Where `IsGranularRange` is right**: an address has right answers for all sizes that do not wrap exactly when
it is in no big page with the bit, or its offset there is at most the index of the page modulo the page size. -/
theorem isGranularRange_iff (memory : DeviceMemory) (hc : c.Ok) (hbits : c.pageBits = 12)
    (h : RunOver memory.getPointer c m) (ha : a < c.addressSpaceSize) :
    (∀ size, takenOffset c m.tables a + size < 2 ^ 64 → ∀ held, m.isGranularRange a size = .ret true held →
      Granular memory.getPointer m a size) ↔
      (InContinuous c m.tables a → a % c.bigPageSize ≤ a / c.bigPageSize % c.bigPageSize) := by
  have hok := h.run.ok hc
  have hbig : c.bigPageSize < 2 ^ 64 := Nat.pow_lt_pow_right (by decide) (by have := hc.words; have := hc.bits; omega)
  have hindex := mod_lt (a / c.bigPageSize) c.bigPageSize_pos
  constructor
  · intro hright hin
    -- the size up to which the code says yes
    have htaken : takenOffset c m.tables a = a / c.bigPageSize % c.bigPageSize := if_pos hin
    have hsum : a / c.bigPageSize % c.bigPageSize + (c.bigPageSize - a / c.bigPageSize % c.bigPageSize) =
        c.bigPageSize := by omega
    have hgranular := hright (c.bigPageSize - a / c.bigPageSize % c.bigPageSize) (by rw [htaken, hsum]; exact hbig) true
      (by rw [isGranularRange_eq hc hok (h.flagged hc) ha, if_pos hin, endsInPage, hsum, mod_eq_of_lt hbig,
        decide_eq_true le_rfl])
    have hpage := hgranular.inOnePage
    rw [hok.sized.config] at hpage
    rcases hpage with ⟨-, hends⟩ | ⟨hmapped, -⟩
    · omega
    · exact absurd hin hmapped.1
  · intro hle size hsize held heq
    refine granular_of_inOnePage memory hc hbits h ha ?_
    rw [isGranularRange_eq hc hok (h.flagged hc) ha, ret.injEq] at heq
    obtain ⟨heq, -⟩ := heq
    split_ifs at heq with hin
    · rw [takenOffset, if_pos hin] at hsize
      rw [endsInPage, mod_eq_of_lt hsize, decide_eq_true_eq] at heq
      exact .inl ⟨hin, (Nat.add_le_add_right (hle hin) size).trans heq⟩
    · have htaken : takenOffset c m.tables a = a % cpuPageSize := if_neg hin
      rw [htaken] at hsize
      rw [endsInPage, mod_eq_of_lt hsize, Bool.and_eq_true, decide_eq_true_eq, decide_eq_true_eq] at heq
      exact .inr heq

/-- Device memory that has 16 pages. -/
def sixteenPages : DeviceMemory :=
  .ofManager ((Core.DeviceMemoryManager.new : Core.DeviceMemoryManager 34).map some 0 0 0x10000) 0x1000 (by decide)

theorem isContinuous_sixteenPages : isContinuous sixteenPages.getPointer lastPageConfig 0 = true := by
  decide +kernel

/-- The big page of index 16 is mapped. -/
def bigPageSixteen : Request := .map 0x100000 0 0x10000 0 true

/-- After it the addresses of that big page are in a page that has the bit. -/
theorem bigPageSixteen_runs : ∃ m, RunOver sixteenPages.getPointer lastPageConfig m ∧
    (∀ a, a / 0x10000 = 16 → InContinuous lastPageConfig m.tables a) ∧
    m.isGranularRange 0x100010 0xfff0 = .ret true true ∧ m.isGranularRange 0x10ffff 2 = .ret true true := by
  have hc := lastPageConfig_ok
  obtain ⟨m, held, hret, rfl, -, htables⟩ := @bigPageTableOp_spec lastPageConfig _ hc (sized_new hc)
    sixteenPages.getPointer .mapped (fun _ => by decide) 16 1 (by decide) 0 0
  have hrun : RunOver sixteenPages.getPointer lastPageConfig m :=
    .request bigPageSixteen .new (by decide) (show 16 + 6 ≤ 40 by decide) hret
  have hpage : ∀ a, a / 0x10000 = 16 → InContinuous lastPageConfig m.tables a := fun a ha => by
    have hindex : a / lastPageConfig.bigPageSize = 16 := ha
    rw [InContinuous, hindex, htables]
    constructor
    · rfl
    · dsimp only [Tables.fillBig]
      rw [if_pos (by decide)]
      exact isContinuous_sixteenPages
  have hok := hrun.run.ok hc
  refine ⟨m, hrun, hpage, ?_, ?_⟩
  · rw [isGranularRange_eq hc hok (hrun.flagged hc) (by decide), if_pos (hpage _ rfl)]
    simp [endsInPage, lastPageConfig, Config.bigPageSize]
  · rw [isGranularRange_eq hc hok (hrun.flagged hc) (by decide), if_pos (hpage _ rfl)]
    simp [endsInPage, lastPageConfig, Config.bigPageSize]

/-- The rest of that page from its 16th byte on. -/
theorem isGranularRange_iff_bigPageSixteen : ∃ m, RunOver sixteenPages.getPointer lastPageConfig m ∧
    m.isGranularRange 0x100010 0xfff0 = .ret true true ∧ Granular sixteenPages.getPointer m 0x100010 0xfff0 := by
  obtain ⟨m, hrun, hpage, hanswer, -⟩ := bigPageSixteen_runs
  refine ⟨m, hrun, hanswer, (isGranularRange_iff sixteenPages lastPageConfig_ok rfl hrun (by decide)).2
    (fun _ => by decide) 0xfff0 ?_ true hanswer⟩
  rw [takenOffset, if_pos (hpage _ rfl)]
  decide

/-- **A range over the end of a big page.**  The last byte of the page and the first one behind it are no granular
range. -/
theorem pageEnd_not_granular : ∃ m, RunOver sixteenPages.getPointer lastPageConfig m ∧
    m.isGranularRange 0x10ffff 2 = .ret true true ∧ ¬Granular sixteenPages.getPointer m 0x10ffff 2 := by
  obtain ⟨m, hrun, hpage, -, hanswer⟩ := bigPageSixteen_runs
  refine ⟨m, hrun, hanswer, fun hgranular => ?_⟩
  have honePage := hgranular.inOnePage
  rw [(hrun.run.ok lastPageConfig_ok).sized.config] at honePage
  rcases honePage with ⟨-, hends⟩ | ⟨hmapped, -⟩
  · exact absurd hends (by decide)
  · exact hmapped.1 (hpage _ rfl)

end MemoryManager
end Tegra
end NXEmu
