/-
# The pages of a memory manager

`src/yuzu_video_core/memory_manager.cpp`: what a `MemoryManager` has at an address, whether a big or
a small page holds it (`Tables.pageState`).  `Map`, `MapSparse` and `Unmap` change that in their
range and nowhere else, as long as `page_table` has room for the entries they fill: `ReserveRange`
reaches past its first level for a range that ends with the address space.
-/

import NXEmu.VideoCore.MemoryManagerTables
import Mathlib.Order.Basic

namespace NXEmu
namespace Tegra

open Function

/-! ### The state of an address -/

/-- What is at an address of the GPU. -/
inductive PageState where
  | free
  | reserved
  | mapped (devAddr : ℕ)
deriving DecidableEq

/-- The address of device memory. -/
def PageState.devAddr : PageState → Option ℕ
  | mapped devAddr => some devAddr
  | _ => none

namespace Tables

variable {c : Config} {t : Tables}

/-- What the small pages have at an address. -/
def smallState (c : Config) (t : Tables) (a : ℕ) : PageState :=
  match t.small (a / c.pageSize) with
  | .mapped => .mapped (t.smallDev (a / c.pageSize) + a % c.pageSize)
  | .reserved => .reserved
  | _ => .free

/-- What the tables have at an address. -/
def pageState (c : Config) (t : Tables) (a : ℕ) : PageState :=
  match t.big (a / c.bigPageSize) with
  | .mapped => .mapped (t.bigDev (a / c.bigPageSize) + a % c.bigPageSize)
  | .reserved => .reserved
  | _ => t.smallState c a

/-- No small page has an entry under a big page that has one, and the addresses of mapped big pages
fit the tables. -/
structure Ok (c : Config) (t : Tables) : Prop where
  clean : ∀ i, t.big (i / c.pagesPerBig) ≠ .smallPages → t.small i = .free
  table : ∀ i, t.small i = .mapped → c.pageBits ≠ c.bigPageBits
  dvd : ∀ j, cpuPageSize ∣ t.bigDev j
  dev : ∀ j, t.big j = .mapped → t.bigDev j + c.bigPageSize ≤ 2 ^ 44

end Tables

namespace Config.Ok

variable {c : Config} (hc : c.Ok)
include hc

end Config.Ok

/-- An address in a range of whole pages. -/
theorem div_mem_iff {a lo n size : ℕ} (hsize : 0 < size) :
    (lo ≤ a / size ∧ a / size < lo + n) ↔ lo * size ≤ a ∧ a < (lo + n) * size := by
  rw [Nat.le_div_iff_mul_le hsize, Nat.div_lt_iff_lt_mul hsize]

variable {a lo n devAddr j : ℕ} {entryType : EntryType} {isContinuous : ℕ → Bool}

namespace Tables

variable {c : Config} {t t' : Tables}

theorem pageState_of_big {e : EntryType} (he : t.big (a / c.bigPageSize) = e)
    (hmapped : e ≠ .mapped) (hreserved : e ≠ .reserved) : t.pageState c a = t.smallState c a := by
  subst he
  rw [pageState]
  cases h : t.big (a / c.bigPageSize) with
  | free | smallPages => rfl
  | mapped => exact absurd h hmapped
  | reserved => exact absurd h hreserved

/-- What an entry of a page is for its addresses. -/
def entryState (entryType : EntryType) (devAddr : ℕ) : PageState :=
  match entryType with
  | .mapped => .mapped devAddr
  | .reserved => .reserved
  | _ => .free

/-- What small pages have where they are filled, and elsewhere. -/
theorem smallState_fillSmall (c : Config) (t : Tables) (entryType : EntryType) (lo n devAddr : ℕ)
    (hdev : entryType = .mapped → cpuPageSize ∣ devAddr ∧ devAddr + n * c.pageSize ≤ 2 ^ 44)
    (hpage : cpuPageSize ∣ c.pageSize) (a : ℕ) :
    (t.fillSmall c.pageSize entryType lo n devAddr).smallState c a =
      if lo * c.pageSize ≤ a ∧ a < (lo + n) * c.pageSize then
        entryState entryType (devAddr + (a - lo * c.pageSize))
      else t.smallState c a := by
  rw [smallState, fillSmall]
  dsimp only
  by_cases hin : lo ≤ a / c.pageSize ∧ a / c.pageSize < lo + n
  · rw [if_pos hin, if_pos ((div_mem_iff c.pageSize_pos).1 hin)]
    cases entryType with
    | mapped =>
      obtain ⟨hdvd, hlt⟩ := hdev rfl
      have hstored : storedDev (devAddr + (a / c.pageSize - lo) * c.pageSize) =
          devAddr + (a / c.pageSize - lo) * c.pageSize := by
        refine storedDev_eq (Nat.dvd_add hdvd (Nat.dvd_mul_left_of_dvd hpage _)) ?_
        have : (a / c.pageSize - lo) * c.pageSize < n * c.pageSize :=
          Nat.mul_lt_mul_of_pos_right (by omega) c.pageSize_pos
        omega
      have hmul : lo * c.pageSize ≤ a / c.pageSize * c.pageSize := Nat.mul_le_mul_right _ hin.1
      have hmod := Nat.div_add_mod a c.pageSize
      rw [if_pos ⟨hin, rfl⟩, hstored, entryState, Nat.sub_mul]
      rw [Nat.mul_comm c.pageSize] at hmod
      exact congrArg PageState.mapped (by omega)
    | free | reserved | smallPages => rfl
  · rw [if_neg hin, if_neg fun h => hin ((div_mem_iff c.pageSize_pos).2 h), if_neg fun h => hin h.1, smallState]

/-- **Filling small pages** under big pages that have some. -/
theorem pageState_fillSmall (hdev : entryType = .mapped → cpuPageSize ∣ devAddr ∧ devAddr + n * c.pageSize ≤ 2 ^ 44)
    (hc : c.Ok) (hsmall : ∀ i, lo ≤ i → i < lo + n → t.big (i / c.pagesPerBig) = .smallPages) (a : ℕ) :
    (t.fillSmall c.pageSize entryType lo n devAddr).pageState c a =
      if lo * c.pageSize ≤ a ∧ a < (lo + n) * c.pageSize then
        entryState entryType (devAddr + (a - lo * c.pageSize))
      else t.pageState c a := by
  have hstate := smallState_fillSmall c t entryType lo n devAddr hdev hc.cpuPageSize_dvd a
  have hbig : (t.fillSmall c.pageSize entryType lo n devAddr).big = t.big := rfl
  by_cases hin : lo * c.pageSize ≤ a ∧ a < (lo + n) * c.pageSize
  · have hidx := (div_mem_iff c.pageSize_pos).2 hin
    have he := hsmall _ hidx.1 hidx.2
    rw [hc.div_pagesPerBig] at he
    rw [pageState_of_big (hbig ▸ he) (by decide) (by decide), hstate, if_pos hin, if_pos hin]
  · rw [if_neg hin] at hstate ⊢
    rw [pageState, pageState, hbig, hstate]
    rfl

theorem Ok.fillSmall (h : t.Ok c) (hne : entryType = .mapped → c.pageBits ≠ c.bigPageBits)
    (hsmall : ∀ i, lo ≤ i → i < lo + n → t.big (i / c.pagesPerBig) = .smallPages) :
    (t.fillSmall c.pageSize entryType lo n devAddr).Ok c where
  clean i hi := (if_neg fun hin => hi (hsmall i hin.1 hin.2)).trans (h.clean i hi)
  table i hi := by
    dsimp only [Tables.fillSmall] at hi
    split at hi
    · exact hne hi
    · exact h.table i hi
  dvd := h.dvd
  dev := h.dev

/-- A big page that has small ones from now on. -/
def setSmallPages (t : Tables) (j : ℕ) : Tables := { t with big := Function.update t.big j .smallPages }

/-- **Expanding a big page**: its small pages get what it has. -/
theorem expand_spec (hc : c.Ok) (h : t.Ok c) (he : t.big j = entryType) (hsmall : entryType ≠ .smallPages)
    (hne : entryType = .mapped → c.pageBits ≠ c.bigPageBits) :
    ((t.fillSmall c.pageSize entryType (j * c.pagesPerBig) c.pagesPerBig (t.bigDev j)).setSmallPages
      j).Ok c ∧ ∀ a, ((t.fillSmall c.pageSize entryType (j * c.pagesPerBig) c.pagesPerBig
      (t.bigDev j)).setSmallPages j).pageState c a = t.pageState c a := by
  have hin : ∀ i, (j * c.pagesPerBig ≤ i ∧ i < j * c.pagesPerBig + c.pagesPerBig) ↔
      i / c.pagesPerBig = j := fun i => by
    rw [Nat.div_eq_iff c.pagesPerBig_pos]
    have := c.pagesPerBig_pos
    omega
  have hsize : (j * c.pagesPerBig + c.pagesPerBig) * c.pageSize = (j + 1) * c.bigPageSize := by
    rw [← Nat.succ_mul, Nat.mul_assoc, ← hc.bigPageSize_eq]
  have hstart : j * c.pagesPerBig * c.pageSize = j * c.bigPageSize := by
    rw [Nat.mul_assoc, ← hc.bigPageSize_eq]
  refine ⟨⟨fun i hi => ?_, fun i hi => ?_, h.dvd, fun k hk => ?_⟩, fun a => ?_⟩
  · by_cases hij : i / c.pagesPerBig = j
    · rw [setSmallPages, hij] at hi
      exact absurd (update_self ..) hi
    · refine (if_neg fun hr => hij ((hin i).1 hr)).trans (h.clean i ?_)
      rw [setSmallPages] at hi
      dsimp only at hi
      rwa [update_of_ne hij] at hi
  · dsimp only [setSmallPages, Tables.fillSmall] at hi
    split at hi
    · exact hne hi
    · exact h.table i hi
  · by_cases hkj : k = j
    · rw [setSmallPages, hkj] at hk
      dsimp only at hk
      rw [update_self] at hk
      cases hk
    · rw [setSmallPages] at hk
      dsimp only at hk
      rw [update_of_ne hkj] at hk
      exact h.dev k hk
  · by_cases haj : a / c.bigPageSize = j
    · have hrange : j * c.pagesPerBig * c.pageSize ≤ a ∧ a < (j * c.pagesPerBig + c.pagesPerBig) * c.pageSize := by
        rw [hsize, hstart]
        refine ⟨?_, ?_⟩
        · rw [← haj]
          exact Nat.div_mul_le_self ..
        · rw [← haj]
          exact Nat.lt_mul_of_div_lt (Nat.lt_succ_self _) c.bigPageSize_pos
      have hstate := smallState_fillSmall c t entryType (j * c.pagesPerBig) c.pagesPerBig
        (t.bigDev j) (fun hmap => ⟨h.dvd j, by
          rw [← hc.bigPageSize_eq]
          exact h.dev j (he.trans hmap)⟩) hc.cpuPageSize_dvd a
      rw [if_pos hrange] at hstate
      have hbig : ((t.fillSmall c.pageSize entryType (j * c.pagesPerBig) c.pagesPerBig
          (t.bigDev j)).setSmallPages j).big (a / c.bigPageSize) = .smallPages := by
        rw [setSmallPages, haj]
        exact update_self ..
      rw [pageState_of_big hbig (by decide) (by decide)]
      refine (Eq.trans rfl hstate).trans ?_
      have hmod : a - j * c.pagesPerBig * c.pageSize = a % c.bigPageSize := by
        have := Nat.div_add_mod a c.bigPageSize
        rw [haj, Nat.mul_comm] at this
        omega
      rw [hmod, pageState, haj, he]
      cases entryType with
      | mapped => rfl
      | reserved => rfl
      | smallPages => exact absurd rfl hsmall
      | free =>
        have hclean := h.clean (a / c.pageSize) (by
          rw [hc.div_pagesPerBig, haj, he]
          decide)
        dsimp only
        rw [smallState, hclean]
        rfl
    · have hnot : ¬ (j * c.pagesPerBig ≤ a / c.pageSize ∧
          a / c.pageSize < j * c.pagesPerBig + c.pagesPerBig) := fun hr =>
        haj ((hc.div_pagesPerBig a).symm.trans ((hin _).1 hr))
      have hbig : ((t.fillSmall c.pageSize entryType (j * c.pagesPerBig) c.pagesPerBig
          (t.bigDev j)).setSmallPages j).big (a / c.bigPageSize) = t.big (a / c.bigPageSize) :=
        update_of_ne haj ..
      have hstate : ((t.fillSmall c.pageSize entryType (j * c.pagesPerBig) c.pagesPerBig
          (t.bigDev j)).setSmallPages j).smallState c a = t.smallState c a := by
        rw [smallState, smallState]
        dsimp only [setSmallPages, Tables.fillSmall]
        rw [if_neg hnot, if_neg fun h => hnot h.1]
      rw [pageState, pageState, hbig, hstate]
      rfl

/-- **Filling big pages.** -/
theorem pageState_fillBig (hdev : entryType = .mapped → cpuPageSize ∣ devAddr ∧ devAddr + n * c.bigPageSize ≤ 2 ^ 44)
    (hc : c.Ok) (h : t.Ok c) (hne : entryType ≠ .smallPages) (a : ℕ) :
    (t.fillBig c.bigPageSize c.pagesPerBig isContinuous entryType lo n devAddr).pageState c a =
      if lo * c.bigPageSize ≤ a ∧ a < (lo + n) * c.bigPageSize then
        entryState entryType (devAddr + (a - lo * c.bigPageSize))
      else t.pageState c a := by
  have hidx := hc.div_pagesPerBig a
  by_cases hin : lo ≤ a / c.bigPageSize ∧ a / c.bigPageSize < lo + n
  · have hbig : (t.fillBig c.bigPageSize c.pagesPerBig isContinuous entryType lo n devAddr).big
        (a / c.bigPageSize) = entryType := if_pos hin
    rw [if_pos ((div_mem_iff c.bigPageSize_pos).1 hin), pageState, hbig]
    cases entryType with
    | mapped =>
      obtain ⟨hdvd, hlt⟩ := hdev rfl
      have hstored : storedDev (devAddr + (a / c.bigPageSize - lo) * c.bigPageSize) =
          devAddr + (a / c.bigPageSize - lo) * c.bigPageSize := by
        refine storedDev_eq (Nat.dvd_add hdvd (Nat.dvd_mul_left_of_dvd
          (Nat.dvd_trans hc.cpuPageSize_dvd hc.dvd_bigPageSize) _)) ?_
        have : (a / c.bigPageSize - lo) * c.bigPageSize < n * c.bigPageSize :=
          Nat.mul_lt_mul_of_pos_right (by omega) c.bigPageSize_pos
        omega
      have hdev' : (t.fillBig c.bigPageSize c.pagesPerBig isContinuous .mapped lo n devAddr).bigDev
          (a / c.bigPageSize) = devAddr + (a / c.bigPageSize - lo) * c.bigPageSize :=
        (if_pos ⟨hin, rfl⟩).trans hstored
      have hmul : lo * c.bigPageSize ≤ a / c.bigPageSize * c.bigPageSize :=
        Nat.mul_le_mul_right _ hin.1
      have hmod := Nat.div_add_mod a c.bigPageSize
      dsimp only
      rw [hdev', entryState, Nat.sub_mul]
      rw [Nat.mul_comm c.bigPageSize] at hmod
      exact congrArg PageState.mapped (by omega)
    | reserved => rfl
    | smallPages => exact absurd rfl hne
    | free =>
      -- small pages are free, cleared or already
      have hsmall : (t.fillBig c.bigPageSize c.pagesPerBig isContinuous .free lo n devAddr).small
          (a / c.pageSize) = .free := by
        dsimp only [Tables.fillBig]
        rw [hidx]
        split
        · rfl
        · rename_i hnot
          refine h.clean _ fun hs => hnot ⟨hin, ?_⟩
          rwa [← hidx]
      dsimp only
      rw [smallState, hsmall]
      rfl
  · have hbig : (t.fillBig c.bigPageSize c.pagesPerBig isContinuous entryType lo n devAddr).big
        (a / c.bigPageSize) = t.big (a / c.bigPageSize) := if_neg hin
    have hdev' : (t.fillBig c.bigPageSize c.pagesPerBig isContinuous entryType lo n devAddr).bigDev
        (a / c.bigPageSize) = t.bigDev (a / c.bigPageSize) := if_neg fun h => hin h.1
    have hstate : (t.fillBig c.bigPageSize c.pagesPerBig isContinuous entryType lo n
        devAddr).smallState c a = t.smallState c a := by
      have hsmall : (t.fillBig c.bigPageSize c.pagesPerBig isContinuous entryType lo n devAddr).small
          (a / c.pageSize) = t.small (a / c.pageSize) := if_neg fun h => hin (hidx ▸ h.1)
      rw [smallState, smallState, hsmall]
      rfl
    rw [if_neg fun h => hin ((div_mem_iff c.bigPageSize_pos).2 h), pageState, pageState, hbig, hdev', hstate]

theorem Ok.fillBig (h : t.Ok c)
    (hdev : entryType = .mapped → cpuPageSize ∣ devAddr ∧ devAddr + n * c.bigPageSize ≤ 2 ^ 44) (hc : c.Ok) :
    (t.fillBig c.bigPageSize c.pagesPerBig isContinuous entryType lo n devAddr).Ok c where
  clean i hi := by
    dsimp only [Tables.fillBig] at hi ⊢
    split
    · rfl
    · rename_i hnot
      refine h.clean i fun hs => ?_
      split at hi
      · rename_i hin
        exact hnot ⟨hin, hs⟩
      · exact hi hs
  table i hi := by
    dsimp only [Tables.fillBig] at hi
    split at hi
    · cases hi
    · exact h.table i hi
  dvd j := by
    dsimp only [Tables.fillBig]
    split
    · exact Nat.dvd_mul_left ..
    · exact h.dvd j
  dev j hj := by
    dsimp only [Tables.fillBig] at hj ⊢
    by_cases hin : lo ≤ j ∧ j < lo + n
    · rw [if_pos hin] at hj
      obtain ⟨hdvd, hlt⟩ := hdev hj
      have hmul : (j - lo) * c.bigPageSize + c.bigPageSize ≤ n * c.bigPageSize := by
        rw [← Nat.succ_mul]
        exact Nat.mul_le_mul_right _ (by omega)
      have := c.bigPageSize_pos
      have hstored : storedDev (devAddr + (j - lo) * c.bigPageSize) = devAddr + (j - lo) * c.bigPageSize :=
        storedDev_eq (Nat.dvd_add hdvd (Nat.dvd_mul_left_of_dvd
          (Nat.dvd_trans hc.cpuPageSize_dvd hc.dvd_bigPageSize) _)) (by omega)
      rw [if_pos ⟨hin, hj⟩, hstored]
      omega
    · rw [if_neg hin] at hj
      rw [if_neg fun h => hin h.1]
      exact h.dev j hj

end Tables

namespace MemoryManager

open Exec

variable {c : Config} {m m' : MemoryManager}

/-- The body of the loop of `PrepareSmallPageMapping`: the page has small ones from now on, and its
addresses have what they had. -/
theorem prepareSmallPage_spec (hc : c.Ok) (hm : Sized c m) (h : m.tables.Ok c)
    (hj : (j + 1) * c.bigPageSize ≤ c.addressSpaceSize)
    (hroom : m.tables.big j = .mapped → HasRoom c ((j + 1) * c.bigPageSize)) :
    wp (m.prepareSmallPage (j * c.bigPageSize)) fun m' held => held = true ∧ Sized c m' ∧
      m'.tables.Ok c ∧ (∀ a, m'.tables.pageState c a = m.tables.pageState c a) ∧
      m'.tables.big = update m.tables.big j .smallPages := by
  have hlt : j * c.bigPageSize < c.addressSpaceSize := by
    have := c.bigPageSize_pos
    rw [Nat.add_mul, Nat.one_mul] at hj
    omega
  have hidx : j * c.bigPageSize / c.bigPageSize = j := Nat.mul_div_cancel _ c.bigPageSize_pos
  rw [prepareSmallPage, getEntry_eq hc hm hlt true, if_pos rfl, hidx, ret_true_bind]
  by_cases hsmall : m.tables.big j = .smallPages
  · rw [if_pos hsmall, pure_eq, wp_ret]
    refine ⟨rfl, hm, h, fun _ => rfl, funext fun i => ?_⟩
    rw [update_apply]
    split
    · rename_i hij
      rw [hij, hsmall]
    · rfl
  rw [if_neg hsmall, wp_bind]
  have hsize : (j * c.pagesPerBig + c.pagesPerBig) * c.pageSize = (j + 1) * c.bigPageSize := by
    rw [← Nat.succ_mul, Nat.mul_assoc, ← hc.bigPageSize_eq]
  have hstart : j * c.bigPageSize = j * c.pagesPerBig * c.pageSize := by
    rw [Nat.mul_assoc, ← hc.bigPageSize_eq]
  have hexpand : wp (m.expandBigPage (m.tables.big j) (j * c.bigPageSize)) fun m' held =>
      held = true ∧ Sized c m' ∧ m'.tables = m.tables.fillSmall c.pageSize (m.tables.big j)
        (j * c.pagesPerBig) c.pagesPerBig (m.tables.bigDev j) := by
    have hentry : m.pageEntryIndex true (j * c.bigPageSize) = j := by
      rw [hm.config]
      exact (Nat.mod_eq_of_lt (hc.big_lt hlt)).trans hidx
    rw [expandBigPage, hentry, hm.config]
    cases hbig : m.tables.big j with
    | mapped =>
      rw [if_pos rfl, hstart, hc.bigPageSize_eq]
      refine pageTableOp_spec hc hm (hsize.trans_le hj) (fun _ => ?_) _ _
      rw [hsize]
      exact hroom hbig
    | reserved =>
      rw [if_neg (by decide), if_pos rfl, hstart, hc.bigPageSize_eq]
      refine wp_mono (pageTableOp_spec hc hm (hsize.trans_le hj)
        (fun h : EntryType.reserved = .mapped => nomatch h) _ _)
        fun m' held hr => ⟨hr.1, hr.2.1, hr.2.2.trans ?_⟩
      refine Tables.ext rfl (funext fun i => ?_) rfl rfl rfl
      exact (if_neg fun h => nomatch h.2).trans (if_neg fun h => nomatch h.2).symm
    | smallPages => exact absurd hbig hsmall
    | free =>
      rw [if_neg (by decide), if_neg (by decide), pure_eq, wp_ret]
      refine ⟨rfl, hm, Tables.ext (funext fun i => ?_) (funext fun i => ?_) rfl rfl rfl⟩
      · dsimp only [Tables.fillSmall]
        split
        · rename_i hi
          refine h.clean i ?_
          have : i / c.pagesPerBig = j := by
            rw [Nat.div_eq_iff c.pagesPerBig_pos]
            have := c.pagesPerBig_pos
            omega
          rw [this, hbig]
          decide
        · rfl
      · exact (if_neg fun h => nomatch h.2).symm
  refine wp_mono hexpand fun m₁ held hr => ?_
  obtain ⟨rfl, hm₁, htables₁⟩ := hr
  obtain ⟨m₂, heq, hm₂, htables₂⟩ := setEntry_big hc hm₁ hlt .smallPages
  rw [htables₁, hidx] at htables₂
  obtain ⟨hok, hstate⟩ := Tables.expand_spec hc h rfl hsmall fun hmap => (hroom hmap).1
  have htables : m₂.tables = (m.tables.fillSmall c.pageSize (m.tables.big j) (j * c.pagesPerBig)
      c.pagesPerBig (m.tables.bigDev j)).setSmallPages j := htables₂
  rw [heq, wp_ret, htables]
  exact ⟨rfl, hm₂, hok, hstate, rfl⟩

/-- A manager whose tables are as they should be. -/
structure Ok (c : Config) (m : MemoryManager) : Prop where
  sized : Sized c m
  tables : m.tables.Ok c

/-- The big pages that a range meets can be expanded. -/
def Expandable (c : Config) (m : MemoryManager) (start stop : ℕ) : Prop :=
  ∀ j, start < (j + 1) * c.bigPageSize → j * c.bigPageSize < stop → m.tables.big j = .mapped →
    HasRoom c ((j + 1) * c.bigPageSize)

/-- **`PrepareSmallPageMapping`**: the big pages that the range meets have small ones, and all
addresses have what they had. -/
theorem prepareSmallPageMapping_spec (hc : c.Ok) (h : m.Ok c) {start size : ℕ}
    (hlimit : start + size ≤ c.addressSpaceSize) (hroom : m.Expandable c start (start + size)) :
    wp (m.prepareSmallPageMapping start size) fun m' held => held = true ∧ m'.Ok c ∧
      (∀ a, m'.tables.pageState c a = m.tables.pageState c a) ∧
      (∀ a, start ≤ a → a < start + size → m'.tables.big (a / c.bigPageSize) = .smallPages) ∧
      ∀ j, m'.tables.big j = m.tables.big j ∨ m'.tables.big j = .smallPages := by
  rw [prepareSmallPageMapping]
  by_cases hsize : size = 0
  · rw [if_pos hsize, pure_eq, wp_ret]
    exact ⟨rfl, h, fun _ => rfl, fun a _ _ => by omega, fun _ => .inl rfl⟩
  have hpos := c.bigPageSize_pos
  obtain ⟨first, hfirst⟩ : ∃ first, first = start / c.bigPageSize := ⟨_, rfl⟩
  obtain ⟨last, hlast⟩ : ∃ last, last = (start + size - 1) / c.bigPageSize := ⟨_, rfl⟩
  have hle : first ≤ last := by
    rw [hfirst, hlast]
    exact Nat.div_le_div_right (by omega)
  have hstop : last * c.bigPageSize ≤ start + size - 1 := hlast ▸ Nat.div_mul_le_self ..
  have hstart : start < (first + 1) * c.bigPageSize := by
    rw [hfirst]
    exact Nat.lt_mul_of_div_lt (Nat.lt_succ_self _) hpos
  have hfit : (last + 1) * c.bigPageSize ≤ c.addressSpaceSize := by
    obtain ⟨k, hk⟩ := hc.dvd_addressSpaceSize
    have hlt : last * c.bigPageSize < k * c.bigPageSize := by
      rw [Nat.mul_comm k, ← hk]
      omega
    rw [hk, Nat.mul_comm c.bigPageSize]
    exact Nat.mul_le_mul_right _ (Nat.lt_of_mul_lt_mul_right hlt)
  rw [if_neg hsize, h.sized.config, ← hfirst, ← hlast]
  dsimp only
  refine wp_mono (wp_forOffsets (I := fun k m' => m'.Ok c ∧ (∀ a, m'.tables.pageState c a = m.tables.pageState c a) ∧
    ∀ j, m'.tables.big j = if first ≤ j ∧ j < first + k then .smallPages else m.tables.big j)
    (rounds_pages hle hpos) (fun k m' hk hI => ?_) ⟨h, fun _ => rfl, fun j => (if_neg (by omega)).symm⟩)
    fun m' held hr => ?_
  · obtain ⟨hm', hstate, hbig⟩ := hI
    have hj : (first + k + 1) * c.bigPageSize ≤ c.addressSpaceSize :=
      Nat.le_trans (Nat.mul_le_mul_right _ (by omega)) hfit
    have hk₁ : (first + 1) * c.bigPageSize ≤ (first + k + 1) * c.bigPageSize :=
      Nat.mul_le_mul_right _ (by omega)
    have hk₂ : (first + k) * c.bigPageSize ≤ last * c.bigPageSize :=
      Nat.mul_le_mul_right _ (by omega)
    rw [← Nat.add_mul]
    refine wp_mono (prepareSmallPage_spec hc hm'.sized hm'.tables hj fun hmap => ?_)
      fun m'' held hr => ?_
    · rw [hbig, if_neg (by omega)] at hmap
      exact hroom _ (Nat.lt_of_lt_of_le hstart hk₁) (by omega) hmap
    · obtain ⟨hheld, hs, ht, hstate', hbig'⟩ := hr
      refine ⟨hheld, ⟨hs, ht⟩, fun a => (hstate' a).trans (hstate a), fun j => ?_⟩
      rw [hbig', update_apply, hbig]
      grind
  · obtain ⟨hheld, hm', hstate, hbig⟩ := hr
    refine ⟨hheld, hm', hstate, fun a ha ha' => ?_, fun j => ?_⟩
    · have hfa : first ≤ a / c.bigPageSize := hfirst ▸ Nat.div_le_div_right ha
      have hla : a / c.bigPageSize ≤ last := hlast ▸ Nat.div_le_div_right (by omega)
      rw [hbig, if_pos ⟨hfa, by omega⟩]
    · rw [hbig]
      split
      · exact .inr rfl
      · exact .inl rfl

end MemoryManager
end Tegra
end NXEmu
