/-
# References to pages

`src/nxemu-os/core/hle/kernel/k_memory_manager.{h,cpp}`.  Pages are allocated with a first reference each, and their
users open and close further ones.  Whatever the users do, as long as they only open and close what they have, a page
is free just when nobody has it, and `Close` hands those pages to the heaps that lost their last reference
(`KMemoryManager.Run.serves`).
-/

import NXEmu.Kernel.MemoryManagerContinuous

namespace NXEmu
namespace Kernel
namespace KMemoryManager

open Exec

variable {s s' s'' : KMemoryManager} {numPages address x k : ℕ} {pages pages' : List ℕ}

/-! ### Groups of pages -/

/-- The pages have one reference more. -/
structure Opened (s : KMemoryManager) (pages : List ℕ) (s' : KMemoryManager) : Prop where
  managed : Managed s'
  layout : SameLayout s s'
  refCount : ∀ x, PageSize ∣ x → s'.refCount x = if x ∈ pages then s.refCount x + 1 else s.refCount x
  free : ∀ x, s'.IsFree x ↔ s.IsFree x

theorem Opened.append (h : Opened s pages s') (h' : Opened s' pages' s'') (hnodup : (pages ++ pages').Nodup) :
    Opened s (pages ++ pages') s'' := by
  refine ⟨h'.managed, h.layout.trans h'.layout, fun x hx => ?_, fun x => (h'.free x).trans (h.free x)⟩
  rw [h'.refCount x hx, h.refCount x hx]
  by_cases hmem : x ∈ pages
  · rw [if_neg fun hmem' => (List.nodup_append.1 hnodup).2.2 x hmem x hmem' rfl, if_pos hmem,
      if_pos (List.mem_append_left _ hmem)]
  · simp only [hmem, List.mem_append, false_or, if_false]

/-- The loops of `Open` and `OpenFirst`. -/
theorem Managed.openWith_spec (hs : Managed s) (expected : BitVec 16 → Bool) (haddr : PageSize ∣ address)
    (hcovers : Covers s address numPages) (hused : ∀ x ∈ rangePages address numPages, ¬s.IsFree x)
    (hexpected : ∀ x ∈ rangePages address numPages, expected (s.refCount x + 1) = true) :
    wp (do
      let (s, _) ← overManagers (fun m address numPages => do
        let m ← Impl.openFrom expected numPages m (m.getPageOffset address)
        return (m, [])) numPages s address numPages
      return s) fun s' held => held = true ∧ Opened s (pageList address numPages) s' := by
  rw [wp_bind]
  refine wp_mono (overManagers_spec (manages_openFrom expected) numPages s address numPages le_rfl hs haddr
    hcovers hused) ?_
  rintro ⟨s', handed⟩ held ⟨hheld, hranged, hpages⟩
  refine wp_ret.2 ⟨by rw [hheld.2 hexpected]; rfl, hranged.managed, hranged.layout, fun x hx => ?_, fun x => ?_⟩
  · rw [hranged.refCount x hx]
    exact if_congr mem_pageList.symm rfl rfl
  · rw [hranged.free, hpages, List.filter_false]
    exact or_iff_left List.not_mem_nil

/-- **The first references** to the pages of a group. -/
theorem openBlocks_spec : ∀ (blocks : List KBlockInfo) (s : KMemoryManager), Managed s →
    (∀ b ∈ blocks, Covers s b.getAddress b.numPages) → (blocks.flatMap KBlockInfo.pages).Nodup →
    (∀ x ∈ blocks.flatMap KBlockInfo.pages, ¬s.IsFree x ∧ s.refCount x = 0) → wp (openBlocks blocks s) fun s' held =>
      held = true ∧ Opened s (blocks.flatMap KBlockInfo.pages) s' := by
  intro blocks
  induction blocks with
  | nil => exact fun s hs _ _ _ => wp_ret.2 ⟨rfl, hs, .refl s, fun x _ => rfl, fun x => .rfl⟩
  | cons b rest ih =>
    intro s hs hcovers hnodup hall
    rw [List.flatMap_cons] at hnodup hall ⊢
    have haddr : PageSize ∣ b.getAddress := Nat.dvd_mul_left _ _
    have hmem : ∀ x ∈ rangePages b.getAddress b.numPages, ¬s.IsFree x ∧ s.refCount x = 0 := fun x hx =>
      hall x (List.mem_append_left _ (mem_pageList.2 hx))
    rw [openBlocks, wp_bind]
    refine wp_mono (hs.openWith_spec (fun refCount => refCount == 1) haddr (hcovers b List.mem_cons_self)
      (fun x hx => (hmem x hx).1) fun x hx => by rw [(hmem x hx).2]; rfl) ?_
    rintro s₁ held ⟨rfl, (hopened : Opened s b.pages s₁)⟩
    refine wp_mono (ih s₁ hopened.managed (fun b hb x hx => ?_) (List.nodup_append.1 hnodup).2.1 fun x hx => ?_) ?_
    · obtain ⟨m, hm, hwithin⟩ := hcovers b (List.mem_cons_of_mem _ hb) x hx
      exact ⟨m, hopened.layout.numManagers ▸ hm, (hopened.layout.within m x).2 hwithin⟩
    · obtain ⟨hused, hcount⟩ := hall x (List.mem_append_right _ hx)
      have hpage : PageSize ∣ x := by
        obtain ⟨b, -, hb⟩ := List.mem_flatMap.1 hx
        exact dvd_of_mem_rangePages (Nat.dvd_mul_left _ _) (mem_pageList.1 hb)
      refine ⟨fun hfree => hused ((hopened.free x).1 hfree), ?_⟩
      rw [hopened.refCount x hpage, if_neg fun hin => (List.nodup_append.1 hnodup).2.2 x hin x hx rfl, hcount]
    · rintro s₂ held ⟨rfl, hrest⟩
      exact ⟨rfl, hopened.append hrest hnodup⟩

theorem Managed.isFree_within (hs : Managed s) (hfree : s.IsFree x) :
    PageSize ∣ x ∧ ∃ m < s.numManagers, s.Within m x := by
  obtain ⟨m, hm, hx⟩ := hfree
  obtain ⟨hpage, hle, hlt⟩ := (hs.live m hm).mem_inside hx
  exact ⟨hpage, m, hm, hle, (Nat.lt_add_of_pos_right (by decide)).trans_le hlt⟩

/-- **`AllocateAndOpen`** gives so many pages with a first reference each, or none. -/
theorem Managed.allocateAndOpen_exact (hs : Managed s) (hidle : Idle s) {g : KPageGroup} (hg : g.blocks = [])
    (numPages : ℕ) (pool : Pool) (dir : Direction) (happart : (s.order pool dir).Pairwise (Apart s)) :
    wp (s.allocateAndOpen g numPages pool dir) fun r held => held = true ∧ Allocates s r.2.2.pages r.2.1 ∧
      if r.1 = .success then r.2.2.pages.Nodup ∧ r.2.2.pages.length = numPages else r.2.2.pages = [] := by
  have hpages : g.pages = [] := by rw [KPageGroup.pages, hg]; rfl
  have hnone : ∀ {s'}, Managed s' → OnlyHeaps s s' → (∀ x, s'.IsFree x ↔ s.IsFree x) → Allocates s [] s' :=
    fun hmanaged honly hfree => ⟨hmanaged, honly.layout, fun x hx => absurd hx List.not_mem_nil,
      fun x _ _ => ⟨hfree x, honly.refCount x⟩⟩
  rw [allocateAndOpen, KPageGroup.getNumPages, hg, List.map_nil, List.sum_nil, wp_bind, wp_assert]
  split_ifs with hzero
  · refine wp_ret.2 ⟨rfl, ?_⟩
    simp only [hpages, if_true]
    exact ⟨hnone hs (.refl s) fun x => .rfl, List.nodup_nil, hzero.symm⟩
  rw [wp_bind]
  refine wp_mono (hs.allocatePageGroupImpl_spec hg numPages pool dir true happart) ?_
  rintro ⟨result, s₁, out⟩ held ⟨rfl, hmanaged, honly, -, hsettled⟩
  dsimp only at hmanaged honly hsettled ⊢
  have hfree : ∀ {f : ℕ → Finset ℕ}, (∀ m < s.numManagers, s₁.freePages m = f m) →
      ∀ x, s₁.IsFree x ↔ ∃ m < s.numManagers, x ∈ f m := fun hf x => by
    simp only [IsFree, honly.layout.numManagers]
    exact exists_congr fun m => and_congr_right fun hm => by rw [hf m hm]
  split_ifs with hsuccess
  · obtain ⟨hnodup, hlength, hsource, htaken⟩ := hsettled.success hsuccess
    have hfrom : ∀ x ∈ out.pages, s.IsFree x := fun x hx => by
      obtain ⟨m, hm, hx⟩ := hsource x hx
      exact ⟨m, hs.mem_order hm, hx⟩
    have hgone : ∀ x, s₁.IsFree x ↔ s.IsFree x ∧ x ∉ out.pages := fun x => by
      rw [hfree htaken]
      simp only [Finset.mem_sdiff, List.mem_toFinset, ← and_assoc, exists_and_right, IsFree]
    rw [wp_bind]
    refine wp_mono (openBlocks_spec out.blocks s₁ hmanaged (fun b hb x hx => ?_) hnodup fun x hx => ?_) ?_
    · obtain ⟨-, m, hm, hwithin⟩ := hs.isFree_within (hfrom x (List.mem_flatMap.2 ⟨b, hb, mem_pageList.2 hx⟩))
      exact ⟨m, honly.layout.numManagers ▸ hm, (honly.layout.within m x).2 hwithin⟩
    · exact ⟨fun h => ((hgone x).1 h).2 hx, (honly.refCount x).trans (hidle x (hfrom x hx))⟩
    · rintro s₂ held ⟨rfl, hopened⟩
      refine wp_ret.2 ⟨rfl, ⟨hopened.managed, honly.layout.trans hopened.layout, fun x hx => ?_,
        fun x hpage hx => ?_⟩, by rw [if_pos rfl]; exact ⟨hnodup, hlength⟩⟩
      · refine ⟨hfrom x hx, fun h => ((hgone x).1 ((hopened.free x).1 h)).2 hx, ?_⟩
        rw [hopened.refCount x (hs.isFree_within (hfrom x hx)).1, honly.refCount, hidle x (hfrom x hx)]
        exact if_pos hx
      · refine ⟨((hopened.free x).trans (hgone x)).trans (and_iff_left hx), ?_⟩
        rw [hopened.refCount x hpage, honly.refCount]
        exact if_neg hx
  · obtain ⟨hblocks, hsame⟩ := hsettled.failure hsuccess
    have hempty : out.pages = [] := by rw [KPageGroup.pages, hblocks]; rfl
    refine wp_ret.2 ⟨rfl, ?_⟩
    simp only [hempty, if_neg hsuccess]
    exact ⟨hnone hmanaged honly (hfree hsame), trivial⟩

/-! ### Runs -/

/-- One reference more to each of the pages. -/
def more (pages : List ℕ) (refs : ℕ → ℕ) (x : ℕ) : ℕ := if x ∈ pages then refs x + 1 else refs x

/-- One reference less. -/
def fewer (pages : List ℕ) (refs : ℕ → ℕ) (x : ℕ) : ℕ := if x ∈ pages then refs x - 1 else refs x

/-- All calls of the users, with the references that they have then: they open and close pages to which they have
references, never more than 16 bits count. -/
inductive Run (s₀ : KMemoryManager) : KMemoryManager → (ℕ → ℕ) → Prop
  | start : Run s₀ s₀ fun _ => 0
  | allocateAndOpenContinuous {s refs} (h : Run s₀ s refs) {numPages alignPages pool dir r held} (hpos : 0 < alignPages)
      (hrun : s.allocateAndOpenContinuous numPages alignPages pool dir = .ret r held) :
      Run s₀ r.2 (more (if r.1 = 0 then [] else pageList r.1 numPages) refs)
  | allocateAndOpen {s refs} (h : Run s₀ s refs) {g : KPageGroup} {numPages pool dir r held} (hg : g.blocks = [])
      (happart : (s.order pool dir).Pairwise (Apart s)) (hrun : s.allocateAndOpen g numPages pool dir = .ret r held) :
      Run s₀ r.2.1 (more r.2.2.pages refs)
  | openPages {s refs} (h : Run s₀ s refs) {address numPages s' held} (haddr : PageSize ∣ address)
      (hrefs : ∀ x ∈ rangePages address numPages, 0 < refs x ∧ refs x < 2 ^ 16 - 1)
      (hrun : s.openPages address numPages = .ret s' held) : Run s₀ s' (more (pageList address numPages) refs)
  | close {s refs} (h : Run s₀ s refs) {address numPages r held} (haddr : PageSize ∣ address)
      (hrefs : ∀ x ∈ rangePages address numPages, 0 < refs x) (hrun : s.close address numPages = .ret r held) :
      Run s₀ r.1 (fewer (pageList address numPages) refs)

/-- The counts are the references of the users, and the pages without any are free. -/
structure Referenced (s : KMemoryManager) (refs : ℕ → ℕ) : Prop where
  managed : Managed s
  refCount : ∀ x, PageSize ∣ x → (s.refCount x).toNat = refs x
  inside : ∀ x, 0 < refs x → PageSize ∣ x ∧ ∃ m < s.numManagers, s.Within m x
  free : ∀ x, PageSize ∣ x → (∃ m < s.numManagers, s.Within m x) → (s.IsFree x ↔ refs x = 0)

variable {refs : ℕ → ℕ}

theorem Referenced.idle (h : Referenced s refs) : Idle s := fun x hfree => by
  obtain ⟨hpage, hwithin⟩ := h.managed.isFree_within hfree
  exact BitVec.eq_of_toNat_eq ((h.refCount x hpage).trans ((h.free x hpage hwithin).1 hfree))

theorem Referenced.used (h : Referenced s refs) (hpos : 0 < refs x) : ¬s.IsFree x := fun hfree =>
  Nat.ne_of_gt hpos ((h.free x (h.inside x hpos).1 (h.inside x hpos).2).1 hfree)

theorem SameLayout.exists_within (h : SameLayout s s') :
    (∃ m < s'.numManagers, s'.Within m x) ↔ ∃ m < s.numManagers, s.Within m x := by
  rw [h.numManagers]
  exact exists_congr fun m => and_congr_right fun _ => h.within m x

theorem Allocates.unreferenced (ha : Allocates s pages s') (h : Referenced s refs) (hx : x ∈ pages) : refs x = 0 := by
  obtain ⟨hpage, hwithin⟩ := h.managed.isFree_within (ha.taken x hx).1
  exact (h.free x hpage hwithin).1 (ha.taken x hx).1

theorem Referenced.allocates (h : Referenced s refs) (ha : Allocates s pages s') : Referenced s' (more pages refs) := by
  refine ⟨ha.managed, fun x hpage => ?_, fun x hpos => ?_, fun x hpage hwithin => ?_⟩
  · rw [more]
    split_ifs with hx
    · rw [(ha.taken x hx).2.2, ha.unreferenced h hx]
      rfl
    · rw [(ha.kept x hpage hx).2, h.refCount x hpage]
  · rw [more] at hpos
    rw [ha.layout.exists_within]
    split_ifs at hpos with hx
    · exact h.managed.isFree_within (ha.taken x hx).1
    · exact h.inside x hpos
  · rw [more]
    split_ifs with hx
    · exact iff_of_false (ha.taken x hx).2.1 id
    · rw [(ha.kept x hpage hx).1]
      exact h.free x hpage (ha.layout.exists_within.1 hwithin)

theorem Referenced.covers (h : Referenced s refs) (hrefs : ∀ x ∈ rangePages address numPages, 0 < refs x) :
    Covers s address numPages := fun x hx => (h.inside x (hrefs x hx)).2

/-- **`Open`** on pages to which there are references. -/
theorem Referenced.openPages_spec (h : Referenced s refs) (haddr : PageSize ∣ address)
    (hrefs : ∀ x ∈ rangePages address numPages, 0 < refs x ∧ refs x < 2 ^ 16 - 1) :
    wp (s.openPages address numPages) fun s' held =>
      held = true ∧ Referenced s' (more (pageList address numPages) refs) := by
  refine wp_mono (h.managed.openWith_spec (fun refCount => 1 < refCount) haddr
    (h.covers fun x hx => (hrefs x hx).1) (fun x hx => h.used (hrefs x hx).1) fun x hx => ?_) ?_
  · have hcount := h.refCount x (dvd_of_mem_rangePages haddr hx)
    have hbounds := hrefs x hx
    rw [decide_eq_true_eq]
    bv_omega
  rintro s' held ⟨rfl, ho⟩
  refine ⟨rfl, ho.managed, fun x hpage => ?_, fun x hpos => ?_, fun x hpage hwithin => ?_⟩
  · rw [ho.refCount x hpage, more, ← h.refCount x hpage]
    split_ifs with hx
    · have hcount := h.refCount x hpage
      have hbounds := hrefs x (mem_pageList.1 hx)
      bv_omega
    · rfl
  · rw [more] at hpos
    rw [ho.layout.exists_within]
    split_ifs at hpos with hx
    · exact h.inside x (hrefs x (mem_pageList.1 hx)).1
    · exact h.inside x hpos
  · rw [ho.free, more, h.free x hpage (ho.layout.exists_within.1 hwithin)]
    split_ifs with hx
    · exact iff_of_false (Nat.ne_of_gt (hrefs x (mem_pageList.1 hx)).1) id
    · rfl

/-- **`Close`** on pages to which there are references. -/
theorem Referenced.close_spec (h : Referenced s refs) (haddr : PageSize ∣ address)
    (hrefs : ∀ x ∈ rangePages address numPages, 0 < refs x) :
    wp (s.close address numPages) fun r held => held = true ∧
      pagesOf r.2 = (pageList address numPages).filter (fun x => refs x = 1) ∧
      Referenced r.1 (fewer (pageList address numPages) refs) := by
  refine wp_mono (h.managed.close_spec haddr (h.covers hrefs) fun x hx => h.used (hrefs x hx)) ?_
  rintro ⟨s', handed⟩ held ⟨hheld, hranged, hhanded⟩
  have hlast : ∀ x ∈ pageList address numPages, (s.refCount x - 1 == 0) = decide (refs x = 1) := fun x hx => by
    have hcount := h.refCount x (dvd_of_mem_rangePages haddr (mem_pageList.1 hx))
    rw [beq_eq_decide, decide_eq_decide]
    bv_omega
  have hpages := hhanded.trans (List.filter_congr hlast)
  refine ⟨hheld.2 fun x hx => ?_, hpages, hranged.managed, fun x hpage => ?_, fun x hpos => ?_,
    fun x hpage hwithin => ?_⟩
  · have hcount := h.refCount x (dvd_of_mem_rangePages haddr hx)
    have hpos := hrefs x hx
    bv_omega
  · rw [hranged.refCount x hpage, fewer, ← h.refCount x hpage, if_congr mem_pageList rfl rfl]
    split_ifs with hx
    · have hcount := h.refCount x hpage
      have hpos := hrefs x hx
      bv_omega
    · rfl
  · rw [hranged.layout.exists_within]
    refine h.inside x (hpos.trans_le ?_)
    rw [fewer]
    split_ifs
    · exact Nat.sub_le _ _
    · exact le_rfl
  · rw [hranged.free, hpages, List.mem_filter, decide_eq_true_eq, fewer,
      h.free x hpage (hranged.layout.exists_within.1 hwithin)]
    split_ifs with hx
    · have hpos := hrefs x (mem_pageList.1 hx)
      simp only [hx, true_and]
      omega
    · simp only [hx, false_and, or_false]

/-- The pages are free, and there are no references. -/
def Fresh (s : KMemoryManager) : Prop :=
  ∀ x, PageSize ∣ x → (∃ m < s.numManagers, s.Within m x) → s.IsFree x ∧ s.refCount x = 0

/-- What a state promises its users: the pages without references are the free ones, no call of theirs fails an
assertion, what is allocated nobody has, and `Close` frees the pages to which the last reference goes. -/
structure Serves (s : KMemoryManager) (refs : ℕ → ℕ) : Prop where
  referenced : Referenced s refs
  allocates : ∀ g : KPageGroup, g.blocks = [] → ∀ numPages pool dir, (s.order pool dir).Pairwise (Apart s) →
    Exec.wp (s.allocateAndOpen g numPages pool dir) fun r held => held = true ∧ ∀ x ∈ r.2.2.pages, refs x = 0
  allocatesContinuous : ∀ numPages alignPages, 0 < alignPages → ∀ pool dir,
    Exec.wlp (s.allocateAndOpenContinuous numPages alignPages pool dir) fun r _ =>
      r.1 ≠ 0 → ∀ x ∈ rangePages r.1 numPages, refs x = 0
  opens : ∀ address numPages, PageSize ∣ address →
    (∀ x ∈ rangePages address numPages, 0 < refs x ∧ refs x < 2 ^ 16 - 1) →
    Exec.wp (s.openPages address numPages) fun _ held => held = true
  closes : ∀ address numPages, PageSize ∣ address → (∀ x ∈ rangePages address numPages, 0 < refs x) →
    Exec.wp (s.close address numPages) fun r held => held = true ∧
      pagesOf r.2 = (pageList address numPages).filter fun x => refs x = 1

section

variable {s₀ : KMemoryManager} (hs : Managed s₀) (hfresh : Fresh s₀) (h : Run s₀ s refs)

include hs hfresh h

theorem Run.referenced :
    Referenced s refs := by
  induction h with
  | start =>
    refine ⟨hs, fun x hpage => ?_, fun x hpos => absurd hpos (Nat.lt_irrefl 0), fun x hpage hwithin => ?_⟩
    · by_cases hwithin : ∃ m < s₀.numManagers, s₀.Within m x
      · rw [(hfresh x hpage hwithin).2]
        rfl
      · rw [refCount_of_outside fun m hm hw => hwithin ⟨m, hm, hw⟩]
        rfl
    · exact iff_of_true (hfresh x hpage hwithin).1 rfl
  | allocateAndOpenContinuous _ hpos hrun ih =>
    obtain ⟨hopens, -⟩ := ih.managed.allocateAndOpenContinuous_returns hpos _ _ _ _ hrun
    exact ih.allocates (hopens.allocates ih.idle)
  | allocateAndOpen _ hg happart hrun ih =>
    obtain ⟨-, ha, -⟩ := wlp_of_wp (ih.managed.allocateAndOpen_exact ih.idle hg _ _ _ happart) _ _ hrun
    exact ih.allocates ha
  | openPages _ haddr hrefs hrun ih => exact (wlp_of_wp (ih.openPages_spec haddr hrefs) _ _ hrun).2
  | close _ haddr hrefs hrun ih => exact (wlp_of_wp (ih.close_spec haddr hrefs) _ _ hrun).2.2

/-- **The pages that nobody has are free**, in every run of the users. -/
theorem Run.serves :
    Serves s refs := by
  have href := h.referenced hs hfresh
  refine ⟨href, fun g hg numPages pool dir happart => ?_, fun numPages alignPages hpos pool dir => ?_,
    fun address numPages haddr hrefs => ?_, fun address numPages haddr hrefs => ?_⟩
  · refine wp_mono (href.managed.allocateAndOpen_exact href.idle hg numPages pool dir happart) ?_
    exact fun r held ⟨hheld, ha, _⟩ => ⟨hheld, fun x hx => ha.unreferenced href hx⟩
  · refine wlp_mono (href.managed.allocateAndOpenContinuous_returns hpos pool dir) ?_
    rintro r held ⟨hopens, -⟩ hne x hx
    refine (hopens.allocates href.idle).unreferenced href ?_
    rwa [if_neg hne, mem_pageList]
  · exact wp_mono (href.openPages_spec haddr hrefs) fun _ _ => And.left
  · exact wp_mono (href.close_spec haddr hrefs) fun _ _ h => ⟨h.1, h.2.1⟩

end

theorem fresh_one {h : KPageHeap} {held : Bool} (hpos : 0 < numPages) (hdid : filled 0x80000000 numPages = .ret h held)
    (hheld : held = true) : Fresh (oneManager numPages h) := by
  obtain ⟨-, haddress, hsize, hfree⟩ := filled_live (by decide) hpos hdid hheld
  rintro x hpage ⟨m, -, hle, hlt⟩
  refine ⟨⟨0, Nat.one_pos, ?_⟩, refCount_one h x⟩
  have hle' : h.heapAddress ≤ x := hle
  have hlt' : x < h.getEndAddress := hlt
  show x ∈ h.freePages
  rw [KPageHeap.getEndAddress, haddress, hsize] at hlt'
  rw [hfree, mem_rangePages (by decide)]
  exact ⟨hpage, haddress ▸ hle', hlt'⟩

/-- Five pages are allocated and two of them opened again.  The first `Close` of all five frees the other three, and
the second one those two. -/
theorem serves_closed : ∃ s₀ s₁ s₂ s₃ s₄ : KMemoryManager, ∃ freed freed' refs, Fresh s₀ ∧
    s₀.allocateAndOpenContinuous 5 4 .system .fromBack = .ret (0x80000000, s₁) true ∧
    s₁.openPages 0x80001000 2 = .ret s₂ true ∧ s₂.close 0x80000000 5 = .ret (s₃, freed) true ∧
    pagesOf freed = [0x80000000, 0x80003000, 0x80004000] ∧ s₃.close 0x80001000 2 = .ret (s₄, freed') true ∧
    pagesOf freed' = [0x80001000, 0x80002000] ∧ (∀ x, refs x = 0) ∧ Serves s₄ refs := by
  obtain ⟨h, s₁, hdid, hmanaged, hallocate⟩ := exists_allocated
  have hfresh := fresh_one (by decide) hdid rfl
  have h₁ : Run (oneManager 40 h) s₁ (more (pageList 0x80000000 5) fun _ => 0) :=
    .allocateAndOpenContinuous .start (by decide) hallocate
  obtain ⟨s₂, _, hopen, rfl⟩ := (Run.serves hmanaged hfresh h₁).opens 0x80001000 2 (by decide) (by decide)
  have h₂ := h₁.openPages (by decide) (by decide) hopen
  obtain ⟨⟨s₃, freed⟩, _, hclose, rfl, hfreed⟩ := (Run.serves hmanaged hfresh h₂).closes 0x80000000 5 (by decide) (by decide)
  have h₃ := h₂.close (by decide) (by decide) hclose
  obtain ⟨⟨s₄, freed'⟩, _, hclose', rfl, hfreed'⟩ :=
    (Run.serves hmanaged hfresh h₃).closes 0x80001000 2 (by decide) (by decide)
  have h₄ := h₃.close (by decide) (by decide) hclose'
  refine ⟨_, s₁, s₂, s₃, s₄, freed, freed', _, hfresh, hallocate, hopen, hclose, hfreed.trans (by decide), hclose',
    hfreed'.trans (by decide), fun x => ?_, Run.serves hmanaged hfresh h₄⟩
  have hsub : ∀ x ∈ pageList 0x80001000 2, x ∈ pageList 0x80000000 5 := by decide
  by_cases htwo : x ∈ pageList 0x80001000 2
  · simp [more, fewer, htwo, hsub x htwo]
  · by_cases hfive : x ∈ pageList 0x80000000 5 <;> simp [more, fewer, htwo, hfive]

end KMemoryManager
end Kernel
end NXEmu
