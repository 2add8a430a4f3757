/-
# The books of a page heap

The free blocks of the eight sizes are tidy books of the free addresses (`KPageHeap.Books`).  `FreeBlock`
adds a block to them, through as many sizes as it completes groups in (`Books.freeBlock_spec`), and `Free`
splits a range into aligned blocks of falling sizes on both sides of the largest that fit
(`Books.free_spec`): what is free afterwards is what was free and the range.

That the heap does not begin at the address 0 is needed throughout, since a group that begins there is
taken for none.
-/

import NXEmu.Kernel.PageHeapBlocks

namespace NXEmu
namespace Kernel

open Common Buddies Exec Function

variable {i a x start finish : ℕ}

namespace KPageHeap

variable {h h' : KPageHeap}

/-- The free blocks of the sizes. -/
def books (h : KPageHeap) (i : ℕ) : Finset ℕ := (h.blocks i).free

/-- An address is in a free block. -/
def IsFree (h : KPageHeap) (x : ℕ) : Prop := Covers numMemoryBlockPageShifts getBlockSize h.books x

/-- What every routine keeps. -/
structure Books (h : KPageHeap) : Prop where
  numBlocks : h.numBlocks = numMemoryBlockPageShifts
  nonzero : 0 < h.heapAddress
  pages : PageSize ∣ h.heapAddress ∧ PageSize ∣ h.heapSize
  blocks : ∀ i < numMemoryBlockPageShifts, Block.At h.heapAddress h.heapSize i (h.blocks i)
  tidy : Tidy numMemoryBlockPageShifts getBlockSize h.books
  inside : ∀ i < numMemoryBlockPageShifts, ∀ a ∈ h.books i,
    h.heapAddress ≤ a ∧ a + getBlockSize i ≤ h.getEndAddress

/-- The region of the heap and its generator are as they were. -/
structure SameRegion (h h' : KPageHeap) : Prop where
  address : h'.heapAddress = h.heapAddress
  size : h'.heapSize = h.heapSize

theorem SameRegion.getEndAddress (hsame : SameRegion h h') : h'.getEndAddress = h.getEndAddress := by
  rw [KPageHeap.getEndAddress, KPageHeap.getEndAddress, hsame.address, hsame.size]

/-- What freeing a range does. -/
structure Freed (h h' : KPageHeap) (start finish : ℕ) : Prop where
  books : Books h'
  region : SameRegion h h'
  rng : h'.rng = h.rng
  free : ∀ x, h'.IsFree x ↔ h.IsFree x ∨ (start ≤ x ∧ x < finish)

theorem Freed.refl (hbooks : Books h) (hempty : finish ≤ start) : Freed h h start finish :=
  ⟨hbooks, ⟨rfl, rfl⟩, rfl, fun _ => (or_iff_left (by omega)).symm⟩

/-- Ranges that meet are freed one after the other. -/
theorem Freed.trans {h'' : KPageHeap} {lo hi lo' hi' : ℕ} (h₁ : Freed h h' lo hi)
    (h₂ : Freed h' h'' lo' hi') (hjoin : ∀ x, start ≤ x ∧ x < finish ↔
      (lo ≤ x ∧ x < hi) ∨ (lo' ≤ x ∧ x < hi')) : Freed h h'' start finish := by
  refine ⟨h₂.books, ⟨h₂.region.address.trans h₁.region.address, h₂.region.size.trans h₁.region.size⟩,
    h₂.rng.trans h₁.rng, fun x => ?_⟩
  rw [h₂.free, h₁.free, or_assoc, hjoin]

theorem block_eq (h : KPageHeap) (hi : i < numMemoryBlockPageShifts) :
    h.block i = .ret (h.blocks i) true := if_pos hi

theorem books_setBlock (h : KPageHeap) (i : ℕ) (b : Block) : (h.setBlock i b).books = put h.books i b.free := by
  funext j
  show (update h.blocks i b j).free = update h.books i b.free j
  by_cases hji : j = i
  · subst hji
    rw [update_self, update_self]
  · rw [update_of_ne hji, update_of_ne hji]
    rfl

theorem Books.blocks_setBlock (hbooks : Books h) {b : Block} (hat : Block.At h.heapAddress h.heapSize i b) :
    ∀ j < numMemoryBlockPageShifts, Block.At h.heapAddress h.heapSize j ((h.setBlock i b).blocks j) := by
  intro j hj
  show Block.At h.heapAddress h.heapSize j (update h.blocks i b j)
  by_cases hji : j = i
  · subst hji
    rw [update_self]
    exact hat
  · rw [update_of_ne hji]
    exact hbooks.blocks j hj

/-- What the group of a block makes up lies in the heap, and does not begin at 0. -/
theorem Books.group_inside (hbooks : Books h) (hi : i < numMemoryBlockPageShifts)
    (ha : getBlockSize i ∣ a) (hle : h.heapAddress ≤ a) (hin : a + getBlockSize i ≤ h.getEndAddress)
    (hfull : Block.Full (h.blocks i) i a) :
    h.heapAddress ≤ Block.groupStart i a ∧ Block.groupStart i a + getBlockSize (i + 1) ≤ h.getEndAddress := by
  obtain ⟨hlt, hall⟩ := hfull
  obtain ⟨hdvd, hstart, hafter⟩ := Block.groupStart_spec i a
  have hpos := getBlockSize_pos i
  have hsmall : getBlockSize i ≤ getBlockSize (i + 1) :=
    Nat.le_of_dvd (getBlockSize_pos _) (graded_getBlockSize.dvd i hlt)
  have hinside : ∀ c, getBlockSize i ∣ c → Block.groupStart i a ≤ c →
      c < Block.groupStart i a + getBlockSize (i + 1) →
      h.heapAddress ≤ c ∧ c + getBlockSize i ≤ h.getEndAddress := by
    intro c hc hlow hhigh
    rcases hall c hc hlow hhigh with rfl | hmem
    · exact ⟨hle, hin⟩
    · exact hbooks.inside i hi c hmem
  have hfirst := hinside (Block.groupStart i a) ((graded_getBlockSize.dvd i hlt).trans hdvd) le_rfl (by omega)
  have hlast := hinside (Block.groupStart i a + (getBlockSize (i + 1) - getBlockSize i))
    (Nat.dvd_add ((graded_getBlockSize.dvd i hlt).trans hdvd)
      (Nat.dvd_sub (graded_getBlockSize.dvd i hlt) (Nat.dvd_refl _))) (by omega) (by omega)
  exact ⟨hfirst.1, by omega⟩

/-- **The loop of `FreeBlock`**: the block is free afterwards, alone or in what its groups made up. -/
theorem freeBlockFrom_spec : ∀ rounds (h : KPageHeap) block i, i < numMemoryBlockPageShifts →
    numMemoryBlockPageShifts < i + rounds → Books h → getBlockSize i ∣ block → h.heapAddress ≤ block →
    block + getBlockSize i ≤ h.getEndAddress → (∀ x, block ≤ x → x < block + getBlockSize i → ¬h.IsFree x) →
      wp (freeBlockFrom rounds h block i) fun h' held =>
        held = true ∧ Freed h h' block (block + getBlockSize i) := by
  intro rounds
  induction rounds with
  | zero => intro h block i hi hrounds; omega
  | succ rounds ih =>
    intro h block i hi hrounds hbooks hdvd hle hin hnot
    have hpos := getBlockSize_pos i
    have hnotFree : block ∉ (h.blocks i).free := fun hmem =>
      hnot block le_rfl (by omega) ⟨i, hi, block, hmem, le_rfl, by omega⟩
    rw [freeBlockFrom, block_eq h hi, ret_true_bind, wp_bind]
    refine wp_mono ((hbooks.blocks i hi).pushBlock_spec hdvd hle hin hnotFree) ?_
    rintro ⟨block', b⟩ held ⟨rfl, hat, houtcome⟩
    have hblocks := hbooks.blocks_setBlock hat
    have hsetBooks := books_setBlock h i b
    rcases houtcome with ⟨hfull, hzero, hfree⟩ | ⟨hfull, hgroup, hfree⟩
    · -- the group is not complete, and the loop ends
      simp only at hzero hfree
      rw [hfree] at hsetBooks
      show wp (if block' ≠ 0 then _ else _) _
      rw [if_neg (not_not.2 hzero)]
      refine wp_ret.2 ⟨rfl, ⟨hbooks.numBlocks, hbooks.nonzero, hbooks.pages, hblocks, ?_, ?_⟩,
        ⟨rfl, rfl⟩, rfl, fun x => ?_⟩
      · rw [hsetBooks]
        refine hbooks.tidy.insert hi hdvd hnot fun hlt => ?_
        by_contra hnone
        refine hfull ⟨hlt, fun c hc hlow hhigh => ?_⟩
        by_contra hneither
        rw [not_or] at hneither
        obtain ⟨hgdvd, hgle, hglt⟩ := Block.groupStart_spec i block
        exact hnone ⟨c, _, hgdvd, hgle, hglt, hc, hlow, hhigh, hneither.1, hneither.2⟩
      · intro j hj c hc
        rw [hsetBooks] at hc
        rcases mem_put_insert.1 hc with ⟨rfl, rfl⟩ | hc
        · exact ⟨hle, hin⟩
        · exact hbooks.inside j hj c hc
      · rw [IsFree, hsetBooks]
        exact covers_insert hi
    · -- the group is taken out, and the loop goes on with what it makes up
      simp only at hgroup hfree
      obtain ⟨hgle, hgin⟩ := hbooks.group_inside hi hdvd hle hin hfull
      obtain ⟨hgdvd, hgstart, hgafter⟩ := Block.groupStart_spec i block
      have hcompletes : Completes numMemoryBlockPageShifts getBlockSize h.books i block
          (Block.groupStart i block) :=
        ⟨hfull.1, hdvd, hgdvd, hgstart, hgafter, hnot, hfull.2⟩
      obtain ⟨htidy, huncovered, hcovers⟩ := hbooks.tidy.regroup graded_getBlockSize hcompletes
      have hungroup : (h.setBlock i b).books = ungroup getBlockSize h.books i (Block.groupStart i block) := by
        rw [hsetBooks, hfree]
        rfl
      have hnonzero := hbooks.nonzero
      have hbooks' : Books (h.setBlock i b) := by
        refine ⟨hbooks.numBlocks, hbooks.nonzero, hbooks.pages, hblocks, by rw [hungroup]; exact htidy, ?_⟩
        intro j hj c hc
        rw [hungroup] at hc
        exact hbooks.inside j hj c (ungroup_subset j hc)
      show wp (if block' ≠ 0 then _ else _) _
      rw [if_pos (by omega)]
      refine wp_mono (ih (h.setBlock i b) block' (i + 1) hfull.1 (by omega) hbooks'
        (by rw [hgroup]; exact hgdvd) (by rw [hgroup]; exact hgle) (by rw [hgroup]; exact hgin) ?_) ?_
      · intro x hlow hhigh hcovered
        rw [hgroup] at hlow hhigh
        rw [IsFree, hungroup] at hcovered
        exact huncovered x hlow hhigh hcovered
      · rintro h' held ⟨rfl, hfreed⟩
        refine ⟨rfl, hfreed.books, ⟨hfreed.region.address, hfreed.region.size⟩, hfreed.rng, fun x => ?_⟩
        rw [hfreed.free, hgroup, IsFree, hungroup]
        exact hcovers x

/-- **`FreeBlock`.** -/
theorem Books.freeBlock_spec (hbooks : Books h) (hi : i < numMemoryBlockPageShifts)
    (ha : getBlockSize i ∣ a) (hle : h.heapAddress ≤ a) (hin : a + getBlockSize i ≤ h.getEndAddress)
    (hnot : ∀ x, a ≤ x → x < a + getBlockSize i → ¬h.IsFree x) :
    wp (h.freeBlock a i) fun h' held => held = true ∧ Freed h h' a (a + getBlockSize i) :=
  freeBlockFrom_spec _ h a i hi (by omega) hbooks ha hle hin hnot

/-! ### Freeing a range -/

/-- A range of the heap of which nothing is free. -/
structure Used (h : KPageHeap) (start finish : ℕ) : Prop where
  le : h.heapAddress ≤ start
  ge : finish ≤ h.getEndAddress
  used : ∀ x, start ≤ x → x < finish → ¬h.IsFree x

theorem Used.mono {start' finish' : ℕ} (hused : Used h start finish) (hle : start ≤ start')
    (hge : finish' ≤ finish) : Used h start' finish' :=
  ⟨hused.le.trans hle, hge.trans hused.ge, fun x hlow hhigh => hused.used x (by omega) (by omega)⟩

/-- What is beside a range that is freed stays used. -/
theorem Used.beside {lo hi : ℕ} (hused : Used h start finish) (hfreed : Freed h h' lo hi)
    (hside : ∀ x, start ≤ x → x < finish → ¬(lo ≤ x ∧ x < hi)) : Used h' start finish := by
  refine ⟨by rw [hfreed.region.address]; exact hused.le, by rw [hfreed.region.getEndAddress]; exact hused.ge,
    fun x hlow hhigh hfree => ?_⟩
  rw [hfreed.free] at hfree
  exact hfree.elim (hused.used x hlow hhigh) (hside x hlow hhigh)

theorem Books.freeUsed_spec (hbooks : Books h) (hi : i < numMemoryBlockPageShifts)
    (ha : getBlockSize i ∣ a) (hused : Used h a (a + getBlockSize i)) :
    wp (h.freeBlock a i) fun h' held => held = true ∧ Freed h h' a (a + getBlockSize i) :=
  hbooks.freeBlock_spec hi ha hused.le hused.ge hused.used

/-- **The loops that go up**: from block to block, as far as the condition says. -/
theorem freeUpwards_spec (hi : i < numMemoryBlockPageShifts) (goOn : ℕ → Bool) (last : ℕ)
    (hlast : getBlockSize i ∣ last) (hgoOn : ∀ b, getBlockSize i ∣ b → (goOn b = true ↔ b < last)) :
    ∀ rounds (h : KPageHeap) block, Books h → getBlockSize i ∣ block → block ≤ last →
      last ≤ block + rounds → Used h block last →
      wp (freeUpwards i (getBlockSize i) goOn rounds h block) fun r held =>
        held = true ∧ r.2 = last ∧ Freed h r.1 block last := by
  have hpos := getBlockSize_pos i
  intro rounds
  induction rounds with
  | zero =>
    intro h block hbooks hblock hle hrounds hused
    exact wp_ret.2 ⟨rfl, Nat.le_antisymm hle (by omega), Freed.refl hbooks (by omega)⟩
  | succ rounds ih =>
    intro h block hbooks hblock hle hrounds hused
    rw [freeUpwards]
    by_cases hlt : block < last
    · have hnext : block + getBlockSize i ≤ last :=
        Nat.le_of_lt_add_of_dvd (by omega) (Nat.dvd_add hblock (Nat.dvd_refl _)) hlast
      rw [if_pos ((hgoOn block hblock).2 hlt), wp_bind]
      refine wp_mono (hbooks.freeUsed_spec hi hblock (hused.mono le_rfl hnext)) ?_
      rintro h' held ⟨rfl, hfreed⟩
      refine wp_mono (ih h' (block + getBlockSize i) hfreed.books
        (Nat.dvd_add hblock (Nat.dvd_refl _)) hnext (by omega)
        ((hused.mono (by omega) le_rfl).beside hfreed fun x _ _ => by omega)) ?_
      rintro ⟨h'', block'⟩ held ⟨rfl, hend, hrest⟩
      exact ⟨rfl, hend, hfreed.trans hrest fun x => by omega⟩
    · rw [if_neg fun hgo => hlt ((hgoOn block hblock).1 hgo)]
      exact wp_ret.2 ⟨rfl, by omega, Freed.refl hbooks (by omega)⟩

/-- **The loop that goes down**: from block to block, until one would begin before the range. -/
theorem freeDownwards_spec (hi : i < numMemoryBlockPageShifts) (start : ℕ) :
    ∀ rounds (h : KPageHeap) finish, Books h → getBlockSize i ∣ finish →
      alignUp start (getBlockSize i) ≤ finish → finish ≤ alignUp start (getBlockSize i) + rounds →
      Used h start finish →
      wp (freeDownwards i (getBlockSize i) start rounds h finish) fun r held =>
        held = true ∧ r.2 = alignUp start (getBlockSize i) ∧ Freed h r.1 (alignUp start (getBlockSize i)) finish := by
  have hpos := getBlockSize_pos i
  have hup := le_alignUp start hpos
  have hbelow := alignUp_lt start hpos
  have hdvd := dvd_alignUp start (getBlockSize i)
  generalize alignUp start (getBlockSize i) = first at hup hbelow hdvd ⊢
  intro rounds
  induction rounds with
  | zero =>
    intro h finish hbooks hfinish hle hrounds hused
    exact wp_ret.2 ⟨rfl, Nat.le_antisymm (by omega) hle, Freed.refl hbooks (by omega)⟩
  | succ rounds ih =>
    intro h finish hbooks hfinish hle hrounds hused
    rw [freeDownwards]
    by_cases hlt : first < finish
    · have hnext : first + getBlockSize i ≤ finish :=
        Nat.le_of_lt_add_of_dvd (by omega) (Nat.dvd_add hdvd (Nat.dvd_refl _)) hfinish
      have hback : finish - getBlockSize i + getBlockSize i = finish := by omega
      rw [if_pos (by omega), wp_bind]
      refine wp_mono (hbooks.freeUsed_spec hi (Nat.dvd_sub hfinish (Nat.dvd_refl _))
        (hused.mono (by omega) hback.le)) ?_
      rintro h' held ⟨rfl, hfreed⟩
      rw [hback] at hfreed
      refine wp_mono (ih h' (finish - getBlockSize i) hfreed.books
        (Nat.dvd_sub hfinish (Nat.dvd_refl _)) (by omega) (by omega)
        ((hused.mono le_rfl (Nat.sub_le _ _)).beside hfreed fun x _ _ => by omega)) ?_
      rintro ⟨h'', finish'⟩ held ⟨rfl, hend, hrest⟩
      exact ⟨rfl, hend, hfreed.trans hrest fun x => by omega⟩
    · have hbig : ¬start + getBlockSize i ≤ finish := by omega
      rw [if_neg hbig]
      exact wp_ret.2 ⟨rfl, by omega, Freed.refl hbooks (by omega)⟩

theorem Books.getSize (hbooks : Books h) (hi : i < numMemoryBlockPageShifts) :
    (h.blocks i).getSize = getBlockSize i := (hbooks.blocks i hi).getSize

/-- **Before the big blocks**: in falling sizes, down to the start. -/
theorem freeBefore_spec (start : ℕ) (hstart : PageSize ∣ start) : ∀ i ≤ numMemoryBlockPageShifts,
    ∀ (h : KPageHeap) finish, Books h → start ≤ finish → (∀ j < i, getBlockSize j ∣ finish) →
      (i = 0 → finish = start) → Used h start finish →
      wp (freeBefore start i h finish) fun h' held => held = true ∧ Freed h h' start finish := by
  intro i
  induction i with
  | zero =>
    intro _ h finish hbooks hle _ hzero hused
    exact wp_ret.2 ⟨rfl, Freed.refl hbooks (hzero rfl).le⟩
  | succ i ih =>
    intro hi h finish hbooks hle hdvd _ hused
    have hpos := getBlockSize_pos i
    have hup := le_alignUp start hpos
    have hbelow := alignUp_lt start hpos
    have hle' : alignUp start (getBlockSize i) ≤ finish :=
      Nat.le_of_lt_add_of_dvd (by omega) (dvd_alignUp _ _) (hdvd i (Nat.lt_succ_self i))
    rw [freeBefore, block_eq h hi, ret_true_bind, hbooks.getSize hi, wp_bind]
    refine wp_mono (freeDownwards_spec hi start (finish - start) h finish hbooks
      (hdvd i (Nat.lt_succ_self i)) hle' (by omega) hused) ?_
    rintro ⟨h', finish'⟩ held ⟨rfl, hend, hfreed⟩
    simp only at hend hfreed
    subst hend
    refine wp_mono (ih (by omega) h' _ hfreed.books hup (fun j hj => ?_) (fun hzero => ?_)
      ((hused.mono le_rfl hle').beside hfreed fun x _ _ => by omega)) ?_
    · exact (dvd_of_le graded_getBlockSize hj.le hi).trans (dvd_alignUp _ _)
    · subst hzero
      exact Nat.le_antisymm (Nat.le_of_lt_add_of_dvd hbelow (dvd_alignUp _ _) hstart) hup
    · rintro h'' held ⟨rfl, hrest⟩
      exact ⟨rfl, hfreed.trans hrest fun x => by omega⟩

/-- **After the big blocks**: in falling sizes, up to the end. -/
theorem freeAfter_spec (finish : ℕ) (hfinish : PageSize ∣ finish) : ∀ i ≤ numMemoryBlockPageShifts,
    ∀ (h : KPageHeap) start, Books h → start ≤ finish → (∀ j < i, getBlockSize j ∣ start) →
      (i = 0 → start = finish) → Used h start finish →
      wp (freeAfter finish i h start) fun h' held => held = true ∧ Freed h h' start finish := by
  intro i
  induction i with
  | zero =>
    intro _ h start hbooks hle _ hzero hused
    exact wp_ret.2 ⟨rfl, Freed.refl hbooks (hzero rfl).ge⟩
  | succ i ih =>
    intro hi h start hbooks hle hdvd _ hused
    have hpos := getBlockSize_pos i
    have hdown := alignDown_le finish (getBlockSize i)
    have habove := lt_alignDown finish hpos
    have hle' : start ≤ alignDown finish (getBlockSize i) :=
      Nat.le_of_lt_add_of_dvd (by omega) (hdvd i (Nat.lt_succ_self i)) (dvd_alignDown _ _)
    have hgoOn : ∀ b, getBlockSize i ∣ b → ((decide (b + getBlockSize i ≤ finish)) = true ↔
        b < alignDown finish (getBlockSize i)) := by
      intro b hb
      rw [decide_eq_true_eq]
      refine ⟨fun hin => by omega, fun hlt => ?_⟩
      have hnext := Nat.le_of_lt_add_of_dvd (by omega : b + getBlockSize i <
        alignDown finish (getBlockSize i) + getBlockSize i) (Nat.dvd_add hb (Nat.dvd_refl _))
        (dvd_alignDown finish (getBlockSize i))
      omega
    rw [freeAfter, block_eq h hi, ret_true_bind, hbooks.getSize hi, wp_bind]
    refine wp_mono (freeUpwards_spec hi _ _ (dvd_alignDown _ _) hgoOn (finish - start) h start hbooks
      (hdvd i (Nat.lt_succ_self i)) hle' (by omega) (hused.mono le_rfl hdown)) ?_
    rintro ⟨h', start'⟩ held ⟨rfl, hend, hfreed⟩
    simp only at hend hfreed
    subst hend
    refine wp_mono (ih (by omega) h' _ hfreed.books hdown (fun j hj => ?_) (fun hzero => ?_)
      ((hused.mono hle' le_rfl).beside hfreed fun x _ _ => by omega)) ?_
    · exact (dvd_of_le graded_getBlockSize hj.le hi).trans (dvd_alignDown _ _)
    · subst hzero
      exact Nat.le_antisymm hdown (Nat.le_of_lt_add_of_dvd habove hfinish (dvd_alignDown _ _))
    · rintro h'' held ⟨rfl, hrest⟩
      exact ⟨rfl, hfreed.trans hrest fun x => by omega⟩

/-- The largest size of which blocks fit is found, since pages do. -/
theorem findBig_spec (hbooks : Books h) (hstart : PageSize ∣ start) (hfinish : PageSize ∣ finish)
    (hlt : start < finish) : ∀ k ≤ numMemoryBlockPageShifts, 0 < k →
      wp (h.findBig start finish k) fun r held => held = true ∧ ∃ i < k,
        r = some (i, alignUp start (getBlockSize i), alignDown finish (getBlockSize i)) ∧
          alignUp start (getBlockSize i) < alignDown finish (getBlockSize i) := by
  intro k
  induction k with
  | zero => intro _ hpos; omega
  | succ k ih =>
    intro hk _
    rw [findBig, block_eq h hk, ret_true_bind, hbooks.getSize hk]
    by_cases hbig : alignUp start (getBlockSize k) < alignDown finish (getBlockSize k)
    · rw [if_pos hbig]
      exact wp_ret.2 ⟨rfl, k, Nat.lt_succ_self k, rfl, hbig⟩
    · rw [if_neg hbig]
      rcases Nat.eq_zero_or_pos k with rfl | hpos
      · refine absurd ?_ hbig
        have hup := Nat.le_of_lt_add_of_dvd (alignUp_lt start (getBlockSize_pos 0)) (dvd_alignUp _ _) hstart
        have hsame : alignDown finish (getBlockSize 0) = finish := alignDown_of_dvd hfinish
        rw [hsame]
        exact hup.trans_lt hlt
      · refine wp_mono (ih (by omega) hpos) ?_
        rintro r held ⟨hheld, i, hi, hr⟩
        exact ⟨hheld, i, by omega, hr⟩

/-- **`Free`**: the range is free afterwards, and nothing else has changed. -/
theorem Books.free_spec (hbooks : Books h) (numPages : ℕ) (hstart : PageSize ∣ start)
    (hused : Used h start (start + numPages * PageSize)) :
    wp (h.free start numPages) fun h' held =>
      held = true ∧ Freed h h' start (start + numPages * PageSize) := by
  rw [free]
  split_ifs with hzero
  · subst hzero
    exact wp_ret.2 ⟨rfl, Freed.refl hbooks (by omega)⟩
  have hfinish : PageSize ∣ start + numPages * PageSize := Nat.dvd_add hstart (Nat.dvd_mul_left _ _)
  have hlt : start < start + numPages * PageSize := by
    have hpos : 0 < numPages * PageSize := Nat.mul_pos (Nat.pos_of_ne_zero hzero) (by decide)
    omega
  generalize start + numPages * PageSize = finish at hused hfinish hlt ⊢
  rw [wp_bind, hbooks.numBlocks]
  refine wp_mono (findBig_spec hbooks hstart hfinish hlt _ le_rfl (by decide)) ?_
  rintro r held ⟨rfl, i, hi, rfl, hbig⟩
  have hup := le_alignUp start (getBlockSize_pos i)
  have hdown := alignDown_le finish (getBlockSize i)
  have hdvdUp := dvd_alignUp start (getBlockSize i)
  have hdvdDown := dvd_alignDown finish (getBlockSize i)
  have hlow : i = 0 → alignUp start (getBlockSize i) = start := by
    rintro rfl
    exact Nat.le_antisymm (Nat.le_of_lt_add_of_dvd (alignUp_lt start (getBlockSize_pos 0))
      (dvd_alignUp _ _) hstart) hup
  have hhigh : i = 0 → alignDown finish (getBlockSize i) = finish := by
    rintro rfl
    exact alignDown_of_dvd hfinish
  generalize alignUp start (getBlockSize i) = bigStart at hup hdvdUp hlow hbig ⊢
  generalize alignDown finish (getBlockSize i) = bigEnd at hdown hdvdDown hhigh hbig ⊢
  show wp (h.block i >>= _) _
  rw [block_eq h hi, ret_true_bind, hbooks.getSize hi, wp_bind]
  refine wp_mono (freeUpwards_spec hi (fun block => block < bigEnd) bigEnd hdvdDown
    (fun b _ => decide_eq_true_iff) (bigEnd - bigStart) h bigStart hbooks hdvdUp hbig.le (by omega)
    (hused.mono hup hdown)) ?_
  rintro ⟨h₁, last⟩ held ⟨rfl, -, hfreed⟩
  show wp (freeBefore start i h₁ bigStart >>= _) _
  rw [wp_bind]
  refine wp_mono (freeBefore_spec start hstart i hi.le h₁ bigStart hfreed.books hup
    (fun j hj => (dvd_of_le graded_getBlockSize hj.le hi).trans hdvdUp) hlow
    ((hused.mono le_rfl (by omega)).beside hfreed fun x _ _ => by omega)) ?_
  rintro h₂ held ⟨rfl, hbefore⟩
  have hboth : Freed h h₂ start bigEnd := hfreed.trans hbefore fun x => by omega
  refine wp_mono (freeAfter_spec finish hfinish i hi.le h₂ bigEnd hbefore.books hdown
    (fun j hj => (dvd_of_le graded_getBlockSize hj.le hi).trans hdvdDown) hhigh
    ((hused.mono (by omega) le_rfl).beside hboth fun x _ _ => by omega)) ?_
  rintro h₃ held ⟨rfl, hafter⟩
  exact ⟨rfl, hboth.trans hafter fun x => by omega⟩

end KPageHeap

end Kernel
end NXEmu
