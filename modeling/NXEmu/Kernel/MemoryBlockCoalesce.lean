/-
# Coalescing after an update

`src/nxemu-os/core/hle/kernel/k_memory_block_manager.cpp`,
`KMemoryBlockManager::CoalesceForUpdate`.

`Merges bs cs` says that `cs` comes from `bs` by merging neighbours that may be
merged.  The loop of `CoalesceForUpdate` does nothing else, and from a block
before the range it leaves no neighbours to merge (`wp_coalesceLoop`).  It
starts from the block before the one the range starts in, which has to exist:
`wp_updateRange` is what an update leaves of a well-formed tree unless the range
starts inside the first block and the update steps over that block
(`StartsInFirst`), and `updateRange_eq_fault` is what happens then.
-/

import NXEmu.Kernel.MemoryBlockUpdate

namespace NXEmu
namespace Kernel

open Segment Exec KMemoryBlock List

/-- `cs` is `bs` after some merges of neighbours that may be merged. -/
inductive Merges : List KMemoryBlock → List KMemoryBlock → Prop
  | refl (bs) : Merges bs bs
  | cons (b) {bs cs} : Merges bs cs → Merges (b :: bs) (b :: cs)
  | merge {b c bs cs} : b.canMergeWith c = true → Merges (b.merged c :: bs) cs →
    Merges (b :: c :: bs) cs

namespace Merges

variable {bs cs : List KMemoryBlock} {s t : ℕ}

theorem append_left (h : Merges bs cs) : ∀ ds : List KMemoryBlock, Merges (ds ++ bs) (ds ++ cs)
  | [] => h
  | d :: ds => .cons d (append_left h ds)

/-- Merging leaves a tiling of the same interval. -/
theorem tiles (h : Merges bs cs) (ht : Tiles s bs t) : Tiles s cs t := by
  induction h generalizing s with
  | refl => exact ht
  | cons b _ ih => exact ⟨ht.1, ht.2.1, ih ht.2.2⟩
  | @merge b c bs cs hm _ ih =>
    obtain ⟨hb, hb₀, hc, hc₀, ht⟩ := ht
    have he : (b.merged c).endAddress = c.endAddress := merged_endAddress hc.symm
    refine ih ⟨hb, ?_, ?_⟩
    · rw [hi_eq, he]
      exact hb₀.trans hc₀
    · rw [hi_eq, he]
      exact ht

/-- The first block after merging merges to the left as the first one before did. -/
theorem head (h : Merges bs cs) {b c : KMemoryBlock} (hb : b ∈ bs.head?) (hc : c ∈ cs.head?)
    (d : KMemoryBlock) : d.canMergeWith c = d.canMergeWith b := by
  induction h generalizing b with
  | refl => rw [Option.mem_unique hb hc]
  | cons => rw [Option.mem_unique hb hc]
  | @merge b' c' bs cs hm _ ih =>
    obtain rfl : b' = b := by simpa using hb
    rw [ih (b := b'.merged c') (by simp) hc, canMergeWith_merged hm]

end Merges

namespace KMemoryBlockManager

variable {u : RangeUpdate} {alloc : KMemoryBlockManagerUpdateAllocator} {a e limit : ℕ}
  {b c : KMemoryBlock} {m : KMemoryBlockManager}

theorem wp_add (hb : b.address < b.endAddress) (hc : c.address < c.endAddress) :
    wp (b.add c) fun b' held => b' = b.merged c ∧ held = true := by
  have h₁ := c.endAddress_eq
  have h₂ := c.size_eq
  have h₃ : 0 < c.numPages := by omega
  have h₄ : b.address + c.size - 1 < b.endAddress + c.size - 1 := by omega
  rw [add, wp_bind, wp_assert, wp_bind, wp_assert, pure_eq, wp_ret, decide_eq_true h₃, decide_eq_true h₄]
  exact ⟨rfl, rfl⟩

/-- Past the limit of the loop nothing may be merged. -/
theorem isChain_past_limit {bs : List KMemoryBlock} {s t : ℕ} (ht : Tiles s (b :: bs) t) (hlt : limit < b.endAddress)
    (hch : (b :: bs).IsChain fun b c => b.canMergeWith c = true → b.endAddress ≤ limit) :
    (b :: bs).IsChain Unmergeable := by
  induction bs generalizing s b with
  | nil => exact isChain_singleton _
  | cons c bs ih =>
    obtain ⟨-, -, ht⟩ := ht
    obtain ⟨hbc, hch⟩ := isChain_cons_cons.1 hch
    refine isChain_cons_cons.2 ⟨?_, ih ht (hlt.trans ?_) hch⟩
    · by_contra h
      have := hbc (by simpa [Unmergeable] using h)
      omega
    · exact ht.2.1

/-- **The coalescing loop leaves no neighbours to merge**, if none may be merged that
meet past its limit. -/
theorem wp_coalesceLoop (limit : ℕ) : ∀ (rest : List KMemoryBlock) {alloc prev s t}, Tiles s (prev :: rest) t →
    ((prev :: rest).IsChain fun b c => b.canMergeWith c = true → b.endAddress ≤ limit) →
      wp (coalesceLoop limit alloc prev rest) fun r held =>
        Merges (prev :: rest) r.1 ∧ r.1.IsChain Unmergeable ∧ held = true := by
  intro rest
  induction rest with
  | nil =>
    intro alloc prev s t _ _
    rw [coalesceLoop, pure_eq, wp_ret]
    exact ⟨.refl _, isChain_singleton _, rfl⟩
  | cons b rest ih =>
    intro alloc prev s t ht hch
    obtain ⟨hprev, hprev₀, hb, hb₀, ht'⟩ := ht
    rw [lo_eq] at hprev hb
    rw [hi_eq] at hprev₀ hb hb₀
    obtain ⟨hpb, hch'⟩ := isChain_cons_cons.1 hch
    rw [coalesceLoop]
    by_cases hm : prev.canMergeWith b = true
    · rw [if_pos hm, wp_bind]
      refine wp_mono (wp_add (hprev ▸ hprev₀) (hb ▸ hb₀)) ?_
      rintro _ _ ⟨rfl, rfl⟩
      have he : (prev.merged b).endAddress = b.endAddress :=
        merged_endAddress hb.symm
      have htm : Tiles s (prev.merged b :: rest) t := by
        refine ⟨hprev, ?_, ?_⟩
        · rw [hi_eq, he]
          exact hprev₀.trans hb₀
        · rw [hi_eq, he]
          exact ht'
      have hchm : (prev.merged b :: rest).IsChain
          fun b c => b.canMergeWith c = true → b.endAddress ≤ limit := by
        cases rest with
        | nil => exact isChain_singleton _
        | cons c rest =>
          obtain ⟨hbc, hch''⟩ := isChain_cons_cons.1 hch'
          refine isChain_cons_cons.2 ⟨?_, hch''⟩
          rw [merged_canMergeWith hm, he]
          exact hbc
      split
      case isTrue hlt =>
        rw [pure_eq, wp_ret]
        exact ⟨.merge hm (.refl _), isChain_past_limit htm hlt hchm, rfl⟩
      case isFalse =>
        refine wp_mono (ih htm hchm) fun r held hr => ⟨.merge hm hr.1, hr.2.1, ?_⟩
        rw [hr.2.2]
        rfl
    · have hm' : Unmergeable prev b := by simpa [Unmergeable] using hm
      have htb : Tiles prev.endAddress (b :: rest) t := ⟨hb, hb₀, ht'⟩
      rw [if_neg hm]
      split
      case isTrue hlt =>
        rw [pure_eq, wp_ret]
        exact ⟨.refl _, isChain_cons_cons.2 ⟨hm', isChain_past_limit htb hlt hch'⟩, rfl⟩
      case isFalse =>
        rw [wp_bind]
        refine wp_mono (ih htb hch') fun ⟨bs, _⟩ held hr => ?_
        dsimp only at hr ⊢
        rw [pure_eq, wp_ret, hr.2.2]
        refine ⟨.cons prev hr.1, ?_, rfl⟩
        rw [isChain_cons]
        refine ⟨fun c hc => ?_, hr.2.1⟩
        rw [Unmergeable, hr.1.head rfl hc]
        exact hm'

/-- The range starts inside the first block of `bs`. -/
def StartsInFirst (bs : List KMemoryBlock) (start a : ℕ) : Prop :=
  a ≠ start ∧ ∀ b ∈ bs.head?, a < b.endAddress

instance (bs : List KMemoryBlock) (start a : ℕ) : Decidable (StartsInFirst bs start a) :=
  inferInstanceAs (Decidable (_ ∧ _))

theorem findIterator_eq {x : ℕ} (ht : Tiles m.startAddress m.memoryBlockTree m.endAddress)
    (hs : m.startAddress ≤ x) (he : x < m.endAddress) :
    ∃ l b r, m.findIterator x = (l, b :: r) ∧ m.memoryBlockTree = l ++ b :: r ∧ Covers b x := by
  refine ht.span_eq (fun b hb => ?_) hs he
  have hb₀ := (ht.mem_bounds hb).2.1
  rw [lo_eq, hi_eq] at hb₀
  have h := b.endAddress_eq
  rw [bne_eq_false_iff_eq, compare_eq_iff (by omega)]
  rfl

/-- Blocks that meet below the range may not be merged. -/
theorem isChain_below {bs : List KMemoryBlock} {s t : ℕ} (ht : Tiles s bs t) (hta : t ≤ a)
    (hch : bs.IsChain (MergeableIn a e)) : bs.IsChain Unmergeable := by
  induction bs generalizing s with
  | nil => exact isChain_nil
  | cons b bs ih =>
    cases bs with
    | nil => exact isChain_singleton _
    | cons c bs =>
      obtain ⟨-, -, ht⟩ := ht
      obtain ⟨hbc, hch⟩ := isChain_cons_cons.1 hch
      refine isChain_cons_cons.2 ⟨?_, ih ht hch⟩
      by_contra h
      have h₁ := (hbc (by simpa [Unmergeable] using h)).1
      have h₂ := ht.2.1
      have h₃ := ht.2.2.le
      rw [hi_eq] at h₂ h₃
      rw [hi_eq] at h₂
      omega

section

variable {np : ℕ} (ht : Tiles m.startAddress m.memoryBlockTree m.endAddress) (hs : m.startAddress ≤ a)

include ht hs

/-- **`CoalesceForUpdate` merges all that is to be merged**, if the blocks that may be
merged meet in its range and there is a block before one the range starts inside of. -/
theorem wp_coalesceForUpdate (he : a + np * 4096 ≤ m.endAddress) (hnp : 0 < np) (h64 : m.endAddress < 2 ^ 64)
    (hch : m.memoryBlockTree.IsChain (MergeableIn a (a + np * 4096)))
    (hfirst : ¬StartsInFirst m.memoryBlockTree m.startAddress a) :
    wp (m.coalesceForUpdate alloc a np) fun r held =>
      r.1 = { m with memoryBlockTree := r.1.memoryBlockTree } ∧ Merges m.memoryBlockTree r.1.memoryBlockTree ∧
          r.1.memoryBlockTree.IsChain Unmergeable ∧ held = true := by
  obtain ⟨l, b, r, hf, htree, hb₁, hb₂⟩ := findIterator_eq ht hs (by omega)
  rw [lo_eq] at hb₁
  rw [hi_eq] at hb₂
  rw [coalesceForUpdate, hf]
  have hu : u64 (a + np * PageSize) = a + np * 4096 := by
    rw [u64, show np * PageSize = np * 4096 from rfl, Nat.mod_eq_of_lt (by omega)]
  rw [htree] at ht hch
  obtain ⟨x, hl, hbr⟩ := tiles_append.1 ht
  have hx : b.address = x := hbr.1
  dsimp only
  by_cases has : a ≠ m.startAddress
  · rw [if_pos has]
    rcases eq_nil_or_concat l with rfl | ⟨l, prev, rfl⟩
    · refine absurd ⟨has, fun c hc => ?_⟩ hfirst
      rw [htree, nil_append, head?_cons, Option.mem_some_iff] at hc
      rw [← hc]
      exact hb₂
    · rw [concat_eq_append] at *
      rw [append_assoc, singleton_append] at ht hch htree
      obtain ⟨hll, hpr, hlast⟩ := isChain_append.1 hch
      obtain ⟨y, hly, hyp⟩ := tiles_append.1 ht
      have hbelow := isChain_below hl (by omega) (List.IsChain.left_of_append
        (append_assoc l [prev] (b :: r) ▸ hch))
      obtain ⟨hl', -, hlp⟩ := isChain_append.1 hbelow
      rw [getLast?_concat, dropLast_concat]
      dsimp only
      rw [wp_bind, hu]
      refine wp_mono (wp_coalesceLoop _ _ hyp (hpr.imp fun _ _ h hm => (h hm).2))
        fun r held hr => ?_
      obtain ⟨bs, alloc⟩ := r
      dsimp only at hr ⊢
      rw [pure_eq, wp_ret, hr.2.2, htree]
      refine ⟨rfl, hr.1.append_left l, isChain_append.2 ⟨hl', hr.2.1, ?_⟩, rfl⟩
      intro c hc d hd
      rw [Unmergeable, hr.1.head rfl hd]
      exact hlp c hc prev rfl
  · rw [if_neg has, wp_bind, hu]
    have hlnil : l = [] := by
      cases l with
      | nil => rfl
      | cons c l =>
        have := hl.2.2.le
        have := hl.2.1
        omega
    subst hlnil
    rw [nil_append] at ht hch htree
    refine wp_mono (wp_coalesceLoop _ _ ht (hch.imp fun _ _ h hm => (h hm).2))
      fun r held hr => ?_
    obtain ⟨bs, alloc⟩ := r
    dsimp only at hr ⊢
    rw [pure_eq, wp_ret, hr.2.2, htree, nil_append]
    exact ⟨rfl, hr.1, hr.2.1, rfl⟩

/-- Stepping back from the first block faults. -/
theorem coalesceForUpdate_eq_fault
    (he : a < m.endAddress) (hfirst : StartsInFirst m.memoryBlockTree m.startAddress a) :
    m.coalesceForUpdate alloc a np = .fault := by
  obtain ⟨l, b, r, hf, htree, hb⟩ := findIterator_eq ht hs he
  have hlnil : l = [] := by
    cases l with
    | nil => rfl
    | cons c l =>
      rw [htree] at ht hfirst
      have h₁ := hfirst.2 c rfl
      have h₂ := (ht.2.2.mem_bounds (mem_append_right l mem_cons_self)).1
      have h₃ := hb.1
      rw [hi_eq] at h₂
      omega
  subst hlnil
  rw [coalesceForUpdate, hf]
  dsimp only
  rw [if_pos hfirst.1]
  rfl

end

/-! ### Whole updates -/

/-- The tree is a coalesced tiling of the space by blocks of pages. -/
structure WellFormed (m : KMemoryBlockManager) : Prop where
  aligned : m.startAddress % 4096 = 0
  tiles : Tiles m.startAddress m.memoryBlockTree m.endAddress
  coalesced : m.memoryBlockTree.IsChain Unmergeable
  bound : m.endAddress < 2 ^ 64

/-- `np > 0` pages from the page address `a` on lie in the space. -/
structure InRange (m : KMemoryBlockManager) (a np : ℕ) : Prop where
  aligned : a % 4096 = 0
  pos : 0 < np
  start_le : m.startAddress ≤ a
  le_end : a + np * 4096 ≤ m.endAddress

/-- The range of an update starts strictly inside the first block of the tree, and the
update steps over that block. -/
def SkipsFirst (u : RangeUpdate) (m : KMemoryBlockManager) (a : ℕ) : Prop :=
  a ≠ m.startAddress ∧ ∀ b ∈ m.memoryBlockTree.head?, a < b.endAddress ∧ u.changes b = false

instance (u : RangeUpdate) (m : KMemoryBlockManager) (a : ℕ) : Decidable (SkipsFirst u m a) :=
  inferInstanceAs (Decidable (_ ∧ _))

variable {np : ℕ}

/-- After the loop the range starts inside the first block iff that block was stepped
over: a block that is changed is cut where the range starts. -/
theorem startsInFirst_iff (hm : m.WellFormed) (hr : m.InRange a np) :
    StartsInFirst (m.memoryBlockTree.flatMap (u.pieces a (a + np * 4096))) m.startAddress a ↔ SkipsFirst u m a := by
  have hpos := hr.pos
  have hle := hr.start_le
  have hend := hr.le_end
  have ht := hm.tiles
  refine and_congr_right fun ha => ?_
  cases htree : m.memoryBlockTree with
  | nil =>
    rw [htree, tiles_nil] at ht
    omega
  | cons b bs =>
    rw [htree] at ht
    have hb := aligned_of_tiles ht hm.aligned mem_cons_self
    have hb₀ : b.address = m.startAddress := ht.1
    have hb₁ := ht.2.1
    rw [flatMap_cons, head?_cons]
    simp only [Option.mem_some_iff, forall_eq']
    by_cases h : u.touches a (a + np * 4096) b
    · rw [RangeUpdate.pieces_of_touches h, below, if_pos (by omega)]
      have he := splitLeft_endAddress hb hr.aligned (by omega)
      simp [he, h.2.2]
    · rw [RangeUpdate.pieces_of_not_touches h]
      simp only [singleton_append, head?_cons, Option.mem_some_iff, forall_eq']
      refine ⟨fun hab => ⟨hab, ?_⟩, And.left⟩
      rw [← Bool.not_eq_true]
      exact fun hch => h ⟨hab, by omega, hch⟩

section

variable (hu : u.Total) (hm : m.WellFormed) (hr : m.InRange a np)
  (halloc : alloc.index + cutAt m.memoryBlockTree a + cutAt m.memoryBlockTree (a + np * 4096) ≤ 2)

include hu hm hr halloc

/-- The loop as `updateRange` runs it, from the block the range starts in. -/
theorem updateRange_eq :
    ∃ alloc' held, (u.Clean a (a + np * 4096) m.memoryBlockTree → held = true) ∧
      m.updateRange u alloc a np = (ret () held >>= fun _ => coalesceForUpdate
        { m with memoryBlockTree := m.memoryBlockTree.flatMap (u.pieces a (a + np * 4096)) }
        alloc' a np) := by
  have hpos := hr.pos
  have hle := hr.start_le
  have hend := hr.le_end
  have hal := hr.aligned
  have hbound := hm.bound
  have ht := hm.tiles
  obtain ⟨l, b, r, hf, htree, hb⟩ := findIterator_eq ht hle (by omega)
  rw [htree] at ht halloc
  obtain ⟨x, hl, hbr⟩ := tiles_append.1 ht
  obtain rfl : b.address = x := hbr.1
  have hba : b.address % 4096 = 0 :=
    aligned_of_tiles ht hm.aligned (mem_append_right l mem_cons_self)
  have hb₁ : b.address ≤ a := hb.1
  have hb₂ : a < b.endAddress := hb.2
  have hcut := fun x => cutAt_mono (subset_append_right l (b :: r)) x
  have hloop : wp (updateLoop u np alloc (b :: r) a np) fun r' held =>
      r'.1 = (b :: r).flatMap (u.pieces a (a + np * 4096)) ∧ (u.Clean a (a + np * 4096) (b :: r) → held = true) :=
    wp_updateLoop hu hal (by omega) (by omega) np hbr hba hend le_rfl (by omega) fun _ => by
      refine ⟨by omega, rfl, fun c hc => ?_, ?_⟩
      · rw [head?_cons, Option.mem_some_iff] at hc
        exact hc ▸ hb₂
      · have := hcut a
        have := hcut (a + np * 4096)
        omega
  obtain ⟨⟨bs, alloc'⟩, held, hloop, hbs, hclean⟩ := hloop
  refine ⟨alloc', held, fun h => hclean fun c hc => h c ?_, ?_⟩
  · rw [htree]
    exact mem_append_right l hc
  · have hll : l.flatMap (u.pieces a (a + np * 4096)) = l :=
      RangeUpdate.flatMap_pieces_of_ge fun c hc => (hl.mem_bounds hc).2.2.trans hb₁
    rw [updateRange, hf, htree, flatMap_append, hll, ← hbs, Exec.assert,
      decide_eq_true (show a % PageSize = 0 from hal), ret_true_bind]
    dsimp only
    rw [hloop]
    rfl

/-- **What an update leaves**: the pieces of the blocks of the tree, coalesced.  All its
assertions hold if they do in the calls on the blocks it changes. -/
theorem wp_updateRange (hfirst : ¬SkipsFirst u m a) :
    wp (m.updateRange u alloc a np) fun r held =>
      r.1 = { m with memoryBlockTree := r.1.memoryBlockTree } ∧
        Merges (m.memoryBlockTree.flatMap (u.pieces a (a + np * 4096))) r.1.memoryBlockTree ∧
        r.1.memoryBlockTree.IsChain Unmergeable ∧
        (u.Clean a (a + np * 4096) m.memoryBlockTree → held = true) := by
  have hpos := hr.pos
  have hal := hr.aligned
  obtain ⟨alloc', held, hheld, heq⟩ := updateRange_eq hu hm hr halloc
  have ht := hm.tiles.flatMap (f := u.pieces a (a + np * 4096)) fun b hb =>
    RangeUpdate.tiles_pieces hu (aligned_of_tiles hm.tiles hm.aligned hb)
      (hm.tiles.mem_bounds hb).2.1 hal (by omega) (by omega)
  have hch := RangeUpdate.isChain_pieces hu hal (e := a + np * 4096) (by omega) (by omega)
    hm.tiles hm.aligned hm.coalesced
  rw [heq, wp_bind, wp_ret]
  refine wp_mono (wp_coalesceForUpdate (m := { m with memoryBlockTree := _ }) ht hr.start_le
    hr.le_end hpos hm.bound hch fun h => hfirst ((startsInFirst_iff hm hr).1 h))
    fun r held' h => ⟨h.1, h.2.1, h.2.2.1, fun hc => ?_⟩
  rw [h.2.2.2, hheld hc]
  rfl

/-- **An update that steps over the first block faults** when its range starts strictly
inside that block. -/
theorem updateRange_eq_fault (hfirst : SkipsFirst u m a) :
    m.updateRange u alloc a np = .fault := by
  have hpos := hr.pos
  have hal := hr.aligned
  have hend := hr.le_end
  obtain ⟨alloc', held, -, heq⟩ := updateRange_eq hu hm hr halloc
  have ht := hm.tiles.flatMap (f := u.pieces a (a + np * 4096)) fun b hb =>
    RangeUpdate.tiles_pieces hu (aligned_of_tiles hm.tiles hm.aligned hb)
      (hm.tiles.mem_bounds hb).2.1 hal (by omega) (by omega)
  have hfault : coalesceForUpdate
      { m with memoryBlockTree := m.memoryBlockTree.flatMap (u.pieces a (a + np * 4096)) }
      alloc' a np = .fault :=
    coalesceForUpdate_eq_fault ht hr.start_le (by dsimp only; omega)
      ((startsInFirst_iff hm hr).2 hfirst)
  rw [heq, hfault]
  rfl

end

end KMemoryBlockManager
end Kernel
end NXEmu
