/-
# The page map behind the tree of blocks

`src/nxemu-os/core/hle/kernel/k_memory_block_manager.cpp`.

A tree of blocks stands for a map from the pages of the space to what is known
of each of them (`pageInfo`).  Splits and merges do not show in it, and an
update of a range applies one function of page information, its `effect`, to
the pages of the range (`run_pageInfo_iff`); the tree stays a coalesced tiling
of the same space (`run_wellFormed_iff`).

Both hold iff the update does not step over the first block of the tree when
its range starts strictly inside that block (`SkipsFirst`).  Nothing was cut
there, so `CoalesceForUpdate`, which starts from the block before, steps back
from the first block and then on from the null iterator.  `UpdateLock` steps
over no block and never gets there.
-/

import NXEmu.Kernel.MemoryBlockCoalesce

variable {b : KMemoryBlock} {s : KMemoryState} {p : KMemoryPermission} {a : KMemoryAttribute} {i : PageInfo}
  {u : RangeUpdate} {st nd : ℕ}

namespace NXEmu
namespace Kernel

open Segment Exec
open KMemoryAttribute (ipcLocked deviceShared ignoreMask)
open List Option

/-! ### What the updates do to one block -/

/-- The test `HasProperties` makes, on page information. -/
def PageInfo.HasProperties (i : PageInfo) (s : KMemoryState) (p : KMemoryPermission)
    (a : KMemoryAttribute) : Prop :=
  i.memoryState = s ∧ i.permission = p ∧ i.attr ||| ignoreMask = a ||| ignoreMask

instance (i : PageInfo) (s : KMemoryState) (p : KMemoryPermission) (a : KMemoryAttribute) :
    Decidable (i.HasProperties s p a) :=
  inferInstanceAs (Decidable (_ ∧ _))

/-- New properties for a page, which keeps `IpcLocked` and `DeviceShared`. -/
def PageInfo.setProperties (i : PageInfo) (s : KMemoryState) (p : KMemoryPermission)
    (a : KMemoryAttribute) : PageInfo :=
  { i with memoryState := s, permission := p, attr := a ||| (i.attr &&& ignoreMask) }

/-- What an update is to do to each page of its range. -/
def BlockUpdate.effect (o : BlockUpdate) (i : PageInfo) : PageInfo :=
  match o with
  | .update s p a _ _ => i.setProperties s p a
  | .updateIfMatch ts tp ta s p a _ _ =>
    if i.HasProperties ts tp ta then i.setProperties s p a else i
  | .updateLock f p => f.effect p i
  | .updateAttribute mask a => { i with attr := (i.attr &&& ~~~mask) ||| a }

/-- What `Update` and `UpdateIfMatch` assert of the attributes they set. -/
def BlockUpdate.AttrAllowed : BlockUpdate → Prop
  | .update _ _ a _ _ | .updateIfMatch _ _ _ _ _ a _ _ => a &&& ignoreMask = KMemoryAttribute.none
  | _ => True

instance : DecidablePred BlockUpdate.AttrAllowed := fun o => by
  cases o <;> unfold BlockUpdate.AttrAllowed <;> infer_instance

theorem KMemoryBlock.hasProperties_iff :
    b.hasProperties s p a = true ↔ b.info.HasProperties s p a := by
  simp only [hasProperties, Bool.and_eq_true, beq_iff_eq, and_assoc]
  rfl

theorem KMemoryBlock.wp_update (b : KMemoryBlock) (s : KMemoryState) (p : KMemoryPermission)
    (a : KMemoryAttribute) (set : Bool) (setMask clearMask : BitVec 8) :
    wp (b.update s p a set setMask clearMask) fun b' _ => (b'.address = b.address ∧
      b'.numPages = b.numPages) ∧ b'.info = b.info.setProperties s p a := by
  simp only [update, pure_eq, wp_bind, wp_assert, wp_ret]
  split_ifs <;> exact ⟨⟨rfl, rfl⟩, rfl⟩

theorem KMemoryBlock.wp_updateAttribute (b : KMemoryBlock) (mask a : KMemoryAttribute) :
    wp (b.updateAttribute mask a) fun b' _ => (b'.address = b.address ∧ b'.numPages = b.numPages) ∧
        b'.info = { b.info with attr := (b.info.attr &&& ~~~mask) ||| a } := by
  simp [updateAttribute, info]

/-- A page that has the properties is not changed by setting them, if these do not
include the bits a page keeps. -/
theorem PageInfo.HasProperties.setProperties_eq (h : i.HasProperties s p a)
    (ha : a &&& ignoreMask = KMemoryAttribute.none) : i.setProperties s p a = i := by
  obtain ⟨rfl, rfl, h⟩ := h
  have hattr : a ||| (i.attr &&& ignoreMask) = i.attr := by
    ext k hk
    have h₁ := congrArg (BitVec.getLsbD · k) h
    have h₂ := congrArg (BitVec.getLsbD · k) ha
    simp [KMemoryAttribute.none] at h₁ h₂ ⊢
    grind
  rw [setProperties, hattr]

/-- Setting attribute bits that are already set. -/
theorem setAttribute_eq {x mask a : KMemoryAttribute} (h : x &&& mask = a) :
    (x &&& ~~~mask) ||| a = x := by
  subst h
  ext k hk
  simp
  grind

theorem BlockUpdate.total (o : BlockUpdate) (a np : ℕ) : (o.step a np).Total := by
  intro b
  cases o with
  | update => exact wp_mono (b.wp_update ..) fun _ _ h => h.1
  | updateIfMatch => exact wp_mono (b.wp_update ..) fun _ _ h => h.1
  | updateLock f p => exact wp_mono (KMemoryBlock.wp_call ..) fun _ _ h => ⟨h.1, h.2.1⟩
  | updateAttribute => exact wp_mono (b.wp_updateAttribute ..) fun _ _ h => h.1

/-- The loop applies `eff` to the pages of the blocks it changes, and the blocks it steps
over are those whose pages `eff` leaves alone. -/
structure RangeUpdate.Acts (u : RangeUpdate) (eff : PageInfo → PageInfo) : Prop where
  changed : ∀ b c, b.info = c.info → u.changes b = true → (u.changed c).info = eff b.info
  skipped : ∀ b, u.changes b = false → eff b.info = b.info

theorem RangeUpdate.changed_info (h : wp (u.apply b) fun b' _ => b'.info = i) : (u.changed b).info = i :=
  (eq_ret_of_wp h b).2

theorem BlockUpdate.acts (o : BlockUpdate) (ho : o.AttrAllowed) (a np : ℕ) :
    (o.step a np).Acts o.effect := by
  cases o with
  | update s p attr set clear =>
    refine ⟨fun b c hbc _ => ?_, fun b h => ?_⟩
    · refine RangeUpdate.changed_info (wp_mono (c.wp_update ..) fun _ _ h => ?_)
      rw [h.2, hbc]
      rfl
    · have hb : b.hasProperties s p attr = true := by simpa [step, KMemoryBlockManager.updateStep] using h
      exact (KMemoryBlock.hasProperties_iff.1 hb).setProperties_eq ho
  | updateIfMatch ts tp ta s p attr set clear =>
    have heff : ∀ i : PageInfo, (updateIfMatch ts tp ta s p attr set clear).effect i =
      if i.HasProperties ts tp ta then i.setProperties s p attr else i := fun _ => rfl
    refine ⟨fun b c hbc h => ?_, fun b h => ?_⟩
    · have hb : b.hasProperties ts tp ta = true ∧ ¬b.hasProperties s p attr = true := by
        simpa [step, KMemoryBlockManager.updateIfMatchStep] using h
      rw [heff, if_pos (KMemoryBlock.hasProperties_iff.1 hb.1), hbc]
      exact RangeUpdate.changed_info (wp_mono (c.wp_update ..) fun _ _ h => h.2)
    · rw [heff]
      split
      case isTrue ht =>
        have hb : b.hasProperties ts tp ta = true → b.hasProperties s p attr = true := by
          simpa [step, KMemoryBlockManager.updateIfMatchStep] using h
        have hs := hb (KMemoryBlock.hasProperties_iff.2 ht)
        exact (KMemoryBlock.hasProperties_iff.1 hs).setProperties_eq ho
      case isFalse => rfl
  | updateLock f p =>
    refine ⟨fun b c hbc _ => ?_, fun b h => by cases h⟩
    refine RangeUpdate.changed_info (wp_mono (KMemoryBlock.wp_call ..) fun _ _ h => ?_)
    rw [h.2.2, hbc]
    rfl
  | updateAttribute mask attr =>
    refine ⟨fun b c hbc _ => ?_, fun b h => ?_⟩
    · refine RangeUpdate.changed_info (wp_mono (c.wp_updateAttribute ..) fun _ _ h => ?_)
      rw [h.2, hbc]
      rfl
    · have hb : b.attr &&& mask = attr := by
        simpa [step, KMemoryBlockManager.updateAttributeStep] using h
      show { b.info with attr := (b.info.attr &&& ~~~mask) ||| attr } = b.info
      rw [show b.info.attr = b.attr from rfl, setAttribute_eq hb]
      rfl

/-! ### The page map -/

/-- `bs` has a block that says `i` of the page at `x`. -/
def Tells (bs : List KMemoryBlock) (x : ℕ) (i : PageInfo) : Prop :=
  ∃ b ∈ bs, Covers b x ∧ b.info = i

theorem Merges.tells {bs cs : List KMemoryBlock} (h : Merges bs cs) {s t x : ℕ}
    (ht : Tiles s bs t) (hbs : Tells bs x i) : Tells cs x i := by
  induction h generalizing s with
  | refl => exact hbs
  | cons b _ ih =>
    obtain ⟨c, hc, hcx, hci⟩ := hbs
    rcases mem_cons.1 hc with rfl | hc
    · exact ⟨c, mem_cons_self, hcx, hci⟩
    · obtain ⟨d, hd, hdx⟩ := ih ht.2.2 ⟨c, hc, hcx, hci⟩
      exact ⟨d, mem_cons_of_mem b hd, hdx⟩
  | @merge b c bs cs hm hmer ih =>
    have htm := Merges.tiles (.merge hm (.refl (b.merged c :: bs))) ht
    have he : (b.merged c).endAddress = c.endAddress :=
      KMemoryBlock.merged_endAddress ht.2.2.1.symm
    have hbc : b.info = c.info := (KMemoryBlock.canMergeWith_iff.1 hm).1
    have hc : lo c = hi b := ht.2.2.1
    have hcover : ∀ d, d = b ∨ d = c → Covers d x → d.info = i → Tells (b.merged c :: bs) x i := by
      intro d hd hdx hdi
      refine ⟨b.merged c, mem_cons_self, ⟨?_, ?_⟩, ?_⟩
      · rcases hd with rfl | rfl
        · exact hdx.1
        · exact ((ht.mem_bounds mem_cons_self).2.1.le.trans hc.ge).trans hdx.1
      · rw [KMemoryBlock.hi_eq, he]
        rcases hd with rfl | rfl
        · exact hdx.2.trans (hc ▸ (ht.mem_bounds (by simp)).2.1)
        · exact hdx.2
      · rcases hd with rfl | rfl
        · exact hdi
        · exact hbc.trans hdi
    refine ih htm ?_
    obtain ⟨d, hd, hdx, hdi⟩ := hbs
    rcases mem_cons.1 hd with rfl | hd
    · exact hcover d (Or.inl rfl) hdx hdi
    rcases mem_cons.1 hd with rfl | hd
    · exact hcover d (Or.inr rfl) hdx hdi
    · exact ⟨d, mem_cons_of_mem _ hd, hdx, hdi⟩

/-- The pieces of a block say of the range what `eff` makes of what the block said, and
say what it said elsewhere. -/
theorem tells_pieces {eff : PageInfo → PageInfo} {a e x : ℕ}
    (hu : u.Total) (heff : u.Acts eff) (hb : b.Aligned) (ha : a % 4096 = 0) (he : e % 4096 = 0)
    (hae : a < e) (hx : Covers b x) :
    Tells (u.pieces a e b) x (if a ≤ x ∧ x < e then eff b.info else b.info) := by
  have hb₀ : b.address < b.endAddress := hx.1.trans_lt hx.2
  obtain ⟨c, hc, hcx⟩ := (RangeUpdate.tiles_pieces hu hb hb₀ ha he hae).exists_covers hx.1 hx.2
  refine ⟨c, hc, hcx, ?_⟩
  obtain ⟨hcx₁, hcx₂⟩ := hcx
  rw [KMemoryBlock.lo_eq] at hcx₁
  rw [KMemoryBlock.hi_eq] at hcx₂
  by_cases h : u.touches a e b
  · rw [RangeUpdate.pieces_of_touches h] at hc
    obtain ⟨h₁, h₂, hch⟩ := h
    have hca := KMemoryBlock.clipLeft_aligned hb ha
    have hcl := KMemoryBlock.clipLeft_address (a := a) (b := b)
    have hce := KMemoryBlock.clipLeft_endAddress hb ha h₁.le
    have hma := KMemoryBlock.clip_address (a := a) (e := e) (b := b)
    have hme := KMemoryBlock.clip_endAddress hb ha he h₁.le h₂.le hae.le
    rcases mem_append.1 hc with hc | hc
    · rw [KMemoryBlock.below] at hc
      split at hc
      case isTrue h₃ =>
        obtain rfl := mem_singleton.1 hc
        rw [KMemoryBlock.splitLeft_endAddress hb ha h₃.le] at hcx₂
        rw [if_neg (by omega), KMemoryBlock.splitLeft_info]
      case isFalse => cases hc
    rcases mem_cons.1 hc with rfl | hc
    · rw [hu.address] at hcx₁
      rw [hu.endAddress] at hcx₂
      rw [if_pos (by omega)]
      exact heff.changed b _ KMemoryBlock.clip_info.symm hch
    · rw [KMemoryBlock.above] at hc
      split at hc
      case isTrue h₃ =>
        obtain rfl := mem_singleton.1 hc
        rw [KMemoryBlock.splitRight_address] at hcx₁
        rw [if_neg (by omega), KMemoryBlock.splitRight_info, KMemoryBlock.clipLeft_info]
      case isFalse => cases hc
  · rw [RangeUpdate.pieces_of_not_touches h, mem_singleton] at hc
    subst hc
    split
    case isTrue hxr =>
      refine (heff.skipped c ?_).symm
      rw [← Bool.not_eq_true]
      exact fun hch => h ⟨by omega, by omega, hch⟩
    case isFalse => rfl

namespace KMemoryBlockManager

variable {m : KMemoryBlockManager} {alloc : KMemoryBlockManagerUpdateAllocator} {a np x : ℕ}

/-- What is known of the page at `x`. -/
def pageInfo (m : KMemoryBlockManager) (x : ℕ) : Option PageInfo :=
  (m.findBlock x).map KMemoryBlock.info

theorem pageInfo_eq_some (ht : Tiles m.startAddress m.memoryBlockTree m.endAddress) :
    m.pageInfo x = some i ↔ Tells m.memoryBlockTree x i := by
  have hp : ∀ b ∈ m.memoryBlockTree, (KMemoryBlock.compare x b == .eq) = true ↔ Covers b x := by
    intro b hb
    have hb₀ := (ht.mem_bounds hb).2.1
    rw [KMemoryBlock.lo_eq, KMemoryBlock.hi_eq] at hb₀
    have h := b.endAddress_eq
    rw [beq_iff_eq, KMemoryBlock.compare_eq_iff (by omega)]
    rfl
  rw [pageInfo, map_eq_some_iff]
  simp only [findBlock, ht.find?_eq_some hp, and_assoc]
  rfl

/-- Only the pages of the space are known. -/
theorem pageInfo_isSome (ht : Tiles m.startAddress m.memoryBlockTree m.endAddress) :
    (m.pageInfo x).isSome ↔ m.startAddress ≤ x ∧ x < m.endAddress := by
  rw [isSome_iff_exists]
  constructor
  · rintro ⟨i, hi⟩
    obtain ⟨b, hb, hbx, -⟩ := (pageInfo_eq_some ht).1 hi
    obtain ⟨h₁, -, h₂⟩ := ht.mem_bounds hb
    exact ⟨h₁.trans hbx.1, hbx.2.trans_le h₂⟩
  · rintro ⟨h₁, h₂⟩
    obtain ⟨b, hb, hbx⟩ := ht.exists_covers h₁ h₂
    exact ⟨b.info, (pageInfo_eq_some ht).2 ⟨b, hb, hbx, rfl⟩⟩

/-- The four updates are `updateRange` after their assertions. -/
theorem run_eq (o : BlockUpdate) (m : KMemoryBlockManager) (alloc : KMemoryBlockManagerUpdateAllocator) (a np : ℕ) :
    ∃ held, (o.AttrAllowed → held = true) ∧
      o.run m alloc a np = (ret () held >>= fun _ => m.updateRange (o.step a np) alloc a np) := by
  cases o with
  | update => exact ⟨_, decide_eq_true, rfl⟩
  | updateIfMatch => exact ⟨_, decide_eq_true, rfl⟩
  | updateLock => exact ⟨true, fun _ => rfl, (ret_true_bind ..).symm⟩
  | updateAttribute => exact ⟨true, fun _ => rfl, (ret_true_bind ..).symm⟩

/-- The blocks at hand suffice for the cuts at the two ends of the range. -/
def Suffices (alloc : KMemoryBlockManagerUpdateAllocator) (m : KMemoryBlockManager)
    (a np : ℕ) : Prop :=
  alloc.index + cutAt m.memoryBlockTree a + cutAt m.memoryBlockTree (a + np * 4096) ≤ 2

instance : Decidable (Suffices alloc m a np) := inferInstanceAs (Decidable (_ ≤ _))

/-- One block is a well-formed tree of the space it covers. -/
theorem wellFormed_singleton (hb : b.Aligned) (hlt : b.address < b.endAddress)
    (h64 : b.endAddress < 2 ^ 64) : WellFormed ⟨[b], b.address, b.endAddress⟩ :=
  ⟨hb, ⟨rfl, hlt, rfl⟩, isChain_singleton _, h64⟩

/-- A new manager is well formed. -/
theorem initialized_wellFormed (hst : st % 4096 = 0) (hnd : nd % 4096 = 0)
    (hlt : st < nd) (h64 : nd < 2 ^ 64) : (initialized st nd).WellFormed := by
  have h : (KMemoryBlock.initialized st ((nd - st) / PageSize) KMemoryState.free
      KMemoryPermission.none KMemoryAttribute.none).endAddress = nd := by
    rw [KMemoryBlock.endAddress_eq]
    show st + (nd - st) / 4096 * 4096 = nd
    omega
  have := wellFormed_singleton (b := KMemoryBlock.initialized st ((nd - st) / PageSize)
    KMemoryState.free KMemoryPermission.none KMemoryAttribute.none) hst (by rw [h]; exact hlt)
    (by rw [h]; exact h64)
  rw [h] at this
  exact this

/-- What a tree of one block tells is what that block tells. -/
theorem pageInfo_singleton (hi : i ∈ pageInfo ⟨[b], st, nd⟩ x) : i = b.info := by
  obtain ⟨c, hc, rfl⟩ := map_eq_some_iff.1 hi
  have hc := mem_of_find?_eq_some hc
  rw [mem_singleton.1 hc]

/-- A full allocator suffices for any range. -/
theorem suffices_of_index_eq_zero (h : alloc.index = 0) (m : KMemoryBlockManager) (a np : ℕ) :
    Suffices alloc m a np := by
  have hcut : ∀ x, cutAt m.memoryBlockTree x ≤ 1 := fun x => by
    rw [cutAt]
    split <;> omega
  have h₁ := hcut a
  have h₂ := hcut (a + np * 4096)
  rw [Suffices]
  omega

section

variable (o : BlockUpdate) (hm : m.WellFormed) (hr : m.InRange a np) (halloc : Suffices alloc m a np)

include hm hr halloc

/-- What an update leaves is well formed and covers the same space. -/
theorem wp_run (hfirst : ¬SkipsFirst (o.step a np) m a) :
    wp (o.run m alloc a np) fun r held => r.1 = { m with memoryBlockTree := r.1.memoryBlockTree } ∧
      r.1.WellFormed ∧ Merges (m.memoryBlockTree.flatMap ((o.step a np).pieces a (a + np * 4096)))
        r.1.memoryBlockTree ∧
      (o.AttrAllowed → (o.step a np).Clean a (a + np * 4096) m.memoryBlockTree → held = true) := by
  have hpos := hr.pos
  have hal := hr.aligned
  obtain ⟨held, hheld, heq⟩ := run_eq o m alloc a np
  have hu := o.total a np
  have ht := hm.tiles.flatMap (f := (o.step a np).pieces a (a + np * 4096)) fun b hb =>
    RangeUpdate.tiles_pieces hu (KMemoryBlock.aligned_of_tiles hm.tiles hm.aligned hb)
      (hm.tiles.mem_bounds hb).2.1 hal (by omega) (by omega)
  rw [heq, wp_bind, wp_ret]
  refine wp_mono (wp_updateRange hu hm hr halloc hfirst) fun r held' h => ?_
  refine ⟨h.1, ?_, h.2.1, fun ho hc => ?_⟩
  · rw [h.1]
    exact ⟨hm.aligned, h.2.1.tiles ht, h.2.2.1, hm.bound⟩
  · rw [h.2.2.2 hc, hheld ho]
    rfl

theorem run_eq_fault (hfirst : SkipsFirst (o.step a np) m a) :
    o.run m alloc a np = .fault := by
  obtain ⟨held, -, heq⟩ := run_eq o m alloc a np
  rw [heq, updateRange_eq_fault (o.total a np) hm hr halloc hfirst]
  rfl

end

/-- `UpdateLock` steps over no block. -/
theorem not_skipsFirst_updateLock (f : MemoryBlockLockFunction) (p : KMemoryPermission)
    (hm : m.WellFormed) (hr : m.InRange a np) :
    ¬SkipsFirst ((BlockUpdate.updateLock f p).step a np) m a := by
  rintro ⟨-, h⟩
  have hpos := hr.pos
  have hle := hr.start_le
  have hend := hr.le_end
  have ht := hm.tiles
  cases htree : m.memoryBlockTree with
  | nil =>
    rw [htree, tiles_nil] at ht
    omega
  | cons b bs => cases (h b (by rw [htree]; rfl)).2

/-- What the coalesced pieces tell of each page. -/
theorem pageInfo_of_merges (o : BlockUpdate) (ho : o.AttrAllowed) (hm : m.WellFormed)
    (hr : m.InRange a np) {bs : List KMemoryBlock}
    (hbs : Merges (m.memoryBlockTree.flatMap ((o.step a np).pieces a (a + np * 4096))) bs)
    (x : ℕ) : ({ m with memoryBlockTree := bs } : KMemoryBlockManager).pageInfo x =
      if a ≤ x ∧ x < a + np * PageSize then (m.pageInfo x).map o.effect else m.pageInfo x := by
  have hpos := hr.pos
  have hal := hr.aligned
  have hu := o.total a np
  have haligned := fun b hb => KMemoryBlock.aligned_of_tiles (b := b) hm.tiles hm.aligned hb
  have ht := hm.tiles.flatMap (f := (o.step a np).pieces a (a + np * 4096)) fun b hb =>
    RangeUpdate.tiles_pieces hu (haligned b hb) (hm.tiles.mem_bounds hb).2.1 hal (by omega)
      (by omega)
  have ht' : Tiles m.startAddress bs m.endAddress := hbs.tiles ht
  cases hx : m.pageInfo x with
  | none =>
    rw [map_none, ite_self, ← not_isSome_iff_eq_none, pageInfo_isSome ht']
    rw [← not_isSome_iff_eq_none, pageInfo_isSome hm.tiles] at hx
    exact hx
  | some i =>
    obtain ⟨b, hb, hbx, rfl⟩ := (pageInfo_eq_some hm.tiles).1 hx
    obtain ⟨c, hc, hcx⟩ := tells_pieces hu (o.acts ho a np) (haligned b hb) hal
      (e := a + np * 4096) (by omega) (by omega) hbx
    rw [map_some, ← apply_ite some, pageInfo_eq_some ht']
    exact hbs.tells ht ⟨c, mem_flatMap.2 ⟨b, hb, hc⟩, hcx⟩

/-- **The tree stays a coalesced tiling of its space** under an update of a range in it,
iff the update does not step over the first block with the range starting strictly inside
that block; otherwise the update does not return. -/
theorem run_wellFormed_iff (o : BlockUpdate) (hm : m.WellFormed) (hr : m.InRange a np)
    (halloc : Suffices alloc m a np) :
    (wp (o.run m alloc a np) fun r _ => r.1.WellFormed ∧ r.1.startAddress = m.startAddress ∧
      r.1.endAddress = m.endAddress) ↔ ¬SkipsFirst (o.step a np) m a := by
  constructor
  · intro h hfirst
    rw [run_eq_fault o hm hr halloc hfirst] at h
    exact wp_fault.1 h
  · refine fun hfirst => wp_mono (wp_run o hm hr halloc hfirst) fun r held h => ?_
    refine ⟨h.2.1, ?_, ?_⟩ <;> rw [h.1]

/-- Mapping a page of a new space: the block is cut at both ends of the range. -/
theorem run_wellFormed_initialized :
    wp ((BlockUpdate.update 5 0x1B 0 0 0).run (initialized 0x10000 0x20000) {} 0x12000 2)
      fun r _ => r.1.WellFormed ∧ r.1.startAddress = 0x10000 ∧ r.1.endAddress = 0x20000 :=
  (run_wellFormed_iff _ (initialized_wellFormed (by decide) (by decide) (by decide) (by decide))
    ⟨by decide, by decide, by decide, by decide⟩ (by decide)).2 (by decide)

/-- Setting the properties a new space has from its second page on. -/
theorem run_not_wellFormed_skipsFirst :
    (initialized 0x10000 0x20000).WellFormed ∧
      InRange (initialized 0x10000 0x20000) 0x11000 1 ∧
      ¬wp ((BlockUpdate.update 0 0 0 0 0).run (initialized 0x10000 0x20000) {} 0x11000 1)
        fun r _ => r.1.WellFormed ∧ r.1.startAddress = 0x10000 ∧ r.1.endAddress = 0x20000 := by
  refine ⟨initialized_wellFormed (by decide) (by decide) (by decide) (by decide),
    ⟨by decide, by decide, by decide, by decide⟩, ?_⟩
  rw [show (BlockUpdate.update 0 0 0 0 0).run (initialized 0x10000 0x20000) {} 0x11000 1 = .fault
    from by decide]
  exact wp_fault.1

/-- **An update applies its effect to the pages of its range** and to no others, iff it
does not step over the first block with the range starting strictly inside that block. -/
theorem run_pageInfo_iff (o : BlockUpdate) (ho : o.AttrAllowed) (hm : m.WellFormed)
    (hr : m.InRange a np) (halloc : Suffices alloc m a np) :
    (wp (o.run m alloc a np) fun r _ => ∀ x, r.1.pageInfo x =
      if a ≤ x ∧ x < a + np * PageSize then (m.pageInfo x).map o.effect else m.pageInfo x) ↔
      ¬SkipsFirst (o.step a np) m a := by
  constructor
  · intro h hfirst
    rw [run_eq_fault o hm hr halloc hfirst] at h
    exact wp_fault.1 h
  refine fun hfirst => wp_mono (wp_run o hm hr halloc hfirst) fun r held h x => ?_
  rw [h.1]
  exact pageInfo_of_merges o ho hm hr h.2.2.1 x

/-- Locking pages of a new space for IPC. -/
theorem run_pageInfo_initialized :
    wp ((BlockUpdate.updateLock .lockForIpc 0).run (initialized 0x10000 0x20000) {} 0x12000 2)
      fun r _ => ∀ x, r.1.pageInfo x = if 0x12000 ≤ x ∧ x < 0x12000 + 2 * PageSize then
        ((initialized 0x10000 0x20000).pageInfo x).map
          (BlockUpdate.updateLock .lockForIpc 0).effect
        else (initialized 0x10000 0x20000).pageInfo x :=
  (run_pageInfo_iff (.updateLock .lockForIpc 0) trivial
    (initialized_wellFormed (by decide) (by decide) (by decide) (by decide))
    ⟨by decide, by decide, by decide, by decide⟩ (by decide)).2 (by decide)

/-- Clearing an attribute that is not set from the second page of a new space on. -/
theorem run_not_pageInfo_skipsFirst :
    (initialized 0x10000 0x20000).WellFormed ∧
      InRange (initialized 0x10000 0x20000) 0x11000 1 ∧
      ¬wp ((BlockUpdate.updateAttribute 8 0).run (initialized 0x10000 0x20000) {} 0x11000 1)
        fun r _ => ∀ x, r.1.pageInfo x = if 0x11000 ≤ x ∧ x < 0x11000 + 1 * PageSize then
          ((initialized 0x10000 0x20000).pageInfo x).map (BlockUpdate.updateAttribute 8 0).effect
          else (initialized 0x10000 0x20000).pageInfo x := by
  refine ⟨initialized_wellFormed (by decide) (by decide) (by decide) (by decide),
    ⟨by decide, by decide, by decide, by decide⟩, ?_⟩
  rw [show (BlockUpdate.updateAttribute 8 0).run (initialized 0x10000 0x20000) {} 0x11000 1 =
    .fault from by decide]
  exact wp_fault.1

end KMemoryBlockManager
end Kernel
end NXEmu
