/-
# IPC locks on overlapping ranges

`src/nxemu-os/core/hle/kernel/k_memory_block.h`, `LockForIpc` and `UnlockForIpc`,
called through `KMemoryBlockManager::UpdateLock`.

A page under `n` IPC locks counts them, keeps the permission it had before the
first (`LockedPage`), and gets it back with the last unlock.  Locks of
overlapping ranges cut blocks where they start and end, and what keeps the
pieces apart is counted on the block that starts where a lock does
(`LeftEdges`): a split leaves the count on the left part, a merge never swallows
a block that has one.  Over any run of locks and of unlocks of outstanding locks
no assertion fails, and after the last unlock every page is what it was
(`ipcRun_pageInfo`).

A page of permission `None` is the exception: the permission it keeps is `None`,
which `UnlockForIpc` asserts it is not.
-/

import NXEmu.Kernel.MemoryPageMap

variable {bs cs : List KMemoryBlock} {b : KMemoryBlock} {n n' : ℕ → ℕ} {s t x a e np : ℕ} {u : RangeUpdate}
  {p : KMemoryPermission} {mayLock : KMemoryPermission → Prop}

namespace NXEmu
namespace Kernel

open Segment Exec
open KMemoryAttribute (ipcLocked)
open KMemoryBlockDisableMergeAttribute (ipcLeft allLeft)
open Function List

/-! ### One page -/

/-- A page as it is without IPC locks. -/
structure PageInfo.Unlocked (i : PageInfo) : Prop where
  count : i.ipcLockCount = 0
  original : i.originalPermission = KMemoryPermission.none
  attr : i.attr &&& ipcLocked = KMemoryAttribute.none

/-- `i` is the page `i₀` under `n` IPC locks. -/
structure LockedPage (i₀ : PageInfo) (n : ℕ) (i : PageInfo) : Prop where
  count : i.ipcLockCount.toNat = n
  unlocked : n = 0 → i = i₀
  locked : n ≠ 0 → i₀.permission ≠ KMemoryPermission.none ∧
    i = { i₀ with
      attr := i₀.attr ||| ipcLocked
      originalPermission := i₀.permission
      permission := i.permission
      ipcLockCount := i.ipcLockCount }

namespace LockedPage

variable {i₀ i : PageInfo} {n : ℕ} {p : KMemoryPermission}

/-- A locked page says so. -/
theorem attr_and (h : LockedPage i₀ n i) (hn : n ≠ 0) : i.attr &&& ipcLocked = ipcLocked := by
  rw [(h.locked hn).2]
  show (i₀.attr ||| ipcLocked) &&& ipcLocked = ipcLocked
  ext k hk
  simp
  exact Or.inr

/-- A lock of a page that has a permission to keep. -/
theorem lock (h : LockedPage i₀ n i) (hn : n + 1 < 2 ^ 16) (hp : n = 0 → i.permission ≠ KMemoryPermission.none) :
    LockedPage i₀ (n + 1) (MemoryBlockLockFunction.lockForIpc.effect p i) := by
  have hc : (i.ipcLockCount + 1).toNat = n + 1 := by
    rw [BitVec.toNat_add, h.count]
    exact Nat.mod_eq_of_lt hn
  refine ⟨hc, fun h0 => by omega, fun _ => ?_⟩
  by_cases h0 : n = 0
  · obtain rfl := h.unlocked h0
    have hc1 : i.ipcLockCount + 1 = 1 := by
      apply BitVec.eq_of_toNat_eq
      rw [hc, h0]
      rfl
    refine ⟨hp h0, ?_⟩
    simp only [MemoryBlockLockFunction.effect, if_pos hc1]
  · obtain ⟨hp₀, hi⟩ := h.locked h0
    have hc1 : ¬i.ipcLockCount + 1 = 1 := fun h1 => by
      have := congrArg BitVec.toNat h1
      rw [hc] at this
      exact h0 (Nat.succ.inj this)
    refine ⟨hp₀, ?_⟩
    simp only [MemoryBlockLockFunction.effect, if_neg hc1]
    rw [hi]
    simp only [BitVec.or_assoc, BitVec.or_self]

/-- An unlock of a locked page. -/
theorem unlock (h : LockedPage i₀ (n + 1) i) (h₀ : i₀.Unlocked) :
    LockedPage i₀ n (MemoryBlockLockFunction.unlockForIpc.effect p i) := by
  obtain ⟨hp₀, hi⟩ := h.locked (Nat.succ_ne_zero n)
  have hcount := h.count
  have hc : (i.ipcLockCount - 1).toNat = n := by bv_omega
  by_cases h0 : n = 0
  · have hc1 : i.ipcLockCount = 1 := by
      apply BitVec.eq_of_toNat_eq
      rw [h.count, h0]
      rfl
    have hattr : (i₀.attr ||| ipcLocked) &&& ~~~ipcLocked = i₀.attr := by
      have := h₀.attr
      ext k hk
      have h₁ := congrArg (BitVec.getLsbD · k) this
      simp [KMemoryAttribute.none] at h₁ ⊢
      grind
    refine ⟨hc, fun _ => ?_, fun h1 => absurd h0 h1⟩
    rw [hi] at hc1 ⊢
    simp only [MemoryBlockLockFunction.effect, if_pos hc1, hattr]
    ext1
    · rfl
    · rfl
    · exact h₀.original.symm
    · rfl
    · rw [h₀.count]
      exact (BitVec.sub_eq_iff_eq_add.2 hc1)
    · rfl
  · have hc1 : ¬i.ipcLockCount = 1 := fun h1 => by
      rw [h1] at hc
      exact h0 hc.symm
    refine ⟨hc, fun h1 => absurd h1 h0, fun _ => ⟨hp₀, ?_⟩⟩
    simp only [MemoryBlockLockFunction.effect, if_neg hc1]
    rw [hi]

end LockedPage

/-! ### Left edges -/

/-- Merging keeps what the left edges of the blocks say, and keeps a block whose left
edge is not to be merged over. -/
theorem Merges.mem_left (h : Merges bs cs) {c : KMemoryBlock}
    (hc : c ∈ cs) : ∃ b ∈ bs, b.address = c.address ∧ b.ipcDisableMergeCount = c.ipcDisableMergeCount ∧
      (b.disableMergeAttribute &&& ipcLeft ≠ 0 → c.disableMergeAttribute &&& ipcLeft ≠ 0) := by
  induction h with
  | refl => exact ⟨c, hc, rfl, rfl, id⟩
  | cons b _ ih =>
    rcases mem_cons.1 hc with rfl | hc
    · exact ⟨c, mem_cons_self, rfl, rfl, id⟩
    · obtain ⟨d, hd, h⟩ := ih hc
      exact ⟨d, mem_cons_of_mem b hd, h⟩
  | @merge b b' bs cs hm _ ih =>
    obtain ⟨d, hd, h⟩ := ih hc
    rcases mem_cons.1 hd with rfl | hd
    · refine ⟨b, mem_cons_self, h.1, h.2.1, fun hb => h.2.2 ?_⟩
      show (b.disableMergeAttribute ||| b'.disableMergeAttribute) &&& ipcLeft ≠ 0
      rw [BitVec.and_or_distrib_right]
      intro h0
      exact hb (BitVec.or_eq_zero_iff.1 h0).1
    · exact ⟨d, mem_cons_of_mem b (mem_cons_of_mem b' hd), h⟩

theorem Merges.mem_of_allLeft (h : Merges bs cs) (hb : b ∈ bs) (hl : b.disableMergeAttribute &&& allLeft ≠ 0) :
    ∃ c ∈ cs, c.address = b.address := by
  induction h generalizing b with
  | refl => exact ⟨b, hb, rfl⟩
  | cons d _ ih =>
    rcases mem_cons.1 hb with rfl | hb
    · exact ⟨b, mem_cons_self, rfl⟩
    · obtain ⟨c, hc, h⟩ := ih hb hl
      exact ⟨c, mem_cons_of_mem d hc, h⟩
  | @merge d d' bs cs hm _ ih =>
    rcases mem_cons.1 hb with rfl | hb
    · refine ih (b := b.merged d') mem_cons_self fun h0 => hl ?_
      have h0 : (b.disableMergeAttribute ||| d'.disableMergeAttribute) &&& allLeft = 0 := h0
      rw [BitVec.and_or_distrib_right] at h0
      exact (BitVec.or_eq_zero_iff.1 h0).1
    rcases mem_cons.1 hb with rfl | hb
    · exact absurd (KMemoryBlock.canMergeWith_iff.1 hm).2.2 hl
    · exact ih (mem_cons_of_mem _ hb) hl

/-- The locks that start at `x` number `n x`: the block that starts there counts them and
is kept from being merged to the left. -/
structure LeftEdges (n : ℕ → ℕ) (bs : List KMemoryBlock) : Prop where
  count : ∀ b ∈ bs, b.ipcDisableMergeCount.toNat = n b.address
  flag : ∀ b ∈ bs, n b.address ≠ 0 → b.disableMergeAttribute &&& ipcLeft ≠ 0
  start : ∀ x, n x ≠ 0 → ∃ b ∈ bs, b.address = x

theorem and_allLeft_ne_zero {x : BitVec 8} (h : x &&& ipcLeft ≠ 0) : x &&& allLeft ≠ 0 := by
  intro h0
  refine h ?_
  rw [show ipcLeft = allLeft &&& ipcLeft from rfl, ← BitVec.and_assoc, h0]
  exact BitVec.zero_and

theorem LeftEdges.merges (h : LeftEdges n bs) (hbs : Merges bs cs) : LeftEdges n cs := by
  refine ⟨fun c hc => ?_, fun c hc hn => ?_, fun x hx => ?_⟩
  · obtain ⟨b, hb, ha, hcount, -⟩ := hbs.mem_left hc
    rw [← hcount, ← ha]
    exact h.count b hb
  · obtain ⟨b, hb, ha, -, hflag⟩ := hbs.mem_left hc
    exact hflag (h.flag b hb (ha ▸ hn))
  · obtain ⟨b, hb, rfl⟩ := h.start x hx
    exact hbs.mem_of_allLeft hb (and_allLeft_ne_zero (h.flag b hb hx))

/-- What an update of `[a, ..)` does to left edges: it turns the count at `a` from
`n a` into `n' a` and leaves the others. -/
structure RangeUpdate.EdgesTo (u : RangeUpdate) (a : ℕ) (n n' : ℕ → ℕ) : Prop where
  other : ∀ x, x ≠ a → n' x = n x
  keeps : ∀ b : KMemoryBlock, b.address ≠ a →
    (u.changed b).ipcDisableMergeCount = b.ipcDisableMergeCount ∧
      (u.changed b).disableMergeAttribute = b.disableMergeAttribute
  count : ∀ b : KMemoryBlock, b.address = a → b.ipcDisableMergeCount.toNat = n a →
    (u.changed b).ipcDisableMergeCount.toNat = n' a
  flag : ∀ b : KMemoryBlock, b.address = a → b.ipcDisableMergeCount.toNat = n a →
    (n a ≠ 0 → b.disableMergeAttribute &&& ipcLeft ≠ 0) → n' a ≠ 0 →
      (u.changed b).disableMergeAttribute &&& ipcLeft ≠ 0

/-- A point strictly inside a block of a tiling is not where another block starts. -/
theorem LeftEdges.eq_zero (h : LeftEdges n bs) (ht : Tiles s bs t) (hb : b ∈ bs) (h₁ : b.address < x)
    (h₂ : x < b.endAddress) : n x = 0 := by
  by_contra hn
  obtain ⟨c, hc, rfl⟩ := h.start x hn
  have := ht.covers_unique hb hc ⟨h₁.le, h₂⟩ ⟨le_rfl, (ht.mem_bounds hc).2.1⟩
  rw [this] at h₁
  exact lt_irrefl _ h₁

/-- What `b` says of its left edge is what `n` counts there. -/
def LeftEdge (n : ℕ → ℕ) (b : KMemoryBlock) : Prop :=
  b.ipcDisableMergeCount.toNat = n b.address ∧
    (n b.address ≠ 0 → b.disableMergeAttribute &&& ipcLeft ≠ 0)

section

variable {n : ℕ → ℕ} {b : KMemoryBlock}

theorem LeftEdge.splitLeft (h : LeftEdge n b) (x : ℕ) :
    LeftEdge n (b.splitLeft x) := by
  refine ⟨h.1, fun hn => ?_⟩
  show b.disableMergeAttribute &&& allLeft &&& ipcLeft ≠ 0
  rw [BitVec.and_assoc]
  exact h.2 hn

theorem leftEdge_splitRight (hx : n x = 0) :
    LeftEdge n (b.splitRight x) :=
  ⟨hx.symm, fun h => absurd hx h⟩

theorem LeftEdge.clipRight (h : LeftEdge n b) (e : ℕ) :
    LeftEdge n (b.clipRight e) := by
  rw [KMemoryBlock.clipRight]
  split
  · exact h.splitLeft e
  · exact h

end

theorem RangeUpdate.EdgesTo.changed (h : u.EdgesTo a n n') (hu : u.Total) (hb : LeftEdge n b) :
    LeftEdge n' (u.changed b) := by
  rw [LeftEdge, hu.address]
  by_cases hba : b.address = a
  · rw [hba]
    rw [LeftEdge, hba] at hb
    exact ⟨h.count b hba hb.1, h.flag b hba hb.1 hb.2⟩
  · rw [h.other _ hba, (h.keeps b hba).1, (h.keeps b hba).2]
    exact hb

/-- The part of a block in the range starts with the count there is at its start. -/
theorem LeftEdges.clip (h : LeftEdges n bs) (ht : Tiles s bs t) (hb : b ∈ bs) (hab : a < b.endAddress) :
    LeftEdge n (b.clip a e) := by
  refine LeftEdge.clipRight ?_ e
  rw [KMemoryBlock.clipLeft]
  split
  case isTrue h₃ => exact leftEdge_splitRight (h.eq_zero ht hb h₃ hab)
  case isFalse => exact ⟨h.count b hb, h.flag b hb⟩

/-- **The pieces of an update have the left edges it is to make**: the block cut off at
the start of the range counts from nothing, and the one at its end counts nothing. -/
theorem LeftEdges.pieces (h : LeftEdges n bs) (hu : u.Total) (hedge : u.EdgesTo a n n')
    (hch : ∀ b, u.changes b = true) (ht : Tiles s bs t) (hs : s % 4096 = 0) (ha : a % 4096 = 0)
    (he : e % 4096 = 0) (hae : a < e) (hsa : s ≤ a) (het : e ≤ t) :
    LeftEdges n' (bs.flatMap (u.pieces a e)) := by
  have hcover : ∀ b ∈ bs, ∀ x, Covers b x → ∃ c ∈ u.pieces a e b, Covers c x ∧ b.address ≤ c.address := by
    intro b hb x hx
    have hp := RangeUpdate.tiles_pieces hu (KMemoryBlock.aligned_of_tiles ht hs hb)
      (ht.mem_bounds hb).2.1 ha he hae
    obtain ⟨c, hc, hcx⟩ := hp.exists_covers hx.1 hx.2
    exact ⟨c, hc, hcx, (hp.mem_bounds hc).1⟩
  have hpiece : ∀ b ∈ bs, ∀ c ∈ u.pieces a e b, LeftEdge n' c := by
    intro b hb c hc
    have hbn : LeftEdge n b := ⟨h.count b hb, h.flag b hb⟩
    have hb₀ := (ht.mem_bounds hb).2.1
    rw [KMemoryBlock.lo_eq, KMemoryBlock.hi_eq] at hb₀
    have hba := KMemoryBlock.aligned_of_tiles ht hs hb
    by_cases htouch : u.touches a e b
    · rw [RangeUpdate.pieces_of_touches htouch] at hc
      obtain ⟨h₁, h₂, -⟩ := htouch
      have hcl := KMemoryBlock.clipLeft_address (a := a) (b := b)
      have hce := KMemoryBlock.clipLeft_endAddress hba ha h₁.le
      rcases mem_append.1 hc with hc | hc
      · rw [KMemoryBlock.below] at hc
        split at hc
        case isTrue h₃ =>
          obtain rfl := mem_singleton.1 hc
          have := hbn.splitLeft a
          rw [LeftEdge, KMemoryBlock.splitLeft_address] at this ⊢
          rw [hedge.other _ h₃.ne]
          exact this
        case isFalse => cases hc
      rcases mem_cons.1 hc with rfl | hc
      · exact hedge.changed hu (h.clip ht hb h₁)
      · rw [KMemoryBlock.above] at hc
        split at hc
        case isTrue h₃ =>
          obtain rfl := mem_singleton.1 hc
          refine leftEdge_splitRight ?_
          rw [hedge.other _ hae.ne']
          exact h.eq_zero ht hb h₂ (hce ▸ h₃)
        case isFalse => cases hc
    · rw [RangeUpdate.pieces_of_not_touches htouch, mem_singleton] at hc
      subst hc
      have hne : c.address ≠ a := by
        rintro rfl
        exact htouch ⟨hb₀, hae, hch c⟩
      rw [LeftEdge, hedge.other _ hne]
      exact hbn
  refine ⟨fun c hc => ?_, fun c hc => ?_, fun x hx => ?_⟩
  · obtain ⟨b, hb, hc⟩ := mem_flatMap.1 hc
    exact (hpiece b hb c hc).1
  · obtain ⟨b, hb, hc⟩ := mem_flatMap.1 hc
    exact (hpiece b hb c hc).2
  · by_cases hxa : x = a
    · subst hxa
      obtain ⟨b, hb, hbx⟩ := ht.exists_covers hsa (hae.trans_le het)
      have htouch : u.touches x e b := ⟨hbx.2, hbx.1.trans_lt hae, hch b⟩
      refine ⟨u.changed (b.clip x e), mem_flatMap.2 ⟨b, hb, ?_⟩, ?_⟩
      · rw [RangeUpdate.pieces_of_touches htouch]
        exact mem_append_right _ mem_cons_self
      · rw [hu.address, KMemoryBlock.clip_address]
        exact max_eq_left hbx.1
    · rw [hedge.other x hxa] at hx
      obtain ⟨b, hb, rfl⟩ := h.start x hx
      obtain ⟨c, hc, hcx, hbc⟩ := hcover b hb b.address ⟨le_rfl, (ht.mem_bounds hb).2.1⟩
      exact ⟨c, mem_flatMap.2 ⟨b, hb, hc⟩, le_antisymm hcx.1 hbc⟩

section

variable {a np : ℕ} {p : KMemoryPermission} {n : ℕ → ℕ}

/-- `UpdateLock` with `LockForIpc`. -/
abbrev lockStep (a np : ℕ) (p : KMemoryPermission) : RangeUpdate :=
  (BlockUpdate.updateLock .lockForIpc p).step a np

/-- `UpdateLock` with `UnlockForIpc`. -/
abbrev unlockStep (a np : ℕ) (p : KMemoryPermission) : RangeUpdate :=
  (BlockUpdate.updateLock .unlockForIpc p).step a np

theorem lockStep_changed (b : KMemoryBlock) :
    (lockStep a np p).changed b = (b.lockForIpc p (b.address == a)).value b := rfl

theorem unlockStep_changed (b : KMemoryBlock) :
    (unlockStep a np p).changed b = (b.unlockForIpc (b.address == a)).value b := rfl

/-- `LockForIpc` counts one more lock at the start of its range. -/
theorem edgesTo_lockStep (hn : n a + 1 < 2 ^ 16) :
    (lockStep a np p).EdgesTo a n (update n a (n a + 1)) := by
  have hspec := fun b : KMemoryBlock => (eq_ret_of_wp (b.wp_lockForIpc p (b.address == a)) b).2
  refine ⟨fun x hx => update_of_ne hx .., fun b hb => ?_, fun b hb hc => ?_, fun b hb _ _ _ => ?_⟩
  · obtain ⟨-, hcount, hflag, -⟩ := hspec b
    rw [lockStep_changed, hcount, hflag, beq_false_of_ne hb]
    exact ⟨rfl, rfl⟩
  · obtain ⟨-, hcount, -⟩ := hspec b
    rw [lockStep_changed, hcount, beq_iff_eq.2 hb, if_pos rfl, update_self]
    bv_omega
  · obtain ⟨-, -, hflag, -⟩ := hspec b
    rw [lockStep_changed, hflag, beq_iff_eq.2 hb, if_pos rfl, BitVec.and_or_distrib_right]
    intro h0
    exact absurd (BitVec.or_eq_zero_iff.1 h0).2 (by decide)

/-- `UnlockForIpc` counts one lock less at the start of its range. -/
theorem edgesTo_unlockStep (hn : 0 < n a) :
    (unlockStep a np p).EdgesTo a n (update n a (n a - 1)) := by
  have hspec := fun b : KMemoryBlock => (eq_ret_of_wp (b.wp_unlockForIpc p (b.address == a)) b).2
  refine ⟨fun x hx => update_of_ne hx .., fun b hb => ?_, fun b hb hc => ?_, fun b hb hc hf hn' => ?_⟩
  · obtain ⟨-, hcount, hflag, -⟩ := hspec b
    rw [unlockStep_changed, hcount, hflag, beq_false_of_ne hb]
    exact ⟨rfl, if_neg fun h => by cases h.1⟩
  · obtain ⟨-, hcount, -⟩ := hspec b
    rw [unlockStep_changed, hcount, beq_iff_eq.2 hb, if_pos rfl, update_self]
    bv_omega
  · obtain ⟨-, -, hflag, -⟩ := hspec b
    rw [update_self] at hn'
    rw [unlockStep_changed, hflag, if_neg]
    · exact hf hn.ne'
    · rintro ⟨-, h1⟩
      rw [h1] at hc
      exact hn' (by rw [← hc]; rfl)

end

/-! ### Runs -/

/-- A call of `UpdateLock` for IPC with its arguments. -/
inductive IpcCall where
  | lockForIpc (alloc : KMemoryBlockManagerUpdateAllocator) (address numPages : ℕ)
      (perm : KMemoryPermission)
  | unlockForIpc (alloc : KMemoryBlockManagerUpdateAllocator) (address numPages : ℕ)
      (perm : KMemoryPermission)

/-- A manager and the ranges of the locks that are not released, as addresses and page
counts. -/
structure IpcState where
  manager : KMemoryBlockManager
  locks : List (ℕ × ℕ)

namespace IpcState

/-- The number of outstanding locks that cover `x`. -/
def lockCount (s : IpcState) (x : ℕ) : ℕ :=
  s.locks.countP fun l => l.1 ≤ x ∧ x < l.1 + l.2 * PageSize

/-- The number of outstanding locks that start at `x`. -/
def startCount (s : IpcState) (x : ℕ) : ℕ := s.locks.countP fun l => l.1 = x

end IpcState

namespace IpcCall

/-- Make the call. -/
def exec (c : IpcCall) (m : KMemoryBlockManager) :
    Exec (KMemoryBlockManager × KMemoryBlockManagerUpdateAllocator) :=
  match c with
  | lockForIpc alloc a np p => m.updateLock alloc a np .lockForIpc p
  | unlockForIpc alloc a np p => m.updateLock alloc a np .unlockForIpc p

/-- The locks outstanding after the call. -/
def locksAfter (c : IpcCall) (locks : List (ℕ × ℕ)) : List (ℕ × ℕ) :=
  match c with
  | lockForIpc _ a np _ => (a, np) :: locks
  | unlockForIpc _ a np _ => locks.erase (a, np)

/-- What a call is to respect.  A lock is of pages of the space, its permission is allowed
by `LockForIpc` on the pages not locked so far, and the counts stay below `2 ^ 16`; an
unlock is of the range of an outstanding lock.  `mayLock` is what else is asked of the
permission of a page for it to be locked. -/
def Valid (mayLock : KMemoryPermission → Prop) (c : IpcCall) (s : IpcState) : Prop :=
  match c with
  | lockForIpc alloc a np p =>
    s.manager.InRange a np ∧ KMemoryBlockManager.Suffices alloc s.manager a np ∧
      ∀ x, a ≤ x → x < a + np * PageSize → s.lockCount x + 1 < 2 ^ 16 ∧
        (s.lockCount x = 0 → ∀ i ∈ s.manager.pageInfo x,
          KMemoryBlock.ipcPermissionAllowed i.permission p ∧ mayLock i.permission)
  | unlockForIpc alloc a np _ =>
    KMemoryBlockManager.Suffices alloc s.manager a np ∧ (a, np) ∈ s.locks

end IpcCall

/-- The states runs of valid calls lead to. -/
inductive IpcRun (mayLock : KMemoryPermission → Prop) (s₀ : IpcState) : IpcState → Prop
  | refl : IpcRun mayLock s₀ s₀
  | step {s : IpcState} {c : IpcCall} {r held} : IpcRun mayLock s₀ s → c.Valid mayLock s →
    c.exec s.manager = ret r held → IpcRun mayLock s₀ ⟨r.1, c.locksAfter s.locks⟩

/-- What runs from the manager `m₀`, free of IPC locks, keep. -/
structure IpcInv (m₀ : KMemoryBlockManager) (s : IpcState) : Prop where
  wellFormed : s.manager.WellFormed
  sameStart : s.manager.startAddress = m₀.startAddress
  sameEnd : s.manager.endAddress = m₀.endAddress
  inRange : ∀ l ∈ s.locks, s.manager.InRange l.1 l.2
  bounded : ∀ x, s.lockCount x < 2 ^ 16
  pages : ∀ x, ∀ i ∈ s.manager.pageInfo x, ∃ i₀ ∈ m₀.pageInfo x, LockedPage i₀ (s.lockCount x) i
  edges : LeftEdges s.startCount s.manager.memoryBlockTree

/-- A manager free of IPC locks. -/
structure KMemoryBlockManager.Unlocked (m : KMemoryBlockManager) : Prop where
  pages : ∀ x, ∀ i ∈ m.pageInfo x, i.Unlocked
  edges : ∀ b ∈ m.memoryBlockTree, b.ipcDisableMergeCount = 0

namespace IpcInv

variable {m₀ : KMemoryBlockManager} {s : IpcState}

theorem init (hm : m₀.WellFormed) (h₀ : m₀.Unlocked) : IpcInv m₀ ⟨m₀, []⟩ := by
  refine ⟨hm, rfl, rfl, fun l hl => (by cases hl), fun x => Nat.two_pow_pos 16,
    fun x i hi => ⟨i, hi, ?_, fun _ => rfl, fun h => absurd rfl h⟩, ?_, ?_, ?_⟩
  · rw [(h₀.pages x i hi).count]
    rfl
  · intro b hb
    rw [h₀.edges b hb]
    rfl
  · exact fun b _ h => absurd rfl h
  · exact fun x h => absurd rfl h

/-- Every lock that starts at `x` covers it. -/
theorem startCount_le (h : IpcInv m₀ s) (x : ℕ) : s.startCount x ≤ s.lockCount x := by
  refine countP_mono_left fun l hl hx => ?_
  have hpos := (h.inRange l hl).pos
  have hx := of_decide_eq_true hx
  refine decide_eq_true ⟨hx.le, ?_⟩
  show x < l.1 + l.2 * 4096
  omega

/-- A block the call touches tells of a page of the range. -/
theorem exists_page (h : IpcInv m₀ s) (hb : b ∈ s.manager.memoryBlockTree) (ht : u.touches a e b) (hae : a < e) :
    ∃ x, a ≤ x ∧ x < e ∧ b.info ∈ s.manager.pageInfo x ∧
      ∃ i₀ ∈ m₀.pageInfo x, LockedPage i₀ (s.lockCount x) b.info := by
  obtain ⟨h₁, h₂, -⟩ := ht
  have hb₀ := (h.wellFormed.tiles.mem_bounds hb).2.1
  have hi : b.info ∈ s.manager.pageInfo (max a b.address) :=
    (KMemoryBlockManager.pageInfo_eq_some h.wellFormed.tiles).2
      ⟨b, hb, ⟨le_max_right .., max_lt h₁ hb₀⟩, rfl⟩
  exact ⟨_, le_max_left .., max_lt hae h₂, hi, h.pages _ _ hi⟩

/-- No assertion of `LockForIpc` fails in a valid lock. -/
theorem clean_lock {alloc : KMemoryBlockManagerUpdateAllocator} (h₀ : m₀.Unlocked)
    (h : IpcInv m₀ s) (hc : (IpcCall.lockForIpc alloc a np p).Valid mayLock s) :
    (lockStep a np p).Clean a (a + np * 4096) s.manager.memoryBlockTree := by
  obtain ⟨hr, -, hpages⟩ := hc
  have hpos := hr.pos
  intro b hb ht
  obtain ⟨x, hax, hxe, hi, i₀, hi₀, hpage⟩ := h.exists_page hb ht (by omega)
  obtain ⟨hbound, hallowed⟩ := hpages x hax hxe
  obtain ⟨hboundA, -⟩ := hpages a le_rfl (show a < a + np * 4096 by omega)
  have hedge := h.edges.clip (e := a + np * 4096) h.wellFormed.tiles hb ht.1
  have hu₀ := h₀.pages x i₀ hi₀
  have hcount : b.ipcLockCount.toNat = s.lockCount x := hpage.count
  obtain ⟨-, hperm, horig, hattr, hlocks, -⟩ :=
    PageInfo.ext_iff.1 (KMemoryBlock.clip_info (a := a) (e := a + np * 4096) (b := b))
  set k := b.clip a (a + np * 4096) with hkdef
  have hkcount : k.ipcLockCount.toNat = s.lockCount x :=
    (congrArg BitVec.toNat hlocks).trans hpage.count
  refine (eq_ret_of_wp (k.wp_lockForIpc p (k.address == a)) b).2.2.2.2 ?_ ?_ ?_ ?_
  · by_cases h0 : s.lockCount x = 0
    · exact Or.inr (BitVec.eq_of_toNat_eq (hkcount.trans h0))
    · refine Or.inl ?_
      rw [show k.attr = b.info.attr from hattr]
      exact hpage.attr_and h0
  · bv_omega
  · intro hk0
    have h0 : s.lockCount x = 0 := by
      rw [← hkcount, hk0]
      rfl
    refine ⟨horig.trans ?_, ?_⟩
    · rw [hpage.unlocked h0]
      exact hu₀.original
    · have := (hallowed h0 _ hi).1
      rwa [← hperm] at this
  · intro hka
    have h₁ := hedge.1
    have h₂ := h.startCount_le a
    rw [beq_iff_eq.1 hka] at h₁
    bv_omega

theorem lockCount_pos (hl : (a, np) ∈ s.locks) (hax : a ≤ x) (hxe : x < a + np * 4096) : 0 < s.lockCount x :=
  countP_pos_iff.2 ⟨(a, np), hl, decide_eq_true ⟨hax, hxe⟩⟩

/-- No assertion of `UnlockForIpc` fails in the unlock of an outstanding lock. -/
theorem clean_unlock (h : IpcInv m₀ s) (hl : (a, np) ∈ s.locks) :
    (unlockStep a np p).Clean a (a + np * 4096) s.manager.memoryBlockTree := by
  have hpos := (h.inRange _ hl).pos
  intro b hb ht
  obtain ⟨x, hax, hxe, hi, i₀, hi₀, hpage⟩ := h.exists_page hb ht (by omega)
  have hcount := lockCount_pos hl hax hxe
  have hedge := h.edges.clip (e := a + np * 4096) h.wellFormed.tiles hb ht.1
  obtain ⟨-, hperm, horig, hattr, hlocks, -⟩ :=
    PageInfo.ext_iff.1 (KMemoryBlock.clip_info (a := a) (e := a + np * 4096) (b := b))
  set k := b.clip a (a + np * 4096) with hkdef
  have hkcount : k.ipcLockCount.toNat = s.lockCount x :=
    (congrArg BitVec.toNat hlocks).trans hpage.count
  refine (eq_ret_of_wp (k.wp_unlockForIpc p (k.address == a)) b).2.2.2.2 ?_ ?_ ?_ ?_
  · rw [show k.attr = b.info.attr from hattr]
    exact hpage.attr_and hcount.ne'
  · bv_omega
  · intro _
    obtain ⟨hp₀, hinfo⟩ := hpage.locked hcount.ne'
    rw [show k.originalPermission = b.info.originalPermission from horig, hinfo]
    exact hp₀
  · intro hka
    have h₁ := hedge.1
    have h₂ : 0 < s.startCount a := countP_pos_iff.2 ⟨(a, np), hl, decide_eq_true rfl⟩
    rw [beq_iff_eq.1 hka] at h₁
    bv_omega

/-- What a lock function leaves keeps the invariant, if it takes every page to the page
under the new locks and the left edges to the new starts. -/
theorem after {f : MemoryBlockLockFunction} {locks : List (ℕ × ℕ)} (h : IpcInv m₀ s) (hr : s.manager.InRange a np)
    (hwf : ({ s.manager with memoryBlockTree := bs } : KMemoryBlockManager).WellFormed)
    (hbs : Merges (s.manager.memoryBlockTree.flatMap
      (((BlockUpdate.updateLock f p).step a np).pieces a (a + np * 4096))) bs)
    (hlocks : ∀ l ∈ locks, l = (a, np) ∨ l ∈ s.locks)
    (hbound : ∀ x, IpcState.lockCount ⟨s.manager, locks⟩ x < 2 ^ 16)
    (hpages : ∀ x, ∀ i ∈ s.manager.pageInfo x, ∀ i₀ ∈ m₀.pageInfo x,
      LockedPage i₀ (s.lockCount x) i → LockedPage i₀ (IpcState.lockCount ⟨s.manager, locks⟩ x)
        (if a ≤ x ∧ x < a + np * PageSize then f.effect p i else i))
    (hedges : ((BlockUpdate.updateLock f p).step a np).EdgesTo a s.startCount
      (IpcState.startCount ⟨s.manager, locks⟩)) :
    IpcInv m₀ ⟨{ s.manager with memoryBlockTree := bs }, locks⟩ := by
  have hpos := hr.pos
  have hal := hr.aligned
  refine ⟨hwf, h.sameStart, h.sameEnd, fun l hl => ?_, hbound, fun x i hi => ?_, ?_⟩
  · have hl' : s.manager.InRange l.1 l.2 := by
      rcases hlocks l hl with rfl | hl
      · exact hr
      · exact h.inRange l hl
    exact { hl' with }
  · dsimp only at hi
    rw [KMemoryBlockManager.pageInfo_of_merges (.updateLock f p) trivial h.wellFormed hr hbs] at hi
    obtain ⟨j, hj, rfl⟩ : ∃ j ∈ s.manager.pageInfo x,
        (if a ≤ x ∧ x < a + np * PageSize then f.effect p j else j) = i := by
      split at hi
      case isTrue hx =>
        obtain ⟨j, hj, rfl⟩ := Option.map_eq_some_iff.1 hi
        exact ⟨j, hj, if_pos hx⟩
      case isFalse hx => exact ⟨i, hi, if_neg hx⟩
    obtain ⟨i₀, hi₀, hpage⟩ := h.pages x j hj
    exact ⟨i₀, hi₀, hpages x j hj i₀ hi₀ hpage⟩
  · exact (h.edges.pieces ((BlockUpdate.updateLock f p).total a np) hedges (fun _ => rfl)
      h.wellFormed.tiles h.wellFormed.aligned hal (by omega) (by omega) hr.start_le
      hr.le_end).merges hbs

section

variable {alloc : KMemoryBlockManagerUpdateAllocator} {a np : ℕ} {p : KMemoryPermission}

/-- A valid lock keeps the invariant, and no assertion fails in it. -/
theorem lock (hm₀ : m₀.Unlocked) (h : IpcInv m₀ s)
    (hc : (IpcCall.lockForIpc alloc a np p).Valid (· ≠ KMemoryPermission.none) s) :
    wp ((IpcCall.lockForIpc alloc a np p).exec s.manager) fun r held =>
      held = true ∧ IpcInv m₀ ⟨r.1, (a, np) :: s.locks⟩ := by
  have hclean := h.clean_lock hm₀ hc
  obtain ⟨hr, halloc, hpages⟩ := hc
  have hpos := hr.pos
  have hcount : ∀ x, IpcState.lockCount ⟨s.manager, (a, np) :: s.locks⟩ x =
      s.lockCount x + if a ≤ x ∧ x < a + np * PageSize then 1 else 0 := by
    intro x
    simp only [IpcState.lockCount, countP_cons, decide_eq_true_eq]
  have hstart : IpcState.startCount ⟨s.manager, (a, np) :: s.locks⟩ = update s.startCount a (s.startCount a + 1) := by
    funext x
    rw [update_apply]
    simp only [IpcState.startCount, countP_cons, decide_eq_true_eq]
    by_cases hx : a = x
    · rw [if_pos hx, if_pos hx.symm, hx]
    · rw [if_neg hx, if_neg (Ne.symm hx), Nat.add_zero]
  refine wp_mono (KMemoryBlockManager.wp_run (.updateLock .lockForIpc p) h.wellFormed hr halloc
    (KMemoryBlockManager.not_skipsFirst_updateLock .lockForIpc p h.wellFormed hr))
    fun r held ⟨hr₁, hwf, hmerges, hheld⟩ => ⟨hheld trivial hclean, ?_⟩
  rw [hr₁] at hwf ⊢
  refine h.after (f := .lockForIpc) (p := p) hr hwf hmerges
    (fun l hl => mem_cons.1 hl) (fun x => ?_) (fun x i hi i₀ hi₀ hpage => ?_) ?_
  · rw [hcount]
    split
    case isTrue hx => exact (hpages x hx.1 hx.2).1
    case isFalse => exact h.bounded x
  · rw [hcount]
    split
    case isTrue hx =>
      obtain ⟨hbound, hallowed⟩ := hpages x hx.1 hx.2
      exact hpage.lock hbound fun h0 => (hallowed h0 i hi).2
    case isFalse => exact hpage
  · rw [hstart]
    refine edgesTo_lockStep ?_
    have := h.startCount_le a
    have := (hpages a le_rfl (show a < a + np * 4096 by omega)).1
    omega

/-- The unlock of an outstanding lock keeps the invariant, and no assertion fails in it. -/
theorem unlock (hm₀ : m₀.Unlocked) (h : IpcInv m₀ s) (hc : (IpcCall.unlockForIpc alloc a np p).Valid mayLock s) :
    wp ((IpcCall.unlockForIpc alloc a np p).exec s.manager) fun r held =>
      held = true ∧ IpcInv m₀ ⟨r.1, s.locks.erase (a, np)⟩ := by
  obtain ⟨halloc, hl⟩ := hc
  have hclean := h.clean_unlock (p := p) hl
  have hr := h.inRange _ hl
  have hperm := perm_cons_erase hl
  have hcount : ∀ x, s.lockCount x = IpcState.lockCount ⟨s.manager, s.locks.erase (a, np)⟩ x +
      if a ≤ x ∧ x < a + np * PageSize then 1 else 0 := by
    intro x
    simp only [IpcState.lockCount, hperm.countP_eq, countP_cons, decide_eq_true_eq]
  have hstart : IpcState.startCount ⟨s.manager, s.locks.erase (a, np)⟩ =
      update s.startCount a (s.startCount a - 1) := by
    funext x
    rw [update_apply]
    simp only [IpcState.startCount, hperm.countP_eq, countP_cons, decide_eq_true_eq]
    by_cases hx : a = x
    · subst hx
      simp
    · rw [if_neg (Ne.symm hx), if_neg hx, Nat.add_zero]
  refine wp_mono (KMemoryBlockManager.wp_run (.updateLock .unlockForIpc p) h.wellFormed hr halloc
    (KMemoryBlockManager.not_skipsFirst_updateLock .unlockForIpc p h.wellFormed hr))
    fun r held ⟨hr₁, hwf, hmerges, hheld⟩ => ⟨hheld trivial hclean, ?_⟩
  rw [hr₁] at hwf ⊢
  refine h.after (f := .unlockForIpc) (p := p) hr hwf hmerges
    (fun l hl => Or.inr (mem_of_mem_erase hl)) (fun x => ?_)
    (fun x i hi i₀ hi₀ hpage => ?_) ?_
  · have := hcount x
    have := h.bounded x
    omega
  · have := hcount x
    split
    case isTrue hx =>
      rw [if_pos hx] at this
      rw [this] at hpage
      exact hpage.unlock (hm₀.pages x i₀ hi₀)
    case isFalse hx =>
      rw [if_neg hx, Nat.add_zero] at this
      rwa [← this]
  · rw [hstart]
    exact edgesTo_unlockStep (countP_pos_iff.2 ⟨(a, np), hl, decide_eq_true rfl⟩)

end

/-- **A valid call keeps the invariant**, and no assertion fails in it. -/
theorem call {c : IpcCall} (hm₀ : m₀.Unlocked) (h : IpcInv m₀ s) (hc : c.Valid (· ≠ KMemoryPermission.none) s) :
    wp (c.exec s.manager) fun r held =>
      held = true ∧ IpcInv m₀ ⟨r.1, c.locksAfter s.locks⟩ := by
  cases c with
  | lockForIpc => exact h.lock hm₀ hc
  | unlockForIpc => exact h.unlock hm₀ hc

/-- Runs keep the invariant. -/
theorem run (hm : m₀.WellFormed) (hm₀ : m₀.Unlocked)
    (hs : IpcRun (· ≠ KMemoryPermission.none) ⟨m₀, []⟩ s) : IpcInv m₀ s := by
  induction hs with
  | refl => exact init hm hm₀
  | step _ hc he ih =>
    obtain ⟨r', held', he', h⟩ := ih.call hm₀ hc
    rw [he] at he'
    cases he'
    exact h.2

end IpcInv

/-- **IPC locks and unlocks in any order**: in a run from a manager free of IPC locks that
locks no page of permission `None`, no assertion fails in a valid call, every page counts
the outstanding locks that cover it, and when there are none left it is what it was. -/
theorem ipcRun_pageInfo {m₀ : KMemoryBlockManager} (hm : m₀.WellFormed) (hm₀ : m₀.Unlocked)
    {s : IpcState} (hs : IpcRun (· ≠ KMemoryPermission.none) ⟨m₀, []⟩ s) :
    (∀ c : IpcCall, c.Valid (· ≠ KMemoryPermission.none) s →
      wp (c.exec s.manager) fun _ held => held = true) ∧
    (∀ x, ∀ i ∈ s.manager.pageInfo x, i.ipcLockCount.toNat = s.lockCount x) ∧
    (s.locks = [] → ∀ x, s.manager.pageInfo x = m₀.pageInfo x ∧
      ∀ i ∈ s.manager.pageInfo x, i.attr &&& ipcLocked = KMemoryAttribute.none ∧
        i.originalPermission = KMemoryPermission.none) := by
  have h := IpcInv.run hm hm₀ hs
  refine ⟨fun c hc => wp_mono (h.call hm₀ hc) fun _ _ hr => hr.1, fun x i hi => ?_,
    fun hnil x => ?_⟩
  · obtain ⟨i₀, -, hpage⟩ := h.pages x i hi
    exact hpage.count
  · have hcount : s.lockCount x = 0 := by
      rw [IpcState.lockCount, hnil]
      rfl
    have hsame : s.manager.pageInfo x = m₀.pageInfo x := by
      cases hx : s.manager.pageInfo x with
      | none =>
        rw [← Option.not_isSome_iff_eq_none, KMemoryBlockManager.pageInfo_isSome
          h.wellFormed.tiles, h.sameStart, h.sameEnd] at hx
        rwa [eq_comm, ← Option.not_isSome_iff_eq_none, KMemoryBlockManager.pageInfo_isSome hm.tiles]
      | some i =>
        obtain ⟨i₀, hi₀, hpage⟩ := h.pages x i hx
        rw [hpage.unlocked hcount]
        exact hi₀.symm
    refine ⟨hsame, fun i hi => ?_⟩
    have hu := hm₀.pages x i (hsame ▸ hi)
    exact ⟨hu.attr, hu.original⟩

/-- A space of sixteen user pages, read and write. -/
def userPages : KMemoryBlockManager where
  memoryBlockTree := [KMemoryBlock.initialized 0x10000 16 5 0x1B KMemoryAttribute.none]
  startAddress := 0x10000
  endAddress := 0x20000

theorem userPages_wellFormed : userPages.WellFormed :=
  KMemoryBlockManager.wellFormed_singleton (b := KMemoryBlock.initialized 0x10000 16 5 0x1B
    KMemoryAttribute.none) rfl (by decide) (by decide)

theorem KMemoryBlockManager.unlocked_singleton {st nd : ℕ}
    (hb : b.info.Unlocked) (hcount : b.ipcDisableMergeCount = 0) :
    Unlocked ⟨[b], st, nd⟩ :=
  ⟨fun _ _ hi => pageInfo_singleton hi ▸ hb, fun _ hc => mem_singleton.1 hc ▸ hcount⟩

/-- The state that a call leaves. -/
def IpcState.next (s : IpcState) (c : IpcCall) : IpcState :=
  ⟨((c.exec s.manager).value (s.manager, {})).1, c.locksAfter s.locks⟩

theorem IpcRun.next {mayLock : KMemoryPermission → Prop} {s₀ s : IpcState} {c : IpcCall} (hs : IpcRun mayLock s₀ s)
    (hc : c.Valid mayLock s) (hheld : (c.exec s.manager).held = true) : IpcRun mayLock s₀ (s.next c) :=
  .step hs hc (Exec.eq_ret_of_held hheld (s.manager, {}))

/-- A lock is valid if it is allowed on every block of the space. -/
theorem IpcCall.valid_lockForIpc {mayLock : KMemoryPermission → Prop} {s : IpcState}
    {alloc : KMemoryBlockManagerUpdateAllocator} {a np : ℕ} {p : KMemoryPermission} (hr : s.manager.InRange a np)
    (halloc : KMemoryBlockManager.Suffices alloc s.manager a np) (hlocks : s.locks.length + 1 < 2 ^ 16)
    (hblocks : ∀ b ∈ s.manager.memoryBlockTree,
      KMemoryBlock.ipcPermissionAllowed b.permission p ∧ mayLock b.permission) :
    (lockForIpc alloc a np p).Valid mayLock s := by
  refine ⟨hr, halloc, fun x _ _ => ⟨?_, fun _ i hi => ?_⟩⟩
  · have := List.countP_le_length (l := s.locks) (p := fun l => decide (l.1 ≤ x ∧ x < l.1 + l.2 * PageSize))
    exact Nat.lt_of_le_of_lt (Nat.succ_le_succ this) hlocks
  · obtain ⟨b, hb, rfl⟩ := Option.map_eq_some_iff.1 hi
    exact hblocks b (List.mem_of_find?_eq_some hb)

/-- Two locks of two pages each that share a page, both for reading. -/
def sharedPage : IpcState :=
  IpcState.next (IpcState.next ⟨userPages, []⟩ (.lockForIpc {} 0x12000 2 0x09)) (.lockForIpc {} 0x13000 2 0x09)

/-- The first lock is released, then the second. -/
def releasedPages : IpcState :=
  (sharedPage.next (.unlockForIpc {} 0x12000 2 0x09)).next (.unlockForIpc {} 0x13000 2 0x09)

/-- The shared page counts both locks, and without them all sixteen pages are what they were. -/
theorem ipcRun_pageInfo_userPages :
    IpcRun (· ≠ KMemoryPermission.none) ⟨userPages, []⟩ sharedPage ∧
      IpcRun (· ≠ KMemoryPermission.none) ⟨userPages, []⟩ releasedPages ∧
      (∀ i ∈ sharedPage.manager.pageInfo 0x13000, i.ipcLockCount.toNat = 2) ∧
      ∀ x, releasedPages.manager.pageInfo x = userPages.pageInfo x := by
  have hunlocked : userPages.Unlocked := KMemoryBlockManager.unlocked_singleton ⟨rfl, rfl, rfl⟩ rfl
  have hfirst : IpcRun (· ≠ KMemoryPermission.none) ⟨userPages, []⟩ (IpcState.next ⟨userPages, []⟩
      (.lockForIpc {} 0x12000 2 0x09)) :=
    IpcRun.refl.next (IpcCall.valid_lockForIpc ⟨by decide, by decide, by decide, by decide⟩ (by decide) (by decide)
      (by decide)) (by decide +kernel)
  have hshared : IpcRun (· ≠ KMemoryPermission.none) ⟨userPages, []⟩ sharedPage :=
    hfirst.next (IpcCall.valid_lockForIpc ⟨by decide, by decide, by decide +kernel, by decide +kernel⟩
      (by decide +kernel) (by decide) (by decide +kernel)) (by decide +kernel)
  have hone : IpcRun (· ≠ KMemoryPermission.none) ⟨userPages, []⟩
      (sharedPage.next (.unlockForIpc {} 0x12000 2 0x09)) :=
    hshared.next (c := .unlockForIpc {} 0x12000 2 0x09) ⟨by decide +kernel, by decide⟩ (by decide +kernel)
  have hreleased : IpcRun (· ≠ KMemoryPermission.none) ⟨userPages, []⟩ releasedPages :=
    hone.next (c := .unlockForIpc {} 0x13000 2 0x09) ⟨by decide +kernel, by decide⟩ (by decide +kernel)
  refine ⟨hshared, hreleased, (ipcRun_pageInfo userPages_wellFormed hunlocked hshared).2.1 0x13000, fun x => ?_⟩
  exact ((ipcRun_pageInfo userPages_wellFormed hunlocked hreleased).2.2 rfl x).1

/-- Locking pages of permission `None`, which `LockForIpc` allows, and unlocking them: the
assertion of `UnlockForIpc` on the kept permission fails. -/
theorem ipcRun_unlock_none :
    (KMemoryBlockManager.initialized 0x10000 0x20000).WellFormed ∧
    (KMemoryBlockManager.initialized 0x10000 0x20000).Unlocked ∧
    ∃ s, IpcRun (fun _ => True) ⟨KMemoryBlockManager.initialized 0x10000 0x20000, []⟩ s ∧
      (IpcCall.unlockForIpc {} 0x12000 2 0).Valid (fun _ => True) s ∧
      ((IpcCall.unlockForIpc {} 0x12000 2 0).exec s.manager).held = false := by
  have hvalid : (IpcCall.lockForIpc {} 0x12000 2 0).Valid (fun _ => True)
      ⟨KMemoryBlockManager.initialized 0x10000 0x20000, []⟩ := by
    refine ⟨⟨by decide, by decide, by decide, by decide⟩, by decide, fun x _ _ =>
      ⟨show 0 + 1 < 2 ^ 16 by decide, ?_⟩⟩
    intro _ i hi
    rw [KMemoryBlockManager.pageInfo_singleton hi]
    decide
  exact ⟨KMemoryBlockManager.initialized_wellFormed (by decide) (by decide) (by decide)
    (by decide), KMemoryBlockManager.unlocked_singleton ⟨rfl, rfl, rfl⟩ rfl, _,
    IpcRun.step .refl hvalid rfl,
    ⟨KMemoryBlockManager.suffices_of_index_eq_zero rfl .., List.mem_singleton.2 rfl⟩, by decide⟩

end Kernel
end NXEmu
