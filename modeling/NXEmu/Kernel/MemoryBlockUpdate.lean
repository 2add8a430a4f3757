/-
# What an update leaves of a block

`src/nxemu-os/core/hle/kernel/k_memory_block_manager.cpp`, the loops of `Update`,
`UpdateIfMatch`, `UpdateLock` and `UpdateAttribute`.

An update of the range `[a, e)` replaces each block of the tree by `pieces u a e`:
the block itself when it is outside the range or stepped over, and otherwise the
part below the range, the changed part inside it (`clip`) and the part above it.
The pieces tile what the block covered (`tiles_pieces`), and `updateLoop`
computes them (`wp_updateLoop`).  After it two neighbours may be mergeable, but
only where they meet inside `[a, e]` (`isChain_pieces`): everywhere else the
edge between them is one of the edges of the coalesced tree from before.
-/

import NXEmu.Lib.Tiling
import NXEmu.Kernel.MemoryBlockManager
import NXEmu.Kernel.MemoryBlockMerge

variable {s x : ℕ} {bs : List KMemoryBlock} {c : KMemoryBlock}

namespace NXEmu
namespace Kernel

open Segment Exec KMemoryBlock

/-- A block is the segment of its addresses. -/
instance : Segment KMemoryBlock := ⟨KMemoryBlock.address, KMemoryBlock.endAddress⟩

namespace KMemoryBlock

variable {a e x : ℕ} {b : KMemoryBlock}

theorem lo_eq (b : KMemoryBlock) : lo b = b.address := rfl

theorem hi_eq (b : KMemoryBlock) : hi b = b.endAddress := rfl

/-- The address of `b` is a page's. -/
def Aligned (b : KMemoryBlock) : Prop := b.address % 4096 = 0

theorem Aligned.endAddress (h : b.Aligned) : b.endAddress % 4096 = 0 := by
  have := b.endAddress_eq
  rw [Aligned] at h
  omega

/-- Every block of a tiling that starts on a page does. -/
theorem aligned_of_tiles (h : Tiles s bs e) (hs : s % 4096 = 0) (hb : b ∈ bs) : b.Aligned := by
  induction bs generalizing s with
  | nil => cases hb
  | cons c bs ih =>
    obtain ⟨hc, -, h⟩ := h
    have hca : c.Aligned := by rwa [Aligned, show c.address = s from hc]
    rcases List.mem_cons.1 hb with rfl | hb
    · exact hca
    · exact ih h hca.endAddress hb

theorem splitLeft_endAddress (hb : b.Aligned) (ha : a % 4096 = 0) (h : b.address ≤ a) :
    (b.splitLeft a).endAddress = a := by
  have h₁ := (b.splitLeft a).endAddress_eq
  rw [splitLeft_address, splitLeft_numPages] at h₁
  rw [Aligned] at hb
  omega

theorem splitRight_endAddress (hb : b.Aligned) (ha : a % 4096 = 0) (h : b.address ≤ a)
    (h' : a ≤ b.endAddress) : (b.splitRight a).endAddress = b.endAddress := by
  have h₁ := (b.splitRight a).endAddress_eq
  have h₂ := b.endAddress_eq
  rw [splitRight_address, splitRight_numPages] at h₁
  rw [Aligned] at hb
  omega

/-- The part of `b` from `a` on. -/
def clipLeft (a : ℕ) (b : KMemoryBlock) : KMemoryBlock :=
  if b.address < a then b.splitRight a else b

/-- The part of `b` up to `e`. -/
def clipRight (e : ℕ) (b : KMemoryBlock) : KMemoryBlock :=
  if e < b.endAddress then b.splitLeft e else b

/-- The part of `b` in `[a, e)`. -/
def clip (a e : ℕ) (b : KMemoryBlock) : KMemoryBlock := (b.clipLeft a).clipRight e

/-- The part of `b` before `a`, if there is one. -/
def below (a : ℕ) (b : KMemoryBlock) : List KMemoryBlock :=
  if b.address < a then [b.splitLeft a] else []

/-- The part of `b` from `e` on, if there is one. -/
def above (e : ℕ) (b : KMemoryBlock) : List KMemoryBlock :=
  if e < b.endAddress then [b.splitRight e] else []

@[simp] theorem clipLeft_info : (b.clipLeft a).info = b.info := by
  rw [clipLeft]
  split <;> rfl

@[simp] theorem clip_info : (b.clip a e).info = b.info := by
  rw [clip, clipRight]
  split <;> simp

theorem clipLeft_address : (b.clipLeft a).address = max a b.address := by
  rw [clipLeft]
  split
  · rw [splitRight_address]
    omega
  · omega

theorem clipLeft_aligned (hb : b.Aligned) (ha : a % 4096 = 0) : (b.clipLeft a).Aligned := by
  rw [clipLeft]
  split
  · exact ha
  · exact hb

theorem clipLeft_endAddress (hb : b.Aligned) (ha : a % 4096 = 0) (h : a ≤ b.endAddress) :
    (b.clipLeft a).endAddress = b.endAddress := by
  rw [clipLeft]
  split
  · exact splitRight_endAddress hb ha (by omega) h
  · rfl

theorem clipRight_address : (b.clipRight e).address = b.address := by
  rw [clipRight]
  split <;> rfl

theorem clipRight_endAddress (hb : b.Aligned) (he : e % 4096 = 0) (h : b.address ≤ e) :
    (b.clipRight e).endAddress = min e b.endAddress := by
  rw [clipRight]
  split
  · rw [splitLeft_endAddress hb he h]
    omega
  · omega

theorem clip_address : (b.clip a e).address = max a b.address := by
  rw [clip, clipRight_address, clipLeft_address]

theorem clip_endAddress (hb : b.Aligned) (ha : a % 4096 = 0) (he : e % 4096 = 0)
    (h₁ : a ≤ b.endAddress) (h₂ : b.address ≤ e) (hae : a ≤ e) :
    (b.clip a e).endAddress = min e b.endAddress := by
  rw [clip, clipRight_endAddress (clipLeft_aligned hb ha) he (by rw [clipLeft_address]; omega),
    clipLeft_endAddress hb ha h₁]

theorem below_max : b.below (max a b.address) = b.below a := by
  rcases le_total a b.address with h | h
  · rw [max_eq_right h, below, below, if_neg (lt_irrefl _), if_neg (not_lt.2 h)]
  · rw [max_eq_left h]

theorem clipLeft_max : b.clipLeft (max a b.address) = b.clipLeft a := by
  rcases le_total a b.address with h | h
  · rw [max_eq_right h, clipLeft, clipLeft, if_neg (lt_irrefl _), if_neg (not_lt.2 h)]
  · rw [max_eq_left h]

/-- What is below the range reaches from the block's start to the clipped part. -/
theorem tiles_below (hb : b.Aligned) (ha : a % 4096 = 0) :
    Tiles b.address (b.below a) (b.clipLeft a).address := by
  rw [below, clipLeft]
  split
  case isTrue h =>
    rw [tiles_cons, hi_eq, splitLeft_endAddress hb ha h.le]
    exact ⟨rfl, h, rfl⟩
  case isFalse h => rfl

/-- What is above the range reaches from the clipped part to the block's end. -/
theorem tiles_above (hb : b.Aligned) (he : e % 4096 = 0) (h : b.address ≤ e) :
    Tiles (b.clipRight e).endAddress (b.above e) b.endAddress := by
  rw [above, clipRight]
  split
  case isTrue h' =>
    rw [tiles_cons, hi_eq, splitRight_endAddress hb he h h'.le, splitLeft_endAddress hb he h]
    exact ⟨rfl, h', rfl⟩
  case isFalse h' => rfl

end KMemoryBlock

namespace RangeUpdate

variable {u : RangeUpdate} {a e : ℕ} {b : KMemoryBlock}

/-- What the update makes of a block it changes. -/
def changed (u : RangeUpdate) (b : KMemoryBlock) : KMemoryBlock := (u.apply b).value b

/-- The update returns from every block and leaves it where it is. -/
def Total (u : RangeUpdate) : Prop :=
  ∀ b, wp (u.apply b) fun b' _ => b'.address = b.address ∧ b'.numPages = b.numPages

section

variable (h : u.Total) (b : KMemoryBlock)

include h

theorem Total.apply_eq :
    u.apply b = ret (u.changed b) (u.apply b).held :=
  (eq_ret_of_wp (h b) b).1

theorem Total.address : (u.changed b).address = b.address :=
  (eq_ret_of_wp (h b) b).2.1

theorem Total.numPages : (u.changed b).numPages = b.numPages :=
  (eq_ret_of_wp (h b) b).2.2

theorem Total.endAddress :
    (u.changed b).endAddress = b.endAddress := by
  rw [endAddress_eq, endAddress_eq, h.address, h.numPages]

end

/-- The update of `[a, e)` changes `b`. -/
def touches (u : RangeUpdate) (a e : ℕ) (b : KMemoryBlock) : Prop :=
  a < b.endAddress ∧ b.address < e ∧ u.changes b = true

instance : Decidable (u.touches a e b) := inferInstanceAs (Decidable (_ ∧ _))

/-- What the update of `[a, e)` replaces `b` by. -/
def pieces (u : RangeUpdate) (a e : ℕ) (b : KMemoryBlock) : List KMemoryBlock :=
  if u.touches a e b then b.below a ++ u.changed (b.clip a e) :: (b.clipLeft a).above e else [b]

theorem pieces_of_touches (h : u.touches a e b) :
    u.pieces a e b = b.below a ++ u.changed (b.clip a e) :: (b.clipLeft a).above e :=
  if_pos h

theorem pieces_of_not_touches (h : ¬u.touches a e b) : u.pieces a e b = [b] :=
  if_neg h

/-- **The pieces of a block tile it.** -/
theorem tiles_pieces (hu : u.Total) (hb : b.Aligned) (hb₀ : b.address < b.endAddress)
    (ha : a % 4096 = 0) (he : e % 4096 = 0) (hae : a < e) :
    Tiles b.address (u.pieces a e b) b.endAddress := by
  by_cases h : u.touches a e b
  · rw [pieces_of_touches h, tiles_append]
    obtain ⟨h₁, h₂, -⟩ := h
    have hl := clipLeft_aligned hb ha
    have hla := clipLeft_address (a := a) (b := b)
    have hle := clipLeft_endAddress hb ha h₁.le
    have habove := tiles_above hl he (by omega)
    rw [hle, ← clip] at habove
    have hclip := clip_endAddress hb ha he h₁.le h₂.le hae.le
    refine ⟨_, tiles_below hb ha, ?_, ?_, ?_⟩
    · rw [lo_eq, hu.address, clip_address, hla]
    · rw [hi_eq, hu.endAddress, hclip]
      omega
    · rw [hi_eq, hu.endAddress]
      exact habove
  · rw [pieces_of_not_touches h]
    exact ⟨rfl, hb₀, rfl⟩

/-- A block past the range stays. -/
theorem flatMap_pieces_of_le (h : ∀ b ∈ bs, e ≤ b.address) :
    bs.flatMap (u.pieces a e) = bs := by
  induction bs with
  | nil => rfl
  | cons b bs ih =>
    have hb := h b List.mem_cons_self
    rw [List.flatMap_cons, ih fun c hc => h c (List.mem_cons_of_mem b hc),
      pieces_of_not_touches fun ht => by have := ht.2.1; omega]
    rfl

/-- A block below the range stays. -/
theorem flatMap_pieces_of_ge (h : ∀ b ∈ bs, b.endAddress ≤ a) :
    bs.flatMap (u.pieces a e) = bs := by
  induction bs with
  | nil => rfl
  | cons b bs ih =>
    have hb := h b List.mem_cons_self
    rw [List.flatMap_cons, ih fun c hc => h c (List.mem_cons_of_mem b hc),
      pieces_of_not_touches fun ht => by have := ht.1; omega]
    rfl

/-- Every assertion holds in the calls on the blocks of `bs` the update changes. -/
def Clean (u : RangeUpdate) (a e : ℕ) (bs : List KMemoryBlock) : Prop :=
  ∀ b ∈ bs, u.touches a e b → (u.apply (b.clip a e)).held = true

end RangeUpdate

variable {u : RangeUpdate} {a e : ℕ} {b : KMemoryBlock}

/-- Two neighbours may be merged only where they meet inside `[a, e]`. -/
def MergeableIn (a e : ℕ) (b c : KMemoryBlock) : Prop :=
  b.canMergeWith c = true → a ≤ b.endAddress ∧ b.endAddress ≤ e

/-- Two neighbours may not be merged. -/
def Unmergeable (b c : KMemoryBlock) : Prop := b.canMergeWith c = false

instance : DecidableRel Unmergeable := fun b c =>
  inferInstanceAs (Decidable (b.canMergeWith c = false))

/-- Outside the range the last piece of a block merges to the right as the block did. -/
theorem RangeUpdate.getLast?_pieces (hu : u.Total) (hb : b.Aligned)
    (ha : a % 4096 = 0) (he : e % 4096 = 0) (hae : a < e) (hc : c ∈ (u.pieces a e b).getLast?) :
    c.endAddress = b.endAddress ∧
      (a ≤ b.endAddress ∧ b.endAddress ≤ e ∨ ∀ d, c.canMergeWith d = b.canMergeWith d) := by
  by_cases h : u.touches a e b
  · rw [pieces_of_touches h, List.getLast?_append, List.getLast?_cons] at hc
    obtain ⟨h₁, h₂, -⟩ := h
    have hca := clipLeft_aligned hb ha
    have hcl := clipLeft_address (a := a) (b := b)
    have hce := clipLeft_endAddress hb ha h₁.le
    have hme := clip_endAddress hb ha he h₁.le h₂.le hae.le
    by_cases h₃ : e < b.endAddress
    · rw [above, if_pos (hce ▸ h₃)] at hc
      obtain rfl : (b.clipLeft a).splitRight e = c := by simpa using hc
      refine ⟨?_, Or.inr fun d => ?_⟩
      · rw [splitRight_endAddress hca he (by omega) (by omega), hce]
      · rw [splitRight_canMergeWith, clipLeft]
        split
        · exact splitRight_canMergeWith
        · rfl
    · rw [above, if_neg (hce ▸ h₃)] at hc
      obtain rfl : u.changed (b.clip a e) = c := by simpa using hc
      rw [hu.endAddress, hme]
      exact ⟨by omega, Or.inl ⟨h₁.le, by omega⟩⟩
  · rw [pieces_of_not_touches h] at hc
    obtain rfl : b = c := by simpa using hc
    exact ⟨rfl, Or.inr fun _ => rfl⟩

/-- Outside the range the first piece of a block merges to the left as the block did. -/
theorem RangeUpdate.head?_pieces (hu : u.Total) (hc : c ∈ (u.pieces a e b).head?) :
    c.address = b.address ∧ (a ≤ b.address ∧ b.address ≤ e ∨
        ∀ d : KMemoryBlock, d.canMergeWith c = d.canMergeWith b) := by
  by_cases h : u.touches a e b
  · rw [pieces_of_touches h] at hc
    obtain ⟨-, h₂, -⟩ := h
    by_cases h₃ : b.address < a
    · rw [below, if_pos h₃] at hc
      obtain rfl : b.splitLeft a = c := by simpa using hc
      exact ⟨rfl, Or.inr fun d => canMergeWith_splitLeft⟩
    · rw [below, if_neg h₃] at hc
      obtain rfl : u.changed (b.clip a e) = c := by simpa using hc
      rw [hu.address, clip_address]
      exact ⟨by omega, Or.inl ⟨by omega, h₂.le⟩⟩
  · rw [pieces_of_not_touches h] at hc
    obtain rfl : b = c := by simpa using hc
    exact ⟨rfl, Or.inr fun _ => rfl⟩

/-- The pieces of one block meet at the ends of the range. -/
theorem RangeUpdate.isChain_pieces_self (hu : u.Total) (hb : b.Aligned) (ha : a % 4096 = 0)
    (he : e % 4096 = 0) (hae : a < e) : (u.pieces a e b).IsChain (MergeableIn a e) := by
  by_cases h : u.touches a e b
  · rw [pieces_of_touches h]
    obtain ⟨h₁, h₂, -⟩ := h
    have hme := clip_endAddress hb ha he h₁.le h₂.le hae.le
    rw [List.isChain_append]
    refine ⟨?_, ?_, fun c hc d _ _ => ?_⟩
    · rw [below]
      split <;> simp
    · rw [above]
      split
      · refine List.isChain_pair.2 fun _ => ?_
        rw [hu.endAddress, hme]
        omega
      · exact List.isChain_singleton _
    · rw [below] at hc
      split at hc
      case isTrue h₃ =>
        obtain rfl : b.splitLeft a = c := by simpa using hc
        rw [splitLeft_endAddress hb ha h₃.le]
        omega
      case isFalse => cases hc
  · rw [pieces_of_not_touches h]
    exact List.isChain_singleton _

/-- **After the loop two neighbours are mergeable only inside the range**: anywhere else
the edge between them is one the coalesced tree had before. -/
theorem RangeUpdate.isChain_pieces (hu : u.Total) (ha : a % 4096 = 0) (he : e % 4096 = 0)
    (hae : a < e) {s t : ℕ} (ht : Tiles s bs t) (hs : s % 4096 = 0)
    (hbs : bs.IsChain Unmergeable) : (bs.flatMap (u.pieces a e)).IsChain (MergeableIn a e) := by
  induction bs generalizing s with
  | nil => exact List.isChain_nil
  | cons b bs ih =>
    have hb := aligned_of_tiles ht hs List.mem_cons_self
    obtain ⟨-, -, ht⟩ := ht
    rw [List.flatMap_cons, List.isChain_append]
    refine ⟨isChain_pieces_self hu hb ha he hae, ih ht hb.endAddress hbs.tail, ?_⟩
    intro x hx y hy hxy
    cases bs with
    | nil => cases hy
    | cons c bs =>
      have hbc := (List.isChain_cons_cons.1 hbs).1
      have hcb : c.address = b.endAddress := ht.1
      have hc := aligned_of_tiles ht hb.endAddress List.mem_cons_self
      have hne : u.pieces a e c ≠ [] := fun h => by
        have := tiles_pieces hu hc (by rw [hcb]; exact ht.2.1) ha he hae
        rw [h, tiles_nil, hcb] at this
        exact ht.2.1.ne this
      rw [List.flatMap_cons, List.head?_append_of_ne_nil _ hne] at hy
      obtain ⟨hxe, hx⟩ := getLast?_pieces hu hb ha he hae hx
      obtain ⟨-, hy⟩ := head?_pieces hu hy
      rw [hcb] at hy
      rw [hxe]
      rcases hx with hx | hx
      · exact hx
      rcases hy with hy | hy
      · exact hy
      rw [hx, hy, hbc] at hxy
      cases hxy

/-- The number of blocks a cut at `x` needs: one if `x` is inside a block. -/
def cutAt (bs : List KMemoryBlock) (x : ℕ) : ℕ :=
  if bs.any fun b => b.address < x ∧ x < b.endAddress then 1 else 0

theorem cutAt_eq_one {b : KMemoryBlock} (hb : b ∈ bs) (h₁ : b.address < x) (h₂ : x < b.endAddress) : cutAt bs x = 1 :=
  if_pos (List.any_eq_true.2 ⟨b, hb, decide_eq_true ⟨h₁, h₂⟩⟩)

theorem cutAt_mono {bs cs : List KMemoryBlock} (h : bs ⊆ cs) (x : ℕ) :
    cutAt bs x ≤ cutAt cs x := by
  by_cases hb : bs.any fun b => b.address < x ∧ x < b.endAddress
  · obtain ⟨b, hb, hx⟩ := List.any_eq_true.1 hb
    have hx := of_decide_eq_true hx
    rw [cutAt_eq_one (h hb) hx.1 hx.2, cutAt]
    split <;> omega
  · rw [cutAt, if_neg hb]
    exact Nat.zero_le _

theorem cutAt_eq_zero (h : ∀ b ∈ bs, x ≤ b.address) :
    cutAt bs x = 0 := by
  refine if_neg fun h' => ?_
  obtain ⟨b, hb, hx⟩ := List.any_eq_true.1 h'
  have := h b hb
  have := of_decide_eq_true hx
  omega

namespace KMemoryBlockManager

variable {alloc : KMemoryBlockManagerUpdateAllocator} {cur : ℕ}

theorem wp_allocate (h : alloc.index < 2) :
    wp alloc.allocate fun alloc' held => alloc'.index = alloc.index + 1 ∧ held = true := by
  have h' : alloc.index < KMemoryBlockManagerUpdateAllocator.maxBlocks := h
  rw [KMemoryBlockManagerUpdateAllocator.allocate, if_pos h', pure_eq, wp_ret]
  exact ⟨rfl, rfl⟩

/-- A block cut at a page inside it. -/
theorem wp_split (h₁ : b.address < cur) (h₂ : cur ≤ b.endAddress) (hc : cur % 4096 = 0) :
    wp (b.split cur) fun r held => r = (b.splitLeft cur, b.splitRight cur) ∧ held = true := by
  simp [split, contains, h₁, h₁.le, h₂, hc]

theorem wp_splitBefore (h₁ : b.address ≤ cur) (h₂ : cur ≤ b.endAddress) (hc : cur % 4096 = 0)
    (halloc : b.address < cur → alloc.index < 2) :
    wp (splitBefore alloc b cur) fun r held => r.1 = b.below cur ∧ r.2.1 = b.clipLeft cur ∧
      r.2.2.index = alloc.index + (if b.address < cur then 1 else 0) ∧ held = true := by
  rw [splitBefore, below, clipLeft]
  by_cases h : b.address = cur
  · rw [if_neg (not_not.2 h), pure_eq, wp_ret]
    simp [h]
  · have hlt : b.address < cur := lt_of_le_of_ne h₁ h
    rw [if_pos h, wp_bind]
    refine wp_mono (wp_allocate (halloc hlt)) fun alloc' held hal => ?_
    rw [wp_bind]
    refine wp_mono (wp_split hlt h₂ hc) fun r held' hr => ?_
    simp [hr, hal, hlt]

theorem wp_splitAfter {size : ℕ} (he : b.address + size = e) (he₀ : e % 4096 = 0)
    (he₁ : e < 2 ^ 64) (hsize : 0 < size) (halloc : e < b.endAddress → alloc.index < 2) :
    wp (splitAfter alloc b b.address size) fun r held =>
      r.1 = b.clipRight e ∧ r.2.1 = b.above e ∧ (b.endAddress ≤ e → r.2.2 = alloc) ∧ held = true := by
  have hb := b.endAddress_eq
  have hs := b.size_eq
  rw [splitAfter, above, clipRight]
  by_cases h : e < b.endAddress
  · have hu : u64 (b.address + size) = e := by rw [he, u64, Nat.mod_eq_of_lt he₁]
    rw [if_pos (show b.size > size by omega), wp_bind, hu]
    refine wp_mono (wp_allocate (halloc h)) fun alloc' held hal => ?_
    rw [wp_bind]
    refine wp_mono (wp_split (by omega) h.le he₀) fun r held' hr => ?_
    simp [hr, hal, h, not_le.2 h]
  · rw [if_neg (show ¬b.size > size by omega), pure_eq, wp_ret]
    simp [h]

theorem updateLoop_zero (u : RangeUpdate) (fuel : ℕ) (it : List KMemoryBlock) :
    updateLoop u fuel alloc it cur 0 = ret (it, alloc) true := by
  unfold updateLoop
  rfl

/-- **The loop replaces each block by its pieces.**  `cur` is the end of what was gone
through before, or the start of the range in the first round; the blocks at hand
suffice for the cuts at the two ends of the range. -/
theorem wp_updateLoop (hu : u.Total) (ha : a % 4096 = 0) (he : e % 4096 = 0) (he₁ : e < 2 ^ 64) (fuel : ℕ) :
    ∀ {alloc it s t cur remaining}, Tiles s it t → s % 4096 = 0 → e ≤ t → remaining ≤ fuel →
      (remaining = 0 → e ≤ s) → (0 < remaining → cur = max a s ∧ cur + remaining * 4096 = e ∧
        (∀ b ∈ it.head?, a < b.endAddress) ∧ alloc.index + cutAt it a + cutAt it e ≤ 2) →
      wp (updateLoop u fuel alloc it cur remaining) fun r held =>
        r.1 = it.flatMap (u.pieces a e) ∧ (u.Clean a e it → held = true) := by
  have hend : ∀ {it : List KMemoryBlock} {s t : ℕ}, Tiles s it t → e ≤ s →
      it.flatMap (u.pieces a e) = it := fun h hes =>
    RangeUpdate.flatMap_pieces_of_le fun b hb => hes.trans (h.mem_bounds hb).1
  induction fuel with
  | zero =>
    intro alloc it s t cur remaining ht _ _ hr h₀ _
    obtain rfl : remaining = 0 := by omega
    rw [updateLoop_zero, wp_ret]
    exact ⟨(hend ht (h₀ rfl)).symm, fun _ => rfl⟩
  | succ fuel ih =>
    intro alloc it s t cur remaining ht hs het hr h₀ h₁
    rcases Nat.eq_zero_or_pos remaining with rfl | hpos
    · rw [updateLoop_zero, wp_ret]
      exact ⟨(hend ht (h₀ rfl)).symm, fun _ => rfl⟩
    obtain ⟨hcur, hrem, hhead, halloc⟩ := h₁ hpos
    cases it with
    | nil =>
      rw [tiles_nil] at ht
      omega
    | cons b rest =>
      have hb : b.Aligned := aligned_of_tiles ht hs List.mem_cons_self
      obtain ⟨rfl, hb₀, ht⟩ := ht
      rw [lo_eq] at hcur hs h₀ hb₀
      rw [hi_eq] at hb₀ ht
      have hab : a < b.endAddress := hhead b rfl
      have hba := hb.endAddress
      have hrest : cutAt rest a = 0 := cutAt_eq_zero fun c hc => by
        have := (ht.mem_bounds hc).1
        rw [lo_eq] at this
        omega
      have hle := cutAt_mono (List.subset_cons_self b rest) e
      -- the rounds that follow start at the end of `b`
      have hnext : ∀ {alloc' cur' rem'}, rem' ≤ fuel → (rem' = 0 → e ≤ b.endAddress) →
          (0 < rem' → cur' = b.endAddress ∧ b.endAddress + rem' * 4096 = e) →
          (0 < rem' → alloc'.index + cutAt rest e ≤ 2) →
          wp (updateLoop u fuel alloc' rest cur' rem') fun r held =>
            r.1 = rest.flatMap (u.pieces a e) ∧ (u.Clean a e rest → held = true) := by
        intro alloc' cur' rem' hf h₀' h₁' h₂'
        refine ih ht hba het hf h₀' fun hpos' => ?_
        obtain ⟨rfl, hrem'⟩ := h₁' hpos'
        refine ⟨by omega, hrem', fun c hc => ?_, by have := h₂' hpos'; omega⟩
        have := (ht.mem_bounds (List.mem_of_mem_head? hc)).2.1
        have := (ht.mem_bounds (List.mem_of_mem_head? hc)).1
        rw [lo_eq] at *
        rw [hi_eq] at *
        omega
      rw [updateLoop, if_neg hpos.ne']
      simp only
      by_cases hch : u.changes b = true
      · have htouch : u.touches a e b := ⟨hab, by omega, hch⟩
        rw [if_pos hch, wp_bind]
        have hbelow : b.address < cur → cutAt (b :: rest) a = 1 := fun h =>
          cutAt_eq_one List.mem_cons_self (by omega) hab
        refine wp_mono (wp_splitBefore (b := b) (by omega) (by omega)
          (by omega) fun h => by have := hbelow h; omega) fun r held hl => ?_
        obtain ⟨l, m, alloc₁⟩ := r
        obtain ⟨rfl, rfl, hal, rfl⟩ := hl
        have hal₁ : alloc₁.index ≤ alloc.index + cutAt (b :: rest) a := by
          rw [hal]
          split
          case isTrue h => rw [hbelow h]
          case isFalse => omega
        rw [hcur, below_max, clipLeft_max]
        have hca := clipLeft_aligned hb ha
        have hcl := clipLeft_address (a := a) (b := b)
        have hce := clipLeft_endAddress hb ha hab.le
        have hsize : remaining * PageSize = remaining * 4096 := rfl
        have habove : e < (b.clipLeft a).endAddress → alloc₁.index < 2 := fun h => by
          have := cutAt_eq_one (x := e) (List.mem_cons_self (a := b) (l := rest)) (by omega)
            (hce ▸ h)
          omega
        simp only [wp_bind]
        refine wp_mono (wp_splitAfter (e := e) (by omega) he he₁ (by omega) habove)
          fun r held hm => ?_
        obtain ⟨m, r, alloc₂⟩ := r
        obtain ⟨rfl, rfl, hal₂, rfl⟩ := hm
        dsimp only at hal hal₂ ⊢
        rw [← clip, hu.apply_eq, wp_ret]
        have hm := (b.clip a e).endAddress_eq
        have hma := clip_address (a := a) (e := e) (b := b)
        have hme := clip_endAddress hb ha he hab.le (by omega) (by omega)
        refine wp_mono (Q := fun r held => r.1 = (b.clipLeft a).above e ++
          rest.flatMap (u.pieces a e) ∧ (u.Clean a e rest → held = true)) ?_ fun r held hr => ?_
        · rcases lt_or_ge e b.endAddress with h | h
          · rw [show remaining - (b.clip a e).numPages = 0 by omega, updateLoop_zero, wp_ret, hend ht h.le]
            exact ⟨rfl, fun _ => rfl⟩
          · rw [above, if_neg (by omega), List.nil_append, List.nil_append]
            have hu64 : u64 ((b.clip a e).address + (b.clip a e).size) = b.endAddress := by
              rw [u64, size_eq, ← hm, Nat.mod_eq_of_lt (by omega)]
              omega
            rw [hu64]
            obtain rfl : alloc₂ = alloc₁ := hal₂ (by omega)
            exact hnext (by omega) (by omega) (fun _ => ⟨rfl, by omega⟩) fun _ => by omega
        · rw [pure_eq, wp_ret, List.flatMap_cons, RangeUpdate.pieces_of_touches htouch, hr.1]
          refine ⟨by simp, fun hclean => ?_⟩
          rw [hr.2 fun c hc => hclean c (List.mem_cons_of_mem b hc), hclean b List.mem_cons_self htouch]
          rfl
      · have hnot : ¬u.touches a e b := fun h => hch h.2.2
        have hadv : ∃ cur' rem', advance b cur remaining = (cur', rem') ∧ rem' ≤ fuel ∧
            (rem' = 0 → e ≤ b.endAddress) ∧
            (0 < rem' → cur' = b.endAddress ∧ b.endAddress + rem' * 4096 = e) := by
          rw [advance, u64, show PageSize = 4096 from rfl, hrem, Nat.mod_eq_of_lt he₁]
          split
          · exact ⟨_, _, rfl, by omega, by omega, by omega⟩
          · exact ⟨_, _, rfl, by omega, by omega, fun _ => ⟨rfl, by omega⟩⟩
        obtain ⟨cur', rem', hadv, hf, h₀', h₁'⟩ := hadv
        rw [if_neg hch, hadv]
        simp only [wp_bind]
        refine wp_mono (hnext hf h₀' h₁' fun _ => by omega) fun r held hr => ?_
        rw [pure_eq, wp_ret, List.flatMap_cons, RangeUpdate.pieces_of_not_touches hnot, hr.1]
        refine ⟨rfl, fun hclean => ?_⟩
        rw [hr.2 fun c hc => hclean c (List.mem_cons_of_mem b hc)]
        rfl

end KMemoryBlockManager
end Kernel
end NXEmu
