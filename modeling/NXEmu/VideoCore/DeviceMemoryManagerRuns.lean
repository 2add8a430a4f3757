/-
# Runs of a device memory manager

`src/yuzu_video_core/host1x/gpu_device_memory_manager.cpp`: in every state that `Map` and `Unmap` reach
the index is exact.  `WalkBlock` then does what a walk over single bytes would do
(`walkBlock_spec`), whatever it calls, and `GetSpan` gives the ranges that are in one piece.
-/

import NXEmu.VideoCore.DeviceMemoryManagerContinuity
import Mathlib.Data.List.Basic

namespace NXEmu
namespace Core

namespace Memory

variable {m : Memory} {dest src count : ℕ} {value : BitVec 8}

theorem memset_zero : m.memset dest value 0 = m :=
  funext fun _ => if_neg (by omega)

theorem memset_succ : m.memset dest value (count + 1) =
    Function.update (m.memset dest value count) (dest + count) value := by
  funext i
  rw [Function.update_apply, memset, memset]
  by_cases hi : i = dest + count
  · rw [if_pos hi, if_pos (by omega)]
  · rw [if_neg hi]
    exact if_congr (by omega) rfl rfl

theorem memcpy_zero (from' : Memory) : m.memcpy dest from' src 0 = m :=
  funext fun _ => if_neg (by omega)

theorem memcpy_succ (from' : Memory) : m.memcpy dest from' src (count + 1) =
    Function.update (m.memcpy dest from' src count) (dest + count) (from' (src + count)) := by
  funext i
  rw [Function.update_apply, memcpy, memcpy]
  by_cases hi : i = dest + count
  · rw [if_pos hi, if_pos (by omega), hi, Nat.add_sub_cancel_left]
  · rw [if_neg hi]
    exact if_congr (by omega) rfl rfl

/-- A copy that follows another one. -/
theorem memcpy_memcpy (from' : Memory) (count' : ℕ) :
    (m.memcpy dest from' src count).memcpy (dest + count) from' (src + count) count' =
      m.memcpy dest from' src (count + count') := by
  induction count' with
  | zero => rw [memcpy_zero, Nat.add_zero]
  | succ count' ih => rw [memcpy_succ, ih, ← Nat.add_assoc, memcpy_succ, Nat.add_assoc, Nat.add_assoc]

end Memory

namespace DeviceMemoryManager

open SummaryBitmap

variable {bits page next endPage address size : ℕ} {d : DeviceMemoryManager bits}

/-! ### Runs of pages -/

/-- Up to the next boundary no page is mapped, or the physical pages follow each other. -/
theorem ptr_of_run (h : Indexed d) (hnext : next ≤ pageCount bits)
    (hnone : ∀ q, page + 1 ≤ q → q < next → bit d.continuityBoundaries 0 q = false) {k : ℕ} (hk : page + k < next) :
    (d.compressedPhysicalPtr page = 0 → d.compressedPhysicalPtr (page + k) = 0) ∧
      (d.compressedPhysicalPtr page ≠ 0 → (d.compressedPhysicalPtr (page + k)).toNat =
        (d.compressedPhysicalPtr page).toNat + k) := by
  induction k with
  | zero => exact ⟨id, fun _ => rfl⟩
  | succ k ih =>
    obtain ⟨hzero, hmapped⟩ := ih (by omega)
    have hcontinuous : continuous (d.compressedPhysicalPtr (page + k))
        (d.compressedPhysicalPtr (page + (k + 1))) = true := by
      have hbit := h.boundary (page + (k + 1)) (by omega) (by omega) not_false
      rw [hnone (page + (k + 1)) (by omega) hk, ← Nat.add_assoc, Nat.add_sub_cancel] at hbit
      rw [← Bool.not_eq_false]
      exact fun hfalse => Bool.false_ne_true (hbit.2 hfalse)
    rw [continuous, decide_eq_true_iff] at hcontinuous
    refine ⟨fun hpage => ?_, fun hpage => ?_⟩
    · exact hcontinuous.elim (·.2) fun hc => absurd (hzero hpage) hc.1
    · have hnat := hmapped hpage
      rcases hcontinuous with hc | hc
      · have hpos : d.compressedPhysicalPtr page = 0 := by
          rw [hc.1] at hnat
          exact BitVec.eq_of_toNat_eq (show _ = 0 by simp at hnat; omega)
        exact absurd hpos hpage
      · obtain ⟨-, hne, heq⟩ := hc
        rw [heq] at hne ⊢
        have hlt : (d.compressedPhysicalPtr (page + k)).toNat + 1 < 2 ^ 32 := by
          by_contra hge
          refine hne (BitVec.eq_of_toNat_eq ?_)
          have := (d.compressedPhysicalPtr (page + k)).isLt
          rw [BitVec.toNat_add]
          simp
          omega
        rw [BitVec.toNat_add, show (1 : BitVec 32).toNat = 1 from rfl, Nat.mod_eq_of_lt hlt, hnat, Nat.add_assoc]

theorem rawAddress_eq {physAddr : BitVec 32} (h : physAddr ≠ 0) (offset : ℕ) :
    rawAddress physAddr offset = (physAddr.toNat - 1) * devicePageSize + offset := by
  have hpos : 1 ≤ physAddr.toNat := by
    by_contra hlt
    exact h (BitVec.eq_of_toNat_eq (show physAddr.toNat = 0 by omega))
  have hle : (1 : BitVec 32) ≤ physAddr := BitVec.le_def.2 hpos
  rw [rawAddress, BitVec.toNat_sub_of_le hle]
  rfl

theorem add_mod_page {offset j k p : ℕ} (hk : (page * 4096 + offset + j) / 4096 = page + k)
    (hp : p ≠ 0) : (p + k - 1) * 4096 + (page * 4096 + offset + j) % 4096 = (p - 1) * 4096 + offset + j := by
  omega

/-- **The bytes of a run** are in one piece. -/
theorem getPointer_of_run (h : Indexed d) (hnext : next ≤ pageCount bits)
    (hnone : ∀ q, page + 1 ≤ q → q < next → bit d.continuityBoundaries 0 q = false)
    {offset j : ℕ} (hj : page * devicePageSize + offset + j < next * devicePageSize) :
    d.getPointer (page * devicePageSize + offset + j) = if d.compressedPhysicalPtr page = 0 then none
      else some (rawAddress (d.compressedPhysicalPtr page) offset + j) := by
  obtain ⟨k, hk⟩ : ∃ k, (page * devicePageSize + offset + j) / devicePageSize = page + k :=
    Nat.exists_eq_add_of_le (by simp only [devicePageSize]; omega)
  have hlt : page + k < next := by
    rw [← hk]
    exact (Nat.div_lt_iff_lt_mul (by decide)).2 hj
  obtain ⟨hzero, hmapped⟩ := ptr_of_run h hnext hnone hlt
  rw [getPointer, hk]
  by_cases hpage : d.compressedPhysicalPtr page = 0
  · rw [if_pos hpage, if_pos (hzero hpage)]
  · have hnat := hmapped hpage
    have hpos : (d.compressedPhysicalPtr page).toNat ≠ 0 :=
      fun h0 => hpage (BitVec.eq_of_toNat_eq h0)
    have hne : d.compressedPhysicalPtr (page + k) ≠ 0 := fun h0 => by
      rw [h0, show (0 : BitVec 32).toNat = 0 from rfl] at hnat
      omega
    rw [if_neg hpage, if_neg hne, rawAddress_eq hpage, rawAddress_eq hne, hnat]
    exact congrArg some (add_mod_page hk hpos)

/-! ### Walks -/

/-- What a walker does to what is seen of its state is done byte by byte: a byte is at a raw address,
or nowhere. -/
structure Bytewise {σ τ : Type} (w : Walker σ) (view : σ → τ) (step : τ → Option ℕ → τ) : Prop where
  unmapped : ∀ s n currentVaddr, view (w.increment (w.onUnmapped s n currentVaddr) n) =
    (List.range n).foldl (fun t _ => step t none) (view s)
  memory : ∀ s n memPtr, n ≠ 0 → view (w.increment (w.onMemory s n memPtr) n) =
    (List.range n).foldl (fun t j => step t (some (memPtr + j))) (view s)

variable {σ τ : Type} {w : Walker σ} {view : σ → τ} {step : τ → Option ℕ → τ}

/-- The bytes that a round of `WalkBlock` takes. -/
theorem round_bytes {next page offset remaining n endPage : ℕ}
    (hn : n = min ((next - page) * 4096 - offset) remaining) (hnext : page + 1 ≤ next)
    (hoffset : offset < 4096) (hremaining : remaining ≠ 0)
    (hlast : (page * 4096 + offset + remaining + (4096 - 1)) / 4096 = endPage) :
    n ≠ 0 ∧ n ≤ remaining ∧ (∀ j < n, page * 4096 + offset + j < next * 4096) ∧ (remaining - n ≠ 0 → 0 < 4096 ∧
        (next * 4096 + 0 + (remaining - n) + (4096 - 1)) / 4096 = endPage) ∧
      ∀ j < remaining - n, next * 4096 + 0 + j = page * 4096 + offset + (n + j) := by
  -- more bytes are left only when the round takes the whole run
  have hwhole : n < remaining → next * 4096 = page * 4096 + offset + n := fun h => by omega
  refine ⟨by omega, by omega, fun j hj => by omega, fun hmore => ⟨by decide, ?_⟩, fun j hj => ?_⟩
  · have hsum : page * 4096 + offset + n + 0 + (remaining - n) = page * 4096 + offset + remaining := by
      omega
    rw [hwhole (by omega), hsum, hlast]
  · rw [hwhole (by omega)]
    omega

theorem walkBlockFrom_spec (h : Indexed d) (hw : Bytewise w view step)
    (hend : endPage ≤ pageCount bits) {rounds remainingSize pageIndex pageOffset : ℕ}
    (hrounds : remainingSize ≤ rounds) (hlast : remainingSize ≠ 0 → pageOffset < devicePageSize ∧
      (pageIndex * devicePageSize + pageOffset + remainingSize + (devicePageSize - 1)) /
        devicePageSize = endPage) (s : σ) :
    ∃ s', d.walkBlockFrom w endPage rounds remainingSize pageIndex pageOffset s = some s' ∧
      view s' = (List.range remainingSize).foldl
        (fun t i => step t (d.getPointer (pageIndex * devicePageSize + pageOffset + i))) (view s) := by
  induction rounds generalizing remainingSize pageIndex pageOffset s with
  | zero =>
    obtain rfl : remainingSize = 0 := by omega
    exact ⟨s, rfl, rfl⟩
  | succ rounds ih =>
    rw [walkBlockFrom]
    split
    · rename_i hzero
      exact ⟨s, rfl, by rw [hzero]; rfl⟩
    · rename_i hne
      obtain ⟨hoffset, hlast⟩ := hlast hne
      have hpage : pageIndex + 1 ≤ endPage := by
        simp only [devicePageSize] at *
        omega
      have hnext := nextContinuityBoundary_spec h hpage hend
      obtain ⟨next, hnextEq⟩ : ∃ next, next = d.nextContinuityBoundary (pageIndex + 1) endPage :=
        ⟨_, rfl⟩
      rw [← hnextEq] at hnext ⊢
      obtain ⟨n, hn⟩ : ∃ n, n = min ((next - pageIndex) * devicePageSize - pageOffset) remainingSize :=
        ⟨_, rfl⟩
      dsimp only
      rw [← hn]
      obtain ⟨hnpos, hnle, hbytes, hmore, hrest⟩ := round_bytes hn hnext.first_le hoffset hne hlast
      have hrun : ∀ j, j < n → d.getPointer (pageIndex * devicePageSize + pageOffset + j) =
          if d.compressedPhysicalPtr pageIndex = 0 then none
          else some (rawAddress (d.compressedPhysicalPtr pageIndex) pageOffset + j) :=
        fun j hj => getPointer_of_run h (hnext.le_end.trans hend) hnext.none_before (hbytes j hj)
      have hround : view (w.increment (if d.compressedPhysicalPtr pageIndex = 0 then
            w.onUnmapped s n (pageIndex * devicePageSize + pageOffset)
          else w.onMemory s n (rawAddress (d.compressedPhysicalPtr pageIndex) pageOffset)) n) =
          (List.range n).foldl
            (fun t i => step t (d.getPointer (pageIndex * devicePageSize + pageOffset + i)))
            (view s) := by
        by_cases hmapped : d.compressedPhysicalPtr pageIndex = 0
        · rw [if_pos hmapped, hw.unmapped]
          refine List.foldl_ext _ _ _ fun t j hj => ?_
          rw [hrun j (List.mem_range.1 hj), if_pos hmapped]
        · rw [if_neg hmapped, hw.memory _ _ _ hnpos]
          refine List.foldl_ext _ _ _ fun t j hj => ?_
          rw [hrun j (List.mem_range.1 hj), if_neg hmapped]
      rw [Nat.add_sub_cancel' (Nat.le_of_succ_le hnext.first_le)]
      obtain ⟨s', hret, hview⟩ := @ih (remainingSize - n) next 0 (by omega) hmore (w.increment
        (if d.compressedPhysicalPtr pageIndex = 0 then
          w.onUnmapped s n (pageIndex * devicePageSize + pageOffset)
        else w.onMemory s n (rawAddress (d.compressedPhysicalPtr pageIndex) pageOffset)) n)
      refine ⟨s', hret, ?_⟩
      have hsplit : List.range remainingSize = List.range n ++ (List.range (remainingSize - n)).map (n + ·) := by
        rw [← List.range_add, Nat.add_sub_cancel' hnle]
      rw [hview, hround, hsplit, List.foldl_append, List.foldl_map]
      refine List.foldl_ext _ _ _ fun t j hj => ?_
      rw [hrest j (List.mem_range.1 hj)]

/-- **`WalkBlock`** does what a walk over the bytes would do. -/
theorem walkBlock_spec (h : Indexed d) (hw : Bytewise w view step)
    (hrange : address + size ≤ deviceAsSize bits) (s : σ) :
    ∃ s', d.walkBlock w address size s = some s' ∧ view s' =
      (List.range size).foldl (fun t i => step t (d.getPointer (address + i))) (view s) := by
  have haddress : address / devicePageSize * devicePageSize + address % devicePageSize = address :=
    Nat.div_add_mod' ..
  have hend : (address + size + (devicePageSize - 1)) / devicePageSize ≤ pageCount bits := by
    refine Nat.lt_succ_iff.1 ((Nat.div_lt_iff_lt_mul (by decide)).2 ?_)
    have hbits : deviceAsSize bits ≤ pageCount bits * devicePageSize := by
      rw [deviceAsSize, pageCount, show devicePageSize = 2 ^ 12 from rfl, ← Nat.pow_add]
      exact Nat.pow_le_pow_right (by decide) (by omega)
    simp only [devicePageSize] at *
    omega
  rw [walkBlock]
  obtain ⟨s', hret, hview⟩ := walkBlockFrom_spec h hw hend le_rfl
    (fun _ => ⟨Nat.mod_lt _ (by decide), by rw [haddress]⟩) s
  rw [haddress] at hview
  exact ⟨s', hret, hview⟩

/-! ### Blocks -/

variable {physical src dest : Memory}

/-- What `ReadBlock` does for a byte. -/
def readByte (physical : Memory) (t : Transfer) (memPtr : Option ℕ) : Transfer :=
  ⟨Function.update t.memory t.pointer (match memPtr with | none => 0 | some p => physical p),
    t.pointer + 1⟩

/-- What `WriteBlock` does for a byte. -/
def writeByte (src : Memory) (t : Transfer) (memPtr : Option ℕ) : Transfer :=
  ⟨match memPtr with | none => t.memory | some p => Function.update t.memory p (src t.pointer),
    t.pointer + 1⟩

theorem foldl_readByte_none (t : Transfer) (n : ℕ) :
    (List.range n).foldl (fun t _ => readByte physical t none) t =
      ⟨t.memory.memset t.pointer 0 n, t.pointer + n⟩ := by
  induction n with
  | zero => rw [Memory.memset_zero]; rfl
  | succ n ih =>
    rw [List.range_succ, List.foldl_append, ih, Memory.memset_succ]
    rfl

theorem foldl_readByte_some (t : Transfer) (n memPtr : ℕ) :
    (List.range n).foldl (fun t j => readByte physical t (some (memPtr + j))) t =
      ⟨t.memory.memcpy t.pointer physical memPtr n, t.pointer + n⟩ := by
  induction n with
  | zero => rw [Memory.memcpy_zero]; rfl
  | succ n ih =>
    rw [List.range_succ, List.foldl_append, ih, Memory.memcpy_succ]
    rfl

theorem foldl_writeByte_none (t : Transfer) (n : ℕ) :
    (List.range n).foldl (fun t _ => writeByte src t none) t = ⟨t.memory, t.pointer + n⟩ := by
  induction n with
  | zero => rfl
  | succ n ih =>
    rw [List.range_succ, List.foldl_append, ih]
    rfl

theorem foldl_writeByte_some (t : Transfer) (n memPtr : ℕ) :
    (List.range n).foldl (fun t j => writeByte src t (some (memPtr + j))) t =
      ⟨t.memory.memcpy memPtr src t.pointer n, t.pointer + n⟩ := by
  induction n with
  | zero => rw [Memory.memcpy_zero]; rfl
  | succ n ih =>
    rw [List.range_succ, List.foldl_append, ih, Memory.memcpy_succ]
    rfl

theorem readWalker_bytewise (physical : Memory) :
    Bytewise (readWalker physical) id (readByte physical) where
  unmapped s n _ := (foldl_readByte_none s n).symm
  memory s n memPtr _ := (foldl_readByte_some s n memPtr).symm

theorem writeWalker_bytewise (src : Memory) : Bytewise (writeWalker src) id (writeByte src) where
  unmapped s n _ := (foldl_writeByte_none s n).symm
  memory s n memPtr _ := (foldl_writeByte_some s n memPtr).symm

/-- What a coalesced transfer has when it is flushed. -/
def CoalescedTransfer.flushed (src : Memory) (s : CoalescedTransfer) : Transfer :=
  (s.flush src).toTransfer

theorem CoalescedTransfer.flushed_eq (s : CoalescedTransfer) : s.flushed src =
    ⟨s.memory.memcpy s.pendingDst src s.pendingSrc s.pendingSize, s.pointer⟩ := by
  rw [flushed, flush]
  split
  · rename_i hsize
    rw [hsize, Memory.memcpy_zero]
  · rfl

variable (src) in
/-- Appending a span to the pending copy, or starting a new one, writes it in the end. -/
theorem CoalescedTransfer.flushed_append (s : CoalescedTransfer) (dst : ℕ) {n : ℕ} (hn : n ≠ 0) :
    (s.append src dst n).flushed src = ⟨(s.flushed src).memory.memcpy dst src s.pointer n, s.pointer⟩ := by
  rw [append, if_neg hn]
  by_cases hgap : s.pendingSize ≠ 0 ∧ (dst ≠ s.pendingDst + s.pendingSize ∨ s.pointer ≠ s.pendingSrc + s.pendingSize)
  · have hflush : (s.flush src).pendingSize = 0 := by rw [flush, if_neg hgap.1]
    have hpointer : (s.flush src).pointer = s.pointer := by rw [flush, if_neg hgap.1]
    simp only [if_pos hgap, flushed_eq, hflush, hpointer, if_true, Nat.zero_add]
    rw [flush, if_neg hgap.1]
  · simp only [if_neg hgap]
    by_cases hzero : s.pendingSize = 0
    · simp only [flushed_eq, hzero, if_true, Nat.zero_add, Memory.memcpy_zero]
    · -- the span goes on from the pending one
      have hdst : dst = s.pendingDst + s.pendingSize := by
        by_contra hne
        exact hgap ⟨hzero, .inl hne⟩
      have hsrc : s.pointer = s.pendingSrc + s.pendingSize := by
        by_contra hne
        exact hgap ⟨hzero, .inr hne⟩
      simp only [if_neg hzero, flushed_eq]
      rw [hdst, ← Memory.memcpy_memcpy, ← hsrc]

theorem CoalescedTransfer.flushed_flush (s : CoalescedTransfer) :
    (s.flush src).flushed src = s.flushed src := by
  have hsize : (s.flush src).pendingSize = 0 := by
    rw [flush]
    split
    · assumption
    · rfl
  rw [flushed, flush, if_pos hsize, flushed]

theorem CoalescedTransfer.flushed_pointer (s : CoalescedTransfer) (pointer : ℕ) :
    flushed src { s with pointer := pointer } = ⟨(s.flushed src).memory, pointer⟩ := by
  rw [flushed_eq, flushed_eq]

theorem coalescedWalker_bytewise (src : Memory) :
    Bytewise (coalescedWalker src) (CoalescedTransfer.flushed src) (writeByte src) where
  unmapped s n _ := by
    refine (CoalescedTransfer.flushed_pointer (s.flush src) _).trans ?_
    rw [CoalescedTransfer.flushed_flush, foldl_writeByte_none]
    rfl
  memory s n memPtr hn := by
    have happend := s.flushed_append src memPtr hn
    have hpointer : (s.append src memPtr n).pointer = s.pointer := by
      rw [CoalescedTransfer.flushed_eq] at happend
      exact (Transfer.mk.inj happend).2
    have hpointer' : (s.flushed src).pointer = s.pointer := by rw [CoalescedTransfer.flushed_eq]
    refine (CoalescedTransfer.flushed_pointer (s.append src memPtr n) _).trans ?_
    show (⟨_, (s.append src memPtr n).pointer + n⟩ : Transfer) = _
    rw [foldl_writeByte_some, happend, hpointer, hpointer']

/-- What a read gives. -/
def bytesRead (d : DeviceMemoryManager bits) (physical : Memory) (address : ℕ) (dest : Memory)
    (size : ℕ) : Memory := fun i =>
  if i < size then
    match d.getPointer (address + i) with
    | none => 0
    | some memPtr => physical memPtr
  else dest i

/-- What a write leaves, one byte after the other. -/
def bytesWritten (d : DeviceMemoryManager bits) (physical : Memory) (address : ℕ) (src : Memory)
    (size : ℕ) : Memory :=
  (List.range size).foldl (fun m i =>
    match d.getPointer (address + i) with
    | none => m
    | some memPtr => Function.update m memPtr (src i)) physical

theorem bytesRead_succ (physical dest : Memory) (n : ℕ) : d.bytesRead physical address dest (n + 1) =
    (readByte physical ⟨d.bytesRead physical address dest n, n⟩ (d.getPointer (address + n))).memory := by
  funext i
  dsimp only [readByte]
  rw [Function.update_apply, bytesRead, bytesRead]
  by_cases hi : i = n
  · subst hi
    rw [if_pos rfl, if_pos (Nat.lt_succ_self i)]
  · rw [if_neg hi]
    exact if_congr (by omega) rfl rfl

/-- **Reads** give every byte what is at its page, or 0. -/
theorem readBlockUnsafe_spec (h : Indexed d) (hrange : address + size ≤ deviceAsSize bits)
    (physical dest : Memory) : d.readBlockUnsafe physical address dest size =
      some (d.bytesRead physical address dest size) := by
  have hfold : ∀ n, (List.range n).foldl (fun t i => readByte physical t (d.getPointer (address + i)))
      ⟨dest, 0⟩ = ⟨d.bytesRead physical address dest n, n⟩ := by
    intro n
    induction n with
    | zero => rfl
    | succ n ih =>
      rw [List.range_succ, List.foldl_append, ih, bytesRead_succ]
      rfl
  obtain ⟨s, hret, hview⟩ := walkBlock_spec h (readWalker_bytewise physical) hrange ⟨dest, 0⟩
  rw [id, id, hfold] at hview
  rw [readBlockUnsafe, hret, Option.map_some, hview]

theorem foldl_writeByte (d : DeviceMemoryManager bits) (physical src : Memory) (address n : ℕ) :
    (List.range n).foldl (fun t i => writeByte src t (d.getPointer (address + i))) ⟨physical, 0⟩ =
      ⟨d.bytesWritten physical address src n, n⟩ := by
  induction n with
  | zero => rfl
  | succ n ih =>
    rw [List.range_succ, List.foldl_append, ih, bytesWritten, bytesWritten, List.range_succ, List.foldl_append]
    rfl

section

variable (h : Indexed d) (hrange : address + size ≤ deviceAsSize bits) (physical src : Memory)

include h hrange

/-- **Writes** write the bytes of mapped pages, one after the other. -/
theorem writeBlockUnsafe_spec : d.writeBlockUnsafe physical address src size =
      some (d.bytesWritten physical address src size) := by
  obtain ⟨s, hret, hview⟩ := walkBlock_spec h (writeWalker_bytewise src) hrange ⟨physical, 0⟩
  rw [id, id, foldl_writeByte] at hview
  rw [writeBlockUnsafe, hret, Option.map_some, hview]

theorem writeBlockForGpuReadback_spec : d.writeBlockForGpuReadback physical address src size =
      some (d.bytesWritten physical address src size) := by
  rw [writeBlockForGpuReadback]
  split
  · exact writeBlockUnsafe_spec h hrange physical src
  · obtain ⟨s, hret, hview⟩ := walkBlock_spec h (coalescedWalker_bytewise src) hrange
      ⟨⟨physical, 0⟩, 0, 0, 0⟩
    have hstart : CoalescedTransfer.flushed src ⟨⟨physical, 0⟩, 0, 0, 0⟩ = ⟨physical, 0⟩ := rfl
    rw [hstart, foldl_writeByte] at hview
    rw [hret, Option.map_some]
    exact congrArg (fun t : Transfer => some t.memory) hview

end

/-- The pages of a range are mapped to physical pages that follow each other. -/
def InOnePiece (d : DeviceMemoryManager bits) (address size : ℕ) : Prop :=
  d.compressedPhysicalPtr (address / devicePageSize) ≠ 0 ∧
    ∀ k, address / devicePageSize + k ≤ (address + size - 1) / devicePageSize →
      (d.compressedPhysicalPtr (address / devicePageSize + k)).toNat =
        (d.compressedPhysicalPtr (address / devicePageSize)).toNat + k

theorem getPointer_isSome :
    (d.getPointer address).isSome ↔ d.compressedPhysicalPtr (address / devicePageSize) ≠ 0 := by
  rw [getPointer]
  by_cases hpage : d.compressedPhysicalPtr (address / devicePageSize) = 0
  · simp [hpage]
  · rw [if_neg hpage]
    exact iff_of_true rfl hpage

/-- There is no boundary in a piece. -/
theorem InOnePiece.continuous (h : d.InOnePiece address size) {p : ℕ}
    (hp : address / devicePageSize < p) (hp' : p ≤ (address + size - 1) / devicePageSize) :
    continuous (d.compressedPhysicalPtr (p - 1)) (d.compressedPhysicalPtr p) = true := by
  obtain ⟨hfirst, hfollow⟩ := h
  obtain ⟨k, rfl⟩ := Nat.exists_eq_add_of_lt hp
  have hleft := hfollow k (by omega)
  have hright := hfollow (k + 1) (by omega)
  rw [← Nat.add_assoc] at hright
  rw [Nat.add_sub_cancel]
  have hpos : (d.compressedPhysicalPtr (address / devicePageSize)).toNat ≠ 0 :=
    fun h0 => hfirst (BitVec.eq_of_toNat_eq h0)
  rw [DeviceMemoryManager.continuous, decide_eq_true_iff]
  refine .inr ⟨fun h0 => ?_, fun h0 => ?_, BitVec.eq_of_toNat_eq ?_⟩
  · rw [h0, show (0 : BitVec 32).toNat = 0 from rfl] at hleft
    omega
  · rw [h0, show (0 : BitVec 32).toNat = 0 from rfl] at hright
    omega
  · have hlt := (d.compressedPhysicalPtr (address / devicePageSize + k + 1)).isLt
    rw [BitVec.toNat_add, show (1 : BitVec 32).toNat = 1 from rfl, hleft, hright] at *
    rw [Nat.mod_eq_of_lt (by omega), Nat.add_assoc]

/-- **`GetSpan`** gives the ranges that are in one piece. -/
theorem getSpan_spec (h : Indexed d) (hsize : size ≠ 0) (hrange : address + size ≤ deviceAsSize bits) :
    ((d.getSpan address size).isSome ↔ d.InOnePiece address size) ∧
      ∀ memPtr, d.getSpan address size = some memPtr → d.getPointer address = some memPtr := by
  have hbits : deviceAsSize bits ≤ pageCount bits * devicePageSize := by
    rw [deviceAsSize, pageCount, show devicePageSize = 2 ^ 12 from rfl, ← Nat.pow_add]
    exact Nat.pow_le_pow_right (by decide) (by omega)
  have hlast : (address + size - 1) / devicePageSize + 1 ≤ pageCount bits := by
    refine (Nat.div_lt_iff_lt_mul (by decide)).2 ?_
    omega
  rw [getSpan, if_neg (by omega)]
  by_cases hone : size ≤ devicePageSize - address % devicePageSize
  · have hsame : (address + size - 1) / devicePageSize = address / devicePageSize := by
      simp only [devicePageSize] at *
      omega
    rw [if_pos hone, getPointer_isSome, InOnePiece, hsame]
    refine ⟨⟨fun hpage => ⟨hpage, fun k hk => ?_⟩, fun hpiece => hpiece.1⟩, fun _ => id⟩
    obtain rfl : k = 0 := by omega
    rfl
  · have hle : address / devicePageSize + 1 ≤ (address + size - 1) / devicePageSize + 1 :=
      Nat.succ_le_succ (Nat.div_le_div_right (by omega))
    have hnext := nextContinuityBoundary_spec h hle hlast
    rw [if_neg hone]
    dsimp only
    split
    · rename_i hboundary
      refine ⟨⟨fun hnone => absurd hnone Bool.false_ne_true, fun hpiece => ?_⟩,
        fun _ hnone => absurd hnone.symm (Option.some_ne_none _)⟩
      have hlt := Nat.lt_of_le_of_ne hnext.le_end hboundary
      have hfirst := hnext.first_le
      have hpos := Nat.succ_le_iff.1 hfirst
      have hbit := (h.boundary _ (Nat.zero_lt_of_lt hpos) (by omega) not_false).1 (hnext.set hlt)
      rw [hpiece.continuous hpos (by omega)] at hbit
      cases hbit
    · rename_i hend
      rw [not_not.1 hend] at hnext
      rw [getPointer_isSome]
      refine ⟨⟨fun hpage => ⟨hpage, fun k hk => ?_⟩, fun hpiece => hpiece.1⟩, fun _ => id⟩
      exact (ptr_of_run h hlast hnext.none_before (by omega)).2 hpage

/-! ### Requests -/

/-- A request to a manager; a `Map` comes with what `GetPointerSilent` of the process gives. -/
inductive Request where
  | map (getPointerSilent : ℕ → Option ℕ) (address virtualAddress size : ℕ)
  | unmap (address size : ℕ)

namespace Request

/-- The request. -/
def exec (d : DeviceMemoryManager bits) : Request → DeviceMemoryManager bits
  | map getPointerSilent address virtualAddress size =>
    d.map getPointerSilent address virtualAddress size
  | unmap address size => d.unmap address size

/-- The pages of the request are pages of the address space. -/
def InRange (bits : ℕ) : Request → Prop
  | map _ address _ size | unmap address size =>
    address / devicePageSize + numPages size ≤ pageCount bits

end Request

/-- The managers reached by requests. -/
inductive Run : DeviceMemoryManager bits → Prop
  | new : Run new
  | request {d : DeviceMemoryManager bits} (r : Request) (run : Run d) (inRange : r.InRange bits) :
    Run (r.exec d)

theorem Run.indexed (h : Run d) : Indexed d := by
  induction h with
  | new => exact indexed_new
  | request r run inRange ih =>
    cases r with
    | map getPointerSilent address virtualAddress size =>
      exact (ih.setPages _ _ (fun i =>
        physicalPage (getPointerSilent (virtualAddress + i * devicePageSize))) inRange).1
    | unmap address size => exact (ih.setPages _ _ (fun _ => 0) inRange).1

/-- What a manager promises of its index and of the accesses that use it. -/
structure Exact (d : DeviceMemoryManager bits) : Prop where
  /-- A bit is a page that does not go on from the one before. -/
  boundary : ∀ p, 0 < p → p < pageCount bits → (bit d.continuityBoundaries 0 p = true ↔
    ¬ ((d.compressedPhysicalPtr (p - 1) = 0 ∧ d.compressedPhysicalPtr p = 0) ∨
      (d.compressedPhysicalPtr (p - 1) ≠ 0 ∧ d.compressedPhysicalPtr p ≠ 0 ∧
        d.compressedPhysicalPtr p = d.compressedPhysicalPtr (p - 1) + 1)))
  /-- A bit of a higher level is a word that is not empty. -/
  summary : ∀ level, level + 1 < continuityLevels bits → ∀ w,
    bit d.continuityBoundaries (level + 1) w = true ↔ d.continuityBoundaries level w ≠ 0
  next : ∀ first endPage, first ≤ endPage → endPage ≤ pageCount bits →
    IsNextBoundary d.continuityBoundaries first endPage (d.nextContinuityBoundary first endPage)
  next_empty : ∀ first endPage, endPage ≤ first → d.nextContinuityBoundary first endPage = endPage
  read : ∀ address size, address + size ≤ deviceAsSize bits → ∀ physical dest,
    d.readBlockUnsafe physical address dest size = some (d.bytesRead physical address dest size)
  write : ∀ address size, address + size ≤ deviceAsSize bits → ∀ physical src,
    d.writeBlockUnsafe physical address src size =
      some (d.bytesWritten physical address src size) ∧
    d.writeBlockForGpuReadback physical address src size =
      some (d.bytesWritten physical address src size)
  span : ∀ address size, size ≠ 0 → address + size ≤ deviceAsSize bits →
    ((d.getSpan address size).isSome ↔ d.InOnePiece address size) ∧
      ∀ memPtr, d.getSpan address size = some memPtr → d.getPointer address = some memPtr

/-- **The continuity index is exact**, whatever requests are made. -/
theorem Run.exact (h : Run d) : Exact d where
  boundary p hp hlt := by
    rw [h.indexed.boundary p hp hlt not_false, continuous, decide_eq_false_iff_not]
  summary := h.indexed.summary
  next _ _ hle hend := nextContinuityBoundary_spec h.indexed hle hend
  next_empty _ _ hle := if_pos hle
  read _ _ hrange physical dest := readBlockUnsafe_spec h.indexed hrange physical dest
  write _ _ hrange physical src := ⟨writeBlockUnsafe_spec h.indexed hrange physical src,
    writeBlockForGpuReadback_spec h.indexed hrange physical src⟩
  span _ _ hsize hrange := getSpan_spec h.indexed hsize hrange

/-- Two pages are mapped, the second of them to nothing, and the first one again. -/
theorem remapped_exact : Exact ((Request.map (fun _ => some 0x7000) 0x5000 0 0x1000).exec
    ((Request.map (fun v => if v = 0 then some 0x3000 else none) 0x5000 0 0x2000).exec
      (new : DeviceMemoryManager 34))) :=
  Run.exact (.request _ (.request _ .new (show 5 + 2 ≤ 2 ^ 22 by decide))
    (show 5 + 1 ≤ 2 ^ 22 by decide))

end DeviceMemoryManager
end Core
end NXEmu
