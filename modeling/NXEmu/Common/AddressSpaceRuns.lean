/-
# Runs of a flat address space map

`src/yuzu_common/address_space.inc`: any sequence of `MapLocked` and `UnmapLocked` from the
constructor's single block on.

`MapCall.effect` says what a call is for: it changes the map in its region and nowhere else.
A call has that effect, and leaves the blocks in order with no assertion failed, just when
`MapCall.Ok` holds of it (`MapRun.correct_iff`).  An `UnmapLocked` of a region with an unmapped
block before it and a mapped one right behind it leaves the last block of the region mapped
(`twoRegions_stale`).
-/

import NXEmu.Common.AddressSpaceMap

namespace NXEmu
namespace Common
namespace FlatAddressSpaceMap

open Exec

variable {w : ℕ} {ε : Type} {m m' m₀ : FlatAddressSpaceMap w ε}

/-- A call of a map. -/
inductive MapCall (w : ℕ) (ε : Type) where
  | map (virt : ℕ) (phys : BitVec w) (size : ℕ) (extraInfo : ε)
  | unmap (virt size : ℕ)

namespace MapCall

/-- What a call runs. -/
def exec [Inhabited ε] (m : FlatAddressSpaceMap w ε) : MapCall w ε → Exec (FlatAddressSpaceMap w ε)
  | map virt phys size extraInfo => m.mapLocked virt phys size extraInfo
  | unmap virt size => m.unmapLocked virt size

/-- The region of a call: its start and its size. -/
def region : MapCall w ε → ℕ × ℕ
  | map virt _ size _ => (virt, size)
  | unmap virt size => (virt, size)

/-- A call on a region of the address space that is not empty and not at zero. -/
def Valid (m : FlatAddressSpaceMap w ε) (c : MapCall w ε) : Prop :=
  0 < c.region.1 ∧ 0 < c.region.2 ∧ c.region.1 + c.region.2 ≤ m.vaLimit

instance (m : FlatAddressSpaceMap w ε) (c : MapCall w ε) : Decidable (c.Valid m) :=
  inferInstanceAs (Decidable (_ ∧ _))

/-- What a call puts in its region. -/
def inside (m : FlatAddressSpaceMap w ε) : MapCall w ε → ℕ → Option (BitVec w)
  | map virt phys _ extraInfo => m.value ⟨virt, phys, extraInfo⟩
  | unmap _ _ => fun _ => none

/-- The map a call should make: what it puts in its region, and outside of it the map as it
was. -/
def effect (m : FlatAddressSpaceMap w ε) (c : MapCall w ε) (a : ℕ) : Option (BitVec w) :=
  if c.region.1 ≤ a ∧ a < c.region.1 + c.region.2 then c.inside m a else m.denote a

/-- When a call has the effect it should. -/
def Ok (m : FlatAddressSpaceMap w ε) : MapCall w ε → Prop
  | map virt _ size _ => m.denote (virt + size) ≠ some m.unmappedPa
  | unmap virt size => m.UnmapOk virt (virt + size)

/-- **One call** on a well-formed map has its effect just when it is one of those. -/
theorem exec_correct_iff [Inhabited ε] {c : MapCall w ε} (hw : m.WellFormed) (hc : c.Valid m) :
    Correct m (c.exec m) (c.effect m) ↔ c.Ok m := by
  obtain ⟨hv, hsize, hlimit⟩ := hc
  cases c with
  | map virt phys size extraInfo => exact mapLocked_correct_iff phys extraInfo hw hv hsize hlimit
  | unmap virt size => exact unmapLocked_correct_iff hw hv hsize hlimit

end MapCall

/-- The maps reached from `m₀` by calls that have their effect. -/
inductive MapRun [Inhabited ε] (m₀ : FlatAddressSpaceMap w ε) : FlatAddressSpaceMap w ε → Prop
  | start : MapRun m₀ m₀
  | call {m m' : FlatAddressSpaceMap w ε} {held : Bool} (c : MapCall w ε) (run : MapRun m₀ m)
    (valid : c.Valid m) (ok : c.Ok m) (returned : c.exec m = .ret m' held) : MapRun m₀ m'

theorem MapRun.wellFormed [Inhabited ε] (hrun : MapRun m₀ m) (h₀ : m₀.WellFormed) :
    m.WellFormed := by
  induction hrun with
  | start => exact h₀
  | call c _ valid ok returned ih =>
    obtain ⟨m'', hret, hw, -⟩ := (MapCall.exec_correct_iff ih valid).2 ok
    rw [returned] at hret
    cases hret
    exact hw

/-- **Runs**: in every map reached, a call has its effect just when it is one of those. -/
theorem MapRun.correct_iff [Inhabited ε] {unmappedPa : BitVec w} {contig : Bool} {vaLimit : ℕ}
    (hrun : MapRun (new unmappedPa contig vaLimit) m) :
    m.WellFormed ∧ ∀ c : MapCall w ε, c.Valid m → (Correct m (c.exec m) (c.effect m) ↔ c.Ok m) :=
  ⟨hrun.wellFormed wellFormed_new, fun _ => MapCall.exec_correct_iff (hrun.wellFormed wellFormed_new)⟩

/-- Two regions next to each other. -/
def twoRegions : FlatAddressSpaceMap 8 Unit :=
  ⟨0, true, 0x100, [⟨0, 0, ()⟩, ⟨0x10, 5, ()⟩, ⟨0x20, 9, ()⟩, ⟨0x30, 0, ()⟩]⟩

theorem mapRun_twoRegions : MapRun (new 0 true 0x100) twoRegions := by
  have hfirst : (MapCall.map (w := 8) 0x10 5 0x10 ()).Ok (new 0 true 0x100) := by
    change denote (new (w := 8) (ε := Unit) 0 true 0x100) 0x20 ≠ some 0
    decide
  refine .call (.map 0x20 9 0x10 ()) (.call (.map 0x10 5 0x10 ()) .start (by decide) hfirst rfl)
    (by decide) ?_ rfl
  change denote _ _ ≠ some (0 : BitVec 8)
  decide

/-- Whether the first of the two regions is cleared by an unmap is decided by the blocks. -/
theorem twoRegions_correct_iff : twoRegions.WellFormed ∧
    (Correct twoRegions ((MapCall.unmap 0x20 0x10).exec twoRegions)
      ((MapCall.unmap 0x20 0x10).effect twoRegions) ↔ (MapCall.unmap 0x20 0x10).Ok twoRegions) :=
  ⟨mapRun_twoRegions.correct_iff.1, mapRun_twoRegions.correct_iff.2 _ (by decide)⟩

/-- To clear the first of two regions leaves it mapped, and no assertion fails. -/
theorem twoRegions_stale : MapRun (new 0 true 0x100) twoRegions ∧
    (MapCall.unmap 0x10 0x10).Valid twoRegions ∧
    (∃ m', (MapCall.unmap 0x10 0x10).exec twoRegions = .ret m' true ∧ m'.denote 0x15 = some 10) ∧
    (MapCall.unmap 0x10 0x10).effect twoRegions 0x15 = none ∧
    ¬ Correct twoRegions ((MapCall.unmap 0x10 0x10).exec twoRegions)
      ((MapCall.unmap 0x10 0x10).effect twoRegions) := by
  refine ⟨mapRun_twoRegions, by decide, ⟨_, rfl, by decide⟩, by decide, ?_⟩
  rintro ⟨m', hret, -, -, hdenote⟩
  cases hret
  have hstale := congrFun hdenote 0x15
  revert hstale
  decide

end FlatAddressSpaceMap
end Common
end NXEmu
