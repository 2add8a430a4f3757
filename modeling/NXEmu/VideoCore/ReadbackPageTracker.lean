/-
# The pages the CPU reads back

`src/yuzu_video_core/texture_cache/readback_page_tracker.h`: a `ReadbackPageTracker` has a serial
number for each page the CPU was seen to read, and for each of its bytes the number of the last
synchronous copy.  `ForEachRange` goes through the bytes that a copy with an older number may still
write.

An address is a number below `2 ^ 64`.  Where a sum or a difference can wrap it does; the serial
numbers wrap too.
-/

import NXEmu.Lib.OrderedMap
import Mathlib.Data.Nat.Notation
import Mathlib.Algebra.Group.Nat.Defs
import Mathlib.Order.Nat

namespace NXEmu
namespace VideoCommon

/-- A sum of two `u64`. -/
def add64 (a b : ℕ) : ℕ := (a + b) % 2 ^ 64

/-- A difference of two `u64`. -/
def sub64 (a b : ℕ) : ℕ := (a + (2 ^ 64 - b)) % 2 ^ 64

namespace ReadbackPageTracker

/-- `PAGE_SIZE`. -/
abbrev pageSize : ℕ := 4096

/-- `Version`. -/
structure Version where
  begin : ℕ
  stop : ℕ
  serial : BitVec 64
deriving DecidableEq

/-- `Page`. -/
structure Page where
  observed : BitVec 64
  versions : List Version
deriving DecidableEq

end ReadbackPageTracker

open ReadbackPageTracker in
/-- `ReadbackPageTracker`. -/
structure ReadbackPageTracker where
  pages : OrderedMap ℕ Page
  serial : BitVec 64

namespace ReadbackPageTracker

/-- The tracker without pages. -/
def new : ReadbackPageTracker := ⟨.empty, 0⟩

/-- `address & ~(PAGE_SIZE - 1)`. -/
def pageOf (address : ℕ) : ℕ := address / pageSize * pageSize

/-- The loop of `ForPages`, if it ends within so many rounds. -/
def forPagesFrom {σ : Type} (f : σ → ℕ → σ) (stop : ℕ) : ℕ → ℕ → σ → Option σ
  | 0, _, _ => none
  | rounds + 1, page, s =>
    if page < stop then forPagesFrom f stop rounds (add64 page pageSize) (f s page) else some s

/-- `ForPages`. -/
def forPages {σ : Type} (rounds : ℕ) (address size : ℕ) (f : σ → ℕ → σ) (s : σ) : Option σ :=
  if size = 0 then some s else forPagesFrom f (add64 address size) rounds (pageOf address) s

/-- What `Observe` does for a page; the flag is `known`. -/
def observePage (s : ReadbackPageTracker × Bool) (page : ℕ) : ReadbackPageTracker × Bool :=
  if s.1.pages.contains page then s
  else
    let serial := s.1.serial + 1
    ({ pages := s.1.pages.emplace page ⟨serial, [⟨0, pageSize, 0⟩]⟩, serial := serial }, false)

/-- `Observe`, if it returns within so many rounds. -/
def observe (rounds : ℕ) (t : ReadbackPageTracker) (address size : ℕ) :
    Option (ReadbackPageTracker × Bool) :=
  forPages rounds address size observePage (t, true)

/-- The parts that a version is cut into, where `[lo, hi)` gets another number. -/
def cut (lo hi : ℕ) (stamp : BitVec 64) (span : Version) : List Version :=
  if span.stop ≤ lo ∨ hi ≤ span.begin then [span]
  else
    (if span.begin < lo then [⟨span.begin, lo, span.serial⟩] else []) ++
      ⟨max span.begin lo, min span.stop hi, stamp⟩ ::
      (if hi < span.stop then [⟨hi, span.stop, span.serial⟩] else [])

/-- The loop that merges the versions with the same number; the first one is `out - 1`. -/
def mergeInto (last : Version) : List Version → List Version
  | [] => [last]
  | v :: vs =>
    if last.serial = v.serial then mergeInto { last with stop := v.stop } vs
    else last :: mergeInto v vs

/-- Metadata is bounded to actual byte boundaries, not the number of readbacks. -/
def merge : List Version → List Version
  | [] => []
  | v :: vs => mergeInto v vs

/-- `MarkSynchronized`: the bytes of the range have a new stamp in the pages that are observed. -/
def markSynchronized (t : ReadbackPageTracker) (address size : ℕ) : ReadbackPageTracker :=
  if size = 0 then t
  else
    let stamp := t.serial + 1
    { pages := t.pages.modifyBetween (pageOf address) (add64 address size) fun first page =>
        let lo := max address first - first
        let hi := sub64 (min (add64 address size) (add64 first pageSize)) first
        { page with versions := merge (page.versions.flatMap (cut lo hi stamp)) }
      serial := stamp }

/-- `Forget`. -/
def forget (t : ReadbackPageTracker) (address size : ℕ) : ReadbackPageTracker :=
  if size = 0 then t
  else { t with pages := t.pages.eraseBetween (pageOf address) (add64 address size) }

/-- The state of `ForEachRange`: the range it is in, and the ranges it has published, each with its
offset and its size. -/
structure RangeState where
  begin : ℕ
  runEnd : ℕ
  published : List (ℕ × ℕ)

/-- `flush`. -/
def flush (address : ℕ) (s : RangeState) : RangeState :=
  { begin := 0
    runEnd := 0
    published :=
      if s.begin < s.runEnd then s.published ++ [(s.begin - address, s.runEnd - s.begin)]
      else s.published }

/-- The part of the loop of `ForEachRange` for bytes that are published. -/
def extend (address lo hi : ℕ) (s : RangeState) : RangeState :=
  let s := if s.begin < s.runEnd ∧ lo ≠ s.runEnd then flush address s else s
  { s with begin := if s.begin = s.runEnd then lo else s.begin, runEnd := hi }

/-- The body of the inner loop of `ForEachRange`. -/
def spanStep (address stop : ℕ) (snapshotSerial : BitVec 64) (first : ℕ) (s : RangeState)
    (span : Version) : RangeState :=
  if snapshotSerial < span.serial then flush address s
  else
    let lo := max address (add64 first span.begin)
    let hi := min stop (add64 first span.stop)
    if hi ≤ lo then s else extend address lo hi s

/-- The body of the outer loop of `ForEachRange`. -/
def pageStep (address stop : ℕ) (snapshotSerial : BitVec 64) (s : RangeState) (e : ℕ × Page) :
    RangeState :=
  -- An old copy cannot initialize a new observation
  if snapshotSerial < e.2.observed then flush address s
  else e.2.versions.foldl (spanStep address stop snapshotSerial e.1) s

/-- `ForEachRange`: the ranges it publishes. -/
def forEachRange (t : ReadbackPageTracker) (address size : ℕ) (snapshotSerial : BitVec 64) :
    List (ℕ × ℕ) :=
  if size = 0 then []
  else
    let stop := add64 address size
    let s := (t.pages.between (pageOf address) stop).foldl (pageStep address stop snapshotSerial)
      ⟨0, 0, []⟩
    (flush address s).published

/-! ### Calls -/

/-- A call that changes a tracker. -/
inductive Call where
  | observe (address size : ℕ)
  | markSynchronized (address size : ℕ)
  | forget (address size : ℕ)

/-- The call, if it returns within so many rounds of `ForPages`. -/
def Call.exec (rounds : ℕ) (t : ReadbackPageTracker) : Call → Option ReadbackPageTracker
  | .observe address size => (t.observe rounds address size).map (·.1)
  | .markSynchronized address size => some (t.markSynchronized address size)
  | .forget address size => some (t.forget address size)

/-- The range does not wrap. -/
def Call.Valid : Call → Prop
  | .observe address size | .markSynchronized address size | .forget address size =>
    address + size < 2 ^ 64

/-- What the calls say of the pages and the bytes: which pages are observed and since when, and the
number of the last copy of each byte. -/
structure Observations where
  serial : BitVec 64
  observed : ℕ → Option (BitVec 64)
  stamp : ℕ → BitVec 64

namespace Observations

/-- Nothing is observed. -/
def none : Observations := ⟨0, fun _ => .none, fun _ => 0⟩

/-- A page is observed, with a number of its own unless it already is. -/
def observe (o : Observations) (page : ℕ) : Observations :=
  if (o.observed page).isSome then o
  else
    { serial := o.serial + 1
      observed := fun p => if p = page then some (o.serial + 1) else o.observed p
      stamp := fun b => if pageOf b = page then 0 else o.stamp b }

/-- A copy of a range. -/
def synchronize (o : Observations) (address size : ℕ) : Observations :=
  { o with
    serial := o.serial + 1
    stamp := fun b => if address ≤ b ∧ b < address + size then o.serial + 1 else o.stamp b }

/-- The pages that a range meets are no longer observed. -/
def forget (o : Observations) (address size : ℕ) : Observations :=
  { o with observed := fun p =>
      if pageOf address ≤ p ∧ p < address + size then .none else o.observed p }

end Observations

/-- The pages that a range meets. -/
def pagesOf (address size : ℕ) : List ℕ :=
  if size = 0 then []
  else (List.range' (address / pageSize) ((address + size - 1) / pageSize + 1 - address / pageSize)).map
    (· * pageSize)

/-- What a call does. -/
def Call.effect (o : Observations) : Call → Observations
  | .observe address size => (pagesOf address size).foldl Observations.observe o
  | .markSynchronized address size => if size = 0 then o else o.synchronize address size
  | .forget address size => if size = 0 then o else o.forget address size

end ReadbackPageTracker
end VideoCommon
end NXEmu
