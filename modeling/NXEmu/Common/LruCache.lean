/-
# The cache in the order of last use

`yuzu_common/lru_cache.h`: items in a pool that keeps their places, the live ones linked in the order in
which they were last inserted or touched.  While the ticks that are passed in never go back, the list is
in the order of the ticks and holds the live items (`Reached.holds`).

`ForEachItemBelow` goes through the list until an item is newer than the tick it is given.  Two things
stand between that and what it is for.  Whether it stops when the function it calls returns `true` is
decided by comparing `std::invoke_result<Func, ObjectType>` to `bool`, which is the class whose member
`type` is what is returned and never `bool` itself, so that it never stops (`returnsBool_eq`).  And the
ticks are compared as differences of `s64`, so that those on the other side of 2^63 are misjudged.  It
calls the function on the items it should exactly when the ticks it has to compare are on one side and no
call but the last one returns `true` (`Reached.visits_iff`).
-/

import NXEmu.Lib.Exec
import NXEmu.Lib.LinkedList
import Mathlib.Algebra.Group.Int.Defs
import Mathlib.Data.List.Sort

namespace NXEmu
namespace Common

open Exec Function List Option

/-- `LeastRecentlyUsedCache::Item`, with `TickType` as both users have it: a pointer to an item is its
place in the pool. -/
structure Item (ObjectType : Type) where
  obj : ObjectType
  tick : BitVec 64
  next : Option ℕ
  prev : Option ℕ

/-- `LeastRecentlyUsedCache` -/
structure LeastRecentlyUsedCache (ObjectType : Type) where
  itemPool : ℕ → Item ObjectType
  poolSize : ℕ
  freeItems : List ℕ
  firstItem : Option ℕ
  lastItem : Option ℕ

/-- What types a function can return are compared to. -/
inductive ResultType where
  | void
  | bool
  | invokeResult (type : ResultType)
deriving DecidableEq

/-- What a function called on an item does: whether it frees the item, and what it returns. -/
structure Answer where
  free : Bool
  returned : Bool

/-- A function to call on items, with what it carries from one call to the next. -/
structure Func (σ ObjectType : Type) where
  result : ResultType
  call : σ → ObjectType → σ × Answer

namespace LeastRecentlyUsedCache

variable {ObjectType σ : Type}

/-- The constructor. -/
def new [Inhabited ObjectType] : LeastRecentlyUsedCache ObjectType :=
  ⟨fun _ => ⟨default, 0, none, none⟩, 0, [], none, none⟩

variable (c : LeastRecentlyUsedCache ObjectType)

/-- Change an item. -/
def modify (id : ℕ) (f : Item ObjectType → Item ObjectType) : LeastRecentlyUsedCache ObjectType :=
  { c with itemPool := Function.update c.itemPool id (f (c.itemPool id)) }

/-- `Build`: a free item or a new one, without links. -/
def build : ℕ × LeastRecentlyUsedCache ObjectType :=
  match c.freeItems with
  | [] =>
    let itemId := c.poolSize
    let c := { c with poolSize := c.poolSize + 1 }
    (itemId, c.modify itemId fun item => { item with next := none, prev := none })
  | itemId :: freeItems =>
    let c := { c with freeItems }
    (itemId, c.modify itemId fun item => { item with next := none, prev := none })

/-- `Attach`: an item is put at the end of the list. -/
def attach (item : ℕ) : LeastRecentlyUsedCache ObjectType :=
  let c := if c.firstItem = none then { c with firstItem := some item } else c
  match c.lastItem with
  | none => { c with lastItem := some item }
  | some last =>
    let c := c.modify item fun i => { i with prev := some last }
    let c := c.modify last fun i => { i with next := some item }
    let c := c.modify item fun i => { i with next := none }
    { c with lastItem := some item }

/-- What `Detach` does to the item in front. -/
def detachPrev (item : ℕ) : LeastRecentlyUsedCache ObjectType :=
  match (c.itemPool item).prev with
  | none => c
  | some prev => c.modify prev fun i => { i with next := (c.itemPool item).next }

/-- What `Detach` does to the item behind. -/
def detachNext (item : ℕ) : LeastRecentlyUsedCache ObjectType :=
  match (c.itemPool item).next with
  | none => c
  | some next => c.modify next fun i => { i with prev := (c.itemPool item).prev }

/-- What `Detach` does to the start of the list. -/
def detachFirst (item : ℕ) : LeastRecentlyUsedCache ObjectType :=
  if c.firstItem = some item then
    let c := { c with firstItem := (c.itemPool item).next }
    match c.firstItem with
    | none => c
    | some first => c.modify first fun i => { i with prev := none }
  else c

/-- What `Detach` does to the end of the list. -/
def detachLast (item : ℕ) : LeastRecentlyUsedCache ObjectType :=
  if c.lastItem = some item then
    let c := { c with lastItem := (c.itemPool item).prev }
    match c.lastItem with
    | none => c
    | some last => c.modify last fun i => { i with next := none }
  else c

/-- `Detach` -/
def detach (item : ℕ) : LeastRecentlyUsedCache ObjectType :=
  (((c.detachPrev item).detachNext item).detachFirst item).detachLast item

/-- `Insert` -/
def insert (obj : ObjectType) (tick : BitVec 64) : ℕ × LeastRecentlyUsedCache ObjectType :=
  let (newId, c) := c.build
  let c := c.modify newId fun item => { item with obj, tick }
  (newId, c.attach newId)

/-- `Touch` -/
def touch (id : ℕ) (tick : BitVec 64) : LeastRecentlyUsedCache ObjectType :=
  if tick ≤ (c.itemPool id).tick then c
  else
    let c := c.modify id fun item => { item with tick }
    if c.lastItem = some id then c else (c.detach id).attach id

/-- `Free` -/
def free (id : ℕ) : LeastRecentlyUsedCache ObjectType :=
  let c := c.detach id
  let c := c.modify id fun item => { item with prev := none, next := none }
  { c with freeItems := c.freeItems ++ [id] }

/-- `RETURNS_BOOL`: `std::is_same_v<std::invoke_result<Func, ObjectType>, bool>`. -/
def returnsBool (func : Func σ ObjectType) : Bool := ResultType.invokeResult func.result = .bool

/-- A difference of `s64`, which must not overflow. -/
def sub64 (a b : BitVec 64) : Exec ℤ :=
  let difference := a.toInt - b.toInt
  if difference < -2 ^ 63 ∨ 2 ^ 63 ≤ difference then .fault else return difference

/-- What is left of a pass over the items: the cache, what the function carries and the items it was
called on. -/
structure Pass (σ ObjectType : Type) where
  cache : LeastRecentlyUsedCache ObjectType
  carried : σ
  visited : List ℕ

/-- The loop of `ForEachItemBelow`, for so many rounds at most. -/
def forEachFrom (tick : BitVec 64) (func : Func σ ObjectType) :
    ℕ → Option ℕ → Pass σ ObjectType → Exec (Pass σ ObjectType)
  | _, none, p => return p
  | 0, some _, _ => .fault
  | rounds + 1, some iterator, p => do
    let difference ← sub64 tick (p.cache.itemPool iterator).tick
    if difference < 0 then return p
    else
      let next := (p.cache.itemPool iterator).next
      let (carried, answer) := func.call p.carried (p.cache.itemPool iterator).obj
      let cache := if answer.free then p.cache.free iterator else p.cache
      let p := ⟨cache, carried, p.visited ++ [iterator]⟩
      if returnsBool func ∧ answer.returned then return p else forEachFrom tick func rounds next p

/-- `ForEachItemBelow`: there are no more rounds than items in the pool. -/
def forEachItemBelow (tick : BitVec 64) (func : Func σ ObjectType) (carried : σ) : Exec (Pass σ ObjectType) :=
  forEachFrom tick func c.poolSize c.firstItem ⟨c, carried, []⟩

/-! ### The links -/

/-- Where an item links to, and the list to its first item. -/
def next : Option ℕ → Option ℕ
  | none => c.firstItem
  | some i => (c.itemPool i).next

/-- Where an item links back to, and the list to its last item. -/
def prev : Option ℕ → Option ℕ
  | none => c.lastItem
  | some i => (c.itemPool i).prev

variable {c c' : LeastRecentlyUsedCache ObjectType} {i j k : ℕ} {l l₁ l₂ : List ℕ}
  {f : Item ObjectType → Item ObjectType}

/-- The list of the items `l`. -/
def Linked (c : LeastRecentlyUsedCache ObjectType) (l : List ℕ) : Prop := Ring c.next c.prev l

/-- Two caches that differ in the links only. -/
structure SameItems (c c' : LeastRecentlyUsedCache ObjectType) : Prop where
  obj : ∀ i, (c'.itemPool i).obj = (c.itemPool i).obj
  tick : ∀ i, (c'.itemPool i).tick = (c.itemPool i).tick
  poolSize : c'.poolSize = c.poolSize
  freeItems : c'.freeItems = c.freeItems

theorem itemPool_modify : (c.modify j f).itemPool i = if i = j then f (c.itemPool j) else c.itemPool i :=
  update_apply ..

theorem SameItems.refl (c : LeastRecentlyUsedCache ObjectType) : SameItems c c :=
  ⟨fun _ => rfl, fun _ => rfl, rfl, rfl⟩

theorem SameItems.modify (h : SameItems c c') (j : ℕ) (hobj : ∀ item, (f item).obj = item.obj := by exact fun _ => rfl)
    (htick : ∀ item, (f item).tick = item.tick := by exact fun _ => rfl) : SameItems c (c'.modify j f) := by
  refine ⟨fun i => ?_, fun i => ?_, h.poolSize, h.freeItems⟩ <;> rw [itemPool_modify]
  · split_ifs with hij
    · rw [hobj, ← hij, h.obj]
    · exact h.obj i
  · split_ifs with hij
    · rw [htick, ← hij, h.tick]
    · exact h.tick i

theorem SameItems.trans {c'' : LeastRecentlyUsedCache ObjectType} (h : SameItems c c')
    (h' : SameItems c' c'') : SameItems c c'' :=
  ⟨fun i => (h'.obj i).trans (h.obj i), fun i => (h'.tick i).trans (h.tick i),
    h'.poolSize.trans h.poolSize, h'.freeItems.trans h.freeItems⟩

theorem SameItems.ends (h : SameItems c c') (first last : Option ℕ) :
    SameItems c { c' with firstItem := first, lastItem := last } := { h with }

theorem sameItems_attach (c : LeastRecentlyUsedCache ObjectType) (i : ℕ) : SameItems c (c.attach i) := by
  have hfirst : SameItems c (if c.firstItem = none then { c with firstItem := some i } else c) := by
    split_ifs
    · exact (SameItems.refl c).ends (some i) c.lastItem
    · exact .refl c
  rw [attach]
  dsimp only
  split
  · exact hfirst.ends _ (some i)
  · exact (((hfirst.modify _).modify _).modify _).ends _ (some i)

theorem sameItems_detach (c : LeastRecentlyUsedCache ObjectType) (i : ℕ) : SameItems c (c.detach i) := by
  have hprev : ∀ c : LeastRecentlyUsedCache ObjectType, SameItems c (c.detachPrev i) := by
    intro c
    rw [detachPrev]
    split
    · exact .refl c
    · exact (SameItems.refl c).modify _
  have hnext : ∀ c : LeastRecentlyUsedCache ObjectType, SameItems c (c.detachNext i) := by
    intro c
    rw [detachNext]
    split
    · exact .refl c
    · exact (SameItems.refl c).modify _
  have hfirst : ∀ c : LeastRecentlyUsedCache ObjectType, SameItems c (c.detachFirst i) := by
    intro c
    rw [detachFirst]
    split_ifs
    · dsimp only
      split
      · exact (SameItems.refl c).ends _ c.lastItem
      · exact ((SameItems.refl c).ends _ c.lastItem).modify _
    · exact .refl c
  have hlast : ∀ c : LeastRecentlyUsedCache ObjectType, SameItems c (c.detachLast i) := by
    intro c
    rw [detachLast]
    split_ifs
    · dsimp only
      split
      · exact (SameItems.refl c).ends c.firstItem _
      · exact ((SameItems.refl c).ends c.firstItem _).modify _
    · exact .refl c
  exact (((hprev c).trans (hnext _)).trans (hfirst _)).trans (hlast _)

/-- Links outside of the list may change. -/
theorem Linked.modify (h : Linked c l)
    (hf : j ∈ l → ∀ item, (f item).next = item.next ∧ (f item).prev = item.prev) : Linked (c.modify j f) l := by
  have hitem : ∀ k ∈ l, ((c.modify j f).itemPool k).next = (c.itemPool k).next ∧
      ((c.modify j f).itemPool k).prev = (c.itemPool k).prev := by
    intro k hk
    rw [itemPool_modify]
    split_ifs with hkj
    · rw [hkj]
      exact hf (hkj ▸ hk) _
    · exact ⟨rfl, rfl⟩
  exact h.congr ⟨rfl, fun k hk => (hitem k hk).1⟩ ⟨rfl, fun k hk => (hitem k hk).2⟩

theorem Linked.attach (h : Linked c l) (hi : i ∉ l)
    (hnew : l = [] → (c.itemPool i).next = none ∧ (c.itemPool i).prev = none) :
    Linked (c.attach i) (l ++ [i]) := by
  have hins := Ring.insert (show Ring c.next c.prev (l ++ []) by rwa [append_nil])
    (show i ∉ l ++ [] by rwa [append_nil])
  have hfirst : c.firstItem = l.head? := h.next_none
  have hlast : c.lastItem = lastNode none l := h.prev_none
  rw [reverse_nil, lastNode_nil] at hins
  rcases eq_nil_or_concat l with rfl | ⟨l, j, rfl⟩
  · obtain ⟨hnext, hprev⟩ := hnew rfl
    have hattach : c.attach i = { c with firstItem := some i, lastItem := some i } := by
      simp only [LeastRecentlyUsedCache.attach, hfirst, head?_nil, if_true, hlast, lastNode_nil]
    rw [hattach]
    exact ⟨⟨rfl, hnext⟩, ⟨rfl, hprev⟩, nodup_singleton i⟩
  · rw [concat_eq_append] at h hi hfirst hlast hins ⊢
    rw [lastNode_concat] at hlast hins
    have hne : i ≠ j := fun hij => hi (by simp [hij])
    have hsome : c.firstItem ≠ none := by
      rw [hfirst]
      simp
    have hattach : c.attach i = { ((c.modify i fun item => { item with prev := some j }).modify j
        fun item => { item with next := some i }).modify i fun item => { item with next := none } with
        lastItem := some i } := by
      rw [LeastRecentlyUsedCache.attach, if_neg hsome]
      simp only [hlast]
    rw [hattach]
    refine hins.congr ⟨?_, fun k hk => ?_⟩ ⟨?_, fun k hk => ?_⟩
    · rfl
    · show (Item.next _) = _
      simp only [itemPool_modify, update_apply, Option.some.injEq, next]
      split_ifs <;> simp_all
    · rfl
    · show (Item.prev _) = _
      simp only [itemPool_modify, update_apply, Option.some.injEq, prev]
      split_ifs <;> simp_all

@[simp] theorem firstItem_modify : (c.modify j f).firstItem = c.firstItem := rfl

@[simp] theorem lastItem_modify : (c.modify j f).lastItem = c.lastItem := rfl

/-- What `Detach` does to the links: the items in front and behind link to each other. -/
theorem detach_links (hne : (c.itemPool i).prev ≠ some i) (hne' : (c.itemPool i).next ≠ some i)
    (hfirst : c.firstItem = some i ↔ (c.itemPool i).prev = none)
    (hlast : c.lastItem = some i ↔ (c.itemPool i).next = none) (z : Option ℕ) :
    (c.detach i).next z = update c.next (c.itemPool i).prev (c.itemPool i).next z ∧
      (c.detach i).prev z = update c.prev (c.itemPool i).next (c.itemPool i).prev z := by
  rw [update_apply, update_apply]
  rcases hprev : (c.itemPool i).prev with _ | p <;> rcases hnext : (c.itemPool i).next with _ | n
  · have hdetach : c.detach i = { c with firstItem := none, lastItem := none } := by
      simp only [detach, detachPrev, detachNext, detachFirst, detachLast, hprev, hnext, hfirst.2 hprev,
        hlast.2 hnext, if_true]
    rw [hdetach]
    cases z <;> exact ⟨rfl, rfl⟩
  · have hlast' : c.lastItem ≠ some i := fun h => some_ne_none n (hnext.symm.trans (hlast.1 h))
    have hin : i ≠ n := fun h => hne' (h ▸ hnext)
    have hdetach : c.detach i = { (c.modify n fun item => { item with prev := none }).modify n
        fun item => { item with prev := none } with firstItem := some n } := by
      simp only [detach, detachPrev, detachNext, detachFirst, detachLast, hprev, hnext, hfirst.2 hprev,
        if_true, itemPool_modify, if_neg hin, firstItem_modify, lastItem_modify, if_neg hlast']
      rfl
    rw [hdetach]
    cases z with
    | none => exact ⟨rfl, rfl⟩
    | some k =>
      by_cases hk : k = n
      · simp [next, prev, modify, hk]
      · simp [next, prev, modify, hk]
  · have hfirst' : c.firstItem ≠ some i := fun h => some_ne_none p (hprev.symm.trans (hfirst.1 h))
    have hip : i ≠ p := fun h => hne (h ▸ hprev)
    have hdetach : c.detach i = { (c.modify p fun item => { item with next := none }).modify p
        fun item => { item with next := none } with lastItem := some p } := by
      simp only [detach, detachPrev, detachNext, detachFirst, detachLast, hprev, hnext, hlast.2 hnext,
        if_true, itemPool_modify, if_neg hip, firstItem_modify, lastItem_modify, if_neg hfirst']
      rfl
    rw [hdetach]
    cases z with
    | none => exact ⟨rfl, rfl⟩
    | some k =>
      by_cases hk : k = p
      · simp [next, prev, modify, hk]
      · simp [next, prev, modify, hk]
  · have hlast' : c.lastItem ≠ some i := fun h => some_ne_none n (hnext.symm.trans (hlast.1 h))
    have hfirst' : c.firstItem ≠ some i := fun h => some_ne_none p (hprev.symm.trans (hfirst.1 h))
    have hin : i ≠ n := fun h => hne' (h ▸ hnext)
    have hip : i ≠ p := fun h => hne (h ▸ hprev)
    have hdetach : c.detach i = (c.modify p fun item => { item with next := some n }).modify n
        fun item => { item with prev := some p } := by
      simp only [detach, detachPrev, detachNext, detachFirst, detachLast, hprev, hnext,
        itemPool_modify, if_neg hip, firstItem_modify, lastItem_modify, if_neg hfirst', if_neg hlast']
    rw [hdetach]
    cases z with
    | none => exact ⟨rfl, rfl⟩
    | some k =>
      simp only [next, prev, itemPool_modify, Option.some.injEq]
      constructor <;> split_ifs <;> simp_all

section

variable (h : Linked c (l₁ ++ i :: l₂))

include h

theorem Linked.notMem : i ∉ l₁ ++ l₂ :=
  (nodup_cons.1 (nodup_middle.1 h.nodup)).1

theorem Linked.isFirst : c.firstItem = some i ↔ l₁ = [] := by
  have hfirst : c.firstItem = (l₁ ++ i :: l₂).head? := h.next_none
  rw [hfirst]
  cases l₁ with
  | nil => exact iff_of_true rfl rfl
  | cons p l₁ =>
    refine iff_of_false (fun hi => h.notMem ?_) (cons_ne_nil _ _)
    rw [← Option.some.inj hi]
    exact mem_append_left _ mem_cons_self

theorem Linked.isLast : c.lastItem = some i ↔ l₂ = [] := by
  have hlast : c.lastItem = lastNode none (l₁ ++ i :: l₂) := h.prev_none
  rw [hlast]
  cases l₂ with
  | nil => exact iff_of_true lastNode_concat rfl
  | cons n l₂ =>
    refine iff_of_false (fun hi => h.notMem (mem_append_right _ (mem_of_lastNode ?_))) (cons_ne_nil _ _)
    rwa [lastNode, getLast?_append_cons] at hi

theorem Linked.detach : Linked (c.detach i) (l₁ ++ l₂) := by
  have hrem := Ring.remove h
  have hprev : (c.itemPool i).prev = lastNode none l₁ := h.prev_eq
  have hnext : (c.itemPool i).next = l₂.head? := h.next_eq
  have hlinks := detach_links (c := c) (i := i) ?_ ?_ ?_ ?_
  · exact hrem.congr ⟨(hlinks none).1, fun k _ => (hlinks (some k)).1⟩
      ⟨(hlinks none).2, fun k _ => (hlinks (some k)).2⟩
  · rw [hprev]
    exact fun hi => h.notMem (mem_append_left _ (mem_of_lastNode hi))
  · rw [hnext]
    exact fun hi => h.notMem (mem_append_right _ (mem_of_head? hi))
  · rw [h.isFirst, hprev, lastNode_eq_none]
  · rw [h.isLast, hnext, head?_eq_none_iff]

end

/-! ### Sequences of calls -/

variable {live : ℕ → Option (ObjectType × BitVec 64)} {now tick : BitVec 64} {id : ℕ} {obj : ObjectType}

/-- The list `l` holds the live items in the order of their ticks, and an item is live or free. -/
structure Holds (c : LeastRecentlyUsedCache ObjectType) (live : ℕ → Option (ObjectType × BitVec 64))
    (now : BitVec 64) (l : List ℕ) : Prop where
  linked : Linked c l
  mem : ∀ i, i ∈ l ↔ live i ≠ none
  items : ∀ i obj tick, live i = some (obj, tick) → (c.itemPool i).obj = obj ∧ (c.itemPool i).tick = tick
  sorted : l.Pairwise fun i j => (c.itemPool i).tick ≤ (c.itemPool j).tick
  latest : ∀ i ∈ l, (c.itemPool i).tick ≤ now
  pool : (l ++ c.freeItems).Perm (List.range c.poolSize)

theorem holds_new [Inhabited ObjectType] : Holds (new : LeastRecentlyUsedCache ObjectType) (fun _ => none) 0 [] where
  linked := ⟨rfl, rfl, nodup_nil⟩
  mem _ := by simp
  items _ _ _ h := by cases h
  sorted := .nil
  latest := forall_mem_nil _
  pool := .refl _

/-- What an item list says of its ticks depends on the ticks only. -/
theorem pairwise_congr (h : l.Pairwise fun i j => (c.itemPool i).tick ≤ (c.itemPool j).tick)
    (hsame : ∀ i ∈ l, (c'.itemPool i).tick = (c.itemPool i).tick) :
    l.Pairwise fun i j => (c'.itemPool i).tick ≤ (c'.itemPool j).tick := by
  refine h.imp_of_mem fun {i j} hi hj hle => ?_
  rwa [hsame i hi, hsame j hj]

/-- **Freeing** a live item. -/
theorem Holds.free (h : Holds c live now (l₁ ++ id :: l₂)) :
    Holds (c.free id) (update live id none) now (l₁ ++ l₂) := by
  have hnotMem : id ∉ l₁ ++ l₂ := h.linked.notMem
  have hsame := (sameItems_detach c id).modify (f := fun item => { item with prev := none, next := none }) id
  have hsub : (l₁ ++ l₂).Sublist (l₁ ++ id :: l₂) := (sublist_cons_self _ _).append_left _
  refine ⟨?_, fun i => ?_, fun i obj tick hi => ?_, ?_, fun i hi => ?_, ?_⟩
  · exact h.linked.detach.modify (f := fun item => { item with prev := none, next := none })
      fun hid => absurd hid hnotMem
  · by_cases hi : i = id
    · rw [hi, update_self]
      exact iff_of_false hnotMem (not_not.2 rfl)
    · rw [update_of_ne hi, ← h.mem]
      simp [hi]
  · by_cases hne : i = id
    · rw [hne, update_self] at hi
      cases hi
    · rw [update_of_ne hne] at hi
      rw [LeastRecentlyUsedCache.free]
      exact ⟨(hsame.obj i).trans (h.items i obj tick hi).1, (hsame.tick i).trans (h.items i obj tick hi).2⟩
  · exact pairwise_congr (h.sorted.sublist hsub) fun i _ => hsame.tick i
  · exact (hsame.tick i).symm ▸ h.latest i (hsub.subset hi)
  · show (l₁ ++ l₂ ++ ((c.detach id).freeItems ++ [id])).Perm (range (c.detach id).poolSize)
    rw [(sameItems_detach c id).freeItems, (sameItems_detach c id).poolSize]
    refine List.Perm.trans (perm_iff_count.2 fun a => ?_) h.pool
    simp only [count_append, count_cons, count_nil]
    omega

theorem tick_free (c : LeastRecentlyUsedCache ObjectType) (i k : ℕ) :
    ((c.free i).itemPool k).tick = (c.itemPool k).tick :=
  ((sameItems_detach c i).modify (f := fun item => { item with prev := none, next := none }) i).tick k

/-- **Touching** a live item, with a tick that is not older than any. -/
theorem Holds.touch {old : BitVec 64} (h : Holds c live now (l₁ ++ id :: l₂)) (hlive : live id = some (obj, old))
    (hle : now ≤ tick) : ∃ l, Holds (c.touch id tick) (update live id (some (obj, tick))) tick l := by
  have hid : id ∈ l₁ ++ id :: l₂ := by simp
  have hnotMem : id ∉ l₁ ++ l₂ := h.linked.notMem
  obtain ⟨hobj, hold⟩ := h.items id obj old hlive
  have hlatest : ∀ i ∈ l₁ ++ id :: l₂, (c.itemPool i).tick ≤ tick := fun i hi =>
    BitVec.le_trans (h.latest i hi) hle
  have hmem : ∀ i, i ∈ l₁ ++ id :: l₂ ↔ update live id (some (obj, tick)) i ≠ none := by
    intro i
    by_cases hi : i = id
    · rw [hi, update_self]
      exact iff_of_true hid (some_ne_none _)
    · rw [update_of_ne hi, ← h.mem]
  have hitems : ∀ c' : LeastRecentlyUsedCache ObjectType, (∀ i, (c'.itemPool i).obj = (c.itemPool i).obj) →
      (∀ i, (c'.itemPool i).tick = if i = id then tick else (c.itemPool i).tick) →
      ∀ i obj' t, update live id (some (obj, tick)) i = some (obj', t) →
        (c'.itemPool i).obj = obj' ∧ (c'.itemPool i).tick = t := by
    intro c' hobjs hticks i obj' t hi
    rw [hobjs, hticks]
    by_cases hne : i = id
    · rw [hne, update_self, Option.some.injEq, Prod.mk.injEq] at hi
      rw [if_pos hne, hne, hobj]
      exact hi
    · rw [update_of_ne hne] at hi
      rw [if_neg hne]
      exact h.items i obj' t hi
  rw [LeastRecentlyUsedCache.touch]
  by_cases hge : tick ≤ (c.itemPool id).tick
  · rw [if_pos hge]
    have heq : (c.itemPool id).tick = tick := BitVec.le_antisymm (hlatest id hid) hge
    refine ⟨_, h.linked, hmem, hitems c (fun _ => rfl) fun i => ?_, h.sorted, hlatest, h.pool⟩
    split_ifs with hi
    · rw [hi, heq]
    · rfl
  · rw [if_neg hge]
    have hkept : ((l₁ ++ l₂).Pairwise fun i j => (c.itemPool i).tick ≤ (c.itemPool j).tick) :=
      h.sorted.sublist ((sublist_cons_self _ _).append_left _)
    have hmoved : (l₁ ++ l₂ ++ [id]).Perm (l₁ ++ id :: l₂) := perm_iff_count.2 fun a => by
      simp only [count_append, count_cons, count_nil]
      omega
    -- whether the item is moved or not, it is the last one with the newest tick
    have hdone : ∀ c', Linked c' (l₁ ++ l₂ ++ [id]) → SameItems (c.modify id fun item => { item with tick }) c' →
        ∃ l, Holds c' (update live id (some (obj, tick))) tick l := by
      intro c' hlinked hsame
      have hticks : ∀ i, (c'.itemPool i).tick = if i = id then tick else (c.itemPool i).tick := by
        intro i
        rw [hsame.tick, itemPool_modify]
        split_ifs with hi <;> rfl
      have hobjs : ∀ i, (c'.itemPool i).obj = (c.itemPool i).obj := by
        intro i
        rw [hsame.obj, itemPool_modify]
        split_ifs with hi
        · rw [hi]
        · rfl
      have hothers : ∀ i ∈ l₁ ++ l₂, (c'.itemPool i).tick = (c.itemPool i).tick := fun i hi => by
        rw [hticks, if_neg (ne_of_mem_of_not_mem hi hnotMem)]
      have hnewest : ∀ i ∈ l₁ ++ id :: l₂, (c'.itemPool i).tick ≤ tick := by
        intro i hi
        rw [hticks]
        split_ifs
        · exact BitVec.le_refl _
        · exact hlatest i hi
      refine ⟨l₁ ++ l₂ ++ [id], hlinked, fun i => hmoved.mem_iff.trans (hmem i), hitems c' hobjs hticks, ?_,
        fun i hi => hnewest i (hmoved.mem_iff.1 hi), ?_⟩
      · refine pairwise_append.2 ⟨pairwise_congr hkept hothers, pairwise_singleton _ _, fun i hi j hj => ?_⟩
        rw [mem_singleton.1 hj, hticks id, if_pos rfl]
        exact hnewest i (by simp only [mem_append, mem_cons] at hi ⊢; tauto)
      · rw [hsame.freeItems, hsame.poolSize]
        exact (hmoved.append_right _).trans h.pool
    have hlinked := h.linked.modify (j := id) (f := fun item => { item with tick }) fun _ _ => ⟨rfl, rfl⟩
    dsimp only
    split_ifs with hlast
    · -- the last item of the list is the one that is touched
      obtain rfl := hlinked.isLast.1 hlast
      refine hdone _ ?_ (.refl _)
      rwa [append_nil]
    · refine hdone _ (hlinked.detach.attach hnotMem fun hnil => ?_)
        ((sameItems_detach _ id).trans (sameItems_attach _ id))
      exact absurd (hlinked.isLast.2 (append_eq_nil_iff.1 hnil).2) hlast

/-- What `Build` does: it hands out an item that is not live, without links. -/
structure Built (c : LeastRecentlyUsedCache ObjectType) (l : List ℕ) (id : ℕ)
    (c' : LeastRecentlyUsedCache ObjectType) : Prop where
  notMem : id ∉ l
  linked : Linked c' l
  next : (c'.itemPool id).next = none
  prev : (c'.itemPool id).prev = none
  obj : ∀ i, (c'.itemPool i).obj = (c.itemPool i).obj
  tick : ∀ i, (c'.itemPool i).tick = (c.itemPool i).tick
  pool : (l ++ [id] ++ c'.freeItems).Perm (List.range c'.poolSize)

theorem Holds.build (h : Holds c live now l) : Built c l c.build.1 c.build.2 := by
  have hcleared : ∀ (id : ℕ) (c' : LeastRecentlyUsedCache ObjectType), Linked c' l →
      (∀ i, c'.itemPool i = c.itemPool i) → (l ++ [id] ++ c'.freeItems).Perm (range c'.poolSize) →
      Built c l id (c'.modify id fun item => { item with next := none, prev := none }) := by
    intro id c' hlinked hitems hpool
    have hnotMem : id ∉ l := by
      have hnodup := hpool.nodup_iff.2 nodup_range
      have hdisjoint := (nodup_append.1 (nodup_append.1 hnodup).1).2.2
      exact fun hid => hdisjoint id hid id (mem_singleton_self id) rfl
    have hself : (c'.modify id fun item => { item with next := none, prev := none }).itemPool id =
        { c'.itemPool id with next := none, prev := none } := by
      rw [itemPool_modify, if_pos rfl]
    have hsame := (SameItems.refl c').modify (f := fun item => { item with next := none, prev := none }) id
    refine ⟨hnotMem, hlinked.modify fun hid => absurd hid hnotMem, ?_, ?_, fun i => ?_, fun i => ?_, hpool⟩
    · rw [hself]
    · rw [hself]
    · rw [hsame.obj, hitems]
    · rw [hsame.tick, hitems]
  rw [LeastRecentlyUsedCache.build]
  cases hfree : c.freeItems with
  | nil =>
    dsimp only
    refine hcleared _ { c with poolSize := c.poolSize + 1, freeItems := [] } h.linked (fun _ => rfl) ?_
    have hpool := h.pool
    rw [hfree, append_nil] at hpool
    rw [append_nil, range_succ]
    exact hpool.append_right _
  | cons itemId freeItems =>
    dsimp only
    refine hcleared _ { c with freeItems } h.linked (fun _ => rfl) ?_
    have hpool := h.pool
    rw [hfree] at hpool
    rwa [append_assoc, singleton_append]

/-- **Inserting** takes an item that is not live. -/
theorem Holds.insert (h : Holds c live now l) (hle : now ≤ tick) (obj : ObjectType) :
    live (c.insert obj tick).1 = none ∧ Holds (c.insert obj tick).2
      (update live (c.insert obj tick).1 (some (obj, tick))) tick (l ++ [(c.insert obj tick).1]) := by
  have hbuilt := h.build
  rw [LeastRecentlyUsedCache.insert]
  rcases hid : c.build with ⟨id, c'⟩
  rw [hid] at hbuilt
  dsimp only at hbuilt ⊢
  have hset := fun i => itemPool_modify (i := i) (c := c') (j := id) (f := fun item => { item with obj, tick })
  have hsame := sameItems_attach (c'.modify id fun item => { item with obj, tick }) id
  have hlive : live id = none := by
    by_contra hne
    exact hbuilt.notMem ((h.mem id).2 hne)
  have hticks : ∀ i ∈ l, (((c'.modify id fun item => { item with obj, tick }).attach id).itemPool i).tick =
      (c.itemPool i).tick := by
    intro i hi
    rw [hsame.tick, hset, if_neg (ne_of_mem_of_not_mem hi hbuilt.notMem), hbuilt.tick]
  have hself : (((c'.modify id fun item => { item with obj, tick }).attach id).itemPool id).tick = tick := by
    rw [hsame.tick, hset, if_pos rfl]
  refine ⟨hlive, ?_, fun i => ?_, fun i obj' t hi => ?_, ?_, fun i hi => ?_, ?_⟩
  · refine (hbuilt.linked.modify fun hid => absurd hid hbuilt.notMem).attach hbuilt.notMem fun _ => ?_
    rw [hset, if_pos rfl]
    exact ⟨hbuilt.next, hbuilt.prev⟩
  · rw [mem_append, mem_singleton, h.mem]
    by_cases hi : i = id
    · rw [hi, update_self]
      exact iff_of_true (.inr rfl) (some_ne_none _)
    · rw [update_of_ne hi]
      exact or_iff_left hi
  · rw [hsame.obj, hsame.tick, hset]
    by_cases hne : i = id
    · rw [hne, update_self, Option.some.injEq, Prod.mk.injEq] at hi
      rw [if_pos hne]
      exact hi
    · rw [update_of_ne hne] at hi
      rw [if_neg hne, hbuilt.obj, hbuilt.tick]
      exact h.items i obj' t hi
  · refine pairwise_append.2 ⟨pairwise_congr h.sorted hticks, pairwise_singleton _ _, fun i hi j hj => ?_⟩
    rw [mem_singleton.1 hj, hself, hticks i hi]
    exact BitVec.le_trans (h.latest i hi) hle
  · rcases mem_append.1 hi with hi | hi
    · rw [hticks i hi]
      exact BitVec.le_trans (h.latest i hi) hle
    · rw [mem_singleton.1 hi, hself]
      exact BitVec.le_refl _
  · rw [hsame.freeItems, hsame.poolSize]
    exact hbuilt.pool

/-- **The caches that can be reached**, with what is live in them and the last tick: the ticks do not go
back, and only live items are touched and freed. -/
inductive Reached [Inhabited ObjectType] : LeastRecentlyUsedCache ObjectType →
    (ℕ → Option (ObjectType × BitVec 64)) → BitVec 64 → Prop
  | new : Reached new (fun _ => none) 0
  | insert {c : LeastRecentlyUsedCache ObjectType} {live : ℕ → Option (ObjectType × BitVec 64)}
      {now tick : BitVec 64} (obj : ObjectType) (h : Reached c live now) (htick : now ≤ tick) :
      Reached (c.insert obj tick).2 (Function.update live (c.insert obj tick).1 (some (obj, tick))) tick
  | touch {c : LeastRecentlyUsedCache ObjectType} {live : ℕ → Option (ObjectType × BitVec 64)}
      {now tick old : BitVec 64} {id : ℕ} {obj : ObjectType} (h : Reached c live now)
      (hlive : live id = some (obj, old)) (htick : now ≤ tick) :
      Reached (c.touch id tick) (Function.update live id (some (obj, tick))) tick
  | free {c : LeastRecentlyUsedCache ObjectType} {live : ℕ → Option (ObjectType × BitVec 64)}
      {now : BitVec 64} {id : ℕ} (h : Reached c live now) (hlive : live id ≠ none) :
      Reached (c.free id) (Function.update live id none) now

theorem Reached.holds [Inhabited ObjectType] (h : Reached c live now) : ∃ l, Holds c live now l := by
  induction h with
  | new => exact ⟨[], holds_new⟩
  | insert obj _ htick ih =>
    obtain ⟨l, h⟩ := ih
    exact ⟨_, (h.insert htick obj).2⟩
  | touch _ hlive htick ih =>
    obtain ⟨l, h⟩ := ih
    obtain ⟨l₁, l₂, rfl⟩ := append_of_mem ((h.mem _).2 fun hnone => by
      rw [hnone] at hlive
      cases hlive)
    exact h.touch hlive htick
  | free _ hlive ih =>
    obtain ⟨l, h⟩ := ih
    obtain ⟨l₁, l₂, rfl⟩ := append_of_mem ((h.mem _).2 hlive)
    exact ⟨_, h.free⟩

/-! ### What a pass goes through -/

variable {func : Func σ ObjectType} {carried : σ} {t : BitVec 64} {τ : ℕ → BitVec 64} {ω : ℕ → ObjectType}

/-- The comparison is never true: its left side is a class. -/
theorem returnsBool_eq (func : Func σ ObjectType) : returnsBool func = false :=
  decide_eq_false fun h => by cases h

/-- Two ticks that a difference of `s64` compares right. -/
def SameSide (a b : BitVec 64) : Prop := a.toNat < 2 ^ 63 ↔ b.toNat < 2 ^ 63

/-- The items that the loop passes, by their ticks, and nothing when a difference overflows. -/
def passed (t : BitVec 64) (τ : ℕ → BitVec 64) : List ℕ → Option (List ℕ)
  | [] => some []
  | i :: l => match sub64 t (τ i) with
    | .fault => none
    | .ret difference _ => if difference < 0 then some [] else (passed t τ l).map (i :: ·)

/-- The items that are not newer. -/
def notNewer (t : BitVec 64) (τ : ℕ → BitVec 64) (l : List ℕ) : List ℕ := l.filter fun i => τ i ≤ t

theorem sub64_of_lt {a : BitVec 64} (h : SameSide a t) (hlt : t < a) :
    ∃ d : ℤ, sub64 t a = .ret d true ∧ d < 0 := by
  have hlt' : t.toNat < a.toNat := hlt
  have := a.isLt
  rw [SameSide] at h
  refine ⟨t.toInt - a.toInt, ?_, ?_⟩
  · rw [sub64, if_neg, pure_eq]
    rw [BitVec.toInt_eq_toNat_cond, BitVec.toInt_eq_toNat_cond]
    split_ifs <;> omega
  · rw [BitVec.toInt_eq_toNat_cond, BitVec.toInt_eq_toNat_cond]
    split_ifs <;> omega

theorem sub64_of_le {a : BitVec 64} (h : SameSide a t) (hle : a ≤ t) :
    ∃ d : ℤ, sub64 t a = .ret d true ∧ ¬ d < 0 := by
  have hle' : a.toNat ≤ t.toNat := hle
  have := t.isLt
  rw [SameSide] at h
  refine ⟨t.toInt - a.toInt, ?_, ?_⟩
  · rw [sub64, if_neg, pure_eq]
    rw [BitVec.toInt_eq_toNat_cond, BitVec.toInt_eq_toNat_cond]
    split_ifs <;> omega
  · rw [BitVec.toInt_eq_toNat_cond, BitVec.toInt_eq_toNat_cond]
    split_ifs <;> omega

/-- On different sides the comparison goes the other way, or overflows. -/
theorem sub64_of_side {a : BitVec 64} (h : ¬ SameSide a t) :
    sub64 t a = .fault ∨ ∃ d : ℤ, sub64 t a = .ret d true ∧ (d < 0 ↔ a < t) := by
  have hlt : a < t ↔ a.toNat < t.toNat := Iff.rfl
  have := t.isLt
  have := a.isLt
  rw [SameSide] at h
  rw [sub64]
  by_cases hover : t.toInt - a.toInt < -2 ^ 63 ∨ 2 ^ 63 ≤ t.toInt - a.toInt
  · exact .inl (if_pos hover)
  · refine .inr ⟨t.toInt - a.toInt, if_neg hover, ?_⟩
    rw [hlt, BitVec.toInt_eq_toNat_cond, BitVec.toInt_eq_toNat_cond]
    split_ifs <;> omega

/-- **The ticks that a pass has to compare**, those that are not newer and the oldest that is, are on the
side of the tick it is given. -/
def Comparable (t : BitVec 64) (τ : ℕ → BitVec 64) (l : List ℕ) : Prop :=
  ∀ i ∈ l, (τ i ≤ t ∨ ∀ j ∈ l, t < τ j → τ i ≤ τ j) → SameSide (τ i) t

theorem passed_append {l₁ l₂ : List ℕ} (h : ∀ i ∈ l₁, SameSide (τ i) t ∧ τ i ≤ t) :
    passed t τ (l₁ ++ l₂) = (passed t τ l₂).map (l₁ ++ ·) := by
  induction l₁ with
  | nil => cases h : passed t τ l₂ <;> simp [h]
  | cons i l₁ ih =>
    obtain ⟨hi, hl⟩ := forall_mem_cons.1 h
    obtain ⟨d, hsub, hd⟩ := sub64_of_le hi.1 hi.2
    rw [cons_append, passed, hsub, ih hl]
    dsimp only
    rw [if_neg hd, Option.map_map]
    rfl

/-- In the order of the ticks, those that are not newer come first. -/
theorem exists_below (hsorted : l.Pairwise fun i j => τ i ≤ τ j) :
    ∃ newer, l = notNewer t τ l ++ newer ∧ ∀ i ∈ newer, t < τ i := by
  induction l with
  | nil => exact ⟨[], rfl, forall_mem_nil _⟩
  | cons i l ih =>
    obtain ⟨hle, hsorted⟩ := pairwise_cons.1 hsorted
    by_cases hi : τ i ≤ t
    · obtain ⟨newer, hl, hnewer⟩ := ih hsorted
      refine ⟨newer, ?_, hnewer⟩
      rw [notNewer, filter_cons_of_pos (by simpa using hi), cons_append]
      exact congrArg (i :: ·) hl
    · have hall : ∀ j ∈ i :: l, t < τ j := by
        refine forall_mem_cons.2 ⟨BitVec.not_le.1 hi, fun j hj => ?_⟩
        exact Nat.lt_of_lt_of_le (BitVec.not_le.1 hi) (hle j hj)
      refine ⟨i :: l, ?_, hall⟩
      rw [notNewer, filter_eq_nil_iff.2 fun j hj => by simpa using hall j hj]
      rfl

/-- A pass that can compare the ticks goes through the items that are not newer. -/
theorem Comparable.passed_eq (hsorted : l.Pairwise fun i j => τ i ≤ τ j) (h : Comparable t τ l) :
    passed t τ l = some (notNewer t τ l) := by
  obtain ⟨newer, hl, hnewer⟩ := exists_below (t := t) hsorted
  have hbelow : ∀ i ∈ notNewer t τ l, SameSide (τ i) t ∧ τ i ≤ t := by
    intro i hi
    obtain ⟨hmem, hle⟩ := mem_filter.1 hi
    exact ⟨h i hmem (.inl (of_decide_eq_true hle)), of_decide_eq_true hle⟩
  cases newer with
  | nil =>
    rw [append_nil] at hl
    conv_lhs => rw [hl, ← append_nil (notNewer t τ l), passed_append hbelow]
    rw [passed, map_some, append_nil]
  | cons i newer =>
    have hi : i ∈ l := by
      rw [hl]
      exact mem_append_right _ mem_cons_self
    have hoccurs := hsorted
    rw [hl] at hoccurs
    obtain ⟨hfirst, -⟩ := pairwise_cons.1 (pairwise_append.1 hoccurs).2.1
    have hside : SameSide (τ i) t := h i hi (.inr fun j hj hlt => by
      rw [hl] at hj
      rcases mem_append.1 hj with hj | hj
      · exact absurd (hbelow j hj).2 (BitVec.not_le.2 hlt)
      · rcases mem_cons.1 hj with rfl | hj
        · exact BitVec.le_refl _
        · exact hfirst j hj)
    obtain ⟨d, hsub, hd⟩ := sub64_of_lt hside (hnewer i mem_cons_self)
    conv_lhs => rw [hl, passed_append hbelow, passed, hsub]
    dsimp only
    rw [if_pos hd, map_some, append_nil]

/-- A pass that goes through items that are not newer only, and through one if there is one, can compare
the ticks. -/
theorem comparable_of_passed {visited : List ℕ} (hsorted : l.Pairwise fun i j => τ i ≤ τ j)
    (h : passed t τ l = some visited) (hsub : visited ⊆ notNewer t τ l) (hne : notNewer t τ l ≠ [] → visited ≠ []) :
    Comparable t τ l := by
  intro i hi hleast
  by_contra hnot
  have hti := t.isLt
  have hlt : ∀ a b : BitVec 64, a < b ↔ a.toNat < b.toNat := fun _ _ => Iff.rfl
  by_cases hbefore : τ i < t
  · -- the first item is on the side of the older ticks as well, and nothing is passed
    cases l with
    | nil => exact not_mem_nil hi
    | cons i₀ l =>
      have hle : τ i₀ ≤ τ i := by
        rcases mem_cons.1 hi with rfl | hi
        · exact BitVec.le_refl _
        · exact (pairwise_cons.1 hsorted).1 i hi
      have hle' : (τ i₀).toNat ≤ (τ i).toNat := hle
      rw [hlt] at hbefore
      have hnot₀ : ¬ SameSide (τ i₀) t := by
        rw [SameSide] at hnot ⊢
        omega
      have hbelow₀ : τ i₀ ≤ t := show (τ i₀).toNat ≤ t.toNat by omega
      have hne₀ : notNewer t τ (i₀ :: l) ≠ [] :=
        ne_nil_of_mem (mem_filter.2 ⟨mem_cons_self, decide_eq_true hbelow₀⟩)
      rcases sub64_of_side hnot₀ with hfault | ⟨d, hd, hneg⟩
      · rw [passed, hfault] at h
        cases h
      · rw [passed, hd] at h
        dsimp only at h
        rw [if_pos (hneg.2 ((hlt _ _).2 (by omega))), Option.some.injEq] at h
        exact hne hne₀ h.symm
  · -- the oldest of the newer items is on the other side, and it is passed
    have hafter : t < τ i := by
      rw [hlt] at hbefore ⊢
      rw [SameSide] at hnot
      omega
    have hall := hleast.resolve_left (BitVec.not_le.2 hafter)
    obtain ⟨newer, hl, hnewer⟩ := exists_below (t := t) hsorted
    have hlow : t.toNat < 2 ^ 63 := by
      rw [hlt] at hafter
      rw [SameSide] at hnot
      omega
    have hbelow : ∀ j ∈ notNewer t τ l, SameSide (τ j) t ∧ τ j ≤ t := by
      intro j hj
      have hle := of_decide_eq_true (mem_filter.1 hj).2
      have hle' : (τ j).toNat ≤ t.toNat := hle
      exact ⟨iff_of_true (by omega) hlow, hle⟩
    cases newer with
    | nil =>
      rw [append_nil] at hl
      rw [hl] at hi
      exact BitVec.not_le.2 hafter (hbelow i hi).2
    | cons a newer =>
      have hta := hnewer a mem_cons_self
      have hia : (τ i).toNat ≤ (τ a).toNat := hall a (hl ▸ mem_append_right _ mem_cons_self) hta
      have hnota : ¬ SameSide (τ a) t := by
        rw [SameSide] at hnot ⊢
        omega
      rw [hl, passed_append hbelow, passed] at h
      rcases sub64_of_side hnota with hfault | ⟨d, hd, hneg⟩
      · rw [hfault] at h
        cases h
      · have hpos : ¬ d < 0 := fun hd => BitVec.not_le.2 hta (BitVec.le_of_lt (hneg.1 hd))
        rw [hd] at h
        dsimp only at h
        rw [if_neg hpos, Option.map_map, Option.map_eq_some_iff] at h
        obtain ⟨rest, -, rfl⟩ := h
        have hmem : a ∈ notNewer t τ l := hsub (mem_append_right _ mem_cons_self)
        exact BitVec.not_le.2 hta (hbelow a hmem).2

/-- **The items a function should be called on**: all of them, up to the first one for which it returns
`true` when it returns `bool`. -/
def shouldVisit (func : Func σ ObjectType) (ω : ℕ → ObjectType) : σ → List ℕ → List ℕ
  | _, [] => []
  | carried, i :: l => i ::
    if func.result = .bool ∧ (func.call carried (ω i)).2.returned = true then []
    else shouldVisit func ω (func.call carried (ω i)).1 l

/-- When it returns `bool`, it returns `true` for the last item at most. -/
def StopsAtLast (func : Func σ ObjectType) (ω : ℕ → ObjectType) : σ → List ℕ → Prop
  | _, [] => True
  | carried, i :: l => (func.result = .bool ∧ (func.call carried (ω i)).2.returned = true → l = []) ∧
    StopsAtLast func ω (func.call carried (ω i)).1 l

theorem shouldVisit_subset : shouldVisit func ω carried l ⊆ l := by
  induction l generalizing carried with
  | nil => exact List.Subset.refl _
  | cons i l ih =>
    rw [shouldVisit]
    refine cons_subset_cons i ?_
    split_ifs
    · exact nil_subset _
    · exact ih

theorem shouldVisit_ne_nil (h : l ≠ []) : shouldVisit func ω carried l ≠ [] := by
  cases l with
  | nil => exact absurd rfl h
  | cons i l => exact cons_ne_nil _ _

theorem shouldVisit_eq_iff : shouldVisit func ω carried l = l ↔ StopsAtLast func ω carried l := by
  induction l generalizing carried with
  | nil => exact iff_of_true rfl trivial
  | cons i l ih =>
    rw [shouldVisit, StopsAtLast, cons_inj_right]
    split_ifs with hstop
    · refine ⟨?_, fun h => (h.1 hstop).symm⟩
      rintro rfl
      exact ⟨fun _ => rfl, trivial⟩
    · rw [ih]
      exact ⟨fun h => ⟨fun hstop' => absurd hstop' hstop, h⟩, fun h => h.2⟩

/-- **The loop**, from an item on: it goes through what is passed, whatever the function frees. -/
theorem forEachFrom_iff {rest kept : List ℕ} {rounds : ℕ} {p : Pass σ ObjectType} {E : List ℕ}
    (h : Holds p.cache live now (kept ++ rest)) (hrounds : rest.length ≤ rounds)
    (hτ : ∀ i ∈ rest, (p.cache.itemPool i).tick = τ i) :
    wp (forEachFrom t func rounds rest.head? p) (fun p' _ => p'.visited = E) ↔
      ∃ visited, passed t τ rest = some visited ∧ E = p.visited ++ visited := by
  induction rest generalizing rounds p kept live with
  | nil =>
    rw [head?_nil, forEachFrom, passed, pure_eq, wp_ret]
    simp [eq_comm]
  | cons i rest ih =>
    cases rounds with
    | zero => exact absurd hrounds (Nat.not_succ_le_zero _)
    | succ rounds =>
      rw [head?_cons, forEachFrom, passed, hτ i mem_cons_self, wp_bind]
      cases hsub : sub64 t (τ i) with
      | fault =>
        rw [wp_fault]
        exact iff_of_false id fun hpassed => by
          obtain ⟨_, hnone, -⟩ := hpassed
          cases hnone
      | ret d held =>
        rw [wp_ret]
        dsimp only
        by_cases hneg : d < 0
        · rw [if_pos hneg, if_pos hneg, pure_eq, wp_ret]
          simp [eq_comm]
        · have hstop : ¬ (returnsBool func = true ∧ (func.call p.carried (p.cache.itemPool i).obj).2.returned = true) := by
            rw [returnsBool_eq]
            exact fun hstop => Bool.false_ne_true hstop.1
          have hnext : (p.cache.itemPool i).next = rest.head? := h.linked.next_eq
          rw [if_neg hneg, if_neg hneg, if_neg hstop, hnext]
          have hcache : ∃ live' kept', Holds (if (func.call p.carried (p.cache.itemPool i).obj).2.free
              then p.cache.free i else p.cache) live' now (kept' ++ rest) ∧ ∀ k ∈ rest,
              ((if (func.call p.carried (p.cache.itemPool i).obj).2.free then p.cache.free i
                else p.cache).itemPool k).tick = τ k := by
            split_ifs
            · exact ⟨_, kept, h.free, fun k hk => (tick_free p.cache i k).trans
                (hτ k (mem_cons_of_mem _ hk))⟩
            · refine ⟨live, kept ++ [i], ?_, fun k hk => hτ k (mem_cons_of_mem _ hk)⟩
              rwa [append_assoc, singleton_append]
          obtain ⟨live', kept', hcache, hticks⟩ := hcache
          refine (ih (p := ⟨_, _, p.visited ++ [i]⟩) hcache (Nat.le_of_succ_le_succ hrounds) hticks).trans ?_
          cases passed t τ rest <;> simp [append_assoc]

theorem Holds.length_le (h : Holds c live now l) : l.length ≤ c.poolSize := by
  have hlength := h.pool.length_eq
  rw [length_append, length_range] at hlength
  omega

/-- A pass visits the items that should be visited exactly if it can compare the ticks and no call before
the last one returns `true`. -/
theorem Holds.pass_iff (h : Holds c live now l) (t : BitVec 64) (func : Func σ ObjectType) (carried : σ)
    (ω : ℕ → ObjectType) :
    wp (c.forEachItemBelow t func carried)
        (fun p _ => p.visited = shouldVisit func ω carried (notNewer t (fun i => (c.itemPool i).tick) l)) ↔
      Comparable t (fun i => (c.itemPool i).tick) l ∧
        StopsAtLast func ω carried (notNewer t (fun i => (c.itemPool i).tick) l) := by
  have hfirst : c.firstItem = l.head? := h.linked.next_none
  rw [forEachItemBelow, hfirst, forEachFrom_iff (show Holds c live now ([] ++ l) from h) h.length_le fun _ _ => rfl]
  constructor
  · rintro ⟨visited, hpassed, hvisited⟩
    rw [nil_append] at hvisited
    have hcomparable := comparable_of_passed h.sorted hpassed (hvisited ▸ shouldVisit_subset)
      fun hne => hvisited ▸ shouldVisit_ne_nil hne
    rw [hcomparable.passed_eq h.sorted, Option.some.injEq] at hpassed
    exact ⟨hcomparable, shouldVisit_eq_iff.1 (hvisited.trans hpassed.symm)⟩
  · rintro ⟨hcomparable, hstops⟩
    exact ⟨_, hcomparable.passed_eq h.sorted, shouldVisit_eq_iff.2 hstops⟩

/-- **In every cache that can be reached the list holds the live items in the order of their ticks, and
`ForEachItemBelow` calls a function on the items it should, in order, exactly if** the ticks it has to
compare are on the side of the one it is given and the function, when it returns `bool`, returns `true`
for no item but the last one. -/
theorem Reached.visits_iff [Inhabited ObjectType] (h : Reached c live now) (t : BitVec 64)
    (func : Func σ ObjectType) (carried : σ) : ∃ l, Holds c live now l ∧
      (Exec.wp (c.forEachItemBelow t func carried) (fun p _ => p.visited =
          shouldVisit func (fun i => (c.itemPool i).obj) carried (notNewer t (fun i => (c.itemPool i).tick) l)) ↔
        Comparable t (fun i => (c.itemPool i).tick) l ∧
          StopsAtLast func (fun i => (c.itemPool i).obj) carried (notNewer t (fun i => (c.itemPool i).tick) l)) := by
  obtain ⟨l, hl⟩ := h.holds
  exact ⟨l, hl, hl.pass_iff t func carried _⟩

/-- Two items, inserted at the ticks 1 and 2. -/
def twoItems : LeastRecentlyUsedCache ℕ := (((new : LeastRecentlyUsedCache ℕ).insert 5 1).2.insert 6 2).2

/-- What is live in it. -/
def twoLive : ℕ → Option (ℕ × BitVec 64) :=
  Function.update (Function.update (fun _ => none) 0 (some (5, 1))) 1 (some (6, 2))

theorem reached_twoItems : Reached twoItems twoLive 2 :=
  .insert 6 (.insert 5 .new (by decide)) (by decide)

/-- A function that wants to stop at once. -/
def stopAtOnce : Func Unit ℕ := ⟨.bool, fun _ _ => ((), ⟨false, true⟩)⟩

/-- Two items, and a function that stops at the first. -/
theorem visits_twoItems : ∃ l, Holds twoItems twoLive 2 l ∧
    (Exec.wp (twoItems.forEachItemBelow 1 stopAtOnce ()) (fun p _ => p.visited =
        shouldVisit stopAtOnce (fun i => (twoItems.itemPool i).obj) ()
          (notNewer 1 (fun i => (twoItems.itemPool i).tick) l)) ↔
      Comparable 1 (fun i => (twoItems.itemPool i).tick) l ∧
        StopsAtLast stopAtOnce (fun i => (twoItems.itemPool i).obj) ()
          (notNewer 1 (fun i => (twoItems.itemPool i).tick) l)) :=
  Reached.visits_iff reached_twoItems 1 stopAtOnce ()

/-- The function returns `true` for the first of two items and is called on the second one. -/
theorem not_stopped : Reached twoItems twoLive 2 ∧ ∃ l, Holds twoItems twoLive 2 l ∧
    ¬ Exec.wp (twoItems.forEachItemBelow 2 stopAtOnce ()) (fun p _ => p.visited =
      shouldVisit stopAtOnce (fun i => (twoItems.itemPool i).obj) ()
        (notNewer 2 (fun i => (twoItems.itemPool i).tick) l)) := by
  have hfirst := (holds_new.insert (show (0 : BitVec 64) ≤ 1 by decide) 5).2
  have hsecond : Holds twoItems twoLive 2 [0, 1] := (hfirst.insert (show (1 : BitVec 64) ≤ 2 by decide) 6).2
  refine ⟨reached_twoItems, [0, 1], hsecond, ?_⟩
  rw [hsecond.pass_iff]
  exact fun h => absurd (h.2.1 ⟨rfl, rfl⟩) (by decide)

end LeastRecentlyUsedCache
end Common
end NXEmu
