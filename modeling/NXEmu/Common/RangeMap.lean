/-
# The range map

`yuzu_common/range_map.h`: a value for every key, kept as the keys where the value changes in a
`std::map`.  `InternalMap` gives a range of keys a new value.  It reads the value before the range and
the one at its end, erases every entry from the start to the end of the range, both included, and then
puts an entry at the start unless the value before is the new one, and one at the end unless the value
there is.

For an empty range both entries have the same key, and `emplace` does not overwrite: when the new value
is neither the one before the key nor the one at it, the entry that stays is the one for the start, and
every key up to the next entry gets the new value (`Canonical.internalMap_empty`).  Every other call
changes the values of its range and no others and leaves a map in which every entry changes the value and
the last one has the null value (`Canonical.internalMap`), and from such a map the length of a run and the
question whether a range has one value are answered right (`Canonical.exact_of_canonical`).  So a sequence of calls
does what it should exactly when no call maps an empty range to a value that is new there
(`sequence_exact_iff`).

The keys are those of the one map there is, which is over `u64`: `KeyT` is `s64`.
-/

import NXEmu.Lib.ChangePoints
import Mathlib.Algebra.Group.Int.Defs
import Mathlib.Data.List.Chain
import Mathlib.Tactic.Common

namespace NXEmu
namespace Common

open ChangePoints List

/-- `std::numeric_limits<KeyT>::min()`. -/
def minKey : ℤ := -2 ^ 63

/-- `std::numeric_limits<KeyT>::max()`. -/
def maxKey : ℤ := 2 ^ 63 - 1

/-- `RangeMap` -/
structure RangeMap (V : Type) where
  nullValue : V
  container : OrderedMap ℤ V

namespace RangeMap

variable {V : Type}

section Operations

variable [DecidableEq V]

/-- The constructor. -/
def new (nullValue : V) : RangeMap V := ⟨nullValue, OrderedMap.empty.emplace minKey nullValue⟩

variable (m : RangeMap V)

/-- The entries before `lower_bound(address)`. -/
def before (address : ℤ) : List (ℤ × V) := m.container.entries.takeWhile fun e => e.1 < address

/-- The entries from `lower_bound(address)` on. -/
def lowerBound (address : ℤ) : List (ℤ × V) := m.container.entries.dropWhile fun e => e.1 < address

/-- The entries before `upper_bound(address)`. -/
def upTo (address : ℤ) : List (ℤ × V) := m.container.entries.takeWhile fun e => e.1 ≤ address

/-- The entries from `upper_bound(address)` on. -/
def upperBound (address : ℤ) : List (ℤ × V) := m.container.entries.dropWhile fun e => e.1 ≤ address

/-- `GetFirstElementBeforeOrOn`: the entries from the iterator on. -/
def getFirstElementBeforeOrOn (address : ℤ) : List (ℤ × V) :=
  match (m.before address).getLast?, m.lowerBound address with
  | none, it => it
  | some previous, [] => [previous]
  | some previous, e :: it => if e.1 = address then e :: it else previous :: e :: it

/-- `GetFirstValueWithin`.  The map is never empty, so that the last case does not arise. -/
def getFirstValueWithin (address : ℤ) : V :=
  match (m.before address).getLast?, m.lowerBound address with
  | none, e :: _ => e.2
  | some _, [] => m.nullValue
  | some previous, _ :: _ => previous.2
  | none, [] => m.nullValue

/-- `GetLastValueWithin` -/
def getLastValueWithin (address : ℤ) : V :=
  match (m.upTo address).getLast?, m.upperBound address with
  | _, [] => m.nullValue
  | none, e :: _ => e.2
  | some previous, _ :: _ => previous.2

/-- `InternalMap`: the change points from one end to the other give way to those of the new value. -/
def internalMap (address addressEnd : ℤ) (value : V) : RangeMap V :=
  let mustAddStart := m.getFirstValueWithin address ≠ value
  let lastValue := m.getLastValueWithin addressEnd
  let mustAddEnd := lastValue ≠ value
  let container := m.container.eraseThrough address addressEnd
  let container := if mustAddStart then container.emplace address value else container
  let container := if mustAddEnd then container.emplace addressEnd lastValue else container
  { m with container }

/-- `Map`: a range gets a value. -/
def map (address addressEnd : BitVec 64) (value : V) : RangeMap V :=
  let newAddress := address.toInt
  let newAddressEnd := addressEnd.toInt
  let newAddress := if newAddress < 0 then 0 else newAddress
  let newAddressEnd := if newAddressEnd < 0 then 0 else newAddressEnd
  m.internalMap newAddress newAddressEnd value

/-- `Unmap` -/
def unmap (address addressEnd : BitVec 64) : RangeMap V := m.map address addressEnd m.nullValue

/-- `GetValueInternal` -/
def getValueInternal (address : ℤ) : V :=
  match m.getFirstElementBeforeOrOn address with
  | [] => m.nullValue
  | it :: _ => it.2

/-- `GetValueAt`, whose parameter is a `KeyT`. -/
def getValueAt (address : ℤ) : V := if address < 0 then m.nullValue else m.getValueInternal address

/-- `ContinuousSizeInternal`: the bytes from an address to the next change point, none in an unmapped range. -/
def continuousSizeInternal (address : ℤ) : ℕ :=
  match m.getFirstElementBeforeOrOn address with
  | [] => 0
  | it :: rest =>
    if it.2 = m.nullValue then 0
    else match rest with
      | [] => (BitVec.ofInt 64 (maxKey - address)).toNat
      | itEnd :: _ => (BitVec.ofInt 64 (itEnd.1 - address)).toNat

/-- `GetContinuousSizeFrom` -/
def getContinuousSizeFrom (address : BitVec 64) : ℕ :=
  let newAddress := address.toInt
  if newAddress < 0 then 0 else m.continuousSizeInternal newAddress

/-- `IsRangeValue` -/
def isRangeValue (address addressEnd : BitVec 64) (value : V) : Bool :=
  let newAddress := address.toInt
  let newAddressEnd := addressEnd.toInt
  if newAddress < 0 ∨ newAddressEnd < newAddress then false
  else match m.getFirstElementBeforeOrOn newAddress with
    | [] => false
    | it :: rest =>
      if it.2 ≠ value then false
      else match rest with
        | [] => true
        | itEnd :: _ => newAddressEnd ≤ itEnd.1

end Operations

/-! ### What is around a range -/

variable {m : RangeMap V} {a b x : ℤ} {v : V} {l mid r : List (ℤ × V)}

/-- The entries before a range, those from its start to its end, both included, and those behind. -/
structure Around (m : RangeMap V) (a b : ℤ) (l mid r : List (ℤ × V)) : Prop where
  entries : m.container.entries = l ++ (mid ++ r)
  before : ∀ e ∈ l, e.1 < a
  within : ∀ e ∈ mid, a ≤ e.1 ∧ e.1 ≤ b
  behind : ∀ e ∈ r, b < e.1

theorem exists_around (m : RangeMap V) (a b : ℤ) : ∃ l mid r, Around m a b l mid r := by
  obtain ⟨l, r₁, hes, hl, hr₁⟩ := m.container.exists_split (p := fun k => decide (k < a))
    fun k k' hlt hk' => decide_eq_true (hlt.trans (of_decide_eq_true hk'))
  have hsorted : r₁.Pairwise fun e e' => e.1 < e'.1 := by
    have hsorted := m.container.sorted
    rw [hes] at hsorted
    exact (pairwise_append.1 hsorted).2.1
  obtain ⟨mid, r, hr, hmid, hbehind⟩ := (OrderedMap.mk r₁ hsorted).exists_split (p := fun k => decide (k ≤ b))
    fun k k' hlt hk' => decide_eq_true (hlt.le.trans (of_decide_eq_true hk'))
  have hr : r₁ = mid ++ r := hr
  refine ⟨l, mid, r, hr ▸ hes, fun e he => of_decide_eq_true (hl e he), fun e he => ⟨?_, ?_⟩, fun e he => ?_⟩
  · exact not_lt.1 (of_decide_eq_false (hr₁ e (hr ▸ mem_append_left _ he)))
  · exact of_decide_eq_true (hmid e he)
  · exact not_le.1 (of_decide_eq_false (hbehind e he))

namespace Around

variable (h : Around m a b l mid r)
include h

theorem notLess (hle : a ≤ b) : ∀ e ∈ mid ++ r, a ≤ e.1 := by
  intro e he
  rcases mem_append.1 he with he | he
  · exact (h.within e he).1
  · exact hle.trans (h.behind e he).le

theorem lookups (hle : a ≤ b) : m.before a = l ∧ m.lowerBound a = mid ++ r ∧ m.upTo b = l ++ mid ∧
    m.upperBound b = r := by
  have hlow := OrderedMap.takeWhile_split (p := fun e : ℤ × V => decide (e.1 < a)) (l := l) (r := mid ++ r)
    (fun e he => decide_eq_true (h.before e he)) fun e he => decide_eq_false (h.notLess hle e he).not_gt
  have hhigh := OrderedMap.takeWhile_split (p := fun e : ℤ × V => decide (e.1 ≤ b)) (l := l ++ mid) (r := r)
    (fun e he => decide_eq_true ((mem_append.1 he).elim (fun he => (h.before e he).le.trans hle)
      fun he => (h.within e he).2))
    fun e he => decide_eq_false (h.behind e he).not_ge
  rw [append_assoc] at hhigh
  rw [RangeMap.before, lowerBound, upTo, upperBound, h.entries]
  exact ⟨hlow.1, hlow.2, hhigh.1, hhigh.2⟩

theorem eraseThrough_entries : (m.container.eraseThrough a b).entries = l ++ r := by
  show m.container.entries.filter _ = _
  rw [h.entries, filter_append, filter_append]
  have hl : l.filter (fun e => ¬ (a ≤ e.1 ∧ e.1 ≤ b)) = l := by
    refine filter_eq_self.2 fun e he => decide_eq_true fun hin => ?_
    exact (h.before e he).not_ge hin.1
  have hmid : mid.filter (fun e => ¬ (a ≤ e.1 ∧ e.1 ≤ b)) = [] := by
    refine filter_eq_nil_iff.2 fun e he => ?_
    rw [decide_eq_true_eq, not_not]
    exact h.within e he
  have hr : r.filter (fun e => ¬ (a ≤ e.1 ∧ e.1 ≤ b)) = r := by
    refine filter_eq_self.2 fun e he => decide_eq_true fun hin => ?_
    exact (h.behind e he).not_ge hin.2
  rw [hl, hmid, hr, nil_append]

end Around

/-! ### The function a map stands for -/

/-- **The canonical form**: an entry for all negative keys, every entry changes the value, and the last
one has the null value. -/
structure Canonical (m : RangeMap V) : Prop where
  first : ∃ es, m.container.entries = (minKey, m.nullValue) :: es ∧ ∀ e ∈ es, 0 ≤ e.1 ∧ e.1 ≤ maxKey
  changes : m.container.entries.IsChain fun e e' => e.2 ≠ e'.2
  last : ∃ es k, m.container.entries = es ++ [(k, m.nullValue)]

theorem canonical_new (nullValue : V) : Canonical (new nullValue) :=
  ⟨⟨[], rfl, forall_mem_nil _⟩, List.IsChain.singleton _, [], minKey, rfl⟩

theorem Canonical.lastValue_eq (h : Canonical m) : lastValue m.nullValue m.container.entries = m.nullValue := by
  obtain ⟨es, k, hes⟩ := h.last
  rw [hes, lastValue_append, lastValue_cons, lastValue_nil]

theorem Canonical.le_maxKey (h : Canonical m) : ∀ e ∈ m.container.entries, e.1 ≤ maxKey := by
  obtain ⟨es, hes, hkeys⟩ := h.first
  rw [hes]
  exact forall_mem_cons.2 ⟨show minKey ≤ maxKey by decide, fun e he => (hkeys e he).2⟩

variable {es : List (ℤ × V)} {e : ℤ × V}

theorem Canonical.reduced (h : Canonical m)
    (hes : m.container.entries = (minKey, m.nullValue) :: es) : Reduced m.nullValue es := by
  have hchanges := h.changes
  rwa [hes, isChain_iff_reduced] at hchanges

/-- The entry for the negative keys stands before every range. -/
theorem Around.root (haround : Around m a b l mid r) (ha : 0 ≤ a) (hle : a ≤ b)
    (hes : m.container.entries = (minKey, m.nullValue) :: es) :
    ∃ l', l = (minKey, m.nullValue) :: l' ∧ es = l' ++ (mid ++ r) := by
  have hentries := haround.entries
  rw [hes] at hentries
  cases l with
  | nil =>
    have hmem : (minKey, m.nullValue) ∈ mid ++ r := by
      rw [← nil_append (mid ++ r), ← hentries]
      exact mem_cons_self
    have hlow : a ≤ minKey := haround.notLess hle _ hmem
    rw [minKey] at hlow
    omega
  | cons e l' =>
    obtain ⟨he, hes'⟩ := cons.inj hentries
    exact ⟨l', he ▸ rfl, hes'⟩

/-- What the map answers comes from the last entry that is not behind a key. -/
theorem getFirstElementBeforeOrOn_eq (hes : m.container.entries = l ++ e :: r) (he : e.1 ≤ x)
    (hr : ∀ e' ∈ r, x < e'.1) : m.getFirstElementBeforeOrOn x = e :: r := by
  have hsorted := m.container.sorted
  rw [hes, pairwise_append] at hsorted
  have hl : ∀ e' ∈ l, e'.1 < e.1 := fun e' he' => hsorted.2.2 e' he' e mem_cons_self
  rcases he.lt_or_eq with hlt | rfl
  · have hsplit := OrderedMap.takeWhile_split (p := fun e' : ℤ × V => decide (e'.1 < x)) (l := l ++ [e]) (r := r)
      (fun e' he' => decide_eq_true ((mem_append.1 he').elim (fun he' => (hl e' he').trans hlt)
        fun he' => mem_singleton.1 he' ▸ hlt))
      fun e' he' => decide_eq_false (hr e' he').not_gt
    rw [append_assoc, singleton_append] at hsplit
    rw [getFirstElementBeforeOrOn, before, lowerBound, hes, hsplit.1, hsplit.2, getLast?_concat]
    cases r with
    | nil => rfl
    | cons e' r =>
      show (if e'.1 = x then _ else _) = _
      rw [if_neg (hr e' mem_cons_self).ne']
  · have hsplit := OrderedMap.takeWhile_split (p := fun e' : ℤ × V => decide (e'.1 < e.1)) (l := l)
      (r := e :: r) (fun e' he' => decide_eq_true (hl e' he')) fun e' he' => decide_eq_false (by
        rcases mem_cons.1 he' with rfl | he'
        · exact lt_irrefl _
        · exact (hr e' he').not_gt)
    rw [getFirstElementBeforeOrOn, before, lowerBound, hes, hsplit.1, hsplit.2]
    cases l.getLast? with
    | none => rfl
    | some previous => exact if_pos rfl

/-- Where the entry that holds a key is. -/
theorem exists_entry (hes : m.container.entries = (minKey, m.nullValue) :: es)
    (hx : 0 ≤ x) : ∃ l e r, m.container.entries = l ++ e :: r ∧ e.1 ≤ x ∧ ∀ e' ∈ r, x < e'.1 := by
  obtain ⟨l, r, hsplit, hl, hr⟩ := m.container.exists_split (p := fun k => decide (k ≤ x))
    fun k k' hlt hk' => decide_eq_true (hlt.le.trans (of_decide_eq_true hk'))
  have hr' : ∀ e' ∈ r, x < e'.1 := fun e' he' => not_le.1 (of_decide_eq_false (hr e' he'))
  rcases eq_nil_or_concat l with rfl | ⟨l, e, rfl⟩
  · have hmem : (minKey, m.nullValue) ∈ r := by
      rw [← nil_append r, ← hsplit, hes]
      exact mem_cons_self
    have hlt : x < minKey := hr' _ hmem
    rw [minKey] at hlt
    omega
  · refine ⟨l, e, r, ?_, of_decide_eq_true (hl e (by simp)), hr'⟩
    rw [hsplit, concat_eq_append, append_assoc, singleton_append]

theorem getValueAt_of_entry (hes : m.container.entries = l ++ e :: r) (hx : 0 ≤ x)
    (he : e.1 ≤ x) (hr : ∀ e' ∈ r, x < e'.1) : m.getValueAt x = e.2 := by
  rw [getValueAt, if_neg hx.not_gt, getValueInternal, getFirstElementBeforeOrOn_eq hes he hr]

/-- **The map stands for the function with its entries as change points.** -/
theorem getValueAt_eq (hes : m.container.entries = (minKey, m.nullValue) :: es)
    (hx : 0 ≤ x) : m.getValueAt x = valueAt m.nullValue m.container.entries x := by
  obtain ⟨l, e, r, hsplit, he, hr⟩ := exists_entry hes hx
  have hsorted := m.container.sorted
  rw [hsplit, pairwise_append] at hsorted
  have hle : ∀ e' ∈ l ++ [e], e'.1 ≤ x := by
    intro e' he'
    rcases mem_append.1 he' with he' | he'
    · exact (hsorted.2.2 e' he' e mem_cons_self).le.trans he
    · exact mem_singleton.1 he' ▸ he
  rw [getValueAt_of_entry hsplit hx he hr, hsplit, ← singleton_append, ← append_assoc,
    valueAt_append_of_lt hle hr, lastValue_append, lastValue_cons, lastValue_nil]

section

variable (h : Canonical m) (haround : Around m a b l mid r) (ha : 0 ≤ a) (hle : a ≤ b)

include h haround ha hle

/-- The values that a call reads are those before its range and at its end. -/
theorem Canonical.getFirstValueWithin_eq : m.getFirstValueWithin a = lastValue m.nullValue l := by
  obtain ⟨es, hes, -⟩ := h.first
  obtain ⟨l', rfl, -⟩ := haround.root ha hle hes
  obtain ⟨hbefore, hlow, -⟩ := haround.lookups hle
  obtain ⟨last, hlast⟩ : ∃ last, ((minKey, m.nullValue) :: l').getLast? = some last :=
    ⟨_, getLast?_eq_some_getLast (cons_ne_nil _ _)⟩
  rw [getFirstValueWithin, hbefore, hlow, hlast, lastValue_of_getLast? hlast]
  cases hrest : mid ++ r with
  | nil =>
    have hnull := h.lastValue_eq
    rw [haround.entries, hrest, append_nil, lastValue_of_getLast? hlast] at hnull
    exact hnull.symm
  | cons e es => rfl

theorem Canonical.getLastValueWithin_eq : m.getLastValueWithin b = lastValue (lastValue m.nullValue l) mid := by
  obtain ⟨es, hes, -⟩ := h.first
  obtain ⟨l', rfl, -⟩ := haround.root ha hle hes
  obtain ⟨-, -, hupTo, hup⟩ := haround.lookups hle
  obtain ⟨last, hlast⟩ : ∃ last, ((minKey, m.nullValue) :: l' ++ mid).getLast? = some last :=
    ⟨_, getLast?_eq_some_getLast (cons_ne_nil _ _)⟩
  rw [getLastValueWithin, hupTo, hup, hlast, ← lastValue_append, lastValue_of_getLast? hlast]
  cases r with
  | nil =>
    have hnull := h.lastValue_eq
    rw [haround.entries, append_nil, lastValue_of_getLast? hlast] at hnull
    exact hnull.symm
  | cons e es => rfl

/-- In terms of what the map stands for: the value just before a range, and the one at its end. -/
theorem Canonical.lastValue_before : lastValue m.nullValue l = m.getValueAt (a - 1) := by
  obtain ⟨es, hes, hkeys⟩ := h.first
  rcases ha.lt_or_eq with hpos | rfl
  · rw [getValueAt_eq hes (by omega), haround.entries, valueAt_append_of_lt]
    · intro e he
      have := haround.before e he
      omega
    · intro e he
      have := haround.notLess hle e he
      omega
  · obtain ⟨l', rfl, rfl⟩ := haround.root le_rfl hle hes
    have hnil : l' = [] := eq_nil_iff_forall_not_mem.2 fun e he => by
      have hlow := (hkeys e (mem_append_left _ he)).1
      have hlt := haround.before e (mem_cons_of_mem _ he)
      omega
    rw [hnil, getValueAt, if_pos (by decide), lastValue_cons, lastValue_nil]

theorem Canonical.lastValue_through : lastValue (lastValue m.nullValue l) mid = m.getValueAt b := by
  obtain ⟨es, hes, -⟩ := h.first
  rw [getValueAt_eq hes (ha.trans hle), haround.entries, ← append_assoc, valueAt_append_of_lt, lastValue_append]
  · intro e he
    rcases mem_append.1 he with he | he
    · exact (haround.before e he).le.trans hle
    · exact (haround.within e he).2
  · exact haround.behind

end

/-- The last entry goes on for ever. -/
theorem Canonical.last_eq (h : Canonical m) (hes : m.container.entries = l ++ [e]) :
    e.2 = m.nullValue := by
  have hlast := h.lastValue_eq
  rwa [hes, lastValue_append, lastValue_cons, lastValue_nil] at hlast

/-- The value of an entry that is not the last one ends where the next one begins, and is not its value. -/
theorem Canonical.next (h : Canonical m) {e e' : ℤ × V} (hes : m.container.entries = l ++ e :: e' :: r)
    (hx : 0 ≤ x) (he : e.1 ≤ x) (hx' : x < e'.1) :
    (∀ y, x ≤ y → y < e'.1 → m.getValueAt y = e.2) ∧ m.getValueAt e'.1 ≠ e.2 := by
  have hsorted := m.container.sorted
  have hchanges := h.changes
  rw [hes, pairwise_append, pairwise_cons, pairwise_cons] at hsorted
  rw [hes, isChain_append_cons_cons] at hchanges
  have hr : ∀ e'' ∈ r, e'.1 < e''.1 := hsorted.2.1.2.1
  refine ⟨fun y hxy hy => ?_, ?_⟩
  · refine getValueAt_of_entry hes (hx.trans hxy) (he.trans hxy) fun e'' he'' => ?_
    rcases mem_cons.1 he'' with rfl | he''
    · exact hy
    · exact hy.trans (hr e'' he'')
  · have hes' : m.container.entries = (l ++ [e]) ++ e' :: r := by
      rw [hes, append_assoc, singleton_append]
    rw [getValueAt_of_entry hes' (hx.trans hx'.le) le_rfl hr]
    exact hchanges.2.1.symm

section Calls

variable [DecidableEq V]

/-! ### The entries a call writes -/

/-- The entries for the start and the end of a range, given the value before it and the one at its end:
with equal keys the first one stays. -/
def written (p q v : V) (a b : ℤ) : List (ℤ × V) :=
  (if p ≠ v then [(a, v)] else []) ++ if q ≠ v ∧ ¬ (a = b ∧ p ≠ v) then [(b, q)] else []

section

variable {p q v : V} {a b x : ℤ} {r : List (ℤ × V)}

theorem mem_written (he : e ∈ written p q v a b) : e.1 = a ∨ e.1 = b := by
  rw [written, mem_append] at he
  rcases he with he | he <;> split_ifs at he
  · exact .inl (congrArg Prod.fst (mem_singleton.1 he))
  · exact absurd he not_mem_nil
  · exact .inr (congrArg Prod.fst (mem_singleton.1 he))
  · exact absurd he not_mem_nil

/-- Behind a range the value is the old one, unless it is empty and the new value is new there. -/
theorem lastValue_written (h : ¬ (a = b ∧ p ≠ v ∧ q ≠ v)) : lastValue p (written p q v a b) = q := by
  rw [written]
  by_cases hp : p = v <;> by_cases hq : q = v
  · simp [hp, hq]
  · simp [hp, hq]
  · simp [hp, hq]
  · have hne : a ≠ b := fun heq => h ⟨heq, hp, hq⟩
    simp [hp, hq, hne]

theorem reduced_written : Reduced p (written p q v a b) := by
  rw [written]
  by_cases hp : p = v
  · by_cases hq : q = v <;> simp [hp, hq]
  · have hv : v ≠ p := Ne.symm hp
    by_cases hq : q = v <;> by_cases hab : a = b <;> simp [hp, hq, hab, hv]

theorem valueAt_written (ha : a ≤ x) (hb : x < b) (hr : ∀ e ∈ r, b < e.1) :
    valueAt p (written p q v a b ++ r) x = v := by
  have htail : ∀ e ∈ (if q ≠ v ∧ ¬ (a = b ∧ p ≠ v) then [(b, q)] else []) ++ r, x < e.1 := by
    intro e he
    rcases mem_append.1 he with he | he
    · split_ifs at he
      · rw [mem_singleton.1 he]
        exact hb
      · exact absurd he not_mem_nil
    · exact hb.trans (hr e he)
  rw [written, append_assoc]
  by_cases hp : p = v
  · rw [if_neg (not_not.2 hp), nil_append, valueAt_of_lt htail, hp]
  · rw [if_pos hp, singleton_append, valueAt, if_pos ha, valueAt_of_lt htail]

end

/-- What stands between the entries before a range and those behind after a call. -/
theorem Around.internalMap_entries (h : Around m a b l mid r) (hle : a ≤ b) (v : V) : (m.internalMap a b v).container.entries =
    l ++ (written (m.getFirstValueWithin a) (m.getLastValueWithin b) v a b ++ r) := by
  have hra : ∀ e ∈ r, a < e.1 := fun e he => hle.trans_lt (h.behind e he)
  have herase := h.eraseThrough_entries
  have hstart : ∀ c : OrderedMap ℤ V, c.entries = l ++ r → (c.emplace a v).entries = l ++ ((a, v) :: r) := by
    intro c hc
    show OrderedMap.emplaceEntry a v c.entries = _
    rw [hc, OrderedMap.emplaceEntry_append h.before, OrderedMap.emplaceEntry_of_lt hra]
  rw [internalMap, written]
  by_cases hp : m.getFirstValueWithin a ≠ v <;> by_cases hq : m.getLastValueWithin b ≠ v
  · rw [if_pos hp, if_pos hp, if_pos hq]
    show OrderedMap.emplaceEntry b _ _ = _
    rw [hstart _ herase, OrderedMap.emplaceEntry_append fun e he => (h.before e he).trans_le hle]
    rcases hle.lt_or_eq with hlt | rfl
    · rw [if_pos ⟨hq, fun heq => hlt.ne heq.1⟩, OrderedMap.emplaceEntry, if_pos hlt,
        OrderedMap.emplaceEntry_of_lt h.behind]
      rfl
    · rw [if_neg fun hboth => hboth.2 ⟨rfl, hp⟩, OrderedMap.emplaceEntry, if_neg (lt_irrefl _), if_neg (lt_irrefl _)]
      rfl
  · rw [if_pos hp, if_pos hp, if_neg hq, if_neg fun hboth => hq hboth.1]
    exact hstart _ herase
  · rw [if_neg hp, if_neg hp, if_pos hq, if_pos ⟨hq, fun heq => hp heq.2⟩]
    show OrderedMap.emplaceEntry b _ _ = _
    rw [herase, OrderedMap.emplaceEntry_append fun e he => (h.before e he).trans_le hle,
      OrderedMap.emplaceEntry_of_lt h.behind]
    rfl
  · rw [if_neg hp, if_neg hp, if_neg hq, if_neg fun hboth => hq hboth.1]
    exact herase

/-- Whether a call maps an empty range to a value that the map has neither there nor just before. -/
def NewAtEmpty (m : RangeMap V) (a b : ℤ) (v : V) : Prop :=
  a = b ∧ m.getValueAt (a - 1) ≠ v ∧ m.getValueAt b ≠ v

/-- What a call that is no such call does: it changes the values of its range. -/
theorem Canonical.internalMap (h : Canonical m) (ha : 0 ≤ a) (hle : a ≤ b) (hb : b ≤ maxKey)
    (hnew : ¬ NewAtEmpty m a b v) : Canonical (m.internalMap a b v) ∧ ∀ x, 0 ≤ x →
      (m.internalMap a b v).getValueAt x = if a ≤ x ∧ x < b then v else m.getValueAt x := by
  obtain ⟨l, mid, r, haround⟩ := exists_around m a b
  obtain ⟨es, hes, hkeys⟩ := h.first
  have hentries := haround.internalMap_entries hle v
  rw [h.getFirstValueWithin_eq haround ha hle, h.getLastValueWithin_eq haround ha hle] at hentries
  rw [NewAtEmpty, ← h.lastValue_before haround ha hle, ← h.lastValue_through haround ha hle] at hnew
  obtain ⟨l', rfl, rfl⟩ := haround.root ha hle hes
  have hreduced := h.reduced hes
  have hlast := h.lastValue_eq
  rw [hes] at hlast
  rw [lastValue_cons] at hentries hnew
  rw [lastValue_cons, lastValue_append, lastValue_append] at hlast
  rw [reduced_append, reduced_append] at hreduced
  set p := lastValue m.nullValue l'
  set q := lastValue p mid
  have hq : lastValue p (written p q v a b) = q := lastValue_written hnew
  have hwritten : ∀ e ∈ written p q v a b ++ r, a ≤ e.1 := by
    intro e he
    rcases mem_append.1 he with he | he
    · rcases mem_written he with heq | heq <;> omega
    · exact hle.trans (haround.behind e he).le
  refine ⟨⟨⟨l' ++ (written p q v a b ++ r), hentries, fun e he => ?_⟩, ?_, ?_⟩, fun x hx => ?_⟩
  · rcases mem_append.1 he with he | he
    · exact hkeys e (mem_append_left _ he)
    · refine ⟨ha.trans (hwritten e he), ?_⟩
      rcases mem_append.1 he with he | he
      · rcases mem_written he with heq | heq <;> omega
      · exact (hkeys e (mem_append_right _ (mem_append_right _ he))).2
  · rw [hentries, cons_append, isChain_iff_reduced, reduced_append, reduced_append, hq]
    exact ⟨hreduced.1, reduced_written, hreduced.2.2⟩
  · obtain ⟨init, k, hinit⟩ := exists_last (minKey, m.nullValue) (l' ++ (written p q v a b ++ r))
    rw [lastValue_append, lastValue_append, hq, hlast] at hinit
    exact ⟨init, k, hentries.trans hinit⟩
  · have hroot : (m.internalMap a b v).container.entries =
        (minKey, (m.internalMap a b v).nullValue) :: (l' ++ (written p q v a b ++ r)) := hentries
    rw [getValueAt_eq hroot hx, getValueAt_eq hes hx, hentries, haround.entries]
    show valueAt m.nullValue _ x = _
    by_cases hax : a ≤ x
    · have hl : ∀ e ∈ (minKey, m.nullValue) :: l', e.1 ≤ x := fun e he => (haround.before e he).le.trans hax
      rw [valueAt_append hl, valueAt_append hl, lastValue_cons]
      by_cases hxb : x < b
      · rw [if_pos ⟨hax, hxb⟩]
        exact valueAt_written hax hxb haround.behind
      · have hpassed : ∀ e ∈ written p q v a b, e.1 ≤ x := by
          intro e he
          rcases mem_written he with heq | heq <;> omega
        rw [if_neg fun hin => hxb hin.2, valueAt_append hpassed, hq,
          valueAt_append fun e he => (haround.within e he).2.trans (not_lt.1 hxb)]
    · rw [if_neg fun hin => hax hin.1]
      exact valueAt_congr_of_lt (fun e he => (not_le.1 hax).trans_le (hwritten e he))
        fun e he => (not_le.1 hax).trans_le (haround.notLess hle e he)

/-- **An empty range that is not left alone**: the value at its key changes. -/
theorem Canonical.internalMap_empty (h : Canonical m) (ha : 0 ≤ a) (hnew : NewAtEmpty m a b v) :
    (m.internalMap a b v).getValueAt a = v := by
  obtain ⟨rfl, hp, hq⟩ := hnew
  obtain ⟨l, mid, r, haround⟩ := exists_around m a a
  obtain ⟨es, hes, -⟩ := h.first
  have hentries := haround.internalMap_entries le_rfl v
  rw [h.getFirstValueWithin_eq haround ha le_rfl, h.lastValue_before haround ha le_rfl, written, if_pos hp,
    if_neg fun hboth => hboth.2 ⟨rfl, hp⟩, append_nil, singleton_append] at hentries
  exact getValueAt_of_entry hentries ha le_rfl haround.behind

/-! ### The questions a map answers -/

/-- How far the value at a key goes on. -/
def RunLength (m : RangeMap V) (x : ℤ) (n : ℕ) : Prop :=
  (∀ y, x ≤ y → y < x + n → m.getValueAt y = m.getValueAt x) ∧ m.getValueAt (x + n) ≠ m.getValueAt x

/-- **A map that answers right**: it is canonical, and both questions are answered from the function it
stands for. -/
structure Exact (m : RangeMap V) : Prop extends Canonical m where
  size (address : BitVec 64) : 0 ≤ address.toInt →
    if m.getValueAt address.toInt = m.nullValue then m.getContinuousSizeFrom address = 0
    else RunLength m address.toInt (m.getContinuousSizeFrom address)
  range (address addressEnd : BitVec 64) (value : V) : 0 ≤ address.toInt → address.toInt < addressEnd.toInt →
    (m.isRangeValue address addressEnd value = true ↔
      ∀ x, address.toInt ≤ x → x < addressEnd.toInt → m.getValueAt x = value)

theorem Canonical.exact_of_canonical (h : Canonical m) : Exact m := by
  refine { toCanonical := h, size := fun address haddress => ?_, range := fun address addressEnd value ha hlt => ?_ }
  · obtain ⟨es, hes, -⟩ := h.first
    obtain ⟨l, e, r, hsplit, he, hr⟩ := exists_entry hes haddress
    have hvalue := getValueAt_of_entry hsplit haddress he hr
    rw [getContinuousSizeFrom, if_neg haddress.not_gt, continuousSizeInternal,
      getFirstElementBeforeOrOn_eq hsplit he hr, hvalue]
    dsimp only
    split_ifs with hnull
    · rfl
    · cases r with
      | nil => exact absurd (h.last_eq hsplit) hnull
      | cons e' r =>
        have hx' := hr e' mem_cons_self
        obtain ⟨hrun, hne⟩ := h.next hsplit haddress he hx'
        have hbound := h.le_maxKey e' (hsplit ▸ by simp)
        rw [maxKey] at hbound
        have hsub : (BitVec.ofInt 64 (e'.1 - address.toInt)).toNat = (e'.1 - address.toInt).toNat := by
          rw [BitVec.toNat_ofInt, Int.emod_eq_of_lt (by omega) (by omega)]
        have hsum : address.toInt + ((e'.1 - address.toInt).toNat : ℤ) = e'.1 := by omega
        dsimp only
        rw [hsub, RunLength, hsum, hvalue]
        exact ⟨hrun, hne⟩
  · obtain ⟨es, hes, -⟩ := h.first
    obtain ⟨l, e, r, hsplit, he, hr⟩ := exists_entry hes ha
    have hvalue := getValueAt_of_entry hsplit ha he hr
    rw [isRangeValue, if_neg (by omega), getFirstElementBeforeOrOn_eq hsplit he hr]
    dsimp only
    by_cases hv : e.2 = value
    · rw [if_neg (not_not.2 hv)]
      cases r with
      | nil =>
        refine iff_of_true rfl fun x hx _ => ?_
        rw [getValueAt_of_entry hsplit (ha.trans hx) (he.trans hx) (forall_mem_nil _), hv]
      | cons e' r =>
        obtain ⟨hrun, hne⟩ := h.next hsplit ha he (hr e' mem_cons_self)
        rw [decide_eq_true_iff]
        refine ⟨fun hle x hx hxb => (hrun x hx (hxb.trans_le hle)).trans hv, fun hall => ?_⟩
        by_contra hnot
        exact hne ((hall e'.1 (hr e' mem_cons_self).le (not_le.1 hnot)).trans hv.symm)
    · rw [if_pos hv]
      refine iff_of_false Bool.false_ne_true fun hall => hv ?_
      rw [← hvalue, hall _ le_rfl hlt]

/-! ### Sequences of calls -/

theorem map_eq {address addressEnd : BitVec 64} (ha : 0 ≤ address.toInt) (hb : 0 ≤ addressEnd.toInt) :
    m.map address addressEnd v = m.internalMap address.toInt addressEnd.toInt v := by
  rw [map, if_neg ha.not_gt, if_neg hb.not_gt]

/-- A call that changes the map. -/
inductive Call (V : Type) where
  | map (address addressEnd : BitVec 64) (value : V)
  | unmap (address addressEnd : BitVec 64)

namespace Call

variable {c : Call V}

/-- The start of its range. -/
def address : Call V → BitVec 64
  | .map address _ _ => address
  | .unmap address _ => address

/-- The end of its range. -/
def addressEnd : Call V → BitVec 64
  | .map _ addressEnd _ => addressEnd
  | .unmap _ addressEnd => addressEnd

/-- The value its range gets. -/
def value (m : RangeMap V) : Call V → V
  | .map _ _ value => value
  | .unmap _ _ => m.nullValue

/-- The map after it. -/
def exec (m : RangeMap V) : Call V → RangeMap V
  | .map address addressEnd value => m.map address addressEnd value
  | .unmap address addressEnd => m.unmap address addressEnd

/-- A range of keys that are not negative. -/
def Valid (c : Call V) : Prop := 0 ≤ c.address.toInt ∧ c.address.toInt ≤ c.addressEnd.toInt

/-- **What a call should do**: its range gets the value and no other key does. -/
def Updates (m : RangeMap V) (c : Call V) : Prop :=
  ∀ x : ℤ, 0 ≤ x → (c.exec m).getValueAt x =
    if c.address.toInt ≤ x ∧ x < c.addressEnd.toInt then c.value m else m.getValueAt x

/-- **A call that does not map an empty range to a new value**: one neither at its key nor just before. -/
def Harmless (m : RangeMap V) (c : Call V) : Prop :=
  ¬ NewAtEmpty m c.address.toInt c.addressEnd.toInt (c.value m)

theorem exec_eq (hc : c.Valid) :
    c.exec m = m.internalMap c.address.toInt c.addressEnd.toInt (c.value m) := by
  cases c with
  | map address addressEnd value => exact map_eq hc.1 (hc.1.trans hc.2)
  | unmap address addressEnd => exact map_eq hc.1 (hc.1.trans hc.2)

/-- A call leaves a canonical map and does what it should exactly if it is harmless. -/
theorem updates_exact_iff (h : Canonical m) (hc : c.Valid) : Updates m c ∧ Exact (c.exec m) ↔ c.Harmless m := by
  have hb : c.addressEnd.toInt ≤ maxKey := by
    have := BitVec.toInt_lt (x := c.addressEnd)
    rw [maxKey]
    omega
  rw [Updates, exec_eq hc]
  constructor
  · rintro ⟨hupdates, -⟩ hnew
    have hvalue := hupdates _ hc.1
    rw [h.internalMap_empty hc.1 hnew, if_neg (by rw [hnew.1]; exact fun hin => lt_irrefl _ hin.2)] at hvalue
    exact hnew.2.2 (hnew.1 ▸ hvalue.symm)
  · intro hharmless
    obtain ⟨hcanonical, hvalues⟩ := h.internalMap hc.1 hc.2 hb hharmless
    exact ⟨hvalues, hcanonical.exact_of_canonical⟩

end Call

/-- Something holds of every call of a sequence where it is made. -/
def Along (P : RangeMap V → Call V → Prop) : RangeMap V → List (Call V) → Prop
  | _, [] => True
  | m, c :: calls => P m c ∧ Along P (c.exec m) calls

theorem Canonical.along_iff (h : Canonical m) {calls : List (Call V)} (hvalid : ∀ c ∈ calls, c.Valid) :
    Along (fun m c => c.Updates m ∧ Exact (c.exec m)) m calls ↔ Along (fun m c => c.Harmless m) m calls := by
  induction calls generalizing m with
  | nil => exact Iff.rfl
  | cons c calls ih =>
    obtain ⟨hc, hvalid⟩ := forall_mem_cons.1 hvalid
    rw [Along, Along, Call.updates_exact_iff h hc]
    refine and_congr_right fun hharmless => ih ?_ hvalid
    exact ((Call.updates_exact_iff h hc).2 hharmless).2.toCanonical

/-- **A sequence of calls does what it should exactly if no call maps an empty range to a value that is
new there**: then every call changes its range and nothing else, and after each one the entries are in
canonical form, the length of a run is right and so is whether a range has one value. -/
theorem sequence_exact_iff (nullValue : V) (calls : List (Call V)) (hvalid : ∀ c ∈ calls, c.Valid) :
    Along (fun m c => c.Updates m ∧ Exact (c.exec m)) (new nullValue) calls ↔
      Along (fun m c => c.Harmless m) (new nullValue) calls :=
  (canonical_new nullValue).along_iff hvalid

/-- A range is mapped and a part of it unmapped. -/
theorem sequence_exact_iff_two : Along (fun m c => c.Updates m ∧ Exact (c.exec m)) (new 0)
      [Call.map 0 16 5, .unmap 4 8] ↔
    Along (fun m c => c.Harmless m) (new 0) [Call.map 0 16 5, .unmap 4 8] :=
  sequence_exact_iff 0 _ (by simp [Call.Valid, Call.address, Call.addressEnd])

/-- Taking an empty range out of a mapped one takes all that is behind it. -/
theorem empty_unmap_not_exact : ¬ Along (fun m c => c.Updates m ∧ Exact (c.exec m)) (new 0)
    [Call.map 0 16 5, .unmap 8 8] := by
  rintro ⟨-, ⟨hupdates, -⟩, -⟩
  exact absurd (hupdates 8 (by decide)) (by decide)

end Calls

end RangeMap
end Common
end NXEmu
