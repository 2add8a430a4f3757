/-
# Ordered maps

A map whose iterators go through the keys in ascending order is a list of entries with ascending
keys.  Next to lookup (`OrderedMap.find?`) it has what a loop from `lower_bound(lo)` to the first
key that is not below `hi` goes through (`OrderedMap.between`), and the two things such a loop does
to the map: it changes the values it meets or removes them.
-/

import Mathlib.Order.Defs.LinearOrder
import Mathlib.Order.Basic
import Mathlib.Order.Lattice
import Mathlib.Data.List.Basic

namespace NXEmu

open List

/-- Entries in the order of their keys. -/
structure OrderedMap (K V : Type) [LinearOrder K] where
  entries : List (K × V)
  sorted : entries.Pairwise fun e e' => e.1 < e'.1

namespace OrderedMap

variable {K V : Type} [LinearOrder K] {m : OrderedMap K V} {k k' lo hi : K} {v v' : V}
  {e : K × V} {es : List (K × V)}

/-- The map without entries. -/
def empty : OrderedMap K V := ⟨[], .nil⟩

/-- The value of a key. -/
def find? (m : OrderedMap K V) (k : K) : Option V :=
  (m.entries.find? fun e => e.1 = k).map (·.2)

/-- Whether there is a value. -/
def contains (m : OrderedMap K V) (k : K) : Bool := (m.find? k).isSome

theorem find?_eq_some : m.find? k = some v ↔ (k, v) ∈ m.entries := by
  obtain ⟨es, hsorted⟩ := m
  induction es with
  | nil => simp [find?]
  | cons e es ih =>
    obtain ⟨hlt, hsorted⟩ := pairwise_cons.1 hsorted
    have ih := ih hsorted
    rw [find?, mem_cons]
    by_cases hk : e.1 = k
    · -- the keys behind are larger
      have hnot : (k, v) ∉ es := fun hmem => (hlt _ hmem).ne hk
      rw [find?_cons, decide_eq_true hk, Option.map_some, Option.some.injEq]
      refine ⟨fun hv => .inl (Prod.ext hk.symm hv.symm), ?_⟩
      rintro (rfl | hmem)
      · rfl
      · exact absurd hmem hnot
    · rw [find?_cons, decide_eq_false hk]
      refine ih.trans ⟨.inr, ?_⟩
      rintro (rfl | hmem)
      · exact absurd rfl hk
      · exact hmem

/-- A map is given by its lookups. -/
theorem find?_eq_iff {o : Option V} : m.find? k = o ↔ ∀ v, (k, v) ∈ m.entries ↔ o = some v := by
  constructor
  · rintro rfl v
    exact find?_eq_some.symm
  · intro h
    refine Option.ext fun v => ?_
    exact find?_eq_some.trans (h v)

/-! ### Inserting -/

/-- Put an entry at its place, where there is none with its key. -/
def emplaceEntry (k : K) (v : V) : List (K × V) → List (K × V)
  | [] => [(k, v)]
  | e :: es =>
    if e.1 < k then e :: emplaceEntry k v es else if k < e.1 then (k, v) :: e :: es else e :: es

theorem mem_emplaceEntry (hsorted : es.Pairwise fun e e' => e.1 < e'.1) :
    e ∈ emplaceEntry k v es ↔ e ∈ es ∨ e = (k, v) ∧ ∀ e' ∈ es, e'.1 ≠ k := by
  induction es with
  | nil => simp [emplaceEntry]
  | cons f es ih =>
    obtain ⟨hlt, hsorted⟩ := pairwise_cons.1 hsorted
    rw [emplaceEntry]
    rcases lt_trichotomy f.1 k with hk | hk | hk
    · rw [if_pos hk, mem_cons, ih hsorted, mem_cons, forall_mem_cons]
      have := hk.ne
      tauto
    · rw [if_neg hk.not_lt, if_neg hk.symm.not_lt, forall_mem_cons]
      have : f.1 = k := hk
      tauto
    · have hall : ∀ e' ∈ f :: es, e'.1 ≠ k := by
        intro e' he'
        rcases mem_cons.1 he' with rfl | he'
        · exact hk.ne'
        · exact (hk.trans (hlt e' he')).ne'
      rw [if_neg hk.not_gt, if_pos hk, mem_cons]
      tauto

theorem pairwise_emplaceEntry (hsorted : es.Pairwise fun e e' => e.1 < e'.1) :
    (emplaceEntry k v es).Pairwise fun e e' => e.1 < e'.1 := by
  induction es with
  | nil => exact pairwise_singleton _ _
  | cons f es ih =>
    obtain ⟨hlt, hsorted'⟩ := pairwise_cons.1 hsorted
    rw [emplaceEntry]
    by_cases hk : f.1 < k
    · rw [if_pos hk]
      refine pairwise_cons.2 ⟨fun e he => ?_, ih hsorted'⟩
      rcases (mem_emplaceEntry hsorted').1 he with he | ⟨rfl, -⟩
      · exact hlt e he
      · exact hk
    · rw [if_neg hk]
      by_cases hk' : k < f.1
      · rw [if_pos hk']
        refine pairwise_cons.2 ⟨fun e he => ?_, hsorted⟩
        rcases mem_cons.1 he with rfl | he
        · exact hk'
        · exact hk'.trans (hlt e he)
      · rw [if_neg hk']
        exact hsorted

/-- `emplace`: a new value, and nothing where the key has one. -/
def emplace (m : OrderedMap K V) (k : K) (v : V) : OrderedMap K V :=
  ⟨emplaceEntry k v m.entries, pairwise_emplaceEntry m.sorted⟩

theorem find?_emplace (hk : m.find? k = none) :
    (m.emplace k v).find? k' = if k' = k then some v else m.find? k' := by
  have hfree : ∀ e ∈ m.entries, e.1 ≠ k := by
    rintro ⟨k₁, v₁⟩ he rfl
    exact absurd (find?_eq_some.2 he) (by rw [hk]; exact nofun)
  rw [find?_eq_iff]
  intro v'
  show (k', v') ∈ emplaceEntry k v m.entries ↔ _
  rw [mem_emplaceEntry m.sorted]
  by_cases hk' : k' = k
  · subst hk'
    rw [if_pos rfl, Option.some.injEq, Prod.mk.injEq]
    refine ⟨?_, fun hv => .inr ⟨⟨rfl, hv.symm⟩, hfree⟩⟩
    rintro (hmem | ⟨⟨-, rfl⟩, -⟩)
    · exact absurd rfl (hfree _ hmem)
    · rfl
  · rw [if_neg hk', find?_eq_some, Prod.mk.injEq]
    tauto

/-! ### Loops from a lower bound -/

/-- What a loop from `lower_bound(lo)` goes through before it meets a key that is not below `hi`. -/
def between (m : OrderedMap K V) (lo hi : K) : List (K × V) :=
  (m.entries.dropWhile fun e => e.1 < lo).takeWhile fun e => e.1 < hi

theorem mem_dropWhile_lt (hsorted : es.Pairwise fun e e' => e.1 < e'.1) :
    e ∈ es.dropWhile (fun e => e.1 < lo) ↔ e ∈ es ∧ lo ≤ e.1 := by
  induction es with
  | nil => simp
  | cons f es ih =>
    obtain ⟨hlt, hsorted⟩ := pairwise_cons.1 hsorted
    by_cases hf : f.1 < lo
    · rw [dropWhile_cons, if_pos (decide_eq_true hf), ih hsorted, mem_cons]
      refine ⟨fun h => ⟨.inr h.1, h.2⟩, fun h => ⟨h.1.resolve_left ?_, h.2⟩⟩
      rintro rfl
      exact absurd hf h.2.not_gt
    · rw [dropWhile_cons, if_neg (by simpa using hf)]
      refine ⟨fun h => ⟨h, ?_⟩, fun h => h.1⟩
      rcases mem_cons.1 h with rfl | h
      · exact not_lt.1 hf
      · exact (not_lt.1 hf).trans (hlt e h).le

theorem mem_takeWhile_lt (hsorted : es.Pairwise fun e e' => e.1 < e'.1) :
    e ∈ es.takeWhile (fun e => e.1 < hi) ↔ e ∈ es ∧ e.1 < hi := by
  induction es with
  | nil => simp
  | cons f es ih =>
    obtain ⟨hlt, hsorted⟩ := pairwise_cons.1 hsorted
    by_cases hf : f.1 < hi
    · rw [takeWhile_cons, if_pos (decide_eq_true hf), mem_cons, ih hsorted, mem_cons]
      refine ⟨?_, fun h => h.1.imp_right fun hmem => ⟨hmem, h.2⟩⟩
      rintro (rfl | h)
      · exact ⟨.inl rfl, hf⟩
      · exact ⟨.inr h.1, h.2⟩
    · rw [takeWhile_cons, if_neg (by simpa using hf)]
      refine ⟨nofun, fun h => ?_⟩
      rcases mem_cons.1 h.1 with rfl | hmem
      · exact absurd h.2 hf
      · exact absurd ((hlt e hmem).trans h.2) hf

theorem mem_between : e ∈ m.between lo hi ↔ m.find? e.1 = some e.2 ∧ lo ≤ e.1 ∧ e.1 < hi := by
  have hsorted : (m.entries.dropWhile fun e => e.1 < lo).Pairwise fun e e' => e.1 < e'.1 :=
    m.sorted.sublist (dropWhile_sublist _)
  rw [between, mem_takeWhile_lt hsorted, mem_dropWhile_lt m.sorted, find?_eq_some, and_assoc]

theorem pairwise_between (m : OrderedMap K V) (lo hi : K) :
    (m.between lo hi).Pairwise fun e e' => e.1 < e'.1 :=
  (m.sorted.sublist (dropWhile_sublist _)).sublist (takeWhile_sublist _)

/-- Such a loop that changes the values. -/
def modifyBetween (m : OrderedMap K V) (lo hi : K) (f : K → V → V) : OrderedMap K V where
  entries := m.entries.map fun e => if lo ≤ e.1 ∧ e.1 < hi then (e.1, f e.1 e.2) else e
  sorted := by
    refine List.pairwise_map.2 (m.sorted.imp fun {e e'} hlt => ?_)
    have hkey : ∀ e : K × V, (if lo ≤ e.1 ∧ e.1 < hi then (e.1, f e.1 e.2) else e).1 = e.1 :=
      fun e => by split <;> rfl
    rwa [hkey, hkey]

theorem find?_modifyBetween {f : K → V → V} : (m.modifyBetween lo hi f).find? k =
    if lo ≤ k ∧ k < hi then (m.find? k).map (f k) else m.find? k := by
  rw [find?_eq_iff]
  intro v
  show (k, v) ∈ m.entries.map _ ↔ _
  rw [mem_map]
  by_cases hk : lo ≤ k ∧ k < hi
  · rw [if_pos hk, Option.map_eq_some_iff]
    constructor
    · rintro ⟨⟨k', v'⟩, hmem, heq⟩
      dsimp only at heq
      split at heq
      · cases heq
        exact ⟨v', find?_eq_some.2 hmem, rfl⟩
      · rename_i hnot
        cases heq
        exact absurd hk hnot
    · rintro ⟨v', hfind, rfl⟩
      exact ⟨(k, v'), find?_eq_some.1 hfind, if_pos hk⟩
  · rw [if_neg hk, find?_eq_some]
    constructor
    · rintro ⟨⟨k', v'⟩, hmem, heq⟩
      dsimp only at heq
      split at heq
      · rename_i hin
        cases heq
        exact absurd hin hk
      · exact heq ▸ hmem
    · exact fun hmem => ⟨(k, v), hmem, if_neg hk⟩

/-- `erase(lower_bound(lo), lower_bound(hi))`. -/
def eraseBetween (m : OrderedMap K V) (lo hi : K) : OrderedMap K V where
  entries := m.entries.filter fun e => ¬ (lo ≤ e.1 ∧ e.1 < hi)
  sorted := m.sorted.sublist List.filter_sublist

theorem find?_eraseBetween : (m.eraseBetween lo hi).find? k = if lo ≤ k ∧ k < hi then none else m.find? k := by
  rw [find?_eq_iff]
  intro v
  show (k, v) ∈ m.entries.filter _ ↔ _
  rw [mem_filter, decide_eq_true_eq]
  by_cases hk : lo ≤ k ∧ k < hi
  · rw [if_pos hk]
    exact ⟨fun h => absurd hk h.2, nofun⟩
  · rw [if_neg hk, find?_eq_some]
    exact ⟨fun h => h.1, fun h => ⟨h, hk⟩⟩

/-- `erase(lower_bound(lo), upper_bound(hi))`. -/
def eraseThrough (m : OrderedMap K V) (lo hi : K) : OrderedMap K V where
  entries := m.entries.filter fun e => ¬ (lo ≤ e.1 ∧ e.1 ≤ hi)
  sorted := m.sorted.sublist List.filter_sublist

/-! ### The entries around a place -/

omit [LinearOrder K] in
theorem takeWhile_split {p : K × V → Bool} {l r : List (K × V)} (hl : ∀ e ∈ l, p e = true)
    (hr : ∀ e ∈ r, p e = false) : (l ++ r).takeWhile p = l ∧ (l ++ r).dropWhile p = r := by
  rw [takeWhile_append_of_pos hl, dropWhile_append_of_pos hl]
  cases r with
  | nil => exact ⟨append_nil l, rfl⟩
  | cons e r =>
    have he : ¬ p e = true := by
      rw [hr e mem_cons_self]
      exact Bool.false_ne_true
    rw [takeWhile_cons_of_neg he, dropWhile_cons_of_neg he]
    exact ⟨append_nil l, rfl⟩

/-- Behind the first key without a property that goes with every smaller key there is none with it. -/
theorem exists_split (m : OrderedMap K V) {p : K → Bool} (hp : ∀ k k', k < k' → p k' = true → p k = true) :
    ∃ l r, m.entries = l ++ r ∧ (∀ e ∈ l, p e.1 = true) ∧ ∀ e ∈ r, p e.1 = false := by
  obtain ⟨es, hsorted⟩ := m
  induction es with
  | nil => exact ⟨[], [], rfl, forall_mem_nil _, forall_mem_nil _⟩
  | cons e es ih =>
    obtain ⟨hlt, hsorted'⟩ := pairwise_cons.1 hsorted
    cases he : p e.1 with
    | true =>
      obtain ⟨l, r, heq, hl, hr⟩ := ih hsorted'
      exact ⟨e :: l, r, congrArg (e :: ·) heq, forall_mem_cons.2 ⟨he, hl⟩, hr⟩
    | false =>
      refine ⟨[], e :: es, rfl, forall_mem_nil _, forall_mem_cons.2 ⟨he, fun e' he' => ?_⟩⟩
      by_contra hnot
      rw [hp _ _ (hlt e' he') ((Bool.not_eq_false _).mp hnot)] at he
      exact Bool.false_ne_true he.symm

theorem emplaceEntry_append {l r : List (K × V)} (hl : ∀ e ∈ l, e.1 < k) :
    emplaceEntry k v (l ++ r) = l ++ emplaceEntry k v r := by
  induction l with
  | nil => rfl
  | cons e l ih =>
    obtain ⟨he, hl⟩ := forall_mem_cons.1 hl
    rw [cons_append, emplaceEntry, if_pos he, ih hl, cons_append]

theorem emplaceEntry_of_lt {r : List (K × V)} (hr : ∀ e ∈ r, k < e.1) : emplaceEntry k v r = (k, v) :: r := by
  cases r with
  | nil => rfl
  | cons e r =>
    have he := hr e mem_cons_self
    rw [emplaceEntry, if_neg he.not_gt, if_pos he]

end OrderedMap
end NXEmu
