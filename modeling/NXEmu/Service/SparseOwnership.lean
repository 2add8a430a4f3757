/-
# Owners of sparse ranges

`src/nxemu-os/core/hle/service/nvdrv/devices/nvhost_as_gpu.cpp`.  The map `sparse_mappings` of an allocation
keeps the intervals that `Remap` has filled, each with a token that unpins its handle when its last holder
drops it.  `ReplaceSparseOwnershipLocked` gives a range to another token, or to none
(`replaceSparseOwnershipLocked_exact`).  Tokens are held by the map and by the locals of the function; the ends
of intervals do not wrap around.
-/

import NXEmu.Lib.OrderedMap
import Mathlib.Algebra.Order.Group.Nat
import Mathlib.Data.List.Nodup
import Mathlib.Data.List.Pairwise
import Mathlib.Data.List.TakeWhile

namespace NXEmu
namespace Service

open List

/-- `SparseMapping`. -/
structure SparseMapping (τ : Type) where
  size : ℕ
  pin : τ

/-- `sparse_mappings`, in the order of the starts. -/
abbrev SparseMappings (τ : Type) := List (ℕ × SparseMapping τ)

/-- The loop's state: the intervals it has passed, the survivors, the count, and the tokens released. -/
structure Replacing (τ : Type) where
  passed : SparseMappings τ
  survivors : SparseMappings τ := []
  replacedSegments : ℕ := 0
  released : List τ := []

section Code

variable {τ : Type} [DecidableEq τ]

/-- The tokens that intervals hold. -/
def pins (m : SparseMappings τ) : List τ := m.map (·.2.pin)

/-- A holder drops its token; these are the holders that are left. -/
def dropPin (p : τ) (holders released : List τ) : List τ := if p ∈ holders then released else released ++ [p]

/-- Locals are dropped, after what the map holds. -/
def dropLocals (m : SparseMappings τ) : List τ → List τ → List τ
  | [], released => released
  | p :: locals, released => dropLocals m locals (dropPin p (pins m ++ locals) released)

/-- What an interval that meets the range leaves of itself. -/
def cuts (start stop : ℕ) (e : ℕ × SparseMapping τ) : SparseMappings τ :=
  (if e.1 < start then [(e.1, ⟨start - e.1, e.2.pin⟩)] else []) ++
    if stop < e.1 + e.2.size then [(stop, ⟨e.1 + e.2.size - stop, e.2.pin⟩)] else []

/-- `lower_bound`, or the interval before it when that one reaches into the range. -/
def scanBegin (m : SparseMappings τ) (start : ℕ) : SparseMappings τ × SparseMappings τ :=
  let before := m.takeWhile (·.1 < start)
  let after := m.dropWhile (·.1 < start)
  match before.getLast? with
  | some previous =>
    if start - previous.1 < previous.2.size then (before.dropLast, previous :: after) else (before, after)
  | none => (before, after)

/-- The loop over the intervals; the ones it does not come to stay. -/
def scanOwners (start stop : ℕ) (newPin : Option τ) :
    SparseMappings τ → Replacing τ → SparseMappings τ × Replacing τ
  | [], r => ([], r)
  | e :: rest, r =>
    if e.1 < stop then
      if e.1 ≤ start ∧ e.2.size ≤ start - e.1 then
        scanOwners start stop newPin rest { r with passed := r.passed ++ [e] }
      else
        let survivors := r.survivors ++ cuts start stop e
        scanOwners start stop newPin rest
          ⟨r.passed, survivors, r.replacedSegments + 1,
            -- the copy of the erased mapping goes at the end of the round
            dropPin e.2.pin (pins (r.passed ++ rest ++ survivors) ++ newPin.toList) r.released⟩
    else (e :: rest, r)

/-- `ReplaceSparseOwnershipLocked`: the map, the count, and the tokens that are released. -/
def replaceSparseOwnershipLocked (m : SparseMappings τ) (start size : ℕ) (newPin : Option τ) :
    SparseMappings τ × ℕ × List τ :=
  if size = 0 then (m, 0, dropLocals m newPin.toList [])
  else
    let (before, after) := scanBegin m start
    let (rest, r) := scanOwners start (start + size) newPin after { passed := before }
    let moved := r.survivors ++ (newPin.map fun p => (start, ⟨size, p⟩)).toList
    let m := moved.foldl (fun m e => OrderedMap.emplaceEntry e.1 e.2 m) (r.passed ++ rest)
    (m, r.replacedSegments, dropLocals m (pins moved) r.released)

end Code

variable {τ : Type} {m : SparseMappings τ} {start stop size : ℕ} {e e' : ℕ × SparseMapping τ} {p : τ}
  {newPin : Option τ}

/-- The intervals are not empty and apart. -/
structure SparseValid (m : SparseMappings τ) : Prop where
  nonempty : ∀ e ∈ m, 0 < e.2.size
  apart : m.Pairwise fun e e' => e.1 + e.2.size ≤ e'.1

/-- An address is owned by a token. -/
def Owns (m : SparseMappings τ) (a : ℕ) (p : τ) : Prop := ∃ e ∈ m, e.1 ≤ a ∧ a < e.1 + e.2.size ∧ e.2.pin = p

/-- An interval meets a range. -/
def Meets (start stop : ℕ) (e : ℕ × SparseMapping τ) : Prop := e.1 < stop ∧ start < e.1 + e.2.size

instance : DecidablePred (Meets (τ := τ) start stop) := fun _ => inferInstanceAs (Decidable (_ ∧ _))

/-! ### The scan -/

theorem mem_cuts : e' ∈ cuts start stop e ↔ (e.1 < start ∧ e' = (e.1, ⟨start - e.1, e.2.pin⟩)) ∨
      stop < e.1 + e.2.size ∧ e' = (stop, ⟨e.1 + e.2.size - stop, e.2.pin⟩) := by
  unfold cuts
  split_ifs <;> simp [*]

/-- The scan begins at the first interval that reaches beyond the start. -/
theorem scanBegin_spec (hm : SparseValid m) (start : ℕ) : (scanBegin m start).1 ++ (scanBegin m start).2 = m ∧
    ∀ e ∈ (scanBegin m start).1, e.1 + e.2.size ≤ start := by
  have hsplit := takeWhile_append_dropWhile (p := fun e : ℕ × SparseMapping τ => decide (e.1 < start)) (l := m)
  have hlt : ∀ e ∈ m.takeWhile fun e => decide (e.1 < start), e.1 < start := fun e he => by
    simpa using mem_takeWhile_imp he
  unfold scanBegin
  dsimp only
  split
  next previous hlast =>
    obtain ⟨before, hbefore⟩ := getLast?_eq_some_iff.1 hlast
    have hapart := hm.apart
    rw [← hsplit, hbefore, append_assoc, pairwise_append] at hapart
    have hprevious : ∀ e ∈ before, e.1 + e.2.size ≤ previous.1 := fun e he => hapart.2.2 e he previous (by simp)
    have hstart : previous.1 < start := hlt previous (by simp [hbefore])
    split_ifs with hreach
    · rw [hbefore, dropLast_concat]
      refine ⟨by rw [← singleton_append, ← append_assoc, ← hbefore, hsplit], fun e he => ?_⟩
      exact (hprevious e he).trans hstart.le
    · refine ⟨hsplit, fun e he => ?_⟩
      rw [hbefore] at he
      rcases mem_append.1 he with he | he
      · exact (hprevious e he).trans hstart.le
      · rw [mem_singleton.1 he]
        omega
  next hnone =>
    rw [getLast?_eq_none_iff] at hnone
    rw [hnone] at hsplit ⊢
    exact ⟨hsplit, nofun⟩

section Tokens

variable {before holders holders' released locals : List τ}

/-- Released is what was held before and is held no more, each token once. -/
structure Accounted (before holders released : List τ) : Prop where
  nodup : released.Nodup
  mem : ∀ p, p ∈ released ↔ p ∈ before ∧ p ∉ holders
  subset : ∀ p ∈ holders, p ∈ before

theorem Accounted.congr (h : Accounted before holders released) (heq : ∀ p, p ∈ holders ↔ p ∈ holders') :
    Accounted before holders' released where
  nodup := h.nodup
  mem q := by rw [h.mem, heq]
  subset q hq := h.subset q ((heq q).2 hq)

/-- **A token that is dropped** is released when nobody else holds it. -/
theorem Accounted.drop [DecidableEq τ] (h : Accounted before (p :: holders) released) :
    Accounted before holders (dropPin p holders released) := by
  unfold dropPin
  split_ifs with hp
  · exact h.congr (by simpa using hp)
  · refine ⟨?_, fun q => ?_, fun q hq => h.subset q (mem_cons_of_mem p hq)⟩
    · rw [nodup_append]
      refine ⟨h.nodup, nodup_singleton p, fun q hq q' hq' => ?_⟩
      rw [mem_singleton.1 hq']
      rintro rfl
      exact ((h.mem q).1 hq).2 mem_cons_self
    · have hbefore := h.subset p mem_cons_self
      by_cases hq : q = p
      · simp [hq, hp, hbefore]
      · simp [h.mem, hq]

theorem Accounted.atEnd [DecidableEq τ] (h : Accounted before (pins m ++ locals) released) :
    Accounted before (pins m) (dropLocals m locals released) := by
  induction locals generalizing released with
  | nil => simpa [dropLocals] using h
  | cons p locals ih => exact ih (Accounted.drop (h.congr fun q => by simp [or_left_comm]))

/-- **The scan** erases the intervals that meet the range and keeps what they leave of themselves. -/
theorem scanOwners_spec [DecidableEq τ] {rest : SparseMappings τ} (hrest : SparseValid rest) (newPin : Option τ)
    {r : Replacing τ} (h : Accounted before (pins (r.passed ++ rest ++ r.survivors) ++ newPin.toList) r.released) :
    let (tail, r') := scanOwners start stop newPin rest r
    r'.passed ++ tail = r.passed ++ (rest.filter fun e => ¬Meets start stop e) ∧
      r'.survivors = r.survivors ++ (rest.filter fun e => Meets start stop e).flatMap (cuts start stop) ∧
      r'.replacedSegments = r.replacedSegments + (rest.filter fun e => Meets start stop e).length ∧
      Accounted before (pins (r'.passed ++ tail ++ r'.survivors) ++ newPin.toList) r'.released := by
  induction rest generalizing r with
  | nil => simpa [scanOwners] using h
  | cons e rest ih =>
    obtain ⟨hapart, hapart'⟩ := pairwise_cons.1 hrest.apart
    have hpos := hrest.nonempty e mem_cons_self
    have ih := fun r => ih (r := r) ⟨fun e' he' => hrest.nonempty e' (mem_cons_of_mem e he'), hapart'⟩
    rw [scanOwners]
    split_ifs with hstop hskip
    · have hmeets : ¬Meets start stop e := fun h => by
        have := h.2
        omega
      have := ih { r with passed := r.passed ++ [e] } (by simpa using h)
      simpa [hmeets] using this
    · have hmeets : Meets start stop e := ⟨hstop, by omega⟩
      have hcuts : ∀ q ∈ pins (cuts start stop e), q = e.2.pin := by
        intro q hq
        obtain ⟨e', he', rfl⟩ := mem_map.1 hq
        rcases mem_cuts.1 he' with ⟨-, rfl⟩ | ⟨-, rfl⟩ <;> rfl
      have hheld : Accounted before (e.2.pin :: (pins (r.passed ++ rest ++ (r.survivors ++ cuts start stop e)) ++
          newPin.toList)) r.released := by
        refine h.congr fun q => ?_
        have := hcuts q
        simp only [pins, map_append, map_cons, mem_append, mem_cons] at this ⊢
        tauto
      have := ih ⟨r.passed, r.survivors ++ cuts start stop e, r.replacedSegments + 1, dropPin e.2.pin
        (pins (r.passed ++ rest ++ (r.survivors ++ cuts start stop e)) ++ newPin.toList) r.released⟩ hheld.drop
      simpa [hmeets, Nat.add_assoc, Nat.add_comm 1] using this
    · have hnot : ∀ e' ∈ e :: rest, ¬Meets start stop e' := fun e' he' hmeets => by
        have hlt := hmeets.1
        rcases mem_cons.1 he' with rfl | he'
        · omega
        · have := hapart e' he'
          omega
      rw [filter_eq_self.2 (by simpa using hnot), filter_eq_nil_iff.2 (by simpa using hnot)]
      exact ⟨rfl, (append_nil _).symm, rfl, h⟩

end Tokens

/-! ### The owners afterwards -/

/-- What is in the map afterwards: an interval that does not meet the range, what one that does leaves of
itself, or the new one. -/
def Afterwards (m : SparseMappings τ) (start size : ℕ) (newPin : Option τ) (e : ℕ × SparseMapping τ) : Prop :=
  (e ∈ m ∧ ¬Meets start (start + size) e) ∨
    (∃ o, (o ∈ m ∧ Meets start (start + size) o) ∧ e ∈ cuts start (start + size) o) ∨
      ∃ p, newPin = some p ∧ e = (start, ⟨size, p⟩)

theorem SparseValid.eq_or_apart (hm : SparseValid m) (he : e ∈ m) (he' : e' ∈ m) :
    e = e' ∨ e.1 + e.2.size ≤ e'.1 ∨ e'.1 + e'.2.size ≤ e.1 := by
  by_cases heq : e = e'
  · exact .inl heq
  · have hapart : m.Pairwise fun e e' => e.1 + e.2.size ≤ e'.1 ∨ e'.1 + e'.2.size ≤ e.1 := hm.apart.imp Or.inl
    have : Std.Symm fun e e' : ℕ × SparseMapping τ => e.1 + e.2.size ≤ e'.1 ∨ e'.1 + e'.2.size ≤ e.1 :=
      ⟨fun _ _ => Or.symm⟩
    exact .inr (hapart.forall he he' heq)

section

variable (h : Afterwards m start size newPin e)

include h

theorem Afterwards.pos (hm : SparseValid m) (hsize : 0 < size) :
    0 < e.2.size := by
  rcases h with ⟨hmem, -⟩ | ⟨o, -, hcut⟩ | ⟨p, -, rfl⟩
  · exact hm.nonempty e hmem
  · rcases mem_cuts.1 hcut with ⟨h, rfl⟩ | ⟨h, rfl⟩ <;> exact Nat.sub_pos_of_lt h
  · exact hsize

/-- An old interval afterwards is beside the range and a part of one that was there. -/
theorem Afterwards.old_or_new (hm : SparseValid m) :
    (∃ p, newPin = some p ∧ e = (start, ⟨size, p⟩)) ∨ (e.1 + e.2.size ≤ start ∨ start + size ≤ e.1) ∧
        ∃ o ∈ m, o.1 ≤ e.1 ∧ e.1 + e.2.size ≤ o.1 + o.2.size ∧
          (e = o ∨ Meets start (start + size) o ∧ e ∈ cuts start (start + size) o) := by
  rcases h with ⟨hmem, hmeets⟩ | ⟨o, ⟨hmem, hmeets⟩, hcut⟩ | hnew
  · have := hm.nonempty e hmem
    refine .inr ⟨?_, e, hmem, le_rfl, le_rfl, .inl rfl⟩
    by_contra hbeside
    exact hmeets ⟨by omega, by omega⟩
  · have hlt := hmeets.1
    have hlt' := hmeets.2
    refine .inr ⟨?_, o, hmem, ?_, ?_, .inr ⟨hmeets, hcut⟩⟩ <;>
      rcases mem_cuts.1 hcut with ⟨h, rfl⟩ | ⟨h, rfl⟩ <;> dsimp only <;> omega
  · exact .inl hnew

/-- **Afterwards the intervals are apart.** -/
theorem Afterwards.eq_or_apart (h' : Afterwards m start size newPin e') (hm : SparseValid m) :
    e = e' ∨ e.1 + e.2.size ≤ e'.1 ∨ e'.1 + e'.2.size ≤ e.1 := by
  rcases h.old_or_new hm with ⟨p, hp, rfl⟩ | ⟨hbeside, o, ho, hlo, hhi, hpart⟩ <;>
    rcases h'.old_or_new hm with ⟨p', hp', rfl⟩ | ⟨hbeside', o', ho', hlo', hhi', hpart'⟩
  · rw [hp, Option.some.injEq] at hp'
    exact .inl (by rw [hp'])
  · dsimp only
    omega
  · dsimp only
    omega
  · rcases hm.eq_or_apart ho ho' with rfl | hapart
    · -- two parts of one interval
      rcases hpart with rfl | ⟨hmeets, hcut⟩ <;> rcases hpart' with rfl | ⟨hmeets', hcut'⟩
      · exact .inl rfl
      · exact absurd hbeside (by unfold Meets at hmeets'; omega)
      · exact absurd hbeside' (by unfold Meets at hmeets; omega)
      · rcases mem_cuts.1 hcut with ⟨h, rfl⟩ | ⟨h, rfl⟩ <;> rcases mem_cuts.1 hcut' with ⟨h', rfl⟩ | ⟨h', rfl⟩
        · exact .inl rfl
        · exact .inr (.inl (by dsimp only; omega))
        · exact .inr (.inr (by dsimp only; omega))
        · exact .inl rfl
    · omega

end

/-- `emplace` of entries that are equal when their keys are. -/
theorem foldl_emplaceEntry {base moved : SparseMappings τ} (hsorted : base.Pairwise fun e e' => e.1 < e'.1)
    (hkeys : ∀ e ∈ base ++ moved, ∀ e' ∈ base ++ moved, e.1 = e'.1 → e = e') :
    let m := moved.foldl (fun m e => OrderedMap.emplaceEntry e.1 e.2 m) base
    m.Pairwise (fun e e' => e.1 < e'.1) ∧ ∀ e, e ∈ m ↔ e ∈ base ++ moved := by
  induction moved generalizing base with
  | nil => exact ⟨hsorted, by simp⟩
  | cons f moved ih =>
    have hmem : ∀ e, e ∈ OrderedMap.emplaceEntry f.1 f.2 base ++ moved ↔ e ∈ base ++ f :: moved := by
      intro e
      rw [mem_append, OrderedMap.mem_emplaceEntry hsorted, mem_append, mem_cons, or_assoc]
      refine ⟨Or.imp_right (Or.imp_left And.left), ?_⟩
      rintro (he | rfl | he)
      · exact .inl he
      · by_cases hkey : ∃ e' ∈ base, e'.1 = e.1
        · obtain ⟨e', he', hkey⟩ := hkey
          exact .inl (hkeys e' (by simp [he']) e (by simp) hkey ▸ he')
        · exact .inr (.inl ⟨rfl, fun e' he' hkey' => hkey ⟨e', he', hkey'⟩⟩)
      · exact .inr (.inr he)
    obtain ⟨hsorted', hmem'⟩ := ih (OrderedMap.pairwise_emplaceEntry hsorted) fun e he e' he' =>
      hkeys e ((hmem e).1 he) e' ((hmem e').1 he')
    exact ⟨hsorted', fun e => (hmem' e).trans (hmem e)⟩

/-- **`ReplaceSparseOwnershipLocked` is a pointwise update**: the map stays one of intervals, the range goes to
the new token or to none, other addresses keep their owner, the count is that of the intervals that meet the
range, and a token is released exactly when no interval holds it any more. -/
theorem replaceSparseOwnershipLocked_exact [DecidableEq τ] (hm : SparseValid m) (start : ℕ) (hsize : 0 < size)
    (newPin : Option τ) :
    let (m', replaced, released) := replaceSparseOwnershipLocked m start size newPin
    SparseValid m' ∧
      (∀ a p, Owns m' a p ↔ if start ≤ a ∧ a < start + size then newPin = some p else Owns m a p) ∧
      replaced = (m.filter fun e => Meets start (start + size) e).length ∧
      released.Nodup ∧ ∀ p, p ∈ released ↔ p ∈ pins m ∧ p ∉ pins m' := by
  obtain ⟨hsplit, hbefore⟩ := scanBegin_spec hm start
  have hstart : Accounted (pins m ++ newPin.toList) (pins ((scanBegin m start).1 ++ (scanBegin m start).2 ++ []) ++
      newPin.toList) [] := by
    rw [List.append_nil, hsplit]
    exact ⟨.nil, fun p => ⟨nofun, fun h => absurd h.1 h.2⟩, fun _ hp => hp⟩
  have hafter : SparseValid (scanBegin m start).2 :=
    ⟨fun e he => hm.nonempty e (hsplit ▸ List.mem_append_right _ he),
      (List.pairwise_append.1 (hsplit ▸ hm.apart)).2.1⟩
  have hscan := @scanOwners_spec _ start (start + size) _ _ _ hafter newPin { passed := (scanBegin m start).1 } hstart
  have hnot : ∀ e ∈ (scanBegin m start).1, ¬Meets start (start + size) e := fun e he hmeets => by
    have := hmeets.2
    have := hbefore e he
    omega
  have hmeet : (scanBegin m start).2.filter (fun e => Meets start (start + size) e) =
      m.filter fun e => Meets start (start + size) e := by
    conv_rhs => rw [← hsplit, List.filter_append, List.filter_eq_nil_iff.2 (by simpa using hnot), List.nil_append]
  have hkeep : (scanBegin m start).1 ++ (scanBegin m start).2.filter (fun e => ¬Meets start (start + size) e) =
      m.filter fun e => ¬Meets start (start + size) e := by
    conv_rhs => rw [← hsplit, List.filter_append, List.filter_eq_self.2 (by simpa using hnot)]
  unfold replaceSparseOwnershipLocked
  rw [if_neg hsize.ne']
  dsimp only at hscan ⊢
  rw [hmeet, hkeep] at hscan
  obtain ⟨hmap, hsurvivors, hcount, haccounted⟩ := hscan
  simp only [List.nil_append, Nat.zero_add] at hsurvivors hcount
  generalize scanOwners start (start + size) newPin (scanBegin m start).2 { passed := (scanBegin m start).1 } = scan
    at hmap hsurvivors hcount haccounted ⊢
  rw [hmap, hsurvivors] at haccounted ⊢
  have hleft : ∀ e, e ∈ (m.filter fun e => ¬Meets start (start + size) e) ++
      ((m.filter fun e => Meets start (start + size) e).flatMap (cuts start (start + size)) ++
        (newPin.map fun p => (start, SparseMapping.mk size p)).toList) ↔ Afterwards m start size newPin e := by
    intro e
    cases newPin <;> simp [Afterwards]
  have hbase : (m.filter fun e => ¬Meets start (start + size) e).Pairwise fun e e' => e.1 < e'.1 :=
    (hm.apart.filter _).imp_of_mem fun he _ hle => by
      have := hm.nonempty _ (List.mem_of_mem_filter he)
      omega
  generalize (m.filter fun e => ¬Meets start (start + size) e) = base at hleft hbase haccounted ⊢
  generalize List.flatMap _ _ = survivors at hleft haccounted ⊢
  obtain ⟨hsorted, hfold⟩ := foldl_emplaceEntry hbase fun e he e' he' hkey => by
    have h := (hleft e).1 he
    have h' := (hleft e').1 he'
    have := h.pos hm hsize
    have := h'.pos hm hsize
    exact (h.eq_or_apart h' hm).resolve_right (by omega)
  generalize List.foldl _ _ _ = m' at hsorted hfold ⊢
  have hmem := fun e => (hfold e).trans (hleft e)
  refine ⟨⟨fun e he => ((hmem e).1 he).pos hm hsize, ?_⟩, fun a p => ?_, by rw [hcount], ?_⟩
  · refine hsorted.imp_of_mem fun {e e'} he he' hlt => ?_
    have := ((hmem e').1 he').pos hm hsize
    rcases ((hmem e).1 he).eq_or_apart ((hmem e').1 he') hm with rfl | h <;> omega
  · constructor
    · rintro ⟨e, he, hlo, hhi, rfl⟩
      rcases (hmem e).1 he with ⟨hold, hmeets⟩ | ⟨o, ⟨hold, hlt, hlt'⟩, hcut⟩ | ⟨p, hp, rfl⟩
      · rw [if_neg fun h => hmeets ⟨by omega, by omega⟩]
        exact ⟨e, hold, hlo, hhi, rfl⟩
      · rcases mem_cuts.1 hcut with ⟨h, rfl⟩ | ⟨h, rfl⟩ <;> dsimp only at hlo hhi ⊢ <;> rw [if_neg (by omega)] <;>
          exact ⟨o, hold, by omega, by omega, rfl⟩
      · rw [if_pos ⟨hlo, hhi⟩, hp]
    · split_ifs with hrange
      · exact fun hp => ⟨_, (hmem _).2 (.inr (.inr ⟨p, hp, rfl⟩)), hrange.1, hrange.2, rfl⟩
      · rintro ⟨e, he, hlo, hhi, rfl⟩
        have hcut := fun h e' he' => (hmem e').2 (.inr (.inl ⟨e, ⟨he, h⟩, mem_cuts.2 he'⟩))
        by_cases hmeets : Meets start (start + size) e
        · rcases Nat.lt_or_ge a start with ha | ha
          · exact ⟨_, hcut hmeets _ (.inl ⟨by omega, rfl⟩), hlo, by dsimp only; omega, rfl⟩
          · exact ⟨_, hcut hmeets _ (.inr ⟨by omega, rfl⟩), by dsimp only; omega, by dsimp only; omega, rfl⟩
        · exact ⟨e, (hmem e).2 (.inl ⟨he, hmeets⟩), hlo, hhi, rfl⟩
  · have hheld : ∀ q, q ∈ pins (base ++ survivors) ++ newPin.toList ↔
        q ∈ pins m' ++ pins (survivors ++ (newPin.map fun p => (start, SparseMapping.mk size p)).toList) := by
      intro q
      cases newPin <;> simp [pins, hfold, or_and_right, exists_or, @eq_comm _ q]
    have hend := (haccounted.congr hheld).atEnd
    refine ⟨hend.nodup, fun q => (hend.mem q).trans ?_⟩
    have hnew : q ∈ newPin.toList → q ∈ pins m' := fun hq =>
      List.mem_map.2 ⟨_, (hmem _).2 (.inr (.inr ⟨q, by simpa using hq, rfl⟩)), rfl⟩
    rw [List.mem_append]
    tauto

/-- Three intervals that meet a range.  The first and the last share a token and reach beyond the range. -/
def sharedMappings : SparseMappings ℕ := [(0, ⟨4, 7⟩), (4, ⟨4, 5⟩), (8, ⟨8, 7⟩)]

/-- The range from 2 to 10 goes to a new token: the outer intervals are cut and keep theirs, and the token of the
inner one is the only one released. -/
theorem replaceSparseOwnershipLocked_exact_shared :
    let (m', replaced, released) := replaceSparseOwnershipLocked sharedMappings 2 8 (some 9)
    (∀ a p, Owns m' a p ↔ if 2 ≤ a ∧ a < 10 then p = 9 else a < 16 ∧ p = 7) ∧ replaced = 3 ∧ released.Nodup ∧
      ∀ p, p ∈ released ↔ p = 5 := by
  obtain ⟨-, howns, hcount, hnodup, hreleased⟩ := replaceSparseOwnershipLocked_exact (m := sharedMappings)
    ⟨by decide, by simp [sharedMappings]⟩ 2 (show 0 < 8 by decide) (some 9)
  have hpins : pins (replaceSparseOwnershipLocked sharedMappings 2 8 (some 9)).1 = [7, 9, 7] := by decide
  refine ⟨fun a p => (howns a p).trans ?_, hcount, hnodup, fun p => (hpins ▸ hreleased p).trans ?_⟩
  · split_ifs with hrange
    · simp [eq_comm]
    · simp only [Owns, sharedMappings, mem_cons, not_mem_nil, or_false, exists_eq_or_imp, exists_eq_left]
      omega
  · simp only [sharedMappings, pins, map_cons, map_nil, mem_cons, not_mem_nil, or_false]
    omega

end Service
end NXEmu
