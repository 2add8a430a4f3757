/-
# Splitter updates

`src/yuzu_audio_core/renderer/splitter/splitter_context.cpp`, `splitter_info.cpp`.  A splitter's destinations are
linked through the destinations themselves, and an update links them anew by the ids of the guest's buffer, which
nothing checks.  While the ids fit (`Fits`) the lists stay well formed (`updates_wellFormed`).
-/

import Mathlib.Algebra.Group.Nat.Defs
import Mathlib.Data.List.Perm.Subperm
import Mathlib.Data.List.Range
import Mathlib.Logic.Function.Basic
import Mathlib.Tactic.Common

namespace NXEmu
namespace AudioCore

open List Function

/-- The sizes and the features of a `SplitterContext`. -/
structure SplitterConfig where
  infoCount : ℕ
  destinationsCount : ℕ
  bugFixed : Bool := true
  biquadParamSupported : Bool := false
  floatCoeffSupported : Bool := false

/-- The splitters and the destinations, whose parameters are of the type `δ`. -/
structure Splitters (δ : Type) where
  destinations : ℕ → Option ℕ
  destinationCount : ℕ → ℕ
  sampleRate : ℕ → BitVec 32
  hasNewConnection : ℕ → Bool
  next : ℕ → Option ℕ
  data : ℕ → δ

/-- `SplitterInfo::InParameter`, with the ids behind it. -/
structure InfoHeader where
  id : ℕ
  sampleRate : BitVec 32
  destinationCount : ℕ
  destinationId : ℕ → ℕ

/-- The buffer: its words by their offsets in bytes. -/
abbrev SplitterInput := ℕ → BitVec 32

section Code

variable {δ : Type} (c : SplitterConfig) (update : SplitterInput → δ → δ) (input : SplitterInput)

/-- A header of `UpdateInfo` that passes its checks. -/
def headerAt (offset : ℕ) : Option InfoHeader :=
  let id := (input (offset + 4)).toInt
  if input offset ≠ 0x49444E53 then none
  else if id < 0 ∨ (c.infoCount : ℤ) ≤ id then none
  else some ⟨id.toNat, input (offset + 8), (input (offset + 12)).toNat,
    fun i => (input (offset + 16 + 4 * i)).toNat⟩

/-- `SplitterInfo::Update`: the size of a header with its ids. -/
def InfoHeader.next (h : InfoHeader) (offset : ℕ) : ℕ := (offset + (28 + 4 * h.destinationCount)) % 2 ^ 32

/-- The ids that count: without the bug fix no more than `GetDestCountPerInfoForCompat`. -/
def destinationIds (h : InfoHeader) : List ℕ :=
  (List.range (if c.bugFixed then h.destinationCount
    else min h.destinationCount (c.destinationsCount / c.infoCount))).map h.destinationId

/-- Clear the links of a list, or `none` for a destination outside the array. -/
def unlink : ℕ → Option ℕ → (ℕ → Option ℕ) → Option (ℕ → Option ℕ)
  | _, none, next => some next
  | 0, some _, _ => none
  | rounds + 1, some d, next =>
    if d < c.destinationsCount then unlink rounds (next d) (Function.update next d none) else none

/-- The loop that links the destinations after the current one. -/
def link (current : ℕ) : List ℕ → (ℕ → Option ℕ) → ℕ → Option ℕ
  | [], next => next
  | id :: ids, next => link id ids (Function.update next current (some id))

/-- `RecomposeDestination`, or `none` for an access outside the array of destinations. -/
def recomposeDestination (s : Splitters δ) (h : InfoHeader) : Option (Splitters δ) :=
  -- a list that is a cycle is left when it comes to its first destination again
  (unlink c (c.destinationsCount + 1) (s.destinations h.id) s.next).bind fun next =>
    match destinationIds c h with
    | [] => some { s with next, destinations := Function.update s.destinations h.id none }
    | head :: ids =>
      if ∀ id ∈ head :: ids, id < c.destinationsCount then
        some { s with
          next := link head ids next
          destinations := Function.update s.destinations h.id (some head)
          destinationCount := Function.update s.destinationCount h.id (ids.length + 1) }
      else none

/-- The fields that `SplitterInfo::Update` sets. -/
def Splitters.updateInfo (s : Splitters δ) (h : InfoHeader) : Splitters δ :=
  { s with
    sampleRate := Function.update s.sampleRate h.id h.sampleRate
    hasNewConnection := Function.update s.hasNewConnection h.id true }

/-- `UpdateInfo`: the headers in their order, up to the first one that is not valid. -/
def updateInfo : ℕ → ℕ → Splitters δ → Option (ℕ × Splitters δ)
  | 0, offset, s => some (offset, s)
  | count + 1, offset, s =>
    match headerAt c input offset with
    | none => some (offset, s)
    | some h => (recomposeDestination c s h).bind fun s => updateInfo count (h.next offset) (s.updateInfo h)

/-- `UpdateData`: `update` sets the parameters of one destination by its header. -/
def updateData : ℕ → ℕ → Splitters δ → ℕ × Splitters δ
  | 0, offset, s => (offset, s)
  | count + 1, offset, s =>
    let id := (input (offset + 4)).toInt
    let data := Function.update s.data id.toNat (update (fun i => input (offset + i)) (s.data id.toNat))
    let size := if ¬c.biquadParamSupported then 0x70 else if ¬c.floatCoeffSupported then 0x90 else 0xA8
    if input offset ≠ 0x44444E53 then (offset, s)
    else updateData count ((offset + size) % 2 ^ 32)
      (if id < 0 ∨ (c.destinationsCount : ℤ) ≤ id then s else { s with data })

/-- `Update`: the result, the consumed size and the splitters. -/
def updateSplitters (s : Splitters δ) : Option ((Bool × ℕ) × Splitters δ) :=
  if c.destinationsCount = 0 ∨ c.infoCount = 0 then some ((true, 0), s)
  else if input 0 ≠ 0x48444E53 then some ((false, 0), s)
  else (updateInfo c input (input 4).toNat 0x20 { s with hasNewConnection := fun _ => false }).map fun (offset, s) =>
    let (offset, s) := updateData c update input (input 8).toNat offset s
    ((true, (offset + 15) / 16 * 16 % 2 ^ 32), s)

end Code

/-- The links from a destination on lead through these destinations and end. -/
inductive Links (next : ℕ → Option ℕ) : Option ℕ → List ℕ → Prop
  | nil : Links next none []
  | cons {d : ℕ} {l : List ℕ} (h : Links next (next d) l) : Links next (some d) (d :: l)

section Chains

variable {next next' : ℕ → Option ℕ} {o : Option ℕ} {l l' : List ℕ} {d : ℕ}

theorem Links.unique (h : Links next o l) (h' : Links next o l') : l = l' := by
  induction h generalizing l' with
  | nil => cases h'; rfl
  | cons _ ih => cases h' with | cons h' => rw [ih h']

theorem Links.suffix (h : Links next o l) (hd : d ∈ l) : ∃ l', l' <:+ l ∧ Links next (some d) l' := by
  induction h with
  | nil => cases hd
  | @cons e l h ih =>
    rcases mem_cons.1 hd with rfl | hd
    · exact ⟨_, suffix_refl _, .cons h⟩
    · obtain ⟨l', hsuffix, hl'⟩ := ih hd
      exact ⟨l', hsuffix.trans (suffix_cons e l), hl'⟩

/-- **A list that ends** does not come twice to a destination. -/
theorem Links.nodup (h : Links next o l) : l.Nodup := by
  induction h with
  | nil => exact .nil
  | @cons d l h ih =>
    refine nodup_cons.2 ⟨fun hd => ?_, ih⟩
    obtain ⟨l', hsuffix, hl'⟩ := h.suffix hd
    have := hsuffix.length_le
    rw [hl'.unique (.cons h), length_cons] at this
    omega

theorem Links.congr (h : Links next o l) (heq : ∀ d ∈ l, next' d = next d) : Links next' o l := by
  induction h with
  | nil => exact .nil
  | cons _ ih =>
    obtain ⟨hd, heq⟩ := forall_mem_cons.1 heq
    exact .cons (hd ▸ ih heq)

/-- A list of links that change to others that end. -/
theorem Links.reroute {P : ℕ → Prop} (h : Links next o l) (hl : ∀ d ∈ l, P d)
    (hd : ∀ d, P d → next' d = next d ∨ ∃ l', Links next' (some d) l' ∧ ∀ e ∈ l', P e) :
    ∃ l', Links next' o l' ∧ ∀ e ∈ l', P e := by
  induction h with
  | nil => exact ⟨[], .nil, hl⟩
  | @cons d l _ ih =>
    obtain ⟨hP, hl⟩ := forall_mem_cons.1 hl
    rcases hd d hP with heq | hends
    · obtain ⟨l', hl', hP'⟩ := ih hl
      exact ⟨d :: l', .cons (heq ▸ hl'), forall_mem_cons.2 ⟨hP, hP'⟩⟩
    · exact hends

theorem unlink_eq {c : SplitterConfig} {rounds : ℕ} (h : Links next o l) (hrounds : l.length ≤ rounds)
    (hlt : ∀ d ∈ l, d < c.destinationsCount) :
    unlink c rounds o next = some fun d => if d ∈ l then none else next d := by
  induction l generalizing o next rounds with
  | nil =>
    cases h
    simp [unlink]
  | cons d l ih =>
    have hnodup := (nodup_cons.1 h.nodup).1
    obtain ⟨hd, hlt⟩ := forall_mem_cons.1 hlt
    cases rounds with
    | zero => cases hrounds
    | succ rounds =>
      cases h with
      | cons h =>
        rw [unlink, if_pos hd, ih (h.congr fun e he => update_of_ne (ne_of_mem_of_not_mem he hnodup) _ _)
          (Nat.le_of_succ_le_succ hrounds) hlt]
        congr 1
        funext e
        by_cases he : e = d <;> simp [he]

theorem link_eq {rest : List ℕ} {head d : ℕ} (hd : d ∉ head :: rest) : link head rest next d = next d := by
  induction rest generalizing head next with
  | nil => rfl
  | cons id rest ih =>
    rw [link, ih (not_mem_of_not_mem_cons hd)]
    exact update_of_ne (fun h => hd (by simp [h])) _ _

theorem link_links {rest : List ℕ} {head : ℕ} (hnodup : (head :: rest).Nodup)
    (hlast : ∀ d ∈ (head :: rest).getLast?, next d = none) : Links (link head rest next) (some head) (head :: rest) := by
  induction rest generalizing head next with
  | nil =>
    refine .cons ?_
    rw [link, hlast head rfl]
    exact .nil
  | cons id rest ih =>
    obtain ⟨hhead, hnodup⟩ := nodup_cons.1 hnodup
    have hid : Links (link id rest (update next head (some id))) (some id) (id :: rest) := ih hnodup fun d hd => by
      rw [update_of_ne (ne_of_mem_of_not_mem (mem_of_getLast? hd) hhead)]
      exact hlast d (by simpa using hd)
    exact .cons (by rwa [link, link_eq hhead, update_self])

end Chains

section Updates

variable {δ : Type} {c : SplitterConfig} {update : SplitterInput → δ → δ} {s : Splitters δ} {h : InfoHeader}

/-- Every list ends and stays in the array. -/
def WellFormed (c : SplitterConfig) (s : Splitters δ) : Prop :=
  ∀ i, ∃ l, Links s.next (s.destinations i) l ∧ ∀ d ∈ l, d < c.destinationsCount

/-- The ids of a header are in the array and differ, and the last one has no link left when the splitter's old
list is taken apart. -/
structure Fits (c : SplitterConfig) (s : Splitters δ) (h : InfoHeader) : Prop where
  lt : ∀ id ∈ destinationIds c h, id < c.destinationsCount
  nodup : (destinationIds c h).Nodup
  last : ∀ d ∈ (destinationIds c h).getLast?, s.next d = none ∨ ∃ l, Links s.next (s.destinations h.id) l ∧ d ∈ l

/-- The headers that `UpdateInfo` takes fit. -/
def InfosFit (c : SplitterConfig) (input : SplitterInput) : ℕ → ℕ → Splitters δ → Prop
  | 0, _, _ => True
  | count + 1, offset, s => ∀ h ∈ headerAt c input offset, Fits c s h ∧
      ∀ s' ∈ recomposeDestination c s h, InfosFit c input count (h.next offset) (s'.updateInfo h)

/-- The headers of updates fit. -/
def UpdatesFit (c : SplitterConfig) (update : SplitterInput → δ → δ) : List SplitterInput → Splitters δ → Prop
  | [], _ => True
  | input :: inputs, s =>
      (¬(c.destinationsCount = 0 ∨ c.infoCount = 0) → input 0 = 0x48444E53 →
        InfosFit c input (input 4).toNat 0x20 { s with hasNewConnection := fun _ => false }) ∧
      ∀ r ∈ updateSplitters c update input s, UpdatesFit c update inputs r.2

/-- The header that `UpdateInfo` takes last. -/
def lastInfo (c : SplitterConfig) (input : SplitterInput) : ℕ → ℕ → Option InfoHeader → Option InfoHeader
  | 0, _, last => last
  | count + 1, offset, last =>
    match headerAt c input offset with
    | none => last
    | some h => lastInfo c input count (h.next offset) (some h)

/-- The header that is taken last. -/
def lastHeader (c : SplitterConfig) (last : Option InfoHeader) (input : SplitterInput) : Option InfoHeader :=
  if c.destinationsCount = 0 ∨ c.infoCount = 0 then last
  else if input 0 ≠ 0x48444E53 then last
  else lastInfo c input (input 4).toNat 0x20 last

/-- Calls of `Update`, one after the other. -/
def updates (c : SplitterConfig) (update : SplitterInput → δ → δ) :
    List SplitterInput → Splitters δ → Option (Splitters δ)
  | [], s => some s
  | input :: inputs, s => (updateSplitters c update input s).bind fun r => updates c update inputs r.2

/-- The list of a header's splitter is what the header names. -/
def Named (c : SplitterConfig) (s : Splitters δ) (h : InfoHeader) : Prop :=
  Links s.next (s.destinations h.id) (destinationIds c h)

/-- **A header that fits** keeps the lists well formed, and its splitter's list is what it names. -/
theorem recomposeDestination_spec (hs : WellFormed c s) (hfits : Fits c s h) :
    ∃ s', recomposeDestination c s h = some s' ∧ WellFormed c s' ∧ Named c s' h := by
  obtain ⟨l, hl, hlt⟩ := hs h.id
  have hlength := (subperm_of_subset hl.nodup fun d hd => mem_range.2 (hlt d hd)).length_le
  rw [length_range] at hlength
  unfold recomposeDestination Named
  rw [unlink_eq hl (Nat.le_succ_of_le hlength) hlt, Option.bind_some]
  obtain ⟨next, hnext⟩ : ∃ next : ℕ → Option ℕ, ∀ d, next d = if d ∈ l then none else s.next d := ⟨_, fun _ => rfl⟩
  rw [← funext hnext]
  have hends : ∀ i, ∃ l', Links next (s.destinations i) l' ∧ ∀ d ∈ l', d < c.destinationsCount := fun i => by
    obtain ⟨l', hl', hlt'⟩ := hs i
    refine hl'.reroute hlt' fun d hd => ?_
    by_cases hdl : d ∈ l
    · have hnone : next d = none := by rw [hnext, if_pos hdl]
      exact .inr ⟨[d], .cons (hnone ▸ .nil), by simpa using hd⟩
    · exact .inl (by rw [hnext, if_neg hdl])
  obtain ⟨hids, hnodup, hlast⟩ := hfits
  generalize destinationIds c h = ids at hids hnodup hlast ⊢
  cases ids with
  | nil =>
    refine ⟨_, rfl, fun i => ?_, by simpa using Links.nil⟩
    by_cases hi : i = h.id
    · exact ⟨[], by simpa [hi] using Links.nil, nofun⟩
    · simpa [update_of_ne hi] using hends i
  | cons head rest =>
    have hlinks : Links (link head rest next) (some head) (head :: rest) := link_links hnodup fun d hd => by
      rw [hnext]
      split_ifs with hdl
      · rfl
      · exact (hlast d hd).resolve_right fun ⟨l', hl', hd'⟩ => hdl (hl.unique hl' ▸ hd')
    dsimp only
    rw [if_pos hids]
    refine ⟨_, rfl, fun i => ?_, by simpa using hlinks⟩
    by_cases hi : i = h.id
    · exact ⟨_, by simpa [hi] using hlinks, hids⟩
    · obtain ⟨l', hl', hlt'⟩ := hends i
      dsimp only
      rw [update_of_ne hi]
      refine hl'.reroute hlt' fun d _ => ?_
      by_cases hd : d ∈ head :: rest
      · obtain ⟨l'', hsuffix, hl''⟩ := hlinks.suffix hd
        exact .inr ⟨l'', hl'', fun e he => hids e (hsuffix.subset he)⟩
      · exact .inl (link_eq hd)

theorem updateInfo_spec {input : SplitterInput} {count offset : ℕ} {last : Option InfoHeader} (hs : WellFormed c s)
    (hfit : InfosFit c input count offset s) (hlast : ∀ h ∈ last, Named c s h) :
    ∃ r, updateInfo c input count offset s = some r ∧ WellFormed c r.2 ∧
      ∀ h ∈ lastInfo c input count offset last, Named c r.2 h := by
  induction count generalizing offset s last with
  | zero => exact ⟨_, rfl, hs, hlast⟩
  | succ count ih =>
    rw [updateInfo, lastInfo]
    cases hheader : headerAt c input offset with
    | none => exact ⟨_, rfl, hs, hlast⟩
    | some h =>
      obtain ⟨hfits, hfit⟩ := hfit h hheader
      obtain ⟨s', hs', hwell, hnamed⟩ := recomposeDestination_spec hs hfits
      dsimp only
      rw [hs', Option.bind_some]
      refine ih (s := s'.updateInfo h) hwell (hfit s' hs') fun h' hh' => ?_
      obtain rfl := Option.some.inj hh'
      exact hnamed

theorem updateData_links (input : SplitterInput) (count offset : ℕ) (s : Splitters δ) :
    (updateData c update input count offset s).2.next = s.next ∧
      (updateData c update input count offset s).2.destinations = s.destinations := by
  induction count generalizing offset s with
  | zero => exact ⟨rfl, rfl⟩
  | succ count ih =>
    rw [updateData]
    split_ifs <;> first | exact ⟨rfl, rfl⟩ | exact ih _ _

/-- **While the ids fit, updates keep the lists well formed**: no destination outside the array is accessed, every
list ends, and that of the splitter updated last is what its header names.  Those are the ids that count: without
the bug fix a header that brings more than its share of the destinations names only the first of them. -/
theorem updates_wellFormed {inputs : List SplitterInput} {last : Option InfoHeader} (hs : WellFormed c s)
    (hlast : ∀ h ∈ last, Named c s h) (hfit : UpdatesFit c update inputs s) :
    ∃ s', updates c update inputs s = some s' ∧ WellFormed c s' ∧
      ∀ h ∈ inputs.foldl (lastHeader c) last, Named c s' h := by
  induction inputs generalizing s last with
  | nil => exact ⟨s, rfl, hs, hlast⟩
  | cons input inputs ih =>
    obtain ⟨r, hr, hwell, hnamed⟩ : ∃ r, updateSplitters c update input s = some r ∧ WellFormed c r.2 ∧
        ∀ h ∈ lastHeader c last input, Named c r.2 h := by
      unfold updateSplitters lastHeader
      split_ifs with hempty hmagic
      · exact ⟨_, rfl, hs, hlast⟩
      · exact ⟨_, rfl, hs, hlast⟩
      · obtain ⟨r, hr, hwell, hnamed⟩ := updateInfo_spec (s := { s with hasNewConnection := fun _ => false }) hs
          (hfit.1 hempty (not_not.1 hmagic)) hlast
        obtain ⟨hnext, hdestinations⟩ := @updateData_links _ c update input (input 8).toNat r.1 r.2
        rw [hr]
        refine ⟨_, rfl, ?_, ?_⟩
        · unfold WellFormed
          rwa [hnext, hdestinations]
        · unfold Named
          rwa [hnext, hdestinations]
    rw [updates, hr, Option.bind_some]
    exact ih hwell hnamed (hfit.2 r hr)

end Updates

/-- One splitter, one destination and a header that names one. -/
def oneDestination : SplitterConfig := { infoCount := 1, destinationsCount := 1 }

def oneHeader (id : BitVec 32) : SplitterInput
  | 0 => 0x48444E53
  | 4 => 1
  | 32 => 0x49444E53
  | 44 => 1
  | 48 => id
  | _ => 0

def noLists : Splitters Unit := ⟨fun _ => none, fun _ => 0, fun _ => 0, fun _ => true, fun _ => none, fun _ => ()⟩

/-- Two splitters and five destinations. -/
def fiveDestinations : SplitterConfig := { infoCount := 2, destinationsCount := 5 }

/-- The words of a buffer. -/
def ofWords (words : List (BitVec 32)) : SplitterInput := fun offset => words.getD (offset / 4) 0

/-- Headers for both splitters, with two destinations each. -/
def twoHeaders : SplitterInput := ofWords [0x48444E53, 2, 0, 0, 0, 0, 0, 0,
  0x49444E53, 0, 0, 2, 0, 1, 0, 0, 0, 0x49444E53, 1, 0, 2, 2, 3]

/-- A header that gives the first splitter its destinations in another order, with one between them. -/
def relinkHeader : SplitterInput := ofWords [0x48444E53, 1, 0, 0, 0, 0, 0, 0, 0x49444E53, 0, 0, 3, 1, 4, 0]

/-- The last destination of the second update still has a link when it comes, in the list that is taken apart. -/
theorem updates_wellFormed_relinked :
    ∃ s', updates fiveDestinations (fun _ d => d) [twoHeaders, relinkHeader] noLists = some s' ∧
      WellFormed fiveDestinations s' ∧ Links s'.next (s'.destinations 0) [1, 4, 0] := by
  have hfit : UpdatesFit fiveDestinations (fun _ d => d) [twoHeaders, relinkHeader] noLists := by
    refine ⟨fun _ _ h hh => ?_, fun r hr => ⟨fun _ _ h hh => ?_, fun _ _ => trivial⟩⟩
    · obtain rfl := Option.some.inj hh
      refine ⟨⟨by decide, by decide, fun _ _ => .inl rfl⟩, fun s' hs' h hh => ?_⟩
      obtain rfl := Option.some.inj hs'
      obtain rfl := Option.some.inj hh
      refine ⟨⟨by decide, by decide, fun d hd => .inl ?_⟩, fun _ _ => trivial⟩
      obtain rfl := Option.some.inj hd
      rfl
    · obtain rfl := Option.some.inj hr
      obtain rfl := Option.some.inj hh
      refine ⟨⟨by decide, by decide, fun d hd => .inr ⟨[0, 1], .cons (.cons .nil), ?_⟩⟩, fun _ _ => trivial⟩
      obtain rfl := Option.some.inj hd
      decide
  obtain ⟨s', hs', hwell, hnamed⟩ := updates_wellFormed (fun _ => ⟨[], .nil, nofun⟩)
    (show ∀ h ∈ none, Named fiveDestinations noLists h from nofun) hfit
  exact ⟨s', hs', hwell, hnamed _ rfl⟩

/-- An id outside the array is not noticed. -/
theorem not_updates_strayId : ¬∃ s', updates oneDestination (fun _ d => d) [oneHeader 5] noLists = some s' := by
  rintro ⟨s', hs'⟩
  have hnone : (updates oneDestination (fun _ d => d) [oneHeader 5] noLists).isSome = false := by decide
  rw [hs'] at hnone
  cases hnone

end AudioCore
end NXEmu
