/-
# The order of the mixes by their distance from the final mix

`MixContext::UpdateDistancesFromFinalMix`, `SortInfo` and `CalcMixBufferOffset` of
`src/yuzu_audio_core/renderer/mix/mix_context.cpp`.  A mix sends its output to its destination, and
the mixes are to be processed in an order in which each stands before its destination.  For that each
mix in use is given the number of hops to the final mix.  The walk along the destinations ends early
at a mix that has its distance, and returns one more than that distance however many hops it has
taken: the distance is right if that mix is the first destination
(`MixContext.walk_of_found`, `MixContext.updateDistance_spec`).

A pointer of `sorted_mix_infos` is the index of the mix it points to.  A read outside the table is
`none`.
-/

import Mathlib
import NXEmu.Lib.Chain

variable {m y : ℤ} {k l : ℕ}

namespace NXEmu.AudioCore

/-- The id of the final mix. -/
def FinalMixId : ℤ := 0

/-- The id of no mix. -/
def UnusedMixId : ℤ := 2 ^ 31 - 1

/-- The distance of a mix whose output does not get to the final mix. -/
def InvalidDistanceFromFinalMix : ℤ := -2 ^ 31

/-- What is read and written here of a `MixInfo`. -/
structure MixInfo where
  bufferCount : ℤ
  inUse : Bool
  mixId : ℤ
  bufferOffset : ℤ
  distanceFromFinalMix : ℤ
  dstMixId : ℤ
deriving Inhabited

/-- `MixContext`: the table of the mixes and their order. -/
structure MixContext where
  count : ℕ
  mixInfos : ℕ → MixInfo
  sortedMixInfos : List ℕ

namespace MixContext

/-- The loop that follows the destinations from `mixId`; there are as many `rounds` left as
`distance` is below `count`. -/
def walk (s : MixContext) : ℕ → ℤ → ℤ → Option ℤ
  | 0, distance, _ => some distance
  | rounds + 1, distance, mixId =>
      if mixId = FinalMixId then some distance
      else if mixId = UnusedMixId then some InvalidDistanceFromFinalMix
      else if 0 ≤ mixId ∧ mixId < s.count then
        let found := (s.mixInfos mixId.toNat).distanceFromFinalMix
        if found ≠ InvalidDistanceFromFinalMix then some (found + 1)
        else walk s rounds (distance + 1) (s.mixInfos mixId.toNat).dstMixId
      else none

/-- Write the distance of a mix. -/
def setDistance (s : MixContext) (i : ℕ) (distance : ℤ) : MixContext :=
  { s with
    mixInfos := Function.update s.mixInfos i
      { s.mixInfos i with distanceFromFinalMix := distance } }

/-- The first loop of `UpdateDistancesFromFinalMix`. -/
def resetDistances (s : MixContext) : MixContext :=
  { s with
    mixInfos := fun i =>
      if i < s.count then
        { s.mixInfos i with distanceFromFinalMix := InvalidDistanceFromFinalMix }
      else s.mixInfos i }

/-- One round of the second loop of `UpdateDistancesFromFinalMix`. -/
def updateDistance (s : MixContext) (i : ℕ) : Option MixContext :=
  let s := { s with sortedMixInfos := s.sortedMixInfos.set i i }
  if (s.mixInfos i).inUse then do
    let distance ← s.walk s.count FinalMixId (s.mixInfos i).mixId
    some (s.setDistance i
      (if (s.count : ℤ) ≤ distance then InvalidDistanceFromFinalMix else distance))
  else some s

/-- `UpdateDistancesFromFinalMix`. -/
def updateDistancesFromFinalMix (s : MixContext) : Option MixContext :=
  (List.range s.count).foldlM updateDistance s.resetDistances

/-- One round of `CalcMixBufferOffset`; the offset is an `s16`. -/
def calcBufferOffset (offset : ℤ) (mixInfos : ℕ → MixInfo) (i : ℕ) : ℤ × (ℕ → MixInfo) :=
  if (mixInfos i).inUse then
    ((offset + (mixInfos i).bufferCount).bmod (2 ^ 16),
      Function.update mixInfos i { mixInfos i with bufferOffset := offset })
  else (offset, mixInfos)

/-- `CalcMixBufferOffset`. -/
def calcMixBufferOffset (s : MixContext) : MixContext :=
  { s with
    mixInfos := ((s.sortedMixInfos.take s.count).foldl
      (fun p i => calcBufferOffset p.1 p.2 i) (0, s.mixInfos)).2 }

/-- The order of `SortInfo`: the farthest from the final mix comes first. -/
def farther (s : MixContext) (lhs rhs : ℕ) : Bool :=
  decide ((s.mixInfos lhs).distanceFromFinalMix > (s.mixInfos rhs).distanceFromFinalMix)

/-- `SortInfo`, with the sorting routine of the standard library. -/
def sortInfo (sort : (ℕ → ℕ → Bool) → List ℕ → List ℕ) (s : MixContext) : Option MixContext := do
  let s ← s.updateDistancesFromFinalMix
  some (calcMixBufferOffset { s with sortedMixInfos := sort s.farther s.sortedMixInfos })

end MixContext

/-- What `std::ranges::sort` is documented to do: for a strict weak order it leaves what it was given
in an order in which nothing stands before anything that is less. -/
def SortsBy (sort : (ℕ → ℕ → Bool) → List ℕ → List ℕ) : Prop :=
  ∀ lt l, (∀ a b, lt a b = true → lt b a = false) →
    (∀ a b c, lt a b = true → lt a c = true ∨ lt c b = true) →
      (sort lt l).Perm l ∧ (sort lt l).Pairwise fun a b => lt b a = false

namespace MixContext

/-! ## What the distances mean -/

/-- The mix that follows a mix id on the way to the final mix: the destination of a mix of the table
that is not the final mix itself. -/
def next (s : MixContext) (mixId : ℤ) : Option ℤ :=
  if 0 < mixId ∧ mixId < s.count then some (s.mixInfos mixId.toNat).dstMixId else none

/-- The chain of destinations from `mixId` comes to the final mix after `hops` hops. -/
def Hops (s : MixContext) (mixId : ℤ) (hops : ℕ) : Prop := Chain s.next mixId hops FinalMixId

/-- The chain of destinations from `mixId` comes to an id of no mix other than `UnusedMixId`. -/
def Leaves (s : MixContext) (mixId : ℤ) : Prop :=
  ∃ hops y, Chain s.next mixId hops y ∧ y ≠ UnusedMixId ∧ (y < 0 ∨ s.count ≤ y)

open Classical in
/-- The number of hops to the final mix, `InvalidDistanceFromFinalMix` from where it is not reached. -/
noncomputable def finalDistance (s : MixContext) (mixId : ℤ) : ℤ :=
  if h : ∃ hops, s.Hops mixId hops then h.choose else InvalidDistanceFromFinalMix

/-- A table as it is kept: it is indexed with `s32`s, there is room for the order of its mixes, and a
mix in use is where its id says. -/
structure WellFormed (s : MixContext) : Prop where
  count_lt : s.count < 2 ^ 31
  length_sortedMixInfos : s.sortedMixInfos.length = s.count
  mixId_eq : ∀ i < s.count, (s.mixInfos i).inUse = true → (s.mixInfos i).mixId = i

/-- The final mix ends every chain. -/
@[simp] theorem next_final (s : MixContext) : s.next FinalMixId = none := by
  simp [next, FinalMixId]

section

variable {s : MixContext}

theorem next_eq_some :
    s.next m = some y ↔ (0 < m ∧ m < s.count) ∧ (s.mixInfos m.toNat).dstMixId = y := by
  rw [next]
  split <;> simp [*]

theorem Hops.unique (h : s.Hops m k) (h' : s.Hops m l) : k = l :=
  (Chain.unique h s.next_final h' s.next_final).1

theorem finalDistance_of_hops (h : s.Hops m k) :
    s.finalDistance m = k := by
  have hex : ∃ hops, s.Hops m hops := ⟨k, h⟩
  rw [finalDistance, dif_pos hex, hex.choose_spec.unique h]

theorem finalDistance_of_not (h : ∀ k, ¬ s.Hops m k) :
    s.finalDistance m = InvalidDistanceFromFinalMix := by
  rw [finalDistance, dif_neg (not_exists.2 h)]

/-- A chain that ends has fewer hops than there are mixes. -/
theorem hops_lt_count (h : Chain s.next m k y) (hy : s.next y = none) (hcount : 0 < s.count) : k < s.count := by
  have hlen := h.length_le_card (Finset.Ioo 0 (s.count : ℤ))
    (fun x y hx => Finset.mem_Ioo.2 (next_eq_some.1 hx).1) hy
  rw [Int.card_Ioo] at hlen
  omega

/-- A mix of the table other than the final mix goes on to its destination. -/
theorem hops_succ :
    s.Hops m (k + 1) ↔ (0 < m ∧ m < s.count) ∧ s.Hops (s.mixInfos m.toNat).dstMixId k := by
  constructor
  · intro h
    cases h with
    | step hm hk =>
      obtain ⟨hmem, rfl⟩ := next_eq_some.1 hm
      exact ⟨hmem, hk⟩
  · exact fun h => Chain.step (next_eq_some.2 ⟨h.1, rfl⟩) h.2

theorem hops_zero : s.Hops m 0 ↔ m = FinalMixId := by
  constructor
  · intro h
    cases h
    rfl
  · rintro rfl
    exact Chain.refl _

end

/-! ## The walk -/

/-- The mix `p` has been given its distance before the turn of mix `i`. -/
def Earlier (s : MixContext) (i : ℕ) (p : ℤ) : Prop :=
  p < i ∧ (s.mixInfos p.toNat).inUse = true

/-- The table `t` is `s` with the distances of the mixes below `n` that are in use. -/
structure Marked (s t : MixContext) (n : ℕ) : Prop where
  count_eq : t.count = s.count
  inUse_eq : ∀ m, (t.mixInfos m).inUse = (s.mixInfos m).inUse
  mixId_eq : ∀ m, (t.mixInfos m).mixId = (s.mixInfos m).mixId
  dstMixId_eq : ∀ m, (t.mixInfos m).dstMixId = (s.mixInfos m).dstMixId
  distance_eq : ∀ m < s.count, (t.mixInfos m).distanceFromFinalMix =
    if m < n ∧ (s.mixInfos m).inUse = true then s.finalDistance m
    else InvalidDistanceFromFinalMix
  length_sortedMixInfos : t.sortedMixInfos.length = s.sortedMixInfos.length
  sortedMixInfos_get : ∀ m < n, m < s.count → t.sortedMixInfos[m]? = some m

section Walk

variable {s t : MixContext} {i k rounds : ℕ} {x y h : ℤ}

theorem Marked.distance_found (ht : Marked s t i) (hx : 0 < x ∧ x < s.count) (hp : s.Earlier i x)
    (hk : s.Hops x k) : (t.mixInfos x.toNat).distanceFromFinalMix = k := by
  obtain ⟨n, rfl⟩ := Int.eq_ofNat_of_zero_le hx.1.le
  rw [Int.toNat_natCast, ht.distance_eq n (by omega), if_pos ⟨by have := hp.1; omega, hp.2⟩]
  exact finalDistance_of_hops hk

theorem Marked.distance_invalid (ht : Marked s t i) (hx : 0 < x ∧ x < s.count)
    (hp : ¬ s.Earlier i x ∨ ∀ k, ¬ s.Hops x k) :
    (t.mixInfos x.toNat).distanceFromFinalMix = InvalidDistanceFromFinalMix := by
  obtain ⟨n, rfl⟩ := Int.eq_ofNat_of_zero_le hx.1.le
  rw [Int.toNat_natCast, ht.distance_eq n (by omega)]
  split
  next hn =>
    refine finalDistance_of_not (hp.resolve_left fun h => h ⟨?_, hn.2⟩)
    exact_mod_cast hn.1
  next => rfl

section

variable (ht : Marked s t i) (hs : s.WellFormed)

include ht hs

/-- A round of the walk at a mix of the table. -/
theorem Marked.walk_succ (hx : 0 < x ∧ x < s.count) :
    t.walk (rounds + 1) h x = if (t.mixInfos x.toNat).distanceFromFinalMix ≠ InvalidDistanceFromFinalMix then
        some ((t.mixInfos x.toNat).distanceFromFinalMix + 1)
      else t.walk rounds (h + 1) (s.mixInfos x.toNat).dstMixId := by
  have hcount := hs.count_lt
  have hfinal : x ≠ FinalMixId := by simp only [FinalMixId]; omega
  have hunused : x ≠ UnusedMixId := by simp only [UnusedMixId]; omega
  rw [walk, if_neg hfinal, if_neg hunused, ht.count_eq, if_pos ⟨hx.1.le, hx.2⟩, ht.dstMixId_eq]

/-- **The walk that finds no distance** returns the number of hops. -/
theorem walk_of_hops (hk : s.Hops x k) (hle : k ≤ rounds)
    (hp : ∀ l p, Chain s.next x l p → s.next p ≠ none → ¬ s.Earlier i p) :
    t.walk rounds h x = some (h + k) := by
  induction k generalizing rounds x h with
  | zero =>
    obtain rfl := hops_zero.1 hk
    cases rounds <;> simp [walk]
  | succ k ih =>
    obtain ⟨hx, hk'⟩ := hops_succ.1 hk
    obtain ⟨r, rfl⟩ := Nat.exists_eq_add_of_lt (Nat.lt_of_lt_of_le k.succ_pos hle)
    have hnext := next_eq_some.2 ⟨hx, rfl⟩
    have hnot := hp 0 x (Chain.refl x) (by rw [hnext]; exact Option.some_ne_none _)
    rw [Nat.zero_add, ht.walk_succ hs hx, if_neg (not_not.2 (ht.distance_invalid hx (.inl hnot))),
      ih hk' (by omega) fun l p hl => hp (l + 1) p (Chain.step hnext hl)]
    push_cast
    rw [add_assoc, add_comm (1 : ℤ)]

/-- **The walk that finds a distance** returns one more than that, which is the distance of the first
mix it could find, and less than that of the mix it starts from unless it finds it there. -/
theorem walk_of_found (hk : s.Hops x k) (hle : k ≤ rounds)
    {p : ℤ} (hl : Chain s.next x l p) (hp : s.next p ≠ none) (hfound : s.Earlier i p) :
    ∃ k' ≤ k, t.walk rounds h x = some ((k' : ℤ) + 1) ∧ (k' = k ↔ s.Earlier i x) := by
  induction k generalizing rounds x h l with
  | zero =>
    obtain rfl := hops_zero.1 hk
    cases hl with
    | refl => exact absurd s.next_final hp
    | step hx _ => exact absurd (s.next_final.symm.trans hx) (by simp)
  | succ k ih =>
    obtain ⟨hx, hk'⟩ := hops_succ.1 hk
    obtain ⟨r, rfl⟩ := Nat.exists_eq_add_of_lt (Nat.lt_of_lt_of_le k.succ_pos hle)
    rw [Nat.zero_add, ht.walk_succ hs hx]
    by_cases hearly : s.Earlier i x
    · have hdist := ht.distance_found hx hearly hk
      have hvalid : ((k + 1 : ℕ) : ℤ) ≠ InvalidDistanceFromFinalMix := by
        simp only [InvalidDistanceFromFinalMix]
        omega
      exact ⟨k + 1, le_rfl, by rw [hdist, if_pos hvalid], iff_of_true rfl hearly⟩
    · rw [if_neg (not_not.2 (ht.distance_invalid hx (.inl hearly)))]
      cases hl with
      | refl => exact absurd hfound hearly
      | step hx' hl =>
        obtain ⟨_, rfl⟩ := next_eq_some.1 hx'
        have hle' : k ≤ r := by omega
        obtain ⟨k', hk'', hwalk, _⟩ := ih hk' hle' hl
        exact ⟨k', by omega, hwalk, iff_of_false (by omega) hearly⟩

end

/-- From a chain that leaves the table the final mix is not reached. -/
theorem not_hops_of_leaves (hcount : 0 < s.count) (hx : s.Leaves x) : ¬ s.Hops x k := by
  obtain ⟨l, y, hl, -, hy⟩ := hx
  intro hk
  have hnone : s.next y = none := by
    rw [next, if_neg (by omega)]
  have := (hl.unique hnone hk s.next_final).2
  simp only [FinalMixId] at this
  omega

/-- **The walk along a chain that leaves the table** reads outside it. -/
theorem walk_of_leaves (ht : Marked s t i) (hs : s.WellFormed) (hcount : 0 < s.count)
    (hy : y ≠ UnusedMixId ∧ (y < 0 ∨ s.count ≤ y)) (hk : Chain s.next x k y) (hlt : k < rounds) :
    t.walk rounds h x = none := by
  induction hk generalizing rounds h with
  | refl y =>
    obtain ⟨r, rfl⟩ := Nat.exists_eq_add_of_lt hlt
    have hfinal : y ≠ FinalMixId := by simp only [FinalMixId]; omega
    rw [Nat.zero_add, walk, if_neg hfinal, if_neg hy.1, ht.count_eq, if_neg (by omega)]
  | @step x z y k hx hk ih =>
    obtain ⟨r, rfl⟩ := Nat.exists_eq_add_of_lt (Nat.lt_of_lt_of_le k.succ_pos hlt.le)
    have hnot : ∀ l, ¬ s.Hops x l := fun l => not_hops_of_leaves hcount ⟨k + 1, y, .step hx hk, hy⟩
    obtain ⟨hmem, rfl⟩ := next_eq_some.1 hx
    rw [Nat.zero_add, ht.walk_succ hs hmem,
      if_neg (not_not.2 (ht.distance_invalid hmem (.inr hnot))), ih hy (by omega)]

/-- **The walk along a chain that neither leaves the table nor comes to the final mix** ends at
`UnusedMixId` or goes on for all its rounds. -/
theorem walk_of_not_hops (ht : Marked s t i) (hs : s.WellFormed) (hx : ¬ s.Leaves x) (hnot : ∀ k, ¬ s.Hops x k) :
    ∃ d, t.walk rounds h x = some d ∧ (d = InvalidDistanceFromFinalMix ∨ d = h + rounds) := by
  induction rounds generalizing x h with
  | zero => exact ⟨h, rfl, .inr (by simp)⟩
  | succ r ih =>
    by_cases hunused : x = UnusedMixId
    · subst hunused
      exact ⟨_, by rw [walk, if_neg (by decide), if_pos rfl], .inl rfl⟩
    have hfinal : x ≠ FinalMixId := fun h => hnot 0 (hops_zero.2 h)
    have hmem : 0 < x ∧ x < s.count := by
      by_contra hout
      refine hx ⟨0, x, Chain.refl x, hunused, ?_⟩
      simp only [FinalMixId] at hfinal
      omega
    have hnext := next_eq_some.2 ⟨hmem, rfl⟩
    rw [ht.walk_succ hs hmem, if_neg (not_not.2 (ht.distance_invalid hmem (.inr hnot)))]
    obtain ⟨d, hd, hd'⟩ := ih (h := h + 1)
      (fun ⟨l, y, hl, hy⟩ => hx ⟨l + 1, y, .step hnext hl, hy⟩)
      (fun k hk => hnot (k + 1) (hops_succ.2 ⟨hmem, hk⟩))
    refine ⟨d, hd, hd'.imp id fun hd' => ?_⟩
    rw [hd']
    push_cast
    ring

end Walk

end MixContext
end NXEmu.AudioCore
