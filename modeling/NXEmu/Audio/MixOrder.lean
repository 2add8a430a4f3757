/-
# When the mixes are in the order of their routing

`MixContext.UpdateDistancesFromFinalMix` gives a mix the number of hops to the final mix if and only if
its walk finds no distance before the final mix, or finds one at its destination (`RightAt`,
`walk_iff`).  So the order of the table respects the routing exactly in the tables that are
`RoutedInOrder` (`routingRespected_iff`).
-/

import NXEmu.Audio.MixContext

namespace NXEmu.AudioCore.MixContext

open List

variable {s t t' : MixContext} {i m n : ℕ}

/-- A distance that the walk of mix `i` finds is the one of its destination: that mix has been given
its distance, or none on the way to the final mix has. -/
def FoundAtDestination (s : MixContext) (i : ℕ) : Prop :=
  s.Earlier i (s.mixInfos i).dstMixId ∨
    ∀ l p, Chain s.next (s.mixInfos i).dstMixId l p → s.next p ≠ none → ¬ s.Earlier i p

/-- The walk of mix `i` stays in the table and finds no distance that is not the one of its
destination. -/
def RightAt (s : MixContext) (i : ℕ) : Prop :=
  ¬ s.Leaves i ∧ (0 < i → ∀ hops, s.Hops i hops → s.FoundAtDestination i)

/-- The walk of mix `i` goes on from its destination. -/
theorem walk_start (ht : Marked s t i) (hs : s.WellFormed) (hi : 0 < i ∧ i < s.count) (h : ℤ) :
    t.walk s.count h i = t.walk (s.count - 1) (h + 1) (s.mixInfos i).dstMixId := by
  have hmem : (0 : ℤ) < i ∧ (i : ℤ) < s.count := by omega
  have hself : ¬ s.Earlier i (i : ℤ) := fun h => lt_irrefl _ h.1
  have hinvalid := ht.distance_invalid hmem (.inl hself)
  obtain ⟨r, hr⟩ := Nat.exists_eq_add_of_lt (Nat.lt_of_le_of_lt i.zero_le hi.2)
  rw [hr, Nat.zero_add, ht.walk_succ hs hmem, if_neg (not_not.2 hinvalid), Int.toNat_natCast, Nat.add_sub_cancel]

/-- **When a walk gives the right distance.** -/
theorem walk_iff (ht : Marked s t i) (hs : s.WellFormed) (hi : i < s.count) :
    (∃ d, t.walk t.count FinalMixId i = some d ∧
      (if (t.count : ℤ) ≤ d then InvalidDistanceFromFinalMix else d) = s.finalDistance i) ↔ s.RightAt i := by
  rw [ht.count_eq]
  have hcount : 0 < s.count := Nat.lt_of_le_of_lt i.zero_le hi
  by_cases hleaves : s.Leaves i
  · refine iff_of_false ?_ fun h => h.1 hleaves
    rintro ⟨d, hd, -⟩
    obtain ⟨k, y, hk, hy⟩ := hleaves
    have hnone : s.next y = none := by
      rw [next, if_neg (by omega)]
    rw [walk_of_leaves ht hs hcount hy hk (hops_lt_count hk hnone hcount)] at hd
    cases hd
  by_cases hreach : ∃ k, s.Hops i k
  · obtain ⟨k, hk⟩ := hreach
    have hlt := hops_lt_count hk s.next_final hcount
    rw [finalDistance_of_hops hk]
    cases k with
    | zero =>
      obtain rfl : i = 0 := by simpa [FinalMixId] using hops_zero.1 hk
      refine iff_of_true ⟨0, ?_, ?_⟩ ⟨hleaves, fun h => absurd h (lt_irrefl 0)⟩
      · obtain ⟨r, hr⟩ := Nat.exists_eq_add_of_lt hcount
        rw [hr, walk, if_pos (show ((0 : ℕ) : ℤ) = FinalMixId from rfl), FinalMixId]
      · rw [if_neg (by omega), Nat.cast_zero]
    | succ k =>
      obtain ⟨hmem, hk'⟩ := hops_succ.1 hk
      rw [Int.toNat_natCast] at hk'
      have hpos : 0 < i := by omega
      have hle : k ≤ s.count - 1 := by omega
      rw [walk_start ht hs ⟨hpos, hi⟩]
      by_cases hfound : ∃ l p, Chain s.next (s.mixInfos i).dstMixId l p ∧ s.next p ≠ none ∧ s.Earlier i p
      · obtain ⟨l, p, hl, hp, hearly⟩ := hfound
        obtain ⟨k', hk'le, hwalk, hiff⟩ := walk_of_found (h := FinalMixId + 1) ht hs hk' hle hl hp
          hearly
        have hright : s.RightAt i ↔ k' = k := by
          refine Iff.trans ⟨fun h => ?_, fun h => ⟨hleaves, fun _ _ _ => .inl h⟩⟩ hiff.symm
          exact (h.2 hpos _ hk).resolve_right fun hnone => hnone l p hl hp hearly
        rw [hwalk, hright]
        constructor
        · rintro ⟨d, hd, hd'⟩
          obtain rfl := Option.some.inj hd
          rw [if_neg (by omega)] at hd'
          omega
        · rintro rfl
          exact ⟨_, rfl, by rw [if_neg (by omega)]; push_cast; rfl⟩
      · have hnone : ∀ l p, Chain s.next (s.mixInfos i).dstMixId l p → s.next p ≠ none →
            ¬ s.Earlier i p := fun l p hl hp hearly => hfound ⟨l, p, hl, hp, hearly⟩
        refine iff_of_true ⟨_, walk_of_hops ht hs hk' hle hnone, ?_⟩ ⟨hleaves, fun _ _ _ => .inr hnone⟩
        have hbelow : ¬ (s.count : ℤ) ≤ FinalMixId + 1 + k := by
          simp only [FinalMixId]
          omega
        rw [if_neg hbelow, FinalMixId]
        push_cast
        ring
  · have hnot := not_exists.1 hreach
    have hwalk : ∃ d, t.walk s.count FinalMixId i = some d ∧
        (d = InvalidDistanceFromFinalMix ∨ d = FinalMixId + s.count) :=
      walk_of_not_hops ht hs hleaves hnot
    obtain ⟨d, hd, hd'⟩ := hwalk
    refine iff_of_true ⟨d, hd, ?_⟩ ⟨hleaves, fun _ k hk => absurd hk (hnot k)⟩
    rw [finalDistance_of_not hnot]
    rcases hd' with rfl | rfl
    · split <;> rfl
    · rw [if_pos (by simp [FinalMixId])]

/-! ## The loop over the mixes -/

/-- Before the first round no mix has a distance. -/
theorem marked_resetDistances (s : MixContext) : Marked s s.resetDistances 0 where
  count_eq := rfl
  inUse_eq m := by simp only [resetDistances]; split <;> rfl
  mixId_eq m := by simp only [resetDistances]; split <;> rfl
  dstMixId_eq m := by simp only [resetDistances]; split <;> rfl
  distance_eq m hm := by simp [resetDistances, hm]
  length_sortedMixInfos := rfl
  sortedMixInfos_get m hm := absurd hm m.not_lt_zero

section

variable (ht : Marked s t i)

include ht

/-- The entry of the order that a round writes. -/
theorem Marked.setSorted :
    Marked s { t with sortedMixInfos := t.sortedMixInfos.set i i } i where
  count_eq := ht.count_eq
  inUse_eq := ht.inUse_eq
  mixId_eq := ht.mixId_eq
  dstMixId_eq := ht.dstMixId_eq
  distance_eq := ht.distance_eq
  length_sortedMixInfos := by rw [length_set, ht.length_sortedMixInfos]
  sortedMixInfos_get m hm hmc := by
    rw [getElem?_set_ne (Nat.ne_of_gt hm), ht.sortedMixInfos_get m hm hmc]

/-- A round on a mix that is not in use. -/
theorem Marked.succ_of_unused (hget : t.sortedMixInfos[i]? = some i)
    (hu : ¬ (s.mixInfos i).inUse = true) : Marked s t (i + 1) where
  count_eq := ht.count_eq
  inUse_eq := ht.inUse_eq
  mixId_eq := ht.mixId_eq
  dstMixId_eq := ht.dstMixId_eq
  distance_eq m hm := by
    rw [ht.distance_eq m hm]
    rcases eq_or_ne m i with rfl | hne
    · simp [hu]
    · have hlt : m < i + 1 ↔ m < i := by omega
      simp only [hlt]
  length_sortedMixInfos := ht.length_sortedMixInfos
  sortedMixInfos_get m hm hmc := by
    rcases Nat.lt_succ_iff_lt_or_eq.1 hm with hm | rfl
    · exact ht.sortedMixInfos_get m hm hmc
    · exact hget

/-- A round that writes the right distance. -/
theorem Marked.setDistance (hget : t.sortedMixInfos[i]? = some i)
    (hu : (s.mixInfos i).inUse = true) : Marked s (t.setDistance i (s.finalDistance i)) (i + 1) where
  count_eq := ht.count_eq
  inUse_eq m := by
    rcases eq_or_ne m i with rfl | hne <;> simp [MixContext.setDistance, ht.inUse_eq, *]
  mixId_eq m := by
    rcases eq_or_ne m i with rfl | hne <;> simp [MixContext.setDistance, ht.mixId_eq, *]
  dstMixId_eq m := by
    rcases eq_or_ne m i with rfl | hne <;> simp [MixContext.setDistance, ht.dstMixId_eq, *]
  distance_eq m hm := by
    rcases eq_or_ne m i with rfl | hne
    · simp [MixContext.setDistance, hu]
    · have hlt : m < i + 1 ↔ m < i := by omega
      simp only [MixContext.setDistance, Function.update_of_ne hne, ht.distance_eq m hm, hlt]
  length_sortedMixInfos := ht.length_sortedMixInfos
  sortedMixInfos_get m hm hmc := by
    rcases Nat.lt_succ_iff_lt_or_eq.1 hm with hm | rfl
    · exact ht.sortedMixInfos_get m hm hmc
    · exact hget

/-- **A round on a mix whose walk is right** adds the distance of that mix. -/
theorem exists_updateDistance (hs : s.WellFormed) (hi : i < s.count)
    (hright : (s.mixInfos i).inUse = true → s.RightAt i) :
    ∃ t', t.updateDistance i = some t' ∧ Marked s t' (i + 1) := by
  have hget : (t.sortedMixInfos.set i i)[i]? = some i := by
    rw [getElem?_set_self]
    rw [ht.length_sortedMixInfos, hs.length_sortedMixInfos]
    exact hi
  have ht' := ht.setSorted
  simp only [updateDistance, ht.inUse_eq]
  by_cases hu : (s.mixInfos i).inUse = true
  · obtain ⟨d, hd, hd'⟩ := (walk_iff ht' hs hi).2 (hright hu)
    rw [if_pos hu, ht.mixId_eq, hs.mixId_eq i hi hu, hd]
    simp only [Option.bind_eq_bind, Option.bind_some, hd']
    exact ⟨_, rfl, ht'.setDistance hget hu⟩
  · rw [if_neg hu]
    exact ⟨_, rfl, ht'.succ_of_unused hget hu⟩

/-- A round that writes the right distance is one whose walk is right. -/
theorem rightAt_of_updateDistance (hs : s.WellFormed) (hi : i < s.count)
    (h : t.updateDistance i = some t') (hu : (s.mixInfos i).inUse = true)
    (hd : (t'.mixInfos i).distanceFromFinalMix = s.finalDistance i) : s.RightAt i := by
  simp only [updateDistance, ht.inUse_eq] at h
  rw [if_pos hu, ht.mixId_eq, hs.mixId_eq i hi hu] at h
  obtain ⟨d, hwalk, h⟩ := Option.bind_eq_some_iff.1 h
  obtain rfl := Option.some.inj h
  simp only [setDistance, Function.update_self] at hd
  exact (walk_iff ht.setSorted hs hi).1 ⟨d, hwalk, hd⟩

end

/-- A round writes no other distance. -/
theorem updateDistance_of_ne (h : t.updateDistance i = some t') (hne : m ≠ i) :
    (t'.mixInfos m).distanceFromFinalMix = (t.mixInfos m).distanceFromFinalMix := by
  simp only [updateDistance] at h
  split at h
  · obtain ⟨d, -, h⟩ := Option.bind_eq_some_iff.1 h
    obtain rfl := Option.some.inj h
    simp [setDistance, hne]
  · obtain rfl := Option.some.inj h
    rfl

theorem foldlM_updateDistance_of_notMem {l : List ℕ} (h : l.foldlM updateDistance t = some t') (hm : m ∉ l) :
    (t'.mixInfos m).distanceFromFinalMix = (t.mixInfos m).distanceFromFinalMix := by
  induction l generalizing t with
  | nil =>
    obtain rfl := Option.some.inj h
    rfl
  | cons i l ih =>
    rw [mem_cons, not_or] at hm
    obtain ⟨u, hu, h⟩ := Option.bind_eq_some_iff.1 h
    rw [ih h hm.2, updateDistance_of_ne hu hm.1]

/-- **Where every walk is right**, every round is made and adds a distance. -/
theorem exists_updateDistances (hs : s.WellFormed)
    (hright : ∀ i < s.count, (s.mixInfos i).inUse = true → s.RightAt i) (hn : n ≤ s.count) :
    ∃ t, (range n).foldlM updateDistance s.resetDistances = some t ∧ Marked s t n := by
  induction n with
  | zero => exact ⟨_, rfl, marked_resetDistances s⟩
  | succ n ih =>
    obtain ⟨t, hrun, ht⟩ := ih (Nat.le_of_succ_le hn)
    obtain ⟨t', hstep, ht'⟩ := exists_updateDistance ht hs hn (hright n hn)
    refine ⟨t', ?_, ht'⟩
    rw [range_succ, foldlM_append, hrun]
    simp [hstep]

/-- **Where every distance is right at the end**, every walk was. -/
theorem rightAt_of_updateDistances (hs : s.WellFormed) (hrun : s.updateDistancesFromFinalMix = some t)
    (hd : ∀ i < s.count, (s.mixInfos i).inUse = true →
      (t.mixInfos i).distanceFromFinalMix = s.finalDistance i) (hn : n ≤ s.count) :
    (∃ u, (range n).foldlM updateDistance s.resetDistances = some u ∧ Marked s u n) ∧
      ∀ i < n, (s.mixInfos i).inUse = true → s.RightAt i := by
  induction n with
  | zero => exact ⟨⟨_, rfl, marked_resetDistances s⟩, fun i hi => absurd hi i.not_lt_zero⟩
  | succ n ih =>
    obtain ⟨⟨u, hu, hmarked⟩, hright⟩ := ih (Nat.le_of_succ_le hn)
    have hn' : (s.mixInfos n).inUse = true → s.RightAt n := by
      intro huse
      obtain ⟨r, hr⟩ := Nat.exists_eq_add_of_le hn
      rw [updateDistancesFromFinalMix, hr, range_add, range_succ, foldlM_append,
        foldlM_append, hu] at hrun
      obtain ⟨v, hstep, hrest⟩ := Option.bind_eq_some_iff.1 hrun
      have hstep : u.updateDistance n = some v := by simpa using hstep
      refine rightAt_of_updateDistance hmarked hs hn hstep huse ?_
      rw [← hd n hn huse]
      refine (foldlM_updateDistance_of_notMem hrest fun hmem => ?_).symm
      obtain ⟨a, -, ha⟩ := mem_map.1 hmem
      omega
    obtain ⟨v, hstep, hmarked'⟩ := exists_updateDistance hmarked hs hn hn'
    refine ⟨⟨v, ?_, hmarked'⟩, fun i hi => ?_⟩
    · rw [range_succ, foldlM_append, hu]
      simp [hstep]
    · rcases Nat.lt_succ_iff_lt_or_eq.1 hi with hi | rfl
      · exact hright i hi
      · exact hn'

/-! ## The order -/

/-- Every mix in use gets its distance from the final mix, and then stands before its destination if
the final mix is reached from it. -/
def RoutingRespected (sort : (ℕ → ℕ → Bool) → List ℕ → List ℕ) (s : MixContext) : Prop :=
  ∃ t, s.updateDistancesFromFinalMix = some t ∧
    (∀ i < s.count, (s.mixInfos i).inUse = true →
      (t.mixInfos i).distanceFromFinalMix = s.finalDistance i) ∧
    ∃ t', s.sortInfo sort = some t' ∧
      ∀ i < s.count, (s.mixInfos i).inUse = true → (∃ hops, s.Hops i hops) →
        ∀ j < s.count, (s.mixInfos i).dstMixId = j → [i, j].Sublist t'.sortedMixInfos

/-- No chain of a mix in use leaves the table, a walk finds no distance before the final mix that is
not the one of its first destination, and the final mix is not sent to a mix in use from which it is
reached. -/
structure RoutedInOrder (s : MixContext) : Prop where
  stays : ∀ i < s.count, (s.mixInfos i).inUse = true → ¬ s.Leaves i
  found : ∀ i < s.count, 0 < i → (s.mixInfos i).inUse = true → (∃ hops, s.Hops i hops) →
    s.FoundAtDestination i
  final : 0 < s.count → (s.mixInfos 0).inUse = true → ∀ j < s.count,
    (s.mixInfos 0).dstMixId = j → (s.mixInfos j).inUse = true → ∀ hops, ¬ s.Hops j hops

/-- Two of a list without repetitions stand in one order or the other. -/
theorem sublist_or_sublist {l : List ℕ} {i j : ℕ} (hi : i ∈ l) (hj : j ∈ l) (hne : i ≠ j) :
    [i, j].Sublist l ∨ [j, i].Sublist l := by
  have hpair : l.Pairwise fun a b => [a, b].Sublist l ∨ [b, a].Sublist l :=
    pairwise_of_forall_sublist Or.inl
  have : Std.Symm fun a b => [a, b].Sublist l ∨ [b, a].Sublist l := ⟨fun _ _ => Or.symm⟩
  exact hpair.forall hi hj hne

/-- The table in which every round has added a distance has its mixes in the order of their indices. -/
theorem Marked.sortedMixInfos_eq (ht : Marked s t s.count) (hs : s.WellFormed) :
    t.sortedMixInfos = range s.count := by
  refine ext_getElem? fun m => ?_
  rcases Nat.lt_or_ge m s.count with hm | hm
  · rw [ht.sortedMixInfos_get m hm hm, getElem?_range hm]
  · rw [getElem?_eq_none (by rw [ht.length_sortedMixInfos, hs.length_sortedMixInfos]; exact hm),
      getElem?_eq_none (by rw [length_range]; exact hm)]

section SortInfo

variable {sort : (ℕ → ℕ → Bool) → List ℕ → List ℕ}

/-- What `SortInfo` leaves is an order of the mixes in which none stands after one that is nearer to
the final mix. -/
theorem sort_farther (hsort : SortsBy sort) (t : MixContext) (l : List ℕ) :
    (sort t.farther l).Perm l ∧ (sort t.farther l).Pairwise fun a b =>
      (t.mixInfos b).distanceFromFinalMix ≤ (t.mixInfos a).distanceFromFinalMix := by
  obtain ⟨hperm, hpair⟩ := hsort t.farther l
    (fun a b h => by simp only [farther, decide_eq_true_eq, decide_eq_false_iff_not] at h ⊢; omega)
    (fun a b c h => by simp only [farther, decide_eq_true_eq] at h ⊢; omega)
  refine ⟨hperm, hpair.imp fun {a b} h => ?_⟩
  simp only [farther, decide_eq_false_iff_not] at h
  omega

/-- A mix that is farther from the final mix than another one stands before it. -/
theorem sublist_sort (hsort : SortsBy sort) {l : List ℕ} {i j : ℕ} (hi : i ∈ l) (hj : j ∈ l)
    (hlt : (t.mixInfos j).distanceFromFinalMix < (t.mixInfos i).distanceFromFinalMix) :
    [i, j].Sublist (sort t.farther l) := by
  obtain ⟨hperm, hpair⟩ := sort_farther hsort t l
  have hne : i ≠ j := by
    rintro rfl
    exact lt_irrefl _ hlt
  refine (sublist_or_sublist (hperm.mem_iff.2 hi) (hperm.mem_iff.2 hj) hne).resolve_right fun h => ?_
  have := pairwise_iff_forall_sublist.1 hpair h
  omega

/-- The mix at the end of a hop is nearer to the final mix, or its distance is not known. -/
theorem Marked.distance_lt (ht : Marked s t s.count) {i j k : ℕ} (hi : i < s.count)
    (hu : (s.mixInfos i).inUse = true) (hk : s.Hops i (k + 1)) (hj : j < s.count)
    (hdst : (s.mixInfos i).dstMixId = j) :
    (t.mixInfos j).distanceFromFinalMix < (t.mixInfos i).distanceFromFinalMix := by
  have hk' := (hops_succ.1 hk).2
  rw [Int.toNat_natCast, hdst] at hk'
  rw [ht.distance_eq i hi, if_pos ⟨hi, hu⟩, ht.distance_eq j hj, finalDistance_of_hops hk]
  split
  · rw [finalDistance_of_hops hk']
    omega
  · simp only [InvalidDistanceFromFinalMix]
    omega

/-- **Exactly in the tables that are routed in order** has every mix in use its number of hops, and
stands before its destination once the mixes are sorted: a walk that finds the distance of an earlier
mix after more than one hop forgets the hops. -/
theorem routingRespected_iff (hsort : SortsBy sort) (hs : s.WellFormed) :
    RoutingRespected sort s ↔ s.RoutedInOrder := by
  constructor
  · rintro ⟨t, hrun, hd, t', hrun', horder⟩
    obtain ⟨⟨u, hu, hmarked⟩, hright⟩ := rightAt_of_updateDistances hs hrun hd le_rfl
    obtain rfl : u = t := Option.some.inj (hu.symm.trans hrun)
    refine ⟨fun i hi huse => (hright i hi huse).1,
      fun i hi hpos huse ⟨k, hk⟩ => (hright i hi huse).2 hpos k hk, ?_⟩
    intro hcount huse j hj hdst husej k hk
    have hfinal : s.Hops (0 : ℕ) 0 := Chain.refl _
    have hsub := horder 0 hcount huse ⟨0, hfinal⟩ j hj hdst
    rw [sortInfo, hrun] at hrun'
    obtain rfl := Option.some.inj hrun'
    simp only [calcMixBufferOffset, hmarked.sortedMixInfos_eq hs] at hsub
    obtain ⟨hperm, hpair⟩ := sort_farther hsort u (List.range s.count)
    have hle := List.pairwise_iff_forall_sublist.1 hpair hsub
    rw [hmarked.distance_eq j hj, if_pos ⟨hj, husej⟩, hmarked.distance_eq 0 hcount,
      if_pos ⟨hcount, huse⟩, finalDistance_of_hops hk, finalDistance_of_hops hfinal] at hle
    -- so the destination is the final mix itself, which stands in the order once
    obtain rfl : k = 0 := by omega
    obtain rfl : j = 0 := by simpa [FinalMixId] using hops_zero.1 hk
    have hnodup := (hperm.nodup_iff.2 List.nodup_range).sublist hsub
    simp at hnodup
  · intro h
    obtain ⟨t, hrun, ht⟩ := exists_updateDistances hs
      (fun i hi huse => ⟨h.stays i hi huse, fun hpos k hk => h.found i hi hpos huse ⟨k, hk⟩⟩) le_rfl
    have hrun' : s.updateDistancesFromFinalMix = some t := hrun
    refine ⟨t, hrun', fun i hi huse => ?_, _, by rw [sortInfo, hrun']; rfl, ?_⟩
    · rw [ht.distance_eq i hi, if_pos ⟨hi, huse⟩]
    · rintro i hi huse ⟨k, hk⟩ j hj hdst
      simp only [calcMixBufferOffset, ht.sortedMixInfos_eq hs]
      refine sublist_sort hsort (List.mem_range.2 hi) (List.mem_range.2 hj) ?_
      cases k with
      | zero =>
        obtain rfl : i = 0 := by simpa [FinalMixId] using hops_zero.1 hk
        -- the final mix is sent to a mix whose distance is not known
        rw [ht.distance_eq 0 hi, if_pos ⟨hi, huse⟩, finalDistance_of_hops hk, ht.distance_eq j hj]
        have hinvalid : InvalidDistanceFromFinalMix < ((0 : ℕ) : ℤ) := by decide
        split
        next husej =>
          rw [finalDistance_of_not (h.final hi huse j hj hdst husej.2)]
          exact hinvalid
        next => exact hinvalid
      | succ k => exact ht.distance_lt hi huse hk hj hdst

end SortInfo

/-- A sorting routine as the standard library has it. -/
def stableSort (lt : ℕ → ℕ → Bool) (l : List ℕ) : List ℕ := l.mergeSort fun a b => !lt b a

theorem sortsBy_stableSort : SortsBy stableSort := by
  intro lt l hasymm hneg
  refine ⟨mergeSort_perm l _, ?_⟩
  have htrans : ∀ a b c : ℕ, (!lt b a) = true → (!lt c b) = true → (!lt c a) = true := by
    intro a b c hab hbc
    simp only [Bool.not_eq_true'] at hab hbc ⊢
    cases hca : lt c a with
    | false => rfl
    | true => rcases hneg c a b hca with h | h <;> simp_all
  have htotal : ∀ a b : ℕ, ((!lt b a) || (!lt a b)) = true := by
    intro a b
    cases hba : lt b a with
    | false => rfl
    | true => simp [hasymm b a hba]
  exact (pairwise_mergeSort htrans htotal l).imp fun h => by simpa using h

/-- A table of mixes in use with the given destinations. -/
def ofDestinations (dst : List ℤ) : MixContext where
  count := dst.length
  mixInfos i :=
    { bufferCount := 2, inUse := true, mixId := i, bufferOffset := 0,
      distanceFromFinalMix := InvalidDistanceFromFinalMix, dstMixId := dst.getD i UnusedMixId }
  sortedMixInfos := List.range dst.length

theorem wellFormed_ofDestinations {dst : List ℤ} (h : dst.length < 2 ^ 31) :
    (ofDestinations dst).WellFormed where
  count_lt := h
  length_sortedMixInfos := length_range
  mixId_eq _ _ _ := rfl

/-- The final mix and one that goes to it. -/
theorem routingRespected_iff_chain : RoutingRespected stableSort (ofDestinations [UnusedMixId, 0]) := by
  refine (routingRespected_iff sortsBy_stableSort (wellFormed_ofDestinations (by decide))).2 ⟨?_, ?_, ?_⟩
  · have hfinal : ∀ k y, Chain (ofDestinations [UnusedMixId, 0]).next 0 k y → y = 0 := by
      intro k y h
      cases h with
      | refl => rfl
      | step hx _ => exact absurd (hx.symm.trans (next_final _)) (Option.some_ne_none _)
    rintro i hi - ⟨k, y, h, -, hy⟩
    cases h with
    | refl => change (i : ℤ) < 0 ∨ (2 : ℤ) ≤ i at hy; change i < 2 at hi; omega
    | step hx h =>
      obtain ⟨hmem, rfl⟩ := next_eq_some.1 hx
      obtain rfl : i = 1 := by change i < 2 at hi; omega
      obtain rfl := hfinal _ _ h
      revert hy
      decide
  · intro i hi hpos _ _
    obtain rfl : i = 1 := by change i < 2 at hi; omega
    exact .inl ⟨by decide, rfl⟩
  · intro _ _ j hj hdst
    change j < 2 at hj
    change UnusedMixId = j at hdst
    simp only [UnusedMixId] at hdst
    omega

/-- The mixes `2 → 3 → 1 → 0`: the walk of mix 2 finds the distance of mix 1 after two hops and makes
it its own with one hop added, so that mix 2 is not told from its destination. -/
theorem not_routingRespected_threeHops :
    ¬ ∀ sort, SortsBy sort → ∀ s : MixContext, s.WellFormed →
      (∀ i < s.count, (s.mixInfos i).inUse = true → (s.mixInfos i).dstMixId = UnusedMixId ∨
        0 ≤ (s.mixInfos i).dstMixId ∧ (s.mixInfos i).dstMixId < s.count) →
      RoutingRespected sort s := by
  intro hall
  obtain ⟨t, hrun, hd, -⟩ := hall stableSort sortsBy_stableSort
    (ofDestinations [UnusedMixId, 0, 3, 1]) (wellFormed_ofDestinations (by decide)) (by decide)
  have hhops : (ofDestinations [UnusedMixId, 0, 3, 1]).Hops (2 : ℕ) 3 :=
    .step rfl (.step rfl (.step rfl (.refl _)))
  have hdist := hd 2 (by decide) rfl
  rw [finalDistance_of_hops hhops] at hdist
  have heval : ((ofDestinations [UnusedMixId, 0, 3, 1]).updateDistancesFromFinalMix.map
      fun t => (t.mixInfos 2).distanceFromFinalMix) = some 2 := by decide
  rw [hrun, Option.map_some, hdist] at heval
  exact absurd heval (by decide)

end NXEmu.AudioCore.MixContext
