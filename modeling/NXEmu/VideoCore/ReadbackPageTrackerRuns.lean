/-
# Runs of a readback page tracker

`src/yuzu_video_core/texture_cache/readback_page_tracker.h`: after any calls `ForEachRange` publishes
the bytes that an old copy may still write, and nothing else.  Its state is one range that it may
still extend, and what it has published so far (`Published`).
-/

import NXEmu.VideoCore.ReadbackPageTrackerPages

namespace NXEmu
namespace VideoCommon
namespace ReadbackPageTracker

open Segment List

/-! ### The ranges that are published -/

/-- What `ForEachRange` has when it comes to `pos`: the bytes before it that are wanted. -/
structure Published (address : ℕ) (wanted : ℕ → Prop) (pos : ℕ) (s : RangeState) : Prop where
  ordered : s.published.Pairwise fun r r' => r.1 + r.2 ≤ r'.1
  nonempty : ∀ r ∈ s.published, 0 < r.2
  below : ∀ r ∈ s.published, address + r.1 + r.2 ≤ pos
  pending : s.begin < s.runEnd → address ≤ s.begin ∧ s.runEnd ≤ pos ∧
    ∀ r ∈ s.published, address + r.1 + r.2 ≤ s.begin
  idle : ¬ s.begin < s.runEnd → s.begin = s.runEnd
  mem : ∀ b, ((∃ r ∈ s.published, address + r.1 ≤ b ∧ b < address + r.1 + r.2) ∨
    (s.begin ≤ b ∧ b < s.runEnd)) ↔ b < pos ∧ wanted b

variable {address stop pos lo hi : ℕ} {wanted : ℕ → Prop} {s : RangeState}

theorem published_start : Published address wanted 0 ⟨0, 0, []⟩ where
  ordered := .nil
  nonempty _ h := nomatch h
  below _ h := nomatch h
  pending h := nomatch h
  idle _ := rfl
  mem b := by simp

theorem Published.flush (h : Published address wanted pos s) :
    Published address wanted pos (flush address s) := by
  rw [ReadbackPageTracker.flush]
  by_cases hpending : s.begin < s.runEnd
  · obtain ⟨haddress, hrun, hbelow⟩ := h.pending hpending
    rw [if_pos hpending]
    refine ⟨?_, ?_, ?_, (fun h => nomatch h), fun _ => rfl, fun b => ?_⟩
    · refine pairwise_append.2 ⟨h.ordered, pairwise_singleton _ _, fun r hr r' hr' => ?_⟩
      obtain rfl := mem_singleton.1 hr'
      have := hbelow r hr
      dsimp only
      omega
    · refine forall_mem_append.2 ⟨h.nonempty, forall_mem_singleton.2 ?_⟩
      dsimp only
      omega
    · refine forall_mem_append.2 ⟨h.below, forall_mem_singleton.2 ?_⟩
      dsimp only
      omega
    · rw [← h.mem b]
      constructor
      · rintro (⟨r, hr, hb⟩ | hb)
        · rcases mem_append.1 hr with hr | hr
          · exact .inl ⟨r, hr, hb⟩
          · obtain rfl := mem_singleton.1 hr
            dsimp only at hb
            exact .inr (by omega)
        · dsimp only at hb
          omega
      · rintro (⟨r, hr, hb⟩ | hb)
        · exact .inl ⟨r, mem_append_left _ hr, hb⟩
        · refine .inl ⟨_, mem_append_right _ (mem_singleton_self _), ?_⟩
          dsimp only
          omega
  · rw [if_neg hpending]
    refine ⟨h.ordered, h.nonempty, h.below, (fun h => nomatch h), fun _ => rfl, fun b => ?_⟩
    rw [← h.mem b]
    have := h.idle hpending
    refine or_congr Iff.rfl ?_
    dsimp only
    omega

/-- Bytes that are not wanted. -/
theorem Published.skip (h : Published address wanted pos s) {pos' : ℕ} (hle : pos ≤ pos')
    (hnot : ∀ b, pos ≤ b → b < pos' → ¬ wanted b) : Published address wanted pos' s where
  ordered := h.ordered
  nonempty := h.nonempty
  below r hr := (h.below r hr).trans hle
  pending hp := ⟨(h.pending hp).1, (h.pending hp).2.1.trans hle, (h.pending hp).2.2⟩
  idle := h.idle
  mem b := by
    rw [h.mem b]
    refine ⟨fun hb => ⟨hb.1.trans_le hle, hb.2⟩, fun hb => ⟨?_, hb.2⟩⟩
    by_contra hpos
    exact hnot b (not_lt.1 hpos) hb.1 hb.2

/-- Bytes that are. -/
theorem Published.extend (h : Published address wanted lo s) (haddress : address ≤ lo)
    (hlt : lo < hi) (hwanted : ∀ b, lo ≤ b → b < hi → wanted b) :
    Published address wanted hi (extend address lo hi s) := by
  -- the range goes on, or it starts here
  have hcases : ∃ s', Published address wanted lo s' ∧ (s'.begin < s'.runEnd → lo = s'.runEnd) ∧
      ReadbackPageTracker.extend address lo hi s =
        ⟨if s'.begin = s'.runEnd then lo else s'.begin, hi, s'.published⟩ := by
    by_cases hgap : s.begin < s.runEnd ∧ lo ≠ s.runEnd
    · exact ⟨_, h.flush, (fun h => nomatch h), by simp only [ReadbackPageTracker.extend, if_pos hgap]⟩
    · refine ⟨s, h, fun hp => ?_, by simp only [ReadbackPageTracker.extend, if_neg hgap]⟩
      by_contra hne
      exact hgap ⟨hp, hne⟩
  obtain ⟨s', hs', hrun, heq⟩ := hcases
  rw [heq]
  by_cases hp : s'.begin < s'.runEnd
  · obtain ⟨hbegin, -, hbelow⟩ := hs'.pending hp
    obtain rfl := hrun hp
    rw [if_neg hp.ne]
    refine ⟨hs'.ordered, hs'.nonempty, fun r hr => ?_, fun _ => ⟨hbegin, le_rfl, hbelow⟩,
      fun hnot => absurd (hp.trans hlt) hnot, fun b => ?_⟩
    · exact (hs'.below r hr).trans hlt.le
    · have hmem := hs'.mem b
      dsimp only
      constructor
      · rintro (hr | hb)
        · have := hmem.1 (.inl hr)
          exact ⟨this.1.trans hlt, this.2⟩
        · by_cases hb' : b < s'.runEnd
          · exact ⟨hb.2, (hmem.1 (.inr ⟨hb.1, hb'⟩)).2⟩
          · exact ⟨hb.2, hwanted b (not_lt.1 hb') hb.2⟩
      · rintro ⟨hb, hw⟩
        by_cases hb' : b < s'.runEnd
        · exact (hmem.2 ⟨hb', hw⟩).imp_right fun hr => ⟨hr.1, hb⟩
        · exact .inr ⟨hp.le.trans (not_lt.1 hb'), hb⟩
  · have hidle := hs'.idle hp
    rw [if_pos hidle]
    refine ⟨hs'.ordered, hs'.nonempty, fun r hr => ?_, fun _ => ⟨haddress, le_rfl, hs'.below⟩,
      fun hnot => absurd hlt hnot, fun b => ?_⟩
    · exact (hs'.below r hr).trans hlt.le
    · have hmem := hs'.mem b
      dsimp only
      constructor
      · rintro (hr | hb)
        · have := hmem.1 (.inl hr)
          exact ⟨this.1.trans hlt, this.2⟩
        · exact ⟨hb.2, hwanted b hb.1 hb.2⟩
      · rintro ⟨hb, hw⟩
        by_cases hb' : b < lo
        · rcases hmem.2 ⟨hb', hw⟩ with hr | hr
          · exact .inl hr
          · omega
        · exact .inr ⟨not_lt.1 hb', hb⟩

/-! ### The loops of `ForEachRange` -/

variable {size p : ℕ} {snapshotSerial : BitVec 64} {t : ReadbackPageTracker} {o : Observations}
  {stamp : ℕ → BitVec 64}

/-- The bytes of a range that a copy may still write: their page was observed before it, and no later
copy covers them. -/
def Wanted (o : Observations) (address size : ℕ) (snapshotSerial : BitVec 64) (b : ℕ) : Prop :=
  (address ≤ b ∧ b < address + size) ∧
    (∃ serial, o.observed (pageOf b) = some serial ∧ serial ≤ snapshotSerial) ∧
    o.stamp b ≤ snapshotSerial

/-- The versions of a page whose bytes are wanted when their numbers are not too new. -/
theorem Published.spans {vs : List Version} {x e : ℕ} (htiles : Tiles x vs e)
    (hstamped : Stamped (fun x => stamp (p + x)) vs) (hlimit : p + e < 2 ^ 64)
    (hwanted : ∀ y, x ≤ y → y < e → (wanted (p + y) ↔
      (address ≤ p + y ∧ p + y < stop) ∧ stamp (p + y) ≤ snapshotSerial))
    (h : Published address wanted (p + x) s) :
    Published address wanted (p + e) (vs.foldl (spanStep address stop snapshotSerial p) s) := by
  induction vs generalizing x s with
  | nil =>
    obtain rfl : x = e := htiles
    exact h
  | cons v vs ih =>
    have hv := htiles.mem_bounds mem_cons_self
    obtain ⟨hlo, hlt, htiles⟩ := htiles
    have hstamp := forall_mem_cons.1 hstamped
    have hlo' : v.begin = x := hlo
    have hhi' : v.begin < v.stop ∧ v.stop ≤ e := hv.2
    refine ih htiles hstamp.2 (fun y hy => hwanted y (hlt.le.trans hy)) ?_
    have hin : ∀ b, p + x ≤ b → b < p + v.stop →
        (wanted b ↔ (address ≤ b ∧ b < stop) ∧ v.serial ≤ snapshotSerial) := by
      intro b hb hb'
      obtain ⟨y, rfl⟩ := Nat.exists_eq_add_of_le (show p ≤ b by omega)
      rw [hwanted y (by omega) (by omega), hstamp.1 y ⟨show v.begin ≤ y by omega, show y < v.stop by omega⟩]
    rw [spanStep, add64_eq (by omega), add64_eq (by omega)]
    show Published address wanted (p + v.stop) _
    split
    · rename_i hnew
      refine h.flush.skip (by omega) fun b hb hb' hw => ?_
      exact absurd ((hin b hb hb').1 hw).2 (BitVec.not_le.2 hnew)
    · rename_i hnew
      dsimp only
      split
      · refine h.skip (by omega) fun b hb hb' hw => ?_
        have := ((hin b hb hb').1 hw).1
        omega
      · rename_i hmeet
        rw [hlo'] at hmeet ⊢
        have hstart : Published address wanted (max address (p + x)) s :=
          h.skip (le_max_right _ _) fun b hb hb' hw => by
            have := ((hin b hb (by omega)).1 hw).1
            omega
        have hextend := hstart.extend (le_max_left _ _) (not_le.1 hmeet) fun b hb hb' =>
          (hin b (by omega) (by omega)).2 ⟨by omega, BitVec.not_lt.1 hnew⟩
        refine hextend.skip (by omega) fun b hb hb' hw => ?_
        have := ((hin b (by omega) hb').1 hw).1
        omega

/-- The pages that the loop goes through. -/
theorem Published.pages (ht : Tracks t o) {es : List (ℕ × Page)} (hsorted : es.Pairwise fun e e' => e.1 < e'.1)
    (hpages : ∀ e ∈ es, t.pages.find? e.1 = some e.2 ∧ pos ≤ e.1)
    (hrest : ∀ b, pos ≤ b → Wanted o address size snapshotSerial b → ∃ e ∈ es, e.1 = pageOf b)
    (h : Published address (Wanted o address size snapshotSerial) pos s) :
    ∃ pos', (∀ b, pos' ≤ b → ¬ Wanted o address size snapshotSerial b) ∧
      Published address (Wanted o address size snapshotSerial) pos'
        (es.foldl (pageStep address (address + size) snapshotSerial) s) := by
  induction es generalizing pos s with
  | nil =>
    refine ⟨pos, fun b hb hw => ?_, h⟩
    obtain ⟨e, he, -⟩ := hrest b hb hw
    cases he
  | cons e es ih =>
    obtain ⟨p, page⟩ := e
    obtain ⟨hlt, hsorted'⟩ := pairwise_cons.1 hsorted
    obtain ⟨⟨hfind, hpos⟩, hpages'⟩ := forall_mem_cons.1 hpages
    dsimp only at hfind hpos
    obtain ⟨hdvd, hlimit⟩ := ht.aligned p page hfind
    have haligned : ∀ e ∈ es, p + pageSize ≤ e.1 := by
      intro e he
      have hnext := (ht.aligned e.1 e.2 (hpages' e he).1).1
      have hlt := hlt e he
      obtain ⟨k, rfl⟩ := hdvd
      obtain ⟨k', hk'⟩ := hnext
      simp only [pageSize] at *
      omega
    have hpageOf : ∀ b, pageOf b = p ↔ p ≤ b ∧ b < p + pageSize := by
      intro b
      obtain ⟨k, rfl⟩ := hdvd
      simp only [pageOf, pageSize]
      omega
    -- nothing is wanted between the pages
    have hstart := h.skip hpos fun b hb hb' hw => by
      obtain ⟨e, he, heq⟩ := hrest b hb hw
      have hle : pageOf b ≤ b := Nat.div_mul_le_self ..
      rcases mem_cons.1 he with rfl | he
      · dsimp only at heq
        omega
      · have := haligned e he
        omega
    have hobserved : o.observed p = some page.observed := by
      rw [← ht.observed, hfind]
      rfl
    have hwanted : ∀ y, y < pageSize → (Wanted o address size snapshotSerial (p + y) ↔
        ((address ≤ p + y ∧ p + y < address + size) ∧ o.stamp (p + y) ≤ snapshotSerial) ∧
          page.observed ≤ snapshotSerial) := by
      intro y hy
      rw [Wanted, pageOf_add hdvd hy, hobserved]
      simp only [Option.some.injEq, exists_eq_left']
      tauto
    have hpage : Published address (Wanted o address size snapshotSerial) (p + pageSize)
        (pageStep address (address + size) snapshotSerial s (p, page)) := by
      rw [pageStep]
      dsimp only
      split
      · rename_i hnew
        refine hstart.flush.skip (Nat.le_add_right ..) fun b hb hb' hw => ?_
        obtain ⟨y, rfl⟩ := Nat.exists_eq_add_of_le hb
        have hold := ((hwanted y (by omega)).1 hw).2
        exact absurd hold (BitVec.not_le.2 hnew)
      · rename_i hnew
        refine Published.spans (ht.tiles p page hfind) (ht.stamped p page hfind)
          (by simp only [pageSize] at *; omega) (fun y _ hy => ?_) hstart
        rw [hwanted y hy, and_iff_left (BitVec.not_lt.1 hnew)]
    refine ih hsorted' (fun e he => ⟨(hpages' e he).1, haligned e he⟩) (fun b hb hw => ?_) hpage
    obtain ⟨e, he, heq⟩ := hrest b (by omega) hw
    rcases mem_cons.1 he with rfl | he
    · have := ((hpageOf b).1 heq.symm).2
      omega
    · exact ⟨e, he, heq⟩

/-- What `ForEachRange` promises. -/
structure Exact (o : Observations) (address size : ℕ) (snapshotSerial : BitVec 64)
    (published : List (ℕ × ℕ)) : Prop where
  /-- The ranges ascend and are disjoint. -/
  ordered : published.Pairwise fun r r' => r.1 + r.2 ≤ r'.1
  nonempty : ∀ r ∈ published, 0 < r.2
  /-- They cover the bytes that are wanted. -/
  mem : ∀ x, (∃ r ∈ published, r.1 ≤ x ∧ x < r.1 + r.2) ↔
    Wanted o address size snapshotSerial (address + x)

/-- **`ForEachRange`.** -/
theorem forEachRange_exact (ht : Tracks t o) (hvalid : address + size < 2 ^ 64) (snapshotSerial : BitVec 64) :
    Exact o address size snapshotSerial (t.forEachRange address size snapshotSerial) := by
  rw [forEachRange, add64_eq hvalid]
  split
  · rename_i hsize
    refine ⟨.nil, (fun r hr => nomatch hr), fun x => ⟨fun h => ?_, fun h => ?_⟩⟩
    · obtain ⟨r, hr, -⟩ := h
      cases hr
    · have := h.1
      omega
  · have hmem : ∀ b, Wanted o address size snapshotSerial b →
        ∃ e ∈ t.pages.between (pageOf address) (address + size), e.1 = pageOf b := by
      rintro b ⟨⟨hlo, hhi⟩, ⟨serial, hserial, -⟩, -⟩
      obtain ⟨page, hpage, -⟩ := Option.map_eq_some_iff.1 ((ht.observed _).trans hserial)
      refine ⟨(pageOf b, page), OrderedMap.mem_between.2 ⟨hpage, ?_, ?_⟩, rfl⟩
      · exact Nat.mul_le_mul_right _ (Nat.div_le_div_right hlo)
      · exact (Nat.div_mul_le_self ..).trans_lt hhi
    obtain ⟨pos, hnone, h⟩ := published_start.pages ht
      (t.pages.pairwise_between (pageOf address) (address + size))
      (fun e he => ⟨(OrderedMap.mem_between.1 he).1, Nat.zero_le _⟩) fun b _ => hmem b
    have h := h.flush
    refine ⟨h.ordered, h.nonempty, fun x => ?_⟩
    have hx := h.mem (address + x)
    rw [or_iff_left (by rintro ⟨-, hlt⟩; cases hlt)] at hx
    refine Iff.trans (exists_congr fun r => and_congr_right fun _ => ?_)
      (hx.trans (and_iff_right_of_imp fun hw => ?_))
    · omega
    · by_contra hpos
      exact hnone _ (not_lt.1 hpos) hw

/-! ### Runs -/

/-- `Observe` does not meet the last page of all. -/
def Call.Ok : Call → Prop
  | .observe address size => size = 0 ∨ address + size ≤ 2 ^ 64 - pageSize
  | .markSynchronized .. | .forget .. => True

instance (c : Call) : Decidable c.Ok := by
  cases c <;> rw [Call.Ok] <;> infer_instance

/-- A call that returns has its effect. -/
theorem Tracks.exec (h : Tracks t o) {c : Call} (hc : c.Valid) {rounds : ℕ} {t' : ReadbackPageTracker}
    (hret : c.exec rounds t = some t') : Tracks t' (c.effect o) := by
  cases c with
  | observe address size =>
    have hok : size = 0 ∨ address + size ≤ 2 ^ 64 - pageSize := by
      by_contra hnot
      rw [Call.exec, observe, forPages_eq_none hc hnot] at hret
      cases hret
    obtain ⟨⟨t₁, known⟩, hforPages, rfl⟩ := Option.map_eq_some_iff.1 hret
    obtain ⟨rounds', hrounds'⟩ := forPages_eq hok (t, true)
    have heq := forPages_unique hforPages hrounds'
    rw [heq]
    refine h.observePages true fun p hp => ?_
    obtain ⟨hdvd, hlt, hsize⟩ := mem_pagesOf hp
    have hle := hok.resolve_left hsize
    obtain ⟨k, rfl⟩ := hdvd
    simp only [pageSize] at *
    exact ⟨Nat.dvd_mul_right .., by omega⟩
  | markSynchronized address size =>
    obtain rfl := Option.some.inj hret
    rw [Call.effect]
    split
    · rename_i hsize
      rwa [ReadbackPageTracker.markSynchronized, if_pos hsize]
    · rename_i hsize
      exact h.markSynchronized hsize hc
  | forget address size =>
    obtain rfl := Option.some.inj hret
    rw [Call.effect]
    split
    · rename_i hsize
      rwa [ReadbackPageTracker.forget, if_pos hsize]
    · rename_i hsize
      exact h.forget hsize hc

/-- A call returns unless it observes the last page of all. -/
theorem Call.exec_returns_iff {c : Call} (hc : c.Valid) :
    (∃ rounds t', c.exec rounds t = some t') ↔ c.Ok := by
  cases c with
  | observe address size =>
    constructor
    · rintro ⟨rounds, t', hret⟩
      by_contra hnot
      rw [exec, ReadbackPageTracker.observe, forPages_eq_none hc hnot] at hret
      cases hret
    · intro hok
      obtain ⟨rounds, hrounds⟩ := forPages_eq hok (t, true)
      exact ⟨rounds, _, congrArg (Option.map _) hrounds⟩
  | markSynchronized address size => exact ⟨fun _ => trivial, fun _ => ⟨0, _, rfl⟩⟩
  | forget address size => exact ⟨fun _ => trivial, fun _ => ⟨0, _, rfl⟩⟩

/-- The trackers reached by calls, and what the calls say. -/
inductive Run : ReadbackPageTracker → Observations → Prop
  | new : Run new .none
  | call {t t' : ReadbackPageTracker} {o : Observations} {rounds : ℕ} (c : Call) (run : Run t o)
    (valid : c.Valid) (ok : c.Ok) (returned : c.exec rounds t = some t') : Run t' (c.effect o)

theorem Run.tracks (h : Run t o) : Tracks t o := by
  induction h with
  | new => exact tracks_new
  | call c run valid ok returned ih => exact ih.exec valid returned

/-- What a tracker promises. -/
structure Sound (t : ReadbackPageTracker) (o : Observations) : Prop where
  observed : ∀ p, (t.pages.find? p).map Page.observed = o.observed p
  /-- The versions of a page are an ordered partition of it. -/
  partition : ∀ p page, t.pages.find? p = some page → Tiles 0 page.versions pageSize
  /-- Each byte has the number of the last copy since its page was observed. -/
  stamps : ∀ p page, t.pages.find? p = some page → ∀ v ∈ page.versions, ∀ x, Covers v x →
    v.serial = o.stamp (p + x)
  ranges : ∀ address size snapshotSerial, address + size < 2 ^ 64 →
    Exact o address size snapshotSerial (t.forEachRange address size snapshotSerial)
  returns : ∀ c : Call, c.Valid → ((∃ rounds t', c.exec rounds t = some t') ↔ c.Ok)

/-- **No old copy overwrites newer bytes**, whatever calls are made. -/
theorem Run.followsWrites (h : Run t o) : t.Sound o where
  observed := h.tracks.observed
  partition := h.tracks.tiles
  stamps := h.tracks.stamped
  ranges _ _ snapshotSerial hvalid := forEachRange_exact h.tracks hvalid snapshotSerial
  returns _ hc := Call.exec_returns_iff hc

/-- A page is observed, and a part of it copied. -/
theorem observed_sound : ∃ t t', (Call.observe 0 1).exec 2 new = some t ∧
    (Call.markSynchronized 16 32).exec 0 t = some t' ∧
    t'.Sound ((Call.markSynchronized 16 32).effect ((Call.observe 0 1).effect .none)) := by
  have hobserve : ∃ t, (Call.observe 0 1).exec 2 new = some t := ⟨_, rfl⟩
  obtain ⟨t, ht⟩ := hobserve
  have hmark : (Call.markSynchronized 16 32).exec 0 t = some (t.markSynchronized 16 32) := rfl
  exact ⟨t, _, ht, hmark, Run.followsWrites (.call (.markSynchronized 16 32)
    (.call (.observe 0 1) .new (show 0 + 1 < 2 ^ 64 by decide) (by decide) ht)
    (show 16 + 32 < 2 ^ 64 by decide) trivial hmark)⟩

/-- `Observe` of the last page of all never returns. -/
theorem observe_lastPage : Run new .none ∧ (Call.observe (2 ^ 64 - 4096) 1).Valid ∧
    ∀ rounds, (Call.observe (2 ^ 64 - 4096) 1).exec rounds new = none := by
  have hvalid : (Call.observe (2 ^ 64 - 4096) 1).Valid := show 2 ^ 64 - 4096 + 1 < 2 ^ 64 by decide
  refine ⟨.new, hvalid, fun rounds => ?_⟩
  rw [Call.exec, observe, forPages_eq_none hvalid (by decide)]
  rfl

end ReadbackPageTracker
end VideoCommon
end NXEmu
