/-
# The pages of a readback page tracker

`src/yuzu_video_core/texture_cache/readback_page_tracker.h`: the versions of a page tile it, and each
byte has the number of the last synchronous copy since its page was observed (`Tracks`).  A loop over
pages steps by a `u64`, so for a range that meets the last page of all it never ends
(`forPages_eq_none`).
-/

import NXEmu.VideoCore.ReadbackPageTracker
import NXEmu.Lib.Tiling

namespace NXEmu
namespace VideoCommon
namespace ReadbackPageTracker

open Segment List

instance : Segment Version := ⟨Version.begin, Version.stop⟩

/-! ### Versions -/

/-- Every byte of the versions has its number. -/
def Stamped (stamp : ℕ → BitVec 64) (vs : List Version) : Prop :=
  ∀ v ∈ vs, ∀ x, Covers v x → v.serial = stamp x

variable {lo hi s e : ℕ} {stamp : BitVec 64} {f g : ℕ → BitVec 64} {v : Version} {vs ws : List Version}

theorem Stamped.congr (h : Stamped f vs) (hvs : Tiles s vs e) (hfg : ∀ x, s ≤ x → x < e → f x = g x) :
    Stamped g vs := fun v hv x hx => by
  have hb := hvs.mem_bounds hv
  rw [h v hv x hx, hfg x (hb.1.trans hx.1) (hx.2.trans_le hb.2.2)]

theorem cut_tiles (hv : lo < hi) (hne : v.begin < v.stop) :
    Tiles v.begin (cut lo hi stamp v) v.stop := by
  rw [cut]
  split
  · exact ⟨rfl, hne, rfl⟩
  · rename_i hmeet
    rw [not_or, not_le, not_le] at hmeet
    have hmid : Tiles (max v.begin lo) ((⟨max v.begin lo, min v.stop hi, stamp⟩ : Version) ::
        if hi < v.stop then [⟨hi, v.stop, v.serial⟩] else []) v.stop := by
      refine ⟨rfl, show max v.begin lo < min v.stop hi by omega, ?_⟩
      show Tiles (min v.stop hi) _ _
      split
      · exact ⟨show hi = min v.stop hi by omega, show min v.stop hi < v.stop by omega, rfl⟩
      · exact show min v.stop hi = v.stop by omega
    split
    · refine ⟨rfl, by assumption, ?_⟩
      rwa [show max v.begin lo = lo by omega] at hmid ⊢
    · rwa [show max v.begin lo = v.begin by omega] at hmid ⊢

theorem cut_stamped (h : ∀ x, Covers v x → v.serial = f x) :
    Stamped (fun x => if lo ≤ x ∧ x < hi then stamp else f x) (cut lo hi stamp v) := by
  intro w hw x hx
  rw [cut] at hw
  split at hw
  · obtain rfl := mem_singleton.1 hw
    have hx' : w.begin ≤ x ∧ x < w.stop := hx
    dsimp only
    rw [h x hx, if_neg (by omega)]
  · rw [mem_append, mem_cons] at hw
    rcases hw with hw | rfl | hw
    · split at hw
      · obtain rfl := mem_singleton.1 hw
        have hx' : v.begin ≤ x ∧ x < lo := hx
        dsimp only
        rw [if_neg (by omega)]
        exact h x ⟨hx'.1, show x < v.stop by omega⟩
      · cases hw
    · have hx' : max v.begin lo ≤ x ∧ x < min v.stop hi := hx
      dsimp only
      rw [if_pos (by omega)]
    · split at hw
      · obtain rfl := mem_singleton.1 hw
        have hx' : hi ≤ x ∧ x < v.stop := hx
        dsimp only
        rw [if_neg (by omega)]
        exact h x ⟨show v.begin ≤ x by omega, hx'.2⟩
      · cases hw

/-- Versions with the same number may be merged. -/
theorem mergeInto_spec (htiles : Tiles s (v :: vs) e) (h : Stamped f (v :: vs)) :
    Tiles s (mergeInto v vs) e ∧ Stamped f (mergeInto v vs) := by
  induction vs generalizing v s with
  | nil => exact ⟨htiles, h⟩
  | cons w ws ih =>
    obtain ⟨hlo, hlt, hw, hwlt, hws⟩ := htiles
    have hv := forall_mem_cons.1 h
    rw [mergeInto]
    split
    · rename_i heq
      refine ih ⟨hlo, hlt.trans hwlt, hws⟩ (forall_mem_cons.2 ⟨fun x hx => ?_, ?_⟩)
      · by_cases hxv : x < v.stop
        · exact hv.1 x ⟨hx.1, hxv⟩
        · exact heq.trans (hv.2 w mem_cons_self x ⟨hw.le.trans (not_lt.1 hxv), hx.2⟩)
      · exact (forall_mem_cons.1 hv.2).2
    · obtain ⟨ht, hs⟩ := ih ⟨hw, hwlt, hws⟩ hv.2
      exact ⟨⟨hlo, hlt, ht⟩, forall_mem_cons.2 ⟨hv.1, hs⟩⟩

theorem merge_spec (htiles : Tiles s vs e) (h : Stamped f vs) :
    Tiles s (merge vs) e ∧ Stamped f (merge vs) := by
  cases vs with
  | nil => exact ⟨htiles, h⟩
  | cons v vs => exact mergeInto_spec htiles h

variable (stamp) in
/-- **A copy of a part of a page.** -/
theorem mark_spec (hlt : lo < hi) (htiles : Tiles s vs e) (h : Stamped f vs) :
    Tiles s (merge (vs.flatMap (cut lo hi stamp))) e ∧ Stamped (fun x => if lo ≤ x ∧ x < hi then stamp else f x)
        (merge (vs.flatMap (cut lo hi stamp))) := by
  refine merge_spec (htiles.flatMap fun v hv => cut_tiles hlt (htiles.mem_bounds hv).2.1) ?_
  intro w hw
  obtain ⟨v, hv, hwv⟩ := mem_flatMap.1 hw
  exact cut_stamped (h v hv) w hwv

/-! ### Loops over pages -/

variable {σ : Type} {step : σ → ℕ → σ}

theorem add64_eq {a b : ℕ} (h : a + b < 2 ^ 64) : add64 a b = a + b := Nat.mod_eq_of_lt h

/-- The loop ends when no page of it is the last of all. -/
theorem forPagesFrom_eq {stop n k : ℕ} (hstop : stop ≤ (k + n) * pageSize)
    (hlast : n ≠ 0 → (k + n - 1) * pageSize < stop) (hlimit : (k + n) * pageSize < 2 ^ 64) (x : σ) :
    forPagesFrom step stop (n + 1) (k * pageSize) x = some (((range' k n).map (· * pageSize)).foldl step x) := by
  simp only [pageSize] at *
  induction n generalizing k x with
  | zero => rw [forPagesFrom, if_neg (by omega)]; rfl
  | succ n ih =>
    have hlt : (k + (n + 1) - 1) * 4096 < stop := hlast (Nat.succ_ne_zero n)
    rw [show k + (n + 1) - 1 = k + n by omega] at hlt
    rw [show k + (n + 1) = k + 1 + n by omega] at hstop hlimit
    have hnext : add64 (k * 4096) 4096 = (k + 1) * 4096 := by
      rw [add64]
      omega
    have hpage : k * 4096 < stop :=
      (Nat.mul_le_mul_right _ (Nat.le_add_right k n)).trans_lt hlt
    rw [forPagesFrom, if_pos hpage, hnext]
    have hidx : k + 1 + n - 1 = k + n := by omega
    refine ih hstop (fun _ => ?_) hlimit (step x (k * 4096))
    rw [hidx]
    exact hlt

/-- It never ends when one is: the page after that is the first of all. -/
theorem forPagesFrom_eq_none {stop k : ℕ} (hstop : 2 ^ 64 - pageSize < stop) (hk : k < 2 ^ 52)
    (rounds : ℕ) (x : σ) : forPagesFrom step stop rounds (k * pageSize) x = none := by
  simp only [pageSize] at *
  induction rounds generalizing k x with
  | zero => rfl
  | succ rounds ih =>
    have hnext : add64 (k * 4096) pageSize = (k + 1) % 2 ^ 52 * 4096 := by
      rw [add64, pageSize]
      omega
    have hlt : k * 4096 < stop := by omega
    rw [forPagesFrom, if_pos hlt, hnext]
    exact ih (Nat.mod_lt _ (by decide)) _

/-- It ends in one state only. -/
theorem forPagesFrom_unique {stop page rounds rounds' : ℕ} {x y y' : σ}
    (h : forPagesFrom step stop rounds page x = some y)
    (h' : forPagesFrom step stop rounds' page x = some y') : y = y' := by
  induction rounds generalizing rounds' page x with
  | zero => cases h
  | succ rounds ih =>
    cases rounds' with
    | zero => cases h'
    | succ rounds' =>
      rw [forPagesFrom] at h h'
      split at h
      · rename_i hlt
        rw [if_pos hlt] at h'
        exact ih h h'
      · rename_i hge
        rw [if_neg hge] at h'
        exact Option.some.inj (h.symm.trans h')

/-- **`ForPages`** goes through the pages of its range, unless that meets the last page of all. -/
theorem forPages_eq {address size : ℕ} (h : size = 0 ∨ address + size ≤ 2 ^ 64 - pageSize) (x : σ) :
    ∃ rounds, forPages rounds address size step x = some ((pagesOf address size).foldl step x) := by
  refine ⟨(address + size - 1) / pageSize + 1 - address / pageSize + 1, ?_⟩
  rw [forPages, pagesOf]
  split
  · rfl
  · rename_i hsize
    have hle := h.resolve_left hsize
    simp only [pageSize] at hle
    rw [add64_eq (by omega), pageOf]
    refine forPagesFrom_eq ?_ ?_ ?_ x <;> simp only [pageSize] <;> omega

theorem forPages_unique {address size rounds rounds' : ℕ} {x y y' : σ}
    (h : forPages rounds address size step x = some y)
    (h' : forPages rounds' address size step x = some y') : y = y' := by
  rw [forPages] at h h'
  split at h
  · rename_i hsize
    rw [if_pos hsize] at h'
    exact Option.some.inj (h.symm.trans h')
  · rename_i hsize
    rw [if_neg hsize] at h'
    exact forPagesFrom_unique h h'

theorem forPages_eq_none {address size : ℕ} (hvalid : address + size < 2 ^ 64)
    (h : ¬ (size = 0 ∨ address + size ≤ 2 ^ 64 - pageSize)) (rounds : ℕ) (x : σ) :
    forPages rounds address size step x = none := by
  rw [not_or, not_le] at h
  rw [forPages, if_neg h.1, add64_eq hvalid, pageOf]
  refine forPagesFrom_eq_none h.2 ?_ rounds x
  simp only [pageSize]
  omega

/-! ### What the calls say -/

/-- The tracker has what the calls say; the last page of all is never observed. -/
structure Tracks (t : ReadbackPageTracker) (o : Observations) : Prop where
  serial : t.serial = o.serial
  observed : ∀ p, (t.pages.find? p).map Page.observed = o.observed p
  aligned : ∀ p page, t.pages.find? p = some page → pageSize ∣ p ∧ p + 2 * pageSize ≤ 2 ^ 64
  tiles : ∀ p page, t.pages.find? p = some page → Tiles 0 page.versions pageSize
  stamped : ∀ p page, t.pages.find? p = some page → Stamped (fun x => o.stamp (p + x)) page.versions

variable {t : ReadbackPageTracker} {o : Observations} {address size b p : ℕ}

theorem tracks_new : Tracks new .none where
  serial := rfl
  observed _ := rfl
  aligned _ _ h := nomatch h
  tiles _ _ h := nomatch h
  stamped _ _ h := nomatch h

theorem pageOf_add {x : ℕ} (hp : pageSize ∣ p) (hx : x < pageSize) : pageOf (p + x) = p := by
  obtain ⟨k, rfl⟩ := hp
  simp only [pageOf, pageSize] at *
  omega

/-- A page that `Observe` goes through. -/
theorem Tracks.observePage (h : Tracks t o) (known : Bool) (hp : pageSize ∣ p) (hlimit : p + 2 * pageSize ≤ 2 ^ 64) :
    Tracks (observePage (t, known) p).1 (o.observe p) := by
  have hcontains : t.pages.contains p = (o.observed p).isSome := by
    rw [OrderedMap.contains, ← h.observed, Option.isSome_map]
  rw [ReadbackPageTracker.observePage, Observations.observe, hcontains]
  split
  · exact h
  · rename_i hnew
    have hnone : t.pages.find? p = .none := by
      rw [← hcontains] at hnew
      exact Option.not_isSome_iff_eq_none.1 hnew
    have hfind : ∀ p' page, ((t.pages.emplace p ⟨t.serial + 1, [⟨0, pageSize, 0⟩]⟩).find? p') =
        some page → (p' = p ∧ page = ⟨t.serial + 1, [⟨0, pageSize, 0⟩]⟩) ∨
          (p' ≠ p ∧ t.pages.find? p' = some page) := by
      intro p' page hpage
      rw [OrderedMap.find?_emplace hnone] at hpage
      split at hpage
      · rename_i heq
        exact .inl ⟨heq, (Option.some.inj hpage).symm⟩
      · rename_i hne
        exact .inr ⟨hne, hpage⟩
    refine ⟨congrArg (· + 1) h.serial, fun p' => ?_, fun p' page hpage => ?_,
      fun p' page hpage => ?_, fun p' page hpage => ?_⟩
    · dsimp only
      rw [OrderedMap.find?_emplace hnone, ← h.serial]
      split
      · rfl
      · exact h.observed p'
    · rcases hfind p' page hpage with ⟨rfl, rfl⟩ | ⟨-, hold⟩
      · exact ⟨hp, hlimit⟩
      · exact h.aligned p' page hold
    · rcases hfind p' page hpage with ⟨rfl, rfl⟩ | ⟨-, hold⟩
      · exact ⟨rfl, by decide, rfl⟩
      · exact h.tiles p' page hold
    · rcases hfind p' page hpage with ⟨rfl, rfl⟩ | ⟨hne, hold⟩
      · refine forall_mem_singleton.2 fun x hx => ?_
        dsimp only
        rw [if_pos (pageOf_add hp hx.2)]
      · refine (h.stamped p' page hold).congr (h.tiles p' page hold) fun x _ hx => ?_
        dsimp only
        rw [pageOf_add (h.aligned p' page hold).1 hx, if_neg hne]

theorem mem_pagesOf (hp : p ∈ pagesOf address size) :
    pageSize ∣ p ∧ p < address + size ∧ size ≠ 0 := by
  rw [pagesOf] at hp
  split at hp
  · cases hp
  · rename_i hsize
    obtain ⟨k, hk, rfl⟩ := mem_map.1 hp
    obtain ⟨hlo, hhi⟩ := mem_range'_1.1 hk
    refine ⟨⟨k, Nat.mul_comm ..⟩, ?_, hsize⟩
    simp only [pageSize] at *
    omega

theorem Tracks.observePages {pages : List ℕ} (h : Tracks t o) (known : Bool)
    (hpages : ∀ p ∈ pages, pageSize ∣ p ∧ p + 2 * pageSize ≤ 2 ^ 64) :
    Tracks (pages.foldl ReadbackPageTracker.observePage (t, known)).1 (pages.foldl Observations.observe o) := by
  induction pages generalizing t o known with
  | nil => exact h
  | cons p pages ih =>
    obtain ⟨hp, hpages⟩ := forall_mem_cons.1 hpages
    exact ih (h.observePage known hp.1 hp.2) _ hpages

/-- **`MarkSynchronized`.** -/
theorem Tracks.markSynchronized (h : Tracks t o) (hsize : size ≠ 0) (hvalid : address + size < 2 ^ 64) :
    Tracks (t.markSynchronized address size) (o.synchronize address size) := by
  rw [ReadbackPageTracker.markSynchronized, if_neg hsize, add64_eq hvalid]
  have hfind : ∀ p page, t.pages.find? p = some page → pageOf address ≤ p → p < address + size →
      ∃ lo hi, lo = max address p - p ∧ lo < hi ∧ hi = sub64 (min (address + size) (add64 p pageSize)) p ∧
        ∀ x, x < pageSize → ((lo ≤ x ∧ x < hi) ↔ address ≤ p + x ∧ p + x < address + size) := by
    intro p page hpage hlo hhi
    obtain ⟨⟨k, rfl⟩, hlimit⟩ := h.aligned p page hpage
    refine ⟨_, _, rfl, ?_, rfl, fun x hx => ?_⟩ <;> simp only [pageOf, pageSize, sub64, add64] at * <;> omega
  refine ⟨congrArg (· + 1) h.serial, fun p => ?_, fun p page hpage => ?_, fun p page hpage => ?_,
    fun p page hpage => ?_⟩
  · dsimp only [Observations.synchronize]
    rw [OrderedMap.find?_modifyBetween, ← h.observed p]
    split
    · rw [Option.map_map]
      rfl
    · rfl
  all_goals
    dsimp only at hpage
    rw [OrderedMap.find?_modifyBetween] at hpage
  · split at hpage
    · obtain ⟨old, hold, -⟩ := Option.map_eq_some_iff.1 hpage
      exact h.aligned p old hold
    · exact h.aligned p page hpage
  · split at hpage
    · rename_i hin
      obtain ⟨old, hold, rfl⟩ := Option.map_eq_some_iff.1 hpage
      obtain ⟨lo, hi, rfl, hlt, rfl, -⟩ := hfind p old hold hin.1 hin.2
      exact (mark_spec _ hlt (h.tiles p old hold) (h.stamped p old hold)).1
    · exact h.tiles p page hpage
  · dsimp only [Observations.synchronize]
    split at hpage
    · rename_i hin
      obtain ⟨old, hold, rfl⟩ := Option.map_eq_some_iff.1 hpage
      obtain ⟨lo, hi, rfl, hlt, rfl, hiff⟩ := hfind p old hold hin.1 hin.2
      obtain ⟨htiles, hstamped⟩ := mark_spec (t.serial + 1) hlt (h.tiles p old hold)
        (h.stamped p old hold)
      refine hstamped.congr htiles fun x _ hx => ?_
      rw [if_congr (hiff x hx) rfl rfl, h.serial]
    · rename_i hout
      refine (h.stamped p page hpage).congr (h.tiles p page hpage) fun x _ hx => ?_
      rw [if_neg]
      obtain ⟨⟨k, rfl⟩, -⟩ := h.aligned p page hpage
      simp only [pageOf, pageSize] at *
      omega

/-- **`Forget`.** -/
theorem Tracks.forget (h : Tracks t o) (hsize : size ≠ 0) (hvalid : address + size < 2 ^ 64) :
    Tracks (t.forget address size) (o.forget address size) := by
  rw [ReadbackPageTracker.forget, if_neg hsize, add64_eq hvalid]
  have hfind : ∀ p page, (t.pages.eraseBetween (pageOf address) (address + size)).find? p =
      some page → t.pages.find? p = some page := by
    intro p page hpage
    rw [OrderedMap.find?_eraseBetween] at hpage
    split at hpage
    · cases hpage
    · exact hpage
  refine ⟨h.serial, fun p => ?_, fun p page hpage => h.aligned p page (hfind p page hpage),
    fun p page hpage => h.tiles p page (hfind p page hpage),
    fun p page hpage => h.stamped p page (hfind p page hpage)⟩
  dsimp only [Observations.forget]
  rw [OrderedMap.find?_eraseBetween]
  split
  · rfl
  · exact h.observed p

end ReadbackPageTracker
end VideoCommon
end NXEmu
