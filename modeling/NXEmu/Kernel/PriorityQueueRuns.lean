/-
# Threads in the priority queue over whole runs

`src/nxemu-os/core/hle/kernel/k_priority_queue.h`, called as `k_scheduler.cpp` does:
`OnThreadStateChanged`, `OnThreadPriorityChanged`, `OnThreadAffinityMaskChanged` and the
migrations and rotations of the scheduler.

`SchedulerState` is the queue together with the fields of the threads and with which of
them are runnable.  A call changes a field of a thread first and then tells the queue what
it was before; the fields of a thread that is not runnable change without the queue.

A runnable thread has its place in the scheduled list of its active core and in the
suggested list of the other cores of its affinity mask (`coreList`), at its priority.  The
operations that go through the cores of a thread move it on one core after another
(`forCores_spec`, `forMask_spec`), so that each call takes the places of the threads to
those of the fields it leaves (`SchedulerInv.call`).
-/

import NXEmu.Lib.BitLoop
import NXEmu.Kernel.PriorityQueueOrder

namespace NXEmu
namespace Kernel

open Common Exec Function

/-- The cores of the mask are cores there are, and the active core is one of them. -/
structure KThreadFields.Valid (t : KThreadFields) : Prop where
  mask : ∀ c, t.affinityMask.getLsbD c = true → c < KPriorityQueue.numCores
  core : t.activeCore = -1 ∨ ∃ c : ℕ, t.activeCore = c ∧ t.affinityMask.getLsbD c = true
  priority : KPriorityQueue.isValidPriority t.priority

/-- What a thread has on a core, given what it has on its active core and on the other
cores of its mask. -/
def coreList (activeCore : ℤ) (affinity : BitVec 64) (f : QueueKind → Option (QueueKind × ℕ))
    (c : ℕ) : Option (QueueKind × ℕ) :=
  if (c : ℤ) = activeCore then f .scheduled
  else if affinity.getLsbD c = true then f .suggested else none

/-- The place of a queued thread on a core. -/
def KThreadFields.place (t : KThreadFields) : ℕ → Option (QueueKind × ℕ) :=
  coreList t.activeCore t.affinityMask fun k => listAt k t.priority

namespace KPriorityQueue

variable {ι : Type} {q : KPriorityQueue ι} {k : QueueKind} {p c : ℕ} {m : ι} {place : Places ι}
  {t : KThreadFields} {core : ℤ} {affinity : BitVec 64} {f old new : QueueKind → Option (QueueKind × ℕ)}

theorem coreList_active (h : (c : ℤ) = core) : coreList core affinity f c = f .scheduled :=
  if_pos h

theorem coreList_mask (h : (c : ℤ) ≠ core) (hc : affinity.getLsbD c = true) :
    coreList core affinity f c = f .suggested := by
  rw [coreList, if_neg h, if_pos hc]

theorem coreList_none : coreList core affinity (fun _ => none) c = none := by
  rw [coreList]
  split <;> simp

variable [DecidableEq ι]

/-! ### The loops over the cores -/

theorem getLsbD_clearAffinityBit {i : ℕ} :
    (clearAffinityBit affinity c).getLsbD i = (affinity.getLsbD i && !decide (i = c)) :=
  getLsbD_withoutBit affinity c i

omit [DecidableEq ι] in
theorem forAffinity_eq (fuel : ℕ) (affinity : BitVec 64) (q : KPriorityQueue ι)
    (f : ℕ → KPriorityQueue ι → Exec (KPriorityQueue ι)) :
    forAffinity fuel affinity q f = forBits f fuel affinity q := by
  induction fuel generalizing affinity q with
  | zero => rfl
  | succ fuel ih =>
    rw [forAffinity, forBits]
    simp only [ih]
    rfl

variable {f : ℕ → KPriorityQueue ι → Exec (KPriorityQueue ι)} {prevCore : ℤ}

omit [DecidableEq ι] in
/-- **The rule of the loop over an affinity mask**: its body is run for the lowest core of
what is left of the mask. -/
theorem wp_forAffinity {I : BitVec 64 → KPriorityQueue ι → Prop}
    (hf : ∀ a c q, I a q → a.getLsbD c = true → wp (f c q) fun q' held => held = true ∧ I (clearAffinityBit a c) q')
    {fuel : ℕ} (hfuel : ∀ i, affinity.getLsbD i = true → 64 ≤ i + fuel) (h : I affinity q) :
    wp (forAffinity fuel affinity q f) fun q' held => held = true ∧ I 0 q' := by
  rw [forAffinity_eq]
  exact wp_forBits hf hfuel h

/-- An operation that takes a thread from one place on a core to another one. -/
def Moves (m : ι) (k : QueueKind) (old new : QueueKind → Option (QueueKind × ℕ))
    (f : ℕ → KPriorityQueue ι → Exec (KPriorityQueue ι)) : Prop :=
  ∀ q place c, Lists q place → c < numCores → place m c = old k →
    wp (f c q) fun q' held => held = true ∧ Lists q' (put place m c (new k))

theorem moves_pushBack (hp : isValidPriority p) :
    Moves m k (fun _ => none) (fun k => listAt k p) fun c (q : KPriorityQueue ι) => q.implPushBack k p c m :=
  fun _ _ _ h hc hm => h.implPushBack hp hc hm

theorem moves_pushFront (hp : isValidPriority p) :
    Moves m k (fun _ => none) (fun k => listAt k p) fun c (q : KPriorityQueue ι) => q.implPushFront k p c m :=
  fun _ _ _ h hc hm => h.implPushFront hp hc hm

theorem moves_push (toFront : Bool) (hp : isValidPriority p) :
    Moves m k (fun _ => none) (fun k => listAt k p) fun c (q : KPriorityQueue ι) =>
      if toFront = true then q.implPushFront k p c m else q.implPushBack k p c m := by
  intro q place c h hc hm
  dsimp only
  split
  · exact moves_pushFront hp q place c h hc hm
  · exact moves_pushBack hp q place c h hc hm

theorem moves_remove (hp : isValidPriority p) :
    Moves m k (fun k => listAt k p) (fun _ => none) fun c (q : KPriorityQueue ι) => q.implRemove k p c m :=
  fun _ _ _ h hc hm => h.implRemove hp hc hm

/-- Such an operation on a thread whose places are being changed. -/
theorem Moves.step {r : ℕ → Option (QueueKind × ℕ)} (hf : Moves m k old new f)
    (h : Lists q (update place m r)) (hc : c < numCores) (hr : r c = old k) :
    wp (f c q) fun q' held => held = true ∧ Lists q' (update place m (update r c (new k))) := by
  refine wp_mono (hf q _ c h hc (by rw [update_self, hr])) fun q' held hq => ?_
  rwa [put, update_self, update_idem] at hq

omit [DecidableEq ι] in
/-- The places of a thread on the cores there are matter. -/
theorem Lists.of_update [DecidableEq ι] {r r' : ℕ → Option (QueueKind × ℕ)}
    (h : Lists q (update place m r)) (hr : ∀ c < numCores, r' c = r c) :
    Lists q (update place m r') :=
  h.congr fun i c hc => by
    by_cases hi : i = m
    · subst hi
      rw [update_self, update_self, hr c hc]
    · rw [update_of_ne hi, update_of_ne hi]

/-- **The operations with a priority**: from the lists `old` the thread is taken to the
lists `new` on its active core and on the other cores of its mask. -/
theorem forCores_spec {f g : ℕ → KPriorityQueue ι → Exec (KPriorityQueue ι)} (ht : t.Valid)
    (hf : Moves m .scheduled old new f) (hg : Moves m .suggested old new g) (h : Lists q place)
    (hm : ∀ c < numCores, place m c = coreList t.activeCore t.affinityMask old c) :
    wp (q.forCores t f g) fun q' held => held = true ∧
      Lists q' (update place m (coreList t.activeCore t.affinityMask new)) := by
  -- the places with the active core done and those of the mask that are not in `a` any more
  set done : BitVec 64 → ℕ → Option (QueueKind × ℕ) := fun a c =>
    if (c : ℤ) = t.activeCore then new .scheduled
    else if t.affinityMask.getLsbD c = true ∧ a.getLsbD c = false then new .suggested
    else place m c with hdone
  have hloop : ∀ {q : KPriorityQueue ι} {a : BitVec 64},
      (∀ c, a.getLsbD c = true → (c : ℤ) ≠ t.activeCore ∧ t.affinityMask.getLsbD c = true) →
      Lists q (update place m (done a)) →
      wp (forAffinity 64 a q g) fun q' held => held = true ∧
        Lists q' (update place m (coreList t.activeCore t.affinityMask new)) := by
    intro q a ha hq
    refine wp_mono (wp_forAffinity (I := fun a q =>
      (∀ c, a.getLsbD c = true → (c : ℤ) ≠ t.activeCore ∧ t.affinityMask.getLsbD c = true) ∧
      Lists q (update place m (done a))) (fun a c q hI hac => ?_) (fun i _ => by omega)
      ⟨ha, hq⟩) fun q' held hr => ⟨hr.1, hr.2.2.of_update fun c hc => ?_⟩
    · obtain ⟨hact, hmask⟩ := hI.1 c hac
      have hc := ht.mask c hmask
      have hr : done a c = old .suggested := by
        simp only [hdone, if_neg hact, hac]
        rw [if_neg (by simp), hm c hc, coreList_mask hact hmask]
      refine wp_mono (hg.step hI.2 hc hr) fun q' held hr =>
        ⟨hr.1, fun i hi => ?_, hr.2.of_update fun c' _ => ?_⟩
      · rw [getLsbD_clearAffinityBit, Bool.and_eq_true] at hi
        exact hI.1 i hi.1
      · simp only [hdone, getLsbD_clearAffinityBit]
        by_cases hcc : c' = c
        · subst hcc
          rw [update_self, if_neg hact, if_pos ⟨hmask, by simp⟩]
        · rw [update_of_ne hcc]
          simp [hcc]
    · simp only [hdone, coreList]
      split
      · rfl
      · simp only [BitVec.ofNat_eq_ofNat, BitVec.getLsbD_zero, and_true]
        split
        · rfl
        · rename_i hact hmask
          rw [hm c hc, coreList, if_neg hact, if_neg hmask]
  have hself : Lists q (update place m (place m)) := by
    rwa [update_eq_self]
  rw [forCores]
  rcases ht.core with hcore | ⟨c, hcore, hmask⟩
  · rw [if_neg (by omega)]
    refine hloop (fun c hc => ⟨by omega, hc⟩) (hself.of_update fun c hc => ?_)
    simp only [hdone]
    rw [if_neg (by omega), if_neg (by simp)]
  · have htoNat : t.activeCore.toNat = c := by omega
    have hc := ht.mask c hmask
    rw [if_pos (by omega), htoNat, wp_bind]
    refine wp_mono (hf.step hself hc (by rw [hm c hc, coreList_active hcore.symm]))
      fun q' held hr => ?_
    refine wp_mono (hloop (a := clearAffinityBit t.affinityMask c) (fun i hi => ?_)
      (hr.2.of_update fun c' _ => ?_)) fun q'' held' hr' => ⟨?_, hr'.2⟩
    · rw [getLsbD_clearAffinityBit, Bool.and_eq_true] at hi
      have : i ≠ c := by simpa using hi.2
      exact ⟨by omega, hi.1⟩
    · simp only [hdone, getLsbD_clearAffinityBit]
      by_cases hcc : c' = c
      · subst hcc
        rw [update_self, if_pos hcore.symm]
      · rw [update_of_ne hcc, if_neg (by omega)]
        simp [hcc]
    · rw [hr.1, hr'.1]
      rfl

omit [DecidableEq ι] in
theorem getAffinity_eq (hc : c < 64) : getAffinity affinity c = affinity.getLsbD c := by
  have hbit : (affinity &&& 1#64 <<< c) = if affinity.getLsbD c then 1#64 <<< c else 0 := by
    refine BitVec.eq_of_getLsbD_eq fun i hi => ?_
    rw [BitVec.getLsbD_and, BitVec.getLsbD_shiftLeft]
    by_cases hic : i = c
    · subst hic
      cases affinity.getLsbD i <;> simp [hi]
    · cases affinity.getLsbD c <;> simp <;> omega
  rw [getAffinity, hbit]
  cases affinity.getLsbD c
  · rfl
  · rw [if_pos rfl, bne_iff_ne]
    intro hzero
    have := congrArg (fun a => a.getLsbD c) hzero
    simp [hc] at this

/-- **A loop of `ChangeAffinityMask`** over the cores of a mask. -/
theorem forMask_spec {f : QueueKind → ℕ → KPriorityQueue ι → Exec (KPriorityQueue ι)}
    (hcore : core = -1 ∨ ∃ c : ℕ, core = c ∧ affinity.getLsbD c = true)
    (hf : ∀ k, Moves m k old new (f k)) (h : Lists q place)
    (hm : ∀ c < numCores, place m c = coreList core affinity old c) :
    wp (forMask affinity core q f) fun q' held => held = true ∧
      Lists q' (update place m (coreList core affinity new)) := by
  set done : ℕ → ℕ → Option (QueueKind × ℕ) := fun n c =>
    if c < n then coreList core affinity new c else place m c with hdone
  have hself : Lists q (update place m (done 0)) := by
    rwa [show done 0 = place m from funext fun c => if_neg (Nat.not_lt_zero c), update_eq_self]
  refine wp_mono (wp_foldlM_range (I := fun n q => Lists q (update place m (done n)))
    (fun n q hn hI => ?_) hself) fun q' held hr =>
      ⟨hr.1, hr.2.of_update fun c hc => (if_pos hc).symm⟩
  rw [getAffinity_eq (Nat.lt_of_lt_of_le hn (by decide))]
  have hnext : ∀ c', done (n + 1) c' = update (done n) n (coreList core affinity new n) c' := fun c' => by
    simp only [hdone]
    by_cases hcc : c' = n
    · subst hcc
      rw [update_self, if_pos (Nat.lt_succ_self c')]
    · rw [update_of_ne hcc]
      simp only [show c' < n + 1 ↔ c' < n by omega]
  by_cases hbit : affinity.getLsbD n = true
  · rw [if_pos hbit]
    set k : QueueKind := if (n : ℤ) = core then .scheduled else .suggested with hk
    have hlist : ∀ f, coreList core affinity f n = f k := fun f => by
      rw [coreList, hk, if_pos hbit]
      split <;> rfl
    have hold : done n n = old k := by
      exact (if_neg (Nat.lt_irrefl n)).trans ((hm n hn).trans (hlist old))
    refine wp_mono ((hf k).step hI hn hold) fun q' held hr =>
      ⟨hr.1, hr.2.of_update fun c' _ => ?_⟩
    rw [hnext, hlist]
  · have hnone : ∀ f, coreList core affinity f n = none := fun f => by
      rw [coreList, if_neg ?_, if_neg hbit]
      rcases hcore with rfl | ⟨c, rfl, hc⟩
      · omega
      · intro hnc
        obtain rfl : n = c := by omega
        exact hbit hc
    have hsame : done n n = coreList core affinity new n := by
      rw [hnone]
      exact (if_neg (Nat.lt_irrefl n)).trans ((hm n hn).trans (hnone old))
    rw [if_neg hbit, pure_eq, wp_ret]
    refine ⟨rfl, hI.of_update fun c' _ => ?_⟩
    rw [hnext, ← hsame, update_eq_self]

/-- **`ChangeCore`**, for a thread that is queued. -/
theorem changeCore_spec {toFront : Bool} (ht : t.Valid)
    (hprev : prevCore = -1 ∨ ∃ c : ℕ, prevCore = c ∧ t.affinityMask.getLsbD c = true)
    (hdummy : t.isDummyThread = false) (h : Lists q place) (hm : ∀ c < numCores, place m c =
      coreList prevCore t.affinityMask (fun k => listAt k t.priority) c) :
    wp (q.changeCore prevCore m t toFront) fun q' held => held = true ∧ Lists q' (update place m t.place) := by
  have hself : Lists q (update place m (place m)) := by
    rwa [update_eq_self]
  have hp := ht.priority
  have hbelow := ht.mask
  rw [changeCore, hdummy, if_neg Bool.false_ne_true]
  by_cases hsame : prevCore = t.activeCore
  · rw [if_pos hsame, pure_eq, wp_ret]
    refine ⟨rfl, hself.of_update fun c hc => ?_⟩
    rw [hm c hc, hsame]
    rfl
  rw [if_neg hsame]
  -- out of the scheduled list of the previous core
  have hprevCore : wp (if 0 ≤ prevCore then q.implRemove .scheduled t.priority prevCore.toNat m
      else pure q) fun q' held => held = true ∧ Lists q' (update place m
        fun c => if (c : ℤ) = prevCore then none else place m c) := by
    rcases hprev with rfl | ⟨d, rfl, hd⟩
    · rw [if_neg (by omega), pure_eq, wp_ret]
      exact ⟨rfl, hself.of_update fun c _ => if_neg (by omega)⟩
    · have hmd : place m d = listAt .scheduled t.priority := by
        rw [hm d (hbelow d hd), coreList_active rfl]
      rw [if_pos (by omega), Int.toNat_natCast]
      refine wp_mono ((moves_remove hp).step hself (hbelow d hd) hmd) fun q' held hr =>
        ⟨hr.1, hr.2.of_update fun c _ => ?_⟩
      simp only [update_apply, Int.ofNat_inj]
  rw [wp_bind]
  refine wp_mono hprevCore fun q₁ held₁ ⟨hheld₁, h₁⟩ => ?_
  set r₁ : ℕ → Option (QueueKind × ℕ) :=
    fun c => if (c : ℤ) = prevCore then none else place m c with hr₁
  -- out of the suggested list of the new core and into its scheduled one
  have hnewCore : wp (if 0 ≤ t.activeCore then do
        let q ← q₁.implRemove .suggested t.priority t.activeCore.toNat m
        (if toFront = true then q.implPushFront .scheduled t.priority t.activeCore.toNat m
        else q.implPushBack .scheduled t.priority t.activeCore.toNat m)
      else pure q₁) fun q' held => held = true ∧ Lists q' (update place m
        fun c => if (c : ℤ) = t.activeCore then listAt .scheduled t.priority else r₁ c) := by
    rcases ht.core with hact | ⟨e, hact, he⟩
    · rw [if_neg (by omega), pure_eq, wp_ret]
      exact ⟨rfl, h₁.of_update fun c _ => if_neg (by omega)⟩
    · have htoNat : t.activeCore.toNat = e := by omega
      have hre : r₁ e = listAt .suggested t.priority := by
        rw [hr₁]
        dsimp only
        rw [if_neg (by omega), hm e (hbelow e he), coreList_mask (by omega) he]
      rw [if_pos (by omega), htoNat, wp_bind]
      refine wp_mono ((moves_remove hp).step h₁ (hbelow e he) hre) fun q' held hr => ?_
      refine wp_mono ((moves_push toFront hp).step hr.2 (hbelow e he)
        (update_self ..)) fun q'' held' hr' => ⟨?_, hr'.2.of_update fun c _ => ?_⟩
      · rw [hr.1, hr'.1]
        rfl
      · simp only [update_apply, hact, Int.ofNat_inj]
        by_cases hce : c = e
        · rw [if_pos hce, if_pos hce]
        · rw [if_neg hce, if_neg hce, if_neg hce]
  rw [wp_bind]
  refine wp_mono hnewCore fun q₂ held₂ ⟨hheld₂, h₂⟩ => ?_
  -- into the suggested list of the previous core, which gives the places of the new core
  have hplace : ∀ c < numCores, t.place c = if (c : ℤ) = t.activeCore then listAt .scheduled t.priority
      else if (c : ℤ) = prevCore then listAt .suggested t.priority else r₁ c := by
    intro c hc
    rw [KThreadFields.place, coreList, hr₁]
    dsimp only
    by_cases hact : (c : ℤ) = t.activeCore
    · rw [if_pos hact, if_pos hact]
    · by_cases hpc : (c : ℤ) = prevCore
      · have hbit : t.affinityMask.getLsbD c = true := by
          rcases hprev with rfl | ⟨d, rfl, hd⟩
          · omega
          · rwa [Int.ofNat_inj.1 hpc]
        rw [if_neg hact, if_neg hact, if_pos hbit, if_pos hpc]
      · rw [if_neg hact, if_neg hact, if_neg hpc, if_neg hpc, hm c hc, coreList, if_neg hpc]
  rw [hheld₁, hheld₂]
  rcases hprev with hprev | ⟨d, rfl, hd⟩
  · rw [if_neg (by omega), pure_eq, wp_ret]
    refine ⟨rfl, h₂.of_update fun c hc => ?_⟩
    rw [hplace c hc, if_neg (show ¬ (c : ℤ) = prevCore by omega)]
  · have hr₂ : (if (d : ℤ) = t.activeCore then listAt .scheduled t.priority else r₁ d) = none := by
      rw [if_neg hsame, hr₁]
      exact if_pos rfl
    rw [if_pos (by omega), Int.toNat_natCast]
    refine wp_mono ((moves_pushBack hp).step h₂ (hbelow d hd) hr₂) fun q' held hr =>
      ⟨by rw [hr.1]; rfl, hr.2.of_update fun c hc => ?_⟩
    rw [hplace c hc, update_apply]
    grind

/-- `PushBack`, `PushFront` and `Remove` with a priority. -/
theorem pushAt_spec (toFront : Bool) (ht : t.Valid) (hp : isValidPriority p) (h : Lists q place)
    (hm : place m = fun _ => none) :
    wp (if toFront = true then q.pushFrontAt p m t else q.pushBackAt p m t) fun q' held => held = true ∧ Lists q'
      (update place m (coreList t.activeCore t.affinityMask fun k => listAt k p)) := by
  cases toFront with
  | false =>
    rw [if_neg Bool.false_ne_true, pushBackAt, wp_bind, wp_assert, decide_eq_true hp]
    exact forCores_spec ht (moves_pushBack hp) (moves_pushBack hp) h fun c _ => by rw [hm, coreList_none]
  | true =>
    rw [if_pos rfl, pushFrontAt, wp_bind, wp_assert, decide_eq_true hp]
    exact forCores_spec ht (moves_pushFront hp) (moves_pushBack hp) h fun c _ => by rw [hm, coreList_none]

theorem removeAt_spec (ht : t.Valid) (hp : isValidPriority p) (h : Lists q place)
    (hm : place m = coreList t.activeCore t.affinityMask fun k => listAt k p) :
    wp (q.removeAt p m t) fun q' held => held = true ∧ Lists q' (update place m fun _ => none) := by
  rw [removeAt, wp_bind, wp_assert, decide_eq_true hp]
  refine wp_mono (forCores_spec ht (moves_remove hp) (moves_remove hp) h fun c _ => by rw [hm])
    fun q' held hr => ⟨by rw [hr.1]; rfl, hr.2.of_update fun c _ => coreList_none.symm⟩

/-- **`ChangePriority`**, for a thread that is queued. -/
theorem changePriority_spec {isRunning : Bool} (ht : t.Valid) (hp : isValidPriority p)
    (hdummy : t.isDummyThread = false) (h : Lists q place)
    (hm : place m = coreList t.activeCore t.affinityMask fun k => listAt k p) :
    wp (q.changePriority p isRunning m t) fun q' held => held = true ∧ Lists q' (update place m t.place) := by
  rw [changePriority, hdummy, if_neg Bool.false_ne_true, wp_bind, wp_assert, decide_eq_true hp, wp_bind]
  refine wp_mono (removeAt_spec ht hp h hm) fun q₁ held₁ h₁ => ?_
  refine wp_mono (pushAt_spec isRunning ht ht.priority h₁.2 (update_self ..)) fun q₂ held₂ h₂ =>
    ⟨by rw [h₁.1, h₂.1]; rfl, ?_⟩
  rw [← update_idem (f := place) (a := m) (v := fun _ => none) (w := t.place)]
  exact h₂.2

/-- **`ChangeAffinityMask`**, for a thread that is queued. -/
theorem changeAffinityMask_spec {prevAffinity : BitVec 64} (ht : t.Valid)
    (hprev : prevCore = -1 ∨ ∃ c : ℕ, prevCore = c ∧ prevAffinity.getLsbD c = true)
    (hdummy : t.isDummyThread = false) (h : Lists q place)
    (hm : place m = coreList prevCore prevAffinity fun k => listAt k t.priority) :
    wp (q.changeAffinityMask prevCore prevAffinity m t) fun q' held => held = true ∧
      Lists q' (update place m t.place) := by
  have hp := ht.priority
  rw [changeAffinityMask, hdummy, if_neg Bool.false_ne_true, wp_bind]
  refine wp_mono (forMask_spec hprev (fun _ => moves_remove hp) h fun c _ => by rw [hm])
    fun q₁ held₁ h₁ => ?_
  refine wp_mono (forMask_spec ht.core (fun _ => moves_pushBack hp) h₁.2 fun c _ => ?_)
    fun q₂ held₂ h₂ => ⟨by rw [h₁.1, h₂.1]; rfl, ?_⟩
  · rw [update_self, coreList_none, coreList_none]
  · have := h₂.2
    rwa [update_idem] at this

end KPriorityQueue

/-! ### Runs -/

/-- The queue, the fields of the threads and which of them are runnable. -/
structure SchedulerState (ι : Type) where
  queue : KPriorityQueue ι := {}
  thread : ι → KThreadFields
  runnable : ι → Bool := fun _ => false

/-- What the scheduler does to a thread. -/
inductive SchedulerCall (ι : Type) where
  | setThread (m : ι) (t : KThreadFields)
  | pushBack (m : ι)
  | remove (m : ι)
  | changePriority (m : ι) (priority : ℕ) (isRunning : Bool)
  | changeAffinityMask (m : ι) (activeCore : ℤ) (affinityMask : BitVec 64)
  | changeCore (m : ι) (activeCore : ℤ) (toFront : Bool)
  | moveToScheduledFront (m : ι)
  | moveToScheduledBack (m : ι)

variable {ι : Type} [DecidableEq ι] {s s' : SchedulerState ι} {m : ι} {t : KThreadFields}

/-- A state with another queue and other fields of `m`. -/
def SchedulerState.set (s : SchedulerState ι) (q : KPriorityQueue ι) (m : ι) (t : KThreadFields)
    (runnable : Bool) : SchedulerState ι :=
  ⟨q, Function.update s.thread m t, Function.update s.runnable m runnable⟩

/-- Run a call: the fields of the thread change first, and the queue is told what they were. -/
def SchedulerCall.exec : SchedulerCall ι → SchedulerState ι → Exec (SchedulerState ι)
  | .setThread m t, s => return s.set s.queue m t false
  | .pushBack m, s => do
    let q ← s.queue.pushBack m (s.thread m)
    return s.set q m (s.thread m) true
  | .remove m, s => do
    let q ← s.queue.remove m (s.thread m)
    return s.set q m (s.thread m) false
  | .changePriority m priority isRunning, s => do
    let t := { s.thread m with priority := priority }
    let q ← s.queue.changePriority (s.thread m).priority isRunning m t
    return s.set q m t true
  | .changeAffinityMask m activeCore affinityMask, s => do
    let t := { s.thread m with activeCore := activeCore, affinityMask := affinityMask }
    let q ← s.queue.changeAffinityMask (s.thread m).activeCore (s.thread m).affinityMask m t
    return s.set q m t true
  | .changeCore m activeCore toFront, s => do
    let t := { s.thread m with activeCore := activeCore }
    let q ← s.queue.changeCore (s.thread m).activeCore m t toFront
    return s.set q m t true
  | .moveToScheduledFront m, s => do
    let q ← s.queue.moveToScheduledFront m (s.thread m)
    return s.set q m (s.thread m) true
  | .moveToScheduledBack m, s => do
    let r ← s.queue.moveToScheduledBack m (s.thread m)
    return s.set r.2 m (s.thread m) true

/-- What holds when the scheduler issues a call: a thread is pushed when it becomes
runnable and removed when it stops being so, fields of a thread that is not runnable change
without a call, and those of one that is change by the call for them, to valid ones; a
thread is moved in the scheduled list of its active core. -/
def SchedulerCall.Valid : SchedulerCall ι → SchedulerState ι → Prop
  | .setThread m t, s => s.runnable m = false ∧ t.Valid
  | .pushBack m, s => s.runnable m = false
  | .remove m, s => s.runnable m = true
  | .changePriority m priority _, s =>
    s.runnable m = true ∧ { s.thread m with priority := priority }.Valid
  | .changeAffinityMask m activeCore affinityMask, s => s.runnable m = true ∧
    { s.thread m with activeCore := activeCore, affinityMask := affinityMask }.Valid
  | .changeCore m activeCore _, s =>
    s.runnable m = true ∧ { s.thread m with activeCore := activeCore }.Valid
  | .moveToScheduledFront m, s => s.runnable m = true ∧ 0 ≤ (s.thread m).activeCore
  | .moveToScheduledBack m, s => s.runnable m = true ∧ 0 ≤ (s.thread m).activeCore

/-- The states valid calls lead to. -/
inductive SchedulerRun (s₀ : SchedulerState ι) : SchedulerState ι → Prop where
  | refl : SchedulerRun s₀ s₀
  | step {s s' : SchedulerState ι} {c : SchedulerCall ι} {held : Bool} (h : SchedulerRun s₀ s)
      (hc : c.Valid s) (he : c.exec s = .ret s' held) : SchedulerRun s₀ s'

/-- The threads the queue takes: the dummy threads of the host are left out, and so are those
of the idle priority. -/
def SchedulerState.queued (s : SchedulerState ι) (m : ι) : Prop :=
  s.runnable m = true ∧ (s.thread m).isDummyThread = false ∧
    (s.thread m).priority ≤ KPriorityQueue.lowestPriority

/-- Where the threads belong. -/
def SchedulerState.place (s : SchedulerState ι) : Places ι := fun m =>
  if s.runnable m && !(s.thread m).isDummyThread then (s.thread m).place else fun _ => none

variable {q : KPriorityQueue ι} {b : Bool} {thread : ι → KThreadFields}

theorem SchedulerState.place_set :
    (s.set q m t b).place = update s.place m (if b && !t.isDummyThread then t.place else fun _ => none) := by
  funext i
  rw [SchedulerState.place, SchedulerState.set]
  dsimp only
  by_cases hi : i = m
  · subst hi
    simp only [update_self]
  · simp only [update_of_ne hi]
    rfl

/-- Every thread hangs where it belongs. -/
structure SchedulerInv (s : SchedulerState ι) : Prop where
  lists : s.queue.Lists s.place
  valid : ∀ m, (s.thread m).Valid

namespace SchedulerInv

/-- The lists for the places a call leaves give the invariant. -/
theorem set (hs : SchedulerInv s) (ht : t.Valid)
    (hq : q.Lists (update s.place m (if b && !t.isDummyThread then t.place else fun _ => none))) :
    SchedulerInv (s.set q m t b) := by
  refine ⟨by rwa [SchedulerState.place_set], fun i => ?_⟩
  rw [SchedulerState.set]
  dsimp only
  by_cases hi : i = m
  · subst hi
    rwa [update_self]
  · rw [update_of_ne hi]
    exact hs.valid i

/-- The places of a thread that are none stay so. -/
theorem set_none (hs : SchedulerInv s) (ht : t.Valid)
    (hnone : s.place m = fun _ => none) (hb : (b && !t.isDummyThread) = false) :
    SchedulerInv (s.set s.queue m t b) := by
  refine hs.set ht ?_
  rw [hb, if_neg Bool.false_ne_true, ← hnone, update_eq_self]
  exact hs.lists

omit [DecidableEq ι] in
theorem place_none (h : (s.runnable m && !(s.thread m).isDummyThread) = false) :
    s.place m = fun _ => none := by
  rw [SchedulerState.place, h, if_neg Bool.false_ne_true]

omit [DecidableEq ι] in
theorem place_eq (hr : s.runnable m = true) (hd : (s.thread m).isDummyThread = false) :
    s.place m = (s.thread m).place := by
  rw [SchedulerState.place, hr, hd]
  rfl

/-- A call that leaves a dummy thread alone and takes other threads to the places of their new fields. -/
theorem guarded {x : Exec (KPriorityQueue ι)} (hs : SchedulerInv s) (ht : t.Valid)
    (hd : (s.thread m).isDummyThread = t.isDummyThread) (hdummy : t.isDummyThread = true → x = pure s.queue)
    (hx : t.isDummyThread = false → wp x fun q held => held = true ∧
      q.Lists (update s.place m (if b then t.place else fun _ => none))) :
    wp (do
      let q ← x
      return s.set q m t b) fun s' held => held = true ∧ SchedulerInv s' := by
  cases h : t.isDummyThread with
  | true =>
    rw [hdummy h, pure_eq, ret_true_bind, pure_eq, wp_ret]
    exact ⟨rfl, hs.set_none ht (place_none (by rw [hd, h]; simp)) (by rw [h]; simp)⟩
  | false =>
    rw [wp_bind]
    refine wp_mono (hx h) fun q held hq => ?_
    rw [pure_eq, wp_ret, hq.1]
    refine ⟨rfl, hs.set ht ?_⟩
    rw [h, Bool.not_false, Bool.and_true]
    exact hq.2

omit [DecidableEq ι] in
/-- The place of a running thread on its active core. -/
theorem place_active (hs : SchedulerInv s) (hr : s.runnable m = true) (hd : (s.thread m).isDummyThread = false)
    (hcore : 0 ≤ (s.thread m).activeCore) : (s.thread m).activeCore.toNat < KPriorityQueue.numCores ∧
      KPriorityQueue.activeCoreIndex (s.thread m) = (s.thread m).activeCore.toNat ∧
      s.place m (s.thread m).activeCore.toNat = listAt .scheduled (s.thread m).priority := by
  obtain ⟨c, hc, hmask⟩ := (hs.valid m).core.resolve_left fun h => absurd (h ▸ hcore) (by decide)
  have htoNat : (s.thread m).activeCore.toNat = c := by omega
  rw [htoNat, KPriorityQueue.activeCoreIndex, if_pos hcore, place_eq hr hd]
  exact ⟨(hs.valid m).mask c hmask, htoNat, KPriorityQueue.coreList_active hc.symm⟩

/-- **Every call keeps the invariant**, and no assertion fails in it. -/
theorem call (hs : SchedulerInv s) {c : SchedulerCall ι} (hc : c.Valid s) :
    wp (c.exec s) fun s' held => held = true ∧ SchedulerInv s' := by
  cases c with
  | setThread m t =>
    rw [SchedulerCall.exec, pure_eq, wp_ret]
    exact ⟨rfl, hs.set_none hc.2 (place_none (by rw [hc.1]; rfl)) rfl⟩
  | pushBack m =>
    have hc : s.runnable m = false := hc
    refine hs.guarded (hs.valid m) rfl (fun hd => if_pos hd) fun hd => ?_
    rw [KPriorityQueue.pushBack, hd, if_neg Bool.false_ne_true]
    exact KPriorityQueue.pushAt_spec false (hs.valid m) (hs.valid m).priority hs.lists (place_none (by rw [hc]; rfl))
  | remove m =>
    refine hs.guarded (hs.valid m) rfl (fun hd => if_pos hd) fun hd => ?_
    rw [KPriorityQueue.remove, hd, if_neg Bool.false_ne_true]
    exact KPriorityQueue.removeAt_spec (hs.valid m) (hs.valid m).priority hs.lists (place_eq hc hd)
  | changePriority m priority isRunning =>
    exact hs.guarded hc.2 rfl (fun hd => if_pos hd) fun hd =>
      KPriorityQueue.changePriority_spec hc.2 (hs.valid m).priority hd hs.lists (place_eq hc.1 hd)
  | changeAffinityMask m activeCore affinityMask =>
    exact hs.guarded hc.2 rfl (fun hd => if_pos hd) fun hd =>
      KPriorityQueue.changeAffinityMask_spec hc.2 (hs.valid m).core hd hs.lists (place_eq hc.1 hd)
  | changeCore m activeCore toFront =>
    refine hs.guarded hc.2 rfl (fun hd => if_pos hd) fun hd =>
      KPriorityQueue.changeCore_spec hc.2 (hs.valid m).core hd hs.lists fun c _ => ?_
    rw [place_eq hc.1 hd]
    rfl
  | moveToScheduledFront m =>
    refine hs.guarded (hs.valid m) rfl (fun hd => if_pos hd) fun hd => ?_
    obtain ⟨hcore, hindex, hplace⟩ := hs.place_active hc.1 hd hc.2
    rw [KPriorityQueue.moveToScheduledFront, hd, if_neg Bool.false_ne_true, hindex]
    refine wp_mono (hs.lists.implMoveToFront (hs.valid m).priority hcore hplace) fun q held hq => ⟨hq.1, ?_⟩
    rw [if_pos rfl, ← place_eq hc.1 hd, update_eq_self]
    exact hq.2
  | moveToScheduledBack m =>
    have ht := hs.valid m
    rw [SchedulerCall.exec, KPriorityQueue.moveToScheduledBack]
    by_cases hd : (s.thread m).isDummyThread = true
    · rw [if_pos hd, pure_eq, ret_true_bind, pure_eq, wp_ret]
      exact ⟨rfl, hs.set_none ht (place_none (by rw [hd]; simp)) (by rw [hd]; simp)⟩
    · have hd' := Bool.of_not_eq_true hd
      obtain ⟨hcore, hindex, hplace⟩ := hs.place_active hc.1 hd' hc.2
      rw [if_neg hd, hindex, wp_bind]
      refine wp_mono (hs.lists.implMoveToBack ht.priority hcore hplace) fun r held hr => ?_
      rw [pure_eq, wp_ret, hr.1]
      refine ⟨rfl, hs.set ht ?_⟩
      rw [hd', Bool.not_false, Bool.and_true, if_pos rfl, ← place_eq hc.1 hd', update_eq_self]
      exact hr.2

omit [DecidableEq ι] in
theorem init (ht : ∀ m, (thread m).Valid) :
    SchedulerInv ⟨{}, thread, fun _ => false⟩ := by
  refine ⟨fun k p c _ _ => ⟨[], ⟨rfl, rfl, List.nodup_nil⟩, ?_, fun i => ?_⟩, ht⟩
  · simp [BitSet.contains]
  · rw [place_none rfl]
    simp

/-- Runs keep the invariant. -/
theorem run (ht : ∀ m, (thread m).Valid) (hs : SchedulerRun ⟨{}, thread, fun _ => false⟩ s) : SchedulerInv s := by
  induction hs with
  | refl => exact init ht
  | step _ hc he ih =>
    have := ih.call hc
    rw [he, wp_ret] at this
    exact this.2

omit [DecidableEq ι] in
/-- Where the invariant places a thread. -/
theorem place_iff {k : QueueKind} {p c : ℕ} : s.place m c = some (k, p) ↔ s.queued m ∧ (s.thread m).priority = p ∧
      match k with
      | .scheduled => (c : ℤ) = (s.thread m).activeCore
      | .suggested => (c : ℤ) ≠ (s.thread m).activeCore ∧ (s.thread m).affinityMask.getLsbD c = true := by
  rw [SchedulerState.place, SchedulerState.queued]
  cases hr : s.runnable m <;> cases hd : (s.thread m).isDummyThread <;> try simp
  rw [KThreadFields.place, coreList]
  by_cases hc : (c : ℤ) = (s.thread m).activeCore
  · rw [if_pos hc, listAt]
    cases k <;> simp [hc]
  · rw [if_neg hc]
    by_cases hb : (s.thread m).affinityMask.getLsbD c = true
    · rw [if_pos hb, listAt]
      cases k <;> simp [hc, hb]
    · rw [if_neg hb]
      cases k <;> simp [hc, hb]

end SchedulerInv

/-- **The priority queue over whole runs.**  In every state a run leads to and for every
core, each list is linked properly, has exactly the queued threads of its priority that are
scheduled on the core, or suggested to it, and is not empty just when its priority is
available.  The threads of either queue have an order, every one once and by priority, whose
first one `GetFront` returns, so that no other one comes before it by priority, and in which
`GetNext` returns the one after each.  No call the scheduler issues faults or fails an
assertion. -/
theorem schedulerRun_lists {thread : ι → KThreadFields} (ht : ∀ m, (thread m).Valid)
    (hs : SchedulerRun ⟨{}, thread, fun _ => false⟩ s) :
    (∀ k p c, p ≤ KPriorityQueue.lowestPriority → c < KPriorityQueue.numCores →
      ∃ l, Ring (s.queue.nextOf k p c) (s.queue.prevOf k p c) l ∧
        ((s.queue.availablePriorities k c).contains p = true ↔ l ≠ []) ∧
        ∀ m, m ∈ l ↔ s.queued m ∧ (s.thread m).priority = p ∧
          match k with
          | .scheduled => (c : ℤ) = (s.thread m).activeCore
          | .suggested => (c : ℤ) ≠ (s.thread m).activeCore ∧
            (s.thread m).affinityMask.getLsbD c = true) ∧
    (∀ k c, c < KPriorityQueue.numCores → ∃ L : List ι, L.Nodup ∧
      (∀ m, m ∈ L ↔ s.queued m ∧
        match k with
        | .scheduled => (c : ℤ) = (s.thread m).activeCore
        | .suggested => (c : ℤ) ≠ (s.thread m).activeCore ∧
          (s.thread m).affinityMask.getLsbD c = true) ∧
      (L.Pairwise fun m m' => (s.thread m).priority ≤ (s.thread m').priority) ∧
      s.queue.implGetFront k c = .ret L.head? true ∧
      (∀ m ∈ L.head?, ∀ m' ∈ L, (s.thread m).priority ≤ (s.thread m').priority) ∧
      ∀ L₁ m L₂, L = L₁ ++ m :: L₂ →
        s.queue.implGetNext k c m (s.thread m) = .ret L₂.head? true) ∧
    ∀ c : SchedulerCall ι, c.Valid s → wp (c.exec s) fun _ held => held = true := by
  have hinv := SchedulerInv.run ht hs
  refine ⟨fun k p c hp hc => ?_, fun k c hc => ?_, fun c hc =>
    wp_mono (hinv.call hc) fun _ _ hr => hr.1⟩
  · obtain ⟨l, hl, hb, hm⟩ := hinv.lists k p c hp hc
    exact ⟨l, hl, hb, fun m => (hm m).trans SchedulerInv.place_iff⟩
  · obtain ⟨L, hnodup, hmem, hsorted, hfront, hnext⟩ := hinv.lists.exists_order k hc s.thread
      fun m p hm => (SchedulerInv.place_iff.1 hm).2.1
    refine ⟨L, hnodup, fun m => ?_, hsorted, hfront, ?_, hnext⟩
    · rw [hmem]
      constructor
      · rintro ⟨p, -, hm⟩
        have := SchedulerInv.place_iff.1 hm
        exact ⟨this.1, this.2.2⟩
      · rintro ⟨hq, hk⟩
        exact ⟨(s.thread m).priority, hq.2.2, SchedulerInv.place_iff.2 ⟨hq, rfl, hk⟩⟩
    · cases L with
      | nil => simp
      | cons i L =>
        intro m hm m' hm'
        cases hm
        rcases List.mem_cons.1 hm' with rfl | hm'
        · exact Nat.le_refl _
        · exact (List.pairwise_cons.1 hsorted).1 m' hm'

/-- Two threads that run on the cores 0 and 1, the first one scheduled on the core 0. -/
def twoThreads (m : Bool) : KThreadFields :=
  ⟨3, if m then 0 else -1, if m then 44 else 20, false⟩

theorem twoThreads_valid (m : Bool) : (twoThreads m).Valid := by
  refine ⟨fun c hc => ?_, ?_, by cases m <;> decide⟩
  · have : c < 64 := by
      by_contra hge
      rw [BitVec.getLsbD_of_ge _ _ (by omega)] at hc
      cases hc
    have hall : ∀ c < 64, (3 : BitVec 64).getLsbD c = true → c < KPriorityQueue.numCores := by
      decide
    exact hall c this hc
  · cases m
    · exact Or.inl rfl
    · exact Or.inr ⟨0, rfl, rfl⟩

/-- The state of the two threads after some calls. -/
def schedulerAfter (calls : List (SchedulerCall Bool)) : SchedulerState Bool :=
  calls.foldl (fun s c => (c.exec s).value s) ⟨{}, twoThreads, fun _ => false⟩

set_option maxRecDepth 4000 in
/-- Both threads become runnable, and the second one moves to the core 0, where it comes
before the first one by its priority. -/
theorem schedulerRun_lists_two :
    let s := schedulerAfter [.pushBack true, .pushBack false, .changeCore false 0 false]
    s.queue.implGetFront .scheduled 0 = .ret (some false) true ∧
      ∃ L : List Bool, L.Nodup ∧ s.queue.implGetFront .scheduled 0 = .ret L.head? true := by
  have hrun : SchedulerRun (schedulerAfter [])
      (schedulerAfter [.pushBack true, .pushBack false, .changeCore false 0 false]) :=
    .step (s := schedulerAfter [.pushBack true, .pushBack false]) (c := .changeCore false 0 false)
      (.step (s := schedulerAfter [.pushBack true]) (c := .pushBack false)
        (.step (s := schedulerAfter []) (c := .pushBack true) .refl rfl rfl) rfl rfl)
      ⟨rfl, (twoThreads_valid false).mask, Or.inr ⟨0, rfl, rfl⟩, (twoThreads_valid false).priority⟩
      rfl
  have h := schedulerRun_lists twoThreads_valid hrun
  obtain ⟨L, hnodup, -, -, hfront, -⟩ := h.2.1 .scheduled 0 (by decide)
  exact ⟨rfl, L, hnodup, hfront⟩

end Kernel
end NXEmu
