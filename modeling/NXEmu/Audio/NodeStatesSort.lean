/-
# What sorting the mixes gives

A call of `Tsort` that starts with few enough stale entries on its stack stays inside the stack,
returns, finds a cycle exactly if there is one, and otherwise puts every node behind all the nodes it
has an edge to.

The search marks a node when it enters it, and pushes at most as many nodes as are still unmarked.
With `k` unmarked nodes it may therefore still push `k * (k - 1) / 2` entries, and the sum of these
and the entries on the stack does not grow (`Searching.room`).
-/

import NXEmu.Audio.NodeStates
import NXEmu.Lib.DepthFirst

variable {rest : List ℕ} {n : ℕ}

namespace NXEmu.AudioCore

open DepthFirst List

/-- There is an edge between two nodes of the graph. -/
def EdgeMatrix.Edge (m : EdgeMatrix) (u v : ℕ) : Prop :=
  u < m.count ∧ v < m.count ∧ m.connected u v = true

/-- The graph has a directed cycle. -/
def EdgeMatrix.Cyclic (m : EdgeMatrix) : Prop := ∃ u, Relation.TransGen m.Edge u u

namespace NodeStates

variable {m : EdgeMatrix} {s s' : NodeStates} {path : List ℕ} {x : ℕ}

/-! ### The loop over the edges -/

section scan

variable {connected : ℕ → Bool} {ids : List ℕ}

/-- The nodes that the loop over the edges pushes. -/
def pushes (connected : ℕ → Bool) (s : NodeStates) (ids : List ℕ) : List ℕ :=
  ids.filter fun id => connected id && decide (s.getState id = .unknown)

theorem push_eq (h : s.stack.length < s.stackSize) (x : ℕ) :
    s.push x = .ok { s with stack := x :: s.stack } := if_pos h

/-- Whether one of the edges leads to a node of the path. -/
def meetsPath (connected : ℕ → Bool) (s : NodeStates) (ids : List ℕ) : Bool :=
  ids.any fun id => connected id && decide (s.getState id = .found)

/-- **The loop over the edges.**  If no edge leads to a node of the path, all unmarked successors are
pushed; otherwise the search bails out and leaves what it has pushed on the stack. -/
theorem scanEdges_eq (hroom : s.stack.length + (pushes connected s ids).length ≤ s.stackSize) :
    ∃ pushed, (∀ i ∈ pushed, i ∈ ids) ∧ scanEdges connected ids s = .ok (if meetsPath connected s ids then
          (false, resetState { s with stack := pushed ++ s.stack })
        else (true, { s with stack := (pushes connected s ids).reverse ++ s.stack })) := by
  induction ids generalizing s with
  | nil => exact ⟨[], fun i hi => absurd hi not_mem_nil, rfl⟩
  | cons id ids ih =>
      -- an edge that is skipped
      have hskip : pushes connected s (id :: ids) = pushes connected s ids →
          meetsPath connected s (id :: ids) = meetsPath connected s ids →
          ∃ pushed, (∀ i ∈ pushed, i ∈ id :: ids) ∧ scanEdges connected ids s =
            .ok (if meetsPath connected s (id :: ids) then
                (false, resetState { s with stack := pushed ++ s.stack })
              else (true, { s with stack := (pushes connected s (id :: ids)).reverse ++ s.stack })) := by
        intro hpushes hmeets
        rw [hpushes] at hroom
        obtain ⟨pushed, hmem, hnext⟩ := ih hroom
        exact ⟨pushed, fun i hi => mem_cons_of_mem id (hmem i hi), by rw [hpushes, hmeets, hnext]⟩
      rw [scanEdges]
      by_cases hc : connected id = true
      · rw [if_pos hc]
        cases hstate : s.getState id with
        | unknown =>
            have hpushes : pushes connected s (id :: ids) = id :: pushes connected s ids := by
              rw [pushes, filter_cons_of_pos (by rw [hc, hstate]; rfl), pushes]
            have hmeets : meetsPath connected s (id :: ids) = meetsPath connected s ids := by
              rw [meetsPath, any_cons, hc, hstate]
              rfl
            rw [hpushes, length_cons] at hroom
            obtain ⟨pushed, hmem, hnext⟩ := ih (s := { s with stack := id :: s.stack })
              (by rw [length_cons]; exact (Nat.add_right_comm ..).le.trans hroom)
            dsimp only
            rw [push_eq (by omega)]
            refine ⟨pushed ++ [id], fun i hi => ?_, hnext.trans ?_⟩
            · rcases mem_append.1 hi with hi | hi
              · exact mem_cons_of_mem id (hmem i hi)
              · rw [mem_singleton.1 hi]
                exact mem_cons_self
            · rw [hpushes, hmeets, reverse_cons, append_assoc, append_assoc]
              rfl
        | found =>
            have hmeets : meetsPath connected s (id :: ids) = true := by
              rw [meetsPath, any_cons, hc, hstate]
              rfl
            exact ⟨[], fun i hi => absurd hi not_mem_nil, by rw [hmeets]; rfl⟩
        | complete =>
            refine hskip ?_ ?_
            · rw [pushes, filter_cons_of_neg (by rw [hc, hstate]; decide), pushes]
            · rw [meetsPath, any_cons, hc, hstate]
              rfl
      · rw [if_neg hc]
        rw [Bool.not_eq_true] at hc
        refine hskip ?_ ?_
        · rw [pushes, filter_cons_of_neg (by rw [hc]; exact Bool.false_ne_true), pushes]
        · rw [meetsPath, any_cons, hc]
          rfl

end scan

/-! ### The search -/

/-- The two bit arrays mark the nodes of a path and of the results, each of them once. -/
structure Marking (m : EdgeMatrix) (s : NodeStates) (path : List ℕ) : Prop where
  nodeCount : s.nodeCount = m.count
  found : ∀ v, s.nodesFound v = true ↔ v ∈ path
  complete : ∀ v, s.nodesComplete v = true ↔ v ∈ s.results
  nodup : (path ++ s.results).Nodup
  marked : ∀ v ∈ path ++ s.results, v < m.count

namespace Marking

section

variable (h : Marking m s path)

include h

theorem getState_eq_found : s.getState x = .found ↔ x ∈ path := by
  rw [← h.found, getState]
  split
  · simp [*]
  · split <;> simp [*]

theorem getState_eq_complete : s.getState x = .complete ↔ x ∈ s.results := by
  rw [← h.complete, getState]
  by_cases hf : s.nodesFound x = true
  · have hmem := (h.found x).1 hf
    have hdisjoint := (nodup_append.1 h.nodup).2.2
    have hnot : ¬ s.nodesComplete x = true := fun hc =>
      hdisjoint x hmem x ((h.complete x).1 hc) rfl
    simp [hf, hnot]
  · simp [hf]

theorem getState_eq_unknown :
    s.getState x = .unknown ↔ x ∉ path ++ s.results := by
  rw [mem_append, not_or, ← h.getState_eq_found, ← h.getState_eq_complete]
  cases s.getState x <;> simp

/-- Distinct nodes that are not marked are not more than there are left. -/
theorem length_le (nodes : List ℕ) (hnodup : nodes.Nodup)
    (hnodes : ∀ v ∈ nodes, v < m.count ∧ v ∉ path ++ s.results) :
    nodes.length + (path ++ s.results).length ≤ m.count := by
  have hall : (nodes ++ (path ++ s.results)).Nodup :=
    nodup_append.2 ⟨hnodup, h.nodup, fun v hv w hw heq => (hnodes v hv).2 (heq ▸ hw)⟩
  have hsub : nodes ++ (path ++ s.results) ⊆ range m.count := fun v hv =>
    mem_range.2 ((mem_append.1 hv).elim (fun hv => (hnodes v hv).1) (h.marked v))
  have hlength := (hall.subperm hsub).length_le
  rwa [length_range, length_append] at hlength

/-- A node is put on the path. -/
theorem setState_found (hx : x < m.count) (hnew : x ∉ path ++ s.results) :
    Marking m (s.setState x .found) (x :: path) where
  nodeCount := h.nodeCount
  found v := by
    by_cases hv : v = x
    · simp [setState, hv]
    · simp [setState, hv, h.found]
  complete v := by
    by_cases hv : v = x
    · subst hv
      simp only [setState, Function.update_self]
      exact iff_of_false Bool.false_ne_true fun hmem => hnew (mem_append_right _ hmem)
    · simp [setState, hv, h.complete]
  nodup := nodup_cons.2 ⟨hnew, h.nodup⟩
  marked v hv := by
    rcases mem_cons.1 hv with rfl | hv
    · exact hx
    · exact h.marked v hv

end

/-- The last node of the path becomes a result. -/
theorem setState_complete (h : Marking m s (x :: path)) :
    Marking m { s.setState x .complete with results := s.results ++ [x] } path where
  nodeCount := h.nodeCount
  found v := by
    obtain ⟨hnew, -⟩ := nodup_cons.1 h.nodup
    by_cases hv : v = x
    · subst hv
      simp only [setState, Function.update_self]
      exact iff_of_false Bool.false_ne_true fun hmem => hnew (mem_append_left _ hmem)
    · simp [setState, hv, h.found]
  complete v := by
    by_cases hv : v = x
    · simp [setState, hv]
    · simp [setState, hv, h.complete]
  nodup := by
    rw [← append_assoc, ← concat_eq_append, nodup_concat]
    exact nodup_cons.1 h.nodup
  marked v hv := by
    refine h.marked v ?_
    simp only [mem_append, mem_cons, not_mem_nil, or_false] at hv ⊢
    tauto

end Marking

/-- The state of a search, whose path is the given one.  The bound on the stack takes into account
what may still be pushed. -/
structure Searching (m : EdgeMatrix) (s : NodeStates) (path : List ℕ) : Prop
    extends Marking m s path where
  below : ∀ x ∈ s.stack, x < m.count
  ordered : Ordered m.Edge s.results
  pending : PendingStack m.Edge (· ∈ s.results) s.stack path
  room : ∀ k, k + (path ++ s.results).length = m.count →
    2 * s.stack.length + k * (k - 1) ≤ 2 * s.stackSize

namespace Searching

/-- How often the search loop still has to go round at most. -/
def measure (m : EdgeMatrix) (s : NodeStates) (path : List ℕ) : ℕ :=
  (m.count - (path ++ s.results).length) * (m.count + 1) + s.stack.length

/-- The entry on top is popped. -/
theorem pop (h : Searching m s path) (hstack : s.stack = x :: rest) (hx : x ∈ s.results) (hpath : x ∉ path) :
    Searching m s.pop path where
  toMarking := { h.toMarking with }
  below v hv := by
    refine h.below v ?_
    rw [NodeStates.pop, hstack] at hv
    rw [hstack]
    exact mem_cons_of_mem x hv
  ordered := h.ordered
  pending := by
    have hpending := h.pending
    rw [hstack] at hpending
    rw [NodeStates.pop, hstack]
    exact hpending.pop hpath hx
  room k hk := by
    have hroom := h.room k hk
    rw [hstack, length_cons] at hroom
    rw [NodeStates.pop, hstack]
    dsimp only [tail_cons]
    omega

/-- **The entry on top is left**: it is the last of the path, and all its successors were left. -/
theorem finish (h : Searching m s path) (hstack : s.stack = x :: rest) (hx : x ∈ path) :
    ∃ path', path = x :: path' ∧ x ∉ path' ∧ (s.setState x .complete).pushTsortResult x =
        .ok { s.setState x .complete with results := s.results ++ [x] } ∧
      Searching m { s.setState x .complete with results := s.results ++ [x] } path' := by
  have hpending := h.pending
  rw [hstack] at hpending
  obtain ⟨hsucc, path', rfl, hnew, hbelow⟩ := hpending.finish hx
  have hlength := h.length_le [] nodup_nil (fun v hv => absurd hv not_mem_nil)
  have hresults : x ∉ s.results := fun hmem =>
    (nodup_cons.1 h.nodup).1 (mem_append_right _ hmem)
  refine ⟨path', rfl, hnew, ?_, ?_⟩
  · refine if_pos ?_
    have hcount : (s.setState x .complete).nodeCount = m.count := h.nodeCount
    rw [hcount]
    change s.results.length < m.count
    simp only [length_nil, length_append, length_cons] at hlength
    omega
  · exact {
      toMarking := h.toMarking.setState_complete
      below := h.below
      ordered := h.ordered.concat hresults hsucc
      pending := by
        change PendingStack m.Edge _ s.stack path'
        rw [hstack]
        exact hbelow.mono fun v hv => mem_append_left _ hv
      room := fun k hk => h.room k (by
        rw [← hk]
        simp only [length_append, length_cons, length_nil]
        omega) }

/-- With `k + 1` unmarked nodes, `p` of the other `k` may be pushed. -/
theorem room_push {k p length size : ℕ} (hp : p ≤ k) (hroom : 2 * length + (k + 1) * (k + 1 - 1) ≤ 2 * size) :
    length + p ≤ size ∧ 2 * (length + p) + k * (k - 1) ≤ 2 * size := by
  rw [Nat.add_sub_cancel] at hroom
  cases k with
  | zero => exact ⟨by omega, by omega⟩
  | succ k =>
      have hsum : (k + 1 + 1) * (k + 1) = (k + 1) * k + 2 * (k + 1) := by ring
      have hpos : (k + 1) * (k + 1 - 1) = (k + 1) * k := by rw [Nat.add_sub_cancel]
      rw [hsum] at hroom
      rw [hpos]
      exact ⟨by omega, by omega⟩

/-- What the loop over the edges pushes when the node on top is entered. -/
theorem mem_pushes (h : Marking m s path) {connected : ℕ → Bool} {v : ℕ} :
    v ∈ pushes connected s (range m.count) ↔ v < m.count ∧ connected v = true ∧ v ∉ path ++ s.results := by
  rw [pushes, mem_filter, mem_range, Bool.and_eq_true, decide_eq_true_iff, h.getState_eq_unknown]

/-- **The entry on top is entered.**  Either all its unmarked successors are pushed, or it has an
edge to a node of the path, and then there is a cycle. -/
theorem enter (h : Searching m s path) (hstack : s.stack = x :: rest) (hx : x ∉ path ++ s.results) :
    (∃ pushed, scanEdges (m.connected x) (range m.count) (s.setState x .found) =
        .ok (true, { s.setState x .found with stack := pushed ++ s.stack }) ∧
      pushed.length ≤ m.count ∧
      Searching m { s.setState x .found with stack := pushed ++ s.stack } (x :: path)) ∨
    (m.Cyclic ∧ ∃ pushed, (∀ v ∈ pushed, v < m.count) ∧
      scanEdges (m.connected x) (range m.count) (s.setState x .found) =
        .ok (false, resetState { s.setState x .found with stack := pushed ++ s.stack })) := by
  have hlt : x < m.count := h.below x (by rw [hstack]; exact mem_cons_self)
  have hmark := h.toMarking.setState_found hlt hx
  have hnotpath : x ∉ path := fun hmem => hx (mem_append_left _ hmem)
  have hpending := h.pending
  rw [hstack] at hpending
  set found := s.setState x .found
  have hresults : found.results = s.results := rfl
  set pushed := pushes (m.connected x) found (range m.count)
  have hmem : ∀ v, v ∈ pushed ↔ v < m.count ∧ m.connected x v = true ∧ v ∉ (x :: path) ++ s.results :=
    fun v => mem_pushes hmark
  -- there are fewer successors to push than unmarked nodes
  have hcount := hmark.length_le pushed
    (List.Nodup.filter _ nodup_range) fun v hv => ⟨((hmem v).1 hv).1, ((hmem v).1 hv).2.2⟩
  rw [hresults, cons_append, length_cons] at hcount
  obtain ⟨k, hk⟩ : ∃ k, k + 1 + (path ++ s.results).length = m.count :=
    ⟨m.count - (path ++ s.results).length - 1, by omega⟩
  obtain ⟨hfits, hleft⟩ := room_push (p := pushed.length) (k := k) (by omega) (h.room (k + 1) hk)
  obtain ⟨more, hmore, hscan⟩ := @scanEdges_eq found (m.connected x)
    (range m.count) hfits
  rw [hscan]
  by_cases hmeets : meetsPath (m.connected x) found (range m.count) = true
  · right
    rw [if_pos hmeets]
    obtain ⟨v, hv, hedge⟩ := any_eq_true.1 hmeets
    rw [Bool.and_eq_true, decide_eq_true_iff, hmark.getState_eq_found] at hedge
    have hstep : m.Edge x v := ⟨hlt, mem_range.1 hv, hedge.1⟩
    refine ⟨⟨x, ?_⟩, more, fun v hv => mem_range.1 (hmore v hv), rfl⟩
    rcases mem_cons.1 hedge.2 with rfl | hpath
    · exact .single hstep
    · exact .head hstep (hpending.reaches hnotpath v hpath)
  · left
    rw [if_neg hmeets]
    refine ⟨pushed.reverse, rfl, by rw [length_reverse]; omega, ?_⟩
    exact {
      toMarking := { hmark with }
      below := fun v hv => by
        rcases mem_append.1 hv with hv | hv
        · exact ((hmem v).1 (mem_reverse.1 hv)).1
        · exact h.below v hv
      ordered := h.ordered
      pending := by
        dsimp only
        rw [hstack]
        refine .enter hpending hnotpath (fun v hv => ?_) (fun v hv => ?_) fun v hv => ?_
        · have hv := (hmem v).1 (mem_reverse.1 hv)
          exact ⟨hlt, hv.1, hv.2.1⟩
        · have hv := (hmem v).1 (mem_reverse.1 hv)
          exact fun hpath => hv.2.2 (mem_append_left _ hpath)
        · by_cases hdone : v ∈ s.results
          · exact .inl hdone
          · refine .inr (mem_reverse.2 ((hmem v).2 ⟨hv.2.1, hv.2.2, fun hmarked => ?_⟩))
            rcases mem_append.1 hmarked with hpath | hdone'
            · refine hmeets (any_eq_true.2 ⟨v, mem_range.2 hv.2.1, ?_⟩)
              rw [Bool.and_eq_true, decide_eq_true_iff, hmark.getState_eq_found]
              exact ⟨hv.2.2, hpath⟩
            · exact hdone hdone'
      room := fun j hj => by
        have hjk : j = k := by
          change j + ((x :: path) ++ s.results).length = m.count at hj
          rw [cons_append, length_cons] at hj
          omega
        subst hjk
        dsimp only
        rw [length_append, length_reverse, Nat.add_comm pushed.length]
        exact hleft }

/-- How a search loop ends: with an empty stack and results for all entries it had, or at a cycle. -/
structure Ends (m : EdgeMatrix) (s : NodeStates) (acyclic : Bool) (s' : NodeStates) : Prop where
  nodeCount : s'.nodeCount = s.nodeCount
  stackSize : s'.stackSize = s.stackSize
  below : ∀ v ∈ s'.stack, v < m.count
  done : acyclic = true → Searching m s' [] ∧ s'.stack = [] ∧
    (∀ v ∈ s.stack, v ∈ s'.results) ∧ ∀ v ∈ s.results, v ∈ s'.results
  cycle : acyclic = false → m.Cyclic

theorem search_of_unknown {rounds : ℕ} (hstack : s.stack = x :: rest) (hstate : s.getState x = .unknown) :
    search m (rounds + 1) s = (do
      let (acyclic, s) ← scanEdges (m.connected x) (range m.count) (s.setState x .found)
      if acyclic then search m rounds s else .ok (false, s)) := by
  rw [search, hstack]
  dsimp only
  rw [hstate]

/-- **The search loop** ends after a number of rounds that depends on the state it starts from. -/
theorem search_ends (h : Searching m s path) :
    ∃ acyclic s', (∀ rounds, measure m s path < rounds →
      search m rounds s = .ok (acyclic, s')) ∧ Ends m s acyclic s' := by
  induction hd : measure m s path using Nat.strong_induction_on generalizing s path with
  | _ d ih =>
  subst hd
  cases hstack : s.stack with
  | nil =>
      refine ⟨true, s, fun rounds hrounds => ?_, rfl, rfl, h.below, fun _ => ?_, fun hb => ?_⟩
      · obtain ⟨r, rfl⟩ := Nat.exists_eq_add_of_lt hrounds
        rw [search, hstack]
      · have hpending := h.pending
        rw [hstack] at hpending
        obtain rfl := hpending.path_of_nil
        refine ⟨h, hstack, fun v hv => ?_, fun v hv => hv⟩
        rw [hstack] at hv
        cases hv
      · cases hb
  | cons x rest =>
      -- one round leads to a state from which the loop ends
      have hround : ∀ s₁ path₁, Searching m s₁ path₁ → measure m s₁ path₁ < measure m s path →
          s₁.nodeCount = s.nodeCount → s₁.stackSize = s.stackSize →
          (∀ v ∈ s.stack, v ∈ s₁.stack ∨ v ∈ s₁.results) → (∀ v ∈ s.results, v ∈ s₁.results) →
          (∀ rounds, search m (rounds + 1) s = search m rounds s₁) →
          ∃ acyclic s', (∀ rounds, measure m s path < rounds →
            search m rounds s = .ok (acyclic, s')) ∧ Ends m s acyclic s' := by
        intro s₁ path₁ h₁ hless hcount hsize hentries hresults hstep
        obtain ⟨acyclic, s', hsearch, hends⟩ := ih _ hless h₁ rfl
        refine ⟨acyclic, s', fun rounds hrounds => ?_, hends.nodeCount.trans hcount,
          hends.stackSize.trans hsize, hends.below, fun hb => ?_, hends.cycle⟩
        · obtain ⟨r, rfl⟩ := Nat.exists_eq_add_of_lt hrounds
          rw [hstep]
          exact hsearch _ (by omega)
        · obtain ⟨hdone, hempty, hstacked, hkept⟩ := hends.done hb
          exact ⟨hdone, hempty, fun v hv => (hentries v hv).elim (hstacked v) (hkept v),
            fun v hv => hkept v (hresults v hv)⟩
      have hpopped : ∀ v ∈ s.stack, v ∈ rest ∨ v = x := fun v hv => by
        rw [hstack] at hv
        exact (mem_cons.1 hv).symm
      cases hstate : s.getState x with
      | unknown =>
          have hnew := h.getState_eq_unknown.1 hstate
          rcases h.enter hstack hnew with ⟨pushed, hscan, hlength, h₁⟩ | ⟨hcycle, pushed, hbelow, hscan⟩
          · refine hround _ _ h₁ ?_ rfl rfl (fun v hv => .inl (mem_append_right _ hv))
              (fun v hv => hv) fun rounds => ?_
            · have hmarked := h₁.length_le [] nodup_nil
                (fun v hv => absurd hv not_mem_nil)
              have hresults : (s.setState x .found).results = s.results := rfl
              rw [length_nil, Nat.zero_add] at hmarked
              dsimp only at hmarked
              rw [hresults, cons_append, length_cons] at hmarked
              have hentries : (pushed ++ s.stack).length = pushed.length + s.stack.length :=
                length_append
              unfold measure
              dsimp only
              rw [hresults, cons_append, length_cons, hentries]
              obtain ⟨k, hk⟩ : ∃ k, m.count - (path ++ s.results).length = k + 1 :=
                ⟨m.count - (path ++ s.results).length - 1, by omega⟩
              rw [hk, show m.count - ((path ++ s.results).length + 1) = k by omega, Nat.succ_mul]
              omega
            · rw [search_of_unknown hstack hstate, hscan]
              rfl
          · refine ⟨false, resetState { s.setState x .found with stack := pushed ++ s.stack },
              fun rounds hrounds => ?_, rfl, rfl, fun v hv => ?_,
              fun hb => (by cases hb), fun _ => hcycle⟩
            · obtain ⟨r, rfl⟩ := Nat.exists_eq_add_of_lt hrounds
              rw [search_of_unknown hstack hstate, hscan]
              rfl
            · rcases mem_append.1 hv with hv | hv
              · exact hbelow v hv
              · exact h.below v hv
      | found =>
          have hpath := h.getState_eq_found.1 hstate
          obtain ⟨path', rfl, hnot, hpush, h₁⟩ := h.finish hstack hpath
          have h₂ := h₁.pop hstack (mem_append_right _ (mem_singleton_self x)) hnot
          refine hround _ _ h₂ ?_ rfl rfl (fun v hv => ?_)
            (fun v hv => mem_append_left _ hv) fun rounds => ?_
          · unfold measure
            have hlength : (path' ++ (s.results ++ [x])).length = ((x :: path') ++ s.results).length := by
              simp only [length_append, length_cons, length_nil]
              omega
            have htail : s.stack.tail.length + 1 = s.stack.length := by
              rw [hstack, tail_cons, length_cons]
            change (m.count - (path' ++ (s.results ++ [x])).length) * (m.count + 1) + s.stack.tail.length < _
            rw [hlength]
            omega
          · rcases hpopped v hv with hv | rfl
            · left
              change v ∈ s.stack.tail
              rwa [hstack]
            · exact .inr (mem_append_right _ (mem_singleton_self v))
          · rw [search, hstack]
            dsimp only
            rw [hstate]
            dsimp only
            rw [hpush]
            rfl
      | complete =>
          have hdone := h.getState_eq_complete.1 hstate
          have hnot : x ∉ path := fun hmem => by
            rw [← h.getState_eq_found, hstate] at hmem
            cases hmem
          have h₁ := h.pop hstack hdone hnot
          refine hround _ _ h₁ ?_ rfl rfl (fun v hv => ?_) (fun v hv => hv) fun rounds => ?_
          · have htail : s.stack.tail.length + 1 = s.stack.length := by
              rw [hstack, tail_cons, length_cons]
            change _ + s.stack.tail.length < _ + s.stack.length
            exact Nat.add_lt_add_left (by omega) _
          · rcases hpopped v hv with hv | rfl
            · left
              change v ∈ s.stack.tail
              rwa [hstack]
            · exact .inr hdone
          · rw [search, hstack]
            dsimp only
            rw [hstate]

/-- A node is pushed on a stack that has no node of a path. -/
theorem push (h : Searching m s []) (hx : x < m.count) (hroom : ∀ k, k + s.results.length = m.count →
      2 * (s.stack.length + 1) + k * (k - 1) ≤ 2 * s.stackSize) :
    Searching m { s with stack := x :: s.stack } [] where
  toMarking := { h.toMarking with }
  below v hv := by
    rcases mem_cons.1 hv with rfl | hv
    · exact hx
    · exact h.below v hv
  ordered := h.ordered
  pending := .stale _
  room k hk := hroom k hk

/-- The loop over the nodes ends. -/
theorem searchNodes_ends (ids : List ℕ) (h : Searching m s []) (hids : ∀ id ∈ ids, id < m.count)
    (hroom : ∀ k, k + s.results.length = m.count → 2 * (s.stack.length + 1) + k * (k - 1) ≤ 2 * s.stackSize)
    (hlater : 2 + m.count * (m.count - 1) ≤ 2 * s.stackSize) :
    ∃ least acyclic s', (∀ rounds, least ≤ rounds → searchNodes m rounds ids s = .ok (acyclic, s')) ∧
      s'.nodeCount = s.nodeCount ∧ s'.stackSize = s.stackSize ∧ (∀ v ∈ s'.stack, v < m.count) ∧
      (acyclic = true → Searching m s' [] ∧ (∀ id ∈ ids, id ∈ s'.results) ∧ (∀ v ∈ s.results, v ∈ s'.results) ∧
        ((ids = [] → s.stack = []) → s'.stack = [])) ∧
      (acyclic = false → m.Cyclic) := by
  induction ids generalizing s with
  | nil =>
      exact ⟨0, true, s, fun rounds _ => rfl, rfl, rfl, h.below,
        fun _ => ⟨h, fun id hid => absurd hid not_mem_nil, fun v hv => hv, fun hnil => hnil rfl⟩,
        fun hb => by cases hb⟩
  | cons id ids ih =>
      -- the state in which the search loop starts
      obtain ⟨s₁, hstart, h₁, hcount₁, hsize₁, hid₁, hkept₁⟩ : ∃ s₁,
          (if s.getState id = .unknown then s.push id else .ok s) = .ok s₁ ∧ Searching m s₁ [] ∧
          s₁.nodeCount = s.nodeCount ∧ s₁.stackSize = s.stackSize ∧
          (id ∈ s₁.stack ∨ id ∈ s₁.results) ∧ ∀ v ∈ s.results, v ∈ s₁.results := by
        have hlength := h.length_le [] nodup_nil
          (fun v hv => absurd hv not_mem_nil)
        rw [length_nil, Nat.zero_add, nil_append] at hlength
        by_cases hstate : s.getState id = .unknown
        · have hfits : s.stack.length < s.stackSize := by
            have hfree := hroom (m.count - s.results.length) (by omega)
            omega
          exact ⟨_, (if_pos hstate).trans (push_eq hfits id), h.push (hids id mem_cons_self) hroom,
            rfl, rfl, .inl mem_cons_self, fun v hv => hv⟩
        · refine ⟨s, if_neg hstate, h, rfl, rfl, .inr ?_, fun v hv => hv⟩
          rw [h.getState_eq_unknown, not_not, nil_append] at hstate
          exact hstate
      obtain ⟨acyclic, s₂, hsearch, hends⟩ := h₁.search_ends
      have hfirst : ∀ rounds, measure m s₁ [] < rounds → searchNodes m rounds (id :: ids) s =
          if acyclic then searchNodes m rounds ids s₂ else .ok (false, s₂) := by
        intro rounds hrounds
        rw [searchNodes, hstart]
        change (search m rounds s₁ >>= _) = _
        rw [hsearch rounds hrounds]
        rfl
      cases acyclic with
      | false =>
          exact ⟨measure m s₁ [] + 1, false, s₂, fun rounds hrounds => hfirst rounds hrounds,
            hends.nodeCount.trans hcount₁, hends.stackSize.trans hsize₁, hends.below,
            (fun hb => by cases hb), fun _ => hends.cycle rfl⟩
      | true =>
          obtain ⟨h₂, hempty, hstacked, hkept⟩ := hends.done rfl
          have hsize₂ := hends.stackSize.trans hsize₁
          have hid₂ : id ∈ s₂.results := hid₁.elim (hstacked id) (hkept id)
          obtain ⟨least, acyclic, s', hrest, hcount, hsize, hbelow, hdone, hcycle⟩ := ih h₂
            (fun i hi => hids i (mem_cons_of_mem id hi))
            (fun k hk => by
              have hmul : k * (k - 1) ≤ m.count * (m.count - 1) :=
                Nat.mul_le_mul (by omega) (by omega)
              rw [hempty, hsize₂, length_nil]
              omega)
            (by rwa [hsize₂])
          refine ⟨max least (measure m s₁ [] + 1), acyclic, s', fun rounds hrounds => ?_,
            hcount.trans (hends.nodeCount.trans hcount₁), hsize.trans hsize₂, hbelow, fun hb => ?_,
            hcycle⟩
          · exact (hfirst rounds (by omega)).trans (hrest rounds (by omega))
          · obtain ⟨h', hall, hkept', hlast⟩ := hdone hb
            refine ⟨h', fun i hi => ?_, fun v hv => hkept' v (hkept v (hkept₁ v hv)), fun _ => hlast fun _ => hempty⟩
            rcases mem_cons.1 hi with rfl | hi
            · exact hkept' i hid₂
            · exact hall i hi

end Searching

/-! ### Runs -/

/-- A call of `Tsort` returns: all numbers of rounds that are large enough give its result. -/
def Returns (m : EdgeMatrix) (s : NodeStates) (result : Bool) (s' : NodeStates) : Prop :=
  ∃ least, ∀ rounds, least ≤ rounds → s.tsort m rounds = .ok (result, s')

/-- The states of a run: after `Initialize`, calls of `Tsort` that each start with `k` entries on the
stack, where `2 * (k + 1)` is at most `n * (n + 1)`. -/
inductive Run (n : ℕ) : NodeStates → Prop
  | initializeStates : Run n (initializeStates n)
  | tsort {s s' : NodeStates} {m : EdgeMatrix} {result : Bool} : Run n s → m.count = n →
      2 * (s.stack.length + 1) ≤ n * (n + 1) → Returns m s result s' → Run n s'

/-- One element of a list stands before another. -/
def Precedes (l : List ℕ) (v u : ℕ) : Prop :=
  ∃ before after, l = before ++ after ∧ v ∈ before ∧ u ∈ after

/-- The results are a topological order: each node is there once, behind every node it has an edge
to, and the other way round when they are read from the end. -/
structure Sorted (m : EdgeMatrix) (results : List ℕ) : Prop where
  each : results.Perm (List.range m.count)
  order : ∀ u v, m.Edge u v → Precedes results v u
  reversed : ∀ u v, m.Edge u v → Precedes results.reverse u v

/-- Between two calls only the entries left on the stack matter. -/
structure Idle (n : ℕ) (s : NodeStates) : Prop where
  nodeCount : s.nodeCount = n
  stackSize : s.stackSize = n * n % 2 ^ 32
  below : ∀ v ∈ s.stack, v < n

/-- Distinct nodes among which every node is are all the nodes. -/
theorem perm_range {results : List ℕ} (hnodup : results.Nodup)
    (hmem : ∀ v, v ∈ results ↔ v < n) : results.Perm (range n) := by
  rw [perm_ext_iff_of_nodup hnodup nodup_range]
  exact fun v => (hmem v).trans mem_range.symm

/-- **One call** that starts with few enough entries on the stack. -/
theorem Idle.tsort_returns (hn : n < 2 ^ 16) (h : Idle n s) (hm : m.count = n)
    (hstale : 2 * (s.stack.length + 1) ≤ n * (n + 1)) :
    ∃ result s', Returns m s result s' ∧ Idle n s' ∧ (result = false ↔ m.Cyclic) ∧
      (result = true → Sorted m s'.results ∧ s'.stack = []) := by
  subst hm
  have hsize : s.stackSize = m.count * m.count := by
    have hsquare : m.count * m.count < 2 ^ 16 * 2 ^ 16 := Nat.mul_lt_mul'' hn hn
    rw [← Nat.pow_add] at hsquare
    rw [h.stackSize, Nat.mod_eq_of_lt hsquare]
  have hpos : 0 < m.count := by
    rcases Nat.eq_zero_or_pos m.count with hzero | hpos
    · rw [hzero] at hstale
      omega
    · exact hpos
  have hsum : m.count * (m.count + 1) + m.count * (m.count - 1) = 2 * (m.count * m.count) := by
    obtain ⟨k, hk⟩ := Nat.exists_eq_add_of_lt hpos
    rw [hk]
    simp only [Nat.zero_add, Nat.add_sub_cancel]
    ring
  have hstart : Searching m s.resetState [] := {
    nodeCount := h.nodeCount
    found := fun v => by simp [resetState]
    complete := fun v => by simp [resetState]
    nodup := nodup_nil
    marked := fun v hv => absurd hv not_mem_nil
    below := h.below
    ordered := .nil
    pending := .stale _
    room := fun k hk => by
      obtain rfl : k = m.count := hk
      change 2 * s.stack.length + m.count * (m.count - 1) ≤ 2 * s.stackSize
      omega }
  obtain ⟨least, result, s', hreturns, hcount, hsize', hbelow, hdone, hcycle⟩ :=
    hstart.searchNodes_ends (range m.count) (fun id hid => mem_range.1 hid)
      (fun k hk => by
        obtain rfl : k = m.count := hk
        change 2 * (s.stack.length + 1) + m.count * (m.count - 1) ≤ 2 * s.stackSize
        omega)
      (by
        change 2 + m.count * (m.count - 1) ≤ 2 * s.stackSize
        omega)
  have hsorted : result = true → (Sorted m s'.results ∧ s'.stack = []) ∧ ¬ m.Cyclic := by
    intro hresult
    obtain ⟨h', hall, -, hempty⟩ := hdone hresult
    have hmem : ∀ v, v ∈ s'.results ↔ v < m.count := fun v =>
      ⟨fun hv => h'.marked v hv, fun hv => hall v (mem_range.2 hv)⟩
    have horder : ∀ u v, m.Edge u v → Precedes s'.results v u := fun u v huv =>
      h'.ordered.exists_split ((hmem u).2 huv.1) huv
    refine ⟨⟨⟨perm_range h'.ordered.nodup hmem, horder, fun u v huv => ?_⟩, hempty fun hnil => ?_⟩, ?_⟩
    · obtain ⟨before, after, heq, hv, hu⟩ := horder u v huv
      exact ⟨after.reverse, before.reverse, by rw [heq, reverse_append], mem_reverse.2 hu, mem_reverse.2 hv⟩
    · exact absurd (range_eq_nil.1 hnil) hpos.ne'
    · rintro ⟨u, hu⟩
      have hlt : u < m.count := by
        obtain ⟨v, hstep, -⟩ := Relation.TransGen.head'_iff.1 hu
        exact hstep.1
      exact h'.ordered.acyclic ((hmem u).2 hlt) hu
  refine ⟨result, s', ⟨least, fun rounds hrounds => ?_⟩, ⟨hcount.trans h.nodeCount,
    hsize'.trans h.stackSize, hbelow⟩, ⟨hcycle, fun hcyclic => ?_⟩, fun hresult =>
    (hsorted hresult).1⟩
  · rw [tsort, depthFirstSearch, h.nodeCount]
    exact hreturns rounds hrounds
  · cases hresult : result with
    | false => rfl
    | true => exact absurd hcyclic (hsorted hresult).2

theorem Returns.unique {r r' : Bool} {t t' : NodeStates} (h : Returns m s r t)
    (h' : Returns m s r' t') : r = r' ∧ t = t' := by
  obtain ⟨least, h⟩ := h
  obtain ⟨least', h'⟩ := h'
  have heq := (h (max least least') (Nat.le_max_left ..)).symm.trans
    (h' (max least least') (Nat.le_max_right ..))
  cases heq
  exact ⟨rfl, rfl⟩

theorem Run.idle (hn : n < 2 ^ 16) (h : Run n s) : Idle n s := by
  induction h with
  | initializeStates => exact ⟨rfl, rfl, fun v hv => absurd hv not_mem_nil⟩
  | tsort _ hm hstale hreturns ih =>
      obtain ⟨result, s', hreturns', hidle, -⟩ := ih.tsort_returns hn hm hstale
      obtain ⟨-, rfl⟩ := hreturns.unique hreturns'
      exact hidle

/-- **Sorting over and over.**  After any calls that each started with few enough entries on the
stack, such a call stays inside the stack and returns; it returns `false` if and only if the graph
has a cycle, and otherwise the results are a topological order and nothing is left on the stack. -/
theorem Run.sorts {n : ℕ} (hn : n < 2 ^ 16) (h : Run n s) (hm : m.count = n)
    (hstale : 2 * (s.stack.length + 1) ≤ n * (n + 1)) :
    ∃ result s', Returns m s result s' ∧ (result = false ↔ m.Cyclic) ∧
      (result = true → Sorted m s'.results ∧ s'.stack = []) := by
  obtain ⟨result, s', hreturns, -, hcycle, hsorted⟩ := (h.idle hn).tsort_returns hn hm hstale
  exact ⟨result, s', hreturns, hcycle, hsorted⟩

/-- A call on a cycle of two nodes out of three leaves both of them on the stack, and the next one sorts a chain. -/
theorem sorts_chain : ∃ s s', Returns ⟨3, fun u v => decide (u + v = 1)⟩ (initializeStates 3) false s ∧
    s.stack = [1, 0] ∧ Returns ⟨3, fun u v => decide (v = u + 1)⟩ s true s' ∧ s'.results = [2, 1, 0] ∧
    Sorted ⟨3, fun u v => decide (v = u + 1)⟩ s'.results ∧ s'.stack = [] := by
  have hcycle : Returns ⟨3, fun u v => decide (u + v = 1)⟩ (initializeStates 3) false
      { initializeStates 3 with stack := [1, 0] } := ⟨2, fun rounds hrounds => by
    obtain ⟨r, rfl⟩ := Nat.exists_eq_add_of_le hrounds
    rw [Nat.add_comm]
    rfl⟩
  obtain ⟨t, hchain, hresults⟩ : ∃ t, Returns ⟨3, fun u v => decide (v = u + 1)⟩
      { initializeStates 3 with stack := [1, 0] } true t ∧ t.results = [2, 1, 0] := ⟨_, ⟨9, fun rounds hrounds => by
    obtain ⟨r, rfl⟩ := Nat.exists_eq_add_of_le hrounds
    rw [Nat.add_comm]
    rfl⟩, rfl⟩
  obtain ⟨result, s', hreturns, -, hsorted⟩ := Run.sorts (m := ⟨3, fun u v => decide (v = u + 1)⟩) (by decide)
    (.tsort .initializeStates rfl (by decide) hcycle) rfl (by decide)
  obtain ⟨rfl, rfl⟩ := hreturns.unique hchain
  exact ⟨_, _, hcycle, rfl, hchain, hresults, hsorted rfl⟩

/-- A node with an edge to itself: the first call leaves it on the stack, and the second one writes
outside the stack. -/
theorem overflow_loop : ∃ s', Returns ⟨1, fun _ _ => true⟩ (initializeStates 1) false s' ∧
    ∀ rounds, s'.tsort ⟨1, fun _ _ => true⟩ rounds = .error .overflow := by
  refine ⟨{ initializeStates 1 with stack := [0] }, ⟨1, fun rounds hrounds => ?_⟩, fun rounds => rfl⟩
  obtain ⟨r, rfl⟩ := Nat.exists_eq_add_of_le hrounds
  rw [Nat.add_comm]
  rfl

end NodeStates
end NXEmu.AudioCore
