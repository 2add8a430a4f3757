/-
# Sorting the mixes of the audio renderer

`NodeStates` of `src/yuzu_audio_core/renderer/nodes/node_states.h` and `node_states.cpp`, with the
`EdgeMatrix` it sorts: an iterative depth-first search, whose stack is an array of `count * count`
entries and stays as it is when the search bails out at a cycle.

A stack that is an array with a position is the list of its entries, the top first.  Pushing outside
the array is an error, and so is a search loop that has not ended after the given number of rounds.
-/

import Mathlib

namespace NXEmu.AudioCore

/-- `EdgeMatrix`: the number of nodes and which of them are connected to which. -/
structure EdgeMatrix where
  count : ℕ
  connected : ℕ → ℕ → Bool

/-- `NodeStates::SearchState`. -/
inductive SearchState where
  | unknown
  | found
  | complete
deriving DecidableEq, Repr

/-- `NodeStates`. -/
structure NodeStates where
  nodeCount : ℕ
  nodesFound : ℕ → Bool
  nodesComplete : ℕ → Bool
  results : List ℕ
  stack : List ℕ
  stackSize : ℕ

/-- Why a search did not return. -/
inductive Stop where
  /-- An entry was written outside an array. -/
  | overflow
  /-- The loop has gone through all its rounds. -/
  | rounds
deriving DecidableEq, Repr

namespace NodeStates

/-- `NodeStates::Initialize`; the size of the stack is a `u32`. -/
def initializeStates (count : ℕ) : NodeStates where
  nodeCount := count
  nodesFound := fun _ => false
  nodesComplete := fun _ => false
  results := []
  stack := []
  stackSize := count * count % 2 ^ 32

/-- `Stack::push`. -/
def push (s : NodeStates) (data : ℕ) : Except Stop NodeStates :=
  if s.stack.length < s.stackSize then .ok { s with stack := data :: s.stack } else .error .overflow

/-- `Stack::pop`. -/
def pop (s : NodeStates) : NodeStates := { s with stack := s.stack.tail }

/-- `GetState`. -/
def getState (s : NodeStates) (id : ℕ) : SearchState :=
  if s.nodesFound id then .found else if s.nodesComplete id then .complete else .unknown

/-- `SetState`: in which of its three states the search has a node. -/
def setState (s : NodeStates) (id : ℕ) (state : SearchState) : NodeStates :=
  match state with
  | .complete =>
      { s with
        nodesFound := Function.update s.nodesFound id false
        nodesComplete := Function.update s.nodesComplete id true }
  | .found =>
      { s with
        nodesFound := Function.update s.nodesFound id true
        nodesComplete := Function.update s.nodesComplete id false }
  | .unknown =>
      { s with
        nodesFound := Function.update s.nodesFound id false
        nodesComplete := Function.update s.nodesComplete id false }

/-- `PushTsortResult`; there is room for the results of `nodeCount` nodes. -/
def pushTsortResult (s : NodeStates) (id : ℕ) : Except Stop NodeStates :=
  if s.results.length < s.nodeCount then .ok { s with results := s.results ++ [id] }
  else .error .overflow

/-- `ResetState`. -/
def resetState (s : NodeStates) : NodeStates :=
  { s with nodesFound := fun _ => false, nodesComplete := fun _ => false, results := [] }

/-- The loop over the edges of the current node; the result is `false` at a cycle. -/
def scanEdges (connected : ℕ → Bool) : List ℕ → NodeStates → Except Stop (Bool × NodeStates)
  | [], s => .ok (true, s)
  | edgeId :: ids, s =>
      if connected edgeId then
        match s.getState edgeId with
        | .unknown => do
            let s ← s.push edgeId
            scanEdges connected ids s
        | .found => .ok (false, s.resetState)
        | .complete => scanEdges connected ids s
      else scanEdges connected ids s

/-- The loop that goes on while there is something on the stack. -/
def search (m : EdgeMatrix) : ℕ → NodeStates → Except Stop (Bool × NodeStates)
  | 0, _ => .error .rounds
  | rounds + 1, s =>
      match s.stack with
      | [] => .ok (true, s)
      | currentNode :: _ =>
          match s.getState currentNode with
          | .unknown => do
              let (acyclic, s) ← scanEdges (m.connected currentNode) (List.range m.count)
                (s.setState currentNode .found)
              if acyclic then search m rounds s else .ok (false, s)
          | .found => do
              let s ← (s.setState currentNode .complete).pushTsortResult currentNode
              search m rounds s.pop
          | .complete => search m rounds s.pop

/-- The loop over the nodes of the graph. -/
def searchNodes (m : EdgeMatrix) (rounds : ℕ) :
    List ℕ → NodeStates → Except Stop (Bool × NodeStates)
  | [], s => .ok (true, s)
  | nodeId :: ids, s => do
      let s ← (if s.getState nodeId = .unknown then s.push nodeId else .ok s)
      let (acyclic, s) ← search m rounds s
      if acyclic then searchNodes m rounds ids s else .ok (false, s)

/-- `DepthFirstSearch`. -/
def depthFirstSearch (m : EdgeMatrix) (rounds : ℕ) (s : NodeStates) :
    Except Stop (Bool × NodeStates) :=
  searchNodes m rounds (List.range s.nodeCount) s.resetState

/-- `Tsort`. -/
def tsort (m : EdgeMatrix) (rounds : ℕ) (s : NodeStates) : Except Stop (Bool × NodeStates) :=
  s.depthFirstSearch m rounds

end NodeStates
end NXEmu.AudioCore
