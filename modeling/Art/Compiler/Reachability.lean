import Art.Base.BitVectorArray

/-!
# Reachability between blocks (`HGraph::ComputeReachabilityInformation`, `compiler/optimizing/nodes.cc`)

`ReachabilityAnalysisHelper` fills `reachability_graph_`, a square `BitVectorArray` over the block
ids, one block after another: first the blocks of the post order, then those that it left out, in
increasing id.  For a block it runs one depth-first search with a stack and a `discovered` vector,
setting in the block's row every successor it sees.  A block whose row is already computed
(`all_visited_nodes_`) is not searched again: its row is or-ed into the row being built.
`PathBetween(source, dest)` then reads bit `(source, dest)`.

The graph is `blocks_`, the successor ids of each block or `none` for a removed one, and the post
order, `none` for a null entry.  The work stack is a list whose head is its back.  The search runs
with the number of blocks as fuel: a block is pushed at most once and every round pops one.
-/

namespace Art

/-- The blocks of an `HGraph` and its post order. -/
structure HGraph where
  /-- `blocks_`: the successor ids of each block, `none` where the block was removed. -/
  blocks : List (Option (List Nat))
  /-- `GetPostOrder()`. -/
  postOrder : List (Option Nat)

namespace HGraph

/-- `GetSuccessors()` of the block with id `b`. -/
def successors (g : HGraph) (b : Nat) : List Nat := (g.blocks.getD b none).getD []

/-- The state of `ReachabilityAnalysisHelper`: `reachability_graph_`, `all_visited_nodes_` and
`not_post_order_visited_`. -/
structure ReachabilityState where
  reachabilityGraph : BitVectorArray
  allVisitedNodes : BitVector
  notPostOrderVisited : BitVector

/-- One round of the `for (succ : cur->GetSuccessors())` loop: the edge to `succ` set in the row
of the target, and `succ` pushed if it was not discovered.  The state is the reachability graph,
`discovered` and the work stack. -/
def visitSuccessor (targetIdx : Nat) (st : BitVectorArray × BitVector × List Nat) (succ : Nat) :
    BitVectorArray × BitVector × List Nat :=
  let (reachabilityGraph, discovered, workStack) := st
  -- `AddEdge(target_idx, succ)`
  let reachabilityGraph := reachabilityGraph.setBit targetIdx succ
  if !discovered.isBitSet succ then (reachabilityGraph, discovered.setBit succ, succ :: workStack)
  else (reachabilityGraph, discovered, workStack)

/-- The main DFS loop of `CalculateConnectednessOn(target)`. -/
def dfsLoop (g : HGraph) (allVisitedNodes : BitVector) (targetIdx : Nat) :
    Nat → BitVectorArray × BitVector × List Nat → BitVectorArray × BitVector × List Nat
  | 0, st => st
  | _ + 1, (reachabilityGraph, discovered, []) => (reachabilityGraph, discovered, [])
  | fuel + 1, (reachabilityGraph, discovered, cur :: workStack) =>
    if allVisitedNodes.isBitSet cur then
      -- already explored from here: its row is used
      dfsLoop g allVisitedNodes targetIdx fuel
        (reachabilityGraph.unionRows targetIdx cur, discovered, workStack)
    else
      dfsLoop g allVisitedNodes targetIdx fuel
        ((g.successors cur).foldl (visitSuccessor targetIdx) (reachabilityGraph, discovered, workStack))

/-- `CalculateConnectednessOn(target_block)`: the reachability graph after the search. -/
def calculateConnectednessOn (g : HGraph) (st : ReachabilityState) (targetIdx : Nat) :
    BitVectorArray :=
  let discovered := (BitVector.ofStartBits g.blocks.length).setBit targetIdx
  (g.dfsLoop st.allVisitedNodes targetIdx g.blocks.length
    (st.reachabilityGraph, discovered, [targetIdx])).1

/-- One block computed and marked in `all_visited_nodes_`. -/
def computeBlock (g : HGraph) (st : ReachabilityState) (b : Nat) : ReachabilityState :=
  { st with reachabilityGraph := g.calculateConnectednessOn st b,
            allVisitedNodes := st.allVisitedNodes.setBit b }

/-- One round of the loop over the post order. -/
def postOrderStep (g : HGraph) (st : ReachabilityState) : Option Nat → ReachabilityState
  | none => st
  | some b =>
    g.computeBlock { st with notPostOrderVisited := st.notPostOrderVisited.clearBit b } b

/-- One round of the loop over `not_post_order_visited_.Indexes()`. -/
def remainingStep (g : HGraph) (st : ReachabilityState) (idx : Nat) : ReachabilityState :=
  match g.blocks.getD idx none with
  | none => st
  | some _ => g.computeBlock st idx

/-- `CalculateReachability()`. -/
def calculateReachability (g : HGraph) (st : ReachabilityState) : ReachabilityState :=
  let st := g.postOrder.foldl g.postOrderStep st
  st.notPostOrderVisited.indexes.foldl g.remainingStep st

/-- `ComputeReachabilityInformation()` from the empty `reachability_graph_`. -/
def computeReachabilityInformation (g : HGraph) : BitVectorArray :=
  let n := g.blocks.length
  let reachabilityGraph := BitVectorArray.empty.resize n n
  let helper : ReachabilityState :=
    ⟨reachabilityGraph, BitVector.ofStartBits n, (BitVector.ofStartBits n).setInitialBits n⟩
  (g.calculateReachability helper).reachabilityGraph

/-- `PathBetween(source_idx, dest_idx)` after `ComputeReachabilityInformation()`. -/
def pathBetween (g : HGraph) (sourceIdx destIdx : Nat) : Bool :=
  g.computeReachabilityInformation.isBitSet sourceIdx destIdx

end HGraph

end Art
