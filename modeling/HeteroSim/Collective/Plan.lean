/-
Collective plans (`communication.py`): the rounds of a collective between
named participants. A round is planned over ranks, the places of the
participants in their order; then each transfer gets its route.
-/
import HeteroSim.Dataflow
import HeteroSim.Routing.Router

namespace HeteroSim.Collective

open Dataflow Routing

inductive Kind
  | allReduce
  | allGather
  | reduceScatter
  | allToAll
deriving DecidableEq

/-- `supported` -/
def Kind.ofText : String → Option Kind
  | "all_reduce" => some .allReduce
  | "all_gather" => some .allGather
  | "reduce_scatter" => some .reduceScatter
  | "all_to_all" => some .allToAll
  | _ => none

inductive Algorithm
  | ring
  | tree
deriving DecidableEq

structure CollectiveTransfer where
  sourceComponent : String
  targetComponent : String
  byteCount : ℕ
  route : List RouteHop

structure CollectiveRound where
  index : ℕ
  transfers : List CollectiveTransfer

structure CollectivePlan where
  kind : Kind
  algorithm : Algorithm
  participants : List String
  tensorBytes : ℕ
  rounds : List CollectiveRound
  pairBytes : Option (List (List ℕ))

def CollectiveTransfer.edge (t : CollectiveTransfer) : Edge String := ⟨t.sourceComponent, t.targetComponent, t.byteCount⟩

def CollectiveRound.edges (round : CollectiveRound) : List (Edge String) := round.transfers.map CollectiveTransfer.edge

def CollectivePlan.edges (plan : CollectivePlan) : List (List (Edge String)) := plan.rounds.map CollectiveRound.edges

/-! ## Rounds over ranks -/

/-- `pair_bytes[rank][target]` -/
def bytesOf (pairBytes : List (List ℕ)) (rank target : ℕ) : ℕ := (pairBytes.getD rank []).getD target 0

/-- `(tensor_bytes + count - 1) // count` -/
def chunk (count tensorBytes : ℕ) : ℕ := (tensorBytes + count - 1) / count

/-- `int(math.ceil(math.log(count, 2)))`, the logarithm being exact. -/
def depth (count : ℕ) : ℕ := Nat.clog 2 count

/-- `range(step, count, 2 * step)` -/
def children (count step : ℕ) : List ℕ := List.range' step ((count - step + 2 * step - 1) / (2 * step)) (2 * step)

/-- The transfers of a level of the tree, given that of a child and its parent. -/
def levelRound (count step : ℕ) (transfer : ℕ → ℕ → Edge ℕ) : List (Edge ℕ) :=
  (children count step).filterMap fun child =>
    let parent := child - step
    if count ≤ parent then none else some (transfer child parent)

/-- `subtree_size` -/
def subtreeSize (count step child : ℕ) : ℕ := min step (count - child)

/-- Leaves first: a child sends to its parent what it has gathered, or a whole
padded tensor to be reduced. -/
def upRound (kind : Kind) (count tensorBytes step : ℕ) : List (Edge ℕ) :=
  levelRound count step fun child parent =>
    ⟨child, parent,
      if kind = .allReduce ∨ kind = .reduceScatter then chunk count tensorBytes * count
      else min tensorBytes (chunk count tensorBytes * subtreeSize count step child)⟩

/-- Root first: a parent sends the shards of a child's subtree. -/
def scatterRound (count tensorBytes step : ℕ) : List (Edge ℕ) :=
  levelRound count step fun child parent => ⟨parent, child, chunk count tensorBytes * subtreeSize count step child⟩

/-- Root first: a parent sends the tensor. -/
def gatherRound (count tensorBytes step : ℕ) : List (Edge ℕ) :=
  levelRound count step fun child parent => ⟨parent, child, tensorBytes⟩

/-- `_tree_rounds` -/
def treeRounds (kind : Kind) (count tensorBytes : ℕ) : List (List (Edge ℕ)) :=
  let up := (List.range (depth count)).map fun level => upRound kind count tensorBytes (2 ^ level)
  let scatter := if kind = .reduceScatter then
      (List.range (depth count)).reverse.map fun level => scatterRound count tensorBytes (2 ^ level)
    else []
  let gather := if kind = .reduceScatter then []
    else (List.range (depth count)).reverse.map fun level => gatherRound count tensorBytes (2 ^ level)
  (up ++ scatter ++ gather).filter (· ≠ [])

/-! ## The plan -/

/-- `strip().lower().replace("-", "_")` -/
@[irreducible] def normalized (text : String) : String := TopologyRouter.normalizedPolicy text

variable (r : TopologyRouter) (routingPolicy : String)

end HeteroSim.Collective

/-!
All-to-all: in each round every rank sends to the rank a fixed distance on,
so each pair of ranks meets in one round.
-/

namespace HeteroSim.Collective

open Dataflow

/-- What a rank sends in a round, if any bytes. -/
def rotate (count : ℕ) (bytes : ℕ → ℕ → ℕ) (roundIndex rank : ℕ) : Option (Edge ℕ) :=
  let target := (rank + roundIndex + 1) % count
  if bytes rank target = 0 then none else some ⟨rank, target, bytes rank target⟩

def rotation (count : ℕ) (bytes : ℕ → ℕ → ℕ) : List (List (Edge ℕ)) :=
  (List.range (count - 1)).map fun roundIndex => (List.range count).filterMap (rotate count bytes roundIndex)

end HeteroSim.Collective
