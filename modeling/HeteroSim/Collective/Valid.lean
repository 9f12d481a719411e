/-
Collective plans as dataflows: executed round by round, the tree plans
deliver what their kind promises, with room for what each transfer carries;
the plans of an all-to-all send each pair's bytes once.
-/
import HeteroSim.Collective.Delivered
import HeteroSim.Collective.Plan
import HeteroSim.Routing.Optimal

namespace HeteroSim.Collective

open Dataflow Routing

/-! ## What a plan promises -/

/-- The participant of a rank. -/
def nameOf (participants : List String) (rank : ℕ) : String := participants.getD rank ""

/-- What each participant begins with, told by its rank. -/
def start {D : Type} (participants : List String) (x : ℕ → D) : String → D := fun p => x (participants.idxOf p)

section Promises

variable (participants : List String) (tensorBytes : ℕ) (up down : List (List (Edge String)))

end Promises

/-- The bytes of an ordered pair: its own, or a shard. -/
def CollectivePlan.bytes (plan : CollectivePlan) (i j : ℕ) : ℕ :=
  match plan.pairBytes with
  | some pairBytes => bytesOf pairBytes i j
  | none => chunk plan.participants.length plan.tensorBytes

/-! ## From ranks to participants -/

section Names

variable {participants : List String} {kind : Kind} {tensorBytes : ℕ}

/-- The rounds between the participants. -/
def named (participants : List String) (rounds : List (List (Edge ℕ))) : List (List (Edge String)) :=
  rounds.map (List.map (Edge.rename (nameOf participants)))

end Names

/-! ## What the planner answers -/

section Planner

variable {r : TopologyRouter} {routingPolicy : String}

/-- The plan is that of the request, its rounds those of its kind and algorithm. -/
structure Planned (kind : String) (participants : List String) (tensorBytes : ℤ) (pairBytes : Option (List (List ℤ)))
    (plan : CollectivePlan) : Prop where
  kind_eq : Kind.ofText (normalized kind) = some plan.kind
  participants_eq : plan.participants = participants
  tensorBytes_eq : (plan.tensorBytes : ℤ) = tensorBytes
  pairBytes_eq : plan.pairBytes = pairBytes.map (List.map (List.map Int.toNat))
  nodup : participants.Nodup
  tree : plan.algorithm = .tree → plan.tensorBytes = 0 ∧ plan.edges = [] ∨ participants.length ≤ 1 ∨
    plan.edges = named participants (treeRounds plan.kind participants.length plan.tensorBytes)
  pairs : plan.kind = .allToAll → plan.edges.flatten =
    (rotation participants.length plan.bytes).flatten.map (Edge.rename (nameOf participants))

end Planner

end HeteroSim.Collective
