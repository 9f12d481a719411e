/-
The binomial tree of a collective over ranks: what the rounds toward rank 0
gather, what the rounds away from it hand out, and that each edge is used
once either way.
-/
import HeteroSim.Collective.Plan

namespace HeteroSim.Collective

open Dataflow

/-! ## Children of a level -/

/-- The level at which a rank is a child. -/
def levelOf (c : ℕ) : ℕ := padicValNat 2 c

/-- The rank a child reports to. -/
def parent (c : ℕ) : ℕ := c - 2 ^ levelOf c

end HeteroSim.Collective
