/-
What the tree delivers over ranks: the sizes of what is carried, the phases
of each kind of collective, and what every rank holds in the end.
-/
import HeteroSim.Collective.Tree

namespace HeteroSim.Collective

open Dataflow Routing

/-! ## Shards -/

/-- The bytes of a shard; the last ones may be short or empty. -/
def shardBytes (count tensorBytes i : ℕ) : ℕ := min (chunk count tensorBytes) (tensorBytes - chunk count tensorBytes * i)

/-- The bytes of the shards at which something is held. -/
def size {V : Type} [Zero V] [DecidableEq V] (count tensorBytes : ℕ) (held : ℕ → V) : ℕ :=
  ∑ i ∈ Finset.range count with held i ≠ 0, shardBytes count tensorBytes i

section Size

variable {V : Type} [Zero V] [DecidableEq V] {count tensorBytes : ℕ} {held : ℕ → V}

end Size

/-! ## What the phases do -/

/-- The target gets the shards of its subtree. -/
def scatter {P V : Type} [Zero V] (subtree : P → Finset ℕ) : Phase P (ℕ → V) :=
  ⟨fun p d i => if i ∈ subtree p then d i else 0, fun _ got => got⟩

/-- The ranks below a child, itself included. -/
def subtree (count c : ℕ) : Finset ℕ := Finset.Ico c (min (c + 2 ^ levelOf c) count)

section Ranks

variable {V : Type} {kind : Kind} {count tensorBytes : ℕ}

variable [AddCommMonoid V] [DecidableEq V]

end Ranks

end HeteroSim.Collective
