/-
Data moved over edges, round by round. All transfers of a round read what was
held before it. What a phase sends and how a target takes it in are given;
`Carries` says that every transfer has room for what it must carry.
-/
import Mathlib

namespace HeteroSim.Dataflow

variable {P Q D : Type} [DecidableEq P] [DecidableEq Q]

structure Edge (P : Type) where
  source : P
  target : P
  byteCount : ℕ
deriving DecidableEq

/-- What goes to a target out of what the source holds, and what the target
then holds. -/
structure Phase (P D : Type) where
  send : P → D → D
  receive : D → D → D

def deliver (phase : Phase P D) (held : P → D) (round : List (Edge P)) : P → D := fun p =>
  (round.filter fun e => e.target = p).foldl (fun own e => phase.receive own (phase.send p (held e.source))) (held p)

def execute (phase : Phase P D) (held : P → D) (rounds : List (List (Edge P))) : P → D :=
  rounds.foldl (deliver phase) held

/-- Every transfer's byte count is at least the size of what it carries. -/
def Carries (phase : Phase P D) (size : D → ℕ) : (P → D) → List (List (Edge P)) → Prop
  | _, [] => True
  | held, round :: rounds =>
    (∀ e ∈ round, size (phase.send e.target (held e.source)) ≤ e.byteCount) ∧
      Carries phase size (deliver phase held round) rounds

section Rounds

variable {phase : Phase P D} {size : D → ℕ} {held : P → D} {round : List (Edge P)}

/-- A round without transfers changes nothing. -/
theorem deliver_nil : deliver phase held [] = held := rfl

end Rounds

/-! ## Other names for the nodes -/

/-- The edge between the nodes' other names. -/
def Edge.rename (f : P → Q) (e : Edge P) : Edge Q := ⟨f e.source, f e.target, e.byteCount⟩

section Rename

variable {f : P → Q} {nodes : Set P} {phaseP : Phase P D} {phaseQ : Phase Q D} {size : D → ℕ} {heldP : P → D} {heldQ : Q → D}

/-- The round is between the nodes. -/
def Within (nodes : Set P) (round : List (Edge P)) : Prop := ∀ e ∈ round, e.source ∈ nodes ∧ e.target ∈ nodes

/-- Two phases say the same of the nodes under both names. -/
structure Renames (f : P → Q) (nodes : Set P) (phaseP : Phase P D) (phaseQ : Phase Q D) : Prop where
  injective : Set.InjOn f nodes
  send : ∀ p ∈ nodes, phaseQ.send (f p) = phaseP.send p
  receive : phaseQ.receive = phaseP.receive

theorem Renames.deliver (h : Renames f nodes phaseP phaseQ) (hheld : ∀ p ∈ nodes, heldQ (f p) = heldP p)
    {round : List (Edge P)} (hw : Within nodes round) {p : P} (hp : p ∈ nodes) :
    Dataflow.deliver phaseQ heldQ (round.map (Edge.rename f)) (f p) = Dataflow.deliver phaseP heldP round p := by
  have hfilter : ((round.map (Edge.rename f)).filter fun e => e.target = f p) =
      (round.filter fun e => e.target = p).map (Edge.rename f) := by
    rw [List.filter_map]
    congr 1
    refine List.filter_congr fun e he => ?_
    simp only [Function.comp_apply, Edge.rename, h.injective.eq_iff (hw e he).2 hp]
  rw [Dataflow.deliver, hfilter, List.foldl_map, hheld p hp, h.receive, h.send p hp]
  unfold Dataflow.deliver
  refine List.foldl_ext _ _ _ fun own e he => ?_
  rw [Edge.rename, hheld e.source (hw e (List.mem_of_mem_filter he)).1]

theorem Renames.execute (h : Renames f nodes phaseP phaseQ) (hheld : ∀ p ∈ nodes, heldQ (f p) = heldP p)
    {rounds : List (List (Edge P))} (hw : ∀ round ∈ rounds, Within nodes round) :
    ∀ p ∈ nodes, Dataflow.execute phaseQ heldQ (rounds.map (List.map (Edge.rename f))) (f p) =
      Dataflow.execute phaseP heldP rounds p := by
  induction rounds generalizing heldP heldQ with
  | nil => exact hheld
  | cons round rounds ih =>
    exact ih (fun p hp => h.deliver hheld (hw round (by simp)) hp) fun r hr => hw r (by simp [hr])

end Rename

end HeteroSim.Dataflow
