/-
Links along which a rank falls: what a thing hangs on ranks below it, so no
chain of links comes back to where it began. A thing nothing hangs on yet
may be hung anywhere.
-/
import Mathlib

namespace HeteroSim

variable {κ : Type} {link link' : κ → κ → Prop}

/-- The rank falls along every link. -/
def Ranked (link : κ → κ → Prop) (rank : κ → Nat) : Prop := ∀ j k, link j k → rank k < rank j

/-- Some rank falls along every link. -/
def Acyclic (link : κ → κ → Prop) : Prop := ∃ rank, Ranked link rank

theorem Ranked.transGen {rank : κ → Nat} (h : Ranked link rank) {j k : κ} (hjk : Relation.TransGen link j k) :
    rank k < rank j := by
  induction hjk with
  | single hlink => exact h _ _ hlink
  | tail _ hlink ih => exact (h _ _ hlink).trans ih

theorem Acyclic.irrefl (h : Acyclic link) (k : κ) : ¬Relation.TransGen link k k := fun hk => by
  obtain ⟨rank, hrank⟩ := h
  exact lt_irrefl _ (hrank.transGen hk)

theorem Acyclic.mono (h : Acyclic link) (hsub : ∀ j k, link' j k → link j k) : Acyclic link' := by
  obtain ⟨rank, hrank⟩ := h
  exact ⟨rank, fun j k hjk => hrank j k (hsub j k hjk)⟩

/-- What nothing links to or from may be hung on any other. -/
theorem Acyclic.hang [DecidableEq κ] {a t : κ} (h : Acyclic link) (hnew : ∀ j k, link j k → j ≠ a ∧ k ≠ a)
    (hne : t ≠ a) (hlink : ∀ j k, link' j k → link j k ∨ j = a ∧ k = t) : Acyclic link' := by
  obtain ⟨rank, hrank⟩ := h
  refine ⟨Function.update rank a (rank t + 1), fun j k hjk => ?_⟩
  rcases hlink j k hjk with hold | ⟨rfl, rfl⟩
  · obtain ⟨hj, hk⟩ := hnew j k hold
    rw [Function.update_of_ne hj, Function.update_of_ne hk]
    exact hrank j k hold
  · rw [Function.update_self, Function.update_of_ne hne]
    exact Nat.lt_succ_self _

end HeteroSim
