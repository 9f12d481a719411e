/-
An index from groups to their members, where a group without members has no
entry. It is the index of a membership function, and adding and dropping a
member follow that function.
-/
import Mathlib

namespace HeteroSim.GroupIndex

variable {γ κ : Type} [DecidableEq γ] [DecidableEq κ]

/-- `index.setdefault(group, set()).add(member)` -/
def add (g : γ) (k : κ) (index : γ → Option (Finset κ)) : γ → Option (Finset κ) :=
  Function.update index g (some (insert k ((index g).getD ∅)))

/-- The member leaves its group, and an emptied group the index. -/
def drop (g : γ) (k : κ) (index : γ → Option (Finset κ)) : γ → Option (Finset κ) :=
  match index g with
  | none => index
  | some ks => Function.update index g (if ks.erase k = ∅ then none else some (ks.erase k))

/-- The index of a membership function. -/
def of (f : γ → Finset κ) (g : γ) : Option (Finset κ) := if f g = ∅ then none else some (f g)

omit [DecidableEq γ] in
theorem getD_of (f : γ → Finset κ) (g : γ) : (of f g).getD ∅ = f g := by
  unfold of
  split
  · next h => rw [h]; rfl
  · rfl

omit [DecidableEq γ] in
theorem of_empty : of (fun _ : γ => (∅ : Finset κ)) = fun _ => none := by
  funext g
  simp [of]

theorem add_of (f : γ → Finset κ) (g : γ) (k : κ) :
    add g k (of f) = of (Function.update f g (insert k (f g))) := by
  funext h
  rw [add, getD_of]
  by_cases hg : h = g
  · subst hg; simp [of]
  · simp [of, hg]

theorem drop_of (f : γ → Finset κ) (g : γ) (k : κ) :
    drop g k (of f) = of (Function.update f g ((f g).erase k)) := by
  funext h
  by_cases h0 : f g = ∅
  · have hn : of f g = none := by simp [of, h0]
    have he : Function.update f g ((f g).erase k) = f := by
      rw [h0, Finset.erase_empty, ← h0, Function.update_eq_self]
    rw [he]
    simp only [drop, hn]
  · have hs : of f g = some (f g) := by simp [of, h0]
    simp only [drop, hs]
    by_cases hg : h = g
    · subst hg; simp [of]
    · simp [of, hg]

end HeteroSim.GroupIndex
