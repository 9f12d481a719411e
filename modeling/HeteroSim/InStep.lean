/-
Computations that may raise, run side by side: they raise alike, or both
return and what they return is related.
-/
import Mathlib

namespace HeteroSim

variable {ε α β γ δ : Type}

/-- Both raise the same, or both return related values. -/
inductive InStep (R : α → β → Prop) : Except ε α → Except ε β → Prop
  | ok {a : α} {b : β} : R a b → InStep R (.ok a) (.ok b)
  | error (e : ε) : InStep R (.error e) (.error e)

variable {R : α → β → Prop} {S : γ → δ → Prop}

theorem InStep.bind {x : Except ε α} {y : Except ε β} {f : α → Except ε γ} {g : β → Except ε δ} (h : InStep R x y)
    (hstep : ∀ a b, R a b → InStep S (f a) (g b)) : InStep S (x >>= f) (y >>= g) := by
  cases h with
  | ok hab => exact hstep _ _ hab
  | error e => exact .error e

theorem InStep.mapM {f : α → Except ε γ} {g : β → Except ε δ} (hstep : ∀ a b, R a b → InStep S (f a) (g b)) {l : List α}
    {m : List β} (h : List.Forall₂ R l m) : InStep (List.Forall₂ S) (l.mapM f) (m.mapM g) := by
  induction h with
  | nil => exact .ok .nil
  | cons hab _ ih =>
    rw [List.mapM_cons, List.mapM_cons]
    exact (hstep _ _ hab).bind fun _ _ hcd => ih.bind fun _ _ hrest => .ok (.cons hcd hrest)

theorem InStep.foldlM {f : γ → α → Except ε γ} {g : δ → β → Except ε δ}
    (hstep : ∀ c d a b, S c d → R a b → InStep S (f c a) (g d b)) {l : List α} {m : List β} (h : List.Forall₂ R l m) :
    ∀ {c : γ} {d : δ}, S c d → InStep S (l.foldlM f c) (m.foldlM g d) := by
  induction h with
  | nil => exact fun hcd => .ok hcd
  | cons hab _ ih =>
    intro c d hcd
    rw [List.foldlM_cons, List.foldlM_cons]
    exact (hstep _ _ _ _ hcd hab).bind fun _ _ hnext => ih hnext

/-- Two lists numbered alike. -/
theorem forall₂_zipIdx {l : List α} {m : List β} (h : List.Forall₂ R l m) : ∀ n : ℕ,
    List.Forall₂ (fun p q => R p.1 q.1 ∧ p.2 = q.2) (l.zipIdx n) (m.zipIdx n) := by
  induction h with
  | nil => exact fun _ => .nil
  | cons hab _ ih => exact fun n => .cons ⟨hab, rfl⟩ (ih (n + 1))

/-- A loop whose every turn returns. -/
theorem mapM_rows {f : α → Except ε β} : ∀ {l : List α}, (∀ a ∈ l, ∃ b, f a = .ok b ∧ R a b) →
    ∃ m, l.mapM f = .ok m ∧ List.Forall₂ R l m
  | [], _ => ⟨[], rfl, .nil⟩
  | a :: l, h => by
    obtain ⟨b, hb, hab⟩ := h a (by simp)
    obtain ⟨m, hm, hrest⟩ := mapM_rows fun c hc => h c (List.mem_cons_of_mem _ hc)
    refine ⟨b :: m, ?_, .cons hab hrest⟩
    rw [List.mapM_cons, hb, hm]
    rfl

end HeteroSim
