/-
Runs of a transition system: a relation from a state and an event to the next
state, taken step after step. Two rules carry the proofs: an invariant of the
steps is one of the runs, and what a step keeps of a fact about one earlier
state, a run keeps.
-/
import Mathlib

namespace HeteroSim

variable {σ ε : Type}

/-- The states a list of events leads through, from the first to the last. -/
inductive Run (step : σ → ε → σ → Prop) : σ → List ε → σ → Prop
  | nil (s : σ) : Run step s [] s
  | cons {s t u : σ} {e : ε} {es : List ε} : step s e t → Run step t es u → Run step s (e :: es) u

variable {step : σ → ε → σ → Prop}

theorem Run.single {s t : σ} {e : ε} (h : step s e t) : Run step s [e] t := .cons h (.nil t)

theorem Run.append {s t u : σ} {es fs : List ε} (h : Run step s es t) (h' : Run step t fs u) :
    Run step s (es ++ fs) u := by
  induction h with
  | nil => exact h'
  | cons hs _ ih => exact .cons hs (ih h')

/-- An invariant holds along a run, of the events that may occur in it. -/
theorem Run.keeps {I : σ → Prop} {s t : σ} {es : List ε} (h : Run step s es t)
    (hstep : ∀ s e t, e ∈ es → I s → step s e t → I t) (hs : I s) : I t := by
  induction h with
  | nil => exact hs
  | cons hst _ ih =>
    exact ih (fun s e t he => hstep s e t (List.mem_cons_of_mem _ he)) (hstep _ _ _ List.mem_cons_self hs hst)

/-- The states reached from an initial one. -/
def Reached (step : σ → ε → σ → Prop) (init : σ → Prop) (s : σ) : Prop := ∃ s₀ es, init s₀ ∧ Run step s₀ es s

theorem Reached.of_init {init : σ → Prop} {s : σ} (h : init s) : Reached step init s := ⟨s, [], h, .nil s⟩

theorem Reached.run {init : σ → Prop} {s t : σ} {es : List ε} (h : Reached step init s) (hr : Run step s es t) :
    Reached step init t := by
  obtain ⟨s₀, fs, hi, hs⟩ := h
  exact ⟨s₀, fs ++ es, hi, hs.append hr⟩

theorem Reached.keeps {init I : σ → Prop} {s : σ} (h : Reached step init s) (hinit : ∀ s, init s → I s)
    (hstep : ∀ s e t, I s → step s e t → I t) : I s := by
  obtain ⟨s₀, es, hi, hs⟩ := h
  exact hs.keeps (fun s e t _ => hstep s e t) (hinit s₀ hi)

end HeteroSim
