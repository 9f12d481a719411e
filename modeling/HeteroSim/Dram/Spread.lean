/-
The activations of a DRAM core stay spread: the calendars of its scopes keep
what can still constrain an activation, over every run of requests that are
admitted in order.
-/
import HeteroSim.Dram.Core
import HeteroSim.Dram.Least

namespace HeteroSim.Dram

open HeteroSim.Address HeteroSim.Task HeteroSim.Timeline

/-- The starts of the ACTs in a scope. -/
def DramCore.starts (core : DramCore) (scope : Scope) : List ℚ := (core.activations.filter (·.1 = scope)).map Prod.snd

def DramCore.window (core : DramCore) (scope : Scope) : List ℚ := (core.history scope).activateWindow

/-- Every calendar holds the ACTs that may matter from `admission` on. -/
def Kept (w admission : ℚ) (core : DramCore) : Prop := ∀ scope, Calendar 4 w admission (core.starts scope) (core.window scope)

section

variable {c : CoreConfig} {core : DramCore} {w admission : ℚ} {scope s : Scope}

theorem Kept.mono {later : ℚ} (h : Kept w admission core) (hle : admission ≤ later) : Kept w later core :=
  fun scope => (h scope).mono hle

/-- Only the ACTs and the windows matter. -/
theorem Kept.of_eq {core' : DramCore} (h : Kept w admission core) (hactivations : core'.activations = core.activations)
    (hwindow : ∀ scope, core'.window scope = core.window scope) : Kept w admission core' := by
  intro scope
  rw [DramCore.starts, hactivations, hwindow]
  exact h scope

theorem history_setHistory (core : DramCore) (s scope : Scope) (history : GroupHistory) :
    (core.setHistory s history).history scope = if scope = s then history else core.history scope := by
  rw [DramCore.history, DramCore.setHistory, Dict.get?_insert]
  split
  · rfl
  · rfl

theorem window_setHistory (core : DramCore) (s scope : Scope) (history : GroupHistory) :
    (core.setHistory s history).window scope = if scope = s then history.activateWindow else core.window scope := by
  rw [DramCore.window, history_setHistory]
  split
  · rfl
  · rfl

/-- A history that keeps its window. -/
theorem Kept.setHistory (h : Kept w admission core) {history : GroupHistory} (hwindow : history.activateWindow = core.window s) :
    Kept w admission (core.setHistory s history) := by
  refine h.of_eq rfl fun scope => ?_
  rw [window_setHistory]
  split
  · rename_i heq
    rw [hwindow, heq]
  · rfl

/-- The calendar found for an ACT, and where the ACT may start. -/
structure Ready (c : CoreConfig) (m : AddressMapping) (bankId : String) (admission start : ℚ) (core : DramCore) : Prop where
  kept : Kept c.fourActivateWindowNs admission core
  admitted : admission ≤ start
  allowed : Spaced 4 c.fourActivateWindowNs (start :: core.window (scopeOf m))
  available : ∃ available, availableNs core.timeline bankId = .ok available ∧ available ≤ start

theorem enabled_of_window (hw : 0 < c.fourActivateWindowNs) : c.bankGroupTimingEnabled = true := by
  rw [CoreConfig.bankGroupTimingEnabled, decide_eq_true_eq]
  exact .inr (.inr (.inr (.inr (.inl hw))))

theorem starts_recordActivate (c : CoreConfig) (m : AddressMapping) (start : ℚ) (core : DramCore) (scope : Scope) :
    (recordActivate c m start core).starts scope = if scope = scopeOf m then start :: core.starts scope else core.starts scope := by
  have hactivations : (recordActivate c m start core).activations = (scopeOf m, start) :: core.activations := by
    simp only [recordActivate]
    split
    · rfl
    · rfl
  rw [DramCore.starts, hactivations, List.filter_cons]
  split
  · rename_i heq
    rw [if_pos (of_decide_eq_true heq).symm]
    rfl
  · rename_i hne
    rw [if_neg fun heq => hne (decide_eq_true heq.symm)]
    rfl

theorem window_recordActivate (hw : 0 < c.fourActivateWindowNs) (m : AddressMapping) (start : ℚ) (core : DramCore) (scope : Scope) :
    (recordActivate c m start core).window scope =
      if scope = scopeOf m then insort (core.window scope) start else core.window scope := by
  simp only [recordActivate, enabled_of_window hw, if_true, if_pos hw]
  refine (window_setHistory core (scopeOf m) scope _).trans ?_
  split
  · rename_i heq
    rw [heq]
    rfl
  · rfl

/-- An ACT that starts where it may. -/
theorem Ready.record {m : AddressMapping} {bankId : String} {start : ℚ} (hw : 0 < c.fourActivateWindowNs)
    (h : Ready c m bankId admission start core) (tl : ResourceTimeline) :
    Kept c.fourActivateWindowNs admission (recordActivate c m start { core with timeline := tl }) := by
  intro scope
  rw [starts_recordActivate, window_recordActivate hw]
  split
  · rename_i heq
    rw [heq]
    have hkept : Calendar 4 c.fourActivateWindowNs admission (core.starts (scopeOf m)) ([] ++ core.window (scopeOf m)) := h.kept _
    exact hkept.record h.allowed h.admitted le_rfl (by simp)
  · exact h.kept scope

theorem foldlM_keeps {α β σ ε : Type} {I : σ → Prop} {f : β → α → EStateM ε σ β} (hf : ∀ b a, Keeps I (f b a)) :
    ∀ (l : List α) (b : β), Keeps I (l.foldlM f b)
  | [], b => .pure b
  | a :: l, b => by
    rw [List.foldlM_cons]
    exact (hf b a).bind fun b => foldlM_keeps hf l b

end

end HeteroSim.Dram
