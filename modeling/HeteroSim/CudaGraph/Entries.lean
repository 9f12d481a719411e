/-
What one transition does to the entry of its key, said once: the invariants
of a history go by these cases and open no definition of the transition.
-/
import HeteroSim.CudaGraph.Lifecycle

namespace HeteroSim.CudaGraph

variable {V : Type}

/-! ## Executable names -/

theorem zeroPad_no_colon (n : ℕ) : ∀ c ∈ (zeroPad 1 n).reverse, (c ≠ ':') = true := by
  intro c hc
  have hdigit := zeroPad_digits 1 n c (List.mem_reverse.1 hc)
  have hne : c ≠ ':' := by
    rintro rfl
    revert hdigit
    decide
  simpa using hne

/-- The number is what follows the last colon. -/
theorem numbered_tail (scope : String) (n : ℕ) :
    (CudaGraphEntry.numbered scope ":exec:" n).toList.reverse.takeWhile (· ≠ ':') = (zeroPad 1 n).reverse := by
  have hall : ∀ c ∈ (zeroPad 1 n).reverse, decide (c ≠ ':') = true := by
    intro c hc
    simpa using zeroPad_no_colon n c hc
  rw [CudaGraphEntry.numbered, String.toList_ofList, List.reverse_append, List.takeWhile_append_of_pos hall,
    List.reverse_append]
  simp

theorem numbered_injective {scope scope' : String} {m n : ℕ}
    (h : CudaGraphEntry.numbered scope ":exec:" m = CudaGraphEntry.numbered scope' ":exec:" n) : m = n := by
  have htails := congrArg (fun s => s.toList.reverse.takeWhile (· ≠ ':')) h
  simp only [numbered_tail] at htails
  exact zeroPad_injective (List.reverse_injective htails)

theorem executableId_eq_some {e : CudaGraphEntry V} {id : String} (h : e.executableId = some id) :
    ∃ scope, id = CudaGraphEntry.numbered scope ":exec:" e.executableGeneration := by
  unfold CudaGraphEntry.executableId at h
  split at h
  · cases h
  · exact ⟨_, (Option.some.inj h).symm⟩

/-! ## The cases of an invocation -/

/-- An update keeps the executable, or makes one and says so. -/
theorem updateExecutable_ok {revision : ℕ} {i : CudaGraphInvocation V} {allowUnknownUpdate fresh : Bool}
    {e : CudaGraphEntry V} {emitted : List Event} {sub : Submitted V}
    (h : updateExecutable revision i allowUnknownUpdate fresh e emitted = .ok sub) :
    ∃ later, sub.events = emitted ++ later ∧ Event.capture ∉ later ∧
      (sub.entry = e ∧ Event.instantiate ∉ later ∨
        sub.entry = { e with executableGeneration := revision + 1 } ∧ Event.instantiate ∈ later) := by
  unfold updateExecutable at h
  split at h
  · split at h
    · obtain ⟨_, -, h⟩ := bind_ok.1 h
      cases h
      exact ⟨_, rfl, by simp, .inl ⟨rfl, by simp⟩⟩
    · cases h
      exact ⟨_, rfl, by simp, .inr ⟨rfl, by simp⟩⟩
    · cases h
      exact ⟨_, rfl, by simp, .inl ⟨rfl, by simp⟩⟩
  · obtain ⟨_, -, h⟩ := bind_ok.1 h
    cases h
    exact ⟨_, rfl, by simp, .inl ⟨rfl, by simp⟩⟩

/-- What a submission leaves of the entry it was given. -/
structure Submission (revision : ℕ) (capture : Bool) (e : CudaGraphEntry V) (sub : Submitted V) : Prop where
  entry : sub.entry = { e with
    graphExists := e.graphExists || capture
    captureGeneration := sub.entry.captureGeneration
    executableGeneration := sub.entry.executableGeneration }
  captured : Event.capture ∈ sub.events ↔ capture = true
  instantiated : Event.instantiate ∈ sub.events → sub.entry.executableGeneration = revision + 1
  kept : Event.instantiate ∉ sub.events →
    e.executableGeneration ≠ 0 ∧ sub.entry.executableGeneration = e.executableGeneration

theorem submitGraph_ok {revision : ℕ} {i : CudaGraphInvocation V} {allowUnknownUpdate capture : Bool}
    {e : CudaGraphEntry V} {sub : Submitted V} (h : submitGraph revision i allowUnknownUpdate capture e = .ok sub) :
    Submission revision capture e sub := by
  by_cases hfresh : e.executableGeneration = 0
  · cases capture with
    | false =>
      simp only [submitGraph, hfresh] at h
      cases h
      exact ⟨by simp, by simp, by simp, by simp⟩
    | true =>
      simp only [submitGraph, hfresh, decide_true, if_true] at h
      obtain ⟨later, hevents, hlater, ⟨hentry, -⟩ | ⟨hentry, -⟩⟩ := updateExecutable_ok h
      · refine ⟨?_, ?_, ?_, ?_⟩ <;> simp [hevents, hentry]
      · refine ⟨?_, ?_, ?_, ?_⟩ <;> simp [hevents, hentry]
  · cases capture with
    | false =>
      simp only [submitGraph, hfresh] at h
      cases h
      exact ⟨by simp, by simp, by simp, by simp [hfresh]⟩
    | true =>
      simp only [submitGraph, hfresh, decide_false, if_true] at h
      obtain ⟨later, hevents, hlater, ⟨hentry, hnone⟩ | ⟨hentry, hsome⟩⟩ := updateExecutable_ok h
      · have hcut : Event.instantiate ∉ (if e.graphExists = true then [Event.destroyGraph] else []) := by
          split <;> simp
        refine ⟨?_, ?_, ?_, ?_⟩ <;> simp [hevents, hentry, hnone, hcut, hfresh]
      · refine ⟨?_, ?_, ?_, ?_⟩ <;> simp [hevents, hentry, hsome]

/-- What a launch leaves of an entry that has seen the invocation. -/
structure Launched (revision : ℕ) (o : CudaGraphEntry V) (st : Invoked V) : Prop where
  entry : st.entry = { o with
    warmupComplete := true
    graphExists := st.entry.graphExists
    captureGeneration := st.entry.captureGeneration
    executableGeneration := st.entry.executableGeneration }
  launched : st.useGraph = true
  captured : Event.capture ∈ st.events → st.entry.graphExists = true
  replayed : Event.capture ∉ st.events → o.warmupComplete = true ∧ st.entry.graphExists = o.graphExists
  instantiated : Event.instantiate ∈ st.events → st.entry.executableGeneration = revision + 1
  kept : Event.instantiate ∉ st.events →
    o.executableGeneration ≠ 0 ∧ st.entry.executableGeneration = o.executableGeneration

/-- Stable properties warm the entry up, and only a warm one goes without a capture. -/
theorem warm_stable (o : CudaGraphEntry V) : ∃ capture reason,
    o.warm false = ⟨{ o with warmupComplete := true }, true, capture, reason⟩ ∧
      (capture = false → o.warmupComplete = true) := by
  cases hwarm : o.warmupComplete with
  | false => exact ⟨true, .warmupStableCapture, by simp [CudaGraphEntry.warm, hwarm], by simp⟩
  | true =>
    have hself : { o with warmupComplete := true } = o := by rw [← hwarm]
    rw [hself]
    by_cases hgeneration : o.executableGeneration = 0
    · exact ⟨true, .stableCapture, by simp [CudaGraphEntry.warm, hwarm, hgeneration], fun _ => rfl⟩
    · exact ⟨false, .stableReplay, by simp [CudaGraphEntry.warm, hwarm, hgeneration], fun _ => rfl⟩

theorem Submission.launched {revision : ℕ} {capture : Bool} {o : CudaGraphEntry V} {sub : Submitted V}
    (h : Submission revision capture { o with warmupComplete := true } sub)
    (hwarm : capture = false → o.warmupComplete = true) (reason : Reason) (changed : Option Bool) :
    Launched revision o ⟨sub.entry, true, reason, changed, sub.events, sub.updatePending⟩ := by
  have hgraph : sub.entry.graphExists = (o.graphExists || capture) := by rw [h.entry]
  refine ⟨?_, rfl, fun hcapture => ?_, fun hcapture => ?_, h.instantiated, h.kept⟩
  · change sub.entry = _
    rw [hgraph]
    exact h.entry
  · rw [hgraph, h.captured.1 hcapture, Bool.or_true]
  · have hnot : capture = false := by
      rw [← Bool.not_eq_true]
      exact fun hc => hcapture (h.captured.2 hc)
    rw [hgraph, hnot, Bool.or_false]
    exact ⟨hwarm hnot, rfl⟩

variable [DecidableEq V]

/-- What an entry sees of an invocation whose uid, if it is the entry's, vouches for equal properties. -/
theorem observe_ok {e o : CudaGraphEntry V} {i : CudaGraphInvocation V} {changed : Bool}
    (huid : i.graphUid ≠ 0 → i.graphUid = e.graphUid → i.nodeProperties = e.nodeProperties)
    (h : e.observe i = .ok (o, changed)) :
    o = { e with graphUid := i.graphUid, nodeProperties := i.nodeProperties } ∧
      (changed = true ↔ i.nodeProperties ≠ e.nodeProperties) := by
  unfold CudaGraphEntry.observe at h
  split at h
  · next hsame =>
    obtain ⟨_, -, h⟩ := bind_ok.1 h
    cases h
    have hequal := huid hsame.1 hsame.2
    rw [hequal, hsame.2]
    exact ⟨rfl, by simp⟩
  · cases h
    exact ⟨rfl, by simp⟩

/-- The cases of an invocation: it does not run, its properties changed, or it launches the graph. -/
theorem invoke_ok {e : CudaGraphEntry V} {revision : ℕ} {i : CudaGraphInvocation V} {allowUnknownUpdate : Bool}
    {st : Invoked V} (huid : i.graphUid ≠ 0 → i.graphUid = e.graphUid → i.nodeProperties = e.nodeProperties)
    (h : e.invoke revision i allowUnknownUpdate = .ok st) :
    i.runs = false ∧ st.entry = e ∧ st.useGraph = false ∧ st.events = [.ordinarySubmit] ∨
    i.runs = true ∧ i.nodeProperties ≠ e.nodeProperties ∧ st.useGraph = false ∧ st.events = [.ordinarySubmit] ∧
      st.entry = { e with graphUid := i.graphUid, nodeProperties := i.nodeProperties, warmupComplete := false } ∨
    i.runs = true ∧ i.nodeProperties = e.nodeProperties ∧
      Launched revision { e with graphUid := i.graphUid, nodeProperties := i.nodeProperties } st := by
  unfold CudaGraphEntry.invoke at h
  cases hruns : i.runs with
  | false =>
    rw [hruns] at h
    cases h
    exact .inl ⟨rfl, rfl, rfl, rfl⟩
  | true =>
    rw [hruns] at h
    obtain ⟨observed, hobserve, h⟩ := bind_ok.1 h
    obtain ⟨hentry, hchanged⟩ := observe_ok huid hobserve
    rw [← hentry]
    cases hcase : observed.2 with
    | true =>
      have hproperties := hchanged.1 hcase
      refine .inr (.inl ⟨rfl, hproperties, ?_⟩)
      cases hwarm : observed.1.warmupComplete <;>
        simp only [CudaGraphEntry.warm, hcase, hwarm, Bool.not_true, Bool.not_false, Bool.false_eq_true, if_true,
          if_false] at h <;> cases h <;> simp [hentry, ← hwarm]
    | false =>
      have hproperties : i.nodeProperties = e.nodeProperties := by
        by_contra hne
        rw [hchanged.2 hne] at hcase
        cases hcase
      obtain ⟨capture, reason, hwarm, hcapture⟩ := warm_stable observed.1
      rw [hcase, hwarm] at h
      obtain ⟨sub, hsubmit, h⟩ := bind_ok.1 h
      cases h
      exact .inr (.inr ⟨rfl, hproperties, (submitGraph_ok hsubmit).launched hcapture _ _⟩)

end HeteroSim.CudaGraph
