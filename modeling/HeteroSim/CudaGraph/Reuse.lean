/-
The runtime over every run of calls: a commit takes only what was prepared
from the state it finds, the state always says what the history tells, and
each committed transition launched, captured, evicted and named executables
as the history before it asks.
-/
import HeteroSim.CudaGraph.Replay

namespace HeteroSim.CudaGraph

variable {V : Type} [DecidableEq V]

/-! ## Identities -/

/-- A state object that the runtime or a transition refers to. -/
def World.Knows (w : World V) (s : CudaGraphState V) : Prop :=
  s = w.runtime.state ∨ ∃ p ∈ w.prepared, p.transition.previousState = some s ∨ p.transition.state = s

/-- Objects are what their identities say, and every transition tells where it came from. -/
structure Identified (w : World V) : Prop where
  apart : ∀ s s', w.Knows s → w.Knows s' → s.object = s'.object → s = s'
  below : ∀ s, w.Knows s → s.object < w.objects
  origin : ∀ p ∈ w.prepared, ∃ s, p.transition.previousState = some s ∧
    prepareCudaGraph s p.invocation p.hostTimeUs p.allowUnknownUpdate p.object = .ok p.transition
  committed : ∀ c ∈ w.history, c ∈ w.prepared

theorem Identified.start : Identified (World.start : World V) where
  apart := by
    intro s s' hs hs' _
    simp only [World.Knows, World.start, List.not_mem_nil, false_and, exists_false, or_false] at hs hs'
    rw [hs, hs']
  below := by
    intro s hs
    simp only [World.Knows, World.start, List.not_mem_nil, false_and, exists_false, or_false] at hs
    rw [hs]
    exact Nat.zero_lt_one
  origin := by simp [World.start]
  committed := by simp [World.start]

/-- A fresh object beside the known ones. -/
theorem Identified.extend {w w' : World V} (h : Identified w) (fresh : CudaGraphState V) (hfresh : fresh.object = w.objects)
    (hobjects : w'.objects = w.objects + 1) (hknows : ∀ s, w'.Knows s → s = fresh ∨ w.Knows s) :
    (∀ s s', w'.Knows s → w'.Knows s' → s.object = s'.object → s = s') ∧ ∀ s, w'.Knows s → s.object < w'.objects := by
  constructor
  · intro s s' hs hs' hsame
    rcases hknows s hs with rfl | hs <;> rcases hknows s' hs' with rfl | hs'
    · rfl
    · have := h.below s' hs'
      omega
    · have := h.below s hs
      omega
    · exact h.apart s s' hs hs' hsame
  · intro s hs
    rw [hobjects]
    rcases hknows s hs with rfl | hs
    · omega
    · have := h.below s hs
      omega

theorem World.prepare_ok {w w' : World V} {i : CudaGraphInvocation V} {hostTimeUs : ℕ} {allowUnknownUpdate : Bool}
    (h : w.prepare i hostTimeUs allowUnknownUpdate = .ok w') : ∃ transition,
      prepareCudaGraph w.runtime.state i hostTimeUs allowUnknownUpdate w.objects = .ok transition ∧
      w' = { w with
        prepared := w.prepared ++ [⟨i, hostTimeUs, allowUnknownUpdate, w.objects, transition⟩]
        objects := w.objects + 1 } := by
  obtain ⟨transition, htransition, h⟩ := bind_ok.1 h
  cases h
  exact ⟨transition, htransition, rfl⟩

omit [DecidableEq V] in
theorem World.commit_ok {w w' : World V} {p : Prepared V} (h : w.commit p = .ok w') :
    p.transition.previousState.map CudaGraphState.object = some w.runtime.state.object ∧
      w' = { w with runtime := ⟨p.transition.state⟩, history := p :: w.history } := by
  obtain ⟨runtime, hruntime, h⟩ := bind_ok.1 h
  unfold CudaGraphRuntime.commit at hruntime
  split at hruntime
  · cases hruntime
  · next hsame =>
    rw [not_or, not_not, not_not] at hsame
    cases hruntime
    cases h
    exact ⟨hsame.2, rfl⟩

/-- **A commit takes only what was prepared from the state it finds.** -/
theorem Identified.current {w w' : World V} (h : Identified w) {p : Prepared V} (hp : p ∈ w.prepared)
    (hcommit : w.commit p = .ok w') : p.transition.previousState = some w.runtime.state ∧
      prepareCudaGraph w.runtime.state p.invocation p.hostTimeUs p.allowUnknownUpdate p.object = .ok p.transition := by
  obtain ⟨s, hprevious, hprep⟩ := h.origin p hp
  have hobject := (World.commit_ok hcommit).1
  rw [hprevious, Option.map_some, Option.some.injEq] at hobject
  have hsame : s = w.runtime.state := h.apart s _ (.inr ⟨p, hp, .inl hprevious⟩) (.inl rfl) hobject
  rw [← hsame]
  exact ⟨hprevious, hprep⟩

theorem Identified.step {w w' : World V} {c : Call V} (h : Identified w) (hstep : World.Step w c w') : Identified w' := by
  cases hstep with
  | @prepare _ i hostTimeUs allowUnknownUpdate hprep =>
    obtain ⟨transition, htransition, rfl⟩ := World.prepare_ok hprep
    obtain ⟨-, st, -, hmade⟩ := prepareCudaGraph_ok htransition
    have hknows : ∀ s, World.Knows { w with
        prepared := w.prepared ++ [⟨i, hostTimeUs, allowUnknownUpdate, w.objects, transition⟩]
        objects := w.objects + 1 } s → s = transition.state ∨ w.Knows s := by
      rintro s (hs | ⟨p, hp, hs⟩)
      · exact .inr (.inl hs)
      · rcases List.mem_append.1 hp with hp | hp
        · exact .inr (.inr ⟨p, hp, hs⟩)
        · rw [List.mem_singleton] at hp
          subst hp
          rcases hs with hs | hs
          · rw [hmade] at hs
            exact .inr (.inl (Option.some.inj hs).symm)
          · exact .inl hs.symm
    obtain ⟨hapart, hbelow⟩ := h.extend transition.state (by rw [hmade]; rfl) rfl hknows
    refine ⟨hapart, hbelow, fun p hp => ?_, fun c hc => List.mem_append_left _ (h.committed c hc)⟩
    rcases List.mem_append.1 hp with hp | hp
    · exact h.origin p hp
    · rw [List.mem_singleton] at hp
      subst hp
      exact ⟨w.runtime.state, by rw [hmade]; rfl, htransition⟩
  | @commit _ index p hindex hcommit =>
    have hp := List.mem_of_getElem? hindex
    obtain ⟨-, rfl⟩ := World.commit_ok hcommit
    have hknows : ∀ s, World.Knows { w with runtime := ⟨p.transition.state⟩, history := p :: w.history } s → w.Knows s := by
      rintro s (hs | hs)
      · exact .inr ⟨p, hp, .inr hs.symm⟩
      · exact .inr hs
    refine ⟨fun s s' hs hs' => h.apart s s' (hknows s hs) (hknows s' hs'), fun s hs => h.below s (hknows s hs), h.origin,
      fun c hc => ?_⟩
    rcases List.mem_cons.1 hc with rfl | hc
    · exact hp
    · exact h.committed c hc
  | failed =>
    have hknows : ∀ s, World.Knows { w with runtime := w.runtime.failed w.objects, objects := w.objects + 1 } s →
        s = (w.runtime.failed w.objects).state ∨ w.Knows s := by
      rintro s (hs | hs)
      · exact .inl hs
      · exact .inr (.inr hs)
    obtain ⟨hapart, hbelow⟩ := h.extend (w.runtime.failed w.objects).state rfl rfl hknows
    exact ⟨hapart, hbelow, h.origin, h.committed⟩

/-! ## What runs keep -/

/-- The runtime says what its history tells, while it knows; and the history kept its promises. -/
structure Truthful (w : World V) : Prop where
  identified : Identified w
  unknown : w.runtime.state.known = false → w.runtime.state.entries = []
  explained : UidsAgree w.history → w.runtime.state.known = true → Explained w.history w.runtime.state
  commits : UidsAgree w.history → ∀ later c earlier, w.history = later ++ c :: earlier → Commits c earlier

omit [DecidableEq V] in
theorem UidsAgree.tail {c : Prepared V} {earlier : List (Prepared V)} (h : UidsAgree (c :: earlier)) : UidsAgree earlier :=
  fun d hd d' hd' => h d (List.mem_cons_of_mem _ hd) d' (List.mem_cons_of_mem _ hd')

theorem Truthful.start : Truthful (World.start : World V) where
  identified := .start
  unknown := by intro h; cases h
  explained := fun _ _ => .cold 0
  commits := by
    intro _ later c earlier h
    simp [World.start] at h

theorem Truthful.step {w w' : World V} {c : Call V} (h : Truthful w) (hstep : World.Step w c w') : Truthful w' := by
  have hidentified := h.identified.step hstep
  cases hstep with
  | prepare hprep =>
    obtain ⟨transition, -, rfl⟩ := World.prepare_ok hprep
    exact ⟨hidentified, h.unknown, h.explained, h.commits⟩
  | @commit _ index p hindex hcommit =>
    have hp := List.mem_of_getElem? hindex
    have hprep := (h.identified.current hp hcommit).2
    obtain ⟨hknown, st, -, hmade⟩ := prepareCudaGraph_ok hprep
    obtain ⟨-, rfl⟩ := World.commit_ok hcommit
    refine ⟨hidentified, fun hunknown => ?_, fun huids _ => ?_, fun huids later c earlier hsplit => ?_⟩
    · change p.transition.state.known = false at hunknown
      rw [hmade] at hunknown
      cases hunknown
    · have hs := h.explained huids.tail hknown
      obtain ⟨e, l, st, hsteps⟩ := hs.steps hprep
      exact hsteps.explained hs huids
    · cases later with
      | nil =>
        obtain ⟨rfl, rfl⟩ := List.cons.inj hsplit
        have hs := h.explained huids.tail hknown
        obtain ⟨e, l, st, hsteps⟩ := hs.steps hprep
        exact hsteps.commits hs huids
      | cons _ later => exact h.commits huids.tail later c earlier (List.cons.inj hsplit).2
  | failed => exact ⟨hidentified, fun _ => rfl, fun _ hknown => (by cases hknown), h.commits⟩

theorem World.Reachable.truthful {w : World V} (h : w.Reachable) : Truthful w := by
  refine Reached.keeps h ?_ fun w c w' hw hstep => hw.step hstep
  intro w hw
  rw [hw]
  exact .start

/-- **Graphs are captured and replayed as the calls ask**: in every run, whatever was prepared, dropped
or committed in whatever order, a commit takes only what was prepared from the current state; each
committed transition keeps its promises; and the state has one entry for each living key, with a graph
and an executable once it is warm. -/
theorem graphs_reused {w : World V} (h : w.Reachable) (huids : UidsAgree w.history) :
    (∀ p ∈ w.prepared, ∀ w', w.commit p = .ok w' → p.transition.previousState = some w.runtime.state ∧
      prepareCudaGraph w.runtime.state p.invocation p.hostTimeUs p.allowUnknownUpdate p.object = .ok p.transition) ∧
    (∀ later c earlier, w.history = later ++ c :: earlier → Commits c earlier) ∧
    (w.runtime.state.entries.map CudaGraphEntry.key).Nodup ∧
    (∀ e ∈ w.runtime.state.entries, e.warmupComplete = true → e.graphExists = true ∧ e.executableId.isSome = true) ∧
    (w.runtime.state.known = true → ∀ key,
      key ∈ w.runtime.state.entries.map CudaGraphEntry.key ↔ (life key w.history).isSome = true) := by
  have ht := h.truthful
  refine ⟨fun p hp w' => ht.identified.current hp, ht.commits huids, ?_⟩
  cases hknown : w.runtime.state.known with
  | false =>
    rw [ht.unknown hknown]
    exact ⟨List.nodup_nil, by simp, by simp⟩
  | true =>
    have hs := ht.explained huids hknown
    refine ⟨hs.entries_nodup, fun e he hwarm => ?_, fun _ => hs.present_iff⟩
    obtain ⟨l, -, htells⟩ := hs.told he
    obtain ⟨hgraph, hgeneration, -⟩ := htells.warm hwarm
    exact ⟨hgraph, by simp [CudaGraphEntry.executableId, hgeneration]⟩

/-! ## Three invocations of one graph -/

theorem gpu_ne : "gpu" ≠ "" := by decide

theorem graph_ne : "graph" ≠ "" := by decide

theorem supported_ne : "supported" ≠ "" := by decide

/-- An invocation of one node with the property `node`. -/
def oneNode (node : ℕ) : CudaGraphInvocation ℕ :=
  ⟨"gpu", "graph", 0, [node], true, "supported", true, none, gpu_ne, graph_ne, supported_ne, List.cons_ne_nil _ _⟩

/-- Prepare, and commit what was prepared last. -/
def World.run (w : World ℕ) (i : CudaGraphInvocation ℕ) (hostTimeUs : ℕ) : Except String (World ℕ) := do
  let prepared ← w.prepare i hostTimeUs false
  match prepared.prepared.getLast? with
  | none => .error "nothing prepared"
  | some p => prepared.commit p

theorem World.Reachable.run {w w' : World ℕ} {i : CudaGraphInvocation ℕ} {hostTimeUs : ℕ} (h : w.Reachable)
    (hrun : w.run i hostTimeUs = .ok w') : w'.Reachable := by
  obtain ⟨prepared, hprep, hrun⟩ := bind_ok.1 hrun
  split at hrun
  · cases hrun
  · next p hlast =>
    rw [List.getLast?_eq_getElem?] at hlast
    exact Reached.run h (.cons (.prepare hprep) (.single (.commit hlast hrun)))

/-- The same graph three times: warmed up, captured, replayed. -/
def threeRuns : Except String (World ℕ) := do
  let first ← World.start.run (oneNode 7) 0
  let second ← first.run (oneNode 7) 1
  second.run (oneNode 7) 2

theorem graphs_reused_threeRuns : ∃ w : World ℕ, w.Reachable ∧ UidsAgree w.history ∧
    w.history.map (fun c => c.transition.events) =
      [[.replaySubmit], [.capture, .instantiate, .update, .firstLaunchSubmit], [.ordinarySubmit]] ∧
    ∀ later c earlier, w.history = later ++ c :: earlier → Commits c earlier := by
  have hevents : threeRuns.toOption.map (fun w => w.history.map fun c => (c.transition.events, c.invocation.graphUid)) =
      some [([.replaySubmit], 0), ([.capture, .instantiate, .update, .firstLaunchSubmit], 0), ([.ordinarySubmit], 0)] := by
    decide +kernel
  cases hruns : threeRuns with
  | error e =>
    rw [hruns] at hevents
    cases hevents
  | ok w =>
    rw [hruns] at hevents
    obtain ⟨first, hfirst, hruns₁⟩ := bind_ok.1 hruns
    obtain ⟨second, hsecond, hruns₂⟩ := bind_ok.1 hruns₁
    have hreachable : w.Reachable := ((World.Reachable.run (.of_init rfl) hfirst).run hsecond).run hruns₂
    have hlog : w.history.map (fun c => (c.transition.events, c.invocation.graphUid)) = _ := Option.some.inj hevents
    have huids : UidsAgree w.history := by
      intro c hc d _ _ huid
      have hmem := List.mem_map_of_mem (f := fun c : Prepared ℕ => (c.transition.events, c.invocation.graphUid)) hc
      rw [hlog] at hmem
      simp only [List.mem_cons, Prod.mk.injEq, List.not_mem_nil, or_false] at hmem
      rcases hmem with ⟨-, hzero⟩ | ⟨-, hzero⟩ | ⟨-, hzero⟩ <;> exact absurd hzero huid
    refine ⟨w, hreachable, huids, ?_, (graphs_reused hreachable huids).2.1⟩
    have hfirsts := congrArg (List.map Prod.fst) hlog
    rwa [List.map_map] at hfirsts

end HeteroSim.CudaGraph
