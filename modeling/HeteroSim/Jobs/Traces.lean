/-
Calls of `trace_page` from their start to their return: one replays for all
that ask for the same batch meanwhile, the others wait for its event. A flight
is its number; `outcomes` holds what its event was set with.
-/
import HeteroSim.Jobs.Interleavings

namespace HeteroSim.Jobs

open RunJobManager

/-- The arguments of a call. -/
structure Caller where
  jobId : String
  batchId : String
  offset : ℤ
  limit : ℤ
deriving DecidableEq

structure Tracing where
  system : System
  /-- The calls that replay, in the order of the system's replays. -/
  owners : List Caller
  /-- The calls that wait, each for a flight. -/
  waiters : List (ℕ × Caller)
  outcomes : Dict ℕ (Except Raised Json)

def Tracing.start : Tracing := ⟨.start, [], [], .empty⟩

inductive TraceEvent
  /-- A section that is none of `trace_page`. -/
  | other (e : Event)
  | begin (caller : Caller)
  | finish (index : ℕ)
  | wake (index : ℕ)

def Event.ofTrace : Event → Bool
  | .traceBegin _ _ _ _ | .traceEnd _ _ => true
  | _ => false

/-- A call that returns, with what it returns or raises. -/
structure Return where
  caller : Caller
  outcome : Except Raised Json

variable (limits : Limits) (replayOnlineBatchTrace : ℕ → String → Built) (pageOnlineBatchTrace : Json → ℤ → ℤ → Json)

/-- The end of a call: its page of the replay. -/
def Caller.returns (caller : Caller) (outcome : Except Raised Json) : Return :=
  ⟨caller, outcome.map fun replay => pageOnlineBatchTrace replay caller.offset caller.limit⟩

/-- The call up to the end of its first section. -/
def Tracing.begin (t : Tracing) (caller : Caller) : Option Return × Tracing :=
  let found := t.system.traceBegin caller.jobId caller.batchId caller.offset caller.limit
  let t := { t with system := found.2 }
  match found.1 with
  | .trace (.hit replay) => (some (caller.returns pageOnlineBatchTrace (.ok replay)), t)
  | .trace (.waits flight) => (none, { t with waiters := t.waiters ++ [(flight, caller)] })
  | .trace (.owner _) => (none, { t with owners := caller :: t.owners })
  | .raised e => (some (caller.returns pageOnlineBatchTrace (.error e)), t)
  | _ => (none, t)

/-- The replay of a flight ends: its event is set, and its owner returns. -/
def Tracing.finish (t : Tracing) (index : ℕ) (r : Replay) (caller : Caller) : Return × Tracing :=
  let ended := t.system.manager.traceEnd limits r (replayOnlineBatchTrace r.result r.key.2)
  (caller.returns pageOnlineBatchTrace ended.1,
    { t with
      system := { t.system with manager := ended.2, replays := t.system.replays.eraseIdx index }
      owners := t.owners.eraseIdx index
      outcomes := t.outcomes.insert r.flight ended.1 })

/-- One event; one that cannot happen in the state has no outcome. -/
def Tracing.step (t : Tracing) : TraceEvent → Option (Option Return × Tracing)
  | .other e =>
    if e.ofTrace then none else (t.system.step limits e).map fun next => (none, { t with system := next.2 })
  | .begin caller => some (t.begin pageOnlineBatchTrace caller)
  | .finish index => (t.system.replays[index]?).bind fun r => (t.owners[index]?).map fun caller =>
      (some (t.finish limits replayOnlineBatchTrace pageOnlineBatchTrace index r caller).1,
        (t.finish limits replayOnlineBatchTrace pageOnlineBatchTrace index r caller).2)
  | .wake index => (t.waiters[index]?).bind fun w => (t.outcomes.get? w.1).map fun outcome =>
      (some (w.2.returns pageOnlineBatchTrace outcome), { t with waiters := t.waiters.eraseIdx index })

/-- One step, whatever returns. -/
def TraceStep (t : Tracing) (e : TraceEvent) (t' : Tracing) : Prop :=
  ∃ reply, t.step limits replayOnlineBatchTrace pageOnlineBatchTrace e = some (reply, t')

/-- The states some interleaving reaches. -/
def Traced (t : Tracing) : Prop :=
  Reached (TraceStep limits replayOnlineBatchTrace pageOnlineBatchTrace) (· = Tracing.start) t

/-! ## Sections that are not of traces -/

/-- No flight is made or ended, and the cache only loses entries. -/
structure Quiet (m m' : RunJobManager) : Prop where
  inflight : m'.traceInflight = m.traceInflight
  cache : ∀ key pages, m'.traceCache.get? key = some pages → m.traceCache.get? key = some pages

namespace Quiet

variable {limits : Limits} {m m' m'' : RunJobManager} {job : RunJob}

theorem refl (m : RunJobManager) : Quiet m m := ⟨rfl, fun _ _ h => h⟩

theorem trans (h : Quiet m m') (h' : Quiet m' m'') : Quiet m m'' :=
  ⟨h'.inflight.trans h.inflight, fun key pages hp => h.cache key pages (h'.cache key pages hp)⟩

theorem store (m : RunJobManager) (job : RunJob) : Quiet m (m.store job) := ⟨rfl, fun _ _ h => h⟩

theorem recordTerminalLocked (m : RunJobManager) (job : RunJob) : Quiet m (m.recordTerminalLocked job) := by
  unfold RunJobManager.recordTerminalLocked
  split
  · exact store m job
  · exact ⟨rfl, fun _ _ h => h⟩

theorem removeJobLocked (m : RunJobManager) (jobId : String) : Quiet m (m.removeJobLocked jobId) := by
  refine ⟨rfl, fun key pages h => ?_⟩
  rw [RunJobManager.removeJobLocked, Dict.get?_eq_some, Dict.mem_items_eraseWhere] at h
  exact Dict.get?_eq_some.2 h.1

theorem removeJobs (jobs : List RunJob) (m : RunJobManager) :
    Quiet m (jobs.foldl (fun m job => m.removeJobLocked job.jobId) m) := by
  induction jobs generalizing m with
  | nil => exact refl m
  | cons job jobs ih => exact (removeJobLocked m job.jobId).trans (ih _)

theorem pruneTerminalLocked (m : RunJobManager) (keep : ℕ) : Quiet m (m.pruneTerminalLocked keep).2 := removeJobs _ m

theorem markCancelledLocked (m : RunJobManager) (now : String) (job : RunJob) : Quiet m (m.markCancelledLocked now job) :=
  recordTerminalLocked m _

theorem submitEnqueue (limits : Limits) (m : RunJobManager) (job : RunJob) (pool : Except Raised Unit) :
    Quiet m (m.submitEnqueue limits job pool).2 := by
  unfold RunJobManager.submitEnqueue
  split
  · exact refl m
  · split
    · exact refl m
    · exact ⟨rfl, fun _ _ h => h⟩
    · exact store m job

theorem cancel (limits : Limits) (m : RunJobManager) (now jobId : String) : Quiet m (m.cancel limits now jobId).2 := by
  unfold RunJobManager.cancel
  split
  · exact refl m
  · split
    · exact refl m
    · dsimp only
      split
      · exact (markCancelledLocked m now _).trans (pruneTerminalLocked _ _)
      · exact store m _

theorem prune (m : RunJobManager) (jobId : Option String) (keep : Option ℤ) : Quiet m (m.prune jobId keep).2 := by
  unfold RunJobManager.prune
  split
  · exact refl m
  · split
    · exact refl m
    · split
      · exact removeJobLocked m _
      · exact refl m
  · exact pruneTerminalLocked m 0
  · split
    · exact refl m
    · exact pruneTerminalLocked m _

theorem workerStart (m : RunJobManager) (now jobId : String) : Quiet m (m.workerStart now jobId).2 := by
  unfold RunJobManager.workerStart
  split
  · exact refl m
  · split
    · exact refl m
    · exact store m _

theorem updateProgress (m : RunJobManager) (jobId : String) (p : ExecutionProgress) : Quiet m (m.updateProgress jobId p) := by
  unfold RunJobManager.updateProgress
  split
  · exact refl m
  · split
    · exact refl m
    · dsimp only
      split_ifs
      · exact store m _
      · exact store m _
      · exact store m _

theorem workerCancelled (limits : Limits) (m : RunJobManager) (now jobId : String) :
    Quiet m (m.workerCancelled limits now jobId) := by
  unfold RunJobManager.workerCancelled
  split
  · exact refl m
  · split
    · exact refl m
    · exact (markCancelledLocked m now _).trans (pruneTerminalLocked _ _)

theorem workerFailed (limits : Limits) (m : RunJobManager) (now jobId : String) (error : JobError) :
    Quiet m (m.workerFailed limits now jobId error) := by
  unfold RunJobManager.workerFailed
  split
  · exact refl m
  · split
    · exact refl m
    · refine Quiet.trans ?_ (pruneTerminalLocked _ _)
      split
      · exact markCancelledLocked m now _
      · exact recordTerminalLocked m _

theorem workerCompleted (limits : Limits) (m : RunJobManager) (now jobId : String) (report : Json) (result : RunResult) :
    Quiet m (m.workerCompleted limits now jobId report result) := by
  unfold RunJobManager.workerCompleted
  split
  · exact refl m
  · split
    · exact refl m
    · refine Quiet.trans ?_ (pruneTerminalLocked _ _)
      split
      · exact markCancelledLocked m now _
      · exact recordTerminalLocked m _

end Quiet

/-- What other sections leave of the traces. -/
theorem step_quiet {limits : Limits} {s s' : System} {e : Event} {a : Answer} (ht : e.ofTrace = false)
    (h : s.step limits e = some (a, s')) :
    Quiet s.manager s'.manager ∧ s'.replays = s.replays ∧ s'.flights = s.flights := by
  cases e with
  | submit retentionPolicy =>
    simp only [System.step] at h
    split at h
    · cases h
      exact ⟨.refl _, rfl, rfl⟩
    · cases h
      exact ⟨.refl _, rfl, rfl⟩
  | estimateFailed index e =>
    obtain ⟨_, _, h⟩ := Option.map_eq_some_iff.1 h
    cases h
    exact ⟨.refl _, rfl, rfl⟩
  | enqueue index estimate jobId now pool =>
    simp only [System.step] at h
    split at h
    · cases h
    · obtain ⟨selected, _, h⟩ := Option.map_eq_some_iff.1 h
      unfold System.enqueue at h
      split at h
      · cases h
        exact ⟨.refl _, rfl, rfl⟩
      · cases h
        exact ⟨.submitEnqueue _ _ _ _, rfl, rfl⟩
  | get jobId =>
    cases h
    exact ⟨.refl _, rfl, rfl⟩
  | cancel now jobId =>
    cases h
    exact ⟨.cancel _ _ _ _, rfl, rfl⟩
  | prune jobId keep =>
    cases h
    exact ⟨.prune _ _ _, rfl, rfl⟩
  | shutdown cancelPending cancelRunning =>
    cases h
    exact ⟨⟨rfl, fun _ _ hp => by cases hp⟩, rfl, rfl⟩
  | poolShutdown cancelFutures =>
    cases h
    exact ⟨.refl _, rfl, rfl⟩
  | start now jobId =>
    simp only [System.step] at h
    split at h
    · cases h
      exact ⟨.workerStart _ _ _, rfl, rfl⟩
    · cases h
  | progress jobId p =>
    cases h
    exact ⟨.updateProgress _ _ _, rfl, rfl⟩
  | cancelled now jobId =>
    simp only [System.step] at h
    split at h
    · cases h
      exact ⟨.workerCancelled _ _ _ _, rfl, rfl⟩
    · cases h
  | failed now jobId e =>
    simp only [System.step] at h
    split at h
    · cases h
      exact ⟨.workerFailed _ _ _ _ _, rfl, rfl⟩
    · cases h
  | completed now jobId report result =>
    simp only [System.step] at h
    split at h
    · cases h
      exact ⟨.workerCompleted _ _ _ _ _ _, rfl, rfl⟩
    · cases h
  | traceBegin jobId batchId offset limit => cases ht
  | traceEnd index built => cases ht

end HeteroSim.Jobs
