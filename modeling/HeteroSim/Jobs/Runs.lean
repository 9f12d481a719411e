/-
The manager among its callers and workers: one event is one section under the
lock, or what a thread does between two sections that the others can see. A
submission stands between its two sections with the policy it asked for, a
worker between its start and its last section, a replay between its two.
Any of them may take its next step at any time.
-/
import HeteroSim.Jobs.Manager
import HeteroSim.Transitions

namespace HeteroSim.Jobs

open RunJobManager

structure System where
  manager : RunJobManager
  /-- Submissions past the first section, with the policy each selected. -/
  submitting : List (Option RetentionPolicy)
  /-- Work the pool holds and has not started. -/
  pending : List String
  /-- Jobs whose worker is between its first section and its last. -/
  running : List String
  replays : List Replay
  /-- The job ids that have been given out. -/
  issued : List String
  /-- How many flights have been made. -/
  flights : ℕ

def System.start : System := ⟨.empty, [], [], [], [], [], 0⟩

/-- What the pool does with a job: a refusal may come after the work was queued. -/
inductive PoolAnswer
  | accepted
  | refused (e : Raised) (queued : Bool)

def PoolAnswer.toExcept : PoolAnswer → Except Raised Unit
  | .accepted => .ok ()
  | .refused e _ => .error e

def PoolAnswer.queued : PoolAnswer → Bool
  | .accepted => true
  | .refused _ queued => queued

inductive Event
  | submit (retentionPolicy : Option String)
  | estimateFailed (index : ℕ) (e : Raised)
  | enqueue (index : ℕ) (estimate : Estimate) (jobId now : String) (pool : PoolAnswer)
  | get (jobId : String)
  | cancel (now jobId : String)
  | prune (jobId : Option String) (keep : Option ℤ)
  | shutdown (cancelPending cancelRunning : Bool)
  | poolShutdown (cancelFutures : Bool)
  | start (now jobId : String)
  | progress (jobId : String) (p : ExecutionProgress)
  | cancelled (now jobId : String)
  | failed (now jobId : String) (e : WorkerException)
  | completed (now jobId : String) (report : Json) (result : RunResult)
  | traceBegin (jobId batchId : String) (offset limit : ℤ)
  | traceEnd (index : ℕ) (built : Built)

/-- What the caller sees. -/
inductive Answer
  | none
  | raised (e : Raised)
  | jobId (id : String)
  | snapshot (s : Option Snapshot)
  | bool (b : Bool)
  | count (n : ℕ)
  | targets (ids : List String)
  | trace (t : Trace)
  | pages (p : Json)

def answer {α : Type} (f : α → Answer) : Except Raised α → Answer
  | .ok a => f a
  | .error e => .raised e

variable (limits : Limits)

/-- The second half of a submission: `uuid4` gives an id that is new. -/
def System.enqueue (s : System) (index : ℕ) (selected : Option RetentionPolicy) (estimate : Estimate)
    (jobId now : String) (pool : PoolAnswer) : Answer × System :=
  let s := { s with submitting := s.submitting.eraseIdx index }
  match selectPolicy selected estimate with
  | .error e => (.raised e, s)
  | .ok policy =>
    let s := { s with issued := jobId :: s.issued }
    let job := RunJob.queued jobId policy estimate.estimate now
    let sent := s.manager.submitEnqueue limits job pool.toExcept
    let handed := !s.manager.shutdown && (s.manager.ensureSubmissionCapacityLocked limits).isOk && pool.queued
    (answer .jobId sent.1,
      { s with manager := sent.2, pending := if handed then jobId :: s.pending else s.pending })

/-- A call of `trace_page` up to the end of its first section. -/
def System.traceBegin (s : System) (jobId batchId : String) (offset limit : ℤ) : Answer × System :=
  match tracePageCheck batchId offset limit with
  | .error e => (.raised e, s)
  | .ok _ =>
    let found := s.manager.traceBegin jobId batchId s.flights
    let s := { s with manager := found.2 }
    match found.1 with
    | .ok (.owner replay) => (.trace (.owner replay), { s with replays := replay :: s.replays, flights := s.flights + 1 })
    | other => (answer .trace other, s)

/-- One event; an event that cannot happen in the state has no outcome. -/
def System.step (s : System) : Event → Option (Answer × System)
  | .submit retentionPolicy => match s.manager.submitCheck limits retentionPolicy with
    | .error e => some (.raised e, s)
    | .ok selected => some (.none, { s with submitting := s.submitting ++ [selected] })
  | .estimateFailed index e => (s.submitting[index]?).map fun _ =>
      (.raised e, { s with submitting := s.submitting.eraseIdx index })
  | .enqueue index estimate jobId now pool =>
    if jobId ∈ s.issued then none else
      (s.submitting[index]?).map fun selected => s.enqueue limits index selected estimate jobId now pool
  | .get jobId => some (.snapshot (s.manager.get jobId), s)
  | .cancel now jobId =>
    some (.bool (s.manager.cancel limits now jobId).1, { s with manager := (s.manager.cancel limits now jobId).2 })
  | .prune jobId keep =>
    some (answer .count (s.manager.prune jobId keep).1, { s with manager := (s.manager.prune jobId keep).2 })
  | .shutdown cancelPending cancelRunning =>
    some (.targets (s.manager.shutdownSection cancelPending cancelRunning).1,
      { s with manager := (s.manager.shutdownSection cancelPending cancelRunning).2 })
  | .poolShutdown cancelFutures => some (.none, { s with pending := if cancelFutures then [] else s.pending })
  | .start now jobId =>
    if jobId ∈ s.pending then
      some (.none, { s with
        manager := (s.manager.workerStart now jobId).2
        pending := s.pending.erase jobId
        running := if (s.manager.workerStart now jobId).1 then jobId :: s.running else s.running })
    else none
  | .progress jobId p => some (.none, { s with manager := s.manager.updateProgress jobId p })
  | .cancelled now jobId =>
    if jobId ∈ s.running then
      some (.none, { s with
        manager := s.manager.workerCancelled limits now jobId
        running := s.running.erase jobId })
    else none
  | .failed now jobId e =>
    if jobId ∈ s.running then
      some (.none, { s with
        manager := s.manager.workerFailed limits now jobId (.ofException e)
        running := s.running.erase jobId })
    else none
  | .completed now jobId report result =>
    if jobId ∈ s.running then
      some (.none, { s with
        manager := s.manager.workerCompleted limits now jobId report result
        running := s.running.erase jobId })
    else none
  | .traceBegin jobId batchId offset limit => some (s.traceBegin jobId batchId offset limit)
  | .traceEnd index built => (s.replays[index]?).map fun replay =>
      (answer .pages (s.manager.traceEnd limits replay built).1,
        { s with manager := (s.manager.traceEnd limits replay built).2, replays := s.replays.eraseIdx index })

/-- One step, whatever the caller is told. -/
def Step (s : System) (e : Event) (s' : System) : Prop := ∃ a, s.step limits e = some (a, s')

/-- The states some interleaving reaches. -/
def Reachable (s : System) : Prop := Reached (Step limits) (· = System.start) s

end HeteroSim.Jobs
