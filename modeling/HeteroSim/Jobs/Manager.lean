/-
Background simulation jobs: the records of the manager and the sections it
runs under its lock. A section takes the manager's state and gives the next;
what happens between two sections (the estimate, the simulation, the replay
of a trace) enters them as arguments. Results are compared by identity where
the code compares them, so they carry one.
-/
import HeteroSim.Dict

namespace HeteroSim.Jobs

inductive Status
  | queued
  | running
  | completed
  | failed
  | cancelled
deriving DecidableEq

def Status.text : Status → String
  | .queued => "queued"
  | .running => "running"
  | .completed => "completed"
  | .failed => "failed"
  | .cancelled => "cancelled"

/-- `TERMINAL_STATUSES`. -/
def Status.terminal : Status → Bool
  | .queued | .running => false
  | .completed | .failed | .cancelled => true

inductive RetentionPolicy
  | exact
  | streaming
  | aggregate
deriving DecidableEq

def RetentionPolicy.ofText? : String → Option RetentionPolicy
  | "exact" => some .exact
  | "streaming" => some .streaming
  | "aggregate" => some .aggregate
  | _ => none

/-- A value made safe for JSON; a container is its text. -/
inductive Json
  | null
  | bool (b : Bool)
  | number (q : ℚ)
  | text (s : String)
  | container (s : String)
deriving DecidableEq

/-! ## Progress -/

structure Progress where
  stage : String
  completed : ℕ
  total : Option ℕ
  ratio : Option ℚ
  unit : String
  unitLabelZh : String
  scope : String
  message : String
  metadata : Dict String Json
deriving DecidableEq

/-- What a run reports of its progress. -/
structure ExecutionProgress where
  stage : String
  completed : ℤ
  total : Option ℤ
  message : String
  simulatedTimeNs : Option ℚ
  metadata : Dict String Json
  unit : String

def progressUnitForStage : String → String
  | "serving_cohorts" | "serving_complete" => "serving_batches"
  | "cohort_tasks" | "cohort_preview_tasks" | "schedule" => "schedule_tasks"
  | "queued" | "starting" | "validation" | "compilation" | "reporting" | "completed" => "workflow_steps"
  | _ => "work_units"

def progressUnitLabelZh : String → String
  | "serving_batches" => "在线批次"
  | "schedule_tasks" => "拓扑任务"
  | "workflow_steps" => "流程步骤"
  | _ => "工作单元"

def progressRatio (completed : ℕ) : Option ℕ → Option ℚ
  | none | some 0 => none
  | some total => some (min 1 (max 0 ((completed : ℚ) / total)))

def progressDict (stage : String) (completed : ℤ) (total : Option ℤ) (message : String) (metadata : Dict String Json)
    (unit : Option String) (scope : String) : Progress :=
  let total := total.map Int.toNat
  let unit := (unit.filter (· ≠ "")).getD (progressUnitForStage stage)
  { stage, completed := completed.toNat, total, ratio := progressRatio completed.toNat total, unit,
    unitLabelZh := progressUnitLabelZh unit, scope, message, metadata }

/-- A later progress that counts on: the stage and the message are new. -/
def Progress.restage (p : Progress) (stage message : String) : Progress :=
  progressDict stage p.completed (p.total.map Int.ofNat) message p.metadata (some p.unit) "primary"

/-! ## Jobs -/

/-- What `run_scenario` returns: the kind, and which object. -/
inductive RunResult
  | physical (object : ℕ)
  | online (object : ℕ)
  | fast (object : ℕ) (detailed : Option ℕ)
deriving DecidableEq

def RunResult.object : RunResult → ℕ
  | .physical object | .online object | .fast object _ => object

structure JobError where
  message : String
  exceptionType : String
  details : Option Json
  diagnosticId : Option String
  diagnosticError : Option (String × String)
deriving DecidableEq

/-- An exception of the worker, and what recording it gave. -/
structure WorkerException where
  text : String
  typeName : String
  details : Option Json
  isValidation : Bool
  recorded : Except (String × String) String

def orNoMessage (text : String) : String := if text = "" then "未提供异常消息" else text

/-- The error a worker stores: the simulation's own, and what became of its diagnostic. -/
def JobError.ofException (e : WorkerException) : JobError :=
  { message := orNoMessage e.text, exceptionType := e.typeName, details := e.details,
    diagnosticId := if e.isValidation then none else e.recorded.toOption,
    diagnosticError := match e.isValidation, e.recorded with
      | false, .error (text, typeName) => some (orNoMessage text, typeName)
      | _, _ => none }

structure RunJob where
  jobId : String
  retentionPolicy : RetentionPolicy
  estimate : Json
  createdAt : String
  status : Status
  startedAt : Option String
  finishedAt : Option String
  progress : Progress
  progressDetail : Option Progress
  report : Option Json
  result : Option RunResult
  error : Option JobError
  cancellationRequested : Bool
  cancelEvent : Bool
  finishedSequence : Option ℕ
deriving DecidableEq

def RunJob.queued (jobId : String) (retentionPolicy : RetentionPolicy) (estimate : Json) (createdAt : String) : RunJob :=
  { jobId, retentionPolicy, estimate, createdAt, status := .queued, startedAt := none, finishedAt := none,
    progress := progressDict "queued" 0 (some 1) "仿真任务已排队" .empty none "primary", progressDetail := none,
    report := none, result := none, error := none, cancellationRequested := false, cancelEvent := false,
    finishedSequence := none }

structure Snapshot where
  jobId : String
  status : Status
  retentionPolicy : RetentionPolicy
  createdAt : String
  startedAt : Option String
  finishedAt : Option String
  cancellationRequested : Bool
  progress : Progress
  detail : Option Progress
  estimate : Json
  report : Option Json
  error : Option JobError
deriving DecidableEq

/-- `_snapshot_locked`. -/
def RunJob.snapshot (job : RunJob) : Snapshot :=
  { jobId := job.jobId, status := job.status, retentionPolicy := job.retentionPolicy, createdAt := job.createdAt,
    startedAt := job.startedAt, finishedAt := job.finishedAt, cancellationRequested := job.cancellationRequested,
    progress := job.progress, detail := job.progressDetail, estimate := job.estimate, report := job.report,
    error := job.error }

/-! ## The manager -/

/-- The bounds the manager was made with. -/
structure Limits where
  maxWorkers : ℕ
  maxHistory : ℕ
  maxActiveJobs : ℕ
  maxTraceCacheEntries : ℕ
  workers_pos : 0 < maxWorkers
  history_pos : 0 < maxHistory
  workers_le : maxWorkers ≤ maxActiveJobs
  traceCache_pos : 0 < maxTraceCacheEntries

/-- The constructor's checks. -/
def Limits.make (maxWorkers maxHistory maxActiveJobs maxTraceCacheEntries : ℕ) : Except String Limits :=
  if hw : 0 < maxWorkers then
    if hh : 0 < maxHistory then
      if ha : maxWorkers ≤ maxActiveJobs then
        if hc : 0 < maxTraceCacheEntries then
          .ok ⟨maxWorkers, maxHistory, maxActiveJobs, maxTraceCacheEntries, hw, hh, ha, hc⟩
        else .error "max_trace_cache_entries 必须是正整数"
      else .error "max_active_jobs 必须是不小于 max_workers 的正整数"
    else .error "max_history 必须是正整数"
  else .error "max_workers 必须是正整数"

structure RunJobManager where
  jobs : Dict String RunJob
  traceCache : Dict (String × String) Json
  traceInflight : Dict (String × String) ℕ
  finishedSequence : ℕ
  shutdown : Bool

def RunJobManager.empty : RunJobManager := ⟨.empty, .empty, .empty, 0, false⟩

/-- What a call raises. -/
inductive Raised
  | runtimeError (message : String)
  | capacityError (message : String)
  | valueError (message : String)
  | traceError (status : ℕ) (code messageZh messageEn : String) (details : List (String × String))
  | other (text : String)
deriving DecidableEq

namespace RunJobManager

def closed : Raised := .runtimeError "RunJobManager 已关闭"

def full : Raised := .capacityError "后台仿真队列已满；请等待现有任务完成或先取消不再需要的任务"

variable (limits : Limits) (m : RunJobManager)

def activeCount : ℕ := m.jobs.values.countP fun job => !job.status.terminal

def terminalJobs : List RunJob := m.jobs.values.filter fun job => job.status.terminal

def ensureSubmissionCapacityLocked : Except Raised Unit :=
  if limits.maxActiveJobs ≤ m.activeCount then .error full else .ok ()

/-- A job put back under its id. -/
def store (job : RunJob) : RunJobManager := { m with jobs := m.jobs.insert job.jobId job }

/-- `_record_terminal_locked`, with the job the section has made terminal. -/
def recordTerminalLocked (job : RunJob) : RunJobManager :=
  match job.finishedSequence with
  | some _ => m.store job
  | none =>
    { m with finishedSequence := m.finishedSequence + 1 }.store
      { job with finishedSequence := some (m.finishedSequence + 1) }

def markCancelledLocked (now : String) (job : RunJob) : RunJobManager :=
  m.recordTerminalLocked
    { job with
      status := .cancelled
      finishedAt := some now
      report := none
      result := none
      error := none
      progress := job.progress.restage "cancelled" "仿真任务已取消"
      progressDetail := none }

def removeJobLocked (jobId : String) : RunJobManager :=
  { m with jobs := m.jobs.erase jobId, traceCache := m.traceCache.eraseWhere fun key => key.1 = jobId }

/-- `sorted`'s key: the sequence (-1 without one), the time, the id. -/
def finishKey (job : RunJob) : ℤ ×ₗ String ×ₗ String :=
  toLex (match job.finishedSequence with
    | some sequence => (sequence : ℤ)
    | none => -1, toLex (job.finishedAt.getD "", job.jobId))

def FinishedBy (a b : RunJob) : Prop := finishKey a ≤ finishKey b

instance (a b : RunJob) : Decidable (FinishedBy a b) := inferInstanceAs (Decidable (finishKey a ≤ finishKey b))

/-- The terminal jobs, `sorted`. -/
def byFinish : List RunJob := m.terminalJobs.insertionSort FinishedBy

/-- `_prune_terminal_locked`: how many it removed, and the manager without them. -/
def pruneTerminalLocked (keep : ℕ) : ℕ × RunJobManager :=
  let removeCount := m.terminalJobs.length - keep
  (removeCount, (m.byFinish.take removeCount).foldl (fun m job => m.removeJobLocked job.jobId) m)

/-! ## Submission -/

/-- The arguments, and the first section: the policy that was asked for. -/
def submitCheck (retentionPolicy : Option String) : Except Raised (Option RetentionPolicy) := do
  let selected ← match retentionPolicy with
    | none => .ok none
    | some text => match RetentionPolicy.ofText? text with
      | none => .error (.valueError "retention_policy 必须是 exact、streaming 或 aggregate")
      | some policy => .ok (some policy)
  if m.shutdown then .error closed else
    (m.ensureSubmissionCapacityLocked limits).map fun _ => selected

/-- What the estimate outside the lock gave. -/
structure Estimate where
  estimate : Json
  recommendedRetentionPolicy : String
  schedulerMode : Option String

def selectPolicy (selected : Option RetentionPolicy) (e : Estimate) : Except Raised RetentionPolicy := do
  let policy ← match selected with
    | some policy => .ok policy
    | none => match RetentionPolicy.ofText? e.recommendedRetentionPolicy with
      | some policy => .ok policy
      | none => .error (.valueError s!"'{e.recommendedRetentionPolicy}' is not a valid RetentionPolicy")
  if e.schedulerMode.getD "static" = "continuous" ∧ policy ≠ .aggregate then
    .error (.valueError "continuous 调度仅支持 aggregate retention_policy；批次外层不会伪装成 exact 或 streaming 任务轨迹")
  else .ok policy

/-- The second section. The pool may refuse the job, which then goes again. -/
def submitEnqueue (job : RunJob) (pool : Except Raised Unit) : Except Raised String × RunJobManager :=
  if m.shutdown then (.error closed, m) else
    match m.ensureSubmissionCapacityLocked limits, pool with
    | .error e, _ => (.error e, m)
    | .ok _, .error e => (.error e, { m with jobs := (m.jobs.insert job.jobId job).erase job.jobId })
    | .ok _, .ok _ => (.ok job.jobId, m.store job)

/-! ## Calls on a job -/

def get (jobId : String) : Option Snapshot := (m.jobs.get? jobId).map RunJob.snapshot

def cancel (now : String) (jobId : String) : Bool × RunJobManager :=
  match m.jobs.get? jobId with
  | none => (false, m)
  | some job =>
    if job.status.terminal then (false, m) else
      let job := { job with cancellationRequested := true, cancelEvent := true }
      if job.status = .queued then
        (true, ((m.markCancelledLocked now job).pruneTerminalLocked limits.maxHistory).2)
      else (true, m.store { job with progress := job.progress.restage "cancelling" "正在安全取消仿真任务" })

def prune (jobId : Option String) (keep : Option ℤ) : Except Raised ℕ × RunJobManager :=
  match jobId, keep with
  | some _, some _ => (.error (.valueError "job_id 与 keep 不能同时使用"), m)
  | some jobId, none => match m.jobs.get? jobId with
    | none => (.ok 0, m)
    | some job => if job.status.terminal then (.ok 1, m.removeJobLocked job.jobId) else (.ok 0, m)
  | none, none => ((.ok (m.pruneTerminalLocked 0).1), (m.pruneTerminalLocked 0).2)
  | none, some keep =>
    if keep < 0 then (.error (.valueError "keep 必须是非负整数或 None"), m)
    else (.ok (m.pruneTerminalLocked keep.toNat).1, (m.pruneTerminalLocked keep.toNat).2)

/-- The section of `shutdown`, and the jobs it goes on to cancel one by one. -/
def shutdownSection (cancelPending cancelRunning : Bool) : List String × RunJobManager :=
  ((m.jobs.values.filter fun job =>
      cancelPending && job.status = .queued || cancelRunning && job.status = .running).map RunJob.jobId,
    { m with shutdown := true, traceCache := .empty })

/-! ## The worker -/

/-- The first section of `_run_job`: whether the worker goes on. -/
def workerStart (now : String) (jobId : String) : Bool × RunJobManager :=
  match m.jobs.get? jobId with
  | none => (false, m)
  | some job =>
    if job.status = .cancelled then (false, m) else
      (true, m.store { job with
        status := .running
        startedAt := some now
        progress := progressDict "starting" 0 (some 1) "正在启动仿真任务" .empty none "primary" })

def updateProgress (jobId : String) (p : ExecutionProgress) : RunJobManager :=
  match m.jobs.get? jobId with
  | none => m
  | some job =>
    if job.status ≠ .running ∨ job.cancelEvent then m else
      let metadata := match p.simulatedTimeNs with
        | none => p.metadata
        | some time => p.metadata.insert "simulated_time_ns" (.number time)
      let update := progressDict p.stage p.completed p.total p.message metadata (some p.unit) "primary"
      if p.stage = "cohort_tasks" ∧ job.progress.unit = "serving_batches" then
        m.store { job with progressDetail := some { update with scope := "nested" } }
      else
        m.store { job with
          progress := update
          progressDetail := if p.stage = "serving_cohorts" ∨ p.stage = "serving_complete" then job.progressDetail
            else none }

/-- The run was cancelled. -/
def workerCancelled (now : String) (jobId : String) : RunJobManager :=
  match m.jobs.get? jobId with
  | none => m
  | some job =>
    if job.status.terminal then m else
      ((m.markCancelledLocked now job).pruneTerminalLocked limits.maxHistory).2

/-- The run raised. -/
def workerFailed (now : String) (jobId : String) (error : JobError) : RunJobManager :=
  match m.jobs.get? jobId with
  | none => m
  | some job =>
    if job.status.terminal then m else
      let settled :=
        if job.cancelEvent then m.markCancelledLocked now job else
          m.recordTerminalLocked { job with
            status := .failed
            finishedAt := some now
            error := some error
            progress := job.progress.restage "failed" "仿真任务执行失败"
            progressDetail := none }
      (settled.pruneTerminalLocked limits.maxHistory).2

/-- The run returned. -/
def workerCompleted (now : String) (jobId : String) (report : Json) (result : RunResult) : RunJobManager :=
  match m.jobs.get? jobId with
  | none => m
  | some job =>
    if job.status.terminal then m else
      let settled :=
        if job.cancelEvent then m.markCancelledLocked now job else
          m.recordTerminalLocked { job with
            report := some report
            result := some result
            status := .completed
            finishedAt := some now
            progress := progressDict "completed" 1 (some 1) "仿真任务已完成" .empty none "primary"
            progressDetail := none }
      (settled.pruneTerminalLocked limits.maxHistory).2

/-! ## Traces -/

def jobNotFound : Raised := .traceError 404 "run_job_not_found" "未找到指定的仿真任务" "simulation job not found" []

/-- `_trace_result_locked`: the online result of a completed job, by identity. -/
def traceResultLocked (jobId : String) : Except Raised ℕ :=
  match m.jobs.get? jobId with
  | none => .error jobNotFound
  | some job =>
    if job.status ≠ .completed then
      .error (.traceError 409 "run_job_trace_not_ready" "仅已完成的仿真任务可以读取批次时间轴"
        "batch traces are available only for completed jobs" [("status", job.status.text)])
    else match job.result with
      | some (.fast _ (some detailed)) => .ok detailed
      | some (.fast _ none) => .error (.traceError 409 "fast_forecast_has_no_physical_trace"
          "快速预测结果没有完整物理时间轴；请选择详细模式生成时间轴"
          "a fast forecast has no complete physical timeline; use detailed mode" [])
      | some (.online object) => .ok object
      | _ => .error (.traceError 409 "run_job_trace_unavailable" "该仿真任务不是在线连续批处理结果，无法读取批次时间轴"
          "the job is not an online continuous-batching result" [])

def tracePageCheck (batchId : String) (offset limit : ℤ) : Except Raised Unit :=
  if batchId = "" then
    .error (.traceError 400 "invalid_batch_id" "batch_id 必须是非空字符串" "batch_id must be a non-empty string" [])
  else if offset < 0 then
    .error (.traceError 400 "invalid_trace_offset" "offset 必须是非负整数" "offset must be a non-negative integer" [])
  else if limit < 1 ∨ 5000 < limit then
    .error (.traceError 400 "invalid_trace_limit" "limit 必须是 1 到 5000 之间的整数"
      "limit must be an integer between 1 and 5000" [])
  else .ok ()

/-- A replay that a call of `trace_page` has begun outside the lock. -/
structure Replay where
  key : String × String
  result : ℕ
  flight : ℕ

/-- What the first section of `trace_page` found: a cached replay, another call's, or its own to make. -/
inductive Trace
  | hit (replay : Json)
  | waits (flight : ℕ)
  | owner (replay : Replay)

/-- The first section; a new flight gets the number given. -/
def traceBegin (jobId batchId : String) (flight : ℕ) : Except Raised Trace × RunJobManager :=
  match m.traceResultLocked jobId with
  | .error e => (.error e, m)
  | .ok result =>
    match m.traceCache.get? (jobId, batchId), m.traceInflight.get? (jobId, batchId) with
    | some replay, _ => (.ok (.hit replay), { m with traceCache := m.traceCache.moveToEnd (jobId, batchId) })
    | none, some flight => (.ok (.waits flight), m)
    | none, none =>
      (.ok (.owner ⟨(jobId, batchId), result, flight⟩),
        { m with traceInflight := m.traceInflight.insert (jobId, batchId) flight })

/-- The job is still the completed one the replay was made of. -/
def isCurrent (r : Replay) : Bool :=
  match m.jobs.get? r.key.1 with
  | none => false
  | some job => job.status = .completed ∧ job.result.map RunResult.object = some r.result

/-- How building the replay went: `KeyError` is told from the rest. -/
inductive Built
  | replay (pages : Json)
  | keyError
  | raised (e : Raised)

def Built.toExcept (b : Built) (batchId : String) : Except Raised Json :=
  match b with
  | .replay pages => .ok pages
  | .keyError => .error (.traceError 404 "run_job_batch_not_found" "未找到指定的在线批次" "online batch not found"
      [("batch_id", batchId)])
  | .raised e => .error e

/-- The second section, by the call that owns the flight. -/
def traceEnd (r : Replay) (built : Built) : Except Raised Json × RunJobManager :=
  let outcome := match built.toExcept r.key.2 with
    | .error e => .error e
    | .ok pages => if m.isCurrent r then .ok pages else .error jobNotFound
  let cache := match outcome with
    | .error _ => m.traceCache
    | .ok pages =>
      if m.shutdown then m.traceCache else
        ((m.traceCache.insert r.key pages).moveToEnd r.key).keepLast limits.maxTraceCacheEntries
  let inflight := if m.traceInflight.get? r.key = some r.flight then m.traceInflight.erase r.key else m.traceInflight
  (outcome, { m with traceCache := cache, traceInflight := inflight })

end RunJobManager

end HeteroSim.Jobs
