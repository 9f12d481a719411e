/-
The decode steps of `run_serving`: the window's boundary, admission, one
decode call with its bookkeeping, and the result of the run.
-/
import HeteroSim.DecodeNode.Controller

namespace HeteroSim.DecodeNode

variable {σ : Type} (config : ServingConfig) (callbacks : Callbacks σ)

/-! ## The start of a step -/

def Controller.unfinished (s : Controller σ) (since : ℚ) : List PendingAdmission :=
  s.pending.filter fun row => since < row.readyNs

/-- The measured window starts with its own first intervals. -/
def Controller.openWindow (s : Controller σ) : Controller σ :=
  { s with
    measuringImports := true
    lastOutput := outputsAt s.now s.active
    window := { s.window with
      measurementStart := s.now
      pendingStart := s.pending.length
      unfinishedTransferStart := ((s.unfinished s.now).map PendingAdmission.transferBytes).sum
      unfinishedProgramStart := ((s.unfinished s.now).map PendingAdmission.physicalProgramBytes).sum
      unfinishedCostsStart :=
        (s.unfinished s.now).foldl (fun costs row => addCosts costs row.costs) s.window.unfinishedCostsStart } }

def Controller.enterStep (s : Controller σ) (step : ℕ) : Controller σ :=
  let t := if step = config.warmupSteps then s.openWindow else s
  { t with iterationAdmissions := [] }

/-! ## One decode call -/

/-- The request after one more decode call. -/
def ServingRequest.advanced (r : ServingRequest) : ServingRequest :=
  { r with generatedDecodeTokens := r.generatedDecodeTokens + 1 }

/-- What the loop over the batch collects. -/
structure Outputs where
  lastOutput : Dict ℕ ℚ
  freshAdmittedAt : Dict ℕ ℚ
  survivors : List ServingRequest := []
  intervals : List ℚ := []
  stepCompleted : ℕ := 0
  elapsedCount : ℕ
  elapsedSum : ℚ
  elapsedMax : Option ℚ

def Outputs.elapsed (o : Outputs) (time : ℚ) : Outputs :=
  { o with
    elapsedCount := o.elapsedCount + 1
    elapsedSum := o.elapsedSum + time
    elapsedMax := some (max (o.elapsedMax.getD 0) time) }

/-- A request's last token: its residence counts when it was admitted fresh. -/
def Outputs.completes (o : Outputs) (measuring : Bool) (now : ℚ) (r : ServingRequest) : Outputs :=
  let p := { o with
    stepCompleted := o.stepCompleted + 1
    lastOutput := o.lastOutput.erase r.requestId
    freshAdmittedAt := o.freshAdmittedAt.erase r.requestId }
  match o.freshAdmittedAt.get? r.requestId with
  | none => p
  | some admitted => if measuring then p.elapsed (now - admitted) else p

def Outputs.output (measuring : Bool) (now : ℚ) (o : Outputs) (r : ServingRequest) : Except String Outputs :=
  match o.lastOutput.get? r.requestId with
  | none => .error "KeyError"
  | some last =>
    let p := { o with intervals := o.intervals ++ [now - last], lastOutput := o.lastOutput.insert r.requestId now }
    if r.remainingDecodeTokens = 1 then .ok (p.completes measuring now r)
    else do
      let survivor ← r.advanced.new
      .ok { p with survivors := p.survivors ++ [survivor] }

def Controller.outputs (s : Controller σ) : Outputs :=
  { lastOutput := s.lastOutput, freshAdmittedAt := s.freshAdmittedAt,
    elapsedCount := s.window.completedElapsedCount, elapsedSum := s.window.completedElapsedSum,
    elapsedMax := s.window.completedElapsedMax }

/-- The batch after its call: survivors, their outputs, and the call on record. -/
def Controller.decoded (s : Controller σ) (after : σ) (finish : ℚ) (o : Outputs) : Controller σ :=
  { s with
    callbacks := after
    now := finish
    active := o.survivors
    lastOutput := o.lastOutput
    freshAdmittedAt := o.freshAdmittedAt
    window := { s.window with
      completedElapsedCount := o.elapsedCount
      completedElapsedSum := o.elapsedSum
      completedElapsedMax := o.elapsedMax }
    calls := s.calls ++ [⟨s.active, s.pending, s.now, finish, s.iterationAdmissions⟩] }

/-- The sums of a measured step: `s` before the call, `t` after it. -/
def Window.measure (w : Window) (config : ServingConfig) (iterationStart : ℚ) (s t : Controller σ)
    (execution : DecodeExecution) (o : Outputs) : Window :=
  let widest := o.intervals.foldl max w.maxInterval
  let record : StepRecord :=
    { step := w.measured + 1, startNs := iterationStart, decodeStartNs := s.now, endNs := t.now
      batchSize := s.active.length, admitted := s.iterationAdmissions.length, completed := o.stepCompleted
      pending := t.pending.length, minTpotNs := o.intervals.min?.getD 0, maxTpotNs := o.intervals.max?.getD 0 }
  { w with
    measurementEnd := t.now
    measured := w.measured + 1
    tokens := w.tokens + s.active.length
    completed := w.completed + o.stepCompleted
    admitted := w.admitted + s.iterationAdmissions.length
    full := w.full + if s.active.length = config.batchSize then 1 else 0
    batchSum := w.batchSum + s.active.length
    totalIntervals := w.totalIntervals + o.intervals.sum
    maxInterval := widest
    maxIteration := max w.maxIteration (t.now - iterationStart)
    stall := w.stall + (s.now - iterationStart)
    pdBytes := w.pdBytes + (s.iterationAdmissions.map PendingAdmission.transferBytes).sum
    pdProgram := w.pdProgram + (s.iterationAdmissions.map PendingAdmission.physicalProgramBytes).sum
    decodeProgram := w.decodeProgram + execution.physicalProgramBytes
    logicalWrite := w.logicalWrite + execution.logicalWriteBytes
    transfer := w.transfer + execution.transferBytes
    resourceCosts := addCosts w.resourceCosts execution.costs
    records := if config.retainStepRecords then w.records ++ [record] else w.records }

def Controller.decode (s : Controller σ) (measuring : Bool) (iterationStart : ℚ) : Except String (Controller σ) := do
  let execution := callbacks.executeDecode s.callbacks s.active s.pending s.now
  refuse (execution.2.endNs ≤ s.now) "decode callback must return a finite, strictly later completion"
  let o ← s.active.foldlM (Outputs.output measuring execution.2.endNs) s.outputs
  let t := s.decoded execution.1 execution.2.endNs o
  if measuring then .ok { t with window := t.window.measure config iterationStart s t execution.2 o }
  else .ok { t with window := { t.window with warmupCompleted := t.window.warmupCompleted + 1 } }

/-! ## The run -/

inductive Status
  | completed | arrivalsExhausted
deriving DecidableEq

/-- The measured window ends where the arrivals did. -/
def Controller.exhausted (s : Controller σ) (measuring : Bool) : Controller σ :=
  if measuring then { s with window := { s.window with measurementEnd := s.now } } else s

/-- The steps still to run, by their indices. -/
def Controller.runSteps (fuel : ℕ) : List ℕ → Controller σ → Except String (Status × Controller σ)
  | [], s => .ok (.completed, s)
  | step :: steps, s => do
    let t ← (s.enterStep config step).admitLoop config callbacks fuel
    if t.active = [] then .ok (.arrivalsExhausted, t.exhausted (config.warmupSteps ≤ step))
    else do
      let u ← t.decode config callbacks (config.warmupSteps ≤ step) s.now
      u.runSteps fuel steps

structure ServingResult where
  status : Status
  startupEndNs : ℚ
  startupImportBytes : ℕ
  startupProgramBytes : ℕ
  startupCostsNs : Dict String ℚ
  window : Window
  meanCompletedRequestElapsedNs : Option ℚ
  decodeTokensPerSecond : ℚ
  outputEquivalentTokensPerSecond : ℚ
  meanTpotNs : ℚ
  meanIterationNs : ℚ
  meanBatchSize : ℚ
  fullBatchStepFraction : ℚ
  pdTransferIssuedBytes : ℕ
  pdProgramIssuedBytes : ℕ
  pdTransferCompletedBytes : ℤ
  pdProgramCompletedBytes : ℤ
  pendingUnfinishedTransferStartBytes : ℕ
  pendingUnfinishedProgramStartBytes : ℕ
  pendingUnfinishedTransferEndBytes : ℕ
  pendingUnfinishedProgramEndBytes : ℕ
  pdResourceServiceNs : Dict String ℚ
  resourceServiceNs : Dict String ℚ
  projectedThreeYearPhysicalBytes : ℚ
  projectedThreeYearAveragePec : Option ℚ
  pendingAtMeasurementEnd : ℕ
  issues : List Issue
  calls : List DecodeCall

def ratio (a b : ℚ) : ℚ := if b = 0 then 0 else a / b

def threeYearsSeconds : ℚ := 3 * 365 * 24 * 60 * 60

/-- What the imports cost within the window: what it issued and found unfinished, less what it left so. -/
def Controller.costsCompleted (s : Controller σ) : Dict String ℚ :=
  if s.measuringImports then
    (s.unfinished s.window.measurementEnd).foldl
      (fun costs row => row.costs.items.foldl (fun t p => t.insert p.1 ((t.get? p.1).getD 0 - p.2)) costs)
      (addCosts s.pdCostsIssued s.window.unfinishedCostsStart)
  else .empty

def Controller.result (s : Controller σ) (status : Status) (startupEnd : ℚ) : ServingResult :=
  let w := s.window
  let elapsed := max 0 (w.measurementEnd - w.measurementStart)
  let seconds := elapsed / 1000000000
  let transferEnd := ((s.unfinished w.measurementEnd).map PendingAdmission.transferBytes).sum
  let programEnd := ((s.unfinished w.measurementEnd).map PendingAdmission.physicalProgramBytes).sum
  let transferStart := if s.measuringImports then w.unfinishedTransferStart else 0
  let programStart := if s.measuringImports then w.unfinishedProgramStart else 0
  let transferCompleted : ℤ := if s.measuringImports then s.pdTransferIssued + transferStart - transferEnd else 0
  let programCompleted : ℤ := if s.measuringImports then s.pdProgramIssued + programStart - programEnd else 0
  let projected := ratio (programCompleted + w.decodeProgram) seconds * threeYearsSeconds
  { status, startupEndNs := startupEnd
    startupImportBytes := s.startupBytes, startupProgramBytes := s.startupProgram, startupCostsNs := s.startupCosts
    window := w
    meanCompletedRequestElapsedNs :=
      if w.completedElapsedCount = 0 then none else some (w.completedElapsedSum / w.completedElapsedCount)
    decodeTokensPerSecond := ratio w.tokens seconds
    outputEquivalentTokensPerSecond := ratio (w.completed * config.outputTokens) seconds
    meanTpotNs := ratio w.totalIntervals w.tokens
    meanIterationNs := ratio elapsed w.measured
    meanBatchSize := ratio w.batchSum w.measured
    fullBatchStepFraction := ratio w.full w.measured
    pdTransferIssuedBytes := s.pdTransferIssued, pdProgramIssuedBytes := s.pdProgramIssued
    pdTransferCompletedBytes := transferCompleted, pdProgramCompletedBytes := programCompleted
    pendingUnfinishedTransferStartBytes := transferStart, pendingUnfinishedProgramStartBytes := programStart
    pendingUnfinishedTransferEndBytes := transferEnd, pendingUnfinishedProgramEndBytes := programEnd
    pdResourceServiceNs := s.costsCompleted
    resourceServiceNs := addCosts w.resourceCosts s.costsCompleted
    projectedThreeYearPhysicalBytes := projected
    projectedThreeYearAveragePec :=
      if config.hbfCapacityBytes = 0 then none else some (projected / config.hbfCapacityBytes)
    pendingAtMeasurementEnd := s.pending.length
    issues := s.issues, calls := s.calls }

def Controller.opened (s : Controller σ) : Controller σ :=
  { s with window := { measurementStart := s.now, measurementEnd := s.now } }

def runServing (fuel : ℕ) (init : σ) : Except String ServingResult := do
  let s ← ({ callbacks := init, now := config.startNs : Controller σ }).startup config callbacks
  let run ← s.opened.runSteps config callbacks fuel (List.range (config.warmupSteps + config.measurementSteps))
  .ok (run.2.result config run.1 s.now)

end HeteroSim.DecodeNode
