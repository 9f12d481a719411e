/-
Admission control of one decode node (`run_serving`): slots, imports, and
the window it measures. The two callbacks are functions of a state of their
own, so that an import's cost may depend on everything scheduled before it.
Times are rationals. `issues` and `calls` record what the callbacks saw.
-/
import HeteroSim.Dict
import HeteroSim.Raising

namespace HeteroSim.DecodeNode

structure ServingRequest where
  requestId : ℕ
  inputTokens : ℕ
  outputTokens : ℕ
  generatedDecodeTokens : ℕ
  prefillFirstOutputToken : Bool
  slotId : ℕ
deriving DecidableEq

/-- What is still to decode; none of a request that `new` refuses. -/
def ServingRequest.remainingDecodeTokens (r : ServingRequest) : ℕ :=
  r.outputTokens - r.prefillFirstOutputToken.toNat - r.generatedDecodeTokens

def ServingRequest.new (r : ServingRequest) : Except String ServingRequest := do
  refuse (r.inputTokens < 1) "input_tokens must be an integer >= 1"
  refuse (r.outputTokens < 1) "output_tokens must be an integer >= 1"
  refuse (r.remainingDecodeTokens < 1) "request must still have a decode token to generate"
  .ok r

structure PendingAdmission where
  request : ServingRequest
  readyNs : ℚ
  logicalKvBytes : ℕ
  physicalProgramBytes : ℕ
  transferBytes : ℕ
  costs : Dict String ℚ
deriving DecidableEq

structure DecodeExecution where
  endNs : ℚ
  physicalProgramBytes : ℕ
  logicalWriteBytes : ℕ
  transferBytes : ℕ
  costs : Dict String ℚ

inductive ArrivalPolicy
  | completionMatched | exogenous
deriving DecidableEq

inductive FullBatchPolicy
  | wait | partialBatch
deriving DecidableEq

structure ServingConfig where
  batchSize : ℕ
  inputTokens : ℕ
  outputTokens : ℕ
  warmupSteps : ℕ
  measurementSteps : ℕ
  prefetchSlots : ℕ
  importLookaheadTokens : ℕ
  arrivalPolicy : ArrivalPolicy
  arrivalTimesNs : List ℚ
  fullBatchPolicy : FullBatchPolicy
  staggerInitialAges : Bool
  prefillFirstOutputToken : Bool
  startNs : ℚ
  hbfCapacityBytes : ℕ
  retainStepRecords : Bool
  batch_pos : 1 ≤ batchSize
  input_pos : 1 ≤ inputTokens
  output_pos : 1 ≤ outputTokens
  measurement_pos : 1 ≤ measurementSteps
  start_nonneg : 0 ≤ startNs
  decodes : prefillFirstOutputToken.toNat < outputTokens
  prefetch_le : prefetchSlots ≤ batchSize
  arrivals_ordered : (startNs :: arrivalTimesNs).Pairwise (· ≤ ·)
  no_arrivals : arrivalPolicy = .completionMatched → arrivalTimesNs = []

/-- Decode tokens of one whole request. -/
def ServingConfig.length (config : ServingConfig) : ℕ := config.outputTokens - config.prefillFirstOutputToken.toNat

structure Callbacks (σ : Type) where
  importKv : σ → ServingRequest → ℚ → σ × PendingAdmission
  executeDecode : σ → List ServingRequest → List PendingAdmission → ℚ → σ × DecodeExecution

/-- An import issued for `slot`, beside the requests then running and the imports then pending, itself the last. -/
structure Issue where
  slot : ℕ
  time : ℚ
  imported : PendingAdmission
  active : List ServingRequest
  pending : List PendingAdmission

/-- A decode call, with the imports admitted since the one before. -/
structure DecodeCall where
  active : List ServingRequest
  pending : List PendingAdmission
  start : ℚ
  finish : ℚ
  admissions : List PendingAdmission

structure StepRecord where
  step : ℕ
  startNs : ℚ
  decodeStartNs : ℚ
  endNs : ℚ
  batchSize : ℕ
  admitted : ℕ
  completed : ℕ
  pending : ℕ
  minTpotNs : ℚ
  maxTpotNs : ℚ

/-- The running sums of the measured window. -/
structure Window where
  measurementStart : ℚ
  measurementEnd : ℚ
  pendingStart : ℕ := 0
  unfinishedTransferStart : ℕ := 0
  unfinishedProgramStart : ℕ := 0
  unfinishedCostsStart : Dict String ℚ := .empty
  tokens : ℕ := 0
  completed : ℕ := 0
  admitted : ℕ := 0
  measured : ℕ := 0
  warmupCompleted : ℕ := 0
  full : ℕ := 0
  completedElapsedCount : ℕ := 0
  completedElapsedSum : ℚ := 0
  completedElapsedMax : Option ℚ := none
  totalIntervals : ℚ := 0
  maxInterval : ℚ := 0
  maxIteration : ℚ := 0
  batchSum : ℕ := 0
  stall : ℚ := 0
  pdBytes : ℕ := 0
  pdProgram : ℕ := 0
  decodeProgram : ℕ := 0
  logicalWrite : ℕ := 0
  transfer : ℕ := 0
  resourceCosts : Dict String ℚ := .empty
  records : List StepRecord := []

/-- The variables of one run. -/
structure Controller (σ : Type) where
  callbacks : σ
  now : ℚ
  requestId : ℕ := 0
  active : List ServingRequest := []
  pending : List PendingAdmission := []
  lastOutput : Dict ℕ ℚ := .empty
  freshAdmittedAt : Dict ℕ ℚ := .empty
  arrivalIndex : ℕ := 0
  arrivalBacklog : ℕ := 0
  startupBytes : ℕ := 0
  startupProgram : ℕ := 0
  startupCosts : Dict String ℚ := .empty
  measuringImports : Bool := false
  pdTransferIssued : ℕ := 0
  pdProgramIssued : ℕ := 0
  pdCostsIssued : Dict String ℚ := .empty
  iterationAdmissions : List PendingAdmission := []
  window : Window := { measurementStart := now, measurementEnd := now }
  issues : List Issue := []
  calls : List DecodeCall := []

def addCosts (target source : Dict String ℚ) : Dict String ℚ :=
  source.items.foldl (fun t p => t.insert p.1 ((t.get? p.1).getD 0 + p.2)) target

variable {σ : Type}

def Controller.occupiedSlots (s : Controller σ) : List ℕ := s.active.map ServingRequest.slotId

def Controller.reservedSlots (s : Controller σ) : List ℕ := s.pending.map fun row => row.request.slotId

variable (config : ServingConfig) (callbacks : Callbacks σ)

/-! ## Imports -/

/-- The request an import is asked for. -/
def ServingConfig.request (requestId age slotId : ℕ) : ServingRequest :=
  ⟨requestId, config.inputTokens, config.outputTokens, age, config.prefillFirstOutputToken, slotId⟩

/-- An accounted import joins the pending ones. -/
def Controller.issue (s : Controller σ) (after : σ) (imported : PendingAdmission) (slotId : ℕ) : Controller σ :=
  { s with
    callbacks := after
    requestId := s.requestId + 1
    pending := s.pending ++ [imported]
    pdTransferIssued := s.pdTransferIssued + if s.measuringImports then imported.transferBytes else 0
    pdProgramIssued := s.pdProgramIssued + if s.measuringImports then imported.physicalProgramBytes else 0
    pdCostsIssued := if s.measuringImports then addCosts s.pdCostsIssued imported.costs else s.pdCostsIssued
    issues := s.issues ++ [⟨slotId, s.now, imported, s.active, s.pending ++ [imported]⟩] }

/-- `pending.append(schedule_import(now, age, slot_id))`. -/
def Controller.scheduleImport (s : Controller σ) (age slotId : ℕ) : Except String (Controller σ) := do
  let request ← (config.request s.requestId age slotId).new
  let imported := callbacks.importKv s.callbacks request s.now
  refuse (imported.2.request ≠ request) "import callback must return the same request and accounted transfer"
  refuse (imported.2.readyNs ≤ s.now) "PD transfer/write must have positive elapsed completion cost"
  .ok (s.issue imported.1 imported.2 slotId)

/-! ## Startup -/

/-- The age of the startup import of a slot. -/
def ServingConfig.initialAge (index : ℕ) : ℕ :=
  if config.staggerInitialAges then index * config.length / config.batchSize else 0

def Controller.startupImport (s : Controller σ) (index : ℕ) : Except String (Controller σ) := do
  let t ← s.scheduleImport config callbacks (config.initialAge index) index
  match t.pending.getLast? with
  | none => .ok t
  | some imported =>
    .ok { t with
      startupBytes := t.startupBytes + imported.transferBytes
      startupProgram := t.startupProgram + imported.physicalProgramBytes
      startupCosts := addCosts t.startupCosts imported.costs }

/-- The requests given, each with its last output now. -/
def outputsAt (now : ℚ) (active : List ServingRequest) : Dict ℕ ℚ :=
  active.foldl (fun d r => d.insert r.requestId now) .empty

/-- All startup imports run at once: decoding starts when the last is ready. -/
def Controller.started (s : Controller σ) : Except String (Controller σ) :=
  match (s.pending.map PendingAdmission.readyNs).max? with
  | none => .error "max() arg is an empty sequence"
  | some now =>
    let active := s.pending.map PendingAdmission.request
    .ok { s with now := now, active := active, pending := [], lastOutput := outputsAt now active }

def Controller.startup (s : Controller σ) : Except String (Controller σ) :=
  match config.arrivalPolicy with
  | .exogenous => .ok s
  | .completionMatched => do
    let t ← (List.range config.batchSize).foldlM (fun t index => t.startupImport config callbacks index) s
    t.started

/-! ## One pass of the admission loop -/

/-- Arrivals up to now join the backlog. -/
def Controller.arrive (s : Controller σ) : Controller σ :=
  match config.arrivalPolicy with
  | .completionMatched => s
  | .exogenous =>
    let due := ((config.arrivalTimesNs.drop s.arrivalIndex).takeWhile (· ≤ s.now)).length
    { s with arrivalBacklog := s.arrivalBacklog + due, arrivalIndex := s.arrivalIndex + due }

def PendingAdmission.before (a b : PendingAdmission) : Prop :=
  a.readyNs < b.readyNs ∨ a.readyNs = b.readyNs ∧ a.request.requestId ≤ b.request.requestId

instance : DecidableRel PendingAdmission.before := fun a b => inferInstanceAs
  (Decidable (a.readyNs < b.readyNs ∨ a.readyNs = b.readyNs ∧ a.request.requestId ≤ b.request.requestId))

def Controller.ready (s : Controller σ) : List PendingAdmission :=
  (s.pending.filter fun row => row.readyNs ≤ s.now).insertionSort PendingAdmission.before

/-- A ready import takes its own slot, once that is vacant. -/
def Controller.admits (s : Controller σ) (imported : PendingAdmission) : Controller σ :=
  if imported.request.slotId ∈ s.occupiedSlots then s
  else
    { s with
      pending := s.pending.erase imported
      active := s.active ++ [imported.request]
      lastOutput := s.lastOutput.insert imported.request.requestId s.now
      freshAdmittedAt := s.freshAdmittedAt.insert imported.request.requestId s.now
      iterationAdmissions := s.iterationAdmissions ++ [imported] }

def Controller.admitReady (s : Controller σ) : Controller σ := s.ready.foldl Controller.admits s

def Controller.vacantSlots (s : Controller σ) : List ℕ :=
  (List.range config.batchSize).filter fun slot => slot ∉ s.occupiedSlots ∧ slot ∉ s.reservedSlots

def Controller.preparingOccupied (s : Controller σ) : ℕ := (s.occupiedSlots.toFinset ∩ s.reservedSlots.toFinset).card

def ServingRequest.sooner (a b : ServingRequest) : Prop :=
  a.remainingDecodeTokens < b.remainingDecodeTokens ∨
    a.remainingDecodeTokens = b.remainingDecodeTokens ∧ a.slotId ≤ b.slotId

instance : DecidableRel ServingRequest.sooner := fun a b => inferInstanceAs
  (Decidable (a.remainingDecodeTokens < b.remainingDecodeTokens ∨
    a.remainingDecodeTokens = b.remainingDecodeTokens ∧ a.slotId ≤ b.slotId))

/-- The running requests whose slots may be prepared, the first to finish first. -/
def Controller.soon (s : Controller σ) : List ServingRequest :=
  (s.active.filter fun r => r.slotId ∉ s.reservedSlots ∧ (config.arrivalPolicy = .exogenous ∨
    r.remainingDecodeTokens ≤ config.importLookaheadTokens)).insertionSort ServingRequest.sooner

def Controller.targetSlots (s : Controller σ) : List ℕ :=
  let slots := s.vacantSlots config ++
    ((s.soon config).take (config.prefetchSlots - s.preparingOccupied)).map ServingRequest.slotId
  match config.arrivalPolicy with
  | .completionMatched => slots
  | .exogenous => slots.take s.arrivalBacklog

def Controller.prepare (s : Controller σ) (slot : ℕ) : Except String (Controller σ) := do
  let t ← s.scheduleImport config callbacks 0 slot
  match config.arrivalPolicy with
  | .completionMatched => .ok t
  | .exogenous => .ok { t with arrivalBacklog := t.arrivalBacklog - 1 }

def Controller.pass (s : Controller σ) : Except String (Controller σ) :=
  let t := (s.arrive config).admitReady
  (t.targetSlots config).foldlM (fun t slot => t.prepare config callbacks slot) t

/-- The next time anything becomes ready or arrives. -/
def Controller.future (s : Controller σ) : Option ℚ :=
  let ready := (s.pending.map PendingAdmission.readyNs).filter (s.now < ·)
  match config.arrivalPolicy with
  | .completionMatched => ready.min?
  | .exogenous => (ready ++ (config.arrivalTimesNs[s.arrivalIndex]?).toList).min?

/-- The time to wait for before decoding, if the batch may not run yet. -/
def Controller.waits (s : Controller σ) : Option ℚ :=
  if s.active.length = config.batchSize then none
  else if s.active ≠ [] ∧ config.fullBatchPolicy = .partialBatch then none
  else s.future config

def outOfFuel : String := "out of fuel"

/-- `while True`: passes at later and later times, until the batch runs or nothing is left to wait for. -/
def Controller.admitLoop : ℕ → Controller σ → Except String (Controller σ)
  | 0, _ => .error outOfFuel
  | fuel + 1, s => do
    let t ← s.pass config callbacks
    match t.waits config with
    | none => .ok t
    | some time => admitLoop fuel { t with now := time }

end HeteroSim.DecodeNode
