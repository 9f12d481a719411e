/-
Plans and their callbacks. A plan's state is an object: the table of the
executor refers to it, and so does every callback of the plan, which goes on
referring to it after a restore has put copies in the table. A callback
carries the phase it was made for and that phase's token.
-/
import HeteroSim.Transfer.Executor

namespace HeteroSim.Transfer

variable {W S : Type} (P : Platform W S) (cfg : Config)

/-- What the callbacks of a plan hold, at one of its phases. -/
structure Plan (S : Type) where
  pageId : ℕ
  bytes : ℕ
  targetComponent : String
  targetOwner : String
  targetGeneration : ℕ
  target : Allocation
  temps : List TempAllocation
  downstream : List Downstream
  /-- The plan's own state object. -/
  state : ℕ
  index : ℕ
  token : ℕ
  phases : List PlanPhase
  startNs : ℚ
  completionNs : ℚ
  saved : S
  savedBindings : Dict ℕ PageBinding
  savedCounters : Counters
  eventsLen : ℕ
  costCount : ℕ
  /-- Made by `prepare_async`: it can be advanced and cancelled. -/
  async : Bool

/-- Only a plan without a further phase has a commit. -/
def Plan.final (plan : Plan S) : Prop := plan.index = plan.downstream.length

instance (plan : Plan S) : Decidable plan.final := inferInstanceAs (Decidable (_ = _))

/-! ## Plan states -/

/-- The object at a place; no place out of range is ever followed. -/
def Executor.stateAt (s : Executor W) (place : ℕ) : PlanState := (s.heap[place]?).getD ⟨0, 0, 0, 0, false, none⟩

/-- `_new_phase_token`. -/
def newPhaseToken : M W ℕ := do
  let s ← get
  set { s with nextAsyncPhaseToken := s.nextAsyncPhaseToken + 1 }
  return s.nextAsyncPhaseToken

/-- A new plan in the table: where its state is, and its first token. -/
def registerPlan (phaseCount : ℕ) : M W (ℕ × ℕ) := do
  let s ← get
  set { s with nextAsyncPlanId := s.nextAsyncPlanId + 1 }
  let token ← newPhaseToken
  let t ← get
  set { t with
    heap := t.heap ++ [PlanState.mk s.nextAsyncPlanId 0 phaseCount token false none]
    plans := t.plans.insert s.nextAsyncPlanId t.heap.length }
  return (t.heap.length, token)

/-- `_transfer_state`: the live state, or the callback's own if it ended here. -/
def transferState (state : ℕ) : M W ℕ := do
  let s ← get
  match s.plans.get? (s.stateAt state).planId with
  | some live => return live
  | none =>
    if (s.stateAt state).done ∧ (s.stateAt state).terminalEpoch = some s.asyncRestoreEpoch then return state
    else throw (.kvPool "physical transfer plan is no longer active")

/-- `_check_phase_token`. -/
def checkPhaseToken (state : PlanState) (expected : ℕ) : Except Raised Unit :=
  refuse (state.phaseToken ≠ expected) (.kvPool "physical transfer phase belongs to a discarded future")

/-- The plan at `live` ended: its state is out of the table, and the callback's own says so. -/
def Executor.finish (s : Executor W) (live callback : ℕ) : Executor W :=
  let ended := { s.stateAt live with done := true }
  { s with
    heap := (s.heap.set live ended).set callback { ended with terminalEpoch := some s.asyncRestoreEpoch }
    plans := s.plans.erase ended.planId }

/-- `_finish_transfer`. -/
def finishTransfer (live callback : ℕ) : M W Unit := modify fun s => s.finish live callback

/-- The states of the table, copied out. -/
def Executor.copyStates (s : Executor W) : Dict ℕ PlanState := s.plans.mapValues s.stateAt

/-- Copied states as the table, each a new object. -/
def Executor.install (s : Executor W) (states : Dict ℕ PlanState) : Executor W :=
  { s with heap := s.heap ++ states.values, plans := states.places s.heap.length }

/-! ## Transactions -/

/-- What the `except` of a preparation does, from the state before it. -/
def undoPreparation (s s' : Executor W) : Executor W :=
  { s' with
    world := P.restore (P.save s.world) s'.world
    bindings := s.bindings
    counters := s.counters
    costs := { s'.costs with phases := s'.costs.phases.take s.costs.phases.length } }

def attempt {α : Type} (body : M W α) : M W α := fun s =>
  match body s with
  | .ok a s' => .ok a s'
  | .error e s' => .error e (undoPreparation P s s')

/-- What the `except` of `_io_transaction` does; the caches' own transactions are part of the platform's copy. -/
def undoIo (s s' : Executor W) : Executor W :=
  { s' with
    world := P.restore (P.save s.world) s'.world
    counters := s.counters
    costs :=
      { phases := s'.costs.phases.take s.costs.phases.length
        groups := if cfg.retainPhaseDetails then s'.costs.groups else s.costs.groups
        total := if cfg.retainPhaseDetails then s'.costs.total else s.costs.total } }

def ioTransaction {α : Type} (body : M W α) : M W α := fun s =>
  match body s with
  | .ok a s' => .ok a s'
  | .error e s' => .error e (undoIo P cfg s s')

/-- What the `except` of `_finalization_transaction` does: the table gets the copies made before. -/
def undoFinalization (callback : ℕ) (s s' : Executor W) : Executor W :=
  let t := s'.install s.copyStates
  { t with
    bindings := s.bindings
    heap := t.heap.set callback (s.stateAt callback)
    events := s'.events.take s.events.length }

def finalizationTransaction {α : Type} (callback : ℕ) (body : M W α) : M W α := fun s =>
  match ioTransaction P cfg body s with
  | .ok a s' => .ok a s'
  | .error e s' => .error e (undoFinalization callback s s')

/-! ## Preparing -/

/-- The plan of a successful preparation, from the state before it. -/
def makePlan (s : Executor W) (request : TransferRequest) (binding : PageBinding) (owner : String) (start : ℚ)
    (reserved : Reserved) (registered : ℕ × ℕ) (async : Bool) : Plan S :=
  { pageId := request.logicalPageId
    bytes := binding.bytes
    targetComponent := request.targetComponent
    targetOwner := owner
    targetGeneration := binding.generation + 1
    target := reserved.target
    temps := reserved.temps
    downstream := reserved.downstream
    state := registered.1
    index := 0
    token := registered.2
    phases := reserved.phases
    startNs := start
    completionNs := reserved.completionNs
    saved := P.save s.world
    savedBindings := s.bindings
    savedCounters := s.counters
    eventsLen := s.events.length
    costCount := s.costs.phases.length
    async }

/-- `_transfer`: all work at once, one phase that is also the last. -/
def transfer (request : TransferRequest) : M W (Plan S) := do
  let s ← get
  let binding ← raise (checkTransfer cfg s.bindings request)
  let service ← raise (ensureService cfg request.targetComponent)
  let start ← raise (cfg.arrivalNs request)
  let reserved ← attempt P (transferBody P cfg request binding service.physicalOwner start)
  let registered ← registerPlan 0
  return makePlan P s request binding service.physicalOwner start reserved registered false

/-- `prepare_async`: the buffers and the source read. -/
def prepareAsync (request : TransferRequest) : M W (Plan S) := do
  let s ← get
  let binding ← raise (checkAsync s.bindings request)
  let service ← raise (ensureService cfg request.targetComponent)
  let start ← raise (cfg.arrivalNs request)
  let reserved ← attempt P (asyncBody P cfg request binding service.physicalOwner start)
  let registered ← registerPlan reserved.downstream.length
  return makePlan P s request binding service.physicalOwner start reserved registered true

/-! ## Callbacks -/

/-- `advance_phase`: the plan's next phase is submitted. -/
def advancePhase (plan : Plan S) (nextToken : ℕ) : M W (Plan S) :=
  match plan.downstream[plan.index]? with
  | none => throw (.other "tuple index out of range")
  | some (.link hop) => do
    let phase ← submitLinkPhase P cfg hop plan.bytes plan.completionNs
    return { plan with
      index := plan.index + 1
      token := nextToken
      phases := plan.phases ++ [phase]
      completionNs := phase.completionNs }
  | some (.access stage component address operation) => do
    let bills ← priceChunks P cfg component operation address plan.bytes plan.completionNs
    modify fun s => { s with counters := { s.counters with
      relayBytes := if stage.isRelay then s.counters.relayBytes + plan.bytes else s.counters.relayBytes } }
    return { plan with
      index := plan.index + 1
      token := nextToken
      phases := plan.phases ++ phasesOf stage.kind (some component) bills
      completionNs := lastCompletion bills plan.completionNs }

/-- The transaction inside `advance`: the next phase under a new token. -/
def submitNext (plan : Plan S) (live : ℕ) : M W (Plan S) := do
  let nextToken ← newPhaseToken
  let next ← advancePhase P cfg plan nextToken
  modify fun t => { t with heap := t.heap.set live { t.stateAt live with
    phase := plan.index + 1
    phaseToken := nextToken } }
  return next

/-- `advance`. -/
def advance (plan : Plan S) : M W (Plan S) := do
  let live ← transferState plan.state
  let s ← get
  raise (refuse (s.stateAt live).done (.kvPool "physical transfer was already committed or cancelled"))
  raise (refuse ((s.stateAt live).phase ≠ plan.index) (.kvPool "physical transfer phase was already advanced"))
  raise (checkPhaseToken (s.stateAt live) plan.token)
  ioTransaction P cfg (submitNext P cfg plan live)

def releaseTemps (temps : List TempAllocation) : M W Unit :=
  forM temps fun temp => onWorld (P.release temp.1 temp.2.1 temp.2.2)

def firstArrival (phases : List PlanPhase) : ℚ := (phases.head?.map PlanPhase.arrivalNs).getD 0

def finalCompletion (phases : List PlanPhase) : ℚ := (phases.getLast?.map PlanPhase.completionNs).getD 0

/-- The event of a plan that ends. -/
def Plan.event (plan : Plan S) (binding : PageBinding) (cancelled : Bool) : TransferEvent :=
  { logicalPageId := plan.pageId
    cancelled
    sourceComponent := binding.componentId
    targetComponent := plan.targetComponent
    bytes := binding.bytes
    startNs := firstArrival plan.phases
    completionNs := finalCompletion plan.phases
    durationNs := finalCompletion plan.phases - firstArrival plan.phases
    phases := plan.phases }

def boundPage (bindings : Dict ℕ PageBinding) (pageId : ℕ) : Except Raised PageBinding :=
  match bindings.get? pageId with
  | none => .error (.other s!"KeyError: {pageId}")
  | some binding => .ok binding

/-- The release inside `_cancel_transfer_impl`, and its event. -/
def abandon (plan : Plan S) (live : ℕ) : M W TransferEvent := do
  onWorld (P.release plan.targetOwner plan.target.bufferId plan.targetGeneration)
  releaseTemps P plan.temps
  let t ← get
  let binding ← raise (boundPage t.bindings plan.pageId)
  modify fun t => { t with
    events := t.events ++ [plan.event binding true]
    counters := { t.counters with cancelledTransferCount := t.counters.cancelledTransferCount + 1 } }
  finishTransfer live plan.state
  return plan.event binding true

/-- `_cancel_transfer_impl`. -/
def cancelTransferImpl (plan : Plan S) : M W TransferEvent := do
  let live ← transferState plan.state
  let s ← get
  raise (refuse (s.stateAt live).done (.kvPool "physical transfer was already committed or cancelled"))
  raise (refuse ((s.stateAt live).phase ≠ plan.index) (.kvPool "cannot cancel using an earlier physical transfer phase"))
  raise (checkPhaseToken (s.stateAt live) plan.token)
  abandon P plan live

/-- `_cancel_transfer`. -/
def cancelTransfer (plan : Plan S) : M W TransferEvent :=
  finalizationTransaction P cfg plan.state (cancelTransferImpl P plan)

/-- The page at its new place. -/
def PageBinding.moved (binding : PageBinding) (plan : Plan S) : PageBinding :=
  { binding with
    componentId := plan.targetComponent
    owner := plan.targetOwner
    generation := plan.targetGeneration
    allocation := plan.target }

/-- The publication inside `_commit_transfer_impl`. -/
def publish (plan : Plan S) (live : ℕ) : M W Unit := do
  let s ← get
  let old ← raise (boundPage s.bindings plan.pageId)
  onWorld (P.release old.owner old.allocation.bufferId old.generation)
  modify fun s => { s with bindings := s.bindings.insert plan.pageId (old.moved plan) }
  releaseTemps P plan.temps
  modify fun s => { s with
    events := s.events ++ [plan.event old false]
    counters := { s.counters with transferCount := s.counters.transferCount + 1 } }
  finishTransfer live plan.state

/-- `_commit_transfer_impl`; it tells whether it published. -/
def commitTransferImpl (plan : Plan S) : M W Bool := do
  let live ← transferState plan.state
  let s ← get
  raise (refuse ((s.stateAt live).phase ≠ (s.stateAt live).phaseCount)
    (.kvPool "cannot commit before every physical transfer phase completes"))
  raise (checkPhaseToken (s.stateAt live) plan.token)
  if (s.stateAt live).done then return false else do
    publish P plan live
    return true

/-- `_commit_transfer`. -/
def commitTransfer (plan : Plan S) : M W Bool :=
  finalizationTransaction P cfg plan.state (commitTransferImpl P plan)

/-- The parts of the executor a rollback puts back. -/
def Plan.undo (plan : Plan S) (s : Executor W) : Executor W :=
  { s with
    world := P.restore plan.saved s.world
    bindings := plan.savedBindings
    counters := plan.savedCounters
    events := s.events.take plan.eventsLen
    costs := { s.costs with phases := s.costs.phases.take plan.costCount } }

/-- `_rollback_transfer`; it tells whether it undid anything. -/
def rollbackTransfer (plan : Plan S) : M W Bool := do
  let live ← transferState plan.state
  let s ← get
  if (s.stateAt live).done then return false else do
    raise (refuse ((s.stateAt live).phase ≠ 0) (.kvPool "only a just-prepared physical transfer can be rolled back"))
    raise (checkPhaseToken (s.stateAt live) plan.token)
    modify (plan.undo P)
    finishTransfer live plan.state
    return true

/-! ## Snapshots -/

structure Snapshot (S : Type) where
  runtime : S
  bindings : Dict ℕ PageBinding
  events : List TransferEvent
  counters : Counters
  costs : CostLedger
  asyncPlanStates : Dict ℕ PlanState

/-- `snapshot`. -/
def Executor.snapshot (s : Executor W) : Snapshot S :=
  { runtime := P.save s.world
    bindings := s.bindings
    events := s.events
    counters := s.counters
    costs := s.costs
    asyncPlanStates := s.copyStates }

/-- `restore`. -/
def Executor.restore (s : Executor W) (snap : Snapshot S) : Executor W :=
  let t := s.install snap.asyncPlanStates
  { t with
    world := P.restore snap.runtime s.world
    bindings := snap.bindings
    events := snap.events
    counters := snap.counters
    costs := snap.costs
    asyncRestoreEpoch := s.asyncRestoreEpoch + 1 }

end HeteroSim.Transfer
