/-
The executor that moves KV pages between memories: it prepares a move's
reservation and its physical work, and gives the caller a plan to carry on
with. The devices, the allocators, the links and the caches are a platform:
what they answer is theirs, and a saved copy of them can be put back.
-/
import HeteroSim.Raising
import HeteroSim.Transfer.Costs

namespace HeteroSim.Transfer

/-- What the executor raises: its own errors, and those of what it calls. -/
inductive Raised
  | kvPool (message : String)
  | other (message : String)
deriving DecidableEq

structure Allocation where
  bufferId : String
  generation : ℕ
  baseAddress : ℕ
  sizeBytes : ℕ
deriving DecidableEq

/-- `PhysicalAllocation.address`. -/
def Allocation.address (a : Allocation) (offset size : ℕ) : Except Raised ℕ :=
  if size = 0 then .error (.other "size_bytes must be a positive integer")
  else if a.sizeBytes < offset + size then
    .error (.other s!"access exceeds allocation {a.bufferId} (offset {offset} + length {size} > {a.sizeBytes})")
  else .ok (a.baseAddress + offset)

/-- A page and where it lies; `bind_page` admits no empty page. -/
structure PageBinding where
  pageId : ℕ
  requestId : String
  layerGroup : String
  componentId : String
  owner : String
  bytes : ℕ
  generation : ℕ
  allocation : Allocation
  bytes_pos : 0 < bytes

structure TransferRequest where
  logicalPageId : ℕ
  requestId : String
  sourceComponent : String
  targetComponent : String
  bytes : ℕ
  allocationGeneration : ℕ

inductive AccessKind
  | read
  | write
deriving DecidableEq

/-- What a device answers to an access: its times, and its other columns. -/
structure Bill where
  operation : String
  arrivalNs : ℚ
  startNs : Option ℚ
  completionNs : ℚ
  serviceNs : ℚ
  logicalBytes : ℕ
  resourceBusyNs : Dict String ℚ
  columns : Dict String Value

structure RouteHop where
  linkId : String
  resourceId : String
  serviceRef : Option String

/-- What the shared timeline answers to a hop. -/
structure LinkBill where
  startNs : ℚ
  endNs : ℚ
  columns : Dict String Value

structure BackingAccess where
  offsetBytes : ℕ
  sizeBytes : ℕ

/-- Devices, allocators, links and caches, with their state `W` and its saved copies `S`. -/
structure Platform (W S : Type) where
  save : W → S
  restore : S → W → W
  restore_save : ∀ w w', restore (save w) w' = w
  alignmentBytes : String → W → ℕ
  allocate : String → String → ℕ → ℕ → String → EStateM Raised W Allocation
  release : String → String → ℕ → EStateM Raised W Unit
  ownerCaches : String → W → List String
  flush : String → String → ℕ → EStateM Raised W (List BackingAccess)
  price : String → AccessKind → ℕ → ℕ → ℚ → EStateM Raised W Bill
  route : String → String → ℕ → Except Raised (List RouteHop)
  link : RouteHop → ℕ → ℚ → EStateM Raised W LinkBill

/-- A component's memory. -/
structure Service where
  physicalOwner : String
  memoryKind : String
  isNand : Bool
  writeBufferBytes : ℕ
  granularityBytes : ℕ
  granularity_pos : 0 < granularityBytes

/-- How the executor was made; a component without a memory has no service. -/
structure Config where
  poolNamespace : String
  components : Dict String (Option Service)
  relayComponents : List String
  arrivalNs : TransferRequest → Except Raised ℚ
  retainPhaseDetails : Bool

structure Counters where
  readBytes : ℕ
  writeBytes : ℕ
  linkBytes : ℕ
  relayBytes : ℕ
  transferCount : ℕ
  cancelledTransferCount : ℕ
  serviceNs : ℚ
  linkNs : ℚ
deriving DecidableEq

/-- A phase of a plan, as its bill and its event name it. -/
structure PlanPhase where
  kind : String
  component : Option String
  arrivalNs : ℚ
  completionNs : ℚ
deriving DecidableEq

structure TransferEvent where
  logicalPageId : ℕ
  cancelled : Bool
  sourceComponent : String
  targetComponent : String
  bytes : ℕ
  startNs : ℚ
  completionNs : ℚ
  durationNs : ℚ
  phases : List PlanPhase
deriving DecidableEq

/-- The state of a plan: an entry of `_async_plan_states`, or what a callback holds. -/
structure PlanState where
  planId : ℕ
  phase : ℕ
  phaseCount : ℕ
  phaseToken : ℕ
  done : Bool
  terminalEpoch : Option ℕ
deriving DecidableEq

structure Executor (W : Type) where
  world : W
  bindings : Dict ℕ PageBinding
  events : List TransferEvent
  counters : Counters
  costs : CostLedger
  /-- The plan states that exist, each at its place; callbacks and the table refer to them. -/
  heap : List PlanState
  plans : Dict ℕ ℕ
  nextAsyncPlanId : ℕ
  nextAsyncPhaseToken : ℕ
  asyncRestoreEpoch : ℕ

abbrev M (W : Type) := EStateM Raised (Executor W)

variable {W S : Type} (P : Platform W S) (cfg : Config)

/-- A call of the platform. -/
def onWorld {α : Type} (m : EStateM Raised W α) : M W α := fun s =>
  match m s.world with
  | .ok a w => .ok a { s with world := w }
  | .error e w => .error e { s with world := w }

/-! ## Pricing -/

/-- `_ensure_service`, every memory having been resolved at construction. -/
def ensureService (componentId : String) : Except Raised Service :=
  match cfg.components.get? componentId with
  | none => .error (.kvPool s!"unknown physical component {componentId}")
  | some none => .error (.kvPool s!"component {componentId} requires physical_memory_config")
  | some (some service) => .ok service

def roundUp (payload alignment : ℕ) : ℕ := (payload + alignment - 1) / alignment * alignment

/-- `allocation_bytes`. -/
def allocationBytes (componentId : String) (payload : ℕ) : M W ℕ := do
  let service ← raise (ensureService cfg componentId)
  let s ← get
  return roundUp payload (P.alignmentBytes service.physicalOwner s.world)

def retainCostPhase (phase : CostPhase) : M W Unit :=
  modify fun s => { s with costs := s.costs.retain cfg.retainPhaseDetails phase }

/-- `_record_memory_cost`. -/
def recordMemoryCost (componentId : String) (service : Service) (kind : AccessKind) (bill : Bill) : M W Unit := do
  let s ← get
  retainCostPhase cfg
    { phaseId := s!"paged-kv-physical-{s.costs.count cfg.retainPhaseDetails}"
      kind := "memory"
      owner := service.physicalOwner
      componentId
      operation := bill.operation
      arrivalNs := bill.arrivalNs
      startNs := bill.startNs
      completionNs := bill.completionNs
      columns := (((bill.columns.insert "logical_read_bytes"
          (.number (if kind = .read then bill.logicalBytes else 0))).insert "logical_write_bytes"
          (.number (if kind = .write then bill.logicalBytes else 0))).insert "resource_busy_ns"
          (.amounts bill.resourceBusyNs)).insert "resource_owners"
          (.labels (bill.resourceBusyNs.mapValues fun _ => service.physicalOwner)) }

/-- The largest transaction of a write: zero where nothing limits it. -/
def Service.limit (service : Service) (kind : AccessKind) : ℕ :=
  if service.isNand ∧ kind = .write then service.writeBufferBytes else 0

def Service.chunk (service : Service) (kind : AccessKind) (size : ℕ) : ℕ :=
  let limit := service.limit kind
  let chunk := if 0 < limit then min size limit else size
  max 1 (if 0 < limit then max service.granularityBytes (chunk / service.granularityBytes * service.granularityBytes)
    else chunk)

/-- The next transaction's size: one that starts inside a granule ends at a granule's end. -/
def Service.amount (service : Service) (kind : AccessKind) (address size offset : ℕ) : ℕ :=
  let chunk := service.chunk kind size
  let amount := min chunk (size - offset)
  if 0 < service.limit kind then min amount (chunk - (address + offset) % service.granularityBytes) else amount

/-- The loop of `_price_chunks`; every transaction moves on, so `size` rounds are enough. -/
def priceFrom (componentId : String) (service : Service) (kind : AccessKind) (address size : ℕ) :
    ℕ → ℕ → ℚ → M W (List Bill)
  | 0, _, _ => pure []
  | fuel + 1, offset, current =>
    if size ≤ offset then pure [] else do
      let bill ← onWorld (P.price componentId kind (service.amount kind address size offset) (address + offset) current)
      recordMemoryCost cfg componentId service kind bill
      let rest ← priceFrom componentId service kind address size fuel
        (offset + service.amount kind address size offset) bill.completionNs
      return bill :: rest

def chargeAccess (kind : AccessKind) (size : ℕ) (bills : List Bill) (c : Counters) : Counters :=
  { c with
    readBytes := if kind = .read then c.readBytes + size else c.readBytes
    writeBytes := if kind = .write then c.writeBytes + size else c.writeBytes
    serviceNs := c.serviceNs + (bills.map Bill.serviceNs).sum }

/-- `_price_chunks`. -/
def priceChunks (componentId : String) (kind : AccessKind) (address size : ℕ) (arrivalNs : ℚ) : M W (List Bill) := do
  let service ← raise (ensureService cfg componentId)
  raise (refuse (0 < service.limit kind ∧ service.limit kind < service.granularityBytes)
    (.kvPool "write buffer is smaller than one host transaction granularity"))
  let bills ← priceFrom P cfg componentId service kind address size size 0 arrivalNs
  modify fun s => { s with counters := chargeAccess kind size bills s.counters }
  return bills

def lastCompletion (bills : List Bill) (default : ℚ) : ℚ := (bills.getLast?.map Bill.completionNs).getD default

def phasesOf (kind : String) (component : Option String) (bills : List Bill) : List PlanPhase :=
  bills.map fun bill => { kind, component, arrivalNs := bill.arrivalNs, completionNs := bill.completionNs }

/-- `_submit_link_phase`. -/
def submitLinkPhase (hop : RouteHop) (size : ℕ) (arrivalNs : ℚ) : M W PlanPhase := do
  let bill ← onWorld (P.link hop size arrivalNs)
  let s ← get
  retainCostPhase cfg
    { phaseId := s!"paged-kv-physical-{s.costs.count cfg.retainPhaseDetails}"
      kind := "link"
      owner := hop.linkId
      componentId := ""
      operation := "copy"
      arrivalNs
      startNs := some bill.startNs
      completionNs := bill.endNs
      columns := bill.columns }
  modify fun s => { s with counters := { s.counters with
    linkBytes := s.counters.linkBytes + size
    linkNs := s.counters.linkNs + (bill.endNs - bill.startNs) } }
  return { kind := "link", component := none, arrivalNs, completionNs := bill.endNs }

/-- The hops of `_link_segment`; one that is a memory's own view is its memory's to bill. -/
def linkHops (size : ℕ) : List RouteHop → ℚ → M W (ℚ × List PlanPhase)
  | [], current => pure (current, [])
  | hop :: hops, current =>
    if hop.serviceRef.getD "" ≠ "" then linkHops size hops current else do
      let phase ← submitLinkPhase P cfg hop size current
      let rest ← linkHops size hops phase.completionNs
      return (rest.1, phase :: rest.2)

/-- `_route`: nothing to do within a component. -/
def route (source target : String) (size : ℕ) : Except Raised (List RouteHop) :=
  if source = target then .ok [] else P.route source target size

/-- `_link_segment`. -/
def linkSegment (source target : String) (size : ℕ) (arrivalNs : ℚ) : M W (ℚ × List PlanPhase) := do
  let hops ← raise (route P source target size)
  linkHops P cfg size hops arrivalNs

/-- The dirty ranges of one cache, written back. -/
def flushAccesses (binding : PageBinding) : List BackingAccess → ℚ → M W (ℚ × List PlanPhase)
  | [], current => pure (current, [])
  | access :: accesses, current => do
    let address ← raise (binding.allocation.address access.offsetBytes access.sizeBytes)
    let bills ← priceChunks P cfg binding.componentId .write address access.sizeBytes current
    let rest ← flushAccesses binding accesses (lastCompletion bills current)
    return (rest.1, phasesOf "source_cache_writeback" none bills ++ rest.2)

def flushCaches (binding : PageBinding) : List String → ℚ → M W (ℚ × List PlanPhase)
  | [], current => pure (current, [])
  | cache :: caches, current => do
    let accesses ← onWorld (P.flush cache binding.allocation.bufferId binding.generation)
    let done ← flushAccesses P cfg binding accesses current
    let rest ← flushCaches binding caches done.1
    return (rest.1, done.2 ++ rest.2)

/-- `_flush_source_caches`. -/
def flushSourceCaches (binding : PageBinding) (arrivalNs : ℚ) : M W (ℚ × List PlanPhase) := do
  let s ← get
  flushCaches P cfg binding (P.ownerCaches binding.owner s.world) arrivalNs

/-! ## Preparing -/

/-- A workspace buffer of a relay: owner, buffer, generation. -/
abbrev TempAllocation := String × String × ℕ

/-- The memory phases behind the source read. -/
inductive Stage
  | relayWrite
  | relayRead
  | targetWrite
deriving DecidableEq

def Stage.kind : Stage → String
  | .relayWrite => "relay_write"
  | .relayRead => "relay_read"
  | .targetWrite => "target_write"

/-- `startswith("relay_")`. -/
def Stage.isRelay : Stage → Bool
  | .targetWrite => false
  | _ => true

/-- What is still to be submitted for a plan. -/
inductive Downstream
  | link (hop : RouteHop)
  | access (stage : Stage) (component : String) (address : ℕ) (operation : AccessKind)

def bufferId (request : TransferRequest) : String := s!"{cfg.poolNamespace}:{request.requestId}:page:{request.logicalPageId}"

/-- The checks of `_transfer`. -/
def checkTransfer (bindings : Dict ℕ PageBinding) (request : TransferRequest) : Except Raised PageBinding :=
  match bindings.get? request.logicalPageId with
  | none => .error (.kvPool s!"KV page {request.logicalPageId} is not physically bound")
  | some binding =>
    if binding.componentId ≠ request.sourceComponent ∨ binding.bytes ≠ request.bytes then
      .error (.kvPool "transfer request does not match the bound source page")
    else if request.allocationGeneration ≠ binding.generation then
      .error (.kvPool "transfer request generation does not match bound page")
    else if request.targetComponent ∉ cfg.components.keys then
      .error (.kvPool s!"unknown transfer target {request.targetComponent}")
    else .ok binding

/-- The checks of `prepare_async`. -/
def checkAsync (bindings : Dict ℕ PageBinding) (request : TransferRequest) : Except Raised PageBinding :=
  match bindings.get? request.logicalPageId with
  | none => .error (.kvPool "asynchronous transfer does not match the bound source page")
  | some binding =>
    if binding.componentId ≠ request.sourceComponent ∨ binding.bytes ≠ request.bytes ∨
        binding.generation ≠ request.allocationGeneration then
      .error (.kvPool "asynchronous transfer does not match the bound source page")
    else .ok binding

/-- The target's allocation, in its resident arena. -/
def allocateTarget (request : TransferRequest) (binding : PageBinding) (owner : String) : M W Allocation := do
  let size ← allocationBytes P cfg request.targetComponent binding.bytes
  onWorld (P.allocate owner (bufferId cfg request) size (binding.generation + 1) "resident")

/-- A relay's workspace: its owner and its allocation. -/
def allocateRelay (request : TransferRequest) (binding : PageBinding) (component : String) : M W (String × Allocation) := do
  let service ← raise (ensureService cfg component)
  let size ← allocationBytes P cfg component binding.bytes
  let allocation ← onWorld (P.allocate service.physicalOwner (bufferId cfg request ++ ":relay:" ++ component) size
    (binding.generation + 1) "workspace")
  return (service.physicalOwner, allocation)

/-- The relays of `_transfer`, each written and read again: where and when it ends, the phases and the buffers. -/
def transferRelays (request : TransferRequest) (binding : PageBinding) :
    List String → String → ℚ → M W ((String × ℚ) × List PlanPhase × List TempAllocation)
  | [], component, current => pure ((component, current), [], [])
  | stage :: stages, component, current => do
    let linked ← linkSegment P cfg component stage binding.bytes current
    let relay ← allocateRelay P cfg request binding stage
    let written ← priceChunks P cfg stage .write relay.2.baseAddress binding.bytes linked.1
    let read ← priceChunks P cfg stage .read relay.2.baseAddress binding.bytes (lastCompletion written linked.1)
    modify fun s => { s with counters := { s.counters with relayBytes := s.counters.relayBytes + 2 * binding.bytes } }
    let rest ← transferRelays request binding stages stage (lastCompletion read (lastCompletion written linked.1))
    return (rest.1,
      linked.2 ++ phasesOf "relay_write" (some stage) written ++ phasesOf "relay_read" (some stage) read ++ rest.2.1,
      (relay.1, relay.2.bufferId, binding.generation + 1) :: rest.2.2)

/-- What the physical part of a preparation leaves to the plan. -/
structure Reserved where
  target : Allocation
  temps : List TempAllocation
  downstream : List Downstream
  phases : List PlanPhase
  completionNs : ℚ

/-- The `try` block of `_transfer`. -/
def transferBody (request : TransferRequest) (binding : PageBinding) (owner : String) (start : ℚ) : M W Reserved := do
  let target ← allocateTarget P cfg request binding owner
  let flushed ← flushSourceCaches P cfg binding start
  let read ← priceChunks P cfg binding.componentId .read binding.allocation.baseAddress binding.bytes flushed.1
  let relayed ← transferRelays P cfg request binding cfg.relayComponents binding.componentId (lastCompletion read start)
  let linked ← linkSegment P cfg relayed.1.1 request.targetComponent binding.bytes relayed.1.2
  let written ← priceChunks P cfg request.targetComponent .write target.baseAddress binding.bytes linked.1
  return { target
           temps := relayed.2.2
           downstream := []
           phases := flushed.2 ++ phasesOf "source_read" none read ++ relayed.2.1 ++ linked.2 ++
             phasesOf "target_write" none written
           completionNs := lastCompletion written linked.1 }

def linksOf (hops : List RouteHop) : List Downstream :=
  (hops.filter fun hop => hop.serviceRef.getD "" = "").map .link

/-- The stages of `prepare_async`: every route and every relay's buffer, before any access. -/
def downstreamStages (request : TransferRequest) (binding : PageBinding) (target : Allocation) :
    List String → String → M W (List Downstream × List TempAllocation)
  | [], source => do
    let hops ← raise (route P source request.targetComponent binding.bytes)
    return (linksOf hops ++ [.access .targetWrite request.targetComponent target.baseAddress .write], [])
  | component :: components, source => do
    let hops ← raise (route P source component binding.bytes)
    let relay ← allocateRelay P cfg request binding component
    let rest ← downstreamStages request binding target components component
    return (linksOf hops ++ [.access .relayWrite component relay.2.baseAddress .write,
        .access .relayRead component relay.2.baseAddress .read] ++ rest.1,
      (relay.1, relay.2.bufferId, binding.generation + 1) :: rest.2)

/-- The `try` block of `prepare_async`. -/
def asyncBody (request : TransferRequest) (binding : PageBinding) (owner : String) (start : ℚ) : M W Reserved := do
  let target ← allocateTarget P cfg request binding owner
  let stages ← downstreamStages P cfg request binding target cfg.relayComponents binding.componentId
  let flushed ← flushSourceCaches P cfg binding start
  let read ← priceChunks P cfg binding.componentId .read binding.allocation.baseAddress binding.bytes flushed.1
  return { target
           temps := stages.2
           downstream := stages.1
           phases := flushed.2 ++ phasesOf "source_read" none read
           completionNs := lastCompletion read start }

end HeteroSim.Transfer
