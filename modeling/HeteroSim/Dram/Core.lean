/-
A DRAM core with bank-group timing (`DramCore`, `dram_core.py`) in analytical
mode: the burst loop of `_execute_accepted` over its banks, its group
histories and the calendar of its resources. The compiled paths decline while
a group gap is enabled.
-/
import HeteroSim.Dram.Activate
import HeteroSim.Task.Requests
import HeteroSim.Timeline.Lanes

namespace HeteroSim.Dram

open HeteroSim.Address HeteroSim.Task HeteroSim.Timeline

/-! ## Configuration -/

/-- What the core reads of `DramConfig`. -/
structure CoreConfig extends ActivateTiming where
  geometry : DramConfig
  openNs : ℚ
  closeNs : ℚ
  readLatencyNs : ℚ
  writeLatencyNs : ℚ
  burstIntervalNs : ℚ
  readRecoveryNs : ℚ
  writeRecoveryNs : ℚ
  readToWriteNs : ℚ
  writeToReadNs : ℚ
  columnSameGroupNs : ℚ
  columnDifferentGroupNs : ℚ
  writeToReadSameGroupNs : ℚ
  writeToReadDifferentGroupNs : ℚ
  /-- `directional_lane_bandwidth_gb_s` -/
  laneBandwidth : Operation → ℚ
  maxExpandedSegments : ℕ
  bankResourcePrefix : String
  dataResourcePrefix : String
  commandResourcePrefix : String
  sharedCommandResource : Option String
  captureDetails : Bool
  /-- `math.isfinite` -/
  finite : ℚ → Bool

/-- `bank_group_timing_enabled` -/
def CoreConfig.bankGroupTimingEnabled (c : CoreConfig) : Bool :=
  decide (0 < c.columnSameGroupNs ∨ 0 < c.columnDifferentGroupNs ∨ 0 < c.activateSameGroupNs ∨
    0 < c.activateDifferentGroupNs ∨ 0 < c.fourActivateWindowNs ∨ 0 < c.writeToReadSameGroupNs ∨
    0 < c.writeToReadDifferentGroupNs)

/-! ## State -/

/-- `_BankState` -/
structure BankState where
  openRow : Option ℕ := none
  readyNs : ℚ := 0
  activationReadyNs : ℚ := 0

/-- A history of `_bank_group_state`. -/
structure GroupHistory where
  readColumns : Dict ℕ ℚ := .empty
  writeColumns : Dict ℕ ℚ := .empty
  activate : Dict ℕ ℚ := .empty
  activateWindow : List ℚ := []
  writeEnd : Dict ℕ ℚ := .empty

/-- Stack, die, lane and rank. -/
abbrev Scope := ℕ × ℕ × ℕ × ℕ

def scopeOf (m : AddressMapping) : Scope := (m.stack, m.die, m.lane, m.rank)

/-- `DramCore`; `activations` are the starts of all its ACTs, the last first,
kept for the statements only. -/
structure DramCore where
  timeline : ResourceTimeline
  banks : Dict String BankState
  bankGroupState : Dict Scope GroupHistory
  activations : List (Scope × ℚ)

abbrev DramM := EStateM String DramCore

namespace DramCore

def bank (core : DramCore) (bankId : String) : BankState := (core.banks.get? bankId).getD {}

def setBank (bankId : String) (bank : BankState) (core : DramCore) : DramCore :=
  { core with banks := core.banks.insert bankId bank }

/-- `_bank_group_history` -/
def history (core : DramCore) (scope : Scope) : GroupHistory := (core.bankGroupState.get? scope).getD {}

def setHistory (scope : Scope) (history : GroupHistory) (core : DramCore) : DramCore :=
  { core with bankGroupState := core.bankGroupState.insert scope history }

end DramCore

/-- A call on the core's timeline. -/
def onTimeline {α : Type} (m : TimelineM α) : DramM α := fun core =>
  match m core.timeline with
  | .ok a tl => .ok a { core with timeline := tl }
  | .error e tl => .error e { core with timeline := tl }

/-- `StageTiming` -/
structure StageTiming where
  name : String
  start : ℚ
  stop : ℚ
  resourceId : String
  byteCount : ℕ := 0

section

variable (c : CoreConfig)

/-! ## Resources -/

/-- `_bank_id` -/
def bankId (m : AddressMapping) : String :=
  s!"{c.bankResourcePrefix}:{m.stack}:{m.die}:{m.lane}:{m.rank}:{m.bankGroup}:{m.bank}"

/-- `_data_id` -/
def dataId (m : AddressMapping) (tl : ResourceTimeline) : Except String String :=
  canonicalResourceId tl s!"{c.dataResourcePrefix}:{m.lane}"

/-- `_command_id` -/
def commandId (m : AddressMapping) (tl : ResourceTimeline) : Except String String :=
  let shared := c.sharedCommandResource.getD ""
  canonicalResourceId tl (if shared = "" then s!"{c.commandResourcePrefix}:{m.lane}" else shared)

def reserveOn (resourceId : String) (earliest duration : ℚ) : DramM Transfer :=
  onTimeline (reserve c.finite resourceId earliest duration none 0)

/-! ## Opening a row -/

/-- The open row is closed first. -/
def precharge (bankId : String) (bank : BankState) (dependency : ℚ) : DramM (List StageTiming × ℚ) :=
  if bank.openRow = none then pure ([], dependency)
  else do
    let pre ← reserveOn c bankId (max dependency bank.readyNs) c.closeNs
    pure ([⟨"PRECHARGE", pre.start, pre.stop, pre.resourceId, 0⟩], pre.stop)

/-- The rounds of the loop never run out. -/
def settled (ready : Option (ℚ × List ℚ)) : Except String (ℚ × List ℚ) :=
  match ready with
  | none => .error "the loop has not ended"
  | some found => .ok found

/-- When the ACT may start: the bank is available, the gaps are kept, and the
calendar of windows allows it. -/
def activateReady (m : AddressMapping) (bankId : String) (actReady arrival : ℚ) : DramM ℚ :=
  if c.bankGroupTimingEnabled then do
    let core ← get
    let available ← raise (availableNs core.timeline bankId)
    let history := core.history (scopeOf m)
    let found ← raise (settled (bankGroupActivateReady c.toActivateTiming history.activate history.activateWindow
      m.bankGroup (max actReady available) arrival none))
    modify (DramCore.setHistory (scopeOf m) { history with activateWindow := found.2 })
    pure found.1
  else pure actReady

/-- An entry of a history only moves on. -/
def raiseEntry (history : Dict ℕ ℚ) (group : ℕ) (time : ℚ) : Dict ℕ ℚ :=
  history.insert group (max ((history.get? group).getD 0) time)

/-- The ACT goes to the histories of its scope. -/
def recordActivate (m : AddressMapping) (start : ℚ) (core : DramCore) : DramCore :=
  let history := core.history (scopeOf m)
  let activate := raiseEntry history.activate m.bankGroup start
  let window := if 0 < c.fourActivateWindowNs then insort history.activateWindow start else history.activateWindow
  let core := if c.bankGroupTimingEnabled then
    core.setHistory (scopeOf m) { history with activate := activate, activateWindow := window } else core
  { core with activations := (scopeOf m, start) :: core.activations }

/-- The bank's row is opened. -/
def activate (m : AddressMapping) (bankId : String) (bank : BankState) (dependency arrival : ℚ) : DramM (List StageTiming × ℚ) := do
  let ready ← activateReady c m bankId (max dependency bank.readyNs) arrival
  let act ← reserveOn c bankId ready c.openNs
  modify (recordActivate c m act.start)
  modify (DramCore.setBank bankId ⟨some m.row, act.stop, act.stop⟩)
  pure ([⟨"ACTIVATE", act.start, act.stop, act.resourceId, 0⟩], act.stop)

/-- A row miss or conflict opens the row. -/
def openRow (m : AddressMapping) (bankId : String) (bank : BankState) (dependency arrival : ℚ) : DramM (List StageTiming × ℚ) :=
  if bank.openRow = some m.row then pure ([], dependency)
  else do
    let closed ← precharge c bankId bank dependency
    let opened ← activate c m bankId bank closed.2 arrival
    pure (closed.1 ++ opened.1, opened.2)

/-! ## Column commands -/

def GroupHistory.columns (h : GroupHistory) (operation : Operation) : Dict ℕ ℚ :=
  if operation = .read then h.readColumns else h.writeColumns

/-- `_bank_group_column_ready` -/
def bankGroupColumnReady (h : GroupHistory) (group : ℕ) (operation : Operation) (earliest : ℚ) : ℚ :=
  let earliest := groupHistoryReady (h.columns operation) group c.columnSameGroupNs c.columnDifferentGroupNs earliest none
  if operation = .read then
    groupHistoryReady h.writeEnd group c.writeToReadSameGroupNs c.writeToReadDifferentGroupNs earliest none
  else earliest

def recordColumn (m : AddressMapping) (operation : Operation) (start : ℚ) (core : DramCore) : DramCore :=
  if c.bankGroupTimingEnabled then
    let history := core.history (scopeOf m)
    let columns := raiseEntry (history.columns operation) m.bankGroup start
    core.setHistory (scopeOf m)
      (if operation = .read then { history with readColumns := columns } else { history with writeColumns := columns })
  else core

def recordWriteEnd (m : AddressMapping) (operation : Operation) (stop : ℚ) (core : DramCore) : DramCore :=
  if c.bankGroupTimingEnabled ∧ operation = .write then
    let history := core.history (scopeOf m)
    core.setHistory (scopeOf m) { history with writeEnd := raiseEntry history.writeEnd m.bankGroup stop }
  else core

/-- The recovery gates the bank's next PRE or ACT. -/
def recover (bankId : String) (ready : ℚ) (core : DramCore) : DramCore :=
  core.setBank bankId { core.bank bankId with readyNs := max (core.bank bankId).readyNs ready }

/-- The column command and the transfer of its burst; the completion comes
with their stages. -/
def column (m : AddressMapping) (bankId : String) (operation : Operation) (bytes : ℕ) (dependency : ℚ) :
    DramM (List StageTiming × ℚ) := do
  let core ← get
  let dependency := if c.bankGroupTimingEnabled then
    bankGroupColumnReady c (core.history (scopeOf m)) m.bankGroup operation dependency else dependency
  let commandId ← raise (commandId c m core.timeline)
  let command ← reserveOn c commandId dependency c.burstIntervalNs
  modify (recordColumn c m operation command.start)
  let read := operation = .read
  let dataReady := command.start + (if read then c.readLatencyNs else c.writeLatencyNs)
  let dataId ← raise (dataId c m core.timeline)
  let transfer ← onTimeline (transfer c.finite dataId bytes dataReady (c.laneBandwidth operation)
    (some (if read then "read" else "write")) (if read then c.writeToReadNs else c.readToWriteNs))
  modify (recordWriteEnd c m operation transfer.stop)
  let recovery := if read then c.readRecoveryNs else c.writeRecoveryNs
  modify (recover bankId (transfer.stop + recovery))
  pure ([⟨"COMMAND_RESERVATION", command.start, command.stop, commandId, 0⟩,
    ⟨if read then "READ_PIPELINE" else "WRITE_PIPELINE", command.start, dataReady, commandId, 0⟩,
    ⟨"BURST_TRANSFER", transfer.start, transfer.stop, dataId, bytes⟩],
    transfer.stop + (if operation = .write then recovery else 0))

/-! ## Requests -/

/-- `TransactionResult` while the bursts are executed. -/
structure Progress where
  completion : ℚ
  segments : ℕ := 0
  logicalBytes : ℕ := 0
  transferBytes : ℕ := 0
  rowHits : ℕ := 0
  rowMisses : ℕ := 0
  rowConflicts : ℕ := 0
  detailsTruncated : Bool := false
  stages : List StageTiming := []
  mappings : List AddressMapping := []

/-- The details of a burst are kept while they are captured and not too many. -/
def Progress.detail (p : Progress) (m : AddressMapping) (stages : List StageTiming) : Progress :=
  let truncated := decide (c.maxExpandedSegments < p.segments + 1) || p.detailsTruncated
  if truncated then { p with detailsTruncated := true, stages := [], mappings := [] }
  else if c.captureDetails then { p with stages := p.stages ++ stages, mappings := p.mappings ++ [m] }
  else p

/-- One burst of the request, at the `burst`th burst of the address space. -/
def executeBurst (r : AccessRequest) (p : Progress) (burst : ℕ) : DramM Progress := do
  let start := burst * c.geometry.burstBytes
  let m ← raise (mapDramAddress c.geometry start)
  let id := bankId c m
  let core ← get
  let bank := core.bank id
  let opened ← openRow c m id bank (max r.arrival bank.activationReadyNs) r.arrival
  let done ← column c m id r.operation c.geometry.burstBytes opened.2
  let p := p.detail c m (opened.1 ++ done.1)
  pure { p with
    completion := max p.completion done.2
    segments := p.segments + 1
    logicalBytes := p.logicalBytes + (min r.stop (start + c.geometry.burstBytes) - max r.address start)
    transferBytes := p.transferBytes + c.geometry.burstBytes
    rowHits := p.rowHits + if bank.openRow = some m.row then 1 else 0
    rowMisses := p.rowMisses + if bank.openRow = none then 1 else 0
    rowConflicts := p.rowConflicts + if bank.openRow ≠ none ∧ bank.openRow ≠ some m.row then 1 else 0 }

/-- `_execute_accepted` of a request that arrives when it is admitted. -/
def executeAccepted (r : AccessRequest) : DramM Progress := do
  raise (validateDramRequest r c.geometry)
  let first := r.address / c.geometry.burstBytes
  let last := (r.stop - 1) / c.geometry.burstBytes
  (List.range' first (last + 1 - first)).foldlM (executeBurst c r) { completion := r.arrival }

/-- The core after the requests, each returned or raised. -/
def run (core : DramCore) (requests : List AccessRequest) : DramCore :=
  requests.foldl (fun core r => after (executeAccepted c r) core) core

end

/-- A core over a timeline. -/
def DramCore.new (timeline : ResourceTimeline) : DramCore := ⟨timeline, .empty, .empty, []⟩

end HeteroSim.Dram
