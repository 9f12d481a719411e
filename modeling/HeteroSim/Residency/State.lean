/-
Residency of allocations in one physical pool: which bytes of an allocation
are in the pool, which of them are dirty and when each was last accessed, the
views and the leases on them, and the record of what moved.
-/
import HeteroSim.Collect
import HeteroSim.Raising
import HeteroSim.Stamps
import HeteroSim.Tally
import HeteroSim.Text

namespace HeteroSim.Residency

/-- The manager's errors, by their classes. -/
inductive Raised
  | validation (message : String)
  | capacityExceeded (message : String)
  | notFound (message : String)
  | residency (message : String)
deriving DecidableEq

inductive AllocationLifecycle
  | persistent
  | temporary
  | system
  | released
deriving DecidableEq

inductive AccessOperation
  | touch
  | read
  | write
deriving DecidableEq

inductive MigrationKind
  | pageIn
  | cleanDiscard
  | dirtyWriteback
deriving DecidableEq

/-- `_integer` -/
def integer (name : String) (value minimum : Int) : Except Raised Int :=
  if value < minimum then .error (.validation s!"{name} must be an integer >= {minimum}") else .ok value

structure PhysicalPool where
  componentId : String
  capacityBytes : Int
  pageSizeBytes : Int
  residentBytes : Int
  peakResidentBytes : Int
  capacity_nonneg : 0 ≤ capacityBytes
  page_pos : 1 ≤ pageSizeBytes

/-- `PhysicalPool.__post_init__` -/
def PhysicalPool.new (componentId : String) (capacityBytes pageSizeBytes : Int) : Except Raised PhysicalPool :=
  if strip componentId = "" then .error (.validation "component_id must not be empty") else
    if hc : 0 ≤ capacityBytes then
      if hp : 1 ≤ pageSizeBytes then .ok ⟨strip componentId, capacityBytes, pageSizeBytes, 0, 0, hc, hp⟩
      else .error (.validation "page_size_bytes must be an integer >= 1")
    else .error (.validation "capacity_bytes must be an integer >= 0")

/-! ## Backing units -/

def ceilDiv (value divisor : Int) : Int := if value ≤ 0 then 0 else (value + divisor - 1) / divisor

/-- `_is_backing_unit_boundary` -/
def Boundary (committed granule offset : Int) : Prop :=
  (0 ≤ offset ∧ offset ≤ committed) ∧ (offset = committed ∨ offset % granule = 0)

instance (committed granule offset : Int) : Decidable (Boundary committed granule offset) := inferInstanceAs (Decidable (_ ∧ _))

/-- `_ensure_backing_unit_ranges` -/
def ensureBackingUnitRanges (label : String) (ranges : List Gap) (committed granule : Int) : Except Raised Unit := do
  let _ ← integer "committed_bytes" committed 0
  let _ ← integer "residency_granule_bytes" granule 1
  ranges.forM fun g =>
    refuse (g.lo < g.hi ∧ ¬(Boundary committed granule g.lo ∧ Boundary committed granule g.hi))
      (.residency s!"{label} cuts through allocation backing granule")

/-- `_prefix_backing_unit_ranges` -/
def prefixBackingUnitRanges (committed granule byteCount : Int) : List Gap :=
  if byteCount ≤ 0 then [] else [Gap.mk 0 (min committed (ceilDiv byteCount granule * granule))]

/-- `_backing_unit_prefix_for_bytes` -/
def backingUnitPrefixForBytes (g : Gap) (granule byteCount : Int) : Option Gap :=
  if byteCount ≤ 0 ∨ g.hi ≤ g.lo then none
  else some (Gap.mk g.lo (min g.hi (g.lo + ceilDiv byteCount granule * granule)))

/-- The units of one range from a cursor on; each is at least a byte. -/
def unitsFrom (committed granule stop : Int) : ℕ → Int → Except Raised (List Gap)
  | 0, _ => .ok []
  | bytes + 1, cursor =>
    if cursor < stop then
      let unitEnd := min committed (cursor + granule)
      if unitEnd ≤ cursor ∨ stop < unitEnd then .error (.residency "backing unit iteration escaped selected range")
      else (unitsFrom committed granule stop bytes unitEnd).map (Gap.mk cursor unitEnd :: ·)
    else .ok []

/-- `_iter_backing_unit_ranges` -/
def iterBackingUnitRanges (committed granule : Int) (ranges : List Gap) : Except Raised (List Gap) := do
  ensureBackingUnitRanges "backing unit range" ranges committed granule
  (normalizeRanges ranges).foldlM (fun units g =>
    (unitsFrom committed granule g.hi (g.hi - g.lo).toNat g.lo).map (units ++ ·)) []

/-! ## Consumers of released leases -/

/-- A range a consumer's released lease covered. -/
structure Anchor where
  range : Gap
  taskId : String
deriving DecidableEq

/-- `_retain_consumer_range` -/
def retainConsumerRange (anchors : List Anchor) (g : Gap) (taskId : String) : List Anchor :=
  if g.hi ≤ g.lo then anchors else
    match anchors.getLast? with
    | none => anchors ++ [⟨g, taskId⟩]
    | some last =>
      if last.taskId = taskId ∧ g.lo ≤ last.range.hi ∧ last.range.lo ≤ g.hi then
        anchors.dropLast ++ [⟨Gap.mk (min g.lo last.range.lo) (max g.hi last.range.hi), taskId⟩]
      else anchors ++ [⟨g, taskId⟩]

/-! ## Records -/

structure Allocation where
  allocationId : String
  physicalOwner : String
  sizeBytes : Int
  backing : Option String
  kind : String
  committedBytes : Int
  evictable : Bool
  pinned : Bool
  lifecycle : AllocationLifecycle
  readOnly : Bool
  lastAccess : ℕ
  residencyGranuleBytes : Int
  residentBytes : Int
  dirty : Bool
  registrationOrder : ℕ
  residentRanges : List Gap
  dirtyRanges : List Gap
  residentRecencyRanges : List Stamp

def Allocation.dirtyBytes (a : Allocation) : Int := totalLength a.dirtyRanges

/-- `_sync_derived_state` -/
def Allocation.syncDerivedState (a : Allocation) : Allocation :=
  let resident := normalizeRanges a.residentRanges
  let dirty := intersectRanges (normalizeRanges a.dirtyRanges) resident
  { a with
    residentRanges := resident
    dirtyRanges := dirty
    residentBytes := totalLength resident
    dirty := dirty ≠ [] }

/-- `_refresh_recency`, of the allocation. -/
def Allocation.refreshRecency (a : Allocation) (ranges : List Gap) (sequence : ℕ) : Except Raised Allocation := do
  let normalized := normalizeRanges ranges
  if normalized = [] then return a
  ensureBackingUnitRanges "allocation recency refresh" normalized a.committedBytes a.residencyGranuleBytes
  refuse (intersectRanges normalized a.residentRanges ≠ normalized)
    (.residency s!"cannot refresh non-resident bytes for {a.allocationId}")
  let refreshed :=
    match normalized with
    | [g] =>
      let spliced := spliceStamp g sequence false a.residentRecencyRanges
      if a.residentRecencyRanges.any fun r => r.seq = sequence then mergeStamps spliced else some spliced
    | _ => (subtractStamps a.residentRecencyRanges normalized).bind fun retained =>
      mergeStamps (retained ++ normalized.map (Stamp.mk · sequence))
  refreshed.elim (.error (.residency "overlapping allocation recency ranges")) fun recency =>
    .ok { a with residentRecencyRanges := recency }

structure AllocationView where
  viewId : String
  ownerId : String
  offsetBytes : Int
  sizeBytes : Int
  residencyGranuleBytes : Int

structure MemoryAccess where
  targetId : String
  operation : AccessOperation
  offsetBytes : Int
  sizeBytes : Option Int

structure Migration where
  sequence : ℕ
  allocationId : String
  kind : MigrationKind
  byteCount : Int
  source : Option String
  destination : Option String
  residencyGranuleBytes : Int
  granuleCount : Int
  consumerTaskIds : List String
deriving DecidableEq

def Migration.pageInBytes (m : Migration) : Int := if m.kind = .pageIn then m.byteCount else 0

def Migration.pageOutBytes (m : Migration) : Int := if m.kind = .pageIn then 0 else m.byteCount

def Migration.cleanDiscardBytes (m : Migration) : Int := if m.kind = .cleanDiscard then m.byteCount else 0

def Migration.dirtyWritebackBytes (m : Migration) : Int := if m.kind = .dirtyWriteback then m.byteCount else 0

structure MigrationTotals where
  pageInBytes : Int
  pageOutBytes : Int
  cleanDiscardBytes : Int
  dirtyWritebackBytes : Int
deriving DecidableEq

def MigrationTotals.add (t : MigrationTotals) (m : Migration) : MigrationTotals where
  pageInBytes := t.pageInBytes + m.pageInBytes
  pageOutBytes := t.pageOutBytes + m.pageOutBytes
  cleanDiscardBytes := t.cleanDiscardBytes + m.cleanDiscardBytes
  dirtyWritebackBytes := t.dirtyWritebackBytes + m.dirtyWritebackBytes

structure AccessResult where
  sequence : ℕ
  targetId : String
  ownerId : String
  operation : AccessOperation
  offsetBytes : Int
  sizeBytes : Int
  pageInBytes : Int
  migrations : List Migration
  physicalResidencyBytes : Int
  residencyRanges : List Gap

structure ResidencyLease where
  leaseId : String
  consumerTaskId : String
  targetId : String
  ownerId : String
  offsetBytes : Int
  sizeBytes : Int
  residencyRanges : List Gap

/-- What happened to the bytes of an allocation, for the record of this development. -/
inductive Event
  | registered (ownerId : String) (ranges dirty : List Gap) (sequence : ℕ)
  | accessed (ownerId : String) (operation : AccessOperation) (offset stop : Int) (ranges missing pagedIn : List Gap) (sequence : ℕ)
  | evicted (ownerId : String) (ranges dirty : List Gap) (migrations : List Migration)
  | leaseReleased (ownerId : String) (taskId : String) (ranges : List Gap)
  | retired (taskIds : List String)
  | released (ownerId : String) (bytes : Int)

/-- `AllocationResidencyManager`; `events` tells what happened, the latest first. -/
structure Manager where
  pool : PhysicalPool
  allocations : Dict String Allocation
  views : Dict String AllocationView
  accessSequence : ℕ
  registrationSequence : ℕ
  migrationSequence : ℕ
  migrations : List Migration
  migrationTotals : MigrationTotals
  leases : Dict String ResidencyLease
  releasedConsumerRanges : Dict String (List Anchor)
  deferredValidationDepth : ℕ
  events : List Event

/-- `AllocationResidencyManager.__init__`, with an unused pool. -/
def Manager.new (pool : PhysicalPool) : Except Raised Manager :=
  if pool.residentBytes ≠ 0 then .error (.validation "a PhysicalPool must be unused when attached to a manager")
  else .ok ⟨pool, .empty, .empty, 0, 0, 0, [], ⟨0, 0, 0, 0⟩, .empty, .empty, 0, []⟩

abbrev M := EStateM Raised Manager

/-! ## Small steps -/

/-- A change of one allocation's object. -/
def Manager.updateAllocation (s : Manager) (ownerId : String) (f : Allocation → Allocation) : Manager :=
  { s with allocations := ((s.allocations.get? ownerId).map fun a => s.allocations.insert ownerId (f a)).getD s.allocations }

def updateAllocation (ownerId : String) (f : Allocation → Allocation) : M Unit := modify (·.updateAllocation ownerId f)

def note (e : Event) : M Unit := modify fun s => { s with events := e :: s.events }

def nextAccessSequence : M ℕ := do
  modify fun s => { s with accessSequence := s.accessSequence + 1 }
  return (← get).accessSequence

def adjustPool (delta : Int) : M Unit := do
  let s ← get
  let updated := s.pool.residentBytes + delta
  raise (refuse (updated < 0) (.residency s!"physical pool underflow on {s.pool.componentId}"))
  raise (refuse (s.pool.capacityBytes < updated) (.capacityExceeded
    s!"physical pool {s.pool.componentId} capacity exceeded: {updated} > {s.pool.capacityBytes}"))
  set { s with pool :=
    { s.pool with residentBytes := updated, peakResidentBytes := max s.pool.peakResidentBytes updated } }

def recordMigration (owner : Allocation) (kind : MigrationKind) (byteCount : Int) (source destination : Option String)
    (consumerTaskIds : List String) : M Migration := do
  raise (refuse (byteCount ≤ 0) (.residency "cannot record a zero-byte migration"))
  modify fun s => { s with migrationSequence := s.migrationSequence + 1 }
  let s ← get
  let migration : Migration :=
    { sequence := s.migrationSequence
      allocationId := owner.allocationId
      kind := kind
      byteCount := byteCount
      source := source
      destination := destination
      residencyGranuleBytes := owner.residencyGranuleBytes
      granuleCount := ceilDiv byteCount owner.residencyGranuleBytes
      consumerTaskIds := (consumerTaskIds.filter (· ≠ "")).eraseDups }
  set { s with
    migrations := s.migrations ++ [migration]
    migrationTotals := s.migrationTotals.add migration }
  return migration

/-- `_refresh_recency` -/
def refreshRecency (ownerId : String) (ranges : List Gap) (sequence : ℕ) : M Unit := do
  let s ← get
  let refreshed ← raise ((s.allocations.get? ownerId).elim (.ok none) fun a => (a.refreshRecency ranges sequence).map some)
  modify fun s => refreshed.elim s fun a => s.updateAllocation ownerId fun _ => a

end HeteroSim.Residency
