/-
What callers do with a manager: they register and release allocations, view
them, lease and access ranges of them, and evict. A call is one of these with
its arguments; the states a manager is in are those that calls lead to.
-/
import HeteroSim.Residency.Manager
import HeteroSim.Transitions

namespace HeteroSim.Residency

/-- The arguments of `register`. -/
structure Registration where
  allocationId : String
  sizeBytes : Int
  kind : String
  backing : Option String
  committedBytes : Option Int
  residentBytes : Int
  dirty : Bool
  evictable : Option Bool
  pinned : Bool
  lifecycle : AllocationLifecycle
  readOnly : Option Bool
  residencyGranuleBytes : Option Int

def weightKinds : List String := ["weight", "weights", "model_weight", "model_weights"]

/-- The checks of `register`, and the allocation they admit, with nothing resident yet. -/
def Manager.checkRegistration (s : Manager) (r : Registration) : Except Raised (Allocation × Int) := do
  let ownerId := strip r.allocationId
  refuse (ownerId = "") (.validation "allocation_id must not be empty")
  refuse (ownerId ∈ s.allocations.keys ∨ ownerId ∈ s.views.keys)
    (.validation s!"allocation/view id already registered: {ownerId}")
  let size ← integer "size_bytes" r.sizeBytes 1
  let committed ← r.committedBytes.elim (.ok size) (integer "committed_bytes" · 0)
  let resident ← integer "resident_bytes" r.residentBytes 0
  refuse (size < committed) (.validation "committed_bytes exceeds size_bytes")
  refuse (committed < resident) (.validation "resident_bytes exceeds committed_bytes")
  let granule ← r.residencyGranuleBytes.elim (.ok s.pool.pageSizeBytes) (integer "residency_granule_bytes" · 1)
  let backing := r.backing.map strip
  refuse (backing = some "") (.validation "backing must not be empty")
  refuse (r.lifecycle = .released) (.validation "cannot register a released allocation")
  refuse (r.pinned ∧ r.lifecycle = .temporary) (.validation "temporary allocations cannot be pinned")
  let evictable := r.evictable.getD (backing.isSome && !r.pinned)
  refuse (r.pinned ∧ evictable) (.validation "pinned allocations cannot be evictable")
  refuse (evictable ∧ backing = none) (.validation "evictable allocations require a backing component")
  refuse (evictable ∧ backing = some s.pool.componentId)
    (.validation "an evictable allocation backing must differ from its physical pool")
  let kind := (strip r.kind).toLower
  refuse (kind = "") (.validation "kind must not be empty")
  let readOnly := r.readOnly.getD (decide (kind ∈ weightKinds))
  refuse (r.dirty ∧ resident = 0) (.validation "an allocation with no resident bytes cannot be dirty")
  refuse (r.dirty ∧ readOnly) (.validation "read-only allocations cannot start dirty")
  refuse (r.dirty ∧ evictable ∧ backing = none) (.validation "dirty evictable bytes require backing")
  return ({ allocationId := ownerId
            physicalOwner := s.pool.componentId
            sizeBytes := size
            backing := backing
            kind := kind
            committedBytes := committed
            evictable := evictable
            pinned := r.pinned
            lifecycle := r.lifecycle
            readOnly := readOnly
            lastAccess := 0
            residencyGranuleBytes := granule
            residentBytes := 0
            dirty := false
            registrationOrder := 0
            residentRanges := []
            dirtyRanges := []
            residentRecencyRanges := [] }, resident)

/-- `register` -/
def register (r : Registration) : M Allocation := do
  let s ← get
  let checked ← raise (s.checkRegistration r)
  let ranges := prefixBackingUnitRanges checked.1.committedBytes checked.1.residencyGranuleBytes checked.2
  let initial := totalLength ranges
  validateMutationBoundary
  makeRoom initial none []
  modify fun s => { s with registrationSequence := s.registrationSequence + 1 }
  let sequence ← nextAccessSequence
  let s ← get
  let owner := { checked.1 with lastAccess := sequence, registrationOrder := s.registrationSequence }
  let owner ← if initial ≠ 0 then do
      let owner ← raise ({ owner with residentRanges := ranges, dirtyRanges := if r.dirty then ranges else []
        }.syncDerivedState.refreshRecency ranges sequence)
      adjustPool initial
      pure owner
    else pure owner
  modify fun s => { s with allocations := s.allocations.insert owner.allocationId owner }
  note (.registered owner.allocationId ranges owner.dirtyRanges sequence)
  validateMutationBoundary
  return owner

/-- `create_view` -/
def createView (viewId ownerId : String) (offsetBytes : Int) (sizeBytes : Option Int) : M AllocationView := do
  let s ← get
  let aliasId := strip viewId
  raise (refuse (aliasId = "") (.validation "view_id must not be empty"))
  raise (refuse (aliasId ∈ s.allocations.keys ∨ aliasId ∈ s.views.keys)
    (.validation s!"allocation/view id already registered: {aliasId}"))
  let owner ← raise (s.getAllocation ownerId)
  let offset ← raise (integer "offset_bytes" offsetBytes 0)
  let size ← raise (sizeBytes.elim (.ok (owner.sizeBytes - offset)) (integer "size_bytes" · 1))
  raise (refuse (owner.sizeBytes ≤ offset ∨ owner.sizeBytes < offset + size)
    (.validation "allocation view exceeds owner bounds"))
  let view : AllocationView := ⟨aliasId, owner.allocationId, offset, size, owner.residencyGranuleBytes⟩
  set { s with views := s.views.insert aliasId view }
  return view

/-- `release_view` -/
def releaseView (viewId : String) : M AllocationView := do
  let s ← get
  raise (refuse (s.leases.values.any fun l => l.targetId = viewId)
    (.validation s!"release active allocation-view leases first: {viewId}"))
  let view ← raise ((s.views.get? viewId).elim (.error (.notFound s!"unknown allocation view: {viewId}")) .ok)
  set { s with views := s.views.erase viewId }
  return view

/-- `release` -/
def release (allocationId : String) (forcePinned : Bool) : M Allocation := do
  let s ← get
  let owner ← raise (s.getAllocation allocationId)
  let active := ((s.leases.values.filter fun l => l.ownerId = owner.allocationId).map ResidencyLease.leaseId).insertionSort (· ≤ ·)
  raise (refuse (active ≠ []) (.validation ("release allocation leases first: " ++ ", ".intercalate active)))
  let aliases := ((s.views.values.filter fun v => v.ownerId = owner.allocationId).map AllocationView.viewId).insertionSort (· ≤ ·)
  raise (refuse (aliases ≠ []) (.validation ("release allocation views first: " ++ ", ".intercalate aliases)))
  raise (refuse (owner.pinned ∧ ¬forcePinned) (.validation "pinned allocation requires force_pinned=True to release"))
  if owner.residentBytes ≠ 0 then adjustPool (-owner.residentBytes)
  modify fun s => { s with
    allocations := s.allocations.erase owner.allocationId
    releasedConsumerRanges := s.releasedConsumerRanges.erase owner.allocationId }
  note (.released owner.allocationId owner.residentBytes)
  validateMutationBoundary
  return { owner with residentRanges := [], dirtyRanges := [], residentRecencyRanges := [], lifecycle := .released }.syncDerivedState

/-- `acquire_lease` -/
def acquireLease (leaseId targetId consumerTaskId : String) (offsetBytes : Int) (sizeBytes : Option Int) : M ResidencyLease := do
  let s ← get
  let leaseId := strip leaseId
  let taskId := strip consumerTaskId
  raise (refuse (leaseId = "") (.validation "lease_id must not be empty"))
  raise (refuse (taskId = "") (.validation "consumer_task_id must not be empty"))
  raise (refuse (leaseId ∈ s.leases.keys) (.validation s!"residency lease already exists: {leaseId}"))
  let resolved ← raise (s.resolveAccess targetId offsetBytes sizeBytes)
  raise (refuse (intersectRanges resolved.ranges resolved.owner.residentRanges ≠ resolved.ranges)
    (.validation s!"cannot lease non-resident bytes for {resolved.owner.allocationId}"))
  let lease : ResidencyLease :=
    { leaseId := leaseId
      consumerTaskId := taskId
      targetId := targetId
      ownerId := resolved.owner.allocationId
      offsetBytes := resolved.offset
      sizeBytes := resolved.size
      residencyRanges := resolved.ranges }
  set { s with leases := s.leases.insert leaseId lease }
  validateMutationBoundary
  return lease

/-- `release_lease` -/
def releaseLease (leaseId : String) : M ResidencyLease := do
  let s ← get
  let lease ← raise ((s.leases.get? leaseId).elim (.error (.validation s!"unknown residency lease: {leaseId}")) .ok)
  let anchors := lease.residencyRanges.foldl (retainConsumerRange · · lease.consumerTaskId)
    ((s.releasedConsumerRanges.get? lease.ownerId).getD [])
  set { s with
    leases := s.leases.erase leaseId
    releasedConsumerRanges := s.releasedConsumerRanges.insert lease.ownerId anchors }
  note (.leaseReleased lease.ownerId lease.consumerTaskId lease.residencyRanges)
  validateMutationBoundary
  return lease

/-- `retire_completed_consumers` -/
def retireCompletedConsumers (consumerTaskIds : List String) : M Unit := do
  let s ← get
  raise (refuse (consumerTaskIds.any fun t => t = "") (.validation "completed consumers require nonempty task ids"))
  raise (refuse (s.leases.values.any fun l => l.consumerTaskId ∈ consumerTaskIds)
    (.validation "cannot retire a consumer with active residency leases"))
  set (s.releasedConsumerRanges.items.foldl (fun s p =>
    s.setAnchors p.1 (p.2.filter fun a => a.taskId ∉ consumerTaskIds)) s)
  note (.retired consumerTaskIds)

/-- `commit` -/
def commit (allocationId : String) (committedBytes : Int) : M Allocation := do
  let s ← get
  let owner ← raise (s.getAllocation allocationId)
  let committed ← raise (integer "committed_bytes" committedBytes 0)
  raise (refuse (committed < owner.committedBytes)
    (.validation "commit cannot shrink; explicitly evict and release instead"))
  raise (refuse (owner.sizeBytes < committed) (.validation "committed_bytes exceeds size_bytes"))
  let checks : Except Raised Unit := do
    ensureBackingUnitRanges "resident commit growth" owner.residentRanges committed owner.residencyGranuleBytes
    ensureBackingUnitRanges "dirty commit growth" owner.dirtyRanges committed owner.residencyGranuleBytes
    ensureBackingUnitRanges "recency commit growth" (owner.residentRecencyRanges.map Stamp.range) committed
      owner.residencyGranuleBytes
  -- any error of the checks is a `ResidencyError`
  raise (checks.mapError fun _ => .validation "commit would split an existing residency backing granule")
  set (s.updateAllocation owner.allocationId fun a => { a with committedBytes := committed })
  validateMutationBoundary
  return { owner with committedBytes := committed }

/-- The units an access needs that are not resident. -/
def Resolved.missing (r : Resolved) : List Gap := subtractRanges r.ranges r.owner.residentRanges

/-- Those of them that have to be read back first. -/
def Resolved.pagedIn (r : Resolved) (op : AccessOperation) : List Gap :=
  if op = .write then writeRefaultRanges r r.missing else r.missing

/-- What `access` does where there are units missing. -/
def makeResident (r : Resolved) (op : AccessOperation) : M Unit := do
  let s ← get
  if totalLength r.missing ≠ 0 then
    makeRoom (totalLength r.missing) (some r.owner.allocationId) r.ranges
    updateAllocation r.owner.allocationId fun o =>
      { o with residentRanges := normalizeRanges (o.residentRanges ++ r.missing) }.syncDerivedState
    adjustPool (totalLength r.missing)
    if totalLength (r.pagedIn op) ≠ 0 then
      let _ ← recordMigration r.owner .pageIn (totalLength (r.pagedIn op)) r.owner.backing s.pool.componentId []

/-- What `access` does of a write. -/
def markDirty (r : Resolved) (op : AccessOperation) : M Unit := do
  if op = .write ∧ r.ranges ≠ [] then
    updateAllocation r.owner.allocationId fun o =>
      { o with dirtyRanges := normalizeRanges (o.dirtyRanges ++ r.ranges) }.syncDerivedState

/-- `access` -/
def access (a : MemoryAccess) : M AccessResult := do
  validateMutationBoundary
  let s ← get
  let r ← raise (s.resolveAccess a.targetId a.offsetBytes a.sizeBytes)
  let ownerId := r.owner.allocationId
  raise (refuse (a.operation = .write ∧ r.owner.readOnly) (.validation s!"cannot write read-only allocation {ownerId}"))
  raise (refuse (totalLength (r.pagedIn a.operation) ≠ 0 ∧ r.owner.backing = none)
    (.validation s!"cannot refault unbacked allocation {ownerId}"))
  makeResident r a.operation
  markDirty r a.operation
  let sequence ← nextAccessSequence
  updateAllocation ownerId fun o => { o with lastAccess := sequence }
  refreshRecency ownerId r.ranges sequence
  note (.accessed ownerId a.operation r.offset (r.offset + r.size) r.ranges r.missing (r.pagedIn a.operation) sequence)
  let migrations := (← get).migrations.drop s.migrations.length
  validateMutationBoundary
  return { sequence := sequence
           targetId := a.targetId
           ownerId := ownerId
           operation := a.operation
           offsetBytes := r.offset
           sizeBytes := r.size
           pageInBytes := (migrations.map Migration.pageInBytes).sum
           migrations := migrations
           physicalResidencyBytes := totalLength r.ranges
           residencyRanges := r.ranges }

/-- `evict` -/
def evict (allocationId : String) (byteCount : Option Int) : M (List Migration) := do
  validateMutationBoundary
  let s ← get
  let owner ← raise (s.getAllocation allocationId)
  raise (refuse (owner.pinned ∨ ¬owner.evictable) (.validation s!"allocation {owner.allocationId} is not evictable"))
  let amount ← raise (byteCount.elim (.ok owner.residentBytes) (integer "byte_count" · 0))
  raise (refuse (owner.residentBytes < amount) (.validation "eviction byte_count exceeds resident bytes"))
  if amount = 0 then return []
  evictOwnerBytes owner.allocationId amount []
  validateMutationBoundary
  return (← get).migrations.drop s.migrations.length

/-! ## Runs -/

/-- A call of a manager's method. -/
inductive Call
  | register (r : Registration)
  | createView (viewId ownerId : String) (offsetBytes : Int) (sizeBytes : Option Int)
  | releaseView (viewId : String)
  | release (allocationId : String) (forcePinned : Bool)
  | acquireLease (leaseId targetId consumerTaskId : String) (offsetBytes : Int) (sizeBytes : Option Int)
  | releaseLease (leaseId : String)
  | retireCompletedConsumers (consumerTaskIds : List String)
  | commit (allocationId : String) (committedBytes : Int)
  | access (a : MemoryAccess)
  | evict (allocationId : String) (byteCount : Option Int)
  | beginDeferredValidation
  | endDeferredValidation

def Call.run : Call → M Unit
  | .register r => discard (Residency.register r)
  | .createView viewId ownerId offset size => discard (Residency.createView viewId ownerId offset size)
  | .releaseView viewId => discard (Residency.releaseView viewId)
  | .release allocationId force => discard (Residency.release allocationId force)
  | .acquireLease leaseId targetId taskId offset size => discard (Residency.acquireLease leaseId targetId taskId offset size)
  | .releaseLease leaseId => discard (Residency.releaseLease leaseId)
  | .retireCompletedConsumers ids => Residency.retireCompletedConsumers ids
  | .commit allocationId committed => discard (Residency.commit allocationId committed)
  | .access a => discard (Residency.access a)
  | .evict allocationId count => discard (Residency.evict allocationId count)
  | .beginDeferredValidation => Residency.beginDeferredValidation
  | .endDeferredValidation => Residency.endDeferredValidation

/-- A call, returned or raised. -/
def CallStep (s : Manager) (c : Call) (s' : Manager) : Prop := s' = after c.run s

/-- The states of a manager in use. -/
def Used (s : Manager) : Prop := Reached CallStep (fun s => ∃ pool, Manager.new pool = .ok s) s

end HeteroSim.Residency
