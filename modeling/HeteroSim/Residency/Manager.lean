/-
The residency manager's operations. Each checks its arguments, makes room in
the pool where it needs to, by evicting the least recently accessed units that
nothing protects, and only then changes what is resident.
-/
import HeteroSim.Residency.State

namespace HeteroSim.Residency

/-! ## The invariant the code checks -/

/-- `assert_consistent`, of one allocation brought up to date. -/
def Manager.checkAllocation (s : Manager) (a : Allocation) : Except Raised Unit := do
  refuse (a.committedBytes < a.residentBytes) (.residency "resident bytes exceed commitment")
  refuse (a.residentBytes < a.dirtyBytes) (.residency "dirty bytes exceed resident bytes")
  let granule ← integer "residency_granule_bytes" a.residencyGranuleBytes 1
  ensureBackingUnitRanges "allocation resident range" a.residentRanges a.committedBytes granule
  ensureBackingUnitRanges "allocation dirty range" a.dirtyRanges a.committedBytes granule
  let normalized ← (mergeStamps a.residentRecencyRanges).elim
    (.error (.residency "overlapping allocation recency ranges")) .ok
  refuse (normalized ≠ a.residentRecencyRanges) (.residency "allocation recency ranges are not normalized")
  refuse (normalizeRanges (a.residentRecencyRanges.map Stamp.range) ≠ a.residentRanges)
    (.residency "allocation recency does not cover exactly its resident bytes")
  ensureBackingUnitRanges "allocation recency range" (a.residentRecencyRanges.map Stamp.range) a.committedBytes granule
  a.residentRecencyRanges.forM fun r => do
    refuse (r.range.lo < 0 ∨ a.committedBytes < r.range.hi) (.residency "allocation recency range exceeds commitment")
    refuse (r.seq ≤ 0 ∨ a.lastAccess < r.seq) (.residency "allocation recency sequence is invalid")
  refuse (a.lastAccess ≤ 0 ∨ s.accessSequence < a.lastAccess) (.residency "allocation last_access sequence is invalid")
  refuse (a.pinned ∧ a.evictable) (.residency "pinned allocation is marked evictable")

def Manager.checkView (s : Manager) (viewId : String) (v : AllocationView) : Except Raised Unit := do
  refuse (v.viewId ≠ viewId ∨ v.ownerId ∉ s.allocations.keys) (.residency "stale or malformed allocation view")
  (s.allocations.get? v.ownerId).elim (.ok ()) fun a => do
    refuse (v.offsetBytes < 0 ∨ a.sizeBytes < v.offsetBytes + v.sizeBytes) (.residency "allocation view exceeds owner bounds")
    refuse (v.residencyGranuleBytes ≠ a.residencyGranuleBytes) (.residency "allocation view residency granule is stale")

def Manager.checkLease (s : Manager) (leaseId : String) (l : ResidencyLease) : Except Raised Unit := do
  refuse (l.leaseId ≠ leaseId ∨ l.ownerId ∉ s.allocations.keys) (.residency "stale or malformed residency lease")
  (s.allocations.get? l.ownerId).elim (.ok ()) fun a =>
    refuse (intersectRanges l.residencyRanges a.residentRanges ≠ l.residencyRanges)
      (.residency "residency lease covers non-resident bytes")

/-- One turn of the check's loop over the allocations. -/
def assertAllocation (ownerId : String) : M Unit := do
  let s ← get
  (s.allocations.get? ownerId).elim (pure ()) fun a => do
    raise (refuse (a.allocationId ≠ ownerId) (.residency "allocation registry owner mismatch"))
    raise (refuse (a.physicalOwner ≠ s.pool.componentId) (.residency "allocation belongs to another physical pool"))
    updateAllocation ownerId Allocation.syncDerivedState
    raise (s.checkAllocation a.syncDerivedState)

/-- `assert_consistent` -/
def assertConsistent : M Unit := do
  let s ← get
  s.allocations.keys.forM assertAllocation
  let s ← get
  raise (s.views.items.forM fun p => s.checkView p.1 p.2)
  raise (s.leases.items.forM fun p => s.checkLease p.1 p.2)
  let expected := (s.allocations.values.map Allocation.residentBytes).sum
  raise (refuse (expected ≠ s.pool.residentBytes)
    (.residency s!"physical pool accounting mismatch: allocations={expected} pool={s.pool.residentBytes}"))
  raise (refuse (expected < 0 ∨ s.pool.capacityBytes < expected) (.residency "physical pool accounting is outside capacity"))

/-- `_validate_mutation_boundary` -/
def validateMutationBoundary : M Unit := do
  let s ← get
  if s.deferredValidationDepth = 0 then assertConsistent

def beginDeferredValidation : M Unit := do
  let s ← get
  if s.deferredValidationDepth = 0 then assertConsistent
  modify fun s => { s with deferredValidationDepth := s.deferredValidationDepth + 1 }

def endDeferredValidation : M Unit := do
  let s ← get
  raise (refuse (s.deferredValidationDepth ≤ 0) (.residency "deferred validation is not active"))
  set { s with deferredValidationDepth := s.deferredValidationDepth - 1 }
  let s ← get
  if s.deferredValidationDepth = 0 then assertConsistent

/-! ## Looking up -/

def Manager.getAllocation (s : Manager) (allocationId : String) : Except Raised Allocation :=
  (s.allocations.get? allocationId).elim
    (if allocationId ∈ s.views.keys then .error (.validation s!"{allocationId} is an AllocationView, not a physical owner")
      else .error (.notFound s!"unknown allocation: {allocationId}")) .ok

/-- What an access is of: its owner, the bytes of it asked for, and the units they are in. -/
structure Resolved where
  owner : Allocation
  offset : Int
  size : Int
  residentStart : Int
  residentEnd : Int

/-- `_resolve_access` -/
def Manager.resolveAccess (s : Manager) (targetId : String) (accessOffset : Int) (accessSize : Option Int) :
    Except Raised Resolved := do
  let target : Allocation × Int × Int ← (s.allocations.get? targetId).elim
    ((s.views.get? targetId).elim (.error (.notFound s!"unknown allocation/view: {targetId}")) fun v =>
      (s.getAllocation v.ownerId).map fun a => (a, v.offsetBytes, v.sizeBytes))
    fun a => .ok (a, 0, a.sizeBytes)
  let owner := target.1
  let offset ← integer "offset_bytes" accessOffset 0
  refuse (target.2.2 < offset) (.validation "memory access offset exceeds target bounds")
  let requested ← accessSize.elim (.ok (target.2.2 - offset)) (integer "size_bytes" · 0)
  refuse (target.2.2 < offset + requested) (.validation "memory access exceeds target bounds")
  let ownerOffset := target.2.1 + offset
  refuse (owner.committedBytes < ownerOffset + requested) (.validation "memory access exceeds committed bytes")
  if requested = 0 then return ⟨owner, ownerOffset, requested, ownerOffset, ownerOffset⟩
  let granule := owner.residencyGranuleBytes
  return ⟨owner, ownerOffset, requested, ownerOffset / granule * granule,
    min owner.committedBytes (ceilDiv (ownerOffset + requested) granule * granule)⟩

def Resolved.ranges (r : Resolved) : List Gap :=
  if r.residentStart = r.residentEnd then [] else [Gap.mk r.residentStart r.residentEnd]

/-- `_write_refault_ranges` -/
def writeRefaultRanges (r : Resolved) (missing : List Gap) : List Gap :=
  if r.size = 0 ∨ missing = [] then [] else
    let writeEnd := r.offset + r.size
    let granule := r.owner.residencyGranuleBytes
    let first := if r.residentStart < r.offset then
      [Gap.mk r.residentStart (min r.owner.committedBytes (r.residentStart + granule))] else []
    let lastStart := (writeEnd - 1) / granule * granule
    let last := if writeEnd < r.residentEnd then
      [Gap.mk lastStart (min r.owner.committedBytes (lastStart + granule))] else []
    intersectRanges missing (first ++ last)

/-! ## Evicting -/

/-- `_leased_ranges` -/
def Manager.leasedRanges (s : Manager) (ownerId : String) : List Gap :=
  normalizeRanges ((s.leases.values.filter fun l => l.ownerId = ownerId).flatMap ResidencyLease.residencyRanges)

/-- What may not be evicted of an allocation. -/
def Manager.cuts (s : Manager) (a : Allocation) (protectedOwner : Option String) (protectedRanges : List Gap) : List Gap :=
  s.leasedRanges a.allocationId ++ if some a.allocationId = protectedOwner then protectedRanges else []

def Allocation.fixed (a : Allocation) : Bool := a.pinned || !a.evictable || a.residentRanges = [] || a.backing = none

/-- `_candidate_ranges` -/
def Manager.candidateRanges (s : Manager) (a : Allocation) (protectedOwner : Option String) (protectedRanges : List Gap) :
    List Gap :=
  if a.fixed then [] else subtractRanges a.residentRanges (s.cuts a protectedOwner protectedRanges)

/-- `_candidate_recency_ranges` -/
def Manager.candidateRecencyRanges (s : Manager) (a : Allocation) (protectedOwner : Option String)
    (protectedRanges : List Gap) : List Stamp :=
  if a.fixed then [] else
    a.residentRecencyRanges.flatMap fun r =>
      (subtractRanges [r.range] (s.cuts a protectedOwner protectedRanges)).map (Stamp.mk · r.seq)

structure Candidate where
  sequence : ℕ
  registrationOrder : ℕ
  ownerId : String
  range : Gap
  granule : Int

def Candidate.key (c : Candidate) : ℕ ×ₗ ℕ ×ₗ String ×ₗ Int :=
  toLex (c.sequence, toLex (c.registrationOrder, toLex (c.ownerId, c.range.lo)))

/-- The candidates of `_make_room`, the least recently accessed first. -/
def Manager.candidates (s : Manager) (protectedOwner : Option String) (protectedRanges : List Gap) :
    Except Raised (List Candidate) := do
  let found ← s.allocations.values.mapM fun a =>
    (s.candidateRecencyRanges a protectedOwner protectedRanges).mapM fun r => do
      ensureBackingUnitRanges "eviction candidate" [r.range] a.committedBytes a.residencyGranuleBytes
      return Candidate.mk r.seq a.registrationOrder a.allocationId r.range a.residencyGranuleBytes
  return found.flatten.insertionSort fun c d => c.key ≤ d.key

/-- What is still to be found, and what has been, by owner. -/
structure Plan where
  remaining : Int
  planned : Dict String (List Gap)

def Plan.select (plan : Plan) (c : Candidate) : Plan :=
  if plan.remaining ≤ 0 then plan else
    (backingUnitPrefixForBytes c.range c.granule plan.remaining).elim plan fun selected =>
      { remaining := plan.remaining - (selected.hi - selected.lo)
        planned := plan.planned.insert c.ownerId ((plan.planned.get? c.ownerId).getD [] ++ [selected]) }

/-- The consumers whose anchors meet the ranges, the first anchor of each first. -/
def evictionConsumers (anchors : List Anchor) (selected : List Gap) : List String :=
  ((anchors.filter fun a => intersectRanges [a.range] selected ≠ []).map Anchor.taskId).eraseDups

def retainedAnchors (anchors : List Anchor) (selected : List Gap) : List Anchor :=
  anchors.flatMap fun a => (subtractRanges [a.range] selected).map (Anchor.mk · a.taskId)

/-- The anchors of an owner, or none of it. -/
def Manager.setAnchors (s : Manager) (ownerId : String) (anchors : List Anchor) : Manager :=
  { s with releasedConsumerRanges :=
      if anchors ≠ [] then s.releasedConsumerRanges.insert ownerId anchors else s.releasedConsumerRanges.erase ownerId }

/-- `_evict_owner_ranges` -/
def evictOwnerRanges (ownerId : String) (selectedRanges : List Gap) : M Unit := do
  let s ← get
  (s.allocations.get? ownerId).elim (pure ()) fun owner => do
    raise (refuse (owner.pinned ∨ ¬owner.evictable ∨ owner.backing = none)
      (.residency s!"unsafe eviction plan for {owner.allocationId}"))
    let selected := normalizeRanges selectedRanges
    if selected ≠ [] then
      raise (ensureBackingUnitRanges "eviction selection" selected owner.committedBytes owner.residencyGranuleBytes)
      raise (refuse (intersectRanges selected owner.residentRanges ≠ selected)
        (.residency s!"eviction selection includes non-resident bytes for {owner.allocationId}"))
      let dirtySelection := intersectRanges selected owner.dirtyRanges
      let dirtyBytes := totalLength dirtySelection
      let cleanBytes := totalLength selected - dirtyBytes
      let anchors := (s.releasedConsumerRanges.get? owner.allocationId).getD []
      let consumers := evictionConsumers anchors selected
      modify (·.setAnchors owner.allocationId (retainedAnchors anchors selected))
      updateAllocation ownerId fun a =>
        { a with
          residentRanges := subtractRanges a.residentRanges selected
          dirtyRanges := subtractRanges a.dirtyRanges selected }
      let recency ← raise ((subtractStamps owner.residentRecencyRanges selected).elim
        (.error (.residency "overlapping allocation recency ranges")) .ok)
      updateAllocation ownerId fun a => { a with residentRecencyRanges := recency }.syncDerivedState
      adjustPool (-totalLength selected)
      let component := s.pool.componentId
      let written ← if dirtyBytes ≠ 0 then
          (fun m => [m]) <$> recordMigration owner .dirtyWriteback dirtyBytes component owner.backing consumers
        else pure []
      let discarded ← if cleanBytes ≠ 0 then
          (fun m => [m]) <$> recordMigration owner .cleanDiscard cleanBytes component owner.backing consumers
        else pure []
      note (.evicted owner.allocationId selected dirtySelection (written ++ discarded))

/-- `_make_room` -/
def makeRoom (additionalBytes : Int) (protectedOwner : Option String) (protectedRanges : List Gap) : M Unit := do
  let additional ← raise (integer "additional_bytes" additionalBytes 0)
  let s ← get
  let need := max 0 (s.pool.residentBytes + additional - s.pool.capacityBytes)
  if need ≠ 0 then
    let candidates ← raise (s.candidates protectedOwner protectedRanges)
    let plan := candidates.foldl Plan.select ⟨need, .empty⟩
    raise (refuse (0 < plan.remaining) (.capacityExceeded
      s!"{s.pool.componentId} needs {additional} additional resident bytes, but only {need - plan.remaining} of {need} can be made available"))
    plan.planned.items.forM fun p => evictOwnerRanges p.1 p.2

/-- The units of the ranges from the last one back, until enough bytes are taken. -/
def takeUnits : Int → List Gap → Int × List Gap
  | remaining, [] => (remaining, [])
  | remaining, u :: units =>
    if remaining ≤ 0 then (remaining, []) else
      let rest := takeUnits (remaining - (u.hi - u.lo)) units
      (rest.1, u :: rest.2)

/-- `_evict_owner_bytes` -/
def evictOwnerBytes (ownerId : String) (byteCount : Int) (protectedRanges : List Gap) : M Unit := do
  let s ← get
  (s.allocations.get? ownerId).elim (pure ()) fun owner => do
    raise (refuse (owner.pinned ∨ ¬owner.evictable ∨ owner.backing = none)
      (.residency s!"unsafe eviction plan for {owner.allocationId}"))
    let available := s.candidateRanges owner (some owner.allocationId) protectedRanges
    raise (refuse (byteCount < 0 ∨ totalLength available < byteCount)
      (.residency s!"eviction underflow for {owner.allocationId}"))
    -- ranges and units both from the highest down; the loop over the ranges ends when enough is taken
    let taken ← raise (available.reverse.foldlM (fun (taken : Int × List Gap) g =>
      if taken.1 ≤ 0 then .ok taken else
        (iterBackingUnitRanges owner.committedBytes owner.residencyGranuleBytes [g]).map fun units =>
          ((takeUnits taken.1 units.reverse).1, taken.2 ++ (takeUnits taken.1 units.reverse).2)) (byteCount, []))
    raise (refuse (0 < taken.1) (.residency s!"eviction selection underflow for {owner.allocationId}"))
    evictOwnerRanges ownerId taken.2

end HeteroSim.Residency
