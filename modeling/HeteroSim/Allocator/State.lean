/-
The physical address allocator (`memory_allocator.py`): a map of live
extents in insertion order, and beside it the rows sorted by address, the
sorted gaps, the gaps an aligned fit can use, and the aliases of each
extent. A transaction is a journal of before-images in every retained save.
Addresses and sizes are integers.
-/
import HeteroSim.Dict
import HeteroSim.Gaps
import HeteroSim.GroupIndex
import HeteroSim.Text

namespace HeteroSim.Allocator

/-- `(buffer_id, generation)` -/
abbrev Key := String × Int

/-- What an alias names: `(alias_of, alias_generation)`. -/
abbrev Target := String × Option Int

inductive Arena
  | resident
  | workspace
deriving DecidableEq

def Arena.text : Arena → String
  | .resident => "resident"
  | .workspace => "workspace"

/-- One live extent; `ident` is the object's identity, which `is` compares. -/
structure PhysicalAllocation where
  ident : Nat
  bufferId : String
  baseAddress : Int
  sizeBytes : Int
  generation : Int
  aliasOf : Option String
  aliasGeneration : Option Int
  aliasOffsetBytes : Int
  inferred : Bool
  allocationArena : Option Arena
deriving DecidableEq

/-- The order of the address rows: `(base_address, buffer_id, generation)`. -/
abbrev AddressKey := Int ×ₗ String ×ₗ Int

namespace PhysicalAllocation

def key (a : PhysicalAllocation) : Key := (a.bufferId, a.generation)

def endAddress (a : PhysicalAllocation) : Int := a.baseAddress + a.sizeBytes

def addressKey (a : PhysicalAllocation) : AddressKey := toLex (a.baseAddress, toLex (a.bufferId, a.generation))

def target (a : PhysicalAllocation) : Option Target := a.aliasOf.map fun t => (t, a.aliasGeneration)

end PhysicalAllocation

/-- The checked constructor arguments. -/
structure AllocatorConfig where
  capacityBytes : Int
  alignmentBytes : Int
  workspaceCapacityBytes : Int
  capacity_pos : 0 < capacityBytes
  alignment_pos : 0 < alignmentBytes
  workspace_nonneg : 0 ≤ workspaceCapacityBytes
  workspace_lt : workspaceCapacityBytes < capacityBytes
  boundary_aligned : workspaceCapacityBytes ≠ 0 → (capacityBytes - workspaceCapacityBytes) % alignmentBytes = 0

/-- `PhysicalAddressAllocator.__init__`'s checks. -/
def AllocatorConfig.new (capacity alignment workspace : Int) : Except String AllocatorConfig :=
  if hc : capacity ≤ 0 then .error "capacity_bytes must be a positive integer"
  else if ha : alignment ≤ 0 then .error "alignment_bytes must be a positive integer"
  else if hw : ¬(0 ≤ workspace ∧ workspace < capacity) then
    .error "workspace_capacity_bytes must be an integer in [0, capacity_bytes)"
  else if hb : workspace ≠ 0 ∧ (capacity - workspace) % alignment ≠ 0 then
    .error "workspace partition boundary must be aligned"
  else .ok
    { capacityBytes := capacity, alignmentBytes := alignment, workspaceCapacityBytes := workspace
      capacity_pos := by omega, alignment_pos := by omega, workspace_nonneg := by omega, workspace_lt := by omega
      boundary_aligned := fun h => by
        by_contra hn
        exact hb ⟨h, hn⟩ }

/-- Before-images of changed keys, and the high-water mark at the begin. -/
structure AllocationSave where
  entries : Dict Key (Option PhysicalAllocation × Option Nat)
  peak : Int

/-- The allocator. `saves` is the weak registry of retained saves, `ident`
numbers standing for the objects; the ordinals are only looked up. -/
structure AllocatorState where
  config : AllocatorConfig
  allocations : Dict Key PhysicalAllocation
  nativeAllocationKeys : Bool
  addressKeys : List AddressKey
  addressRows : List PhysicalAllocation
  largestAllocation : Int
  peakEndBytes : Int
  aliasesByTarget : Target → Option (Finset Key)
  freeExtents : Option (List Gap)
  fitExtents : List Gap
  allocationOrder : Dict Key Nat
  nextOrder : Nat
  openSaves : List Nat
  saves : Dict Nat AllocationSave
  nextSave : Nat

def AllocatorState.init (config : AllocatorConfig) : AllocatorState where
  config := config
  allocations := .empty
  nativeAllocationKeys := true
  addressKeys := []
  addressRows := []
  largestAllocation := 0
  peakEndBytes := 0
  aliasesByTarget := fun _ => none
  freeExtents := some [Gap.mk 0 config.capacityBytes]
  fitExtents := [Gap.mk 0 config.capacityBytes]
  allocationOrder := .empty
  nextOrder := 0
  openSaves := []
  saves := .empty
  nextSave := 0

/-! ## Gaps -/

/-- `_align` -/
def align (value alignment : Int) : Int := (value + alignment - 1) / alignment * alignment

/-- The gap's first aligned address lies inside it. -/
def fitsAligned (cfg : AllocatorConfig) (g : Gap) : Bool := align g.lo cfg.alignmentBytes < g.hi

/-- The first merge of `_free_extent`: the gap before the range, when it
reaches it, is taken in. -/
def mergeBefore (fits : Gap → Bool) (pre : List Gap) (base stop : Int) (index : List Gap) :
    List Gap × Int × Int × List Gap :=
  match pre.getLast? with
  | some g =>
    if base ≤ g.hi then (pre.dropLast, min base g.lo, max stop g.hi, unindex fits g index)
    else (pre, base, stop, index)
  | none => (pre, base, stop, index)

/-- The loop of `_free_extent` over the gaps after the range. -/
def mergeAfter (fits : Gap → Bool) : List Gap → Int → List Gap → List Gap × Int × List Gap
  | [], stop, index => ([], stop, index)
  | g :: post, stop, index =>
    if g.lo ≤ stop then mergeAfter fits post (max stop g.hi) (unindex fits g index) else (g :: post, stop, index)

/-- `_free_extent`, with the gaps cut where `bisect_left` points. -/
def freeExtent (base stop : Int) (s : AllocatorState) : AllocatorState :=
  match s.freeExtents with
  | none => s
  | some gaps =>
    let fits := fitsAligned s.config
    let pre := gaps.takeWhile fun g => decide (g.lo < base)
    let post := gaps.dropWhile fun g => decide (g.lo < base)
    let (pre, base, stop, index) := mergeBefore fits pre base stop s.fitExtents
    let (post, stop, index) := mergeAfter fits post stop index
    { s with
      freeExtents := some (pre ++ Gap.mk base stop :: post)
      fitExtents := reindex fits (Gap.mk base stop) index }

/-- What is left of the gap `g` when `[base, stop)` is taken out of it. -/
def remnants (g : Gap) (base stop : Int) : List Gap :=
  (if g.lo < base then [Gap.mk g.lo base] else []) ++ (if stop < g.hi then [Gap.mk stop g.hi] else [])

/-- `_occupy_extent`: a root no gap can hold ends the gap list. -/
def occupyExtent (a : PhysicalAllocation) (s : AllocatorState) : AllocatorState :=
  match s.freeExtents with
  | none => s
  | some gaps =>
    if a.aliasOf.isSome then s
    else if a.sizeBytes ≤ 0 then { s with freeExtents := none }
    else
      let fits := fitsAligned s.config
      let pre := gaps.takeWhile fun g => decide (g.lo < a.baseAddress + 1)
      let post := gaps.dropWhile fun g => decide (g.lo < a.baseAddress + 1)
      match pre.getLast? with
      | none => { s with freeExtents := none }
      | some g =>
        if g.lo ≤ a.baseAddress ∧ a.baseAddress < a.endAddress ∧ a.endAddress ≤ g.hi then
          { s with
            freeExtents := some (pre.dropLast ++ (remnants g a.baseAddress a.endAddress ++ post))
            fitExtents := (remnants g a.baseAddress a.endAddress).foldl (fun index r => reindex fits r index)
              (unindex fits g s.fitExtents) }
        else { s with freeExtents := none }

/-! ## The indexes of the map -/

/-- `_before_mutation`: every retained save keeps the first image of a key. -/
def beforeMutation (key : Key) (s : AllocatorState) : AllocatorState :=
  let previous := (s.allocations.get? key, s.allocationOrder.get? key)
  { s with saves := s.saves.mapValues fun save => { save with entries := save.entries.setDefault key previous } }

def addAlias (key : Key) (a : PhysicalAllocation) (s : AllocatorState) : AllocatorState :=
  match a.target with
  | none => s
  | some t => { s with aliasesByTarget := GroupIndex.add t key s.aliasesByTarget }

/-- `_remove_alias` -/
def removeAlias (key : Key) (a : PhysicalAllocation) (s : AllocatorState) : AllocatorState :=
  match a.target with
  | none => s
  | some t => { s with aliasesByTarget := GroupIndex.drop t key s.aliasesByTarget }

/-- The extent's bytes return to the gaps; an alias has none of its own. -/
def freeRoot (a : PhysicalAllocation) (s : AllocatorState) : AllocatorState :=
  if a.aliasOf = none then freeExtent a.baseAddress a.endAddress s else s

/-- The row leaves the address index, where bisection finds its key. -/
def dropRow (a : PhysicalAllocation) (s : AllocatorState) : AllocatorState :=
  let position := bisectLeft (before a.addressKey) s.addressKeys
  { s with addressKeys := s.addressKeys.eraseIdx position, addressRows := s.addressRows.eraseIdx position }

def insertRow (a : PhysicalAllocation) (s : AllocatorState) : AllocatorState :=
  let position := bisectLeft (before a.addressKey) s.addressKeys
  { s with
    addressKeys := s.addressKeys.insertIdx position a.addressKey
    addressRows := s.addressRows.insertIdx position a }

/-- The map entry, and an ordinal for a new key. -/
def assign (key : Key) (a : PhysicalAllocation) (s : AllocatorState) : AllocatorState :=
  { s with
    largestAllocation := max s.largestAllocation a.sizeBytes
    peakEndBytes := if a.aliasOf = none then max s.peakEndBytes a.endAddress else s.peakEndBytes
    allocations := s.allocations.insert key a
    allocationOrder := s.allocationOrder.setDefault key s.nextOrder
    nextOrder := if key ∈ s.allocationOrder.keys then s.nextOrder else s.nextOrder + 1 }

/-- A replaced or released extent leaves the indexes. -/
def retire (key : Key) (a : PhysicalAllocation) (s : AllocatorState) : AllocatorState :=
  dropRow a (removeAlias key a (freeRoot a s))

/-- A stored extent enters the map and the indexes. -/
def enter (key : Key) (a : PhysicalAllocation) (s : AllocatorState) : AllocatorState :=
  addAlias key a (occupyExtent a (assign key a (insertRow a s)))

/-- `_store_allocation`; every key `allocate` makes is a native one. -/
def storeAllocation (key : Key) (a : PhysicalAllocation) (s : AllocatorState) : AllocatorState :=
  match s.allocations.get? key with
  | none => enter key a (beforeMutation key s)
  | some previous => if previous = a then s else enter key a (retire key previous (beforeMutation key s))

/-- The loop of `_rebuild_indexes`. -/
def reenter : List (Key × PhysicalAllocation) → AllocatorState → AllocatorState
  | [], s => s
  | (key, a) :: items, s => reenter items (addAlias key a (occupyExtent a s))

/-- The rows sorted, and the other indexes as they are before the loop. -/
def resetIndexes (s : AllocatorState) : AllocatorState :=
  let rows := s.allocations.values.insertionSort fun a b => a.addressKey ≤ b.addressKey
  { s with
    addressRows := rows
    addressKeys := rows.map (·.addressKey)
    largestAllocation := (rows.map (·.sizeBytes)).max?.getD 0
    aliasesByTarget := fun _ => none
    freeExtents := some [Gap.mk 0 s.config.capacityBytes]
    fitExtents := [Gap.mk 0 s.config.capacityBytes] }

/-- `_rebuild_indexes` -/
def rebuildIndexes (s : AllocatorState) : AllocatorState := reenter s.allocations.items (resetIndexes s)

/-- `_restore_allocations` before it rebuilds; `order` lists the set of old
and new keys in the order its iteration yields them. -/
def adoptAllocations (allocations : Dict Key PhysicalAllocation) (order : List Key) (s : AllocatorState) :
    AllocatorState :=
  { order.foldl (fun s key => beforeMutation key s) { s with nativeAllocationKeys := false } with
    allocations := allocations
    allocationOrder := ⟨allocations.keys.zipIdx, by
      rw [List.zipIdx_map_fst]; exact allocations.keys_nodup⟩
    nextOrder := allocations.keys.length }

/-- `_restore_allocations` -/
def restoreAllocations (allocations : Dict Key PhysicalAllocation) (order : List Key) (s : AllocatorState) :
    AllocatorState := rebuildIndexes (adoptAllocations allocations order s)

/-- The iteration orders of the union of old and new keys. -/
def RestoreOrder (allocations : Dict Key PhysicalAllocation) (order : List Key) (s : AllocatorState) : Prop :=
  order.Nodup ∧ order.toFinset = s.allocations.keys.toFinset ∪ allocations.keys.toFinset

/-! ## Transactions -/

def beginTransaction (s : AllocatorState) : Nat × AllocatorState :=
  (s.nextSave, { s with
    openSaves := s.openSaves ++ [s.nextSave]
    saves := s.saves.insert s.nextSave ⟨.empty, s.peakEndBytes⟩
    nextSave := s.nextSave + 1 })

/-- `del saves[index:]` at the last place of `save`. -/
def closeFrom (save : Nat) (opened : List Nat) : List Nat :=
  match (opened.reverse.dropWhile (· ≠ save)) with
  | [] => opened
  | _ :: rest => rest.reverse

/-- `_close`, of a save `begin_transaction` made. -/
def close (save : Nat) (s : AllocatorState) : AllocatorState := { s with openSaves := closeFrom save s.openSaves }

def commitTransaction (save : Nat) (s : AllocatorState) : AllocatorState := close save s

/-- The loop body of `rollback_transaction`; the flags are `changed` and
`restore_existing`. A saved extent has an ordinal. -/
def restoreEntry (r : Bool × Bool × AllocatorState) (e : Key × Option PhysicalAllocation × Option Nat) :
    Bool × Bool × AllocatorState :=
  let (changed, existing, s) := r
  let (key, previous, order) := e
  if s.allocations.get? key = previous ∧ s.allocationOrder.get? key = order then (changed, existing, s)
  else
    let s := beforeMutation key s
    match previous with
    | none =>
      (true, existing || order.isSome,
        { s with allocations := s.allocations.erase key, allocationOrder := s.allocationOrder.erase key })
    | some a =>
      (true, true,
        { s with
          allocations := s.allocations.insert key a
          allocationOrder := s.allocationOrder.insert key (order.getD 0) })

def sortByOrdinal (s : AllocatorState) : AllocatorState :=
  let sorted := s.allocations.items.insertionSort fun p q =>
    (s.allocationOrder.get? p.1).getD 0 ≤ (s.allocationOrder.get? q.1).getD 0
  { s with allocations := ⟨sorted, ((List.perm_insertionSort _ _).map Prod.fst).nodup_iff.2 s.allocations.nodup⟩ }

/-- The next ordinal, and the sort that restored keys need. -/
def reorder (existing : Bool) (s : AllocatorState) : AllocatorState :=
  let s := { s with nextOrder := s.allocationOrder.values.foldl (fun n o => max n (o + 1)) s.nextOrder }
  if existing || !s.nativeAllocationKeys then sortByOrdinal s else s

/-- `rollback_transaction`, of a save that is still retained. -/
def rollbackTransaction (save : Nat) (s : AllocatorState) : Option AllocatorState :=
  match s.saves.get? save with
  | none => none
  | some t =>
    let s := close save s
    let (changed, existing, s) := t.entries.items.foldl restoreEntry (false, false, { s with peakEndBytes := t.peak })
    if changed then some (rebuildIndexes (reorder existing s)) else some s

/-- The caller drops a closed save: the weak registry loses it. -/
def forget (save : Nat) (s : AllocatorState) : AllocatorState :=
  if save ∈ s.openSaves then s else { s with saves := s.saves.erase save }

end HeteroSim.Allocator
