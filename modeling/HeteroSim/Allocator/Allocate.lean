/-
`allocate` and `release`: the validation, the re-registration of a live
extent, first fit, and the texts of the errors. A raising call leaves the
allocator as it was, so the operations return the new state or the text.
-/
import HeteroSim.Allocator.State
import HeteroSim.Raising

namespace HeteroSim.Allocator

/-- `_key` -/
def keyOf (bufferId : String) (generation : Int) : Except String Key :=
  if strip bufferId = "" then .error "buffer_id must be non-empty text"
  else if generation < 0 then .error "generation must be a non-negative integer"
  else .ok (strip bufferId, generation)

/-- `_check_extent` -/
def checkExtent (cfg : AllocatorConfig) (base size : Int) : Except String Unit :=
  if base < 0 then .error "base address must be a non-negative integer"
  else if size ≤ 0 then .error "size_bytes must be a positive integer"
  else if cfg.capacityBytes < base + size then
    .error s!"allocation range {base} + {size} exceeds capacity {cfg.capacityBytes}"
  else .ok ()

/-- `_overlaps` -/
def overlaps (s : AllocatorState) (base size : Int) (ignore : Option Key) : List PhysicalAllocation :=
  (s.allocations.items.filter fun p => decide (ignore ≠ some p.1 ∧ p.2.aliasOf = none ∧
    base < p.2.endAddress ∧ p.2.baseAddress < base + size)).map (·.2)

/-- The arena named, or that of the generation, is the resident one. -/
def isResident (generation : Int) : Option Arena → Bool
  | some arena => arena = .resident
  | none => generation = 0

/-- `_arena` -/
def arenaOf (cfg : AllocatorConfig) (generation : Int) (arena : Option Arena) : Int × Int :=
  if cfg.workspaceCapacityBytes = 0 then (0, cfg.capacityBytes)
  else
    let boundary := cfg.capacityBytes - cfg.workspaceCapacityBytes
    if isResident generation arena then (0, boundary) else (boundary, cfg.capacityBytes)

/-- `allocation_arena or ("resident" if generation == 0 else "workspace")` -/
def arenaOr (generation : Int) (arena : Option Arena) : Arena :=
  arena.getD (if generation = 0 then .resident else .workspace)

/-- `_check_arena_extent` -/
def checkArenaExtent (cfg : AllocatorConfig) (base size generation : Int) (arena : Option Arena) :
    Except String Unit := do
  checkExtent cfg base size
  let (lower, upper) := arenaOf cfg generation arena
  refuse (base < lower ∨ upper < base + size)
    (s!"allocation generation {generation} range {base} + {size} exceeds its " ++
      s!"{(arenaOr generation arena).text} arena [{lower}, {upper})")

/-- `_allocation_exhausted`'s text. -/
def exhaustedMessage (cfg : AllocatorConfig) (size generation : Int) (arena : Option Arena) : String :=
  let (lower, upper) := arenaOf cfg generation arena
  s!"unable to allocate {size} bytes in capacity {cfg.capacityBytes}" ++
    (if cfg.workspaceCapacityBytes = 0 then ""
     else s!" ({(arenaOr generation arena).text} arena [{lower}, {upper}))")

/-- The first-fit loop over the gaps an aligned fit can use. -/
def fitGaps (cfg : AllocatorConfig) (size lower upper : Int) : List Gap → Option Int
  | [] => none
  | g :: gaps =>
    if upper ≤ g.lo then none
    else
      let cursor := align (max g.lo lower) cfg.alignmentBytes
      if cursor + size ≤ min g.hi upper then some cursor else fitGaps cfg size lower upper gaps

/-- The first-fit loop over the address rows, used when the gap list was
given up. -/
def fitRows (cfg : AllocatorConfig) (size lower upper : Int) : List PhysicalAllocation → Int → Option Int
  | [], cursor =>
    let cursor := align cursor cfg.alignmentBytes
    if upper < cursor + size then none else some cursor
  | item :: rows, cursor =>
    if upper ≤ item.baseAddress then
      let cursor := align cursor cfg.alignmentBytes
      if upper < cursor + size then none else some cursor
    else if item.aliasOf.isSome ∨ item.endAddress ≤ lower then fitRows cfg size lower upper rows cursor
    else
      let cursor := align cursor cfg.alignmentBytes
      if cursor + size ≤ item.baseAddress then some cursor
      else fitRows cfg size lower upper rows (max cursor item.endAddress)

/-- `_find_first_fit` -/
def findFirstFit (s : AllocatorState) (size generation : Int) (arena : Option Arena) : Except String Int :=
  let (lower, upper) := arenaOf s.config generation arena
  let found := match s.freeExtents with
    | some _ =>
      let position := bisectLeft (fun g => decide (g.lo < lower + 1)) s.fitExtents - 1
      fitGaps s.config size lower upper (s.fitExtents.drop position)
    | none =>
      let position := bisectLeft (fun k => decide ((ofLex k).1 < lower - s.largestAllocation)) s.addressKeys
      fitRows s.config size lower upper (s.addressRows.drop position) lower
  match found with
  | some base => .ok base
  | none => .error (exhaustedMessage s.config size generation arena)

/-- The arguments of `allocate`. -/
structure Request where
  bufferId : String
  sizeBytes : Int
  generation : Int := 0
  aliasOf : Option String := none
  aliasGeneration : Option Int := none
  address : Option Int := none
  aliasOffsetBytes : Int := 0
  inferred : Bool := false
  allocationArena : Option String := none

/-- The argument as the code compares it: one of two names, or an error. -/
def arenaArgument : Option String → Except String (Option Arena)
  | none => .ok none
  | some "resident" => .ok (some .resident)
  | some "workspace" => .ok (some .workspace)
  | some _ => .error "allocation_arena must be resident or workspace"

/-- `alias_of` trimmed, and `alias_generation` with its default. -/
def aliasArgument (r : Request) (key : Key) : Except String (Option String × Option Int) :=
  if ∃ g ∈ r.aliasGeneration, g < 0 then .error "alias_generation must be a non-negative integer"
  else
    match r.aliasOf with
    | none => .ok (none, r.aliasGeneration)
    | some target =>
      if strip target = "" then .error "alias_of must be non-empty text"
      else .ok (some (strip target), some (r.aliasGeneration.getD key.2))

/-- Growth of an inferred extent in place; `existing` is what is live. -/
def grow (s : AllocatorState) (r : Request) (key : Key) (existing : PhysicalAllocation) (arena : Option Arena)
    (ident : Nat) : Except String PhysicalAllocation := do
  refuse (existing.aliasOf.isSome ∨ existing.inferred = false ∨ r.inferred = false)
    s!"allocation {r.bufferId} cannot grow"
  checkArenaExtent s.config existing.baseAddress r.sizeBytes r.generation arena
  refuse (overlaps s existing.baseAddress r.sizeBytes (some key) ≠ [])
    s!"allocation {key.1} generation {key.2} cannot grow without moving"
  pure { existing with ident, sizeBytes := r.sizeBytes }

/-- The extent a new size makes of `existing`. -/
def resized (s : AllocatorState) (r : Request) (key : Key) (existing : PhysicalAllocation) (arena : Option Arena)
    (ident : Nat) : Except String PhysicalAllocation :=
  if existing.sizeBytes < r.sizeBytes then grow s r key existing arena ident
  else if r.sizeBytes ≠ existing.sizeBytes ∧ (existing.inferred = false ∨ r.inferred = false) then
    .error s!"allocation size changed for {r.bufferId}"
  else .ok existing

/-- An arena argument is checked for the live extent. -/
def recheckArena (s : AllocatorState) (r : Request) (argument arena : Option Arena) (existing : PhysicalAllocation) :
    Except String Unit :=
  if argument.isSome then checkArenaExtent s.config existing.baseAddress existing.sizeBytes r.generation arena
  else .ok ()

/-- A call for a live key: what the key will hold. -/
def reregister (s : AllocatorState) (r : Request) (key : Key) (argument : Option Arena)
    (alias_ : Option String × Option Int) (existing : PhysicalAllocation) (ident : Nat) :
    Except String PhysicalAllocation := do
  refuse (∃ a ∈ argument, ∃ b ∈ existing.allocationArena, a ≠ b) s!"allocation arena changed for {r.bufferId}"
  let arena := if argument = none then existing.allocationArena else argument
  recheckArena s r argument arena existing
  refuse (∃ a ∈ r.address, a ≠ existing.baseAddress) s!"allocation address changed for {r.bufferId}"
  refuse (existing.aliasOf ≠ alias_.1 ∨ existing.aliasGeneration ≠ alias_.2)
    s!"allocation alias changed for {r.bufferId}"
  refuse (existing.aliasOffsetBytes ≠ r.aliasOffsetBytes) s!"allocation alias offset changed for {r.bufferId}"
  let sized ← resized s r key existing arena ident
  pure (if arena ≠ sized.allocationArena then { sized with ident, allocationArena := arena } else sized)

/-- The base of a new alias, and the arena it takes from its target. -/
def placeAlias (s : AllocatorState) (r : Request) (target : Key) (argument : Option Arena) :
    Except String (Int × Option Arena) := do
  match s.allocations.get? target with
  | none => .error s!"alias target {target.1} generation {target.2} is not allocated"
  | some t =>
    let targetArena := arenaOr t.generation t.allocationArena
    refuse (∃ a ∈ argument, a ≠ targetArena) "alias arena differs from target allocation"
    refuse (t.sizeBytes < r.aliasOffsetBytes + r.sizeBytes)
      s!"alias range exceeds target allocation {target.1} generation {target.2}"
    let base := t.baseAddress + r.aliasOffsetBytes
    checkExtent s.config base r.sizeBytes
    refuse (∃ a ∈ r.address, a ≠ base) s!"allocation address changed for {r.bufferId}"
    pure (base, some targetArena)

/-- The base of a new root at the address asked for. -/
def placeAt (s : AllocatorState) (r : Request) (address : Int) (argument : Option Arena) : Except String Int := do
  refuse (address < 0) "address must be a non-negative integer"
  checkArenaExtent s.config address r.sizeBytes r.generation argument
  match overlaps s address r.sizeBytes none with
  | [] => pure address
  | first :: _ => .error s!"allocation {r.bufferId} overlaps {first.bufferId} without an explicit alias"

/-- A call for a new key: where it goes. -/
def place (s : AllocatorState) (r : Request) (argument : Option Arena) (alias_ : Option String × Option Int) :
    Except String (Int × Option Arena) :=
  match alias_ with
  | (some target, some generation) => placeAlias s r (target, generation) argument
  | _ =>
    match r.address with
    | some address => do
      let base ← placeAt s r address argument
      pure (base, argument)
    | none => do
      let base ← findFirstFit s r.sizeBytes r.generation argument
      pure (base, argument)

/-- The extent of a new key. -/
def fresh (r : Request) (key : Key) (alias_ : Option String × Option Int) (at_ : Int × Option Arena) (ident : Nat) :
    PhysicalAllocation :=
  { ident, bufferId := key.1, baseAddress := at_.1, sizeBytes := r.sizeBytes, generation := key.2
    aliasOf := alias_.1, aliasGeneration := alias_.2, aliasOffsetBytes := r.aliasOffsetBytes
    inferred := r.inferred, allocationArena := at_.2 }

/-- The extent the call leaves at its key. -/
def chosen (r : Request) (ident : Nat) (s : AllocatorState) (key : Key) (argument : Option Arena)
    (alias_ : Option String × Option Int) : Except String PhysicalAllocation :=
  match s.allocations.get? key with
  | some existing => reregister s r key argument alias_ existing ident
  | none => do
    let at_ ← place s r argument alias_
    pure (fresh r key alias_ at_ ident)

/-- `allocate`; a new object gets the identity `ident`. -/
def allocate (r : Request) (ident : Nat) (s : AllocatorState) :
    Except String (PhysicalAllocation × AllocatorState) := do
  let key ← keyOf r.bufferId r.generation
  refuse (r.sizeBytes ≤ 0) "size_bytes must be a positive integer"
  let argument ← arenaArgument r.allocationArena
  let alias_ ← aliasArgument r key
  refuse (r.aliasOffsetBytes < 0) "alias_offset_bytes must be non-negative"
  let a ← chosen r ident s key argument alias_
  pure (a, storeAllocation key a s)

/-- `release`; an unknown key is nothing to release. -/
def release (bufferId : String) (generation : Int) (s : AllocatorState) : Except String AllocatorState := do
  let key ← keyOf bufferId generation
  match s.allocations.get? key with
  | none => pure s
  | some previous =>
    refuse (s.aliasesByTarget (key.1, some key.2) ≠ none)
      s!"cannot release allocation {key.1} generation {key.2} with live aliases"
    let s := beforeMutation key s
    let s := { s with
      allocations := s.allocations.erase key, allocationOrder := s.allocationOrder.erase key }
    pure (retire key previous s)

end HeteroSim.Allocator
