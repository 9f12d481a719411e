/-
Streaming historical KV into buffers that are already there. The destination
ranges split into one stream per component; a source buffer is cut into slots,
dealt to the streams, and a chunk holds its slot from its source read until its
last write completes. Every phase handles the earliest completion and submits
at most one action.
-/
import HeteroSim.Heap
import HeteroSim.Transfer.Plans

namespace HeteroSim.Transfer

variable {W S : Type} (P : Platform W S) (cfg : Config)

/-- `PhysicalAddressAllocator.address` of an owner: buffer, offset, size and generation. -/
abbrev Locate (W : Type) := String → String → ℕ → ℕ → ℕ → W → Except Raised ℕ

variable (locate : Locate W)

/-! ## Destinations -/

/-- A second copy of a range, as `hbm_mirror`. -/
structure Mirror where
  physicalOwner : String
  componentId : String
  bufferId : String
  offsetBytes : ℕ
  sizeBytes : ℕ
  generation : ℕ

/-- A destination range as the caller gives it. -/
structure Destination where
  componentId : String
  bufferId : String
  offsetBytes : ℤ
  sizeBytes : ℤ
  generation : ℕ
  mirror : Option Mirror

/-- A destination range that was accepted. -/
structure Row where
  componentId : String
  bufferId : String
  offsetBytes : ℕ
  sizeBytes : ℕ
  generation : ℕ
  mirror : Option Mirror
  physicalOwner : String
  size_pos : 0 < sizeBytes

def Destination.row (d : Destination) : Except Raised Row :=
  if h : d.componentId = "" ∨ d.bufferId = "" ∨ d.offsetBytes < 0 ∨ d.sizeBytes ≤ 0 then
    .error (.kvPool "invalid external KV destination range")
  else .ok
    { componentId := d.componentId
      bufferId := d.bufferId
      offsetBytes := d.offsetBytes.toNat
      sizeBytes := d.sizeBytes.toNat
      generation := d.generation
      mirror := d.mirror
      physicalOwner := ""
      size_pos := by omega }

/-- One round of the loop over the destinations: the range lies within its buffer. -/
def acceptDestination (d : Destination) : M W Row := do
  let row ← raise d.row
  let service ← raise (ensureService cfg row.componentId)
  let s ← get
  let _ ← raise (locate service.physicalOwner row.bufferId row.offsetBytes row.sizeBytes row.generation s.world)
  return { row with physicalOwner := service.physicalOwner }

def acceptDestinations : List Destination → M W (List Row)
  | [] => return []
  | d :: ds => do
    let row ← acceptDestination cfg locate d
    let rows ← acceptDestinations ds
    return row :: rows

/-- `streams.setdefault(component, []).append(index)`. -/
def addToStream (streams : Dict String (List ℕ)) (row : Row) (index : ℕ) : Dict String (List ℕ) :=
  streams.insert row.componentId ((streams.get? row.componentId).getD [] ++ [index])

/-- The rows of each component, by their places. -/
def streamRows : List Row → ℕ → Dict String (List ℕ) → Dict String (List ℕ)
  | [], _, streams => streams
  | row :: rows, index, streams => streamRows rows (index + 1) (addToStream streams row index)

/-! ## The state of an import -/

/-- A part of a destination row. -/
structure Piece where
  row : ℕ
  offset : ℕ
  amount : ℕ
deriving DecidableEq

/-- What a chunk is for: its stream, the slot it holds, and the bytes it carries. -/
structure Cut where
  stream : ℕ
  slot : ℕ
  piece : Piece
deriving DecidableEq

/-- What an access is for; the code knows it by the action's place. -/
inductive Role
  | source
  | relay
  | target
  | mirror
deriving DecidableEq

inductive ImportAction
  | memory (role : Role) (component : String) (operation : AccessKind) (address size : ℕ)
  | link (hop : RouteHop) (size : ℕ)

def ImportAction.size : ImportAction → ℕ
  | .memory _ _ _ _ size => size
  | .link _ size => size

/-- A stream: the places of its rows, where it stands in them, and its free slots. -/
structure ImportStream where
  rows : List ℕ
  cursor : ℕ
  offset : ℕ
  free : List ℕ

/-- A chunk in flight; `position` is its next action. -/
structure Chunk where
  cut : Cut
  actions : List ImportAction
  position : ℕ

/-- An action that was submitted: the `index`-th of its chunk, with so many behind it. -/
structure Submission where
  chunk : ℕ
  cut : Cut
  index : ℕ
  left : ℕ
  action : ImportAction
  atNs : ℚ
  completionNs : ℚ

/-- What an import is about; it does not change. -/
structure ImportSetup where
  requestId : String
  sourceComponent : String
  sourceOwner : String
  source : Allocation
  relays : List (String × String × Allocation)
  destinations : List Row
  chunkBytes : ℕ
  slotCount : ℕ
  logicalBytes : ℕ
  startNs : ℚ

/-- The state of an import. -/
structure Import where
  setup : ImportSetup
  done : Bool
  phase : ℕ
  streams : List ImportStream
  chunks : Dict ℕ Chunk
  events : List (ℚ ×ₗ ℕ)
  nextChunkId : ℕ
  submittedActions : ℕ
  submittedWriteBytes : ℕ
  lastWrite : Option (ℚ × ℕ)
  completionNs : ℚ
  submittedUntilNs : ℚ
  phaseToken : ℕ
  final : Bool
  /-- The actions that `submittedActions` counts, in their order. -/
  log : List Submission

def Import.streamAt (imp : Import) (index : ℕ) : ImportStream := (imp.streams[index]?).getD ⟨[], 0, 0, []⟩

/-- Whether a stream has rows that no chunk has carried to their ends. -/
def ImportStream.unstarted (stream : ImportStream) : Prop := stream.cursor < stream.rows.length

instance (stream : ImportStream) : Decidable stream.unstarted := inferInstanceAs (Decidable (_ < _))

/-! ## A chunk's actions -/

def importLinks (amount : ℕ) (hops : List RouteHop) : List ImportAction :=
  (hops.filter fun hop => hop.serviceRef.getD "" = "").map fun hop => .link hop amount

/-- The relays' actions, and the component behind the last of them. -/
def relayActions (base amount : ℕ) : List (String × String × Allocation) → String →
    Except Raised (List ImportAction × String)
  | [], previous => .ok ([], previous)
  | relay :: relays, previous => do
    let hops ← route P previous relay.1 amount
    let address ← relay.2.2.address base amount
    let rest ← relayActions base amount relays relay.1
    return (importLinks amount hops ++ [.memory .relay relay.1 .write address amount,
      .memory .relay relay.1 .read address amount] ++ rest.1, rest.2)

def mirrorActions (w : W) (offset amount : ℕ) : Option Mirror → Except Raised (List ImportAction)
  | none => .ok []
  | some mirror => do
    refuse (mirror.sizeBytes < amount)
      (Raised.kvPool "external KV HBM mirror range is smaller than its source chunk")
    let address ← locate mirror.physicalOwner mirror.bufferId (mirror.offsetBytes + offset) amount mirror.generation w
    return [.memory .mirror mirror.componentId .write address amount]

/-- `_external_chunk_actions`: the source read, and the actions behind it. -/
def chunkActions (setup : ImportSetup) (w : W) (cut : Cut) (row : Row) :
    Except Raised (ImportAction × List ImportAction) := do
  let base := cut.slot * setup.chunkBytes
  let amount := cut.piece.amount
  let address ← setup.source.address base amount
  let relayed ← relayActions P base amount setup.relays setup.sourceComponent
  let hops ← route P relayed.2 row.componentId amount
  let target ← locate row.physicalOwner row.bufferId (row.offsetBytes + cut.piece.offset) amount row.generation w
  let mirrored ← mirrorActions locate w cut.piece.offset amount row.mirror
  return (.memory .source setup.sourceComponent .read address amount,
    relayed.1 ++ importLinks amount hops ++ .memory .target row.componentId .write target amount :: mirrored)

/-! ## Submitting -/

def lastBill (bills : List Bill) : Except Raised ℚ :=
  match bills.getLast? with
  | none => .error (.other "tuple index out of range")
  | some bill => .ok bill.completionNs

/-- `_submit_external_action`: when the action completes. -/
def submitAction (action : ImportAction) (now : ℚ) : M W ℚ :=
  match action with
  | .memory _ component operation address size => do
    let _ ← raise (ensureService cfg component)
    let bills ← ioTransaction P cfg (priceChunks P cfg component operation address size now)
    raise (lastBill bills)
  | .link hop size => do
    let phase ← submitLinkPhase P cfg hop size now
    return phase.completionNs

/-- The counters of a submitted action. -/
def Import.submitted (imp : Import) (a : Submission) : Import :=
  { imp with
    submittedActions := imp.submittedActions + 1
    submittedUntilNs := max imp.submittedUntilNs a.completionNs
    log := imp.log ++ [a] }

/-- The next piece of a stream, for a slot, with its row. -/
def Import.nextCut (imp : Import) (index slot : ℕ) : Option (Cut × Row) :=
  let stream := imp.streamAt index
  (stream.rows[stream.cursor]?).bind fun place => (imp.setup.destinations[place]?).map fun row =>
    (⟨index, slot, place, stream.offset, min imp.setup.chunkBytes (row.sizeBytes - stream.offset)⟩, row)

/-- Where a stream stands behind a cut of its current row. -/
def ImportStream.moved (stream : ImportStream) (piece : Piece) (row : Row) : ImportStream :=
  if piece.offset + piece.amount = row.sizeBytes then { stream with cursor := stream.cursor + 1, offset := 0 }
  else { stream with offset := piece.offset + piece.amount }

/-- A chunk in flight behind its source read. -/
def Import.started (imp : Import) (cut : Cut) (row : Row) (read : ImportAction) (rest : List ImportAction)
    (now completion : ℚ) : Import :=
  { imp.submitted ⟨imp.nextChunkId, cut, 0, rest.length, read, now, completion⟩ with
    streams := imp.streams.set cut.stream ((imp.streamAt cut.stream).moved cut.piece row)
    nextChunkId := imp.nextChunkId + 1
    chunks := imp.chunks.insert imp.nextChunkId ⟨cut, read :: rest, 1⟩
    events := heappush imp.events (toLex (completion, imp.nextChunkId)) }

/-- `_start_external_chunk`. -/
def startChunk (imp : Import) (index slot : ℕ) (now : ℚ) : M W Import :=
  match imp.nextCut index slot with
  | none => throw (.other "list index out of range")
  | some next => do
    let s ← get
    let actions ← raise (chunkActions P locate imp.setup s.world next.1 next.2)
    let completion ← submitAction P cfg actions.1 now
    return imp.started next.1 next.2 actions.1 actions.2 now completion

/-! ## Phases -/

/-- The next phase is the earliest completion that submits more; with none left, the import ends with its last write. -/
def Import.planned (imp : Import) (token : ℕ) : Import :=
  { imp with
    completionNs := (imp.events.head?.map fun event => (ofLex event).1).getD imp.submittedUntilNs
    phaseToken := token
    final := imp.events.isEmpty }

/-- `_external_plan`. -/
def externalPlan (imp : Import) : M W Import := do
  let token ← newPhaseToken
  return imp.planned token

/-- A chunk whose next action was submitted. -/
def Import.carried (imp : Import) (now : ℚ) (chunkId : ℕ) (chunk : Chunk) (action : ImportAction) (completion : ℚ) :
    Import :=
  let position := chunk.position + 1
  let more := position < chunk.actions.length ∨ (imp.streamAt chunk.cut.stream).unstarted
  { imp.submitted ⟨chunkId, chunk.cut, chunk.position, chunk.actions.length - position, action, now, completion⟩ with
    chunks := if more then imp.chunks.insert chunkId { chunk with position } else imp.chunks.erase chunkId
    events := if more then heappush imp.events.tail (toLex (completion, chunkId)) else imp.events.tail
    lastWrite := if position = chunk.actions.length then some (completion, action.size) else none
    submittedWriteBytes := if position = chunk.actions.length then imp.submittedWriteBytes + action.size
      else imp.submittedWriteBytes }

/-- A chunk whose last write completed. -/
def Import.released (imp : Import) (chunkId : ℕ) : Import :=
  { imp with
    chunks := imp.chunks.erase chunkId
    events := imp.events.tail
    lastWrite := none }

/-- A slot that no chunk of its stream needs any more. -/
def Import.freed (imp : Import) (index slot : ℕ) : Import :=
  { imp with streams := imp.streams.modify index fun stream => { stream with free := stream.free ++ [slot] } }

/-- The free slots of a stream, behind a chunk that took one. -/
def Import.taken (imp : Import) (index : ℕ) (free : List ℕ) : Import :=
  { imp with streams := imp.streams.modify index fun stream => { stream with free } }

/-- What the earliest completion leads to. -/
def handlePhase (imp : Import) (now : ℚ) (chunkId : ℕ) (chunk : Chunk) : M W Import :=
  match chunk.actions[chunk.position]? with
  | some action => do
    let completion ← submitAction P cfg action now
    return imp.carried now chunkId chunk action completion
  | none =>
    if (imp.streamAt chunk.cut.stream).unstarted then do
      let next ← startChunk P cfg locate imp chunk.cut.stream chunk.cut.slot now
      return next.released chunkId
    else return (imp.freed chunk.cut.stream chunk.cut.slot).released chunkId

/-- The chunk of the earliest completion, and when that is. -/
def Import.earliest (imp : Import) : Except Raised (ℚ × ℕ × Chunk) :=
  match imp.events.head? with
  | none => .error (.other "list index out of range")
  | some event => match imp.chunks.get? (ofLex event).2 with
    | none => .error (.other s!"KeyError: {(ofLex event).2}")
    | some chunk => .ok ((ofLex event).1, (ofLex event).2, chunk)

/-- `_advance_external_phase`, on the state that `_transfer_state` finds. -/
def advanceExternal (token : ℕ) (imp : Import) : M W Import := do
  raise (refuse (imp.phaseToken ≠ token) (Raised.kvPool "physical transfer phase belongs to a discarded future"))
  raise (refuse imp.done (Raised.kvPool "external KV import is no longer active"))
  raise (refuse imp.final (Raised.kvPool "external KV import has no unsubmitted phases"))
  let event ← raise imp.earliest
  let next ← handlePhase P cfg locate imp event.1 event.2.1 event.2.2
  externalPlan { next with phase := imp.phase + 1 }

/-! ## Preparing -/

structure ImportRequest where
  sourceComponent : String
  destinations : List Destination
  bufferBytes : ℤ
  chunkBytes : ℤ
  requestId : String
  arrivalNs : ℚ

/-- The slots of a stream: `range(index, slots, streams)`. -/
def dealtSlots (index slots streams : ℕ) : List ℕ := List.range' index ((slots - index + streams - 1) / streams) streams

/-- The relays' buffers, each as large as the source's. -/
def allocateRelays (identity : String) (size : ℕ) : List String → M W (List (String × String × Allocation))
  | [] => return []
  | component :: components => do
    let service ← raise (ensureService cfg component)
    let bytes ← allocationBytes P cfg component size
    let allocation ← onWorld (P.allocate service.physicalOwner (identity ++ ":relay:" ++ component) bytes 0 "workspace")
    let rest ← allocateRelays identity size components
    return (component, service.physicalOwner, allocation) :: rest

/-- One turn of a round that fills slots. -/
def dealTurn (start : ℚ) (index : ℕ) (imp : Import) : M W (Bool × Import) :=
  match (imp.streamAt index).free with
  | [] => return (false, imp)
  | slot :: free =>
    if (imp.streamAt index).unstarted then do
      let next ← startChunk P cfg locate imp index slot start
      return (true, next.taken index free)
    else return (false, imp)

/-- A round: a chunk for every stream that has a free slot and something to carry. -/
def dealRound (start : ℚ) : List ℕ → Import → M W (Bool × Import)
  | [], imp => return (false, imp)
  | index :: indices, imp => do
    let turn ← dealTurn P cfg locate start index imp
    let rest ← dealRound start indices turn.2
    return (turn.1 || rest.1, rest.2)

/-- The rounds; each but the last takes a slot, so one more than there are slots is enough. -/
def dealSlots (start : ℚ) : ℕ → Import → M W Import
  | 0, imp => return imp
  | fuel + 1, imp => do
    let round ← dealRound P cfg locate start (List.range imp.streams.length) imp
    if round.1 then dealSlots start fuel round.2 else return round.2

/-- The streams of an import at its start. -/
def openStreams (groups : List (List ℕ)) (slots : ℕ) : List ImportStream :=
  (List.range groups.length).map fun index =>
    ⟨groups.getD index [], 0, 0, dealtSlots index slots groups.length⟩

/-- An import before its first chunk. -/
def Import.open (setup : ImportSetup) (groups : List (List ℕ)) : Import :=
  { setup
    done := false
    phase := 0
    streams := openStreams groups setup.slotCount
    chunks := .empty
    events := []
    nextChunkId := 0
    submittedActions := 0
    submittedWriteBytes := 0
    lastWrite := none
    completionNs := setup.startNs
    submittedUntilNs := setup.startNs
    phaseToken := 0
    final := false
    log := [] }

/-- `prepare_external_import`. -/
def prepareExternalImport (request : ImportRequest) : M W Import := do
  raise (refuse (request.bufferBytes ≤ 0 ∨ request.chunkBytes ≤ 0 ∨ request.requestId = "")
    (Raised.kvPool "external KV requires positive finite buffer/chunk sizes and a request id"))
  let rows ← acceptDestinations cfg locate request.destinations
  raise (refuse (rows = []) (Raised.kvPool "external KV import requires at least one nonempty destination"))
  let groups := (streamRows rows 0 .empty).values
  let slots := request.bufferBytes.toNat / request.chunkBytes.toNat
  raise (refuse (slots < groups.length)
    (Raised.kvPool "external KV source buffer must hold one chunk slot per target stream"))
  let source ← raise (ensureService cfg request.sourceComponent)
  let size := slots * request.chunkBytes.toNat
  let identity := cfg.poolNamespace ++ ":external:" ++ request.requestId
  raise (refuse (request.arrivalNs < 0) (Raised.other "arrival_ns must be finite and non-negative"))
  let allocation ← onWorld (P.allocate source.physicalOwner identity size 0 "workspace")
  let relays ← allocateRelays P cfg identity size cfg.relayComponents
  modify fun s => { s with nextAsyncPlanId := s.nextAsyncPlanId + 1 }
  let filled ← dealSlots P cfg locate request.arrivalNs (slots + 1) (Import.open
    { requestId := request.requestId
      sourceComponent := request.sourceComponent
      sourceOwner := source.physicalOwner
      source := allocation
      relays
      destinations := rows
      chunkBytes := request.chunkBytes.toNat
      slotCount := slots
      logicalBytes := (rows.map Row.sizeBytes).sum
      startNs := request.arrivalNs } groups)
  externalPlan filled

end HeteroSim.Transfer
