/-
Host admission of a NAND core (`nand_core.py`). The commands in flight are
indexed by when they end, all of them and the writes again, so that admission
finds the first time with a free credit of each kind. It looks ahead by
popping what will have ended and pushes it back afterwards; only a command
that is recorded retires what ended before it.
-/
import HeteroSim.Collect
import HeteroSim.Heap
import HeteroSim.Raising
import HeteroSim.Task.Requests

namespace HeteroSim.Nand

open HeteroSim.Task (Operation)

/-- `IndexError`, `KeyError`; the last stands for a loop that does not end. -/
inductive PopulationError
  | indexError
  | keyError
  | unending
deriving DecidableEq

/-- `_HostPopulation`: the live commands by index, and heaps of their ends. -/
structure HostPopulation where
  commands : Dict ℕ (ℚ × Operation)
  nextId : ℕ
  ends : List (ℚ ×ₗ ℕ)
  writeEnds : List (ℚ ×ₗ ℕ)
  reads : ℤ
  writes : ℤ

/-- The end of a command, as the heaps hold it. -/
def endOf (item : ℕ × ℚ × Operation) : ℚ ×ₗ ℕ := toLex (item.2.1, item.1)

/-- When an entry of a heap ends, and its command. -/
def endsAt (item : ℚ ×ₗ ℕ) : ℚ := (ofLex item).1

def commandOf (item : ℚ ×ₗ ℕ) : ℕ := (ofLex item).2

/-- `commands[index]` -/
def commandAt (commands : Dict ℕ (ℚ × Operation)) (index : ℕ) : Except PopulationError (ℚ × Operation) :=
  match commands.get? index with
  | some command => .ok command
  | none => .error .keyError

namespace HostPopulation

/-- `__init__` -/
def ofCommands (commands : List (ℚ × Operation)) : HostPopulation :=
  let byIndex := Dict.collect (commands.zipIdx.map Prod.swap)
  let writeEnds := (byIndex.items.filter fun item => item.2.2 = .write).map endOf
  { commands := byIndex
    nextId := byIndex.items.length
    ends := heapify (byIndex.items.map endOf)
    writeEnds := heapify writeEnds
    reads := byIndex.values.countP fun command => command.2 = .read
    writes := writeEnds.length }

end HostPopulation

/-! ## Looking ahead -/

/-- `_HostAdmission` -/
structure HostAdmission where
  effective : ℚ
  count : ℤ
  reads : ℤ
  writes : ℤ

/-- The variables of `preview`. -/
structure Preview where
  population : HostPopulation
  expired : List (ℚ ×ₗ ℕ)
  expiredWrites : List (ℚ ×ₗ ℕ)
  reads : ℤ
  writes : ℤ
  count : ℤ
  effective : ℚ

/-- The first loop of `preview`, over the heap of all ends. -/
def popEnds : List (ℚ ×ₗ ℕ) → EStateM PopulationError Preview Unit
  | [] => pure ()
  | item :: ends => do
    let w ← get
    if endsAt item ≤ w.effective then
      set { w with population.ends := ends, expired := w.expired ++ [item] }
      let command ← raise (commandAt w.population.commands (commandOf item))
      modify fun w => { w with
        reads := w.reads - if command.2 = .read then 1 else 0
        writes := w.writes - if command.2 = .write then 1 else 0
        count := w.count - 1 }
      popEnds ends
    else pure ()

/-- The second, over the heap of the writes' ends. -/
def popWriteEnds (w : Preview) : Preview :=
  { w with
    population.writeEnds := w.population.writeEnds.dropWhile fun item => decide (endsAt item ≤ w.effective)
    expiredWrites := w.expiredWrites ++ w.population.writeEnds.takeWhile fun item => decide (endsAt item ≤ w.effective) }

/-- What a limit waits for, if it is reached. -/
def blockedBy (limit : Option ℤ) (count : ℤ) (heap : List (ℚ ×ₗ ℕ)) : Except PopulationError (List ℚ) :=
  match limit, heap with
  | none, _ => .ok []
  | some limit, [] => if limit ≤ count then .error .indexError else .ok []
  | some limit, item :: _ => if limit ≤ count then .ok [endsAt item] else .ok []

/-- The loop of `preview`; a pass that goes on has found an end that the next
one pops. -/
def previewLoop (limit writeLimit : Option ℤ) : ℕ → EStateM PopulationError Preview HostAdmission
  | 0 => throw .unending
  | passes + 1 => do
    popEnds (← get).population.ends
    modify popWriteEnds
    let w ← get
    let blocked ← raise (blockedBy limit w.count w.population.ends)
    let blockedWrites ← raise (blockedBy writeLimit w.writes w.population.writeEnds)
    match blocked ++ blockedWrites with
    | [] => pure ⟨w.effective, w.count, w.reads, w.writes⟩
    | first :: rest =>
      set { w with effective := max w.effective (rest.foldl max first) }
      previewLoop limit writeLimit passes

/-- The `finally` of `preview`: what was popped goes back. -/
def Preview.restored (w : Preview) : HostPopulation :=
  { w.population with
    ends := w.expired.foldl heappush w.population.ends
    writeEnds := w.expiredWrites.foldl heappush w.population.writeEnds }

namespace HostPopulation

/-- `preview` -/
def preview (effective : ℚ) (limit writeLimit : Option ℤ) : EStateM PopulationError HostPopulation HostAdmission := fun p =>
  match previewLoop limit writeLimit (p.ends.length + 1) ⟨p, [], [], p.reads, p.writes, p.commands.items.length, effective⟩ with
  | .ok admission w => .ok admission w.restored
  | .error error w => .error error w.restored

/-! ## Recording -/

/-- The first loop of `record`: what has ended is retired. -/
def retireEnds (effective : ℚ) : List (ℚ ×ₗ ℕ) → EStateM PopulationError HostPopulation Unit
  | [] => pure ()
  | item :: ends =>
    if endsAt item ≤ effective then do
      modify fun p => { p with ends := ends }
      let command ← raise (commandAt (← get).commands (commandOf item))
      modify fun p => { p with
        commands := p.commands.erase (commandOf item)
        reads := p.reads - if command.2 = .read then 1 else 0
        writes := p.writes - if command.2 = .write then 1 else 0 }
      retireEnds effective ends
    else pure ()

/-- What `record` adds. -/
def add (completion : ℚ) (operation : Operation) (p : HostPopulation) : HostPopulation :=
  { commands := p.commands.insert p.nextId (completion, operation)
    nextId := p.nextId + 1
    ends := heappush p.ends (toLex (completion, p.nextId))
    writeEnds := if operation = .write then heappush p.writeEnds (toLex (completion, p.nextId)) else p.writeEnds
    reads := p.reads + if operation = .read then 1 else 0
    writes := p.writes + if operation = .write then 1 else 0 }

/-- `record` -/
def record (effective completion : ℚ) (operation : Operation) : EStateM PopulationError HostPopulation Unit := do
  retireEnds effective (← get).ends
  modify fun p => { p with writeEnds := p.writeEnds.dropWhile fun item => decide (endsAt item ≤ effective) }
  modify (add completion operation)

end HostPopulation

/-! ## The queues of a core -/

inductive NandQueueScope
  | device
  | hostChannel
deriving DecidableEq

/-- What admission reads of `NandConfig`, as its validation leaves it. -/
structure HostConfig where
  queueScope : NandQueueScope
  hostChannels : ℕ
  maxOutstandingRequests : ℕ
  maxOutstandingWriteRequests : Option ℕ
  outstanding_pos : 0 < maxOutstandingRequests
  writes_pos : ∀ limit ∈ maxOutstandingWriteRequests, 0 < limit

/-- The admission fields of a core. -/
structure HostQueues where
  acceptance : ℚ
  inflightOperations : HostPopulation
  hostAcceptance : Dict ℕ ℚ
  hostInflight : Dict ℕ HostPopulation

namespace HostQueues

/-- The commands in flight of a host channel, or of the device. -/
def population (s : HostQueues) : Option ℕ → HostPopulation
  | none => s.inflightOperations
  | some channel => (s.hostInflight.get? channel).getD (.ofCommands [])

/-- The clock of a host channel, or of the device. -/
def clock (s : HostQueues) : Option ℕ → ℚ
  | none => s.acceptance
  | some channel => max ((s.hostAcceptance.get? channel).getD 0) s.acceptance

/-- A population is the object that its queue holds, if it holds one. -/
def withPopulation (s : HostQueues) (p : HostPopulation) : Option ℕ → HostQueues
  | none => { s with inflightOperations := p }
  | some channel => if channel ∈ s.hostInflight.keys then { s with hostInflight := s.hostInflight.insert channel p } else s

/-- The queue a command of a NAND channel is admitted to. -/
def queueOf (c : HostConfig) (channel : ℕ) : Option ℕ :=
  if c.queueScope = .hostChannel then some (channel % c.hostChannels) else none

/-- `_admit_host_request`; `channel` is that of the request's mapping. -/
def admitHostRequest (c : HostConfig) (r : Task.AccessRequest) (channel : ℕ) :
    EStateM PopulationError HostQueues (HostAdmission × Option ℕ) := fun s =>
  let queue := queueOf c channel
  match (s.population queue).preview (max r.arrival (s.clock queue)) (some c.maxOutstandingRequests)
      (if r.operation = .write then c.maxOutstandingWriteRequests.map Nat.cast else none) with
  | .ok admitted p => .ok (admitted, queue) (s.withPopulation p queue)
  | .error error p => .error error (s.withPopulation p queue)

/-- `_record_host_admission` -/
def recordHostAdmission (queue : Option ℕ) (effective completion : ℚ) (operation : Operation) :
    EStateM PopulationError HostQueues Unit := fun s =>
  match (s.population queue).record effective completion operation with
  | .error error p => .error error (s.withPopulation p queue)
  | .ok _ p =>
    match queue with
    | none => .ok () { s with acceptance := effective, inflightOperations := p }
    | some channel => .ok () { s with
        hostAcceptance := s.hostAcceptance.insert channel effective
        hostInflight := s.hostInflight.insert channel p }

end HostQueues

end HeteroSim.Nand
