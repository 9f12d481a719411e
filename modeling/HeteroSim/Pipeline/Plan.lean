/-
The bounded transfer pipeline (`plan_transfer_pipeline`): chunks of priced
phases lowered to tasks with FIFO, buffer and credit dependencies.
-/
import HeteroSim.Dict
import HeteroSim.Raising
import HeteroSim.Text

namespace HeteroSim.Pipeline

structure ResourceDemand where
  resourceId : String
  serviceNs : ℚ
deriving DecidableEq

structure TransferPhase where
  name : String
  demands : List ResourceDemand
deriving DecidableEq

inductive TaskCategory
  | compute
  | communication
deriving DecidableEq

structure TaskSpec where
  taskId : String
  requestId : String
  name : String
  category : TaskCategory
  dependencies : List String
  demands : List ResourceDemand
deriving DecidableEq

structure TransferPipelinePlan where
  tasks : List TaskSpec
  chunkReadyTaskIds : List String
  consumerDoneTaskIds : List String
  chunkByteCounts : List ℕ
  bufferCapacityBytes : ℕ
  maxInflightChunks : ℕ
  idealLowerBoundNs : ℚ
  serializedUpperBoundNs : ℚ
deriving DecidableEq

/-- The arguments of `plan_transfer_pipeline`. -/
structure Arguments where
  chunks : List (List TransferPhase)
  chunkByteCounts : List ℕ
  bufferCapacityBytes : ℕ
  maxInflightChunks : ℕ
  consumers : Option (List TransferPhase)
  requestId : String
  name : String
  bufferId : String
  resourceOwners : Dict String String
  resourceCapacities : Dict String ℕ

/-- `"{}.chunk{:04d}.stage{:02d}"` -/
def taskId (name : String) (index stage : ℕ) : String :=
  String.ofList (name.toList ++ ".chunk".toList ++ zeroPad 4 index ++ ".stage".toList ++ zeroPad 2 stage)

namespace Arguments

variable (a : Arguments)

def consumerPhases : List TransferPhase :=
  a.consumers.getD (a.chunks.map fun _ => ⟨"consume", []⟩)

def owner (d : ResourceDemand) : String := (a.resourceOwners.get? d.resourceId).getD d.resourceId

/-- `owner_capacities`; two capacities of one owner must agree. -/
def ownerCapacities : Except String (Dict String ℕ) :=
  a.resourceCapacities.items.foldlM (fun capacities entry => do
    refuse (entry.2 = 0) "resource capacity must be a positive integer"
    let owner := (a.resourceOwners.get? entry.1).getD entry.1
    refuse (∃ c ∈ capacities.get? owner, c ≠ entry.2) "conflicting physical owner capacities"
    pure (capacities.insert owner entry.2)) .empty

def stageResources (phases : List TransferPhase) : List (List String) :=
  phases.map fun phase => phase.demands.map ResourceDemand.resourceId

/-- The checks before the lowering. -/
def validate : Except String Unit := do
  refuse (a.bufferCapacityBytes = 0) "buffer_capacity_bytes must be a positive integer"
  refuse (a.maxInflightChunks = 0) "max_inflight_chunks must be a positive integer"
  refuse (a.requestId = "") "request_id must be non-empty text"
  refuse (a.name = "") "name must be non-empty text"
  refuse (a.bufferId = "") "buffer_id must be non-empty text"
  refuse (a.chunks.length ≠ a.chunkByteCounts.length) "one chunk byte count is required per chunk"
  refuse (4096 < a.chunks.length) "explicit transfer pipeline exceeds 4096 chunks"
  refuse (a.consumerPhases.length ≠ a.chunks.length) "one consumer phase is required per chunk"
  forM (a.chunks.zip a.chunkByteCounts) fun chunk => do
    refuse (chunk.2 = 0) "chunk bytes must be a positive integer"
    refuse (a.bufferCapacityBytes < chunk.2) "chunk exceeds finite buffer capacity"
    refuse (chunk.1 = []) "each chunk requires at least one TransferPhase"
  refuse (∃ first ∈ a.chunks.head?, ∃ phases ∈ a.chunks.tail, stageResources phases ≠ stageResources first)
    "chunk pipeline stage resource paths must match"

end Arguments

/-- The variables of the lowering loop. `byteRelease` and `credits` count
chunks: they are one more than the source's release indexes. -/
structure Lowering where
  tasks : List TaskSpec
  readyIds : List String
  doneIds : List String
  previousStageIds : List String
  cumulative : List ℕ
  byteRelease : ℕ
  serialNs : ℚ
  longestChunkNs : ℚ
  ownerService : Dict String ℚ

/-- The first prefix from `n` on after which `total` bytes fit. -/
def releasePrefix (capacity total : ℕ) : List ℕ → ℕ → ℕ
  | [], n => n
  | c :: rest, n => if capacity < total - c then releasePrefix capacity total rest (n + 1) else n

def stageNs (phase : TransferPhase) : ℚ := ((phase.demands.map ResourceDemand.serviceNs).max?).getD 0

/-- The dependencies of a stage: the stage before it, or the chunk's credit,
and the same stage of the chunk before. -/
def stageDependencies (name : String) (index stage : ℕ) (credit previousStageIds : List String) : List String :=
  ((if stage = 0 then credit else [taskId name index (stage - 1)]) ++ (previousStageIds[stage]?).toList).eraseDups

namespace Arguments

variable (a : Arguments)

/-- One chunk of the lowering loop. -/
def lowerChunk (s : Lowering) (index : ℕ) (phases : List TransferPhase) (size : ℕ) (consumer : TransferPhase) : Lowering :=
  let cumulative := s.cumulative ++ [s.cumulative.getLast?.getD 0 + size]
  let byteRelease := releasePrefix a.bufferCapacityBytes (cumulative.getLast?.getD 0) (cumulative.drop s.byteRelease) s.byteRelease
  let credits := max byteRelease (index + 1 - a.maxInflightChunks)
  let credit := if credits = 0 then [] else (s.doneIds[credits - 1]?).toList
  let stages := phases ++ [consumer]
  let stageIds := (List.range stages.length).map (taskId a.name index)
  let tasks := (List.range stages.length).zipWith (fun stage phase => {
    taskId := taskId a.name index stage
    requestId := a.requestId
    name := a.name ++ "." ++ phase.name
    category := if stage = phases.length ∧ phase.demands ≠ [] then .compute else .communication
    dependencies := stageDependencies a.name index stage credit s.previousStageIds
    demands := phase.demands }) stages
  let chunkNs := (stages.map stageNs).sum
  { tasks := s.tasks ++ tasks
    readyIds := s.readyIds ++ [taskId a.name index (phases.length - 1)]
    doneIds := s.doneIds ++ [taskId a.name index phases.length]
    previousStageIds := stageIds
    cumulative := cumulative
    byteRelease := byteRelease
    serialNs := s.serialNs + chunkNs
    longestChunkNs := max s.longestChunkNs chunkNs
    ownerService := (stages.flatMap TransferPhase.demands).foldl
      (fun service d => service.insert (a.owner d) ((service.get? (a.owner d)).getD 0 + d.serviceNs)) s.ownerService }

/-- The chunks with their indexes, sizes and consumers. -/
def lowerFrom : ℕ → List (List TransferPhase) → List ℕ → List TransferPhase → Lowering → Lowering
  | index, phases :: chunks, size :: sizes, consumer :: consumers, s =>
    lowerFrom (index + 1) chunks sizes consumers (a.lowerChunk s index phases size consumer)
  | _, _, _, _, s => s

def lower : Lowering :=
  a.lowerFrom 0 a.chunks a.chunkByteCounts a.consumerPhases ⟨[], [], [], [], [0], 0, 0, 0, .empty⟩

end Arguments

/-- `plan_transfer_pipeline` -/
def planTransferPipeline (a : Arguments) : Except String TransferPipelinePlan := do
  a.validate
  let capacities ← a.ownerCapacities
  refuse (∃ phase ∈ a.chunks.flatten ++ a.consumerPhases, ¬(phase.demands.map a.owner).Nodup)
    "coalesce same-owner phase demands before pipeline lowering"
  let s := a.lower
  let bounds := s.ownerService.items.map fun entry => entry.2 / (((capacities.get? entry.1).getD 1 : ℕ) : ℚ)
  pure {
    tasks := s.tasks
    chunkReadyTaskIds := s.readyIds
    consumerDoneTaskIds := s.doneIds
    chunkByteCounts := a.chunkByteCounts
    bufferCapacityBytes := a.bufferCapacityBytes
    maxInflightChunks := a.maxInflightChunks
    idealLowerBoundNs := max s.longestChunkNs ((bounds.max?).getD 0)
    serializedUpperBoundNs := s.serialNs }

end HeteroSim.Pipeline
