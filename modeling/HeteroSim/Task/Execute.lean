/-
Executing a prepared physical task (`execute_prepared_physical_task`): its
accesses go to their owners' cores in batches, each arriving after the
completions the overlap indexes of its owner answer.
-/
import HeteroSim.Task.Groups
import HeteroSim.Task.Requests

namespace HeteroSim.Task

open HeteroSim.Address

variable {σ κ : Type}

/-- `_OverlapCompletionIndex` -/
structure OverlapIndex where
  endpoints : List ℕ
  tree : RangeTree ℚ

/-- The segments between the endpoints. -/
def segments (endpoints : List ℕ) : ℕ := max 1 (endpoints.length - 1)

/-- `_indices` -/
def indices (endpoints : List ℕ) (r : AccessRequest) : ℕ × ℕ :=
  (max 0 (min (segments endpoints - 1) (bisectLeft (before r.address) endpoints)),
    max 1 (min (segments endpoints) (bisectLeft (before r.stop) endpoints)))

namespace OverlapIndex

def create (endpoints : List ℕ) : OverlapIndex := ⟨endpoints, fun _ => some (0, 0)⟩

def update (x : OverlapIndex) (r : AccessRequest) (completion : ℚ) : OverlapIndex :=
  let place := indices x.endpoints r
  let size := segments x.endpoints
  if place.1 < place.2 then { x with tree := RangeTree.store 0 true place.1 place.2 completion size 1 0 size x.tree }
  else x

def query (x : OverlapIndex) (r : AccessRequest) : ℚ :=
  let place := indices x.endpoints r
  let size := segments x.endpoints
  if place.2 ≤ place.1 then 0 else RangeTree.largest 0 place.1 place.2 size 1 0 size x.tree

end OverlapIndex

/-! ## Tasks -/

inductive Command
  | flush
  | perform (operation : Operation)
deriving DecidableEq

/-- What the ledger records: a flush writes. -/
def Command.recorded : Command → Operation
  | .flush => .write
  | .perform operation => operation

/-- A prepared access; `κ` is the type of the physical configurations. -/
structure Instruction (κ : Type) where
  command : Command
  address : ℕ
  byteCount : ℕ
  owner : String
  config : κ
  byteCount_pos : 0 < byteCount

def Instruction.stop (i : Instruction κ) : ℕ := i.address + i.byteCount

/-- What the execution reads of the task: `request_id or task_id`, the arrival,
the staging metadata and the validated accesses. -/
structure PreparedPhysicalTask (κ : Type) where
  name : String
  arrival : ℚ
  pageStagingScope : Option String
  deferPageStaging : Bool
  instructions : List (Instruction κ)

inductive CoreKind
  | dram (controller : Controller)
  | nand
  | sram

/-- The runtime a task is executed in: its flags, the owners' cores, and the
calls that may raise. -/
structure Runtime (σ κ : Type) where
  captureDetails : Bool
  compiledDramBatch : Bool
  /-- A NAND configuration with `page_staging == "logic_die"`. -/
  logicDie : κ → Bool
  core : String → Core σ
  /-- The owner's core is created, or is there with the same configuration. -/
  runtime : κ → String → EStateM String σ CoreKind
  setStagingScope : String → Option String → EStateM String σ Unit
  flushStagedPages : String → String → ℚ → EStateM String σ ℚ

/-- `all_completion` and `write_completion` -/
structure Completions where
  all : String → OverlapIndex
  writes : String → OverlapIndex

def Completions.record (books : Completions) (owner : String) (x : Executed) : Completions where
  all := Function.update books.all owner ((books.all owner).update x.request x.completion)
  writes :=
    if x.isWrite then Function.update books.writes owner ((books.writes owner).update x.request x.completion)
    else books.writes

namespace PreparedPhysicalTask

variable (t : PreparedPhysicalTask κ)

/-- A task without writes has no dependencies. -/
def trackOverlaps : Bool :=
  decide (1 < t.instructions.length) && t.instructions.any fun i => decide (i.command = .perform .write)

/-- The sorted bounds of the owner's byte ranges. -/
def endpoints (owner : String) : List ℕ :=
  ((t.instructions.filter fun i => decide (i.owner = owner)).flatMap fun i => [i.address, i.stop]).dedup.insertionSort (· ≤ ·)

def create : Completions := ⟨fun owner => .create (t.endpoints owner), fun owner => .create (t.endpoints owner)⟩

/-- The request of the access at `position`, after the prior completions. -/
def request (books : Completions) (position : ℕ) (i : Instruction κ) : AccessRequest :=
  let r : AccessRequest :=
    ⟨s!"{t.name}:{position}", i.command.recorded, i.address, i.byteCount, t.arrival, i.byteCount_pos⟩
  let prior := if i.command = .perform .write then books.all i.owner else books.writes i.owner
  if t.trackOverlaps then r.arriving (max t.arrival (prior.query r)) else r

end PreparedPhysicalTask

/-! ## Batches -/

/-- Following accesses of one operation; writes only while their ranges ascend
without overlap. -/
def ascending [DecidableEq κ] (first : Instruction κ) : ℕ → List (Instruction κ) → List (Instruction κ)
  | _, [] => []
  | previousEnd, next :: rest =>
    if next.owner ≠ first.owner ∨ next.command ≠ first.command ∨ next.config ≠ first.config then []
    else if first.command = .perform .write ∧ next.address < previousEnd then []
    else next :: ascending first next.stop rest

def CoreKind.scheduled : CoreKind → Bool
  | .dram c => decide (c.geometry.scheduler ≠ .fcfs)
  | _ => false

namespace Runtime

variable [DecidableEq κ] (rt : Runtime σ κ)

/-- The accesses after the first that are submitted with it. -/
def joined (kind : CoreKind) (first : Instruction κ) (rest : List (Instruction κ)) : List (Instruction κ) :=
  match kind with
  | .dram c =>
    if c.geometry.scheduler ≠ .fcfs then
      rest.takeWhile fun next => decide (next.owner = first.owner ∧ next.config = first.config ∧
        (next.command = .perform .read ∨ next.command = .perform .write))
    else if rt.compiledDramBatch = true ∧ rt.captureDetails = false ∧
        (first.command = .perform .read ∨ first.command = .perform .write) then
      ascending first first.stop rest
    else []
  | .nand =>
    if rt.captureDetails = false ∧ first.command = .perform .read then
      rest.takeWhile fun next =>
        decide (next.owner = first.owner ∧ next.config = first.config ∧ next.command = .perform .read)
    else []
  | .sram => []

end Runtime

variable (core : Core σ)

def submitOrdered (requests : List AccessRequest) : EStateM String σ (List Executed) := do
  let completions ← core.submitManyOrdered requests
  pure ((places requests).map fun p => ⟨p.1, p.2, completions p.1⟩)

/-- `DramCore.submit_many` -/
def submitManyDram (c : Controller) (requests : List AccessRequest) : EStateM String σ (List Executed) := do
  forM requests fun r => raise (validateDramRequest r c.geometry)
  if c.geometry.scheduler = .frFcfs then submitFrFcfs core requests
  else if c.geometry.scheduler ≠ .fcfs ∧ 1 < requests.length then c.scheduleRequests core requests
  else submitOrdered core requests

def submitEach : List (ℕ × AccessRequest) → EStateM String σ (List Executed)
  | [] => pure []
  | p :: rest => do
    let completion ← core.submit p.2
    let later ← submitEach rest
    pure (⟨p.1, p.2, completion⟩ :: later)

/-- A batch goes to its core: alone, in order, or to the scheduled window. -/
def submitBatch (kind : CoreKind) (requests : List AccessRequest) : EStateM String σ (List Executed) :=
  if kind.scheduled = true ∨ 2 ≤ requests.length then
    match kind with
    | .dram c => submitManyDram core c requests
    | _ => submitOrdered core requests
  else submitEach core (places requests)

namespace Runtime

variable [DecidableEq κ] (rt : Runtime σ κ) (t : PreparedPhysicalTask κ)

/-- A page-staging flush, at the task's arrival. -/
def flush (i : Instruction κ) : EStateM String σ Unit := do
  raise (refuse (rt.logicDie i.config = false) "page-staging flush requires a logic-die NAND owner")
  let scope ← raise ((t.pageStagingScope.filter (· ≠ "")).elim
    (.error "page-staging flush requires page_staging_scope") .ok)
  let _ ← rt.runtime i.config i.owner
  let _ ← rt.flushStagedPages i.owner scope t.arrival
  pure ()

/-- A logic-die owner is told the scope its pages are staged for. -/
def stage (i : Instruction κ) : EStateM String σ Unit :=
  if rt.logicDie i.config then rt.setStagingScope i.owner (if t.deferPageStaging then t.pageStagingScope else none)
  else pure ()

/-- One batch from `first` on: its accesses as executed, with their positions. -/
def executeBatch (index : ℕ) (first : Instruction κ) (rest : List (Instruction κ)) (books : Completions) :
    EStateM String σ (List Executed × ℕ) := do
  let kind ← rt.runtime first.config first.owner
  rt.stage t first
  let batch := rt.joined kind first rest
  let run ← submitBatch (rt.core first.owner) kind
    ((places (first :: batch)).map fun p => t.request books (index + p.1) p.2)
  pure (run.map fun x => { x with index := index + x.index }, batch.length)

/-- The results enter the indexes in the order of the accesses. -/
def record (owner : String) (run : List Executed) (books : Completions) : Completions :=
  if t.trackOverlaps then
    (run.insertionSort fun x y => x.index ≤ y.index).foldl (fun books x => books.record owner x) books
  else books

/-- The loop over the accesses; the number bounds those left. -/
def executeFrom : ℕ → ℕ → List (Instruction κ) → Completions → EStateM String σ (List Executed)
  | 0, _, _, _ => pure []
  | _ + 1, _, [], _ => pure []
  | n + 1, index, first :: rest, books =>
    if first.command = .flush then do
      rt.flush t first
      executeFrom n (index + 1) rest books
    else do
      let batch ← rt.executeBatch t index first rest books
      let later ← executeFrom n (index + 1 + batch.2) (rest.drop batch.2) (record t first.owner batch.1 books)
      pure (batch.1 ++ later)

/-- `execute_prepared_physical_task`: the accesses as their cores executed
them. -/
def executePreparedPhysicalTask : EStateM String σ (List Executed) :=
  rt.executeFrom t t.instructions.length 0 t.instructions t.create

end Runtime

end HeteroSim.Task
