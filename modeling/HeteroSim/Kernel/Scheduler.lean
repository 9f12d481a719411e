/-
The event kernel (`event_kernel.py`): submission of tasks, and the step that
executes one. Ready tasks wait in a heap for each group of resources; of each
group the first is in one heap more, under the key it had when it was put
there, and an entry is looked at again when it comes up. The dictionaries by
active task are one, and what it holds of a task that follows from the task
is computed. What memory devices do to a task is a parameter, and of the
indexes of physical allocations only that a submission clears them is here.
`events` is a ghost: all that was executed, the first first.
-/
import HeteroSim.Heap
import HeteroSim.Kernel.Calendar
import HeteroSim.Kernel.SeenIds
import HeteroSim.Raising

namespace HeteroSim.Kernel

abbrev ResourceGroup := List String

/-- Effective ready, dependency ready, earliest start, phase, sequence, id. -/
abbrev StaticReadyKey := ℚ ×ₗ ℚ ×ₗ ℚ ×ₗ (ℤ ×ₗ ℤ ×ₗ String)

/-- The same behind the actual start. -/
abbrev InternalReadyKey := ℚ ×ₗ StaticReadyKey

/-- A key, its group, and the version of the group it belongs to. -/
abbrev GlobalReadyEntry := InternalReadyKey ×ₗ (ResourceGroup ×ₗ ℕ)

structure KernelEvent where
  task : ScheduledTask
  startNs : ℚ
  dependencyReadyNs : ℚ
  effectiveReadyNs : ℚ
  demands : List (ResourceDemand ℚ)
  bill : Calendar.Bill

def KernelEvent.endNs (e : KernelEvent) : ℚ := e.bill.endNs

/-- A task that is not executed yet: `_tasks`, `_indegree`,
`_dependency_ready`. -/
structure ActiveTask where
  task : ScheduledTask
  indegree : ℤ
  dependencyReadyNs : ℚ

/-- An owner, a buffer and a generation. -/
abbrev AllocationKey := String × String × ℕ

/-- The lifetime indexes of physical allocations. -/
structure PhysicalAllocations where
  uses : List (AllocationKey × ℕ)
  externalKeys : List AllocationKey
  arenas : List (AllocationKey × String)
  taskKeys : List (String × List AllocationKey)
  lastEnd : List (AllocationKey × ℚ)
  pendingReleases : List (AllocationKey × ℚ)

def PhysicalAllocations.empty : PhysicalAllocations := ⟨[], [], [], [], [], []⟩

/-- The execution of a task that is not ordinary. -/
abbrev Devices := Calendar → ScheduledTask → ℚ → ℚ → Except KernelError (Calendar × List (ResourceDemand ℚ) × Calendar.Bill)

structure UnifiedEventKernel where
  calendar : Calendar
  tasks : Dict String ActiveTask
  dependents : String → List String
  completedEnd : String → Option ℚ
  completionLeases : String → ℤ
  seen : SeenHistory
  physicalAllocations : PhysicalAllocations
  readyByGroup : ResourceGroup → List StaticReadyKey
  groupVersions : ResourceGroup → ℕ
  readyHeap : List GlobalReadyEntry
  totalQueueWaitNs : ℚ
  totalServiceNs : ℚ
  completedCount : ℕ
  makespanNs : ℚ
  events : List KernelEvent

namespace UnifiedEventKernel

/-! ## A new kernel -/

/-- The checks of `__init__` on the owners. -/
def checkOwners (owners : Dict String String) : Except KernelError Unit := do
  refuse (∃ p ∈ owners.items, p.1 = "" ∨ p.2 = "") (.value "resource owner ids must be non-empty strings")
  refuse (∃ p ∈ owners.items, ∃ o ∈ owners.get? p.2, o ≠ p.2)
    (.value "resource owners must be direct physical ids, not alias chains")

/-- The capacities by owner. -/
def collectOwnerCapacities (owners : Dict String String) : List (String × Int) → Dict String Int → Except KernelError (Dict String Int)
  | [], collected => .ok collected
  | (resourceId, capacity) :: rest, collected => do
    let ownerId := (owners.get? resourceId).getD resourceId
    refuse (∃ previous ∈ collected.get? ownerId, previous ≠ capacity)
      (.value s!"conflicting capacity for physical resource owner {ownerId}")
    collectOwnerCapacities owners rest (collected.insert ownerId capacity)

/-- `setdefault` of the capacity of every alias. -/
def aliasCapacities (ownerCapacities : Dict String Int) : List (String × String) → Dict String Int → Dict String Int
  | [], capacities => capacities
  | (logicalId, ownerId) :: rest, capacities =>
    aliasCapacities ownerCapacities rest
      (if logicalId ∈ capacities.keys then capacities else capacities.insert logicalId ((ownerCapacities.get? ownerId).getD 1))

/-- `__init__` -/
def create (resourceCapacities : Dict String Int) (resourceOwners : Dict String String) :
    Except KernelError UnifiedEventKernel := do
  checkOwners resourceOwners
  let ownerCapacities ← collectOwnerCapacities resourceOwners resourceCapacities.items .empty
  refuse (∃ p ∈ resourceCapacities.items, p.1 = "") (.value "resource capacity ids must not be empty")
  refuse (∃ p ∈ resourceCapacities.items, p.2 ≤ 0) (.value "resource capacities must be positive integers")
  let capacities := ownerCapacities.items.foldl (fun d p => d.insert p.1 p.2) resourceCapacities
  pure {
    calendar := {
      resourceOwners
      ownerCapacities
      resourceCapacities := aliasCapacities ownerCapacities resourceOwners.items capacities
      resourceAvailable := fun _ => 0
      laneAvailable := fun r => (ownerCapacities.get? r).map fun capacity => List.replicate capacity.toNat 0
      laneLastInterval := fun _ _ => none
      resourceLastInterval := fun _ => none
      busyNs := fun _ => 0
      queueWaitNs := fun _ => 0
      taskCount := fun _ => 0 }
    tasks := .empty
    dependents := fun _ => []
    completedEnd := fun _ => none
    completionLeases := fun _ => 0
    seen := .init
    physicalAllocations := .empty
    readyByGroup := fun _ => []
    groupVersions := fun _ => 0
    readyHeap := []
    totalQueueWaitNs := 0
    totalServiceNs := 0
    completedCount := 0
    makespanNs := 0
    events := [] }

/-! ## Ready tasks -/

def activeTask (k : UnifiedEventKernel) (taskId : String) : Except KernelError ActiveTask :=
  (k.tasks.get? taskId).elim (.error .key) .ok

/-- `_static_ready_key` -/
def staticReadyKey (a : ActiveTask) : StaticReadyKey :=
  toLex (if a.dependencyReadyNs < a.task.earliestStartNs then a.task.earliestStartNs else a.dependencyReadyNs,
    toLex (a.dependencyReadyNs, toLex (a.task.earliestStartNs, toLex (a.task.phase, toLex (a.task.sequence, a.task.taskId)))))

/-- `_ready_key` -/
def readyKey (k : UnifiedEventKernel) (taskId : String) : Except KernelError InternalReadyKey := do
  let a ← k.activeTask taskId
  let demands ← a.task.readyDemands
  let effectiveReadyNs := (ofLex (staticReadyKey a)).1
  let resourcesReadyNs := k.calendar.demandsReadyNs demands
  pure (toLex (if effectiveReadyNs < resourcesReadyNs then resourcesReadyNs else effectiveReadyNs, staticReadyKey a))

/-- The last of a static key: the id. -/
def keyTaskId (key : StaticReadyKey) : String := (ofLex (ofLex (ofLex (ofLex (ofLex key).2).2).2).2).2

/-- `_refresh_group` -/
def refreshGroup (group : ResourceGroup) : EStateM KernelError UnifiedEventKernel Unit := do
  modify fun k => { k with groupVersions := Function.update k.groupVersions group (k.groupVersions group + 1) }
  let k ← get
  match k.readyByGroup group with
  | [] => pure ()
  | first :: _ =>
    let key ← raise (k.readyKey (keyTaskId first))
    set { k with readyHeap := heappush k.readyHeap (toLex (key, toLex (group, k.groupVersions group))) }

/-- `_add_ready_task`: the group whose first task it became. -/
def addReadyTask (taskId : String) : EStateM KernelError UnifiedEventKernel (Option ResourceGroup) := do
  let k ← get
  let a ← raise (k.activeTask taskId)
  let waiting := k.readyByGroup a.task.group
  let queued := heappush waiting (staticReadyKey a)
  set { k with readyByGroup := Function.update k.readyByGroup a.task.group queued }
  pure (if queued.head? = waiting.head? then none else some a.task.group)

/-- `_pop_ready_entry`, in at most so many turns. -/
def popReadyEntry : ℕ → EStateM KernelError UnifiedEventKernel (Option GlobalReadyEntry)
  | 0 => throw .exhausted
  | turns + 1 => do
    let k ← get
    match k.readyHeap with
    | [] => pure none
    | queued :: heap =>
      set { k with readyHeap := heap }
      let group := (ofLex (ofLex queued).2).1
      if (ofLex (ofLex queued).2).2 ≠ k.groupVersions group then popReadyEntry turns
      else
        match k.readyByGroup group with
        | [] => popReadyEntry turns
        | first :: _ =>
          let current ← raise (k.readyKey (keyTaskId first))
          if current ≠ (ofLex queued).1 then
            refreshGroup group
            popReadyEntry turns
          else pure (some queued)

/-- An entry is looked at twice at most. -/
def popTurns (k : UnifiedEventKernel) : ℕ := 2 * k.readyHeap.length + 1

/-- `peek_ready_key` -/
def peekReadyKey : EStateM KernelError UnifiedEventKernel (Option InternalReadyKey) := do
  let k ← get
  let queued ← popReadyEntry k.popTurns
  match queued with
  | none => pure none
  | some entry =>
    modify fun k => { k with readyHeap := heappush k.readyHeap entry }
    pure (some (ofLex entry).1)

/-! ## Submission -/

/-- The first loop of `submit` on one task. -/
def checkTask (c : Calendar) (task : ScheduledTask) : Except KernelError Unit := do
  refuse (task.taskId = "") (.value "task task_id must be a non-empty string")
  refuse ("" ∈ task.dependencies) (.value "task dependencies must be non-empty strings")
  refuse (∃ d ∈ task.demands, d.resourceId = "") (.value "demand resource_id must be a non-empty string")
  c.validateOwnerDemands task
  task.metadataError.elim (.ok ()) fun text => .error (.value text)

/-- The dependencies of a task in its chunk. -/
def localDependencies (chunk : List ScheduledTask) (taskId : String) : List String :=
  ((chunk.find? fun t => t.taskId = taskId).map fun t => t.dependencies.filter (· ∈ chunk.map (·.taskId))).getD []

/-- The rest of the first phase; the text of a duplicate names one of them. -/
def checkChunk (k : UnifiedEventKernel) (chunk : List ScheduledTask) (retained : List String) : Except KernelError Unit := do
  let chunkIds := chunk.map (·.taskId)
  forM chunk (checkTask k.calendar)
  refuse (¬chunkIds.Nodup) (.value "task chunk contains duplicate task ids")
  refuse (∃ t ∈ chunkIds, HasSeenTaskId k.seen t) (.value "duplicate task_id")
  refuse ("" ∈ retained) (.value "retained dependency ids must be non-empty strings")
  refuse (¬retained.Nodup) (.value "retain_dependencies contains duplicate ids")
  refuse (∃ d ∈ retained, k.completionLeases d ≤ 0) (.value "cannot retain unavailable completion")
  refuse (∃ t ∈ chunk, ∃ d ∈ t.dependencies, d ∉ chunkIds ∧ d ∉ k.tasks.keys ∧ k.completedEnd d = none)
    (.value "task has unavailable dependency")
  refuse (Kahn.visitedCount (localDependencies chunk) chunkIds ≠ some chunk.length) (.value "schedule contains a dependency cycle")

/-- What is staged of a task: how many dependencies are open, and when the
others had ended. -/
def stagedTask (k : UnifiedEventKernel) (task : ScheduledTask) : ActiveTask where
  task := task
  indegree := task.dependencies.countP fun d => k.completedEnd d = none
  dependencyReadyNs := (task.dependencies.filterMap k.completedEnd).foldl max 0

/-- Who in the chunk waits for `d`, as often as it names it. -/
def stagedDependents (k : UnifiedEventKernel) (chunk : List ScheduledTask) (d : String) : List String :=
  if k.completedEnd d = none then chunk.flatMap fun t => (t.dependencies.filter (· = d)).map fun _ => t.taskId else []

/-- The assignments of the second phase. -/
def commitChunk (chunk : List ScheduledTask) (retained : List String) (k : UnifiedEventKernel) : UnifiedEventKernel :=
  { k with
    physicalAllocations := .empty
    completionLeases := fun d => if d ∈ retained then k.completionLeases d + 1 else k.completionLeases d
    tasks := chunk.foldl (fun tasks t => tasks.insert t.taskId (k.stagedTask t)) k.tasks
    dependents := fun d =>
      let staged := k.stagedDependents chunk d
      if staged = [] then k.dependents d else (k.dependents d ++ staged).insertionSort (· ≤ ·)
    seen := { k.seen with seenIds := k.seen.seenIds ∪ (chunk.map (·.taskId)).toFinset } }

/-- The tasks of a chunk that are ready are queued, and the groups with
another first task collected. -/
def queueReady : List ScheduledTask → List ResourceGroup → EStateM KernelError UnifiedEventKernel (List ResourceGroup)
  | [], groups => pure groups
  | task :: rest, groups => do
    let k ← get
    let a ← raise (k.activeTask task.taskId)
    if a.indegree = 0 then
      let changed ← addReadyTask task.taskId
      queueReady rest (groups ++ changed.toList.filter (· ∉ groups))
    else queueReady rest groups

structure SubmissionReceipt where
  taskIds : List String
  retainedDependencies : List String
  activeTaskCount : ℕ

/-- `submit` -/
def submit (chunk : List ScheduledTask) (retained : List String) : EStateM KernelError UnifiedEventKernel SubmissionReceipt := do
  let k ← get
  raise (k.checkChunk chunk retained)
  modify (commitChunk chunk retained)
  let groupsToRefresh ← queueReady chunk []
  forM (groupsToRefresh.insertionSort (· ≤ ·)) refreshGroup
  let k ← get
  pure ⟨chunk.map (·.taskId), retained, k.tasks.items.length⟩

/-! ## Steps -/

/-- `_resolve_task_execution` and the accounting of the demands. -/
def executeTask (devices : Devices) (c : Calendar) (task : ScheduledTask) (startNs effectiveReadyNs : ℚ) :
    Except KernelError (Calendar × List (ResourceDemand ℚ) × Calendar.Bill) := do
  let isPhysical ← task.isPhysicalTask
  if isPhysical ∨ task.statefulL2 then devices c task startNs effectiveReadyNs
  else
    let (c, bill) := c.accountTaskDemands task task.sortedDemands startNs effectiveReadyNs
    pure (c, task.sortedDemands, bill)

/-- A task after one more of its dependencies ended. -/
def settled (a : ActiveTask) (endNs : ℚ) : ActiveTask where
  task := a.task
  indegree := a.indegree - 1
  dependencyReadyNs := if a.dependencyReadyNs < endNs then endNs else a.dependencyReadyNs

/-- The loop over the dependents, which collects the groups to refresh. -/
def settleDependents (endNs : ℚ) : List String → List ResourceGroup → EStateM KernelError UnifiedEventKernel (List ResourceGroup)
  | [], groups => pure groups
  | dependent :: rest, groups => do
    let k ← get
    let a ← raise (k.activeTask dependent)
    set { k with tasks := k.tasks.insert dependent (settled a endNs) }
    if (settled a endNs).indegree = 0 then
      let changed ← addReadyTask dependent
      settleDependents endNs rest (groups ++ changed.toList.filter (· ∉ groups))
    else settleDependents endNs rest groups

/-- What is left of the task that was executed. -/
def recordEvent (event : KernelEvent) (group : ResourceGroup) (c : Calendar) (k : UnifiedEventKernel) : UnifiedEventKernel :=
  { k with
    calendar := c
    tasks := k.tasks.erase event.task.taskId
    readyByGroup := Function.update k.readyByGroup group (k.readyByGroup group).tail
    completedEnd := Function.update k.completedEnd event.task.taskId (some event.endNs)
    completionLeases := Function.update k.completionLeases event.task.taskId 1
    completedCount := k.completedCount + 1
    totalQueueWaitNs := k.totalQueueWaitNs + (event.startNs - event.effectiveReadyNs)
    totalServiceNs := k.totalServiceNs + (event.endNs - event.startNs)
    makespanNs := if k.makespanNs < event.endNs then event.endNs else k.makespanNs
    events := k.events ++ [event] }

/-- `step` -/
def step (devices : Devices) : EStateM KernelError UnifiedEventKernel (Option KernelEvent) := do
  let k ← get
  let queued ← popReadyEntry k.popTurns
  match queued with
  | none => pure none
  | some entry =>
    let k ← get
    let startNs := (ofLex (ofLex entry).1).1
    let effectiveReadyNs := (ofLex (ofLex (ofLex entry).1).2).1
    let a ← raise (k.activeTask (keyTaskId (ofLex (ofLex entry).1).2))
    match executeTask devices k.calendar a.task startNs effectiveReadyNs with
    | .error e =>
      set { k with readyHeap := heappush k.readyHeap entry }
      throw e
    | .ok (c, demands, bill) =>
      let event : KernelEvent := ⟨a.task, startNs, a.dependencyReadyNs, effectiveReadyNs, demands, bill⟩
      let group := (ofLex (ofLex entry).2).1
      modify (recordEvent event group c)
      let groups ← settleDependents event.endNs (k.dependents a.task.taskId) [group]
      forM (groups.insertionSort (· ≤ ·)) refreshGroup
      pure (some event)

/-! ## Completions -/

/-- `retain_completed` -/
def retainCompleted (taskId : String) : EStateM KernelError UnifiedEventKernel ℤ := do
  let k ← get
  raise (refuse (k.completionLeases taskId ≤ 0 ∨ k.completedEnd taskId = none) (.value s!"completion is unavailable: {taskId}"))
  set { k with completionLeases := Function.update k.completionLeases taskId (k.completionLeases taskId + 1) }
  pure (k.completionLeases taskId + 1)

/-- `release_completed` -/
def releaseCompleted (taskId : String) : EStateM KernelError UnifiedEventKernel ℤ := do
  let k ← get
  raise (refuse (k.completionLeases taskId ≤ 0) (.value s!"completion is unavailable: {taskId}"))
  let leases := k.completionLeases taskId - 1
  if leases ≠ 0 then
    set { k with completionLeases := Function.update k.completionLeases taskId leases }
    pure leases
  else
    set { k with
      completionLeases := Function.update k.completionLeases taskId 0
      dependents := Function.update k.dependents taskId []
      completedEnd := Function.update k.completedEnd taskId none }
    pure 0

end UnifiedEventKernel

end HeteroSim.Kernel
