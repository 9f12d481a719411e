/-
Compiled layouts of closed graphs (`event_kernel.py`): positions in place of
ids, and what the scheduler derives from them. A layout is compiled from a
validated graph, checked against one, or looked up by the fields it is a
function of. Values are taken up to `==`, so a layout built by hand has
integers and texts in its fields, of any value. How a float is written is a
parameter, with what is known of the two functions that write and read it.
-/
import HeteroSim.Kernel.Tasks

namespace HeteroSim.Kernel

variable {φ : Type}

/-- The ways out of the check: `return False`, and what may be raised. -/
inductive Leave
  | unmatched
  | keyError
  | indexError
  | valueError
  | overflowError
deriving DecidableEq

/-- `float.hex`, and `math.isfinite(float.fromhex(text))`, which a finite
float passes. -/
structure FloatText (φ : Type) where
  hex : φ → String
  isFiniteText : String → Except Leave Bool
  isFiniteText_hex : ∀ x, isFiniteText (hex x) = .ok true

structure CompiledGraphLayout where
  taskCount : Int
  dependencyPositions : List (List Int)
  taskIdOrder : List Int
  earliestStartHex : List String
  demandResourceIds : List (List String)
  dependentPositions : List (List Int)
  resourceGroups : List (List String)
  demandOrder : List (List Int)
  rootPositions : List Int
  indegreeTemplate : List Int
  resourceIds : List String
  demandResourceIndices : List (List Int)
  groupIndices : List Int
  groupCount : Int
deriving DecidableEq

/-! ## The derived fields -/

def ints (l : List ℕ) : List Int := l.map (↑)

/-- The place of each id. -/
def taskPositions (tasks : List (TaskSpec φ)) : Dict String ℕ := .collect (tasks.zipIdx.map fun p => (p.1.taskId, p.2))

/-- The dependencies as positions; `none` is a `KeyError`. -/
def dependencyPositions (tasks : List (TaskSpec φ)) : Option (List (List ℕ)) :=
  tasks.mapM fun t => t.dependencies.mapM (taskPositions tasks).get?

def taskIdAt (tasks : List (TaskSpec φ)) (position : ℕ) : String := (tasks[position]?.map (·.taskId)).getD ""

/-- `sorted(positions, key=lambda position: tasks[position].task_id)` -/
def sortByTaskId (tasks : List (TaskSpec φ)) (positions : List ℕ) : List ℕ :=
  positions.insertionSort fun i j => taskIdAt tasks i ≤ taskIdAt tasks j

def taskIdOrder (tasks : List (TaskSpec φ)) : List ℕ := sortByTaskId tasks (List.range tasks.length)

def demandResourceIds (tasks : List (TaskSpec φ)) : List (List String) := tasks.map fun t => t.demands.map (·.resourceId)

/-- The inner loop over one task's dependencies. -/
def appendDependent (lists : List (List ℕ)) (dependent : ℕ) (dependencies : List ℕ) : List (List ℕ) :=
  dependencies.foldl (fun lists d => lists.modify d (· ++ [dependent])) lists

/-- Who depends on each position, in the order of the tasks. -/
def dependentLists (dependencies : List (List ℕ)) : List (List ℕ) :=
  dependencies.zipIdx.foldl (fun lists p => appendDependent lists p.2 p.1) (List.replicate dependencies.length [])

def dependentPositions (tasks : List (TaskSpec φ)) (dependencies : List (List ℕ)) : List (List ℕ) :=
  (dependentLists dependencies).map (sortByTaskId tasks)

/-- `tuple(sorted(set(resource_ids)))` -/
def resourceGroup (resourceIds : List String) : List String := resourceIds.toFinset.sort (· ≤ ·)

def demandOrder (resourceIds : List String) : List ℕ :=
  (List.range resourceIds.length).insertionSort fun i j => resourceIds.getD i "" ≤ resourceIds.getD j ""

def allResourceIds (demandResourceIds : List (List String)) : List String :=
  demandResourceIds.flatten.toFinset.sort (· ≤ ·)

def demandResourceIndices (demandResourceIds : List (List String)) : List (List ℕ) :=
  demandResourceIds.map fun ids => ids.map fun r => (allResourceIds demandResourceIds).idxOf r

/-- `tuple(sorted(set(resource_groups)))` -/
def uniqueGroups (demandResourceIds : List (List String)) : List (List String) :=
  (demandResourceIds.map resourceGroup).toFinset.sort (· ≤ ·)

def groupIndices (demandResourceIds : List (List String)) : List ℕ :=
  demandResourceIds.map fun ids => (uniqueGroups demandResourceIds).idxOf (resourceGroup ids)

def rootPositions (dependencies : List (List ℕ)) : List ℕ :=
  (List.range dependencies.length).filter fun i => dependencies.getD i [] = []

/-! ## Compiling -/

/-- The layout, of the dependencies as positions. -/
def layoutOf (T : FloatText φ) (tasks : List (TaskSpec φ)) (dependencies : List (List ℕ)) : CompiledGraphLayout where
  taskCount := tasks.length
  dependencyPositions := dependencies.map ints
  taskIdOrder := ints (taskIdOrder tasks)
  earliestStartHex := tasks.map fun t => T.hex t.earliestStartNs
  demandResourceIds := demandResourceIds tasks
  dependentPositions := (dependentPositions tasks dependencies).map ints
  resourceGroups := (demandResourceIds tasks).map resourceGroup
  demandOrder := (demandResourceIds tasks).map fun ids => ints (demandOrder ids)
  rootPositions := ints (rootPositions dependencies)
  indegreeTemplate := ints (dependencies.map List.length)
  resourceIds := allResourceIds (demandResourceIds tasks)
  demandResourceIndices := (demandResourceIndices (demandResourceIds tasks)).map ints
  groupIndices := ints (groupIndices (demandResourceIds tasks))
  groupCount := (uniqueGroups (demandResourceIds tasks)).length

/-- `_from_validated_tasks`; in a validated graph every dependency is found. -/
def fromValidatedTasks (T : FloatText φ) (tasks : List (TaskSpec φ)) : CompiledGraphLayout :=
  layoutOf T tasks ((dependencyPositions tasks).getD [])

/-- `CompiledGraphLayout.compile` -/
def compile (T : FloatText φ) (tasks : List (TaskSpec φ)) : Except GraphError CompiledGraphLayout := do
  let _ ← validateTaskGraph tasks
  pure (fromValidatedTasks T tasks)

/-! ## Checking -/

namespace CompiledGraphLayout

def ValidPosition (l : CompiledGraphLayout) (position : Int) : Prop := 0 ≤ position ∧ position < l.taskCount

instance (l : CompiledGraphLayout) (position : Int) : Decidable (l.ValidPosition position) :=
  inferInstanceAs (Decidable (_ ∧ _))

/-- The lengths of `outer_fields`. -/
def outerLengths (l : CompiledGraphLayout) : List ℕ :=
  [l.dependencyPositions.length, l.taskIdOrder.length, l.earliestStartHex.length, l.demandResourceIds.length,
    l.dependentPositions.length, l.resourceGroups.length, l.demandOrder.length, l.indegreeTemplate.length,
    l.demandResourceIndices.length, l.groupIndices.length]

end CompiledGraphLayout

/-- Every text is a finite float's. -/
def checkTexts (T : FloatText φ) : List String → Except Leave Unit
  | [] => .ok ()
  | text :: texts => do
    let isFinite ← T.isFiniteText text
    refuse (isFinite = false) .unmatched
    checkTexts T texts

/-- The loop over the tasks, along two of the layout's fields; it returns the
dependencies as positions. -/
def checkTasks (l : CompiledGraphLayout) (positions : Dict String ℕ) : List (TaskSpec φ) → List (List Int) →
    List (List Int) → Except Leave (List (List ℕ))
  | [], _, _ => .ok []
  | task :: tasks, dependencyRow :: dependencyRows, orderRow :: orderRows => do
    let dependencies ← (task.dependencies.mapM positions.get?).elim (.error .keyError) .ok
    refuse (∃ p ∈ dependencyRow, ¬l.ValidPosition p) .unmatched
    refuse (∃ p ∈ orderRow, ¬(0 ≤ p ∧ p < (task.demands.length : Int))) .unmatched
    refuse (¬orderRow.Nodup) .unmatched
    let rest ← checkTasks l positions tasks dependencyRows orderRows
    pure (dependencies :: rest)
  | _ :: _, _, _ => .error .indexError

/-- The body of `matches_structure`. -/
def checkStructure (T : FloatText φ) (l : CompiledGraphLayout) (tasks : List (TaskSpec φ)) : Except Leave Unit := do
  refuse (l.taskCount < 0 ∨ (tasks.length : Int) ≠ l.taskCount) .unmatched
  refuse (∃ n ∈ l.outerLengths, (n : Int) ≠ l.taskCount) .unmatched
  refuse (l.groupCount < 0) .unmatched
  checkTexts T l.earliestStartHex
  refuse (¬(tasks.map (·.taskId)).Nodup) .unmatched
  refuse ((∃ p ∈ l.taskIdOrder, ¬l.ValidPosition p) ∨ (l.taskIdOrder.toFinset.card : Int) ≠ l.taskCount) .unmatched
  refuse (l.taskIdOrder ≠ ints (taskIdOrder tasks)) .unmatched
  let dependencies ← checkTasks l (taskPositions tasks) tasks l.dependencyPositions l.demandOrder
  refuse (∃ row ∈ l.dependentPositions, (∃ p ∈ row, ¬l.ValidPosition p) ∨ ¬row.Nodup) .unmatched
  refuse ((∃ p ∈ l.rootPositions, ¬l.ValidPosition p) ∨ ¬l.rootPositions.Nodup) .unmatched
  refuse (l.dependencyPositions ≠ dependencies.map ints ∨
    l.demandResourceIds ≠ demandResourceIds tasks ∨
    l.dependentPositions ≠ (dependentPositions tasks dependencies).map ints ∨
    l.resourceGroups ≠ (demandResourceIds tasks).map resourceGroup ∨
    l.demandOrder ≠ ((demandResourceIds tasks).map fun ids => ints (demandOrder ids)) ∨
    l.rootPositions ≠ ints (rootPositions dependencies) ∨
    l.indegreeTemplate ≠ ints (dependencies.map List.length) ∨
    l.resourceIds ≠ allResourceIds (demandResourceIds tasks) ∨
    l.demandResourceIndices ≠ (demandResourceIndices (demandResourceIds tasks)).map ints ∨
    l.groupIndices ≠ ints (groupIndices (demandResourceIds tasks)) ∨
    l.groupCount ≠ (uniqueGroups (demandResourceIds tasks)).length) .unmatched

/-- `matches_structure`; of what may be raised only an `OverflowError` is not
caught. -/
def matchesStructure (T : FloatText φ) (l : CompiledGraphLayout) (tasks : List (TaskSpec φ)) : Except Leave Bool :=
  match checkStructure T l tasks with
  | .ok () => .ok true
  | .error .overflowError => .error .overflowError
  | .error _ => .ok false

/-- `matches` -/
def matchesLayout (T : FloatText φ) (l : CompiledGraphLayout) (tasks : List (TaskSpec φ)) : Except Leave Bool := do
  let isMatch ← matchesStructure T l tasks
  pure (isMatch && (tasks.zip l.earliestStartHex).all fun p => T.hex p.1.earliestStartNs = p.2)

/-! ## Keys -/

/-- `(task_count, dependency_positions, task_id_order, earliest_start_hex,
demand_resource_ids)` -/
abbrev StructureKey := Int × List (List Int) × List Int × List String × List (List String)

instance : DecidableEq StructureKey :=
  @instDecidableEqProd _ _ inferInstance (@instDecidableEqProd _ _ inferInstance inferInstance)

/-- `structure_key` -/
def structureKey (T : FloatText φ) (tasks : List (TaskSpec φ)) : Option StructureKey :=
  if (tasks.map (·.taskId)).Nodup then
    (dependencyPositions tasks).map fun dependencies =>
      (tasks.length, dependencies.map ints, ints (taskIdOrder tasks), tasks.map (fun t => T.hex t.earliestStartNs),
        demandResourceIds tasks)
  else none

/-- `structure_signature` -/
def CompiledGraphLayout.structureSignature (l : CompiledGraphLayout) : StructureKey :=
  (l.taskCount, l.dependencyPositions, l.taskIdOrder, l.earliestStartHex, l.demandResourceIds)

end HeteroSim.Kernel
