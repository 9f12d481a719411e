/-
The tasks of a closed graph (`contracts.py`) and its validation
(`event_kernel.py`): ids are distinct, every dependency is there, and Kahn's
algorithm takes every task. Times are of a type `φ` of finite floats; of a
task, what the scheduler reads is modelled.
-/
import HeteroSim.Collect
import HeteroSim.Kahn
import HeteroSim.Raising

namespace HeteroSim.Kernel

structure ResourceDemand (φ : Type) where
  resourceId : String
  serviceNs : φ
deriving DecidableEq

/-- `TaskSpec`; `phase` and `sequence` are what `_validated_phase_sequence`
reads in the metadata. -/
structure TaskSpec (φ : Type) where
  taskId : String
  dependencies : List String
  demands : List (ResourceDemand φ)
  earliestStartNs : φ
  phase : Int
  sequence : Int
  demands_nodup : (demands.map (·.resourceId)).Nodup

/-- The errors of `validate_task_graph`, with the data of their texts. -/
inductive GraphError
  | duplicateTaskId (taskId : String)
  | missingDependencies (missing : List (String × List String))
  | dependencyCycle
deriving DecidableEq

variable {φ : Type}

/-- The loop over the tasks; `_validate_task_time` passes, as floats are
finite here. -/
def indexTasks : List (TaskSpec φ) → Dict String (TaskSpec φ) → Except GraphError (Dict String (TaskSpec φ))
  | [], tasksById => .ok tasksById
  | task :: tasks, tasksById =>
    if task.taskId ∈ tasksById.keys then .error (.duplicateTaskId task.taskId)
    else indexTasks tasks (tasksById.insert task.taskId task)

/-- Each task with dependencies that are not there, and these. -/
def missingDependencies (tasksById : Dict String (TaskSpec φ)) (tasks : List (TaskSpec φ)) :
    Dict String (List String) :=
  .collect (tasks.filterMap fun task =>
    let absent := task.dependencies.filter fun d => d ∉ tasksById.keys
    if absent = [] then none else some (task.taskId, absent))

/-- The dependencies by task id. -/
def dependenciesOf (tasksById : Dict String (TaskSpec φ)) (taskId : String) : List String :=
  ((tasksById.get? taskId).map (·.dependencies)).getD []

/-- `_validate_acyclic` -/
def validateAcyclic (tasksById : Dict String (TaskSpec φ)) : Except GraphError Unit :=
  refuse (Kahn.visitedCount (dependenciesOf tasksById) tasksById.keys ≠ some tasksById.keys.length) .dependencyCycle

/-- `validate_task_graph` -/
def validateTaskGraph (tasks : List (TaskSpec φ)) : Except GraphError (Dict String (TaskSpec φ)) := do
  let tasksById ← indexTasks tasks .empty
  let missing := missingDependencies tasksById tasks
  refuse (missing.items ≠ []) (.missingDependencies (missing.items.insertionSort fun p q => p.1 ≤ q.1))
  validateAcyclic tasksById
  pure tasksById

/-! ## What it accepts -/

/-- Every dependency is a task. -/
def Closed (tasks : List (TaskSpec φ)) : Prop := ∀ t ∈ tasks, ∀ d ∈ t.dependencies, d ∈ tasks.map (·.taskId)

/-- `i` is the id of a task that names `j`. -/
def DependsOn (tasks : List (TaskSpec φ)) (i j : String) : Prop := ∃ t ∈ tasks, t.taskId = i ∧ j ∈ t.dependencies

theorem indexTasks_ok : ∀ {tasks : List (TaskSpec φ)} {d out : Dict String (TaskSpec φ)},
    indexTasks tasks d = .ok out ↔ (d.keys ++ tasks.map (·.taskId)).Nodup ∧
      out.items = d.items ++ tasks.map fun t => (t.taskId, t)
  | [], d, out => by
    rw [indexTasks, Except.ok.injEq, List.map_nil, List.append_nil, List.map_nil, List.append_nil]
    exact ⟨fun h => ⟨d.keys_nodup, by rw [h]⟩, fun h => Dict.ext h.2.symm⟩
  | task :: tasks, d, out => by
    rw [indexTasks]
    split
    · next hmem =>
      refine ⟨fun h => (by cases h), fun h => ?_⟩
      exact absurd rfl ((List.nodup_append.1 h.1).2.2 _ hmem _ List.mem_cons_self)
    · next hnew =>
      rw [indexTasks_ok, Dict.keys_insert_of_not_mem hnew, Dict.items_insert_of_not_mem hnew, List.append_assoc,
        List.append_assoc]
      rfl

/-- The index of distinct tasks. -/
structure Indexed (tasks : List (TaskSpec φ)) (d : Dict String (TaskSpec φ)) : Prop where
  nodup : (tasks.map (·.taskId)).Nodup
  items : d.items = tasks.map fun t => (t.taskId, t)

theorem indexTasks_empty {tasks : List (TaskSpec φ)} {d : Dict String (TaskSpec φ)} :
    indexTasks tasks .empty = .ok d ↔ Indexed tasks d := by
  rw [indexTasks_ok]
  exact ⟨fun h => ⟨h.1, h.2⟩, fun h => ⟨h.nodup, h.items⟩⟩

theorem Indexed.keys {tasks : List (TaskSpec φ)} {d : Dict String (TaskSpec φ)} (h : Indexed tasks d) :
    d.keys = tasks.map (·.taskId) := by
  rw [Dict.keys, h.items, List.map_map]
  rfl

theorem Indexed.get? {tasks : List (TaskSpec φ)} {d : Dict String (TaskSpec φ)} (h : Indexed tasks d)
    {t : TaskSpec φ} (ht : t ∈ tasks) : d.get? t.taskId = some t := by
  rw [Dict.get?_eq_some, h.items]
  exact List.mem_map_of_mem ht

theorem Indexed.dependenciesOf {tasks : List (TaskSpec φ)} {d : Dict String (TaskSpec φ)} (h : Indexed tasks d)
    {t : TaskSpec φ} (ht : t ∈ tasks) : Kernel.dependenciesOf d t.taskId = t.dependencies := by
  rw [Kernel.dependenciesOf, h.get? ht]
  rfl

theorem Indexed.depends {tasks : List (TaskSpec φ)} {d : Dict String (TaskSpec φ)} (h : Indexed tasks d) (i j : String) :
    Kahn.Depends (Kernel.dependenciesOf d) d.keys i j ↔ DependsOn tasks i j := by
  rw [Kahn.Depends, h.keys, List.mem_map]
  constructor
  · rintro ⟨⟨t, ht, rfl⟩, hj⟩
    exact ⟨t, ht, rfl, h.dependenciesOf ht ▸ hj⟩
  · rintro ⟨t, ht, rfl, hj⟩
    exact ⟨⟨t, ht, rfl⟩, (h.dependenciesOf ht).symm ▸ hj⟩

theorem Indexed.acyclic_iff {tasks : List (TaskSpec φ)} {d : Dict String (TaskSpec φ)} (h : Indexed tasks d)
    (hclosed : Closed tasks) : validateAcyclic d = .ok () ↔ Acyclic (DependsOn tasks) := by
  have hnodes : ∀ k ∈ d.keys, ∀ j ∈ Kernel.dependenciesOf d k, j ∈ d.keys := by
    intro k hk j hj
    rw [h.keys] at hk ⊢
    obtain ⟨t, ht, rfl⟩ := List.mem_map.1 hk
    rw [h.dependenciesOf ht] at hj
    exact hclosed t ht j hj
  have hlinks : Kahn.Depends (Kernel.dependenciesOf d) d.keys = DependsOn tasks :=
    funext fun i => funext fun j => propext (h.depends i j)
  rw [validateAcyclic, refuse_ok, not_not, Kahn.visitedCount_iff d.keys_nodup hnodes, hlinks]

theorem Indexed.missing_nil {tasks : List (TaskSpec φ)} {d : Dict String (TaskSpec φ)} (h : Indexed tasks d) :
    (missingDependencies d tasks).items = [] ↔ Closed tasks := by
  rw [missingDependencies, Dict.items_collect_eq_nil, List.filterMap_eq_nil_iff]
  refine forall₂_congr fun t _ => ?_
  rw [h.keys]
  constructor
  · intro hnone x hx
    by_contra hout
    simp only [ite_eq_left_iff, reduceCtorEq, imp_false, not_not] at hnone
    exact List.filter_eq_nil_iff.1 hnone x hx (decide_eq_true hout)
  · intro hall
    simp only [ite_eq_left_iff, reduceCtorEq, imp_false, not_not]
    exact List.filter_eq_nil_iff.2 fun x hx hout => of_decide_eq_true hout (hall x hx)

/-- **What the validation accepts**: distinct ids, dependencies that are
there, and no cycle. -/
theorem validateTaskGraph_ok {tasks : List (TaskSpec φ)} : (∃ d, validateTaskGraph tasks = .ok d) ↔
    (tasks.map (·.taskId)).Nodup ∧ Closed tasks ∧ Acyclic (DependsOn tasks) := by
  constructor
  · rintro ⟨d, hok⟩
    obtain ⟨d', hindex, hok⟩ := bind_ok.1 hok
    have h := indexTasks_empty.1 hindex
    obtain ⟨_, hmissing, hok⟩ := bind_ok.1 hok
    obtain ⟨_, hacyclic, -⟩ := bind_ok.1 hok
    rw [refuse_ok, not_not, h.missing_nil] at hmissing
    exact ⟨h.nodup, hmissing, (h.acyclic_iff hmissing).1 hacyclic⟩
  · rintro ⟨hnodup, hclosed, hacyclic⟩
    have h : Indexed tasks ⟨tasks.map fun t => (t.taskId, t), by rw [List.map_map]; exact hnodup⟩ := ⟨hnodup, rfl⟩
    exact ⟨_, bind_ok.2 ⟨_, indexTasks_empty.2 h, bind_ok.2 ⟨(), refuse_ok.2 (not_not.2 (h.missing_nil.2 hclosed)),
      bind_ok.2 ⟨(), (h.acyclic_iff hclosed).2 hacyclic, rfl⟩⟩⟩⟩

end HeteroSim.Kernel
