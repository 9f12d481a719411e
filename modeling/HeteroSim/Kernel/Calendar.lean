/-
The resource side of the event kernel (`event_kernel.py`,
`_resource_ledger.py`): logical resources share the lanes of their physical
owner, and an ordinary task takes for each of its demands the lane of the
owner that is free first. Times are rationals, so the check that they are
finite passes. Of the metadata of a task the fields are modelled that the
scheduler reads.
-/
import HeteroSim.Kernel.Tasks
import HeteroSim.ListScheduling

namespace HeteroSim.Kernel

/-- What a kernel raises: an error with its text, a missing key, or nothing
more than that a loop was given too few turns, which no run comes to. -/
inductive KernelError
  | value (text : String)
  | key
  | exhausted
deriving DecidableEq

/-- What `is_physical_task` and `physical_task_demands` read. -/
structure PhysicalMetadata where
  hasConfig : Bool
  memoryAccesses : Except String (Option (List (Option String)))
  demandsResourceIds : Except String (List String)
  placeholderResourceIds : Except String (List String)

def PhysicalMetadata.absent : PhysicalMetadata := ⟨false, .ok none, .ok [], .ok []⟩

/-- A task as it is submitted. `memory_accesses` is what `_memory_accesses`
returns or raises, each access with its resource id; `metadataError` is what
the validation of the runtime and aggregate metadata raises. -/
structure ScheduledTask extends TaskSpec ℚ where
  physical : PhysicalMetadata
  statefulL2 : Bool
  metadataError : Option String
  earliest_nonneg : 0 ≤ earliestStartNs
  service_nonneg : ∀ d ∈ demands, 0 ≤ d.serviceNs

namespace ScheduledTask

variable (task : ScheduledTask)

/-- `is_physical_task` -/
def isPhysicalTask : Except KernelError Bool := do
  let accesses ← task.physical.memoryAccesses.mapError .value
  if task.physical.hasConfig then
    refuse (accesses = none) (.value "physical task requires physical_memory_config and memory_accesses")
    refuse (accesses = some []) (.value "physical task requires a non-empty memory access descriptor")
    pure true
  else
    refuse (accesses ≠ none ∧ accesses ≠ some []) (.value "physical task requires physical_memory_config and memory_accesses")
    pure false

/-- `physical_task_demands` -/
def physicalTaskDemands : Except KernelError (List (ResourceDemand ℚ)) := do
  let demandIds ← task.physical.demandsResourceIds.mapError .value
  let placeholderIds ← task.physical.placeholderResourceIds.mapError .value
  let accesses ← task.physical.memoryAccesses.mapError .value
  let physicalIds := demandIds ++ placeholderIds ++ ((accesses.getD []).reduceOption.filter (· ≠ ""))
  pure (task.demands.filter fun d => d.resourceId ∉ physicalIds)

/-- The demands the start of a task depends on. -/
def readyDemands : Except KernelError (List (ResourceDemand ℚ)) := do
  let isPhysical ← task.isPhysicalTask
  if isPhysical then task.physicalTaskDemands else pure task.demands

/-- `_resource_groups` -/
def group : List String := (task.demands.map (·.resourceId)).dedup.insertionSort (· ≤ ·)

/-- `_sorted_demands` -/
def sortedDemands : List (ResourceDemand ℚ) := task.demands.insertionSort fun d e => d.resourceId ≤ e.resourceId

/-- Neither physical nor with a cache to consult. -/
structure Ordinary : Prop where
  physical : task.isPhysicalTask = .ok false
  statefulL2 : task.statefulL2 = false

end ScheduledTask

/-! ## Clocks -/

structure Interval where
  taskId : String
  resourceId : String
  startNs : ℚ
  endNs : ℚ
  lane : Option ℕ
deriving DecidableEq

/-- A clock, a total or a count that is missing reads as zero. -/
structure Calendar where
  resourceOwners : Dict String String
  ownerCapacities : Dict String Int
  resourceCapacities : Dict String Int
  resourceAvailable : String → ℚ
  laneAvailable : String → Option (List ℚ)
  laneLastInterval : String → ℕ → Option Interval
  resourceLastInterval : String → Option Interval
  busyNs : String → ℚ
  queueWaitNs : String → ℚ
  taskCount : String → ℕ

namespace Calendar

/-- `_physical_owner` -/
def physicalOwner (c : Calendar) (resourceId : String) : String := (c.resourceOwners.get? resourceId).getD resourceId

/-- `_validate_owner_demands` -/
def validateOwnerDemands (c : Calendar) (task : ScheduledTask) : Except KernelError Unit :=
  if c.resourceOwners.items = [] then .ok ()
  else refuse (¬(task.demands.map fun d => c.physicalOwner d.resourceId).Nodup)
    (.value s!"task {task.taskId} must coalesce logical demands for the same physical owner")

/-- `_resource_ready_ns` -/
def resourceReadyNs (c : Calendar) (resourceId : String) : ℚ := c.resourceAvailable (c.physicalOwner resourceId)

/-- The loop of `_ready_key` over the demands, from the first. -/
def demandsReadyNs (c : Calendar) : List (ResourceDemand ℚ) → ℚ
  | [] => 0
  | first :: demands =>
    demands.foldl (fun ready d => if ready < c.resourceReadyNs d.resourceId then c.resourceReadyNs d.resourceId else ready)
      (c.resourceReadyNs first.resourceId)

/-- The lanes of an owner, as `_lanes_for` makes them. -/
def ownerLanes (c : Calendar) (ownerId : String) : List ℚ :=
  (c.laneAvailable ownerId).getD (List.replicate ((c.ownerCapacities.get? ownerId).getD 1).toNat 0)

/-- `_lanes_for` -/
def lanesFor (c : Calendar) (resourceId : String) : List ℚ := c.ownerLanes (c.physicalOwner resourceId)

open ListScheduling in
/-- `_select_lane`: the place of the lane, and its clock. -/
def selectLane (c : Calendar) (resourceId : String) : ℕ × ℚ :=
  (firstFree (c.lanesFor resourceId), earliest (c.lanesFor resourceId))

/-- What `account_task_demands` returns. -/
structure Bill where
  endNs : ℚ
  resourcePredecessors : List (String × Interval)
  resourceLanes : List (String × ℕ)

open ListScheduling in
/-- What the loop of `account_task_demands` does to the clocks for one demand
of an ordinary task. -/
def reserveDemand (taskId : String) (startNs queueWaitNs : ℚ) (c : Calendar) (demand : ResourceDemand ℚ) : Calendar :=
  let demandEndNs := startNs + demand.serviceNs
  let lanes := c.lanesFor demand.resourceId
  let laneIndex := (c.selectLane demand.resourceId).1
  let ownerId := c.physicalOwner demand.resourceId
  let interval : Interval := ⟨taskId, demand.resourceId, startNs, demandEndNs, if 1 < lanes.length then some laneIndex else none⟩
  let lanes := lanes.set laneIndex demandEndNs
  { c with
    laneAvailable := Function.update c.laneAvailable ownerId (some lanes)
    resourceAvailable := fun r =>
      if r = demand.resourceId ∨ r = ownerId ∨ c.resourceOwners.get? r = some ownerId then earliest lanes
      else c.resourceAvailable r
    resourceLastInterval := Function.update c.resourceLastInterval demand.resourceId (some interval)
    laneLastInterval := Function.update c.laneLastInterval ownerId
      (Function.update (c.laneLastInterval ownerId) laneIndex (some interval))
    busyNs := Function.update c.busyNs demand.resourceId (c.busyNs demand.resourceId + demand.serviceNs)
    queueWaitNs := Function.update c.queueWaitNs demand.resourceId (c.queueWaitNs demand.resourceId + queueWaitNs)
    taskCount := Function.update c.taskCount demand.resourceId (c.taskCount demand.resourceId + 1) }

/-- What it puts on the bill. -/
def billDemand (startNs : ℚ) (c : Calendar) (bill : Bill) (demand : ResourceDemand ℚ) : Bill :=
  let demandEndNs := startNs + demand.serviceNs
  let (laneIndex, availableNs) := c.selectLane demand.resourceId
  let previous := c.laneLastInterval (c.physicalOwner demand.resourceId) laneIndex
  { endNs := if bill.endNs < demandEndNs then demandEndNs else bill.endNs
    resourcePredecessors := bill.resourcePredecessors ++
      (previous.filter fun _ => availableNs = startNs).toList.map fun interval => (demand.resourceId, interval)
    resourceLanes := bill.resourceLanes ++ [(demand.resourceId, laneIndex)] }

/-- The loop of `account_task_demands`. -/
def accountDemands (taskId : String) (startNs queueWaitNs : ℚ) : List (ResourceDemand ℚ) → Calendar → Bill → Calendar × Bill
  | [], c, bill => (c, bill)
  | d :: demands, c, bill =>
    accountDemands taskId startNs queueWaitNs demands (reserveDemand taskId startNs queueWaitNs c d) (billDemand startNs c bill d)

/-- `account_task_demands`, of an ordinary task -/
def accountTaskDemands (c : Calendar) (task : ScheduledTask) (demands : List (ResourceDemand ℚ)) (startNs effectiveReadyNs : ℚ) :
    Calendar × Bill :=
  accountDemands task.taskId startNs (startNs - effectiveReadyNs) demands c ⟨startNs, [], []⟩

/-! ## What the clocks say -/

open ListScheduling

/-- Owners are their own, each has a lane, as many as its capacity, and the
clock of a resource is that of the owner's lane that is free first. -/
structure Sound (c : Calendar) : Prop where
  owner : ∀ r, c.physicalOwner (c.physicalOwner r) = c.physicalOwner r
  capacity : ∀ o n, c.ownerCapacities.get? o = some n → 0 < n
  length : ∀ o, (c.ownerLanes o).length = ((c.ownerCapacities.get? o).getD 1).toNat
  nonneg : ∀ o, ∀ x ∈ c.ownerLanes o, 0 ≤ x
  available : ∀ r, c.resourceReadyNs r = earliest (c.lanesFor r)

variable {c : Calendar}

theorem Sound.ne_nil (h : c.Sound) (o : String) : c.ownerLanes o ≠ [] := by
  rw [Ne, ← List.length_eq_zero_iff, h.length]
  cases hn : c.ownerCapacities.get? o with
  | none => simp
  | some n =>
    have hpos := h.capacity o n hn
    rw [Option.getD_some]
    omega

theorem Sound.ready_nonneg (h : c.Sound) (r : String) : 0 ≤ c.resourceReadyNs r := by
  rw [h.available]
  exact h.nonneg _ _ (earliest_mem (h.ne_nil _))

theorem foldl_ready (l : List (ResourceDemand ℚ)) (x : ℚ) (hx : 0 ≤ x) :
    l.foldl (fun ready d => if ready < c.resourceReadyNs d.resourceId then c.resourceReadyNs d.resourceId else ready) x =
      max x (latest (l.map fun d => c.resourceReadyNs d.resourceId)) := by
  induction l generalizing x with
  | nil => rw [List.foldl_nil, List.map_nil, latest, List.foldr_nil, max_eq_left hx]
  | cons d l ih =>
    rw [List.foldl_cons, List.map_cons, latest_cons, ← max_assoc, ← max_def_lt, ih _ (hx.trans (le_max_left _ _))]

/-- The loop finds the latest of the clocks. -/
theorem Sound.demandsReadyNs (h : c.Sound) (demands : List (ResourceDemand ℚ)) :
    c.demandsReadyNs demands = latest (demands.map fun d => earliest (c.lanesFor d.resourceId)) := by
  simp only [← h.available]
  cases demands with
  | nil => rfl
  | cons d demands =>
    rw [Calendar.demandsReadyNs, foldl_ready _ _ (h.ready_nonneg _), List.map_cons, latest_cons]

theorem Sound.lane_le (h : c.Sound) {demands : List (ResourceDemand ℚ)} {d : ResourceDemand ℚ} (hd : d ∈ demands) :
    earliest (c.lanesFor d.resourceId) ≤ c.demandsReadyNs demands := by
  rw [h.demandsReadyNs]
  exact le_latest (List.mem_map.2 ⟨d, hd, rfl⟩)

section Account

variable {taskId : String} {startNs queueWaitNs : ℚ} {bill : Bill} {d : ResourceDemand ℚ} {demands : List (ResourceDemand ℚ)}

theorem ownerLanes_reserveDemand : (reserveDemand taskId startNs queueWaitNs c d).ownerLanes =
    Function.update c.ownerLanes (c.physicalOwner d.resourceId) (occupy (c.lanesFor d.resourceId) (startNs + d.serviceNs)) := by
  funext o
  by_cases ho : o = c.physicalOwner d.resourceId
  · subst ho
    rw [Function.update_self, ownerLanes]
    simp only [reserveDemand, Function.update_self, Option.getD_some]
    rfl
  · rw [Function.update_of_ne ho, ownerLanes]
    simp only [reserveDemand, Function.update_of_ne ho]
    rfl

theorem ready_reserveDemand (h : c.Sound) (r : String) :
    (reserveDemand taskId startNs queueWaitNs c d).resourceReadyNs r =
      if c.physicalOwner r = c.physicalOwner d.resourceId then
        earliest (occupy (c.lanesFor d.resourceId) (startNs + d.serviceNs)) else c.resourceReadyNs r := by
  change (if c.physicalOwner r = d.resourceId ∨ c.physicalOwner r = c.physicalOwner d.resourceId ∨
    c.resourceOwners.get? (c.physicalOwner r) = some (c.physicalOwner d.resourceId) then _ else _) = _
  have hself := h.owner r
  by_cases ho : c.physicalOwner r = c.physicalOwner d.resourceId
  · rw [if_pos (.inr (.inl ho)), if_pos ho]
    rfl
  · -- an owner is nobody's alias, so the clock written is another's
    rw [if_neg ho, if_neg]
    · rfl
    · rintro (he | he | he)
      · exact ho (by rw [← he, hself])
      · exact ho he
      · refine ho (hself.symm.trans ?_)
        rw [physicalOwner, he, Option.getD_some]

/-- Service that is taken keeps the clocks sound. -/
theorem Sound.reserveDemand (h : c.Sound) (hstart : 0 ≤ startNs) (hservice : 0 ≤ d.serviceNs) :
    (reserveDemand taskId startNs queueWaitNs c d).Sound where
  owner := h.owner
  capacity := h.capacity
  length o := by
    rw [ownerLanes_reserveDemand]
    by_cases ho : o = c.physicalOwner d.resourceId
    · subst ho
      rw [Function.update_self, length_occupy]
      exact h.length _
    · rw [Function.update_of_ne ho]
      exact h.length o
  nonneg o x hx := by
    rw [ownerLanes_reserveDemand] at hx
    by_cases ho : o = c.physicalOwner d.resourceId
    · subst ho
      rw [Function.update_self] at hx
      rcases mem_occupy (h.ne_nil _) hx with rfl | hx
      · exact add_nonneg hstart hservice
      · exact h.nonneg _ x hx
    · rw [Function.update_of_ne ho] at hx
      exact h.nonneg o x hx
  available r := by
    change _ = earliest ((Calendar.reserveDemand taskId startNs queueWaitNs c d).ownerLanes (c.physicalOwner r))
    rw [ready_reserveDemand h, ownerLanes_reserveDemand]
    by_cases ho : c.physicalOwner r = c.physicalOwner d.resourceId
    · rw [if_pos ho, ho, Function.update_self]
    · rw [if_neg ho, Function.update_of_ne ho]
      exact h.available r

/-- Demands have taken their lanes, and nothing else has changed. -/
structure Booked (c : Calendar) (startNs : ℚ) (demands : List (ResourceDemand ℚ)) (c' : Calendar) : Prop where
  sound : c'.Sound
  lanes : c'.ownerLanes = Board.book startNs c.ownerLanes (demands.map fun d => (c.physicalOwner d.resourceId, d.serviceNs))
  owners : c'.resourceOwners = c.resourceOwners
  ownerCapacities : c'.ownerCapacities = c.ownerCapacities
  resourceCapacities : c'.resourceCapacities = c.resourceCapacities

theorem Sound.accountDemands (hstart : 0 ≤ startNs) : ∀ {demands : List (ResourceDemand ℚ)},
    (∀ d ∈ demands, 0 ≤ d.serviceNs) → ∀ {c : Calendar} {bill : Bill}, c.Sound →
    Booked c startNs demands (accountDemands taskId startNs queueWaitNs demands c bill).1
  | [], _, c, _, hc => ⟨hc, rfl, rfl, rfl, rfl⟩
  | d :: demands, hservice, c, bill, hc => by
    obtain ⟨hd, hservice⟩ := List.forall_mem_cons.1 hservice
    have hnext : (Calendar.reserveDemand taskId startNs queueWaitNs c d).Sound := hc.reserveDemand hstart hd
    obtain ⟨hsound, hlanes, howners, hcapacities, hresources⟩ := Sound.accountDemands hstart hservice hnext
    refine ⟨hsound, hlanes.trans ?_, howners, hcapacities, hresources⟩
    rw [ownerLanes_reserveDemand, List.map_cons, Board.book, Board.book, List.foldl_cons]
    rfl

/-- A demand on another owner finds its lanes as they were. -/
theorem lanesFor_reserveDemand {r : String} (h : c.physicalOwner r ≠ c.physicalOwner d.resourceId) :
    (reserveDemand taskId startNs queueWaitNs c d).lanesFor r = c.lanesFor r := by
  have howner : (reserveDemand taskId startNs queueWaitNs c d).physicalOwner r = c.physicalOwner r := rfl
  rw [lanesFor, howner, ownerLanes_reserveDemand, Function.update_of_ne h]
  rfl

/-- Each demand is billed the lane of its owner that is free first. -/
theorem accountDemands_lanes : ∀ {demands : List (ResourceDemand ℚ)} {c : Calendar} {bill : Bill},
    (demands.map fun d => c.physicalOwner d.resourceId).Nodup →
    (accountDemands taskId startNs queueWaitNs demands c bill).2.resourceLanes =
      bill.resourceLanes ++ demands.map fun d => (d.resourceId, firstFree (c.lanesFor d.resourceId))
  | [], _, _, _ => (List.append_nil _).symm
  | d :: demands, c, bill, hn => by
    obtain ⟨hout, hn⟩ := List.nodup_cons.1 hn
    rw [accountDemands, accountDemands_lanes (c := reserveDemand taskId startNs queueWaitNs c d) hn, List.map_cons]
    have hrest : (demands.map fun d' => (d'.resourceId, firstFree ((reserveDemand taskId startNs queueWaitNs c d).lanesFor d'.resourceId))) =
        demands.map fun d' => (d'.resourceId, firstFree (c.lanesFor d'.resourceId)) := by
      refine List.map_congr_left fun d' hd' => ?_
      rw [lanesFor_reserveDemand fun he => hout (List.mem_map.2 ⟨d', hd', he⟩)]
    rw [hrest]
    exact List.append_assoc _ _ _

/-- The end on the bill is the last of the demands' ends. -/
theorem accountDemands_end {x : ℚ} : ∀ {demands : List (ResourceDemand ℚ)} {c : Calendar} {bill : Bill},
    (accountDemands taskId startNs queueWaitNs demands c bill).2.endNs ≤ x ↔
      bill.endNs ≤ x ∧ ∀ d ∈ demands, startNs + d.serviceNs ≤ x
  | [], _, _ => by simp [accountDemands]
  | d :: demands, c, bill => by
    rw [accountDemands, accountDemands_end, List.forall_mem_cons, ← and_assoc]
    refine and_congr_left fun _ => ?_
    change (if bill.endNs < startNs + d.serviceNs then startNs + d.serviceNs else bill.endNs) ≤ x ↔ _
    rw [← max_def_lt, max_le_iff]

end Account

/-! ## Tasks as jobs -/

/-- A task, as a list scheduler sees it. -/
def job (c : Calendar) (task : ScheduledTask) : Job String String ℚ (ℤ ×ₗ ℤ ×ₗ String) where
  deps := task.dependencies
  demands := task.sortedDemands.map fun d => (c.physicalOwner d.resourceId, d.serviceNs)
  release := task.earliestStartNs
  rank := toLex (task.phase, toLex (task.sequence, task.taskId))

theorem job_congr {c' : Calendar} (h : c'.resourceOwners = c.resourceOwners) : c'.job = c.job := by
  have hsame : c'.physicalOwner = c.physicalOwner := funext fun r => by rw [physicalOwner, physicalOwner, h]
  funext task
  rw [job, job, hsame]

/-- No two demands on one owner. -/
def Coalesced (c : Calendar) (task : ScheduledTask) : Prop := (task.demands.map fun d => c.physicalOwner d.resourceId).Nodup

variable {task other : ScheduledTask}

theorem sortedDemands_perm : task.sortedDemands.Perm task.demands := List.perm_insertionSort _ _

theorem Coalesced.job (h : c.Coalesced task) : ((c.job task).demands.map Prod.fst).Nodup := by
  change ((task.sortedDemands.map fun d => (c.physicalOwner d.resourceId, d.serviceNs)).map Prod.fst).Nodup
  rw [List.map_map]
  exact (sortedDemands_perm.map _).nodup_iff.2 h

theorem service_job : ∀ d ∈ (c.job task).demands, 0 ≤ d.2 := by
  intro d hd
  obtain ⟨d', hd', rfl⟩ := List.mem_map.1 hd
  exact task.service_nonneg d' (sortedDemands_perm.mem_iff.1 hd')

theorem validateOwnerDemands_ok : c.validateOwnerDemands task = .ok () ↔ c.Coalesced task := by
  rw [validateOwnerDemands]
  split
  · next hnone =>
    have hself : ∀ r, c.physicalOwner r = r := fun r => by
      rw [physicalOwner, Dict.get?, hnone]
      rfl
    simp only [Coalesced, hself]
    exact iff_of_true trivial task.demands_nodup
  · rw [refuse_ok, not_not]
    rfl

theorem mem_group {r : String} : r ∈ task.group ↔ ∃ d ∈ task.demands, d.resourceId = r := by
  rw [ScheduledTask.group, (List.perm_insertionSort _ _).mem_iff, List.mem_dedup, List.mem_map]

/-- The clocks a task waits for are known by its group. -/
theorem Sound.ready_congr (h : c.Sound) (hgroup : task.group = other.group) :
    c.demandsReadyNs task.demands = c.demandsReadyNs other.demands := by
  rw [h.demandsReadyNs, h.demandsReadyNs]
  refine latest_eq_of_mem_iff fun x => ?_
  have hmem : ∀ t : ScheduledTask, x ∈ (t.demands.map fun d => earliest (c.lanesFor d.resourceId)) ↔
      ∃ r ∈ t.group, earliest (c.lanesFor r) = x := fun t => by
    simp only [List.mem_map, mem_group, exists_exists_and_eq_and]
  rw [hmem, hmem, hgroup]

/-- The board of a kernel with these clocks, where these jobs have ended. -/
def board (c : Calendar) (ended : String → Option ℚ) : Board String String ℚ := ⟨ended, c.ownerLanes⟩

theorem Sound.resourcesReady (h : c.Sound) (ended : String → Option ℚ) (task : ScheduledTask) :
    (c.board ended).resourcesReady (c.job task) = c.demandsReadyNs task.demands := by
  rw [h.demandsReadyNs]
  refine latest_eq_of_mem_iff fun x => ?_
  change x ∈ ((task.sortedDemands.map fun d => (c.physicalOwner d.resourceId, d.serviceNs)).map
    fun d => earliest (c.ownerLanes d.1)) ↔ _
  rw [List.map_map, List.mem_map, List.mem_map]
  exact exists_congr fun d => and_congr_left fun _ => sortedDemands_perm.mem_iff

/-- Demands that are booked leave no clock earlier. -/
theorem Booked.later {startNs : ℚ} {demands booked : List (ResourceDemand ℚ)} {c' : Calendar} (h : Booked c startNs booked c')
    (hc : c.Sound) (hn : (booked.map fun d => c.physicalOwner d.resourceId).Nodup) (hservice : ∀ d ∈ booked, 0 ≤ d.serviceNs)
    (hstart : ∀ d ∈ booked, earliest (c.lanesFor d.resourceId) ≤ startNs) :
    c.demandsReadyNs demands ≤ c'.demandsReadyNs demands := by
  rw [hc.demandsReadyNs, h.sound.demandsReadyNs]
  refine latest_mono fun d _ => ?_
  have howner : c'.physicalOwner d.resourceId = c.physicalOwner d.resourceId := by rw [physicalOwner, physicalOwner, h.owners]
  rw [lanesFor, lanesFor, howner, h.lanes]
  have hnodup : ((booked.map fun d => (c.physicalOwner d.resourceId, d.serviceNs)).map Prod.fst).Nodup := by
    rw [List.map_map]
    exact hn
  rcases Board.book_cases startNs _ hnodup c.ownerLanes (c.physicalOwner d.resourceId) with he | ⟨s, hs, he⟩
  · exact (congrArg earliest he).ge
  · obtain ⟨e, hmem, hpair⟩ := List.mem_map.1 hs
    obtain ⟨hown, rfl⟩ := Prod.mk.inj hpair
    refine (earliest_le_occupy (hc.ne_nil _) ?_).trans (congrArg earliest he).ge
    rw [← hown]
    exact (hstart e hmem).trans (le_add_of_nonneg_right (hservice e hmem))

end Calendar

end HeteroSim.Kernel
