/-
Whole runs of the event kernel on ordinary tasks, told by their events. A task
is executed once at most, when all that it depends on has been, and starts as
soon as that and the lanes of its demands allow; what a lane was taken for
does not overlap; and when no task is ready none is left.
-/
import HeteroSim.Kahn
import HeteroSim.Kernel.ListScheduler

namespace HeteroSim.Kernel.UnifiedEventKernel

open ListScheduling

variable {devices : Devices} {k k' : UnifiedEventKernel} {a b : ActiveTask} {id : String} {event : KernelEvent}
  {events pre post : List KernelEvent} {given : List ScheduledTask} {owner : String → String} {capacity : String → ℕ}
  {o : String} {i : ℕ}

/-! ## What events say -/

/-- The lanes of an owner. -/
def capacityOf (k : UnifiedEventKernel) (o : String) : ℕ := ((k.calendar.ownerCapacities.get? o).getD 1).toNat

/-- A task was executed. -/
def Done (events : List KernelEvent) (id : String) : Prop := ∃ e ∈ events, e.task.taskId = id

/-- When the task of an event ended. -/
def endOf (events : List KernelEvent) (id : String) : Option ℚ := (events.find? fun e => e.task.taskId = id).map KernelEvent.endNs

/-- For when an event has taken a lane, by the lanes on its bill. -/
def laneTakes (owner : String → String) (o : String) (i : ℕ) (e : KernelEvent) : List (ℚ × ℚ) :=
  (e.demands.zip (e.bill.resourceLanes.map Prod.snd)).filterMap fun p =>
    if owner p.1.resourceId = o ∧ p.2 = i then some (e.startNs, e.startNs + p.1.serviceNs) else none

/-- All that a lane was taken for. -/
def laneHistory (owner : String → String) (events : List KernelEvent) (o : String) (i : ℕ) : List (ℚ × ℚ) :=
  events.flatMap (laneTakes owner o i)

/-- When the lanes of an owner are free. -/
def lanesAfter (owner : String → String) (capacity : String → ℕ) (events : List KernelEvent) (o : String) : List ℚ :=
  (List.range (capacity o)).map fun i => freeAt (laneHistory owner events o i)

/-- An event among what was executed before it: its task had been submitted
and all that it depends on executed, each demand has taken a lane of its
owner, it starts as soon as the task is ready and those lanes are free, and
ends with the longest service. -/
structure Placed (owner : String → String) (capacity : String → ℕ) (given : List ScheduledTask) (pre : List KernelEvent)
    (e : KernelEvent) : Prop where
  submitted : e.task ∈ given
  demands : e.demands.Perm e.task.demands
  dependencies : ∀ d ∈ e.task.dependencies, Done pre d
  effectiveReadyNs : e.effectiveReadyNs = max (latest (e.task.dependencies.filterMap (endOf pre))) e.task.earliestStartNs
  startNs : e.startNs = max e.effectiveReadyNs
    (latest (e.task.demands.map fun d => earliest (lanesAfter owner capacity pre (owner d.resourceId))))
  endNs : e.endNs = e.startNs + latest (e.task.demands.map (·.serviceNs))
  lanes : ∀ d ∈ e.task.demands, ∃ i < capacity (owner d.resourceId),
    (e.startNs, e.startNs + d.serviceNs) ∈ laneTakes owner (owner d.resourceId) i e

theorem Placed.mono {more : List ScheduledTask} (h : Placed owner capacity given pre event) :
    Placed owner capacity (given ++ more) pre event :=
  ⟨List.mem_append_left _ h.submitted, h.demands, h.dependencies, h.effectiveReadyNs, h.startNs, h.endNs, h.lanes⟩

theorem laneHistory_snoc : laneHistory owner (events ++ [event]) o i = laneHistory owner events o i ++ laneTakes owner o i event := by
  rw [laneHistory, List.flatMap_append, List.flatMap_singleton]
  rfl

theorem endOf_eq_none : endOf events id = none ↔ ¬Done events id := by
  rw [endOf, Option.map_eq_none_iff, List.find?_eq_none]
  simp only [decide_eq_true_eq, Done, not_exists, not_and]

theorem endOf_snoc (hout : ¬Done events event.task.taskId) :
    endOf (events ++ [event]) = Function.update (endOf events) event.task.taskId (some event.endNs) := by
  funext id
  by_cases hid : id = event.task.taskId
  · subst hid
    rw [Function.update_self, endOf, List.find?_append, Option.map_eq_none_iff.1 (endOf_eq_none.2 hout), Option.none_or,
      List.find?_singleton]
    simp
  · rw [Function.update_of_ne hid, endOf, List.find?_append, List.find?_singleton, if_neg (by simpa using Ne.symm hid), Option.or_none]
    rfl

/-- What comes before an event, in a longer run. -/
theorem split_snoc {α : Type} {l pre post : List α} {x y : α} (h : l ++ [x] = pre ++ y :: post) :
    (l = pre ∧ x = y) ∨ ∃ post', l = pre ++ y :: post' := by
  rcases List.eq_nil_or_concat post with rfl | ⟨post', z, rfl⟩
  · exact .inl ((List.append_inj' h rfl).imp_right List.singleton_inj.1)
  · rw [List.concat_eq_append, ← List.cons_append, ← List.append_assoc] at h
    exact .inr ⟨post', (List.append_inj' h rfl).1⟩

/-! ## The lanes a task takes -/

section Takes

variable {α : Type} {f : α → String} {g : String → ℕ} {s : α → ℚ × ℚ}

theorem filterMap_takes_none {l : List α} (hout : o ∉ l.map f) :
    (l.filterMap fun d => if f d = o ∧ g (f d) = i then some (s d) else none) = [] :=
  List.filterMap_eq_nil_iff.2 fun d hd => if_neg fun h => hout (List.mem_map.2 ⟨d, hd, h.1⟩)

theorem filterMap_takes {l : List α} {d : α} (hn : (l.map f).Nodup) (hd : d ∈ l) :
    (l.filterMap fun d' => if f d' = f d ∧ g (f d') = i then some (s d') else none) =
      if i = g (f d) then [s d] else [] := by
  obtain ⟨l₁, l₂, rfl⟩ := List.append_of_mem hd
  rw [List.map_append, List.map_cons, List.nodup_append, List.nodup_cons] at hn
  obtain ⟨-, ⟨hafter, -⟩, hbefore⟩ := hn
  rw [List.filterMap_append, List.filterMap_cons, filterMap_takes_none fun h => hbefore _ h _ List.mem_cons_self rfl,
    filterMap_takes_none hafter, List.nil_append]
  by_cases hi : i = g (f d)
  · simp only [hi, and_self, if_true]
  · simp only [Ne.symm hi, hi, and_false, if_false]

end Takes

section Executed

variable (h : k.Sound) (hx : k.Executed a event k')

include h hx

/-- Each demand is billed the first lane that is free. -/
theorem Sound.takes : laneTakes k.calendar.physicalOwner o i event = a.task.sortedDemands.filterMap fun d =>
    if k.calendar.physicalOwner d.resourceId = o ∧ firstFree (k.calendar.ownerLanes (k.calendar.physicalOwner d.resourceId)) = i then
      some (event.startNs, event.startNs + d.serviceNs) else none := by
  have hbill : event.bill.resourceLanes.map Prod.snd =
      a.task.sortedDemands.map fun d => firstFree (k.calendar.lanesFor d.resourceId) := by
    have hsorted : (a.task.sortedDemands.map fun d => k.calendar.physicalOwner d.resourceId).Nodup :=
      (Calendar.sortedDemands_perm.map _).nodup_iff.2 (h.active.coalesced hx.ready.1)
    rw [show event.bill = _ from congrArg Prod.snd hx.account, Calendar.accountTaskDemands, Calendar.accountDemands_lanes hsorted,
      List.nil_append, List.map_map]
    rfl
  rw [laneTakes, hx.demands, hbill]
  have hzip : a.task.sortedDemands.zip (a.task.sortedDemands.map fun d => firstFree (k.calendar.lanesFor d.resourceId)) =
      a.task.sortedDemands.map fun d => (d, firstFree (k.calendar.lanesFor d.resourceId)) := by
    rw [← List.zip_map', List.map_id']
  rw [hzip, List.filterMap_map]
  rfl

/-- Of an owner that is not asked for nothing is taken. -/
theorem Sound.takes_none (hout : ∀ d ∈ a.task.demands, k.calendar.physicalOwner d.resourceId ≠ o) :
    laneTakes k.calendar.physicalOwner o i event = [] ∧ k'.calendar.ownerLanes o = k.calendar.ownerLanes o := by
  have hsorted : o ∉ a.task.sortedDemands.map fun d => k.calendar.physicalOwner d.resourceId := by
    rw [List.mem_map]
    rintro ⟨d, hd, ho⟩
    exact hout d (Calendar.sortedDemands_perm.mem_iff.1 hd) ho
  refine ⟨(h.takes hx).trans (filterMap_takes_none (g := fun o => firstFree (k.calendar.ownerLanes o)) hsorted), ?_⟩
  rw [(h.booked hx).lanes, Board.book_of_not_mem]
  rw [List.map_map]
  exact hsorted

/-- A demand takes the lane of its owner that is free first. -/
theorem Sound.takes_one {d : ResourceDemand ℚ} (hd : d ∈ a.task.demands) :
    laneTakes k.calendar.physicalOwner (k.calendar.physicalOwner d.resourceId) i event =
        (if i = firstFree (k.calendar.lanesFor d.resourceId) then [(event.startNs, event.startNs + d.serviceNs)] else []) ∧
      k'.calendar.ownerLanes (k.calendar.physicalOwner d.resourceId) =
        occupy (k.calendar.lanesFor d.resourceId) (event.startNs + d.serviceNs) := by
  have hmem : d ∈ a.task.sortedDemands := Calendar.sortedDemands_perm.mem_iff.2 hd
  have hsorted : (a.task.sortedDemands.map fun d => k.calendar.physicalOwner d.resourceId).Nodup :=
    (Calendar.sortedDemands_perm.map _).nodup_iff.2 (h.active.coalesced hx.ready.1)
  refine ⟨(h.takes hx).trans (filterMap_takes (g := fun o => firstFree (k.calendar.ownerLanes o)) hsorted hmem), ?_⟩
  rw [(h.booked hx).lanes]
  have hn : ((a.task.sortedDemands.map fun d => (k.calendar.physicalOwner d.resourceId, d.serviceNs)).map Prod.fst).Nodup := by
    rw [List.map_map]
    exact hsorted
  have hpair : (k.calendar.physicalOwner d.resourceId, d.serviceNs) ∈
      a.task.sortedDemands.map fun d => (k.calendar.physicalOwner d.resourceId, d.serviceNs) := List.mem_map.2 ⟨d, hmem, rfl⟩
  exact Board.book_of_mem hn hpair

end Executed

/-! ## What a kernel and its events agree on -/

/-- The task of that id, while it is active. -/
abbrev taskOf (k : UnifiedEventKernel) (id : String) : Option ScheduledTask := (k.tasks.get? id).map ActiveTask.task

/-- The state of a kernel that was given these tasks follows from its events,
each of which is placed; a task that was given waits or is done, and those
that wait do not wait for each other in a circle. -/
structure Told (given : List ScheduledTask) (k : UnifiedEventKernel) : Prop where
  once : (k.events.map fun e => e.task.taskId).Nodup
  makespan : k.makespanNs = latest (k.events.map KernelEvent.endNs)
  ended : k.completedEnd = endOf k.events
  lanes : k.calendar.ownerLanes = lanesAfter k.calendar.physicalOwner k.capacityOf k.events
  laid : ∀ o i, Laid (laneHistory k.calendar.physicalOwner k.events o i)
  placed : ∀ pre e post, k.events = pre ++ e :: post → Placed k.calendar.physicalOwner k.capacityOf given pre e
  kept : ∀ t ∈ given, k.taskOf t.taskId = some t ∨ ∃ e ∈ k.events, e.task = t
  active : ∀ {id t}, k.taskOf id = some t → t ∈ given
  acyclic : ∃ rank : String → ℕ, ∀ id t, k.taskOf id = some t → ∀ d ∈ t.dependencies, k.taskOf d ≠ none → rank d < rank id

theorem completed_iff (h : Told given k) : k.completedEnd id ≠ none ↔ Done k.events id := by
  rw [h.ended, Ne, endOf_eq_none, not_not]

section Step

variable (h : k.Sound) (ht : Told given k) (hx : k.Executed a event k')

include h ht hx

/-- What is executed is placed behind the others. -/
theorem Told.place : Placed k.calendar.physicalOwner k.capacityOf given k.events event where
  submitted := by
    rw [hx.task]
    exact ht.active (congrArg (Option.map ActiveTask.task) hx.ready.1)
  demands := by
    rw [hx.demands, hx.task]
    exact Calendar.sortedDemands_perm
  dependencies d hd := by
    rw [hx.task] at hd
    exact (completed_iff ht).1 (h.linked.resolved hx.ready hd)
  effectiveReadyNs := by
    have hready : latest (a.task.dependencies.filterMap k.completedEnd) = a.dependencyReadyNs :=
      (h.linked.ready hx.ready.1).trans (if_neg List.not_mem_nil)
    rw [hx.effectiveReadyNs, hx.task, ← ht.ended, hready]
  startNs := by
    rw [hx.startNs, h.calendar.demandsReadyNs, hx.task, ← ht.lanes]
    rfl
  endNs := by
    have hbill : event.bill =
        (k.calendar.accountTaskDemands a.task a.task.sortedDemands event.startNs event.effectiveReadyNs).2 := congrArg Prod.snd hx.account
    refine eq_of_forall_ge_iff fun x => ?_
    rw [KernelEvent.endNs, hbill, accountTaskDemands_end, hx.task, ← le_sub_iff_add_le', latest_le_iff, sub_nonneg, List.forall_mem_map]
    simp only [le_sub_iff_add_le', Calendar.sortedDemands_perm.mem_iff]
  lanes d hd := by
    rw [hx.task] at hd
    refine ⟨firstFree (k.calendar.lanesFor d.resourceId), ?_, ?_⟩
    · rw [capacityOf, ← h.calendar.length]
      exact firstFree_lt (h.calendar.ne_nil _)
    · rw [(h.takes_one hx hd).1, if_pos rfl]
      exact List.mem_cons_self

/-- The lanes after a step are as the events tell. -/
theorem Told.lanes_step : k'.calendar.ownerLanes = lanesAfter k.calendar.physicalOwner k.capacityOf k'.events := by
  funext o
  by_cases ho : ∃ d ∈ a.task.demands, k.calendar.physicalOwner d.resourceId = o
  · obtain ⟨d, hd, rfl⟩ := ho
    rw [(h.takes_one (i := 0) hx hd).2, Calendar.lanesFor, ht.lanes]
    refine occupy_range.trans (List.map_congr_left fun i _ => ?_)
    rw [hx.events, laneHistory_snoc, (h.takes_one hx hd).1, Calendar.lanesFor, ht.lanes]
    by_cases hi : i = firstFree (lanesAfter k.calendar.physicalOwner k.capacityOf k.events (k.calendar.physicalOwner d.resourceId))
    · rw [if_pos hi, freeAt_snoc, hi]
      exact Function.update_self _ _ _
    · rw [if_neg hi, List.append_nil]
      exact Function.update_of_ne hi _ _
  · rw [not_exists] at ho
    have hout : ∀ d ∈ a.task.demands, k.calendar.physicalOwner d.resourceId ≠ o := fun d hd he => ho d ⟨hd, he⟩
    rw [(h.takes_none (i := 0) hx hout).2, ht.lanes]
    refine List.map_congr_left fun i _ => ?_
    rw [hx.events, laneHistory_snoc, (h.takes_none hx hout).1, List.append_nil]

/-- An interval is laid behind those its lane was taken for. -/
theorem Told.laid_step (o : String) (i : ℕ) : Laid (laneHistory k.calendar.physicalOwner k'.events o i) := by
  rw [hx.events, laneHistory_snoc]
  by_cases ho : ∃ d ∈ a.task.demands, k.calendar.physicalOwner d.resourceId = o
  · obtain ⟨d, hd, rfl⟩ := ho
    rw [(h.takes_one hx hd).1]
    split
    · next hi =>
      refine (ht.laid _ _).snoc ?_ (le_add_of_nonneg_right (a.task.service_nonneg d hd))
      have hfree : freeAt (laneHistory k.calendar.physicalOwner k.events (k.calendar.physicalOwner d.resourceId) i) =
          earliest (k.calendar.lanesFor d.resourceId) := by
        have hget := getElem?_firstFree (h.calendar.ne_nil (k.calendar.physicalOwner d.resourceId))
        have hlane : firstFree (k.calendar.ownerLanes (k.calendar.physicalOwner d.resourceId)) = i := hi.symm
        rw [hlane, ht.lanes, lanesAfter, List.getElem?_map] at hget
        obtain ⟨j, hj, hfree⟩ := Option.map_eq_some_iff.1 hget
        obtain rfl := (List.getElem?_eq_some_iff.1 hj).2.symm.trans (List.getElem_range _)
        rw [hfree, Calendar.lanesFor, ht.lanes]
        rfl
      rw [hfree]
      refine (h.calendar.lane_le hd).trans ?_
      rw [hx.startNs]
      exact le_max_right _ _
    · rw [List.append_nil]
      exact ht.laid _ _
  · rw [not_exists] at ho
    have hout : ∀ d ∈ a.task.demands, k.calendar.physicalOwner d.resourceId ≠ o := fun d hd he => ho d ⟨hd, he⟩
    rw [(h.takes_none hx hout).1, List.append_nil]
    exact ht.laid _ _

/-- **A step goes on with what the events tell.** -/
theorem Told.step : Told given k' := by
  have hid : event.task.taskId = a.task.taskId := congrArg (·.taskId) hx.task
  have hopen : ¬Done k.events event.task.taskId := by
    rw [← completed_iff ht, not_not, hid]
    exact h.linked.uncompleted hx.ready.1
  have hbooked := h.booked hx
  have howner : k'.calendar.physicalOwner = k.calendar.physicalOwner := funext fun r => by
    rw [Calendar.physicalOwner, Calendar.physicalOwner, hbooked.owners]
  have hcapacity : k'.capacityOf = k.capacityOf := funext fun o => by rw [capacityOf, capacityOf, hbooked.ownerCapacities]
  have htasks : ∀ id, k'.taskOf id = if id = a.task.taskId then none else k.taskOf id := hx.tasks
  have hself : k.taskOf a.task.taskId = some a.task := congrArg (Option.map ActiveTask.task) hx.ready.1
  constructor
  · rw [hx.events, List.map_append, List.map_singleton]
    refine List.nodup_append.2 ⟨ht.once, List.nodup_singleton _, ?_⟩
    rintro _ hmem _ hlast rfl
    obtain ⟨e, he, hsame⟩ := List.mem_map.1 hmem
    exact hopen ⟨e, he, hsame.trans (List.mem_singleton.1 hlast)⟩
  · rw [hx.makespanNs, hx.events, List.map_append, List.map_singleton, latest_snoc, ht.makespan]
  · rw [hx.completedEnd, hx.events, endOf_snoc hopen, ht.ended, hid]
  · rw [howner, hcapacity]
    exact ht.lanes_step h hx
  · rw [howner]
    exact ht.laid_step h hx
  · intro pre e post hsplit
    rw [howner, hcapacity]
    rw [hx.events] at hsplit
    rcases split_snoc hsplit with ⟨rfl, rfl⟩ | ⟨post', hsplit⟩
    · exact ht.place h hx
    · exact ht.placed pre e post' hsplit
  · intro t hgiven
    rw [hx.events]
    rcases ht.kept t hgiven with hwaiting | ⟨e, he, rfl⟩
    · by_cases hta : t.taskId = a.task.taskId
      · rw [hta, hself] at hwaiting
        exact .inr ⟨event, List.mem_append_right _ List.mem_cons_self, hx.task.trans (Option.some.inj hwaiting)⟩
      · refine .inl ?_
        rw [htasks, if_neg hta]
        exact hwaiting
    · exact .inr ⟨e, List.mem_append_left _ he, rfl⟩
  · intro id t hactive
    rw [htasks] at hactive
    split at hactive
    · cases hactive
    · exact ht.active hactive
  · obtain ⟨rank, hrank⟩ := ht.acyclic
    refine ⟨rank, fun id t hactive d hd hwaits => ?_⟩
    rw [htasks] at hactive hwaits
    split at hactive
    · cases hactive
    · refine hrank id t hactive d hd fun hnone => hwaits ?_
      rw [hnone, ite_self]

end Step

section Submit

variable {chunk : List ScheduledTask}

/-- The tasks of a chunk that is accepted do not wait for each other in a
circle. -/
theorem Accepted.ranked (hacc : k.Accepted chunk) : ∃ rank : String → ℕ, ∀ t ∈ chunk, ∀ d ∈ t.dependencies, d ∈ idsOf chunk →
    rank d < rank t.taskId := by
  have hlocal : ∀ t ∈ chunk, localDependencies chunk t.taskId = t.dependencies.filter (· ∈ idsOf chunk) := fun t ht => by
    rw [localDependencies, find?_chunk hacc ht]
    rfl
  have hclosed : ∀ id ∈ idsOf chunk, ∀ d ∈ localDependencies chunk id, d ∈ idsOf chunk := by
    intro id hid d hd
    obtain ⟨t, ht, rfl⟩ := List.mem_map.1 hid
    rw [hlocal t ht] at hd
    exact of_decide_eq_true (List.mem_filter.1 hd).2
  have hvisited := hacc.visited
  rw [show chunk.length = (idsOf chunk).length from (List.length_map _).symm, Kahn.visitedCount_iff hacc.nodup hclosed] at hvisited
  obtain ⟨rank, hrank⟩ := hvisited
  refine ⟨rank, fun t ht d hd hin => hrank _ _ ⟨List.mem_map_of_mem ht, ?_⟩⟩
  rw [hlocal t ht]
  exact List.mem_filter.2 ⟨hd, decide_eq_true hin⟩

theorem taskOf_ne_none : k.taskOf id ≠ none ↔ id ∈ k.tasks.keys := by
  rw [Ne, Option.map_eq_none_iff, Dict.get?_eq_none, not_not]

/-- **A submission tells nothing but its tasks.** -/
theorem Told.submit (h : k.Sound) (ht : Told given k) (hs : k.Submitted chunk k') : Told (given ++ chunk) k' := by
  have hacc := hs.accepted
  have howner : k'.calendar.physicalOwner = k.calendar.physicalOwner := by rw [hs.calendar]
  have hcapacity : k'.capacityOf = k.capacityOf := funext fun o => by rw [capacityOf, capacityOf, hs.calendar]
  have htasks : ∀ id, k'.taskOf id = (chunk.find? fun t => t.taskId = id).or (k.taskOf id) := hs.tasks
  have hnew : ∀ t ∈ chunk, k'.taskOf t.taskId = some t := fun t hmem => by
    rw [htasks, find?_chunk hacc hmem, Option.some_or]
  have hold : ∀ id ∉ idsOf chunk, k'.taskOf id = k.taskOf id := fun id hid => by
    rw [htasks, List.find?_eq_none.2 fun t hmem hsame => hid (List.mem_map.2 ⟨t, hmem, of_decide_eq_true hsame⟩), Option.none_or]
  have hcases : ∀ {id t}, k'.taskOf id = some t → t ∈ chunk ∧ t.taskId = id ∨ id ∉ idsOf chunk ∧ k.taskOf id = some t := by
    intro id t hsome
    by_cases hid : id ∈ idsOf chunk
    · obtain ⟨t', hmem, rfl⟩ := List.mem_map.1 hid
      rw [hnew t' hmem] at hsome
      obtain rfl := Option.some.inj hsome
      exact .inl ⟨hmem, rfl⟩
    · exact .inr ⟨hid, hold id hid ▸ hsome⟩
  have hfresh : ∀ {id}, k.taskOf id ≠ none ∨ k.completedEnd id ≠ none → id ∉ idsOf chunk := fun hseen hid =>
    hacc.fresh _ hid (h.linked.seen _ (hseen.imp_left taskOf_ne_none.1))
  constructor
  · rw [hs.events]
    exact ht.once
  · rw [hs.events, hs.makespanNs]
    exact ht.makespan
  · rw [hs.events, hs.completedEnd]
    exact ht.ended
  · rw [howner, hcapacity, hs.calendar, hs.events]
    exact ht.lanes
  · rw [howner, hs.events]
    exact ht.laid
  · rw [howner, hcapacity, hs.events]
    exact fun pre e post hsplit => (ht.placed pre e post hsplit).mono
  · intro t hgiven
    rcases List.mem_append.1 hgiven with hgiven | hmem
    · rw [hs.events]
      refine (ht.kept t hgiven).imp_left fun hwaiting => ?_
      rw [hold _ (hfresh (.inl (by simp [hwaiting])))]
      exact hwaiting
    · exact .inl (hnew t hmem)
  · intro id t hsome
    rcases hcases hsome with ⟨hmem, -⟩ | ⟨-, hwaiting⟩
    · exact List.mem_append_right _ hmem
    · exact List.mem_append_left _ (ht.active hwaiting)
  · obtain ⟨rank, hrank⟩ := ht.acyclic
    obtain ⟨rank', hrank'⟩ := hacc.ranked
    -- the chunk ranks above all that is active
    let bound := k.tasks.keys.toFinset.sup rank
    have hbound : ∀ id, k.taskOf id ≠ none → rank id ≤ bound := fun id hid =>
      Finset.le_sup (f := rank) (List.mem_toFinset.2 (taskOf_ne_none.1 hid))
    refine ⟨fun id => if id ∈ idsOf chunk then bound + 1 + rank' id else rank id, fun id t hsome d hd hopen => ?_⟩
    dsimp only
    rcases hcases hsome with ⟨hmem, rfl⟩ | ⟨hid, hwaiting⟩
    · have hin : t.taskId ∈ idsOf chunk := List.mem_map.2 ⟨t, hmem, rfl⟩
      rw [if_pos hin]
      split
      · next hin => exact Nat.add_lt_add_left (hrank' t hmem d hd hin) _
      · next hout =>
        rw [hold d hout] at hopen
        have hle := hbound d hopen
        omega
    · have hseen : k.taskOf d ≠ none ∨ k.completedEnd d ≠ none := by
        by_cases hdone : k.completedEnd d = none
        · obtain ⟨b, hb, rfl⟩ := Option.map_eq_some_iff.1 hwaiting
          exact .inl (taskOf_ne_none.2 (h.linked.waiting hb d hd hdone))
        · exact .inr hdone
      rw [if_neg (hfresh hseen), if_neg hid]
      rw [hold d (hfresh hseen)] at hopen
      exact hrank id t hwaiting d hd hopen

end Submit

/-! ## Whole runs -/

theorem create_told {capacities : Dict String Int} {owners : Dict String String} (h : create capacities owners = .ok k) : Told [] k := by
  have hempty := (create_sound h).2
  simp only [create, bind_ok, refuse_ok] at h
  obtain ⟨_, -, ownerCapacities, -, _, -, _, -, hk⟩ := h
  have hk := (Except.ok.inj hk).symm
  have hevents : k.events = [] := by rw [hk]
  have hnone : ∀ id, k.taskOf id = none := fun id => congrArg (Option.map ActiveTask.task) (hempty id)
  constructor
  · rw [hevents]
    exact List.nodup_nil
  · rw [hevents, hk]
    rfl
  · rw [hevents]
    funext id
    rw [hk]
    rfl
  · rw [hevents]
    funext o
    have hlanes : lanesAfter k.calendar.physicalOwner k.capacityOf [] o = List.replicate (k.capacityOf o) 0 := by
      rw [← List.length_range (n := k.capacityOf o), ← List.map_const']
      rfl
    rw [hlanes, capacityOf, hk, Calendar.ownerLanes]
    dsimp only
    cases ownerCapacities.get? o with
    | none => rfl
    | some n => rfl
  · rw [hevents]
    exact fun _ _ => .nil
  · intro pre e post hsplit
    rw [hevents] at hsplit
    simp at hsplit
  · exact fun t hmem => absurd hmem List.not_mem_nil
  · intro id t hsome
    rw [hnone] at hsome
    cases hsome
  · refine ⟨fun _ => 0, fun id t hsome => ?_⟩
    rw [hnone] at hsome
    cases hsome

theorem Reached.told (h : Reached devices given k) : Told given k := by
  induction h with
  | create hk => exact create_told hk
  | submit hk hord hok ih => exact ih.submit hk.sound (hk.sound.submitted hord hok).2
  | step hk hok ih =>
    rcases step_ok devices hk.sound with ⟨heap, versions, hstep, -, -⟩ | ⟨a, event, k'', hstep, -, hx⟩
    · obtain ⟨-, rfl⟩ := EStateM.Result.ok.inj (hstep.symm.trans hok)
      exact ⟨ih.once, ih.makespan, ih.ended, ih.lanes, ih.laid, ih.placed, ih.kept, ih.active, ih.acyclic⟩
    · obtain ⟨-, rfl⟩ := EStateM.Result.ok.inj (hstep.symm.trans hok)
      exact ih.step hk.sound hx

/-- **When no task is ready none is left.** -/
theorem Told.all_done (h : k.Sound) (ht : Told given k) (hidle : ∀ b, ¬k.Ready b) {t : ScheduledTask} (hmem : t ∈ given) :
    ∃ e ∈ k.events, e.task = t := by
  refine (ht.kept t hmem).resolve_left fun hwaiting => ?_
  obtain ⟨rank, hrank⟩ := ht.acyclic
  have hnone : ∀ n, ∀ id, rank id = n → k.taskOf id = none := by
    intro n
    induction n using Nat.strong_induction_on with
    | h n ih =>
      intro id hn
      cases hsome : k.taskOf id with
      | none => rfl
      | some t =>
        obtain ⟨b, hb, rfl⟩ := Option.map_eq_some_iff.1 hsome
        -- all it depends on ranks below, so none of it is open
        have hclosed : k.openDependencies b.task = 0 := by
          refine List.countP_eq_zero.2 fun d hd hopen => ?_
          have hactive := taskOf_ne_none.2 (h.linked.waiting hb d hd (of_decide_eq_true hopen))
          exact hactive (ih (rank d) (hn ▸ hrank id b.task hsome d hd hactive) d rfl)
        have hcount := h.linked.indegree hb
        rw [hclosed, List.count_nil] at hcount
        have hid := h.active.id hb
        exact (hidle b ⟨hid.symm ▸ hb, hcount⟩).elim
  rw [hnone _ _ rfl] at hwaiting
  cases hwaiting

/-- Steps with no submission between them, and what they execute. -/
inductive Drained (devices : Devices) : UnifiedEventKernel → List KernelEvent → UnifiedEventKernel → Prop
  | nil {k : UnifiedEventKernel} : Drained devices k [] k
  | step {k out k₁ executed k'} : step devices k = .ok out k₁ → Drained devices k₁ executed k' →
    Drained devices k (out.toList ++ executed) k'

/-- What is ready after a step starts no earlier than what it executed. -/
theorem Sound.next_start (h : k.Sound) (hx : k.Executed a event k') {j : Job String String ℚ (ℤ ×ₗ ℤ ×ₗ String)}
    (hready : k'.schedule.Ready id j) : event.startNs ≤ k'.schedule.board.start j := by
  obtain ⟨hlists, hschedule⟩ := h.lists hx
  have htask : event.task.taskId = a.task.taskId := congrArg (·.taskId) hx.task
  have hnext := hlists.next
  rw [htask] at hnext
  rw [hschedule] at hready ⊢
  rw [hlists.startNs]
  exact hnext.start_le (fun r => h.calendar.ne_nil r) (h.active.coalesced hx.ready.1).job Calendar.service_job hready

/-- Nothing starts before what could have. -/
theorem Drained.start_le {x : ℚ} (hd : Drained devices k events k') : k.Sound →
    (∀ id j, k.schedule.Ready id j → x ≤ k.schedule.board.start j) → ∀ e ∈ events, x ≤ e.startNs := by
  induction hd with
  | nil => exact fun _ _ e he => absurd he List.not_mem_nil
  | step hok _ ih =>
    intro hs hx
    rcases step_ok devices hs with ⟨heap, versions, hstep, hsound, -⟩ | ⟨a, event, k'', hstep, hsound, hexecuted⟩
    · obtain ⟨rfl, rfl⟩ := EStateM.Result.ok.inj (hstep.symm.trans hok)
      exact ih hsound hx
    · obtain ⟨rfl, rfl⟩ := EStateM.Result.ok.inj (hstep.symm.trans hok)
      have hlists := (hs.lists hexecuted).1
      have hnow : x ≤ event.startNs := by
        rw [hlists.startNs]
        exact hx _ _ hlists.next.1
      exact List.forall_mem_cons.2 ⟨hnow, ih hsound fun id j hready => hnow.trans (hs.next_start hexecuted hready)⟩

theorem Drained.sorted (hd : Drained devices k events k') : k.Sound → (events.map (·.startNs)).Pairwise (· ≤ ·) := by
  induction hd with
  | nil => exact fun _ => .nil
  | step hok hrest ih =>
    intro hs
    rcases step_ok devices hs with ⟨heap, versions, hstep, hsound, -⟩ | ⟨a, event, k'', hstep, hsound, hexecuted⟩
    · obtain ⟨rfl, rfl⟩ := EStateM.Result.ok.inj (hstep.symm.trans hok)
      exact ih hsound
    · obtain ⟨rfl, rfl⟩ := EStateM.Result.ok.inj (hstep.symm.trans hok)
      refine List.pairwise_cons.2 ⟨fun x hx => ?_, ih hsound⟩
      obtain ⟨e, he, rfl⟩ := List.mem_map.1 hx
      exact hrest.start_le hsound (fun id j hready => hs.next_start hexecuted hready) e he

/-- **Whatever is submitted and in whatever order with the steps, the schedule
is valid: no task is executed twice; each event is placed among those before
it; what a lane is taken for does not overlap; when no task that was submitted
is ready, or a step finds none, all are executed; and between submissions
nothing starts before what was executed before it.** -/
theorem kernel_schedule_valid (h : Reached devices given k) :
    (k.events.map fun e => e.task.taskId).Nodup ∧
    (∀ pre e post, k.events = pre ++ e :: post → Placed k.calendar.physicalOwner k.capacityOf given pre e) ∧
    (∀ o i, (laneHistory k.calendar.physicalOwner k.events o i).Pairwise fun p q => p.2 ≤ q.1) ∧
    ((∀ t ∈ given, (∀ d ∈ t.dependencies, Done k.events d) → Done k.events t.taskId) → ∀ t ∈ given, ∃ e ∈ k.events, e.task = t) ∧
    (∀ k', step devices k = .ok none k' → ∀ t ∈ given, ∃ e ∈ k.events, e.task = t) ∧
    ∀ executed k', Drained devices k executed k' → (executed.map (·.startNs)).Pairwise (· ≤ ·) := by
  have hs := h.sound
  have ht := h.told
  refine ⟨ht.once, ht.placed, fun o i => (ht.laid o i).apart, fun hnone t hmem => ?_, fun k' hstep t hmem => ?_,
    fun executed k' hdrained => hdrained.sorted hs⟩
  · refine ht.all_done hs (fun b hb => ?_) hmem
    have hgiven : b.task ∈ given := ht.active (congrArg (Option.map ActiveTask.task) hb.1)
    exact (completed_iff ht).2 (hnone b.task hgiven fun d hd => (completed_iff ht).1 (hs.linked.resolved hb hd)) (hs.linked.uncompleted hb.1)
  · rcases step_ok devices hs with ⟨heap, versions, -, -, hidle⟩ | ⟨a, event, k'', hok, -⟩
    · exact ht.all_done hs hidle hmem
    · cases hok.symm.trans hstep

/-- **A kernel that is stepped comes to where nothing is ready.** -/
theorem Sound.finishes (devices : Devices) : ∀ {n : ℕ} {k : UnifiedEventKernel}, k.Sound → k.tasks.keys.toFinset.card ≤ n →
    ∃ executed k', Drained devices k executed k' ∧ ∃ k'', step devices k' = .ok none k''
  | n, k, h, hn => by
    rcases step_ok devices h with ⟨heap, versions, hstep, -, -⟩ | ⟨a, event, k', hstep, hsound, hx⟩
    · exact ⟨[], k, .nil, _, hstep⟩
    · have hkeys : ∀ id, id ∈ k'.tasks.keys ↔ id ≠ a.task.taskId ∧ id ∈ k.tasks.keys := fun id => by
        have htask : k'.taskOf id = if id = a.task.taskId then none else k.taskOf id := hx.tasks id
        rw [← taskOf_ne_none, ← taskOf_ne_none, htask]
        split
        · next hid => simp [hid]
        · next hid => simp [hid]
      have hless : k'.tasks.keys.toFinset.card < k.tasks.keys.toFinset.card := by
        refine Finset.card_lt_card (Finset.ssubset_iff_of_subset (fun id hid => ?_) |>.2 ⟨a.task.taskId, ?_, ?_⟩)
        · exact List.mem_toFinset.2 ((hkeys id).1 (List.mem_toFinset.1 hid)).2
        · exact List.mem_toFinset.2 (Dict.mem_keys_of_get? hx.ready.1)
        · exact fun hid => ((hkeys _).1 (List.mem_toFinset.1 hid)).1 rfl
      obtain ⟨m, rfl⟩ : ∃ m, n = m + 1 := ⟨n - 1, by omega⟩
      have hm : k'.tasks.keys.toFinset.card ≤ m := by omega
      obtain ⟨executed, k'', hdrained, hidle⟩ := Sound.finishes devices hsound hm
      exact ⟨_, k'', .step hstep hdrained, hidle⟩

theorem Reached.drained (h : Reached devices given k) (hd : Drained devices k events k') : Reached devices given k' := by
  induction hd with
  | nil => exact h
  | step hok _ ih => exact ih (.step h hok)

/-- A kernel after so many steps. -/
def afterSteps (devices : Devices) : ℕ → UnifiedEventKernel → Option UnifiedEventKernel
  | 0, k => some k
  | n + 1, k =>
    match step devices k with
    | .ok _ k' => afterSteps devices n k'
    | .error _ _ => none

theorem Reached.afterSteps : ∀ {n : ℕ} {k : UnifiedEventKernel}, Reached devices given k →
    UnifiedEventKernel.afterSteps devices n k = some k' → Reached devices given k'
  | 0, _, h, hk => Option.some.inj hk ▸ h
  | n + 1, k, h, hk => by
    rw [UnifiedEventKernel.afterSteps] at hk
    cases hstep : UnifiedEventKernel.step devices k with
    | ok out k₁ =>
      rw [hstep] at hk
      exact Reached.afterSteps (.step h hstep) hk
    | error e k₁ =>
      rw [hstep] at hk
      cases hk

/-- What was executed, and when it started. -/
def starts (k : UnifiedEventKernel) : List (String × ℚ) := k.events.map fun e => (e.task.taskId, e.startNs)

/-- What a new kernel has executed of a chunk after so many steps. -/
def startsAfter (devices : Devices) (chunk : List ScheduledTask) (n : ℕ) : Option (List (String × ℚ)) :=
  (create .empty .empty).toOption.bind fun k =>
    match submit chunk [] k with
    | .ok _ k' => (afterSteps devices n k').map starts
    | .error _ _ => none

theorem kernel_schedule_valid_threeTasks : ∃ k, Reached (fun _ _ _ _ => .error .key) threeTasks k ∧
    k.starts = [("z", 0), ("x", 3), ("y", 8)] ∧
    (∀ pre e post, k.events = pre ++ e :: post → Placed k.calendar.physicalOwner k.capacityOf threeTasks pre e) ∧
    (laneHistory k.calendar.physicalOwner k.events "R" 0).Pairwise fun p q => p.2 ≤ q.1 := by
  obtain ⟨k₀, hcreate⟩ : ∃ k, create .empty .empty = .ok k := ⟨_, rfl⟩
  have hstarts : startsAfter (fun _ _ _ _ => .error .key) threeTasks 3 = some [("z", 0), ("x", 3), ("y", 8)] := by decide +kernel
  rw [startsAfter, hcreate] at hstarts
  change (match submit threeTasks [] k₀ with
    | .ok _ k' => (afterSteps _ 3 k').map starts
    | .error _ _ => none) = _ at hstarts
  cases hsubmit : submit threeTasks [] k₀ with
  | error e k₁ =>
    rw [hsubmit] at hstarts
    cases hstarts
  | ok receipt k₁ =>
    rw [hsubmit] at hstarts
    obtain ⟨k, hk, hevents⟩ := Option.map_eq_some_iff.1 hstarts
    have hreached := (Reached.submit (.create hcreate) threeTasks_ordinary hsubmit).afterSteps hk
    obtain ⟨-, hplaced, hlanes, -⟩ := kernel_schedule_valid hreached
    exact ⟨k, hreached, hevents, hplaced, hlanes "R" 0⟩

end HeteroSim.Kernel.UnifiedEventKernel
