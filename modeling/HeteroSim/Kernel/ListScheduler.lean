/-
The kernel is a list scheduler. Its heaps, versions and counts leave nothing
out of sight: of all the tasks that are ready, with their keys from the clocks
as they are, each step executes the one whose key is least.
-/
import HeteroSim.Kernel.Submissions

namespace HeteroSim.Kernel.UnifiedEventKernel

open ListScheduling

variable {k : UnifiedEventKernel} {a b : ActiveTask} {id : String} {devices : Devices}
  {j : Job String String ℚ (ℤ ×ₗ ℤ ×ₗ String)}

/-! ## A new kernel -/

theorem checkOwners_ok {owners : Dict String String} (h : checkOwners owners = .ok ()) {r o p : String} (hr : owners.get? r = some o)
    (ho : owners.get? o = some p) : p = o := by
  simp only [checkOwners, bind_ok, refuse_ok] at h
  obtain ⟨_, -, hchain⟩ := h
  by_contra hne
  exact hchain ⟨(r, o), Dict.get?_eq_some.1 hr, p, ho, hne⟩

/-- The capacities by owner are capacities that were given. -/
theorem collectOwnerCapacities_mem {owners : Dict String String} : ∀ {l : List (String × Int)} {collected out : Dict String Int},
    collectOwnerCapacities owners l collected = .ok out → ∀ {o n}, out.get? o = some n →
      collected.get? o = some n ∨ ∃ r, (r, n) ∈ l
  | [], collected, out, h, o, n, hn => by
    obtain rfl := Except.ok.inj h
    exact .inl hn
  | (resourceId, capacity) :: rest, collected, out, h, o, n, hn => by
    simp only [collectOwnerCapacities, bind_ok, refuse_ok] at h
    obtain ⟨_, -, hrest⟩ := h
    rcases collectOwnerCapacities_mem hrest hn with hold | ⟨r, hr⟩
    · rw [Dict.get?_insert] at hold
      split at hold
      · exact .inr ⟨resourceId, by rw [← Option.some.inj hold]; exact List.mem_cons_self⟩
      · exact .inl hold
    · exact .inr ⟨r, List.mem_cons_of_mem _ hr⟩

theorem earliest_replicate (n : ℕ) : earliest (List.replicate n (0 : ℚ)) = 0 := by
  cases n with
  | zero => rfl
  | succ n =>
    exact List.eq_of_mem_replicate (earliest_mem (by simp))

/-- **A new kernel is sound, and nothing waits in it.** -/
theorem create_sound {capacities : Dict String Int} {owners : Dict String String} (h : create capacities owners = .ok k) :
    k.Sound ∧ ∀ id, k.tasks.get? id = none := by
  simp only [create, bind_ok, refuse_ok] at h
  obtain ⟨_, howners, ownerCapacities, hcollect, _, -, _, hpositive, hk⟩ := h
  have hk := (Except.ok.inj hk).symm
  have hempty : ∀ id, k.tasks.get? id = none := fun id => by rw [hk]; rfl
  have hnone : ∀ id, k.completedEnd id = none := fun id => by rw [hk]
  have hlanes : ∀ o, k.calendar.ownerLanes o = List.replicate ((k.calendar.ownerCapacities.get? o).getD 1).toNat 0 := fun o => by
    rw [hk, Calendar.ownerLanes]
    dsimp only
    cases ownerCapacities.get? o with
    | none => rfl
    | some n => rfl
  have hqueues : ∀ g, k.readyByGroup g = [] := fun g => by rw [hk]
  refine ⟨⟨⟨fun r => ?_, fun o n hn => ?_, fun o => ?_, fun o x hx => ?_, fun r => ?_⟩, ?_, ?_, ?_, ?_⟩, hempty⟩
  · have hsame : k.calendar.resourceOwners = owners := by rw [hk]
    cases hr : owners.get? r with
    | none =>
      have hself : k.calendar.physicalOwner r = r := by rw [Calendar.physicalOwner, hsame, hr]; rfl
      rw [hself, hself]
    | some o =>
      have howner : k.calendar.physicalOwner r = o := by rw [Calendar.physicalOwner, hsame, hr]; rfl
      rw [howner, Calendar.physicalOwner, hsame]
      cases ho : owners.get? o with
      | none => rfl
      | some p => exact checkOwners_ok howners hr ho
  · have hsame : k.calendar.ownerCapacities = ownerCapacities := by rw [hk]
    rw [hsame] at hn
    rcases collectOwnerCapacities_mem hcollect hn with hold | ⟨r, hr⟩
    · cases hold
    · by_contra hle
      exact hpositive ⟨(r, n), hr, not_lt.1 hle⟩
  · rw [hlanes, List.length_replicate]
  · rw [hlanes] at hx
    exact (List.eq_of_mem_replicate hx).ge
  · rw [Calendar.lanesFor, hlanes, earliest_replicate, Calendar.resourceReadyNs, hk]
  · exact ⟨fun hb => absurd hb (by simp [hempty]), fun hb => absurd hb (by simp [hempty]), fun hb => absurd hb (by simp [hempty])⟩
  · have hkeys : ∀ id, id ∉ k.tasks.keys := fun id => Dict.get?_eq_none.1 (hempty id)
    have hdependents : ∀ d, k.dependents d = [] := fun d => by rw [hk]
    refine ⟨fun _ => hnone _, fun id hid => ?_, fun hb => absurd hb (by simp [hempty]), fun hb => absurd hb (by simp [hempty]),
      fun _ _ _ _ hb => absurd hb (by simp [hempty]), fun d _ id hid => ?_, fun hb => absurd hb (by simp [hempty]), fun _ hid => ?_⟩
    · exact (hid.elim (hkeys id) (fun hc => hc (hnone id))).elim
    · rw [hdependents] at hid
      cases hid
    · cases hid
  · refine ⟨fun g => ?_, fun g => ?_, fun g key => ?_⟩
    · rw [hqueues]
      exact IsHeap.nil
    · rw [hqueues]
      exact List.nodup_nil
    · rw [hqueues]
      refine iff_of_false List.not_mem_nil ?_
      rintro ⟨b, hb, -⟩
      rw [Ready, hempty] at hb
      cases hb.1
  · refine ⟨by rw [hk]; exact IsHeap.nil, fun g _ b hb => ?_⟩
    rw [Ready, hempty] at hb
    cases hb.1

/-! ## The schedule of a kernel -/

/-- The tasks that are not executed yet, as jobs, and when the others ended. -/
def schedule (k : UnifiedEventKernel) : Schedule String String ℚ (ℤ ×ₗ ℤ ×ₗ String) where
  waiting id := (k.tasks.get? id).map fun a => k.calendar.job a.task
  board := k.calendar.board k.completedEnd

theorem waiting_schedule (ha : k.tasks.get? id = some a) : k.schedule.waiting id = some (k.calendar.job a.task) :=
  congrArg (Option.map fun a : ActiveTask => k.calendar.job a.task) ha

theorem waiting_eq (k : UnifiedEventKernel) (id : String) :
    k.schedule.waiting id = ((k.tasks.get? id).map ActiveTask.task).map k.calendar.job :=
  (Option.map_map k.calendar.job ActiveTask.task _).symm

variable (h : k.Sound)

include h

/-- The key in the queues is the key on the board. -/
theorem Sound.key (ha : k.tasks.get? id = some a) : k.schedule.board.key (k.calendar.job a.task) = keyOf k.calendar a := by
  have hdependency : k.schedule.board.dependencyReady (k.calendar.job a.task) = a.dependencyReadyNs :=
    (h.linked.ready ha).trans (if_neg List.not_mem_nil)
  have heffective : k.schedule.board.effectiveReady (k.calendar.job a.task) = max a.dependencyReadyNs a.task.earliestStartNs := by
    rw [Board.effectiveReady, hdependency]
    rfl
  have hstatic : k.schedule.board.staticKey (k.calendar.job a.task) = staticReadyKey a := by
    rw [Board.staticKey, staticReadyKey, heffective, hdependency, max_def_lt]
    rfl
  have hresources : k.schedule.board.resourcesReady (k.calendar.job a.task) = k.calendar.demandsReadyNs a.task.demands :=
    h.calendar.resourcesReady k.completedEnd a.task
  rw [Board.key, Board.start, heffective, hresources, hstatic, keyOf, effective_staticReadyKey]

/-- The tasks that are ready are the jobs that are. -/
theorem Sound.ready_iff : k.schedule.Ready id j ↔ ∃ a, k.Ready a ∧ a.task.taskId = id ∧ k.calendar.job a.task = j := by
  have hresolved : ∀ {a}, k.tasks.get? id = some a → (k.schedule.board.Resolved (k.calendar.job a.task) ↔ a.indegree = 0) := by
    intro a ha
    have hcount := h.linked.indegree ha
    rw [List.count_nil] at hcount
    have hzero : a.indegree = 0 ↔ k.openDependencies a.task = 0 := by omega
    rw [hzero, openDependencies, List.countP_eq_zero]
    exact forall₂_congr fun d _ => by simp [Option.ne_none_iff_exists', schedule, Calendar.board]
  constructor
  · rintro ⟨hwaiting, hres⟩
    obtain ⟨a, ha, rfl⟩ := Option.map_eq_some_iff.1 hwaiting
    have hid := h.active.id ha
    exact ⟨a, ⟨hid.symm ▸ ha, (hresolved ha).1 hres⟩, hid, rfl⟩
  · rintro ⟨a, ha, rfl, rfl⟩
    exact ⟨waiting_schedule ha.1, (hresolved ha.1).2 ha.2⟩

omit h

/-- The event of the job that is next, with its times on the board. -/
structure Lists (s : Schedule String String ℚ (ℤ ×ₗ ℤ ×ₗ String)) (event : KernelEvent) (j : Job String String ℚ (ℤ ×ₗ ℤ ×ₗ String)) :
    Prop where
  next : s.Next event.task.taskId j
  dependencyReadyNs : event.dependencyReadyNs = s.board.dependencyReady j
  effectiveReadyNs : event.effectiveReadyNs = s.board.effectiveReady j
  startNs : event.startNs = s.board.start j
  endNs : event.endNs = s.board.finish j

theorem accountTaskDemands_end (c : Calendar) (task : ScheduledTask) (startNs effectiveReadyNs : ℚ) {x : ℚ} :
    (c.accountTaskDemands task task.sortedDemands startNs effectiveReadyNs).2.endNs ≤ x ↔
      startNs ≤ x ∧ ∀ d ∈ task.sortedDemands, startNs + d.serviceNs ≤ x := Calendar.accountDemands_end

include h

/-- The demands of what is executed have taken their lanes. -/
theorem Sound.booked {event : KernelEvent} {k' : UnifiedEventKernel} (hx : k.Executed a event k') :
    Calendar.Booked k.calendar event.startNs a.task.sortedDemands k'.calendar := by
  have hearliest : a.task.earliestStartNs ≤ event.startNs := by
    rw [hx.startNs, hx.effectiveReadyNs]
    exact (le_max_right _ _).trans (le_max_left _ _)
  have hclocks : k.calendar.demandsReadyNs a.task.demands ≤ event.startNs := by
    rw [hx.startNs]
    exact le_max_right _ _
  have hcalendar : k'.calendar =
      (k.calendar.accountTaskDemands a.task a.task.sortedDemands event.startNs event.effectiveReadyNs).1 := congrArg Prod.fst hx.account
  rw [hcalendar]
  exact (h.account hx.ready event.effectiveReadyNs hearliest hclocks).1

/-- What is executed is what the list scheduler takes next. -/
theorem Sound.lists {event : KernelEvent} {k' : UnifiedEventKernel} (hx : k.Executed a event k') :
    Lists k.schedule event (k.calendar.job a.task) ∧ k'.schedule = k.schedule.take a.task.taskId (k.calendar.job a.task) := by
  have ha := hx.ready.1
  have hkey := h.key ha
  have hdependency : k.schedule.board.dependencyReady (k.calendar.job a.task) = a.dependencyReadyNs :=
    (h.linked.ready ha).trans (if_neg List.not_mem_nil)
  have heffective : event.effectiveReadyNs = k.schedule.board.effectiveReady (k.calendar.job a.task) := by
    rw [hx.effectiveReadyNs, Board.effectiveReady, hdependency]
    rfl
  have hstart : event.startNs = k.schedule.board.start (k.calendar.job a.task) := by
    rw [hx.startNs, heffective, Board.start]
    exact congrArg _ (h.calendar.resourcesReady k.completedEnd a.task).symm
  have hend : event.endNs = k.schedule.board.finish (k.calendar.job a.task) := by
    have hbill : event.bill =
        (k.calendar.accountTaskDemands a.task a.task.sortedDemands event.startNs event.effectiveReadyNs).2 := congrArg Prod.snd hx.account
    refine eq_of_forall_ge_iff fun x => ?_
    rw [KernelEvent.endNs, hbill, accountTaskDemands_end, Board.le_finish_iff, ← hstart]
    refine and_congr_right fun _ => ?_
    change _ ↔ ∀ d ∈ a.task.sortedDemands.map fun d => (k.calendar.physicalOwner d.resourceId, d.serviceNs), event.startNs + d.2 ≤ x
    rw [List.forall_mem_map]
  have hbooked := h.booked hx
  refine ⟨⟨⟨h.ready_iff.2 ⟨a, hx.ready, by rw [hx.task], rfl⟩, ?_⟩, ?_, heffective, hstart, hend⟩, ?_⟩
  · rintro id j hj
    obtain ⟨b, hb, -, rfl⟩ := h.ready_iff.1 hj
    rw [hkey, h.key hb.1]
    exact hx.least b hb
  · rw [hx.dependencyReadyNs, hdependency]
  · have hwaiting : k'.schedule.waiting = Function.update k.schedule.waiting a.task.taskId none := funext fun id => by
      rw [waiting_eq, hx.tasks, Calendar.job_congr hbooked.owners]
      split
      · next hid => rw [hid, Function.update_self]; rfl
      · next hid => rw [Function.update_of_ne hid, waiting_eq]
    have hboard : k'.schedule.board = k.schedule.board.run (k.calendar.job a.task) a.task.taskId := by
      change (⟨k'.completedEnd, k'.calendar.ownerLanes⟩ : Board String String ℚ) = ⟨_, _⟩
      rw [hx.completedEnd, hbooked.lanes, hend, hstart]
      rfl
    exact congrArg₂ Schedule.mk hwaiting hboard

omit h

/-! ## Runs -/

/-- The kernels that come of a new one by submissions of ordinary tasks that
are accepted, and by steps; the list is all that was submitted. -/
inductive Reached (devices : Devices) : List ScheduledTask → UnifiedEventKernel → Prop
  | create {capacities owners k} : create capacities owners = .ok k → Reached devices [] k
  | submit {given k chunk retained receipt k'} : Reached devices given k → (∀ t ∈ chunk, t.Ordinary) →
    submit chunk retained k = .ok receipt k' → Reached devices (given ++ chunk) k'
  | step {given k out k'} : Reached devices given k → step devices k = .ok out k' → Reached devices given k'

variable {given : List ScheduledTask}

/-- A submission that returns has taken its chunk. -/
theorem Sound.submitted (h : k.Sound) {chunk : List ScheduledTask} {retained : List String} {receipt : SubmissionReceipt}
    {k' : UnifiedEventKernel} (hord : ∀ t ∈ chunk, t.Ordinary) (hok : UnifiedEventKernel.submit chunk retained k = .ok receipt k') :
    k'.Sound ∧ k.Submitted chunk k' := by
  obtain ⟨receipt', k'', hok', hsound, hsubmitted⟩ := submit_ok h hord ((submit_iff h hord).1 ⟨receipt, k', hok⟩)
  obtain ⟨rfl, rfl⟩ := EStateM.Result.ok.inj (hok'.symm.trans hok)
  exact ⟨hsound, hsubmitted⟩

theorem Reached.sound (h : Reached devices given k) : k.Sound := by
  induction h with
  | create hk => exact (create_sound hk).1
  | submit _ hord hok ih => exact (ih.submitted hord hok).1
  | step _ hok ih =>
    rcases step_ok devices ih with ⟨heap, versions, hstep, hsound, -⟩ | ⟨a, event, k'', hstep, hsound, -⟩
    · obtain ⟨-, rfl⟩ := EStateM.Result.ok.inj (hstep.symm.trans hok)
      exact hsound
    · obtain ⟨-, rfl⟩ := EStateM.Result.ok.inj (hstep.symm.trans hok)
      exact hsound

/-- The jobs of a chunk. -/
def jobsOf (c : Calendar) (chunk : List ScheduledTask) (id : String) : Option (Job String String ℚ (ℤ ×ₗ ℤ ×ₗ String)) :=
  (chunk.find? fun t => t.taskId = id).map c.job

/-- **In whatever way it was come by, the kernel schedules as a list scheduler
does: a step runs the ready task with the least key of all, and none only
where none is ready; a submission adds its tasks, and nothing else makes or
drops one.** -/
theorem kernel_list_schedules (h : Reached devices given k) :
    ((∃ k', step devices k = .ok none k' ∧ (∀ id j, ¬k.schedule.Ready id j) ∧ k'.schedule = k.schedule) ∨
      ∃ event k', step devices k = .ok (some event) k' ∧ Lists k.schedule event (k.calendar.job event.task) ∧
        k'.schedule = k.schedule.take event.task.taskId (k.calendar.job event.task)) ∧
    ∀ chunk retained receipt k', (∀ t ∈ chunk, t.Ordinary) → submit chunk retained k = .ok receipt k' →
      k'.schedule = k.schedule.add (jobsOf k.calendar chunk) := by
  have hs := h.sound
  refine ⟨?_, fun chunk retained receipt k' hord hok => ?_⟩
  · rcases step_ok devices hs with ⟨heap, versions, hstep, -, hidle⟩ | ⟨a, event, k', hstep, -, hx⟩
    · refine .inl ⟨_, hstep, fun id j hj => ?_, rfl⟩
      obtain ⟨b, hb, -⟩ := hs.ready_iff.1 hj
      exact hidle b hb
    · refine .inr ⟨event, k', hstep, ?_⟩
      rw [hx.task]
      exact hs.lists hx
  · obtain ⟨-, hsub⟩ := hs.submitted hord hok
    have hwaiting : k'.schedule.waiting = (k.schedule.add (jobsOf k.calendar chunk)).waiting := funext fun id => by
      rw [waiting_eq, hsub.tasks, hsub.calendar]
      change _ = ((chunk.find? fun t => t.taskId = id).map k.calendar.job).or (k.schedule.waiting id)
      rw [waiting_eq]
      exact Option.map_or
    have hboard : k'.schedule.board = k.schedule.board := by
      rw [schedule, schedule, hsub.calendar, hsub.completedEnd]
    exact congrArg₂ Schedule.mk hwaiting hboard

theorem zero_nonneg : (0 : ℚ) ≤ 0 := le_rfl

theorem oneDemand_nonneg (resourceId : String) (serviceNs : ℕ) :
    ∀ d ∈ [ResourceDemand.mk resourceId (serviceNs : ℚ)], 0 ≤ d.serviceNs := by
  intro d hd
  rw [List.mem_singleton.1 hd]
  exact Nat.cast_nonneg _

theorem oneDemand_nodup (resourceId : String) (serviceNs : ℚ) :
    ([ResourceDemand.mk resourceId serviceNs].map (·.resourceId)).Nodup := List.nodup_singleton _

/-- A task of one demand. -/
def oneDemand (taskId : String) (dependencies : List String) (resourceId : String) (serviceNs : ℕ) (sequence : Int) : ScheduledTask where
  taskId
  dependencies
  demands := [⟨resourceId, serviceNs⟩]
  earliestStartNs := 0
  phase := 0
  sequence
  demands_nodup := oneDemand_nodup resourceId serviceNs
  physical := .absent
  statefulL2 := false
  metadataError := none
  earliest_nonneg := zero_nonneg
  service_nonneg := oneDemand_nonneg resourceId serviceNs

theorem oneDemand_ordinary {taskId resourceId : String} {dependencies : List String} {serviceNs : ℕ} {sequence : Int} :
    (oneDemand taskId dependencies resourceId serviceNs sequence).Ordinary := ⟨rfl, rfl⟩

/-- Two tasks of a resource, and one that waits for the first. -/
def threeTasks : List ScheduledTask := [oneDemand "x" [] "R" 5 1, oneDemand "y" ["x"] "R" 2 0, oneDemand "z" [] "R" 3 0]

theorem threeTasks_ordinary : ∀ t ∈ threeTasks, t.Ordinary := by
  simp only [threeTasks, List.forall_mem_cons, oneDemand_ordinary, List.not_mem_nil, false_imp_iff, implies_true, and_true]

/-- The task that a step executes. -/
def nextTask (devices : Devices) (k : UnifiedEventKernel) : Option String :=
  match step devices k with
  | .ok (some event) _ => some event.task.taskId
  | _ => none

/-- The task that is executed first after a submission to a new kernel. -/
def firstTask (devices : Devices) (chunk : List ScheduledTask) : Option String :=
  (create .empty .empty).toOption.bind fun k =>
    match submit chunk [] k with
    | .ok _ k' => nextTask devices k'
    | .error _ _ => none

theorem kernel_list_schedules_threeTasks : ∃ k, Reached (fun _ _ _ _ => .error .key) threeTasks k ∧
    ∃ event k', step (fun _ _ _ _ => .error .key) k = .ok (some event) k' ∧ event.task.taskId = "z" ∧
      Lists k.schedule event (k.calendar.job event.task) := by
  obtain ⟨k₀, hcreate⟩ : ∃ k, create .empty .empty = .ok k := ⟨_, rfl⟩
  have hchecked : (create .empty .empty >>= fun k => k.checkChunk threeTasks []) = .ok () := by decide +kernel
  rw [hcreate] at hchecked
  obtain ⟨receipt, k, hsubmit, -⟩ := submit_ok (create_sound hcreate).1 threeTasks_ordinary hchecked
  have hreached : Reached (fun _ _ _ _ => .error .key) threeTasks k := .submit (.create hcreate) threeTasks_ordinary hsubmit
  have hfirst : firstTask (fun _ _ _ _ => .error .key) threeTasks = some "z" := by decide +kernel
  have hnext : nextTask (fun _ _ _ _ => .error .key) k = some "z" := by
    rw [firstTask, hcreate] at hfirst
    change (match submit threeTasks [] k₀ with
      | .ok _ k' => nextTask _ k'
      | .error _ _ => none) = some "z" at hfirst
    rwa [hsubmit] at hfirst
  refine ⟨k, hreached, ?_⟩
  rcases (kernel_list_schedules hreached).1 with ⟨k', hstep, -⟩ | ⟨event, k', hstep, hlists, -⟩
  · rw [nextTask, hstep] at hnext
    cases hnext
  · rw [nextTask, hstep] at hnext
    exact ⟨event, k', hstep, Option.some.inj hnext, hlists⟩

end HeteroSim.Kernel.UnifiedEventKernel
