/-
What a step and a submission do to a kernel whose tasks are ordinary. The
kernel is sound when its clocks, queues and dependencies are; every call keeps
that, and a step executes a ready task with the least key.
-/
import HeteroSim.Kernel.Dependencies

namespace HeteroSim.Kernel.UnifiedEventKernel

open ListScheduling

variable {k : UnifiedEventKernel} {a b : ActiveTask} {id : String} {g : ResourceGroup} {event : KernelEvent} {c : Calendar}

/-- The clocks, the queues and the dependencies of a kernel between calls. -/
structure Sound (k : UnifiedEventKernel) : Prop where
  calendar : k.calendar.Sound
  active : k.Active
  linked : k.Linked 0 []
  queued : k.Queued []
  announced : k.Announced []

theorem Linked.anytime {x y : ℚ} (h : k.Linked x []) : k.Linked y [] :=
  ⟨h.uncompleted, h.seen, h.indegree, fun hb => (h.ready hb).trans (by rw [if_neg List.not_mem_nil, if_neg List.not_mem_nil]),
    h.dependents, h.listed, h.waiting, h.remaining⟩

/-! ## A task that is executed -/

theorem get?_recordEvent : (recordEvent event g c k).tasks.get? id = some b ↔
    id ≠ event.task.taskId ∧ k.tasks.get? id = some b := by
  change (k.tasks.erase event.task.taskId).get? id = some b ↔ _
  by_cases hid : id = event.task.taskId
  · rw [hid, Dict.get?_erase_self]
    simp
  · rw [Dict.get?_erase_of_ne _ hid]
    exact (and_iff_right hid).symm

theorem keys_recordEvent : id ∈ (recordEvent event g c k).tasks.keys ↔ id ≠ event.task.taskId ∧ id ∈ k.tasks.keys :=
  Dict.mem_keys_erase.trans and_comm

theorem Active.record (h : k.Active) (howners : c.resourceOwners = k.calendar.resourceOwners) : (recordEvent event g c k).Active where
  id hb := h.id (get?_recordEvent.1 hb).2
  ordinary hb := h.ordinary (get?_recordEvent.1 hb).2
  coalesced {id b} hb := by
    have hsame : c.physicalOwner = k.calendar.physicalOwner := funext fun r => by
      rw [Calendar.physicalOwner, Calendar.physicalOwner, howners]
    change (b.task.demands.map fun d => c.physicalOwner d.resourceId).Nodup
    rw [hsame]
    exact h.coalesced (get?_recordEvent.1 hb).2

theorem ready_recordEvent : (recordEvent event g c k).Ready b ↔ b.task.taskId ≠ event.task.taskId ∧ k.Ready b := by
  rw [Ready, Ready, get?_recordEvent, and_assoc]

/-- A dependency that ends is no longer open. -/
theorem countP_update {f : String → Option ℚ} {e : ℚ} (hid : f id = none) (l : List String) :
    (l.countP fun d => f d = none) = (l.countP fun d => Function.update f id (some e) d = none) + l.count id := by
  induction l with
  | nil => rfl
  | cons d l ih =>
    rw [List.countP_cons, List.countP_cons, List.count_cons, ih]
    by_cases hd : d = id
    · subst hd
      simp only [hid, Function.update_self, decide_true, if_true, beq_self_eq_true, reduceCtorEq, decide_false,
        Bool.false_eq_true, if_false]
      omega
    · simp only [Function.update_of_ne hd, beq_iff_eq, if_neg hd]
      omega

/-- Nobody that a ready task waits for is open. -/
theorem Linked.resolved (h : k.Linked 0 []) (ha : k.Ready a) {d : String} (hd : d ∈ a.task.dependencies) : k.completedEnd d ≠ none := by
  intro hopen
  have hcount := h.indegree ha.1
  rw [ha.2, List.count_nil] at hcount
  have hzero : k.openDependencies a.task = 0 := by omega
  exact List.countP_eq_zero.1 hzero d hd (decide_eq_true hopen)

/-- A ready task waits for nobody, and so is nobody's dependent. -/
theorem Linked.not_dependent (h : k.Linked 0 []) (ha : k.Ready a) {d : String} (hd : k.completedEnd d = none) :
    a.task.taskId ∉ k.dependents d := by
  intro hmem
  have hcount := h.dependents d hd ha.1
  have hpos := List.count_pos_iff.2 hmem
  rw [hcount] at hpos
  exact h.resolved ha (List.count_pos_iff.1 hpos) hd

/-- **The tasks that wait for the executed one are its dependents.** -/
theorem Linked.record (h : k.Linked 0 []) (ha : k.Ready a) (htask : event.task = a.task) :
    (recordEvent event g c k).Linked event.endNs (k.dependents a.task.taskId) := by
  have hself := h.uncompleted ha.1
  have hcompleted : ∀ d, (recordEvent event g c k).completedEnd d = none → d ≠ event.task.taskId ∧ k.completedEnd d = none := by
    intro d hd
    change Function.update k.completedEnd event.task.taskId (some event.endNs) d = none at hd
    by_cases hid : d = event.task.taskId
    · rw [hid, Function.update_self] at hd
      cases hd
    · rw [Function.update_of_ne hid] at hd
      exact ⟨hid, hd⟩
  constructor
  · intro id b hb
    obtain ⟨hne, hb⟩ := get?_recordEvent.1 hb
    exact (Function.update_of_ne hne _ _).trans (h.uncompleted hb)
  · intro id hid
    refine h.seen id ?_
    by_cases hne : id = event.task.taskId
    · rw [hne, htask]
      exact .inl (Dict.mem_keys_of_get? ha.1)
    · refine hid.imp (fun hk => (keys_recordEvent.1 hk).2) fun hc => ?_
      change Function.update k.completedEnd event.task.taskId (some event.endNs) id ≠ none at hc
      rwa [Function.update_of_ne hne] at hc
  · intro id b hb
    obtain ⟨hne, hb⟩ := get?_recordEvent.1 hb
    have hcount := h.indegree hb
    rw [List.count_nil] at hcount
    have hopen : k.openDependencies b.task = (recordEvent event g c k).openDependencies b.task + b.task.dependencies.count a.task.taskId := by
      have hupdate := countP_update (e := event.endNs) hself b.task.dependencies
      rw [← htask] at hupdate ⊢
      exact hupdate
    rw [hcount, h.dependents _ hself hb, hopen]
    push_cast
    ring
  · intro id b hb
    obtain ⟨hne, hb⟩ := get?_recordEvent.1 hb
    have hready := h.ready hb
    rw [if_neg List.not_mem_nil] at hready
    change latest (b.task.dependencies.filterMap (Function.update k.completedEnd event.task.taskId (some event.endNs))) = _
    rw [htask, latest_filterMap_update hself]
    have hmem : id ∈ k.dependents a.task.taskId ↔ a.task.taskId ∈ b.task.dependencies := by
      rw [← List.count_pos_iff, h.dependents _ hself hb, List.count_pos_iff]
    simp only [hmem, ← hready]
    rfl
  · intro d hd id b hb
    exact h.dependents d (hcompleted d hd).2 (get?_recordEvent.1 hb).2
  · intro d hd id hid
    refine keys_recordEvent.2 ⟨?_, h.listed d (hcompleted d hd).2 id hid⟩
    rintro rfl
    rw [htask] at hid
    exact h.not_dependent ha (hcompleted d hd).2 hid
  · intro id b hb d hd hopen
    exact keys_recordEvent.2 ⟨(hcompleted d hopen).1, h.waiting (get?_recordEvent.1 hb).2 d hd (hcompleted d hopen).2⟩
  · intro id hid
    refine keys_recordEvent.2 ⟨?_, h.listed _ hself id hid⟩
    rintro rfl
    rw [htask] at hid
    exact h.not_dependent ha hself hid

theorem Queued.record (hq : k.Queued []) (ha : k.Ready a) (htask : event.task = a.task)
    (hfirst : (k.readyByGroup a.task.group).head? = some (staticReadyKey a)) :
    (recordEvent event a.task.group c k).Queued [] := by
  obtain ⟨rest, hgroup⟩ := List.head?_eq_some_iff.1 hfirst
  have hheap := hq.heap a.task.group
  have hnodup := hq.nodup a.task.group
  rw [hgroup] at hheap hnodup
  have hqueue : ∀ g, (recordEvent event a.task.group c k).readyByGroup g =
      if g = a.task.group then rest else k.readyByGroup g := by
    intro g
    change Function.update k.readyByGroup a.task.group (k.readyByGroup a.task.group).tail g = _
    by_cases hg : g = a.task.group
    · rw [hg, Function.update_self, if_pos rfl, hgroup, List.tail_cons]
    · rw [Function.update_of_ne hg, if_neg hg]
  constructor
  · intro g
    rw [hqueue]
    split
    · exact hheap.tail
    · exact hq.heap g
  · intro g
    rw [hqueue]
    split
    · exact (List.nodup_cons.1 hnodup).2
    · exact hq.nodup g
  · intro g key
    have hkey : key ∈ (recordEvent event a.task.group c k).readyByGroup g ↔
        key ∈ k.readyByGroup g ∧ key ≠ staticReadyKey a := by
      rw [hqueue]
      split
      · next hg =>
        rw [hg, hgroup, List.mem_cons]
        refine ⟨fun hmem => ⟨.inr hmem, ?_⟩, fun hmem => hmem.1.resolve_left hmem.2⟩
        rintro rfl
        exact (List.nodup_cons.1 hnodup).1 hmem
      · next hg =>
        refine (and_iff_left_of_imp fun hmem => ?_).symm
        rintro rfl
        obtain ⟨b, hb, -, hbg, hbk⟩ := (hq.mem _ _).1 hmem
        have hid : b.task.taskId = a.task.taskId := congrArg keyTaskId hbk
        exact hg (by rw [← hbg, active_unique ha.1 hb hid])
    rw [hkey, hq.mem]
    constructor
    · rintro ⟨⟨b, hb, hrest⟩, hne⟩
      refine ⟨b, ready_recordEvent.2 ⟨fun hid => hne ?_, hb⟩, hrest⟩
      rw [htask] at hid
      rw [← hrest.2.2, active_unique ha.1 hb hid]
    · rintro ⟨b, hb, hrest⟩
      obtain ⟨hne, hb⟩ := ready_recordEvent.1 hb
      refine ⟨⟨b, hb, hrest⟩, fun hsame => hne ?_⟩
      rw [htask]
      exact congrArg keyTaskId (hrest.2.2.trans hsame)

theorem Announced.record (h : k.Announced [g]) (hlater : ∀ demands, k.calendar.demandsReadyNs demands ≤ c.demandsReadyNs demands) :
    (recordEvent event g c k).Announced [g] where
  heap := h.heap
  entry g' hg b hb hhead := by
    have hne : g' ≠ g := fun he => hg (List.mem_singleton.2 he)
    have hsame : (k.readyByGroup g').head? = some (staticReadyKey b) := by
      change (Function.update k.readyByGroup g (k.readyByGroup g).tail g').head? = _ at hhead
      rwa [Function.update_of_ne hne] at hhead
    obtain ⟨key, hkey, hle⟩ := h.entry g' hg b (ready_recordEvent.1 hb).2 hsame
    exact ⟨key, hkey, hle.trans (keyOf_le (hlater _) le_rfl)⟩

/-! ## Steps -/

/-- The task is a ready one with the least key, and is executed as the
calendar says. -/
structure Executed (k : UnifiedEventKernel) (a : ActiveTask) (event : KernelEvent) (k' : UnifiedEventKernel) : Prop where
  ready : k.Ready a
  least : ∀ b, k.Ready b → keyOf k.calendar a ≤ keyOf k.calendar b
  task : event.task = a.task
  dependencyReadyNs : event.dependencyReadyNs = a.dependencyReadyNs
  effectiveReadyNs : event.effectiveReadyNs = max a.dependencyReadyNs a.task.earliestStartNs
  startNs : event.startNs = max event.effectiveReadyNs (k.calendar.demandsReadyNs a.task.demands)
  demands : event.demands = a.task.sortedDemands
  account : (k'.calendar, event.bill) =
    k.calendar.accountTaskDemands a.task a.task.sortedDemands event.startNs event.effectiveReadyNs
  tasks : ∀ id, (k'.tasks.get? id).map ActiveTask.task = if id = a.task.taskId then none else (k.tasks.get? id).map ActiveTask.task
  completedEnd : k'.completedEnd = Function.update k.completedEnd a.task.taskId (some event.endNs)
  makespanNs : k'.makespanNs = max k.makespanNs event.endNs
  events : k'.events = k.events ++ [event]

theorem executeTask_ordinary {task : ScheduledTask} (ho : task.Ordinary) (devices : Devices) (c : Calendar) (startNs effectiveReadyNs : ℚ) :
    executeTask devices c task startNs effectiveReadyNs =
      .ok ((c.accountTaskDemands task task.sortedDemands startNs effectiveReadyNs).1, task.sortedDemands,
        (c.accountTaskDemands task task.sortedDemands startNs effectiveReadyNs).2) := by
  rw [executeTask, ho.physical]
  change (if false = true ∨ task.statefulL2 = true then _ else _) = _
  rw [if_neg (by simp [ho.statefulL2])]
  rfl

/-- The clocks after a ready task has taken its lanes. -/
theorem Sound.account (h : k.Sound) (ha : k.Ready a) {startNs : ℚ} (effectiveReadyNs : ℚ) (hearliest : a.task.earliestStartNs ≤ startNs)
    (hclocks : k.calendar.demandsReadyNs a.task.demands ≤ startNs) :
    Calendar.Booked k.calendar startNs a.task.sortedDemands
      (k.calendar.accountTaskDemands a.task a.task.sortedDemands startNs effectiveReadyNs).1 ∧
    ∀ demands, k.calendar.demandsReadyNs demands ≤
      (k.calendar.accountTaskDemands a.task a.task.sortedDemands startNs effectiveReadyNs).1.demandsReadyNs demands := by
  have hmem : ∀ d ∈ a.task.sortedDemands, d ∈ a.task.demands := fun d hd => Calendar.sortedDemands_perm.mem_iff.1 hd
  have hservice : ∀ d ∈ a.task.sortedDemands, 0 ≤ d.serviceNs := fun d hd => a.task.service_nonneg d (hmem d hd)
  have hbooked : Calendar.Booked k.calendar startNs a.task.sortedDemands
      (k.calendar.accountTaskDemands a.task a.task.sortedDemands startNs effectiveReadyNs).1 :=
    Calendar.Sound.accountDemands (a.task.earliest_nonneg.trans hearliest) hservice h.calendar
  refine ⟨hbooked, fun demands => hbooked.later h.calendar ?_ hservice fun d hd => ?_⟩
  · exact (Calendar.sortedDemands_perm.map _).nodup_iff.2 (h.active.coalesced ha.1)
  · exact (h.calendar.lane_le (hmem d hd)).trans hclocks

theorem Linked.withHeap {endNs : ℚ} {remaining : List String} (h : k.Linked endNs remaining) (heap : List GlobalReadyEntry)
    (versions : ResourceGroup → ℕ) : (k.withHeap heap versions).Linked endNs remaining :=
  ⟨h.uncompleted, h.seen, h.indegree, h.ready, h.dependents, h.listed, h.waiting, h.remaining⟩

/-- What a step leaves once the task is executed. -/
theorem settle_and_refresh (id : String) {endNs : ℚ} (hc : k.calendar.Sound) (hactive : k.Active) (hlinked : k.Linked endNs (k.dependents id)) (hq : k.Queued [])
    (hann : k.Announced [g]) : ∃ groups tasks queues heap versions,
      settleDependents endNs (k.dependents id) [g] k = .ok groups (k.withTasks tasks queues) ∧
      forM (groups.insertionSort (· ≤ ·)) refreshGroup (k.withTasks tasks queues) = .ok () ((k.withTasks tasks queues).withHeap heap versions) ∧
      ((k.withTasks tasks queues).withHeap heap versions).Sound ∧
      ∀ id, (tasks.get? id).map ActiveTask.task = (k.tasks.get? id).map ActiveTask.task := by
  obtain ⟨groups, tasks, queues, hsettle, hactive', hlinked', hq', hann', hkept⟩ := settleDependents_ok hactive hlinked hq hann
  obtain ⟨heap, versions, hrefresh, hlast⟩ := forM_refreshGroup_ok hactive' hq' hann'
    fun x hx => (List.mem_insertionSort (· ≤ ·)).2 hx
  exact ⟨groups, tasks, queues, heap, versions, hsettle, hrefresh,
    ⟨hc, hactive'.withHeap _ _, hlinked'.anytime.withHeap _ _, hq'.withHeap _ _, hlast⟩, hkept⟩

/-- **A step executes a ready task with the least key, and does nothing only
when none is ready.** -/
theorem step_ok (devices : Devices) (h : k.Sound) :
    (∃ heap versions, step devices k = .ok none (k.withHeap heap versions) ∧ (k.withHeap heap versions).Sound ∧ ∀ b, ¬k.Ready b) ∨
    ∃ a event k', step devices k = .ok (some event) k' ∧ k'.Sound ∧ k.Executed a event k' := by
  have hannounced : (k.withHeap k.readyHeap k.groupVersions).Announced [] := h.announced
  obtain ⟨out, k₁, hpop, hnext⟩ := popReadyEntry_ok h.calendar h.active h.queued k.popTurns hannounced (load_lt_popTurns k)
  rw [step, get_then]
  have hpop : popReadyEntry k.popTurns k = .ok out k₁ := hpop
  rw [ok_bind hpop]
  cases hnext with
  | @idle heap versions hidle hann =>
    exact .inl ⟨heap, versions, rfl, ⟨h.calendar, h.active.withHeap _ _, h.linked.withHeap _ _, h.queued.withHeap _ _, hann⟩, hidle⟩
  | @task heap versions entry a hpopped hann =>
    refine .inr ?_
    have ha := hpopped.ready
    have hread : (k.withHeap heap versions).activeTask (keyTaskId (ofLex (ofLex entry).1).2) = .ok a := by
      rw [hpopped.key, activeTask]
      exact congrArg (fun x : Option ActiveTask => x.elim (Except.error KernelError.key) Except.ok) ha.1
    have heffective : (ofLex (ofLex (ofLex entry).1).2).1 = max a.dependencyReadyNs a.task.earliestStartNs := by
      rw [hpopped.key, ← effective_staticReadyKey]
      rfl
    have hstart : (ofLex (ofLex entry).1).1 = max (max a.dependencyReadyNs a.task.earliestStartNs)
        (k.calendar.demandsReadyNs a.task.demands) := by
      rw [hpopped.key, ← effective_staticReadyKey]
      rfl
    have hearliest : a.task.earliestStartNs ≤ (ofLex (ofLex entry).1).1 := by
      rw [hstart]
      exact (le_max_right _ _).trans (le_max_left _ _)
    have hclocks : k.calendar.demandsReadyNs a.task.demands ≤ (ofLex (ofLex entry).1).1 := by
      rw [hstart]
      exact le_max_right _ _
    obtain ⟨hbooked, hlater⟩ := h.account ha (ofLex (ofLex (ofLex entry).1).2).1 hearliest hclocks
    have hexecute := executeTask_ordinary (h.active.ordinary ha.1) devices k.calendar (ofLex (ofLex entry).1).1
      (ofLex (ofLex (ofLex entry).1).2).1
    set account := k.calendar.accountTaskDemands a.task a.task.sortedDemands (ofLex (ofLex entry).1).1
      (ofLex (ofLex (ofLex entry).1).2).1 with haccount
    set event : KernelEvent := ⟨a.task, (ofLex (ofLex entry).1).1, a.dependencyReadyNs, (ofLex (ofLex (ofLex entry).1).2).1,
      a.task.sortedDemands, account.2⟩ with hevent
    have hlinked : (recordEvent event a.task.group account.1 (k.withHeap heap versions)).Linked event.endNs (k.dependents a.task.taskId) :=
      (h.linked.withHeap heap versions).record (a := a) ha rfl
    obtain ⟨groups, tasks, queues, heap', versions', hsettle, hrefresh, hsound, hkept⟩ :=
      settle_and_refresh a.task.taskId (k := recordEvent event a.task.group account.1 (k.withHeap heap versions)) hbooked.sound
        ((h.active.withHeap heap versions).record hbooked.owners) hlinked
        ((h.queued.withHeap heap versions).record (a := a) ha rfl hpopped.first) (hann.record hlater)
    refine ⟨a, event, _, ?_, hsound, ?_⟩
    · dsimp only
      rw [get_then, ok_bind (raise_ok hread)]
      have hcalendar : (k.withHeap heap versions).calendar = k.calendar := rfl
      rw [hcalendar, hexecute]
      dsimp only
      rw [hpopped.group, modify_then]
      exact (ok_bind hsettle).trans (ok_bind hrefresh)
    · refine ⟨ha, hpopped.least, rfl, rfl, heffective, ?_, rfl, rfl, fun id => ?_, rfl, (max_def_lt _ _).symm, rfl⟩
      · change (ofLex (ofLex entry).1).1 = max (ofLex (ofLex (ofLex entry).1).2).1 _
        rw [hstart, heffective]
      · refine (hkept id).trans ?_
        change ((k.tasks.erase a.task.taskId).get? id).map ActiveTask.task = _
        rw [Dict.get?_erase]
        split
        · rfl
        · rfl

end HeteroSim.Kernel.UnifiedEventKernel
