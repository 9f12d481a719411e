/-
Tasks and what they wait for. The indegree of an active task counts its open
dependencies, and each open task lists those that wait for it; when a task
ends, its dependents are settled one after the other, and those that wait for
nothing more are queued.
-/
import HeteroSim.Kernel.Queues

namespace HeteroSim.Kernel.UnifiedEventKernel

open ListScheduling

variable {k : UnifiedEventKernel} {a b : ActiveTask} {id : String} {unqueued : List String} {pending : List ResourceGroup}

/-! ## Queueing -/

/-- The active tasks and the queues are others. -/
def withTasks (k : UnifiedEventKernel) (tasks : Dict String ActiveTask) (queues : ResourceGroup → List StaticReadyKey) :
    UnifiedEventKernel :=
  { k with tasks := tasks, readyByGroup := queues }

theorem active_unique (ha : k.tasks.get? id = some a) (hb : k.Ready b) (hid : b.task.taskId = id) : b = a := by
  have hsome : k.tasks.get? b.task.taskId = some b := hb.1
  rw [hid, ha] at hsome
  exact (Option.some.inj hsome).symm

/-- The queue of the task's group with the task in it. -/
def queuedWith (k : UnifiedEventKernel) (a : ActiveTask) : ResourceGroup → List StaticReadyKey :=
  Function.update k.readyByGroup a.task.group (heappush (k.readyByGroup a.task.group) (staticReadyKey a))

theorem mem_queuedWith {g : ResourceGroup} {key : StaticReadyKey} :
    key ∈ k.queuedWith a g ↔ g = a.task.group ∧ key = staticReadyKey a ∨ key ∈ k.readyByGroup g := by
  unfold queuedWith
  by_cases hg : g = a.task.group
  · subst hg
    rw [Function.update_self, mem_heappush, and_iff_right rfl]
  · rw [Function.update_of_ne hg]
    exact (or_iff_right fun h => hg h.1).symm

theorem Queued.push (h : k.Queued (id :: unqueued)) (hactive : k.Active) (ha : k.tasks.get? id = some a) (hzero : a.indegree = 0)
    (hout : id ∉ unqueued) : (k.withTasks k.tasks (k.queuedWith a)).Queued unqueued where
  heap g := by
    change IsHeap (k.queuedWith a g)
    unfold queuedWith
    by_cases hg : g = a.task.group
    · subst hg
      rw [Function.update_self]
      exact (h.heap _).push _
    · rw [Function.update_of_ne hg]
      exact h.heap g
  nodup g := by
    change (k.queuedWith a g).Nodup
    unfold queuedWith
    by_cases hg : g = a.task.group
    · subst hg
      rw [Function.update_self, (heappush_perm _ _).nodup_iff, List.nodup_cons]
      refine ⟨fun hmem => ?_, h.nodup _⟩
      obtain ⟨b, -, hb, -, hkey⟩ := (h.mem _ _).1 hmem
      have hid : b.task.taskId = a.task.taskId := congrArg keyTaskId hkey
      rw [hid, hactive.id ha] at hb
      exact hb List.mem_cons_self
    · rw [Function.update_of_ne hg]
      exact h.nodup g
  mem g key := by
    change key ∈ k.queuedWith a g ↔ ∃ b, k.Ready b ∧ _
    have hid := hactive.id ha
    rw [mem_queuedWith, h.mem]
    constructor
    · rintro (⟨rfl, rfl⟩ | ⟨b, hready, hb, hrest⟩)
      · exact ⟨a, ⟨hid.symm ▸ ha, hzero⟩, by rwa [hid], rfl, rfl⟩
      · exact ⟨b, hready, fun hmem => hb (List.mem_cons_of_mem _ hmem), hrest⟩
    · rintro ⟨b, hready, hb, hgroup, hkey⟩
      by_cases hba : b.task.taskId = id
      · obtain rfl := active_unique ha hready hba
        exact .inl ⟨hgroup.symm, hkey.symm⟩
      · exact .inr ⟨b, hready, List.not_mem_cons_of_ne_of_not_mem hba hb, hgroup, hkey⟩

/-- A task that waits is not to be queued. -/
theorem Queued.skip (h : k.Queued (id :: unqueued)) (ha : k.tasks.get? id = some a) (hne : a.indegree ≠ 0) :
    k.Queued unqueued where
  heap := h.heap
  nodup := h.nodup
  mem g key := by
    rw [h.mem]
    refine exists_congr fun b => and_congr_right fun hready => and_congr_left fun _ => ?_
    refine ⟨fun hb hmem => hb (List.mem_cons_of_mem _ hmem), fun hb => List.not_mem_cons_of_ne_of_not_mem (fun hid => hne ?_) hb⟩
    rw [← active_unique ha hready hid]
    exact hready.2

theorem Announced.push (h : k.Announced pending) {groups : List ResourceGroup} (hsub : pending ⊆ groups)
    (hhead : (k.queuedWith a a.task.group).head? ≠ (k.readyByGroup a.task.group).head? → a.task.group ∈ groups) :
    (k.withTasks k.tasks (k.queuedWith a)).Announced groups where
  heap := h.heap
  entry g hg b hb hfirst := by
    have hsame : (k.readyByGroup g).head? = some (staticReadyKey b) := by
      refine Eq.trans ?_ hfirst
      change _ = (k.queuedWith a g).head?
      by_cases hga : g = a.task.group
      · subst hga
        by_contra hne
        exact hg (hhead (Ne.symm hne))
      · rw [queuedWith, Function.update_of_ne hga]
    exact h.entry g (fun hp => hg (hsub hp)) b hb hsame

/-- A task is put into its queue, and its group named if that has another
first task then. -/
theorem addReadyTask_run (ha : k.tasks.get? id = some a) : addReadyTask id k =
    .ok (if (heappush (k.readyByGroup a.task.group) (staticReadyKey a)).head? = (k.readyByGroup a.task.group).head? then none
      else some a.task.group) (k.withTasks k.tasks (k.queuedWith a)) := by
  have hread : k.activeTask id = .ok a := by rw [activeTask, ha]; rfl
  rw [addReadyTask, get_then, ok_bind (raise_ok hread)]
  rfl

/-- **A ready task is queued, and its group announced anew where it came
first.** -/
theorem addReadyTask_ok (hactive : k.Active) (hq : k.Queued (id :: unqueued)) (h : k.Announced pending) (ha : k.tasks.get? id = some a)
    (hzero : a.indegree = 0) (hout : id ∉ unqueued) : ∃ changed, addReadyTask id k = .ok changed (k.withTasks k.tasks (k.queuedWith a)) ∧
      (k.withTasks k.tasks (k.queuedWith a)).Queued unqueued ∧
      (k.withTasks k.tasks (k.queuedWith a)).Announced (pending ++ changed.toList.filter (· ∉ pending)) := by
  refine ⟨_, addReadyTask_run ha, hq.push hactive ha hzero hout, ?_⟩
  refine h.push (List.subset_append_left _ _) fun hne => ?_
  rw [queuedWith, Function.update_self] at hne
  rw [if_neg hne, List.mem_append]
  by_cases hp : a.task.group ∈ pending
  · exact .inl hp
  · exact .inr (List.mem_filter.2 ⟨List.mem_singleton_self _, decide_eq_true hp⟩)

/-- The loop over a chunk queues those of its tasks that are ready. -/
theorem queueReady_ok : ∀ {chunk : List ScheduledTask} {groups : List ResourceGroup} {k : UnifiedEventKernel}, k.Active →
    k.Queued (chunk.map (·.taskId)) → k.Announced groups → (chunk.map (·.taskId)).Nodup →
    (∀ t ∈ chunk, ∃ a, k.tasks.get? t.taskId = some a) → ∃ groups' queues,
      queueReady chunk groups k = .ok groups' (k.withTasks k.tasks queues) ∧ (k.withTasks k.tasks queues).Queued [] ∧
      (k.withTasks k.tasks queues).Announced groups'
  | [], groups, k, _, hq, h, _, _ => ⟨groups, k.readyByGroup, rfl, hq, h⟩
  | task :: rest, groups, k, hactive, hq, h, hnodup, hmem => by
    obtain ⟨⟨a, ha⟩, hmem⟩ := List.forall_mem_cons.1 hmem
    obtain ⟨hout, hnodup⟩ := List.nodup_cons.1 hnodup
    have hread : k.activeTask task.taskId = .ok a := by rw [activeTask, ha]; rfl
    rw [queueReady, get_then, ok_bind (raise_ok hread)]
    by_cases hzero : a.indegree = 0
    · obtain ⟨changed, hok, hq', h'⟩ := addReadyTask_ok hactive hq h ha hzero hout
      rw [if_pos hzero, ok_bind hok]
      obtain ⟨groups', queues, hok', hrest⟩ := queueReady_ok (k := k.withTasks k.tasks (k.queuedWith a))
        ⟨hactive.id, hactive.ordinary, hactive.coalesced⟩ hq' h' hnodup hmem
      exact ⟨groups', queues, hok', hrest⟩
    · rw [if_neg hzero]
      exact queueReady_ok hactive (hq.skip ha hzero) h hnodup hmem

/-! ## What tasks wait for -/

/-- How many dependencies are open. -/
def openDependencies (k : UnifiedEventKernel) (task : ScheduledTask) : ℕ :=
  task.dependencies.countP fun d => k.completedEnd d = none

/-- When the dependencies that ended were over. -/
def dependenciesEnd (k : UnifiedEventKernel) (task : ScheduledTask) : ℚ := latest (task.dependencies.filterMap k.completedEnd)

/-- Tasks and their dependents count on each other. Those remaining have yet
to be settled for the end of a task. -/
structure Linked (k : UnifiedEventKernel) (endNs : ℚ) (remaining : List String) : Prop where
  uncompleted : ∀ {id a}, k.tasks.get? id = some a → k.completedEnd id = none
  seen : ∀ id, id ∈ k.tasks.keys ∨ k.completedEnd id ≠ none → HasSeenTaskId k.seen id
  indegree : ∀ {id a}, k.tasks.get? id = some a → a.indegree = k.openDependencies a.task + remaining.count id
  ready : ∀ {id a}, k.tasks.get? id = some a →
    k.dependenciesEnd a.task = if id ∈ remaining then max a.dependencyReadyNs endNs else a.dependencyReadyNs
  dependents : ∀ d, k.completedEnd d = none → ∀ {id a}, k.tasks.get? id = some a →
    (k.dependents d).count id = a.task.dependencies.count d
  listed : ∀ d, k.completedEnd d = none → ∀ id ∈ k.dependents d, id ∈ k.tasks.keys
  waiting : ∀ {id a}, k.tasks.get? id = some a → ∀ d ∈ a.task.dependencies, k.completedEnd d = none → d ∈ k.tasks.keys
  remaining : ∀ id ∈ remaining, id ∈ k.tasks.keys

variable {endNs : ℚ} {dependent : String} {remaining : List String}

/-- One more of the task's dependencies ended. -/
def settleTask (k : UnifiedEventKernel) (dependent : String) (a : ActiveTask) (endNs : ℚ) : UnifiedEventKernel :=
  k.withTasks (k.tasks.insert dependent (settled a endNs)) k.readyByGroup

theorem get?_settleTask (ha : k.tasks.get? dependent = some a) {b : ActiveTask} :
    (k.settleTask dependent a endNs).tasks.get? id = some b ↔
      id = dependent ∧ b = settled a endNs ∨ id ≠ dependent ∧ k.tasks.get? id = some b := by
  change (k.tasks.insert dependent (settled a endNs)).get? id = some b ↔ _
  rw [Dict.get?_insert]
  by_cases hid : id = dependent
  · subst hid
    simp [eq_comm]
  · simp [hid]

theorem keys_settleTask (ha : k.tasks.get? dependent = some a) :
    id ∈ (k.settleTask dependent a endNs).tasks.keys ↔ id ∈ k.tasks.keys := by
  change id ∈ (k.tasks.insert dependent (settled a endNs)).keys ↔ _
  rw [Dict.keys_insert_of_mem (Dict.mem_keys_of_get? ha)]

theorem Active.settle (h : k.Active) (ha : k.tasks.get? dependent = some a) : (k.settleTask dependent a endNs).Active where
  id hb := by
    rcases (get?_settleTask ha).1 hb with ⟨rfl, rfl⟩ | ⟨-, hb⟩
    · exact h.id (a := a) ha
    · exact h.id hb
  ordinary hb := by
    rcases (get?_settleTask ha).1 hb with ⟨rfl, rfl⟩ | ⟨-, hb⟩
    · exact h.ordinary (a := a) ha
    · exact h.ordinary hb
  coalesced hb := by
    rcases (get?_settleTask ha).1 hb with ⟨rfl, rfl⟩ | ⟨-, hb⟩
    · exact h.coalesced (a := a) ha
    · exact h.coalesced hb

theorem Linked.settle (h : k.Linked endNs (dependent :: remaining)) (ha : k.tasks.get? dependent = some a) :
    (k.settleTask dependent a endNs).Linked endNs remaining where
  uncompleted hb := by
    rcases (get?_settleTask ha).1 hb with ⟨rfl, rfl⟩ | ⟨-, hb⟩
    · exact h.uncompleted ha
    · exact h.uncompleted hb
  seen id hid := h.seen id (hid.imp_left (keys_settleTask ha).1)
  indegree {id b} hb := by
    change b.indegree = k.openDependencies b.task + _
    rcases (get?_settleTask ha).1 hb with ⟨rfl, rfl⟩ | ⟨hne, hb⟩
    · have hcount := h.indegree ha
      rw [List.count_cons_self] at hcount
      change a.indegree - 1 = k.openDependencies a.task + _
      omega
    · rw [h.indegree hb, List.count_cons_of_ne (Ne.symm hne)]
  ready {id b} hb := by
    change k.dependenciesEnd b.task = _
    rcases (get?_settleTask ha).1 hb with ⟨rfl, rfl⟩ | ⟨hne, hb⟩
    · have hend := h.ready ha
      rw [if_pos List.mem_cons_self] at hend
      change k.dependenciesEnd a.task = if id ∈ remaining then max (if a.dependencyReadyNs < endNs then endNs else a.dependencyReadyNs) endNs
        else if a.dependencyReadyNs < endNs then endNs else a.dependencyReadyNs
      rw [← max_def_lt, max_assoc, max_self, ite_self, hend]
    · rw [h.ready hb]
      simp only [List.mem_cons, hne, false_or]
  dependents d hd {id b} hb := by
    rcases (get?_settleTask ha).1 hb with ⟨rfl, rfl⟩ | ⟨-, hb⟩
    · exact h.dependents d hd (a := a) ha
    · exact h.dependents d hd hb
  listed d hd id hid := (keys_settleTask ha).2 (h.listed d hd id hid)
  waiting {id b} hb d hd hopen := by
    rcases (get?_settleTask ha).1 hb with ⟨rfl, rfl⟩ | ⟨-, hb⟩
    · exact (keys_settleTask ha).2 (h.waiting ha d hd hopen)
    · exact (keys_settleTask ha).2 (h.waiting hb d hd hopen)
  remaining id hid := (keys_settleTask ha).2 (h.remaining id (List.mem_cons_of_mem _ hid))

/-- A task that is to be settled does not wait in a queue. -/
theorem Linked.not_ready (h : k.Linked endNs (dependent :: remaining)) (ha : k.tasks.get? dependent = some a) (hb : k.Ready b) :
    b.task.taskId ≠ dependent := by
  intro hid
  obtain rfl := active_unique ha hb hid
  have hcount := h.indegree ha
  rw [hb.2, List.count_cons_self] at hcount
  omega

theorem ready_settleTask (ha : k.tasks.get? dependent = some a) (hne : b.task.taskId ≠ dependent) :
    (k.settleTask dependent a endNs).Ready b ↔ k.Ready b := by
  rw [Ready, Ready, get?_settleTask ha]
  exact and_congr_left fun _ => ⟨fun h => (h.resolve_left fun hc => hne hc.1).2, fun h => .inr ⟨hne, h⟩⟩

theorem Queued.settle (hq : k.Queued []) (h : k.Linked endNs (dependent :: remaining)) (ha : k.tasks.get? dependent = some a) :
    (k.settleTask dependent a endNs).Queued [dependent] where
  heap := hq.heap
  nodup := hq.nodup
  mem g key := by
    refine (hq.mem g key).trans (exists_congr fun b => ?_)
    rw [List.mem_singleton]
    constructor
    · rintro ⟨hready, -, hrest⟩
      have hne := h.not_ready ha hready
      exact ⟨(ready_settleTask ha hne).2 hready, hne, hrest⟩
    · rintro ⟨hready, hne, hrest⟩
      exact ⟨(ready_settleTask ha hne).1 hready, List.not_mem_nil, hrest⟩

theorem Announced.settle (hann : k.Announced pending) (hq : k.Queued []) (h : k.Linked endNs (dependent :: remaining))
    (ha : k.tasks.get? dependent = some a) : (k.settleTask dependent a endNs).Announced pending where
  heap := hann.heap
  entry g hg b hb hhead := by
    obtain ⟨c, hc, -, hkey⟩ := hq.head hhead
    have hid : c.task.taskId = b.task.taskId := congrArg keyTaskId hkey
    have hne : b.task.taskId ≠ dependent := hid ▸ h.not_ready ha hc
    exact hann.entry g hg b ((ready_settleTask ha hne).1 hb) hhead

/-- **The loop over the dependents settles them all, and queues those that are
ready then.** -/
theorem settleDependents_ok : ∀ {r : List String} {groups : List ResourceGroup} {k : UnifiedEventKernel}, k.Active →
    k.Linked endNs r → k.Queued [] → k.Announced groups → ∃ groups' tasks queues,
      settleDependents endNs r groups k = .ok groups' (k.withTasks tasks queues) ∧
      (k.withTasks tasks queues).Active ∧ (k.withTasks tasks queues).Linked endNs [] ∧ (k.withTasks tasks queues).Queued [] ∧
      (k.withTasks tasks queues).Announced groups' ∧
      ∀ id, (tasks.get? id).map ActiveTask.task = (k.tasks.get? id).map ActiveTask.task
  | [], groups, k, hactive, h, hq, hann => ⟨groups, k.tasks, k.readyByGroup, rfl, hactive, h, hq, hann, fun _ => rfl⟩
  | dependent :: rest, groups, k, hactive, h, hq, hann => by
    obtain ⟨a, ha⟩ := Dict.mem_keys.1 (h.remaining dependent List.mem_cons_self)
    have hread : k.activeTask dependent = .ok a := by rw [activeTask, ha]; rfl
    have hself : (k.settleTask dependent a endNs).tasks.get? dependent = some (settled a endNs) :=
      (get?_settleTask ha).2 (.inl ⟨rfl, rfl⟩)
    have hkept : ∀ id, ((k.settleTask dependent a endNs).tasks.get? id).map ActiveTask.task = (k.tasks.get? id).map ActiveTask.task := by
      intro id
      by_cases hid : id = dependent
      · rw [hid, hself, ha]
        rfl
      · rw [settleTask, withTasks, Dict.get?_insert_of_ne _ _ hid]
    have hactive' : (k.settleTask dependent a endNs).Active := hactive.settle ha
    have hlinked' := h.settle ha
    have hq' := hq.settle h ha
    have hann' := hann.settle hq h ha
    rw [settleDependents, get_then, ok_bind (raise_ok hread), set_then]
    by_cases hzero : (settled a endNs).indegree = 0
    · obtain ⟨changed, hok, hqueued, hannounced⟩ := addReadyTask_ok hactive' hq' hann' hself hzero List.not_mem_nil
      rw [if_pos hzero]
      obtain ⟨groups', tasks, queues, hok', hlast⟩ := settleDependents_ok (r := rest)
        (k := (k.settleTask dependent a endNs).withTasks (k.settleTask dependent a endNs).tasks
          ((k.settleTask dependent a endNs).queuedWith (settled a endNs)))
        ⟨hactive'.id, hactive'.ordinary, hactive'.coalesced⟩
        ⟨hlinked'.uncompleted, hlinked'.seen, hlinked'.indegree, hlinked'.ready, hlinked'.dependents, hlinked'.listed,
          hlinked'.waiting, hlinked'.remaining⟩ hqueued hannounced
      exact ⟨groups', tasks, queues, (ok_bind hok).trans hok', hlast.1, hlast.2.1, hlast.2.2.1, hlast.2.2.2.1, fun id => (hlast.2.2.2.2 id).trans (hkept id)⟩
    · rw [if_neg hzero]
      obtain ⟨groups', tasks, queues, hok', hlast⟩ := settleDependents_ok hactive' hlinked' (hq'.skip hself hzero) hann'
      exact ⟨groups', tasks, queues, hok', hlast.1, hlast.2.1, hlast.2.2.1, hlast.2.2.2.1, fun id => (hlast.2.2.2.2 id).trans (hkept id)⟩

end HeteroSim.Kernel.UnifiedEventKernel
