/-
What a submission does to a kernel: the tasks of the chunk are active, wait
for those that are open, and the ready ones are queued. Everything that is
checked is checked before the first change, so a chunk of ordinary tasks is
taken as a whole or not at all.
-/
import HeteroSim.Kernel.Steps

namespace HeteroSim.Kernel.UnifiedEventKernel

open ListScheduling

variable {k : UnifiedEventKernel} {chunk : List ScheduledTask} {retained : List String} {id : String} {b : ActiveTask}

/-! ## What is accepted -/

/-- The ids of a chunk. -/
abbrev idsOf (chunk : List ScheduledTask) : List String := chunk.map (·.taskId)

/-- What the checks of a chunk make sure of. -/
structure Accepted (k : UnifiedEventKernel) (chunk : List ScheduledTask) : Prop where
  coalesced : ∀ t ∈ chunk, k.calendar.Coalesced t
  nodup : (idsOf chunk).Nodup
  fresh : ∀ id ∈ idsOf chunk, ¬HasSeenTaskId k.seen id
  available : ∀ t ∈ chunk, ∀ d ∈ t.dependencies, d ∈ idsOf chunk ∨ d ∈ k.tasks.keys ∨ k.completedEnd d ≠ none
  visited : Kahn.visitedCount (localDependencies chunk) (idsOf chunk) = some chunk.length

theorem accepted_of_check (h : k.checkChunk chunk retained = .ok ()) : k.Accepted chunk := by
  simp only [checkChunk, bind_ok, refuse_ok, forM_ok] at h
  obtain ⟨_, hchecked, _, hnodup, _, hseen, _, -, _, -, _, -, _, havailable, hvisited⟩ := h
  refine ⟨fun t ht => ?_, not_not.1 hnodup, fun id hid hhas => hseen ⟨id, hid, hhas⟩, fun t ht d hd => ?_, not_not.1 hvisited⟩
  · have hcheck := hchecked t ht
    simp only [checkTask, bind_ok, refuse_ok] at hcheck
    obtain ⟨_, -, _, -, _, -, _, howners, -⟩ := hcheck
    exact Calendar.validateOwnerDemands_ok.1 howners
  · by_contra hnone
    rw [not_or, not_or, not_not] at hnone
    exact havailable ⟨t, ht, d, hd, hnone⟩

/-! ## What is committed -/

theorem get?_insertTasks (f : ScheduledTask → ActiveTask) : ∀ {chunk : List ScheduledTask} {d : Dict String ActiveTask},
    (idsOf chunk).Nodup → ((chunk.foldl (fun tasks t => tasks.insert t.taskId (f t)) d).get? id = some b ↔
      (∃ t ∈ chunk, t.taskId = id ∧ f t = b) ∨ id ∉ idsOf chunk ∧ d.get? id = some b)
  | [], d, _ => by simp
  | t :: chunk, d, hn => by
    obtain ⟨hout, hn⟩ := List.nodup_cons.1 hn
    rw [List.foldl_cons, get?_insertTasks f hn, Dict.get?_insert]
    by_cases hid : id = t.taskId
    · subst hid
      have hnone : ¬∃ t' ∈ chunk, t'.taskId = t.taskId ∧ f t' = b := by
        rintro ⟨t', ht', hsame, -⟩
        exact hout (List.mem_map.2 ⟨t', ht', hsame⟩)
      simp [hout, hnone]
    · simp [hid, Ne.symm hid]

/-- The state after the assignments. -/
abbrev committed (k : UnifiedEventKernel) (chunk : List ScheduledTask) (retained : List String) : UnifiedEventKernel :=
  commitChunk chunk retained k

variable (hacc : k.Accepted chunk) (h : k.Sound)

include hacc

theorem get?_committed : (k.committed chunk retained).tasks.get? id = some b ↔
    (∃ t ∈ chunk, t.taskId = id ∧ k.stagedTask t = b) ∨ id ∉ idsOf chunk ∧ k.tasks.get? id = some b :=
  get?_insertTasks k.stagedTask hacc.nodup

theorem keys_committed : id ∈ (k.committed chunk retained).tasks.keys ↔ id ∈ idsOf chunk ∨ id ∈ k.tasks.keys := by
  rw [Dict.mem_keys]
  simp only [get?_committed hacc, List.mem_map, Dict.mem_keys]
  constructor
  · rintro ⟨b, ⟨t, ht, hid, -⟩ | ⟨-, hb⟩⟩
    · exact .inl ⟨t, ht, hid⟩
    · exact .inr ⟨b, hb⟩
  · rintro (⟨t, ht, hid⟩ | ⟨b, hb⟩)
    · exact ⟨_, .inl ⟨t, ht, hid, rfl⟩⟩
    · by_cases hid : ∃ t ∈ chunk, t.taskId = id
      · obtain ⟨t, ht, hid⟩ := hid
        exact ⟨_, .inl ⟨t, ht, hid, rfl⟩⟩
      · exact ⟨b, .inr ⟨hid, hb⟩⟩

include h

/-- An active task is not in the chunk. -/
theorem not_mem_chunk (hb : k.tasks.get? id = some b) : id ∉ idsOf chunk :=
  fun hid => hacc.fresh id hid (h.linked.seen id (.inl (Dict.mem_keys_of_get? hb)))

theorem get?_committed_iff : (k.committed chunk retained).tasks.get? id = some b ↔
    (∃ t ∈ chunk, t.taskId = id ∧ k.stagedTask t = b) ∨ k.tasks.get? id = some b := by
  rw [get?_committed hacc]
  exact or_congr_right (and_iff_right_of_imp (not_mem_chunk hacc h))

theorem active_committed (hord : ∀ t ∈ chunk, t.Ordinary) : (k.committed chunk retained).Active where
  id hb := by
    rcases (get?_committed_iff hacc h).1 hb with ⟨t, -, hid, rfl⟩ | hb
    · exact hid
    · exact h.active.id hb
  ordinary hb := by
    rcases (get?_committed_iff hacc h).1 hb with ⟨t, ht, -, rfl⟩ | hb
    · exact hord t ht
    · exact h.active.ordinary hb
  coalesced hb := by
    rcases (get?_committed_iff hacc h).1 hb with ⟨t, ht, -, rfl⟩ | hb
    · exact hacc.coalesced t ht
    · exact h.active.coalesced hb

omit h in
theorem find?_chunk {t : ScheduledTask} (ht : t ∈ chunk) : chunk.find? (fun t' => t'.taskId = t.taskId) = some t := by
  have hn := hacc.nodup
  clear hacc
  induction chunk with
  | nil => cases ht
  | cons t' chunk ih =>
    obtain ⟨hout, hn⟩ := List.nodup_cons.1 hn
    rcases List.mem_cons.1 ht with rfl | ht
    · simp only [List.find?_cons, decide_true]
    · have hne : t'.taskId ≠ t.taskId := fun he => hout (List.mem_map.2 ⟨t, ht, he.symm⟩)
      simp only [List.find?_cons, decide_eq_false hne]
      exact ih ht hn

/-- The dependencies of a task of the chunk. -/
def dependenciesIn (chunk : List ScheduledTask) (id : String) : List String :=
  ((chunk.find? fun t => t.taskId = id).map fun t => t.dependencies).getD []

omit h in
theorem dependenciesIn_eq {t : ScheduledTask} (ht : t ∈ chunk) : dependenciesIn chunk t.taskId = t.dependencies := by
  rw [dependenciesIn, find?_chunk hacc ht]
  rfl

omit h in
/-- Those in the chunk that wait for an open task, each as often as it names
it. -/
theorem stagedDependents_eq {d : String} (hd : k.completedEnd d = none) :
    k.stagedDependents chunk d = Kahn.dependents (dependenciesIn chunk) (idsOf chunk) d := by
  rw [stagedDependents, if_pos hd, Kahn.dependents, List.flatMap_map]
  refine List.flatMap_congr fun t ht => ?_
  rw [dependenciesIn_eq hacc ht]

omit h in
theorem count_stagedDependents {d : String} (hd : k.completedEnd d = none) {t : ScheduledTask} (ht : t ∈ chunk) :
    (k.stagedDependents chunk d).count t.taskId = t.dependencies.count d := by
  rw [stagedDependents_eq hacc hd, Kahn.count_dependents hacc.nodup (List.mem_map_of_mem ht), dependenciesIn_eq hacc ht]

omit h in
theorem mem_stagedDependents {d : String} (hd : k.completedEnd d = none) (hid : id ∈ k.stagedDependents chunk d) : id ∈ idsOf chunk := by
  rw [stagedDependents_eq hacc hd] at hid
  exact (Kahn.mem_dependents.1 hid).1

omit h in
omit hacc in
/-- The dependents of a task are those there were and those in the chunk. -/
theorem dependents_committed (d : String) :
    ((k.committed chunk retained).dependents d).Perm (k.dependents d ++ k.stagedDependents chunk d) := by
  change (if k.stagedDependents chunk d = [] then _ else _ : List String).Perm _
  split
  · next hnil => rw [hnil, List.append_nil]
  · exact List.perm_insertionSort _ _

omit h in
omit hacc in
theorem foldl_max_eq_latest (times : List ℚ) : ∀ x, 0 ≤ x → times.foldl max x = max x (latest times) := by
  induction times with
  | nil => exact fun x hx => (max_eq_left hx).symm
  | cons y times ih =>
    intro x hx
    rw [List.foldl_cons, ih _ (hx.trans (le_max_left _ _)), latest_cons, max_assoc]

/-- **The tasks of the chunk are linked with those they wait for.** -/
theorem linked_committed : (k.committed chunk retained).Linked 0 [] := by
  have hopen : ∀ id ∈ idsOf chunk, k.completedEnd id = none := fun id hid => by
    by_contra hcompleted
    exact hacc.fresh id hid (h.linked.seen id (.inr hcompleted))
  have hnew : ∀ {d}, k.completedEnd d = none → ∀ id ∈ idsOf chunk, id ∉ k.dependents d := fun hd id hid hmem =>
    hacc.fresh id hid (h.linked.seen id (.inl (h.linked.listed _ hd id hmem)))
  constructor
  · intro id b hb
    rcases (get?_committed_iff hacc h).1 hb with ⟨t, ht, rfl, -⟩ | hb
    · exact hopen _ (List.mem_map_of_mem ht)
    · exact h.linked.uncompleted hb
  · intro id hid
    have hcases : id ∈ idsOf chunk ∨ id ∈ k.tasks.keys ∨ k.completedEnd id ≠ none := by
      rcases hid with hid | hid
      · exact ((keys_committed hacc).1 hid).imp_right .inl
      · exact .inr (.inr hid)
    rcases hcases with hid | hid
    · exact .inl (Finset.mem_union_right _ (List.mem_toFinset.2 hid))
    · rcases h.linked.seen id hid with hseen | hcompact
      · exact .inl (Finset.mem_union_left _ hseen)
      · exact .inr hcompact
  · intro id b hb
    rw [List.count_nil]
    rcases (get?_committed_iff hacc h).1 hb with ⟨t, ht, -, rfl⟩ | hb
    · exact (add_zero _).symm
    · exact h.linked.indegree hb
  · intro id b hb
    rw [if_neg List.not_mem_nil]
    rcases (get?_committed_iff hacc h).1 hb with ⟨t, ht, -, rfl⟩ | hb
    · change latest _ = (t.dependencies.filterMap k.completedEnd).foldl max 0
      rw [foldl_max_eq_latest _ 0 le_rfl, max_eq_right (latest_nonneg _)]
      rfl
    · exact (h.linked.ready hb).trans (if_neg List.not_mem_nil)
  · intro d hd id b hb
    rw [(dependents_committed d).count_eq, List.count_append]
    rcases (get?_committed_iff hacc h).1 hb with ⟨t, ht, rfl, rfl⟩ | hb
    · rw [List.count_eq_zero_of_not_mem (hnew hd _ (List.mem_map_of_mem ht)), count_stagedDependents hacc hd ht, Nat.zero_add]
      rfl
    · have hout : id ∉ k.stagedDependents chunk d := fun hid => not_mem_chunk hacc h hb (mem_stagedDependents hacc hd hid)
      rw [List.count_eq_zero_of_not_mem hout, Nat.add_zero]
      exact h.linked.dependents d hd hb
  · intro d hd id hid
    rw [keys_committed hacc]
    rcases List.mem_append.1 ((dependents_committed d).mem_iff.1 hid) with hid | hid
    · exact .inr (h.linked.listed d hd id hid)
    · exact .inl (mem_stagedDependents hacc hd hid)
  · intro id b hb d hd hcompleted
    rw [keys_committed hacc]
    rcases (get?_committed_iff hacc h).1 hb with ⟨t, ht, -, rfl⟩ | hb
    · exact (hacc.available t ht d hd).imp_right fun hx => hx.resolve_right (not_not.2 hcompleted)
    · exact .inr (h.linked.waiting hb d hd hcompleted)
  · intro id hid
    cases hid

omit h in
/-- Outside the chunk the same tasks are ready. -/
theorem ready_committed (hb : b.task.taskId ∉ idsOf chunk) : (k.committed chunk retained).Ready b ↔ k.Ready b := by
  rw [Ready, Ready, get?_committed hacc]
  refine and_congr_left fun _ => ⟨fun hx => ?_, fun hx => .inr ⟨hb, hx⟩⟩
  rcases hx with ⟨t, ht, hid, -⟩ | hx
  · exact absurd (List.mem_map.2 ⟨t, ht, hid⟩) hb
  · exact hx.2

theorem queued_committed : (k.committed chunk retained).Queued (idsOf chunk) where
  heap := h.queued.heap
  nodup := h.queued.nodup
  mem g key := by
    refine (h.queued.mem g key).trans (exists_congr fun b => ?_)
    constructor
    · rintro ⟨hready, -, hrest⟩
      have hout := not_mem_chunk hacc h hready.1
      exact ⟨(ready_committed hacc hout).2 hready, hout, hrest⟩
    · rintro ⟨hready, hout, hrest⟩
      exact ⟨(ready_committed hacc hout).1 hready, List.not_mem_nil, hrest⟩

theorem announced_committed : (k.committed chunk retained).Announced [] where
  heap := h.announced.heap
  entry g hg b hb hhead := by
    obtain ⟨c, hc, -, hkey⟩ := h.queued.head hhead
    have hid : c.task.taskId = b.task.taskId := congrArg keyTaskId hkey
    have hout : b.task.taskId ∉ idsOf chunk := hid ▸ not_mem_chunk hacc h hc.1
    exact h.announced.entry g hg b ((ready_committed hacc hout).1 hb) hhead

/-! ## Submissions -/

omit h in
omit hacc in
/-- The chunk is active, and nothing else has changed. -/
structure Submitted (k : UnifiedEventKernel) (chunk : List ScheduledTask) (k' : UnifiedEventKernel) : Prop where
  accepted : k.Accepted chunk
  tasks : ∀ id, (k'.tasks.get? id).map ActiveTask.task = (chunk.find? fun t => t.taskId = id).or ((k.tasks.get? id).map ActiveTask.task)
  calendar : k'.calendar = k.calendar
  completedEnd : k'.completedEnd = k.completedEnd
  makespanNs : k'.makespanNs = k.makespanNs
  events : k'.events = k.events

theorem tasks_committed (retained : List String) : ((k.committed chunk retained).tasks.get? id).map ActiveTask.task =
    (chunk.find? fun t => t.taskId = id).or ((k.tasks.get? id).map ActiveTask.task) := by
  by_cases hid : ∃ t ∈ chunk, t.taskId = id
  · obtain ⟨t, ht, rfl⟩ := hid
    rw [(get?_committed hacc).2 (.inl ⟨t, ht, rfl, rfl⟩), find?_chunk hacc ht]
    rfl
  · have hnone : (chunk.find? fun t => t.taskId = id) = none := List.find?_eq_none.2 fun t ht hx => hid ⟨t, ht, of_decide_eq_true hx⟩
    rw [hnone, Option.none_or]
    refine congrArg (Option.map ActiveTask.task) (Option.ext fun b => ?_)
    rw [get?_committed_iff hacc h]
    exact or_iff_right fun ⟨t, ht, hx, _⟩ => hid ⟨t, ht, hx⟩

omit hacc in
/-- **A chunk of ordinary tasks that is accepted is submitted.** -/
theorem submit_ok (hord : ∀ t ∈ chunk, t.Ordinary) (hcheck : k.checkChunk chunk retained = .ok ()) :
    ∃ receipt k', submit chunk retained k = .ok receipt k' ∧ k'.Sound ∧ k.Submitted chunk k' := by
  have hacc := accepted_of_check hcheck
  have hactive : (k.committed chunk retained).Active := active_committed hacc h hord
  have hlinked : (k.committed chunk retained).Linked 0 [] := linked_committed hacc h
  obtain ⟨groups, queues, hqueue, hqueued, hannounced⟩ := queueReady_ok (k := k.committed chunk retained) hactive
    (queued_committed hacc h) (announced_committed hacc h) hacc.nodup
    fun t ht => ⟨_, (get?_committed hacc).2 (.inl ⟨t, ht, rfl, rfl⟩)⟩
  have hactive' : ((k.committed chunk retained).withTasks (k.committed chunk retained).tasks queues).Active :=
    ⟨hactive.id, hactive.ordinary, hactive.coalesced⟩
  obtain ⟨heap, versions, hrefresh, hlast⟩ := forM_refreshGroup_ok hactive' hqueued hannounced
    fun x hx => (List.mem_insertionSort (· ≤ ·)).2 hx
  refine ⟨⟨idsOf chunk, retained, (k.committed chunk retained).tasks.items.length⟩,
    ((k.committed chunk retained).withTasks (k.committed chunk retained).tasks queues).withHeap heap versions, ?_,
    ⟨h.calendar, hactive'.withHeap heap versions, ?_, hqueued.withHeap heap versions, hlast⟩,
    ⟨hacc, fun _ => tasks_committed hacc h retained, rfl, rfl, rfl, rfl⟩⟩
  · rw [submit, get_then, ok_bind (raise_ok hcheck), modify_then]
    exact (ok_bind hqueue).trans (ok_bind hrefresh)
  · exact ⟨hlinked.uncompleted, hlinked.seen, hlinked.indegree, hlinked.ready, hlinked.dependents, hlinked.listed, hlinked.waiting,
      hlinked.remaining⟩

omit hacc in
/-- A submission returns only when its chunk is accepted. -/
theorem submit_iff (hord : ∀ t ∈ chunk, t.Ordinary) :
    (∃ receipt k', submit chunk retained k = .ok receipt k') ↔ k.checkChunk chunk retained = .ok () := by
  refine ⟨fun hok => ?_, fun hcheck => ?_⟩
  · obtain ⟨receipt, k', hok⟩ := hok
    rw [submit, get_then] at hok
    cases hcheck : k.checkChunk chunk retained with
    | ok u => rfl
    | error e =>
      rw [error_bind (raise_error hcheck)] at hok
      cases hok
  · obtain ⟨receipt, k', hok, -⟩ := submit_ok h hord hcheck
    exact ⟨receipt, k', hok⟩

end HeteroSim.Kernel.UnifiedEventKernel
