/-
Submissions that raise. The checks of a chunk come before the first change,
but the keys under which its tasks are announced come after it, and a key
asks the task which of its demands it waits for. So the chunk is taken though
the submission raises where a task that comes first in its queue has memory
accesses that give no answer.
-/
import HeteroSim.Kernel.ListScheduler

namespace HeteroSim.Kernel.UnifiedEventKernel

variable {devices : Devices} {k k' : UnifiedEventKernel} {chunk : List ScheduledTask} {retained : List String} {g : ResourceGroup}
  {key : StaticReadyKey} {t : ScheduledTask}

/-! ## Queues are heaps -/

/-- Each queue is a heap. -/
def Ordered (k : UnifiedEventKernel) : Prop := ∀ g, IsHeap (k.readyByGroup g)

theorem keeps_refreshGroup (g : ResourceGroup) : Keeps Ordered (refreshGroup g) := by
  refine (Keeps.modify ?_).bind fun _ => Keeps.get_bind fun s hs => ?_
  · exact fun _ hs => hs
  cases s.readyByGroup g with
  | nil => exact hs
  | cons first rest =>
    rw [wp_bind, wp_raise]
    exact ⟨fun _ _ => hs, fun _ _ => hs⟩

theorem keeps_addReadyTask (id : String) : Keeps Ordered (addReadyTask id) := by
  refine Keeps.get_bind fun s hs => ?_
  rw [wp_bind, wp_raise]
  refine ⟨fun a _ g => ?_, fun _ _ => hs⟩
  change IsHeap (Function.update s.readyByGroup a.task.group (heappush (s.readyByGroup a.task.group) (staticReadyKey a)) g)
  by_cases hg : g = a.task.group
  · subst hg
    rw [Function.update_self]
    exact (hs _).push _
  · rw [Function.update_of_ne hg]
    exact hs g

theorem keeps_popReadyEntry : ∀ turns, Keeps Ordered (popReadyEntry turns)
  | 0 => Keeps.throw _
  | turns + 1 => Keeps.get_bind fun s hs => by
    cases s.readyHeap with
    | nil => exact hs
    | cons queued heap =>
      dsimp only
      rw [wp_bind, wp_set]
      split
      · exact keeps_popReadyEntry turns _ hs
      · cases s.readyByGroup (ofLex (ofLex queued).2).1 with
        | nil => exact keeps_popReadyEntry turns _ hs
        | cons first rest =>
          dsimp only
          rw [wp_bind, wp_raise]
          refine ⟨fun current _ => ?_, fun _ _ => hs⟩
          split
          · exact ((keeps_refreshGroup _).bind fun _ => keeps_popReadyEntry turns) _ hs
          · exact hs

theorem keeps_queueReady : ∀ (l : List ScheduledTask) (groups : List ResourceGroup), Keeps Ordered (queueReady l groups)
  | [], _ => Keeps.pure _
  | task :: rest, groups => Keeps.get_bind fun s hs => by
    rw [wp_bind, wp_raise]
    refine ⟨fun a _ => ?_, fun _ _ => hs⟩
    split
    · exact ((keeps_addReadyTask _).bind fun _ => keeps_queueReady rest _) _ hs
    · exact keeps_queueReady rest _ _ hs

theorem keeps_settleDependents (endNs : ℚ) : ∀ (l : List String) (groups : List ResourceGroup), Keeps Ordered (settleDependents endNs l groups)
  | [], _ => Keeps.pure _
  | dependent :: rest, groups => Keeps.get_bind fun s hs => by
    rw [wp_bind, wp_raise]
    refine ⟨fun a _ => ?_, fun _ _ => hs⟩
    rw [wp_bind, wp_set]
    split
    · exact ((keeps_addReadyTask _).bind fun _ => keeps_settleDependents endNs rest _) _ hs
    · exact keeps_settleDependents endNs rest _ _ hs

theorem keeps_submit (chunk : List ScheduledTask) (retained : List String) : Keeps Ordered (submit chunk retained) := by
  refine Keeps.get_bind fun s hs => ?_
  refine ((Keeps.raise _).bind fun _ => (Keeps.modify ?_).bind fun _ => (keeps_queueReady chunk []).bind fun groups =>
    (Keeps.forM fun g _ => keeps_refreshGroup g).bind fun _ => Keeps.get.bind fun _ => Keeps.pure _) s hs
  exact fun _ hs => hs

theorem keeps_step (devices : Devices) : Keeps Ordered (step devices) := by
  refine Keeps.get_bind fun s hs => ?_
  refine ((keeps_popReadyEntry _).bind fun queued => ?_) s hs
  cases queued with
  | none => exact Keeps.pure _
  | some entry =>
    refine Keeps.get_bind fun s hs => ?_
    rw [wp_bind, wp_raise]
    refine ⟨fun a _ => ?_, fun _ _ => hs⟩
    cases executeTask devices s.calendar a.task (ofLex (ofLex entry).1).1 (ofLex (ofLex (ofLex entry).1).2).1 with
    | error e => exact hs
    | ok done =>
      refine ((Keeps.modify fun s hs g => ?_).bind fun _ => (keeps_settleDependents _ _ _).bind fun groups =>
        (Keeps.forM fun g _ => keeps_refreshGroup g).bind fun _ => Keeps.pure _) s hs
      change IsHeap (Function.update s.readyByGroup _ (s.readyByGroup _).tail g)
      by_cases hg : g = (ofLex (ofLex entry).2).1
      · rw [hg, Function.update_self]
        exact (hs _).tail
      · rw [Function.update_of_ne hg]
        exact hs g

/-- The kernels that come of a new one by calls that return or raise; what
becomes of the indexes of physical allocations between them is left open. -/
inductive Live (devices : Devices) : UnifiedEventKernel → Prop
  | create {capacities owners k} : create capacities owners = .ok k → Live devices k
  | index {k : UnifiedEventKernel} (allocations : PhysicalAllocations) : Live devices k →
    Live devices { k with physicalAllocations := allocations }
  | submit {k : UnifiedEventKernel} (chunk : List ScheduledTask) (retained : List String) : Live devices k → Live devices (after (submit chunk retained) k)
  | step {k : UnifiedEventKernel} : Live devices k → Live devices (after (step devices) k)

theorem Live.ordered (h : Live devices k) : k.Ordered := by
  induction h with
  | create hk =>
    simp only [UnifiedEventKernel.create, bind_ok, refuse_ok] at hk
    obtain ⟨_, -, _, -, _, -, _, -, hk⟩ := hk
    rw [← Except.ok.inj hk]
    exact fun _ => IsHeap.nil
  | index _ _ ih => exact ih
  | submit chunk retained _ ih => exact (keeps_submit chunk retained).after ih
  | step _ ih => exact (keeps_step devices).after ih

/-! ## What a chunk puts into the queues -/

/-- The keys that the tasks of a chunk that are ready put into a queue. -/
def arriving (staged : ScheduledTask → ActiveTask) (l : List ScheduledTask) (g : ResourceGroup) : List StaticReadyKey :=
  (l.filter fun t => (staged t).indegree = 0 ∧ t.group = g).map fun t => staticReadyKey (staged t)

variable {staged : ScheduledTask → ActiveTask}

theorem mem_arriving {l : List ScheduledTask} :
    key ∈ arriving staged l g ↔ ∃ t ∈ l, ((staged t).indegree = 0 ∧ t.group = g) ∧ staticReadyKey (staged t) = key := by
  simp only [arriving, List.mem_map, List.mem_filter, decide_eq_true_eq, and_assoc]

/-- The queues with all that arrives. -/
def queuesWith (staged : ScheduledTask → ActiveTask) (l : List ScheduledTask) (k : UnifiedEventKernel) (g : ResourceGroup) :
    List StaticReadyKey := (arriving staged l g).foldl heappush (k.readyByGroup g)

/-- One that arrives comes before all that is in its queue. -/
def Leads (staged : ScheduledTask → ActiveTask) (l : List ScheduledTask) (k : UnifiedEventKernel) (g : ResourceGroup) : Prop :=
  ∃ key ∈ arriving staged l g, ∀ queued ∈ k.readyByGroup g, key < queued

/-- A task of the chunk that is ready and comes before all others in its
queue. -/
structure Foremost (k : UnifiedEventKernel) (chunk : List ScheduledTask) (t : ScheduledTask) : Prop where
  mem : t ∈ chunk
  ready : ∀ d ∈ t.dependencies, k.completedEnd d ≠ none
  queued : ∀ key ∈ k.readyByGroup t.group, staticReadyKey (k.stagedTask t) < key
  least : ∀ t' ∈ chunk, t'.group = t.group → (∀ d ∈ t'.dependencies, k.completedEnd d ≠ none) →
    staticReadyKey (k.stagedTask t) ≤ staticReadyKey (k.stagedTask t')

theorem stagedTask_ready : (k.stagedTask t).indegree = 0 ↔ ∀ d ∈ t.dependencies, k.completedEnd d ≠ none := by
  change ((t.dependencies.countP fun d => k.completedEnd d = none : ℕ) : ℤ) = 0 ↔ _
  rw [Nat.cast_eq_zero, List.countP_eq_zero]
  exact forall₂_congr fun d _ => by rw [decide_eq_true_eq]

/-- A task that comes first in its queue is foremost in the chunk, and the
queues it leads have it first. -/
theorem Foremost.leads (h : k.Foremost chunk t) : Leads k.stagedTask chunk k t.group :=
  ⟨_, mem_arriving.2 ⟨t, h.mem, ⟨stagedTask_ready.2 h.ready, rfl⟩, rfl⟩, h.queued⟩

theorem Foremost.head? (h : k.Foremost chunk t) (hord : k.Ordered) :
    (queuesWith k.stagedTask chunk k t.group).head? = some (staticReadyKey (k.stagedTask t)) := by
  rw [queuesWith, ((hord _).pushAll _).head?_iff]
  have hmem : ∀ key, key ∈ (arriving k.stagedTask chunk t.group).foldl heappush (k.readyByGroup t.group) ↔
      key ∈ arriving k.stagedTask chunk t.group ∨ key ∈ k.readyByGroup t.group := fun key => by
    rw [(foldl_heappush_perm _ _).mem_iff, List.mem_append]
  refine ⟨(hmem _).2 (.inl (mem_arriving.2 ⟨t, h.mem, ⟨stagedTask_ready.2 h.ready, rfl⟩, rfl⟩)), fun key hkey => ?_⟩
  rcases (hmem key).1 hkey with hkey | hkey
  · obtain ⟨t', ht', ⟨hready, hgroup⟩, rfl⟩ := mem_arriving.1 hkey
    exact h.least t' ht' hgroup (stagedTask_ready.1 hready)
  · exact (h.queued key hkey).le

end HeteroSim.Kernel.UnifiedEventKernel
