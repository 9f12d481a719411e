/-
The queues of ready tasks. A group's queue holds its ready tasks in the order
of their static keys, which is the order of their ready keys as long as no
clock moves; the clocks only move on. So the entry of a group in the common
heap, whenever it was put there, is no later than the key of the group's first
task, and one that comes up with its own key is the least of all.
-/
import HeteroSim.Kernel.Scheduler

namespace HeteroSim.Kernel.UnifiedEventKernel

open ListScheduling

variable {k k' : UnifiedEventKernel} {a b : ActiveTask} {g : ResourceGroup} {key : StaticReadyKey}

/-! ## Keys -/

/-- `_ready_key` of an ordinary task. -/
def keyOf (c : Calendar) (a : ActiveTask) : InternalReadyKey :=
  toLex (max (ofLex (staticReadyKey a)).1 (c.demandsReadyNs a.task.demands), staticReadyKey a)

theorem effective_staticReadyKey : (ofLex (staticReadyKey a)).1 = max a.dependencyReadyNs a.task.earliestStartNs :=
  (max_def_lt _ _).symm

theorem readyKey_ordinary {id : String} (ha : k.tasks.get? id = some a) (ho : a.task.Ordinary) :
    k.readyKey id = .ok (keyOf k.calendar a) := by
  have hdemands : a.task.readyDemands = .ok a.task.demands := by
    rw [ScheduledTask.readyDemands, ho.physical]
    rfl
  rw [readyKey, activeTask, ha, keyOf, max_def_lt]
  change (a.task.readyDemands >>= _) = _
  rw [hdemands]
  rfl

theorem keyOf_le {c c' : Calendar} (hclocks : c.demandsReadyNs a.task.demands ≤ c'.demandsReadyNs b.task.demands)
    (hstatic : staticReadyKey a ≤ staticReadyKey b) : keyOf c a ≤ keyOf c' b := by
  have heff : (ofLex (staticReadyKey a)).1 ≤ (ofLex (staticReadyKey b)).1 := by
    rcases Prod.Lex.le_iff.1 hstatic with hlt | ⟨he, -⟩
    · exact hlt.le
    · exact he.le
  rcases (max_le_max heff hclocks).lt_or_eq with hlt | he
  · exact Prod.Lex.toLex_le_toLex.2 (.inl hlt)
  · exact Prod.Lex.toLex_le_toLex.2 (.inr ⟨he, hstatic⟩)

/-- In a group the first task has the least key. -/
theorem keyOf_le_of_group {c : Calendar} (hc : c.Sound) (hgroup : a.task.group = b.task.group)
    (hstatic : staticReadyKey a ≤ staticReadyKey b) : keyOf c a ≤ keyOf c b :=
  keyOf_le (hc.ready_congr hgroup).le hstatic

/-! ## What the queues hold -/

/-- The active tasks are ordinary, and known by their ids. -/
structure Active (k : UnifiedEventKernel) : Prop where
  id : ∀ {id a}, k.tasks.get? id = some a → a.task.taskId = id
  ordinary : ∀ {id a}, k.tasks.get? id = some a → a.task.Ordinary
  coalesced : ∀ {id a}, k.tasks.get? id = some a → k.calendar.Coalesced a.task

/-- An active task without open dependencies. -/
def Ready (k : UnifiedEventKernel) (a : ActiveTask) : Prop := k.tasks.get? a.task.taskId = some a ∧ a.indegree = 0

/-- The queues hold the ready tasks, but for those not queued yet. -/
structure Queued (k : UnifiedEventKernel) (unqueued : List String) : Prop where
  heap : ∀ g, IsHeap (k.readyByGroup g)
  nodup : ∀ g, (k.readyByGroup g).Nodup
  mem : ∀ g key, key ∈ k.readyByGroup g ↔
    ∃ a, k.Ready a ∧ a.task.taskId ∉ unqueued ∧ a.task.group = g ∧ staticReadyKey a = key

/-- A group's first task is announced in the common heap, under its key or an
earlier one; groups that are to be refreshed may not be. -/
structure Announced (k : UnifiedEventKernel) (pending : List ResourceGroup) : Prop where
  heap : IsHeap k.readyHeap
  entry : ∀ g, g ∉ pending → ∀ a, k.Ready a → (k.readyByGroup g).head? = some (staticReadyKey a) →
    ∃ key, toLex (key, toLex (g, k.groupVersions g)) ∈ k.readyHeap ∧ key ≤ keyOf k.calendar a

/-- The common heap and the versions are others. -/
def withHeap (k : UnifiedEventKernel) (heap : List GlobalReadyEntry) (versions : ResourceGroup → ℕ) : UnifiedEventKernel :=
  { k with readyHeap := heap, groupVersions := versions }

theorem Queued.head {unqueued : List String} (h : k.Queued unqueued) (hhead : (k.readyByGroup g).head? = some key) :
    ∃ a, k.Ready a ∧ a.task.group = g ∧ staticReadyKey a = key := by
  obtain ⟨a, hready, -, hgroup, hkey⟩ := (h.mem g key).1 (List.mem_of_mem_head? hhead)
  exact ⟨a, hready, hgroup, hkey⟩

theorem Queued.head_le {unqueued : List String} (h : k.Queued unqueued) (hhead : (k.readyByGroup g).head? = some key) {key' : StaticReadyKey}
    (hmem : key' ∈ k.readyByGroup g) : key ≤ key' := by
  have hheap := h.heap g
  cases hg : k.readyByGroup g with
  | nil =>
    rw [hg] at hmem
    cases hmem
  | cons first rest =>
    rw [hg] at hheap hhead hmem
    cases hhead
    exact hheap.head_le hmem

theorem Announced.mono {pending pending' : List ResourceGroup} (h : k.Announced pending) (hsub : pending ⊆ pending') :
    k.Announced pending' :=
  ⟨h.heap, fun g hg => h.entry g fun hp => hg (hsub hp)⟩

/-! ## Refreshing -/

theorem Active.readyKey (h : k.Active) (ha : k.Ready a) : k.readyKey a.task.taskId = .ok (keyOf k.calendar a) :=
  readyKey_ordinary ha.1 (h.ordinary ha.1)

/-- A group with a new version is announced by what is in the heap under it. -/
theorem Announced.bump {pending : List ResourceGroup} {heap : List GlobalReadyEntry} (h : k.Announced pending) (hheap : IsHeap heap)
    (hsub : k.readyHeap ⊆ heap) (hnew : ∀ a, k.Ready a → (k.readyByGroup g).head? = some (staticReadyKey a) →
      ∃ key, toLex (key, toLex (g, k.groupVersions g + 1)) ∈ heap ∧ key ≤ keyOf k.calendar a) :
    (k.withHeap heap (Function.update k.groupVersions g (k.groupVersions g + 1))).Announced (pending.filter (· ≠ g)) := by
  refine ⟨hheap, fun g' hg' a (ha : k.Ready a) hhead => ?_⟩
  change ∃ key, (toLex (key, toLex (g', Function.update k.groupVersions g (k.groupVersions g + 1) g')) : GlobalReadyEntry) ∈ heap ∧
    key ≤ keyOf k.calendar a
  by_cases he : g' = g
  · subst he
    rw [Function.update_self]
    exact hnew a ha hhead
  · rw [Function.update_of_ne he]
    obtain ⟨key, hkey, hle⟩ := h.entry g' (fun hp => hg' (List.mem_filter.2 ⟨hp, decide_eq_true he⟩)) a ha hhead
    exact ⟨key, hsub hkey, hle⟩

/-- What a refresh does to a group with a first task. -/
theorem refreshGroup_first (hactive : k.Active) (ha : k.Ready a) (hhead : (k.readyByGroup g).head? = some (staticReadyKey a)) :
    refreshGroup g k = .ok () (k.withHeap (heappush k.readyHeap (toLex (keyOf k.calendar a, toLex (g, k.groupVersions g + 1))))
      (Function.update k.groupVersions g (k.groupVersions g + 1))) := by
  obtain ⟨rest, hg⟩ := List.head?_eq_some_iff.1 hhead
  rw [refreshGroup, modify_then, get_then]
  simp only [hg]
  refine (ok_bind (raise_ok (hactive.readyKey ha))).trans ?_
  change EStateM.Result.ok _ _ = _
  rw [withHeap, Function.update_self]

theorem Announced.refreshed {pending : List ResourceGroup} (h : k.Announced pending) (ha : k.Ready a)
    (hhead : (k.readyByGroup g).head? = some (staticReadyKey a)) :
    (k.withHeap (heappush k.readyHeap (toLex (keyOf k.calendar a, toLex (g, k.groupVersions g + 1))))
      (Function.update k.groupVersions g (k.groupVersions g + 1))).Announced (pending.filter (· ≠ g)) := by
  refine h.bump (h.heap.push _) (fun _ hx => mem_heappush.2 (.inr hx)) fun b hb hother => ⟨_, mem_heappush.2 (.inl rfl), ?_⟩
  have hid : a.task.taskId = b.task.taskId := congrArg keyTaskId (Option.some.inj (hhead.symm.trans hother))
  have hab : some a = some b := by rw [← ha.1, ← hb.1, hid]
  rw [Option.some.inj hab]

/-- **A refreshed group is announced under the key of its first task.** -/
theorem refreshGroup_ok {unqueued : List String} {pending : List ResourceGroup} (hactive : k.Active) (hq : k.Queued unqueued)
    (h : k.Announced pending) (g : ResourceGroup) : ∃ heap versions, refreshGroup g k = .ok () (k.withHeap heap versions) ∧
      (k.withHeap heap versions).Announced (pending.filter (· ≠ g)) := by
  cases hhead : (k.readyByGroup g).head? with
  | none =>
    refine ⟨k.readyHeap, Function.update k.groupVersions g (k.groupVersions g + 1), ?_,
      h.bump h.heap (List.Subset.refl _) fun a _ ha => ?_⟩
    · rw [refreshGroup, modify_then, get_then]
      simp only [List.head?_eq_none_iff.1 hhead]
      rfl
    · rw [hhead] at ha
      cases ha
  | some first =>
    obtain ⟨a, ha, -, rfl⟩ := hq.head hhead
    exact ⟨_, _, refreshGroup_first hactive ha hhead, h.refreshed ha hhead⟩

/-- A loop of refreshes leaves no group to be refreshed. -/
theorem forM_refreshGroup_ok {unqueued : List String} : ∀ {groups pending : List ResourceGroup} {k : UnifiedEventKernel}, k.Active →
    k.Queued unqueued → k.Announced pending → pending ⊆ groups →
    ∃ heap versions, forM groups refreshGroup k = .ok () (k.withHeap heap versions) ∧ (k.withHeap heap versions).Announced []
  | [], pending, k, _, _, h, hsub => ⟨k.readyHeap, k.groupVersions, rfl, h.mono hsub⟩
  | g :: groups, pending, k, hactive, hq, h, hsub => by
    obtain ⟨heap, versions, hok, hnext⟩ := refreshGroup_ok hactive hq h g
    have hrest : pending.filter (· ≠ g) ⊆ groups := fun g' hg' => by
      obtain ⟨hmem, hne⟩ := List.mem_filter.1 hg'
      exact (List.mem_cons.1 (hsub hmem)).resolve_left (of_decide_eq_true hne)
    obtain ⟨heap', versions', hok', hlast⟩ := forM_refreshGroup_ok (k := k.withHeap heap versions) ⟨hactive.1, hactive.2, hactive.3⟩
      ⟨hq.1, hq.2, hq.3⟩ hnext hrest
    refine ⟨heap', versions', ?_, hlast⟩
    rw [List.forM_cons]
    exact (ok_bind hok).trans hok'

/-! ## The next task -/

/-- An entry that is not under the key of its group's first task. -/
def Outdated (k : UnifiedEventKernel) (e : GlobalReadyEntry) : Prop := ∀ a, k.Ready a →
  (k.readyByGroup (ofLex (ofLex e).2).1).head? = some (staticReadyKey a) → keyOf k.calendar a ≠ (ofLex e).1

open Classical in
/-- How many entries there are, those out of date twice. -/
noncomputable def load (k : UnifiedEventKernel) (heap : List GlobalReadyEntry) : ℕ :=
  heap.countP (fun e => decide (k.Outdated e)) + heap.length

theorem load_lt_popTurns (k : UnifiedEventKernel) : k.load k.readyHeap < k.popTurns := by
  classical
  have hle := List.countP_le_length (p := fun e => decide (k.Outdated e)) (l := k.readyHeap)
  rw [load, popTurns]
  omega

/-- Taking an entry out makes the load smaller, by two if it was out of date. -/
theorem load_cons (queued : GlobalReadyEntry) (heap : List GlobalReadyEntry) : k.load heap < k.load (queued :: heap) ∧
    (k.Outdated queued → k.load heap + 1 < k.load (queued :: heap)) := by
  classical
  rw [load, load, List.countP_cons, List.length_cons]
  refine ⟨by omega, fun hout => ?_⟩
  rw [if_pos (decide_eq_true hout)]
  omega

/-- An entry that is up to date adds one. -/
theorem load_push {e : GlobalReadyEntry} (he : ¬k.Outdated e) (heap : List GlobalReadyEntry) :
    k.load (heappush heap e) = k.load heap + 1 := by
  classical
  rw [load, load, (heappush_perm heap e).countP_eq, (heappush_perm heap e).length_eq, List.countP_cons, List.length_cons,
    if_neg (mt of_decide_eq_true he)]
  omega

/-- The task whose entry was taken: no ready task has a lesser key. -/
structure Popped (k : UnifiedEventKernel) (entry : GlobalReadyEntry) (a : ActiveTask) : Prop where
  ready : k.Ready a
  first : (k.readyByGroup a.task.group).head? = some (staticReadyKey a)
  key : (ofLex entry).1 = keyOf k.calendar a
  group : (ofLex (ofLex entry).2).1 = a.task.group
  least : ∀ b, k.Ready b → keyOf k.calendar a ≤ keyOf k.calendar b

/-- Every ready task has an entry before it. -/
theorem Announced.below {pending : List ResourceGroup} (h : k.Announced pending) (hc : k.calendar.Sound) (hq : k.Queued [])
    (hb : k.Ready b) (hg : b.task.group ∉ pending) :
    ∃ key, toLex (key, toLex (b.task.group, k.groupVersions b.task.group)) ∈ k.readyHeap ∧ key ≤ keyOf k.calendar b := by
  have hmem : staticReadyKey b ∈ k.readyByGroup b.task.group := (hq.mem _ _).2 ⟨b, hb, List.not_mem_nil, rfl, rfl⟩
  obtain ⟨first, hfirst⟩ := Option.isSome_iff_exists.1 (List.isSome_head?.2 (List.ne_nil_of_mem hmem))
  have hle := hq.head_le hfirst hmem
  obtain ⟨a, ha, hgroup, rfl⟩ := hq.head hfirst
  obtain ⟨key, hkey, hbefore⟩ := h.entry _ hg a ha hfirst
  exact ⟨key, hkey, hbefore.trans (keyOf_le_of_group hc hgroup hle)⟩

/-- An entry of another version, or of a group without tasks, is dropped. -/
theorem Announced.drop {queued : GlobalReadyEntry} {heap : List GlobalReadyEntry} (h : k.Announced []) (hk : k.readyHeap = queued :: heap)
    (hstale : ∀ g, (k.readyByGroup g).head? ≠ none → (ofLex queued).2 ≠ toLex (g, k.groupVersions g)) :
    (k.withHeap heap k.groupVersions).Announced [] := by
  have hheap : IsHeap (queued :: heap) := hk ▸ h.heap
  refine ⟨hheap.tail, fun g hg a (ha : k.Ready a) hhead => ?_⟩
  obtain ⟨key, hkey, hle⟩ := h.entry g hg a ha hhead
  rw [hk, List.mem_cons] at hkey
  refine ⟨key, hkey.resolve_left fun he => ?_, hle⟩
  have hsome : (k.readyByGroup g).head? ≠ none := by
    change (k.readyByGroup g).head? = _ at hhead
    rw [hhead]
    exact Option.some_ne_none _
  exact hstale g hsome (congrArg (fun e : GlobalReadyEntry => (ofLex e).2) he).symm

/-- The entry that is taken out was its group's only one. -/
theorem Announced.take {queued : GlobalReadyEntry} {heap : List GlobalReadyEntry} (h : k.Announced []) (hk : k.readyHeap = queued :: heap) :
    (k.withHeap heap k.groupVersions).Announced [(ofLex (ofLex queued).2).1] := by
  have hheap : IsHeap (queued :: heap) := hk ▸ h.heap
  refine ⟨hheap.tail, fun g hg a (ha : k.Ready a) hhead => ?_⟩
  obtain ⟨key, hkey, hle⟩ := h.entry g List.not_mem_nil a ha hhead
  rw [hk, List.mem_cons] at hkey
  refine ⟨key, hkey.resolve_left fun he => ?_, hle⟩
  rw [← he] at hg
  exact hg (List.mem_singleton_self g)

theorem Queued.withHeap {unqueued : List String} (h : k.Queued unqueued) (heap : List GlobalReadyEntry) (versions : ResourceGroup → ℕ) :
    (k.withHeap heap versions).Queued unqueued := ⟨h.heap, h.nodup, h.mem⟩

theorem Active.withHeap (h : k.Active) (heap : List GlobalReadyEntry) (versions : ResourceGroup → ℕ) :
    (k.withHeap heap versions).Active := ⟨h.id, h.ordinary, h.coalesced⟩

/-- What comes up: nothing when no task is ready, else the entry of one that
has the least key; only its group has to be announced again. -/
inductive Next (k : UnifiedEventKernel) : Option GlobalReadyEntry → UnifiedEventKernel → Prop
  | idle {heap versions} : (∀ b, ¬k.Ready b) → (k.withHeap heap versions).Announced [] → Next k none (k.withHeap heap versions)
  | task {heap versions entry a} : k.Popped entry a → (k.withHeap heap versions).Announced [a.task.group] →
    Next k (some entry) (k.withHeap heap versions)

/-- A group has one first task. -/
theorem first_unique (ha : k.Ready a) (hb : k.Ready b) (h : (k.readyByGroup g).head? = some (staticReadyKey a))
    (h' : (k.readyByGroup g).head? = some (staticReadyKey b)) : a = b := by
  have hid : a.task.taskId = b.task.taskId := congrArg keyTaskId (Option.some.inj (h.symm.trans h'))
  have hab : some a = some b := by rw [← ha.1, ← hb.1, hid]
  exact Option.some.inj hab

/-- An entry that comes up under the key of its group's first task is the
least of all keys. -/
theorem Announced.popped {queued : GlobalReadyEntry} {heap : List GlobalReadyEntry} {versions : ResourceGroup → ℕ}
    (h : (k.withHeap (queued :: heap) versions).Announced []) (hc : k.calendar.Sound) (hq : k.Queued []) (ha : k.Ready a)
    (hgroup : a.task.group = (ofLex (ofLex queued).2).1)
    (hhead : (k.readyByGroup (ofLex (ofLex queued).2).1).head? = some (staticReadyKey a))
    (hkey : keyOf k.calendar a = (ofLex queued).1) : k.Popped queued a where
  ready := ha
  first := by rw [hgroup]; exact hhead
  key := hkey.symm
  group := hgroup.symm
  least b hb := by
    obtain ⟨key, hmem, hle⟩ := h.below hc (hq.withHeap _ _) hb List.not_mem_nil
    have hheap : IsHeap (queued :: heap) := h.heap
    have hqueued : (ofLex queued).1 ≤ key := by
      rcases Prod.Lex.le_iff.1 (hheap.head_le hmem) with hlt | ⟨he, -⟩
      · exact hlt.le
      · exact he.le
    rw [hkey]
    exact hqueued.trans hle

section Pop

variable {turns : ℕ} {queued : GlobalReadyEntry} {heap : List GlobalReadyEntry} {versions : ResourceGroup → ℕ}
  {first : StaticReadyKey} {rest : List StaticReadyKey}

/-- An entry of another version is dropped. -/
theorem popReadyEntry_stale (hversion : (ofLex (ofLex queued).2).2 ≠ versions (ofLex (ofLex queued).2).1) :
    popReadyEntry (turns + 1) (k.withHeap (queued :: heap) versions) = popReadyEntry turns (k.withHeap heap versions) := by
  rw [popReadyEntry, get_then]
  dsimp only [withHeap]
  rw [set_then]
  exact congrFun (if_pos hversion) _

variable (hversion : ¬(ofLex (ofLex queued).2).2 ≠ versions (ofLex (ofLex queued).2).1)

include hversion

/-- So is one whose group has nothing left. -/
theorem popReadyEntry_empty (hgroup : k.readyByGroup (ofLex (ofLex queued).2).1 = []) :
    popReadyEntry (turns + 1) (k.withHeap (queued :: heap) versions) = popReadyEntry turns (k.withHeap heap versions) := by
  rw [popReadyEntry, get_then]
  dsimp only [withHeap]
  rw [set_then]
  refine (congrFun (if_neg hversion) _).trans ?_
  rw [hgroup]

theorem popReadyEntry_first (hgroup : k.readyByGroup (ofLex (ofLex queued).2).1 = first :: rest) :
    popReadyEntry (turns + 1) (k.withHeap (queued :: heap) versions) =
      (do
        let current ← raise (k.readyKey (keyTaskId first))
        if current ≠ (ofLex queued).1 then do
          refreshGroup (ofLex (ofLex queued).2).1
          popReadyEntry turns
        else pure (some queued) : EStateM KernelError UnifiedEventKernel (Option GlobalReadyEntry)) (k.withHeap heap versions) := by
  rw [popReadyEntry, get_then]
  dsimp only [withHeap]
  rw [set_then]
  refine (congrFun (if_neg hversion) _).trans ?_
  rw [hgroup]
  rfl

end Pop

/-- **The next entry is that of a ready task with the least key.** -/
theorem popReadyEntry_ok (hc : k.calendar.Sound) (hactive : k.Active) (hq : k.Queued []) : ∀ (turns : ℕ) {heap : List GlobalReadyEntry}
    {versions : ResourceGroup → ℕ}, (k.withHeap heap versions).Announced [] → k.load heap < turns →
    ∃ out k', popReadyEntry turns (k.withHeap heap versions) = .ok out k' ∧ k.Next out k'
  | 0, _, _, _, hload => absurd hload (Nat.not_lt_zero _)
  | turns + 1, [], versions, h, _ => by
    refine ⟨none, _, rfl, .idle (fun b hb => ?_) h⟩
    obtain ⟨key, hkey, -⟩ := h.below hc (hq.withHeap _ _) hb List.not_mem_nil
    cases hkey
  | turns + 1, queued :: heap, versions, h, hload => by
    obtain ⟨hless, hmore⟩ := k.load_cons queued heap
    have hdropped : (∀ g, (k.readyByGroup g).head? ≠ none → (ofLex queued).2 ≠ toLex (g, versions g)) →
        ∃ out k', popReadyEntry turns (k.withHeap heap versions) = .ok out k' ∧ k.Next out k' := fun hstale =>
      popReadyEntry_ok hc hactive hq turns (h.drop rfl hstale) (by omega)
    by_cases hversion : (ofLex (ofLex queued).2).2 ≠ versions (ofLex (ofLex queued).2).1
    · rw [popReadyEntry_stale hversion]
      refine hdropped fun g _ he => hversion ?_
      rw [he]
      rfl
    · cases hgroup : k.readyByGroup (ofLex (ofLex queued).2).1 with
      | nil =>
        rw [popReadyEntry_empty hversion hgroup]
        refine hdropped fun g hg he => hg ?_
        rw [he] at hgroup
        exact List.head?_eq_none_iff.2 hgroup
      | cons first rest =>
        have hhead : (k.readyByGroup (ofLex (ofLex queued).2).1).head? = some first := by rw [hgroup]; rfl
        obtain ⟨a, ha, hag, rfl⟩ := hq.head hhead
        have htake := h.take rfl
        have hread : k.readyKey (keyTaskId (staticReadyKey a)) = .ok (keyOf k.calendar a) := hactive.readyKey ha
        rw [popReadyEntry_first hversion hgroup, ok_bind (raise_ok hread)]
        by_cases hcurrent : keyOf k.calendar a ≠ (ofLex queued).1
        · -- the clocks have moved on: the group is announced anew
          have hout : k.Outdated queued := fun b hb hfirst => by
            rwa [← first_unique ha hb hhead hfirst]
          rw [if_pos hcurrent, ok_bind (refreshGroup_first (hactive.withHeap heap versions) ha hhead)]
          refine popReadyEntry_ok hc hactive hq turns ((htake.refreshed ha hhead).mono fun g hg => ?_) ?_
          · obtain ⟨hmem, hne⟩ := List.mem_filter.1 hg
            exact absurd (List.mem_singleton.1 hmem) (of_decide_eq_true hne)
          · have hpush := load_push (k := k) (e := toLex (keyOf k.calendar a, toLex ((ofLex (ofLex queued).2).1,
              versions (ofLex (ofLex queued).2).1 + 1))) (fun hout => hout a ha hhead rfl) heap
            have hdone := hmore hout
            exact hpush.trans_lt (by omega)
        · rw [if_neg hcurrent]
          rw [← hag] at htake
          exact ⟨some queued, _, rfl, .task (h.popped hc hq ha hag hhead (not_not.1 hcurrent)) htake⟩

end HeteroSim.Kernel.UnifiedEventKernel
