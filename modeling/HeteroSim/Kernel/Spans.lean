/-
How long a run takes. No task starts after all that was executed before it is
over, unless it is not released, so tasks that are all released at the start
take together no longer than one after the other; and the lanes of an owner
hold all that is asked of it, one interval after the other, so the counters of
a resource are within them.
-/
import HeteroSim.Kernel.Runs

namespace HeteroSim.Kernel.UnifiedEventKernel

open ListScheduling

variable {devices : Devices} {k k' : UnifiedEventKernel} {e : KernelEvent} {events pre post : List KernelEvent} {given : List ScheduledTask}
  {owner : String → String} {capacity : String → ℕ} {o d : String} {i : ℕ}

/-- How long a task takes once it has started. -/
def spanNs (task : ScheduledTask) : ℚ := latest (task.demands.map (·.serviceNs))

theorem spanNs_nonneg (task : ScheduledTask) : 0 ≤ spanNs task := latest_nonneg _

/-! ## From an event to the next -/

theorem mem_laneTakes {p : ℚ × ℚ} (hp : p ∈ laneTakes owner o i e) :
    ∃ d ∈ e.demands, owner d.resourceId = o ∧ p = (e.startNs, e.startNs + d.serviceNs) := by
  obtain ⟨⟨d, lane⟩, hd, htake⟩ := List.mem_filterMap.1 hp
  split at htake
  · next ho => exact ⟨d, (List.of_mem_zip hd).1, ho.1, (Option.some.inj htake).symm⟩
  · cases htake

/-- What a lane was taken for is over when its event is. -/
theorem Placed.take_le_end (h : Placed owner capacity given pre e) {p : ℚ × ℚ} (hp : p ∈ laneTakes owner o i e) : p.2 ≤ e.endNs := by
  obtain ⟨d, hd, -, rfl⟩ := mem_laneTakes hp
  rw [h.endNs]
  exact add_le_add_right (le_latest (List.mem_map.2 ⟨d, h.demands.mem_iff.1 hd, rfl⟩)) _

theorem endOf_le {v : ℚ} (h : endOf events d = some v) : v ≤ latest (events.map KernelEvent.endNs) := by
  obtain ⟨e, he, rfl⟩ := Option.map_eq_some_iff.1 h
  exact le_latest (List.mem_map_of_mem (List.mem_of_find?_eq_some he))

/-- A lane is free when all that was executed is over. -/
theorem lane_le (h : ∀ pre e post, events = pre ++ e :: post → Placed owner capacity given pre e) :
    ∀ x ∈ lanesAfter owner capacity events o, x ≤ latest (events.map KernelEvent.endNs) := by
  intro x hx
  obtain ⟨i, -, rfl⟩ := List.mem_map.1 hx
  rcases List.eq_nil_or_concat (laneHistory owner events o i) with hnil | ⟨init, p, hlast⟩
  · rw [hnil]
    exact latest_nonneg _
  · rw [hlast, List.concat_eq_append, freeAt_snoc]
    have hp : p ∈ laneHistory owner events o i := by
      rw [hlast, List.concat_eq_append]
      exact List.mem_append_right _ List.mem_cons_self
    obtain ⟨e, he, hp⟩ := List.mem_flatMap.1 hp
    obtain ⟨pre, post, hsplit⟩ := List.append_of_mem he
    exact ((h pre e post hsplit).take_le_end hp).trans (le_latest (List.mem_map_of_mem he))

/-- **Tasks that are all released at the start take no longer than one after
the other.** -/
theorem latest_le_sum (hreleased : ∀ t ∈ given, t.earliestStartNs = 0) : ∀ {events : List KernelEvent},
    (∀ pre e post, events = pre ++ e :: post → Placed owner capacity given pre e) →
    latest (events.map KernelEvent.endNs) ≤ (events.map fun e => spanNs e.task).sum := by
  intro events
  induction events using List.reverseRecOn with
  | nil => exact fun _ => le_rfl
  | append_singleton init last ih =>
    intro h
    have hinit : ∀ pre e post, init = pre ++ e :: post → Placed owner capacity given pre e := fun pre e post hsplit =>
      h pre e (post ++ [last]) (by rw [hsplit, List.append_assoc, List.cons_append])
    have hlast := h init last [] rfl
    have hsum := ih hinit
    have hstart : last.startNs ≤ latest (init.map KernelEvent.endNs) := by
      rw [hlast.startNs, hlast.effectiveReadyNs, hreleased _ hlast.submitted]
      refine max_le (max_le (latest_le_iff.2 ⟨latest_nonneg _, fun x hx => ?_⟩) (latest_nonneg _)) (latest_le_iff.2 ⟨latest_nonneg _, ?_⟩)
      · obtain ⟨d, -, hd⟩ := List.mem_filterMap.1 hx
        exact endOf_le hd
      · rw [List.forall_mem_map]
        intro d _
        by_cases hnil : lanesAfter owner capacity init (owner d.resourceId) = []
        · rw [hnil]
          exact latest_nonneg _
        · exact lane_le hinit _ (earliest_mem hnil)
    rw [List.map_append, List.map_singleton, latest_snoc, List.map_append, List.map_singleton, List.sum_append, List.sum_singleton]
    refine max_le (hsum.trans (le_add_of_nonneg_right (spanNs_nonneg _))) ?_
    rw [hlast.endNs]
    exact add_le_add_left (hstart.trans hsum) _

/-! ## What the lanes hold -/

/-- What a task asks of an owner. -/
def askedNs (owner : String → String) (o : String) (task : ScheduledTask) : ℚ :=
  ((task.demands.filter fun d => owner d.resourceId = o).map (·.serviceNs)).sum

/-- How long a lane was taken for. -/
def takenNs (history : List (ℚ × ℚ)) : ℚ := (history.map fun p => p.2 - p.1).sum

theorem takenNs_append (history other : List (ℚ × ℚ)) : takenNs (history ++ other) = takenNs history + takenNs other := by
  rw [takenNs, List.map_append, List.sum_append]
  rfl

theorem Placed.forward (h : Placed owner capacity given pre e) {p : ℚ × ℚ} (hp : p ∈ laneTakes owner o i e) : 0 ≤ p.1 ∧ p.1 ≤ p.2 := by
  obtain ⟨d, hd, -, rfl⟩ := mem_laneTakes hp
  have hstart : 0 ≤ e.startNs := by
    rw [h.startNs, h.effectiveReadyNs]
    exact (latest_nonneg _).trans ((le_max_left _ _).trans (le_max_left _ _))
  exact ⟨hstart, le_add_of_nonneg_right (e.task.service_nonneg d (h.demands.mem_iff.1 hd))⟩

theorem Placed.takenNs_nonneg (h : Placed owner capacity given pre e) : 0 ≤ takenNs (laneTakes owner o i e) := by
  refine List.sum_nonneg fun x hx => ?_
  obtain ⟨p, hp, rfl⟩ := List.mem_map.1 hx
  exact sub_nonneg.2 (h.forward hp).2

/-- A task that asks an owner once at most takes a lane for it. -/
theorem Placed.asked_le (h : Placed owner capacity given pre e) (hn : (e.task.demands.map fun d => owner d.resourceId).Nodup) :
    askedNs owner o e.task ≤ ∑ i ∈ Finset.range (capacity o), takenNs (laneTakes owner o i e) := by
  by_cases ho : ∃ d ∈ e.task.demands, owner d.resourceId = o
  · obtain ⟨d, hd, rfl⟩ := ho
    have hone : e.task.demands.filter (fun d' => owner d'.resourceId = owner d.resourceId) = [d] := by
      obtain ⟨l₁, l₂, hsplit⟩ := List.append_of_mem hd
      rw [hsplit, List.map_append, List.map_cons, List.nodup_append, List.nodup_cons] at hn
      obtain ⟨-, ⟨hafter, -⟩, hbefore⟩ := hn
      have hleft : l₁.filter (fun d' => owner d'.resourceId = owner d.resourceId) = [] :=
        List.filter_eq_nil_iff.2 fun d' hd' he => hbefore _ (List.mem_map_of_mem hd') _ List.mem_cons_self (of_decide_eq_true he)
      have hright : l₂.filter (fun d' => owner d'.resourceId = owner d.resourceId) = [] :=
        List.filter_eq_nil_iff.2 fun d' hd' he => hafter (List.mem_map.2 ⟨d', hd', of_decide_eq_true he⟩)
      rw [hsplit, List.filter_append, hleft, List.filter_cons_of_pos (by simp), hright]
      rfl
    obtain ⟨i, hi, htake⟩ := h.lanes d hd
    have hservice : d.serviceNs ≤ takenNs (laneTakes owner (owner d.resourceId) i e) := by
      have hmem : d.serviceNs ∈ (laneTakes owner (owner d.resourceId) i e).map fun p => p.2 - p.1 :=
        List.mem_map.2 ⟨_, htake, add_sub_cancel_left _ _⟩
      refine List.single_le_sum (fun x hx => ?_) _ hmem
      obtain ⟨p, hp, rfl⟩ := List.mem_map.1 hx
      exact sub_nonneg.2 (h.forward hp).2
    rw [askedNs, hone, List.map_singleton, List.sum_singleton]
    exact hservice.trans (Finset.single_le_sum (f := fun i => takenNs (laneTakes owner (owner d.resourceId) i e))
      (fun i _ => h.takenNs_nonneg) (Finset.mem_range.2 hi))
  · have hnone : e.task.demands.filter (fun d => owner d.resourceId = o) = [] :=
      List.filter_eq_nil_iff.2 fun d hd he => ho ⟨d, hd, of_decide_eq_true he⟩
    rw [askedNs, hnone]
    exact Finset.sum_nonneg fun i _ => h.takenNs_nonneg

theorem asked_le_taken (hn : ∀ t ∈ given, (t.demands.map fun d => owner d.resourceId).Nodup) : ∀ {events : List KernelEvent},
    (∀ pre e post, events = pre ++ e :: post → Placed owner capacity given pre e) →
    (events.map fun e => askedNs owner o e.task).sum ≤ ∑ i ∈ Finset.range (capacity o), takenNs (laneHistory owner events o i) := by
  intro events
  induction events using List.reverseRecOn with
  | nil => exact fun _ => Finset.sum_nonneg fun _ _ => le_rfl
  | append_singleton init last ih =>
    intro h
    have hinit := ih fun pre e post hsplit => h pre e (post ++ [last]) (by rw [hsplit, List.append_assoc, List.cons_append])
    have hlast := h init last [] rfl
    simp only [laneHistory_snoc, takenNs_append]
    rw [List.map_append, List.map_singleton, List.sum_append, List.sum_singleton, Finset.sum_add_distrib]
    exact add_le_add hinit (hlast.asked_le (hn _ hlast.submitted))

/-- **All that is asked of an owner fits into its lanes until the end.** -/
theorem Told.asked_le (ht : Told given k) (hn : ∀ t ∈ given, (t.demands.map fun d => k.calendar.physicalOwner d.resourceId).Nodup) (o : String) :
    (k.events.map fun e => askedNs k.calendar.physicalOwner o e.task).sum ≤ k.capacityOf o * k.makespanNs := by
  refine (asked_le_taken hn ht.placed).trans ?_
  have hlane : ∀ i ∈ Finset.range (k.capacityOf o), takenNs (laneHistory k.calendar.physicalOwner k.events o i) ≤ k.makespanNs := by
    intro i hi
    refine ((ht.laid o i).total_le fun p hp => ?_).trans ?_
    · obtain ⟨e, he, hp⟩ := List.mem_flatMap.1 hp
      obtain ⟨pre, post, hsplit⟩ := List.append_of_mem he
      exact ((ht.placed pre e post hsplit).forward hp).1
    · rw [ht.makespan]
      exact lane_le ht.placed _ (List.mem_map.2 ⟨i, List.mem_range.2 (Finset.mem_range.1 hi), rfl⟩)
  refine (Finset.sum_le_card_nsmul _ _ _ hlane).trans_eq ?_
  rw [Finset.card_range, nsmul_eq_mul]

/-! ## The counters of a resource -/

/-- The demands on a resource that were executed, each with its event. -/
def demandsOn (r : String) (events : List KernelEvent) : List (KernelEvent × ResourceDemand ℚ) :=
  events.flatMap fun e => (e.demands.filter fun d => d.resourceId = r).map fun d => (e, d)

/-- The counters of a resource are those of these demands. -/
structure Counted (c : Calendar) (r : String) (l : List (KernelEvent × ResourceDemand ℚ)) : Prop where
  busyNs : c.busyNs r = (l.map fun p => p.2.serviceNs).sum
  queueWaitNs : c.queueWaitNs r = (l.map fun p => p.1.startNs - p.1.effectiveReadyNs).sum
  taskCount : c.taskCount r = l.length

theorem Counted.account {taskId r : String} (e : KernelEvent) : ∀ (demands : List (ResourceDemand ℚ)) {c : Calendar} {bill : Calendar.Bill}
    {l : List (KernelEvent × ResourceDemand ℚ)}, Counted c r l →
    Counted (Calendar.accountDemands taskId e.startNs (e.startNs - e.effectiveReadyNs) demands c bill).1 r
      (l ++ (demands.filter fun d => d.resourceId = r).map fun d => (e, d))
  | [], c, bill, l, h => by
    rw [List.filter_nil, List.map_nil, List.append_nil]
    exact h
  | d :: demands, c, bill, l, h => by
    rw [Calendar.accountDemands]
    by_cases hr : d.resourceId = r
    · subst hr
      have hone : Counted (c.reserveDemand taskId e.startNs (e.startNs - e.effectiveReadyNs) d) d.resourceId (l ++ [(e, d)]) := by
        refine ⟨?_, ?_, ?_⟩
        · rw [List.map_append, List.sum_append, List.map_singleton, List.sum_singleton, ← h.busyNs]
          exact Function.update_self _ _ _
        · rw [List.map_append, List.sum_append, List.map_singleton, List.sum_singleton, ← h.queueWaitNs]
          exact Function.update_self _ _ _
        · rw [List.length_append, ← h.taskCount]
          exact Function.update_self _ _ _
      rw [List.filter_cons, if_pos (decide_eq_true rfl), List.map_cons, List.append_cons]
      exact hone.account e demands
    · rw [List.filter_cons, if_neg fun he => hr (of_decide_eq_true he)]
      refine Counted.account e demands ⟨?_, ?_, ?_⟩
      · exact (Function.update_of_ne (Ne.symm hr) _ _).trans h.busyNs
      · exact (Function.update_of_ne (Ne.symm hr) _ _).trans h.queueWaitNs
      · exact (Function.update_of_ne (Ne.symm hr) _ _).trans h.taskCount

theorem Reached.counted (h : Reached devices given k) (r : String) :
    Counted k.calendar r (demandsOn r k.events) ∧ ∀ t ∈ given, k.calendar.Coalesced t := by
  induction h with
  | create hk =>
    simp only [UnifiedEventKernel.create, bind_ok, refuse_ok] at hk
    obtain ⟨_, -, ownerCapacities, -, _, -, _, -, hk⟩ := hk
    rw [← Except.ok.inj hk]
    exact ⟨⟨rfl, rfl, rfl⟩, fun t ht => absurd ht List.not_mem_nil⟩
  | submit hk hord hok ih =>
    have hs := (hk.sound.submitted hord hok).2
    rw [hs.calendar, hs.events]
    exact ⟨ih.1, fun t ht => (List.mem_append.1 ht).elim (ih.2 t) (hs.accepted.coalesced t)⟩
  | step hk hok ih =>
    rcases step_ok devices hk.sound with ⟨heap, versions, hstep, -, -⟩ | ⟨a, event, k'', hstep, -, hx⟩
    · obtain ⟨-, rfl⟩ := EStateM.Result.ok.inj (hstep.symm.trans hok)
      exact ih
    · obtain ⟨-, rfl⟩ := EStateM.Result.ok.inj (hstep.symm.trans hok)
      have howner := (hk.sound.booked hx).owners
      refine ⟨?_, fun t ht => ?_⟩
      · have hcalendar : k''.calendar = _ := congrArg Prod.fst hx.account
        rw [hcalendar, hx.events, demandsOn, List.flatMap_append, List.flatMap_singleton, hx.demands]
        exact ih.1.account event a.task.sortedDemands
      · have := ih.2 t ht
        unfold Calendar.Coalesced Calendar.physicalOwner at this ⊢
        rwa [howner]

/-- **The counters of each resource are what its events say, and it is busy no
longer than its owner has lanes until the end.** -/
theorem kernel_ledgers (h : Reached devices given k) (r : String) :
    Counted k.calendar r (demandsOn r k.events) ∧
      k.calendar.busyNs r ≤ k.capacityOf (k.calendar.physicalOwner r) * k.makespanNs := by
  obtain ⟨hcounted, hcoalesced⟩ := h.counted r
  refine ⟨hcounted, le_trans ?_ (h.told.asked_le hcoalesced (k.calendar.physicalOwner r))⟩
  rw [hcounted.busyNs, demandsOn, List.map_flatMap, List.flatMap_def, List.sum_flatten, List.map_map]
  refine List.sum_le_sum fun e he => ?_
  obtain ⟨pre, post, hsplit⟩ := List.append_of_mem he
  have hperm := (h.told.placed pre e post hsplit).demands
  show (((e.demands.filter fun d => d.resourceId = r).map fun d => (e, d)).map fun p => p.2.serviceNs).sum ≤ _
  rw [List.map_map, ((hperm.filter _).map _).sum_eq]
  refine List.Sublist.sum_le_sum ((List.monotone_filter_right _ fun d hd => ?_).map _) fun x hx => ?_
  · exact decide_eq_true (congrArg k.calendar.physicalOwner (of_decide_eq_true hd))
  · obtain ⟨d, hd, rfl⟩ := List.mem_map.1 hx
    exact e.task.service_nonneg d (List.mem_of_mem_filter hd)

theorem threeTasks_finish : ∃ k, Reached (fun _ _ _ _ => .error .key) threeTasks k ∧ ∃ k', step (fun _ _ _ _ => .error .key) k = .ok none k' := by
  obtain ⟨k₀, hcreate⟩ : ∃ k, create .empty .empty = .ok k := ⟨_, rfl⟩
  have hchecked : (create .empty .empty >>= fun k => k.checkChunk threeTasks []) = .ok () := by decide +kernel
  rw [hcreate] at hchecked
  obtain ⟨receipt, k, hsubmit, hsound, -⟩ := submit_ok (create_sound hcreate).1 threeTasks_ordinary hchecked
  obtain ⟨events, k', hdrained, hidle⟩ := hsound.finishes (fun _ _ _ _ => .error .key) le_rfl
  exact ⟨k', (Reached.submit (.create hcreate) threeTasks_ordinary hsubmit).drained hdrained, hidle⟩

theorem kernel_ledgers_threeTasks : ∃ k, Reached (fun _ _ _ _ => .error .key) threeTasks k ∧ (∃ k', step (fun _ _ _ _ => .error .key) k = .ok none k') ∧
    Counted k.calendar "R" (demandsOn "R" k.events) := by
  obtain ⟨k, hreached, hidle⟩ := threeTasks_finish
  exact ⟨k, hreached, hidle, (kernel_ledgers hreached "R").1⟩

/-! ## The times of the tasks -/

/-- When a task that was executed started. -/
def startOf (events : List KernelEvent) (id : String) : ℚ := ((events.find? fun e => e.task.taskId = id).map KernelEvent.startNs).getD 0

theorem Told.find? (ht : Told given k) (he : e ∈ k.events) : k.events.find? (fun e' => e'.task.taskId = e.task.taskId) = some e := by
  cases hfind : k.events.find? fun e' => e'.task.taskId = e.task.taskId with
  | none => exact (List.find?_eq_none.1 hfind e he (decide_eq_true rfl)).elim
  | some e' =>
    have hid : e'.task.taskId = e.task.taskId := by simpa using List.find?_some hfind
    rw [List.inj_on_of_nodup_map ht.once (List.mem_of_find?_eq_some hfind) he hid]

theorem Told.startOf (ht : Told given k) (he : e ∈ k.events) : UnifiedEventKernel.startOf k.events e.task.taskId = e.startNs := by
  rw [UnifiedEventKernel.startOf, ht.find? he]
  rfl

theorem Told.endOf (ht : Told given k) (he : e ∈ k.events) : UnifiedEventKernel.endOf k.events e.task.taskId = some e.endNs := by
  rw [UnifiedEventKernel.endOf, ht.find? he]
  rfl

/-- What a task depends on is over when it starts. -/
theorem Told.dependency_le (ht : Told given k) (he : e ∈ k.events) (hd : d ∈ e.task.dependencies) :
    ∃ v, UnifiedEventKernel.endOf k.events d = some v ∧ v ≤ e.startNs := by
  obtain ⟨pre, post, hsplit⟩ := List.append_of_mem he
  have hplaced := ht.placed pre e post hsplit
  obtain ⟨e', he', rfl⟩ := hplaced.dependencies d hd
  have hmem : e' ∈ k.events := by
    rw [hsplit]
    exact List.mem_append_left _ he'
  refine ⟨e'.endNs, ht.endOf hmem, ?_⟩
  have hpre : UnifiedEventKernel.endOf pre e'.task.taskId = some e'.endNs := by
    cases hfind : pre.find? fun x => x.task.taskId = e'.task.taskId with
    | none => exact (List.find?_eq_none.1 hfind e' he' (decide_eq_true rfl)).elim
    | some x =>
      have hall := ht.endOf hmem
      rw [hsplit, UnifiedEventKernel.endOf, List.find?_append, hfind] at hall
      rw [UnifiedEventKernel.endOf, hfind]
      exact hall
  rw [hplaced.startNs, hplaced.effectiveReadyNs]
  exact (le_latest (List.mem_filterMap.2 ⟨_, hd, hpre⟩)).trans ((le_max_left _ _).trans (le_max_left _ _))

/-! ## Runs to the end -/

theorem Submitted.physicalOwner {chunk : List ScheduledTask} (hs : k.Submitted chunk k') :
    k'.calendar.physicalOwner = k.calendar.physicalOwner ∧ k'.capacityOf = k.capacityOf := by
  refine ⟨by rw [hs.calendar], funext fun o => ?_⟩
  rw [capacityOf, capacityOf, hs.calendar]

/-- Steps change neither owners nor capacities. -/
theorem Drained.physicalOwner (hd : Drained devices k events k') : k.Sound →
    k'.calendar.physicalOwner = k.calendar.physicalOwner ∧ k'.capacityOf = k.capacityOf := by
  induction hd with
  | nil => exact fun _ => ⟨rfl, rfl⟩
  | step hok _ ih =>
    intro hs
    rcases step_ok devices hs with ⟨heap, versions, hstep, hsound, -⟩ | ⟨a, event, k'', hstep, hsound, hx⟩
    · obtain ⟨-, rfl⟩ := EStateM.Result.ok.inj (hstep.symm.trans hok)
      exact ih hsound
    · obtain ⟨-, rfl⟩ := EStateM.Result.ok.inj (hstep.symm.trans hok)
      have hbooked := hs.booked hx
      obtain ⟨howner, hcapacity⟩ := ih hsound
      refine ⟨howner.trans (funext fun r => ?_), hcapacity.trans (funext fun o => ?_)⟩
      · rw [Calendar.physicalOwner, Calendar.physicalOwner, hbooked.owners]
      · rw [capacityOf, capacityOf, hbooked.ownerCapacities]

/-- When all that was given is executed, the events are of nothing else. -/
theorem Told.tasks_perm (ht : Told given k) (hn : (idsOf given).Nodup) (hall : ∀ t ∈ given, ∃ e ∈ k.events, e.task = t) :
    (k.events.map KernelEvent.task).Perm given := by
  have honce : (k.events.map KernelEvent.task).Nodup := by
    refine List.Nodup.of_map (fun t => t.taskId) ?_
    rw [List.map_map]
    exact ht.once
  refine (List.perm_ext_iff_of_nodup honce (List.Nodup.of_map _ hn)).2 fun t => ⟨fun hmem => ?_, fun hmem => ?_⟩
  · obtain ⟨e, he, rfl⟩ := List.mem_map.1 hmem
    obtain ⟨pre, post, hsplit⟩ := List.append_of_mem he
    exact (ht.placed pre e post hsplit).submitted
  · obtain ⟨e, he, rfl⟩ := hall t hmem
    exact List.mem_map_of_mem he

/-! ## Between the bounds -/

/-- Tasks each of which depends on the one before take one after the other. -/
theorem Told.chain_le (ht : Told given k) : ∀ {e : KernelEvent} {chain : List KernelEvent},
    List.IsChain (fun e e' => e.task.taskId ∈ e'.task.dependencies) (e :: chain) → (∀ e' ∈ e :: chain, e' ∈ k.events) →
    e.startNs + ((e :: chain).map fun e => spanNs e.task).sum ≤ k.makespanNs
  | e, [], _, hmem => by
    obtain ⟨pre, post, hsplit⟩ := List.append_of_mem (hmem e List.mem_cons_self)
    rw [List.map_singleton, List.sum_singleton, ht.makespan]
    exact (ht.placed pre e post hsplit).endNs.symm.trans_le (le_latest (List.mem_map_of_mem (hmem e List.mem_cons_self)))
  | e, e' :: chain, hchain, hmem => by
    obtain ⟨hdep, hrest⟩ := List.isChain_cons_cons.1 hchain
    obtain ⟨he, hmem⟩ := List.forall_mem_cons.1 hmem
    obtain ⟨pre, post, hsplit⟩ := List.append_of_mem he
    obtain ⟨v, hv, hle⟩ := ht.dependency_le (hmem e' List.mem_cons_self) hdep
    rw [ht.endOf he, Option.some.injEq, (ht.placed pre e post hsplit).endNs] at hv
    rw [List.map_cons, List.sum_cons, ← add_assoc]
    exact (add_le_add_left (hv.trans_le hle) _).trans (ht.chain_le hrest hmem)

/-- **At every moment of every run the makespan is between the bounds: no
shorter than any chain of dependencies from the release of its first task on,
nor than what is asked of an owner shared among its lanes, and, when all tasks
are released at the start, no longer than all of them one after the other.** -/
theorem makespan_bounds (h : Reached devices given k) :
    (∀ e chain, List.IsChain (fun e e' => e.task.taskId ∈ e'.task.dependencies) (e :: chain) → (∀ e' ∈ e :: chain, e' ∈ k.events) →
      e.task.earliestStartNs + ((e :: chain).map fun e => spanNs e.task).sum ≤ k.makespanNs) ∧
    (∀ o, (k.events.map fun e => askedNs k.calendar.physicalOwner o e.task).sum ≤ k.capacityOf o * k.makespanNs) ∧
    ((∀ t ∈ given, t.earliestStartNs = 0) → k.makespanNs ≤ (k.events.map fun e => spanNs e.task).sum) := by
  have ht := h.told
  refine ⟨fun e chain hchain hmem => ?_, ht.asked_le (h.counted "").2, fun hreleased => ht.makespan.trans_le (latest_le_sum hreleased ht.placed)⟩
  obtain ⟨pre, post, hsplit⟩ := List.append_of_mem (hmem e List.mem_cons_self)
  have hplaced := ht.placed pre e post hsplit
  have hstart : e.task.earliestStartNs ≤ e.startNs := by
    rw [hplaced.startNs, hplaced.effectiveReadyNs]
    exact (le_max_right _ _).trans (le_max_left _ _)
  exact (add_le_add_left hstart _).trans (ht.chain_le hchain hmem)

theorem makespan_bounds_threeTasks : ∃ k, Reached (fun _ _ _ _ => .error .key) threeTasks k ∧ (∃ k', step (fun _ _ _ _ => .error .key) k = .ok none k') ∧
    k.makespanNs ≤ (k.events.map fun e => spanNs e.task).sum := by
  obtain ⟨k, hreached, hidle⟩ := threeTasks_finish
  exact ⟨k, hreached, hidle, (makespan_bounds hreached).2.2 (by decide)⟩

end HeteroSim.Kernel.UnifiedEventKernel
