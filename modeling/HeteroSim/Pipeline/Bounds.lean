/-
The bounds of a plan, and the event kernel. What a plan's tasks take one after
the other is the upper bound, and the lower one the longest chunk or what one
owner is asked for over its lanes, whichever is more; the kernel, given the
tasks of a plan and nothing else, finishes between them.
-/
import HeteroSim.Kernel.Spans
import HeteroSim.Pipeline.Bounded

namespace HeteroSim.Pipeline

open Kernel ListScheduling
open Kernel.UnifiedEventKernel (Drained afterSteps askedNs oneDemand spanNs step submit)

/-! ## What the loop adds up -/

/-- The longest of the demands. -/
def demandNs (demands : List ResourceDemand) : ℚ := ((demands.map ResourceDemand.serviceNs).max?).getD 0

namespace Arguments

variable (a : Arguments)

/-- The stages of the chunks, each with its consumer. -/
def stages : List (List TransferPhase) := List.zipWith (fun phases consumer => phases ++ [consumer]) a.chunks a.consumerPhases

/-- What the demands ask of an owner. -/
def owedNs (o : String) (demands : List ResourceDemand) : ℚ :=
  ((demands.filter fun d => a.owner d = o).map ResourceDemand.serviceNs).sum

/-- The loop after the chunks with these stages. -/
structure Costed (done : List (List TransferPhase)) (s : Lowering) : Prop where
  demands : s.tasks.map TaskSpec.demands = done.flatten.map TransferPhase.demands
  task : ∀ i phases, done[i]? = some phases → ∀ k phase, phases[k]? = some phase →
    ∃ t ∈ s.tasks, t.taskId = taskId a.name i k ∧ t.demands = phase.demands
  serial : s.serialNs = (done.flatten.map stageNs).sum
  longest : ∀ x, s.longestChunkNs ≤ x ↔ 0 ≤ x ∧ ∀ phases ∈ done, (phases.map stageNs).sum ≤ x
  service : ∀ o, (s.ownerService.get? o).getD 0 = a.owedNs o (done.flatten.flatMap TransferPhase.demands)

variable {a} {done : List (List TransferPhase)} {s : Lowering}

theorem owedNs_append (o : String) (demands other : List ResourceDemand) :
    a.owedNs o (demands ++ other) = a.owedNs o demands + a.owedNs o other := by
  rw [owedNs, List.filter_append, List.map_append, List.sum_append]
  rfl

/-- The loop over demands adds to the service of their owners. -/
theorem get?_foldl_service (o : String) : ∀ (demands : List ResourceDemand) (service : Dict String ℚ),
    ((demands.foldl (fun service d => service.insert (a.owner d) ((service.get? (a.owner d)).getD 0 + d.serviceNs)) service).get? o).getD 0 =
      (service.get? o).getD 0 + a.owedNs o demands
  | [], service => (add_zero _).symm
  | d :: demands, service => by
    rw [List.foldl_cons, get?_foldl_service o demands, Dict.get?_insert]
    by_cases ho : a.owner d = o
    · have hfirst : a.owedNs o (d :: demands) = d.serviceNs + a.owedNs o demands := by
        rw [owedNs, List.filter_cons_of_pos (by simp [ho]), List.map_cons, List.sum_cons]
        rfl
      rw [if_pos ho.symm, Option.getD_some, hfirst, ho, add_assoc]
    · have hrest : a.owedNs o (d :: demands) = a.owedNs o demands := by
        rw [owedNs, List.filter_cons_of_neg (by simpa using ho)]
        rfl
      rw [if_neg (Ne.symm ho), hrest]

/-- **One chunk adds its stages.** -/
theorem Costed.step (h : a.Costed done s) (phases : List TransferPhase) (size : ℕ) (consumer : TransferPhase) :
    a.Costed (done ++ [phases ++ [consumer]]) (a.lowerChunk s done.length phases size consumer) := by
  obtain ⟨tasks, htasks⟩ : ∃ tasks, (a.lowerChunk s done.length phases size consumer).tasks = s.tasks ++ tasks ∧
      tasks.map TaskSpec.demands = (phases ++ [consumer]).map TransferPhase.demands ∧
      ∀ k phase, (phases ++ [consumer])[k]? = some phase → ∃ t ∈ tasks, t.taskId = taskId a.name done.length k ∧ t.demands = phase.demands := by
    refine ⟨_, rfl, ?_, fun k phase hk => ?_⟩
    · rw [List.map_zipWith]
      refine List.ext_getElem (by simp) fun k hk hk' => ?_
      simp only [List.getElem_zipWith, List.getElem_map]
    · have hlt := (List.getElem?_eq_some_iff.1 hk).1
      have hget := List.getElem?_range hlt
      exact ⟨_, List.mem_of_getElem? (List.getElem?_zipWith_eq_some.2 ⟨_, _, hget, hk, rfl⟩), rfl, rfl⟩
  obtain ⟨htasks, hdemands, hmem⟩ := htasks
  constructor
  · rw [htasks, List.map_append, h.demands, hdemands, ← List.map_append, List.flatten_append, List.flatten_singleton]
  · intro i stage hi k phase hk
    rw [htasks]
    by_cases hlt : i < done.length
    · rw [List.getElem?_append_left hlt] at hi
      obtain ⟨t, ht, hid⟩ := h.task i stage hi k phase hk
      exact ⟨t, List.mem_append_left _ ht, hid⟩
    · have hbound : i < done.length + 1 := by
        have := (List.getElem?_eq_some_iff.1 hi).1
        rwa [List.length_append, List.length_singleton] at this
      obtain rfl : i = done.length := by omega
      rw [List.getElem?_concat_length] at hi
      obtain rfl := Option.some.inj hi
      obtain ⟨t, ht, hid⟩ := hmem k phase hk
      exact ⟨t, List.mem_append_right _ ht, hid⟩
  · change s.serialNs + ((phases ++ [consumer]).map stageNs).sum = _
    rw [h.serial, ← List.sum_append, ← List.map_append, List.flatten_append, List.flatten_singleton]
  · intro x
    change max s.longestChunkNs ((phases ++ [consumer]).map stageNs).sum ≤ x ↔ _
    rw [max_le_iff, h.longest, List.forall_mem_append, List.forall_mem_singleton, and_assoc]
  · intro o
    rw [List.flatten_append, List.flatten_singleton, List.flatMap_append, owedNs_append, ← h.service o]
    exact get?_foldl_service o _ _

theorem Costed.loop : ∀ {chunks : List (List TransferPhase)} {sizes : List ℕ} {consumers : List TransferPhase}
    {done : List (List TransferPhase)} {s : Lowering}, a.Costed done s → chunks.length = sizes.length → consumers.length = chunks.length →
    a.Costed (done ++ List.zipWith (fun phases consumer => phases ++ [consumer]) chunks consumers)
      (a.lowerFrom done.length chunks sizes consumers s)
  | [], [], [], done, s, h, _, _ => by
    rw [List.zipWith_nil_left, List.append_nil]
    exact h
  | phases :: chunks, size :: sizes, consumer :: consumers, done, s, h, hs, hc => by
    have hrest := Costed.loop (h.step phases size consumer) (Nat.succ.inj hs) (Nat.succ.inj hc)
    rw [List.length_append, List.append_assoc] at hrest
    exact hrest

theorem costed (h : Checked a m) : a.Costed a.stages a.lower := by
  have hstart : a.Costed [] ⟨[], [], [], [], [0], 0, 0, 0, .empty⟩ :=
    ⟨rfl, fun i _ hi => by simp at hi, rfl, fun x => by simp, fun o => rfl⟩
  exact hstart.loop h.sizes h.consumers

/-! ## The longest chunk -/

theorem length_stages (h : Checked a m) : a.stages.length = a.chunks.length := by
  rw [stages, List.length_zipWith, h.consumers, min_self]

theorem length_of_mem_stages (h : Checked a m) {phases : List TransferPhase} (hp : phases ∈ a.stages) : phases.length = m + 1 := by
  obtain ⟨i, hi, rfl⟩ := List.mem_iff_getElem.1 hp
  have hi' : i < a.chunks.length := length_stages h ▸ hi
  simp only [stages, List.getElem_zipWith, List.length_append, List.length_singleton, h.phases _ (List.getElem_mem hi')]

/-- The stages of a chunk take their time one after the other. -/
theorem Costed.stage_le (hc : Checked a m) (h : a.Costed a.stages s) (hedges : Edges a m s.tasks) {x : Timing ℚ}
    (hx : x.Obeys s.tasks) (hspan : ∀ t ∈ s.tasks, 0 ≤ x.start t.taskId ∧ x.finish t.taskId = x.start t.taskId + demandNs t.demands)
    {i : ℕ} {phases : List TransferPhase} (hi : a.stages[i]? = some phases) :
    ∀ k ≤ m, ((phases.take (k + 1)).map stageNs).sum ≤ x.finish (taskId a.name i k) := by
  have hlt : i < a.chunks.length := length_stages hc ▸ (List.getElem?_eq_some_iff.1 hi).1
  have hlength := length_of_mem_stages hc (List.mem_of_getElem? hi)
  intro k
  induction k with
  | zero =>
    intro hk
    obtain ⟨t, ht, hid, hdemands⟩ := h.task i phases hi 0 _ (List.getElem?_eq_getElem (by omega))
    obtain ⟨hstart, hfinish⟩ := hspan t ht
    rw [← hid, hfinish, hdemands, List.take_add_one, List.getElem?_eq_getElem (by omega)]
    simpa [stageNs, demandNs] using hstart
  | succ k ih =>
    intro hk
    obtain ⟨t, ht, hid, hdemands⟩ := h.task i phases hi (k + 1) _ (List.getElem?_eq_getElem (by omega))
    have hbefore : taskId a.name i k ∈ a.dependencies m i (k + 1) :=
      (mem_dependencies m i (k + 1) _ hk).2 (.inr (.inl ⟨Nat.succ_ne_zero k, rfl⟩))
    have hnext := (ih (by omega)).trans (hedges.finish_le hx hlt hk hbefore)
    rw [List.take_add_one, List.getElem?_eq_getElem (by omega), Option.toList_some, List.map_append, List.sum_append,
      List.map_singleton, List.sum_singleton, ← hid, (hspan t ht).2, hdemands]
    exact add_le_add_left (hid ▸ hnext) _

/-- **No execution is shorter than the longest chunk.** -/
theorem Costed.longest_le (hc : Checked a m) (h : a.Costed a.stages s) (hedges : Edges a m s.tasks) {x : Timing ℚ}
    (hx : x.Obeys s.tasks) (hspan : ∀ t ∈ s.tasks, 0 ≤ x.start t.taskId ∧ x.finish t.taskId = x.start t.taskId + demandNs t.demands)
    {v : ℚ} (hv : 0 ≤ v) (hfinish : ∀ t ∈ s.tasks, x.finish t.taskId ≤ v) : s.longestChunkNs ≤ v := by
  refine (h.longest v).2 ⟨hv, fun phases hp => ?_⟩
  obtain ⟨i, hi⟩ := List.mem_iff_getElem?.1 hp
  have hlast := h.stage_le hc hedges hx hspan hi m le_rfl
  rw [← length_of_mem_stages hc hp, List.take_length] at hlast
  obtain ⟨t, ht, hid, -⟩ := hedges.mem i m (length_stages hc ▸ (List.getElem?_eq_some_iff.1 hi).1) le_rfl
  exact hlast.trans (hid ▸ hfinish t ht)

/-! ## The tasks in the kernel -/

end Arguments

/-- A task of the plan, as a kernel is given it. What it is ranked by among
ready tasks, and whether memory devices or a cache take part in it, is up to
the metadata of its phase. -/
structure Carries (t : TaskSpec) (task : ScheduledTask) : Prop where
  taskId : task.taskId = t.taskId
  dependencies : task.dependencies = t.dependencies
  demands : task.demands = t.demands.map fun d => ⟨d.resourceId, d.serviceNs⟩
  earliestStartNs : task.earliestStartNs = 0
  named : ∀ d ∈ t.demands, d.resourceId ≠ ""

namespace Arguments

variable {a : Arguments} {m : ℕ} {t : TaskSpec} {task : ScheduledTask} {k : UnifiedEventKernel}

theorem spanNs_eq (h : Carries t task) : spanNs task = demandNs t.demands := by
  have hsame : task.demands.map (·.serviceNs) = t.demands.map ResourceDemand.serviceNs := by
    rw [h.demands, List.map_map]
    rfl
  have hnonneg : ∀ x ∈ t.demands.map ResourceDemand.serviceNs, 0 ≤ x := by
    rw [← hsame, List.forall_mem_map]
    exact task.service_nonneg
  rw [spanNs, hsame, demandNs, max?_getD_eq_latest hnonneg]

theorem askedNs_eq (h : Carries t task) (o : String) :
    askedNs (fun r => (a.resourceOwners.get? r).getD r) o task = a.owedNs o t.demands := by
  rw [askedNs, h.demands, List.filter_map, List.map_map]
  rfl

/-- The kernel is told the same owners and capacities. -/
def kernel (a : Arguments) : Except KernelError UnifiedEventKernel :=
  UnifiedEventKernel.create (a.resourceCapacities.mapValues fun capacity => (capacity : Int)) a.resourceOwners

/-- Both loops over the capacities collect the same. -/
theorem collect_agrees : ∀ {entries : List (String × ℕ)} {planned planned' : Dict String ℕ} {collected collected' : Dict String Int},
    entries.foldlM (fun capacities entry => do
      refuse (entry.2 = 0) "resource capacity must be a positive integer"
      let owner := (a.resourceOwners.get? entry.1).getD entry.1
      refuse (∃ c ∈ capacities.get? owner, c ≠ entry.2) "conflicting physical owner capacities"
      pure (capacities.insert owner entry.2)) planned = .ok planned' →
    UnifiedEventKernel.collectOwnerCapacities a.resourceOwners (entries.map fun entry => (entry.1, (entry.2 : Int))) collected = .ok collected' →
    (∀ o, collected.get? o = (planned.get? o).map fun c => (c : Int)) → ∀ o, collected'.get? o = (planned'.get? o).map fun c => (c : Int)
  | [], planned, planned', collected, collected', hplan, hcollect, hsame => by
    obtain rfl := Except.ok.inj hplan
    obtain rfl := Except.ok.inj hcollect
    exact hsame
  | entry :: entries, planned, planned', collected, collected', hplan, hcollect, hsame => by
    rw [List.foldlM_cons] at hplan
    obtain ⟨next, hnext, hplan⟩ := bind_ok.1 hplan
    obtain ⟨_, -, hnext⟩ := bind_ok.1 hnext
    obtain ⟨_, -, hnext⟩ := bind_ok.1 hnext
    obtain rfl := Except.ok.inj hnext
    rw [List.map_cons, UnifiedEventKernel.collectOwnerCapacities] at hcollect
    obtain ⟨_, -, hcollect⟩ := bind_ok.1 hcollect
    refine collect_agrees hplan hcollect fun o => ?_
    rw [Dict.get?_insert, Dict.get?_insert]
    split
    · rfl
    · exact hsame o

theorem kernel_spec (hk : a.kernel = .ok k) {capacities : Dict String ℕ} (hcapacities : a.ownerCapacities = .ok capacities) :
    k.calendar.physicalOwner = (fun r => (a.resourceOwners.get? r).getD r) ∧ k.capacityOf = (fun o => (capacities.get? o).getD 1) := by
  simp only [kernel, UnifiedEventKernel.create, bind_ok] at hk
  obtain ⟨_, -, collected, hcollected, _, -, _, -, hk⟩ := hk
  obtain rfl := Except.ok.inj hk
  refine ⟨rfl, funext fun o => ?_⟩
  have hsame := collect_agrees hcapacities hcollected (fun _ => rfl) o
  change ((collected.get? o).getD 1).toNat = _
  rw [hsame]
  cases capacities.get? o <;> rfl

/-! ## The kernel takes the tasks -/

variable {plan : List TaskSpec} {tasks : List ScheduledTask}

theorem map_carries {β : Type} {f : TaskSpec → β} {g : ScheduledTask → β} (hfg : ∀ t task, Carries t task → g task = f t)
    (h : List.Forall₂ Carries plan tasks) : tasks.map g = plan.map f := by
  induction h with
  | nil => rfl
  | cons hcarries _ ih => rw [List.map_cons, List.map_cons, hfg _ _ hcarries, ih]

theorem mem_carries (h : List.Forall₂ Carries plan tasks) :
    (∀ task ∈ tasks, ∃ t ∈ plan, Carries t task) ∧ ∀ t ∈ plan, ∃ task ∈ tasks, Carries t task := by
  induction h with
  | nil => exact ⟨fun _ hmem => absurd hmem List.not_mem_nil, fun _ hmem => absurd hmem List.not_mem_nil⟩
  | cons hcarries _ ih =>
    obtain ⟨hleft, hright⟩ := ih
    refine ⟨List.forall_mem_cons.2 ⟨⟨_, List.mem_cons_self, hcarries⟩, fun task hmem => ?_⟩,
      List.forall_mem_cons.2 ⟨⟨_, List.mem_cons_self, hcarries⟩, fun t hmem => ?_⟩⟩
    · obtain ⟨t, ht, hcarries⟩ := hleft task hmem
      exact ⟨t, List.mem_cons_of_mem _ ht, hcarries⟩
    · obtain ⟨task, htask, hcarries⟩ := hright t hmem
      exact ⟨task, List.mem_cons_of_mem _ htask, hcarries⟩

theorem taskId_ne_empty (name : String) (i k : ℕ) : Pipeline.taskId name i k ≠ "" := by
  intro hempty
  have hlist := String.ofList_injective (hempty.trans (show "" = String.ofList [] from rfl))
  simp at hlist

/-- **A new kernel accepts the tasks of a plan.** -/
theorem accepts (hc : Checked a m) (hedges : Edges a m plan) (howners : ∀ t ∈ plan, (t.demands.map a.owner).Nodup)
    (hk : a.kernel = .ok k) {capacities : Dict String ℕ} (hcapacities : a.ownerCapacities = .ok capacities)
    (h : List.Forall₂ Carries plan tasks) (hmetadata : ∀ task ∈ tasks, task.metadataError = none) : k.checkChunk tasks [] = .ok () := by
  obtain ⟨hleft, -⟩ := mem_carries h
  have hids : tasks.map (·.taskId) = plan.map TaskSpec.taskId := map_carries (fun _ _ h => h.taskId) h
  have hnodup : (tasks.map (·.taskId)).Nodup := by
    rw [hids]
    exact hedges.distinct
  obtain ⟨rank, hrank⟩ := hedges.rank hc
  have hdependencies : ∀ task ∈ tasks, ∀ d ∈ task.dependencies, d ∈ tasks.map (·.taskId) ∧ rank d < rank task.taskId := by
    intro task hmem d hd
    obtain ⟨t, ht, hcarries⟩ := hleft task hmem
    rw [hids, hcarries.taskId]
    exact hrank t ht d (hcarries.dependencies ▸ hd)
  have hnamed : ∀ id ∈ tasks.map (·.taskId), id ≠ "" := by
    intro id hid
    rw [hids] at hid
    obtain ⟨t, ht, rfl⟩ := List.mem_map.1 hid
    obtain ⟨i, j, -, -, hij, -⟩ := hedges.of_mem t ht
    rw [hij]
    exact taskId_ne_empty _ _ _
  have hlocal : ∀ {id d : String}, d ∈ UnifiedEventKernel.localDependencies tasks id → d ∈ tasks.map (·.taskId) ∧ rank d < rank id := by
    intro id d hd
    rw [UnifiedEventKernel.localDependencies] at hd
    cases hfind : tasks.find? fun t => t.taskId = id with
    | none =>
      rw [hfind] at hd
      cases hd
    | some task =>
      rw [hfind] at hd
      obtain rfl : task.taskId = id := by simpa using List.find?_some hfind
      exact hdependencies task (List.mem_of_find?_eq_some hfind) d (List.mem_filter.1 hd).1
  have hnew : k.seen = .init := by
    simp only [kernel, UnifiedEventKernel.create, bind_ok] at hk
    obtain ⟨_, -, _, -, _, -, _, -, hk⟩ := hk
    rw [← Except.ok.inj hk]
  obtain ⟨howner, -⟩ := kernel_spec hk hcapacities
  simp only [UnifiedEventKernel.checkChunk, bind_ok, refuse_ok, forM_ok]
  refine ⟨(), fun task hmem => ?_, (), not_not.2 hnodup, (), ?_, (), List.not_mem_nil, (), not_not.2 List.nodup_nil, (), ?_, (), ?_,
    not_not.2 ?_⟩
  · obtain ⟨t, ht, hcarries⟩ := hleft task hmem
    simp only [UnifiedEventKernel.checkTask, bind_ok, refuse_ok]
    refine ⟨(), hnamed _ (List.mem_map.2 ⟨task, hmem, rfl⟩), (), fun hempty => hnamed _ (hdependencies task hmem _ hempty).1 rfl, (), ?_, (),
      Calendar.validateOwnerDemands_ok.2 ?_, ?_⟩
    · rintro ⟨d, hd, hempty⟩
      rw [hcarries.demands] at hd
      obtain ⟨d', hd', rfl⟩ := List.mem_map.1 hd
      exact hcarries.named d' hd' hempty
    · rw [Calendar.Coalesced, hcarries.demands, howner, List.map_map]
      exact howners t ht
    · rw [hmetadata task hmem]
      rfl
  · rintro ⟨id, -, hseen⟩
    rw [hnew] at hseen
    rcases hseen with hseen | ⟨n, hn, -⟩
    · cases hseen
    · cases hn
  · rintro ⟨d, hd, -⟩
    cases hd
  · rintro ⟨task, hmem, d, hd, hout, -⟩
    exact hout (hdependencies task hmem d hd).1
  · rw [show tasks.length = (tasks.map (·.taskId)).length from (List.length_map _).symm]
    exact (Kahn.visitedCount_iff hnodup fun id _ d hd => (hlocal hd).1).2 ⟨rank, fun id d hid => (hlocal hid.2).2⟩

/-! ## Between the bounds -/

variable {devices : Devices} {k' : UnifiedEventKernel} {s : Lowering}

theorem mem_stages {phases : List TransferPhase} {phase : TransferPhase} (hp : phases ∈ a.stages) (hphase : phase ∈ phases) :
    phase ∈ a.chunks.flatten ++ a.consumerPhases := by
  obtain ⟨i, hi, rfl⟩ := List.mem_iff_getElem.1 hp
  rw [stages, List.length_zipWith, lt_min_iff] at hi
  simp only [stages, List.getElem_zipWith] at hphase
  rcases List.mem_append.1 hphase with hmem | hmem
  · exact List.mem_append_left _ (List.mem_flatten.2 ⟨_, List.getElem_mem hi.1, hmem⟩)
  · rw [List.mem_singleton.1 hmem]
    exact List.mem_append_right _ (List.getElem_mem hi.2)

theorem Costed.mem_demands (h : a.Costed a.stages s) (ht : t ∈ s.tasks) :
    ∃ phase ∈ a.chunks.flatten ++ a.consumerPhases, t.demands = phase.demands := by
  have hmem : t.demands ∈ a.stages.flatten.map TransferPhase.demands := h.demands ▸ List.mem_map_of_mem ht
  obtain ⟨phase, hphase, hsame⟩ := List.mem_map.1 hmem
  obtain ⟨phases, hp, hphase⟩ := List.mem_flatten.1 hphase
  exact ⟨phase, mem_stages hp hphase, hsame.symm⟩

theorem owedNs_flatMap (o : String) (lists : List (List ResourceDemand)) :
    (lists.map (a.owedNs o)).sum = a.owedNs o lists.flatten := by
  induction lists with
  | nil => rfl
  | cons demands lists ih => rw [List.map_cons, List.sum_cons, ih, List.flatten_cons, owedNs_append]

/-- What the tasks take one after the other is what the loop adds up. -/
theorem Costed.serial_eq (h : a.Costed a.stages s) (hcarries : List.Forall₂ Carries s.tasks tasks) :
    (tasks.map spanNs).sum = s.serialNs := by
  rw [map_carries (fun _ _ h => spanNs_eq h) hcarries, h.serial]
  have hsame := congrArg (List.map demandNs) h.demands
  rw [List.map_map, List.map_map] at hsame
  exact congrArg List.sum hsame

theorem Costed.service_eq (h : a.Costed a.stages s) (hcarries : List.Forall₂ Carries s.tasks tasks) (o : String) :
    (tasks.map (askedNs (fun r => (a.resourceOwners.get? r).getD r) o)).sum = (s.ownerService.get? o).getD 0 := by
  rw [map_carries (fun _ _ h => askedNs_eq h o) hcarries, h.service, List.flatMap_def, ← h.demands, ← owedNs_flatMap, List.map_map]
  rfl

/-- **A run that has executed them all ends between the bounds.** -/
theorem Costed.bounds (hc : Checked a m) (h : a.Costed a.stages s) (hedges : Edges a m s.tasks)
    (howners : ∀ t ∈ s.tasks, (t.demands.map a.owner).Nodup) {capacities : Dict String ℕ}
    (hcarries : List.Forall₂ Carries s.tasks tasks) (htold : UnifiedEventKernel.Told tasks k)
    (howner : k.calendar.physicalOwner = fun r => (a.resourceOwners.get? r).getD r)
    (hcapacity : k.capacityOf = fun o => (capacities.get? o).getD 1)
    (hperm : (k.events.map KernelEvent.task).Perm tasks) :
    s.longestChunkNs ≤ k.makespanNs ∧
    (∀ o, (s.ownerService.get? o).getD 0 / (((capacities.get? o).getD 1 : ℕ) : ℚ) ≤ k.makespanNs) ∧ k.makespanNs ≤ s.serialNs := by
  obtain ⟨hleft, hright⟩ := mem_carries hcarries
  have hnonneg : 0 ≤ k.makespanNs := by
    rw [htold.makespan]
    exact latest_nonneg _
  refine ⟨?_, fun o => ?_, ?_⟩
  · -- each task has an event, and the events keep to the dependencies
    have hevent : ∀ t ∈ s.tasks, ∃ e ∈ k.events, Carries t e.task := by
      intro t ht
      obtain ⟨task, hmem, hcarried⟩ := hright t ht
      obtain ⟨e, he, rfl⟩ := List.mem_map.1 (hperm.mem_iff.2 hmem)
      exact ⟨e, he, hcarried⟩
    let x : Timing ℚ := ⟨UnifiedEventKernel.startOf k.events, fun id => (UnifiedEventKernel.endOf k.events id).getD 0⟩
    have htimes : ∀ t ∈ s.tasks, ∃ e ∈ k.events, Carries t e.task ∧ x.start t.taskId = e.startNs ∧ x.finish t.taskId = e.endNs ∧
        0 ≤ e.startNs ∧ e.endNs = e.startNs + spanNs e.task := by
      intro t ht
      obtain ⟨e, he, hcarried⟩ := hevent t ht
      obtain ⟨pre, post, hsplit⟩ := List.append_of_mem he
      have hplaced := htold.placed pre e post hsplit
      refine ⟨e, he, hcarried, ?_, ?_, ?_, hplaced.endNs⟩
      · exact hcarried.taskId ▸ htold.startOf he
      · exact congrArg (Option.getD · 0) (hcarried.taskId ▸ htold.endOf he)
      · rw [hplaced.startNs]
        exact (latest_nonneg _).trans (le_max_right _ _)
    refine h.longest_le hc hedges (x := x) (fun t ht => ?_) (fun t ht => ?_) hnonneg fun t ht => ?_
    · obtain ⟨e, he, hcarried, hstart, hfinish, -, hend⟩ := htimes t ht
      refine ⟨?_, fun d hd => ?_⟩
      · rw [hstart, hfinish, hend]
        exact le_add_of_nonneg_right (UnifiedEventKernel.spanNs_nonneg _)
      · obtain ⟨v, hv, hle⟩ := htold.dependency_le he (hcarried.dependencies ▸ hd)
        rw [hstart]
        exact (congrArg (Option.getD · 0) hv).trans_le hle
    · obtain ⟨e, he, hcarried, hstart, hfinish, hpos, hend⟩ := htimes t ht
      rw [hstart, hfinish, hend, spanNs_eq hcarried]
      exact ⟨hpos, rfl⟩
    · obtain ⟨e, he, -, -, hfinish, -, -⟩ := htimes t ht
      rw [hfinish, htold.makespan]
      exact le_latest (List.mem_map_of_mem he)
  · have hcoalesced : ∀ task ∈ tasks, (task.demands.map fun d => k.calendar.physicalOwner d.resourceId).Nodup := by
      intro task hmem
      obtain ⟨t, ht, hcarried⟩ := hleft task hmem
      rw [hcarried.demands, howner, List.map_map]
      exact howners t ht
    have hasked := htold.asked_le hcoalesced o
    have hsum := (hperm.map (askedNs k.calendar.physicalOwner o)).sum_eq
    rw [List.map_map] at hsum
    change (k.events.map (askedNs k.calendar.physicalOwner o ∘ KernelEvent.task)).sum ≤ _ at hasked
    rw [hsum, howner, h.service_eq hcarries, hcapacity, mul_comm] at hasked
    exact div_le_of_le_mul₀ (Nat.cast_nonneg _) hnonneg hasked
  · have hreleased : ∀ task ∈ tasks, task.earliestStartNs = 0 := by
      intro task hmem
      obtain ⟨t, -, hcarried⟩ := hleft task hmem
      exact hcarried.earliestStartNs
    have hsum := (hperm.map spanNs).sum_eq
    rw [List.map_map, h.serial_eq hcarries] at hsum
    rw [htold.makespan, ← hsum]
    exact UnifiedEventKernel.latest_le_sum hreleased htold.placed

/-- **The kernel takes the tasks of a plan and executes them all; without
devices or caches in them it ends between the bounds.** -/
theorem pipeline_bounds (devices : Devices) {plan : TransferPipelinePlan} (h : planTransferPipeline a = .ok plan) (hk : a.kernel = .ok k)
    (hcarries : List.Forall₂ Carries plan.tasks tasks) (hordinary : ∀ task ∈ tasks, task.Ordinary ∧ task.metadataError = none) :
    ∃ receipt k', submit tasks [] k = .ok receipt k' ∧
      (∃ executed k₁ k₂, Drained devices k' executed k₁ ∧ step devices k₁ = .ok none k₂) ∧
      ∀ executed k₁ k₂, Drained devices k' executed k₁ → step devices k₁ = .ok none k₂ →
        (k₁.events.map KernelEvent.task).Perm tasks ∧ plan.idealLowerBoundNs ≤ k₁.makespanNs ∧ k₁.makespanNs ≤ plan.serializedUpperBoundNs := by
  simp only [planTransferPipeline, bind_ok, refuse_ok] at h
  obtain ⟨_, hvalid, capacities, hcapacities, _, hcoalesced, hplan⟩ := h
  obtain ⟨m, hc⟩ := checked_of_validate hvalid
  obtain rfl := Except.ok.inj hplan
  have hcosted := costed hc
  have hedges := (lower_spec hc).edges
  have howners : ∀ t ∈ a.lower.tasks, (t.demands.map a.owner).Nodup := by
    intro t ht
    obtain ⟨phase, hphase, hsame⟩ := hcosted.mem_demands ht
    rw [hsame]
    by_contra hdouble
    exact hcoalesced ⟨phase, hphase, hdouble⟩
  have hchecked := accepts hc hedges howners hk hcapacities hcarries fun task hmem => (hordinary task hmem).2
  have hord : ∀ task ∈ tasks, task.Ordinary := fun task hmem => (hordinary task hmem).1
  have hnew : UnifiedEventKernel.Reached devices [] k := .create hk
  obtain ⟨receipt, k', hsubmit, hsound, hsubmitted⟩ := UnifiedEventKernel.submit_ok hnew.sound hord hchecked
  have hreached : UnifiedEventKernel.Reached devices tasks k' := .submit hnew hord hsubmit
  obtain ⟨executed, k₁, hdrained, k₂, hidle⟩ := hsound.finishes devices le_rfl
  refine ⟨receipt, k', hsubmit, ⟨executed, k₁, k₂, hdrained, hidle⟩, fun executed k₁ k₂ hdrained hidle => ?_⟩
  have hfinal := hreached.drained hdrained
  have htold := hfinal.told
  obtain ⟨-, -, -, -, hdone, -⟩ := UnifiedEventKernel.kernel_schedule_valid hfinal
  have hperm := htold.tasks_perm hsubmitted.accepted.nodup (hdone k₂ hidle)
  obtain ⟨howner, hcapacity⟩ := kernel_spec hk hcapacities
  obtain ⟨howner', hcapacity'⟩ := hsubmitted.physicalOwner
  obtain ⟨howner'', hcapacity''⟩ := hdrained.physicalOwner hsound
  obtain ⟨hlongest, hservice, hserial⟩ := hcosted.bounds hc hedges howners hcarries htold
    (howner''.trans (howner'.trans howner)) (hcapacity''.trans (hcapacity'.trans hcapacity)) hperm
  refine ⟨hperm, max_le hlongest ?_, hserial⟩
  cases hmax : (a.lower.ownerService.items.map fun entry => entry.2 / (((capacities.get? entry.1).getD 1 : ℕ) : ℚ)).max? with
  | none =>
    rw [Option.getD_none, htold.makespan]
    exact latest_nonneg _
  | some x =>
    obtain ⟨entry, hentry, rfl⟩ := List.mem_map.1 (List.max?_mem hmax)
    have hget : a.lower.ownerService.get? entry.1 = some entry.2 := Dict.get?_eq_some.2 hentry
    have hle := hservice entry.1
    rwa [hget, Option.getD_some] at hle

/-! ## Two chunks, and a device -/

/-- What the kernel is told of a task. -/
def outline (t : TaskSpec) : String × List String × List (Kernel.ResourceDemand ℚ) :=
  (t.taskId, t.dependencies, t.demands.map fun d => ⟨d.resourceId, d.serviceNs⟩)

theorem carries_of_outline : ∀ {plan : List TaskSpec} {tasks : List ScheduledTask},
    plan.map outline = tasks.map (fun task => (task.taskId, task.dependencies, task.demands)) →
    (∀ task ∈ tasks, task.earliestStartNs = 0 ∧ ∀ d ∈ task.demands, d.resourceId ≠ "") → List.Forall₂ Carries plan tasks
  | [], [], _, _ => .nil
  | [], _ :: _, hsame, _ => by cases hsame
  | _ :: _, [], hsame, _ => by cases hsame
  | t :: plan, task :: tasks, hsame, htasks => by
    obtain ⟨hfirst, hsame⟩ := List.cons.inj hsame
    obtain ⟨hid, hrest⟩ := Prod.mk.inj hfirst
    obtain ⟨hdependencies, hdemands⟩ := Prod.mk.inj hrest
    obtain ⟨⟨hstart, hnamed⟩, htasks⟩ := List.forall_mem_cons.1 htasks
    refine .cons ⟨hid.symm, hdependencies.symm, hdemands.symm, hstart, fun d hd => ?_⟩ (carries_of_outline hsame htasks)
    exact hnamed ⟨d.resourceId, d.serviceNs⟩ (hdemands ▸ List.mem_map_of_mem hd)

/-- Chunks that are read and added up. -/
def readAndAdd (chunks : ℕ) (readNs addNs : ℚ) : Arguments where
  chunks := List.replicate chunks [⟨"read", [⟨"hbm", readNs⟩]⟩]
  chunkByteCounts := List.replicate chunks 4
  bufferCapacityBytes := 8
  maxInflightChunks := 4
  consumers := some (List.replicate chunks ⟨"add", [⟨"sm", addNs⟩]⟩)
  requestId := "r"
  name := "p"
  bufferId := "b"
  resourceOwners := .empty
  resourceCapacities := .empty

def readAndAddTasks : List ScheduledTask :=
  [oneDemand "p.chunk0000.stage00" [] "hbm" 2 0, oneDemand "p.chunk0000.stage01" ["p.chunk0000.stage00"] "sm" 3 0,
    oneDemand "p.chunk0001.stage00" ["p.chunk0000.stage00"] "hbm" 2 0,
    oneDemand "p.chunk0001.stage01" ["p.chunk0001.stage00", "p.chunk0000.stage01"] "sm" 3 0]

theorem pipeline_bounds_readAndAdd : ∃ plan k receipt k' executed k₁ k₂, planTransferPipeline (readAndAdd 2 2 3) = .ok plan ∧
    (readAndAdd 2 2 3).kernel = .ok k ∧ submit readAndAddTasks [] k = .ok receipt k' ∧ Drained (fun _ _ _ _ => .error .key) k' executed k₁ ∧
    step (fun _ _ _ _ => .error .key) k₁ = .ok none k₂ ∧ 6 ≤ k₁.makespanNs ∧ k₁.makespanNs ≤ 10 := by
  have houtline : (planTransferPipeline (readAndAdd 2 2 3)).toOption.map (fun plan => plan.tasks.map outline) =
      some (readAndAddTasks.map fun task => (task.taskId, task.dependencies, task.demands)) := by decide +kernel
  have hbounds : (planTransferPipeline (readAndAdd 2 2 3)).toOption.map (fun plan => (plan.idealLowerBoundNs, plan.serializedUpperBoundNs)) =
      some (6, 10) := by decide +kernel
  obtain ⟨k, hk⟩ : ∃ k, (readAndAdd 2 2 3).kernel = .ok k := ⟨_, rfl⟩
  cases h : planTransferPipeline (readAndAdd 2 2 3) with
  | error e =>
    rw [h] at houtline
    cases houtline
  | ok plan =>
    rw [h] at houtline hbounds
    obtain ⟨hlower, hupper⟩ := Prod.mk.inj (Option.some.inj hbounds)
    have hcarries : List.Forall₂ Carries plan.tasks readAndAddTasks := by
      refine carries_of_outline (Option.some.inj houtline) ?_
      simp [readAndAddTasks, oneDemand]
    have hordinary : ∀ task ∈ readAndAddTasks, task.Ordinary ∧ task.metadataError = none := by
      simp only [readAndAddTasks, List.forall_mem_cons, UnifiedEventKernel.oneDemand_ordinary, List.not_mem_nil, false_imp_iff,
        implies_true, and_true, true_and]
      exact ⟨rfl, rfl, rfl, rfl⟩
    obtain ⟨receipt, k', hsubmit, ⟨executed, k₁, k₂, hdrained, hidle⟩, hall⟩ :=
      pipeline_bounds (fun _ _ _ _ => .error .key) h hk hcarries hordinary
    obtain ⟨-, hge, hle⟩ := hall executed k₁ k₂ hdrained hidle
    exact ⟨plan, k, receipt, k', executed, k₁, k₂, rfl, hk, hsubmit, hdrained, hidle, hlower ▸ hge, hupper ▸ hle⟩

/-- A device on which a read takes thirty, whatever it was priced. -/
def thirtyNs : Devices := fun c task startNs effectiveReadyNs =>
  let accounted := c.accountTaskDemands task [⟨"hbm", 30⟩] startNs effectiveReadyNs
  .ok (accounted.1, [⟨"hbm", 30⟩], accounted.2)

/-- A read of no price whose phase has a memory configuration and an access. -/
def physicalTasks : List ScheduledTask :=
  [{ oneDemand "p.chunk0000.stage00" [] "hbm" 0 0 with physical := ⟨true, .ok (some [some "hbm"]), .ok [], .ok []⟩ },
    oneDemand "p.chunk0000.stage01" ["p.chunk0000.stage00"] "sm" 1 0]

/-- When tasks are over after so many steps, if none is left then. -/
def makespanAfter (devices : Devices) (tasks : List ScheduledTask) (n : ℕ) (k : UnifiedEventKernel) : Option ℚ :=
  match submit tasks [] k with
  | .error _ _ => none
  | .ok _ k' => (afterSteps devices n k').bind fun k₁ =>
    match step devices k₁ with
    | .ok none _ => some k₁.makespanNs
    | _ => none

theorem drained_of_afterSteps : ∀ {n : ℕ} {k k' : UnifiedEventKernel}, afterSteps devices n k = some k' → ∃ executed, Drained devices k executed k'
  | 0, _, _, h => ⟨[], Option.some.inj h ▸ .nil⟩
  | n + 1, k, k', h => by
    rw [afterSteps] at h
    cases hstep : step devices k with
    | ok out k₁ =>
      rw [hstep] at h
      obtain ⟨executed, hdrained⟩ := drained_of_afterSteps h
      exact ⟨_, .step hstep hdrained⟩
    | error e k₁ =>
      rw [hstep] at h
      cases h

/-- What a phase of a device takes is not its price. -/
theorem pipeline_bounds_physical : ∃ plan k receipt k' executed k₁ k₂, planTransferPipeline (readAndAdd 1 0 1) = .ok plan ∧
    (readAndAdd 1 0 1).kernel = .ok k ∧ List.Forall₂ Carries plan.tasks physicalTasks ∧ submit physicalTasks [] k = .ok receipt k' ∧
    Drained thirtyNs k' executed k₁ ∧ step thirtyNs k₁ = .ok none k₂ ∧ plan.serializedUpperBoundNs = 1 ∧ k₁.makespanNs = 31 := by
  have houtline : (planTransferPipeline (readAndAdd 1 0 1)).toOption.map (fun plan => plan.tasks.map outline) =
      some (physicalTasks.map fun task => (task.taskId, task.dependencies, task.demands)) := by decide +kernel
  have hupper : (planTransferPipeline (readAndAdd 1 0 1)).toOption.map (·.serializedUpperBoundNs) = some 1 := by decide +kernel
  have hrun : (readAndAdd 1 0 1).kernel.toOption.bind (makespanAfter thirtyNs physicalTasks 2) = some 31 := by decide +kernel
  obtain ⟨k, hk⟩ : ∃ k, (readAndAdd 1 0 1).kernel = .ok k := ⟨_, rfl⟩
  cases h : planTransferPipeline (readAndAdd 1 0 1) with
  | error e =>
    rw [h] at houtline
    cases houtline
  | ok plan =>
    rw [h] at houtline hupper
    have hcarries : List.Forall₂ Carries plan.tasks physicalTasks := by
      refine carries_of_outline (Option.some.inj houtline) ?_
      simp [physicalTasks, oneDemand]
    rw [hk] at hrun
    change makespanAfter thirtyNs physicalTasks 2 k = some 31 at hrun
    rw [makespanAfter] at hrun
    cases hsubmit : submit physicalTasks [] k with
    | error e k' =>
      rw [hsubmit] at hrun
      cases hrun
    | ok receipt k' =>
      rw [hsubmit] at hrun
      obtain ⟨k₁, hsteps, hrun⟩ := Option.bind_eq_some_iff.1 hrun
      obtain ⟨executed, hdrained⟩ := drained_of_afterSteps hsteps
      split at hrun
      · next k₂ hidle => exact ⟨plan, k, receipt, k', executed, k₁, k₂, rfl, hk, hcarries, hsubmit, hdrained, hidle,
          Option.some.inj hupper, Option.some.inj hrun⟩
      · cases hrun

end Arguments

end HeteroSim.Pipeline
