/-
What the graph guarantees in every execution that respects its dependencies:
the chunks in flight fit into the buffer and the window, consumers finish in
order, and only chunks that must be gone are waited for.
-/
import HeteroSim.Pipeline.Graph

namespace HeteroSim.Pipeline

/-- When the tasks start and finish, on any time line. -/
structure Timing (T : Type) where
  start : String → T
  finish : String → T

def Timing.Obeys {T : Type} [LE T] (x : Timing T) (tasks : List TaskSpec) : Prop :=
  ∀ t ∈ tasks, x.start t.taskId ≤ x.finish t.taskId ∧ ∀ d ∈ t.dependencies, x.finish d ≤ x.start t.taskId

namespace Arguments

variable (a : Arguments)

/-- The first producer stage of a chunk. -/
def producer (index : ℕ) : String := taskId a.name index 0

def consumer (index : ℕ) : String := taskId a.name index ((a.chunks[index]?).getD []).length

/-- The chunks whose first producer has started and whose consumer has not
finished. -/
def inFlight {T : Type} [LinearOrder T] (x : Timing T) (now : T) : Finset ℕ :=
  (Finset.range a.chunks.length).filter fun i => x.start (a.producer i) ≤ now ∧ now < x.finish (a.consumer i)

def chunkBytes (index : ℕ) : ℕ := (a.chunkByteCounts[index]?).getD 0

/-- **What holds of the tasks of a plan.** -/
structure Bounded (plan : TransferPipelinePlan) : Prop where
  consumers : plan.consumerDoneTaskIds = (List.range a.chunks.length).map a.consumer
  distinct : (plan.tasks.map TaskSpec.taskId).Nodup
  acyclic : ∃ rank : String → ℕ, ∀ t ∈ plan.tasks, ∀ d ∈ t.dependencies,
    d ∈ plan.tasks.map TaskSpec.taskId ∧ rank d < rank t.taskId
  bytes : ∀ {T : Type} [LinearOrder T] (x : Timing T), x.Obeys plan.tasks → ∀ now,
    ∑ i ∈ a.inFlight x now, a.chunkBytes i ≤ a.bufferCapacityBytes
  count : ∀ {T : Type} [LinearOrder T] (x : Timing T), x.Obeys plan.tasks → ∀ now,
    (a.inFlight x now).card ≤ a.maxInflightChunks
  order : ∀ {T : Type} [LinearOrder T] (x : Timing T), x.Obeys plan.tasks → ∀ i j, i ≤ j → j < a.chunks.length →
    x.finish (a.consumer i) ≤ x.finish (a.consumer j)
  /-- Once the chunks before are consumed, a stage waits for the stage before it
  and for nothing else. -/
  unblocked : ∀ done : String → Prop, (∀ t ∈ plan.tasks, done t.taskId → ∀ d ∈ t.dependencies, done d) →
    ∀ i, (∀ j < i, done (a.consumer j)) → ∀ t ∈ plan.tasks, ∀ stage, t.taskId = taskId a.name i stage →
      ∀ d ∈ t.dependencies, done d ∨ 0 < stage ∧ d = taskId a.name i (stage - 1)
  /-- A chunk waits for a consumer only if the chunks from there on do not fit. -/
  needed : ∀ t ∈ plan.tasks, ∀ i, t.taskId = a.producer i → ∀ j, a.consumer j ∈ t.dependencies → ¬a.Fits i j

variable {a} {m : ℕ}

/-! ## The edges -/

theorem consumer_eq (h : Checked a m) {index : ℕ} (hi : index < a.chunks.length) : a.consumer index = taskId a.name index m := by
  rw [consumer, List.getElem?_eq_getElem hi, Option.getD_some, h.phases _ (List.getElem_mem hi)]

theorem credits_le_self (hc : Checked a m) {index : ℕ} (hi : index < a.chunks.length) : a.credits index ≤ index :=
  credits_le (List.getElem?_eq_getElem (hc.sizes ▸ hi)) (hc.fit _ (List.getElem_mem _)) hc.inflight

theorem mem_dependencies (m index stage : ℕ) (d : String) (hstage : stage ≤ m) : d ∈ a.dependencies m index stage ↔
    (stage = 0 ∧ a.credits index ≠ 0 ∧ d = taskId a.name (a.credits index - 1) m) ∨
      (stage ≠ 0 ∧ d = taskId a.name index (stage - 1)) ∨ (index ≠ 0 ∧ d = taskId a.name (index - 1) stage) := by
  have hprevious : d ∈ ((if index = 0 then [] else a.stageIds m (index - 1))[stage]?).toList ↔
      index ≠ 0 ∧ d = taskId a.name (index - 1) stage := by
    split
    · next h => simp [h]
    · next h =>
      rw [stageIds, List.getElem?_map, List.getElem?_range (by omega)]
      simp [h]
  rw [dependencies, stageDependencies, List.mem_eraseDups, List.mem_append, hprevious, ← or_assoc]
  refine or_congr_left ?_
  by_cases hs : stage = 0
  · by_cases hc : a.credits index = 0 <;> simp [hs, hc]
  · simp [hs]

/-- The tasks of a plan and their dependencies. -/
structure Edges (a : Arguments) (m : ℕ) (tasks : List TaskSpec) : Prop where
  distinct : (tasks.map TaskSpec.taskId).Nodup
  of_mem : ∀ t ∈ tasks, ∃ i k, i < a.chunks.length ∧ k ≤ m ∧ t.taskId = taskId a.name i k ∧ t.dependencies = a.dependencies m i k
  mem : ∀ i k, i < a.chunks.length → k ≤ m → ∃ t ∈ tasks, t.taskId = taskId a.name i k ∧ t.dependencies = a.dependencies m i k

theorem Lowered.edges {s : Lowering} (h : a.Lowered m a.chunks.length s) : Edges a m s.tasks := by
  have hmem : ∀ e : String × List String, (∃ t ∈ s.tasks, (t.taskId, t.dependencies) = e) ↔
      ∃ i k, i < a.chunks.length ∧ k ≤ m ∧ (taskId a.name i k, a.dependencies m i k) = e := by
    intro e
    rw [← List.mem_map (f := fun t : TaskSpec => (t.taskId, t.dependencies)), h.tasks, List.mem_flatMap]
    simp only [chunkGraph, List.mem_map, List.mem_range, Nat.lt_succ_iff]
    constructor
    · intro h
      obtain ⟨i, hi, k, hk, he⟩ := h
      exact ⟨i, k, hi, hk, he⟩
    · intro h
      obtain ⟨i, k, hi, hk, he⟩ := h
      exact ⟨i, hi, k, hk, he⟩
  refine ⟨?_, fun t ht => ?_, fun i k hi hk => ?_⟩
  · have hids : s.tasks.map TaskSpec.taskId = (List.range a.chunks.length).flatMap (a.stageIds m) := by
      calc s.tasks.map TaskSpec.taskId = (s.tasks.map fun t => (t.taskId, t.dependencies)).map Prod.fst := by
            rw [List.map_map]
            rfl
        _ = _ := by
            rw [h.tasks, List.map_flatMap]
            refine List.flatMap_congr fun i _ => ?_
            rw [chunkGraph, stageIds, List.map_map]
            rfl
    rw [hids, List.nodup_flatMap]
    refine ⟨fun i _ => List.nodup_range.map fun k l hkl => (taskId_injective hkl).2, ?_⟩
    refine List.nodup_range.imp fun {i j} hij d hd hd' => hij ?_
    obtain ⟨k, -, rfl⟩ := List.mem_map.1 hd
    obtain ⟨l, -, hl⟩ := List.mem_map.1 hd'
    exact (taskId_injective hl).1.symm
  · obtain ⟨i, k, hi, hk, he⟩ := (hmem (t.taskId, t.dependencies)).1 ⟨t, ht, rfl⟩
    exact ⟨i, k, hi, hk, (congrArg Prod.fst he).symm, (congrArg Prod.snd he).symm⟩
  · obtain ⟨t, ht, he⟩ := (hmem (taskId a.name i k, a.dependencies m i k)).2 ⟨i, k, hi, hk, rfl⟩
    exact ⟨t, ht, congrArg Prod.fst he, congrArg Prod.snd he⟩

/-! ## Every execution -/

section

variable {T : Type} [LinearOrder T] {x : Timing T} {tasks : List TaskSpec}

theorem Edges.finish_le (h : Edges a m tasks) (hx : x.Obeys tasks) {i k : ℕ} (hi : i < a.chunks.length) (hk : k ≤ m)
    {d : String} (hd : d ∈ a.dependencies m i k) : x.finish d ≤ x.start (taskId a.name i k) := by
  obtain ⟨t, ht, hid, hdeps⟩ := h.mem i k hi hk
  rw [← hid]
  exact (hx t ht).2 d (hdeps ▸ hd)

theorem Edges.start_le (h : Edges a m tasks) (hx : x.Obeys tasks) {i k : ℕ} (hi : i < a.chunks.length) (hk : k ≤ m) :
    x.start (taskId a.name i k) ≤ x.finish (taskId a.name i k) := by
  obtain ⟨t, ht, hid, -⟩ := h.mem i k hi hk
  rw [← hid]
  exact (hx t ht).1

/-- A stage of a later chunk finishes later. -/
theorem Edges.stage_order (h : Edges a m tasks) (hx : x.Obeys tasks) {i j k : ℕ} (hij : i ≤ j) (hj : j < a.chunks.length)
    (hk : k ≤ m) : x.finish (taskId a.name i k) ≤ x.finish (taskId a.name j k) := by
  induction j, hij using Nat.le_induction with
  | base => exact le_rfl
  | succ j _ ih =>
    have hd : taskId a.name j k ∈ a.dependencies m (j + 1) k :=
      (mem_dependencies m (j + 1) k _ hk).2 (.inr (.inr ⟨Nat.succ_ne_zero j, rfl⟩))
    exact (ih (by omega)).trans ((h.finish_le hx hj hk hd).trans (h.start_le hx hj hk))

/-- The chunks that lost their credits to a started one are consumed. -/
theorem Edges.inFlight_subset (hc : Checked a m) (h : Edges a m tasks) (hx : x.Obeys tasks) (now : T) {last : ℕ}
    (hlast : last ∈ a.inFlight x now) (hmax : ∀ i ∈ a.inFlight x now, i ≤ last) :
    a.inFlight x now ⊆ Finset.Ico (a.credits last) (last + 1) := by
  intro i hi
  rw [Finset.mem_Ico]
  refine ⟨?_, Nat.lt_succ_of_le (hmax i hi)⟩
  obtain ⟨hl, hstarted, -⟩ := Finset.mem_filter.1 hlast
  obtain ⟨hin, -, hrunning⟩ := Finset.mem_filter.1 hi
  have hl := Finset.mem_range.1 hl
  have hin := Finset.mem_range.1 hin
  by_contra hgone
  have hcredits := credits_le_self hc hl
  have hd : taskId a.name (a.credits last - 1) m ∈ a.dependencies m last 0 :=
    (mem_dependencies m last 0 _ (Nat.zero_le m)).2 (.inl ⟨rfl, by omega, rfl⟩)
  have hfinished : x.finish (a.consumer i) ≤ now :=
    calc x.finish (a.consumer i) = x.finish (taskId a.name i m) := by rw [consumer_eq hc hin]
      _ ≤ x.finish (taskId a.name (a.credits last - 1) m) := h.stage_order hx (by omega) (by omega) le_rfl
      _ ≤ x.start (taskId a.name last 0) := h.finish_le hx hl (Nat.zero_le m) hd
      _ ≤ now := hstarted
  exact absurd hrunning (not_lt.2 hfinished)

theorem sum_chunkBytes {first stop : ℕ} (h : first ≤ stop) : a.total first + ∑ i ∈ Finset.Ico first stop, a.chunkBytes i = a.total stop := by
  induction stop, h using Nat.le_induction with
  | base => simp
  | succ n hn ih => rw [Finset.sum_Ico_succ_top hn, ← Nat.add_assoc, ih, total_succ, chunkBytes]

/-- **The chunks in flight fit into the buffer and into the window.** -/
theorem Edges.inFlight_fits (hc : Checked a m) (h : Edges a m tasks) (hx : x.Obeys tasks) (now : T) :
    ∑ i ∈ a.inFlight x now, a.chunkBytes i ≤ a.bufferCapacityBytes ∧ (a.inFlight x now).card ≤ a.maxInflightChunks := by
  rcases (a.inFlight x now).eq_empty_or_nonempty with hempty | hsome
  · rw [hempty]
    simp
  · have hsub := h.inFlight_subset hc hx now (Finset.max'_mem _ hsome) fun i hi => Finset.le_max' _ i hi
    generalize (a.inFlight x now).max' hsome = last at hsub
    obtain ⟨hbytes, hcount⟩ := a.fits_credits last
    have hle : a.credits last ≤ last + 1 := Nat.find_min' _ (a.fits_next last)
    have hsum := sum_chunkBytes (a := a) hle
    have hcard := Finset.card_le_card hsub
    have hbound := Finset.sum_le_sum_of_subset (f := a.chunkBytes) hsub
    rw [Nat.card_Ico] at hcard
    exact ⟨by omega, by omega⟩

end

/-! ## Waiting -/

variable {tasks : List TaskSpec}

/-- Tasks in the order of their chunks and stages depend on earlier ones. -/
theorem Edges.rank (hc : Checked a m) (h : Edges a m tasks) : ∃ rank : String → ℕ, ∀ t ∈ tasks, ∀ d ∈ t.dependencies,
    d ∈ tasks.map TaskSpec.taskId ∧ rank d < rank t.taskId := by
  have hinj : Function.Injective fun p : ℕ × ℕ => taskId a.name p.1 p.2 := fun p q hpq =>
    Prod.ext (taskId_injective hpq).1 (taskId_injective hpq).2
  obtain ⟨rank, hrank⟩ : ∃ rank : String → ℕ, ∀ i k, rank (taskId a.name i k) = i * (m + 1) + k :=
    ⟨Function.extend _ (fun p : ℕ × ℕ => p.1 * (m + 1) + p.2) 0, fun i k => hinj.extend_apply _ _ (i, k)⟩
  refine ⟨rank, fun t ht d hd => ?_⟩
  obtain ⟨i, k, hi, hk, hid, hdeps⟩ := h.of_mem t ht
  have hmem : ∀ j l, j < a.chunks.length → l ≤ m → taskId a.name j l ∈ tasks.map TaskSpec.taskId := fun j l hj hl => by
    obtain ⟨u, hu, hju, -⟩ := h.mem j l hj hl
    exact hju ▸ List.mem_map_of_mem hu
  have hcredits := credits_le_self hc hi
  rw [hdeps, mem_dependencies m i k d hk] at hd
  rw [hid, hrank]
  rcases hd with ⟨rfl, hpos, rfl⟩ | ⟨hpos, rfl⟩ | ⟨hpos, rfl⟩
  · rw [hrank]
    refine ⟨hmem _ _ (by omega) le_rfl, ?_⟩
    have := Nat.mul_le_mul_right (m + 1) (by omega : a.credits i - 1 + 1 ≤ i)
    rw [Nat.add_mul] at this
    omega
  · rw [hrank]
    exact ⟨hmem _ _ hi (by omega), by omega⟩
  · rw [hrank]
    refine ⟨hmem _ _ (by omega) hk, ?_⟩
    have := Nat.mul_le_mul_right (m + 1) (by omega : i - 1 + 1 ≤ i)
    rw [Nat.add_mul] at this
    omega

/-- What is done with a consumer is done with its chunk's stages. -/
theorem Edges.done_stage (h : Edges a m tasks) {done : String → Prop}
    (hdone : ∀ t ∈ tasks, done t.taskId → ∀ d ∈ t.dependencies, done d) {index : ℕ} (hi : index < a.chunks.length)
    (hconsumed : done (taskId a.name index m)) : ∀ {k : ℕ}, k ≤ m → done (taskId a.name index k) := by
  intro k hk
  induction hk using Nat.decreasingInduction with
  | self => exact hconsumed
  | of_succ k hk ih =>
    obtain ⟨t, ht, hid, hdeps⟩ := h.mem index (k + 1) hi hk
    refine hdone t ht (hid ▸ ih) _ ?_
    rw [hdeps]
    exact (mem_dependencies m index (k + 1) _ hk).2 (.inr (.inl ⟨Nat.succ_ne_zero k, rfl⟩))

theorem Edges.unblocked (hc : Checked a m) (h : Edges a m tasks) {done : String → Prop}
    (hdone : ∀ t ∈ tasks, done t.taskId → ∀ d ∈ t.dependencies, done d) {index : ℕ}
    (hbefore : ∀ j < index, done (a.consumer j)) {t : TaskSpec} (ht : t ∈ tasks) {stage : ℕ}
    (hid : t.taskId = taskId a.name index stage) {d : String} (hd : d ∈ t.dependencies) :
    done d ∨ 0 < stage ∧ d = taskId a.name index (stage - 1) := by
  obtain ⟨i, k, hi, hk, hik, hdeps⟩ := h.of_mem t ht
  obtain ⟨rfl, rfl⟩ := taskId_injective (hid.symm.trans hik)
  have hconsumed : ∀ j < index, done (taskId a.name j m) := fun j hj => by
    rw [← consumer_eq hc (hj.trans hi)]
    exact hbefore j hj
  have hcredits := credits_le_self hc hi
  rw [hdeps, mem_dependencies m index stage d hk] at hd
  rcases hd with ⟨rfl, hpos, rfl⟩ | ⟨hpos, rfl⟩ | ⟨hpos, rfl⟩
  · exact .inl (hconsumed _ (by omega))
  · exact .inr ⟨Nat.pos_of_ne_zero hpos, rfl⟩
  · exact .inl (h.done_stage hdone (by omega) (hconsumed _ (by omega)) hk)

theorem Edges.needed (hc : Checked a m) (h : Edges a m tasks) {t : TaskSpec} (ht : t ∈ tasks) {i j : ℕ}
    (hid : t.taskId = a.producer i) (hd : a.consumer j ∈ t.dependencies) : ¬a.Fits i j := by
  have hstages := hc.stages
  obtain ⟨i', k, hi, hk, hik, hdeps⟩ := h.of_mem t ht
  obtain ⟨rfl, rfl⟩ := taskId_injective (hid.symm.trans hik)
  obtain ⟨stage, hstage⟩ : ∃ stage, a.consumer j = taskId a.name j stage := ⟨_, rfl⟩
  rw [hdeps, mem_dependencies m i 0 _ (Nat.zero_le m)] at hd
  rcases hd with ⟨-, hpos, hj⟩ | ⟨hpos, -⟩ | ⟨hpos, hj⟩
  · rw [hstage] at hj
    obtain ⟨rfl, -⟩ := taskId_injective hj
    exact a.not_fits (by omega)
  · exact absurd rfl hpos
  · -- a consumer is no producer
    rw [hstage] at hj
    obtain ⟨rfl, hzero⟩ := taskId_injective hj
    rw [consumer_eq hc (by omega)] at hstage
    have := (taskId_injective hstage).2
    omega

/-- **Every plan is acyclic, and in every execution of it, in any order and
timing, the chunks in flight fit, consumers finish in order, and no chunk
waits for more than it must.** -/
theorem pipeline_bounded (a : Arguments) (plan : TransferPipelinePlan) (h : planTransferPipeline a = .ok plan) :
    a.Bounded plan := by
  simp only [planTransferPipeline, bind_ok] at h
  obtain ⟨u, hu, capacities, -, -, -, hplan⟩ := h
  obtain ⟨m, hc⟩ := checked_of_validate hu
  have hlowered := lower_spec hc
  have hedges := hlowered.edges
  obtain rfl := Except.ok.inj hplan
  constructor
  · refine hlowered.doneIds.trans (List.map_congr_left fun i hi => ?_)
    rw [consumer_eq hc (List.mem_range.1 hi)]
  · exact hedges.distinct
  · exact hedges.rank hc
  · exact fun x hx now => (hedges.inFlight_fits hc hx now).1
  · exact fun x hx now => (hedges.inFlight_fits hc hx now).2
  · intro T _ x hx i j hij hj
    rw [consumer_eq hc hj, consumer_eq hc (by omega)]
    exact hedges.stage_order hx hij hj le_rfl
  · intro done hdone i hbefore t ht stage hid d hd
    exact hedges.unblocked hc hdone hbefore ht hid hd
  · intro t ht i hid j hd
    exact hedges.needed hc ht hid hd

/-- Three chunks of four bytes through a buffer of eight. -/
def threeChunks : Arguments where
  chunks := List.replicate 3 [⟨"read", [⟨"hbm", 2⟩]⟩]
  chunkByteCounts := [4, 4, 4]
  bufferCapacityBytes := 8
  maxInflightChunks := 4
  consumers := none
  requestId := "r"
  name := "p"
  bufferId := "b"
  resourceOwners := .empty
  resourceCapacities := .empty

theorem pipeline_bounded_threeChunks : ∃ plan, planTransferPipeline threeChunks = .ok plan ∧
    plan.tasks.map (fun t => (t.taskId, t.dependencies)) =
      [("p.chunk0000.stage00", []), ("p.chunk0000.stage01", ["p.chunk0000.stage00"]),
        ("p.chunk0001.stage00", ["p.chunk0000.stage00"]),
        ("p.chunk0001.stage01", ["p.chunk0001.stage00", "p.chunk0000.stage01"]),
        ("p.chunk0002.stage00", ["p.chunk0000.stage01", "p.chunk0001.stage00"]),
        ("p.chunk0002.stage01", ["p.chunk0002.stage00", "p.chunk0001.stage01"])] ∧ threeChunks.Bounded plan := by
  have hplan : (planTransferPipeline threeChunks).map (fun plan => plan.tasks.map fun t => (t.taskId, t.dependencies)) =
      .ok [("p.chunk0000.stage00", []), ("p.chunk0000.stage01", ["p.chunk0000.stage00"]),
        ("p.chunk0001.stage00", ["p.chunk0000.stage00"]),
        ("p.chunk0001.stage01", ["p.chunk0001.stage00", "p.chunk0000.stage01"]),
        ("p.chunk0002.stage00", ["p.chunk0000.stage01", "p.chunk0001.stage00"]),
        ("p.chunk0002.stage01", ["p.chunk0002.stage00", "p.chunk0001.stage01"])] := by decide +kernel
  cases h : planTransferPipeline threeChunks with
  | error e => rw [h] at hplan; cases hplan
  | ok plan =>
    rw [h] at hplan
    exact ⟨plan, rfl, Except.ok.inj hplan, pipeline_bounded threeChunks plan h⟩

end Arguments

end HeteroSim.Pipeline
