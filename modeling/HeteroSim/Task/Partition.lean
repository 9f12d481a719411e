/-
The groups of an FR-FCFS window are decided before anything is executed, by
the ranges and operations alone: they are the window cut in order, each free
of conflicts, and executing the window is executing them one after the other.
-/
import HeteroSim.Task.Groups

namespace HeteroSim.Task

variable {σ : Type}

/-- The groups, the one that is being formed first. -/
def partition (anyWrite : Bool) : List (ℕ × AccessRequest) → Grouping → List (List (ℕ × AccessRequest))
  | [], g => [g.group]
  | p :: rest, g =>
    if anyWrite = true ∧ g.clashes p.2 = true then
      g.group :: partition anyWrite rest (Grouping.enter ⟨[], [], [], []⟩ anyWrite p)
    else partition anyWrite rest (g.enter anyWrite p)

/-- The groups one after the other. -/
def runGroups (core : Core σ) : List (List (ℕ × AccessRequest)) → List Executed → EStateM String σ (List Executed)
  | [], finished => pure finished
  | group :: groups, finished => do
    let g ← runGroup core ⟨finished, group, [], []⟩
    runGroups core groups g.finished

variable {core : Core σ} {requests : List AccessRequest} {anyWrite : Bool} {rest : List (ℕ × AccessRequest)}

/-! ## Cutting the window -/

theorem flatten_partition {g : Grouping} : (partition anyWrite rest g).flatten = g.group ++ rest := by
  induction rest generalizing g with
  | nil => simp [partition]
  | cons p rest ih =>
    unfold partition
    split
    · rw [List.flatten_cons, ih]
      rfl
    · rw [ih]
      show g.group ++ [p] ++ rest = g.group ++ p :: rest
      rw [List.append_assoc]
      rfl

/-- No group conflicts with itself. -/
theorem partition_independent (hnone : anyWrite = false → ∀ r ∈ requests, r.operation ≠ .write) {g : Grouping}
    (hg : Formed anyWrite g) (hsource : ∀ p ∈ g.group ++ rest, p.2 ∈ requests) :
    ∀ group ∈ partition anyWrite rest g, group.Pairwise fun p q => ¬p.2.Conflicts q.2 := by
  induction rest generalizing g with
  | nil =>
    intro group hgroup
    rw [partition, List.mem_singleton] at hgroup
    rw [hgroup]
    exact hg.independent
  | cons p rest ih =>
    unfold partition
    split
    · intro group hgroup
      rcases List.mem_cons.1 hgroup with rfl | hgroup
      · exact hg.independent
      · have hnew : Formed anyWrite (Grouping.enter ⟨[], [], [], []⟩ anyWrite p) :=
          Formed.enter ⟨.nil, ⟨separated_nil, separated_nil⟩, by simp⟩ (by simp)
        exact ih hnew (fun q hq => hsource q (List.mem_append_right _ hq)) group hgroup
    · next hstay =>
      have hfree := hg.free hstay fun hany q hq hc => by
        have hq := hnone hany _ (hsource q (List.mem_append_left _ hq))
        have hp := hnone hany _ (hsource p (List.mem_append_right _ List.mem_cons_self))
        exact hc.2.elim hq hp
      refine ih (hg.enter hfree) fun q hq => hsource q ?_
      have hmoved : g.group ++ p :: rest = (g.enter anyWrite p).group ++ rest := by simp [Grouping.enter]
      rw [hmoved]
      exact hq

/-! ## Executing the groups -/

theorem enter_finished (g : Grouping) (p : ℕ × AccessRequest) : (g.enter anyWrite p).finished = g.finished := rfl

/-- What is finished has no part in cutting the window. -/
theorem partition_congr {g g' : Grouping} (hgroup : g.group = g'.group) (hall : g.all = g'.all)
    (hwrites : g.writes = g'.writes) : partition anyWrite rest g = partition anyWrite rest g' := by
  induction rest generalizing g g' with
  | nil => rw [partition, partition, hgroup]
  | cons p rest ih =>
    have hclashes : g.clashes p.2 = g'.clashes p.2 := by rw [Grouping.clashes, Grouping.clashes, hall, hwrites]
    have henter : partition anyWrite rest (g.enter anyWrite p) = partition anyWrite rest (g'.enter anyWrite p) := by
      refine ih ?_ ?_ ?_
      · show g.group ++ [p] = g'.group ++ [p]
        rw [hgroup]
      · simp only [Grouping.enter, hall]
      · simp only [Grouping.enter, hwrites]
    rw [partition, partition, hclashes, hgroup, henter]

theorem runGroup_congr {g g' : Grouping} (hfinished : g.finished = g'.finished) (hgroup : g.group = g'.group) :
    runGroup core g = runGroup core g' := by
  unfold runGroup
  rw [hfinished, hgroup]

theorem groupLoop_eq {g : Grouping} : (groupLoop core anyWrite rest g >>= fun g' => pure g'.finished) =
    runGroups core (partition anyWrite rest g) g.finished := by
  induction rest generalizing g with
  | nil =>
    show (runGroup core g >>= fun g' => pure g'.finished) =
      (runGroup core ⟨g.finished, g.group, [], []⟩ >>= fun g' => runGroups core [] g'.finished)
    rw [runGroup_congr (show g.finished = Grouping.finished ⟨g.finished, g.group, [], []⟩ from rfl) rfl]
    rfl
  | cons p rest ih =>
    rw [groupLoop, settle, partition]
    split
    · -- the group is executed, and the next one begins with the request
      rw [runGroups, runGroup, runGroup]
      simp only [bind_assoc, pure_bind, ih, enter_finished]
      refine congrArg _ (funext fun completions => ?_)
      exact congrArg (fun groups => runGroups core groups _) (partition_congr rfl rfl rfl)
    · rw [pure_bind, ih, enter_finished]

/-- The intervals of added ranges. -/
def addedIntervals (ranges : List (Int × Int)) : List Gap := ranges.foldl (fun l r => intervalsAdd l r.1 r.2) []

/-- **The intervals stay sorted and apart, hold exactly what was added, and
answer every overlap.** -/
theorem addedIntervals_spec {ranges : List (Int × Int)} (h : ∀ r ∈ ranges, r.1 < r.2) :
    Separated (addedIntervals ranges) ∧ ∀ x, Holds (addedIntervals ranges) x ↔ ∃ r ∈ ranges, r.1 ≤ x ∧ x < r.2 := by
  induction ranges using List.reverseRecOn with
  | nil => exact ⟨separated_nil, fun x => by simp [addedIntervals, Holds]⟩
  | append_singleton ranges r ih =>
    obtain ⟨hsep, hholds⟩ := ih fun q hq => h q (List.mem_append_left _ hq)
    obtain ⟨hsep', hholds'⟩ := intervalsAdd_spec hsep (h r (by simp))
    have hadd : addedIntervals (ranges ++ [r]) = intervalsAdd (addedIntervals ranges) r.1 r.2 := by
      rw [addedIntervals, List.foldl_append]
      rfl
    rw [hadd]
    refine ⟨hsep', fun x => ?_⟩
    rw [hholds', hholds]
    simp only [List.mem_append, List.mem_singleton, or_and_right, exists_or, exists_eq_left]

theorem addedIntervals_overlap {ranges : List (Int × Int)} (h : ∀ r ∈ ranges, r.1 < r.2) {left right : Int}
    (hlt : left < right) :
    intervalsOverlap (addedIntervals ranges) left right = true ↔ ∃ r ∈ ranges, r.1 < right ∧ left < r.2 := by
  obtain ⟨hsep, hholds⟩ := addedIntervals_spec h
  rw [intervalsOverlap_iff hsep hlt]
  constructor
  · rintro ⟨k, hk, hlo, hhi⟩
    -- the larger of the two first places is in the interval and in the range
    have hproper := hsep.proper k hk
    obtain ⟨r, hr, hle, hlt'⟩ := (hholds (max left k.lo)).1 ⟨k, hk, le_max_right _ _, max_lt hhi hproper⟩
    exact ⟨r, hr, by omega, by omega⟩
  · rintro ⟨r, hr, hlo, hhi⟩
    have hproper := h r hr
    obtain ⟨k, hk, hle, hlt'⟩ := (hholds (max left r.1)).2 ⟨r, hr, le_max_right _ _, max_lt hhi hproper⟩
    exact ⟨k, hk, by omega, by omega⟩

/-! ## The whole window -/

/-- **FR-FCFS grouping is complete and free of hazards.** The window is cut
in order into groups without conflicts, which are executed one after the
other; a request is executed after what it conflicts with before it; and the
intervals the groups are cut by are exact. -/
theorem frFcfs_hazardFree (core : Core σ) (requests : List AccessRequest) :
    (∃ groups, groups.flatten = places requests ∧
      (∀ group ∈ groups, group.Pairwise fun p q => ¬p.2.Conflicts q.2) ∧
      submitFrFcfs core requests = runGroups core groups []) ∧
    Returns (submitFrFcfs core requests) (Orderly requests) ∧
    ∀ ranges : List (Int × Int), (∀ r ∈ ranges, r.1 < r.2) →
      (Separated (addedIntervals ranges) ∧
        ∀ x, Holds (addedIntervals ranges) x ↔ ∃ r ∈ ranges, r.1 ≤ x ∧ x < r.2) ∧
      ∀ left right, left < right →
        (intervalsOverlap (addedIntervals ranges) left right = true ↔ ∃ r ∈ ranges, r.1 < right ∧ left < r.2) := by
  refine ⟨⟨partition (requests.any fun r => decide (r.operation = .write)) (places requests) ⟨[], [], [], []⟩,
    flatten_partition, ?_, groupLoop_eq⟩, submitFrFcfs_orderly requests, fun ranges h =>
      ⟨addedIntervals_spec h, fun left right hlt => addedIntervals_overlap h hlt⟩⟩
  have hnone : (requests.any fun r => decide (r.operation = .write)) = false → ∀ r ∈ requests, r.operation ≠ .write := by
    intro h r hr hw
    exact List.any_eq_false.1 h r hr (decide_eq_true hw)
  exact partition_independent hnone ⟨.nil, ⟨separated_nil, separated_nil⟩, by simp⟩ fun p hp =>
    List.mem_of_getElem? (mem_places hp)

end HeteroSim.Task
