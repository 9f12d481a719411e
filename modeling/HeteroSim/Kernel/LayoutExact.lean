/-
What the check of a layout accepts. Every field but the texts of the times
is recomputed and compared, so what is accepted is what would be compiled;
but the check also refuses a dependent listed twice, which is what compiling
makes of a repeated dependency, and it does not look for cycles.
-/
import HeteroSim.Kernel.Layout

namespace HeteroSim.Kernel

variable {φ : Type} {T : FloatText φ} {tasks : List (TaskSpec φ)} {deps : List (List ℕ)}

/-! ## Dependencies as positions -/

theorem mapM_some_iff {α β : Type} {f : α → Option β} : ∀ {l : List α} {r : List β},
    l.mapM f = some r ↔ List.Forall₂ (fun a b => f a = some b) l r
  | [], r => by
    rw [List.mapM_nil, List.forall₂_nil_left_iff]
    exact ⟨fun h => (Option.some.inj h).symm, fun h => by rw [h]; rfl⟩
  | a :: l, r => by
    rw [List.mapM_cons, List.forall₂_cons_left_iff]
    constructor
    · intro h
      obtain ⟨b, hb, h⟩ := Option.bind_eq_some_iff.1 h
      obtain ⟨u, hu, h⟩ := Option.bind_eq_some_iff.1 h
      exact ⟨b, u, hb, mapM_some_iff.1 hu, (Option.some.inj h).symm⟩
    · rintro ⟨b, u, hb, hu, rfl⟩
      exact Option.bind_eq_some_iff.2 ⟨b, hb, Option.bind_eq_some_iff.2 ⟨u, mapM_some_iff.2 hu, rfl⟩⟩

/-- A list is mapped whole exactly when every entry is. -/
theorem exists_mapM_iff {α β : Type} {f : α → Option β} {l : List α} :
    (∃ r, l.mapM f = some r) ↔ ∀ a ∈ l, ∃ b, f a = some b := by
  induction l with
  | nil => exact ⟨fun _ a ha => absurd ha List.not_mem_nil, fun _ => ⟨[], rfl⟩⟩
  | cons a l ih =>
    rw [List.forall_mem_cons, ← ih]
    constructor
    · rintro ⟨r, hr⟩
      obtain ⟨b, u, hb, hu, rfl⟩ := List.forall₂_cons_left_iff.1 (mapM_some_iff.1 hr)
      exact ⟨⟨b, hb⟩, u, mapM_some_iff.2 hu⟩
    · rintro ⟨⟨b, hb⟩, u, hu⟩
      exact ⟨b :: u, mapM_some_iff.2 (.cons hb (mapM_some_iff.1 hu))⟩

theorem taskPositions_get? (hn : (tasks.map (·.taskId)).Nodup) {d : String} {p : ℕ} :
    (taskPositions tasks).get? d = some p ↔ tasks[p]?.map (·.taskId) = some d := by
  have hfst : ((tasks.zipIdx.map fun p => (p.1.taskId, p.2)).map Prod.fst) = tasks.map (·.taskId) := by
    rw [List.map_map]
    exact (List.map_map (f := Prod.fst) (g := (·.taskId)) (l := tasks.zipIdx)).symm.trans (by rw [List.zipIdx_map_fst])
  rw [Dict.get?_eq_some, taskPositions, Dict.items_collect (by rw [hfst]; exact hn), List.mem_map, Option.map_eq_some_iff]
  constructor
  · rintro ⟨⟨t, i⟩, hmem, he⟩
    obtain ⟨rfl, rfl⟩ := Prod.mk.inj he
    exact ⟨t, List.mem_zipIdx_iff_getElem?.1 hmem, rfl⟩
  · rintro ⟨t, ht, rfl⟩
    exact ⟨(t, p), List.mem_zipIdx_iff_getElem?.2 ht, rfl⟩

theorem dependencyPositions_some : dependencyPositions tasks = some deps ↔
    List.Forall₂ (fun t ds => List.Forall₂ (fun d p => (taskPositions tasks).get? d = some p) t.dependencies ds) tasks deps := by
  rw [dependencyPositions, mapM_some_iff]
  simp only [mapM_some_iff]

/-- No task names a dependency twice. -/
def NoRepeats (tasks : List (TaskSpec φ)) : Prop := ∀ t ∈ tasks, t.dependencies.Nodup

/-- The dependencies of distinct tasks, found. -/
structure Located (tasks : List (TaskSpec φ)) (deps : List (List ℕ)) : Prop where
  nodup : (tasks.map (·.taskId)).Nodup
  found : dependencyPositions tasks = some deps

theorem Located.length (h : Located tasks deps) : deps.length = tasks.length :=
  (dependencyPositions_some.1 h.found).length_eq.symm

/-- The positions of a task's dependencies are where the dependencies are. -/
theorem Located.at (h : Located tasks deps) : List.Forall₂ (fun t ds =>
    List.Forall₂ (fun d (p : ℕ) => tasks[p]?.map (·.taskId) = some d) t.dependencies ds) tasks deps := by
  refine (dependencyPositions_some.1 h.found).imp fun t ds hds => ?_
  exact hds.imp fun d p hp => (taskPositions_get? h.nodup).1 hp

theorem forall₂_of_mem_right {α β : Type} {R : α → β → Prop} {l : List α} {r : List β} (h : List.Forall₂ R l r) {b : β}
    (hb : b ∈ r) : ∃ a ∈ l, R a b := by
  induction h with
  | nil => cases hb
  | cons hR _ ih =>
    rcases List.mem_cons.1 hb with rfl | hb
    · exact ⟨_, List.mem_cons_self, hR⟩
    · obtain ⟨a, ha, hab⟩ := ih hb
      exact ⟨a, List.mem_cons_of_mem _ ha, hab⟩

theorem forall₂_of_mem_left {α β : Type} {R : α → β → Prop} {l : List α} {r : List β} (h : List.Forall₂ R l r) {a : α}
    (ha : a ∈ l) : ∃ b ∈ r, R a b := by
  induction h with
  | nil => cases ha
  | cons hR _ ih =>
    rcases List.mem_cons.1 ha with rfl | ha
    · exact ⟨_, List.mem_cons_self, hR⟩
    · obtain ⟨b, hb, hab⟩ := ih ha
      exact ⟨b, List.mem_cons_of_mem _ hb, hab⟩

theorem Located.lt (h : Located tasks deps) {ds : List ℕ} (hds : ds ∈ deps) {p : ℕ} (hp : p ∈ ds) : p < tasks.length := by
  obtain ⟨t, -, hrel⟩ := forall₂_of_mem_right h.at hds
  obtain ⟨d, -, hat⟩ := forall₂_of_mem_right hrel hp
  obtain ⟨u, hu, -⟩ := Option.map_eq_some_iff.1 hat
  exact (List.getElem?_eq_some_iff.1 hu).1

/-- Where ids are distinct, a dependency and its position determine each
other, so a repeat of one is a repeat of the other. -/
theorem Located.noRepeats_iff (h : Located tasks deps) : NoRepeats tasks ↔ ∀ ds ∈ deps, ds.Nodup := by
  have hunique : Relator.BiUnique fun d (p : ℕ) => tasks[p]?.map (·.taskId) = some d := by
    constructor
    · intro d e p hd he
      exact Option.some.inj (hd.symm.trans he)
    · intro d p q hp hq
      have hp := (taskPositions_get? h.nodup).2 hp
      have hq := (taskPositions_get? h.nodup).2 hq
      exact Option.some.inj (hp.symm.trans hq)
  constructor
  · intro hno ds hds
    obtain ⟨t, ht, hrel⟩ := forall₂_of_mem_right h.at hds
    exact (List.rel_nodup hunique hrel).1 (hno t ht)
  · intro hall t ht
    obtain ⟨ds, hds, hrel⟩ := forall₂_of_mem_left h.at ht
    exact (List.rel_nodup hunique hrel).2 (hall ds hds)

/-- Every dependency is found exactly when every dependency is a task. -/
theorem located_iff_closed (hn : (tasks.map (·.taskId)).Nodup) : (∃ deps, Located tasks deps) ↔ Closed tasks := by
  have hfound : (∃ deps, Located tasks deps) ↔ ∃ deps, dependencyPositions tasks = some deps :=
    exists_congr fun deps => ⟨fun h => h.found, fun h => ⟨hn, h⟩⟩
  rw [hfound]
  show (∃ deps, tasks.mapM _ = some deps) ↔ _
  rw [exists_mapM_iff]
  refine forall₂_congr fun t _ => ?_
  rw [exists_mapM_iff]
  refine forall₂_congr fun d _ => ?_
  simp only [taskPositions_get? hn, Option.map_eq_some_iff]
  constructor
  · rintro ⟨p, t, ht, rfl⟩
    exact List.mem_map_of_mem (List.mem_of_getElem? ht)
  · intro hd
    obtain ⟨t, ht, rfl⟩ := List.mem_map.1 hd
    obtain ⟨p, hp⟩ := List.getElem?_of_mem ht
    exact ⟨p, t, hp, rfl⟩

/-! ## Dependents -/

theorem getElem?_appendDependent {lists : List (List ℕ)} {j : ℕ} {ds : List ℕ} {p : ℕ} :
    (appendDependent lists j ds)[p]? = lists[p]?.map (· ++ List.replicate (ds.count p) j) := by
  induction ds generalizing lists with
  | nil => simp [appendDependent]
  | cons d ds ih =>
    show (appendDependent (lists.modify d (· ++ [j])) j ds)[p]? = _
    rw [ih, List.getElem?_modify, List.count_cons]
    by_cases hd : d = p
    · simp [hd, List.replicate_succ, Function.comp_def]
    · simp [hd]

/-- The dependents of a position: each task as often as it names it. -/
def dependentsOf (dependencies : List (List ℕ)) (p : ℕ) : List ℕ :=
  dependencies.zipIdx.flatMap fun q => List.replicate (q.1.count p) q.2

theorem getElem?_foldl_appendDependent {l : List (List ℕ × ℕ)} {lists : List (List ℕ)} {p : ℕ} :
    (l.foldl (fun lists q => appendDependent lists q.2 q.1) lists)[p]? =
      lists[p]?.map (· ++ l.flatMap fun q => List.replicate (q.1.count p) q.2) := by
  induction l generalizing lists with
  | nil => simp
  | cons q l ih =>
    rw [List.foldl_cons, ih, getElem?_appendDependent, List.flatMap_cons, Option.map_map]
    simp [Function.comp_def, List.append_assoc]

theorem dependentLists_eq : dependentLists deps = (List.range deps.length).map (dependentsOf deps) := by
  refine List.ext_getElem? fun p => ?_
  rw [dependentLists, getElem?_foldl_appendDependent, List.getElem?_replicate, List.getElem?_map]
  by_cases hp : p < deps.length
  · simp [hp, dependentsOf]
  · simp [hp]

theorem mem_dependentsOf {p j : ℕ} (hj : j ∈ dependentsOf deps p) : j < deps.length := by
  obtain ⟨⟨ds, i⟩, hq, hj⟩ := List.mem_flatMap.1 hj
  rw [List.eq_of_mem_replicate hj]
  exact List.snd_lt_of_mem_zipIdx hq

theorem nodup_dependentsOf {p : ℕ} : (dependentsOf deps p).Nodup ↔ ∀ ds ∈ deps, ds.count p ≤ 1 := by
  have hdistinct : deps.zipIdx.Pairwise fun q r => q.2 ≠ r.2 := by
    have hsnd : (deps.zipIdx.map Prod.snd).Nodup := by
      rw [List.zipIdx_map_snd]
      exact List.nodup_range' 
    exact List.pairwise_map.1 hsnd
  rw [dependentsOf, List.nodup_flatMap]
  constructor
  · rintro ⟨hall, -⟩ ds hds
    obtain ⟨i, hi⟩ := List.getElem?_of_mem hds
    exact List.nodup_replicate.1 (hall (ds, i) (List.mem_zipIdx_iff_getElem?.2 hi))
  · intro hall
    refine ⟨fun q hq => List.nodup_replicate.2 (hall q.1 (List.fst_mem_of_mem_zipIdx hq)), hdistinct.imp ?_⟩
    intro q r hqr x hx hx'
    exact hqr ((List.eq_of_mem_replicate hx).symm.trans (List.eq_of_mem_replicate hx'))

/-- **No dependent is listed twice exactly when no task repeats a dependency.** -/
theorem Located.nodup_dependents (h : Located tasks deps) :
    (∀ row ∈ dependentLists deps, row.Nodup) ↔ NoRepeats tasks := by
  rw [h.noRepeats_iff, dependentLists_eq, List.forall_mem_map]
  constructor
  · intro hall ds hds
    refine List.nodup_iff_count_le_one.2 fun p => ?_
    by_cases hp : p ∈ ds
    · exact nodup_dependentsOf.1 (hall p (List.mem_range.2 (h.length ▸ h.lt hds hp))) ds hds
    · rw [List.count_eq_zero.2 hp]
      exact Nat.zero_le 1
  · intro hall p _
    exact nodup_dependentsOf.2 fun ds hds => List.nodup_iff_count_le_one.1 (hall ds hds) p

/-! ## Orders -/

theorem perm_sortByTaskId (positions : List ℕ) : (sortByTaskId tasks positions).Perm positions :=
  List.perm_insertionSort _ _

theorem perm_demandOrder (ids : List String) : (demandOrder ids).Perm (List.range ids.length) :=
  List.perm_insertionSort _ _

theorem mem_ints {l : List ℕ} {p : Int} : p ∈ ints l ↔ ∃ n ∈ l, (n : Int) = p := List.mem_map

theorem nodup_ints {l : List ℕ} : (ints l).Nodup ↔ l.Nodup := List.nodup_map_iff Nat.cast_injective

theorem length_ints {l : List ℕ} : (ints l).length = l.length := List.length_map ..

theorem map_ints_injective : Function.Injective (List.map ints) :=
  List.map_injective_iff.2 (List.map_injective_iff.2 Nat.cast_injective)

/-- A list of positions below the count is valid. -/
theorem validPosition_ints {l : CompiledGraphLayout} {n : ℕ} (hn : l.taskCount = n) {positions : List ℕ}
    (hlt : ∀ p ∈ positions, p < n) : ¬∃ p ∈ ints positions, ¬l.ValidPosition p := by
  rintro ⟨p, hp, hinvalid⟩
  obtain ⟨m, hm, rfl⟩ := mem_ints.1 hp
  refine hinvalid ⟨Int.natCast_nonneg m, ?_⟩
  rw [hn]
  exact Int.ofNat_lt.2 (hlt m hm)

/-! ## The check -/

theorem checkTexts_hex {texts : List φ} : checkTexts T (texts.map T.hex) = .ok () := by
  induction texts with
  | nil => rfl
  | cons x texts ih =>
    show checkTexts T (T.hex x :: texts.map T.hex) = .ok ()
    rw [checkTexts]
    exact bind_ok.2 ⟨true, T.isFiniteText_hex x, bind_ok.2 ⟨(), (refuse_ok (u := ())).2 (by decide), ih⟩⟩

/-- The loop over the tasks returns the dependencies as positions. -/
theorem checkTasks_ok {l : CompiledGraphLayout} {positions : Dict String ℕ} {tasks : List (TaskSpec φ)}
    {rows orders : List (List Int)} {deps : List (List ℕ)}
    (hok : checkTasks l positions tasks rows orders = .ok deps) :
    tasks.mapM (fun t => t.dependencies.mapM positions.get?) = some deps := by
  induction tasks generalizing rows orders deps with
  | nil =>
    rw [checkTasks, Except.ok.injEq] at hok
    rw [← hok]
    rfl
  | cons task tasks ih =>
    cases rows with
    | nil => cases hok
    | cons row rows =>
      cases orders with
      | nil => cases hok
      | cons order orders =>
        rw [checkTasks] at hok
        obtain ⟨ds, hds, hok⟩ := bind_ok.1 hok
        obtain ⟨_, -, hok⟩ := bind_ok.1 hok
        obtain ⟨_, -, hok⟩ := bind_ok.1 hok
        obtain ⟨_, -, hok⟩ := bind_ok.1 hok
        obtain ⟨rest, hrest, hok⟩ := bind_ok.1 hok
        have hfound : task.dependencies.mapM positions.get? = some ds := by
          cases hm : task.dependencies.mapM positions.get? with
          | none => rw [hm] at hds; cases hds
          | some ds' => rw [hm] at hds; exact congrArg some (Except.ok.inj hds)
        obtain rfl : ds :: rest = deps := Except.ok.inj hok
        exact mapM_some_iff.2 (.cons hfound (mapM_some_iff.1 (ih hrest)))

/-- It passes on the fields that are derived. -/
theorem checkTasks_derived {l : CompiledGraphLayout} {positions : Dict String ℕ} {n : ℕ} (hn : l.taskCount = n)
    {tasks : List (TaskSpec φ)} {deps : List (List ℕ)}
    (hfound : tasks.mapM (fun t => t.dependencies.mapM positions.get?) = some deps) (hlt : ∀ ds ∈ deps, ∀ p ∈ ds, p < n) :
    checkTasks l positions tasks (deps.map ints) ((demandResourceIds tasks).map fun ids => ints (demandOrder ids)) =
      .ok deps := by
  induction tasks generalizing deps with
  | nil =>
    obtain rfl := List.forall₂_nil_left_iff.1 (mapM_some_iff.1 hfound)
    rfl
  | cons task tasks ih =>
    obtain ⟨ds, rest, hds, hrest, rfl⟩ := List.forall₂_cons_left_iff.1 (mapM_some_iff.1 hfound)
    obtain ⟨hhead, htail⟩ := List.forall_mem_cons.1 hlt
    have horder := perm_demandOrder (task.demands.map (·.resourceId))
    rw [List.length_map] at horder
    show checkTasks l positions (task :: tasks) (ints ds :: rest.map ints)
      (ints (demandOrder (task.demands.map (·.resourceId))) :: (demandResourceIds tasks).map _) = _
    rw [checkTasks, hds]
    refine bind_ok.2 ⟨ds, rfl, bind_ok.2 ⟨(), (refuse_ok (u := ())).2 (validPosition_ints hn hhead), ?_⟩⟩
    refine bind_ok.2 ⟨(), (refuse_ok (u := ())).2 ?_, bind_ok.2 ⟨(), (refuse_ok (u := ())).2 ?_, ?_⟩⟩
    · rintro ⟨p, hp, hout⟩
      obtain ⟨m, hm, rfl⟩ := mem_ints.1 hp
      exact hout ⟨Int.natCast_nonneg m, Int.ofNat_lt.2 (List.mem_range.1 (horder.mem_iff.1 hm))⟩
    · rw [not_not, nodup_ints]
      exact horder.nodup_iff.2 List.nodup_range
    · exact bind_ok.2 ⟨rest, ih (mapM_some_iff.2 hrest) htail, rfl⟩

end HeteroSim.Kernel
