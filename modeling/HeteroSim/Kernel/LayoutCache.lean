/-
The executor that keeps compiled layouts (`event_kernel.py`): bounded, the
least recently used making room. A hit skips the validation and returns what
was stored under the key.
-/
import HeteroSim.Kernel.LayoutCheck
import HeteroSim.Memo
import HeteroSim.Raising

namespace HeteroSim.Kernel

variable {φ : Type}

structure CompiledGraphExecutor where
  maxLayouts : Int
  layouts : Dict StructureKey CompiledGraphLayout
  hits : ℕ
  misses : ℕ
  fallbacks : ℕ

namespace CompiledGraphExecutor

/-- `__init__` -/
def create (maxLayouts : Int) : Except String CompiledGraphExecutor := do
  refuse (maxLayouts ≤ 0) "max_layouts must be positive"
  pure ⟨maxLayouts, .empty, 0, 0, 0⟩

/-- `popitem(last=False)` -/
def popOldest (d : Dict StructureKey CompiledGraphLayout) : Dict StructureKey CompiledGraphLayout :=
  ⟨d.items.tail, d.nodup.sublist ((List.tail_sublist _).map _)⟩

/-- A layout stored as the newest, with room made for it. -/
def store (s : CompiledGraphExecutor) (layout : CompiledGraphLayout) : CompiledGraphExecutor :=
  let layouts := (s.layouts.insert layout.structureSignature layout).moveToEnd layout.structureSignature
  { s with layouts := if (layouts.items.length : Int) > s.maxLayouts then popOldest layouts else layouts }

/-- The lookup, which a list without a key passes by. -/
def cached (T : FloatText φ) (s : CompiledGraphExecutor) (tasks : List (TaskSpec φ)) :
    Option (StructureKey × CompiledGraphLayout) := do
  let key ← structureKey T tasks
  let layout ← s.layouts.get? key
  pure (key, layout)

/-- `_compiled_layout` -/
def compiledLayout (T : FloatText φ) (tasks : List (TaskSpec φ)) :
    EStateM GraphError CompiledGraphExecutor (List (TaskSpec φ) × CompiledGraphLayout) := do
  let s ← get
  match cached T s tasks with
  | some (key, layout) =>
    set { s with layouts := s.layouts.moveToEnd key, hits := s.hits + 1 }
    pure (tasks, layout)
  | none =>
    set { s with
      misses := s.misses + 1
      fallbacks := if s.layouts.items ≠ [] then s.fallbacks + 1 else s.fallbacks }
    let layout ← raise (compile T tasks)
    modify fun s => s.store layout
    pure (tasks, layout)

/-- What the calls of a history return or raise, one after the other. -/
def results (T : FloatText φ) : CompiledGraphExecutor → List (List (TaskSpec φ)) →
    List (Except GraphError (List (TaskSpec φ) × CompiledGraphLayout))
  | _, [] => []
  | s, tasks :: calls =>
    match compiledLayout T tasks s with
    | .ok result s' => .ok result :: results T s' calls
    | .error e s' => .error e :: results T s' calls

end CompiledGraphExecutor

/-! ## The key determines the layout -/

variable {T : FloatText φ} {tasks tasks' : List (TaskSpec φ)} {deps deps' : List (List ℕ)}

theorem structureKey_some {key : StructureKey} : structureKey T tasks = some key ↔
    ∃ deps, Located tasks deps ∧ key = (layoutOf T tasks deps).structureSignature := by
  rw [structureKey]
  split
  · next hn =>
    rw [Option.map_eq_some_iff]
    constructor
    · rintro ⟨deps, hdeps, rfl⟩
      exact ⟨deps, ⟨hn, hdeps⟩, rfl⟩
    · rintro ⟨deps, h, rfl⟩
      exact ⟨deps, h.found, rfl⟩
  · next hn => exact ⟨fun h => (by cases h), fun ⟨_, h, _⟩ => absurd h.nodup hn⟩

theorem taskIdAt_of_lt {p : ℕ} (hp : p < tasks.length) : taskIdAt tasks p = tasks[p].taskId := by
  rw [taskIdAt, List.getElem?_eq_getElem hp]
  rfl

theorem taskIdAt_inj (hn : (tasks.map (·.taskId)).Nodup) {p q : ℕ} (hp : p < tasks.length) (hq : q < tasks.length)
    (he : taskIdAt tasks p = taskIdAt tasks q) : p = q := by
  rw [taskIdAt_of_lt hp, taskIdAt_of_lt hq] at he
  have hp' : p < (tasks.map (·.taskId)).length := by rw [List.length_map]; exact hp
  have hq' : q < (tasks.map (·.taskId)).length := by rw [List.length_map]; exact hq
  have hsame : (tasks.map (·.taskId))[p] = (tasks.map (·.taskId))[q] := by
    rw [List.getElem_map, List.getElem_map, he]
  exact hn.getElem_inj_iff.1 hsame

/-- Two positions of one list compare as in the other, either way round. -/
def ComparedAlike (tasks tasks' : List (TaskSpec φ)) (i j : ℕ) : Prop := i < tasks.length → j < tasks.length →
  (taskIdAt tasks i ≤ taskIdAt tasks j ↔ taskIdAt tasks' i ≤ taskIdAt tasks' j) ∧
    (taskIdAt tasks j ≤ taskIdAt tasks i ↔ taskIdAt tasks' j ≤ taskIdAt tasks' i)

/-- Where the order of the ids is the same, any two ids compare alike. -/
theorem taskIdAt_le_iff (hn : (tasks.map (·.taskId)).Nodup) (hn' : (tasks'.map (·.taskId)).Nodup)
    (hlength : tasks.length = tasks'.length) (horder : taskIdOrder tasks = taskIdOrder tasks') {p q : ℕ}
    (hp : p < tasks.length) (hq : q < tasks.length) :
    taskIdAt tasks p ≤ taskIdAt tasks q ↔ taskIdAt tasks' p ≤ taskIdAt tasks' q := by
  by_cases hne : p = q
  · rw [hne]
    exact iff_of_true le_rfl le_rfl
  have hsorted : (taskIdOrder tasks).Pairwise fun i j => taskIdAt tasks i ≤ taskIdAt tasks j :=
    List.pairwise_insertionSort _ _
  have hsorted' : (taskIdOrder tasks).Pairwise fun i j => taskIdAt tasks' i ≤ taskIdAt tasks' j := by
    rw [horder]
    exact List.pairwise_insertionSort _ _
  have hmem : ∀ {i}, i < tasks.length → i ∈ taskIdOrder tasks := fun hi =>
    (perm_sortByTaskId _).mem_iff.2 (List.mem_range.2 hi)
  -- Two places in the order are compared once, in the order they stand in.
  have hboth := (show (taskIdOrder tasks).Nodup from nodup_taskIdOrder).and (hsorted.and hsorted')
  have halike : (taskIdOrder tasks).Pairwise (ComparedAlike tasks tasks') := by
    refine hboth.imp ?_
    rintro i j ⟨hij, hle, hle'⟩ hi hj
    refine ⟨iff_of_true hle hle', iff_of_false ?_ ?_⟩
    · intro hge
      exact hij (taskIdAt_inj hn hi hj (le_antisymm hle hge))
    · intro hge
      exact hij (taskIdAt_inj hn' (hlength ▸ hi) (hlength ▸ hj) (le_antisymm hle' hge))
  have : Std.Symm (ComparedAlike tasks tasks') := ⟨fun i j h hj hi => ⟨(h hi hj).2, (h hi hj).1⟩⟩
  exact (halike.forall (hmem hp) (hmem hq) hne hp hq).1

theorem sortByTaskId_congr (hn : (tasks.map (·.taskId)).Nodup) (hn' : (tasks'.map (·.taskId)).Nodup)
    (hlength : tasks.length = tasks'.length) (horder : taskIdOrder tasks = taskIdOrder tasks') {positions : List ℕ}
    (hlt : ∀ p ∈ positions, p < tasks.length) : sortByTaskId tasks positions = sortByTaskId tasks' positions := by
  have hmap := List.map_insertionSort (fun i j => taskIdAt tasks i ≤ taskIdAt tasks j)
    (fun i j => taskIdAt tasks' i ≤ taskIdAt tasks' j) id positions
    fun p hp q hq => taskIdAt_le_iff hn hn' hlength horder (hlt p hp) (hlt q hq)
  rw [List.map_id, List.map_id] at hmap
  exact hmap

/-- **The key determines every field of the layout.** -/
theorem layoutOf_congr (h : Located tasks deps) (h' : Located tasks' deps')
    (hkey : (layoutOf T tasks deps).structureSignature = (layoutOf T tasks' deps').structureSignature) :
    layoutOf T tasks deps = layoutOf T tasks' deps' := by
  simp only [CompiledGraphLayout.structureSignature, layoutOf, Prod.mk.injEq] at hkey
  obtain ⟨hcount, hdeps, horder, htexts, hdemands⟩ := hkey
  have hlength : tasks.length = tasks'.length := Int.ofNat_inj.1 hcount
  have hids : taskIdOrder tasks = taskIdOrder tasks' := List.map_injective_iff.2 Nat.cast_injective horder
  obtain rfl : deps = deps' := map_ints_injective hdeps
  have hdependents : dependentPositions tasks deps = dependentPositions tasks' deps := by
    refine List.map_congr_left fun row hrow => sortByTaskId_congr h.nodup h'.nodup hlength hids fun p hp => ?_
    rw [dependentLists_eq] at hrow
    obtain ⟨q, -, rfl⟩ := List.mem_map.1 hrow
    rw [← h.length]
    exact mem_dependentsOf hp
  simp only [layoutOf, hlength, hids, htexts, hdemands, hdependents]

/-! ## The key determines whether there is a cycle -/

/-- The dependencies, between positions. -/
def Links (deps : List (List ℕ)) (i j : ℕ) : Prop := ∃ ds, deps[i]? = some ds ∧ j ∈ ds

/-- The ids have a cycle exactly if their positions do. -/
theorem Located.acyclic_iff (h : Located tasks deps) : Acyclic (DependsOn tasks) ↔ Acyclic (Links deps) := by
  have hlinks : ∀ (i : ℕ) (t : TaskSpec φ), tasks[i]? = some t → ∃ ds, deps[i]? = some ds ∧
      List.Forall₂ (fun d (p : ℕ) => tasks[p]?.map (·.taskId) = some d) t.dependencies ds := by
    intro i t ht
    obtain ⟨hi, rfl⟩ := List.getElem?_eq_some_iff.1 ht
    have hi' : i < deps.length := h.length ▸ hi
    exact ⟨deps[i], List.getElem?_eq_getElem hi', (List.forall₂_iff_get.1 h.at).2 i hi hi'⟩
  constructor
  · rintro ⟨rank, hrank⟩
    refine ⟨fun p => rank (taskIdAt tasks p), ?_⟩
    rintro i j ⟨ds, hds, hj⟩
    have hi : i < tasks.length := h.length ▸ (List.getElem?_eq_some_iff.1 hds).1
    obtain ⟨ds', hds', hrel⟩ := hlinks i tasks[i] (List.getElem?_eq_getElem hi)
    obtain rfl : ds = ds' := Option.some.inj (hds.symm.trans hds')
    obtain ⟨d, hd, hat⟩ := forall₂_of_mem_right hrel hj
    have hjd : taskIdAt tasks j = d := by rw [taskIdAt, hat]; rfl
    show rank (taskIdAt tasks j) < rank (taskIdAt tasks i)
    rw [hjd, taskIdAt_of_lt hi]
    exact hrank _ _ ⟨tasks[i], List.getElem_mem hi, rfl, hd⟩
  · rintro ⟨rank, hrank⟩
    refine ⟨fun id => ((taskPositions tasks).get? id).elim 0 rank, ?_⟩
    rintro _ d ⟨t, ht, rfl, hd⟩
    obtain ⟨i, hi⟩ := List.getElem?_of_mem ht
    obtain ⟨ds, hds, hrel⟩ := hlinks i t hi
    obtain ⟨p, hp, hat⟩ := forall₂_of_mem_left hrel hd
    have hti : (taskPositions tasks).get? t.taskId = some i := (taskPositions_get? h.nodup).2 (by rw [hi]; rfl)
    show ((taskPositions tasks).get? d).elim 0 rank < ((taskPositions tasks).get? t.taskId).elim 0 rank
    rw [hti, (taskPositions_get? h.nodup).2 hat]
    exact hrank i p ⟨ds, hds, hp⟩

/-- **Compiling goes by the key**: what is filed under a key is the layout of
every graph with that key, and each of them is valid. -/
theorem compile_keyed (T : FloatText φ) :
    Memo.Keyed (compile T) (structureKey T) CompiledGraphLayout.structureSignature := by
  constructor
  · intro tasks l hl
    obtain ⟨-, deps, h, rfl⟩ := compile_ok.1 hl
    exact structureKey_some.2 ⟨deps, h, rfl⟩
  · intro tasks tasks' l hl hkey
    obtain ⟨hacyclic, deps, h, rfl⟩ := compile_ok.1 hl
    obtain ⟨deps', h', hsame⟩ := structureKey_some.1 (hkey.trans (structureKey_some.2 ⟨deps, h, rfl⟩))
    have hlayout := layoutOf_congr h h' hsame
    obtain rfl : deps = deps' := map_ints_injective (congrArg CompiledGraphLayout.dependencyPositions hlayout)
    exact compile_ok.2 ⟨h'.acyclic_iff.2 (h.acyclic_iff.1 hacyclic), deps, h', hlayout⟩

/-! ## Histories -/

namespace CompiledGraphExecutor

/-- Every layout that is kept is one that was compiled, under its signature. -/
def Faithful (T : FloatText φ) (s : CompiledGraphExecutor) : Prop :=
  Memo.Faithful (compile T) CompiledGraphLayout.structureSignature s.layouts

variable {s : CompiledGraphExecutor} {layout : CompiledGraphLayout}

theorem Faithful.store (h : s.Faithful T) (hcompiled : compile T tasks = .ok layout) : (s.store layout).Faithful T := by
  have hmoved : Memo.Faithful (compile T) CompiledGraphLayout.structureSignature
      ((s.layouts.insert layout.structureSignature layout).moveToEnd layout.structureSignature) := by
    refine (Memo.Faithful.insert h hcompiled).mono fun k l hl => ?_
    rw [Memo.get?_moveToEnd] at hl
    exact hl
  rw [Faithful, CompiledGraphExecutor.store]
  dsimp only
  split
  · refine hmoved.mono fun k l hl => ?_
    exact Memo.get?_of_tail hl
  · exact hmoved

/-- The state from which a miss compiles. -/
def counted (s : CompiledGraphExecutor) : CompiledGraphExecutor :=
  { s with
    misses := s.misses + 1
    fallbacks := if s.layouts.items ≠ [] then s.fallbacks + 1 else s.fallbacks }

/-- **A call returns or raises as compiling does**, on a hit as on a miss. -/
theorem Faithful.compiledLayout (h : s.Faithful T) (tasks : List (TaskSpec φ)) : ∃ s' : CompiledGraphExecutor,
    s'.Faithful T ∧ compiledLayout T tasks s = raise ((compile T tasks).map fun layout => (tasks, layout)) s' := by
  unfold CompiledGraphExecutor.compiledLayout
  rw [get_then]
  cases hcached : cached T s tasks with
  | some found =>
    obtain ⟨key, layout⟩ := found
    obtain ⟨key', hkey, hfound⟩ := Option.bind_eq_some_iff.1 hcached
    obtain ⟨layout', hlayout, hpair⟩ := Option.bind_eq_some_iff.1 hfound
    obtain ⟨rfl, rfl⟩ := Prod.mk.inj (Option.some.inj hpair)
    have hcompiled := Memo.Faithful.lookup h (compile_keyed T) hkey hlayout
    refine ⟨{ s with layouts := s.layouts.moveToEnd key', hits := s.hits + 1 }, ?_, ?_⟩
    · refine Memo.Faithful.mono h fun k l hl => ?_
      rw [Memo.get?_moveToEnd] at hl
      exact hl
    · dsimp only
      rw [set_then, hcompiled]
      rfl
  | none =>
    dsimp only
    rw [set_then]
    cases hcompiled : compile T tasks with
    | error e => exact ⟨s.counted, h, error_bind (raise_error rfl)⟩
    | ok layout =>
      refine ⟨s.counted.store layout, Faithful.store (s := s.counted) h hcompiled, ?_⟩
      rw [ok_bind (raise_ok rfl)]
      rfl

theorem results_cons {s' : CompiledGraphExecutor} {calls : List (List (TaskSpec φ))}
    {outcome : Except GraphError (List (TaskSpec φ) × CompiledGraphLayout)}
    (h : compiledLayout T tasks s = raise outcome s') : results T s (tasks :: calls) = outcome :: results T s' calls := by
  rw [results, h]
  cases outcome <;> rfl

theorem Faithful.results (h : s.Faithful T) (calls : List (List (TaskSpec φ))) :
    results T s calls = calls.map fun tasks => (compile T tasks).map fun layout => (tasks, layout) := by
  induction calls generalizing s with
  | nil => rfl
  | cons tasks calls ih =>
    obtain ⟨s', h', hcall⟩ := h.compiledLayout tasks
    rw [results_cons hcall, ih h', List.map_cons]

/-- **The cache is transparent**: for every bound that is accepted, the calls
of every history return or raise, one by one, what compiling would. -/
theorem cache_transparent (T : FloatText φ) {maxLayouts : Int} {s : CompiledGraphExecutor}
    (hs : create maxLayouts = .ok s) (calls : List (List (TaskSpec φ))) :
    CompiledGraphExecutor.results T s calls = calls.map fun tasks => (compile T tasks).map fun layout => (tasks, layout) := by
  obtain ⟨_, -, hs⟩ := bind_ok.1 hs
  obtain rfl := Except.ok.inj hs
  have hnew : (⟨maxLayouts, .empty, 0, 0, 0⟩ : CompiledGraphExecutor).Faithful T := Memo.faithful_empty
  exact hnew.results calls

/-- A miss, a hit, a cycle that raises, and a hit again. -/
theorem cache_transparent_bound_one : CompiledGraphExecutor.results wholeText ⟨1, .empty, 0, 0, 0⟩
      [[bareTask "a" []], [bareTask "b" []], [bareTask "b" ["b"]], [bareTask "c" []]] =
    [[bareTask "a" []], [bareTask "b" []], [bareTask "b" ["b"]], [bareTask "c" []]].map fun tasks =>
      (compile wholeText tasks).map fun layout => (tasks, layout) :=
  cache_transparent wholeText (show create 1 = .ok _ by rfl) _

end CompiledGraphExecutor

end HeteroSim.Kernel
