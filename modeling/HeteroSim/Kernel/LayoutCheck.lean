/-
When the check of a layout is exact. It accepts what compiling returns, and
nothing but it, for the graphs in which repeated dependencies and cycles go
together: a repeated dependency makes it refuse a layout that was compiled,
and a cycle does not keep it from accepting one that was not.
-/
import HeteroSim.Kernel.LayoutExact

namespace HeteroSim.Kernel

variable {φ : Type} {T : FloatText φ} {tasks : List (TaskSpec φ)} {deps : List (List ℕ)}

theorem length_sortByTaskId (positions : List ℕ) : (sortByTaskId tasks positions).length = positions.length :=
  (perm_sortByTaskId positions).length_eq

/-- The order of the ids is one of all positions. -/
theorem nodup_taskIdOrder : (taskIdOrder tasks).Nodup :=
  (perm_sortByTaskId _).nodup_iff.2 List.nodup_range

theorem lt_of_mem_taskIdOrder {p : ℕ} (hp : p ∈ taskIdOrder tasks) : p < tasks.length :=
  List.mem_range.1 ((perm_sortByTaskId _).mem_iff.1 hp)

theorem nodup_dependentPositions :
    (∀ row ∈ (dependentPositions tasks deps).map ints, row.Nodup) ↔ ∀ row ∈ dependentLists deps, row.Nodup := by
  rw [List.forall_mem_map, dependentPositions, List.forall_mem_map]
  exact forall₂_congr fun row _ => nodup_ints.trans (perm_sortByTaskId row).nodup_iff

/-- A layout whose texts alone may differ from what is derived. -/
structure Agrees (T : FloatText φ) (l : CompiledGraphLayout) (tasks : List (TaskSpec φ)) (deps : List (List ℕ)) :
    Prop where
  located : Located tasks deps
  noRepeats : NoRepeats tasks
  texts : l.earliestStartHex.length = tasks.length
  eq : l = { layoutOf T tasks deps with earliestStartHex := l.earliestStartHex }

/-- **What the check accepts**: distinct tasks, dependencies that are there,
none of them repeated, and every field but the texts as derived. -/
theorem agrees_of_checkStructure {l : CompiledGraphLayout} (hok : checkStructure T l tasks = .ok ()) :
    ∃ deps, Agrees T l tasks deps := by
  obtain ⟨_, hcount, hok⟩ := bind_ok.1 hok
  obtain ⟨_, houter, hok⟩ := bind_ok.1 hok
  obtain ⟨_, -, hok⟩ := bind_ok.1 hok
  obtain ⟨_, -, hok⟩ := bind_ok.1 hok
  obtain ⟨_, hids, hok⟩ := bind_ok.1 hok
  obtain ⟨_, -, hok⟩ := bind_ok.1 hok
  obtain ⟨_, horder, hok⟩ := bind_ok.1 hok
  obtain ⟨deps, hdeps, hok⟩ := bind_ok.1 hok
  obtain ⟨_, hrows, hok⟩ := bind_ok.1 hok
  obtain ⟨_, -, hfields⟩ := bind_ok.1 hok
  have hlocated : Located tasks deps := ⟨not_not.1 (refuse_ok.1 hids), checkTasks_ok hdeps⟩
  have hcount : (tasks.length : Int) = l.taskCount := by
    have := refuse_ok.1 hcount
    push Not at this
    exact this.2
  have htexts : (l.earliestStartHex.length : Int) = l.taskCount := by
    have := refuse_ok.1 houter
    push Not at this
    exact this _ (by simp [CompiledGraphLayout.outerLengths])
  have horder := not_not.1 (refuse_ok.1 horder)
  have hfields := refuse_ok.1 hfields
  simp only [not_or, not_not] at hfields
  obtain ⟨hdep, hres, hdependents, hgroups, hdemand, hroots, hindegree, hids', hindices, hgroup, hgroupCount⟩ := hfields
  have hnodup : ∀ row ∈ l.dependentPositions, row.Nodup := by
    have := refuse_ok.1 hrows
    push Not at this
    exact fun row hrow => (this row hrow).2
  rw [hdependents, nodup_dependentPositions, hlocated.nodup_dependents] at hnodup
  refine ⟨deps, hlocated, hnodup, Int.ofNat_inj.1 (htexts.trans hcount.symm), ?_⟩
  cases l
  show CompiledGraphLayout.mk .. = CompiledGraphLayout.mk ..
  rw [CompiledGraphLayout.mk.injEq]
  exact ⟨hcount.symm, hdep, horder, rfl, hres, hdependents, hgroups, hdemand, hroots, hindegree, hids', hindices,
    hgroup, hgroupCount⟩

/-- The fields that are derived are as many as the tasks. -/
theorem outerLengths_layoutOf (h : Located tasks deps) :
    ∀ n ∈ (layoutOf T tasks deps).outerLengths, n = tasks.length := by
  have hlength : (dependentPositions tasks deps).length = tasks.length := by
    rw [dependentPositions, List.length_map, dependentLists_eq, List.length_map, List.length_range, h.length]
  intro n hn
  simp only [CompiledGraphLayout.outerLengths, layoutOf, demandResourceIds, demandResourceIndices, groupIndices,
    taskIdOrder, length_ints, length_sortByTaskId, List.length_map, List.length_range, h.length, hlength,
    List.mem_cons, List.not_mem_nil, or_false, or_self] at hn
  exact hn

theorem Located.validRows (h : Located tasks deps) {row : List Int}
    (hrow : row ∈ (layoutOf T tasks deps).dependentPositions) : ¬∃ p ∈ row, ¬(layoutOf T tasks deps).ValidPosition p := by
  obtain ⟨positions, hpositions, rfl⟩ := List.mem_map.1 hrow
  refine validPosition_ints (n := tasks.length) rfl fun p hp => ?_
  obtain ⟨row, hmem, rfl⟩ := List.mem_map.1 hpositions
  rw [dependentLists_eq] at hmem
  obtain ⟨q, -, rfl⟩ := List.mem_map.1 hmem
  rw [← h.length]
  exact mem_dependentsOf ((perm_sortByTaskId _).mem_iff.1 hp)

/-- **The check accepts what is derived**, of located dependencies that do not
repeat. -/
theorem checkStructure_layoutOf (h : Located tasks deps) (hno : NoRepeats tasks) :
    checkStructure T (layoutOf T tasks deps) tasks = .ok () := by
  have hcount : (layoutOf T tasks deps).taskCount = tasks.length := rfl
  have hroots : ∀ p ∈ rootPositions deps, p < tasks.length := by
    intro p hp
    rw [← h.length]
    exact List.mem_range.1 (List.mem_of_mem_filter hp)
  have htexts : checkTexts T (layoutOf T tasks deps).earliestStartHex = .ok () := by
    have hmap : (layoutOf T tasks deps).earliestStartHex = (tasks.map (·.earliestStartNs)).map T.hex := by
      rw [List.map_map]
      rfl
    rw [hmap]
    exact checkTexts_hex
  have htasks : checkTasks (layoutOf T tasks deps) (taskPositions tasks) tasks (layoutOf T tasks deps).dependencyPositions
      (layoutOf T tasks deps).demandOrder = .ok deps :=
    checkTasks_derived hcount h.found fun ds hds p hp => h.lt hds hp
  have hdistinct : (ints (taskIdOrder tasks)).toFinset.card = tasks.length := by
    rw [List.toFinset_card_of_nodup (nodup_ints.2 nodup_taskIdOrder), length_ints, taskIdOrder, length_sortByTaskId,
      List.length_range]
  rw [checkStructure]
  refine bind_ok.2 ⟨(), (refuse_ok (u := ())).2 ?_, bind_ok.2 ⟨(), (refuse_ok (u := ())).2 ?_, ?_⟩⟩
  · rw [hcount]
    omega
  · rintro ⟨n, hn, hne⟩
    exact hne (by rw [outerLengths_layoutOf h n hn, hcount])
  refine bind_ok.2 ⟨(), (refuse_ok (u := ())).2 ?_, bind_ok.2 ⟨(), htexts, ?_⟩⟩
  · exact not_lt.2 (Int.natCast_nonneg _)
  refine bind_ok.2 ⟨(), (refuse_ok (u := ())).2 (not_not.2 h.nodup), ?_⟩
  refine bind_ok.2 ⟨(), (refuse_ok (u := ())).2 ?_, bind_ok.2 ⟨(), (refuse_ok (u := ())).2 (not_not.2 rfl), ?_⟩⟩
  · rintro (hinvalid | hcard)
    · exact validPosition_ints hcount (fun p hp => lt_of_mem_taskIdOrder hp) hinvalid
    · exact hcard (by rw [hcount]; exact congrArg _ hdistinct)
  refine bind_ok.2 ⟨deps, htasks, bind_ok.2 ⟨(), (refuse_ok (u := ())).2 ?_, ?_⟩⟩
  · rintro ⟨row, hrow, hinvalid | hrepeated⟩
    · exact h.validRows hrow hinvalid
    · exact hrepeated (nodup_dependentPositions.2 (h.nodup_dependents.2 hno) row hrow)
  refine bind_ok.2 ⟨(), (refuse_ok (u := ())).2 ?_, (refuse_ok (u := ())).2 ?_⟩
  · rintro (hinvalid | hrepeated)
    · exact validPosition_ints hcount hroots hinvalid
    · exact hrepeated (nodup_ints.2 (List.nodup_range.filter _))
  · simp [layoutOf]

/-! ## Exactness -/

theorem matchesStructure_true {l : CompiledGraphLayout} :
    matchesStructure T l tasks = .ok true ↔ checkStructure T l tasks = .ok () := by
  rw [matchesStructure]
  cases checkStructure T l tasks with
  | ok u => simp
  | error e => cases e <;> simp

/-- What compiling returns: the derived layout of an accepted graph. -/
theorem compile_ok {l : CompiledGraphLayout} : compile T tasks = .ok l ↔
    Acyclic (DependsOn tasks) ∧ ∃ deps, Located tasks deps ∧ l = layoutOf T tasks deps := by
  have haccepts : compile T tasks = .ok l ↔ (∃ d, validateTaskGraph tasks = .ok d) ∧ fromValidatedTasks T tasks = l := by
    rw [compile]
    constructor
    · intro hok
      obtain ⟨d, hd, hok⟩ := bind_ok.1 hok
      exact ⟨⟨d, hd⟩, Except.ok.inj hok⟩
    · rintro ⟨⟨d, hd⟩, rfl⟩
      exact bind_ok.2 ⟨d, hd, rfl⟩
  rw [haccepts, validateTaskGraph_ok]
  constructor
  · rintro ⟨⟨hn, hclosed, hacyclic⟩, rfl⟩
    obtain ⟨deps, h⟩ := (located_iff_closed hn).2 hclosed
    exact ⟨hacyclic, deps, h, by rw [fromValidatedTasks, h.found]; rfl⟩
  · rintro ⟨hacyclic, deps, h, rfl⟩
    exact ⟨⟨h.nodup, (located_iff_closed h.nodup).1 ⟨deps, h⟩, hacyclic⟩, by rw [fromValidatedTasks, h.found]; rfl⟩

/-- The texts that are compared one by one are all of them. -/
theorem texts_eq_of_all {tasks : List (TaskSpec φ)} {texts : List String} (hlength : texts.length = tasks.length)
    (hall : (tasks.zip texts).all fun p => T.hex p.1.earliestStartNs = p.2) :
    texts = tasks.map fun t => T.hex t.earliestStartNs := by
  induction tasks generalizing texts with
  | nil => exact List.length_eq_zero_iff.1 hlength
  | cons t tasks ih =>
    cases texts with
    | nil => cases hlength
    | cons text texts =>
      rw [List.zip_cons_cons, List.all_cons, Bool.and_eq_true] at hall
      have htext : T.hex t.earliestStartNs = text := of_decide_eq_true hall.1
      rw [List.map_cons, htext, ih (Nat.succ.inj hlength) hall.2]

theorem matchesLayout_true {l : CompiledGraphLayout} (hok : matchesLayout T l tasks = .ok true) :
    matchesStructure T l tasks = .ok true ∧ (tasks.zip l.earliestStartHex).all fun p => T.hex p.1.earliestStartNs = p.2 := by
  obtain ⟨isMatch, hstructure, hok⟩ := bind_ok.1 hok
  obtain ⟨rfl, htexts⟩ := Bool.and_eq_true_iff.1 (Except.ok.inj hok)
  exact ⟨hstructure, htexts⟩

/-- The check accepts what compiling returns, and only what agrees with it. -/
structure LayoutExact (T : FloatText φ) (tasks : List (TaskSpec φ)) : Prop where
  accepts : ∀ l, compile T tasks = .ok l → matchesStructure T l tasks = .ok true
  structure_eq : ∀ l, matchesStructure T l tasks = .ok true →
    ∃ c, compile T tasks = .ok c ∧ l = { c with earliestStartHex := l.earliestStartHex }
  layout_eq : ∀ l, matchesLayout T l tasks = .ok true → compile T tasks = .ok l

/-- **The check is exact when a graph has a cycle exactly if it repeats a
dependency**; of a graph with repeated ids or missing dependencies there is
nothing to check. -/
theorem layout_exact (T : FloatText φ) (tasks : List (TaskSpec φ)) : LayoutExact T tasks ↔
    ((tasks.map (·.taskId)).Nodup → Closed tasks → (NoRepeats tasks ↔ Acyclic (DependsOn tasks))) := by
  constructor
  · intro hexact hn hclosed
    obtain ⟨deps, h⟩ := (located_iff_closed hn).2 hclosed
    constructor
    · intro hno
      have htrue := matchesStructure_true.2 (checkStructure_layoutOf (T := T) h hno)
      obtain ⟨c, hc, -⟩ := hexact.structure_eq _ htrue
      exact (compile_ok.1 hc).1
    · intro hacyclic
      have htrue := hexact.accepts _ (compile_ok.2 ⟨hacyclic, deps, h, rfl⟩)
      obtain ⟨_, hagrees⟩ := agrees_of_checkStructure (matchesStructure_true.1 htrue)
      exact hagrees.noRepeats
  · intro hiff
    have hstructure : ∀ l, matchesStructure T l tasks = .ok true → ∃ deps, Agrees T l tasks deps ∧
        compile T tasks = .ok (layoutOf T tasks deps) := by
      intro l htrue
      obtain ⟨deps, h⟩ := agrees_of_checkStructure (matchesStructure_true.1 htrue)
      have hclosed := (located_iff_closed h.located.nodup).1 ⟨deps, h.located⟩
      have hacyclic := (hiff h.located.nodup hclosed).1 h.noRepeats
      exact ⟨deps, h, compile_ok.2 ⟨hacyclic, deps, h.located, rfl⟩⟩
    refine ⟨fun l hl => ?_, fun l htrue => ?_, fun l htrue => ?_⟩
    · obtain ⟨hacyclic, deps, h, rfl⟩ := compile_ok.1 hl
      have hclosed := (located_iff_closed h.nodup).1 ⟨deps, h⟩
      exact matchesStructure_true.2 (checkStructure_layoutOf h ((hiff h.nodup hclosed).2 hacyclic))
    · obtain ⟨deps, h, hcompile⟩ := hstructure l htrue
      exact ⟨_, hcompile, h.eq⟩
    · obtain ⟨htrue, htexts⟩ := matchesLayout_true htrue
      obtain ⟨deps, h, hcompile⟩ := hstructure l htrue
      have heq : l.earliestStartHex = (layoutOf T tasks deps).earliestStartHex := texts_eq_of_all h.texts htexts
      rw [hcompile, h.eq, heq]

/-! ## A repeated dependency -/

/-- `float.hex` of a whole number below `2 ^ 53`. -/
def wholeHex (n : ℕ) : String :=
  if n = 0 then "0x0.0p+0"
  else
    let digits := Nat.toDigits 16 ((n - 2 ^ n.log2) * 2 ^ (52 - n.log2))
    "0x1." ++ String.ofList (List.replicate (13 - digits.length) '0' ++ digits) ++ "p+" ++ toString n.log2

/-- The texts of whole numbers, which are all finite. -/
def wholeText : FloatText ℕ := ⟨wholeHex, fun _ => .ok true, fun _ => rfl⟩

/-- A task without demands, ready at zero. -/
def bareTask (taskId : String) (dependencies : List String) : TaskSpec ℕ :=
  ⟨taskId, dependencies, [], 0, 0, 0, List.nodup_nil⟩

/-- `b` names `a` twice: the layout is compiled, and the check refuses it. -/
theorem layout_exact_repeated : ¬LayoutExact wholeText [bareTask "a" [], bareTask "b" ["a", "a"]] := by
  intro h
  have hcompile : compile wholeText [bareTask "a" [], bareTask "b" ["a", "a"]] =
      .ok (layoutOf wholeText [bareTask "a" [], bareTask "b" ["a", "a"]] [[], [0, 0]]) := by decide +kernel
  have hrefused : matchesStructure wholeText (layoutOf wholeText [bareTask "a" [], bareTask "b" ["a", "a"]] [[], [0, 0]])
      [bareTask "a" [], bareTask "b" ["a", "a"]] = .ok false := by decide +kernel
  cases hrefused.symm.trans (h.accepts _ hcompile)

end HeteroSim.Kernel
