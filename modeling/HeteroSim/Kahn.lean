/-
Kahn's algorithm: nodes without unmet dependencies wait in a heap; one is
taken, and each of its dependents loses a dependency, as often as it names
it. Every node is taken exactly when the dependencies are acyclic.
-/
import HeteroSim.Heap
import HeteroSim.Ranked

namespace HeteroSim.Kahn

variable {κ : Type} [LinearOrder κ] (deps : κ → List κ) (nodes : List κ)

/-- Who names `x`, as often as it does, in the order of the nodes. -/
def dependents (x : κ) : List κ := nodes.flatMap fun k => ((deps k).filter (· = x)).map fun _ => k

/-- One dependent loses a dependency, and is ready with the last. -/
def relax (r : List κ × (κ → Int)) (k : κ) : List κ × (κ → Int) :=
  let indegree := Function.update r.2 k (r.2 k - 1)
  (if indegree k = 0 then heappush r.1 k else r.1, indegree)

/-- The loop, in at most `fuel` turns: how many nodes it takes. -/
def loop : ℕ → List κ → (κ → Int) → ℕ → Option ℕ
  | 0, _, _, _ => none
  | _ + 1, [], _, visited => some visited
  | fuel + 1, x :: ready, indegree, visited =>
    let r := ((dependents deps nodes x).insertionSort (· ≤ ·)).foldl relax (ready, indegree)
    loop fuel r.1 r.2 (visited + 1)

/-- How many nodes are taken. -/
def visitedCount : Option ℕ :=
  loop deps nodes (nodes.length + 1) ((nodes.filter fun k => ((deps k).length : Int) = 0).insertionSort (· ≤ ·))
    (fun k => (deps k).length) 0

variable {deps nodes}

theorem count_dependents (hn : nodes.Nodup) {k : κ} (hk : k ∈ nodes) (x : κ) :
    (dependents deps nodes x).count k = (deps k).count x := by
  have hone : ∀ j, (((deps j).filter (· = x)).map fun _ => j).count k = if j = k then (deps j).count x else 0 := by
    intro j
    rw [List.map_const', List.count_replicate]
    by_cases hj : j = k
    · simp [hj, List.count_eq_countP, List.countP_eq_length_filter, beq_eq_decide]
    · simp [hj]
  rw [dependents, List.count_flatMap]
  induction nodes with
  | nil => cases hk
  | cons j nodes ih =>
    obtain ⟨hj, hn⟩ := List.nodup_cons.1 hn
    rw [List.map_cons, List.sum_cons, Function.comp_apply, hone]
    rcases List.mem_cons.1 hk with rfl | hk
    · have hrest : (nodes.map ((fun l => l.count k) ∘ fun j => ((deps j).filter (· = x)).map fun _ => j)).sum = 0 := by
        rw [List.sum_eq_zero]
        intro n hmem
        obtain ⟨i, hi, rfl⟩ := List.mem_map.1 hmem
        rw [Function.comp_apply, hone, if_neg fun he : i = k => hj (he ▸ hi)]
      rw [hrest, if_pos rfl, Nat.add_zero]
    · rw [if_neg fun he : j = k => hj (he ▸ hk), Nat.zero_add]
      exact ih hn hk

theorem mem_dependents {x k : κ} : k ∈ dependents deps nodes x ↔ k ∈ nodes ∧ x ∈ deps k := by
  simp only [dependents, List.mem_flatMap, List.mem_map, List.mem_filter, decide_eq_true_eq]
  constructor
  · rintro ⟨j, hj, y, ⟨hy, rfl⟩, rfl⟩
    exact ⟨hj, hy⟩
  · rintro ⟨hk, hx⟩
    exact ⟨k, hk, x, ⟨hx, rfl⟩, rfl⟩

theorem relax_degree (r : List κ × (κ → Int)) (x k : κ) : (relax r x).2 k = r.2 k - if k = x then 1 else 0 := by
  simp only [relax, Function.update_apply]
  split
  · next he => rw [he]
  · rw [Int.sub_zero]

theorem mem_relax {r : List κ × (κ → Int)} {x k : κ} : k ∈ (relax r x).1 ↔ k ∈ r.1 ∨ k = x ∧ r.2 x = 1 := by
  simp only [relax, Function.update_self]
  split
  · next hlast =>
    have hone : r.2 x = 1 := by omega
    rw [mem_heappush, or_comm, and_iff_left hone]
  · next hmore =>
    have hne : r.2 x ≠ 1 := by omega
    simp [hne]

/-- All the dependents lose their dependencies. -/
theorem foldl_relax_degree : ∀ (l : List κ) (r : List κ × (κ → Int)) (k : κ),
    (l.foldl relax r).2 k = r.2 k - l.count k
  | [], r, k => by simp
  | x :: l, r, k => by
    rw [List.foldl_cons, foldl_relax_degree l, relax_degree, List.count_cons]
    by_cases he : k = x
    · subst he
      simp only [if_true, beq_self_eq_true]
      omega
    · simp [he, Ne.symm he]

/-- What is left to take away is still there one dependent on. -/
theorem relax_counts {l : List κ} {x : κ} {r : List κ × (κ → Int)} (h : ∀ k ∈ x :: l, ((x :: l).count k : Int) ≤ r.2 k) :
    ∀ k ∈ l, (l.count k : Int) ≤ (relax r x).2 k := by
  intro k hk
  have hk' := h k (List.mem_cons_of_mem _ hk)
  rw [relax_degree]
  rw [List.count_cons] at hk'
  by_cases he : k = x
  · subst he
    simp only [beq_self_eq_true, if_true] at hk' ⊢
    omega
  · simpa [he, Ne.symm he] using hk'

/-- Those that lose the last are ready. -/
theorem mem_foldl_relax : ∀ {l : List κ} {r : List κ × (κ → Int)} {k : κ}, (∀ k ∈ l, (l.count k : Int) ≤ r.2 k) →
    (k ∈ (l.foldl relax r).1 ↔ k ∈ r.1 ∨ k ∈ l ∧ r.2 k = l.count k)
  | [], r, k, _ => by simp
  | x :: l, r, k, h => by
    rw [List.foldl_cons, mem_foldl_relax (relax_counts h), mem_relax, relax_degree]
    by_cases he : k = x
    · subst he
      have hx := h k List.mem_cons_self
      rw [List.count_cons_self] at hx ⊢
      have hpos : k ∈ l ↔ 0 < l.count k := List.count_pos_iff.symm
      simp only [if_true, true_and, List.mem_cons, true_or, hpos, or_assoc]
      refine or_congr_right ?_
      omega
    · simp [he, List.count_cons_of_ne (Ne.symm he)]

theorem nodup_foldl_relax : ∀ {l : List κ} {r : List κ × (κ → Int)}, (∀ k ∈ l, (l.count k : Int) ≤ r.2 k) →
    r.1.Nodup → (∀ k ∈ l, k ∉ r.1) → (l.foldl relax r).1.Nodup
  | [], _, _, hr, _ => hr
  | x :: l, r, h, hr, hnew => by
    rw [List.foldl_cons]
    refine nodup_foldl_relax (relax_counts h) ?_ fun k hk hm => ?_
    · simp only [relax]
      split
      · rw [(heappush_perm r.1 x).nodup_iff, List.nodup_cons]
        exact ⟨hnew x List.mem_cons_self, hr⟩
      · exact hr
    · rcases mem_relax.1 hm with hold | ⟨rfl, hone⟩
      · exact hnew k (List.mem_cons_of_mem _ hk) hold
      · -- it has one dependency left and is named again
        have hx := h k List.mem_cons_self
        have hpos : 0 < l.count k := List.count_pos_iff.2 hk
        rw [List.count_cons_self] at hx
        omega

/-! ## The loop -/

/-- Each has its dependencies behind it. -/
def Settled (deps : κ → List κ) : List κ → Prop
  | [] => True
  | k :: order => (∀ d ∈ deps k, d ∈ order) ∧ Settled deps order

/-- `order` has been taken, the last first; who has no other dependencies is
there, or ready. -/
structure Taken (deps : κ → List κ) (nodes order ready : List κ) (indegree : κ → Int) : Prop where
  nodup : (order ++ ready).Nodup
  mem : ∀ k, k ∈ order ∨ k ∈ ready ↔ k ∈ nodes ∧ ∀ d ∈ deps k, d ∈ order
  degree : ∀ k ∈ nodes, indegree k = (deps k).countP (· ∉ order)
  settled : Settled deps order

theorem countP_notMem_cons {order : List κ} {x : κ} (hx : x ∉ order) : ∀ l : List κ,
    l.countP (· ∉ order) = l.count x + l.countP (· ∉ x :: order)
  | [] => rfl
  | d :: l => by
    rw [List.countP_cons, List.countP_cons, List.count_cons, countP_notMem_cons hx l]
    by_cases he : d = x
    · subst he
      simp [hx, Nat.add_right_comm]
    · simp [he, Nat.add_assoc]

theorem Taken.step (hn : nodes.Nodup) {order ready : List κ} {x : κ} {indegree : κ → Int}
    (h : Taken deps nodes order (x :: ready) indegree) :
    Taken deps nodes (x :: order)
      (((dependents deps nodes x).insertionSort (· ≤ ·)).foldl relax (ready, indegree)).1
      (((dependents deps nodes x).insertionSort (· ≤ ·)).foldl relax (ready, indegree)).2 := by
  have hperm := List.perm_insertionSort (· ≤ ·) (dependents deps nodes x)
  have hcount : ∀ k ∈ nodes, ((dependents deps nodes x).insertionSort (· ≤ ·)).count k = (deps k).count x := fun k hk => by
    rw [hperm.count_eq, count_dependents hn hk]
  have hmem : ∀ k, k ∈ (dependents deps nodes x).insertionSort (· ≤ ·) ↔ k ∈ nodes ∧ x ∈ deps k := fun k => by
    rw [hperm.mem_iff, mem_dependents]
  generalize (dependents deps nodes x).insertionSort (· ≤ ·) = l at hcount hmem
  obtain ⟨hout, hnodup⟩ := List.nodup_cons.1 (List.perm_middle.nodup_iff.1 h.nodup)
  have hxorder : x ∉ order := fun hm => hout (List.mem_append_left _ hm)
  have hdegree : ∀ k ∈ nodes, indegree k - l.count k = (deps k).countP (· ∉ x :: order) := fun k hk => by
    rw [h.degree k hk, hcount k hk, countP_notMem_cons hxorder]
    push_cast
    omega
  have hle : ∀ k ∈ l, (l.count k : Int) ≤ indegree k := fun k hk => by
    have := hdegree k ((hmem k).1 hk).1
    omega
  -- who waits for `x` was neither taken nor ready
  have hwaits : ∀ k ∈ l, ¬(k ∈ order ∨ k ∈ x :: ready) := fun k hk hm =>
    hxorder (((h.mem k).1 hm).2 x ((hmem k).1 hk).2)
  have hready : ∀ k, k ∈ (l.foldl relax (ready, indegree)).1 ↔ k ∈ ready ∨ k ∈ l ∧ indegree k = l.count k := fun k =>
    mem_foldl_relax hle
  have hfinished : ∀ k ∈ nodes, indegree k = l.count k ↔ ∀ d ∈ deps k, d ∈ x :: order := fun k hk => by
    have hzero : (deps k).countP (· ∉ x :: order) = 0 ↔ ∀ d ∈ deps k, d ∈ x :: order := by
      rw [List.countP_eq_zero]
      exact forall₂_congr fun d _ => by rw [decide_eq_true_eq, not_not]
    rw [← hzero, ← Nat.cast_inj (R := Int), ← hdegree k hk, Nat.cast_zero]
    omega
  refine ⟨?_, fun k => ?_, fun k hk => by rw [foldl_relax_degree]; exact hdegree k hk, ?_, h.settled⟩
  · rw [List.nodup_append] at hnodup
    rw [List.cons_append, List.nodup_cons, List.nodup_append]
    refine ⟨fun hm => ?_, hnodup.1, nodup_foldl_relax hle hnodup.2.1 fun k hk hm => ?_, fun a ha b hb => ?_⟩
    · rcases List.mem_append.1 hm with hm | hm
      · exact hxorder hm
      · rcases (hready x).1 hm with hm | ⟨hm, -⟩
        · exact hout (List.mem_append_right _ hm)
        · exact hwaits x hm (.inr List.mem_cons_self)
    · exact hwaits k hk (.inr (List.mem_cons_of_mem _ hm))
    · rcases (hready b).1 hb with hb | ⟨hb, -⟩
      · exact hnodup.2.2 a ha b hb
      · exact fun he => hwaits b hb (.inl (he ▸ ha))
  · rw [hready]
    constructor
    · rintro (hk | hk | ⟨hk, hlast⟩)
      · rcases List.mem_cons.1 hk with rfl | hk
        · obtain ⟨hnode, hdeps⟩ := (h.mem k).1 (.inr List.mem_cons_self)
          exact ⟨hnode, fun d hd => List.mem_cons_of_mem _ (hdeps d hd)⟩
        · obtain ⟨hnode, hdeps⟩ := (h.mem k).1 (.inl hk)
          exact ⟨hnode, fun d hd => List.mem_cons_of_mem _ (hdeps d hd)⟩
      · obtain ⟨hnode, hdeps⟩ := (h.mem k).1 (.inr (List.mem_cons_of_mem _ hk))
        exact ⟨hnode, fun d hd => List.mem_cons_of_mem _ (hdeps d hd)⟩
      · have hnode := ((hmem k).1 hk).1
        exact ⟨hnode, (hfinished k hnode).1 hlast⟩
    · rintro ⟨hnode, hdeps⟩
      by_cases hx : x ∈ deps k
      · exact .inr (.inr ⟨(hmem k).2 ⟨hnode, hx⟩, (hfinished k hnode).2 hdeps⟩)
      · have hold : ∀ d ∈ deps k, d ∈ order := fun d hd =>
          (List.mem_cons.1 (hdeps d hd)).resolve_left fun he => hx (he ▸ hd)
        rcases (h.mem k).2 ⟨hnode, hold⟩ with hk | hk
        · exact .inl (List.mem_cons_of_mem _ hk)
        · rcases List.mem_cons.1 hk with rfl | hk
          · exact .inl List.mem_cons_self
          · exact .inr (.inl hk)
  · exact ((h.mem x).1 (.inr List.mem_cons_self)).2

theorem Taken.length_le {order ready : List κ} {indegree : κ → Int} (h : Taken deps nodes order ready indegree) :
    order.length ≤ nodes.length :=
  (List.subperm_of_subset (List.nodup_append.1 h.nodup).1 fun k hk => ((h.mem k).1 (.inl hk)).1).length_le

theorem Taken.loop (hn : nodes.Nodup) : ∀ {fuel : ℕ} {order ready : List κ} {indegree : κ → Int},
    Taken deps nodes order ready indegree → nodes.length < order.length + fuel → ∃ final indegree',
      Kahn.loop deps nodes fuel ready indegree order.length = some final.length ∧ Taken deps nodes final [] indegree'
  | 0, _, _, _, h, hfuel => absurd h.length_le (by omega)
  | _ + 1, order, [], indegree, h, _ => ⟨order, indegree, rfl, h⟩
  | fuel + 1, order, x :: ready, indegree, h, hfuel => (h.step hn).loop hn (by rw [List.length_cons]; omega)

theorem taken_nil (hn : nodes.Nodup) : Taken deps nodes []
    ((nodes.filter fun k => ((deps k).length : Int) = 0).insertionSort (· ≤ ·)) fun k => (deps k).length where
  nodup := ((List.perm_insertionSort _ _).nodup_iff.2 (hn.filter _))
  mem k := by
    have hempty : ((deps k).length : Int) = 0 ↔ ∀ d ∈ deps k, d ∈ ([] : List κ) := by
      rw [Nat.cast_eq_zero, List.length_eq_zero_iff, List.eq_nil_iff_forall_not_mem]
      exact forall_congr' fun d => by simp
    rw [(List.perm_insertionSort _ _).mem_iff, List.mem_filter, decide_eq_true_eq, hempty]
    simp
  degree k _ := by
    have hall : (deps k).countP (fun d => decide (d ∉ ([] : List κ))) = (deps k).length :=
      List.countP_eq_length.2 fun d _ => by simp
    rw [hall]
  settled := trivial

/-! ## When every node is taken -/

/-- `j` is a node that names `k`. -/
def Depends (deps : κ → List κ) (nodes : List κ) (j k : κ) : Prop := j ∈ nodes ∧ k ∈ deps j

omit [LinearOrder κ] in
theorem Settled.mem : ∀ {order : List κ}, Settled deps order → ∀ {k d}, k ∈ order → d ∈ deps k → d ∈ order
  | x :: order, h, k, d, hk, hd => by
    rcases List.mem_cons.1 hk with rfl | hk
    · exact List.mem_cons_of_mem _ (h.1 d hd)
    · exact List.mem_cons_of_mem _ (h.2.mem hk hd)

/-- The place in the order is a rank. -/
theorem Settled.rank : ∀ {order : List κ}, Settled deps order → order.Nodup →
    ∃ rank : κ → ℕ, (∀ k ∈ order, rank k < order.length) ∧ ∀ k ∈ order, ∀ d ∈ deps k, rank d < rank k
  | [], _, _ => ⟨fun _ => 0, by simp, by simp⟩
  | x :: order, h, hn => by
    obtain ⟨hx, hn⟩ := List.nodup_cons.1 hn
    obtain ⟨rank, hbound, hfall⟩ := h.2.rank hn
    have hbehind : ∀ k ∈ order, Function.update rank x order.length k = rank k := fun k hk =>
      Function.update_of_ne (fun he : k = x => hx (he ▸ hk)) _ _
    have hself : Function.update rank x order.length x = order.length := Function.update_self ..
    refine ⟨Function.update rank x order.length, List.forall_mem_cons.2 ⟨?_, fun k hk => ?_⟩,
      List.forall_mem_cons.2 ⟨fun d hd => ?_, fun k hk d hd => ?_⟩⟩
    · rw [hself]
      exact Nat.lt_succ_self _
    · rw [hbehind k hk]
      exact (hbound k hk).trans (Nat.lt_succ_self _)
    · rw [hself, hbehind d (h.1 d hd)]
      exact hbound d (h.1 d hd)
    · rw [hbehind k hk, hbehind d (h.2.mem hk hd)]
      exact hfall k hk d hd

/-- **Every node is taken exactly when the dependencies are acyclic.** -/
theorem visitedCount_iff (hn : nodes.Nodup) (hclosed : ∀ k ∈ nodes, ∀ d ∈ deps k, d ∈ nodes) :
    visitedCount deps nodes = some nodes.length ↔ Acyclic (Depends deps nodes) := by
  have hfuel : nodes.length < ([] : List κ).length + (nodes.length + 1) := by simp
  obtain ⟨order, indegree, hrun, h⟩ := Taken.loop hn (taken_nil hn) hfuel
  rw [visitedCount, show 0 = ([] : List κ).length from rfl, hrun, Option.some.injEq]
  have hnodup := (List.nodup_append.1 h.nodup).1
  have hmem : ∀ k, k ∈ order ↔ k ∈ nodes ∧ ∀ d ∈ deps k, d ∈ order := fun k => by simpa using h.mem k
  constructor
  · intro hlen
    have hperm : order.Perm nodes :=
      (List.subperm_of_subset hnodup fun k hk => ((hmem k).1 hk).1).perm_of_length_le hlen.ge
    obtain ⟨rank, -, hfall⟩ := h.settled.rank hnodup
    exact ⟨rank, fun j k hjk => hfall j (hperm.mem_iff.2 hjk.1) k hjk.2⟩
  · rintro ⟨rank, hrank⟩
    have hall : ∀ n, ∀ k ∈ nodes, rank k = n → k ∈ order := by
      intro n
      induction n using Nat.strong_induction_on with
      | h n ih =>
        intro k hk hkn
        refine (hmem k).2 ⟨hk, fun d hd => ih (rank d) ?_ d (hclosed k hk d hd) rfl⟩
        rw [← hkn]
        exact hrank k d ⟨hk, hd⟩
    exact ((List.perm_ext_iff_of_nodup hnodup hn).2 fun k => ⟨fun hk => ((hmem k).1 hk).1, fun hk => hall _ k hk rfl⟩).length_eq

end HeteroSim.Kahn
