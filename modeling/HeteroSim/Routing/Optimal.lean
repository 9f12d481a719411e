/-
Routes are optimal: the search answers the route with the least transfer time
and names among all that repeat no component and pass only through components
that let them, and raises exactly when there is none. The names keep routes to
one component in order, because neither of two routes that repeat nothing goes
on as the other.
-/
import HeteroSim.BestFirst
import HeteroSim.Memo
import HeteroSim.Routing.Router
import HeteroSim.Transitions

namespace HeteroSim.Routing

open HeteroSim.BestFirst (Graph Walk nodes Entry Searching Current Ordered work)

/-! ## Names in order -/

/-- What follows does not matter if neither list goes on as the other. -/
theorem append_lt_append {l l' : List String} (h : l < l') (hinitial : ¬l <+: l') (n n' : List String) : l ++ n < l' ++ n' := by
  have hlex : List.Lex (· < ·) l l' := h
  show List.Lex (· < ·) (l ++ n) (l' ++ n')
  clear h
  induction hlex with
  | nil => exact absurd (List.nil_prefix) hinitial
  | cons hlex ih =>
    refine .cons (ih fun hp => hinitial ?_)
    exact (List.prefix_cons_inj _).2 hp
  | rel hlt => exact .rel hlt

theorem lt_append {l n : List String} (hn : n ≠ []) : l < l ++ n := by
  show List.Lex (· < ·) l (l ++ n)
  induction l with
  | nil =>
    obtain ⟨a, m, rfl⟩ := List.exists_cons_of_ne_nil hn
    exact .nil
  | cons a l ih => exact .cons ih

/-- The names along a route. -/
def signature (hops : List RouteHop) : List String := hops.flatMap fun hop => [hop.linkId, hop.targetComponent]

theorem signature_snoc (hops : List RouteHop) (hop : RouteHop) :
    signature (hops ++ [hop]) = signature hops ++ [hop.linkId, hop.targetComponent] := by
  simp [signature]

theorem length_signature (hops : List RouteHop) : (signature hops).length = 2 * hops.length := by
  induction hops with
  | nil => rfl
  | cons hop hops ih =>
    rw [signature, List.flatMap_cons, List.length_append]
    show 2 + (signature hops).length = 2 * (hops.length + 1)
    omega

/-- A route whose names begin another's goes through its first components. -/
theorem targets_of_initial : ∀ {p q : List RouteHop}, signature p <+: signature q →
    p.map (·.targetComponent) <+: q.map (·.targetComponent)
  | [], _, _ => List.nil_prefix
  | hop :: p, [], h => by
    rw [signature, List.flatMap_cons] at h
    exact absurd (List.eq_nil_of_prefix_nil h) (by simp)
  | hop :: p, hop' :: q, h => by
    simp only [signature, List.flatMap_cons, List.cons_append, List.nil_append, List.cons_prefix_cons] at h
    obtain ⟨-, htarget, hrest⟩ := h
    rw [List.map_cons, List.map_cons, htarget]
    exact (List.prefix_cons_inj _).2 (targets_of_initial hrest)

/-- The time of a hop. -/
def RouteHop.time (hop : RouteHop) (byteCount : ℕ) : ℚ :=
  if byteCount = 0 then 0 else hop.latencyNs + 8 * byteCount / hop.bandwidthGbps

theorem RouteHop.transferNs_ok {hop : RouteHop} (h : 0 < hop.bandwidthGbps) (byteCount : ℕ) :
    hop.transferNs byteCount = .ok (hop.time byteCount) := by
  rw [transferNs, if_neg (not_le.2 h), time]
  split
  · rfl
  · rfl

theorem RouteHop.time_nonneg {hop : RouteHop} (hb : 0 < hop.bandwidthGbps) (hl : 0 ≤ hop.latencyNs) (byteCount : ℕ) :
    0 ≤ hop.time byteCount := by
  rw [time]
  split
  · exact le_rfl
  · positivity

namespace TopologyRouter

variable (r : TopologyRouter) (source target : String) (byteCount : ℕ)

/-- The hops a route may go on by. -/
def outOf (name : String) : List RouteHop :=
  match r.components.get? name with
  | none => []
  | some component => if transits source target name component then (r.adjacency.get? name).getD [] else []

/-- The graph of a query. -/
def graph : Graph String RouteHop (ℚ ×ₗ List String) where
  out := r.outOf source target
  head := RouteHop.targetComponent
  extend k hop := toLex ((ofLex k).1 + hop.time byteCount, (ofLex k).2 ++ [hop.linkId, hop.targetComponent])

/-- Routes are ordered by time, then by names. -/
def routeKey (hops : List RouteHop) : ℚ ×ₗ List String := toLex ((hops.map fun hop => hop.time byteCount).sum, signature hops)

variable {r source target byteCount} {p q : List RouteHop} {name : String} {hop : RouteHop}

theorem outOf_mem (h : hop ∈ r.outOf source target name) : ∃ component hops, r.components.get? name = some component ∧
    transits source target name component = true ∧ r.adjacency.get? name = some hops ∧ hop ∈ hops := by
  unfold outOf at h
  cases hc : r.components.get? name with
  | none => rw [hc] at h; cases h
  | some component =>
    rw [hc] at h
    dsimp only at h
    split at h
    · next htransits =>
      cases ha : r.adjacency.get? name with
      | none => rw [ha] at h; cases h
      | some hops =>
        rw [ha] at h
        exact ⟨component, hops, rfl, htransits, rfl, h⟩
    · cases h

theorem key_eq (p : List RouteHop) : BestFirst.key (r.graph source target byteCount) (toLex (0, [])) p = routeKey byteCount p := by
  induction p using List.reverseRecOn with
  | nil => rfl
  | append_singleton p hop ih =>
    rw [BestFirst.key_snoc, ih, routeKey, routeKey, List.map_append, List.sum_append, signature_snoc]
    simp [graph]

/-- A walk's last node is where it leads. -/
theorem last_node (h : Walk (r.graph source target byteCount) source p name) :
    (nodes (r.graph source target byteCount) source p).getLast? = some name := by
  cases h with
  | nil => rfl
  | snoc _ _ =>
    rw [BestFirst.nodes_snoc, List.getLast?_concat]

/-- **Hops keep the order of routes to one component.** -/
theorem ordered (r : TopologyRouter) (source target : String) (byteCount : ℕ) :
    Ordered (r.graph source target byteCount) (toLex (0, [])) source := by
  constructor
  · intro name hop hhop k
    obtain ⟨-, hops, -, -, ha, hmem⟩ := outOf_mem hhop
    have htime := RouteHop.time_nonneg (r.bandwidth_pos _ _ ha hop hmem) (r.latency_nonneg _ _ ha hop hmem) byteCount
    refine Prod.Lex.lt_iff.2 ?_
    rcases htime.eq_or_lt with hzero | hpos
    · refine .inr ⟨?_, lt_append (by simp)⟩
      simp [graph, ← hzero]
    · refine .inl ?_
      simp [graph, hpos]
  · intro p q name hp hq hsimple hop hhop hle
    rw [key_eq, key_eq] at hle ⊢
    rcases Prod.Lex.le_iff.1 hle with hcost | ⟨hcost, hnames⟩
    · exact Prod.Lex.le_iff.2 (.inl (add_lt_add_left hcost _))
    · refine Prod.Lex.le_iff.2 (.inr ⟨congrArg (· + hop.time byteCount) hcost, ?_⟩)
      rcases hnames.eq_or_lt with hsame | hlt
      · exact (congrArg (· ++ [hop.linkId, hop.targetComponent]) hsame).le
      · refine (append_lt_append hlt (fun hinitial => ?_) _ _).le
        -- the second route would pass through its end and come back to it
        obtain ⟨rest, hrest⟩ := targets_of_initial hinitial
        have hnodes : nodes (r.graph source target byteCount) source q =
            nodes (r.graph source target byteCount) source p ++ rest := congrArg (source :: ·) hrest.symm
        have hmem := List.mem_of_getLast? (last_node hp)
        have hlast := last_node hq
        rw [hnodes] at hlast hsimple
        cases rest with
        | nil =>
          rw [List.append_nil] at hrest
          have hlength : (signature p).length = (signature q).length := by
            rw [length_signature, length_signature, ← List.length_map, hrest, List.length_map]
          exact hlt.ne (hinitial.eq_of_length hlength)
        | cons a rest =>
          rw [List.getLast?_append_of_ne_nil _ (List.cons_ne_nil _ _)] at hlast
          exact (List.nodup_append.1 hsimple).2.2 name hmem name (List.mem_of_getLast? hlast) rfl

/-! ## The loop -/

/-- An entry as the search sees it. -/
def entryOf (e : RouteEntry) : Entry String RouteHop (ℚ ×ₗ List String) := ⟨e.key, e.component, e.hops⟩

/-- The queue stands in its order. -/
def Sorted (queue : List RouteEntry) : Prop :=
  queue.Pairwise fun a b => toLex (a.key, a.component) ≤ toLex (b.key, b.component)

theorem Sorted.push {queue : List RouteEntry} (h : Sorted queue) (e : RouteEntry) : Sorted (routePush queue e) := by
  have : IsTrans RouteEntry fun a b => toLex (a.key, a.component) ≤ toLex (b.key, b.component) := ⟨fun _ _ _ => le_trans⟩
  have : Std.Total fun a b : RouteEntry => toLex (a.key, a.component) ≤ toLex (b.key, b.component) := ⟨fun _ _ => le_total _ _⟩
  exact List.Pairwise.orderedInsert e queue h

theorem routePush_perm (queue : List RouteEntry) (e : RouteEntry) : (routePush queue e).Perm (e :: queue) :=
  List.perm_orderedInsert _ e queue

/-- The first entry has the least key. -/
theorem Sorted.head_le {e : RouteEntry} {queue : List RouteEntry} (h : Sorted (e :: queue)) :
    ∀ x ∈ queue.map entryOf, (entryOf e).key ≤ x.key := by
  intro x hx
  obtain ⟨a, ha, rfl⟩ := List.mem_map.1 hx
  exact Prod.Lex.monotone_fst _ _ ((List.pairwise_cons.1 h).1 a ha)

abbrev first : ℚ ×ₗ List String := toLex (0, [])

/-- A search of the loop, between two passes. -/
abbrev Loop (r : TopologyRouter) (source target : String) (byteCount : ℕ) (now : ℚ ×ₗ List String) (settled : Finset String)
    (pending : String → RouteHop → Prop) (best : Dict String (ℚ ×ₗ List String)) (queue : List RouteEntry) : Prop :=
  Searching (r.graph source target byteCount) first source now settled pending best.get? (queue.map entryOf)

variable {now : ℚ ×ₗ List String} {settled : Finset String} {best : Dict String (ℚ ×ₗ List String)} {queue : List RouteEntry}

/-- The entry's route, gone on by the hop. -/
def goOn (byteCount : ℕ) (e : RouteEntry) (hop : RouteHop) : RouteEntry :=
  ⟨e.cost + hop.time byteCount, e.signature ++ [hop.linkId, hop.targetComponent], hop.targetComponent, e.hops ++ [hop]⟩

theorem relax_better {e : RouteEntry} (htime : hop.transferNs byteCount = .ok (hop.time byteCount))
    (h : ∀ b, best.get? hop.targetComponent = some b → (goOn byteCount e hop).key < b) :
    relax byteCount e (best, queue) hop =
      .ok (best.insert hop.targetComponent (goOn byteCount e hop).key, routePush queue (goOn byteCount e hop)) := by
  unfold relax
  rw [htime]
  cases hb : best.get? hop.targetComponent with
  | none => rfl
  | some b => exact if_pos (decide_eq_true (h b hb))

theorem relax_kept {e : RouteEntry} (htime : hop.transferNs byteCount = .ok (hop.time byteCount)) {b : ℚ ×ₗ List String}
    (hb : best.get? hop.targetComponent = some b) (h : ¬(goOn byteCount e hop).key < b) :
    relax byteCount e (best, queue) hop = .ok (best, queue) := by
  unfold relax
  rw [htime]
  refine if_neg ?_
  rw [hb]
  exact fun hless => h (of_decide_eq_true hless)

/-- **The hops out of a component are looked at one after the other.** -/
theorem relax_all {e : RouteEntry} {todo : List RouteHop} : ∀ {best : Dict String (ℚ ×ₗ List String)} {queue : List RouteEntry},
    (∀ hop ∈ todo, hop ∈ r.outOf source target e.component) →
    Loop r source target byteCount e.key settled (fun u x => u = e.component ∧ x ∈ todo) best queue → Sorted queue →
    Current (r.graph source target byteCount) first source e.key settled best.get? e.component e.hops →
    ∃ best' queue', todo.foldlM (relax byteCount e) (best, queue) = .ok (best', queue') ∧
      Loop r source target byteCount e.key settled (fun _ _ => False) best' queue' ∧ Sorted queue' ∧
      queue'.length ≤ queue.length + todo.length := by
  induction todo with
  | nil =>
    intro best queue _ h hsorted _
    refine ⟨best, queue, rfl, { h with covered := fun u hu hop hhop _ => ?_ }, hsorted, Nat.le_add_right _ _⟩
    exact h.covered u hu hop hhop fun hpending => (by cases hpending.2)
  | cons hop todo ih =>
    intro best queue hout h hsorted hcurrent
    obtain ⟨hhop, hout⟩ := List.forall_mem_cons.1 hout
    obtain ⟨-, hops, -, -, hadjacent, hmem⟩ := outOf_mem hhop
    have htime : hop.transferNs byteCount = .ok (hop.time byteCount) :=
      RouteHop.transferNs_ok (r.bandwidth_pos _ _ hadjacent hop hmem) byteCount
    rw [List.foldlM_cons]
    by_cases hbetter : ∀ b, best.get? hop.targetComponent = some b → (goOn byteCount e hop).key < b
    · rw [relax_better htime hbetter]
      have hperm : ((routePush queue (goOn byteCount e hop)).map entryOf).Perm
          (entryOf (goOn byteCount e hop) :: queue.map entryOf) := (routePush_perm _ _).map _
      obtain ⟨hfree, hpushed⟩ := h.push (ordered r source target byteCount) hcurrent hhop hbetter hperm
      have hupdate : (best.insert hop.targetComponent (goOn byteCount e hop).key).get? =
          Function.update best.get? hop.targetComponent (some (goOn byteCount e hop).key) := Dict.get?_insert_eq ..
      have hne : e.component ≠ hop.targetComponent := by
        intro he
        have hin := hcurrent.settled _ hcurrent.walk.mem_nodes
        rw [he] at hin
        exact hfree hin
      have hnext : Current (r.graph source target byteCount) first source e.key settled
          (best.insert hop.targetComponent (goOn byteCount e hop).key).get? e.component e.hops := by
        refine { hcurrent with best := ?_ }
        rw [hupdate, Function.update_of_ne hne]
        exact hcurrent.best
      obtain ⟨best', queue', hok, hloop, hsorted', hlength⟩ := ih hout (by rw [Loop, hupdate]; exact hpushed) (hsorted.push _) hnext
      refine ⟨best', queue', hok, hloop, hsorted', ?_⟩
      rw [(routePush_perm _ _).length_eq, List.length_cons] at hlength
      rw [List.length_cons]
      omega
    · simp only [not_forall] at hbetter
      obtain ⟨b, hb, hworse⟩ := hbetter
      rw [relax_kept htime hb hworse]
      have hkept : Loop r source target byteCount e.key settled (fun u x => u = e.component ∧ x ∈ todo) best queue :=
        h.keep hcurrent.best hb (not_lt.1 hworse)
      obtain ⟨best', queue', hok, hloop, hsorted', hlength⟩ := ih hout hkept hsorted hcurrent
      refine ⟨best', queue', hok, hloop, hsorted', ?_⟩
      rw [List.length_cons]
      omega

/-- A walk leads to known components. -/
theorem walk_known (hsource : source ∈ r.components.keys) (h : Walk (r.graph source target byteCount) source p name) :
    name ∈ r.components.keys := by
  cases h with
  | nil => exact hsource
  | snoc _ hhop =>
    obtain ⟨-, hops, -, -, ha, hmem⟩ := outOf_mem hhop
    exact r.known _ _ ha _ hmem

/-- What the search answers: a least walk without repeated components, or that
there is none. -/
def Answers (r : TopologyRouter) (source target : String) (byteCount : ℕ) : Option (List RouteHop) → Prop
  | some hops => Walk (r.graph source target byteCount) source hops target ∧
      (nodes (r.graph source target byteCount) source hops).Nodup ∧
      ∀ q, Walk (r.graph source target byteCount) source q target → (nodes (r.graph source target byteCount) source q).Nodup →
        routeKey byteCount hops ≤ routeKey byteCount q
  | none => ∀ q, Walk (r.graph source target byteCount) source q target →
      ¬(nodes (r.graph source target byteCount) source q).Nodup

/-- **With enough passes the search answers.** -/
theorem search_spec (hsource : source ∈ r.components.keys) : ∀ {fuel : ℕ} {best : Dict String (ℚ ×ₗ List String)}
    {queue : List RouteEntry} {now : ℚ ×ₗ List String} {settled : Finset String},
    Loop r source target byteCount now settled (fun _ _ => False) best queue → Sorted queue → target ∉ settled →
    work (r.graph source target byteCount) r.adjacency.keys.toFinset settled (queue.map entryOf) < fuel →
    ∃ answer, r.search source target byteCount fuel best queue = .ok answer ∧ Answers r source target byteCount answer := by
  intro fuel
  induction fuel with
  | zero =>
    intro _ _ _ _ _ _ _ hwork
    exact absurd hwork (Nat.not_lt_zero _)
  | succ fuel ih =>
    intro best queue now settled h hsorted htarget hwork
    have ho := ordered r source target byteCount
    have hnone : ∀ (u : String) (hop : RouteHop), ¬False := fun _ _ => id
    cases queue with
    | nil =>
      refine ⟨none, rfl, fun q hq hs => htarget ?_⟩
      exact h.unreached ho hnone hq hs
    | cons e queue =>
      have hshort : work (r.graph source target byteCount) r.adjacency.keys.toFinset settled (queue.map entryOf) + 1 =
          work (r.graph source target byteCount) r.adjacency.keys.toFinset settled ((e :: queue).map entryOf) := by
        rw [work, work, List.map_cons, List.length_cons]
        omega
      rw [search]
      by_cases hstale : best.get? e.component ≠ some e.key
      · rw [if_pos hstale]
        exact ih (h.stale hstale) hsorted.of_cons htarget (by omega)
      rw [if_neg hstale]
      have hbest : best.get? (entryOf e).node = some (entryOf e).key := not_not.1 hstale
      have hlead := h.leads (entryOf e) List.mem_cons_self
      by_cases hdone : e.component = target
      · rw [if_pos hdone]
        subst hdone
        refine ⟨some e.hops, rfl, hlead.walk, hlead.simple, fun q hq hs => ?_⟩
        have hle := h.first_least ho hnone hsorted.head_le hbest hq hs
        rw [hlead.key_eq, key_eq, key_eq] at hle
        exact hle
      rw [if_neg hdone]
      obtain ⟨component, hcomponent⟩ : ∃ component, r.components.get? e.component = some component :=
        Dict.mem_keys.1 (walk_known hsource hlead.walk)
      have hnew : e.component ∉ settled := fun hin => h.once (entryOf e) List.mem_cons_self hin hbest
      have hsettle : Loop r source target byteCount e.key (insert e.component settled)
          (fun u hop => u = e.component ∧ hop ∈ r.outOf source target e.component) best queue :=
        h.settle ho hnone hsorted.head_le hbest
      have hcurrent : Current (r.graph source target byteCount) first source e.key (insert e.component settled) best.get?
          e.component e.hops := h.current hbest
      have hfree : target ∉ insert e.component settled := by
        rw [Finset.mem_insert, not_or]
        exact ⟨fun he => hdone he.symm, htarget⟩
      have hless : work (r.graph source target byteCount) r.adjacency.keys.toFinset (insert e.component settled)
          (queue.map entryOf) + (r.outOf source target e.component).length =
          work (r.graph source target byteCount) r.adjacency.keys.toFinset settled (queue.map entryOf) := by
        refine BestFirst.work_settle (fun hout => List.eq_nil_iff_forall_not_mem.2 fun hop hhop => hout ?_) hnew
        obtain ⟨-, hops, -, -, ha, -⟩ := outOf_mem hhop
        exact List.mem_toFinset.2 (Dict.mem_keys_of_get? ha)
      have hout : r.outOf source target e.component =
          if transits source target e.component component then (r.adjacency.get? e.component).getD [] else [] := by
        rw [outOf, hcomponent]
      rw [hcomponent]
      dsimp only
      by_cases htransits : transits source target e.component component = true
      · rw [if_pos htransits] at hout ⊢
        obtain ⟨best', queue', hok, hloop, hsorted', hlength⟩ := relax_all (fun hop hhop => hhop) hsettle hsorted.of_cons hcurrent
        rw [← hout, hok]
        refine ih hloop hsorted' hfree ?_
        have hgrown : work (r.graph source target byteCount) r.adjacency.keys.toFinset (insert e.component settled)
            (queue'.map entryOf) ≤ work (r.graph source target byteCount) r.adjacency.keys.toFinset (insert e.component settled)
              (queue.map entryOf) + (r.outOf source target e.component).length := by
          rw [work, work, List.length_map, List.length_map]
          omega
        exact lt_of_le_of_lt hgrown (by omega)
      · rw [if_neg htransits] at hout ⊢
        refine ih { hsettle with covered := fun u hu hop hhop _ => ?_ } hsorted.of_cons hfree (by omega)
        exact hsettle.covered u hu hop hhop fun ⟨hu, hin⟩ => by
          rw [hout] at hin
          cases hin

/-! ## Routes -/

/-- The hops lead from one component to another. -/
def Chain (r : TopologyRouter) : String → List RouteHop → String → Prop
  | name, [], last => name = last
  | name, hop :: hops, last => hop ∈ (r.adjacency.get? name).getD [] ∧ Chain r hop.targetComponent hops last

/-- A component lets the routes of a query through. -/
def AllowsTransit (source target : String) (component : ComponentSpec) : Prop :=
  component.routingTransit = true ∧ ∀ endpoints ∈ component.routingTransitEndpoints, source ∈ endpoints ∨ target ∈ endpoints

/-- A route of a query: it leads from the source to the target, repeats no
component and passes through those that allow it. -/
structure SimplePath (r : TopologyRouter) (source target : String) (hops : List RouteHop) : Prop where
  known : source ∈ r.components.keys
  chain : Chain r source hops target
  simple : (source :: hops.map (·.targetComponent)).Nodup
  transit : ∀ hop ∈ hops.dropLast, ∀ component, r.components.get? hop.targetComponent = some component →
    AllowsTransit source target component

theorem transits_eq_true {component : ComponentSpec} :
    transits source target name component = true ↔ name = source ∨ AllowsTransit source target component := by
  rw [transits, AllowsTransit]
  cases component.routingTransitEndpoints with
  | none => simp
  | some endpoints => simp

theorem chain_snoc : ∀ {p : List RouteHop} {name last : String},
    Chain r name (p ++ [hop]) last ↔ ∃ middle, Chain r name p middle ∧ hop ∈ (r.adjacency.get? middle).getD [] ∧
      hop.targetComponent = last
  | [], name, last => by
    constructor
    · intro ⟨hin, hlast⟩
      exact ⟨name, rfl, hin, hlast⟩
    · intro ⟨middle, hchain, hin, hlast⟩
      obtain rfl : name = middle := hchain
      exact ⟨hin, hlast⟩
  | x :: p, name, last => by
    constructor
    · intro ⟨hx, hrest⟩
      obtain ⟨middle, hchain, hin, hlast⟩ := chain_snoc.1 hrest
      exact ⟨middle, ⟨hx, hchain⟩, hin, hlast⟩
    · intro ⟨middle, ⟨hx, hchain⟩, hin, hlast⟩
      exact ⟨hx, chain_snoc.2 ⟨middle, hchain, hin, hlast⟩⟩

theorem mem_outOf {component : ComponentSpec} (h : r.components.get? name = some component) :
    hop ∈ r.outOf source target name ↔
      (name = source ∨ AllowsTransit source target component) ∧ hop ∈ (r.adjacency.get? name).getD [] := by
  rw [outOf, h]
  dsimp only
  by_cases htransits : transits source target name component = true
  · rw [if_pos htransits, and_iff_right (transits_eq_true.1 htransits)]
  · rw [if_neg htransits]
    exact iff_of_false (List.not_mem_nil) fun hboth => htransits (transits_eq_true.2 hboth.1)

/-- All the components on the way let the route through. -/
def Passes (r : TopologyRouter) (source target : String) (hops : List RouteHop) : Prop :=
  ∀ hop ∈ hops, ∀ component, r.components.get? hop.targetComponent = some component → AllowsTransit source target component

theorem walk_iff (hsource : source ∈ r.components.keys) (hsimple : (source :: p.map (·.targetComponent)).Nodup) :
    Walk (r.graph source target byteCount) source p name ↔ Chain r source p name ∧ Passes r source target p.dropLast := by
  induction p using List.reverseRecOn generalizing name with
  | nil =>
    rw [BestFirst.walk_nil]
    exact (and_iff_left fun hop hhop => (by cases hhop)).symm
  | append_singleton p last ih =>
    have hshort : (source :: p.map (·.targetComponent)).Nodup := by
      rw [List.map_append, ← List.cons_append] at hsimple
      exact hsimple.of_append_left
    rw [BestFirst.walk_snoc, chain_snoc, List.dropLast_concat]
    have hlast : ∀ {u}, Walk (r.graph source target byteCount) source p u →
        (last ∈ r.outOf source target u ↔ Passes r source target p ∧ last ∈ (r.adjacency.get? u).getD []) := by
      intro u hwalk
      obtain ⟨component, hcomponent⟩ := Dict.mem_keys.1 (walk_known hsource hwalk)
      rw [mem_outOf hcomponent]
      refine and_congr_left fun _ => ?_
      obtain ⟨hchain, hpasses⟩ := (ih hshort).1 hwalk
      cases p using List.reverseRecOn with
      | nil =>
        obtain rfl : source = u := hchain
        exact iff_of_true (.inl rfl) fun hop hhop => (by cases hhop)
      | append_singleton p x =>
        obtain ⟨-, -, -, rfl⟩ := chain_snoc.1 hchain
        rw [List.dropLast_concat] at hpasses
        have hne : x.targetComponent ≠ source := by
          intro he
          rw [List.nodup_cons] at hshort
          exact hshort.1 (he ▸ List.mem_map_of_mem (List.mem_append_right _ List.mem_cons_self))
        rw [or_iff_right hne]
        constructor
        · intro hallows hop hhop other hother
          rcases List.mem_append.1 hhop with hhop | hhop
          · exact hpasses hop hhop other hother
          · rw [List.mem_singleton.1 hhop, hcomponent] at hother
            exact Option.some.inj hother ▸ hallows
        · intro hall
          exact hall x (List.mem_append_right _ List.mem_cons_self) component hcomponent
    constructor
    · intro ⟨u, hwalk, hin, hname⟩
      obtain ⟨hpasses, hadjacent⟩ := (hlast hwalk).1 hin
      exact ⟨⟨u, ((ih hshort).1 hwalk).1, hadjacent, hname⟩, hpasses⟩
    · intro ⟨⟨u, hchain, hadjacent, hname⟩, hpasses⟩
      have hwalk : Walk (r.graph source target byteCount) source p u :=
        (ih hshort).2 ⟨hchain, fun hop hhop => hpasses hop (List.mem_of_mem_dropLast hhop)⟩
      exact ⟨u, hwalk, (hlast hwalk).2 ⟨hpasses, hadjacent⟩, hname⟩

variable (byteCount) in
/-- **The walks of the graph are the routes.** -/
theorem simplePath_iff (hsource : source ∈ r.components.keys) : SimplePath r source target p ↔
    Walk (r.graph source target byteCount) source p target ∧ (nodes (r.graph source target byteCount) source p).Nodup := by
  constructor
  · intro h
    exact ⟨(walk_iff hsource h.simple).2 ⟨h.chain, h.transit⟩, h.simple⟩
  · intro ⟨h, hsimple⟩
    obtain ⟨hchain, htransit⟩ := (walk_iff hsource hsimple).1 h
    exact ⟨hsource, hchain, hsimple, htransit⟩

/-- Routes from one component with the same names are the same. -/
theorem chain_unique : ∀ {p q : List RouteHop} {name last last' : String}, Chain r name p last → Chain r name q last' →
    signature p = signature q → p = q
  | [], [], _, _, _, _, _, _ => rfl
  | [], hop :: q, _, _, _, _, _, h => by
    have hlength := congrArg List.length h
    rw [length_signature, length_signature] at hlength
    simp at hlength
  | hop :: p, [], _, _, _, _, _, h => by
    have hlength := congrArg List.length h
    rw [length_signature, length_signature] at hlength
    simp at hlength
  | hop :: p, hop' :: q, name, last, last', ⟨hin, hp⟩, ⟨hin', hq⟩, h => by
    simp only [signature, List.flatMap_cons, List.cons_append, List.nil_append, List.cons.injEq] at h
    obtain ⟨hlink, htarget, hrest⟩ := h
    have hsame : hop = hop' := by
      cases ha : r.adjacency.get? name with
      | none => rw [ha] at hin; cases hin
      | some hops =>
        rw [ha] at hin hin'
        exact r.named name hops ha hop hin hop' hin' hlink htarget
    rw [hsame, chain_unique (hsame ▸ hp) hq hrest]

/-- The route of a query: simple, and before every other simple one. -/
def Best (r : TopologyRouter) (source target : String) (byteCount : ℕ) (hops : List RouteHop) : Prop :=
  SimplePath r source target hops ∧ ∀ q, SimplePath r source target q → q ≠ hops → routeKey byteCount hops < routeKey byteCount q

theorem work_start (r : TopologyRouter) (source target : String) (byteCount : ℕ) :
    work (r.graph source target byteCount) r.adjacency.keys.toFinset ∅ ([⟨0, [], source, []⟩].map entryOf) < r.passes := by
  have hout : ∀ name, (r.outOf source target name).length ≤ ((r.adjacency.get? name).getD []).length := by
    intro name
    unfold outOf
    split
    · exact Nat.zero_le _
    · split
      · exact le_rfl
      · exact Nat.zero_le _
  have hsum : ∑ name ∈ r.adjacency.keys.toFinset, ((r.adjacency.get? name).getD []).length =
      (r.adjacency.values.map List.length).sum := by
    rw [List.sum_toFinset _ r.adjacency.keys_nodup, Dict.keys, Dict.values, List.map_map, List.map_map]
    refine congrArg List.sum (List.map_congr_left fun pair hpair => ?_)
    rw [Function.comp_apply, Dict.get?_eq_some.2 hpair]
    rfl
  have hle := Finset.sum_le_sum fun name (_ : name ∈ r.adjacency.keys.toFinset) => hout name
  rw [hsum] at hle
  rw [work, Finset.sdiff_empty, passes]
  show 1 + ∑ name ∈ r.adjacency.keys.toFinset, (r.outOf source target name).length < _
  omega

/-- **The search answers the route, or raises because there is none.** -/
theorem searchRoute_spec (hsource : source ∈ r.components.keys) (target : String) (byteCount : ℕ) :
    (∃ hops, r.searchRoute source target byteCount = .ok hops ∧ Best r source target byteCount hops) ∨
    (∃ message, r.searchRoute source target byteCount = .error (.value message)) ∧ ∀ p, ¬SimplePath r source target p := by
  have hopen : Loop r source target byteCount first ∅ (fun _ _ => False) (Dict.empty.insert source first) [⟨0, [], source, []⟩] := by
    have hempty : (Dict.empty : Dict String (ℚ ×ₗ List String)).get? = fun _ => none := rfl
    rw [Loop, Dict.get?_insert_eq, hempty]
    exact BestFirst.searching_start
  obtain ⟨answer, hok, hanswer⟩ := search_spec hsource hopen (List.pairwise_singleton _ _) (Finset.notMem_empty _)
    (work_start r source target byteCount)
  cases answer with
  | some hops =>
    have hroute : r.searchRoute source target byteCount = .ok hops := by
      rw [searchRoute, hok]
      rfl
    obtain ⟨hwalk, hsimple, hleast⟩ := hanswer
    have hpath : SimplePath r source target hops := (simplePath_iff byteCount hsource).2 ⟨hwalk, hsimple⟩
    refine .inl ⟨hops, hroute, hpath, fun q hq hne => ?_⟩
    obtain ⟨hwalk', hsimple'⟩ := (simplePath_iff byteCount hsource).1 hq
    refine (hleast q hwalk' hsimple').lt_of_ne fun hkey => hne ?_
    exact (chain_unique hpath.chain hq.chain (congrArg (fun k => (ofLex k).2) hkey)).symm
  | none =>
    have hroute : r.searchRoute source target byteCount =
        .error (.value ("no communication route from " ++ source ++ " to " ++ target)) := by
      rw [searchRoute, hok]
      rfl
    refine .inr ⟨⟨_, hroute⟩, fun p hp => ?_⟩
    obtain ⟨hwalk, hsimple⟩ := (simplePath_iff byteCount hsource).1 hp
    exact hanswer p hwalk hsimple

/-- The route from a component to itself is empty. -/
theorem best_self (hsource : source ∈ r.components.keys) (byteCount : ℕ) : Best r source source byteCount [] := by
  refine ⟨⟨hsource, rfl, List.nodup_singleton _, fun hop hhop => (by cases hhop)⟩, fun q hq hne => ?_⟩
  obtain ⟨p, hop, rfl⟩ := (List.eq_nil_or_concat q).resolve_left hne
  -- any other would come back
  have hchain := hq.chain
  rw [List.concat_eq_append] at hchain
  obtain ⟨-, -, -, hlast⟩ := chain_snoc.1 hchain
  have hsimple := (List.nodup_cons.1 hq.simple).1
  rw [List.concat_eq_append, List.map_append] at hsimple
  exact absurd (List.mem_append_right _ (List.mem_singleton.2 hlast.symm)) hsimple

/-! ## Answers that are kept -/

/-- What a query answers, and the table after it. -/
def answer {α : Type} : EStateM.Result RouterError RouteCache α → Except RouterError α
  | .ok a _ => .ok a
  | .error e _ => .error e

def table {α : Type} : EStateM.Result RouterError RouteCache α → RouteCache
  | .ok _ cache => cache
  | .error _ cache => cache

/-- Every answer that is kept is the search's. -/
def Faithful (r : TopologyRouter) (cache : RouteCache) : Prop :=
  ∀ source target byteCount policy hops, cache.get? (source, target, byteCount, policy) = some hops →
    r.searchRoute source target byteCount = .ok hops

/-- What a query answers without the table. -/
def freshRoute (r : TopologyRouter) (source target : String) (byteCount : ℤ) (policy : String) :
    Except RouterError (List RouteHop) := do
  refuse (byteCount < 0) (.value "byte_count must be a non-negative integer")
  refuse (source ∉ r.components.keys) (.value ("unknown route source component " ++ source))
  refuse (target ∉ r.components.keys) (.value ("unknown route target component " ++ target))
  if source = target then .ok []
  else do
    refuse (normalizedPolicy policy ≠ "lowest_latency") (.value ("unsupported routing policy " ++ policy))
    r.searchRoute source target byteCount.toNat

/-- A guard before a computation with a table. -/
theorem answer_refuse {α : Type} {c : Prop} [Decidable c] {e : RouterError} {m : EStateM RouterError RouteCache α}
    {x : Except RouterError α} {cache : RouteCache} (hcache : r.Faithful cache)
    (h : ¬c → answer (m cache) = x ∧ r.Faithful (table (m cache))) :
    answer ((raise (refuse c e) >>= fun _ => m) cache) = (refuse c e >>= fun _ => x) ∧
      r.Faithful (table ((raise (refuse c e) >>= fun _ => m) cache)) := by
  by_cases hc : c
  · have hraise : refuse c e = .error e := if_pos hc
    rw [error_bind (raise_error hraise), hraise]
    exact ⟨rfl, hcache⟩
  · have hpass : refuse c e = .ok () := if_neg hc
    rw [ok_bind (raise_ok hpass), hpass]
    exact h hc

theorem Faithful.store {cache : RouteCache} (h : r.Faithful cache) {policy : String} {hops : List RouteHop}
    (hsearch : r.searchRoute source target byteCount = .ok hops) :
    r.Faithful (storeRoute (source, target, byteCount, policy) hops cache) := by
  have hstored : r.Faithful ((cache.insert (source, target, byteCount, policy) hops).moveToEnd
      (source, target, byteCount, policy)) := by
    intro source' target' byteCount' policy' hops' hget
    rw [Memo.get?_moveToEnd, Dict.get?_insert] at hget
    split at hget
    · next hkey =>
      obtain ⟨rfl, rfl, rfl, rfl⟩ := hkey
      rw [hsearch, Option.some.inj hget]
    · exact h _ _ _ _ _ hget
  unfold storeRoute
  dsimp only
  split
  · exact fun _ _ _ _ _ hget => hstored _ _ _ _ _ (Memo.get?_of_tail hget)
  · exact hstored

/-- **A query answers as the search does**, and keeps its table faithful. -/
theorem Faithful.route {cache : RouteCache} (h : r.Faithful cache) (source target : String) (byteCount : ℤ) (policy : String) :
    answer (r.route source target byteCount policy cache) = r.freshRoute source target byteCount policy ∧
      r.Faithful (table (r.route source target byteCount policy cache)) := by
  unfold TopologyRouter.route freshRoute
  refine answer_refuse h fun _ => answer_refuse h fun _ => answer_refuse h fun _ => ?_
  split
  · exact ⟨rfl, h⟩
  refine answer_refuse h fun _ => ?_
  rw [get_then]
  cases hcached : cache.get? (source, target, byteCount.toNat, normalizedPolicy policy) with
  | some cached =>
    refine ⟨(h _ _ _ _ _ hcached).symm, fun source' target' byteCount' policy' hops hget => ?_⟩
    have hsame : (cache.moveToEnd (source, target, byteCount.toNat, normalizedPolicy policy)).get?
        (source', target', byteCount', policy') = some hops := hget
    rw [Memo.get?_moveToEnd] at hsame
    exact h _ _ _ _ _ hsame
  | none =>
    cases hsearch : r.searchRoute source target byteCount.toNat with
    | error e => exact ⟨rfl, h⟩
    | ok hops =>
      exact ⟨rfl, h.store hsearch⟩

/-- The tables that queries lead to. -/
def Queries (r : TopologyRouter) (cache : RouteCache) (query : String × String × ℤ × String) (cache' : RouteCache) : Prop :=
  cache' = table (r.route query.1 query.2.1 query.2.2.1 query.2.2.2 cache)

theorem freshRoute_known (hsource : source ∈ r.components.keys) (htarget : target ∈ r.components.keys) {policy : String}
    (hpolicy : normalizedPolicy policy = "lowest_latency") : r.freshRoute source target byteCount policy =
      if source = target then .ok [] else r.searchRoute source target byteCount := by
  unfold freshRoute
  rw [(refuse_ok (u := ())).2 (not_lt.2 (Int.natCast_nonneg byteCount)), (refuse_ok (u := ())).2 (not_not.2 hsource),
    (refuse_ok (u := ())).2 (not_not.2 htarget), (refuse_ok (u := ())).2 (not_not.2 hpolicy)]
  rfl

theorem freshRoute_unknown (h : source ∉ r.components.keys ∨ target ∉ r.components.keys) (policy : String) :
    ∃ message, r.freshRoute source target byteCount policy = .error (.value message) := by
  unfold freshRoute
  rw [(refuse_ok (u := ())).2 (not_lt.2 (Int.natCast_nonneg byteCount))]
  by_cases hsource : source ∈ r.components.keys
  · rw [(refuse_ok (u := ())).2 (not_not.2 hsource)]
    have htarget : refuse (target ∉ r.components.keys) (RouterError.value ("unknown route target component " ++ target)) =
        .error _ := if_pos (h.resolve_left (not_not.2 hsource))
    rw [htarget]
    exact ⟨_, rfl⟩
  · have hunknown : refuse (source ∉ r.components.keys) (RouterError.value ("unknown route source component " ++ source)) =
        .error _ := if_pos hsource
    rw [hunknown]
    exact ⟨_, rfl⟩

/-- Without the table, the route is answered, or there is none. -/
theorem freshRoute_spec (r : TopologyRouter) (source target : String) (byteCount : ℕ) {policy : String}
    (hpolicy : normalizedPolicy policy = "lowest_latency") :
    (∃ hops, r.freshRoute source target byteCount policy = .ok hops ∧ Best r source target byteCount hops) ∨
    (∃ message, r.freshRoute source target byteCount policy = .error (.value message)) ∧ ∀ p, ¬SimplePath r source target p := by
  by_cases hsource : source ∈ r.components.keys
  · by_cases htarget : target ∈ r.components.keys
    · rw [freshRoute_known hsource htarget hpolicy]
      by_cases hself : source = target
      · subst hself
        rw [if_pos rfl]
        exact .inl ⟨[], rfl, best_self hsource byteCount⟩
      · rw [if_neg hself]
        exact searchRoute_spec hsource target byteCount
    · refine .inr ⟨freshRoute_unknown (.inr htarget) policy, fun p hp => htarget ?_⟩
      exact walk_known hsource ((simplePath_iff byteCount hsource).1 hp).1
  · exact .inr ⟨freshRoute_unknown (.inl hsource) policy, fun p hp => hsource hp.known⟩

/-- **Routing is optimal.** After any queries, a route is answered that is
simple, passes only through components that allow it, and is before every
other such route in time and names; or an error is raised, and there is none.
An empty table would answer the same. -/
theorem route_optimal (r : TopologyRouter) {cache : RouteCache} (h : Reached (Queries r) (fun cache => cache = .empty) cache)
    (source target : String) (byteCount : ℕ) {policy : String} (hpolicy : normalizedPolicy policy = "lowest_latency") :
    ((∃ hops, answer (r.route source target byteCount policy cache) = .ok hops ∧ Best r source target byteCount hops) ∨
      (∃ message, answer (r.route source target byteCount policy cache) = .error (.value message)) ∧
        ∀ p, ¬SimplePath r source target p) ∧
    answer (r.route source target byteCount policy cache) = answer (r.route source target byteCount policy .empty) := by
  have hempty : r.Faithful .empty := fun _ _ _ _ _ hget => (by cases hget)
  have hfaithful : r.Faithful cache := by
    refine h.keeps (fun cache hcache => hcache ▸ hempty) fun cache query cache' hs hstep => ?_
    rw [Queries] at hstep
    rw [hstep]
    exact (hs.route _ _ _ _).2
  rw [(hfaithful.route source target byteCount policy).1, (hempty.route source target byteCount policy).1]
  exact ⟨freshRoute_spec r source target byteCount hpolicy, rfl⟩

end TopologyRouter

/-- A component without a service or ports. -/
def bareComponent (name : String) : ComponentSpec := ⟨name, false, .error "", 0, 0, .empty, true, none⟩

/-- Two components and a link between them. -/
def oneLink : HardwareSpec where
  components := [bareComponent "a", bareComponent "b"]
  links := [⟨"l", "a", "p", "b", "p", false, 8, 1, false, none, false, none, none, .ok 1, zero_le_one⟩]
  components_nodup := by decide
  links_nodup := List.nodup_singleton _

namespace TopologyRouter

theorem route_optimal_oneLink : ∃ r, oneLink.router = .ok r ∧
    ((∃ hops, answer (r.route "a" "b" (64 : ℕ) "lowest_latency" .empty) = .ok hops ∧ Best r "a" "b" 64 hops) ∨
      (∃ message, answer (r.route "a" "b" (64 : ℕ) "lowest_latency" .empty) = .error (.value message)) ∧
        ∀ p, ¬SimplePath r "a" "b" p) ∧
    answer (r.route "a" "b" (64 : ℕ) "lowest_latency" .empty) = answer (r.route "a" "b" (64 : ℕ) "lowest_latency" .empty) :=
  ⟨_, rfl, route_optimal _ (.of_init rfl) "a" "b" 64 (by decide +kernel)⟩

end TopologyRouter

end HeteroSim.Routing
