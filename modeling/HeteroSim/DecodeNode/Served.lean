/-
Whole runs: the startup, the decode calls and the steps of a serving run are
moves of the node, so that what the node keeps holds at every decode call.
-/
import HeteroSim.DecodeNode.Boundary

namespace HeteroSim.DecodeNode

variable {σ : Type} {config : ServingConfig} {callbacks : Callbacks σ} {start : List ServingRequest}

/-! ## One decode call -/

theorem ServingRequest.Valid.advanced {r : ServingRequest} (h : r.Valid) (hne : r.remainingDecodeTokens ≠ 1) :
    r.advanced.Valid := by
  refine ⟨h.input, h.output, ?_⟩
  have hpos := h.remaining
  rw [remaining_advanced]
  omega

theorem Outputs.completes_eq (o : Outputs) (measuring : Bool) (now : ℚ) (r : ServingRequest) :
    (o.completes measuring now r).survivors = o.survivors ∧
      (o.completes measuring now r).lastOutput = o.lastOutput.erase r.requestId := by
  unfold Outputs.completes
  split
  · exact ⟨rfl, rfl⟩
  · split <;> exact ⟨rfl, rfl⟩

/-- One request's turn: it survives with its output, or leaves with it. -/
theorem Outputs.output_ok {o : Outputs} {r : ServingRequest} (measuring : Bool) (now : ℚ) (hvalid : r.Valid)
    (hheard : r.requestId ∈ o.lastOutput.keys) :
    ∃ p, Outputs.output measuring now o r = .ok p ∧ p.survivors = o.survivors ++ surviving [r] ∧
      ∀ id ∈ o.lastOutput.keys, (r.remainingDecodeTokens = 1 → r.requestId ≠ id) → id ∈ p.lastOutput.keys := by
  obtain ⟨last, hlast⟩ := Dict.mem_keys.1 hheard
  unfold Outputs.output
  simp only [hlast]
  by_cases hone : r.remainingDecodeTokens = 1
  · rw [if_pos hone]
    refine ⟨_, rfl, ?_, fun id hid hne => ?_⟩
    · rw [(Outputs.completes_eq _ measuring now r).1]
      simp [surviving, hone]
    · rw [(Outputs.completes_eq _ measuring now r).2]
      exact Dict.mem_keys_erase.2 ⟨Dict.mem_keys_insert.2 (.inr hid), fun h => hne hone h.symm⟩
  · rw [if_neg hone, (hvalid.advanced hone).new]
    refine ⟨_, rfl, ?_, fun id hid _ => Dict.mem_keys_insert.2 (.inr hid)⟩
    simp [surviving, hone]

theorem surviving_cons (r : ServingRequest) (batch : List ServingRequest) :
    surviving (r :: batch) = surviving [r] ++ surviving batch := by
  simp only [surviving, ← List.map_append, ← List.filter_append, List.singleton_append]

theorem Outputs.outputs_ok (measuring : Bool) (now : ℚ) : ∀ {batch : List ServingRequest} {o : Outputs},
    (∀ r ∈ batch, r.Valid) → (ids batch).Nodup → (∀ r ∈ batch, r.requestId ∈ o.lastOutput.keys) →
    ∃ p, batch.foldlM (Outputs.output measuring now) o = .ok p ∧ p.survivors = o.survivors ++ surviving batch ∧
      ∀ id ∈ o.lastOutput.keys, (∀ r ∈ batch, r.remainingDecodeTokens = 1 → r.requestId ≠ id) → id ∈ p.lastOutput.keys
  | [], o, _, _, _ => ⟨o, rfl, by simp [surviving], fun id hid _ => hid⟩
  | r :: batch, o, hvalid, hnodup, hheard => by
    rw [ids, List.map_cons, List.nodup_cons] at hnodup
    obtain ⟨p, hp, hsurvivors, hkeys⟩ :=
      Outputs.output_ok measuring now (hvalid r List.mem_cons_self) (hheard r List.mem_cons_self)
    have hheard' : ∀ q ∈ batch, q.requestId ∈ p.lastOutput.keys := by
      intro q hq
      refine hkeys _ (hheard q (List.mem_cons_of_mem _ hq)) fun _ heq => hnodup.1 ?_
      rw [heq]
      exact List.mem_map_of_mem hq
    have hvalid' : ∀ q ∈ batch, q.Valid := fun q hq => hvalid q (List.mem_cons_of_mem _ hq)
    obtain ⟨u, hu, hsurvivors', hkeys'⟩ := Outputs.outputs_ok measuring now hvalid' hnodup.2 hheard'
    refine ⟨u, ?_, ?_, fun id hid hne => hkeys' id (hkeys id hid (hne r List.mem_cons_self)) fun q hq =>
      hne q (List.mem_cons_of_mem _ hq)⟩
    · rw [List.foldlM_cons, hp]
      exact hu
    · rw [hsurvivors', hsurvivors, surviving_cons r batch, List.append_assoc]

/-- The node between two steps: what the last one admitted has run. -/
def Controller.rested (start : List ServingRequest) (s : Controller σ) : Node :=
  { s.node start with admissions := [] }

theorem Controller.decode_ok (hcallbacks : callbacks.Timely) {s : Controller σ} (hs : (s.node start).Sound config)
    (hheard : s.Heard) (measuring : Bool) (iterationStart : ℚ) :
    ∃ t, s.decode config callbacks measuring iterationStart = .ok t ∧ Moves config (s.node start) (t.rested start) ∧
      t.Heard := by
  have hfinish := hcallbacks.later s.callbacks s.active s.pending s.now
  have hnodup : (ids s.active).Nodup := hs.nodup.sublist (List.sublist_append_left _ _)
  obtain ⟨o, ho, hsurvivors, hkeys⟩ := Outputs.outputs_ok (o := s.outputs) measuring
    (callbacks.executeDecode s.callbacks s.active s.pending s.now).2.endNs hs.valid hnodup hheard
  have hactive : o.survivors = surviving s.active := by
    rw [hsurvivors]
    rfl
  have hmoves : Node.Step config (s.node start) (.decode _) _ := .decode hfinish
  have hheard' : ∀ r ∈ o.survivors, r.requestId ∈ o.lastOutput.keys := by
    intro r hr
    rw [hactive] at hr
    obtain ⟨q, hq, hne, rfl⟩ := mem_surviving.1 hr
    refine hkeys _ (hheard q hq) fun p hp hone heq => hne ?_
    have hpq : p = q := List.inj_on_of_nodup_map hnodup hp hq heq
    exact hpq ▸ hone
  change s.active.foldlM (Outputs.output measuring (callbacks.executeDecode s.callbacks s.active s.pending s.now).2.endNs)
    s.outputs = .ok o at ho
  unfold Controller.decode
  simp only [refuse, not_le.2 hfinish, if_false, bind, Except.bind, ho]
  have hrested : ∀ window, (({ s.decoded (callbacks.executeDecode s.callbacks s.active s.pending s.now).1
      (callbacks.executeDecode s.callbacks s.active s.pending s.now).2.endNs o with window } : Controller σ).rested start) =
      (s.node start).decode (callbacks.executeDecode s.callbacks s.active s.pending s.now).2.endNs := by
    intro window
    simp only [Controller.rested, Controller.node, Controller.decoded, Node.decode, hactive]
  split
  · exact ⟨_, rfl, by rw [hrested]; exact .step hmoves, hheard'⟩
  · exact ⟨_, rfl, by rw [hrested]; exact .step hmoves, hheard'⟩

/-! ## The steps -/

/-- Fuel for the waits of one step. -/
def enough (config : ServingConfig) : ℕ := config.arrivalTimesNs.length + 2 * config.batchSize + 1

theorem outputsAt_keys (now : ℚ) : ∀ {batch : List ServingRequest} {d : Dict ℕ ℚ} {id : ℕ},
    id ∈ (batch.foldl (fun d r => d.insert r.requestId now) d).keys ↔ id ∈ ids batch ∨ id ∈ d.keys
  | [], d, id => by simp [ids]
  | r :: batch, d, id => by
    rw [List.foldl_cons, outputsAt_keys now]
    simp only [Dict.mem_keys_insert, ids, List.map_cons, List.mem_cons]
    tauto

theorem Controller.enterStep_node (s : Controller σ) (step : ℕ) :
    (s.enterStep config step).node start = s.rested start := by
  unfold Controller.enterStep
  split <;> rfl

theorem Controller.enterStep_heard {s : Controller σ} (hs : s.Heard) (step : ℕ) : (s.enterStep config step).Heard := by
  unfold Controller.enterStep
  split
  · intro r hr
    exact (outputsAt_keys s.now).2 (.inl (List.mem_map_of_mem hr))
  · exact hs

/-- **The steps run through**, by the node's moves. -/
theorem Controller.runSteps_ends (hcallbacks : callbacks.Timely) : ∀ (steps : List ℕ) {s : Controller σ},
    (s.rested start).Sound config → s.Heard → ∃ run, (∀ fuel, enough config ≤ fuel →
      s.runSteps config callbacks fuel steps = .ok run) ∧
      ∃ n, Moves config (s.rested start) n ∧ n.issues = run.2.issues ∧ n.calls = run.2.calls
  | [], s, _, _ => ⟨(.completed, s), fun _ _ => rfl, s.rested start, .refl _, rfl, rfl⟩
  | step :: steps, s, hs, hheard => by
    have hle : (s.enterStep config step).left config ≤ config.arrivalTimesNs.length + 2 * config.batchSize :=
      (s.enterStep config step).left_le
    have hnode : (s.enterStep config step).node start = s.rested start := s.enterStep_node step
    have hentered : ((s.enterStep config step).node start).Sound config := hnode ▸ hs
    obtain ⟨t, hloop, hmoves, htheard⟩ := Controller.admitLoop_ends hcallbacks (enough config) hentered
      (Controller.enterStep_heard hheard step) (by unfold enough; push_cast; omega)
    rw [hnode] at hmoves
    by_cases hempty : t.active = []
    · refine ⟨(.arrivalsExhausted, t.exhausted (config.warmupSteps ≤ step)), fun fuel hfuel => ?_, t.node start, hmoves, ?_⟩
      · simp [Controller.runSteps, hloop fuel hfuel, hempty, bind, Except.bind]
      · unfold Controller.exhausted
        split <;> exact ⟨rfl, rfl⟩
    · obtain ⟨u, hdecode, hdecoded, huheard⟩ := Controller.decode_ok hcallbacks (hmoves.sound hs) htheard
        (config.warmupSteps ≤ step) s.now
      have hmoves' := hmoves.trans hdecoded
      obtain ⟨run, hrun, n, hn, hrest⟩ := Controller.runSteps_ends hcallbacks steps (hmoves'.sound hs) huheard
      refine ⟨run, fun fuel hfuel => ?_, n, hmoves'.trans hn, hrest⟩
      simp only [Controller.runSteps, hloop fuel hfuel, hempty, if_false, bind, Except.bind, hdecode]
      exact hrun fuel hfuel

end HeteroSim.DecodeNode

/-!
The serving run, from its startup to its result: it returns, and at each of
its decode calls every request runs in the slot it was issued for, for
exactly the calls its tokens take.
-/

namespace HeteroSim.DecodeNode

variable {σ : Type} {config : ServingConfig} {callbacks : Callbacks σ}

/-! ## Startup -/

theorem Node.Sound.initial {n : Node} (hactive : n.active = []) (hpending : n.pending = []) (hadmissions : n.admissions = [])
    (hstart : n.start = []) (hissues : n.issues = []) (hcalls : n.calls = []) : n.Sound config := by
  obtain ⟨now, requestId, active, pending, admissions, start, issues, calls⟩ := n
  simp only at hactive hpending hadmissions hstart hissues hcalls
  subst hactive hpending hadmissions hstart hissues hcalls
  exact ⟨.empty, by simp [ids, Node.pendingIds], by simp [ids, Node.pendingIds], by simp, by simp, by simp, by simp, by simp,
    by simp, .nil, by simp, by simp, by simp [DecodeNode.carried], by simp⟩

/-- One import for each slot, of requests of all ages. -/
theorem Controller.startupImports_ok (hcallbacks : callbacks.Timely) {s : Controller σ} (hs : (s.node []).Sound config)
    (hactive : s.active = []) (hpending : s.pending = []) (hcalls : s.calls = []) (hadmissions : s.iterationAdmissions = []) :
    ∀ {n : ℕ}, n ≤ config.batchSize →
      ∃ t, (List.range n).foldlM (fun t index => t.startupImport config callbacks index) s = .ok t ∧
        Moves config (s.node []) (t.node []) ∧ t.reservedSlots = List.range n ∧ t.active = [] ∧ t.calls = [] ∧
        t.iterationAdmissions = [] ∧ ∀ row ∈ t.pending, t.now < row.readyNs
  | 0, _ => ⟨s, rfl, .refl _, by rw [Controller.reservedSlots, hpending]; rfl, hactive, hcalls, hadmissions, by
      rw [hpending]; simp⟩
  | n + 1, hn => by
    obtain ⟨t, hfold, hmoves, hreserved, htactive, htcalls, htadmissions, hready⟩ :=
      Controller.startupImports_ok hcallbacks hs hactive hpending hcalls hadmissions (n := n) (by omega)
    obtain ⟨after, row, hschedule, hrequest, hlater⟩ := t.scheduleImport_ok hcallbacks n
      (config.initialAge_lt (by omega : n < config.batchSize))
    have hslot : row.request.slotId = n := by rw [hrequest]; rfl
    have hvalid : row.request.Valid := hrequest ▸ config.request_valid (config.initialAge_lt (by omega : n < config.batchSize))
    have hfree : n ∉ t.reservedSlots := by rw [hreserved]; simp
    have hroom : preparing t.active (t.pending ++ [row]) ≤ config.prefetchSlots := by
      rw [htactive]
      simp [preparing]
    have hstep : Node.Step config (t.node []) (.issue n row) _ :=
      .issue hslot (by omega) hfree hroom (by rw [hrequest]; rfl) hvalid hlater
    have hlast : (t.issue after row n).pending.getLast? = some row := by simp [Controller.issue]
    refine ⟨{ t.issue after row n with
      startupBytes := (t.issue after row n).startupBytes + row.transferBytes
      startupProgram := (t.issue after row n).startupProgram + row.physicalProgramBytes
      startupCosts := addCosts (t.issue after row n).startupCosts row.costs }, ?_, hmoves.trans (.step hstep), ?_, htactive,
      htcalls, htadmissions, ?_⟩
    · rw [List.range_succ, List.foldlM_append, hfold]
      simp [bind, Except.bind, Controller.startupImport, hschedule, hlast, pure, Except.pure]
    · change (t.pending ++ [row]).map (fun row => row.request.slotId) = _
      rw [List.map_append, List.map_singleton, hslot, List.range_succ, ← hreserved]
      rfl
    · intro x hx
      rcases List.mem_append.1 hx with hx | hx
      · exact hready x hx
      · rw [List.mem_singleton.1 hx]
        exact hlater

theorem Controller.started_ok (config : ServingConfig) {s : Controller σ} (hpending : s.pending ≠ []) (hactive : s.active = [])
    (hcalls : s.calls = []) (hadmissions : s.iterationAdmissions = []) (hready : ∀ row ∈ s.pending, s.now < row.readyNs) :
    ∃ t, s.started = .ok t ∧ Moves config (s.node []) (t.node t.active) ∧ t.Heard ∧ t.iterationAdmissions = [] := by
  obtain ⟨now, hnow⟩ : ∃ now, (s.pending.map PendingAdmission.readyNs).max? = some now := by
    rw [← Option.isSome_iff_exists, List.isSome_max?_iff]
    simpa using hpending
  obtain ⟨hmem, hmax⟩ := List.max?_eq_some_iff.1 hnow
  obtain ⟨row, hrow, rfl⟩ := List.mem_map.1 hmem
  have hstep : Node.Step config (s.node []) (.begin row.readyNs) _ := .begin (hready row hrow).le
    (fun x hx => hmax _ (List.mem_map_of_mem hx)) hactive hadmissions hcalls
  unfold Controller.started
  rw [hnow]
  refine ⟨_, rfl, .step hstep, fun r hr => ?_, hadmissions⟩
  exact (outputsAt_keys _).2 (.inl (List.mem_map_of_mem hr))

/-- The run starts with one request in each slot, or, for outside arrivals, with none. -/
theorem Controller.startup_ok (hcallbacks : callbacks.Timely) {s : Controller σ} (hs : (s.node []).Sound config)
    (hactive : s.active = []) (hpending : s.pending = []) (hcalls : s.calls = []) (hadmissions : s.iterationAdmissions = []) :
    ∃ t, s.startup config callbacks = .ok t ∧ (t.rested t.active).Sound config ∧ t.Heard := by
  unfold Controller.startup
  cases config.arrivalPolicy with
  | exogenous =>
    refine ⟨s, rfl, ?_, ?_⟩
    · have hrested : s.rested s.active = s.node [] := by
        simp only [Controller.rested, Controller.node, hactive, hadmissions]
      rw [hrested]
      exact hs
    · intro r hr
      rw [hactive] at hr
      cases hr
  | completionMatched =>
    obtain ⟨t, hfold, hmoves, hreserved, htactive, htcalls, htadmissions, hready⟩ :=
      Controller.startupImports_ok hcallbacks hs hactive hpending hcalls hadmissions (le_refl config.batchSize)
    have hne : t.pending ≠ [] := by
      intro hnil
      have hlength := congrArg List.length hreserved
      rw [Controller.reservedSlots, hnil, List.length_range] at hlength
      exact absurd config.batch_pos (by simp only [List.map_nil, List.length_nil] at hlength; omega)
    obtain ⟨u, hstarted, hmoves', hheard, huadmissions⟩ :=
      Controller.started_ok config hne htactive htcalls htadmissions hready
    refine ⟨u, by simp only [hfold, bind, Except.bind, hstarted], ?_, hheard⟩
    have hrested : u.rested u.active = u.node u.active := by
      simp only [Controller.rested, Controller.node, huadmissions]
    rw [hrested]
    exact (hmoves.trans hmoves').sound hs

/-! ## The result -/

/-- What a run shows at its decode calls. -/
structure Served (config : ServingConfig) (issues : List Issue) (calls : List DecodeCall) : Prop where
  imports : ∀ i ∈ issues, i.Sound config
  decodes : ∀ c ∈ calls, c.Sound config issues
  takes : ∀ (k j : ℕ) (c d : DecodeCall) (r : ServingRequest), calls[k]? = some c → r ∈ c.active → calls[j]? = some d →
    k ≤ j → (r.requestId ∈ ids d.active ↔ j < k + r.remainingDecodeTokens)
  admitted : ∀ (k j : ℕ) (c d : DecodeCall) (row : PendingAdmission), calls[k]? = some c → row ∈ c.admissions →
    calls[j]? = some d → (row.request.requestId ∈ ids d.active ↔ k ≤ j ∧ j < k + row.request.remainingDecodeTokens)
  enters : ∀ (k : ℕ) (c d : DecodeCall), calls[k]? = some c → calls[k + 1]? = some d →
    d.active = surviving c.active ++ d.admissions.map PendingAdmission.request

theorem Node.Sound.served {n : Node} (h : n.Sound config) : Served config n.issues n.calls :=
  ⟨h.issues, h.calls, fun _ _ _ _ _ hc hr hd hkj => h.chained.exactly hc hr hd hkj,
    fun _ _ _ _ _ hc hrow hd => h.chained.admitted hc hrow hd, fun _ _ _ hc hd => h.chained.next hc hd⟩

/-- **A serving run ends, and serves every request in its slot**: with callbacks that keep their promise,
under every policy, prefetch width and lookahead. At each decode call the requests run in different slots of
the batch, one import at most waits for a slot, at most `prefetch_slots` for slots still taken, also whenever
one is issued; an admitted import is ready and takes the slot it was issued for; and a request takes part in
exactly its remaining tokens' calls, from its admission on. -/
theorem serving_served (config : ServingConfig) (callbacks : Callbacks σ) (init : σ) (hcallbacks : callbacks.Timely) :
    ∃ result, (∀ fuel, enough config ≤ fuel → runServing config callbacks fuel init = .ok result) ∧
      Served config result.issues result.calls := by
  have hinitial : (({ callbacks := init, now := config.startNs } : Controller σ).node []).Sound config :=
    .initial rfl rfl rfl rfl rfl rfl
  obtain ⟨s, hstartup, hs, hheard⟩ := Controller.startup_ok hcallbacks hinitial rfl rfl rfl rfl
  obtain ⟨run, hrun, n, hmoves, hissues, hcalls⟩ := Controller.runSteps_ends hcallbacks
    (List.range (config.warmupSteps + config.measurementSteps)) (s := s.opened) hs hheard
  refine ⟨run.2.result config run.1 s.now, fun fuel hfuel => ?_, ?_⟩
  · simp only [runServing, hstartup, bind, Except.bind, hrun fuel hfuel]
  · have hserved := (hmoves.sound hs).served
    rw [hissues, hcalls] at hserved
    exact hserved

/-! ## Two slots, three tokens a request -/

theorem twoSlots_ordered : ((0 : ℚ) :: []).Pairwise (· ≤ ·) := by simp

def twoSlots : ServingConfig where
  batchSize := 2
  inputTokens := 5
  outputTokens := 3
  warmupSteps := 1
  measurementSteps := 4
  prefetchSlots := 1
  importLookaheadTokens := 1
  arrivalPolicy := .completionMatched
  arrivalTimesNs := []
  fullBatchPolicy := .partialBatch
  staggerInitialAges := true
  prefillFirstOutputToken := false
  startNs := 0
  hbfCapacityBytes := 0
  retainStepRecords := true
  batch_pos := Nat.zero_lt_two
  input_pos := by omega
  output_pos := by omega
  measurement_pos := by omega
  start_nonneg := le_refl 0
  decodes := Nat.succ_pos 2
  prefetch_le := Nat.zero_lt_two
  arrivals_ordered := twoSlots_ordered
  no_arrivals := fun _ => rfl

/-- Imports take 15 ns, decode calls 10. -/
def steady : Callbacks Unit where
  importKv := fun c request time => (c, ⟨request, time + 15, 1, 0, 1, .empty⟩)
  executeDecode := fun c _ _ time => (c, ⟨time + 10, 0, 0, 0, .empty⟩)

theorem serving_served_twoSlots : ∃ result, runServing twoSlots steady 5 () = .ok result ∧
    result.calls.map (fun c => (ids c.active, c.admissions.length)) =
      [([0, 1], 0), ([0, 1], 0), ([0], 0), ([2], 1), ([2, 3], 1)] ∧
    Served twoSlots result.issues result.calls := by
  obtain ⟨result, hrun, hserved⟩ := serving_served twoSlots steady () ⟨fun _ _ _ => rfl,
    fun _ _ time => by change time < time + 15; linarith, fun _ _ _ time => by change time < time + 10; linarith⟩
  refine ⟨result, hrun 5 (by decide), ?_, hserved⟩
  have hcalls : (runServing twoSlots steady 5 ()).toOption.map
      (fun result => result.calls.map fun c => (ids c.active, c.admissions.length)) =
      some [([0, 1], 0), ([0, 1], 0), ([0], 0), ([2], 1), ([2, 3], 1)] := by
    decide +kernel
  rw [hrun 5 (by decide)] at hcalls
  exact Option.some.inj hcalls

end HeteroSim.DecodeNode
