/-
What the runtime's state says is what its history tells: every entry is the
life of its key, every sweep time the last sweep of its context. One
committed transition keeps this and does what the history asks of it.
-/
import HeteroSim.CudaGraph.Entries
import HeteroSim.CudaGraph.Lifecycle

namespace HeteroSim.CudaGraph

variable {V : Type}

/-! ## The sweep -/

/-- Every entry stands under its own key. -/
def Keyed (d : Dict Key (CudaGraphEntry V)) : Prop := ∀ p ∈ d.items, p.2.key = p.1

theorem Keyed.insert {d : Dict Key (CudaGraphEntry V)} (h : Keyed d) {key : Key} {e : CudaGraphEntry V}
    (hkey : e.key = key) : Keyed (d.insert key e) := by
  intro p hp
  rcases Dict.mem_items_insert.1 hp with rfl | ⟨-, hp⟩
  · exact hkey
  · exact h p hp

theorem Keyed.eraseAll {f : CudaGraphEntry V → Key} : ∀ {l : List (CudaGraphEntry V)} {d : Dict Key (CudaGraphEntry V)},
    Keyed d → Keyed (l.foldl (fun d e => d.erase (f e)) d)
  | [], _, h => h
  | _ :: l, _, h => Keyed.eraseAll (l := l) fun p hp => h p (Dict.mem_items_erase.1 hp).1

theorem byKey_items {s : CudaGraphState V} (h : (s.entries.map CudaGraphEntry.key).Nodup) :
    s.byKey.items = s.entries.map fun e => (e.key, e) := by
  refine Dict.items_collect ?_
  rw [List.map_map]
  exact h

theorem byKey_keyed {s : CudaGraphState V} (h : (s.entries.map CudaGraphEntry.key).Nodup) : Keyed s.byKey := by
  intro p hp
  rw [byKey_items h] at hp
  obtain ⟨e, -, rfl⟩ := List.mem_map.1 hp
  rfl

theorem mem_entries {s : CudaGraphState V} (h : (s.entries.map CudaGraphEntry.key).Nodup) {e : CudaGraphEntry V} :
    e ∈ s.entries ↔ s.byKey.get? e.key = some e := by
  rw [Dict.get?_eq_some, byKey_items h]
  simp

/-- Whether a lookup sweeps its context. -/
def Sweeps (s : CudaGraphState V) (context : String) (hostTimeUs : ℕ) : Prop :=
  sweepIntervalUs ≤ hostTimeUs - (s.sweeps.get? context).getD 0

instance (s : CudaGraphState V) (context : String) (hostTimeUs : ℕ) : Decidable (Sweeps s context hostTimeUs) :=
  inferInstanceAs (Decidable (_ ≤ _))

theorem sweep_keyed {s : CudaGraphState V} {context : String} {hostTimeUs : ℕ} (h : Keyed s.byKey) :
    Keyed (sweep s context hostTimeUs).entries := by
  unfold sweep
  split
  · exact h.eraseAll
  · exact h

theorem sweep_sweeps {s : CudaGraphState V} {context : String} {hostTimeUs : ℕ} (context' : String) :
    ((sweep s context hostTimeUs).sweeps.get? context').getD 0 =
      if context = context' ∧ Sweeps s context hostTimeUs then hostTimeUs else (s.sweeps.get? context').getD 0 := by
  by_cases hsweeps : Sweeps s context hostTimeUs
  · simp only [hsweeps, and_true, sweep, if_pos (show sweepIntervalUs ≤ _ from hsweeps), Dict.get?_insert]
    by_cases hcontext : context = context'
    · simp [hcontext]
    · simp [hcontext, Ne.symm hcontext]
  · simp only [hsweeps, and_false, if_false, sweep, if_neg (show ¬sweepIntervalUs ≤ _ from hsweeps)]

theorem mem_evicted {s : CudaGraphState V} {context : String} {hostTimeUs : ℕ} (hkeyed : Keyed s.byKey) {key : Key} :
    key ∈ (sweep s context hostTimeUs).evicted.map CudaGraphEntry.key ↔
      ∃ e, s.byKey.get? key = some e ∧ Sweeps s context hostTimeUs ∧ e.idle context hostTimeUs = true := by
  by_cases hsweeps : Sweeps s context hostTimeUs
  · simp only [sweep, if_pos (show sweepIntervalUs ≤ _ from hsweeps), List.mem_map, List.mem_filter, Dict.mem_values]
    constructor
    · rintro ⟨e, ⟨⟨k, hk⟩, hidle⟩, rfl⟩
      have hkey : e.key = k := hkeyed _ (Dict.get?_eq_some.1 hk)
      exact ⟨e, by rwa [hkey], hsweeps, hidle⟩
    · rintro ⟨e, he, -, hidle⟩
      exact ⟨e, ⟨⟨key, he⟩, hidle⟩, hkeyed _ (Dict.get?_eq_some.1 he)⟩
  · simp only [sweep, if_neg (show ¬sweepIntervalUs ≤ _ from hsweeps), List.map_nil, List.not_mem_nil, hsweeps, false_and,
      and_false, exists_false]

theorem sweep_entries {s : CudaGraphState V} {context : String} {hostTimeUs : ℕ} (hkeyed : Keyed s.byKey) (key : Key) :
    (sweep s context hostTimeUs).entries.get? key = (s.byKey.get? key).filter fun e =>
      !(decide (Sweeps s context hostTimeUs) && e.idle context hostTimeUs) := by
  have hmem := @mem_evicted _ s context hostTimeUs hkeyed key
  by_cases hsweeps : Sweeps s context hostTimeUs
  · have hentries : (sweep s context hostTimeUs).entries =
        (sweep s context hostTimeUs).evicted.foldl (fun d e => d.erase e.key) s.byKey := by
      simp only [sweep, if_pos (show sweepIntervalUs ≤ _ from hsweeps)]
    by_cases hevicted : key ∈ (sweep s context hostTimeUs).evicted.map CudaGraphEntry.key
    · obtain ⟨e, hget, -, hidle⟩ := hmem.1 hevicted
      rw [hentries, Dict.get?_foldl_erase_of_mem hevicted, hget, Option.filter_some]
      simp [hsweeps, hidle]
    · rw [hentries, Dict.get?_foldl_erase_of_not_mem hevicted]
      cases hget : s.byKey.get? key with
      | none => rfl
      | some e =>
        have hkept : e.idle context hostTimeUs = false := by
          by_contra hidle
          exact hevicted (hmem.2 ⟨e, hget, hsweeps, by simpa using hidle⟩)
        rw [Option.filter_some]
        simp [hkept]
  · simp only [sweep, if_neg (show ¬sweepIntervalUs ≤ _ from hsweeps), hsweeps, decide_false, Bool.false_and, Bool.not_false]
    cases s.byKey.get? key with
    | none => rfl
    | some e => rw [Option.filter_some]; rfl

/-! ## What the history tells -/

/-- An entry as its key's life tells it. -/
structure Tells (key : Key) (history : List (Prepared V)) (revision : ℕ) (e : CudaGraphEntry V) (l : Life V) : Prop where
  lastUse : e.lastUsedUs = l.lastUse
  properties : e.nodeProperties = l.ran.getD []
  uid : e.graphUid ≠ 0 → ∃ d ∈ history, d.key = key ∧ d.invocation.graphUid = e.graphUid ∧
    d.invocation.nodeProperties = e.nodeProperties
  warm : e.warmupComplete = true → e.graphExists = true ∧ e.executableGeneration ≠ 0 ∧ l.captured = some e.nodeProperties
  generation : e.executableGeneration ≤ revision

/-- A state as its history tells it. -/
structure Explained (history : List (Prepared V)) (s : CudaGraphState V) : Prop where
  entries_nodup : (s.entries.map CudaGraphEntry.key).Nodup
  sweeps_nodup : (s.lastSweeps.map Prod.fst).Nodup
  sweeps : ∀ context, (s.sweeps.get? context).getD 0 = lastSweep context history
  lives : ∀ key, Option.Rel (Tells key history s.revision) (s.byKey.get? key) (life key history)
  named : ∀ d ∈ history, ∀ id, d.transition.executableId = some id →
    ∃ scope generation, id = CudaGraphEntry.numbered scope ":exec:" generation ∧ generation ≤ s.revision
  entered : ∀ d ∈ history, ∀ e ∈ d.transition.state.entries, e.executableGeneration ≤ s.revision

theorem Explained.cold (object : ℕ) : Explained ([] : List (Prepared V)) (.cold object) where
  entries_nodup := List.nodup_nil
  sweeps_nodup := List.nodup_nil
  sweeps := fun _ => rfl
  lives := fun _ => .none
  named := by simp
  entered := by simp

theorem Tells.new (key : Key) (history : List (Prepared V)) (revision : ℕ) :
    Tells key history revision (.new key) ⟨0, none, none⟩ where
  lastUse := rfl
  properties := rfl
  uid := fun h => absurd rfl h
  warm := by intro h; cases h
  generation := Nat.zero_le _

theorem Tells.later {key : Key} {history : List (Prepared V)} {revision : ℕ} {e : CudaGraphEntry V} {l : Life V}
    (h : Tells key history revision e l) (c : Prepared V) : Tells key (c :: history) (revision + 1) e l where
  lastUse := h.lastUse
  properties := h.properties
  uid := by
    intro huid
    obtain ⟨d, hd, hrest⟩ := h.uid huid
    exact ⟨d, List.mem_cons_of_mem _ hd, hrest⟩
  warm := h.warm
  generation := h.generation.trans (Nat.le_succ _)

variable {s : CudaGraphState V} {earlier : List (Prepared V)} {c : Prepared V}

/-- A lookup's sweep ends the lives of the entries that it evicts. -/
theorem Explained.ends_iff (h : Explained earlier s) {key : Key} {e : CudaGraphEntry V} {l : Life V}
    (hkey : e.key = key) (htells : Tells key earlier s.revision e l) :
    Ends c earlier key l ↔
      Sweeps s c.invocation.contextId c.hostTimeUs ∧ e.idle c.invocation.contextId c.hostTimeUs = true := by
  subst hkey
  rw [Ends, Sweeps, h.sweeps, ← htells.lastUse]
  simp only [CudaGraphEntry.idle, CudaGraphEntry.key, Bool.and_eq_true, decide_eq_true_eq]
  tauto

theorem Explained.keyed (h : Explained earlier s) : Keyed s.byKey := byKey_keyed h.entries_nodup

/-- Every entry has a life that tells it. -/
theorem Explained.told (h : Explained earlier s) {e : CudaGraphEntry V} (he : e ∈ s.entries) :
    ∃ l, life e.key earlier = some l ∧ Tells e.key earlier s.revision e l := by
  have hlives := h.lives e.key
  rw [(mem_entries h.entries_nodup).1 he] at hlives
  generalize hlife : life e.key earlier = o at hlives
  cases hlives with
  | @some _ l htells => exact ⟨l, rfl, htells⟩

theorem Explained.present_iff (h : Explained earlier s) (key : Key) :
    key ∈ s.entries.map CudaGraphEntry.key ↔ (life key earlier).isSome = true := by
  constructor
  · intro hkey
    obtain ⟨e, he, rfl⟩ := List.mem_map.1 hkey
    obtain ⟨l, hlife, -⟩ := h.told he
    rw [hlife]
    rfl
  · intro hlife
    have hlives := h.lives key
    cases hget : s.byKey.get? key with
    | none =>
      rw [hget] at hlives
      generalize life key earlier = o at hlives hlife
      cases hlives
      cases hlife
    | some e =>
      have hkey : e.key = key := h.keyed _ (Dict.get?_eq_some.1 hget)
      exact List.mem_map.2 ⟨e, (mem_entries h.entries_nodup).2 (by rwa [hkey]), hkey⟩

/-- Behind the sweep, the entries are the lives that outlast it. -/
theorem Explained.swept (h : Explained earlier s) (key : Key) :
    Option.Rel (Tells key earlier s.revision)
      ((sweep s c.invocation.contextId c.hostTimeUs).entries.get? key) (outlasts c earlier key (life key earlier)) := by
  rw [sweep_entries h.keyed, outlasts]
  have hlives := h.lives key
  have hends : ∀ e l, s.byKey.get? key = some e → Tells key earlier s.revision e l → (Ends c earlier key l ↔
      Sweeps s c.invocation.contextId c.hostTimeUs ∧ e.idle c.invocation.contextId c.hostTimeUs = true) :=
    fun e l hget htells => h.ends_iff (h.keyed _ (Dict.get?_eq_some.1 hget)) htells
  generalize s.byKey.get? key = entry at hlives hends ⊢
  generalize life key earlier = l at hlives ⊢
  cases hlives with
  | none => exact .none
  | @some e l htells =>
    have hiff := hends e l rfl htells
    rw [Option.filter_some, Option.filter_some]
    by_cases hended : Ends c earlier key l
    · obtain ⟨hsweeps, hidle⟩ := hiff.1 hended
      simp only [hended, hsweeps, hidle, not_true, decide_true, decide_false, Bool.and_self, Bool.not_true, Bool.false_eq_true,
        if_false]
      exact .none
    · have hkept : (!(decide (Sweeps s c.invocation.contextId c.hostTimeUs) &&
          e.idle c.invocation.contextId c.hostTimeUs)) = true := by
        rw [Bool.not_eq_true', ← Bool.not_eq_true, Bool.and_eq_true, decide_eq_true_eq]
        exact mt hiff.2 hended
      rw [if_pos hkept, if_pos (by simpa using hended)]
      exact .some htells

theorem Explained.evicts (h : Explained earlier s) (key : Key) :
    key ∈ (sweep s c.invocation.contextId c.hostTimeUs).evicted.map CudaGraphEntry.key ↔
      ∃ l, life key earlier = some l ∧ Ends c earlier key l := by
  rw [mem_evicted h.keyed]
  have hlives := h.lives key
  constructor
  · rintro ⟨e, hget, hends⟩
    rw [hget] at hlives
    cases hlife : life key earlier with
    | none => rw [hlife] at hlives; cases hlives
    | some l =>
      rw [hlife] at hlives
      cases hlives with
      | some htells => exact ⟨l, rfl, (h.ends_iff (h.keyed _ (Dict.get?_eq_some.1 hget)) htells).2 hends⟩
  · rintro ⟨l, hlife, hends⟩
    rw [hlife] at hlives
    cases hget : s.byKey.get? key with
    | none => rw [hget] at hlives; cases hlives
    | some e =>
      rw [hget] at hlives
      cases hlives with
      | some htells => exact ⟨e, rfl, (h.ends_iff (h.keyed _ (Dict.get?_eq_some.1 hget)) htells).1 hends⟩

/-! ## One committed transition -/

section Step

variable [DecidableEq V]

theorem prepareCudaGraph_ok {i : CudaGraphInvocation V} {hostTimeUs object : ℕ} {allowUnknownUpdate : Bool}
    {t : CudaGraphTransition V} (h : prepareCudaGraph s i hostTimeUs allowUnknownUpdate object = .ok t) :
    s.known = true ∧ ∃ st,
      ({ ((sweep s i.contextId hostTimeUs).entries.get? i.key).getD (.new i.key) with
        lastUsedUs := hostTimeUs } : CudaGraphEntry V).invoke s.revision i allowUnknownUpdate = .ok st ∧
      t = transitionOf s i object (sweep s i.contextId hostTimeUs) st := by
  unfold prepareCudaGraph at h
  obtain ⟨_, hknown, h⟩ := bind_ok.1 h
  obtain ⟨_, -, h⟩ := bind_ok.1 h
  obtain ⟨st, hst, h⟩ := bind_ok.1 h
  cases h
  refine ⟨?_, st, hst, rfl⟩
  simpa [refuse] using hknown

/-- What a committed transition finds under its key, and what it makes of it. -/
structure Steps (c : Prepared V) (earlier : List (Prepared V)) (s : CudaGraphState V) (e : CudaGraphEntry V) (l : Life V)
    (st : Invoked V) : Prop where
  key : e.key = c.key
  tells : Tells c.key earlier s.revision e l
  found : l = (found c earlier).getD ⟨0, none, none⟩
  invoke : ({ e with lastUsedUs := c.hostTimeUs } : CudaGraphEntry V).invoke s.revision c.invocation
    c.allowUnknownUpdate = .ok st
  transition : c.transition = transitionOf s c.invocation c.object (sweep s c.invocation.contextId c.hostTimeUs) st

theorem Explained.steps (h : Explained earlier s)
    (hprep : prepareCudaGraph s c.invocation c.hostTimeUs c.allowUnknownUpdate c.object = .ok c.transition) :
    ∃ e l st, Steps c earlier s e l st := by
  obtain ⟨-, st, hst, htransition⟩ := prepareCudaGraph_ok hprep
  have hswept := h.swept (c := c) c.key
  have hkeyed : Keyed (sweep s c.invocation.contextId c.hostTimeUs).entries := sweep_keyed h.keyed
  change Option.Rel _ _ (CudaGraph.found c earlier) at hswept
  cases hget : (sweep s c.invocation.contextId c.hostTimeUs).entries.get? c.key with
  | none =>
    rw [show c.invocation.key = c.key from rfl, hget] at hst
    rw [hget] at hswept
    generalize hfound : CudaGraph.found c earlier = l at hswept
    cases hswept
    exact ⟨.new c.key, ⟨0, none, none⟩, st, rfl, .new _ _ _, by rw [hfound]; rfl, hst, htransition⟩
  | some e =>
    rw [show c.invocation.key = c.key from rfl, hget] at hst
    rw [hget] at hswept
    generalize hfound : CudaGraph.found c earlier = o at hswept
    cases hswept with
    | @some _ l htells =>
      exact ⟨e, l, st, hkeyed _ (Dict.get?_eq_some.1 hget), htells, by rw [hfound]; rfl, hst, htransition⟩

variable {e : CudaGraphEntry V} {l : Life V} {st : Invoked V}

/-- Equal nonzero uids vouch for what the entry remembers. -/
theorem Steps.vouched (h : Steps c earlier s e l st) (huids : UidsAgree (c :: earlier))
    (huid : c.invocation.graphUid ≠ 0) (hsame : c.invocation.graphUid = e.graphUid) :
    c.invocation.nodeProperties = e.nodeProperties := by
  obtain ⟨d, hd, hkey, hgraph, hproperties⟩ := h.tells.uid (hsame ▸ huid)
  rw [← hproperties]
  exact huids c List.mem_cons_self d (List.mem_cons_of_mem _ hd) hkey.symm huid (hsame.trans hgraph.symm)

/-- The cases of a committed transition. -/
theorem Steps.cases (h : Steps c earlier s e l st) (huids : UidsAgree (c :: earlier)) :
    c.invocation.runs = false ∧ st.entry = { e with lastUsedUs := c.hostTimeUs } ∧ st.useGraph = false ∧
      st.events = [.ordinarySubmit] ∨
    c.invocation.runs = true ∧ c.invocation.nodeProperties ≠ e.nodeProperties ∧ st.useGraph = false ∧
      st.events = [.ordinarySubmit] ∧ st.entry = { e with
        lastUsedUs := c.hostTimeUs, graphUid := c.invocation.graphUid
        nodeProperties := c.invocation.nodeProperties, warmupComplete := false } ∨
    c.invocation.runs = true ∧ c.invocation.nodeProperties = e.nodeProperties ∧ Launched s.revision { e with
      lastUsedUs := c.hostTimeUs, graphUid := c.invocation.graphUid
      nodeProperties := c.invocation.nodeProperties } st :=
  invoke_ok (h.vouched huids) h.invoke

theorem Steps.useGraph (h : Steps c earlier s e l st) : c.transition.useGraph = st.useGraph := by
  rw [h.transition]
  rfl

theorem Steps.events (h : Steps c earlier s e l st) : c.transition.events = st.events := by
  rw [h.transition]
  rfl

/-- The entry goes on as the life of its key. -/
theorem Steps.next (h : Steps c earlier s e l st) (huids : UidsAgree (c :: earlier)) :
    st.entry.key = c.key ∧ Tells c.key (c :: earlier) (s.revision + 1) st.entry (l.next c) := by
  have hlater := h.tells.later c
  have hown : ∃ d ∈ c :: earlier, d.key = c.key ∧ d.invocation.graphUid = c.invocation.graphUid ∧
      d.invocation.nodeProperties = c.invocation.nodeProperties := ⟨c, List.mem_cons_self, rfl, rfl, rfl⟩
  rcases h.cases huids with ⟨hruns, hentry, -, hevents⟩ | ⟨hruns, -, -, hevents, hentry⟩ | ⟨hruns, hproperties, hlaunch⟩
  · have hcapture : Event.capture ∉ c.transition.events := by rw [h.events, hevents]; decide
    rw [hentry]
    refine ⟨h.key, rfl, ?_, hlater.uid, ?_, hlater.generation⟩
    · simpa [Life.next, hruns] using hlater.properties
    · simpa [Life.next, hcapture] using hlater.warm
  · rw [hentry]
    refine ⟨h.key, rfl, ?_, fun _ => hown, by simp, hlater.generation⟩
    simp [Life.next, hruns]
  · have hentry := hlaunch.entry
    refine ⟨by rw [hentry]; exact h.key, by rw [hentry]; rfl, ?_, ?_, ?_, ?_⟩
    · rw [hentry]
      simp [Life.next, hruns]
    · rw [hentry]
      exact fun _ => hown
    · intro _
      have hgeneration : st.entry.executableGeneration ≠ 0 := by
        by_cases hnew : Event.instantiate ∈ st.events
        · rw [hlaunch.instantiated hnew]
          omega
        · rw [(hlaunch.kept hnew).2]
          exact (hlaunch.kept hnew).1
      have hkept : st.entry.nodeProperties = c.invocation.nodeProperties := by rw [hentry]
      rw [hkept]
      by_cases hcapture : Event.capture ∈ st.events
      · exact ⟨hlaunch.captured hcapture, hgeneration, by simp [Life.next, h.events, hcapture]⟩
      · obtain ⟨hwarm, hgraph⟩ := hlaunch.replayed hcapture
        obtain ⟨hexists, -, hcaptured⟩ := h.tells.warm hwarm
        refine ⟨hgraph.trans hexists, hgeneration, ?_⟩
        rw [hproperties, ← hcaptured]
        simp [Life.next, h.events, hcapture]
    · by_cases hnew : Event.instantiate ∈ st.events
      · rw [hlaunch.instantiated hnew]
      · rw [(hlaunch.kept hnew).2]
        exact hlater.generation

theorem Steps.launches_iff (h : Steps c earlier s e l st) (huids : UidsAgree (c :: earlier)) :
    st.useGraph = true ↔ c.invocation.runs = true ∧ l.ran = some c.invocation.nodeProperties := by
  have hran : l.ran = some c.invocation.nodeProperties ↔ c.invocation.nodeProperties = e.nodeProperties := by
    rw [h.tells.properties]
    cases l.ran with
    | none => simpa using c.invocation.nodes_ne
    | some p => simpa using eq_comm
  rw [hran]
  rcases h.cases huids with ⟨hruns, -, hnot, -⟩ | ⟨-, hne, hnot, -⟩ | ⟨hruns, hequal, hlaunch⟩
  · simp [hruns, hnot]
  · simp [hne, hnot]
  · simp [hruns, hequal, hlaunch.launched]

/-- An instantiated executable's number is one that no earlier one had. -/
theorem Steps.fresh (h : Steps c earlier s e l st) (hs : Explained earlier s) (huids : UidsAgree (c :: earlier))
    (hnew : Event.instantiate ∈ st.events) : ∃ id, c.transition.executableId = some id ∧
      ∀ d ∈ earlier, d.transition.executableId ≠ some id ∧ ∀ e ∈ d.transition.state.entries, e.executableId ≠ some id := by
  have hold : ∀ scope generation, generation ≤ s.revision →
      CudaGraphEntry.numbered (st.entry.contextId ++ ":" ++ st.entry.graphKey) ":exec:" (s.revision + 1) ≠
        CudaGraphEntry.numbered scope ":exec:" generation := by
    intro scope generation hle heq
    have := numbered_injective heq
    omega
  rcases h.cases huids with ⟨-, -, -, hevents⟩ | ⟨-, -, -, hevents, -⟩ | ⟨-, -, hlaunch⟩
  · simp [hevents] at hnew
  · simp [hevents] at hnew
  · refine ⟨CudaGraphEntry.numbered (st.entry.contextId ++ ":" ++ st.entry.graphKey) ":exec:" (s.revision + 1), ?_,
      fun d hd => ⟨fun hid => ?_, fun e he hid => ?_⟩⟩
    · rw [h.transition]
      simp [transitionOf, hlaunch.launched, CudaGraphEntry.executableId, hlaunch.instantiated hnew]
    · obtain ⟨scope, generation, hname, hle⟩ := hs.named d hd _ hid
      exact hold scope generation hle hname
    · obtain ⟨scope, hname⟩ := executableId_eq_some hid
      exact hold scope _ (hs.entered d hd e he) hname

/-- A committed transition does what its history asks of it. -/
theorem Steps.commits (h : Steps c earlier s e l st) (hs : Explained earlier s) (huids : UidsAgree (c :: earlier)) :
    Commits c earlier := by
  have hran : (CudaGraph.found c earlier).bind Life.ran = l.ran := by
    rw [h.found]
    cases CudaGraph.found c earlier <;> rfl
  have hcaptured : (CudaGraph.found c earlier).bind Life.captured = l.captured := by
    rw [h.found]
    cases CudaGraph.found c earlier <;> rfl
  refine ⟨?_, ?_, ?_, ?_⟩
  · rw [h.useGraph, hran, h.launches_iff huids, CudaGraphInvocation.runs, Bool.and_eq_true, and_assoc]
  · rw [h.useGraph, h.events, hcaptured]
    intro hlaunched hcapture
    rcases h.cases huids with ⟨-, -, hnot, -⟩ | ⟨-, -, hnot, -⟩ | ⟨-, hequal, hlaunch⟩
    · rw [hnot] at hlaunched
      cases hlaunched
    · rw [hnot] at hlaunched
      cases hlaunched
    · rw [hequal]
      exact (h.tells.warm (hlaunch.replayed hcapture).1).2.2
  · rw [h.events]
    exact h.fresh hs huids
  · intro key
    rw [h.transition]
    exact hs.evicts key

/-- The state behind a committed transition is the one its history tells. -/
theorem Steps.explained (h : Steps c earlier s e l st) (hs : Explained earlier s) (huids : UidsAgree (c :: earlier)) :
    Explained (c :: earlier) c.transition.state := by
  obtain ⟨hkey, hnext⟩ := h.next huids
  let swept := sweep s c.invocation.contextId c.hostTimeUs
  have hstate : c.transition.state = ⟨(swept.entries.insert c.key st.entry).values, swept.sweeps.items, s.revision + 1, true,
      s.unresolvedUpdateCount + if st.updatePending then 1 else 0, c.object⟩ := by
    rw [h.transition]
    rfl
  have hkeyed : Keyed (swept.entries.insert c.key st.entry) := (sweep_keyed hs.keyed).insert hkey
  have hbyKey : c.transition.state.byKey = swept.entries.insert c.key st.entry := by
    rw [hstate]
    exact Dict.collect_values hkeyed
  have hsweeps : c.transition.state.sweeps = swept.sweeps := by
    rw [hstate]
    exact Dict.collect_items _
  have hrevision : c.transition.state.revision = s.revision + 1 := by rw [hstate]
  have hlives : ∀ key, Option.Rel (Tells key (c :: earlier) (s.revision + 1))
      ((swept.entries.insert c.key st.entry).get? key) (life key (c :: earlier)) := by
    intro key
    rw [Dict.get?_insert, life]
    by_cases hown : key = c.key
    · subst hown
      rw [if_pos rfl, if_pos rfl, ← CudaGraph.found, ← h.found]
      exact .some hnext
    · rw [if_neg hown, if_neg (Ne.symm hown)]
      have hrest := hs.swept (c := c) key
      generalize outlasts c earlier key (life key earlier) = l' at hrest ⊢
      change Option.Rel _ (swept.entries.get? key) _ at hrest
      generalize swept.entries.get? key = e' at hrest ⊢
      cases hrest with
      | none => exact .none
      | some htells => exact .some (htells.later c)
  refine ⟨?_, ?_, fun context => ?_, fun key => ?_, fun d hd id hid => ?_, fun d hd e' he => ?_⟩
  · have hkeys : c.transition.state.entries.map CudaGraphEntry.key = (swept.entries.insert c.key st.entry).keys := by
      rw [hstate, Dict.values, List.map_map]
      exact List.map_congr_left hkeyed
    rw [hkeys]
    exact Dict.keys_nodup _
  · rw [hstate]
    exact swept.sweeps.nodup
  · have hiff : Sweeps s c.invocation.contextId c.hostTimeUs ↔
        sweepIntervalUs ≤ c.hostTimeUs - lastSweep c.invocation.contextId earlier := by rw [Sweeps, hs.sweeps]
    rw [hsweeps, sweep_sweeps, lastSweep, hs.sweeps]
    by_cases hcontext : c.invocation.contextId = context
    · subst hcontext
      simp only [hiff]
    · simp [hcontext]
  · rw [hbyKey, hrevision]
    exact hlives key
  · rw [hrevision]
    rcases List.mem_cons.1 hd with rfl | hd
    · rw [h.transition] at hid
      change (if st.useGraph then st.entry.executableId else none) = some id at hid
      split at hid
      · obtain ⟨scope, hname⟩ := executableId_eq_some hid
        exact ⟨scope, _, hname, hnext.generation⟩
      · cases hid
    · obtain ⟨scope, generation, hname, hle⟩ := hs.named d hd id hid
      exact ⟨scope, generation, hname, hle.trans (Nat.le_succ _)⟩
  · rw [hrevision]
    rcases List.mem_cons.1 hd with rfl | hd
    · rw [hstate] at he
      obtain ⟨key, hget⟩ := Dict.mem_values.1 he
      have hlive := hlives key
      rw [hget] at hlive
      generalize life key (d :: earlier) = l' at hlive
      cases hlive with
      | some htells => exact htells.generation
    · exact (hs.entered d hd e' he).trans (Nat.le_succ _)

end Step

end HeteroSim.CudaGraph
