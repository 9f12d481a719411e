/-
The controller between two decode calls: each pass of its loop is a sequence
of the node's moves, and the loop ends. Every time it waits for is one at
which an import gets ready or a request arrives, and neither can happen more
often than there are slots to fill and arrivals left.
-/
import HeteroSim.DecodeNode.Node

namespace HeteroSim.DecodeNode

variable {σ : Type} {config : ServingConfig} {callbacks : Callbacks σ} {start : List ServingRequest}

def Controller.node (start : List ServingRequest) (s : Controller σ) : Node :=
  { now := s.now, requestId := s.requestId, active := s.active, pending := s.pending
    admissions := s.iterationAdmissions, start, issues := s.issues, calls := s.calls }

/-- Every running request has a last output. -/
def Controller.Heard (s : Controller σ) : Prop := ∀ r ∈ s.active, r.requestId ∈ s.lastOutput.keys

/-- Arrivals and completions still to come, and the places left to fill. -/
def Controller.left (config : ServingConfig) (s : Controller σ) : ℤ :=
  ((config.arrivalTimesNs.drop s.arrivalIndex).filter (s.now < ·)).length + (s.unfinished s.now).length +
    2 * config.batchSize - s.pending.length - s.active.length

/-- The node gets from `n` to `n'` by its moves. -/
def Moves (config : ServingConfig) (n n' : Node) : Prop := ∃ moves, Run (Node.Step config) n moves n'

theorem Moves.refl (n : Node) : Moves config n n := ⟨[], .nil n⟩

theorem Moves.trans {a b c : Node} (h : Moves config a b) (h' : Moves config b c) : Moves config a c := by
  obtain ⟨moves, h⟩ := h
  obtain ⟨moves', h'⟩ := h'
  exact ⟨moves ++ moves', h.append h'⟩

theorem Moves.step {a b : Node} {m : Move} (h : Node.Step config a m b) : Moves config a b := ⟨[m], .single h⟩

theorem Moves.sound {n n' : Node} (h : Moves config n n') (hn : n.Sound config) : n'.Sound config := by
  obtain ⟨moves, h⟩ := h
  exact hn.run h

/-- What the parts of a pass do to a controller: time stands still, and nothing new is left to come. -/
structure Passed (config : ServingConfig) (start : List ServingRequest) (s t : Controller σ) : Prop where
  moves : Moves config (s.node start) (t.node start)
  now : t.now = s.now
  left : t.left config ≤ s.left config
  heard : s.Heard → t.Heard

theorem Passed.refl (s : Controller σ) : Passed config start s s := ⟨.refl _, rfl, le_refl _, id⟩

theorem Passed.trans {s t u : Controller σ} (h : Passed config start s t) (h' : Passed config start t u) :
    Passed config start s u :=
  ⟨h.moves.trans h'.moves, h'.now.trans h.now, h'.left.trans h.left, h'.heard ∘ h.heard⟩

/-! ## Arrivals -/

theorem not_of_getElem?_takeWhile {α : Type} {p : α → Bool} {a : α} : ∀ {l : List α},
    l[(l.takeWhile p).length]? = some a → p a = false
  | [], h => by simp at h
  | b :: l, h => by
    cases hb : p b with
    | true =>
      rw [List.takeWhile_cons_of_pos hb, List.length_cons, List.getElem?_cons_succ] at h
      exact not_of_getElem?_takeWhile h
    | false =>
      rw [List.takeWhile_cons_of_neg (by simp [hb]), List.length_nil, List.getElem?_cons_zero, Option.some.injEq] at h
      rw [← h, hb]

theorem Controller.arrive_passed (s : Controller σ) : Passed config start s (s.arrive config) := by
  cases hpolicy : config.arrivalPolicy with
  | completionMatched =>
    rw [show s.arrive config = s by simp [Controller.arrive, hpolicy]]
    exact .refl s
  | exogenous =>
    have hleft : (s.arrive config).left config ≤ s.left config := by
      simp only [Controller.arrive, hpolicy, Controller.left, Controller.unfinished]
      rw [← List.drop_drop]
      have hsub := ((List.drop_sublist ((config.arrivalTimesNs.drop s.arrivalIndex).takeWhile (· ≤ s.now)).length
        (config.arrivalTimesNs.drop s.arrivalIndex)).filter fun a => decide (s.now < a)).length_le
      omega
    refine ⟨?_, ?_, hleft, ?_⟩ <;> simp only [Controller.arrive, hpolicy]
    · exact .refl _
    · exact id

/-- The next arrival is still to come. -/
def Controller.Waits (config : ServingConfig) (s : Controller σ) : Prop :=
  ∀ a, config.arrivalTimesNs[s.arrivalIndex]? = some a → s.now < a

theorem Controller.arrive_waits (s : Controller σ) : (s.arrive config).Waits config := by
  intro a ha
  cases hpolicy : config.arrivalPolicy with
  | completionMatched =>
    rw [config.no_arrivals hpolicy] at ha
    simp at ha
  | exogenous =>
    simp only [Controller.arrive, hpolicy] at ha ⊢
    rw [← List.getElem?_drop] at ha
    have hnot := not_of_getElem?_takeWhile ha
    simpa using hnot

/-! ## Admissions -/

theorem Controller.admit_passed {s : Controller σ} {row : PendingAdmission} (hrow : row ∈ s.pending)
    (hready : row.readyNs ≤ s.now) : Passed config start s (s.admits row) := by
  unfold Controller.admits
  split
  · exact .refl s
  · next hslot =>
    refine ⟨.step (.admits (n := s.node start) hrow hready hslot), rfl, ?_, fun hheard r hr => ?_⟩
    · have hlength := List.length_erase_of_mem hrow
      have hpos := List.length_pos_of_mem hrow
      have hunfinished : ((s.pending.erase row).filter fun x => decide (s.now < x.readyNs)).length ≤
          (s.pending.filter fun x => decide (s.now < x.readyNs)).length :=
        (List.erase_sublist.filter _).length_le
      simp only [Controller.left, Controller.unfinished, List.length_append, List.length_singleton]
      omega
    · rcases List.mem_append.1 hr with hr | hr
      · exact Dict.mem_keys_insert.2 (.inr (hheard r hr))
      · rw [List.mem_singleton.1 hr]
        exact Dict.mem_keys_insert.2 (.inl rfl)

theorem Controller.admit_arrivalIndex (s : Controller σ) (row : PendingAdmission) :
    (s.admits row).arrivalIndex = s.arrivalIndex := by
  unfold Controller.admits
  split <;> rfl

/-- Ready imports are admitted one by one: those still to try stay pending. -/
theorem Controller.admitAll_passed : ∀ {rows : List PendingAdmission} {s : Controller σ}, rows.Nodup →
    (∀ row ∈ rows, row ∈ s.pending ∧ row.readyNs ≤ s.now) → Passed config start s (rows.foldl Controller.admits s) ∧
      (rows.foldl Controller.admits s).arrivalIndex = s.arrivalIndex
  | [], s, _, _ => ⟨.refl s, rfl⟩
  | row :: rows, s, hnodup, hrows => by
    rw [List.nodup_cons] at hnodup
    have hfirst := hrows row List.mem_cons_self
    have hpassed : Passed config start s (s.admits row) := Controller.admit_passed hfirst.1 hfirst.2
    have hrest : ∀ x ∈ rows, x ∈ (s.admits row).pending ∧ x.readyNs ≤ (s.admits row).now := by
      intro x hx
      obtain ⟨hpending, hready⟩ := hrows x (List.mem_cons_of_mem _ hx)
      refine ⟨?_, hpassed.now ▸ hready⟩
      have hne : x ≠ row := fun h => hnodup.1 (h ▸ hx)
      unfold Controller.admits
      split
      · exact hpending
      · exact (List.mem_erase_of_ne hne).2 hpending
    obtain ⟨hpassed', hindex⟩ := Controller.admitAll_passed hnodup.2 hrest
    exact ⟨hpassed.trans hpassed', hindex.trans (s.admit_arrivalIndex row)⟩

theorem Controller.admitReady_passed {s : Controller σ} (hs : (s.node start).Sound config) :
    Passed config start s s.admitReady ∧ s.admitReady.arrivalIndex = s.arrivalIndex := by
  have hperm : s.ready.Perm (s.pending.filter fun row => row.readyNs ≤ s.now) := List.perm_insertionSort _ _
  have hnodup : s.pending.Nodup := hs.placed.pending_nodup.of_map _
  refine Controller.admitAll_passed (hperm.nodup_iff.2 (hnodup.filter _)) fun row hrow => ?_
  have hmem := hperm.subset hrow
  simpa using List.mem_filter.1 hmem

/-! ## Imports -/

theorem Controller.issue_passed {s : Controller σ} {after : σ} {row : PendingAdmission} {slot : ℕ}
    (hslot : row.request.slotId = slot) (hlt : slot < config.batchSize) (hfree : slot ∉ s.reservedSlots)
    (hroom : preparing s.active (s.pending ++ [row]) ≤ config.prefetchSlots)
    (hid : row.request.requestId = s.requestId) (hvalid : row.request.Valid) (hready : s.now < row.readyNs) :
    Passed config start s (s.issue after row slot) := by
  refine ⟨.step (.issue (n := s.node start) hslot hlt hfree hroom hid hvalid hready), rfl, ?_, id⟩
  have hunfinished : (s.issue after row slot).unfinished s.now = s.unfinished s.now ++ [row] := by
    simp [Controller.unfinished, Controller.issue, hready]
  change (((config.arrivalTimesNs.drop s.arrivalIndex).filter (s.now < ·)).length +
    ((s.issue after row slot).unfinished s.now).length + 2 * config.batchSize - (s.pending ++ [row]).length -
    s.active.length : ℤ) ≤ s.left config
  rw [hunfinished, List.length_append, List.length_append, List.length_singleton, Controller.left]
  omega

/-- An import for a slot nothing waits for: it is issued. -/
theorem Controller.prepare_passed (hcallbacks : callbacks.Timely) {s : Controller σ} {slot : ℕ}
    (hlt : slot < config.batchSize) (hfree : slot ∉ s.reservedSlots)
    (hroom : preparing s.active s.pending + (if slot ∈ s.occupiedSlots then 1 else 0) ≤ config.prefetchSlots) :
    ∃ t row, s.prepare config callbacks slot = .ok t ∧ Passed config start s t ∧ t.pending = s.pending ++ [row] ∧
      row.request.slotId = slot ∧ t.active = s.active ∧ t.arrivalIndex = s.arrivalIndex := by
  obtain ⟨after, row, hschedule, hrequest, hready⟩ := s.scheduleImport_ok hcallbacks slot config.length_pos
  have hslot : row.request.slotId = slot := by rw [hrequest]; rfl
  have hvalid : row.request.Valid := hrequest ▸ config.request_valid config.length_pos
  have hissue : Passed config start s (s.issue after row slot) := by
    refine Controller.issue_passed hslot hlt hfree ?_ (by rw [hrequest]; rfl) hvalid hready
    rw [preparing_append, hslot]
    exact hroom
  cases hpolicy : config.arrivalPolicy with
  | completionMatched =>
    exact ⟨_, row, by simp [Controller.prepare, hschedule, hpolicy, bind, Except.bind], hissue, rfl, hslot, rfl, rfl⟩
  | exogenous =>
    refine ⟨{ s.issue after row slot with arrivalBacklog := (s.issue after row slot).arrivalBacklog - 1 }, row,
      by simp [Controller.prepare, hschedule, hpolicy, bind, Except.bind], ?_, rfl, hslot, rfl, rfl⟩
    exact ⟨hissue.moves, hissue.now, hissue.left, hissue.heard⟩

theorem length_filter_mem_cons (slot : ℕ) (slots occupied : List ℕ) :
    ((slot :: slots).filter fun x => x ∈ occupied).length =
      (slots.filter fun x => x ∈ occupied).length + if slot ∈ occupied then 1 else 0 := by
  by_cases h : slot ∈ occupied <;> simp [h]

/-- Imports for different slots nothing waits for, with room for those still taken: all are issued. -/
theorem Controller.prepareAll_passed (hcallbacks : callbacks.Timely) : ∀ {slots : List ℕ} {s : Controller σ},
    slots.Nodup → (∀ slot ∈ slots, slot < config.batchSize ∧ slot ∉ s.reservedSlots) →
    preparing s.active s.pending + (slots.filter fun slot => slot ∈ s.occupiedSlots).length ≤ config.prefetchSlots →
    ∃ t, slots.foldlM (fun t slot => t.prepare config callbacks slot) s = .ok t ∧ Passed config start s t ∧
      t.arrivalIndex = s.arrivalIndex
  | [], s, _, _, _ => ⟨s, rfl, .refl s, rfl⟩
  | slot :: slots, s, hnodup, hslots, hroom => by
    rw [List.nodup_cons] at hnodup
    obtain ⟨hlt, hfree⟩ := hslots slot List.mem_cons_self
    rw [length_filter_mem_cons] at hroom
    obtain ⟨t, row, hprepare, hpassed, hpending, hrow, hactive, hindex⟩ :
        ∃ t row, s.prepare config callbacks slot = .ok t ∧ Passed config start s t ∧ t.pending = s.pending ++ [row] ∧
          row.request.slotId = slot ∧ t.active = s.active ∧ t.arrivalIndex = s.arrivalIndex :=
      Controller.prepare_passed hcallbacks hlt hfree (by omega)
    have hslots' : ∀ x ∈ slots, x < config.batchSize ∧ x ∉ t.reservedSlots := by
      intro x hx
      obtain ⟨hxlt, hxfree⟩ := hslots x (List.mem_cons_of_mem _ hx)
      refine ⟨hxlt, fun hmem => ?_⟩
      rw [Controller.reservedSlots, hpending, List.map_append, List.mem_append, List.map_singleton,
        List.mem_singleton, hrow] at hmem
      rcases hmem with hmem | rfl
      · exact hxfree hmem
      · exact hnodup.1 hx
    have hroom' : preparing t.active t.pending + (slots.filter fun x => x ∈ t.occupiedSlots).length ≤
        config.prefetchSlots := by
      have hoccupied : t.occupiedSlots = s.occupiedSlots := by rw [Controller.occupiedSlots, hactive]; rfl
      have hcount := preparing_append s.active s.pending row
      rw [hrow] at hcount
      rw [hoccupied, hactive, hpending, hcount]
      unfold Controller.occupiedSlots at hroom ⊢
      omega
    obtain ⟨u, hrest, hpassed', hindex'⟩ := Controller.prepareAll_passed hcallbacks hnodup.2 hslots' hroom'
    refine ⟨u, ?_, hpassed.trans hpassed', hindex'.trans hindex⟩
    rw [List.foldlM_cons, hprepare]
    exact hrest

/-! ## The slots a pass imports for -/

theorem Controller.mem_vacantSlots {s : Controller σ} {slot : ℕ} :
    slot ∈ s.vacantSlots config ↔ slot < config.batchSize ∧ slot ∉ s.occupiedSlots ∧ slot ∉ s.reservedSlots := by
  simp [Controller.vacantSlots]

theorem Controller.mem_soon {s : Controller σ} {r : ServingRequest} (h : r ∈ s.soon config) :
    r ∈ s.active ∧ r.slotId ∉ s.reservedSlots := by
  have hmem := (List.perm_insertionSort _ _).subset h
  rw [List.mem_filter, decide_eq_true_eq] at hmem
  exact ⟨hmem.1, hmem.2.1⟩

/-- The vacant slots, then those of the requests soon to finish, as far as prefetching may go. -/
def Controller.slots (config : ServingConfig) (s : Controller σ) : List ℕ := s.vacantSlots config ++
  ((s.soon config).take (config.prefetchSlots - s.preparingOccupied)).map ServingRequest.slotId

theorem Controller.targetSlots_sublist (s : Controller σ) : (s.targetSlots config).Sublist (s.slots config) := by
  unfold Controller.targetSlots
  split
  · exact List.Sublist.refl _
  · exact List.take_sublist _ _

theorem Controller.slots_nodup {s : Controller σ} (hs : Placed config s.active s.pending) : (s.slots config).Nodup := by
  rw [Controller.slots, List.nodup_append]
  refine ⟨List.nodup_range.filter _, ?_, fun a ha b hb hab => ?_⟩
  · have hperm : (s.soon config).Perm _ := List.perm_insertionSort _ _
    have hnodup : ((s.soon config).map ServingRequest.slotId).Nodup :=
      (hperm.map ServingRequest.slotId).nodup_iff.2 (hs.active_nodup.sublist (List.filter_sublist.map _))
    exact hnodup.sublist ((List.take_sublist _ _).map _)
  · obtain ⟨r, hr, rfl⟩ := List.mem_map.1 hb
    have hactive := (Controller.mem_soon (List.mem_of_mem_take hr)).1
    exact (Controller.mem_vacantSlots.1 ha).2.1 (hab ▸ List.mem_map_of_mem hactive)

theorem Controller.slots_free {s : Controller σ} (hs : Placed config s.active s.pending) {slot : ℕ}
    (h : slot ∈ s.slots config) : slot < config.batchSize ∧ slot ∉ s.reservedSlots := by
  rcases List.mem_append.1 h with h | h
  · obtain ⟨hlt, -, hfree⟩ := Controller.mem_vacantSlots.1 h
    exact ⟨hlt, hfree⟩
  · obtain ⟨r, hr, rfl⟩ := List.mem_map.1 h
    obtain ⟨hactive, hfree⟩ := Controller.mem_soon (List.mem_of_mem_take hr)
    exact ⟨hs.active_lt r hactive, hfree⟩

theorem Controller.slots_room {s : Controller σ} (hs : Placed config s.active s.pending) :
    preparing s.active s.pending + ((s.slots config).filter fun slot => slot ∈ s.occupiedSlots).length ≤
      config.prefetchSlots := by
  have hvacant : ((s.vacantSlots config).filter fun slot => slot ∈ s.occupiedSlots) = [] := by
    refine List.filter_eq_nil_iff.2 fun slot hslot => ?_
    simpa using (Controller.mem_vacantSlots.1 hslot).2.1
  have hsoon : ((((s.soon config).take (config.prefetchSlots - s.preparingOccupied)).map ServingRequest.slotId).filter
      fun slot => slot ∈ s.occupiedSlots).length ≤ config.prefetchSlots - s.preparingOccupied := by
    refine (List.length_filter_le _ _).trans ?_
    rw [List.length_map]
    exact List.length_take_le _ _
  have hpreparing : s.preparingOccupied = preparing s.active s.pending := hs.preparing_eq.symm
  have hprepared := hs.prepared
  rw [Controller.slots, List.filter_append, hvacant, List.nil_append]
  omega

theorem Controller.targetSlots_passed (hcallbacks : callbacks.Timely) (start : List ServingRequest) {s : Controller σ}
    (hs : Placed config s.active s.pending) :
    ∃ t, (s.targetSlots config).foldlM (fun t slot => t.prepare config callbacks slot) s = .ok t ∧
      Passed config start s t ∧ t.arrivalIndex = s.arrivalIndex := by
  have hsub : (s.targetSlots config).Sublist (s.slots config) := s.targetSlots_sublist
  refine Controller.prepareAll_passed hcallbacks ((Controller.slots_nodup hs).sublist hsub)
    (fun slot hslot => Controller.slots_free hs (hsub.subset hslot)) ?_
  have hfilter := (hsub.filter fun slot => decide (slot ∈ s.occupiedSlots)).length_le
  exact (Nat.add_le_add_left hfilter _).trans (Controller.slots_room hs)

/-! ## The loop -/

/-- A pass runs through, and the next arrival is one to wait for. -/
theorem Controller.pass_passed (hcallbacks : callbacks.Timely) {s : Controller σ} (hs : (s.node start).Sound config) :
    ∃ t, s.pass config callbacks = .ok t ∧ Passed config start s t ∧ t.Waits config := by
  have harrive : Passed config start s (s.arrive config) := s.arrive_passed
  obtain ⟨hadmits, hindex⟩ := Controller.admitReady_passed (harrive.moves.sound hs)
  have hboth := harrive.trans hadmits
  obtain ⟨t, hpass, htarget, htindex⟩ := Controller.targetSlots_passed hcallbacks start (hboth.moves.sound hs).placed
  refine ⟨t, hpass, hboth.trans htarget, ?_⟩
  intro a ha
  rw [htindex, hindex] at ha
  rw [htarget.now, hadmits.now]
  exact s.arrive_waits a ha

theorem Controller.future_mem {s : Controller σ} {time : ℚ} (h : s.future config = some time) :
    (∃ row ∈ s.pending, row.readyNs = time ∧ s.now < time) ∨ config.arrivalTimesNs[s.arrivalIndex]? = some time := by
  unfold Controller.future at h
  have hready : ∀ a ∈ (s.pending.map PendingAdmission.readyNs).filter (s.now < ·),
      ∃ row ∈ s.pending, row.readyNs = a ∧ s.now < a := by
    intro a ha
    obtain ⟨hmem, hlt⟩ := List.mem_filter.1 ha
    obtain ⟨row, hrow, rfl⟩ := List.mem_map.1 hmem
    exact ⟨row, hrow, rfl, by simpa using hlt⟩
  split at h
  · exact .inl (hready time (List.min?_mem h))
  · rcases List.mem_append.1 (List.min?_mem h) with hmem | hmem
    · exact .inl (hready time hmem)
    · exact .inr (by simpa using hmem)

/-- A longer wait leaves fewer elements past it, when it ends at one of them. -/
theorem length_filter_lt {α : Type} {f : α → ℚ} {l : List α} {now time : ℚ} (hle : now ≤ time) :
    (l.filter fun a => time < f a).length ≤ (l.filter fun a => now < f a).length ∧
      ((∃ a ∈ l, f a = time ∧ now < time) → (l.filter fun a => time < f a).length < (l.filter fun a => now < f a).length) := by
  have hsub : (l.filter fun a => decide (time < f a)).Sublist (l.filter fun a => decide (now < f a)) :=
    List.monotone_filter_right l fun a ha => by
      simp only [decide_eq_true_eq] at ha ⊢
      exact hle.trans_lt ha
  refine ⟨hsub.length_le, ?_⟩
  rintro ⟨a, ha, hfa, hlt⟩
  refine lt_of_le_of_ne hsub.length_le fun heq => ?_
  have hmem : a ∈ l.filter fun a => decide (now < f a) := List.mem_filter.2 ⟨ha, by simpa [hfa] using hlt⟩
  rw [← hsub.eq_of_length heq, List.mem_filter] at hmem
  simp [hfa] at hmem

/-- The time waited for is later, and less is left at it. -/
theorem Controller.waits_lt {s : Controller σ} (hs : s.Waits config) {time : ℚ} (h : s.waits config = some time) :
    s.now < time ∧ ({ s with now := time } : Controller σ).left config < s.left config := by
  have hfuture : s.future config = some time := by
    unfold Controller.waits at h
    split at h
    · cases h
    · split at h
      · cases h
      · exact h
  simp only [Controller.left, Controller.unfinished]
  rcases Controller.future_mem hfuture with hrow | harrival
  · obtain ⟨row, hmem, hready, hlt⟩ := hrow
    have harrivals := (length_filter_lt (f := id) (l := config.arrivalTimesNs.drop s.arrivalIndex) hlt.le).1
    have hpending := (length_filter_lt (f := PendingAdmission.readyNs) (l := s.pending) hlt.le).2 ⟨row, hmem, hready, hlt⟩
    simp only [id_eq] at harrivals
    exact ⟨hlt, by omega⟩
  · have hlt := hs time harrival
    have hmem : time ∈ config.arrivalTimesNs.drop s.arrivalIndex := by
      refine List.mem_of_getElem? (i := 0) ?_
      rw [List.getElem?_drop]
      exact harrival
    have harrivals := (length_filter_lt (f := id) (l := config.arrivalTimesNs.drop s.arrivalIndex) hlt.le).2
      ⟨time, hmem, rfl, hlt⟩
    have hpending := (length_filter_lt (f := PendingAdmission.readyNs) (l := s.pending) hlt.le).1
    simp only [id_eq] at harrivals
    exact ⟨hlt, by omega⟩

theorem Controller.left_nonneg {s : Controller σ} (hs : Placed config s.active s.pending) : 0 ≤ s.left config := by
  have hactive := hs.length_active
  have hpending := hs.length_pending
  unfold Controller.left
  omega

theorem Controller.left_le (s : Controller σ) : s.left config ≤ config.arrivalTimesNs.length + 2 * config.batchSize := by
  have harrivals := ((List.filter_sublist (p := fun a => decide (s.now < a))).trans
    (List.drop_sublist s.arrivalIndex config.arrivalTimesNs)).length_le
  have hunfinished := List.length_filter_le (fun row => decide (s.now < row.readyNs)) s.pending
  unfold Controller.left Controller.unfinished
  omega

/-- **The admission loop ends**: with more fuel than things left to wait for, it returns, by the node's moves. -/
theorem Controller.admitLoop_ends (hcallbacks : callbacks.Timely) : ∀ (bound : ℕ) {s : Controller σ},
    (s.node start).Sound config → s.Heard → s.left config < bound →
    ∃ t, (∀ fuel, bound ≤ fuel → s.admitLoop config callbacks fuel = .ok t) ∧
      Moves config (s.node start) (t.node start) ∧ t.Heard
  | 0, s, hs, _, hbound => absurd (s.left_nonneg hs.placed) (by simpa using hbound)
  | bound + 1, s, hs, hheard, hbound => by
    obtain ⟨t, hpass, hpassed, hwaits⟩ := Controller.pass_passed hcallbacks hs
    have hfuel : ∀ fuel, bound + 1 ≤ fuel → ∃ n, fuel = n + 1 ∧ bound ≤ n := fun fuel h => ⟨fuel - 1, by omega, by omega⟩
    cases hwait : t.waits config with
    | none =>
      refine ⟨t, fun fuel h => ?_, hpassed.moves, hpassed.heard hheard⟩
      obtain ⟨n, rfl, -⟩ := hfuel fuel h
      simp [Controller.admitLoop, hpass, hwait, bind, Except.bind]
    | some time =>
      obtain ⟨hlt, hleft⟩ := Controller.waits_lt hwaits hwait
      have hmoves : Moves config (t.node start) (({ t with now := time } : Controller σ).node start) :=
        .step (.wait hlt.le)
      have hle := hpassed.left
      obtain ⟨u, hrest, hmoves', hheard'⟩ := Controller.admitLoop_ends hcallbacks bound (s := { t with now := time })
        ((hpassed.moves.trans hmoves).sound hs) (hpassed.heard hheard) (by push_cast at hbound; omega)
      refine ⟨u, fun fuel h => ?_, (hpassed.moves.trans hmoves).trans hmoves', hheard'⟩
      obtain ⟨n, rfl, hn⟩ := hfuel fuel h
      simp [Controller.admitLoop, hpass, hwait, bind, Except.bind, hrest n hn]

end HeteroSim.DecodeNode
