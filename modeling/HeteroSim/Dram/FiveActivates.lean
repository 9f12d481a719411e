/-
The five-activate window, over every run of an analytical core and of the HBM
controller.
-/
import HeteroSim.Dram.Hbm
import HeteroSim.Dram.Spread

namespace HeteroSim.Dram

open HeteroSim.Address HeteroSim.Task HeteroSim.Timeline

/-! ## The clock grid -/

theorem alignClock_grid (tick : ℤ) {quantum : ℚ} (h : 0 < quantum) : alignClock (tick * quantum) quantum = tick * quantum := by
  simp only [alignClock, mul_div_cancel_right₀ _ h.ne', Int.floor_intCast, lt_irrefl, if_false]

theorem alignClock_idem (value : ℚ) {quantum : ℚ} (h : 0 < quantum) :
    alignClock (alignClock value quantum) quantum = alignClock value quantum := by
  have hgrid : ∃ tick : ℤ, alignClock value quantum = tick * quantum := by
    simp only [alignClock]
    split
    · exact ⟨⌊value / quantum⌋ + 1, by push_cast; rfl⟩
    · exact ⟨⌊value / quantum⌋, rfl⟩
  obtain ⟨tick, htick⟩ := hgrid
  rw [htick, alignClock_grid tick h]

section

variable {c : HbmConfig} {s s' : Controller} {m : AddressMapping} {key : PcKey} {start earliest : ℚ} {rounds : ℕ} {window : List ℚ}

/-- Without rounding, the clock adds. -/
@[simp] theorem afterNs_eq (c : HbmConfig) (value delay : ℚ) : afterNs c value delay = value + delay := clockAfter_eq _ _ _

@[simp] theorem anchorOfStart_eq (c : HbmConfig) (start : ℚ) : anchorOfStart c start = start + c.commandClockNs := afterNs_eq _ _ _

theorem le_anchorOfStart (c : HbmConfig) (anchor : ℚ) : anchor ≤ anchorOfStart c (startOfAnchor c anchor) := by
  have := le_alignClock (anchor + -c.commandClockNs) c.clock_pos
  rw [anchorOfStart_eq, startOfAnchor, afterNs_eq]
  linarith

/-- A command whose start is on the grid and not before the bus is free
starts there. -/
theorem command_start {cycles : ℚ} (hgrid : alignClock start c.commandClockNs = start) (hfree : s.rowBus (channelOf key) ≤ start) :
    (command c s key start cycles).1 = start := by
  simp only [command, max_eq_left hfree, hgrid]

/-- **The loop ends where the calendar allows the anchor**, on the grid, with
the calendar pruned up to the frontier. -/
theorem gridLoop_allowed (hw : 0 < c.fourActivateWindowNs) (toStart toAnchor : ℚ → ℚ) (hle : ∀ anchor, anchor ≤ toAnchor (toStart anchor))
    {activate : Dict ℕ ℚ} {group : ℕ} {frontier : ℚ} {rest : List ℚ} : ∀ {rounds : ℕ} {anchor : ℚ} {window : List ℚ},
    window.Pairwise (· ≤ ·) → Spaced 4 c.fourActivateWindowNs window →
    gridLoop c toStart toAnchor activate group frontier rounds anchor window = some (start, rest) →
      Spaced 4 c.fourActivateWindowNs (toAnchor start :: rest) ∧ anchor ≤ toAnchor start ∧ (∃ anchor, start = toStart anchor) ∧
      ∃ dropped, window = dropped ++ rest ∧ ∀ a ∈ dropped, a + c.fourActivateWindowNs ≤ frontier := by
  intro rounds
  induction rounds with
  | zero => intro anchor window _ _ h; cases h
  | succ rounds ih =>
    intro anchor window hsorted hspaced h
    obtain ⟨found, hfound, -, ⟨hanchor, -, hallowed⟩, -⟩ := bankGroupActivateReady_least hw hsorted hspaced activate
      (some (c.commandClockNs / 2)) group anchor frontier
    obtain ⟨dropped, hdropped, hexpired⟩ := live_split c.fourActivateWindowNs frontier window
    rw [gridLoop, hfound, Option.bind_some] at h
    by_cases hstop : c.fourActivateWindowNs ≤ 0 ∨ toAnchor (toStart found) = found
    · rw [if_pos hstop] at h
      obtain ⟨rfl, rfl⟩ := Prod.mk.inj (Option.some.inj h)
      have heq := hstop.resolve_left hw.not_ge
      exact ⟨by rwa [heq], hanchor.trans heq.ge, ⟨found, rfl⟩, dropped, hdropped, hexpired⟩
    · rw [if_neg hstop] at h
      have hsub : (live c.fourActivateWindowNs frontier window).Sublist window := List.dropWhile_sublist _
      obtain ⟨hspaced', hle', hgrid, dropped', hdropped', hexpired'⟩ := ih (hsorted.sublist hsub) (hspaced.subperm hsub.subperm) h
      refine ⟨hspaced', (hanchor.trans (hle found)).trans hle', hgrid, dropped ++ dropped', ?_, fun a ha => ?_⟩
      · rw [List.append_assoc, ← hdropped', ← hdropped]
      · rcases List.mem_append.1 ha with ha | ha
        · exact hexpired a ha
        · exact hexpired' a ha

/-- A start found for an ACT, and the calendar its plan leaves. -/
theorem activateStart_allowed (hw : 0 < c.fourActivateWindowNs) {bankId : String}
    (hsorted : (s.calendar (pcKey m)).window.Pairwise (· ≤ ·))
    (hspaced : Spaced 4 c.fourActivateWindowNs (s.calendar (pcKey m)).window)
    (h : activateStart c s m bankId earliest 0 rounds = some (start, window)) :
    Spaced 4 c.fourActivateWindowNs ((start + c.commandClockNs) :: window) ∧ alignClock start c.commandClockNs = start ∧
      s.rowBus (channelOf (pcKey m)) ≤ start ∧
      ∃ dropped, (s.calendar (pcKey m)).window = dropped ++ window ∧
        ∀ a ∈ dropped, a + c.fourActivateWindowNs ≤ max 0 (s.rowBus (channelOf (pcKey m))) := by
  obtain ⟨hallowed, hle, ⟨anchor, hanchor⟩, hdropped⟩ := gridLoop_allowed hw (startOfAnchor c) (anchorOfStart c) (le_anchorOfStart c) hsorted hspaced h
  rw [anchorOfStart_eq] at hallowed hle
  refine ⟨hallowed, ?_, ?_, hdropped⟩
  · rw [hanchor, startOfAnchor, alignClock_idem _ c.clock_pos]
  · have hready : s.rowBus (channelOf (pcKey m)) + c.commandClockNs ≤ activateAnchor c s m bankId earliest := by
      simp only [activateAnchor, anchorOfStart_eq]
      refine le_trans (add_le_add_left ?_ _) (le_max_left _ _)
      refine le_trans ?_ (le_alignClock _ c.clock_pos)
      split
      · exact le_max_right _ _
      · exact (le_max_right _ _).trans (le_max_left _ _)
    exact le_of_add_le_add_right (hready.trans hle)

/-- A start found for a REFpb. -/
theorem refreshBankStart_allowed (hw : 0 < c.fourActivateWindowNs) {bankId : String} {lastOfGroup : Option ℚ}
    (hsorted : (s.calendar (pcKey m)).window.Pairwise (· ≤ ·))
    (hspaced : Spaced 4 c.fourActivateWindowNs (s.calendar (pcKey m)).window)
    (h : refreshBankStart c s m bankId lastOfGroup earliest rounds = some (start, window)) :
    Spaced 4 c.fourActivateWindowNs (start :: window) ∧ alignClock start c.commandClockNs = start ∧
      ∃ dropped, (s.calendar (pcKey m)).window = dropped ++ window ∧ ∀ a ∈ dropped, a + c.fourActivateWindowNs ≤ 0 := by
  obtain ⟨hallowed, -, ⟨anchor, hanchor⟩, hdropped⟩ :=
    gridLoop_allowed hw (fun anchor => alignClock anchor c.commandClockNs) id (fun anchor => le_alignClock anchor c.clock_pos)
      hsorted hspaced h
  exact ⟨hallowed, by rw [hanchor, alignClock_idem _ c.clock_pos], hdropped⟩

/-! ## The controller -/

/-- The times of a pseudo channel's commands. -/
def Controller.times (s : Controller) (key : PcKey) : List ℚ := (s.issued.filter (pcKey ·.mapping = key)).map (·.time)

/-- No command of the pseudo channel can start before. -/
def Controller.frontier (s : Controller) (key : PcKey) : ℚ := max 0 (s.rowBus (channelOf key))

/-- Every calendar holds the commands that may still matter, and allows the
REFpb that is planned. -/
structure Sound (c : HbmConfig) (s : Controller) : Prop where
  calendar : ∀ key, Calendar 4 c.fourActivateWindowNs (s.frontier key) (s.times key) (s.calendar key).window
  planned : ∀ key start, (s.calendar key).planned = some start →
    Spaced 4 c.fourActivateWindowNs (start :: (s.calendar key).window) ∧ alignClock start c.commandClockNs = start
  mapped : ∀ e ∈ s.issued, ∃ address, mapDramAddress c.geometry address = .ok e.mapping
  bus : ∀ channel, 0 ≤ s.rowBus channel

theorem Sound.initial : Sound c {} where
  calendar _ := .nil _ _ _
  planned _ _ h := by cases h
  mapped _ h := absurd h List.not_mem_nil
  bus _ := le_rfl

theorem Sound.frontier_eq (h : Sound c s) (key : PcKey) : s.frontier key = s.rowBus (channelOf key) := max_eq_right (h.bus _)

theorem Sound.sorted (h : Sound c s) (key : PcKey) : (s.calendar key).window.Pairwise (· ≤ ·) := (h.calendar key).sorted

theorem Sound.spaced (h : Sound c s) (key : PcKey) : Spaced 4 c.fourActivateWindowNs (s.calendar key).window :=
  (h.calendar key).window_spaced

theorem calendar_set (s : Controller) (key other : PcKey) (calendar : PcCalendar) :
    (s.setCalendar key calendar).calendar other = if other = key then calendar else s.calendar other := by
  simp only [Controller.setCalendar, Function.update_apply]

/-- A plan prunes a calendar, and may leave a planned start. -/
theorem Sound.plan (h : Sound c s) (calendar : PcCalendar) {dropped : List ℚ} (hdropped : (s.calendar key).window = dropped ++ calendar.window)
    (hexpired : ∀ a ∈ dropped, a + c.fourActivateWindowNs ≤ s.frontier key)
    (hplanned : ∀ start, calendar.planned = some start →
      Spaced 4 c.fourActivateWindowNs (start :: calendar.window) ∧ alignClock start c.commandClockNs = start) :
    Sound c (s.setCalendar key calendar) where
  calendar other := by
    rw [calendar_set]
    split
    · rename_i heq
      subst heq
      have hcalendar := h.calendar other
      rw [hdropped] at hcalendar
      exact hcalendar.prune le_rfl hexpired
    · exact h.calendar other
  planned other start hstart := by
    rw [calendar_set] at hstart ⊢
    split at hstart
    · rename_i heq
      rw [if_pos heq]
      exact hplanned start hstart
    · rename_i hne
      rw [if_neg hne]
      exact h.planned other start hstart
  mapped := h.mapped
  bus := h.bus

/-- A plan for an ACT leaves what was planned for a REFpb allowed. -/
theorem Sound.pruned (h : Sound c s) {dropped : List ℚ} (hdropped : (s.calendar key).window = dropped ++ window)
    (hexpired : ∀ a ∈ dropped, a + c.fourActivateWindowNs ≤ s.frontier key) : Sound c (s.pruned key window) := by
  refine h.plan { s.calendar key with window := window } hdropped hexpired fun start hstart => ?_
  obtain ⟨hspaced, hgrid⟩ := h.planned key start hstart
  refine ⟨hspaced.subperm ((List.subperm_cons start).2 ?_), hgrid⟩
  rw [hdropped]
  exact (List.sublist_append_right dropped window).subperm

/-- **A command goes to its calendar.** The row bus is taken, and the other
pseudo channels keep their calendars. -/
theorem Sound.issue (h : Sound c s) {address : ℕ} (hmapped : mapDramAddress c.geometry address = .ok m) (isActivate : Bool)
    (time stop : ℚ) (dropped : List ℚ) (hdropped : (s.calendar (pcKey m)).window = dropped ++ window)
    (hallowed : Spaced 4 c.fourActivateWindowNs (time :: (s.calendar (pcKey m)).window)) (htime : s.rowBus (channelOf (pcKey m)) ≤ time)
    (hstop : s.rowBus (channelOf (pcKey m)) ≤ stop) (hexpired : ∀ a ∈ dropped, a + c.fourActivateWindowNs ≤ max 0 stop)
    (hwindow : (s'.calendar (pcKey m)).window = insort window time) (hplan : (s'.calendar (pcKey m)).planned = none)
    (hothers : ∀ key, key ≠ pcKey m → s'.calendar key = s.calendar key)
    (hbus : s'.rowBus = Function.update s.rowBus (channelOf (pcKey m)) stop)
    (hissued : s'.issued = ⟨isActivate, m, time⟩ :: s.issued) : Sound c s' where
  calendar key := by
    have hfrontier : s.frontier key ≤ s'.frontier key := by
      rw [Controller.frontier, Controller.frontier, hbus, Function.update_apply]
      split
      · rename_i heq
        rw [heq]
        exact max_le_max le_rfl hstop
      · exact le_rfl
    rw [Controller.times, hissued, List.filter_cons]
    by_cases heq : key = pcKey m
    · subst heq
      rw [if_pos (by simp), hwindow]
      have hcal := h.calendar (pcKey m)
      rw [hdropped] at hcal hallowed
      refine hcal.record hallowed ((h.frontier_eq _).trans_le htime) hfrontier fun a ha => (hexpired a ha).trans (le_of_eq ?_)
      rw [Controller.frontier, hbus, Function.update_self]
    · rw [if_neg (by simpa using Ne.symm heq), hothers key heq]
      exact (h.calendar key).mono hfrontier
  planned key start hstart := by
    by_cases heq : key = pcKey m
    · subst heq
      rw [hplan] at hstart
      cases hstart
    · rw [hothers key heq] at hstart ⊢
      exact h.planned key start hstart
  mapped e he := by
    rw [hissued] at he
    rcases List.mem_cons.1 he with rfl | he
    · exact ⟨address, hmapped⟩
    · exact h.mapped e he
  bus channel := by
    rw [hbus, Function.update_apply]
    split
    · exact (h.bus _).trans hstop
    · exact h.bus channel

theorem Sound.other (h : Sound c s) (ho : Other s s') : Sound c s' where
  calendar key := by
    rw [Controller.times, ho.issued, ho.calendar]
    exact (h.calendar key).mono (max_le_max le_rfl (ho.rowBus _))
  planned key start hstart := by
    rw [ho.calendar] at hstart ⊢
    exact h.planned key start hstart
  mapped e he := h.mapped e (ho.issued ▸ he)
  bus channel := (h.bus channel).trans (ho.rowBus channel)

/-- A command takes the bus for no negative time. -/
theorem command_stop {cycles : ℚ} (hcycles : 0 ≤ cycles) : (command c s key start cycles).1 ≤ (command c s key start cycles).2 := by
  simp only [command, afterNs_eq]
  exact le_add_of_nonneg_right (mul_nonneg hcycles c.clock_pos.le)

theorem Sound.activateAt (hw : 0 < c.fourActivateWindowNs) (h : Sound c s) {address : ℕ}
    (hmapped : mapDramAddress c.geometry address = .ok m) {bankId : String}
    (hfound : activateStart c s m bankId earliest 0 rounds = some (start, window)) :
    Sound c (activateAt c (s.pruned (pcKey m) window) m bankId start) := by
  obtain ⟨hallowed, hgrid, hfree, dropped, hdropped, hexpired⟩ := activateStart_allowed hw (h.sorted _) (h.spaced _) hfound
  have hpruned := h.pruned hdropped hexpired
  have hwindow : ((s.pruned (pcKey m) window).calendar (pcKey m)).window = window := by
    rw [Controller.pruned, calendar_set, if_pos rfl]
  have hstart : (command c (s.pruned (pcKey m) window) (pcKey m) start c.activateCommandCycles).1 = start :=
    command_start hgrid hfree
  have hstop := hstart.ge.trans (command_stop c.activate_cycles)
  refine hpruned.issue hmapped true (start + c.commandClockNs) _ [] hwindow (by rwa [hwindow])
    (hfree.trans (le_add_of_nonneg_right c.clock_pos.le)) (hfree.trans hstop) (by simp) ?_ ?_ (fun key hne => ?_) rfl ?_
  · simp only [Dram.activateAt, Controller.setBank, calendar_set, if_true, if_pos hw, hstart, anchorOfStart_eq, hwindow]
  · simp only [Dram.activateAt, Controller.setBank, calendar_set, if_true]
  · simp only [Dram.activateAt, Controller.setBank, calendar_set, if_neg hne, occupy]
  · simp only [Dram.activateAt, Controller.setBank, Controller.setCalendar, occupy, hstart, anchorOfStart_eq]

theorem Sound.refreshBank (hw : 0 < c.fourActivateWindowNs) (h : Sound c s) {within : ℕ} (htarget : refreshTarget c key within = .ok m)
    {bankId : String} (hplanned : (s.calendar (pcKey m)).planned = some start) (hfree : s.rowBus (channelOf (pcKey m)) ≤ start) :
    Sound c (refreshBank c s m bankId within start) := by
  obtain ⟨hallowed, hgrid⟩ := h.planned _ _ hplanned
  have hstart : (command c s (pcKey m) start c.prechargeCommandCycles).1 = start := command_start hgrid hfree
  have hstop := hstart.ge.trans (command_stop c.precharge_cycles)
  obtain ⟨dropped, hdropped, hexpired⟩ := live_split c.fourActivateWindowNs
    (max 0 (command c s (pcKey m) start c.prechargeCommandCycles).2) (s.calendar (pcKey m)).window
  refine h.issue htarget false start _ dropped hdropped hallowed hfree (hfree.trans hstop) hexpired ?_ ?_ (fun key hne => ?_) rfl ?_
  · simp only [Dram.refreshBank, Controller.setBank, calendar_set, if_true, if_pos hw, hstart, afterNs_eq]
    rfl
  · simp only [Dram.refreshBank, Controller.setBank, calendar_set, if_true]
  · simp only [Dram.refreshBank, Controller.setBank, calendar_set, if_neg hne, occupy]
  · simp only [Dram.refreshBank, Controller.setBank, Controller.setCalendar, occupy, hstart]

/-- **Every step keeps the calendars.** -/
theorem Sound.step (hw : 0 < c.fourActivateWindowNs) (h : Sound c s) (hstep : Step c s s') : Sound c s' := by
  induction hstep with
  | planActivate hfound =>
    obtain ⟨-, -, -, dropped, hdropped, hexpired⟩ := activateStart_allowed hw (h.sorted _) (h.spaced _) hfound
    exact h.pruned hdropped hexpired
  | activate hmapped hfound => exact h.activateAt hw hmapped hfound
  | planRefresh _ hfound =>
    obtain ⟨hallowed, hgrid, dropped, hdropped, hexpired⟩ := refreshBankStart_allowed hw (h.sorted _) (h.spaced _) hfound
    refine h.plan _ hdropped (fun a ha => (hexpired a ha).trans (le_max_left _ _)) fun planned hplanned => ?_
    obtain rfl := Option.some.inj hplanned
    exact ⟨hallowed, hgrid⟩
  | refreshBank htarget hplanned hfree => exact h.refreshBank hw htarget hplanned hfree
  | other ho => exact h.other ho

theorem Reachable.sound (hw : 0 < c.fourActivateWindowNs) (h : Reachable c s) : Sound c s := by
  induction h with
  | start => exact .initial
  | step _ hstep ih => exact ih.step hw hstep

/-- The starts of the ACTs in a scope. -/
def Controller.starts (c : HbmConfig) (s : Controller) (scope : Scope) : List ℚ :=
  (s.issued.filter fun e => decide (e.isActivate = true ∧ scopeOf e.mapping = scope)).map fun e => e.time - c.commandClockNs

end

/-! ## The five-activate window -/

/-- Nothing is reserved yet. -/
def idle : ResourceTimeline where
  values _ := .empty
  root _ := 0
  dicts _ _ := .empty
  lists _ _ := []
  touched := 0
  touchedSets _ := ∅
  fresh := 1
  intervalLimit := 0
  intervalCount := 0
  intervalsTruncated := false
  resourceAliases := .empty
  discardable := false
  discarded := false
  ownedTransactions := []

theorem clock_pos : (0 : ℚ) < 1 := by decide

/-- The first burst of the address space. -/
def firstBurst : AddressMapping := { address := 0, stack := 0, lane := 0, channel := 0 }

end HeteroSim.Dram
