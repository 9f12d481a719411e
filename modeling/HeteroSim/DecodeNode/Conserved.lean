/-
The import traffic of a serving run's window. The run never adds it up: it
takes what was issued in the window and what the window found unfinished,
less what it left unfinished. This is what the imports that become ready in
the window carry, because an import leaves the pending ones only when ready.
-/
import HeteroSim.DecodeNode.Served

namespace HeteroSim.DecodeNode

variable {σ : Type} {config : ServingConfig} {callbacks : Callbacks σ}

/-! ## Cost maps -/

/-- The amount a cost map has for a resource. -/
def costOf (costs : Dict String ℚ) (name : String) : ℚ := (costs.get? name).getD 0

/-- What the entries of the name add up to. -/
def entriesOf (items : List (String × ℚ)) (name : String) : ℚ := ((items.filter fun p => p.1 = name).map Prod.snd).sum

theorem entriesOf_dict (d : Dict String ℚ) (name : String) : entriesOf d.items name = costOf d name := by
  have hnone : ∀ l : List (String × ℚ), name ∉ l.map Prod.fst → l.filter (fun p => p.1 = name) = [] := by
    intro l hl
    rw [List.filter_eq_nil_iff]
    intro p hp hname
    exact hl (List.mem_map.2 ⟨p, hp, by simpa using hname⟩)
  cases hget : d.get? name with
  | none =>
    rw [entriesOf, hnone d.items (Dict.get?_eq_none.1 hget), costOf, hget]
    rfl
  | some v =>
    obtain ⟨pre, post, hitems, hpre, hpost⟩ := Dict.split hget
    rw [entriesOf, hitems, List.filter_append, List.filter_cons_of_pos (by simp), hnone pre hpre, hnone post hpost, costOf,
      hget]
    simp

/-- Amounts are combined entry by entry. -/
theorem costOf_foldl (combine : ℚ → ℚ → ℚ) (f : ℚ → ℚ) (hcombine : ∀ a b, combine a b = a + f b) (hzero : f 0 = 0)
    (hadd : ∀ a b, f (a + b) = f a + f b) (name : String) (items : List (String × ℚ)) : ∀ t : Dict String ℚ,
    costOf (items.foldl (fun t p => t.insert p.1 (combine ((t.get? p.1).getD 0) p.2)) t) name =
      costOf t name + f (entriesOf items name) := by
  induction items with
  | nil => intro t; simp [entriesOf, hzero]
  | cons p items ih =>
    intro t
    rw [List.foldl_cons, ih]
    by_cases hp : p.1 = name
    · rw [entriesOf, entriesOf, List.filter_cons_of_pos (by simpa using hp), List.map_cons, List.sum_cons, hadd, costOf,
        costOf, hp, Dict.get?_insert_self, Option.getD_some, hcombine]
      ring
    · rw [entriesOf, entriesOf, List.filter_cons_of_neg (by simpa using hp), costOf, costOf,
        Dict.get?_insert_of_ne _ _ (Ne.symm hp)]

theorem costOf_addCosts (target source : Dict String ℚ) (name : String) :
    costOf (addCosts target source) name = costOf target name + costOf source name := by
  rw [addCosts, costOf_foldl (· + ·) id (fun _ _ => rfl) rfl fun _ _ => rfl, entriesOf_dict]
  rfl

/-! ## Charges -/

/-- What an import is charged for. -/
inductive Charge
  | transferBytes
  | programBytes
  | cost (name : String)

namespace Charge

def of : Charge → PendingAdmission → ℚ
  | transferBytes, row => row.transferBytes
  | programBytes, row => row.physicalProgramBytes
  | cost name, row => costOf row.costs name

def total (a : Charge) (rows : List PendingAdmission) : ℚ := (rows.map a.of).sum

/-- What the window has issued and what it found unfinished. -/
def charged : Charge → Controller σ → ℚ
  | transferBytes, s => s.pdTransferIssued + s.window.unfinishedTransferStart
  | programBytes, s => s.pdProgramIssued + s.window.unfinishedProgramStart
  | cost name, s => costOf s.pdCostsIssued name + costOf s.window.unfinishedCostsStart name

theorem total_append (a : Charge) (rows rows' : List PendingAdmission) :
    a.total (rows ++ rows') = a.total rows + a.total rows' := by
  rw [total, List.map_append, List.sum_append]
  rfl

theorem total_perm (a : Charge) {rows rows' : List PendingAdmission} (h : rows.Perm rows') :
    a.total rows = a.total rows' := (h.map a.of).sum_eq

theorem total_transferBytes (rows : List PendingAdmission) :
    transferBytes.total rows = (rows.map PendingAdmission.transferBytes).sum := by
  rw [Nat.cast_list_sum, List.map_map]
  rfl

theorem total_programBytes (rows : List PendingAdmission) :
    programBytes.total rows = (rows.map PendingAdmission.physicalProgramBytes).sum := by
  rw [Nat.cast_list_sum, List.map_map]
  rfl

theorem costOf_addAll (name : String) (rows : List PendingAdmission) : ∀ costs : Dict String ℚ,
    costOf (rows.foldl (fun costs row => addCosts costs row.costs) costs) name = costOf costs name + (cost name).total rows := by
  induction rows with
  | nil => intro costs; simp [total]
  | cons row rows ih =>
    intro costs
    rw [List.foldl_cons, ih, costOf_addCosts, total, total, List.map_cons, List.sum_cons]
    show _ = _ + (costOf row.costs name + _)
    ring

end Charge

/-! ## The invariant -/

def Controller.imports (s : Controller σ) : List PendingAdmission := s.issues.map Issue.imported

/-- The imports that become ready after `since`. -/
def readyAfter (since : ℚ) (rows : List PendingAdmission) : List PendingAdmission := rows.filter fun row => since < row.readyNs

/-- Every import is pending or ready; and once the window is open, its charges
are those of the imports ready after it opened. -/
structure Accounted (s : Controller σ) : Prop where
  held : ∃ gone, s.imports.Perm (s.pending ++ gone) ∧ ∀ row ∈ gone, row.readyNs ≤ s.now
  closed : s.measuringImports = false → s.pdTransferIssued = 0 ∧ s.pdProgramIssued = 0 ∧ s.pdCostsIssued = .empty ∧
    s.window.unfinishedCostsStart = .empty ∧ s.window.measurementStart = s.window.measurementEnd
  opened : s.measuringImports = true → s.window.measurementStart ≤ s.now ∧
    ∀ a : Charge, a.charged s = a.total (readyAfter s.window.measurementStart s.imports)

/-- Nothing is ready after now but pending imports. -/
theorem Accounted.readyAfter_now {s : Controller σ} (h : Accounted s) {since : ℚ} (hsince : s.now ≤ since) :
    (readyAfter since s.imports).Perm (readyAfter since s.pending) := by
  obtain ⟨gone, hperm, hgone⟩ := h.held
  have hnone : gone.filter (fun row => decide (since < row.readyNs)) = [] := by
    rw [List.filter_eq_nil_iff]
    intro row hrow
    simpa using (hgone row hrow).trans hsince
  have hfilter := hperm.filter fun row => decide (since < row.readyNs)
  rw [List.filter_append, hnone, List.append_nil] at hfilter
  exact hfilter

/-- What the invariant reads of the window stays. -/
structure SameWindow (s t : Controller σ) : Prop where
  measuring : t.measuringImports = s.measuringImports
  start : t.window.measurementStart = s.window.measurementStart
  transfer : t.pdTransferIssued = s.pdTransferIssued ∧ t.window.unfinishedTransferStart = s.window.unfinishedTransferStart
  program : t.pdProgramIssued = s.pdProgramIssued ∧ t.window.unfinishedProgramStart = s.window.unfinishedProgramStart
  costs : t.pdCostsIssued = s.pdCostsIssued ∧ t.window.unfinishedCostsStart = s.window.unfinishedCostsStart
  finish : s.measuringImports = false → t.window.measurementEnd = s.window.measurementEnd

theorem SameWindow.charged {s t : Controller σ} (h : SameWindow s t) (a : Charge) : a.charged t = a.charged s := by
  cases a with
  | transferBytes => simp only [Charge.charged, h.transfer.1, h.transfer.2]
  | programBytes => simp only [Charge.charged, h.program.1, h.program.2]
  | cost name => simp only [Charge.charged, h.costs.1, h.costs.2]

/-- Time passes, and ready imports leave the pending ones. -/
theorem Accounted.move {s t : Controller σ} (h : Accounted s) (hw : SameWindow s t) (hissues : t.issues = s.issues)
    (hnow : s.now ≤ t.now) (left : List PendingAdmission) (hpending : s.pending.Perm (t.pending ++ left))
    (hleft : ∀ row ∈ left, row.readyNs ≤ t.now) : Accounted t := by
  have himports : t.imports = s.imports := by rw [Controller.imports, hissues]; rfl
  obtain ⟨gone, hperm, hgone⟩ := h.held
  refine ⟨⟨left ++ gone, ?_, fun row hrow => ?_⟩, fun hm => ?_, fun hm => ?_⟩
  · rw [himports, ← List.append_assoc]
    exact hperm.trans (hpending.append_right gone)
  · rcases List.mem_append.1 hrow with hrow | hrow
    · exact hleft row hrow
    · exact (hgone row hrow).trans hnow
  · rw [hw.measuring] at hm
    obtain ⟨ht, hp, hc, hu, he⟩ := h.closed hm
    exact ⟨hw.transfer.1.trans ht, hw.program.1.trans hp, hw.costs.1.trans hc, hw.costs.2.trans hu,
      hw.start.trans (he.trans (hw.finish hm).symm)⟩
  · rw [hw.measuring] at hm
    obtain ⟨hle, hcharged⟩ := h.opened hm
    rw [hw.start, himports]
    exact ⟨hle.trans hnow, fun a => (hw.charged a).trans (hcharged a)⟩

theorem Accounted.stay {s t : Controller σ} (h : Accounted s) (hw : SameWindow s t) (hissues : t.issues = s.issues)
    (hnow : s.now ≤ t.now) (hpending : t.pending = s.pending) : Accounted t :=
  h.move hw hissues hnow [] (by rw [hpending, List.append_nil]) (by simp)

/-! ## One step of the run -/

theorem Accounted.issue {s : Controller σ} (h : Accounted s) (after : σ) {row : PendingAdmission} (slot : ℕ)
    (hlater : s.now < row.readyNs) : Accounted (s.issue after row slot) := by
  have himports : (s.issue after row slot).imports = s.imports ++ [row] := by
    simp [Controller.imports, Controller.issue]
  obtain ⟨gone, hperm, hgone⟩ := h.held
  refine ⟨⟨gone, ?_, hgone⟩, fun hm => ?_, fun hm => ?_⟩
  · rw [himports]
    show (s.imports ++ [row]).Perm (s.pending ++ [row] ++ gone)
    refine (hperm.append_right [row]).trans ?_
    rw [List.append_assoc, List.append_assoc]
    exact (List.perm_append_comm).append_left s.pending
  · have hm' : s.measuringImports = false := hm
    obtain ⟨ht, hp, hc, hu, he⟩ := h.closed hm'
    simp only [Controller.issue, hm']
    exact ⟨ht, hp, hc, hu, he⟩
  · have hm' : s.measuringImports = true := hm
    obtain ⟨hle, hcharged⟩ := h.opened hm'
    refine ⟨hle, fun a => ?_⟩
    have hready : readyAfter s.window.measurementStart (s.imports ++ [row]) =
        readyAfter s.window.measurementStart s.imports ++ [row] := by
      rw [readyAfter, List.filter_append, List.filter_cons_of_pos (by simpa using hle.trans_lt hlater)]
      rfl
    have hone : a.charged (s.issue after row slot) = a.charged s + a.of row := by
      cases a with
      | transferBytes =>
        simp only [Charge.charged, Charge.of, Controller.issue, hm', if_true, Nat.cast_add]
        ring
      | programBytes =>
        simp only [Charge.charged, Charge.of, Controller.issue, hm', if_true, Nat.cast_add]
        ring
      | cost name =>
        simp only [Charge.charged, Charge.of, Controller.issue, hm', if_true, costOf_addCosts]
        ring
    rw [himports]
    show a.charged (s.issue after row slot) = a.total (readyAfter s.window.measurementStart (s.imports ++ [row]))
    rw [hone, hready, Charge.total_append, hcharged a]
    simp [Charge.total]

theorem Accounted.scheduleImport {s t : Controller σ} (h : Accounted s) {age slot : ℕ}
    (hs : s.scheduleImport config callbacks age slot = .ok t) :
    Accounted t ∧ t.now = s.now ∧ t.arrivalIndex = s.arrivalIndex ∧ t.measuringImports = s.measuringImports ∧
      t.window = s.window := by
  unfold Controller.scheduleImport at hs
  simp only [bind_ok, refuse_ok] at hs
  obtain ⟨request, -, _, -, _, hready, ht⟩ := hs
  obtain rfl := Except.ok.inj ht
  exact ⟨h.issue _ slot (not_le.1 hready), rfl, rfl, rfl, rfl⟩

theorem Accounted.arrive {s : Controller σ} (h : Accounted s) : Accounted (s.arrive config) := by
  unfold Controller.arrive
  split
  · exact h
  · exact h.stay ⟨rfl, rfl, ⟨rfl, rfl⟩, ⟨rfl, rfl⟩, ⟨rfl, rfl⟩, fun _ => rfl⟩ rfl le_rfl rfl

theorem Accounted.admits {s : Controller σ} (h : Accounted s) {row : PendingAdmission} (hready : row.readyNs ≤ s.now) :
    Accounted (s.admits row) := by
  have hsame : SameWindow s (s.admits row) := by
    unfold Controller.admits
    split
    · exact ⟨rfl, rfl, ⟨rfl, rfl⟩, ⟨rfl, rfl⟩, ⟨rfl, rfl⟩, fun _ => rfl⟩
    · exact ⟨rfl, rfl, ⟨rfl, rfl⟩, ⟨rfl, rfl⟩, ⟨rfl, rfl⟩, fun _ => rfl⟩
  unfold Controller.admits at hsame ⊢
  split
  · exact h
  · next hslot =>
    rw [if_neg hslot] at hsame
    by_cases hrow : row ∈ s.pending
    · refine h.move hsame rfl le_rfl [row] ?_ fun x hx => ?_
      · exact (List.perm_cons_erase hrow).trans (List.perm_append_singleton row _).symm
      · rw [List.mem_singleton.1 hx]
        exact hready
    · exact h.stay hsame rfl le_rfl (List.erase_of_not_mem hrow)

/-- What a pass of the admission loop keeps. -/
structure Passes (s t : Controller σ) : Prop where
  accounted : Accounted t
  now : t.now = s.now
  arrivalIndex : t.arrivalIndex = s.arrivalIndex
  measuring : t.measuringImports = s.measuringImports
  window : t.window = s.window

theorem Passes.trans {s t u : Controller σ} (h : Passes s t) (h' : Passes t u) : Passes s u :=
  ⟨h'.accounted, h'.now.trans h.now, h'.arrivalIndex.trans h.arrivalIndex, h'.measuring.trans h.measuring,
    h'.window.trans h.window⟩

theorem Passes.admitAll (rows : List PendingAdmission) : ∀ {s : Controller σ}, Accounted s →
    (∀ row ∈ rows, row.readyNs ≤ s.now) → Passes s (rows.foldl Controller.admits s) := by
  induction rows with
  | nil => exact fun h _ => ⟨h, rfl, rfl, rfl, rfl⟩
  | cons row rows ih =>
    intro s h hrows
    have hone : Passes s (s.admits row) := by
      refine ⟨h.admits (hrows row (by simp)), ?_, s.admit_arrivalIndex row, ?_, ?_⟩
      · unfold Controller.admits
        split <;> rfl
      · unfold Controller.admits
        split <;> rfl
      · unfold Controller.admits
        split <;> rfl
    rw [List.foldl_cons]
    refine hone.trans (ih hone.accounted fun x hx => ?_)
    rw [hone.now]
    exact hrows x (by simp [hx])

theorem Passes.prepareAll (slots : List ℕ) : ∀ {s t : Controller σ}, Accounted s →
    slots.foldlM (fun t slot => Controller.prepare config callbacks t slot) s = .ok t → Passes s t := by
  induction slots with
  | nil =>
    intro s t h ht
    obtain rfl := Except.ok.inj ht
    exact ⟨h, rfl, rfl, rfl, rfl⟩
  | cons slot slots ih =>
    intro s t h ht
    rw [List.foldlM_cons, bind_ok] at ht
    obtain ⟨u, hu, ht⟩ := ht
    have hone : Passes s u := by
      unfold Controller.prepare at hu
      rw [bind_ok] at hu
      obtain ⟨v, hv, hu⟩ := hu
      obtain ⟨ha, hn, hi, hm, hw⟩ := h.scheduleImport hv
      split at hu
      · obtain rfl := Except.ok.inj hu
        exact ⟨ha, hn, hi, hm, hw⟩
      · obtain rfl := Except.ok.inj hu
        exact ⟨ha.stay ⟨rfl, rfl, ⟨rfl, rfl⟩, ⟨rfl, rfl⟩, ⟨rfl, rfl⟩, fun _ => rfl⟩ rfl le_rfl rfl, hn, hi, hm, hw⟩
    exact hone.trans (ih hone.accounted ht)

theorem Accounted.pass {s t : Controller σ} (h : Accounted s) (ht : s.pass config callbacks = .ok t) :
    Accounted t ∧ t.now = s.now ∧ t.Waits config ∧ t.measuringImports = s.measuringImports ∧ t.window = s.window := by
  have harrived : (s.arrive config).now = s.now ∧ (s.arrive config).measuringImports = s.measuringImports ∧
      (s.arrive config).window = s.window := by
    unfold Controller.arrive
    split
    · exact ⟨rfl, rfl, rfl⟩
    · exact ⟨rfl, rfl, rfl⟩
  have hadmits : Passes (s.arrive config) (s.arrive config).admitReady := by
    refine Passes.admitAll _ h.arrive fun row hrow => ?_
    have hmem := (List.mem_filter.1 ((List.mem_insertionSort PendingAdmission.before).1 hrow)).2
    simpa using hmem
  have hboth := hadmits.trans (Passes.prepareAll _ hadmits.accounted ht)
  refine ⟨hboth.accounted, hboth.now.trans harrived.1, fun a ha => ?_, hboth.measuring.trans harrived.2.1,
    hboth.window.trans harrived.2.2⟩
  rw [hboth.arrivalIndex] at ha
  rw [hboth.now]
  exact s.arrive_waits a ha

theorem Accounted.admitLoop (fuel : ℕ) : ∀ {s t : Controller σ}, Accounted s →
    Controller.admitLoop config callbacks fuel s = .ok t →
    Accounted t ∧ s.now ≤ t.now ∧ t.measuringImports = s.measuringImports ∧ t.window = s.window := by
  induction fuel with
  | zero => exact fun _ ht => by cases ht
  | succ fuel ih =>
    intro s t h ht
    unfold Controller.admitLoop at ht
    rw [bind_ok] at ht
    obtain ⟨u, hu, ht⟩ := ht
    obtain ⟨ha, hn, hwaits, hm, hw⟩ := h.pass hu
    split at ht
    · obtain rfl := Except.ok.inj ht
      exact ⟨ha, hn.ge, hm, hw⟩
    · next time hwait =>
      have hlt := (Controller.waits_lt hwaits hwait).1
      have hlater : Accounted { u with now := time } :=
        ha.stay ⟨rfl, rfl, ⟨rfl, rfl⟩, ⟨rfl, rfl⟩, ⟨rfl, rfl⟩, fun _ => rfl⟩ rfl hlt.le rfl
      obtain ⟨ht, hle, hm', hw'⟩ := ih hlater ht
      exact ⟨ht, (hn.ge.trans hlt.le).trans hle, hm'.trans hm, hw'.trans hw⟩

/-! ## Startup -/

/-- Before the first step every import is pending, and nothing is charged. -/
structure Starting (s : Controller σ) : Prop where
  imports : s.imports = s.pending
  measuring : s.measuringImports = false
  issued : s.pdTransferIssued = 0 ∧ s.pdProgramIssued = 0 ∧ s.pdCostsIssued = .empty

theorem Starting.startupImport {s t : Controller σ} (h : Starting s) {index : ℕ}
    (ht : s.startupImport config callbacks index = .ok t) : Starting t := by
  unfold Controller.startupImport Controller.scheduleImport at ht
  simp only [bind_ok, refuse_ok] at ht
  obtain ⟨u, ⟨request, -, _, -, _, -, hu⟩, ht⟩ := ht
  obtain rfl := Except.ok.inj hu
  have hissued : Starting (s.issue (callbacks.importKv s.callbacks request s.now).1
      (callbacks.importKv s.callbacks request s.now).2 index) := by
    refine ⟨?_, h.measuring, ?_⟩
    · simp only [Controller.imports, Controller.issue, List.map_append, List.map_cons, List.map_nil]
      rw [← h.imports]
      rfl
    · simp only [Controller.issue, h.measuring]
      exact h.issued
  split at ht
  · obtain rfl := Except.ok.inj ht
    exact hissued
  · obtain rfl := Except.ok.inj ht
    exact ⟨hissued.imports, hissued.measuring, hissued.issued⟩

theorem Starting.startupImports (indices : List ℕ) : ∀ {s t : Controller σ}, Starting s →
    indices.foldlM (fun t index => Controller.startupImport config callbacks t index) s = .ok t → Starting t := by
  induction indices with
  | nil =>
    intro s t h ht
    obtain rfl := Except.ok.inj ht
    exact h
  | cons index indices ih =>
    intro s t h ht
    rw [List.foldlM_cons, bind_ok] at ht
    obtain ⟨u, hu, ht⟩ := ht
    exact ih (h.startupImport hu) ht

/-- The run starts when every startup import is ready. -/
theorem Accounted.startup {s t : Controller σ} (h : Starting s)
    (ht : s.startup config callbacks = .ok t) : Accounted t.opened ∧ t.opened.measuringImports = false := by
  unfold Controller.startup at ht
  split at ht
  · obtain rfl := Except.ok.inj ht
    refine ⟨⟨⟨[], ?_, by simp⟩, fun _ => ⟨h.issued.1, h.issued.2.1, h.issued.2.2, rfl, rfl⟩, fun hm => ?_⟩, h.measuring⟩
    · rw [List.append_nil]
      show s.imports.Perm s.pending
      rw [h.imports]
    · rw [show s.opened.measuringImports = false from h.measuring] at hm
      cases hm
  · rw [bind_ok] at ht
    obtain ⟨u, hu, ht⟩ := ht
    have hstarting := h.startupImports _ hu
    unfold Controller.started at ht
    split at ht
    · cases ht
    · next now hnow =>
      obtain rfl := Except.ok.inj ht
      obtain ⟨-, hmax⟩ := List.max?_eq_some_iff.1 hnow
      refine ⟨⟨⟨u.pending, ?_, fun row hrow => hmax _ (List.mem_map_of_mem hrow)⟩, fun _ => ⟨hstarting.issued.1,
        hstarting.issued.2.1, hstarting.issued.2.2, rfl, rfl⟩, fun hm => ?_⟩, hstarting.measuring⟩
      · show u.imports.Perm ([] ++ u.pending)
        rw [hstarting.imports, List.nil_append]
      · rw [show u.measuringImports = false from hstarting.measuring] at hm
        cases hm

/-! ## Steps -/

/-- The window opens: what is unfinished now is charged to it. -/
theorem Accounted.openWindow {s : Controller σ} (h : Accounted s) (hm : s.measuringImports = false) :
    Accounted s.openWindow := by
  obtain ⟨ht, hp, hc, hu, -⟩ := h.closed hm
  refine ⟨h.held, fun hfalse => ?_, fun _ => ⟨le_rfl, fun a => ?_⟩⟩
  · cases hfalse
  · have hperm := a.total_perm (h.readyAfter_now le_rfl)
    show a.charged s.openWindow = a.total (readyAfter s.now s.imports)
    rw [hperm]
    cases a with
    | transferBytes =>
      rw [Charge.total_transferBytes]
      simp only [Charge.charged, Controller.openWindow, ht, Nat.cast_zero, zero_add]
      rfl
    | programBytes =>
      rw [Charge.total_programBytes]
      simp only [Charge.charged, Controller.openWindow, hp, Nat.cast_zero, zero_add]
      rfl
    | cost name =>
      simp only [Charge.charged, Controller.openWindow, hc, hu]
      rw [Charge.costOf_addAll]
      simp only [costOf, Dict.get?_empty, Option.getD_none, zero_add]
      rfl

/-- The window is open from the first measured step on. -/
theorem Accounted.enterStep {s : Controller σ} (h : Accounted s) {step : ℕ}
    (hm : s.measuringImports = decide (config.warmupSteps < step)) :
    Accounted (s.enterStep config step) ∧ (s.enterStep config step).measuringImports = decide (config.warmupSteps ≤ step) := by
  unfold Controller.enterStep
  by_cases hstep : step = config.warmupSteps
  · have hclosed : s.measuringImports = false := by
      rw [hm]
      simp [hstep]
    rw [if_pos hstep]
    refine ⟨(h.openWindow hclosed).stay ⟨rfl, rfl, ⟨rfl, rfl⟩, ⟨rfl, rfl⟩, ⟨rfl, rfl⟩, fun _ => rfl⟩ rfl le_rfl rfl, ?_⟩
    show true = _
    simp [hstep]
  · rw [if_neg hstep]
    refine ⟨h.stay ⟨rfl, rfl, ⟨rfl, rfl⟩, ⟨rfl, rfl⟩, ⟨rfl, rfl⟩, fun _ => rfl⟩ rfl le_rfl rfl, ?_⟩
    show s.measuringImports = _
    rw [hm, decide_eq_decide]
    omega

theorem Accounted.decode {s t : Controller σ} (h : Accounted s) {iterationStart : ℚ}
    (ht : s.decode config callbacks s.measuringImports iterationStart = .ok t) :
    Accounted t ∧ t.measuringImports = s.measuringImports ∧
      (s.measuringImports = true → t.window.measurementEnd = t.now) := by
  unfold Controller.decode at ht
  simp only [bind_ok, refuse_ok] at ht
  obtain ⟨_, hlater, o, -, ht⟩ := ht
  have hle := (not_le.1 hlater).le
  split at ht
  · next hm =>
    obtain rfl := Except.ok.inj ht
    refine ⟨h.stay ⟨rfl, rfl, ⟨rfl, rfl⟩, ⟨rfl, rfl⟩, ⟨rfl, rfl⟩, fun hfalse => ?_⟩ rfl hle rfl, rfl, fun _ => rfl⟩
    rw [hfalse] at hm
    cases hm
  · next hm =>
    obtain rfl := Except.ok.inj ht
    exact ⟨h.stay ⟨rfl, rfl, ⟨rfl, rfl⟩, ⟨rfl, rfl⟩, ⟨rfl, rfl⟩, fun _ => rfl⟩ rfl hle rfl, rfl, fun htrue => absurd htrue hm⟩

/-- The steps keep the account, and a measured window ends where they do. -/
theorem Accounted.runSteps (fuel n : ℕ) : ∀ {k : ℕ} {s : Controller σ} {run : Status × Controller σ}, Accounted s →
    s.measuringImports = decide (config.warmupSteps < k) →
    (s.measuringImports = true → s.window.measurementEnd = s.now) →
    Controller.runSteps config callbacks fuel (List.range' k n) s = .ok run →
    Accounted run.2 ∧ (run.2.measuringImports = true → run.2.window.measurementEnd = run.2.now) := by
  induction n with
  | zero =>
    intro k s run h _ hend hrun
    obtain rfl := Except.ok.inj hrun
    exact ⟨h, hend⟩
  | succ n ih =>
    intro k s run h hm _ hrun
    rw [List.range'_succ] at hrun
    unfold Controller.runSteps at hrun
    rw [bind_ok] at hrun
    obtain ⟨t, ht, hrun⟩ := hrun
    obtain ⟨hentered, hmeasuring⟩ := h.enterStep hm
    obtain ⟨hadmitted, -, hsame, -⟩ := hentered.admitLoop fuel ht
    rw [hmeasuring] at hsame
    rw [← hsame] at hrun
    split at hrun
    · obtain rfl := Except.ok.inj hrun
      unfold Controller.exhausted
      split
      · next htrue =>
        refine ⟨hadmitted.stay ⟨rfl, rfl, ⟨rfl, rfl⟩, ⟨rfl, rfl⟩, ⟨rfl, rfl⟩, fun hfalse => ?_⟩ rfl le_rfl rfl, fun _ => rfl⟩
        rw [hfalse] at htrue
        cases htrue
      · next hfalse => exact ⟨hadmitted, fun htrue => absurd htrue hfalse⟩
    · rw [bind_ok] at hrun
      obtain ⟨u, hu, hrun⟩ := hrun
      obtain ⟨hdecoded, hm', hend⟩ := hadmitted.decode hu
      refine ih hdecoded ?_ (fun htrue => hend (hm' ▸ htrue)) hrun
      rw [hm', hsame, decide_eq_decide]
      omega

/-! ## The result -/

/-- The imports that become ready in the window. -/
def readyWithin (since stop : ℚ) (rows : List PendingAdmission) : List PendingAdmission :=
  rows.filter fun row => since < row.readyNs ∧ row.readyNs ≤ stop

theorem Charge.total_within (a : Charge) {since stop : ℚ} (hle : since ≤ stop) (rows : List PendingAdmission) :
    a.total (readyWithin since stop rows) = a.total (readyAfter since rows) - a.total (readyAfter stop rows) := by
  induction rows with
  | nil => simp [readyWithin, readyAfter, Charge.total]
  | cons row rows ih =>
    simp only [readyWithin, readyAfter, Charge.total] at ih ⊢
    by_cases hsince : since < row.readyNs
    · by_cases hstop : stop < row.readyNs
      · rw [List.filter_cons_of_neg (by simp [hstop]), List.filter_cons_of_pos (by simpa using hsince),
          List.filter_cons_of_pos (by simpa using hstop), ih]
        simp only [List.map_cons, List.sum_cons]
        ring
      · rw [List.filter_cons_of_pos (by simpa using ⟨hsince, not_lt.1 hstop⟩),
          List.filter_cons_of_pos (by simpa using hsince), List.filter_cons_of_neg (by simpa using not_lt.1 hstop)]
        simp only [List.map_cons, List.sum_cons, ih]
        ring
    · have hstop : ¬stop < row.readyNs := fun h => hsince (hle.trans_lt h)
      rw [List.filter_cons_of_neg (by simp [hsince]), List.filter_cons_of_neg (by simpa using not_lt.1 hsince),
        List.filter_cons_of_neg (by simpa using not_lt.1 hstop), ih]

/-- What the run says its window completed. -/
def Charge.completed : Charge → ServingResult → ℚ
  | .transferBytes, result => result.pdTransferCompletedBytes
  | .programBytes, result => result.pdProgramCompletedBytes
  | .cost name, result => costOf result.pdResourceServiceNs name

theorem costOf_subtractAll (name : String) (rows : List PendingAdmission) : ∀ costs : Dict String ℚ,
    costOf (rows.foldl (fun costs row => row.costs.items.foldl
      (fun t p => t.insert p.1 ((t.get? p.1).getD 0 - p.2)) costs) costs) name =
      costOf costs name - (Charge.cost name).total rows := by
  induction rows with
  | nil => intro costs; simp [Charge.total]
  | cons row rows ih =>
    intro costs
    rw [List.foldl_cons, ih, costOf_foldl (· - ·) (- ·) (fun a b => sub_eq_add_neg a b) neg_zero (fun a b => neg_add a b),
      entriesOf_dict, Charge.total, Charge.total, List.map_cons, List.sum_cons]
    show _ = _ - (costOf row.costs name + _)
    ring

theorem Accounted.result {s : Controller σ} (h : Accounted s)
    (hend : s.measuringImports = true → s.window.measurementEnd = s.now) (config : ServingConfig) (status : Status)
    (startupEnd : ℚ) (a : Charge) :
    a.completed (s.result config status startupEnd) =
      a.total (readyWithin s.window.measurementStart s.window.measurementEnd s.imports) := by
  cases hm : s.measuringImports with
  | false =>
    have hnone : readyWithin s.window.measurementStart s.window.measurementEnd s.imports = [] := by
      rw [readyWithin, (h.closed hm).2.2.2.2, List.filter_eq_nil_iff]
      intro row _
      simp
    rw [hnone]
    cases a with
    | transferBytes => simp [Charge.completed, Controller.result, hm, Charge.total]
    | programBytes => simp [Charge.completed, Controller.result, hm, Charge.total]
    | cost name => simp [Charge.completed, Controller.result, Controller.costsCompleted, hm, Charge.total, costOf]
  | true =>
    obtain ⟨hle, hcharged⟩ := h.opened hm
    rw [← hend hm] at hle
    have hpending := a.total_perm (h.readyAfter_now (hend hm).ge)
    rw [a.total_within hle, ← hcharged a, hpending]
    cases a with
    | transferBytes =>
      simp only [Charge.completed, Controller.result, hm, if_true, Charge.charged]
      rw [Charge.total_transferBytes]
      simp only [Int.cast_sub, Int.cast_add, Int.cast_natCast]
      rfl
    | programBytes =>
      simp only [Charge.completed, Controller.result, hm, if_true, Charge.charged]
      rw [Charge.total_programBytes]
      simp only [Int.cast_sub, Int.cast_add, Int.cast_natCast]
      rfl
    | cost name =>
      simp only [Charge.completed, Controller.result, Controller.costsCompleted, hm, if_true, Charge.charged]
      rw [costOf_subtractAll, costOf_addCosts]
      rfl

/-- **The window's import traffic is that of the imports ready in it**: for
every configuration, callbacks and length of the run, also when arrivals run
out, what is reported as completed, in bytes moved, bytes programmed and cost
of each resource, is the sum over exactly the imports whose ready time lies
after the window's start and not after its end. -/
theorem imports_conserved (config : ServingConfig) (callbacks : Callbacks σ) (fuel : ℕ) (init : σ) (result : ServingResult)
    (hrun : runServing config callbacks fuel init = .ok result) :
    let imports := readyWithin result.window.measurementStart result.window.measurementEnd
      (result.issues.map Issue.imported)
    result.pdTransferCompletedBytes = (imports.map PendingAdmission.transferBytes).sum ∧
      result.pdProgramCompletedBytes = (imports.map PendingAdmission.physicalProgramBytes).sum ∧
      ∀ name, costOf result.pdResourceServiceNs name = (imports.map fun row => costOf row.costs name).sum := by
  unfold runServing at hrun
  rw [bind_ok] at hrun
  obtain ⟨s, hs, hrun⟩ := hrun
  rw [bind_ok] at hrun
  obtain ⟨run, hsteps, hresult⟩ := hrun
  obtain rfl := Except.ok.inj hresult
  have hstarting : Starting ({ callbacks := init, now := config.startNs : Controller σ }) := ⟨rfl, rfl, rfl, rfl, rfl⟩
  obtain ⟨hstartup, hclosed⟩ := Accounted.startup hstarting hs
  rw [List.range_eq_range'] at hsteps
  obtain ⟨haccounted, hend⟩ := hstartup.runSteps fuel _ (by rw [hclosed]; simp)
    (fun hm => by rw [hclosed] at hm; cases hm) hsteps
  have hcharge := haccounted.result hend config run.1 s.now
  refine ⟨?_, ?_, fun name => hcharge (.cost name)⟩
  · have hcharged := hcharge .transferBytes
    rw [Charge.total_transferBytes] at hcharged
    exact Rat.intCast_injective (hcharged.trans (Int.cast_natCast _).symm)
  · have hcharged := hcharge .programBytes
    rw [Charge.total_programBytes] at hcharged
    exact Rat.intCast_injective (hcharged.trans (Int.cast_natCast _).symm)

/-- Imports take 15 ns, decode calls 10; an import moves 4 bytes and
programs 2. -/
def billed : Callbacks Unit where
  importKv := fun c request time => (c, ⟨request, time + 15, 1, 2, 4, Dict.empty.insert "link" 3⟩)
  executeDecode := fun c _ _ time => (c, ⟨time + 10, 0, 0, 0, .empty⟩)

theorem imports_conserved_twoSlots : ∃ result, runServing twoSlots billed 5 () = .ok result ∧
    result.pdTransferCompletedBytes = 8 ∧
    result.pdTransferCompletedBytes = ((readyWithin result.window.measurementStart result.window.measurementEnd
      (result.issues.map Issue.imported)).map PendingAdmission.transferBytes).sum := by
  have htotal : (runServing twoSlots billed 5 ()).toOption.map ServingResult.pdTransferCompletedBytes = some 8 := by
    decide +kernel
  cases hrun : runServing twoSlots billed 5 () with
  | error e =>
    rw [hrun] at htotal
    cases htotal
  | ok result =>
    rw [hrun] at htotal
    exact ⟨result, rfl, Option.some.inj htotal, (imports_conserved twoSlots billed 5 () result hrun).1⟩

end HeteroSim.DecodeNode
