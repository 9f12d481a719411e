/-
The cost ledger of page transfers. With details retained every submitted phase
is a row of its own; without, the rows of one kind, owner, component and
operation are added up in a group, and only their number is known.
-/
import HeteroSim.Dict

namespace HeteroSim.Transfer

/-- A column of a bill. -/
inductive Value
  | null
  | flag (b : Bool)
  | number (q : ℚ)
  | text (s : String)
  | amounts (d : Dict String ℚ)
  | labels (d : Dict String String)
  | detail (s : String)
deriving DecidableEq

/-- A submitted phase: its place, its times and its other columns. -/
structure CostPhase where
  phaseId : String
  kind : String
  owner : String
  componentId : String
  operation : String
  arrivalNs : ℚ
  startNs : Option ℚ
  completionNs : ℚ
  columns : Dict String Value
deriving DecidableEq

structure CostGroup where
  phaseId : String
  submittedPhaseCount : ℕ
  arrivalNs : ℚ
  startNs : ℚ
  completionNs : ℚ
  durationNs : ℚ
  columns : Dict String Value
  resourceBusyByDirectionNs : Dict String Value
deriving DecidableEq

abbrev GroupKey := String × String × String × String

structure CostLedger where
  phases : List CostPhase
  groups : Dict GroupKey CostGroup
  total : ℕ

def CostLedger.empty : CostLedger := ⟨[], .empty, 0⟩

/-! ## Adding up -/

/-- The columns that are a latest or a largest value. -/
def peakColumns : List String :=
  ["host_ack_completion_ns", "media_drain_completion_ns", "write_buffer_peak_bytes", "write_buffer_release_completion_ns",
    "host_outstanding_at_admission_peak", "host_read_outstanding_at_admission_peak",
    "host_write_outstanding_at_admission_peak"]

/-- The columns that are a state, not a sum. -/
def stateColumns : List String :=
  ["write_buffer_occupancy_bytes", "bandwidth_ceiling_gb_s", "array_units", "actual_bandwidth_gb_s"]

def numberOr (v : Option Value) (default : ℚ) : ℚ :=
  match v with
  | some (.number q) => q
  | _ => default

def sumNumber (total : Dict String Value) (key : String) (q : ℚ) : ℚ :=
  if key ∈ peakColumns then max (numberOr (total.get? key) q) q
  else if key ∈ stateColumns then q
  else numberOr (total.get? key) 0 + q

def amountsOf : Option Value → Dict String ℚ
  | some (.amounts d) => d
  | _ => .empty

def labelsOf : Option Value → Dict String String
  | some (.labels d) => d
  | _ => .empty

def addAmounts (total d : Dict String ℚ) : Dict String ℚ :=
  d.items.foldl (fun total p => total.insert p.1 ((total.get? p.1).getD 0 + p.2)) total

/-- `_sum_counters`, on one column. -/
def sumColumn (total : Dict String Value) (p : String × Value) : Dict String Value :=
  match p.2 with
  | .number q => total.insert p.1 (.number (sumNumber total p.1 q))
  | .amounts d => total.insert p.1 (.amounts (addAmounts (amountsOf (total.get? p.1)) d))
  | .labels d => total.insert p.1 (.labels (d.items.foldl (fun t q => t.insert q.1 q.2) (labelsOf (total.get? p.1))))
  | value => total.insert p.1 value

/-! ## Retaining a phase -/

def skippedColumns : List String :=
  ["resource_intervals", "resource_interval_payloads", "nand_observations", "resource_busy_by_direction_ns", "start_ns",
    "duration_ns"]

/-- The columns a group keeps: no expanded details, and no number where the group has none. -/
def keptColumn (group : Dict String Value) (p : String × Value) : Bool :=
  p.1 ∉ skippedColumns && match p.2 with
    | .number _ => group.get? p.1 ≠ some .null
    | .detail _ => p.1 = "host_admission_depth_scopes"
    | _ => true

def CostPhase.key (phase : CostPhase) : GroupKey := (phase.kind, phase.owner, phase.componentId, phase.operation)

def CostPhase.direction (phase : CostPhase) : String :=
  if phase.kind = "link" then "read_write" else phase.operation.toLower

/-- The phase's group with the phase added, at its place among the groups. -/
def CostPhase.group (phase : CostPhase) (previous : Option CostGroup) (place : ℕ) : CostGroup :=
  let start := phase.startNs.getD phase.arrivalNs
  let columns := (previous.map CostGroup.columns).getD .empty
  let summed := (phase.columns.items.filter (keptColumn columns)).foldl sumColumn columns
  let arrival := match previous with
    | none => phase.arrivalNs
    | some g => min g.arrivalNs phase.arrivalNs
  let completion := match previous with
    | none => phase.completionNs
    | some g => max g.completionNs phase.completionNs
  { phaseId := s!"paged-kv-physical-group-{place}"
    submittedPhaseCount := (previous.map CostGroup.submittedPhaseCount).getD 0 + 1
    arrivalNs := arrival
    startNs := match previous with
      | none => start
      | some g => min g.startNs start
    completionNs := completion
    durationNs := completion - arrival
    columns := summed
    resourceBusyByDirectionNs :=
      Dict.empty.insert phase.direction (.amounts (amountsOf (summed.get? "resource_busy_ns"))) }

/-- `_retain_cost_phase`. -/
def CostLedger.retain (retainPhaseDetails : Bool) (ledger : CostLedger) (phase : CostPhase) : CostLedger :=
  if retainPhaseDetails then { ledger with phases := ledger.phases ++ [phase] } else
    let place := if phase.key ∈ ledger.groups.keys then ledger.groups.keys.idxOf phase.key else ledger.groups.keys.length
    { ledger with
      groups := ledger.groups.insert phase.key (phase.group (ledger.groups.get? phase.key) place)
      total := ledger.total + 1 }

/-- `_cost_phase_count`. -/
def CostLedger.count (retainPhaseDetails : Bool) (ledger : CostLedger) : ℕ :=
  if retainPhaseDetails then ledger.phases.length else ledger.total

/-- What later phases leave of an earlier ledger: rows behind it, or groups changed and counted. -/
structure Grown (retainPhaseDetails : Bool) (old new : CostLedger) : Prop where
  rows : ∃ added, new.phases = old.phases ++ added
  grouped : retainPhaseDetails = true → new.groups = old.groups ∧ new.total = old.total
  counted : old.total ≤ new.total

theorem Grown.refl (retainPhaseDetails : Bool) (ledger : CostLedger) : Grown retainPhaseDetails ledger ledger where
  rows := ⟨[], (List.append_nil _).symm⟩
  grouped := fun _ => ⟨rfl, rfl⟩
  counted := le_rfl

theorem Grown.trans {retainPhaseDetails : Bool} {a b c : CostLedger} (h : Grown retainPhaseDetails a b)
    (h' : Grown retainPhaseDetails b c) : Grown retainPhaseDetails a c where
  rows := by
    obtain ⟨added, hb⟩ := h.rows
    obtain ⟨more, hc⟩ := h'.rows
    exact ⟨added ++ more, by rw [hc, hb, List.append_assoc]⟩
  grouped := by
    intro hr
    obtain ⟨hg, ht⟩ := h.grouped hr
    obtain ⟨hg', ht'⟩ := h'.grouped hr
    exact ⟨hg'.trans hg, ht'.trans ht⟩
  counted := h.counted.trans h'.counted

theorem grown_retain (retainPhaseDetails : Bool) (ledger : CostLedger) (phase : CostPhase) :
    Grown retainPhaseDetails ledger (ledger.retain retainPhaseDetails phase) := by
  cases retainPhaseDetails with
  | true => exact ⟨⟨[phase], rfl⟩, fun _ => ⟨rfl, rfl⟩, le_rfl⟩
  | false => exact ⟨⟨[], (List.append_nil _).symm⟩, (fun h => by cases h), Nat.le_succ _⟩

/-- Cutting the rows back undoes what was retained as rows. -/
theorem Grown.cut {old new : CostLedger} (h : Grown true old new) :
    { new with phases := new.phases.take old.phases.length } = old := by
  obtain ⟨added, hrows⟩ := h.rows
  obtain ⟨hg, ht⟩ := h.grouped rfl
  cases new with
  | mk phases groups total =>
    simp only at hrows hg ht
    rw [hrows, hg, ht, List.take_left]

end HeteroSim.Transfer
