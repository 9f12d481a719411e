/-
When a bank group of a DRAM rank may be activated (`dram_core.py`), over the
clock arithmetic of `_hbm_clock.py`: after the gaps to the activations before
it, and where the calendar of four-activate windows allows it. Times are
rationals.
-/
import HeteroSim.Dict
import HeteroSim.Spacing

namespace HeteroSim.Dram

/-! ## The clock -/

/-- `round`: a tie goes to the even integer. -/
def roundHalfEven (q : ℚ) : ℤ :=
  if Int.fract q < 1 / 2 ∨ Int.fract q = 1 / 2 ∧ ⌊q⌋ % 2 = 0 then ⌊q⌋ else ⌊q⌋ + 1

/-- `align_clock` -/
def alignClock (value quantum : ℚ) : ℚ :=
  let tick := ⌊value / quantum⌋
  let edge := tick * quantum
  if edge < value then (tick + 1) * quantum else edge

/-- `clock_after` -/
def clockAfter (value delay quantum : ℚ) : ℚ :=
  let valueTick := roundHalfEven (value / quantum)
  let delayTick := roundHalfEven (delay / quantum)
  if value = valueTick * quantum ∧ delay = delayTick * quantum then (valueTick + delayTick : ℤ) * quantum
  else value + delay

/-- Without rounding, the whole ticks are the delay. -/
@[simp] theorem clockAfter_eq (value delay quantum : ℚ) : clockAfter value delay quantum = value + delay := by
  rw [clockAfter]
  split
  · rename_i h
    rw [Int.cast_add, add_mul, ← h.1, ← h.2]
  · rfl

/-- A delay after a time, on the clock when there is one. -/
def clockEnd (clockQuantum : Option ℚ) (start delay : ℚ) : ℚ :=
  match clockQuantum with
  | none => start + delay
  | some quantum => clockAfter start delay quantum

@[simp] theorem clockEnd_eq (clockQuantum : Option ℚ) (start delay : ℚ) : clockEnd clockQuantum start delay = start + delay := by
  cases clockQuantum with
  | none => rfl
  | some quantum => exact clockAfter_eq start delay quantum

theorem le_alignClock (value : ℚ) {quantum : ℚ} (h : 0 < quantum) : value ≤ alignClock value quantum := by
  have hlt : value < (⌊value / quantum⌋ + 1) * quantum := (div_lt_iff₀ h).1 (Int.lt_floor_add_one _)
  simp only [alignClock]
  split
  · exact hlt.le
  · rename_i hedge
    exact not_lt.1 hedge

/-! ## Group gaps -/

/-- `_group_history_ready`; a gap of zero is no gap. -/
def groupHistoryReady (history : Dict ℕ ℚ) (group : ℕ) (sameNs differentNs earliest : ℚ) (clockQuantum : Option ℚ) : ℚ :=
  history.items.foldl (fun earliest item =>
    let gap := if item.1 = group then sameNs else differentNs
    if 0 < gap then max earliest (clockEnd clockQuantum item.2 gap) else earliest) earliest

/-! ## The calendar -/

/-- The four activations before a start, the start, and the four after it. -/
def neighbors (calendar : List ℚ) (earliest : ℚ) : List ℚ :=
  let position := bisectRight calendar earliest
  (calendar.take position).drop (position - 4) ++ earliest :: (calendar.drop position).take 4

/-- Where the start is among them. -/
def candidate (calendar : List ℚ) (earliest : ℚ) : ℕ :=
  let position := bisectRight calendar earliest
  position - (position - 4)

/-- Five of the neighbors. -/
def fiveFrom (calendar : List ℚ) (earliest : ℚ) (offset : ℕ) : List ℚ := ((neighbors calendar earliest).drop offset).take 5

/-- The activations of a window other than the start. -/
def otherStarts (calendar : List ℚ) (earliest : ℚ) (offset : ℕ) : List ℚ :=
  (fiveFrom calendar earliest offset).eraseIdx (candidate calendar earliest - offset)

/-- The range of the windows that hold the start: from
`max(0, candidate - 4)` to `min(candidate, len(neighbors) - 5)`. -/
def offsets (calendar : List ℚ) (earliest : ℚ) : List ℕ :=
  let c := candidate calendar earliest
  (List.range (min (c + 1) ((neighbors calendar earliest).length - 4))).drop (c - 4)

/-- The window is too short. -/
def violates (windowEnd : ℚ → ℚ) (window : List ℚ) : Prop := window.getLastD 0 < windowEnd (window.headD 0)

instance (windowEnd : ℚ → ℚ) (window : List ℚ) : Decidable (violates windowEnd window) := inferInstanceAs (Decidable (_ < _))

/-- The next start to try: past the oldest of the others of each window that
is too short. -/
def repair (windowEnd : ℚ → ℚ) (calendar : List ℚ) (earliest : ℚ) : ℚ :=
  (offsets calendar earliest).foldl (fun nextStart offset =>
    if violates windowEnd (fiveFrom calendar earliest offset) then
      max nextStart (windowEnd ((otherStarts calendar earliest offset).min?.getD 0))
    else nextStart) earliest

/-- What the functions read of `DramConfig`. -/
structure ActivateTiming where
  activateSameGroupNs : ℚ
  activateDifferentGroupNs : ℚ
  fourActivateWindowNs : ℚ

/-- The loop of `_bank_group_activate_ready`, at most `n` rounds of it. -/
def settle (windowEnd : ℚ → ℚ) (calendar : List ℚ) (n : ℕ) (earliest : ℚ) : Option ℚ :=
  chase (repair windowEnd calendar) n earliest

/-- `_bank_group_activate_ready`: the start, and the calendar it leaves. -/
def bankGroupActivateReady (c : ActivateTiming) (activate : Dict ℕ ℚ) (calendar : List ℚ) (group : ℕ) (earliest arrival : ℚ)
    (clockQuantum : Option ℚ) : Option (ℚ × List ℚ) :=
  let earliest := groupHistoryReady activate group c.activateSameGroupNs c.activateDifferentGroupNs earliest clockQuantum
  if c.fourActivateWindowNs ≤ 0 then some (earliest, calendar)
  else
    let windowEnd := fun start => clockEnd clockQuantum start c.fourActivateWindowNs
    let calendar := calendar.dropWhile fun start => decide (windowEnd start ≤ arrival)
    (settle windowEnd calendar (calendar.length + 1) earliest).map fun start => (start, calendar)

end HeteroSim.Dram
