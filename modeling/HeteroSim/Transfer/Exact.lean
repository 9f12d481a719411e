/-
When a failed preparation, or a just-prepared plan rolled back, leaves the
executor as it was. The platform, the bindings, the events and the counters
are put back; of the cost ledger only the rows are cut. Without retained
details a phase is no row, so what it added stays: exact are those executors
that retain details, and those preparations whose source is never priced.
-/
import HeteroSim.Transfer.Preparing

namespace HeteroSim.Transfer

variable {W S : Type} {P : Platform W S} {cfg : Config} {s t : Executor W}

/-! ## Whether a preparation prices its source -/

/-- Without retained details: `m` counts a phase, or raises with the ledger as it was. -/
structure Decides {α : Type} (b : Bool) (m : M W α) (s : Executor W) : Prop where
  counts : b = true → s.costs.total < (after m s).costs.total
  raises : b = false → ∃ e t, m s = .error e t ∧ t.costs = s.costs

variable {α β : Type} {b : Bool} {m : M W α} {f : α → M W β}

/-- Nothing behind the deciding part takes its decision back. -/
theorem Decides.bind (cfg : Config) (h : Decides b m s) (hf : ∀ a, Submits cfg (f a)) : Decides b (m >>= f) s where
  counts := by
    intro hb
    have hlt := h.counts hb
    rw [after] at hlt ⊢
    cases hm : m s with
    | ok a t =>
      rw [hm] at hlt
      rw [bind_ok_eq hm]
      exact hlt.trans_le ((hf a).after t).costs.counted
    | error e t =>
      rw [hm] at hlt
      rw [bind_error_eq hm]
      exact hlt
  raises := by
    intro hb
    obtain ⟨e, t, hm, hc⟩ := h.raises hb
    exact ⟨e, t, bind_error_eq hm, hc⟩

/-- The runtime and the caches, the bindings, the events, the counters and the whole cost ledger agree. -/
structure SameBooks (s t : Executor W) : Prop where
  world : t.world = s.world
  bindings : t.bindings = s.bindings
  events : t.events = s.events
  counters : t.counters = s.counters
  costs : t.costs = s.costs

theorem SameBooks.refl (s : Executor W) : SameBooks s s := ⟨rfl, rfl, rfl, rfl, rfl⟩

/-- The ledger with the rows cut back to those of an earlier one. -/
def CostLedger.cut (new old : CostLedger) : CostLedger := { new with phases := new.phases.take old.phases.length }

/-- All that a preparation did is undone, but of the ledger only the rows are. -/
structure Undone (s t u : Executor W) : Prop where
  world : u.world = s.world
  bindings : u.bindings = s.bindings
  events : u.events = s.events
  counters : u.counters = s.counters
  costs : u.costs = t.costs.cut s.costs

theorem Undone.same {u : Executor W} (h : Undone s t u) (hc : t.costs.cut s.costs = s.costs) : SameBooks s u :=
  ⟨h.world, h.bindings, h.events, h.counters, h.costs.trans hc⟩

theorem transferState_live {state live : ℕ} (h : s.plans.get? (s.stateAt state).planId = some live) :
    transferState state s = .ok live s := by
  unfold transferState
  refine get_bind_eq.trans ?_
  simp only [h]
  rfl

/-- The executor is as before when the preparation raises, and when its plan is rolled back at once. -/
structure Exact (P : Platform W S) (prepare : M W (Plan S)) (s : Executor W) : Prop where
  failed : ∀ e t, prepare s = .error e t → SameBooks s t
  rolledBack : ∀ plan t, prepare s = .ok plan t → ∃ u, rollbackTransfer P plan t = .ok true u ∧ SameBooks s u

/-- The common end of both preparations: the guarded body, the plan's registration, the plan. -/
def settlePlan (P : Platform W S) (body : M W Reserved) (count : Reserved → ℕ)
    (plan : Reserved → ℕ × ℕ → Plan S) : M W (Plan S) := do
  let reserved ← attempt P body
  let registered ← registerPlan (count reserved)
  return plan reserved registered

theorem settlePlan_error {body : M W Reserved} {count : Reserved → ℕ} {plan : Reserved → ℕ × ℕ → Plan S} {e : Raised}
    (h : body s = .error e t) : settlePlan P body count plan s = .error e (undoPreparation P s t) :=
  bind_error_eq (by rw [attempt, h])

theorem settlePlan_ok {body : M W Reserved} {count : Reserved → ℕ} {plan : Reserved → ℕ × ℕ → Plan S} {reserved : Reserved}
    (h : body s = .ok reserved t) :
    ∃ registered v, registerPlan (count reserved) t = .ok registered v ∧
      settlePlan P body count plan s = .ok (plan reserved registered) v := by
  refine ⟨_, _, rfl, ?_⟩
  exact bind_ok_eq (by rw [attempt, h])

/-- `m` leaves the ledger alone, returned or raised. -/
def Free (m : M W α) : Prop := ∀ c, Keeps (fun s : Executor W => s.costs = c) m

theorem Free.onWorld (m : EStateM Raised W α) : Free (onWorld m) := by
  intro c s hs
  unfold wp Transfer.onWorld
  cases m s.world with
  | ok a w => exact hs
  | error e w => exact hs

/-- A platform whose reads are answered at once and whose writes are refused. -/
def readOnly : Platform ℕ ℕ where
  save := fun w => w
  restore := fun saved _ => saved
  restore_save := fun _ _ => rfl
  alignmentBytes := fun _ _ => 1
  allocate := fun _ bufferId size generation _ => pure ⟨bufferId, generation, 0, size⟩
  release := fun _ _ _ => pure ()
  ownerCaches := fun _ _ => []
  flush := fun _ _ _ => pure []
  price := fun _ kind amount _ arrivalNs w => match kind with
    | .read => .ok ⟨"read", arrivalNs, none, arrivalNs + 1, 1, amount, .empty, .empty⟩ (w + 1)
    | .write => .error (.other "write refused") w
  route := fun _ _ _ => .ok []
  link := fun _ _ arrivalNs => pure ⟨arrivalNs, arrivalNs, .empty⟩

def byteMemory (owner : String) : Service := ⟨owner, "DRAM", false, 0, 1, Nat.one_pos⟩

/-- Two memories, and no details retained. -/
def compact : Config where
  poolNamespace := "kv-pool"
  components := (Dict.empty.insert "hbm" (some (byteMemory "hbm"))).insert "hbf" (some (byteMemory "hbf"))
  relayComponents := []
  arrivalNs := fun _ => .ok 0
  retainPhaseDetails := false

/-- Page 0 lies in the first memory. -/
def onePage : Executor ℕ where
  world := 0
  bindings := Dict.empty.insert 0 ⟨0, "r", "layer", "hbm", "hbm", 1, 0, ⟨"kv-pool:r:page:0", 0, 0, 1⟩, Nat.one_pos⟩
  events := []
  counters := ⟨0, 0, 0, 0, 0, 0, 0, 0⟩
  costs := .empty
  heap := []
  plans := .empty
  nextAsyncPlanId := 0
  nextAsyncPhaseToken := 0
  asyncRestoreEpoch := 0

def toSecond : TransferRequest := ⟨0, "r", "hbm", "hbf", 1, 0⟩

end HeteroSim.Transfer
