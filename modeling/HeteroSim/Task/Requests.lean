/-
The accesses of a physical task as its cores see them: requests over byte
ranges, what the controllers above a DRAM core ask of it, and what it is for a
window of requests to be executed in order where they conflict.
-/
import HeteroSim.Address.Place
import HeteroSim.Raising
import HeteroSim.RangeMaxima

namespace HeteroSim.Task

open HeteroSim.Address

inductive Operation
  | read
  | write
  | erase
deriving DecidableEq

structure AccessRequest where
  requestId : String
  operation : Operation
  address : ℕ
  byteCount : ℕ
  arrival : ℚ
  byteCount_pos : 0 < byteCount

namespace AccessRequest

variable (r q : AccessRequest)

def stop : ℕ := r.address + r.byteCount

/-- The byte ranges overlap. -/
def Meets : Prop := r.address < q.stop ∧ q.address < r.stop

/-- They overlap, and at least one of them writes. -/
def Conflicts : Prop := r.Meets q ∧ (r.operation = .write ∨ q.operation = .write)

instance : Decidable (r.Meets q) := inferInstanceAs (Decidable (_ ∧ _))

instance : Decidable (r.Conflicts q) := inferInstanceAs (Decidable (_ ∧ _))

/-- `dataclasses.replace(request, arrival_ns=..)` -/
def arriving (arrival : ℚ) : AccessRequest := { r with arrival := arrival }

theorem conflicts_comm : r.Conflicts q ↔ q.Conflicts r := and_congr and_comm or_comm

theorem address_lt_stop : r.address < r.stop := Nat.lt_add_of_pos_right r.byteCount_pos

end AccessRequest

/-- A request as a core executed it: its place in the window, its arrival
there and its completion. -/
structure Executed where
  index : ℕ
  request : AccessRequest
  completion : ℚ

def Executed.isWrite (x : Executed) : Bool := decide (x.request.operation = .write)

/-- Every request is executed once, not before it arrived, and after the
requests before it that it conflicts with. -/
structure Orderly (requests : List AccessRequest) (run : List Executed) : Prop where
  once : (run.map Executed.index).Perm (List.range requests.length)
  same : ∀ x ∈ run, ∃ r, requests[x.index]? = some r ∧ x.request = r.arriving x.request.arrival ∧
    r.arrival ≤ x.request.arrival
  ordered : ∀ x ∈ run, ∀ y ∈ run, x.index < y.index → x.request.Conflicts y.request →
    x.completion ≤ y.request.arrival

section

variable {α : Type}

/-- `enumerate` -/
def places (l : List α) : List (ℕ × α) := (List.range l.length).zip l

theorem map_fst_places (l : List α) : (places l).map Prod.fst = List.range l.length :=
  List.map_fst_zip (by simp)

theorem mem_places {l : List α} {p : ℕ × α} (h : p ∈ places l) :
    l[p.1]? = some p.2 := by
  obtain ⟨i, hi, rfl⟩ := List.mem_iff_getElem.1 h
  simp only [places, List.getElem_zip, List.getElem_range]
  rw [List.getElem?_eq_getElem]

theorem sorted_places (l : List α) : (places l).Pairwise fun a b => a.1 < b.1 := by
  rw [← List.pairwise_map (f := Prod.fst) (R := (· < ·)), map_fst_places]
  exact List.pairwise_lt_range

end

/-! ## DRAM controllers -/

/-- What the controllers above a core read of an accepted `DramConfig`. -/
structure Controller where
  geometry : DramConfig
  schedulerWindow : ℕ
  maxOutstandingRequests : ℕ
  accepted : geometry.validate = .ok ()
  window_pos : 0 < schedulerWindow
  outstanding_pos : 0 < maxOutstandingRequests

/-- A core, over the state of the whole runtime. The calls answer completion
times, a window's by the place of the request. -/
structure Core (σ : Type) where
  acceptance : σ → ℚ
  inflight : σ → List ℚ
  channelInflight : ℕ × ℕ → σ → List ℚ
  /-- The open row of the bank a burst maps to, when the bank has a state. -/
  openRow : AddressMapping → σ → Option ℕ
  schedulerDirection : σ → Option Operation
  schedulerStreak : σ → ℕ
  submit : AccessRequest → EStateM String σ ℚ
  submitManyOrdered : List AccessRequest → EStateM String σ (ℕ → ℚ)
  executeFrFcfs : List AccessRequest → EStateM String σ (ℕ → ℚ)

/-- `validate_dram_request` -/
def validateDramRequest (r : AccessRequest) (c : DramConfig) : Except String Unit := do
  refuse (r.operation = .erase) "DRAM does not support erase"
  checkAddress r.address c.effectiveCapacityBytes
  refuse (c.effectiveCapacityBytes < r.stop) "request extends beyond modeled DRAM capacity"

/-- The bytes of consecutive addresses that stay on one lane. -/
def laneBlockBytes (c : DramConfig) : ℕ :=
  match c.addressMapping with
  | .rowLocal => c.rowBytes * c.bankCount
  | .sidAware => c.burstBytes * c.bankGroupsPerSid
  | .bankInterleaved => c.interleaveBytes.getD c.burstBytes

/-- `dram_request_channels` -/
def dramRequestChannels (c : DramConfig) (r : AccessRequest) : List (ℕ × ℕ) :=
  let start := r.address / laneBlockBytes c
  let stop := (r.stop - 1) / laneBlockBytes c + 1
  let lanes :=
    if c.laneCount ≤ stop - start then List.range c.laneCount
    else (List.range' start (stop - start)).map (· % c.laneCount)
  let channels := lanes.map fun lane =>
    (if c.independentStacks then lane / c.lanesPerStack else 0,
      lane % c.lanesPerStack / c.pseudoChannelsPerChannel / c.subchannelsPerChannel % c.channels)
  channels.dedup.insertionSort fun a b => a.1 < b.1 ∨ a.1 = b.1 ∧ a.2 ≤ b.2

namespace Controller

variable {σ : Type} (c : Controller) (core : Core σ)

/-- A full calendar delays to the first of its ends. -/
def admitInto (ready : ℚ) (calendar : List ℚ) : ℚ :=
  let active := calendar.filter fun stop => decide (ready < stop)
  if c.maxOutstandingRequests ≤ active.length then max ready (active.min?.getD ready) else ready

/-- `_admission_time` -/
def admissionTime (r : AccessRequest) (earliest : ℚ) (s : σ) : ℚ :=
  let calendars :=
    if c.geometry.queueScope = .device then [core.inflight s]
    else (dramRequestChannels c.geometry r).map fun channel => core.channelInflight channel s
  calendars.foldl c.admitInto (max r.arrival (max (core.acceptance s) earliest))

theorem le_admitInto (ready : ℚ) (calendar : List ℚ) : ready ≤ c.admitInto ready calendar := by
  unfold admitInto
  dsimp only
  split
  · exact le_max_left _ _
  · exact le_rfl

theorem le_foldl_admitInto : ∀ (calendars : List (List ℚ)) (ready : ℚ), ready ≤ calendars.foldl c.admitInto ready
  | [], _ => le_rfl
  | calendar :: calendars, ready => (c.le_admitInto ready calendar).trans (le_foldl_admitInto calendars _)

theorem le_admissionTime (r : AccessRequest) (earliest : ℚ) (s : σ) : earliest ≤ c.admissionTime core r earliest s := by
  have h := c.le_foldl_admitInto (if c.geometry.queueScope = .device then [core.inflight s]
    else (dramRequestChannels c.geometry r).map fun channel => core.channelInflight channel s)
    (max r.arrival (max (core.acceptance s) earliest))
  exact ((le_max_right _ _).trans (le_max_right _ _)).trans h

/-! ## Bursts -/

def burst : ℕ := c.geometry.burstBytes

def capacity : ℕ := c.geometry.effectiveCapacityBytes / c.burst

def firstBurst (r : AccessRequest) : ℕ := r.address / c.burst

def endBurst (r : AccessRequest) : ℕ := (r.stop - 1) / c.burst + 1

theorem burst_pos : 0 < c.burst := (geometry_of_validate c.accepted).burst

theorem firstBurst_lt (r : AccessRequest) : c.firstBurst r < c.endBurst r := by
  have := r.address_lt_stop
  exact Nat.lt_succ_of_le (Nat.div_le_div_right (by omega))

/-- Bytes that overlap lie in bursts that overlap. -/
theorem burst_lt {r q : AccessRequest} (h : r.address < q.stop) : c.firstBurst r < c.endBurst q :=
  Nat.lt_succ_of_le (Nat.div_le_div_right (by omega))

/-- They touch a common burst, and at least one of them writes. -/
def Contend (r q : AccessRequest) : Prop :=
  c.firstBurst r < c.endBurst q ∧ c.firstBurst q < c.endBurst r ∧ (r.operation = .write ∨ q.operation = .write)

theorem contend_of_conflicts {r q : AccessRequest} (h : r.Conflicts q) : c.Contend r q :=
  ⟨c.burst_lt h.1.1, c.burst_lt h.1.2, h.2⟩

theorem endBurst_le {r : AccessRequest} {u : Unit} (h : validateDramRequest r c.geometry = .ok u) :
    c.endBurst r ≤ c.capacity := by
  simp only [validateDramRequest, bind_ok, refuse_ok, checkAddress] at h
  obtain ⟨-, -, -, -, hstop⟩ := h
  have hlt := r.address_lt_stop
  obtain ⟨k, hk⟩ := effectiveCapacity_bursts c.accepted
  have hb : 0 < c.geometry.burstBytes := c.burst_pos
  rw [capacity, hk, burst, Nat.mul_div_cancel_left k hb]
  refine Nat.succ_le_of_lt ((Nat.div_lt_iff_lt_mul hb).2 ?_)
  rw [mul_comm k]
  omega

end Controller

/-! ## Completions kept by range -/

section

variable (size : ℕ) (place : AccessRequest → ℕ × ℕ)

/-- The tree keeps the completions on the places of their requests. -/
def Recorded (tree : RangeTree ℚ) (run : List Executed) : Prop :=
  ∃ stored, RangeTree.Holds 0 size stored tree ∧
    ∀ x ∈ run, ∃ s ∈ stored, (s.left, s.right) = place x.request ∧ s.value = x.completion

variable {size place}

theorem recorded_nil {tree : RangeTree ℚ} (h : RangeTree.Blank 0 tree) : Recorded size place tree [] :=
  ⟨[], h.holds size, by simp⟩

theorem Recorded.store {tree : RangeTree ℚ} {run : List Executed} (h : Recorded size place tree run) (hsize : 0 < size)
    (guarded : Bool) (x : Executed) (hx : (place x.request).1 < (place x.request).2) :
    Recorded size place (RangeTree.store 0 guarded (place x.request).1 (place x.request).2 x.completion size 1 0 size tree)
      (x :: run) := by
  obtain ⟨stored, hholds, hrun⟩ := h
  refine ⟨⟨_, _, x.completion, hx⟩ :: stored, hholds.store hsize guarded ⟨_, _, x.completion, hx⟩, fun y hy => ?_⟩
  rcases List.mem_cons.1 hy with rfl | hy
  · exact ⟨_, List.mem_cons_self, rfl, rfl⟩
  · obtain ⟨s, hs, hy⟩ := hrun y hy
    exact ⟨s, List.mem_cons_of_mem _ hs, hy⟩

/-- **A query is past every completion kept on places it meets.** -/
theorem Recorded.le_largest {tree : RangeTree ℚ} {run : List Executed} (h : Recorded size place tree run) {x : Executed}
    (hx : x ∈ run) {left right : ℕ} (hq : left < right) (hright : right ≤ size) (hl : (place x.request).1 < right)
    (hr : left < (place x.request).2) : x.completion ≤ RangeTree.largest 0 left right size 1 0 size tree := by
  obtain ⟨stored, hholds, hrun⟩ := h
  obtain ⟨s, hs, hplace, hvalue⟩ := hrun x hx
  rw [← hplace] at hl hr
  rw [← hvalue]
  exact ((hholds.largest_le hq hright _).1 le_rfl).2 s hs hl hr

end

end HeteroSim.Task

/-!
The bounded scheduler above a DRAM core (`_dram_scheduler.py`): a finite
window of arrived requests, from which the policy picks among those no earlier
pending request conflicts with.
-/

namespace HeteroSim.Task

open HeteroSim.Address

variable {σ : Type}

/-- An entry of the window: its place, its bursts and its age. -/
structure Pending where
  index : ℕ
  request : AccessRequest
  left : ℕ
  right : ℕ
  age : ℕ

/-- The variables of `schedule_requests`. -/
structure Window where
  pending : List Pending
  queue : List (ℕ × AccessRequest)
  now : ℚ
  readsAndWrites : RangeTree ℚ
  writes : RangeTree ℚ
  results : List Executed

namespace Controller

variable (c : Controller) (core : Core σ)

def enter (entry : ℕ × AccessRequest) : Pending :=
  ⟨entry.1, entry.2, c.firstBurst entry.2, c.endBurst entry.2, 0⟩

def refill (w : Window) : Window :=
  let room := c.schedulerWindow - w.pending.length
  { w with pending := w.pending ++ (w.queue.take room).map c.enter, queue := w.queue.drop room }

/-- Whether an earlier pending entry touches the same bursts, with a write. -/
def blocked (before : List Pending) (e : Pending) : Bool :=
  before.any fun other => decide (other.left < e.right ∧ e.left < other.right ∧
    (e.request.operation = .write ∨ other.request.operation = .write))

def ledger (w : Window) (e : Pending) : RangeTree ℚ :=
  if e.request.operation = .write then w.readsAndWrites else w.writes

def ready (w : Window) (s : σ) (e : Pending) : ℚ :=
  c.admissionTime core e.request
    (max w.now (RangeTree.largest 0 e.left e.right c.capacity 1 0 c.capacity (ledger w e))) s

/-- The entries that may be executed next, with the times they are ready. -/
def candidates (ready : Pending → ℚ) : List Pending → List Pending → List (Pending × ℚ)
  | _, [] => []
  | before, e :: rest =>
    if blocked before e then candidates ready (before ++ [e]) rest
    else (e, ready e) :: candidates ready (before ++ [e]) rest

def firstHit (s : σ) : List Pending → Except String (Option Pending)
  | [] => .ok none
  | e :: rest => do
    let mapping ← mapDramAddress c.geometry e.request.address
    if core.openRow mapping s = some mapping.row then pure (some e) else firstHit s rest

/-- Reads and writes are batched: a direction is left after a full window. -/
def byDirection (s : σ) (available : List Pending) : List Pending :=
  let same := available.filter fun e => decide (some e.request.operation = core.schedulerDirection s)
  let opposite := available.filter fun e => decide (some e.request.operation ≠ core.schedulerDirection s)
  if c.schedulerWindow ≤ core.schedulerStreak s ∧ opposite ≠ [] then opposite
  else if same ≠ [] then same
  else available

def select (s : σ) (available : List Pending) : Except String (Option Pending) := do
  let aged := available.filter fun e => decide (c.schedulerWindow ≤ e.age)
  if aged ≠ [] then pure aged.head?
  else if c.geometry.scheduler = .rowHitFirst then
    let hit ← c.firstHit core s available
    pure (hit.or available.head?)
  else pure (c.byDirection core s available).head?

/-- The entries before the selected one age, and it leaves. -/
def withdraw (selected : Pending) (pending : List Pending) : List Pending :=
  (pending.map fun e => if e.index < selected.index then { e with age := e.age + 1 } else e).filter
    fun e => decide (e.index ≠ selected.index)

/-- The completion enters the ledgers. -/
def complete (w : Window) (selected : Pending) (now : ℚ) (x : Executed) : Window :=
  let keep := RangeTree.store 0 false selected.left selected.right x.completion c.capacity 1 0 c.capacity
  { w with
    pending := withdraw selected w.pending
    now := now
    readsAndWrites := keep w.readsAndWrites
    writes := if selected.request.operation = .write then keep w.writes else w.writes
    results := x :: w.results }

def scheduleStep (w : Window) : EStateM String σ Window := do
  let s ← get
  let ready := candidates (c.ready core w s) [] w.pending
  let first ← raise ((ready.map Prod.snd).min?.elim (.error "min() arg is an empty sequence") .ok)
  let now := max w.now first
  let available := (ready.filter fun entry => decide (entry.2 ≤ now)).map Prod.fst
  let choice ← raise (c.select core s available)
  let selected ← raise (choice.elim (.error "list index out of range") .ok)
  let request := selected.request.arriving (max selected.request.arrival now)
  let completion ← core.submit request
  let s ← get
  pure (c.complete w selected (max now (core.acceptance s)) ⟨selected.index, request, completion⟩)

/-- The loop; the number bounds the requests left. -/
def scheduleLoop : ℕ → Window → EStateM String σ (List Executed)
  | 0, w => pure w.results
  | n + 1, w =>
    if w.pending = [] ∧ w.queue = [] then pure w.results
    else do
      let w ← c.scheduleStep core (c.refill w)
      scheduleLoop n w

/-- `schedule_requests` -/
def scheduleRequests (requests : List AccessRequest) : EStateM String σ (List Executed) := do
  let s ← get
  c.scheduleLoop core requests.length
    ⟨[], places requests, core.acceptance s, fun _ => none, fun _ => none, []⟩

end Controller

end HeteroSim.Task
