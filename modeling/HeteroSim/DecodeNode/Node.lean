/-
The node behind the controller, by what may happen to it: time passes,
an import is issued for a slot, a ready one takes its slot, the batch runs once. Policies, prefetching and arrivals only choose among these moves, and
the serving invariants are invariants of every one of them.
-/
import HeteroSim.DecodeNode.Slots
import HeteroSim.DecodeNode.Batches
import HeteroSim.Transitions

namespace HeteroSim.DecodeNode

structure Node where
  now : ℚ
  requestId : ℕ
  active : List ServingRequest
  pending : List PendingAdmission
  admissions : List PendingAdmission
  start : List ServingRequest
  issues : List Issue
  calls : List DecodeCall

namespace Node

def pendingIds (n : Node) : List ℕ := n.pending.map fun row => row.request.requestId

def issue (n : Node) (slot : ℕ) (row : PendingAdmission) : Node :=
  { n with
    requestId := n.requestId + 1
    pending := n.pending ++ [row]
    issues := n.issues ++ [⟨slot, n.now, row, n.active, n.pending ++ [row]⟩] }

def admits (n : Node) (row : PendingAdmission) : Node :=
  { n with
    pending := n.pending.erase row
    active := n.active ++ [row.request]
    admissions := n.admissions ++ [row] }

/-- Everything pending runs, from `time` on. -/
def begin (n : Node) (time : ℚ) : Node :=
  { n with
    now := time
    active := n.pending.map PendingAdmission.request
    pending := []
    start := n.pending.map PendingAdmission.request }

def decode (n : Node) (finish : ℚ) : Node :=
  { n with
    now := finish
    active := surviving n.active
    admissions := []
    calls := n.calls ++ [⟨n.active, n.pending, n.now, finish, n.admissions⟩] }

end Node

inductive Move
  | wait (time : ℚ)
  | begin (time : ℚ)
  | issue (slot : ℕ) (row : PendingAdmission)
  | admits (row : PendingAdmission)
  | decode (finish : ℚ)

/-- What may happen, and when. -/
inductive Node.Step (config : ServingConfig) : Node → Move → Node → Prop
  | wait {n : Node} {time : ℚ} (h : n.now ≤ time) : Step config n (.wait time) { n with now := time }
  | begin {n : Node} {time : ℚ} (h : n.now ≤ time) (hready : ∀ row ∈ n.pending, row.readyNs ≤ time)
      (hactive : n.active = []) (hadmissions : n.admissions = []) (hcalls : n.calls = []) :
      Step config n (.begin time) (n.begin time)
  | issue {n : Node} {slot : ℕ} {row : PendingAdmission} (hslot : row.request.slotId = slot) (hlt : slot < config.batchSize)
      (hfree : slot ∉ n.pending.map fun row => row.request.slotId)
      (hroom : preparing n.active (n.pending ++ [row]) ≤ config.prefetchSlots)
      (hid : row.request.requestId = n.requestId) (hvalid : row.request.Valid) (hready : n.now < row.readyNs) :
      Step config n (.issue slot row) (n.issue slot row)
  | admits {n : Node} {row : PendingAdmission} (hrow : row ∈ n.pending) (hready : row.readyNs ≤ n.now)
      (hslot : row.request.slotId ∉ n.active.map ServingRequest.slotId) : Step config n (.admits row) (n.admits row)
  | decode {n : Node} {finish : ℚ} (h : n.now < finish) : Step config n (.decode finish) (n.decode finish)

/-! ## The invariant -/

/-- The request was issued for the slot it runs in, and is ready by `time`. -/
def Came (issues : List Issue) (time : ℚ) (r : ServingRequest) : Prop :=
  ∃ i ∈ issues, i.imported.request.requestId = r.requestId ∧ i.slot = r.slotId ∧ i.imported.readyNs ≤ time

structure Issue.Sound (config : ServingConfig) (i : Issue) : Prop where
  slot : i.imported.request.slotId = i.slot
  ready : i.time < i.imported.readyNs
  last : i.pending.getLast? = some i.imported
  placed : Placed config i.active i.pending

structure DecodeCall.Sound (config : ServingConfig) (issues : List Issue) (c : DecodeCall) : Prop where
  placed : Placed config c.active c.pending
  finish : c.start < c.finish
  came : ∀ r ∈ c.active, Came issues c.start r
  admitted : ∀ row ∈ c.admissions, row.readyNs ≤ c.start ∧ row.request ∈ c.active ∧
    ∃ i ∈ issues, i.imported = row ∧ i.slot = row.request.slotId

structure Node.Sound (config : ServingConfig) (n : Node) : Prop where
  placed : Placed config n.active n.pending
  nodup : (ids n.active ++ n.pendingIds).Nodup
  lt : ∀ id ∈ ids n.active ++ n.pendingIds, id < n.requestId
  valid : ∀ r ∈ n.active, r.Valid
  pending_valid : ∀ row ∈ n.pending, row.request.Valid
  issued : ∀ row ∈ n.pending, ∃ i ∈ n.issues, i.imported = row ∧ i.slot = row.request.slotId
  came : ∀ r ∈ n.active, Came n.issues n.now r
  issues : ∀ i ∈ n.issues, i.Sound config
  calls : ∀ c ∈ n.calls, c.Sound config n.issues
  chained : Chained n.start n.calls
  calls_lt : ∀ c ∈ n.calls, ∀ id ∈ ids c.active, id < n.requestId
  unseen : ∀ row ∈ n.pending, ∀ c ∈ n.calls, row.request.requestId ∉ ids c.active
  carried : n.active = carried n.start n.calls ++ n.admissions.map PendingAdmission.request
  admissions : ∀ row ∈ n.admissions, row.readyNs ≤ n.now ∧ (∃ i ∈ n.issues, i.imported = row ∧ i.slot = row.request.slotId) ∧
    ∀ c ∈ n.calls, row.request.requestId ∉ ids c.active

theorem Came.mono {issues issues' : List Issue} {time time' : ℚ} {r : ServingRequest} (h : Came issues time r)
    (hissues : issues ⊆ issues') (htime : time ≤ time') : Came issues' time' r := by
  obtain ⟨i, hi, hid, hslot, hready⟩ := h
  exact ⟨i, hissues hi, hid, hslot, hready.trans htime⟩

theorem DecodeCall.Sound.mono {config : ServingConfig} {issues issues' : List Issue} {c : DecodeCall}
    (h : c.Sound config issues) (hissues : issues ⊆ issues') : c.Sound config issues' := by
  refine ⟨h.placed, h.finish, fun r hr => (h.came r hr).mono hissues le_rfl, fun row hrow => ?_⟩
  obtain ⟨hready, hactive, i, hi, heq⟩ := h.admitted row hrow
  exact ⟨hready, hactive, i, hissues hi, heq⟩

namespace Node.Sound

variable {config : ServingConfig} {n : Node}

theorem wait (h : n.Sound config) {time : ℚ} (htime : n.now ≤ time) : ({ n with now := time } : Node).Sound config :=
  { h with
    came := fun r hr => (h.came r hr).mono (List.Subset.refl _) htime
    admissions := fun row hrow => ⟨(h.admissions row hrow).1.trans htime, (h.admissions row hrow).2⟩ }

theorem begin (h : n.Sound config) {time : ℚ} (hready : ∀ row ∈ n.pending, row.readyNs ≤ time)
    (hactive : n.active = []) (hadmissions : n.admissions = []) (hcalls : n.calls = []) : (n.begin time).Sound config := by
  have hslots : (n.pending.map PendingAdmission.request).map ServingRequest.slotId =
      n.pending.map fun row => row.request.slotId := by simp
  have hids : ids (n.pending.map PendingAdmission.request) = n.pendingIds := by simp [ids, pendingIds]
  have hnodup := h.nodup
  have hlt := h.lt
  rw [hactive] at hnodup hlt
  refine ⟨⟨?_, ?_, List.nodup_nil, by simp [Node.begin], Nat.zero_le _⟩, ?_, ?_, ?_, by simp [Node.begin],
    by simp [Node.begin], ?_, h.issues, ?_, ?_, ?_, by simp [Node.begin], ?_, ?_⟩
  · change ((n.pending.map PendingAdmission.request).map ServingRequest.slotId).Nodup
    rw [hslots]
    exact h.placed.pending_nodup
  · intro r hr
    obtain ⟨row, hrow, rfl⟩ := List.mem_map.1 hr
    exact h.placed.pending_lt row hrow
  · change (ids (n.pending.map PendingAdmission.request) ++ []).Nodup
    rw [hids, List.append_nil]
    exact hnodup
  · intro id hid
    change id ∈ ids (n.pending.map PendingAdmission.request) ++ [] at hid
    rw [hids, List.append_nil] at hid
    exact hlt id hid
  · intro r hr
    obtain ⟨row, hrow, rfl⟩ := List.mem_map.1 hr
    exact h.pending_valid row hrow
  · intro r hr
    obtain ⟨row, hrow, rfl⟩ := List.mem_map.1 hr
    obtain ⟨i, hi, rfl, hslot⟩ := h.issued row hrow
    exact ⟨i, hi, rfl, hslot, hready _ hrow⟩
  · intro c hc
    rw [show (n.begin time).calls = [] from hcalls] at hc
    cases hc
  · rw [show (n.begin time).calls = [] from hcalls]
    exact .nil
  · intro c hc
    rw [show (n.begin time).calls = [] from hcalls] at hc
    cases hc
  · rw [show (n.begin time).calls = [] from hcalls, show (n.begin time).admissions = [] from hadmissions]
    simp [DecodeNode.carried, Node.begin]
  · intro row hrow
    rw [show (n.begin time).admissions = [] from hadmissions] at hrow
    cases hrow

theorem issue (h : n.Sound config) {slot : ℕ} {row : PendingAdmission} (hslot : row.request.slotId = slot)
    (hlt : slot < config.batchSize) (hfree : slot ∉ n.pending.map fun row => row.request.slotId)
    (hroom : preparing n.active (n.pending ++ [row]) ≤ config.prefetchSlots)
    (hid : row.request.requestId = n.requestId) (hvalid : row.request.Valid) (hready : n.now < row.readyNs) :
    (n.issue slot row).Sound config := by
  subst hslot
  have hsub : n.issues ⊆ (n.issue row.request.slotId row).issues := List.subset_append_left _ _
  have hplaced := h.placed.issue hfree hlt hroom
  have hpending : (n.issue row.request.slotId row).pendingIds = n.pendingIds ++ [row.request.requestId] := by
    simp [pendingIds, Node.issue]
  refine ⟨hplaced, ?_, ?_, h.valid, ?_, ?_, fun r hr => (h.came r hr).mono hsub le_rfl, ?_,
    fun c hc => (h.calls c hc).mono hsub, h.chained, fun c hc id hid => Nat.lt_succ_of_lt (h.calls_lt c hc id hid), ?_,
    h.carried, ?_⟩
  · rw [hpending, ← List.append_assoc, List.nodup_append]
    refine ⟨h.nodup, List.nodup_singleton _, fun a ha b hb hab => ?_⟩
    rw [List.mem_singleton] at hb
    have hlt := h.lt a ha
    omega
  · intro id hmem
    rw [hpending, ← List.append_assoc] at hmem
    change id < n.requestId + 1
    rcases List.mem_append.1 hmem with hmem | hmem
    · exact Nat.lt_succ_of_lt (h.lt id hmem)
    · rw [List.mem_singleton.1 hmem, hid]
      exact Nat.lt_succ_self _
  · intro x hx
    rcases List.mem_append.1 hx with hx | hx
    · exact h.pending_valid x hx
    · rw [List.mem_singleton.1 hx]
      exact hvalid
  · intro x hx
    rcases List.mem_append.1 hx with hx | hx
    · obtain ⟨i, hi, heq⟩ := h.issued x hx
      exact ⟨i, hsub hi, heq⟩
    · rw [List.mem_singleton.1 hx]
      exact ⟨_, List.mem_append_right _ (List.mem_singleton_self _), rfl, rfl⟩
  · intro i hi
    rcases List.mem_append.1 hi with hi | hi
    · exact h.issues i hi
    · rw [List.mem_singleton.1 hi]
      exact ⟨rfl, hready, by simp, hplaced⟩
  · intro x hx c hc hmem
    rcases List.mem_append.1 hx with hx | hx
    · exact h.unseen x hx c hc hmem
    · rw [List.mem_singleton.1 hx, hid] at hmem
      exact absurd (h.calls_lt c hc _ hmem) (lt_irrefl _)
  · intro x hx
    obtain ⟨hready, ⟨i, hi, heq⟩, hnew⟩ := h.admissions x hx
    exact ⟨hready, ⟨i, hsub hi, heq⟩, hnew⟩

theorem admits (h : n.Sound config) {row : PendingAdmission} (hrow : row ∈ n.pending) (hready : row.readyNs ≤ n.now)
    (hslot : row.request.slotId ∉ n.active.map ServingRequest.slotId) : (n.admits row).Sound config := by
  have hperm : (ids (n.admits row).active ++ (n.admits row).pendingIds).Perm (ids n.active ++ n.pendingIds) := by
    have hpending := (List.perm_cons_erase hrow).map fun row => row.request.requestId
    rw [List.map_cons] at hpending
    simp only [Node.admits, ids, List.map_append, List.map_singleton, pendingIds, List.append_assoc]
    exact hpending.symm.append_left _
  have hsub : (n.admits row).pending ⊆ n.pending := List.erase_subset
  obtain ⟨i, hi, heq, hislot⟩ := h.issued row hrow
  refine ⟨h.placed.admits hrow hslot, hperm.nodup_iff.2 h.nodup, fun id hid => h.lt id (hperm.subset hid), ?_,
    fun x hx => h.pending_valid x (hsub hx), fun x hx => h.issued x (hsub hx), ?_, h.issues, h.calls, h.chained, h.calls_lt,
    fun x hx => h.unseen x (hsub hx), ?_, ?_⟩
  · intro r hr
    rcases List.mem_append.1 hr with hr | hr
    · exact h.valid r hr
    · rw [List.mem_singleton.1 hr]
      exact h.pending_valid row hrow
  · intro r hr
    rcases List.mem_append.1 hr with hr | hr
    · exact h.came r hr
    · rw [List.mem_singleton.1 hr]
      exact ⟨i, hi, by rw [heq], hislot, by rw [heq]; exact hready⟩
  · change n.active ++ [row.request] = _ ++ (n.admissions ++ [row]).map PendingAdmission.request
    rw [h.carried, List.map_append, ← List.append_assoc]
    rfl
  · intro x hx
    rcases List.mem_append.1 hx with hx | hx
    · exact h.admissions x hx
    · rw [List.mem_singleton.1 hx]
      exact ⟨hready, ⟨i, hi, heq, hislot⟩, h.unseen row hrow⟩

theorem decode (h : n.Sound config) {finish : ℚ} (hfinish : n.now < finish) : (n.decode finish).Sound config := by
  have hsub := ids_surviving n.active
  have hcall : (⟨n.active, n.pending, n.now, finish, n.admissions⟩ : DecodeCall).Sound config n.issues := by
    refine ⟨h.placed, hfinish, h.came, fun row hrow => ?_⟩
    obtain ⟨hready, hissue, -⟩ := h.admissions row hrow
    refine ⟨hready, ?_, hissue⟩
    change row.request ∈ n.active
    rw [h.carried]
    exact List.mem_append_right _ (List.mem_map_of_mem hrow)
  have hnodup := h.nodup.sublist (hsub.append (List.Sublist.refl n.pendingIds))
  refine ⟨h.placed.survive (slots_surviving n.active), hnodup,
    fun id hid => h.lt id ((hsub.append (List.Sublist.refl n.pendingIds)).subset hid), ?_, h.pending_valid, h.issued, ?_,
    h.issues, ?_, h.chained.call h.carried (h.nodup.sublist (List.sublist_append_left _ _))
      (fun r hr => (h.valid r hr).remaining) (fun row hrow => (h.admissions row hrow).2.2), ?_, ?_, ?_,
    by simp [Node.decode]⟩
  · intro r hr
    obtain ⟨q, hq, hremaining, rfl⟩ := mem_surviving.1 hr
    have hvalid := h.valid q hq
    refine ⟨hvalid.input, hvalid.output, ?_⟩
    have hpos := hvalid.remaining
    rw [remaining_advanced]
    omega
  · intro r hr
    obtain ⟨q, hq, -, rfl⟩ := mem_surviving.1 hr
    exact (h.came q hq).mono (List.Subset.refl _) hfinish.le
  · intro c hc
    rcases List.mem_append.1 hc with hc | hc
    · exact h.calls c hc
    · rw [List.mem_singleton.1 hc]
      exact hcall
  · intro c hc id hid
    rcases List.mem_append.1 hc with hc | hc
    · exact h.calls_lt c hc id hid
    · rw [List.mem_singleton.1 hc] at hid
      exact h.lt id (List.mem_append_left _ hid)
  · intro row hrow c hc hmem
    rcases List.mem_append.1 hc with hc | hc
    · exact h.unseen row hrow c hc hmem
    · rw [List.mem_singleton.1 hc] at hmem
      exact (List.nodup_append.1 h.nodup).2.2 _ hmem _ (List.mem_map_of_mem hrow) rfl
  · simp [Node.decode, DecodeNode.carried]

/-- Every move keeps the invariant. -/
theorem step (h : n.Sound config) {m : Move} {n' : Node} (hstep : Node.Step config n m n') : n'.Sound config := by
  cases hstep with
  | wait htime => exact h.wait htime
  | begin _ hready hactive hadmissions hcalls => exact h.begin hready hactive hadmissions hcalls
  | issue hslot hlt hfree hroom hid hvalid hready => exact h.issue hslot hlt hfree hroom hid hvalid hready
  | admits hrow hready hslot => exact h.admits hrow hready hslot
  | decode hfinish => exact h.decode hfinish

theorem run (h : n.Sound config) {moves : List Move} {n' : Node} (hrun : Run (Node.Step config) n moves n') :
    n'.Sound config := hrun.keeps (fun _ _ _ _ h hstep => h.step hstep) h

end Node.Sound

end HeteroSim.DecodeNode
