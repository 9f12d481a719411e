/-
Slots: one request runs in a slot, one import waits for it, and at most
`prefetch_slots` imports wait for slots still taken. Kept by every admission
and every import the controller issues.
-/
import HeteroSim.DecodeNode.Serving

namespace HeteroSim.DecodeNode

variable {σ : Type}

/-- Imports that wait for a slot still taken. -/
def preparing (active : List ServingRequest) (pending : List PendingAdmission) : ℕ :=
  (pending.filter fun row => row.request.slotId ∈ active.map ServingRequest.slotId).length

/-- What holds of the requests running and the imports pending, at any time. -/
structure Placed (config : ServingConfig) (active : List ServingRequest) (pending : List PendingAdmission) : Prop where
  active_nodup : (active.map ServingRequest.slotId).Nodup
  active_lt : ∀ r ∈ active, r.slotId < config.batchSize
  pending_nodup : (pending.map fun row => row.request.slotId).Nodup
  pending_lt : ∀ row ∈ pending, row.request.slotId < config.batchSize
  prepared : preparing active pending ≤ config.prefetchSlots

theorem ne_of_mem_erase {α β : Type} [DecidableEq α] {f : α → β} {l : List α} {a b : α} (h : (l.map f).Nodup)
    (ha : a ∈ l) (hb : b ∈ l.erase a) : f b ≠ f a := by
  have hperm := (List.perm_cons_erase ha).map f
  rw [hperm.nodup_iff, List.map_cons, List.nodup_cons] at h
  intro heq
  exact h.1 (heq ▸ List.mem_map_of_mem hb)

namespace Placed

variable {config : ServingConfig} {active : List ServingRequest} {pending : List PendingAdmission}

theorem empty : Placed config [] [] :=
  ⟨List.nodup_nil, by simp, List.nodup_nil, by simp, Nat.zero_le _⟩

theorem admits (h : Placed config active pending) {row : PendingAdmission} (hrow : row ∈ pending)
    (hslot : row.request.slotId ∉ active.map ServingRequest.slotId) :
    Placed config (active ++ [row.request]) (pending.erase row) := by
  have hsub : (pending.erase row).Sublist pending := List.erase_sublist
  refine ⟨?_, ?_, h.pending_nodup.sublist (hsub.map _), fun x hx => h.pending_lt x (hsub.subset hx), ?_⟩
  · rw [List.map_append, List.nodup_append]
    refine ⟨h.active_nodup, List.nodup_singleton _, fun a ha b hb hab => ?_⟩
    rw [List.map_singleton, List.mem_singleton] at hb
    exact hslot (hb ▸ hab ▸ ha)
  · intro r hr
    rcases List.mem_append.1 hr with hr | hr
    · exact h.active_lt r hr
    · rw [List.mem_singleton.1 hr]
      exact h.pending_lt row hrow
  · have hfilter : (pending.erase row).filter
          (fun x => decide (x.request.slotId ∈ (active ++ [row.request]).map ServingRequest.slotId)) =
        (pending.erase row).filter fun x => decide (x.request.slotId ∈ active.map ServingRequest.slotId) := by
      refine List.filter_congr fun x hx => ?_
      have hne : x.request.slotId ≠ row.request.slotId :=
        ne_of_mem_erase (f := fun row => row.request.slotId) h.pending_nodup hrow hx
      simp [hne]
    unfold preparing
    rw [hfilter]
    exact ((hsub.filter _).length_le).trans h.prepared

theorem issue (h : Placed config active pending) {row : PendingAdmission}
    (hfree : row.request.slotId ∉ pending.map fun row => row.request.slotId) (hlt : row.request.slotId < config.batchSize)
    (hroom : preparing active (pending ++ [row]) ≤ config.prefetchSlots) : Placed config active (pending ++ [row]) := by
  refine ⟨h.active_nodup, h.active_lt, ?_, fun x hx => ?_, hroom⟩
  · rw [List.map_append, List.nodup_append]
    refine ⟨h.pending_nodup, List.nodup_singleton _, fun a ha b hb hab => ?_⟩
    rw [List.map_singleton, List.mem_singleton] at hb
    exact hfree (hb ▸ hab ▸ ha)
  · rcases List.mem_append.1 hx with hx | hx
    · exact h.pending_lt x hx
    · rw [List.mem_singleton.1 hx]
      exact hlt

/-- Requests leave. -/
theorem survive (h : Placed config active pending) {survivors : List ServingRequest}
    (hsub : (survivors.map ServingRequest.slotId).Sublist (active.map ServingRequest.slotId)) :
    Placed config survivors pending := by
  refine ⟨h.active_nodup.sublist hsub, fun r hr => ?_, h.pending_nodup, h.pending_lt, ?_⟩
  · obtain ⟨q, hq, hslot⟩ := List.mem_map.1 (hsub.subset (List.mem_map_of_mem hr))
    rw [← hslot]
    exact h.active_lt q hq
  · refine (List.Sublist.length_le ?_).trans h.prepared
    refine List.monotone_filter_right pending fun row hrow => ?_
    simp only [decide_eq_true_eq] at hrow ⊢
    exact hsub.subset hrow

theorem length_active (h : Placed config active pending) : active.length ≤ config.batchSize := by
  have hsub : active.map ServingRequest.slotId ⊆ List.range config.batchSize := by
    intro slot hslot
    obtain ⟨r, hr, rfl⟩ := List.mem_map.1 hslot
    exact List.mem_range.2 (h.active_lt r hr)
  simpa using (List.subperm_of_subset h.active_nodup hsub).length_le

theorem length_pending (h : Placed config active pending) : pending.length ≤ config.batchSize := by
  have hsub : pending.map (fun row => row.request.slotId) ⊆ List.range config.batchSize := by
    intro slot hslot
    obtain ⟨row, hrow, rfl⟩ := List.mem_map.1 hslot
    exact List.mem_range.2 (h.pending_lt row hrow)
  simpa using (List.subperm_of_subset h.pending_nodup hsub).length_le

/-- The controller's count of prepared slots is the number of imports that wait for one. -/
theorem preparing_eq (h : Placed config active pending) : preparing active pending =
    ((active.map ServingRequest.slotId).toFinset ∩ (pending.map fun row => row.request.slotId).toFinset).card := by
  have hset : (active.map ServingRequest.slotId).toFinset ∩ (pending.map fun row => row.request.slotId).toFinset =
      ((pending.filter fun row => row.request.slotId ∈ active.map ServingRequest.slotId).map
        fun row => row.request.slotId).toFinset := by
    ext slot
    simp only [Finset.mem_inter, List.mem_toFinset, List.mem_map, List.mem_filter, decide_eq_true_eq]
    constructor
    · rintro ⟨hactive, row, hrow, rfl⟩
      exact ⟨row, ⟨hrow, hactive⟩, rfl⟩
    · rintro ⟨row, ⟨hrow, hactive⟩, rfl⟩
      exact ⟨hactive, row, hrow, rfl⟩
  rw [hset, List.toFinset_card_of_nodup (h.pending_nodup.sublist (List.filter_sublist.map _)), List.length_map]
  rfl

end Placed

theorem preparing_append (active : List ServingRequest) (pending : List PendingAdmission) (row : PendingAdmission) :
    preparing active (pending ++ [row]) = preparing active pending +
      if row.request.slotId ∈ active.map ServingRequest.slotId then 1 else 0 := by
  unfold preparing
  rw [List.filter_append, List.length_append]
  split
  · next h => rw [List.filter_cons_of_pos (by simpa using h)]; rfl
  · next h => rw [List.filter_cons_of_neg (by simpa using h)]; rfl

/-! ## The callbacks' promise -/

structure Callbacks.Timely (callbacks : Callbacks σ) : Prop where
  same : ∀ c request time, (callbacks.importKv c request time).2.request = request
  ready : ∀ c request time, time < (callbacks.importKv c request time).2.readyNs
  later : ∀ c active pending time, time < (callbacks.executeDecode c active pending time).2.endNs

structure ServingRequest.Valid (r : ServingRequest) : Prop where
  input : 1 ≤ r.inputTokens
  output : 1 ≤ r.outputTokens
  remaining : 1 ≤ r.remainingDecodeTokens

theorem ServingRequest.Valid.new {r : ServingRequest} (h : r.Valid) : r.new = .ok r := by
  have hinput := h.input
  have houtput := h.output
  have hremaining := h.remaining
  simp [ServingRequest.new, refuse, bind, Except.bind, show ¬r.inputTokens < 1 by omega,
    show ¬r.outputTokens < 1 by omega, show ¬r.remainingDecodeTokens < 1 by omega]

/-- A request asked for at an age below its length is one. -/
theorem ServingConfig.request_valid (config : ServingConfig) {requestId age slotId : ℕ} (h : age < config.length) :
    (config.request requestId age slotId).Valid := by
  refine ⟨config.input_pos, config.output_pos, ?_⟩
  unfold ServingConfig.length at h
  change 1 ≤ config.outputTokens - config.prefillFirstOutputToken.toNat - age
  omega

theorem ServingConfig.length_pos (config : ServingConfig) : 0 < config.length := Nat.sub_pos_of_lt config.decodes

theorem ServingConfig.initialAge_lt (config : ServingConfig) {index : ℕ} (h : index < config.batchSize) :
    config.initialAge index < config.length := by
  unfold ServingConfig.initialAge
  split
  · rw [Nat.div_lt_iff_lt_mul config.batch_pos, Nat.mul_comm]
    exact Nat.mul_lt_mul_of_pos_left h config.length_pos
  · exact config.length_pos

theorem Controller.scheduleImport_ok {config : ServingConfig} {callbacks : Callbacks σ} (hcallbacks : callbacks.Timely)
    (s : Controller σ) {age : ℕ} (slotId : ℕ) (hage : age < config.length) :
    ∃ after imported, s.scheduleImport config callbacks age slotId = .ok (s.issue after imported slotId) ∧
      imported.request = config.request s.requestId age slotId ∧ s.now < imported.readyNs := by
  have hready := hcallbacks.ready s.callbacks (config.request s.requestId age slotId) s.now
  refine ⟨(callbacks.importKv s.callbacks (config.request s.requestId age slotId) s.now).1,
    (callbacks.importKv s.callbacks (config.request s.requestId age slotId) s.now).2, ?_, hcallbacks.same _ _ _, hready⟩
  simp [Controller.scheduleImport, (config.request_valid hage).new, hcallbacks.same, refuse, bind, Except.bind,
    not_le.2 hready]

end HeteroSim.DecodeNode
