/-
What a manager's own check asks of it, as an invariant: every allocation's
resident, dirty and stamped ranges are whole backing units in order, what is
leased is resident, and the pool counts what its allocations hold. The check
passes on it and changes nothing.
-/
import HeteroSim.Residency.Operations
import HeteroSim.Raising

namespace HeteroSim.Residency

/-! ## Allocations -/

/-- The ends of whole backing units. -/
def Allocation.Unit (a : Allocation) : Int → Prop := Boundary a.committedBytes a.residencyGranuleBytes

/-- The ranges, without what is derived from them. -/
structure Allocation.Ranged (a : Allocation) (clock : ℕ) : Prop where
  committed_nonneg : 0 ≤ a.committedBytes
  committed_le : a.committedBytes ≤ a.sizeBytes
  granule_pos : 1 ≤ a.residencyGranuleBytes
  resident : Separated a.residentRanges
  residentEnds : Ends a.Unit a.residentRanges
  dirtied : Separated a.dirtyRanges
  dirtyEnds : Ends a.Unit a.dirtyRanges
  dirty_resident : ∀ x, Holds a.dirtyRanges x → Holds a.residentRanges x
  recency : Normal a.residentRecencyRanges
  recencyEnds : Ends a.Unit (a.residentRecencyRanges.map Stamp.range)
  covered : ∀ x, Holds (a.residentRecencyRanges.map Stamp.range) x ↔ Holds a.residentRanges x
  stamped : ∀ r ∈ a.residentRecencyRanges, 0 < r.seq ∧ r.seq ≤ a.lastAccess
  accessed : 0 < a.lastAccess ∧ a.lastAccess ≤ clock
  unpinned : a.evictable = true → a.pinned = false
  backed : a.evictable = true → a.backing ≠ none

structure Allocation.Sound (a : Allocation) (clock : ℕ) : Prop extends a.Ranged clock where
  bytes : a.residentBytes = totalLength a.residentRanges
  flag : a.dirty = decide (a.dirtyRanges ≠ [])

theorem Allocation.Sound.later {a : Allocation} {clock later : ℕ} (h : a.Sound clock) (hle : clock ≤ later) : a.Sound later :=
  { h with accessed := ⟨h.accessed.1, h.accessed.2.trans hle⟩ }

/-- Bringing an allocation up to date counts its ranges. -/
theorem Allocation.sync_eq {a : Allocation} (hr : Separated a.residentRanges) (hd : Separated a.dirtyRanges)
    (hsub : ∀ x, Holds a.dirtyRanges x → Holds a.residentRanges x) : a.syncDerivedState =
    { a with residentBytes := totalLength a.residentRanges, dirty := decide (a.dirtyRanges ≠ []) } := by
  unfold syncDerivedState
  simp only [hr.normalize, hd.normalize, intersectRanges_of_subset hd hsub]

theorem Allocation.Ranged.sync_eq {a : Allocation} {clock : ℕ} (h : a.Ranged clock) : a.syncDerivedState =
    { a with residentBytes := totalLength a.residentRanges, dirty := decide (a.dirtyRanges ≠ []) } :=
  Allocation.sync_eq h.resident h.dirtied h.dirty_resident

theorem Allocation.Ranged.sync {a : Allocation} {clock : ℕ} (h : a.Ranged clock) : a.syncDerivedState.Sound clock := by
  rw [h.sync_eq]
  exact { h with bytes := rfl, flag := rfl }

theorem Allocation.Sound.sync {a : Allocation} {clock : ℕ} (h : a.Sound clock) : a.syncDerivedState = a := by
  rw [h.toRanged.sync_eq, ← h.bytes, ← h.flag]

theorem ensureBackingUnitRanges_ok {label : String} {ranges : List Gap} {committed granule : Int} (hc : 0 ≤ committed)
    (hg : 1 ≤ granule) (h : Ends (Boundary committed granule) ranges) :
    ensureBackingUnitRanges label ranges committed granule = .ok () := by
  rw [ensureBackingUnitRanges, integer, if_neg (not_lt.2 hc), integer, if_neg (not_lt.2 hg)]
  exact forM_ok.2 fun g hin => refuse_ok.2 fun hcut => hcut.2 (h g hin)

/-- Ranges within the commitment hold no more. -/
theorem totalLength_le_committed {a : Allocation} {l : List Gap} (hc : 0 ≤ a.committedBytes) (h : Separated l) (he : Ends a.Unit l) :
    totalLength l ≤ a.committedBytes := by
  have hle : heldBytes l ⊆ Finset.Ico 0 a.committedBytes := by
    intro x hx
    obtain ⟨g, hg, hlo, hhi⟩ := mem_heldBytes.1 hx
    obtain ⟨⟨⟨h1, -⟩, -⟩, ⟨-, h2⟩, -⟩ := he g hg
    exact Finset.mem_Ico.2 ⟨h1.trans hlo, hhi.trans_le h2⟩
  have := Finset.card_le_card hle
  rw [Int.card_Ico] at this
  rw [h.length_eq]
  omega

theorem Allocation.Sound.check {s : Manager} {a : Allocation} (h : a.Sound s.accessSequence) : s.checkAllocation a = .ok () := by
  have hle := totalLength_le_committed h.committed_nonneg h.resident h.residentEnds
  have hdirty := totalLength_mono h.dirtied h.resident h.dirty_resident
  have hcover : normalizeRanges (a.residentRecencyRanges.map Stamp.range) = a.residentRanges :=
    (normalizeRanges_separated _).ext h.resident fun x => (holds_normalizeRanges _ x).trans (h.covered x)
  have hensure (label : String) {l : List Gap} (hl : Ends a.Unit l) :
      ensureBackingUnitRanges label l a.committedBytes a.residencyGranuleBytes = .ok () :=
    ensureBackingUnitRanges_ok h.committed_nonneg h.granule_pos hl
  rw [Manager.checkAllocation, h.recency.merge]
  simp only [bind_ok]
  refine ⟨(), refuse_ok.2 (not_lt.2 (h.bytes ▸ hle)), (), refuse_ok.2 (not_lt.2 (h.bytes ▸ hdirty)), a.residencyGranuleBytes,
    by rw [integer, if_neg (not_lt.2 h.granule_pos)], (), hensure _ h.residentEnds, (), hensure _ h.dirtyEnds, _, rfl, (),
    refuse_ok.2 (not_not.2 rfl), (), refuse_ok.2 (not_not.2 hcover), (), hensure _ h.recencyEnds, (), ?_, (), ?_, ?_⟩
  · refine forM_ok.2 fun r hr => bind_ok.2 ⟨(), refuse_ok.2 ?_, refuse_ok.2 ?_⟩
    · obtain ⟨⟨⟨h1, -⟩, -⟩, ⟨-, h2⟩, -⟩ := h.recencyEnds r.range (List.mem_map_of_mem hr)
      omega
    · have := h.stamped r hr
      omega
  · have := h.accessed
    exact refuse_ok.2 (by omega)
  · refine refuse_ok.2 fun hpin => ?_
    rw [h.unpinned hpin.2] at hpin
    cases hpin.1

/-! ## Managers -/

structure Manager.Sound (s : Manager) : Prop where
  owners : ∀ id a, s.allocations.get? id = some a → a.allocationId = id ∧ a.physicalOwner = s.pool.componentId ∧
    a.Sound s.accessSequence
  views : ∀ id v, s.views.get? id = some v → v.viewId = id ∧ 0 ≤ v.offsetBytes ∧ ∃ a, s.allocations.get? v.ownerId = some a ∧
    v.offsetBytes + v.sizeBytes ≤ a.sizeBytes ∧ v.residencyGranuleBytes = a.residencyGranuleBytes
  leases : ∀ id l, s.leases.get? id = some l → l.leaseId = id ∧ Separated l.residencyRanges ∧
    ∃ a, s.allocations.get? l.ownerId = some a ∧ Ends a.Unit l.residencyRanges ∧
      ∀ x, Holds l.residencyRanges x → Holds a.residentRanges x
  pool : Tally Allocation.residentBytes s.allocations.get? s.pool.residentBytes
  capacity : s.pool.residentBytes ≤ s.pool.capacityBytes

variable {s s' : Manager}

theorem Manager.Sound.new {pool : PhysicalPool} (h : Manager.new pool = .ok s) : s.Sound := by
  unfold Manager.new at h
  split at h
  · cases h
  · next hzero =>
    rw [not_not] at hzero
    cases h
    refine ⟨fun id a ha => (by cases ha), fun id v hv => (by cases hv), fun id l hl => (by cases hl), ?_, ?_⟩
    · show Tally _ (fun _ => none) pool.residentBytes
      rw [hzero]
      exact tally_none _
    · show pool.residentBytes ≤ _
      rw [hzero]
      exact pool.capacity_nonneg

theorem updateAllocation_same {id : String} {a : Allocation} {f : Allocation → Allocation} (h : s.allocations.get? id = some a)
    (hf : f a = a) : s.updateAllocation id f = s := by
  rw [Manager.updateAllocation, h, Option.map_some, Option.getD_some, hf, Dict.insert_of_get? h]

theorem Manager.Sound.assertAllocation (h : s.Sound) (id : String) : assertAllocation id s = .ok () s := by
  rw [Residency.assertAllocation, get_then]
  cases ha : s.allocations.get? id with
  | none => rfl
  | some a =>
    obtain ⟨hid, howner, hsound⟩ := h.owners id a ha
    simp only [Option.elim_some]
    refine (pass_bind (not_not.2 hid)).trans ((pass_bind (not_not.2 howner)).trans ?_)
    rw [Residency.updateAllocation, modify_then, updateAllocation_same ha hsound.sync, hsound.sync]
    exact raise_ok hsound.check

theorem Manager.Sound.assertAllocations (h : s.Sound) : ∀ ids : List String,
    (ids.forM Residency.assertAllocation : M Unit) s = .ok () s
  | [] => rfl
  | id :: ids => (ok_bind (h.assertAllocation id)).trans (h.assertAllocations ids)

theorem Manager.Sound.bytes_nonneg (h : s.Sound) (id : String) (a : Allocation) (ha : s.allocations.get? id = some a) :
    0 ≤ a.residentBytes := by
  obtain ⟨-, -, hsound⟩ := h.owners id a ha
  rw [hsound.bytes]
  exact hsound.resident.length_nonneg

/-- **The manager's own check passes, and changes nothing.** -/
theorem Manager.Sound.assertConsistent (h : s.Sound) : assertConsistent s = .ok () s := by
  rw [Residency.assertConsistent, get_then]
  refine (ok_bind (h.assertAllocations _)).trans ?_
  rw [get_then]
  have hviews : (s.views.items.forM fun p => s.checkView p.1 p.2) = .ok () := by
    refine forM_ok.2 fun p hp => ?_
    obtain ⟨hid, hoff, a, ha, hsize, hgranule⟩ := h.views p.1 p.2 (Dict.get?_eq_some.2 hp)
    rw [Manager.checkView, ha]
    refine bind_ok.2 ⟨(), refuse_ok.2 ?_, bind_ok.2 ⟨(), refuse_ok.2 (by omega), refuse_ok.2 (not_not.2 hgranule)⟩⟩
    rw [not_or, not_not, not_not]
    exact ⟨hid, Dict.mem_keys_of_get? ha⟩
  have hleases : (s.leases.items.forM fun p => s.checkLease p.1 p.2) = .ok () := by
    refine forM_ok.2 fun p hp => ?_
    obtain ⟨hid, hsep, a, ha, -, hsub⟩ := h.leases p.1 p.2 (Dict.get?_eq_some.2 hp)
    rw [Manager.checkLease, ha]
    refine bind_ok.2 ⟨(), refuse_ok.2 ?_, refuse_ok.2 (not_not.2 (intersectRanges_of_subset hsep hsub))⟩
    rw [not_or, not_not, not_not]
    exact ⟨hid, Dict.mem_keys_of_get? ha⟩
  have htotal := (tally_dict Allocation.residentBytes s.allocations).unique h.pool
  have hnonneg : 0 ≤ (s.allocations.values.map Allocation.residentBytes).sum := by
    refine List.sum_nonneg fun n hn => ?_
    obtain ⟨a, ha, rfl⟩ := List.mem_map.1 hn
    obtain ⟨p, hp, rfl⟩ := List.mem_map.1 ha
    exact h.bytes_nonneg p.1 p.2 (Dict.get?_eq_some.2 hp)
  have hcapacity := h.capacity
  refine (ok_bind (raise_ok hviews)).trans ((ok_bind (raise_ok hleases)).trans ?_)
  refine (pass_bind (not_not.2 htotal)).trans (raise_ok (refuse_ok.2 ?_))
  omega

theorem Manager.Sound.validate (h : s.Sound) : validateMutationBoundary s = .ok () s := by
  rw [validateMutationBoundary, get_then]
  split
  · exact h.assertConsistent
  · rfl

end HeteroSim.Residency
