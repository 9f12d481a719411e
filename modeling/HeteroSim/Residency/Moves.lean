/-
What the operations do to a manager, one thing at a time: some bytes of an
allocation are evicted, or accessed, an allocation comes or goes, a lease, a
view. Each is stated with all it changes, and keeps the manager's invariant.
-/
import HeteroSim.Residency.Sound

namespace HeteroSim

/-- The last of two assignments to a key is the one that stays. -/
theorem Dict.insert_insert {κ ν : Type} [DecidableEq κ] {d : Dict κ ν} {k : κ} (v w : ν) (h : k ∈ d.keys) :
    (d.insert k v).insert k w = d.insert k w := by
  refine Dict.ext ?_
  rw [Dict.items_insert_of_mem (Dict.mem_keys_insert.2 (.inl rfl)), Dict.items_insert_of_mem h, Dict.items_insert_of_mem h,
    List.map_map]
  refine List.map_congr_left fun p _ => ?_
  simp only [Function.comp]
  by_cases hp : p.1 = k
  · rw [if_pos hp, if_pos rfl, if_pos hp]
  · rw [if_neg hp, if_neg hp]

namespace Residency

variable {s s' : Manager} {a b : Allocation}

/-! ## One allocation for another -/

/-- An allocation's object is another, of the same name and size; the pool follows. -/
structure Replaced (s s' : Manager) (a b : Allocation) : Prop where
  present : s.allocations.get? a.allocationId = some a
  named : b.allocationId = a.allocationId
  owned : b.physicalOwner = a.physicalOwner
  sized : b.sizeBytes = a.sizeBytes
  granular : b.residencyGranuleBytes = a.residencyGranuleBytes
  object : b.Sound s'.accessSequence
  allocations : s'.allocations = s.allocations.insert a.allocationId b
  views : s'.views = s.views
  leases : s'.leases = s.leases
  component : s'.pool.componentId = s.pool.componentId
  limit : s'.pool.capacityBytes = s.pool.capacityBytes
  pool : s'.pool.residentBytes = s.pool.residentBytes - a.residentBytes + b.residentBytes
  room : s'.pool.residentBytes ≤ s.pool.capacityBytes
  clock : s.accessSequence ≤ s'.accessSequence
  leased : ∀ id l, s.leases.get? id = some l → l.ownerId = a.allocationId →
    Ends b.Unit l.residencyRanges ∧ ∀ x, Holds l.residencyRanges x → Holds b.residentRanges x

theorem Replaced.get? (h : Replaced s s' a b) (id : String) :
    s'.allocations.get? id = if id = a.allocationId then some b else s.allocations.get? id := by
  rw [h.allocations, Dict.get?_insert]

theorem Replaced.sound (h : Replaced s s' a b) (hs : s.Sound) : s'.Sound where
  owners := by
    intro id c hc
    rw [h.get?] at hc
    split at hc
    · next hid =>
      obtain rfl := Option.some.inj hc
      obtain ⟨-, howner, -⟩ := hs.owners _ a h.present
      exact ⟨h.named.trans hid.symm, h.owned.trans (howner.trans h.component.symm), h.object⟩
    · obtain ⟨hid, howner, hc⟩ := hs.owners id c hc
      exact ⟨hid, howner.trans h.component.symm, hc.later h.clock⟩
  views := by
    intro id v hv
    rw [h.views] at hv
    obtain ⟨hid, hoff, c, hc, hsize, hgranule⟩ := hs.views id v hv
    refine ⟨hid, hoff, ?_⟩
    by_cases hv : v.ownerId = a.allocationId
    · rw [hv, h.present] at hc
      obtain rfl := Option.some.inj hc
      exact ⟨b, by rw [h.get?, if_pos hv], h.sized ▸ hsize, h.granular ▸ hgranule⟩
    · exact ⟨c, by rw [h.get?, if_neg hv, hc], hsize, hgranule⟩
  leases := by
    intro id l hl
    rw [h.leases] at hl
    obtain ⟨hid, hsep, c, hc, hends, hsub⟩ := hs.leases id l hl
    refine ⟨hid, hsep, ?_⟩
    by_cases ho : l.ownerId = a.allocationId
    · exact ⟨b, by rw [h.get?, if_pos ho], h.leased id l hl ho⟩
    · exact ⟨c, by rw [h.get?, if_neg ho, hc], hends, hsub⟩
  pool := by
    have hupdate := hs.pool.update a.allocationId (some b)
    rw [h.present, weight_some, weight_some, ← h.pool] at hupdate
    rwa [h.allocations, Dict.get?_insert_eq]
  capacity := by
    rw [h.limit]
    exact h.room

/-! ## Evictions -/

/-- An allocation without some of its resident bytes. -/
def Allocation.without (a : Allocation) (selected : List Gap) : Allocation :=
  { a with
    residentRanges := subtractRanges a.residentRanges selected
    dirtyRanges := subtractRanges a.dirtyRanges selected
    residentRecencyRanges := (subtractStamps a.residentRecencyRanges selected).getD [] }.syncDerivedState

/-- What is left of an allocation. -/
structure Left (a b : Allocation) (selected : List Gap) : Prop where
  resident : ∀ x, Holds b.residentRanges x ↔ Holds a.residentRanges x ∧ ¬Holds selected x
  dirtied : ∀ x, Holds b.dirtyRanges x ↔ Holds a.dirtyRanges x ∧ ¬Holds selected x
  stamped : ∀ x n, Stamped b.residentRecencyRanges x n ↔ Stamped a.residentRecencyRanges x n ∧ ¬Holds selected x
  bytes : b.residentBytes = a.residentBytes - totalLength selected
  same : b = { a with
    residentRanges := b.residentRanges
    dirtyRanges := b.dirtyRanges
    residentRecencyRanges := b.residentRecencyRanges
    residentBytes := b.residentBytes
    dirty := b.dirty }

theorem Left.none (a : Allocation) : Left a a [] := by
  refine ⟨fun x => ?_, fun x => ?_, fun x n => ?_, (Int.sub_zero _).symm, rfl⟩
  · simp only [holds_nil, not_false_eq_true, and_true]
  · simp only [holds_nil, not_false_eq_true, and_true]
  · simp only [holds_nil, not_false_eq_true, and_true]

theorem Allocation.Sound.without {clock : ℕ} (h : a.Sound clock) {selected : List Gap} (hsel : Separated selected)
    (hends : Ends a.Unit selected) (hsub : ∀ x, Holds selected x → Holds a.residentRanges x) :
    (a.without selected).Sound clock ∧ Left a (a.without selected) selected := by
  obtain ⟨hr, hrx⟩ := subtractRanges_spec h.resident selected
  obtain ⟨hd, hdx⟩ := subtractRanges_spec h.dirtied selected
  obtain ⟨recency, hrec, hnormal, hstamps⟩ := h.recency.subtract selected
  have hranged : Allocation.Ranged { a with
      residentRanges := subtractRanges a.residentRanges selected
      dirtyRanges := subtractRanges a.dirtyRanges selected
      residentRecencyRanges := recency } clock :=
    { h.toRanged with
      resident := hr
      residentEnds := h.residentEnds.subtract hends
      dirtied := hd
      dirtyEnds := h.dirtyEnds.subtract hends
      dirty_resident := fun x hx => by
        rw [hdx] at hx
        rw [hrx]
        exact ⟨h.dirty_resident x hx.1, hx.2⟩
      recency := hnormal
      recencyEnds := h.recency.ends_subtract hrec h.recencyEnds hends
      covered := fun x => by
        rw [holds_ranges, hrx, ← h.covered, holds_ranges]
        simp only [hstamps]
        exact exists_and_right
      stamped := fun r hin => by
        have hmid := (hstamps r.range.lo r.seq).1 ⟨r, hin, ⟨le_rfl, hnormal.proper r hin⟩, rfl⟩
        obtain ⟨q, hq, -, hseq⟩ := hmid.1
        exact hseq ▸ h.stamped q hq }
  rw [Allocation.without, hrec, Option.getD_some, hranged.sync_eq]
  refine ⟨hranged.sync_eq ▸ hranged.sync, hrx, hdx, hstamps, ?_, rfl⟩
  rw [h.bytes]
  exact totalLength_subtract h.resident hsel hsub

/-! ## Records of an eviction -/

/-- The migration `_record_migration` makes. -/
def Allocation.migration (a : Allocation) (sequence : ℕ) (kind : MigrationKind) (byteCount : Int)
    (source destination : Option String) (consumerTaskIds : List String) : Migration where
  sequence := sequence
  allocationId := a.allocationId
  kind := kind
  byteCount := byteCount
  source := source
  destination := destination
  residencyGranuleBytes := a.residencyGranuleBytes
  granuleCount := ceilDiv byteCount a.residencyGranuleBytes
  consumerTaskIds := (consumerTaskIds.filter (· ≠ "")).eraseDups

/-- A manager with migrations recorded. -/
def Manager.recorded (s : Manager) (ms : List Migration) : Manager :=
  { s with
    migrationSequence := s.migrationSequence + ms.length
    migrations := s.migrations ++ ms
    migrationTotals := ms.foldl MigrationTotals.add s.migrationTotals }

theorem Manager.recorded_recorded (ms ns : List Migration) : (s.recorded ms).recorded ns = s.recorded (ms ++ ns) := by
  unfold recorded
  rw [List.append_assoc, List.foldl_append, List.length_append, Nat.add_assoc]

theorem recordMigration_ok {kind : MigrationKind} {byteCount : Int} {source destination : Option String} {tasks : List String}
    (h : 0 < byteCount) : recordMigration a kind byteCount source destination tasks s =
      .ok (a.migration (s.migrationSequence + 1) kind byteCount source destination tasks)
        (s.recorded [a.migration (s.migrationSequence + 1) kind byteCount source destination tasks]) :=
  pass_bind (not_le.2 h)

/-- The record of a count, where there is one. -/
def Manager.counted (s : Manager) (a : Allocation) (kind : MigrationKind) (byteCount : Int) (source destination : Option String)
    (tasks : List String) : List Migration :=
  if byteCount ≠ 0 then [a.migration (s.migrationSequence + 1) kind byteCount source destination tasks] else []

theorem recordIf_then {kind : MigrationKind} {byteCount : Int} {source destination : Option String} {tasks : List String} {β : Type}
    {f : List Migration → M β} (h : 0 ≤ byteCount) :
    (if byteCount ≠ 0 then ((fun m => [m]) <$> recordMigration a kind byteCount source destination tasks) >>= f
      else pure [] >>= f) s =
      f (s.counted a kind byteCount source destination tasks) (s.recorded (s.counted a kind byteCount source destination tasks)) := by
  unfold Manager.counted
  split
  · rw [bind_map_left]
    exact ok_bind (recordMigration_ok (by omega))
  · show f [] s = f [] (s.recorded [])
    unfold Manager.recorded
    rw [List.append_nil]
    rfl

def PhysicalPool.adjusted (p : PhysicalPool) (delta : Int) : PhysicalPool :=
  { p with
    residentBytes := p.residentBytes + delta
    peakResidentBytes := max p.peakResidentBytes (p.residentBytes + delta) }

theorem adjustPool_ok {delta : Int} (hlo : 0 ≤ s.pool.residentBytes + delta)
    (hhi : s.pool.residentBytes + delta ≤ s.pool.capacityBytes) :
    adjustPool delta s = .ok () { s with pool := s.pool.adjusted delta } :=
  (pass_bind (not_lt.2 hlo)).trans (pass_bind (not_lt.2 hhi))

/-- The anchors on an allocation. -/
def Manager.anchorsOf (s : Manager) (id : String) : List Anchor := (s.releasedConsumerRanges.get? id).getD []

/-- The records of an eviction: of what was dirty, then of what was not. -/
def Manager.evictionMigrations (s : Manager) (a : Allocation) (selected : List Gap) : List Migration :=
  let dirtyBytes := totalLength (intersectRanges selected a.dirtyRanges)
  let consumers := evictionConsumers (s.anchorsOf a.allocationId) selected
  let written := s.counted a .dirtyWriteback dirtyBytes s.pool.componentId a.backing consumers
  written ++ (s.recorded written).counted a .cleanDiscard (totalLength selected - dirtyBytes) s.pool.componentId a.backing consumers

/-- A manager with an allocation's object another. -/
def Manager.holding (s : Manager) (id : String) (b : Allocation) : Manager :=
  { s with allocations := s.allocations.insert id b }

/-- The state `_evict_owner_ranges` leaves. -/
def Manager.evicted (s : Manager) (a : Allocation) (selected : List Gap) : Manager :=
  let ms := s.evictionMigrations a selected
  { ((s.setAnchors a.allocationId (retainedAnchors (s.anchorsOf a.allocationId) selected)).holding a.allocationId
      (a.without selected)).recorded ms with
    pool := s.pool.adjusted (-totalLength selected)
    events := .evicted a.allocationId selected (intersectRanges selected a.dirtyRanges) ms :: s.events }

theorem Manager.updateAllocation_eq {id : String} {f : Allocation → Allocation} (h : s.allocations.get? id = some a) :
    s.updateAllocation id f = s.holding id (f a) := by
  rw [Manager.updateAllocation, h]
  rfl

theorem updateAllocation_ok {id : String} {f : Allocation → Allocation} (h : s.allocations.get? id = some a) :
    updateAllocation id f s = .ok () (s.holding id (f a)) := by
  rw [← Manager.updateAllocation_eq h]
  rfl

theorem nextAccessSequence_ok (s : Manager) :
    nextAccessSequence s = .ok (s.accessSequence + 1) { s with accessSequence := s.accessSequence + 1 } := rfl

theorem Manager.holding_get? (id : String) (b : Allocation) : (s.holding id b).allocations.get? id = some b :=
  Dict.get?_insert_self _ _ _

theorem Manager.holding_holding {id : String} (b c : Allocation) (h : s.allocations.get? id = some a) :
    (s.holding id b).holding id c = s.holding id c := by
  unfold holding
  simp only [Dict.insert_insert _ _ (Dict.mem_keys_of_get? h)]

/-- What may be evicted of an allocation. -/
structure Evictable (s : Manager) (a : Allocation) (selected : List Gap) : Prop where
  present : s.allocations.get? a.allocationId = some a
  evictable : a.evictable = true
  separated : Separated selected
  nonempty : selected ≠ []
  ends : Ends a.Unit selected
  held : ∀ x, Holds selected x → Holds a.residentRanges x
  unleased : ∀ id l, s.leases.get? id = some l → l.ownerId = a.allocationId → ∀ x, Holds l.residencyRanges x → ¬Holds selected x

variable {selected : List Gap}

theorem Evictable.evict (h : Evictable s a selected) (hs : s.Sound) {ranges : List Gap} (hranges : normalizeRanges ranges = selected) :
    evictOwnerRanges a.allocationId ranges s = .ok () (s.evicted a selected) := by
  obtain ⟨-, -, hsound⟩ := hs.owners _ a h.present
  have hunsafe : ¬(a.pinned = true ∨ ¬a.evictable = true ∨ a.backing = none) := by
    rw [not_or, not_or, not_not, hsound.unpinned h.evictable]
    exact ⟨Bool.false_ne_true, h.evictable, hsound.backed h.evictable⟩
  have hsub := intersectRanges_of_subset h.separated h.held
  obtain ⟨recency, hrec, -, -⟩ := hsound.recency.subtract selected
  rw [evictOwnerRanges, get_then, h.present]
  refine (pass_bind hunsafe).trans ?_
  simp only [hranges, ne_eq, h.nonempty, not_false_eq_true, if_true]
  refine (ok_bind (raise_ok (ensureBackingUnitRanges_ok hsound.committed_nonneg hsound.granule_pos h.ends))).trans ?_
  refine (pass_bind (not_not.2 hsub)).trans ?_
  rw [modify_then, updateAllocation, modify_then, hrec]
  refine (ok_bind (raise_ok rfl)).trans ?_
  have hwithout : Allocation.syncDerivedState { a with
      residentRanges := subtractRanges a.residentRanges selected
      dirtyRanges := subtractRanges a.dirtyRanges selected
      residentRecencyRanges := recency } = a.without selected := by
    rw [Allocation.without, hrec, Option.getD_some]
  have hlen := totalLength_mono h.separated hsound.resident h.held
  rw [← hsound.bytes] at hlen
  have hpos := h.separated.length_nonneg
  have hle := hs.pool.le hs.bytes_nonneg h.present
  have hcap := hs.capacity
  have hpresent (anchors : List Anchor) : (s.setAnchors a.allocationId anchors).allocations.get? a.allocationId = some a := h.present
  rw [updateAllocation, modify_then, Manager.updateAllocation_eq (hpresent _), Manager.updateAllocation_eq (Manager.holding_get? _ _),
    Manager.holding_holding _ _ (hpresent _), hwithout]
  refine (ok_bind (adjustPool_ok ?_ ?_)).trans ?_
  · show 0 ≤ s.pool.residentBytes + -totalLength selected
    omega
  · show s.pool.residentBytes + -totalLength selected ≤ s.pool.capacityBytes
    omega
  have hdirty := (intersectRanges_spec selected a.dirtyRanges).1.length_nonneg
  have hclean := totalLength_mono (intersectRanges_spec selected a.dirtyRanges).1 h.separated fun x hx =>
    (((intersectRanges_spec selected a.dirtyRanges).2 x).1 hx).1
  refine (recordIf_then (by omega)).trans ((recordIf_then (by omega)).trans ?_)
  rw [Manager.recorded_recorded]
  rfl

theorem Evictable.replaced (h : Evictable s a selected) (hs : s.Sound) :
    Replaced s (s.evicted a selected) a (a.without selected) := by
  obtain ⟨-, -, hsound⟩ := hs.owners _ a h.present
  obtain ⟨hb, hleft⟩ := hsound.without h.separated h.ends h.held
  have hpool : (s.evicted a selected).pool.residentBytes = s.pool.residentBytes - totalLength selected := Int.add_neg_eq_sub
  have hpos := h.separated.length_nonneg
  have hcap := hs.capacity
  have hbytes := hleft.bytes
  refine
    { present := h.present
      named := rfl
      owned := rfl
      sized := rfl
      granular := rfl
      object := hb
      allocations := rfl
      views := rfl
      leases := rfl
      component := rfl
      limit := rfl
      pool := by omega
      room := by omega
      clock := le_rfl
      leased := ?_ }
  intro id l hl ho
  obtain ⟨-, -, c, hc, hends, hsub⟩ := hs.leases id l hl
  rw [ho, h.present] at hc
  obtain rfl := Option.some.inj hc
  exact ⟨hends, fun x hx => (hleft.resident x).2 ⟨hsub x hx, h.unleased id l hl ho x hx⟩⟩

end Residency

end HeteroSim
