/-
What a call can do to a manager: evict some units, take in an allocation or
let one go, touch one, make or drop a view, a lease, the anchors of finished
tasks, or grow a commitment. Every call that returns is a few of these, one
after another, and each of them keeps the manager's invariant.
-/
import HeteroSim.Residency.Accesses

namespace HeteroSim

theorem Separated.nil : Separated [] := ⟨fun g hg => (by cases hg), .nil⟩

theorem Separated.singleton {g : Gap} (h : g.lo < g.hi) : Separated [g] :=
  ⟨fun _ hk => List.mem_singleton.1 hk ▸ h, List.pairwise_singleton _ _⟩

namespace Residency

variable {s s' t : Manager} {a b : Allocation}

/-! ## Registering -/

/-- What the checks of `register` admit: an allocation that is not known yet and holds nothing. -/
structure Registrable (s : Manager) (o : Allocation) (resident : Int) : Prop where
  unknown : s.allocations.get? o.allocationId = none
  unviewed : s.views.get? o.allocationId = none
  owned : o.physicalOwner = s.pool.componentId
  committed_le : o.committedBytes ≤ o.sizeBytes
  resident_nonneg : 0 ≤ resident
  resident_le : resident ≤ o.committedBytes
  granule_pos : 1 ≤ o.residencyGranuleBytes
  unpinned : o.evictable = true → o.pinned = false
  backed : o.evictable = true → o.backing ≠ none
  empty : o = { o with
    residentBytes := 0
    dirty := false
    residentRanges := []
    dirtyRanges := []
    residentRecencyRanges := [] }

/-- The units a registration asks for. -/
def Allocation.initial (o : Allocation) (resident : Int) : List Gap :=
  prefixBackingUnitRanges o.committedBytes o.residencyGranuleBytes resident

/-- The same allocation, counted. -/
def Manager.numbered (s : Manager) (o : Allocation) : Allocation :=
  { o with
    lastAccess := s.accessSequence + 1
    registrationOrder := s.registrationSequence + 1 }

/-- The operation a registration is as good as. -/
def initialOperation (dirty : Bool) : AccessOperation := if dirty then .write else .touch

def Manager.entrant (s : Manager) (o : Allocation) (dirty : Bool) (ranges : List Gap) : Allocation :=
  (s.numbered o).touched (initialOperation dirty) ranges ranges (s.accessSequence + 1)

/-- The manager `register` leaves, once there is room. -/
def Manager.entered (s : Manager) (o : Allocation) (dirty : Bool) (ranges : List Gap) : Manager :=
  { s with
    pool := if totalLength ranges ≠ 0 then s.pool.adjusted (totalLength ranges) else s.pool
    registrationSequence := s.registrationSequence + 1
    accessSequence := s.accessSequence + 1
    allocations := s.allocations.insert o.allocationId (s.entrant o dirty ranges)
    events := .registered o.allocationId ranges (s.entrant o dirty ranges).dirtyRanges (s.accessSequence + 1) :: s.events }

variable {o : Allocation} {resident : Int}

theorem Registrable.touch (h : Registrable s o resident) : Touch (s.numbered o) (o.initial resident) (o.initial resident) := by
  have hnone : (s.numbered o).residentRanges = [] := by
    rw [Manager.numbered, h.empty]
  have hsingle : o.initial resident = [] ∨ ∃ g : Gap, o.initial resident = [g] ∧ g.lo < g.hi ∧ (s.numbered o).Unit g.lo ∧
      (s.numbered o).Unit g.hi := by
    unfold Allocation.initial prefixBackingUnitRanges
    split
    · exact .inl rfl
    · next hpos =>
      have hceil := (ceilDiv_mul (not_le.1 hpos) h.granule_pos).1
      have hle := h.resident_le
      refine .inr ⟨_, rfl, ?_, ?_, ?_⟩
      · show 0 < min o.committedBytes (ceilDiv resident o.residencyGranuleBytes * o.residencyGranuleBytes)
        omega
      · show Boundary o.committedBytes o.residencyGranuleBytes 0
        exact ⟨⟨le_rfl, by omega⟩, .inr (Int.zero_emod _)⟩
      · show Boundary o.committedBytes o.residencyGranuleBytes (min _ _)
        obtain hmin | hmin := le_total o.committedBytes (ceilDiv resident o.residencyGranuleBytes * o.residencyGranuleBytes)
        · rw [min_eq_left hmin]
          exact ⟨⟨by omega, le_rfl⟩, .inl rfl⟩
        · rw [min_eq_right hmin]
          exact ⟨⟨by omega, hmin⟩, .inr (Int.mul_emod_left _ _)⟩
  have hnew (l : List Gap) (x : Int) : Holds l x ↔ Holds l x ∧ ¬Holds (s.numbered o).residentRanges x := by
    rw [hnone]
    exact (and_iff_left (holds_nil x).1).symm
  obtain hnil | ⟨g, hg, hlt, hunits⟩ := hsingle
  · have hends : Ends (s.numbered o).Unit [] := fun g hg => (by cases hg)
    rw [hnil]
    exact ⟨.inl rfl, hends, .nil, hends, hnew []⟩
  · have hends : Ends (s.numbered o).Unit [g] := fun k hk => List.mem_singleton.1 hk ▸ hunits
    rw [hg]
    exact ⟨.inr ⟨g, rfl, hlt⟩, hends, .singleton hlt, hends, hnew [g]⟩

theorem Registrable.numbered (h : Registrable s o resident) : (s.numbered o).Sound (s.accessSequence + 1) := by
  have hle := h.resident_le
  have hnonneg := h.resident_nonneg
  rw [Manager.numbered, h.empty]
  exact
    { committed_nonneg := hnonneg.trans hle
      committed_le := h.committed_le
      granule_pos := h.granule_pos
      resident := .nil
      residentEnds := fun g hg => (by cases hg)
      dirtied := .nil
      dirtyEnds := fun g hg => (by cases hg)
      dirty_resident := fun x hx => hx
      recency := normal_nil
      recencyEnds := fun g hg => (by cases hg)
      covered := fun x => Iff.rfl
      stamped := fun r hr => (by cases hr)
      accessed := ⟨Nat.succ_pos _, le_rfl⟩
      unpinned := h.unpinned
      backed := h.backed
      bytes := rfl
      flag := rfl }

/-- What comes in holds the units asked for, all with one stamp. -/
theorem Registrable.entrant (h : Registrable s o resident) (dirty : Bool) :
    (s.entrant o dirty (o.initial resident)).Sound (s.accessSequence + 1) ∧
      Touched (s.numbered o) (s.entrant o dirty (o.initial resident)) (initialOperation dirty) (o.initial resident)
        (o.initial resident) (s.accessSequence + 1) := by
  refine h.touch.touched h.numbered _ le_rfl fun r hr => ?_
  have hnone : (s.numbered o).residentRecencyRanges = [] := by rw [Manager.numbered, h.empty]
  rw [hnone] at hr
  cases hr

theorem Manager.Sound.fresh_lease (hs : s.Sound) {id : String} (h : s.allocations.get? id = none) {leaseId : String}
    {l : ResidencyLease} (hl : s.leases.get? leaseId = some l) : l.ownerId ≠ id := by
  obtain ⟨-, -, c, hc, -⟩ := hs.leases leaseId l hl
  rintro rfl
  rw [h] at hc
  cases hc

theorem Manager.Sound.fresh_view (hs : s.Sound) {id : String} (h : s.allocations.get? id = none) {viewId : String}
    {v : AllocationView} (hv : s.views.get? viewId = some v) : v.ownerId ≠ id := by
  obtain ⟨-, -, c, hc, -⟩ := hs.views viewId v hv
  rintro rfl
  rw [h] at hc
  cases hc

theorem PhysicalPool.adjusted_if (p : PhysicalPool) {n delta : Int} (h : n = 0 → delta = 0) :
    (if n ≠ 0 then p.adjusted delta else p).residentBytes = p.residentBytes + delta ∧
      (if n ≠ 0 then p.adjusted delta else p).componentId = p.componentId ∧
      (if n ≠ 0 then p.adjusted delta else p).capacityBytes = p.capacityBytes := by
  split
  · exact ⟨rfl, rfl, rfl⟩
  · exact ⟨by omega, rfl, rfl⟩

theorem Registrable.sound (h : Registrable s o resident) (hs : s.Sound) (dirty : Bool)
    (hroom : s.pool.residentBytes + totalLength (o.initial resident) ≤ s.pool.capacityBytes) :
    (s.entered o dirty (o.initial resident)).Sound := by
  obtain ⟨hb, htouched⟩ := h.entrant dirty
  obtain ⟨hbytes, hcomponent, hcapacity⟩ := s.pool.adjusted_if (n := totalLength (o.initial resident)) fun h => h
  have hget (id : String) : (s.entered o dirty (o.initial resident)).allocations.get? id =
      if id = o.allocationId then some (s.entrant o dirty (o.initial resident)) else s.allocations.get? id :=
    Dict.get?_insert _ _ _ _
  refine ⟨fun id a ha => ?_, fun id v hv => ?_, fun id l hl => ?_, ?_, ?_⟩
  · rw [hget] at ha
    split at ha
    · next hid =>
      obtain rfl := Option.some.inj ha
      exact ⟨hid.symm, h.owned.trans hcomponent.symm, hb⟩
    · obtain ⟨hid, howner, ha⟩ := hs.owners id a ha
      exact ⟨hid, howner.trans hcomponent.symm, ha.later (Nat.le_succ _)⟩
  · obtain ⟨hid, hoff, c, hc, hrest⟩ := hs.views id v hv
    exact ⟨hid, hoff, c, by rw [hget, if_neg (hs.fresh_view h.unknown hv), hc], hrest⟩
  · obtain ⟨hid, hsep, c, hc, hrest⟩ := hs.leases id l hl
    exact ⟨hid, hsep, c, by rw [hget, if_neg (hs.fresh_lease h.unknown hl), hc], hrest⟩
  · have hupdate := hs.pool.update o.allocationId (some (s.entrant o dirty (o.initial resident)))
    have hnew := htouched.bytes
    have hnone : (s.numbered o).residentBytes = 0 := by rw [Manager.numbered, h.empty]
    rw [hnone, Int.zero_add] at hnew
    rw [h.unknown, weight_none, weight_some, hnew, Int.sub_zero, ← hbytes] at hupdate
    show Tally _ (s.allocations.insert o.allocationId _).get? _
    rwa [Dict.get?_insert_eq]
  · show (if _ then _ else _ : PhysicalPool).residentBytes ≤ (if _ then _ else _ : PhysicalPool).capacityBytes
    rw [hbytes, hcapacity]
    exact hroom

/-! ## Releasing -/

/-- The manager without an allocation. -/
def Manager.without (s : Manager) (a : Allocation) : Manager :=
  { s with
    pool := if a.residentBytes ≠ 0 then s.pool.adjusted (-a.residentBytes) else s.pool
    allocations := s.allocations.erase a.allocationId
    releasedConsumerRanges := s.releasedConsumerRanges.erase a.allocationId
    events := .released a.allocationId a.residentBytes :: s.events }

/-- An allocation nothing is leased or viewed of. -/
structure Releasable (s : Manager) (a : Allocation) : Prop where
  present : s.allocations.get? a.allocationId = some a
  unleased : ∀ id l, s.leases.get? id = some l → l.ownerId ≠ a.allocationId
  unviewed : ∀ id v, s.views.get? id = some v → v.ownerId ≠ a.allocationId

theorem Releasable.sound (h : Releasable s a) (hs : s.Sound) : (s.without a).Sound := by
  have hget (id : String) : (s.without a).allocations.get? id = if id = a.allocationId then none else s.allocations.get? id :=
    Dict.get?_erase _ _ _
  have hpool : (s.without a).pool.residentBytes = s.pool.residentBytes + -a.residentBytes ∧
      (s.without a).pool.componentId = s.pool.componentId ∧ (s.without a).pool.capacityBytes = s.pool.capacityBytes :=
    s.pool.adjusted_if fun h => by omega
  have hpos := hs.bytes_nonneg _ a h.present
  have hcap := hs.capacity
  refine ⟨fun id c hc => ?_, fun id v hv => ?_, fun id l hl => ?_, ?_, by omega⟩
  · rw [hget] at hc
    split at hc
    · cases hc
    · obtain ⟨hid, howner, hc⟩ := hs.owners id c hc
      exact ⟨hid, howner.trans hpool.2.1.symm, hc⟩
  · obtain ⟨hid, hoff, c, hc, hrest⟩ := hs.views id v hv
    exact ⟨hid, hoff, c, by rw [hget, if_neg (h.unviewed id v hv), hc], hrest⟩
  · obtain ⟨hid, hsep, c, hc, hrest⟩ := hs.leases id l hl
    exact ⟨hid, hsep, c, by rw [hget, if_neg (h.unleased id l hl), hc], hrest⟩
  · have hupdate := hs.pool.update a.allocationId none
    rw [h.present, weight_none, weight_some, Int.add_zero, ← Int.add_neg_eq_sub, ← hpool.1] at hupdate
    show Tally _ (s.allocations.erase a.allocationId).get? _
    rwa [Dict.get?_erase_eq]

/-! ## Views and leases -/

def Manager.viewed (s : Manager) (v : AllocationView) : Manager := { s with views := s.views.insert v.viewId v }

def Manager.unviewed (s : Manager) (viewId : String) : Manager := { s with views := s.views.erase viewId }

def Manager.leased (s : Manager) (l : ResidencyLease) : Manager := { s with leases := s.leases.insert l.leaseId l }

/-- The anchors a released lease leaves, with those there were. -/
def Manager.anchoredBy (s : Manager) (l : ResidencyLease) : List Anchor :=
  l.residencyRanges.foldl (retainConsumerRange · · l.consumerTaskId) (s.anchorsOf l.ownerId)

def Manager.unleased (s : Manager) (l : ResidencyLease) : Manager :=
  { s with
    leases := s.leases.erase l.leaseId
    releasedConsumerRanges := s.releasedConsumerRanges.insert l.ownerId (s.anchoredBy l)
    events := .leaseReleased l.ownerId l.consumerTaskId l.residencyRanges :: s.events }

/-- The anchors without those of the tasks. -/
def Manager.retiring (s : Manager) (tasks : List String) : Manager :=
  s.releasedConsumerRanges.items.foldl (fun s p => s.setAnchors p.1 (p.2.filter fun a => a.taskId ∉ tasks)) s

def Manager.retired (s : Manager) (tasks : List String) : Manager :=
  { s.retiring tasks with events := .retired tasks :: (s.retiring tasks).events }

theorem Manager.foldl_setAnchors (f : String × List Anchor → List Anchor) : ∀ (items : List (String × List Anchor)) (s : Manager),
    items.foldl (fun s p => s.setAnchors p.1 (f p)) s =
      { s with releasedConsumerRanges := (items.foldl (fun s p => s.setAnchors p.1 (f p)) s).releasedConsumerRanges }
  | [], _ => rfl
  | p :: items, s => by
    rw [List.foldl_cons, Manager.foldl_setAnchors f items]
    rfl

/-- Retiring touches the anchors alone, and is logged. -/
theorem Manager.retired_eq (s : Manager) (tasks : List String) : ∃ anchors, s.retired tasks =
    { s with
      releasedConsumerRanges := anchors
      events := .retired tasks :: s.events } := by
  have hsame : s.retiring tasks = { s with releasedConsumerRanges := (s.retiring tasks).releasedConsumerRanges } :=
    Manager.foldl_setAnchors _ _ _
  refine ⟨(s.retiring tasks).releasedConsumerRanges, ?_⟩
  rw [Manager.retired, hsame]

theorem Manager.Sound.viewed (hs : s.Sound) {v : AllocationView} (ha : s.allocations.get? v.ownerId = some a) (hlo : 0 ≤ v.offsetBytes)
    (hhi : v.offsetBytes + v.sizeBytes ≤ a.sizeBytes) (hg : v.residencyGranuleBytes = a.residencyGranuleBytes) : (s.viewed v).Sound :=
  { hs with
    views := fun id w hw => by
      rw [Manager.viewed, Dict.get?_insert] at hw
      split at hw
      · next hid =>
        obtain rfl := Option.some.inj hw
        exact ⟨hid.symm, hlo, a, ha, hhi, hg⟩
      · exact hs.views id w hw }

theorem Manager.Sound.unviewed (hs : s.Sound) (viewId : String) : (s.unviewed viewId).Sound :=
  { hs with
    views := fun id w hw => by
      rw [Manager.unviewed, Dict.get?_erase] at hw
      split at hw
      · cases hw
      · exact hs.views id w hw }

theorem Manager.Sound.leased (hs : s.Sound) {l : ResidencyLease} (ha : s.allocations.get? l.ownerId = some a)
    (hsep : Separated l.residencyRanges) (hends : Ends a.Unit l.residencyRanges)
    (hsub : ∀ x, Holds l.residencyRanges x → Holds a.residentRanges x) : (s.leased l).Sound :=
  { hs with
    leases := fun id k hk => by
      rw [Manager.leased, Dict.get?_insert] at hk
      split at hk
      · next hid =>
        obtain rfl := Option.some.inj hk
        exact ⟨hid.symm, hsep, a, ha, hends, hsub⟩
      · exact hs.leases id k hk }

theorem Manager.Sound.unleased (hs : s.Sound) (l : ResidencyLease) : (s.unleased l).Sound :=
  { hs with
    leases := fun id k hk => by
      rw [Manager.unleased, Dict.get?_erase] at hk
      split at hk
      · cases hk
      · exact hs.leases id k hk }

theorem Manager.Sound.retired (hs : s.Sound) (tasks : List String) : (s.retired tasks).Sound := by
  obtain ⟨anchors, heq⟩ := s.retired_eq tasks
  rw [heq]
  exact { hs with }

/-! ## Committing -/

def Allocation.committing (a : Allocation) (committed : Int) : Allocation := { a with committedBytes := committed }

/-- A commitment that may grow so far: no unit that is resident would be cut. -/
structure Committable (s : Manager) (a : Allocation) (committed : Int) : Prop where
  present : s.allocations.get? a.allocationId = some a
  grows : a.committedBytes ≤ committed
  committed_le : committed ≤ a.sizeBytes
  resident : Ends (a.committing committed).Unit a.residentRanges
  dirtied : Ends (a.committing committed).Unit a.dirtyRanges
  recency : Ends (a.committing committed).Unit (a.residentRecencyRanges.map Stamp.range)

theorem ensureBackingUnitRanges_ends {label : String} {ranges : List Gap} {committed granule : Int} {u : Unit}
    (h : ensureBackingUnitRanges label ranges committed granule = .ok u) (hp : ∀ g ∈ ranges, g.lo < g.hi) :
    Ends (Boundary committed granule) ranges := by
  unfold ensureBackingUnitRanges at h
  obtain ⟨-, -, h⟩ := bind_ok.1 h
  obtain ⟨-, -, h⟩ := bind_ok.1 h
  intro g hg
  have hcut := refuse_ok.1 (forM_ok.1 h g hg)
  exact not_not.1 fun hbad => hcut ⟨hp g hg, hbad⟩

/-- A leased unit ends where a resident one does, or where units do anyway. -/
theorem Committable.leased {committed : Int} (h : Committable s a committed) (hs : s.Sound) {l : List Gap} (hsep : Separated l)
    (hends : Ends a.Unit l) (hsub : ∀ x, Holds l x → Holds a.residentRanges x) : Ends (a.committing committed).Unit l := by
  obtain ⟨-, -, hsound⟩ := hs.owners _ a h.present
  have hgrows := h.grows
  have hmod : ∀ {e : Int}, a.Unit e → e % a.residencyGranuleBytes = 0 → (a.committing committed).Unit e := fun hu hm =>
    ⟨⟨hu.1.1, hu.1.2.trans hgrows⟩, .inr hm⟩
  intro g hg
  have hproper := hsep.proper g hg
  obtain ⟨hlo, hhi⟩ := hends g hg
  refine ⟨hmod hlo ?_, ?_⟩
  · obtain ⟨-, heq | hm⟩ := hlo
    · have := hhi.1.2
      omega
    · exact hm
  · obtain ⟨-, heq | hm⟩ := id hhi
    · -- the last byte leased is in a resident range that can end no further
      obtain ⟨k, hk, -, hkhi⟩ := hsub (g.hi - 1) ⟨g, hg, by omega, by omega⟩
      have hle := (hsound.residentEnds k hk).2.1.2
      have hend : k.hi = g.hi := by omega
      exact hend ▸ (h.resident k hk).2
    · exact hmod hhi hm

theorem Committable.replaced {committed : Int} (h : Committable s a committed) (hs : s.Sound) :
    Replaced s (s.holding a.allocationId (a.committing committed)) a (a.committing committed) := by
  obtain ⟨-, -, hsound⟩ := hs.owners _ a h.present
  have hgrows := h.grows
  have hnonneg := hsound.committed_nonneg
  exact
    { present := h.present
      named := rfl
      owned := rfl
      sized := rfl
      granular := rfl
      object :=
        { hsound with
          committed_nonneg := hnonneg.trans hgrows
          committed_le := h.committed_le
          residentEnds := h.resident
          dirtyEnds := h.dirtied
          recencyEnds := h.recency }
      allocations := rfl
      views := rfl
      leases := rfl
      component := rfl
      limit := rfl
      pool := (Int.sub_add_cancel _ _).symm
      room := hs.capacity
      clock := le_rfl
      leased := fun id l hl ho => by
        obtain ⟨-, hsep, c, hc, hends, hsub⟩ := hs.leases id l hl
        rw [ho, h.present] at hc
        obtain rfl := Option.some.inj hc
        exact ⟨h.leased hs hsep hends hsub, hsub⟩ }

/-! ## What an access reads back -/

/-- The first byte of the unit a byte is in. -/
def Allocation.unitStart (a : Allocation) (x : Int) : Int := x / a.residencyGranuleBytes * a.residencyGranuleBytes

/-- The end of the unit a byte is in; the last one may be short. -/
def Allocation.unitStop (a : Allocation) (x : Int) : Int := min a.committedBytes (a.unitStart x + a.residencyGranuleBytes)

/-- All of the unit a byte is in is overwritten. -/
def Allocation.Overwritten (a : Allocation) (offset stop x : Int) : Prop := offset ≤ a.unitStart x ∧ a.unitStop x ≤ stop

theorem holds_mk (lo hi x : Int) : Holds [Gap.mk lo hi] x ↔ lo ≤ x ∧ x < hi := by
  rw [holds_cons]
  exact or_iff_left ((holds_nil x).1)

theorem Allocation.Sound.unit_bounds {clock : ℕ} (h : a.Sound clock) (x : Int) :
    a.unitStart x ≤ x ∧ x < a.unitStart x + a.residencyGranuleBytes := by
  have hg : 0 < a.residencyGranuleBytes := h.granule_pos
  have hdiv := Int.mul_ediv_add_emod x a.residencyGranuleBytes
  have hlo := Int.emod_nonneg x hg.ne'
  have hhi := Int.emod_lt_of_pos x hg
  rw [mul_comm] at hdiv
  unfold unitStart
  omega

/-- A unit starts by a byte exactly when it starts by that byte's unit. -/
theorem Allocation.Sound.unit_le_iff {clock : ℕ} (h : a.Sound clock) (x y : Int) :
    a.unitStart x ≤ y ↔ a.unitStart x ≤ a.unitStart y := by
  have hg : 0 < a.residencyGranuleBytes := h.granule_pos
  constructor
  · intro hle
    exact Int.mul_le_mul_of_nonneg_right ((Int.le_ediv_iff_mul_le hg).2 hle) hg.le
  · intro hle
    exact hle.trans (h.unit_bounds y).1

/-- A unit ends after a byte exactly when that byte's unit does not start after it. -/
theorem Allocation.Sound.lt_unit_iff {clock : ℕ} (h : a.Sound clock) (x y : Int) :
    y < a.unitStart x + a.residencyGranuleBytes ↔ a.unitStart y ≤ a.unitStart x := by
  have hg : 0 < a.residencyGranuleBytes := h.granule_pos
  have hnext : a.unitStart x + a.residencyGranuleBytes = (x / a.residencyGranuleBytes + 1) * a.residencyGranuleBytes := by
    rw [Int.add_mul, Int.one_mul]
    rfl
  rw [hnext, ← Int.ediv_lt_iff_lt_mul hg, Int.lt_add_one_iff]
  constructor
  · intro hle
    exact Int.mul_le_mul_of_nonneg_right hle hg.le
  · intro hle
    exact le_of_mul_le_mul_right hle hg

/-- The units asked for run from the first byte's to the last one's. -/
theorem Resolves.ranges_units {r : Resolved} (h : Resolves s r) (hs : s.Sound) (hpos : r.size ≠ 0) :
    r.residentStart = r.owner.unitStart r.offset ∧ r.residentEnd = r.owner.unitStop (r.offset + r.size - 1) := by
  obtain ⟨-, -, hsound⟩ := hs.owners _ _ h.present
  have hg : 0 < r.owner.residencyGranuleBytes := hsound.granule_pos
  have hoffset := h.offset
  have hsize := h.size
  refine ⟨h.first hpos, (h.last hpos).trans ?_⟩
  have hceil : r.offset + r.size + r.owner.residencyGranuleBytes - 1 =
      r.offset + r.size - 1 + 1 * r.owner.residencyGranuleBytes := by omega
  rw [ceilDiv, if_neg (by omega), hceil, Int.add_mul_ediv_right _ _ hg.ne', Int.add_mul, Int.one_mul]
  rfl

/-- A byte's unit is asked for when one of its bytes is. -/
theorem Resolves.mem_ranges {r : Resolved} (h : Resolves s r) (hs : s.Sound) (x : Int) : Holds r.ranges x ↔
    r.size ≠ 0 ∧ x < r.owner.committedBytes ∧ r.owner.unitStart r.offset ≤ r.owner.unitStart x ∧
      r.owner.unitStart x ≤ r.owner.unitStart (r.offset + r.size - 1) := by
  obtain ⟨-, -, hsound⟩ := hs.owners _ _ h.present
  rw [h.ranges_eq hs]
  by_cases hzero : r.size = 0
  · rw [if_pos hzero]
    simp only [hzero, ne_eq, not_true, false_and, holds_nil]
  · obtain ⟨hstart, hend⟩ := h.ranges_units hs hzero
    rw [if_neg hzero, hstart, hend, ← hsound.unit_le_iff, ← hsound.lt_unit_iff, holds_mk, Allocation.unitStop, lt_min_iff]
    simp only [ne_eq, hzero, not_false_eq_true, true_and]
    exact and_left_comm

/-- The units a write does not overwrite whole are its first and its last one. -/
theorem Resolves.not_overwritten {r : Resolved} (h : Resolves s r) (hs : s.Sound) {x : Int} (hx : Holds r.ranges x) :
    ¬r.owner.Overwritten r.offset (r.offset + r.size) x ↔
      r.residentStart < r.offset ∧ r.owner.unitStart x = r.owner.unitStart r.offset ∨
      r.offset + r.size < r.residentEnd ∧ r.owner.unitStart x = r.owner.unitStart (r.offset + r.size - 1) := by
  obtain ⟨-, -, hsound⟩ := hs.owners _ _ h.present
  obtain ⟨hzero, hx, hlo, hhi⟩ := (h.mem_ranges hs x).1 hx
  obtain ⟨hstart, hend⟩ := h.ranges_units hs hzero
  have hfirst := (hsound.unit_le_iff x r.offset).1
  have hlast := (hsound.lt_unit_iff x (r.offset + r.size - 1)).1
  have hbound := hsound.unit_bounds r.offset
  rw [Allocation.Overwritten, not_and_or, not_le, not_le, hstart, hend, Allocation.unitStop, Allocation.unitStop, lt_min_iff,
    lt_min_iff]
  constructor
  · rintro (hcut | ⟨hcut, hmore⟩)
    · have := hfirst hcut.le
      exact .inl (by omega)
    · have := hlast (by omega)
      exact .inr (by omega)
  · rintro (⟨hcut, heq⟩ | ⟨⟨hcut, hmore⟩, heq⟩)
    · exact .inl (by omega)
    · exact .inr (by omega)

/-- **A write reads back the missing units it does not overwrite whole, anything else all that is missing.** -/
theorem Resolves.mem_pagedIn {r : Resolved} (h : Resolves s r) (hs : s.Sound) (op : AccessOperation) (x : Int) :
    Holds (r.pagedIn op) x ↔ Holds r.missing x ∧ (op = .write → ¬r.owner.Overwritten r.offset (r.offset + r.size) x) := by
  have hreq : Holds r.missing x → Holds r.ranges x := fun hx => (((h.touch hs).new x).1 hx).1
  unfold Resolved.pagedIn
  split
  · next hop =>
    simp only [hop, true_implies]
    unfold writeRefaultRanges
    split
    · next hnone =>
      refine ⟨fun hx => absurd hx ((holds_nil x).1), fun hx => ?_⟩
      obtain hzero | hnil := hnone
      · exact absurd hzero ((h.mem_ranges hs x).1 (hreq hx.1)).1
      · exact hnil ▸ hx.1
    · rw [(intersectRanges_spec _ _).2, holds_append]
      refine and_congr_right fun hx => ?_
      rw [h.not_overwritten hs (hreq hx)]
      obtain ⟨-, -, hsound⟩ := hs.owners _ _ h.present
      obtain ⟨hzero, hcommitted, hlo, hhi⟩ := (h.mem_ranges hs x).1 (hreq hx)
      obtain ⟨hstart, -⟩ := h.ranges_units hs hzero
      have hunit (y : Int) : Holds [Gap.mk (r.owner.unitStart y)
          (min r.owner.committedBytes (r.owner.unitStart y + r.owner.residencyGranuleBytes))] x ↔
          r.owner.unitStart x = r.owner.unitStart y := by
        rw [holds_mk, lt_min_iff, hsound.unit_le_iff, hsound.lt_unit_iff, eq_comm, le_antisymm_iff]
        simp only [hcommitted, true_and]
      have hlast := hunit (r.offset + r.size - 1)
      have hfirst := hunit r.offset
      rw [← hstart] at hfirst
      refine or_congr ?_ ?_
      · split
        · next hcut => rw [hfirst, hstart]; simp only [hstart ▸ hcut, true_and]
        · next hcut => simp only [holds_nil, hcut, false_and]
      · split
        · next hcut =>
          refine hlast.trans ?_
          simp only [hcut, true_and]
        · next hcut => simp only [holds_nil, hcut, false_and]
  · next hop =>
    simp only [hop, false_implies, and_true]

/-! ## One change -/

/-- What an access does to an allocation there is room for. -/
structure Touching (s : Manager) (b : Allocation) (op : AccessOperation) (offset stop : Int) (required missing pagedIn : List Gap) :
    Prop where
  replaced : Replaced s (s.accessed b op offset stop required missing pagedIn) b
    (b.touched op required missing (s.accessSequence + 1))
  touched : Touched b (b.touched op required missing (s.accessSequence + 1)) op required missing (s.accessSequence + 1)
  writable : op = .write → b.readOnly = false

inductive Change (s : Manager) : Manager → Prop
  | evict {a : Allocation} {selected : List Gap} (h : Evictable s a selected) : Change s (s.evicted a selected)
  | access {b : Allocation} {op : AccessOperation} {offset stop : Int} {required missing pagedIn : List Gap}
      (h : Touching s b op offset stop required missing pagedIn) : Change s (s.accessed b op offset stop required missing pagedIn)
  | register {o : Allocation} {resident : Int} {dirty : Bool} (h : Registrable s o resident)
      (hroom : s.pool.residentBytes + totalLength (o.initial resident) ≤ s.pool.capacityBytes)
      (hwrite : dirty = true → o.readOnly = false) : Change s (s.entered o dirty (o.initial resident))
  | release {a : Allocation} (h : Releasable s a) : Change s (s.without a)
  | view {v : AllocationView} {a : Allocation} (ha : s.allocations.get? v.ownerId = some a) (hlo : 0 ≤ v.offsetBytes)
      (hhi : v.offsetBytes + v.sizeBytes ≤ a.sizeBytes) (hg : v.residencyGranuleBytes = a.residencyGranuleBytes) :
      Change s (s.viewed v)
  | unview (viewId : String) : Change s (s.unviewed viewId)
  | lease {l : ResidencyLease} {a : Allocation} (ha : s.allocations.get? l.ownerId = some a) (hsep : Separated l.residencyRanges)
      (hends : Ends a.Unit l.residencyRanges) (hsub : ∀ x, Holds l.residencyRanges x → Holds a.residentRanges x)
      (hnew : s.leases.get? l.leaseId = none) (htask : l.consumerTaskId ≠ "") : Change s (s.leased l)
  | unlease {l : ResidencyLease} (hl : s.leases.get? l.leaseId = some l) : Change s (s.unleased l)
  | retire {tasks : List String} (h : ∀ id l, s.leases.get? id = some l → l.consumerTaskId ∉ tasks) : Change s (s.retired tasks)
  | commit {a : Allocation} {committed : Int} (h : Committable s a committed) :
      Change s (s.holding a.allocationId (a.committing committed))
  | defer (depth : ℕ) : Change s { s with deferredValidationDepth := depth }

/-- **Every change keeps the invariant.** -/
theorem Change.sound (h : Change s t) (hs : s.Sound) : t.Sound := by
  cases h with
  | evict h => exact (h.replaced hs).sound hs
  | access h => exact h.replaced.sound hs
  | register h hroom _ => exact h.sound hs _ hroom
  | release h => exact h.sound hs
  | view ha hlo hhi hg => exact hs.viewed ha hlo hhi hg
  | unview viewId => exact hs.unviewed viewId
  | lease ha hsep hends hsub _ _ => exact hs.leased ha hsep hends hsub
  | unlease _ => exact hs.unleased _
  | retire _ => exact hs.retired _
  | commit h => exact (h.replaced hs).sound hs
  | defer depth => exact { hs with }

def Changes : Manager → Manager → Prop := Relation.ReflTransGen Change

theorem Changes.sound (h : Changes s t) (hs : s.Sound) : t.Sound := by
  induction h with
  | refl => exact hs
  | tail _ hchange ih => exact hchange.sound ih

theorem Evictions.changes (h : Evictions s t) : Changes s t := by
  refine Relation.ReflTransGen.mono (fun s t hstep => ?_) s t h
  obtain ⟨a, selected, hev, rfl⟩ := hstep
  exact .evict hev

end Residency

end HeteroSim
