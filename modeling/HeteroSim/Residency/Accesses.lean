/-
An access, from its arguments to the manager it leaves: it is refused and
nothing changes, or room is made, what was missing of the units asked for is
resident, what is written is dirty, and all of it has the access's stamp.
Registering an allocation is an access of one that has nothing yet.
-/
import HeteroSim.Residency.Room

namespace HeteroSim.Residency

variable {s s' t : Manager} {a b : Allocation} {r : Resolved}

/-! ## Touches -/

/-- The units an access is of, and those of them not yet resident. -/
structure Touch (a : Allocation) (required missing : List Gap) : Prop where
  single : required = [] ∨ ∃ g : Gap, required = [g] ∧ g.lo < g.hi
  ends : Ends a.Unit required
  separated : Separated missing
  missingEnds : Ends a.Unit missing
  new : ∀ x, Holds missing x ↔ Holds required x ∧ ¬Holds a.residentRanges x

theorem Touch.required {required missing : List Gap} (h : Touch a required missing) : Separated required := by
  obtain rfl | ⟨g, rfl, hg⟩ := h.single
  · exact ⟨fun g hg => (by cases hg), .nil⟩
  · exact ⟨fun k hk => List.mem_singleton.1 hk ▸ hg, List.pairwise_singleton _ _⟩

def Allocation.heldWith (a : Allocation) (missing : List Gap) : List Gap := normalizeRanges (a.residentRanges ++ missing)

def Allocation.dirtiedWith (a : Allocation) (op : AccessOperation) (required : List Gap) : List Gap :=
  if op = .write then normalizeRanges (a.dirtyRanges ++ required) else a.dirtyRanges

/-- An allocation after an access. -/
def Allocation.touched (a : Allocation) (op : AccessOperation) (required missing : List Gap) (sequence : ℕ) : Allocation :=
  { a with
    residentRanges := a.heldWith missing
    dirtyRanges := a.dirtiedWith op required
    residentBytes := totalLength (a.heldWith missing)
    dirty := decide (a.dirtiedWith op required ≠ [])
    lastAccess := sequence
    residentRecencyRanges := required.foldr (fun g l => spliceStamp g sequence false l) a.residentRecencyRanges }

/-- What an access changes of an allocation. -/
structure Touched (a b : Allocation) (op : AccessOperation) (required missing : List Gap) (sequence : ℕ) : Prop where
  resident : ∀ x, Holds b.residentRanges x ↔ Holds a.residentRanges x ∨ Holds required x
  dirtied : ∀ x, Holds b.dirtyRanges x ↔ Holds a.dirtyRanges x ∨ op = .write ∧ Holds required x
  stamped : ∀ x n, Stamped b.residentRecencyRanges x n ↔
    Holds required x ∧ sequence = n ∨ Stamped a.residentRecencyRanges x n ∧ ¬Holds required x
  bytes : b.residentBytes = a.residentBytes + totalLength missing

theorem Allocation.holds_heldWith {missing : List Gap} (x : Int) :
    Holds (a.heldWith missing) x ↔ Holds a.residentRanges x ∨ Holds missing x := by
  rw [heldWith, holds_normalizeRanges, holds_append]

theorem Allocation.holds_dirtiedWith {op : AccessOperation} {required : List Gap} (x : Int) :
    Holds (a.dirtiedWith op required) x ↔ Holds a.dirtyRanges x ∨ op = .write ∧ Holds required x := by
  unfold dirtiedWith
  split
  · next hop => rw [holds_normalizeRanges, holds_append]; simp only [hop, true_and]
  · next hop => simp only [hop, false_and, or_false]

section

variable {required missing : List Gap} {clock sequence : ℕ}

theorem Touch.union (h : Touch a required missing) (x : Int) :
    Holds a.residentRanges x ∨ Holds missing x ↔ Holds a.residentRanges x ∨ Holds required x := by
  rw [h.new]
  tauto

/-- The ranges an access stamps. -/
theorem Touch.stamps (h : Touch a required missing) (ha : a.Sound clock) (hseq : ∀ r ∈ a.residentRecencyRanges, r.seq < sequence) :
    let recency := required.foldr (fun g l => spliceStamp g sequence false l) a.residentRecencyRanges
    Normal recency ∧ Ends a.Unit (recency.map Stamp.range) ∧ ∀ x n, Stamped recency x n ↔
      Holds required x ∧ sequence = n ∨ Stamped a.residentRecencyRanges x n ∧ ¬Holds required x := by
  obtain rfl | ⟨g, rfl, hg⟩ := h.single
  · refine ⟨ha.recency, ha.recencyEnds, fun x n => ?_⟩
    have hnone : ¬Holds [] x := (holds_nil x).1
    simp only [List.foldr_nil, hnone, false_and, false_or, not_false_eq_true, and_true]
  · obtain ⟨hnormal, hstamps⟩ := ha.recency.splice hg fun r hr => (hseq r hr).ne
    refine ⟨hnormal, ha.recency.ends_splice hg sequence ha.recencyEnds (h.ends g List.mem_cons_self), fun x n => ?_⟩
    have hone : Holds [g] x ↔ g.lo ≤ x ∧ x < g.hi := by simp [Holds]
    rw [hone]
    exact hstamps x n

theorem Touch.touched (h : Touch a required missing) (ha : a.Sound clock) (op : AccessOperation) (hclock : clock ≤ sequence)
    (hseq : ∀ r ∈ a.residentRecencyRanges, r.seq < sequence) :
    (a.touched op required missing sequence).Sound sequence ∧
      Touched a (a.touched op required missing sequence) op required missing sequence := by
  obtain ⟨hnormal, hends, hstamps⟩ := h.stamps ha hseq
  have hpos : 0 < sequence := ha.accessed.1.trans_le (ha.accessed.2.trans hclock)
  have hresident := fun x => (a.holds_heldWith x).trans (h.union x)
  have hbytes : totalLength (a.heldWith missing) = a.residentBytes + totalLength missing := by
    rw [ha.bytes]
    exact totalLength_union ha.resident h.separated (normalizeRanges_separated _) (fun x hx hm => ((h.new x).1 hm).2 hx)
      a.holds_heldWith
  refine ⟨?_, ⟨hresident, a.holds_dirtiedWith, hstamps, hbytes⟩⟩
  exact
    { committed_nonneg := ha.committed_nonneg
      committed_le := ha.committed_le
      granule_pos := ha.granule_pos
      resident := normalizeRanges_separated _
      residentEnds := Ends.normalize fun g hg => (List.mem_append.1 hg).elim (ha.residentEnds g) (h.missingEnds g)
      dirtied := by
        show Separated (a.dirtiedWith op required)
        unfold Allocation.dirtiedWith
        split
        · exact normalizeRanges_separated _
        · exact ha.dirtied
      dirtyEnds := by
        show Ends a.Unit (a.dirtiedWith op required)
        unfold Allocation.dirtiedWith
        split
        · exact Ends.normalize fun g hg => (List.mem_append.1 hg).elim (ha.dirtyEnds g) (h.ends g)
        · exact ha.dirtyEnds
      dirty_resident := fun x hx => (hresident x).2
        (((a.holds_dirtiedWith x).1 hx).imp (ha.dirty_resident x) And.right)
      recency := hnormal
      recencyEnds := hends
      covered := fun x => by
        rw [holds_ranges]
        refine Iff.trans ?_ (hresident x).symm
        simp only [Allocation.touched, hstamps, ← ha.covered x, holds_ranges]
        constructor
        · rintro ⟨n, hreq | hold⟩
          · exact .inr hreq.1
          · exact .inl ⟨n, hold.1⟩
        · intro hx
          by_cases hreq : Holds required x
          · exact ⟨sequence, .inl ⟨hreq, rfl⟩⟩
          · obtain ⟨n, hn⟩ := hx.resolve_right hreq
            exact ⟨n, .inr ⟨hn, hreq⟩⟩
      stamped := fun r hr => by
        obtain ⟨-, hnew⟩ | ⟨⟨q, hq, -, hold⟩, -⟩ := (hstamps r.range.lo r.seq).1 ⟨r, hr, ⟨le_rfl, hnormal.proper r hr⟩, rfl⟩
        · exact ⟨hnew ▸ hpos, hnew.ge⟩
        · exact ⟨hold ▸ (ha.stamped q hq).1, hold ▸ (hseq q hq).le⟩
      accessed := ⟨hpos, le_rfl⟩
      unpinned := ha.unpinned
      backed := ha.backed
      bytes := rfl
      flag := rfl }

/-! ## The steps of an access -/

/-- With the missing units resident. -/
def Allocation.loaded (a : Allocation) (missing : List Gap) : Allocation :=
  { a with
    residentRanges := a.heldWith missing
    residentBytes := totalLength (a.heldWith missing) }

/-- With what is written dirty. -/
def Allocation.marked (a : Allocation) (op : AccessOperation) (required : List Gap) : Allocation :=
  { a with
    dirtyRanges := a.dirtiedWith op required
    dirty := decide (a.dirtiedWith op required ≠ []) }

theorem Allocation.Sound.loaded_sync (ha : a.Sound clock) (missing : List Gap) :
    Allocation.syncDerivedState { a with residentRanges := normalizeRanges (a.residentRanges ++ missing) } = a.loaded missing := by
  have hsync : Allocation.syncDerivedState { a with residentRanges := a.heldWith missing } =
      { a with
        residentRanges := a.heldWith missing
        residentBytes := totalLength (a.heldWith missing)
        dirty := decide (a.dirtyRanges ≠ []) } :=
    Allocation.sync_eq (normalizeRanges_separated _) ha.dirtied fun x hx => (a.holds_heldWith x).2 (.inl (ha.dirty_resident x hx))
  rw [← ha.flag] at hsync
  exact hsync

theorem Allocation.Sound.loaded_none (ha : a.Sound clock) : a.loaded [] = a := by
  unfold Allocation.loaded Allocation.heldWith
  rw [List.append_nil, ha.resident.normalize, ← ha.bytes]

theorem Touch.marked_sync (h : Touch a required missing) (ha : a.Sound clock) :
    Allocation.syncDerivedState { a.loaded missing with dirtyRanges := normalizeRanges (a.dirtyRanges ++ required) } =
      (a.loaded missing).marked .write required := by
  refine Allocation.sync_eq (normalizeRanges_separated _) (normalizeRanges_separated _) fun x hx => ?_
  rw [holds_normalizeRanges, holds_append] at hx
  exact (a.holds_heldWith x).2 ((h.union x).2 (hx.imp_left (ha.dirty_resident x)))

theorem Allocation.Sound.marked_none (ha : a.Sound clock) (missing : List Gap) {op : AccessOperation}
    (h : ¬(op = .write ∧ required ≠ [])) : (a.loaded missing).marked op required = a.loaded missing := by
  have hsame : (a.loaded missing).dirtiedWith op required = a.dirtyRanges := by
    unfold Allocation.dirtiedWith
    split
    · next hop =>
      obtain rfl : required = [] := by_contra fun hne => h ⟨hop, hne⟩
      rw [List.append_nil]
      exact ha.dirtied.normalize
    · rfl
  unfold Allocation.marked
  rw [hsame, ← ha.flag]
  rfl

/-- What is asked for is stamped. -/
theorem Touch.refresh (h : Touch a required missing) (ha : a.Sound clock) (op : AccessOperation)
    (hseq : ∀ r ∈ a.residentRecencyRanges, r.seq < sequence) :
    Allocation.refreshRecency { (a.loaded missing).marked op required with lastAccess := sequence } required sequence =
      .ok (a.touched op required missing sequence) := by
  have hheld : ∀ x, Holds required x → Holds (a.heldWith missing) x := fun x hx =>
    (a.holds_heldWith x).2 ((h.union x).2 (.inr hx))
  have hsub := intersectRanges_of_subset h.required hheld
  unfold Allocation.refreshRecency
  rw [h.required.normalize]
  obtain rfl | ⟨g, rfl, -⟩ := h.single
  · rfl
  · have hfresh : (a.residentRecencyRanges.any fun r => r.seq = sequence) = false := by
      rw [List.any_eq_false]
      intro r hr
      have := hseq r hr
      simp only [decide_eq_true_eq]
      omega
    rw [if_neg (List.cons_ne_nil _ _)]
    refine bind_ok.2 ⟨(), ensureBackingUnitRanges_ok ha.committed_nonneg ha.granule_pos h.ends, bind_ok.2 ⟨(), ?_, ?_⟩⟩
    · exact refuse_ok.2 (not_not.2 hsub)
    · show Option.elim (if (a.residentRecencyRanges.any fun r => r.seq = sequence) = true then _ else _) _ _ = _
      rw [hfresh]
      rfl

end

/-! ## The units asked for -/

/-- What `_resolve_access` gives. -/
structure Resolves (s : Manager) (r : Resolved) : Prop where
  present : s.allocations.get? r.owner.allocationId = some r.owner
  offset : 0 ≤ r.offset
  size : 0 ≤ r.size
  committed : r.offset + r.size ≤ r.owner.committedBytes
  nothing : r.size = 0 → r.residentStart = r.residentEnd
  first : r.size ≠ 0 → r.residentStart = r.offset / r.owner.residencyGranuleBytes * r.owner.residencyGranuleBytes
  last : r.size ≠ 0 → r.residentEnd = min r.owner.committedBytes
    (ceilDiv (r.offset + r.size) r.owner.residencyGranuleBytes * r.owner.residencyGranuleBytes)

theorem integer_ok {name : String} {value minimum n : Int} : integer name value minimum = .ok n ↔ minimum ≤ value ∧ n = value := by
  unfold integer
  split
  · next hlt => exact ⟨fun h => (by cases h), fun h => absurd h.1 (not_le.2 hlt)⟩
  · next hge =>
    rw [Except.ok.injEq]
    exact ⟨fun h => ⟨not_lt.1 hge, h.symm⟩, fun h => h.2.symm⟩

theorem Manager.Sound.resolves (hs : s.Sound) {targetId : String} {offset : Int} {size : Option Int}
    (h : s.resolveAccess targetId offset size = .ok r) : Resolves s r := by
  unfold resolveAccess at h
  obtain ⟨target, htarget, h⟩ := bind_ok.1 h
  have hpresent : s.allocations.get? target.1.allocationId = some target.1 ∧ 0 ≤ target.2.1 := by
    cases ha : s.allocations.get? targetId with
    | some a =>
      rw [ha] at htarget
      cases htarget
      exact ⟨by rw [(hs.owners targetId a ha).1, ha], le_rfl⟩
    | none =>
      rw [ha] at htarget
      cases hv : s.views.get? targetId with
      | none =>
        rw [hv] at htarget
        cases htarget
      | some v =>
        rw [hv] at htarget
        obtain ⟨-, hoff, c, hc, -⟩ := hs.views targetId v hv
        have hget : s.getAllocation v.ownerId = .ok c := by rw [Manager.getAllocation, hc]; rfl
        simp only [Option.elim_none, Option.elim_some, hget] at htarget
        cases htarget
        exact ⟨by rw [(hs.owners _ c hc).1, hc], hoff⟩
  obtain ⟨first, hinteger, h⟩ := bind_ok.1 h
  obtain ⟨hoffset, hfirst⟩ := integer_ok.1 hinteger
  obtain ⟨u, hstart, h⟩ := bind_ok.1 h
  obtain ⟨requested, hreq, h⟩ := bind_ok.1 h
  obtain ⟨v, hbound, h⟩ := bind_ok.1 h
  obtain ⟨w, hcommit, h⟩ := bind_ok.1 h
  rw [refuse_ok] at hstart hbound hcommit
  have hnonneg : 0 ≤ requested := by
    cases size with
    | none =>
      cases hreq
      omega
    | some n => exact (integer_ok.1 hreq).2 ▸ (integer_ok.1 hreq).1
  have hlo : 0 ≤ target.2.1 + first := by omega
  have hend : target.2.1 + first + requested ≤ target.1.committedBytes := not_lt.1 hcommit
  split at h
  · next hzero =>
    cases h
    exact ⟨hpresent.1, hlo, hnonneg, hend, fun _ => rfl, fun hne => absurd hzero hne, fun hne => absurd hzero hne⟩
  · next hpos =>
    cases h
    exact ⟨hpresent.1, hlo, hnonneg, hend, fun hzero => absurd hzero hpos, fun _ => rfl, fun _ => rfl⟩

/-- The units asked for, where there are any. -/
theorem Resolves.bounds (h : Resolves s r) (hs : s.Sound) (hpos : r.size ≠ 0) : r.residentStart ≤ r.offset ∧
    r.offset + r.size ≤ r.residentEnd ∧ r.owner.Unit r.residentStart ∧ r.owner.Unit r.residentEnd := by
  obtain ⟨-, -, hsound⟩ := hs.owners _ _ h.present
  have hoffset := h.offset
  have hsize := h.size
  have hcommitted := h.committed
  have hg : 0 < r.owner.residencyGranuleBytes := hsound.granule_pos
  have hfloor := Int.ediv_mul_le r.offset hg.ne'
  have hceil := (ceilDiv_mul (n := r.offset + r.size) (by omega) hsound.granule_pos).1
  have hnonneg := Int.mul_nonneg (Int.ediv_nonneg hoffset hg.le) hg.le
  rw [h.first hpos, h.last hpos]
  refine ⟨hfloor, le_min hcommitted hceil, ⟨⟨hnonneg, by omega⟩, .inr (Int.mul_emod_left _ _)⟩, ?_⟩
  obtain hle | hlt := le_or_gt r.owner.committedBytes
    (ceilDiv (r.offset + r.size) r.owner.residencyGranuleBytes * r.owner.residencyGranuleBytes)
  · rw [min_eq_left hle]
    exact ⟨⟨hsound.committed_nonneg, le_rfl⟩, .inl rfl⟩
  · rw [min_eq_right hlt.le]
    exact ⟨⟨by omega, hlt.le⟩, .inr (Int.mul_emod_left _ _)⟩

theorem Resolves.ranges_eq (h : Resolves s r) (hs : s.Sound) :
    r.ranges = if r.size = 0 then [] else [Gap.mk r.residentStart r.residentEnd] := by
  unfold Resolved.ranges
  by_cases hzero : r.size = 0
  · rw [if_pos hzero, if_pos (h.nothing hzero)]
  · have := h.bounds hs hzero
    have := h.size
    rw [if_neg hzero, if_neg (by omega)]

theorem Resolves.touch (h : Resolves s r) (hs : s.Sound) : Touch r.owner r.ranges r.missing := by
  obtain ⟨-, -, hsound⟩ := hs.owners _ _ h.present
  have hsingle : r.ranges = [] ∨ ∃ g : Gap, r.ranges = [g] ∧ g.lo < g.hi := by
    rw [h.ranges_eq hs]
    split
    · exact .inl rfl
    · next hpos =>
      have := h.bounds hs hpos
      have := h.size
      exact .inr ⟨_, rfl, show r.residentStart < r.residentEnd by omega⟩
  have hends : Ends r.owner.Unit r.ranges := by
    rw [h.ranges_eq hs]
    split
    · exact fun g hg => (by cases hg)
    · next hpos =>
      intro g hg
      rw [List.mem_singleton.1 hg]
      exact (h.bounds hs hpos).2.2
  have hsep : Separated r.ranges := by
    obtain hnil | ⟨g, hg, hlt⟩ := hsingle
    · rw [hnil]
      exact ⟨fun g hg => (by cases hg), .nil⟩
    · rw [hg]
      exact ⟨fun k hk => List.mem_singleton.1 hk ▸ hlt, List.pairwise_singleton _ _⟩
  obtain ⟨hmissing, hx⟩ := subtractRanges_spec hsep r.owner.residentRanges
  exact ⟨hsingle, hends, hmissing, hends.subtract hsound.residentEnds, hx⟩

/-- The units asked for are still to be made resident after others are evicted. -/
theorem Touch.left {required missing selected : List Gap} (h : Touch a required missing) (hl : Left a b selected)
    (hdisj : ∀ x, Holds required x → ¬Holds selected x) : Touch b required missing := by
  have hunit : b.Unit = a.Unit := by
    rw [hl.same]
    rfl
  refine ⟨h.single, hunit ▸ h.ends, h.separated, hunit ▸ h.missingEnds, fun x => ?_⟩
  rw [h.new, hl.resident]
  constructor
  · rintro ⟨hreq, hnot⟩
    exact ⟨hreq, fun hin => hnot hin.1⟩
  · rintro ⟨hreq, hnot⟩
    exact ⟨hreq, fun hin => hnot ⟨hin, hdisj x hreq⟩⟩

/-! ## The manager an access leaves -/

/-- With an allocation's missing units resident. -/
def Manager.loaded (s : Manager) (b : Allocation) (missing pagedIn : List Gap) : Manager :=
  { (s.holding b.allocationId (b.loaded missing)).recorded
      (s.counted b .pageIn (totalLength pagedIn) b.backing s.pool.componentId []) with
    pool := if totalLength missing ≠ 0 then s.pool.adjusted (totalLength missing) else s.pool }

def Manager.accessed (s : Manager) (b : Allocation) (op : AccessOperation) (offset stop : Int)
    (required missing pagedIn : List Gap) : Manager :=
  { (s.loaded b missing pagedIn).holding b.allocationId (b.touched op required missing (s.accessSequence + 1)) with
    accessSequence := s.accessSequence + 1
    events := .accessed b.allocationId op offset stop required missing pagedIn (s.accessSequence + 1) :: s.events }

/-- What has to be read back is missing. -/
theorem Resolved.pagedIn_missing (r : Resolved) (op : AccessOperation) (x : Int) (h : Holds (r.pagedIn op) x) : Holds r.missing x := by
  unfold pagedIn at h
  split at h
  · unfold writeRefaultRanges at h
    split at h
    · cases (holds_nil x).1 h
    · exact (((intersectRanges_spec _ _).2 x).1 h).1
  · exact h

theorem Resolved.pagedIn_separated (r : Resolved) (op : AccessOperation) (h : Separated r.missing) : Separated (r.pagedIn op) := by
  unfold pagedIn
  split
  · unfold writeRefaultRanges
    split
    · exact ⟨fun g hg => (by cases hg), .nil⟩
    · exact (intersectRanges_spec _ _).1
  · exact h

/-- A manager with room for what an access is missing. -/
structure Roomy (s t : Manager) (r : Resolved) (b : Allocation) (selected : List Gap) : Prop where
  made : makeRoom (totalLength r.missing) (some r.owner.allocationId) r.ranges s = .ok () t
  steps : Evictions s t
  present : t.allocations.get? b.allocationId = some b
  left : Left r.owner b selected
  clear : ∀ x, Holds r.ranges x → ¬Holds selected x
  fits : t.pool.residentBytes + totalLength r.missing ≤ t.pool.capacityBytes

variable {selected : List Gap}

theorem Roomy.same (h : Roomy s t r b selected) : b.allocationId = r.owner.allocationId ∧
    b.residencyGranuleBytes = r.owner.residencyGranuleBytes ∧ b.backing = r.owner.backing := by
  rw [h.left.same]
  exact ⟨rfl, rfl, rfl⟩

theorem Roomy.touch (h : Roomy s t r b selected) (hr : Resolves s r) (hs : s.Sound) : Touch b r.ranges r.missing :=
  (hr.touch hs).left h.left h.clear

theorem makeResident_ok (hs : s.Sound) (hr : Resolves s r) (op : AccessOperation) (h : Roomy s t r b selected) :
    makeResident r op s = .ok () (t.loaded b r.missing (r.pagedIn op)) := by
  have ht := h.steps.sound hs
  obtain ⟨hid, hgranule, hbacking⟩ := h.same
  obtain ⟨-, -, hsound⟩ := ht.owners _ b h.present
  have htouch := hr.touch hs
  rw [makeResident, get_then]
  by_cases hzero : totalLength r.missing = 0
  · have hnil : r.missing = [] := by_contra fun hne => (htouch.separated.length_pos hne).ne' hzero
    have hmade := h.made
    have hcap := hs.capacity
    rw [hzero, makeRoom_eq le_rfl rfl, max_eq_left (by omega)] at hmade
    obtain rfl : s = t := (EStateM.Result.ok.inj hmade).2
    have hpaged : totalLength (r.pagedIn op) = 0 := by
      have hmono := totalLength_mono (r.pagedIn_separated op htouch.separated) htouch.separated (r.pagedIn_missing op)
      have hpos := (r.pagedIn_separated op htouch.separated).length_nonneg
      omega
    have hcounted : s.counted b .pageIn (totalLength (r.pagedIn op)) b.backing s.pool.componentId [] = [] := by
      rw [hpaged]
      rfl
    rw [if_neg (not_not.2 hzero), Manager.loaded, hcounted, hzero, hnil, hsound.loaded_none, Manager.holding,
      Dict.insert_of_get? h.present, Manager.recorded, List.append_nil]
    rfl
  · rw [if_pos hzero]
    have hpos := htouch.separated.length_nonneg
    have hpaged := (r.pagedIn_separated op htouch.separated).length_nonneg
    have hpool := ht.bytes_nonneg _ b h.present
    have hle := ht.pool.le ht.bytes_nonneg h.present
    have hfits := h.fits
    refine (ok_bind h.made).trans ?_
    rw [updateAllocation, modify_then, ← hid, Manager.updateAllocation_eq h.present, hsound.loaded_sync]
    refine (ok_bind (adjustPool_ok ?_ ?_)).trans ?_
    · show 0 ≤ t.pool.residentBytes + totalLength r.missing
      omega
    · exact hfits
    · have hmigration (n : ℕ) : r.owner.migration n .pageIn (totalLength (r.pagedIn op)) r.owner.backing s.pool.componentId [] =
          b.migration n .pageIn (totalLength (r.pagedIn op)) b.backing t.pool.componentId [] := by
        rw [Allocation.migration, Allocation.migration, hid, hgranule, hbacking, h.steps.kept.component]
      rw [Manager.loaded, Manager.counted, if_pos hzero]
      by_cases hnone : totalLength (r.pagedIn op) = 0
      · rw [if_neg (not_not.2 hnone), if_neg (not_not.2 hnone), Manager.recorded, List.append_nil]
        rfl
      · rw [if_pos hnone, if_pos hnone, ← hmigration]
        exact ok_bind (recordMigration_ok (by omega))

theorem markDirty_ok {clock : ℕ} {required missing pagedIn : List Gap} (hb : b.Sound clock) (htouch : Touch b required missing)
    (hid : b.allocationId = r.owner.allocationId) (hreq : r.ranges = required) (op : AccessOperation) : markDirty r op (t.loaded b missing pagedIn) =
      .ok () ((t.loaded b missing pagedIn).holding b.allocationId ((b.loaded missing).marked op required)) := by
  have hpresent : (t.loaded b missing pagedIn).allocations.get? b.allocationId = some (b.loaded missing) :=
    Manager.holding_get? _ _
  rw [markDirty, hreq]
  split
  · next hmark =>
    rw [← hid, hmark.1, ← htouch.marked_sync hb]
    exact updateAllocation_ok hpresent
  · next hmark =>
    rw [hb.marked_none missing hmark, Manager.holding, Dict.insert_of_get? hpresent]
    rfl

theorem refreshRecency_ok {id : String} {ranges : List Gap} {sequence : ℕ} {c : Allocation} (hp : t.allocations.get? id = some a)
    (h : a.refreshRecency ranges sequence = .ok c) : refreshRecency id ranges sequence t = .ok () (t.holding id c) := by
  rw [refreshRecency, get_then, hp, Option.elim_some, h]
  refine (ok_bind (raise_ok rfl)).trans ?_
  show EStateM.Result.ok () (t.updateAllocation id fun _ => c) = _
  rw [Manager.updateAllocation_eq hp]

/-- What is asked for gets the next stamp. -/
theorem stamp_then {u : Manager} {id : String} {c d : Allocation} {ranges : List Gap} {β : Type} {f : ℕ → M β}
    (hc : u.allocations.get? id = some c)
    (hd : Allocation.refreshRecency { c with lastAccess := u.accessSequence + 1 } ranges (u.accessSequence + 1) = .ok d) :
    (do
      let sequence ← nextAccessSequence
      updateAllocation id fun o => { o with lastAccess := sequence }
      refreshRecency id ranges sequence
      f sequence) u = f (u.accessSequence + 1) { u.holding id d with accessSequence := u.accessSequence + 1 } := by
  refine (ok_bind (nextAccessSequence_ok u)).trans ?_
  refine (ok_bind (updateAllocation_ok (s := { u with accessSequence := u.accessSequence + 1 }) hc)).trans ?_
  refine (ok_bind (refreshRecency_ok (Manager.holding_get? _ _) hd)).trans ?_
  rw [Manager.holding_holding (s := { u with accessSequence := u.accessSequence + 1 }) _ _ hc]
  rfl

/-- An access that is not refused for what it asks. -/
structure Admitted (s : Manager) (x : MemoryAccess) (r : Resolved) : Prop where
  resolved : s.resolveAccess x.targetId x.offsetBytes x.sizeBytes = .ok r
  writable : ¬(x.operation = .write ∧ r.owner.readOnly = true)
  readable : ¬(totalLength (r.pagedIn x.operation) ≠ 0 ∧ r.owner.backing = none)

/-- The manager an admitted access leaves, once there is room. -/
def Roomy.result (_ : Roomy s t r b selected) (op : AccessOperation) : Manager :=
  t.accessed b op r.offset (r.offset + r.size) r.ranges r.missing (r.pagedIn op)

theorem Roomy.fresh (h : Roomy s t r b selected) (hs : s.Sound) :
    ∀ q ∈ b.residentRecencyRanges, q.seq < t.accessSequence + 1 := by
  intro q hq
  obtain ⟨-, -, hb⟩ := (h.steps.sound hs).owners _ b h.present
  have := hb.stamped q hq
  have := hb.accessed
  omega

theorem Roomy.replaced (h : Roomy s t r b selected) (hs : s.Sound) (hr : Resolves s r) (op : AccessOperation) :
    Replaced t (h.result op) b (b.touched op r.ranges r.missing (t.accessSequence + 1)) := by
  have ht := h.steps.sound hs
  obtain ⟨-, -, hb⟩ := ht.owners _ b h.present
  have htouch := h.touch hr hs
  obtain ⟨hsound, htouched⟩ := htouch.touched hb op (Nat.le_add_right _ 1) (h.fresh hs)
  have hcap := ht.capacity
  have hfits := h.fits
  have hbytes := htouched.bytes
  have hpool : (h.result op).pool.residentBytes = t.pool.residentBytes + totalLength r.missing := by
    show (if totalLength r.missing ≠ 0 then t.pool.adjusted (totalLength r.missing) else t.pool).residentBytes = _
    split
    · rfl
    · omega
  have hpart : (h.result op).pool.componentId = t.pool.componentId ∧ (h.result op).pool.capacityBytes = t.pool.capacityBytes := by
    show (if totalLength r.missing ≠ 0 then t.pool.adjusted (totalLength r.missing) else t.pool).componentId = _ ∧
      (if totalLength r.missing ≠ 0 then t.pool.adjusted (totalLength r.missing) else t.pool).capacityBytes = _
    split <;> exact ⟨rfl, rfl⟩
  refine
    { present := h.present
      named := rfl
      owned := rfl
      sized := rfl
      granular := rfl
      object := hsound
      allocations := Dict.insert_insert _ _ (Dict.mem_keys_of_get? h.present)
      views := rfl
      leases := rfl
      component := hpart.1
      limit := hpart.2
      pool := by omega
      room := by omega
      clock := Nat.le_add_right _ 1
      leased := ?_ }
  intro id l hl ho
  obtain ⟨-, -, c, hc, hends, hsub⟩ := ht.leases id l hl
  rw [ho, h.present] at hc
  obtain rfl := Option.some.inj hc
  exact ⟨hends, fun x hx => (htouched.resident x).2 (.inl (hsub x hx))⟩

/-- What the access returns. -/
def Roomy.answer (h : Roomy s t r b selected) (x : MemoryAccess) : AccessResult where
  sequence := t.accessSequence + 1
  targetId := x.targetId
  ownerId := r.owner.allocationId
  operation := x.operation
  offsetBytes := r.offset
  sizeBytes := r.size
  pageInBytes := (((h.result x.operation).migrations.drop s.migrations.length).map Migration.pageInBytes).sum
  migrations := (h.result x.operation).migrations.drop s.migrations.length
  physicalResidencyBytes := totalLength r.ranges
  residencyRanges := r.ranges

/-- **An admitted access goes through once there is room.** -/
theorem access_ok (hs : s.Sound) {x : MemoryAccess} (hx : Admitted s x r) (h : Roomy s t r b selected) :
    access x s = .ok (h.answer x) (h.result x.operation) := by
  have hr := hs.resolves hx.resolved
  have ht := h.steps.sound hs
  obtain ⟨hid, -, -⟩ := h.same
  obtain ⟨-, -, hb⟩ := ht.owners _ b h.present
  have htouch := h.touch hr hs
  have hpresent : (t.loaded b r.missing (r.pagedIn x.operation)).allocations.get? b.allocationId = some (b.loaded r.missing) :=
    Manager.holding_get? _ _
  obtain ⟨u, hu⟩ : ∃ u, (t.loaded b r.missing (r.pagedIn x.operation)).holding b.allocationId
      ((b.loaded r.missing).marked x.operation r.ranges) = u := ⟨_, rfl⟩
  have hget : u.allocations.get? b.allocationId = some ((b.loaded r.missing).marked x.operation r.ranges) :=
    hu ▸ Manager.holding_get? _ _
  have hclock : u.accessSequence = t.accessSequence := hu ▸ rfl
  have hrefresh := htouch.refresh hb x.operation (h.fresh hs)
  rw [← hclock] at hrefresh
  have hresult : { u.holding b.allocationId (b.touched x.operation r.ranges r.missing (u.accessSequence + 1)) with
      accessSequence := u.accessSequence + 1
      events := .accessed b.allocationId x.operation r.offset (r.offset + r.size) r.ranges r.missing (r.pagedIn x.operation)
        (u.accessSequence + 1) :: u.events } = h.result x.operation := by
    rw [hclock, ← hu, Manager.holding_holding _ _ hpresent]
    rfl
  rw [access]
  refine (ok_bind hs.validate).trans ?_
  rw [get_then]
  refine (ok_bind (raise_ok hx.resolved)).trans ((pass_bind hx.writable).trans ((pass_bind hx.readable).trans ?_))
  refine (ok_bind (makeResident_ok hs hr x.operation h)).trans ((ok_bind (markDirty_ok hb htouch hid rfl _)).trans ?_)
  rw [← hid, hu]
  refine (stamp_then hget hrefresh).trans ?_
  rw [note, modify_then]
  simp only [Manager.holding] at hresult
  simp only [Manager.holding, hresult]
  rw [get_then]
  refine (ok_bind ((h.replaced hs hr x.operation).sound ht).validate).trans ?_
  rw [Roomy.answer, hid, hclock]
  rfl

end HeteroSim.Residency
