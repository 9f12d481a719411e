/-
Every call of a manager either raises and leaves the manager as it was, or
returns and has made a few changes one after another. So the invariant holds
of every manager in use, and the manager's own check never fails.
-/
import HeteroSim.Residency.Changes

namespace HeteroSim

variable {ε σ α β : Type} {s : σ}

/-- The call raises and leaves the state as it was, or returns. -/
def Atomically (m : EStateM ε σ α) (s : σ) (Q : α → σ → Prop) : Prop :=
  (∃ e, m s = .error e s) ∨ ∃ a t, m s = .ok a t ∧ Q a t

namespace Atomically

variable {Q : β → σ → Prop}

theorem of_eq {m n : EStateM ε σ β} {t : σ} (heq : m s = n t) (hst : s = t) (h : Atomically n t Q) : Atomically m s Q := by
  subst hst
  rwa [Atomically, heq]

theorem get_then {f : σ → EStateM ε σ β} (h : Atomically (f s) s Q) : Atomically (get >>= f) s Q := of_eq (HeteroSim.get_then f) rfl h

/-- A check comes before anything changes. -/
theorem check {x : Except ε α} {f : α → EStateM ε σ β} (h : ∀ a, x = .ok a → Atomically (f a) s Q) :
    Atomically (raise x >>= f) s Q := by
  cases x with
  | error e => exact .inl ⟨e, error_bind (raise_error rfl)⟩
  | ok a => exact of_eq (ok_bind (raise_ok rfl)) rfl (h a rfl)

theorem guard {c : Prop} [Decidable c] {e : ε} {f : Unit → EStateM ε σ β} (h : ¬c → Atomically (f ()) s Q) :
    Atomically (raise (refuse c e) >>= f) s Q :=
  check fun _ hc => h (refuse_ok.1 hc)

/-- After the first change nothing raises. -/
theorem andThen {m : EStateM ε σ α} {f : α → EStateM ε σ β} {P : α → σ → Prop} (hm : Atomically m s P)
    (hf : ∀ a t, P a t → ∃ b u, f a t = .ok b u ∧ Q b u) : Atomically (m >>= f) s Q := by
  obtain ⟨e, he⟩ | ⟨a, t, ha, hp⟩ := hm
  · exact .inl ⟨e, error_bind he⟩
  · obtain ⟨b, u, hb, hq⟩ := hf a t hp
    exact .inr ⟨b, u, (ok_bind ha).trans hb, hq⟩

theorem returned {m : EStateM ε σ β} {b : β} {t : σ} (h : m s = .ok b t) (hq : Q b t) : Atomically m s Q := .inr ⟨b, t, h, hq⟩

theorem discarded {m : EStateM ε σ β} {P : σ → Prop} (hm : Atomically m s fun _ => P) : Atomically (discard m) s fun _ => P := by
  obtain ⟨e, he⟩ | ⟨b, t, hb, hp⟩ := hm
  · refine .inl ⟨e, ?_⟩
    show EStateM.map _ m s = _
    rw [EStateM.map, he]
  · refine .inr ⟨(), t, ?_, hp⟩
    show EStateM.map _ m s = _
    rw [EStateM.map, hb]

end Atomically

namespace Residency

variable {s s' t : Manager} {a b : Allocation} {r : Resolved}

/-- What a call does: changes, and no lease given up but the one it releases. -/
structure Moves (released : Option String) (s t : Manager) : Prop where
  changes : Changes s t
  leases : ∀ id l, s.leases.get? id = some l → some id ≠ released → t.leases.get? id = some l

theorem Moves.of_changes {released : Option String} (h : Changes s t) (hl : t.leases = s.leases) : Moves released s t :=
  ⟨h, fun _ _ hget _ => hl ▸ hget⟩

/-! ## Making room -/

/-- How much has to go for so much to come. -/
def Manager.need (s : Manager) (additional : Int) : Int := max 0 (s.pool.residentBytes + additional - s.pool.capacityBytes)

/-- A manager with room made. -/
structure Made (s t : Manager) (protect : Option String) (ranges : List Gap) (additional : Int) : Prop where
  run : makeRoom additional protect ranges s = .ok () t
  steps : Evictions s t
  freed : t.pool.residentBytes = s.pool.residentBytes - bytesOf (s.chosen protect ranges (s.need additional))
  enough : s.need additional ≤ bytesOf (s.chosen protect ranges (s.need additional))
  others : ∀ id, s.allocations.get? id = none → t.allocations.get? id = none
  left : ∀ a, s.allocations.get? a.allocationId = some a → ∃ b, t.allocations.get? a.allocationId = some b ∧
    Left a b (s.share protect ranges (s.need additional) a.allocationId)

variable {protect : Option String} {ranges : List Gap} {additional : Int}

theorem Manager.Sound.room (hs : s.Sound) (hp : Protects s protect ranges) (hadd : 0 ≤ additional) :
    (bytesOf (s.chosen protect ranges (s.need additional)) < s.need additional ∧
      ∃ message, makeRoom additional protect ranges s = .error (.capacityExceeded message) s) ∨
    ∃ t, Made s t protect ranges additional := by
  obtain hless | henough := lt_or_ge (bytesOf (s.chosen protect ranges (s.need additional))) (s.need additional)
  · exact .inl ⟨hless, makeRoom_error hs hp hadd rfl hless⟩
  · obtain ⟨t, hrun, hsteps, hfreed, hothers, hleft⟩ := makeRoom_ok hs hp hadd rfl henough
    exact .inr ⟨t, hrun, hsteps, hfreed, henough, hothers, hleft⟩

theorem Made.fits (h : Made s t protect ranges additional) : t.pool.residentBytes + additional ≤ t.pool.capacityBytes := by
  have hfreed := h.freed
  have henough := h.enough
  have hlimit := h.steps.kept.limit
  unfold Manager.need at *
  omega

/-! ## Accesses -/

theorem Resolves.protects (h : Resolves s r) (hs : s.Sound) : Protects s (some r.owner.allocationId) r.ranges := by
  intro id a hid ha
  cases hid
  rw [h.present] at ha
  exact Option.some.inj ha ▸ (h.touch hs).ends

theorem Resolves.missing_nonneg (h : Resolves s r) (hs : s.Sound) : 0 ≤ totalLength r.missing := (h.touch hs).separated.length_nonneg

/-- What is protected is not chosen. -/
theorem Manager.Sound.share_unprotected (hs : s.Sound) {id : String} (hp : Protects s (some id) ranges)
    {n x : Int} (hx : Holds ranges x) : ¬Holds (s.share (some id) ranges n id) x := by
  intro hin
  obtain ⟨p, hmem, hid, h1, h2⟩ := holds_share.1 hin
  obtain ⟨c, hc, -, -, -, -, -, hbytes⟩ := hs.chosen_spec hp hmem
  exact (hbytes x h1 h2).2.unprotected ⟨congrArg some (hid.symm.trans hc.symm), hx⟩

theorem Made.roomy (h : Made s t (some r.owner.allocationId) r.ranges (totalLength r.missing)) (hs : s.Sound) (hr : Resolves s r) :
    ∃ b, Roomy s t r b (s.share (some r.owner.allocationId) r.ranges (s.need (totalLength r.missing)) r.owner.allocationId) := by
  obtain ⟨b, hb, hleft⟩ := h.left r.owner hr.present
  have hid : b.allocationId = r.owner.allocationId := by rw [hleft.same]
  exact ⟨b, h.run, h.steps, hid ▸ hb, hleft, fun x hx => hs.share_unprotected (hr.protects hs) hx, h.fits⟩

variable {selected : List Gap}

theorem Roomy.touching (h : Roomy s t r b selected) (hs : s.Sound) {x : MemoryAccess} (hx : Admitted s x r) :
    Touching t b x.operation r.offset (r.offset + r.size) r.ranges r.missing (r.pagedIn x.operation) := by
  have hr := hs.resolves hx.resolved
  obtain ⟨-, -, hb⟩ := (h.steps.sound hs).owners _ b h.present
  have hreadOnly : b.readOnly = r.owner.readOnly := by rw [h.left.same]
  refine ⟨h.replaced hs hr x.operation, ((h.touch hr hs).touched hb x.operation (Nat.le_add_right _ 1) (h.fresh hs)).2, fun hop => ?_⟩
  rw [hreadOnly, ← Bool.not_eq_true]
  exact fun hro => hx.writable ⟨hop, hro⟩

theorem access_resolved (hs : s.Sound) (x : MemoryAccess) : access x s = (do
      let r ← raise (s.resolveAccess x.targetId x.offsetBytes x.sizeBytes)
      let ownerId := r.owner.allocationId
      raise (refuse (x.operation = .write ∧ r.owner.readOnly) (.validation s!"cannot write read-only allocation {ownerId}"))
      raise (refuse (totalLength (r.pagedIn x.operation) ≠ 0 ∧ r.owner.backing = none)
        (.validation s!"cannot refault unbacked allocation {ownerId}"))
      makeResident r x.operation
      markDirty r x.operation
      let sequence ← nextAccessSequence
      updateAllocation ownerId fun o => { o with lastAccess := sequence }
      refreshRecency ownerId r.ranges sequence
      note (.accessed ownerId x.operation r.offset (r.offset + r.size) r.ranges r.missing (r.pagedIn x.operation) sequence)
      let migrations := (← get).migrations.drop s.migrations.length
      validateMutationBoundary
      return { sequence := sequence
               targetId := x.targetId
               ownerId := ownerId
               operation := x.operation
               offsetBytes := r.offset
               sizeBytes := r.size
               pageInBytes := (migrations.map Migration.pageInBytes).sum
               migrations := migrations
               physicalResidencyBytes := totalLength r.ranges
               residencyRanges := r.ranges } : M AccessResult) s := by
  rw [access]
  exact (ok_bind hs.validate).trans (get_then _)

/-- An access that asks for what it may not changes nothing. -/
theorem access_refused (hs : s.Sound) {x : MemoryAccess} (h : ∀ r, ¬Admitted s x r) : ∃ e, access x s = .error e s := by
  rw [access_resolved hs]
  cases hres : s.resolveAccess x.targetId x.offsetBytes x.sizeBytes with
  | error e => exact ⟨e, rfl⟩
  | ok r =>
    by_cases hw : x.operation = .write ∧ r.owner.readOnly = true
    · exact ⟨_, (ok_bind (raise_ok rfl)).trans (error_bind (raise_error (if_pos hw)))⟩
    · by_cases hb : totalLength (r.pagedIn x.operation) ≠ 0 ∧ r.owner.backing = none
      · exact ⟨_, (ok_bind (raise_ok rfl)).trans ((pass_bind hw).trans (error_bind (raise_error (if_pos hb))))⟩
      · exact absurd ⟨hres, hw, hb⟩ (h r)

/-- Nor does one there is no room for. -/
theorem access_crowded (hs : s.Sound) {x : MemoryAccess} (hx : Admitted s x r)
    (hless : bytesOf (s.chosen (some r.owner.allocationId) r.ranges (s.need (totalLength r.missing))) < s.need (totalLength r.missing))
    {e : Raised} (h : makeRoom (totalLength r.missing) (some r.owner.allocationId) r.ranges s = .error e s) :
    access x s = .error e s := by
  have hr := hs.resolves hx.resolved
  have hpos : totalLength r.missing ≠ 0 := by
    intro hzero
    have hcap := hs.capacity
    have hnonneg : 0 ≤ bytesOf (s.chosen (some r.owner.allocationId) r.ranges (s.need (totalLength r.missing))) :=
      bytesOf_nonneg fun p hmem => (picks_picked (hs.sorted_whole (hr.protects hs)) p hmem).2.proper
    rw [Manager.need, hzero] at hless hnonneg
    omega
  rw [access_resolved hs]
  refine (ok_bind (raise_ok hx.resolved)).trans ((pass_bind hx.writable).trans ((pass_bind hx.readable).trans (error_bind ?_)))
  rw [makeResident, get_then, if_pos hpos]
  exact error_bind h

/-- **An admitted access goes through, or there is too little room for it.** -/
theorem access_cases (hs : s.Sound) {x : MemoryAccess} (hx : Admitted s x r) :
    (bytesOf (s.chosen (some r.owner.allocationId) r.ranges (s.need (totalLength r.missing))) < s.need (totalLength r.missing) ∧
        ∃ message, access x s = .error (.capacityExceeded message) s) ∨
      ∃ t b, ∃ h : Roomy s t r b
          (s.share (some r.owner.allocationId) r.ranges (s.need (totalLength r.missing)) r.owner.allocationId),
        Made s t (some r.owner.allocationId) r.ranges (totalLength r.missing) ∧ access x s = .ok (h.answer x) (h.result x.operation) := by
  have hr := hs.resolves hx.resolved
  obtain ⟨hless, message, herror⟩ | ⟨t, hmade⟩ := hs.room (hr.protects hs) (hr.missing_nonneg hs)
  · exact .inl ⟨hless, message, access_crowded hs hx hless herror⟩
  · obtain ⟨b, h⟩ := hmade.roomy hs hr
    exact .inr ⟨t, b, h, hmade, access_ok hs hx h⟩

theorem access_atomic (hs : s.Sound) (x : MemoryAccess) : Atomically (access x) s fun _ => Moves none s := by
  by_cases h : ∃ r, Admitted s x r
  · obtain ⟨r, hx⟩ := h
    obtain ⟨-, message, hno⟩ | ⟨t, b, h, -, hrun⟩ := access_cases hs hx
    · exact .inl ⟨_, hno⟩
    · exact .inr ⟨_, _, hrun, .of_changes (h.steps.changes.tail (.access (h.touching hs hx))) h.steps.kept.leases⟩
  · exact .inl (access_refused hs (not_exists.1 h))

/-! ## Registering -/

variable {q : Registration} {o : Allocation} {n : Int}

theorem Manager.registrable (h : s.checkRegistration q = .ok (o, n)) :
    Registrable s o n ∧ (q.dirty = true → o.readOnly = false) := by
  simp only [Manager.checkRegistration, bind_ok, refuse_ok] at h
  obtain ⟨_, -, _, hknown, size, -, committed, -, resident, hresident, _, hsize, _, hcommitted, granule, hgranule, _, -, _, -, _, -,
    _, hpinned, _, hbacked, _, -, _, -, _, -, _, hwrite, _, -, h⟩ := h
  rw [not_or] at hknown
  have hg : 1 ≤ granule := by
    cases hr : q.residencyGranuleBytes with
    | none =>
      rw [hr] at hgranule
      cases hgranule
      exact s.pool.page_pos
    | some g =>
      rw [hr] at hgranule
      obtain ⟨hle, rfl⟩ := integer_ok.1 hgranule
      exact hle
  cases h
  refine ⟨⟨Dict.get?_eq_none.2 hknown.1, Dict.get?_eq_none.2 hknown.2, rfl, not_lt.1 hsize, ?_, not_lt.1 hcommitted, hg, fun he => ?_,
    fun he hb => hbacked ⟨he, hb⟩, rfl⟩, fun hd => ?_⟩
  · obtain ⟨hle, rfl⟩ := integer_ok.1 hresident
    exact hle
  · exact Bool.eq_false_iff.2 fun hp => hpinned ⟨hp, he⟩
  · exact Bool.eq_false_iff.2 fun hro => hwrite ⟨hd, hro⟩

theorem Made.registrable (h : Made s t none [] additional) (ho : Registrable s o n) : Registrable t o n :=
  { ho with
    unknown := h.others _ ho.unknown
    unviewed := h.steps.kept.views ▸ ho.unviewed
    owned := ho.owned.trans h.steps.kept.component.symm }

theorem Manager.Sound.protects_none (s : Manager) : Protects s none [] := fun _ _ h => (by cases h)

/-- The object `register` makes, before it is stamped. -/
theorem Registrable.unstamped (h : Registrable s o n) (dirty : Bool) :
    Allocation.syncDerivedState { s.numbered o with
      residentRanges := o.initial n
      dirtyRanges := if dirty then o.initial n else [] } =
      { ((s.numbered o).loaded (o.initial n)).marked (initialOperation dirty) (o.initial n) with
        lastAccess := s.accessSequence + 1 } := by
  have hsep := h.touch.required
  have hheld : (s.numbered o).heldWith (o.initial n) = o.initial n := by
    have hnone : (s.numbered o).residentRanges = [] := by rw [Manager.numbered, h.empty]
    rw [Allocation.heldWith, hnone, List.nil_append, hsep.normalize]
  have hdirtied : ((s.numbered o).loaded (o.initial n)).dirtiedWith (initialOperation dirty) (o.initial n) =
      if dirty then o.initial n else [] := by
    have hnone : ((s.numbered o).loaded (o.initial n)).dirtyRanges = [] := by
      unfold Allocation.loaded Manager.numbered
      rw [h.empty]
    unfold Allocation.dirtiedWith initialOperation
    rw [hnone, List.nil_append, hsep.normalize]
    cases dirty <;> rfl
  rw [Allocation.sync_eq hsep ?_ ?_, Allocation.marked, hdirtied, Allocation.loaded, hheld]
  · rfl
  · show Separated (if dirty = true then _ else _)
    split
    · exact hsep
    · exact .nil
  · intro x hx
    have hx : Holds (if dirty = true then o.initial n else []) x := hx
    split at hx
    · exact hx
    · cases (holds_nil x).1 hx

/-- Where nothing is asked for there is nothing to stamp. -/
theorem Registrable.entrant_nil (h : Registrable s o n) (dirty : Bool) (hnil : o.initial n = []) :
    s.entrant o dirty (o.initial n) = s.numbered o := by
  rw [hnil, Manager.entrant, Manager.numbered, h.empty]
  cases dirty <;> rfl

theorem Registrable.stamp (h : Registrable s o n) (dirty : Bool) :
    Allocation.refreshRecency (Allocation.syncDerivedState { s.numbered o with
      residentRanges := o.initial n
      dirtyRanges := if dirty then o.initial n else [] }) (o.initial n) (s.accessSequence + 1) =
        .ok (s.entrant o dirty (o.initial n)) := by
  rw [h.unstamped]
  refine h.touch.refresh h.numbered _ fun r hr => ?_
  have hnone : (s.numbered o).residentRecencyRanges = [] := by rw [Manager.numbered, h.empty]
  rw [hnone] at hr
  cases hr

/-- What `register` does to the pool and to the object, once they are counted. -/
theorem Registrable.enter_then (h : Registrable s o n) (hs : s.Sound) (dirty : Bool)
    (hfits : s.pool.residentBytes + totalLength (o.initial n) ≤ s.pool.capacityBytes) (hpool : t.pool = s.pool) {β : Type}
    {f : Allocation → M β} :
    (if totalLength (o.initial n) ≠ 0 then do
        let owner ← raise ({ s.numbered o with
          residentRanges := o.initial n
          dirtyRanges := if dirty then o.initial n else []
          }.syncDerivedState.refreshRecency (o.initial n) (s.accessSequence + 1))
        adjustPool (totalLength (o.initial n))
        pure owner >>= f
      else pure (s.numbered o) >>= f) t = f (s.entrant o dirty (o.initial n))
        { t with pool := if totalLength (o.initial n) ≠ 0 then s.pool.adjusted (totalLength (o.initial n)) else s.pool } := by
  have hpos := h.touch.required.length_nonneg
  have hnonneg := hs.pool.nonneg hs.bytes_nonneg
  by_cases hzero : totalLength (o.initial n) = 0
  · have hnil : o.initial n = [] := by_contra fun hne => (h.touch.required.length_pos hne).ne' hzero
    rw [if_neg (not_not.2 hzero), if_neg (not_not.2 hzero), h.entrant_nil dirty hnil, ← hpool]
    rfl
  · rw [if_pos hzero, if_pos hzero, ← hpool]
    rw [← hpool] at hfits hnonneg
    exact (ok_bind (raise_ok (h.stamp dirty))).trans ((ok_bind (adjustPool_ok (by omega) hfits)).trans rfl)

/-- **A registration that is not refused goes through once there is room.** -/
theorem register_ok (hs : s.Sound) (h : s.checkRegistration q = .ok (o, n)) (hmade : Made s t none [] (totalLength (o.initial n))) :
    register q s = .ok (t.entrant o q.dirty (o.initial n)) (t.entered o q.dirty (o.initial n)) := by
  have ht := hmade.steps.sound hs
  have ho := hmade.registrable (Manager.registrable h).1
  rw [register, get_then]
  refine (ok_bind (raise_ok h)).trans ((ok_bind hs.validate).trans ((ok_bind hmade.run).trans ?_))
  rw [modify_then]
  refine (ok_bind (nextAccessSequence_ok _)).trans ?_
  rw [get_then]
  refine (ho.enter_then (t := { t with
    registrationSequence := t.registrationSequence + 1
    accessSequence := t.accessSequence + 1 }) ht q.dirty hmade.fits rfl).trans ?_
  refine (modify_then _ _).trans ?_
  rw [note, modify_then]
  exact (ok_bind (ho.sound ht q.dirty hmade.fits).validate).trans rfl

/-- **A registration that is not refused goes through, or there is too little room for it.** -/
theorem register_cases (hs : s.Sound) (h : s.checkRegistration q = .ok (o, n)) :
    (bytesOf (s.chosen none [] (s.need (totalLength (o.initial n)))) < s.need (totalLength (o.initial n)) ∧
        ∃ message, register q s = .error (.capacityExceeded message) s) ∨
      ∃ t b, Made s t none [] (totalLength (o.initial n)) ∧ register q s = .ok b (t.entered o q.dirty (o.initial n)) := by
  obtain ⟨hless, message, herror⟩ | ⟨t, hmade⟩ := hs.room (Manager.Sound.protects_none s)
    (Manager.registrable h).1.touch.required.length_nonneg
  · refine .inl ⟨hless, message, ?_⟩
    rw [register, get_then]
    exact (ok_bind (raise_ok h)).trans ((ok_bind hs.validate).trans (error_bind herror))
  · exact .inr ⟨t, _, hmade, register_ok hs h hmade⟩

theorem register_refused {e : Raised} (h : s.checkRegistration q = .error e) : register q s = .error e s := by
  rw [register, get_then]
  exact error_bind (raise_error h)

theorem register_atomic (hs : s.Sound) (q : Registration) : Atomically (register q) s fun _ => Moves none s := by
  cases h : s.checkRegistration q with
  | error e => exact .inl ⟨e, register_refused h⟩
  | ok p =>
    obtain ⟨-, message, hno⟩ | ⟨t, b, hmade, hrun⟩ := register_cases hs (o := p.1) (n := p.2) h
    · exact .inl ⟨_, hno⟩
    · obtain ⟨ho, hwrite⟩ := Manager.registrable (o := p.1) (n := p.2) h
      exact .inr ⟨b, _, hrun,
        .of_changes (hmade.steps.changes.tail (.register (hmade.registrable ho) hmade.fits hwrite)) hmade.steps.kept.leases⟩

/-! ## Views, leases, commitments -/

theorem Manager.getAllocation_ok {id : String} (h : s.getAllocation id = .ok a) : s.allocations.get? id = some a := by
  unfold Manager.getAllocation at h
  cases ha : s.allocations.get? id with
  | none =>
    rw [ha, Option.elim_none] at h
    split at h <;> cases h
  | some c =>
    rw [ha] at h
    cases h
    rfl

theorem Manager.Sound.got (hs : s.Sound) {id : String} (h : s.getAllocation id = .ok a) :
    s.allocations.get? a.allocationId = some a := by
  have ha := Manager.getAllocation_ok h
  rwa [(hs.owners id a ha).1]

theorem createView_atomic (hs : s.Sound) (viewId ownerId : String) (offset : Int) (size : Option Int) :
    Atomically (createView viewId ownerId offset size) s fun _ => Moves none s := by
  refine .get_then (.guard fun _ => .guard fun _ => .check fun a ha => .check fun lo hlo => .check fun n hn => .guard fun hbound => ?_)
  refine .inr ⟨_, _, rfl, .of_changes (.single (.view (v := ⟨strip viewId, a.allocationId, lo, n, a.residencyGranuleBytes⟩)
    (hs.got ha) ?_ ?_ rfl)) rfl⟩
  · obtain ⟨hle, rfl⟩ := integer_ok.1 hlo
    exact hle
  · exact not_lt.1 (not_or.1 hbound).2

theorem releaseView_atomic (viewId : String) : Atomically (releaseView viewId) s fun _ => Moves none s :=
  .get_then (.guard fun _ => .check fun _ _ => .inr ⟨_, _, rfl, .of_changes (.single (.unview viewId)) rfl⟩)

theorem adjustIf_then {n delta : Int} {β : Type} {f : Unit → M β} (hlo : 0 ≤ s.pool.residentBytes + delta)
    (hhi : s.pool.residentBytes + delta ≤ s.pool.capacityBytes) : (if n ≠ 0 then adjustPool delta >>= f else f ()) s =
      f () { s with pool := if n ≠ 0 then s.pool.adjusted delta else s.pool } := by
  split
  · exact ok_bind (adjustPool_ok hlo hhi)
  · rfl

theorem release_atomic (hs : s.Sound) (id : String) (force : Bool) : Atomically (release id force) s fun _ => Moves none s := by
  refine .get_then (.check fun a ha => .guard fun hleases => .guard fun hviews => .guard fun _ => ?_)
  have hpresent := hs.got ha
  have hrel : Releasable s a := by
    refine ⟨hpresent, fun leaseId l hl ho => hleases ?_, fun viewId v hv ho => hviews ?_⟩
    · refine List.ne_nil_of_mem (a := l.leaseId) ((List.perm_insertionSort _ _).mem_iff.2 (List.mem_map_of_mem ?_))
      exact List.mem_filter.2 ⟨Dict.mem_values.2 ⟨leaseId, hl⟩, decide_eq_true ho⟩
    · refine List.ne_nil_of_mem (a := v.viewId) ((List.perm_insertionSort _ _).mem_iff.2 (List.mem_map_of_mem ?_))
      exact List.mem_filter.2 ⟨Dict.mem_values.2 ⟨viewId, hv⟩, decide_eq_true ho⟩
  have hpos := hs.bytes_nonneg _ a hpresent
  have hle := hs.pool.le hs.bytes_nonneg hpresent
  have hcap := hs.capacity
  apply Atomically.returned
  · refine (adjustIf_then (by omega) (by omega)).trans ((modify_then _ _).trans ?_)
    rw [note, modify_then]
    exact (ok_bind (hrel.sound hs).validate).trans rfl
  · exact .of_changes (.single (.release hrel)) rfl

theorem acquireLease_atomic (hs : s.Sound) (leaseId targetId taskId : String) (offset : Int) (size : Option Int) :
    Atomically (acquireLease leaseId targetId taskId offset size) s fun _ => Moves none s := by
  refine .get_then (.guard fun _ => .guard fun htask => .guard fun hnew => .check fun r hres => .guard fun hheld => ?_)
  have hr := hs.resolves hres
  have htouch := hr.touch hs
  have hchange : Change s (s.leased ⟨strip leaseId, strip taskId, targetId, r.owner.allocationId, r.offset, r.size, r.ranges⟩) := by
    refine .lease (a := r.owner) hr.present htouch.required htouch.ends (fun x hx => ?_) (Dict.get?_eq_none.2 hnew) htask
    rw [← not_not.1 hheld] at hx
    exact (((intersectRanges_spec _ _).2 x).1 hx).2
  have hkept : ∀ id l, s.leases.get? id = some l → some id ≠ none →
      (s.leased ⟨strip leaseId, strip taskId, targetId, r.owner.allocationId, r.offset, r.size, r.ranges⟩).leases.get? id = some l := by
    intro id l hget _
    refine (Dict.get?_insert_of_ne _ _ fun heq => hnew ?_).trans hget
    exact heq.subst (motive := (· ∈ s.leases.keys)) (Dict.mem_keys_of_get? hget)
  exact .inr ⟨_, _, (set_then _ _).trans ((ok_bind (hchange.sound hs).validate).trans rfl), .single hchange, hkept⟩

theorem releaseLease_atomic (hs : s.Sound) (leaseId : String) : Atomically (releaseLease leaseId) s fun _ => Moves (some leaseId) s := by
  refine .get_then (.check fun l hl => ?_)
  have hget : s.leases.get? leaseId = some l := by
    cases hk : s.leases.get? leaseId with
    | none =>
      rw [hk] at hl
      cases hl
    | some k =>
      rw [hk] at hl
      cases hl
      rfl
  have hid := (hs.leases leaseId l hget).1
  have hchange : Change s (s.unleased l) := .unlease (hid ▸ hget)
  have hvalid := (hchange.sound hs).validate
  rw [Manager.unleased, hid] at hchange hvalid
  apply Atomically.returned
  · refine (set_then _ _).trans ?_
    rw [note, modify_then]
    exact (ok_bind hvalid).trans rfl
  · exact ⟨.single hchange, fun id k hk hne => (Dict.get?_erase_of_ne _ fun heq => hne (congrArg some heq)).trans hk⟩

theorem retire_atomic (tasks : List String) : Atomically (retireCompletedConsumers tasks) s fun _ => Moves none s := by
  refine .get_then (.guard fun _ => .guard fun hactive => ?_)
  obtain ⟨anchors, heq⟩ := s.retired_eq tasks
  refine .inr ⟨(), s.retired tasks, rfl, .of_changes (.single (.retire fun id l hl hin => hactive ?_)) (heq ▸ rfl)⟩
  exact List.any_eq_true.2 ⟨l, Dict.mem_values.2 ⟨id, hl⟩, decide_eq_true hin⟩

theorem mapError_ok {ε δ α : Type} {x : Except ε α} {f : ε → δ} {a : α} (h : x.mapError f = .ok a) : x = .ok a := by
  cases x with
  | error e => cases h
  | ok b =>
    cases h
    rfl

theorem commit_atomic (hs : s.Sound) (id : String) (bytes : Int) : Atomically (commit id bytes) s fun _ => Moves none s := by
  refine .get_then (.check fun a ha => .check fun committed hc => .guard fun hgrows => .guard fun hsize => .check fun u hchecks => ?_)
  have hpresent := hs.got ha
  obtain ⟨-, -, hsound⟩ := hs.owners _ a hpresent
  have hcommit : Committable s a committed := by
    obtain ⟨x, h1, hok⟩ := bind_ok.1 (mapError_ok hchecks)
    obtain ⟨y, h2, h3⟩ := bind_ok.1 hok
    refine ⟨hpresent, not_lt.1 hgrows, not_lt.1 hsize, ?_, ?_, ?_⟩
    · exact ensureBackingUnitRanges_ends h1 hsound.resident.proper
    · exact ensureBackingUnitRanges_ends h2 hsound.dirtied.proper
    · refine ensureBackingUnitRanges_ends h3 fun g hg => ?_
      obtain ⟨q, hq, rfl⟩ := List.mem_map.1 hg
      exact hsound.recency.proper q hq
  have hchange : Change s (s.holding a.allocationId (a.committing committed)) := .commit hcommit
  apply Atomically.returned
  · refine (set_then _ _).trans ?_
    rw [Manager.updateAllocation_eq hpresent]
    exact (ok_bind (hchange.sound hs).validate).trans rfl
  · exact .of_changes (.single hchange) rfl

theorem beginDeferred_atomic (hs : s.Sound) : Atomically beginDeferredValidation s fun _ => Moves none s := by
  refine .get_then ?_
  refine .inr ⟨(), { s with deferredValidationDepth := s.deferredValidationDepth + 1 }, ?_, .of_changes (.single (.defer _)) rfl⟩
  split
  · exact (ok_bind hs.assertConsistent).trans rfl
  · rfl

theorem endDeferred_atomic (hs : s.Sound) : Atomically endDeferredValidation s fun _ => Moves none s := by
  refine .get_then (.guard fun _ => ?_)
  have hchange : Change s { s with deferredValidationDepth := s.deferredValidationDepth - 1 } := .defer _
  refine .inr ⟨(), _, (set_then _ _).trans ?_, .of_changes (.single hchange) rfl⟩
  rw [get_then]
  split
  · exact (hchange.sound hs).assertConsistent
  · rfl

/-! ## Explicit evictions -/

theorem unitsFrom_bounds {clock : ℕ} (h : a.Sound clock) {stop : Int} : ∀ (n : ℕ) (cursor : Int) (us : List Gap), a.Unit cursor →
    unitsFrom a.committedBytes a.residencyGranuleBytes stop n cursor = .ok us →
    ∀ u ∈ us, cursor ≤ u.lo ∧ u.lo < u.hi ∧ u.hi ≤ stop ∧ a.Unit u.lo ∧ a.Unit u.hi
  | 0, _, us, _, hus => by
    cases hus
    exact fun u hu => (by cases hu)
  | n + 1, cursor, us, hcursor, hus => by
    rw [unitsFrom] at hus
    split at hus
    · next hlt =>
      dsimp only at hus
      split at hus
      · cases hus
      · next hinside =>
        rw [not_or, not_le, not_lt] at hinside
        obtain ⟨hproper, hle⟩ := hinside
        have hunit : a.Unit (min a.committedBytes (cursor + a.residencyGranuleBytes)) := by
          obtain ⟨⟨h1, h2⟩, hmod⟩ := hcursor
          refine ⟨⟨h1.trans hproper.le, min_le_left _ _⟩, ?_⟩
          obtain hmin | hmin := min_choice a.committedBytes (cursor + a.residencyGranuleBytes)
          · exact .inl hmin
          · rw [hmin, Int.add_emod_right]
            exact .inr (hmod.resolve_left fun heq => by omega)
        cases hrest : unitsFrom a.committedBytes a.residencyGranuleBytes stop n (min a.committedBytes (cursor + a.residencyGranuleBytes)) with
        | error e =>
          rw [hrest] at hus
          cases hus
        | ok vs =>
          rw [hrest] at hus
          cases hus
          intro u hu
          obtain rfl | hu := List.mem_cons.1 hu
          · exact ⟨le_rfl, hproper, hle, hcursor, hunit⟩
          · obtain ⟨hlo, hrest⟩ := unitsFrom_bounds h n _ vs hunit hrest u hu
            exact ⟨hproper.le.trans hlo, hrest⟩
    · cases hus
      exact fun u hu => (by cases hu)

theorem iterUnits_bounds {clock : ℕ} (h : a.Sound clock) {g : Gap} (hg : g.lo < g.hi) (hlo : a.Unit g.lo) {us : List Gap}
    (hus : iterBackingUnitRanges a.committedBytes a.residencyGranuleBytes [g] = .ok us) :
    ∀ u ∈ us, g.lo ≤ u.lo ∧ u.lo < u.hi ∧ u.hi ≤ g.hi ∧ a.Unit u.lo ∧ a.Unit u.hi := by
  have hsingle : normalizeRanges [g] = [g] :=
    Separated.normalize (.singleton hg)
  obtain ⟨-, -, hus⟩ := bind_ok.1 hus
  rw [hsingle, List.foldlM_cons] at hus
  obtain ⟨vs, hvs, hus⟩ := bind_ok.1 hus
  cases hus
  cases hunits : unitsFrom a.committedBytes a.residencyGranuleBytes g.hi (g.hi - g.lo).toNat g.lo with
  | error e =>
    rw [hunits] at hvs
    cases hvs
  | ok ws =>
    rw [hunits] at hvs
    cases hvs
    exact unitsFrom_bounds h _ _ ws hlo hunits

theorem mem_takeUnits : ∀ {us : List Gap} {n : Int} {u : Gap}, u ∈ (takeUnits n us).2 → u ∈ us
  | [], _, _, h => by cases h
  | v :: us, n, u, h => by
    rw [takeUnits] at h
    split at h
    · cases h
    · obtain rfl | h := List.mem_cons.1 h
      · exact List.mem_cons_self
      · exact List.mem_cons_of_mem v (mem_takeUnits h)

/-- A piece of some ranges, in whole units. -/
def Allocation.Part (a : Allocation) (ranges : List Gap) (u : Gap) : Prop :=
  u.lo < u.hi ∧ a.Unit u.lo ∧ a.Unit u.hi ∧ ∀ x, u.lo ≤ x → x < u.hi → Holds ranges x

/-- The loop of `_evict_owner_bytes` takes whole units. -/
theorem Allocation.Sound.foldl_takeUnits {clock : ℕ} (h : a.Sound clock) {ranges : List Gap} : ∀ (l : List Gap) (taken result : Int × List Gap),
    (∀ g ∈ l, a.Part ranges g) → (∀ u ∈ taken.2, a.Part ranges u) →
    l.foldlM (fun (taken : Int × List Gap) g =>
      if taken.1 ≤ 0 then .ok taken else
        (iterBackingUnitRanges a.committedBytes a.residencyGranuleBytes [g]).map fun units =>
          ((takeUnits taken.1 units.reverse).1, taken.2 ++ (takeUnits taken.1 units.reverse).2)) taken = (.ok result : Except Raised _) →
    ∀ u ∈ result.2, a.Part ranges u
  | [], taken, result, _, ht, hr => by
    cases hr
    exact ht
  | g :: l, taken, result, hl, ht, hr => by
    rw [List.foldlM_cons] at hr
    obtain ⟨next, hnext, hr⟩ := bind_ok.1 hr
    refine h.foldl_takeUnits l next result (fun k hk => hl k (List.mem_cons_of_mem g hk)) ?_ hr
    split at hnext
    · cases hnext
      exact ht
    · obtain ⟨hg, hlo, -, hin⟩ := hl g List.mem_cons_self
      cases hunits : iterBackingUnitRanges a.committedBytes a.residencyGranuleBytes [g] with
      | error e =>
        rw [hunits] at hnext
        cases hnext
      | ok us =>
        rw [hunits] at hnext
        cases hnext
        intro u hu
        obtain hu | hu := List.mem_append.1 hu
        · exact ht u hu
        · obtain ⟨h1, h2, h3, h4, h5⟩ := iterUnits_bounds h hg hlo hunits u (List.mem_reverse.1 (mem_takeUnits hu))
          exact ⟨h2, h4, h5, fun x hx hx' => hin x (h1.trans hx) (hx'.trans_le h3)⟩

theorem Manager.Sound.candidateRanges (hs : s.Sound) (hp : Protects s protect ranges) (ha : s.allocations.get? a.allocationId = some a) :
    Separated (s.candidateRanges a protect ranges) ∧ Ends a.Unit (s.candidateRanges a protect ranges) ∧
      ∀ x, Holds (s.candidateRanges a protect ranges) x ↔ s.Eligible protect ranges a x := by
  obtain ⟨-, -, hsound⟩ := hs.owners _ a ha
  unfold Manager.candidateRanges
  split
  · next hfixed =>
    refine ⟨.nil, fun g hg => (by cases hg), fun x => ?_⟩
    rw [holds_nil, false_iff]
    intro h
    rw [(eligible_iff.1 h).1] at hfixed
    cases hfixed
  · next hfixed =>
    obtain ⟨hsep, hx⟩ := subtractRanges_spec hsound.resident (s.cuts a protect ranges)
    refine ⟨hsep, hsound.residentEnds.subtract (hs.cuts_ends hp ha), fun x => ?_⟩
    rw [hx, eligible_iff]
    exact (and_iff_right (Bool.not_eq_true _ ▸ hfixed)).symm

/-- Whole units of what may be evicted are evicted, if there are any. -/
theorem Manager.Sound.evictParts (hs : s.Sound) (ha : s.allocations.get? a.allocationId = some a) {selected : List Gap}
    (he : a.evictable = true) (hsel : ∀ u ∈ selected, a.Part (s.candidateRanges a (some a.allocationId) []) u) :
    ∃ t, evictOwnerRanges a.allocationId selected s = .ok () t ∧ Moves none s t := by
  obtain ⟨-, -, hsound⟩ := hs.owners _ a ha
  have hprotects : Protects s (some a.allocationId) [] := fun _ _ _ _ g hg => (by cases hg)
  have hfree : ∀ x, Holds (normalizeRanges selected) x → s.Eligible (some a.allocationId) [] a x := by
    intro x hx
    obtain ⟨u, hu, h1, h2⟩ := (holds_normalizeRanges _ x).1 hx
    exact ((hs.candidateRanges hprotects ha).2.2 x).1 ((hsel u hu).2.2.2 x h1 h2)
  by_cases hnil : normalizeRanges selected = []
  · have hunsafe : ¬(a.pinned = true ∨ ¬a.evictable = true ∨ a.backing = none) := by
      rw [not_or, not_or, not_not, hsound.unpinned he]
      exact ⟨Bool.false_ne_true, he, hsound.backed he⟩
    refine ⟨s, ?_, .of_changes .refl rfl⟩
    rw [evictOwnerRanges, get_then, ha]
    refine (pass_bind hunsafe).trans ?_
    simp only [hnil, ne_eq, not_true, if_false]
    rfl
  · have hev : Evictable s a (normalizeRanges selected) :=
      { present := ha
        evictable := he
        separated := normalizeRanges_separated _
        nonempty := hnil
        ends := Ends.normalize fun u hu => ⟨(hsel u hu).2.1, (hsel u hu).2.2.1⟩
        held := fun x hx => (hfree x hx).resident
        unleased := fun id l hl ho x hx hin => (hfree x hin).unleased id l hl ho hx }
    exact ⟨_, hev.evict hs rfl, .of_changes (.single (.evict hev)) rfl⟩

theorem evictOwnerBytes_atomic (hs : s.Sound) (ha : s.allocations.get? a.allocationId = some a) (bytes : Int) :
    Atomically (evictOwnerBytes a.allocationId bytes []) s fun _ t => Moves none s t := by
  obtain ⟨-, -, hsound⟩ := hs.owners _ a ha
  have hprotects : Protects s (some a.allocationId) [] := fun _ _ _ _ g hg => (by cases hg)
  obtain ⟨hsep, hends, -⟩ := hs.candidateRanges hprotects ha
  have hparts : ∀ g ∈ (s.candidateRanges a (some a.allocationId) []).reverse,
      a.Part (s.candidateRanges a (some a.allocationId) []) g := by
    intro g hg
    rw [List.mem_reverse] at hg
    exact ⟨hsep.proper g hg, (hends g hg).1, (hends g hg).2, fun x h1 h2 => ⟨g, hg, h1, h2⟩⟩
  refine .get_then ?_
  rw [ha]
  refine .guard fun hunsafe => .guard fun _ => .check fun taken htaken => .guard fun _ => ?_
  have hsel := hsound.foldl_takeUnits _ _ taken hparts (fun u hu => (by cases hu)) htaken
  obtain ⟨t, ht, hmoves⟩ := hs.evictParts ha (not_not.1 (not_or.1 (not_or.1 hunsafe).2).1) hsel
  exact .returned ht hmoves

theorem evict_atomic (hs : s.Sound) (id : String) (count : Option Int) : Atomically (evict id count) s fun _ => Moves none s := by
  refine .of_eq (ok_bind hs.validate) rfl (.get_then (.check fun a ha => .guard fun _ => .check fun n _ => .guard fun _ => ?_))
  split
  · exact .returned rfl (.of_changes .refl rfl)
  · refine (evictOwnerBytes_atomic hs (hs.got ha) n).andThen fun _ t hmoves => ?_
    exact ⟨_, t, (ok_bind (hmoves.changes.sound hs).validate).trans rfl, hmoves⟩

/-! ## Every call -/

/-- The lease a call gives up. -/
def Call.released : Call → Option String
  | .releaseLease leaseId => some leaseId
  | _ => none

/-- **A call raises and changes nothing, or returns and has made a few changes.** -/
theorem Call.atomic (hs : s.Sound) (c : Call) : Atomically c.run s fun _ => Moves c.released s := by
  cases c with
  | register q => exact (register_atomic hs q).discarded
  | createView viewId ownerId offset size => exact (createView_atomic hs viewId ownerId offset size).discarded
  | releaseView viewId => exact (releaseView_atomic viewId).discarded
  | release id force => exact (release_atomic hs id force).discarded
  | acquireLease leaseId targetId taskId offset size => exact (acquireLease_atomic hs leaseId targetId taskId offset size).discarded
  | releaseLease leaseId => exact (releaseLease_atomic hs leaseId).discarded
  | retireCompletedConsumers tasks => exact retire_atomic tasks
  | commit id bytes => exact (commit_atomic hs id bytes).discarded
  | access x => exact (access_atomic hs x).discarded
  | evict id count => exact (evict_atomic hs id count).discarded
  | beginDeferredValidation => exact beginDeferred_atomic hs
  | endDeferredValidation => exact endDeferred_atomic hs

theorem Call.moves (hs : s.Sound) (c : Call) (h : CallStep s c t) : Moves c.released s t := by
  rw [CallStep] at h
  obtain ⟨e, he⟩ | ⟨u, t', ht, hmoves⟩ := c.atomic hs
  · rw [after, he] at h
    exact h ▸ .of_changes .refl rfl
  · rw [after, ht] at h
    exact h ▸ hmoves

theorem Used.sound (h : Used s) : s.Sound := by
  refine h.keeps (fun s hs => ?_) fun s c t hs hstep => (c.moves hs hstep).changes.sound hs
  obtain ⟨pool, hnew⟩ := hs
  exact .new hnew

/-- A rule for what every change keeps, on top of the manager's invariant. -/
theorem Used.keeps {I : Manager → Prop} (h : Used s) (hnew : ∀ pool s, Manager.new pool = .ok s → I s)
    (hstep : ∀ s t, s.Sound → I s → Change s t → I t) : I s := by
  have hreached : Reached CallStep (fun s => ∃ pool, Manager.new pool = .ok s) s := h
  have hboth : s.Sound ∧ I s := by
    refine Reached.keeps (I := fun s => s.Sound ∧ I s) hreached (fun s hs => ?_) fun s c t hst hrun => ?_
    · obtain ⟨pool, hnew'⟩ := hs
      exact ⟨.new hnew', hnew pool s hnew'⟩
    · have hchanges := (c.moves hst.1 hrun).changes
      clear hrun
      induction hchanges with
      | refl => exact hst
      | tail _ hchange ih => exact ⟨hchange.sound ih.1, hstep _ _ ih.1 ih.2 hchange⟩
  exact hboth.2

end Residency

end HeteroSim
