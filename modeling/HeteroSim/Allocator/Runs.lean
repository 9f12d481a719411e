/-
Runs of the allocator: calls that return, in any order and at any nesting of
transactions; a call that raises leaves the allocator as it was. What a save
leads back to does not change while it is retained, and a property of the
map that every call keeps holds of the live map and of every map a save
leads back to.
-/
import HeteroSim.Allocator.Placement

namespace HeteroSim.Allocator

/-- One returning call; `P` is what is known of the maps `_restore_allocations`
is given. -/
inductive Step (P : Dict Key PhysicalAllocation → Prop) : AllocatorState → AllocatorState → Prop
  | allocate {s s'} (r : Request) (ident : Nat) (a : PhysicalAllocation) (h : allocate r ident s = .ok (a, s')) :
    Step P s s'
  | release {s s'} (bufferId : String) (generation : Int) (h : release bufferId generation s = .ok s') : Step P s s'
  | beginTransaction (s) : Step P s (beginTransaction s).2
  | commitTransaction (s) (save : Nat) : Step P s (commitTransaction save s)
  | rollbackTransaction {s s'} (save : Nat) (h : rollbackTransaction save s = some s') : Step P s s'
  | restore (s) (m : Dict Key PhysicalAllocation) (order : List Key) (hm : P m) (ho : RestoreOrder m order s) :
    Step P s (restoreAllocations m order s)
  | forget (s) (save : Nat) : Step P s (forget save s)

/-- Any number of calls. -/
abbrev Run (P : Dict Key PhysicalAllocation → Prop) : AllocatorState → AllocatorState → Prop :=
  Relation.ReflTransGen (Step P)

/-! ## The calls -/

/-- A release that changes anything removes a key no alias names, and retires its extent. -/
theorem release_ok {bufferId : String} {generation : Int} {s s' : AllocatorState}
    (h : release bufferId generation s = .ok s') : s' = s ∨ ∃ key previous, s.allocations.get? key = some previous ∧
      s.aliasesByTarget (key.1, some key.2) = none ∧ s' = retire key previous { beforeMutation key s with
        allocations := s.allocations.erase key, allocationOrder := s.allocationOrder.erase key } := by
  simp only [release, bind_ok] at h
  obtain ⟨key, -, h⟩ := h
  split at h
  · exact .inl (Except.ok.inj h).symm
  · next previous hp =>
    simp only [bind_ok, refuse_ok, not_not] at h
    obtain ⟨_, hfree, h⟩ := h
    exact .inr ⟨key, previous, hp, hfree, (Except.ok.inj h).symm⟩

theorem rollback_retained {save : Nat} {s s' : AllocatorState} (h : rollbackTransaction save s = some s') :
    ∃ t, s.saves.get? save = some t := by
  unfold rollbackTransaction at h
  split at h
  · cases h
  · next t ht => exact ⟨t, ht⟩

/-- A rollback rebuilds the indexes, or changes no extent. -/
theorem rollback_cases {save : Nat} {s s' : AllocatorState} (h : rollbackTransaction save s = some s') :
    (∃ d, d.config = s.config ∧ s' = rebuildIndexes d) ∨ ∃ peak, s' = { close save s with peakEndBytes := peak } := by
  unfold rollbackTransaction at h
  split at h
  · cases h
  · next t _ =>
    have hrest := foldl_restore_rest t.entries.items (false, false, { close save s with peakEndBytes := t.peak })
    have hsame := foldl_restore_unchanged t.entries.items
      (false, false, { close save s with peakEndBytes := t.peak })
    simp only at h
    generalize t.entries.items.foldl restoreEntry (false, false, { close save s with peakEndBytes := t.peak }) = r
      at h hrest hsame
    obtain ⟨changed, existing, d⟩ := r
    cases changed with
    | false =>
      simp only [Bool.false_eq_true, if_false, Option.some.injEq] at h
      exact .inr ⟨t.peak, h.symm.trans (hsame rfl)⟩
    | true =>
      simp only [if_true, Option.some.injEq] at h
      refine .inl ⟨reorder existing d, ?_, h.symm⟩
      have : (reorder existing d).config = d.config := by
        unfold reorder
        simp only
        split <;> rfl
      exact this.trans hrest.config

/-! ## `_restore_allocations` -/

/-- Every retained save has an image of each key. -/
def Covers (keys : List Key) (s : AllocatorState) : Prop :=
  ∀ save t, s.saves.get? save = some t → ∀ k ∈ keys, (t.entries.get? k).isSome

theorem foldl_beforeMutation : ∀ (keys : List Key) (s : AllocatorState),
    let s' := keys.foldl (fun s key => beforeMutation key s) s
    s'.config = s.config ∧ imageAt s' = imageAt s ∧ view s' = view s ∧ s'.peakEndBytes = s.peakEndBytes ∧
      s'.nextSave = s.nextSave ∧ (∀ old, Covers old s → Covers old s') ∧ Covers keys s'
  | [], s => ⟨rfl, rfl, rfl, rfl, rfl, fun _ h => h, fun _ _ _ _ h => by cases h⟩
  | key :: keys, s => by
    obtain ⟨hc, hi, hv, hp, hn, hkeep, hcover⟩ := foldl_beforeMutation keys (beforeMutation key s)
    have hstep : ∀ old, Covers old s → Covers (key :: old) (beforeMutation key s) := by
      intro old hold save t ht k hk
      rw [beforeMutation_saves, Option.map_eq_some_iff] at ht
      obtain ⟨t0, ht0, rfl⟩ := ht
      rw [Dict.get?_setDefault]
      split
      · rfl
      · next hne => exact hold save t0 ht0 k ((List.mem_cons.1 hk).resolve_left hne)
    refine ⟨hc, hi, hv.trans (view_edit (k := key) rfl fun _ _ => rfl), hp, hn, fun old hold => ?_, ?_⟩
    · exact hkeep old fun save t ht k hk => hstep old hold save t ht k (by simp [hk])
    · intro save t ht k hk
      rcases List.mem_cons.1 hk with rfl | hk
      · exact hkeep [k] (hstep [] fun _ _ _ _ h => by cases h) save t ht k (by simp)
      · exact hcover save t ht k hk

/-- Ordinals that count the keys put the map in order. -/
theorem ordered_zipIdx {s : AllocatorState} (ho : s.allocationOrder.items = s.allocations.keys.zipIdx)
    (hn : s.nextOrder = s.allocations.keys.length) : Ordered s := by
  have hget : ∀ k n, s.allocationOrder.get? k = some n ↔ s.allocations.keys[n]? = some k := fun k n => by
    rw [Dict.get?_eq_some, ho, List.mem_zipIdx_iff_getElem?]
  refine ⟨fun k => ?_, ?_, fun k n hk => ?_⟩
  · rw [Dict.keys, ho, List.zipIdx_map_fst]
  · rw [List.pairwise_iff_getElem]
    intro i j hi hj hij
    have h1 := (hget _ i).2 (List.getElem?_eq_getElem hi)
    have h2 := (hget _ j).2 (List.getElem?_eq_getElem hj)
    simpa only [ordinal, h1, h2, Option.getD_some] using hij
  · rw [hn]
    exact (List.getElem?_eq_some_iff.1 ((hget k n).1 hk)).1

/-- What `_restore_allocations` does: the map is the one given, in its order,
and every view stands. -/
structure Restored (m : Dict Key PhysicalAllocation) (s s' : AllocatorState) : Prop where
  rebuilt : ∃ d, d.config = s.config ∧ d.allocations = m ∧ s' = rebuildIndexes d
  allocations : s'.allocations = m
  ordered : Ordered s'
  view : view s' = view s
  nextSave : s'.nextSave = s.nextSave

theorem restored {m : Dict Key PhysicalAllocation} {order : List Key} {s : AllocatorState} (hs : Ordered s)
    (ho : RestoreOrder m order s) : Restored m s (restoreAllocations m order s) := by
  obtain ⟨hc, hi, hv, -, hn, -, hcover⟩ := foldl_beforeMutation order { s with nativeAllocationKeys := false }
  have hedit : IndexEdit (adoptAllocations m order s) (restoreAllocations m order s) := rebuildIndexes_edit _
  have hord : Ordered (adoptAllocations m order s) := ordered_zipIdx rfl rfl
  refine ⟨⟨adoptAllocations m order s, hc, rfl, rfl⟩, hedit.allocations, hedit.ordered hord, ?_, hedit.nextSave.trans hn⟩
  have hkeys : ∀ k, k ∉ order → k ∉ s.allocations.keys ∧ k ∉ m.keys := fun k hk => by
    have : k ∉ s.allocations.keys.toFinset ∪ m.keys.toFinset := by rw [← ho.2, List.mem_toFinset]; exact hk
    simpa [not_or] using this
  rw [hedit.view, ← (show Allocator.view { s with nativeAllocationKeys := false } = Allocator.view s from rfl), ← hv]
  funext id
  simp only [Allocator.view]
  refine Option.map_congr fun t ht => ?_
  refine congrArg (Prod.mk t.peak) (funext fun k => ?_)
  -- a key without an image is live on neither side
  by_cases hk : k ∈ order
  · obtain ⟨im, him⟩ := Option.isSome_iff_exists.1 (hcover id t ht k hk)
    simp only [viewOf, him, Option.getD_some]
  · obtain ⟨hold, hnew⟩ := hkeys k hk
    have hleft : imageAt s k = (none, none) := by
      refine Prod.ext (Dict.get?_eq_none.2 hold) (Dict.get?_eq_none.2 ?_)
      rw [hs.dom]; exact hold
    simp only [viewOf, hi]
    refine congrArg _ (Eq.trans ?_ hleft.symm)
    refine Prod.ext (Dict.get?_eq_none.2 hnew) (Dict.get?_eq_none.2 ?_)
    rw [hord.dom]; exact hnew

/-! ## What every call keeps -/

/-- What a step does to the views: nothing, one more, or one fewer. -/
inductive ViewStep (s s' : AllocatorState) : Prop
  | same (hv : view s' = view s) (hn : s'.nextSave = s.nextSave)
  | added (hv : view s' = Function.update (view s) s.nextSave (some (s.peakEndBytes, imageAt s)))
    (hn : s'.nextSave = s.nextSave + 1)
  | dropped (save : Nat) (hv : view s' = Function.update (view s) save none) (hn : s'.nextSave = s.nextSave)

theorem view_begin (s : AllocatorState) : view (beginTransaction s).2 =
    Function.update (view s) s.nextSave (some (s.peakEndBytes, imageAt s)) := by
  funext save
  rw [Function.update_apply]
  simp only [view, beginTransaction, Dict.get?_insert]
  split
  · rfl
  · rfl

theorem viewStep_forget (save : Nat) (s : AllocatorState) : ViewStep s (forget save s) := by
  unfold forget
  split
  · exact .same rfl rfl
  · refine .dropped save (funext fun id => ?_) rfl
    rw [Function.update_apply]
    simp only [view, Dict.get?_erase]
    split
    · rfl
    · rfl

/-- The journal's invariant, and the indexes that follow any map. -/
structure Sound (s : AllocatorState) : Prop where
  journaled : Journaled s
  index : IndexOf s.allocations s
  fresh : ∀ save V, view s save = some V → save < s.nextSave

theorem sound_init (cfg : AllocatorConfig) : Sound (.init cfg) := by
  have hview : ∀ save, view (.init cfg) save = none := fun _ => rfl
  refine ⟨⟨ordered_init cfg, fun save p v h => ?_⟩, ⟨?_, fun gaps hgaps => ?_⟩, fun save V h => ?_⟩
  · rw [hview] at h; cases h
  · have : aliasesOf .empty = fun _ => ∅ := funext fun t => rfl
    show (fun _ => none) = GroupIndex.of (aliasesOf .empty)
    rw [this, GroupIndex.of_empty]
  · obtain rfl : [Gap.mk 0 cfg.capacityBytes] = gaps := Option.some.inj hgaps
    exact gapsFor_whole cfg
  · rw [hview] at h; cases h

theorem store_rest (k : Key) (a : PhysicalAllocation) (s : AllocatorState) :
    (storeAllocation k a s).config = s.config ∧ (storeAllocation k a s).nextSave = s.nextSave := by
  rcases storeAllocation_cases k a s with ⟨-, h⟩ | h
  · rw [h]; exact ⟨rfl, rfl⟩
  · exact ⟨h.config, h.nextSave⟩

/-- The state `release` retires the extent in. -/
theorem indexOf_release {s : AllocatorState} {key : Key} {previous : PhysicalAllocation}
    (h : IndexOf s.allocations s) (hp : s.allocations.get? key = some previous) :
    IndexOf (s.allocations.erase key) (retire key previous { beforeMutation key s with
      allocations := s.allocations.erase key, allocationOrder := s.allocationOrder.erase key }) := by
  have h' : IndexOf s.allocations { beforeMutation key s with
      allocations := s.allocations.erase key, allocationOrder := s.allocationOrder.erase key } :=
    ⟨h.aliases, h.gaps.of_fields rfl rfl rfl⟩
  exact h'.retire hp

variable {P : Dict Key PhysicalAllocation → Prop}

/-- **One call keeps the invariant, the configuration, and every other view.** -/
theorem sound_step {s s' : AllocatorState} (h : Sound s) (hstep : Step P s s') :
    Sound s' ∧ s'.config = s.config ∧ ViewStep s s' := by
  have hsound : ViewStep s s' → Ordered s' → IndexOf s'.allocations s' → Sound s' := fun hv ho hi => by
    cases hv with
    | same hv hn => exact ⟨h.journaled.of_view hv ho, hi, by rw [hv, hn]; exact h.fresh⟩
    | added hv hn =>
      refine ⟨⟨ho, fun save p v hs => ?_⟩, hi, fun save V hs => ?_⟩
      · rw [hv, Function.update_apply] at hs
        split at hs
        · cases hs; exact h.journaled.ordered.image
        · exact h.journaled.images save p v hs
      · rw [hv, Function.update_apply] at hs
        split at hs
        · omega
        · have := h.fresh save V hs
          omega
    | dropped id hv hn =>
      have hsome : ∀ {save V}, view s' save = some V → view s save = some V := fun {save V} hs => by
        rw [hv, Function.update_apply] at hs
        split at hs
        · cases hs
        · exact hs
      exact ⟨⟨ho, fun save p v hs => h.journaled.images save p v (hsome hs)⟩, hi, fun save V hs => by
        rw [hn]; exact h.fresh save V (hsome hs)⟩
  cases hstep with
  | allocate r ident a ha =>
    obtain ⟨key, -, -, -, -, -, -, rfl⟩ := allocate_ok ha
    obtain ⟨hc, hn⟩ := store_rest key a s
    have hv : ViewStep s _ := .same (view_store key a s) hn
    exact ⟨hsound hv (ordered_store h.journaled.ordered) h.index.store, hc, hv⟩
  | release bufferId generation hr =>
    rcases release_ok hr with rfl | ⟨key, previous, hp, -, rfl⟩
    · exact ⟨h, rfl, .same rfl rfl⟩
    · have hedit := retire_edit key previous { beforeMutation key s with
        allocations := s.allocations.erase key, allocationOrder := s.allocationOrder.erase key }
      have hv : ViewStep s _ := .same (view_release (k := key) (a := previous)) hedit.nextSave
      refine ⟨hsound hv (hedit.ordered (ordered_erase (k := key) h.journaled.ordered rfl rfl rfl)) ?_, hedit.config, hv⟩
      rw [hedit.allocations]
      exact indexOf_release h.index hp
  | beginTransaction =>
    have hv : ViewStep s (beginTransaction s).2 := .added (view_begin s) rfl
    exact ⟨hsound hv ⟨h.journaled.ordered.dom, h.journaled.ordered.sorted, h.journaled.ordered.bound⟩
      ⟨h.index.aliases, h.index.gaps.of_fields rfl rfl rfl⟩, rfl, hv⟩
  | commitTransaction save =>
    have hv : ViewStep s (commitTransaction save s) := .same rfl rfl
    exact ⟨hsound hv ⟨h.journaled.ordered.dom, h.journaled.ordered.sorted, h.journaled.ordered.bound⟩
      ⟨h.index.aliases, h.index.gaps.of_fields rfl rfl rfl⟩, rfl, hv⟩
  | rollbackTransaction save hr =>
    obtain ⟨t, ht⟩ := rollback_retained hr
    have hback := rollback_spec h.journaled ht hr
    have hv : ViewStep s s' := .same hback.view hback.nextSave
    refine ⟨hsound hv hback.ordered ?_, hback.config, hv⟩
    rcases rollback_cases hr with ⟨d, -, rfl⟩ | ⟨peak, rfl⟩
    · rw [(rebuildIndexes_edit d).allocations]; exact indexOf_rebuild d
    · exact ⟨h.index.aliases, h.index.gaps.of_fields rfl rfl rfl⟩
  | restore m order hm ho =>
    have hres := restored h.journaled.ordered ho
    have hv : ViewStep s _ := .same hres.view hres.nextSave
    obtain ⟨d, hc, -, he⟩ := hres.rebuilt
    refine ⟨hsound hv hres.ordered ?_, ?_, hv⟩
    · rw [he, (rebuildIndexes_edit d).allocations]; exact indexOf_rebuild d
    · rw [he, (rebuildIndexes_edit d).config, hc]
  | forget save =>
    have hv := viewStep_forget save s
    refine ⟨hsound hv ?_ ?_, ?_, hv⟩
    · unfold forget; split
      · exact h.journaled.ordered
      · exact ⟨h.journaled.ordered.dom, h.journaled.ordered.sorted, h.journaled.ordered.bound⟩
    · unfold forget; split
      · exact h.index
      · exact ⟨h.index.aliases, h.index.gaps.of_fields rfl rfl rfl⟩
    · unfold forget; split <;> rfl

theorem sound_run {s s' : AllocatorState} (h : Sound s) (hrun : Run P s s') : Sound s' ∧ s'.config = s.config := by
  induction hrun with
  | refl => exact ⟨h, rfl⟩
  | tail _ hstep ih =>
    obtain ⟨hs, hc, -⟩ := sound_step ih.1 hstep
    exact ⟨hs, hc.trans ih.2⟩

/-- `save`, while retained, leads back to `V`. -/
def Recalls (save : Nat) (V : Int × (Key → Image)) (s : AllocatorState) : Prop :=
  save < s.nextSave ∧ ∀ W, view s save = some W → W = V

theorem recalls_step {s s' : AllocatorState} {save : Nat} {V : Int × (Key → Image)} (h : Recalls save V s)
    (hv : ViewStep s s') : Recalls save V s' := by
  cases hv with
  | same hv hn => rw [Recalls, hv, hn]; exact h
  | added hv hn =>
    refine ⟨hn ▸ h.1.trans (Nat.lt_succ_self _), fun W hW => h.2 W ?_⟩
    rwa [hv, Function.update_of_ne (Nat.ne_of_lt h.1)] at hW
  | dropped id hv hn =>
    refine ⟨hn ▸ h.1, fun W hW => h.2 W ?_⟩
    rw [hv, Function.update_apply] at hW
    split at hW
    · cases hW
    · exact hW

/-- **A retained save leads back to the same map and peak over any run.** -/
theorem recalls_run {s s' : AllocatorState} {save : Nat} {V : Int × (Key → Image)} (hs : Sound s)
    (h : Recalls save V s) (hrun : Run P s s') : Recalls save V s' := by
  induction hrun with
  | refl => exact h
  | tail hrun hstep ih => exact recalls_step ih (sound_step (sound_run hs hrun).1 hstep).2.2

/-! ## Properties of the map -/

/-- `Q` holds of the live map and of every map a save leads back to. -/
structure Throughout (Q : (Key → Option PhysicalAllocation) → Prop) (s : AllocatorState) : Prop where
  live : Q s.allocations.get?
  saved : ∀ save p v, view s save = some (p, v) → Q fun k => (v k).1

/-- A property that `allocate` and the release of what no alias names keep
here, and restored maps have, every call keeps. -/
theorem throughout_step {Q : (Key → Option PhysicalAllocation) → Prop} {s s' : AllocatorState} (hs : Sound s)
    (h : Throughout Q s) (hstep : Step P s s')
    (hallocate : ∀ r ident a, allocate r ident s = .ok (a, s') → Q s'.allocations.get?)
    (hrelease : ∀ k, s.aliasesByTarget (k.1, some k.2) = none → Q (Function.update s.allocations.get? k none))
    (hrestore : ∀ m, P m → Q m.get?) : Throughout Q s' := by
  have hsaved : ∀ save p v, view s' save = some (p, v) → Q fun k => (v k).1 := by
    intro save p v hv
    cases (sound_step hs hstep).2.2 with
    | same he _ => exact h.saved save p v (by rw [← he]; exact hv)
    | added he _ =>
      rw [he, Function.update_apply] at hv
      split at hv
      · cases hv; exact h.live
      · exact h.saved save p v hv
    | dropped id he _ =>
      rw [he, Function.update_apply] at hv
      split at hv
      · cases hv
      · exact h.saved save p v hv
  refine ⟨?_, hsaved⟩
  cases hstep with
  | allocate r ident a ha => exact hallocate r ident a ha
  | release bufferId generation hr =>
    rcases release_ok hr with rfl | ⟨key, previous, -, hfree, rfl⟩
    · exact h.live
    · rw [(retire_edit key previous _).allocations, Dict.get?_erase_eq]
      exact hrelease key hfree
  | beginTransaction => exact h.live
  | commitTransaction save => exact h.live
  | rollbackTransaction save hr =>
    obtain ⟨t, ht⟩ := rollback_retained hr
    have hback := rollback_spec hs.journaled ht hr
    have hview : view s save = some (t.peak, viewOf t s) := by simp [view, ht]
    have heq : s'.allocations.get? = fun k => (viewOf t s k).1 := funext fun k => by
      rw [← hback.images k]; rfl
    rw [heq]
    exact h.saved save _ _ hview
  | restore m order hm ho =>
    rw [(restored hs.journaled.ordered ho).allocations]
    exact hrestore m hm
  | forget save =>
    have : (forget save s).allocations = s.allocations := by unfold forget; split <;> rfl
    rw [this]; exact h.live

/-! ## Rows and gap lists -/

/-- Every map so far files each extent under its own key, and the rows are
those of the live map. -/
structure Rowed (s : AllocatorState) : Prop where
  keyed : Throughout Keyed s
  rows : RowsFor s.allocations s

theorem keyed_erase {f : Key → Option PhysicalAllocation} {k : Key} (h : Keyed f) :
    Keyed (Function.update f k none) := by
  intro j a hj
  rw [Function.update_apply] at hj
  split at hj
  · cases hj
  · exact h j a hj

theorem throughout_init {Q : (Key → Option PhysicalAllocation) → Prop} {cfg : AllocatorConfig}
    (h : Q fun _ => none) : Throughout Q (.init cfg) :=
  ⟨h, fun _ _ _ hv => by cases hv⟩

theorem rowed_init (cfg : AllocatorConfig) : Rowed (.init cfg) :=
  ⟨throughout_init fun _ _ h => (by cases h), ⟨rfl, .nil, .nil⟩⟩

theorem rowed_step (hP : ∀ m, P m → Keyed m.get?) {s s' : AllocatorState} (hs : Sound s) (h : Rowed s)
    (hstep : Step P s s') : Rowed s' := by
  have hkeyed : Throughout Keyed s' :=
    throughout_step hs h.keyed hstep (fun _ _ _ ha => h.keyed.live.allocate ha) (fun _ _ => keyed_erase h.keyed.live) hP
  refine ⟨hkeyed, ?_⟩
  cases hstep with
  | allocate r ident a ha =>
    obtain ⟨key, argument, alias_, -, -, -, hc, rfl⟩ := allocate_ok ha
    exact h.rows.store h.keyed.live (h.keyed.live.chosen hc)
  | release bufferId generation hr =>
    rcases release_ok hr with rfl | ⟨key, previous, hp, -, rfl⟩
    · exact h.rows
    · rw [(retire_edit key previous _).allocations]
      have hb : RowsFor s.allocations { beforeMutation key s with
        allocations := s.allocations.erase key, allocationOrder := s.allocationOrder.erase key } :=
        ⟨h.rows.keys, h.rows.perm, h.rows.sorted⟩
      exact hb.retire hp
  | beginTransaction => exact ⟨h.rows.keys, h.rows.perm, h.rows.sorted⟩
  | commitTransaction save => exact ⟨h.rows.keys, h.rows.perm, h.rows.sorted⟩
  | rollbackTransaction save hr =>
    rcases rollback_cases hr with ⟨d, -, rfl⟩ | ⟨peak, rfl⟩
    · have hd := hkeyed.live
      rw [(rebuildIndexes_edit d).allocations] at hd ⊢
      exact rowsFor_rebuild hd
    · exact ⟨h.rows.keys, h.rows.perm, h.rows.sorted⟩
  | restore m order hm ho =>
    have hd := hkeyed.live
    obtain ⟨d, -, -, he⟩ := (restored hs.journaled.ordered ho).rebuilt
    rw [he, (rebuildIndexes_edit d).allocations] at hd ⊢
    exact rowsFor_rebuild hd
  | forget save =>
    unfold forget
    split
    · exact h.rows
    · exact ⟨h.rows.keys, h.rows.perm, h.rows.sorted⟩

/-- Every map so far has disjoint in-range roots, and there is a gap list. -/
structure Disjoint (s : AllocatorState) : Prop where
  roots : Throughout (RootsOk s.config) s
  listed : s.freeExtents ≠ none

theorem disjoint_init (cfg : AllocatorConfig) : Disjoint (.init cfg) :=
  ⟨throughout_init (gapsFor_whole cfg).roots, by simp [AllocatorState.init]⟩

theorem disjoint_step {s s' : AllocatorState} (hP : ∀ m, P m → RootsOk s.config m.get?) (hs : Sound s)
    (h : Disjoint s) (hstep : Step P s s') : Disjoint s' := by
  have hc := (sound_step hs hstep).2.1
  have hroots : Throughout (RootsOk s.config) s' :=
    throughout_step hs h.roots hstep (fun _ _ _ ha => h.roots.live.allocate hs.index.gaps h.listed ha)
      (fun k _ => h.roots.live.update_none k) hP
  refine ⟨by rw [hc]; exact hroots, ?_⟩
  cases hstep with
  | allocate r ident a ha =>
    have hlive := hroots.live
    obtain ⟨key, argument, alias_, -, -, -, -, rfl⟩ := allocate_ok ha
    rw [get?_store] at hlive
    exact store_some hs.index h.listed hlive
  | release bufferId generation hr =>
    rcases release_ok hr with rfl | ⟨key, previous, -, -, rfl⟩
    · exact h.listed
    · show (removeAlias key previous (freeRoot previous _)).freeExtents ≠ none
      rw [(removeAlias_fields key previous _).1]
      exact freeRoot_some previous h.listed
  | beginTransaction => exact h.listed
  | commitTransaction save => exact h.listed
  | rollbackTransaction save hr =>
    rcases rollback_cases hr with ⟨d, hd, rfl⟩ | ⟨peak, rfl⟩
    · have hlive := hroots.live
      rw [(rebuildIndexes_edit d).allocations, ← hd] at hlive
      exact rebuild_some hlive
    · exact h.listed
  | restore m order hm ho =>
    obtain ⟨d, hd, hdm, he⟩ := (restored hs.journaled.ordered ho).rebuilt
    rw [he]
    refine rebuild_some ?_
    rw [hd, hdm]
    exact hP m hm
  | forget save =>
    unfold forget
    split <;> exact h.listed

/-- Every map so far has its roots in their arenas. -/
theorem arenas_step {s s' : AllocatorState} (hP : ∀ m, P m → ArenaOk s.config m.get?) (hs : Sound s) (hr : Rowed s)
    (hd : Disjoint s) (h : Throughout (ArenaOk s.config) s) (hstep : Step P s s') :
    Throughout (ArenaOk s'.config) s' := by
  rw [(sound_step hs hstep).2.1]
  refine throughout_step hs h hstep
    (fun _ _ _ ha => h.live.allocate hr.keyed.live hs.index.gaps hd.listed ha) (fun k _ j a hj => ?_) hP
  rw [Function.update_apply] at hj
  split at hj
  · cases hj
  · exact h.live j a hj

/-! ## The representation -/

/-- The five indexes say what the map says. -/
structure Represents (s : AllocatorState) : Prop where
  /-- Live roots lie in the capacity and in their arenas. -/
  inside : ∀ k a, s.allocations.get? k = some a → a.aliasOf = none →
    0 < a.sizeBytes ∧ 0 ≤ a.baseAddress ∧ a.endAddress ≤ s.config.capacityBytes ∧
      (arenaOf s.config a.generation a.allocationArena).1 ≤ a.baseAddress ∧
      a.endAddress ≤ (arenaOf s.config a.generation a.allocationArena).2
  /-- Live roots are pairwise disjoint. -/
  disjoint : ∀ j k a b, s.allocations.get? j = some a → s.allocations.get? k = some b → a.aliasOf = none →
    b.aliasOf = none → j ≠ k → a.endAddress ≤ b.baseAddress ∨ b.endAddress ≤ a.baseAddress
  /-- The gap list is sorted, no two gaps touch, and it holds the addresses
  no live root holds; the fit list is its gaps with an aligned address. -/
  gaps : ∃ gaps, s.freeExtents = some gaps ∧ Separated gaps ∧
    (∀ x, Holds gaps x ↔ (0 ≤ x ∧ x < s.config.capacityBytes) ∧ ¬Occupied s.allocations.get? x) ∧
    s.fitExtents.Sublist gaps ∧
    ∀ g ∈ gaps, g ∈ s.fitExtents ↔ ∃ x, g.lo ≤ x ∧ x < g.hi ∧ s.config.alignmentBytes ∣ x
  /-- The rows are the extents, in strictly increasing address order. -/
  rows : s.addressRows.Perm s.allocations.values ∧ s.addressKeys = s.addressRows.map (·.addressKey) ∧
    s.addressKeys.Pairwise (· < ·)
  /-- The alias index has each target's direct aliases, and no empty set. -/
  aliases : ∀ t, s.aliasesByTarget t = if aliasesOf s.allocations t = ∅ then none else some (aliasesOf s.allocations t)

/-- The states a run from the constructor reaches. -/
def Reachable (P : Dict Key PhysicalAllocation → Prop) (cfg : AllocatorConfig) (s : AllocatorState) : Prop :=
  Run P (.init cfg) s

theorem reachable_sound {cfg : AllocatorConfig} {s : AllocatorState} (h : Reachable P cfg s) :
    Sound s ∧ s.config = cfg := sound_run (sound_init cfg) h

theorem reachable_rowed (hP : ∀ m, P m → Keyed m.get?) {cfg : AllocatorConfig} {s : AllocatorState}
    (h : Reachable P cfg s) : Rowed s := by
  induction h with
  | refl => exact rowed_init cfg
  | tail hrun hstep ih => exact rowed_step hP (reachable_sound hrun).1 ih hstep

theorem reachable_disjoint {cfg : AllocatorConfig} (hP : ∀ m, P m → RootsOk cfg m.get?) {s : AllocatorState}
    (h : Reachable P cfg s) : Disjoint s := by
  induction h with
  | refl => exact disjoint_init cfg
  | tail hrun hstep ih =>
    obtain ⟨hs, hc⟩ := reachable_sound hrun
    exact disjoint_step (by rw [hc]; exact hP) hs ih hstep

theorem reachable_arenas {cfg : AllocatorConfig} (hk : ∀ m, P m → Keyed m.get?)
    (hd : ∀ m, P m → RootsOk cfg m.get?) (ha : ∀ m, P m → ArenaOk cfg m.get?) {s : AllocatorState}
    (h : Reachable P cfg s) : Throughout (ArenaOk s.config) s := by
  induction h with
  | refl => exact throughout_init fun _ _ h => by cases h
  | tail hrun hstep ih =>
    obtain ⟨hs, hc⟩ := reachable_sound hrun
    exact arenas_step (by rw [hc]; exact ha) hs (reachable_rowed hk hrun) (reachable_disjoint hd hrun) ih hstep

/-- **The representation invariant.** In every state that allocations,
releases and transactions reach from the constructor, the indexes say what
the map says. -/
theorem represents {cfg : AllocatorConfig} {s : AllocatorState} (h : Reachable (fun _ => False) cfg s) :
    Represents s := by
  have hs := (reachable_sound h).1
  have hr := reachable_rowed (fun _ hm => hm.elim) h
  have hd := reachable_disjoint (fun _ hm => hm.elim) h
  have ha := reachable_arenas (fun _ hm => hm.elim) (fun _ hm => hm.elim) (fun _ hm => hm.elim) h
  obtain ⟨gaps, hgaps⟩ := Option.ne_none_iff_exists'.1 hd.listed
  have hfor := hs.index.gaps gaps hgaps
  refine ⟨fun k a hk hroot => ?_, hd.roots.live.disjoint, ?_, ⟨hr.rows.perm, hr.rows.keys, hr.rows.sorted⟩, fun t => ?_⟩
  · obtain ⟨hsize, hlo, hhi⟩ := hd.roots.live.inside k a hk hroot
    exact ⟨hsize, hlo, hhi, ha.live k a hk hroot⟩
  · refine ⟨gaps, hgaps, hfor.ok.separated, hfor.holds, ?_, fun g hg => ?_⟩
    · rw [hfor.ok.index]
      exact List.filter_sublist
    · rw [hfor.ok.index, List.mem_filter, fitsAligned_iff]
      exact ⟨fun h => h.2, fun h => ⟨hg, h⟩⟩
  · rw [hs.index.aliases]; rfl

/-- A root by first fit, an unaligned root, growth of the first, an alias,
a release in a transaction, and its rollback. -/
theorem represents_run : ∃ s, Reachable (fun _ => False) ⟨256, 64, 0, by decide, by decide, by decide, by decide, by decide⟩ s ∧
    s.allocations.keys = [("kv", 0), ("act", 0), ("view", 0)] ∧ s.freeExtents = some [Gap.mk 48 100, Gap.mk 110 256] ∧
    Represents s := by
  have hr : Reachable (fun _ => False) ⟨256, 64, 0, by decide, by decide, by decide, by decide, by decide⟩ _ :=
    .tail (.tail (.tail (.tail (.tail (.tail (.tail .refl
      (.allocate { bufferId := "kv", sizeBytes := 32, inferred := true } 0 _ rfl))
      (.allocate { bufferId := "act", sizeBytes := 10, address := some 100 } 1 _ rfl))
      (.allocate { bufferId := "kv", sizeBytes := 48, inferred := true } 2 _ rfl))
      (.allocate { bufferId := "view", sizeBytes := 8, aliasOf := some "kv" } 3 _ rfl))
      (.beginTransaction _))
      (.release "act" 0 rfl))
      (.rollbackTransaction 0 rfl)
  exact ⟨_, hr, rfl, rfl, represents hr⟩

end HeteroSim.Allocator
