/-
Rolling back is exact for the map. Whatever runs between a begin and the
rollback of its save, nested, branched or repeated, the map, its order, the
ordinals, the peak and the alias index are what they were; so are the rows
and the gaps, except after a restored map that files an extent under
another key, or that has overlapping roots. The largest size is a bound
only.
-/
import HeteroSim.Allocator.Runs

namespace HeteroSim.Allocator

/-! ## The indexes follow from the map -/

theorem RowsFor.unique {d : Dict Key PhysicalAllocation} {s s' : AllocatorState} (h : RowsFor d s)
    (h' : RowsFor d s') : s'.addressKeys = s.addressKeys ∧ s'.addressRows = s.addressRows := by
  have hlt : ∀ {t : AllocatorState}, RowsFor d t → t.addressRows.Pairwise fun a b => a.addressKey < b.addressKey :=
    fun ht => List.pairwise_map.1 (ht.keys ▸ ht.sorted)
  have hrows : s'.addressRows = s.addressRows :=
    List.Perm.eq_of_pairwise (fun _ _ _ _ hab hba => absurd hab (lt_asymm hba)) (hlt h') (hlt h)
      (h'.perm.trans h.perm.symm)
  exact ⟨by rw [h.keys, h'.keys, hrows], hrows⟩

theorem Gapped.unique {f : Key → Option PhysicalAllocation} {s s' : AllocatorState} (h : Gapped f s)
    (h' : Gapped f s') (hc : s'.config = s.config) (hs : s.freeExtents ≠ none) (hs' : s'.freeExtents ≠ none) :
    s'.freeExtents = s.freeExtents ∧ s'.fitExtents = s.fitExtents := by
  obtain ⟨gaps, hgaps⟩ := Option.ne_none_iff_exists'.1 hs
  obtain ⟨gaps', hgaps'⟩ := Option.ne_none_iff_exists'.1 hs'
  have hfor := h gaps hgaps
  have hfor' := h' gaps' hgaps'
  have heq : gaps' = gaps := Separated.ext hfor'.ok.separated hfor.ok.separated fun x => by
    rw [hfor'.holds, hfor.holds, hc]
  refine ⟨by rw [hgaps, hgaps', heq], ?_⟩
  rw [hfor'.ok.index, hfor.ok.index, heq, hc]

/-! ## The largest size -/

/-- No live extent is larger. -/
def Bounded (s : AllocatorState) : Prop := ∀ k a, s.allocations.get? k = some a → a.sizeBytes ≤ s.largestAllocation

theorem freeRoot_largest (a : PhysicalAllocation) (s : AllocatorState) :
    (freeRoot a s).largestAllocation = s.largestAllocation := by
  unfold freeRoot freeExtent
  split
  · split <;> rfl
  · rfl

theorem occupyExtent_largest (a : PhysicalAllocation) (s : AllocatorState) :
    (occupyExtent a s).largestAllocation = s.largestAllocation := by
  unfold occupyExtent
  split
  · rfl
  · split
    · rfl
    · split
      · rfl
      · simp only
        split
        · rfl
        · split <;> rfl

theorem addAlias_largest (k : Key) (a : PhysicalAllocation) (s : AllocatorState) :
    (addAlias k a s).largestAllocation = s.largestAllocation := by
  unfold addAlias; split <;> rfl

theorem retire_largest (k : Key) (a : PhysicalAllocation) (s : AllocatorState) :
    (retire k a s).largestAllocation = s.largestAllocation := by
  have : (removeAlias k a (freeRoot a s)).largestAllocation = (freeRoot a s).largestAllocation := by
    unfold removeAlias; split <;> rfl
  exact this.trans (freeRoot_largest a s)

theorem reenter_largest : ∀ (items : List (Key × PhysicalAllocation)) (s : AllocatorState),
    (reenter items s).largestAllocation = s.largestAllocation
  | [], _ => rfl
  | (k, a) :: items, s =>
    (reenter_largest items _).trans ((addAlias_largest k a _).trans (occupyExtent_largest a s))

theorem enter_largest (k : Key) (a : PhysicalAllocation) (s : AllocatorState) :
    (enter k a s).largestAllocation = max s.largestAllocation a.sizeBytes :=
  (addAlias_largest k a _).trans (occupyExtent_largest a _)

theorem bounded_store {k : Key} {a : PhysicalAllocation} {s : AllocatorState} (h : Bounded s) :
    Bounded (storeAllocation k a s) := by
  have hmax : storeAllocation k a s = s ∨
      (storeAllocation k a s).largestAllocation = max s.largestAllocation a.sizeBytes := by
    unfold storeAllocation
    split
    · exact .inr (enter_largest k a _)
    · split
      · exact .inl rfl
      · right
        rw [enter_largest, retire_largest]
        rfl
  rcases hmax with hsame | hmax
  · rw [hsame]; exact h
  · intro j b hb
    rw [get?_store, Function.update_apply] at hb
    rw [hmax]
    split at hb
    · cases hb; exact le_max_right _ _
    · exact (h j b hb).trans (le_max_left _ _)

theorem bounded_rebuild (s : AllocatorState) : Bounded (rebuildIndexes s) := by
  intro k a hk
  rw [(rebuildIndexes_edit s).allocations] at hk
  have hlargest : (rebuildIndexes s).largestAllocation = (resetIndexes s).largestAllocation := reenter_largest _ _
  rw [hlargest]
  have hmem : a.sizeBytes ∈ (s.allocations.values.insertionSort fun a b => a.addressKey ≤ b.addressKey).map
      (·.sizeBytes) :=
    List.mem_map_of_mem ((List.mem_insertionSort _).2 (Dict.mem_values.2 ⟨k, hk⟩))
  show a.sizeBytes ≤ (List.max? ((s.allocations.values.insertionSort fun a b => a.addressKey ≤ b.addressKey).map
      (·.sizeBytes))).getD 0
  cases hm : List.max? ((s.allocations.values.insertionSort fun a b => a.addressKey ≤ b.addressKey).map
      (·.sizeBytes)) with
  | none => rw [List.max?_eq_none_iff] at hm; rw [hm] at hmem; cases hmem
  | some m => exact (List.max?_eq_some_iff.1 hm).2 _ hmem

theorem bounded_step {P : Dict Key PhysicalAllocation → Prop} {s s' : AllocatorState} (hs : Sound s) (h : Bounded s)
    (hstep : Step P s s') : Bounded s' := by
  cases hstep with
  | allocate r ident a ha =>
    obtain ⟨key, -, -, -, -, -, -, rfl⟩ := allocate_ok ha
    exact bounded_store h
  | release bufferId generation hr =>
    rcases release_ok hr with rfl | ⟨key, previous, -, -, rfl⟩
    · exact h
    · intro k a hk
      rw [(retire_edit key previous _).allocations, Dict.get?_erase] at hk
      rw [retire_largest]
      split at hk
      · cases hk
      · exact h k a hk
  | beginTransaction => exact h
  | commitTransaction save => exact h
  | rollbackTransaction save hr =>
    rcases rollback_cases hr with ⟨d, -, rfl⟩ | ⟨peak, rfl⟩
    · exact bounded_rebuild d
    · exact h
  | restore m order hm ho =>
    obtain ⟨d, -, -, he⟩ := (restored hs.journaled.ordered ho).rebuilt
    rw [he]
    exact bounded_rebuild d
  | forget save =>
    unfold forget
    split <;> exact h

theorem bounded_run {P : Dict Key PhysicalAllocation → Prop} {s s' : AllocatorState} (hs : Sound s) (h : Bounded s)
    (hrun : Run P s s') : Bounded s' := by
  induction hrun with
  | refl => exact h
  | tail hrun hstep ih => exact bounded_step (sound_run hs hrun).1 ih hstep

/-! ## The rollback -/

/-- **Rolling back is exact.** After any run from a begin, rolling back its
save restores the map and its order, the ordinals, the peak and the alias
index; the rows too when every restored map files each extent under its own
key, and the gaps when there is a list then and now, as there is when every
restored map has disjoint in-range roots. -/
theorem rollback_restores {P : Dict Key PhysicalAllocation → Prop} {cfg : AllocatorConfig} {s₀ s s' : AllocatorState}
    (h₀ : Reachable P cfg s₀) (hrun : Run P (beginTransaction s₀).2 s)
    (hback : rollbackTransaction (beginTransaction s₀).1 s = some s') :
    s'.allocations = s₀.allocations ∧ s'.allocationOrder.get? = s₀.allocationOrder.get? ∧
      s'.peakEndBytes = s₀.peakEndBytes ∧ s'.aliasesByTarget = s₀.aliasesByTarget ∧
      ((∀ m, P m → Keyed m.get?) → s'.addressKeys = s₀.addressKeys ∧ s'.addressRows = s₀.addressRows) ∧
      (s₀.freeExtents ≠ none → s'.freeExtents ≠ none →
        s'.freeExtents = s₀.freeExtents ∧ s'.fitExtents = s₀.fitExtents) ∧
      ((∀ m, P m → RootsOk cfg m.get?) → s₀.freeExtents ≠ none ∧ s'.freeExtents ≠ none) ∧
      ∀ k a, s'.allocations.get? k = some a → a.sizeBytes ≤ s'.largestAllocation := by
  obtain ⟨hs₀, -⟩ := reachable_sound h₀
  have hbegin : Step P s₀ (beginTransaction s₀).2 := .beginTransaction s₀
  have hall : Reachable P cfg s := (Relation.ReflTransGen.tail h₀ hbegin).trans hrun
  obtain ⟨hs, hc⟩ := reachable_sound hall
  have hend : Step P s s' := .rollbackTransaction _ hback
  have hall' : Reachable P cfg s' := Relation.ReflTransGen.tail hall hend
  obtain ⟨hs', hc'⟩ := reachable_sound hall'
  obtain ⟨t, ht⟩ := rollback_retained hback
  have hspec := rollback_spec hs.journaled ht hback
  -- the save still leads back to the map of its begin
  have hrecall : Recalls s₀.nextSave (s₀.peakEndBytes, imageAt s₀) s := by
    refine recalls_run (sound_step hs₀ hbegin).1 ⟨Nat.lt_succ_self _, fun W hW => ?_⟩ hrun
    rw [view_begin, Function.update_self] at hW
    exact (Option.some.inj hW).symm
  have hview : (t.peak, viewOf t s) = (s₀.peakEndBytes, imageAt s₀) := hrecall.2 _ (by
    rw [view, show s.saves.get? s₀.nextSave = some t from ht]; rfl)
  obtain ⟨hpeak, hsame⟩ := Prod.mk.inj hview
  have himage : ∀ k, imageAt s' k = imageAt s₀ k := fun k => by rw [hspec.images k, hsame]
  have hmap : s'.allocations = s₀.allocations := hs₀.journaled.ordered.allocations_eq hspec.ordered himage
  refine ⟨hmap, funext fun k => (Prod.mk.inj (himage k)).2, hspec.peak.trans hpeak, ?_, fun hP => ?_, fun hf hf' => ?_,
    fun hP => ⟨(reachable_disjoint hP h₀).listed, (reachable_disjoint hP hall').listed⟩, ?_⟩
  · rw [hs'.index.aliases, hs₀.index.aliases, hmap]
  · have hrows' := (reachable_rowed hP hall').rows
    rw [hmap] at hrows'
    exact (reachable_rowed hP h₀).rows.unique hrows'
  · have hgaps' := hs'.index.gaps
    rw [hmap] at hgaps'
    exact hs₀.index.gaps.unique hgaps' (by rw [hc', (reachable_sound h₀).2]) hf hf'
  · exact bounded_run (sound_init cfg) (fun k a hk => by cases hk) hall'

/-- A release inside an inner, committed transaction, and an allocation after
it, rolled back by the outer save. -/
theorem rollback_restores_nested : ∃ s₀ s' : AllocatorState, s₀.allocations.keys = [("kv", 0)] ∧
    s'.allocations = s₀.allocations ∧ s'.freeExtents = s₀.freeExtents := by
  have h₀ : Reachable (fun _ => False) ⟨256, 64, 0, by decide, by decide, by decide, by decide, by decide⟩ _ :=
    .tail .refl (.allocate { bufferId := "kv", sizeBytes := 32 } 0 _ rfl)
  obtain ⟨hmap, -, -, -, -, hgaps, hlisted, -⟩ := rollback_restores h₀
    (.tail (.tail (.tail (.tail .refl (.beginTransaction _)) (.release "kv" 0 rfl)) (.commitTransaction _ 1))
      (.allocate { bufferId := "act", sizeBytes := 100 } 1 _ rfl)) rfl
  have hsome := hlisted fun _ hm => hm.elim
  exact ⟨_, _, rfl, hmap, (hgaps hsome.1 hsome.2).1⟩

/-- An alias named "z" filed under another key, where "z" itself may go. -/
def misfiled : Dict Key PhysicalAllocation :=
  ⟨[(("a", 0), ⟨0, "z", 0, 8, 0, some "t", some 0, 0, false, some .resident⟩)], by decide⟩

/-- Two roots on one range. -/
def overlapping : Dict Key PhysicalAllocation :=
  ⟨[(("x", 0), ⟨0, "x", 0, 64, 0, none, none, 0, false, none⟩),
    (("y", 0), ⟨1, "y", 0, 64, 0, none, none, 0, false, none⟩)], by decide⟩

/-- A rollback does not restore every index: the largest size is recomputed,
a gap list comes back that overlapping roots had ended, and rows with one
address key are put in the order of the map. -/
theorem rollback_rebuilds :
    (∃ s₀ s s', Reachable (fun _ => False) ⟨256, 64, 0, by decide, by decide, by decide, by decide, by decide⟩ s₀ ∧
      Run (fun _ => False) (beginTransaction s₀).2 s ∧ rollbackTransaction (beginTransaction s₀).1 s = some s' ∧
      s'.largestAllocation ≠ s₀.largestAllocation) ∧
    (∃ s₀ s s', Reachable (· = overlapping) ⟨256, 64, 0, by decide, by decide, by decide, by decide, by decide⟩ s₀ ∧
      Run (· = overlapping) (beginTransaction s₀).2 s ∧ rollbackTransaction (beginTransaction s₀).1 s = some s' ∧
      s'.freeExtents ≠ s₀.freeExtents) ∧
    (∃ s₀ s s', Reachable (· = misfiled) ⟨256, 64, 0, by decide, by decide, by decide, by decide, by decide⟩ s₀ ∧
      Run (· = misfiled) (beginTransaction s₀).2 s ∧ rollbackTransaction (beginTransaction s₀).1 s = some s' ∧
      s'.addressRows ≠ s₀.addressRows) := by
  refine ⟨?_, ?_, ?_⟩
  · exact ⟨_, _, _, .tail (.tail (.tail .refl (.allocate { bufferId := "kv", sizeBytes := 128 } 0 _ rfl))
        (.allocate { bufferId := "act", sizeBytes := 64 } 1 _ rfl)) (.release "kv" 0 rfl),
      .tail .refl (.allocate { bufferId := "tmp", sizeBytes := 8 } 2 _ rfl), rfl, by decide⟩
  · exact ⟨_, _, _, .tail (.tail .refl (.restore _ overlapping [("x", 0), ("y", 0)] rfl ⟨by decide, by decide⟩))
        (.release "y" 0 rfl),
      .tail .refl (.allocate { bufferId := "tmp", sizeBytes := 8 } 2 _ rfl), rfl, by decide⟩
  · exact ⟨_, _, _, .tail (.tail .refl (.restore _ misfiled [("a", 0)] rfl ⟨by decide, by decide⟩))
        (.allocate { bufferId := "z", sizeBytes := 8, address := some 0 } 1 _ rfl),
      .tail .refl (.allocate { bufferId := "tmp", sizeBytes := 8 } 2 _ rfl), rfl, by decide⟩

end HeteroSim.Allocator
