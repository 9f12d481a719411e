/-
Rollback restores the map. In any run, whatever is begun, committed, rolled
back, allocated, released or restored in between, rolling back a retained
save makes the map, its order, the ordinals and the peak what they were at
its begin; the derived indexes are rebuilt from the map.
-/
import HeteroSim.Allocator.Journal

namespace HeteroSim.Allocator

/-! ## The loop over the before-images -/

/-- What one entry does: nothing, or a removal, or a restored extent. -/
theorem restoreEntry_cases (changed existing : Bool) (s : AllocatorState) (k : Key) (im : Image) :
    (imageAt s k = im ∧ restoreEntry (changed, existing, s) (k, im) = (changed, existing, s)) ∨
    (im.1 = none ∧ restoreEntry (changed, existing, s) (k, im) = (true, existing || im.2.isSome,
      { beforeMutation k s with
        allocations := s.allocations.erase k, allocationOrder := s.allocationOrder.erase k })) ∨
    (∃ a, im.1 = some a ∧ restoreEntry (changed, existing, s) (k, im) = (true, true,
      { beforeMutation k s with
        allocations := s.allocations.insert k a
        allocationOrder := s.allocationOrder.insert k (im.2.getD 0) })) := by
  obtain ⟨previous, order⟩ := im
  by_cases h : s.allocations.get? k = previous ∧ s.allocationOrder.get? k = order
  · refine .inl ⟨Prod.ext h.1 h.2, ?_⟩
    simp only [restoreEntry, if_pos h]
  · cases previous with
    | none => exact .inr (.inl ⟨rfl, by simp only [restoreEntry, if_neg h]; rfl⟩)
    | some a => exact .inr (.inr ⟨a, rfl, by simp only [restoreEntry, if_neg h]; rfl⟩)

theorem restoreEntry_view (r : Bool × Bool × AllocatorState) (e : Key × Image) :
    view (restoreEntry r e).2.2 = view r.2.2 := by
  obtain ⟨changed, existing, s⟩ := r
  obtain ⟨k, im⟩ := e
  rcases restoreEntry_cases changed existing s k im with ⟨-, h⟩ | ⟨-, h⟩ | ⟨a, -, h⟩
  · rw [h]
  · rw [h]
    refine view_edit (k := k) rfl fun j hj => ?_
    simp only [imageAt, Dict.get?_erase_of_ne _ hj]
  · rw [h]
    refine view_edit (k := k) rfl fun j hj => ?_
    simp only [imageAt, Dict.get?_insert_of_ne _ _ hj]

/-- An entry sets its key's image and no other. -/
theorem restoreEntry_image (r : Bool × Bool × AllocatorState) (k : Key) (im : Image)
    (hd : im.2.isSome = im.1.isSome) (j : Key) :
    imageAt (restoreEntry r (k, im)).2.2 j = if j = k then im else imageAt r.2.2 j := by
  obtain ⟨changed, existing, s⟩ := r
  obtain ⟨previous, order⟩ := im
  rcases restoreEntry_cases changed existing s k (previous, order) with ⟨hi, h⟩ | ⟨hn, h⟩ | ⟨a, hs, h⟩
  · rw [h]
    split
    · next hj => subst hj; exact hi
    · rfl
  · obtain rfl : previous = none := hn
    obtain rfl : order = none := by cases order with
      | none => rfl
      | some n => simp at hd
    rw [h]
    simp only [imageAt, Dict.get?_erase]
    split <;> rfl
  · obtain rfl : previous = some a := hs
    obtain ⟨n, rfl⟩ : ∃ n, order = some n := Option.isSome_iff_exists.1 hd
    rw [h]
    simp only [imageAt, Dict.get?_insert, Option.getD_some]
    split <;> rfl

theorem foldl_restore_view : ∀ (es : List (Key × Image)) (r : Bool × Bool × AllocatorState),
    view (es.foldl restoreEntry r).2.2 = view r.2.2
  | [], _ => rfl
  | e :: es, r => (foldl_restore_view es (restoreEntry r e)).trans (restoreEntry_view r e)

/-- After the loop every key has the image of its entry, or its own. -/
theorem foldl_restore_image : ∀ (es : List (Key × Image)) (r : Bool × Bool × AllocatorState),
    (es.map Prod.fst).Nodup → (∀ e ∈ es, e.2.2.isSome = e.2.1.isSome) → ∀ j,
      imageAt (es.foldl restoreEntry r).2.2 j =
        ((es.find? fun e => e.1 = j).map Prod.snd).getD (imageAt r.2.2 j)
  | [], _, _, _, _ => rfl
  | (k, im) :: es, r, hn, hd, j => by
    rw [List.map_cons, List.nodup_cons] at hn
    rw [List.foldl_cons, foldl_restore_image es _ hn.2 (fun e he => hd e (by simp [he])),
      restoreEntry_image r k im (hd (k, im) (by simp)), List.find?_cons]
    by_cases hj : k = j
    · subst hj
      have hnone : es.find? (fun e => decide (e.1 = k)) = none := by
        simp only [List.find?_eq_none, decide_eq_true_eq]
        exact fun e he hk => hn.1 (List.mem_map.2 ⟨e, he, hk⟩)
      simp [hnone]
    · simp [hj, Ne.symm hj]

theorem restoreEntry_changed (r : Bool × Bool × AllocatorState) (e : Key × Image) (h : r.1 = true) :
    (restoreEntry r e).1 = true := by
  obtain ⟨changed, existing, s⟩ := r
  obtain ⟨k, im⟩ := e
  rcases restoreEntry_cases changed existing s k im with ⟨-, h'⟩ | ⟨-, h'⟩ | ⟨a, -, h'⟩
  · rw [h']; exact h
  · rw [h']
  · rw [h']

theorem foldl_restore_changed : ∀ (es : List (Key × Image)) (r : Bool × Bool × AllocatorState), r.1 = true →
    (es.foldl restoreEntry r).1 = true
  | [], _, h => h
  | e :: es, r, h => foldl_restore_changed es _ (restoreEntry_changed r e h)

/-- A loop that changes nothing leaves the state as it is. -/
theorem foldl_restore_unchanged : ∀ (es : List (Key × Image)) (r : Bool × Bool × AllocatorState),
    (es.foldl restoreEntry r).1 = false → (es.foldl restoreEntry r).2.2 = r.2.2
  | [], _, _ => rfl
  | (k, im) :: es, (changed, existing, s), h => by
    rw [List.foldl_cons] at h ⊢
    rcases restoreEntry_cases changed existing s k im with ⟨-, h'⟩ | ⟨-, h'⟩ | ⟨a, -, h'⟩
    · rw [h'] at h ⊢
      exact foldl_restore_unchanged es _ h
    · rw [h', foldl_restore_changed es _ rfl] at h; cases h
    · rw [h', foldl_restore_changed es _ rfl] at h; cases h

theorem restoreEntry_existing (r : Bool × Bool × AllocatorState) (e : Key × Image) (h : r.2.1 = true) :
    (restoreEntry r e).2.1 = true := by
  obtain ⟨changed, existing, s⟩ := r
  obtain ⟨k, im⟩ := e
  rcases restoreEntry_cases changed existing s k im with ⟨-, h'⟩ | ⟨-, h'⟩ | ⟨a, -, h'⟩
  · rw [h']; exact h
  · rw [h']
    simp only at h
    simp [h]
  · rw [h']

theorem foldl_restore_existing : ∀ (es : List (Key × Image)) (r : Bool × Bool × AllocatorState), r.2.1 = true →
    (es.foldl restoreEntry r).2.1 = true
  | [], _, h => h
  | e :: es, r, h => foldl_restore_existing es _ (restoreEntry_existing r e h)

/-- A loop that only removes keys leaves the rest in order: the fast path. -/
theorem foldl_restore_ordered : ∀ (es : List (Key × Image)) (r : Bool × Bool × AllocatorState),
    (es.foldl restoreEntry r).2.1 = false → Ordered r.2.2 → Ordered (es.foldl restoreEntry r).2.2
  | [], _, _, ho => ho
  | (k, im) :: es, (changed, existing, s), h, ho => by
    rw [List.foldl_cons] at h ⊢
    rcases restoreEntry_cases changed existing s k im with ⟨-, h'⟩ | ⟨-, h'⟩ | ⟨a, -, h'⟩
    · rw [h'] at h ⊢
      exact foldl_restore_ordered es _ h ho
    · refine foldl_restore_ordered es _ h ?_
      rw [h']
      exact ordered_erase (k := k) ho rfl rfl rfl
    · rw [h', foldl_restore_existing es _ rfl] at h; cases h

/-- The loop touches the map, the ordinals and the journals only. -/
structure MapEdit (s s' : AllocatorState) : Prop where
  config : s'.config = s.config
  nextOrder : s'.nextOrder = s.nextOrder
  native : s'.nativeAllocationKeys = s.nativeAllocationKeys
  peak : s'.peakEndBytes = s.peakEndBytes
  opened : s'.openSaves = s.openSaves
  nextSave : s'.nextSave = s.nextSave

theorem foldl_restore_rest : ∀ (es : List (Key × Image)) (r : Bool × Bool × AllocatorState),
    MapEdit r.2.2 (es.foldl restoreEntry r).2.2
  | [], _ => ⟨rfl, rfl, rfl, rfl, rfl, rfl⟩
  | (k, im) :: es, (changed, existing, s) => by
    have ih := foldl_restore_rest es (restoreEntry (changed, existing, s) (k, im))
    rw [List.foldl_cons]
    rcases restoreEntry_cases changed existing s k im with ⟨-, h⟩ | ⟨-, h⟩ | ⟨a, -, h⟩
    · rw [h] at ih ⊢; exact ih
    · rw [h] at ih ⊢; exact ⟨ih.config, ih.nextOrder, ih.native, ih.peak, ih.opened, ih.nextSave⟩
    · rw [h] at ih ⊢; exact ⟨ih.config, ih.nextOrder, ih.native, ih.peak, ih.opened, ih.nextSave⟩

/-! ## The sort and the rebuild -/

theorem get?_sortByOrdinal (s : AllocatorState) (k : Key) :
    (sortByOrdinal s).allocations.get? k = s.allocations.get? k := by
  refine Option.ext fun a => ?_
  rw [Dict.get?_eq_some, Dict.get?_eq_some]
  exact List.mem_insertionSort _

theorem mem_keys_sortByOrdinal (s : AllocatorState) (k : Key) :
    k ∈ (sortByOrdinal s).allocations.keys ↔ k ∈ s.allocations.keys := by
  rw [Dict.mem_keys, Dict.mem_keys]
  simp only [get?_sortByOrdinal]

/-- Images with distinct ordinals sort into order. -/
theorem ordered_sort {s : AllocatorState} (hi : ImageOk (imageAt s))
    (hb : ∀ k n, s.allocationOrder.get? k = some n → n < s.nextOrder) : Ordered (sortByOrdinal s) := by
  have hdom : ∀ k, k ∈ s.allocationOrder.keys ↔ k ∈ s.allocations.keys := fun k => by
    rw [← Dict.contains_iff, ← Dict.contains_iff, Dict.contains, Dict.contains]
    exact Bool.eq_iff_iff.1 (hi.dom k)
  refine ⟨fun k => (hdom k).trans (mem_keys_sortByOrdinal s k).symm, ?_, hb⟩
  have hle : (sortByOrdinal s).allocations.items.Pairwise fun p q => ordinal s p.1 ≤ ordinal s q.1 := by
    have htotal : Std.Total fun p q : Key × PhysicalAllocation => ordinal s p.1 ≤ ordinal s q.1 :=
      ⟨fun p q => Nat.le_total _ _⟩
    have htrans : IsTrans (Key × PhysicalAllocation) fun p q => ordinal s p.1 ≤ ordinal s q.1 :=
      ⟨fun _ _ _ => Nat.le_trans⟩
    exact List.pairwise_insertionSort _ s.allocations.items
  have hkeys : (sortByOrdinal s).allocations.keys.Pairwise fun j k => ordinal s j ≤ ordinal s k :=
    List.pairwise_map.2 hle
  refine (hkeys.and (sortByOrdinal s).allocations.keys_nodup).imp_of_mem fun {j k} hj hk hjk => ?_
  refine lt_of_le_of_ne hjk.1 fun he => hjk.2 ?_
  obtain ⟨m, hm⟩ := Dict.mem_keys.1 ((hdom j).2 ((mem_keys_sortByOrdinal s j).1 hj))
  obtain ⟨n, hn⟩ := Dict.mem_keys.1 ((hdom k).2 ((mem_keys_sortByOrdinal s k).1 hk))
  have hmn : m = n := by
    have : ordinal s j = ordinal s k := he
    simpa only [ordinal, hm, hn, Option.getD_some] using this
  exact hi.inj j k n (hmn ▸ hm) hn

theorem le_foldl_succ : ∀ (l : List Nat) (n : Nat), n ≤ l.foldl (fun n o => max n (o + 1)) n ∧
    ∀ o ∈ l, o < l.foldl (fun n o => max n (o + 1)) n
  | [], n => ⟨le_rfl, by simp⟩
  | o :: l, n => by
    obtain ⟨h1, h2⟩ := le_foldl_succ l (max n (o + 1))
    simp only [List.foldl_cons, List.mem_cons, forall_eq_or_imp]
    exact ⟨(le_max_left _ _).trans h1, (Nat.lt_succ_self o).trans_le ((le_max_right _ _).trans h1), h2⟩

/-- The reordered map has the same images, in the order of the ordinals. -/
theorem reorder_spec {existing : Bool} {s : AllocatorState} (hi : ImageOk (imageAt s))
    (ho : existing = false → Ordered s) : Ordered (reorder existing s) ∧ imageAt (reorder existing s) = imageAt s ∧
      (reorder existing s).saves = s.saves ∧ (reorder existing s).peakEndBytes = s.peakEndBytes ∧
      (reorder existing s).config = s.config ∧ (reorder existing s).nextSave = s.nextSave := by
  obtain ⟨-, hlt⟩ := le_foldl_succ s.allocationOrder.values s.nextOrder
  have hbound : ∀ k m, s.allocationOrder.get? k = some m →
      m < s.allocationOrder.values.foldl (fun n o => max n (o + 1)) s.nextOrder := fun k m hm =>
    hlt m (List.mem_map.2 ⟨(k, m), Dict.get?_eq_some.1 hm, rfl⟩)
  unfold reorder
  simp only
  split
  · refine ⟨ordered_sort hi hbound, funext fun k => ?_, rfl, rfl, rfl, rfl⟩
    simp only [imageAt, get?_sortByOrdinal]
    rfl
  · next hflag =>
    simp only [Bool.or_eq_true, not_or, Bool.not_eq_true] at hflag
    have hs := ho hflag.1
    exact ⟨⟨hs.dom, hs.sorted, hbound⟩, rfl, rfl, rfl, rfl, rfl⟩

/-! ## The journal invariant -/

/-- The map is in order and every retained save holds a proper image. -/
structure Journaled (s : AllocatorState) : Prop where
  ordered : Ordered s
  images : ∀ save p v, view s save = some (p, v) → ImageOk v

theorem Journaled.of_view {s s' : AllocatorState} (h : Journaled s) (hv : view s' = view s) (ho : Ordered s') :
    Journaled s' := ⟨ho, by rw [hv]; exact h.images⟩

/-- What a rollback leaves: the save's images and peak, the other views. -/
structure RolledBack (s : AllocatorState) (t : AllocationSave) (s' : AllocatorState) : Prop where
  images : ∀ k, imageAt s' k = viewOf t s k
  peak : s'.peakEndBytes = t.peak
  ordered : Ordered s'
  view : view s' = view s
  config : s'.config = s.config
  nextSave : s'.nextSave = s.nextSave

theorem rollback_spec {s s' : AllocatorState} {save : Nat} {t : AllocationSave} (hj : Journaled s)
    (ht : s.saves.get? save = some t) (h : rollbackTransaction save s = some s') : RolledBack s t s' := by
  simp only [rollbackTransaction, ht] at h
  have hok : ImageOk (viewOf t s) := hj.images save t.peak _ (by simp [view, ht])
  have hentry : ∀ e ∈ t.entries.items, e.2 = viewOf t s e.1 := fun e he => by
    rw [viewOf, Dict.get?_eq_some.2 he]; rfl
  have hdom : ∀ e ∈ t.entries.items, e.2.2.isSome = e.2.1.isSome := fun e he => by
    rw [hentry e he]; exact hok.dom e.1
  generalize hr : t.entries.items.foldl restoreEntry
    (false, false, { close save s with peakEndBytes := t.peak }) = r at h
  obtain ⟨changed, existing, d⟩ := r
  have hview : view d = view s := by
    have := foldl_restore_view t.entries.items (false, false, { close save s with peakEndBytes := t.peak })
    rw [hr] at this
    exact this
  have himage : imageAt d = viewOf t s := funext fun k => by
    have := foldl_restore_image t.entries.items (false, false, { close save s with peakEndBytes := t.peak })
      t.entries.nodup hdom k
    rw [hr] at this
    exact this
  have hrest : MapEdit { close save s with peakEndBytes := t.peak } d := by
    have := foldl_restore_rest t.entries.items (false, false, { close save s with peakEndBytes := t.peak })
    rw [hr] at this
    exact this
  cases changed with
  | false =>
    have hd := foldl_restore_unchanged t.entries.items (false, false, { close save s with peakEndBytes := t.peak })
    rw [hr] at hd
    obtain rfl : d = _ := hd rfl
    obtain rfl : _ = s' := by simpa using h
    exact ⟨fun k => congrFun himage k, rfl, ⟨hj.ordered.dom, hj.ordered.sorted, hj.ordered.bound⟩, hview, rfl, rfl⟩
  | true =>
    simp only [if_true, Option.some.injEq] at h
    have hfast : existing = false → Ordered d := fun he => by
      have := foldl_restore_ordered t.entries.items (false, false, { close save s with peakEndBytes := t.peak })
      rw [hr] at this
      exact this he ⟨hj.ordered.dom, hj.ordered.sorted, hj.ordered.bound⟩
    obtain ⟨ho, hi, hs, hp, hc, hn⟩ := reorder_spec (himage ▸ hok) hfast
    have hedit := rebuildIndexes_edit (reorder existing d)
    subst h
    refine ⟨fun k => ?_, ?_, hedit.ordered ho, ?_, ?_, ?_⟩
    · rw [hedit.image, hi, himage]
    · rw [hedit.peak, hp]; exact hrest.peak
    · rw [hedit.view, view_congr hs hi, hview]
    · rw [hedit.config, hc]; exact hrest.config
    · rw [hedit.nextSave, hn]; exact hrest.nextSave

end HeteroSim.Allocator
