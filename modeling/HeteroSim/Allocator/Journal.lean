/-
What a retained save leads back to. The view of a save is its before-images
over the live map: an edit journals the key's image first, so it leaves
every view as it was, and a rollback makes the live map the view.
-/
import HeteroSim.Allocator.Allocate

namespace HeteroSim.Allocator

/-! ## Views -/

/-- What a key holds and its ordinal. -/
abbrev Image := Option PhysicalAllocation × Option Nat

def imageAt (s : AllocatorState) (k : Key) : Image := (s.allocations.get? k, s.allocationOrder.get? k)

def viewOf (t : AllocationSave) (s : AllocatorState) (k : Key) : Image := (t.entries.get? k).getD (imageAt s k)

/-- The peak and the map a save would restore, for a retained save. -/
def view (s : AllocatorState) (save : Nat) : Option (Int × (Key → Image)) :=
  (s.saves.get? save).map fun t => (t.peak, viewOf t s)

theorem view_congr {s s' : AllocatorState} (hs : s'.saves = s.saves) (hi : imageAt s' = imageAt s) :
    view s' = view s := by
  have hv : ∀ t, viewOf t s' = viewOf t s := fun t => funext fun k => by rw [viewOf, viewOf, hi]
  funext id
  simp only [view, hs, hv]

/-! ## Edits of the derived indexes -/

/-- Only the indexes derived from the map differ. -/
structure IndexEdit (s s' : AllocatorState) : Prop where
  config : s'.config = s.config
  allocations : s'.allocations = s.allocations
  order : s'.allocationOrder = s.allocationOrder
  nextOrder : s'.nextOrder = s.nextOrder
  native : s'.nativeAllocationKeys = s.nativeAllocationKeys
  peak : s'.peakEndBytes = s.peakEndBytes
  opened : s'.openSaves = s.openSaves
  saves : s'.saves = s.saves
  nextSave : s'.nextSave = s.nextSave

theorem IndexEdit.refl (s : AllocatorState) : IndexEdit s s := ⟨rfl, rfl, rfl, rfl, rfl, rfl, rfl, rfl, rfl⟩

theorem IndexEdit.trans {s s' s'' : AllocatorState} (h : IndexEdit s s') (h' : IndexEdit s' s'') : IndexEdit s s'' :=
  ⟨h'.config.trans h.config, h'.allocations.trans h.allocations, h'.order.trans h.order,
    h'.nextOrder.trans h.nextOrder, h'.native.trans h.native, h'.peak.trans h.peak, h'.opened.trans h.opened,
    h'.saves.trans h.saves, h'.nextSave.trans h.nextSave⟩

theorem IndexEdit.image {s s' : AllocatorState} (h : IndexEdit s s') : imageAt s' = imageAt s :=
  funext fun k => by simp only [imageAt, h.allocations, h.order]

theorem IndexEdit.view {s s' : AllocatorState} (h : IndexEdit s s') : view s' = view s :=
  view_congr h.saves h.image

theorem freeExtent_edit (base stop : Int) (s : AllocatorState) : IndexEdit s (freeExtent base stop s) := by
  unfold freeExtent
  split
  · exact .refl s
  · exact ⟨rfl, rfl, rfl, rfl, rfl, rfl, rfl, rfl, rfl⟩

theorem freeRoot_edit (a : PhysicalAllocation) (s : AllocatorState) : IndexEdit s (freeRoot a s) := by
  unfold freeRoot
  split
  · exact freeExtent_edit _ _ s
  · exact .refl s

theorem occupyExtent_edit (a : PhysicalAllocation) (s : AllocatorState) : IndexEdit s (occupyExtent a s) := by
  unfold occupyExtent
  split
  · exact .refl s
  · split
    · exact .refl s
    · split
      · exact ⟨rfl, rfl, rfl, rfl, rfl, rfl, rfl, rfl, rfl⟩
      · simp only
        split
        · exact ⟨rfl, rfl, rfl, rfl, rfl, rfl, rfl, rfl, rfl⟩
        · split <;> exact ⟨rfl, rfl, rfl, rfl, rfl, rfl, rfl, rfl, rfl⟩

theorem addAlias_edit (k : Key) (a : PhysicalAllocation) (s : AllocatorState) : IndexEdit s (addAlias k a s) := by
  unfold addAlias; split <;> exact ⟨rfl, rfl, rfl, rfl, rfl, rfl, rfl, rfl, rfl⟩

theorem removeAlias_edit (k : Key) (a : PhysicalAllocation) (s : AllocatorState) :
    IndexEdit s (removeAlias k a s) := by
  unfold removeAlias; split <;> exact ⟨rfl, rfl, rfl, rfl, rfl, rfl, rfl, rfl, rfl⟩

theorem dropRow_edit (a : PhysicalAllocation) (s : AllocatorState) : IndexEdit s (dropRow a s) :=
  ⟨rfl, rfl, rfl, rfl, rfl, rfl, rfl, rfl, rfl⟩

/-- What a replaced or released extent leaves of the indexes. -/
theorem retire_edit (k : Key) (a : PhysicalAllocation) (s : AllocatorState) :
    IndexEdit s (retire k a s) :=
  ((freeRoot_edit a s).trans (removeAlias_edit k a _)).trans (dropRow_edit a _)

theorem reenter_edit : ∀ (items : List (Key × PhysicalAllocation)) (s : AllocatorState), IndexEdit s (reenter items s)
  | [], s => .refl s
  | (k, a) :: items, s =>
    ((occupyExtent_edit a s).trans (addAlias_edit k a _)).trans (reenter_edit items _)

theorem rebuildIndexes_edit (s : AllocatorState) : IndexEdit s (rebuildIndexes s) := by
  refine IndexEdit.trans ?_ (reenter_edit _ _)
  exact ⟨rfl, rfl, rfl, rfl, rfl, rfl, rfl, rfl, rfl⟩

/-! ## Edits of the map -/

@[simp] theorem beforeMutation_saves (k : Key) (s : AllocatorState) (save : Nat) :
    (beforeMutation k s).saves.get? save =
      (s.saves.get? save).map fun t => { t with entries := t.entries.setDefault k (imageAt s k) } := by
  simp only [beforeMutation, Dict.get?_mapValues]
  rfl

/-- **An edit of one key, its image journaled first, leaves every view.** -/
theorem view_edit {s s' : AllocatorState} {k : Key} (hs : s'.saves = (beforeMutation k s).saves)
    (ho : ∀ j, j ≠ k → imageAt s' j = imageAt s j) : view s' = view s := by
  funext id
  simp only [view, hs, beforeMutation_saves, Option.map_map]
  cases s.saves.get? id with
  | none => rfl
  | some t =>
    simp only [Option.map_some, Function.comp, Option.some.injEq, Prod.mk.injEq, true_and]
    funext j
    simp only [viewOf, Dict.get?_setDefault]
    by_cases hj : j = k
    · subst hj; simp
    · simp only [hj, if_false, ho j hj]

/-- What entering does to the map and the ordinals. -/
structure Entered (k : Key) (a : PhysicalAllocation) (s s' : AllocatorState) : Prop where
  config : s'.config = s.config
  allocations : s'.allocations = s.allocations.insert k a
  order : s'.allocationOrder = s.allocationOrder.setDefault k s.nextOrder
  nextOrder : s'.nextOrder = if k ∈ s.allocationOrder.keys then s.nextOrder else s.nextOrder + 1
  native : s'.nativeAllocationKeys = s.nativeAllocationKeys
  opened : s'.openSaves = s.openSaves
  saves : s'.saves = s.saves
  nextSave : s'.nextSave = s.nextSave

theorem enter_entered (k : Key) (a : PhysicalAllocation) (s : AllocatorState) : Entered k a s (enter k a s) := by
  have h := (occupyExtent_edit a (assign k a (insertRow a s))).trans (addAlias_edit k a _)
  exact ⟨h.config, h.allocations, h.order, h.nextOrder, h.native, h.opened, h.saves, h.nextSave⟩

theorem IndexEdit.entered {s s' s'' : AllocatorState} {k : Key} {a : PhysicalAllocation} (h : IndexEdit s s')
    (he : Entered k a s' s'') : Entered k a s s'' :=
  ⟨he.config.trans h.config, h.allocations ▸ he.allocations, h.order ▸ h.nextOrder ▸ he.order,
    h.order ▸ h.nextOrder ▸ he.nextOrder, he.native.trans h.native, he.opened.trans h.opened,
    he.saves.trans h.saves, he.nextSave.trans h.nextSave⟩

/-- Storing is nothing, or the journaled entry of the extent. -/
theorem storeAllocation_cases (k : Key) (a : PhysicalAllocation) (s : AllocatorState) :
    (s.allocations.get? k = some a ∧ storeAllocation k a s = s) ∨
      Entered k a (beforeMutation k s) (storeAllocation k a s) := by
  unfold storeAllocation
  cases hp : s.allocations.get? k with
  | none => exact .inr (enter_entered k a _)
  | some previous =>
    by_cases he : previous = a
    · subst he; exact .inl ⟨rfl, if_pos rfl⟩
    · simp only [if_neg he]
      exact .inr ((retire_edit k previous _).entered (enter_entered k a _))

theorem Entered.image {s s' : AllocatorState} {k j : Key} {a : PhysicalAllocation} (h : Entered k a s s')
    (hj : j ≠ k) : imageAt s' j = imageAt s j := by
  simp only [imageAt, h.allocations, h.order, Dict.get?_insert_of_ne _ _ hj, Dict.get?_setDefault, hj, if_false]

theorem view_store (k : Key) (a : PhysicalAllocation) (s : AllocatorState) :
    view (storeAllocation k a s) = view s := by
  rcases storeAllocation_cases k a s with ⟨-, h⟩ | h
  · rw [h]
  · exact view_edit h.saves fun j hj => h.image hj

theorem view_release {k : Key} {a : PhysicalAllocation} {s : AllocatorState} :
    view (retire k a { beforeMutation k s with
      allocations := s.allocations.erase k, allocationOrder := s.allocationOrder.erase k }) = view s := by
  rw [(retire_edit k a _).view]
  refine view_edit (k := k) rfl fun j hj => ?_
  simp only [imageAt, Dict.get?_erase_of_ne _ hj]

/-! ## The order of the map -/

/-- The ordinal of a key; it is only read at live keys. -/
def ordinal (s : AllocatorState) (k : Key) : Nat := (s.allocationOrder.get? k).getD 0

/-- Live keys, and only they, have ordinals; the map is in their order. -/
structure Ordered (s : AllocatorState) : Prop where
  dom : ∀ k, k ∈ s.allocationOrder.keys ↔ k ∈ s.allocations.keys
  sorted : s.allocations.keys.Pairwise fun j k => ordinal s j < ordinal s k
  bound : ∀ k n, s.allocationOrder.get? k = some n → n < s.nextOrder

/-- An image a save may hold: ordinals with the keys, none shared. -/
structure ImageOk (v : Key → Image) : Prop where
  dom : ∀ k, (v k).2.isSome = (v k).1.isSome
  inj : ∀ j k n, (v j).2 = some n → (v k).2 = some n → j = k

theorem Ordered.ordinal_inj {s : AllocatorState} (h : Ordered s) {j k : Key} (hj : j ∈ s.allocations.keys)
    (hk : k ∈ s.allocations.keys) (he : ordinal s j = ordinal s k) : j = k := by
  by_contra hne
  rcases (List.pairwise_iff_getElem.1 h.sorted), List.mem_iff_getElem.1 hj, List.mem_iff_getElem.1 hk with
    ⟨hs, ⟨a, ha, rfl⟩, ⟨b, hb, rfl⟩⟩
  rcases lt_trichotomy a b with hab | rfl | hab
  · have := hs a b ha hb hab; omega
  · exact hne rfl
  · have := hs b a hb ha hab; omega

theorem Ordered.image {s : AllocatorState} (h : Ordered s) : ImageOk (imageAt s) := by
  have hmem : ∀ k, (s.allocationOrder.get? k).isSome = (s.allocations.get? k).isSome := fun k => by
    rw [Bool.eq_iff_iff, ← Dict.contains, ← Dict.contains, Dict.contains_iff, Dict.contains_iff]
    exact h.dom k
  refine ⟨hmem, fun j k n hj hk => ?_⟩
  have hlive : ∀ i, (imageAt s i).2 = some n → i ∈ s.allocations.keys := fun i hi =>
    (h.dom i).1 (Dict.mem_keys_of_get? hi)
  refine h.ordinal_inj (hlive j hj) (hlive k hk) ?_
  simp only [imageAt] at hj hk
  simp only [ordinal, hj, hk]

/-- Two ordered states with the same images have the same map, order included. -/
theorem Ordered.allocations_eq {s s' : AllocatorState} (h : Ordered s) (h' : Ordered s')
    (hi : ∀ k, imageAt s' k = imageAt s k) : s'.allocations = s.allocations := by
  have ho : ∀ k, ordinal s' k = ordinal s k := fun k => by
    simp only [ordinal, (Prod.mk.inj (hi k)).2]
  have hs' : s'.allocations.keys.Pairwise fun j k => ordinal s j < ordinal s k :=
    h'.sorted.imp fun {j k} hjk => by rwa [ho, ho] at hjk
  exact Dict.ext_of_sorted hs' h.sorted fun k => (Prod.mk.inj (hi k)).1

theorem IndexEdit.ordered {s s' : AllocatorState} (h : IndexEdit s s') (ho : Ordered s) : Ordered s' := by
  have hord : ∀ k, ordinal s' k = ordinal s k := fun k => by rw [ordinal, ordinal, h.order]
  refine ⟨fun k => ?_, ?_, fun k n hk => ?_⟩
  · rw [h.order, h.allocations]; exact ho.dom k
  · rw [h.allocations]
    exact ho.sorted.imp fun {j k} hjk => by rwa [hord, hord]
  · rw [h.nextOrder]
    rw [h.order] at hk
    exact ho.bound k n hk

theorem ordered_init (cfg : AllocatorConfig) : Ordered (.init cfg) :=
  ⟨fun _ => Iff.rfl, .nil, fun k n h => by cases h⟩

theorem ordered_beforeMutation {k : Key} {s : AllocatorState} (h : Ordered s) : Ordered (beforeMutation k s) :=
  ⟨h.dom, h.sorted, h.bound⟩

/-- A new key goes to the end with the next ordinal, a live one stays. -/
theorem Entered.ordered {k : Key} {a : PhysicalAllocation} {s s' : AllocatorState} (he : Entered k a s s')
    (h : Ordered s) : Ordered s' := by
  obtain ⟨-, ha, ho, hn, -, -, -, -⟩ := he
  by_cases hk : k ∈ s.allocations.keys
  · have hko := (h.dom k).2 hk
    have ho' : s'.allocationOrder = s.allocationOrder := by rw [ho, Dict.setDefault, if_pos hko]
    have hkeys : s'.allocations.keys = s.allocations.keys := by rw [ha, Dict.keys_insert_of_mem hk]
    rw [if_pos hko] at hn
    refine ⟨fun j => ?_, ?_, fun j n hj => ?_⟩
    · rw [ho', hkeys]; exact h.dom j
    · rw [hkeys]
      exact h.sorted.imp fun {i j} hij => by rwa [ordinal, ordinal, ho']
    · rw [hn]; rw [ho'] at hj; exact h.bound j n hj
  · have hko : k ∉ s.allocationOrder.keys := fun hm => hk ((h.dom k).1 hm)
    have ho' : s'.allocationOrder = s.allocationOrder.insert k s.nextOrder := by rw [ho, Dict.setDefault, if_neg hko]
    have hkeys : s'.allocations.keys = s.allocations.keys ++ [k] := by rw [ha, Dict.keys_insert_of_not_mem hk]
    rw [if_neg hko] at hn
    have hne : ∀ j ∈ s.allocations.keys, ordinal s' j = ordinal s j := fun j hj => by
      have : j ≠ k := fun he => hk (he ▸ hj)
      rw [ordinal, ordinal, ho', Dict.get?_insert_of_ne _ _ this]
    have hself : ordinal s' k = s.nextOrder := by rw [ordinal, ho', Dict.get?_insert_self]; rfl
    refine ⟨fun j => ?_, ?_, fun j n hj => ?_⟩
    · rw [ho', hkeys, Dict.mem_keys_insert, h.dom, List.mem_append, List.mem_singleton, or_comm]
    · rw [hkeys, List.pairwise_append]
      refine ⟨h.sorted.imp_of_mem fun {i j} hi hj hij => by rwa [hne i hi, hne j hj], by simp, fun j hj i hi => ?_⟩
      obtain rfl := List.mem_singleton.1 hi
      obtain ⟨n, hn'⟩ := Dict.mem_keys.1 ((h.dom j).2 hj)
      rw [hne j hj, hself, ordinal, hn']
      exact h.bound j n hn'
    · rw [hn]
      rw [ho', Dict.get?_insert] at hj
      split at hj
      · cases hj; omega
      · exact (h.bound j n hj).trans (Nat.lt_succ_self _)

theorem ordered_store {k : Key} {a : PhysicalAllocation} {s : AllocatorState} (h : Ordered s) :
    Ordered (storeAllocation k a s) := by
  rcases storeAllocation_cases k a s with ⟨-, hs⟩ | hs
  · rwa [hs]
  · exact hs.ordered (ordered_beforeMutation h)

/-- Removing a key leaves the rest in order. -/
theorem ordered_erase {k : Key} {s s' : AllocatorState} (h : Ordered s)
    (ha : s'.allocations = s.allocations.erase k) (ho : s'.allocationOrder = s.allocationOrder.erase k)
    (hn : s'.nextOrder = s.nextOrder) : Ordered s' := by
  refine ⟨fun j => ?_, ?_, fun j n hj => ?_⟩
  · rw [ha, ho, Dict.mem_keys_erase, Dict.mem_keys_erase, h.dom]
  · rw [ha, Dict.keys_erase]
    refine (h.sorted.sublist List.filter_sublist).imp_of_mem fun {i j} hi hj hij => ?_
    simp only [List.mem_filter, decide_eq_true_eq] at hi hj
    rwa [ordinal, ordinal, ho, Dict.get?_erase_of_ne _ hi.2, Dict.get?_erase_of_ne _ hj.2]
  · rw [hn]
    rw [ho, Dict.get?_erase] at hj
    split at hj
    · cases hj
    · exact h.bound j n hj

end HeteroSim.Allocator
