/-
Maps that share objects. A map holds references, and two maps may hold the
same one: a copy of a map is shallow or deep, and writing to an object is seen
through every map that holds it. A writer that only puts new objects in its
own map is seen by no other map; one that changes objects is not, once the
other maps have been given copies.
-/
import HeteroSim.Collect

namespace HeteroSim

namespace Dict

variable {κ ν ω : Type} [DecidableEq κ]

theorem mapValues_insert (d : Dict κ ν) (f : ν → ω) (k : κ) (v : ν) :
    (d.insert k v).mapValues f = (d.mapValues f).insert k (f v) := by
  apply ext
  show (d.insert k v).items.map (fun p => (p.1, f p.2)) = _
  by_cases h : k ∈ d.keys
  · rw [items_insert_of_mem h, items_insert_of_mem (by rwa [keys_mapValues]), mapValues, List.map_map, List.map_map]
    refine List.map_congr_left fun p _ => ?_
    simp only [Function.comp]
    split <;> rfl
  · rw [items_insert_of_not_mem h, items_insert_of_not_mem (by rwa [keys_mapValues]), List.map_append]
    rfl

theorem mapValues_congr {d : Dict κ ν} {f g : ν → ω} (h : ∀ k v, d.get? k = some v → f v = g v) :
    d.mapValues f = d.mapValues g := by
  apply ext
  exact List.map_congr_left fun p hp => by rw [h p.1 p.2 (get?_eq_some.2 hp)]

theorem places_inj {d : Dict κ ν} {base r : ℕ} {k k' : κ} (h : (d.places base).get? k = some r)
    (h' : (d.places base).get? k' = some r) : k = k' := by
  obtain ⟨i, hi⟩ := List.mem_iff_getElem?.1 (get?_eq_some.1 h)
  obtain ⟨j, hj⟩ := List.mem_iff_getElem?.1 (get?_eq_some.1 h')
  rw [places, List.getElem?_zip_eq_some] at hi hj
  have hr := hi.2
  have hr' := hj.2
  rw [List.getElem?_range' (List.getElem?_eq_some_iff.1 hi.1).1] at hr
  rw [List.getElem?_range' (List.getElem?_eq_some_iff.1 hj.1).1] at hr'
  obtain rfl : i = j := by
    have := Option.some.inj (hr.trans hr'.symm)
    omega
  exact Option.some.inj (hi.1.symm.trans hj.1)

omit [DecidableEq κ] in
/-- The values, read back at their places. -/
theorem mapValues_places (d : Dict κ ν) {base : ℕ} {f : ℕ → ν} (h : ∀ i v, d.values[i]? = some v → f (base + i) = v) :
    (d.places base).mapValues f = d := by
  apply ext
  apply List.ext_getElem?
  intro i
  show ((d.keys.zip (List.range' base d.keys.length)).map _)[i]? = d.items[i]?
  rw [List.getElem?_map]
  cases hi : d.items[i]? with
  | none =>
    have hlen : d.keys.length ≤ i := by
      rw [keys, List.length_map]
      exact List.getElem?_eq_none_iff.1 hi
    rw [List.getElem?_eq_none (by simp [hlen])]
    rfl
  | some p =>
    have hlt : i < d.keys.length := by
      rw [keys, List.length_map]
      exact (List.getElem?_eq_some_iff.1 hi).1
    have hz : (d.keys.zip (List.range' base d.keys.length))[i]? = some (p.1, base + i) := by
      rw [List.getElem?_zip_eq_some, List.getElem?_range' hlt, keys, List.getElem?_map, hi, Nat.one_mul]
      exact ⟨rfl, rfl⟩
    have hv : d.values[i]? = some p.2 := by
      rw [values, List.getElem?_map, hi]
      rfl
    rw [hz, Option.map_some, h i p.2 hv]

end Dict

/-- Objects, and maps of references to them, both by their places. -/
structure Store (κ α : Type) where
  objects : List α
  maps : List (Dict κ ℕ)

namespace Store

variable {κ α : Type} [DecidableEq κ] {s : Store κ α} {i j : ℕ} {k : κ}

def mapAt (s : Store κ α) (i : ℕ) : Dict κ ℕ := s.maps.getD i .empty

def objectAt [Inhabited α] (s : Store κ α) (r : ℕ) : α := s.objects.getD r default

/-- What is in the objects of a map. -/
def contents [Inhabited α] (s : Store κ α) (i : ℕ) : Dict κ α := (s.mapAt i).mapValues s.objectAt

/-- A new object, put in a map. -/
def assign (s : Store κ α) (i : ℕ) (k : κ) (a : α) : Store κ α where
  objects := s.objects ++ [a]
  maps := s.maps.set i ((s.mapAt i).insert k s.objects.length)

/-- An object, changed where it is. -/
def change [Inhabited α] (s : Store κ α) (r : ℕ) (f : α → α) : Store κ α :=
  { s with objects := s.objects.set r (f (s.objectAt r)) }

def delete (s : Store κ α) (i : ℕ) (k : κ) : Store κ α :=
  { s with maps := s.maps.set i ((s.mapAt i).erase k) }

/-- A new map of the same objects. -/
def copy (s : Store κ α) (i : ℕ) : Store κ α := { s with maps := s.maps ++ [s.mapAt i] }

/-- A new map of new objects. -/
def deepCopy [Inhabited α] (s : Store κ α) (i : ℕ) : Store κ α where
  objects := s.objects ++ (s.contents i).values
  maps := s.maps ++ [(s.contents i).places s.objects.length]

/-- A map gets a copy of an object, if it holds it there. -/
def own [Inhabited α] (s : Store κ α) (i : ℕ) (p : κ × ℕ) : Store κ α :=
  if (s.mapAt i).get? p.1 = some p.2 then s.assign i p.1 (s.objectAt p.2) else s

/-- A map gets copies of the objects it holds where the other does. -/
def unshare [Inhabited α] (s : Store κ α) (i j : ℕ) : Store κ α := (s.mapAt j).items.foldl (own · i) s

/-- References are to objects there are, and no object is under two keys. -/
structure Sound (s : Store κ α) : Prop where
  placed : ∀ i k r, (s.mapAt i).get? k = some r → r < s.objects.length
  keyed : ∀ i j k k' r, (s.mapAt i).get? k = some r → (s.mapAt j).get? k' = some r → k = k'

/-- No object is in both maps. -/
def Apart (s : Store κ α) (i j : ℕ) : Prop := ∀ k r, (s.mapAt i).get? k = some r → (s.mapAt j).get? k ≠ some r

theorem Apart.symm (h : s.Apart i j) : s.Apart j i := fun k r hj hi => h k r hi hj

/-! ## What a map holds -/

omit [DecidableEq κ] in
theorem mapAt_set (objects : List α) {maps : List (Dict κ ℕ)} {d : Dict κ ℕ} (hi : i < maps.length) (j : ℕ) :
    (Store.mk objects (maps.set i d)).mapAt j = if j = i then d else maps.getD j .empty := by
  simp only [mapAt, List.getD_eq_getElem?_getD]
  rw [List.getElem?_set]
  split
  · next h =>
    subst h
    simp
  · next h => rw [if_neg (Ne.symm h)]

omit [DecidableEq κ] in
theorem mapAt_append {objects : List α} {maps : List (Dict κ ℕ)} (d : Dict κ ℕ) (j : ℕ) :
    (Store.mk objects (maps ++ [d])).mapAt j = if j = maps.length then d else maps.getD j .empty := by
  simp only [mapAt, List.getD_eq_getElem?_getD]
  split
  · next h =>
    subst h
    simp
  · next h =>
    obtain hlt | hgt := Nat.lt_or_gt_of_ne h
    · rw [List.getElem?_append_left hlt]
    · rw [List.getElem?_eq_none (by simp; omega), List.getElem?_eq_none (by omega)]

theorem mapAt_assign (hi : i < s.maps.length) (k : κ) (a : α) (j : ℕ) :
    (s.assign i k a).mapAt j = if j = i then (s.mapAt i).insert k s.objects.length else s.mapAt j := mapAt_set _ hi j

theorem get?_assign (hi : i < s.maps.length) {a : α} {k' : κ} {r : ℕ} (h : ((s.assign i k a).mapAt j).get? k' = some r) :
    j = i ∧ k' = k ∧ r = s.objects.length ∨ (s.mapAt j).get? k' = some r := by
  rw [mapAt_assign hi] at h
  split at h
  · next hj =>
    rw [Dict.get?_insert] at h
    split at h
    · next hk => exact .inl ⟨hj, hk, (Option.some.inj h).symm⟩
    · exact .inr (hj ▸ h)
  · exact .inr h

theorem Sound.assign (h : s.Sound) (hi : i < s.maps.length) (k : κ) (a : α) : (s.assign i k a).Sound where
  placed := by
    intro j k' r hr
    show r < (s.objects ++ [a]).length
    rw [List.length_append, List.length_singleton]
    obtain ⟨-, -, rfl⟩ | hr := get?_assign hi hr
    · exact Nat.lt_succ_self _
    · exact Nat.lt_succ_of_lt (h.placed j k' r hr)
  keyed := by
    intro j j' k' k'' r hr hr'
    obtain ⟨-, rfl, rfl⟩ | hr := get?_assign hi hr
    · obtain ⟨-, rfl, -⟩ | hr' := get?_assign hi hr'
      · rfl
      · exact absurd (h.placed _ _ _ hr') (lt_irrefl _)
    · obtain ⟨-, -, rfl⟩ | hr' := get?_assign hi hr'
      · exact absurd (h.placed _ _ _ hr) (lt_irrefl _)
      · exact h.keyed j j' k' k'' r hr hr'

theorem Sound.apart_assign (h : s.Sound) (hi : i < s.maps.length) (k : κ) (a : α) {m n : ℕ} (hne : m ≠ n) (hmn : s.Apart m n) :
    (s.assign i k a).Apart m n := by
  intro k' r hm hn
  obtain ⟨rfl, -, rfl⟩ | hm := get?_assign hi hm
  · obtain ⟨rfl, -, -⟩ | hn := get?_assign hi hn
    · exact hne rfl
    · exact lt_irrefl _ (h.placed _ _ _ hn)
  · obtain ⟨-, -, rfl⟩ | hn := get?_assign hi hn
    · exact lt_irrefl _ (h.placed _ _ _ hm)
    · exact hmn k' r hm hn

theorem mapAt_delete (hi : i < s.maps.length) (k : κ) (j : ℕ) :
    (s.delete i k).mapAt j = if j = i then (s.mapAt i).erase k else s.mapAt j := mapAt_set _ hi j

theorem get?_delete (hi : i < s.maps.length) {k' : κ} {r : ℕ} (h : ((s.delete i k).mapAt j).get? k' = some r) :
    (s.mapAt j).get? k' = some r := by
  rw [mapAt_delete hi] at h
  split at h
  · next hj =>
    rw [Dict.get?_erase] at h
    split at h
    · cases h
    · exact hj ▸ h
  · exact h

theorem Sound.delete (h : s.Sound) (hi : i < s.maps.length) (k : κ) : (s.delete i k).Sound where
  placed := fun j k' r hr => h.placed j k' r (get?_delete hi hr)
  keyed := fun j j' k' k'' r hr hr' => h.keyed j j' k' k'' r (get?_delete hi hr) (get?_delete hi hr')

theorem Apart.delete (h : s.Apart i j) {n : ℕ} (hn : n < s.maps.length) (k : κ) : (s.delete n k).Apart i j :=
  fun k' r hi hj => h k' r (get?_delete hn hi) (get?_delete hn hj)

/-! ## What is in a map -/

variable [Inhabited α]

omit [DecidableEq κ] in
theorem objectAt_append {objects : List α} {maps maps' : List (Dict κ ℕ)} (more : List α) {r : ℕ} (h : r < objects.length) :
    (Store.mk (objects ++ more) maps').objectAt r = (Store.mk objects maps).objectAt r := by
  simp only [objectAt, List.getD_eq_getElem?_getD]
  rw [List.getElem?_append_left h]

omit [DecidableEq κ] in
theorem keys_contents (s : Store κ α) (i : ℕ) : (s.contents i).keys = (s.mapAt i).keys := Dict.keys_mapValues _ _

theorem contents_get? (s : Store κ α) (i : ℕ) (k : κ) : (s.contents i).get? k = ((s.mapAt i).get? k).map s.objectAt :=
  Dict.get?_mapValues _ _ _

/-- **A new object is seen through the map it was put in.** -/
theorem Sound.contents_assign (h : s.Sound) (hi : i < s.maps.length) (k : κ) (a : α) (j : ℕ) :
    (s.assign i k a).contents j = if j = i then (s.contents i).insert k a else s.contents j := by
  have hold : ∀ m, (s.mapAt m).mapValues (s.assign i k a).objectAt = s.contents m := fun m =>
    Dict.mapValues_congr fun k' r hr => objectAt_append [a] (h.placed m k' r hr)
  rw [contents, mapAt_assign hi]
  split
  · rw [Dict.mapValues_insert, hold]
    congr 1
    simp [objectAt, Store.assign]
  · exact hold j

omit [DecidableEq κ] in
theorem mapAt_change (r : ℕ) (f : α → α) (j : ℕ) : (s.change r f).mapAt j = s.mapAt j := rfl

theorem Sound.change (h : s.Sound) (r : ℕ) (f : α → α) : (s.change r f).Sound where
  placed := by
    intro j k r' hr
    show r' < (s.objects.set r _).length
    rw [List.length_set]
    exact h.placed j k r' hr
  keyed := h.keyed

/-- A map that does not hold the object does not see it change. -/
theorem contents_change_of_not_mem {r : ℕ} (f : α → α) (h : ∀ k, (s.mapAt j).get? k ≠ some r) :
    (s.change r f).contents j = s.contents j :=
  Dict.mapValues_congr fun k r' hr => by
    have hne : r ≠ r' := fun he => h k (he ▸ hr)
    simp [objectAt, Store.change, hne]

/-- **A map sees its object change.** -/
theorem Sound.contents_change (h : s.Sound) {r : ℕ} (f : α → α) (hr : (s.mapAt i).get? k = some r) :
    (s.change r f).contents i = (s.contents i).insert k (f (s.objectAt r)) := by
  have hlt := h.placed i k r hr
  have hmem : k ∈ (s.contents i).keys := by
    rw [contents, Dict.keys_mapValues]
    exact Dict.mem_keys_of_get? hr
  apply Dict.ext
  rw [Dict.items_insert_of_mem hmem, contents, contents, Dict.mapValues, Dict.mapValues, mapAt_change, List.map_map]
  refine List.map_congr_left fun p hp => ?_
  have hp := Dict.get?_eq_some.2 hp
  by_cases hk : p.1 = k
  · obtain rfl : p.2 = r := Option.some.inj (hp.symm.trans (hk ▸ hr))
    simp [Function.comp, hk, objectAt, Store.change, hlt]
  · have hne : r ≠ p.2 := fun he => hk (h.keyed i i p.1 k r (he ▸ hp) hr)
    simp [Function.comp, hk, objectAt, Store.change, hne]

theorem contents_delete (hi : i < s.maps.length) (k : κ) (j : ℕ) :
    (s.delete i k).contents j = if j = i then (s.contents i).erase k else s.contents j := by
  rw [contents, mapAt_delete hi]
  split
  · apply Dict.ext
    simp only [Dict.mapValues, Dict.erase, contents]
    rw [List.filter_map]
    rfl
  · rfl

/-! ## Copies -/

omit [DecidableEq κ] [Inhabited α] in
theorem mapAt_copy (s : Store κ α) (i j : ℕ) : (s.copy i).mapAt j = if j = s.maps.length then s.mapAt i else s.mapAt j :=
  mapAt_append _ j

omit [Inhabited α] in
theorem Sound.copy (h : s.Sound) (i : ℕ) : (s.copy i).Sound := by
  have hold : ∀ j, ∃ m, (s.copy i).mapAt j = s.mapAt m := fun j => by
    rw [mapAt_copy]
    split
    · exact ⟨i, rfl⟩
    · exact ⟨j, rfl⟩
  constructor
  · intro j k r hr
    obtain ⟨m, hm⟩ := hold j
    exact h.placed m k r (hm ▸ hr)
  · intro j j' k k' r hr hr'
    obtain ⟨m, hm⟩ := hold j
    obtain ⟨n, hn⟩ := hold j'
    exact h.keyed m n k k' r (hm ▸ hr) (hn ▸ hr')

omit [DecidableEq κ] in
theorem contents_copy (s : Store κ α) (i j : ℕ) :
    (s.copy i).contents j = if j = s.maps.length then s.contents i else s.contents j := by
  rw [contents, mapAt_copy]
  split <;> rfl

omit [Inhabited α] in
theorem apart_copy (i : ℕ) {m n : ℕ} (hm : m ≠ s.maps.length) (hn : n ≠ s.maps.length) (h : s.Apart m n) : (s.copy i).Apart m n := by
  intro k r hk hr
  rw [mapAt_copy, if_neg hm] at hk
  rw [mapAt_copy, if_neg hn] at hr
  exact h k r hk hr

omit [Inhabited α] in
/-- A shallow copy is apart from what its original is. -/
theorem apart_copy_new {n : ℕ} (hn : n ≠ s.maps.length) (h : s.Apart i n) : (s.copy i).Apart s.maps.length n := by
  intro k r hk hr
  rw [mapAt_copy, if_pos rfl] at hk
  rw [mapAt_copy, if_neg hn] at hr
  exact h k r hk hr

omit [DecidableEq κ] in
theorem mapAt_deepCopy (s : Store κ α) (i j : ℕ) :
    (s.deepCopy i).mapAt j = if j = s.maps.length then (s.contents i).places s.objects.length else s.mapAt j :=
  mapAt_append _ j

/-- What a deep copy holds is new. -/
theorem get?_deepCopy {r : ℕ} (h : ((s.deepCopy i).mapAt j).get? k = some r) :
    (j = s.maps.length ∧ s.objects.length ≤ r ∧ r < (s.deepCopy i).objects.length ∧
      ((s.contents i).places s.objects.length).get? k = some r) ∨ (s.mapAt j).get? k = some r := by
  rw [mapAt_deepCopy] at h
  split at h
  · next hj =>
    obtain ⟨n, a, rfl, hn, -⟩ := Dict.get?_places h
    refine .inl ⟨hj, Nat.le_add_right _ _, ?_, h⟩
    show _ < (s.objects ++ (s.contents i).values).length
    rw [List.length_append]
    exact Nat.add_lt_add_left (List.getElem?_eq_some_iff.1 hn).1 _
  · exact .inr h

theorem Sound.deepCopy (h : s.Sound) (i : ℕ) : (s.deepCopy i).Sound where
  placed := by
    intro j k r hr
    obtain ⟨-, -, hlt, -⟩ | hr := get?_deepCopy hr
    · exact hlt
    · show r < (s.objects ++ _).length
      rw [List.length_append]
      exact Nat.lt_add_right _ (h.placed j k r hr)
  keyed := by
    intro j j' k k' r hr hr'
    obtain ⟨-, hle, -, hp⟩ | hr := get?_deepCopy hr
    · obtain ⟨-, -, -, hp'⟩ | hr' := get?_deepCopy hr'
      · exact Dict.places_inj hp hp'
      · exact absurd (h.placed _ _ _ hr') (Nat.not_lt.2 hle)
    · obtain ⟨-, hle, -, -⟩ | hr' := get?_deepCopy hr'
      · exact absurd (h.placed _ _ _ hr) (Nat.not_lt.2 hle)
      · exact h.keyed j j' k k' r hr hr'

theorem Sound.contents_deepCopy (h : s.Sound) (i j : ℕ) :
    (s.deepCopy i).contents j = if j = s.maps.length then s.contents i else s.contents j := by
  rw [contents, mapAt_deepCopy]
  split
  · refine Dict.mapValues_places _ fun n v hv => ?_
    simp [objectAt, Store.deepCopy, List.getElem?_append_right, hv]
  · exact Dict.mapValues_congr fun k r hr => objectAt_append _ (h.placed j k r hr)

theorem apart_deepCopy (i : ℕ) {m n : ℕ} (hm : m ≠ s.maps.length) (hn : n ≠ s.maps.length) (h : s.Apart m n) :
    (s.deepCopy i).Apart m n := by
  intro k r hk hr
  rw [mapAt_deepCopy, if_neg hm] at hk
  rw [mapAt_deepCopy, if_neg hn] at hr
  exact h k r hk hr

/-- A deep copy holds no object of another map. -/
theorem Sound.apart_deepCopy_new (h : s.Sound) (i : ℕ) (hj : j ≠ s.maps.length) : (s.deepCopy i).Apart s.maps.length j := by
  intro k r hk hr
  obtain ⟨hj', -⟩ | hr := get?_deepCopy hr
  · exact hj hj'
  obtain ⟨-, hle, -⟩ | hk := get?_deepCopy hk
  · exact absurd (h.placed _ _ _ hr) (Nat.not_lt.2 hle)
  · rw [mapAt, List.getD_eq_default _ _ le_rfl] at hk
    cases hk

/-! ## Maps of their own objects -/

/-- The same maps with the same contents, no less apart. -/
structure Alike (s t : Store κ α) : Prop where
  sound : t.Sound
  length : t.maps.length = s.maps.length
  contents : ∀ m, t.contents m = s.contents m
  apart : ∀ m n, m ≠ n → s.Apart m n → t.Apart m n

theorem Alike.trans {t u : Store κ α} (h : Alike s t) (h' : Alike t u) : Alike s u where
  sound := h'.sound
  length := h'.length.trans h.length
  contents := fun m => (h'.contents m).trans (h.contents m)
  apart := fun m n hne hmn => h'.apart m n hne (h.apart m n hne hmn)

/-- New objects at most in one map. -/
structure Renewed (s t : Store κ α) (i : ℕ) : Prop extends Alike s t where
  grown : s.objects.length ≤ t.objects.length
  others : ∀ m, m ≠ i → t.mapAt m = s.mapAt m
  fresh : ∀ k r, (t.mapAt i).get? k = some r → (s.mapAt i).get? k = some r ∨ s.objects.length ≤ r

theorem Renewed.refl (h : s.Sound) (i : ℕ) : Renewed s s i :=
  ⟨⟨h, rfl, fun _ => rfl, fun _ _ _ => id⟩, le_rfl, fun _ _ => rfl, fun _ _ => .inl⟩

theorem Renewed.trans {t u : Store κ α} (h : Renewed s t i) (h' : Renewed t u i) : Renewed s u i where
  toAlike := h.toAlike.trans h'.toAlike
  grown := h.grown.trans h'.grown
  others := fun m hm => (h'.others m hm).trans (h.others m hm)
  fresh := by
    intro k r hr
    obtain hr | hr := h'.fresh k r hr
    · exact h.fresh k r hr
    · exact .inr (h.grown.trans hr)

theorem Sound.own (h : s.Sound) (hi : i < s.maps.length) (p : κ × ℕ) : Renewed s (s.own i p) i := by
  unfold Store.own
  split
  · next hp =>
    refine ⟨⟨h.assign hi _ _, List.length_set, fun m => ?_, fun m n hne => h.apart_assign hi _ _ hne⟩, ?_,
      fun m hm => by rw [mapAt_assign hi, if_neg hm], fun k r hr => ?_⟩
    · rw [h.contents_assign hi]
      split
      · next hm =>
        subst hm
        exact Dict.insert_of_get? (by rw [contents_get?, hp]; rfl)
      · rfl
    · show _ ≤ (s.objects ++ [_]).length
      simp
    · obtain ⟨-, -, rfl⟩ | hr := get?_assign hi hr
      · exact .inr le_rfl
      · exact .inl hr
  · exact .refl h i

theorem own_get? (hi : i < s.maps.length) {p : κ × ℕ} (hp : p.2 < s.objects.length) : ((s.own i p).mapAt i).get? p.1 ≠ some p.2 := by
  unfold own
  split
  · rw [mapAt_assign hi, if_pos rfl, Dict.get?_insert_self]
    exact fun he => hp.ne (Option.some.inj he).symm
  · next hne => exact hne

theorem Sound.owns (items : List (κ × ℕ)) (h : s.Sound) (hi : i < s.maps.length) :
    Renewed s (items.foldl (Store.own · i) s) i ∧
      ∀ p ∈ items, p.2 < s.objects.length → ((items.foldl (Store.own · i) s).mapAt i).get? p.1 ≠ some p.2 := by
  induction items generalizing s with
  | nil => exact ⟨.refl h i, fun p hp => (by cases hp)⟩
  | cons p items ih =>
    have hp := h.own hi p
    obtain ⟨hrest, hitems⟩ := ih hp.sound (hp.length ▸ hi)
    rw [List.foldl_cons]
    refine ⟨hp.trans hrest, fun q hq hlt => ?_⟩
    obtain rfl | hq := List.mem_cons.1 hq
    · intro he
      obtain he | he := hrest.fresh _ _ he
      · exact own_get? hi hlt he
      · exact absurd (hlt.trans_le (hp.grown.trans he)) (lt_irrefl _)
    · exact hitems q hq (hlt.trans_le hp.grown)

/-- **Copying the objects of the other map keeps what is in every map, and the
two hold no object in common.** -/
theorem Sound.unshare (h : s.Sound) (hi : i < s.maps.length) (hne : i ≠ j) :
    Renewed s (s.unshare i j) i ∧ (s.unshare i j).Apart i j := by
  obtain ⟨hrenewed, hitems⟩ := h.owns (s.mapAt j).items hi
  refine ⟨hrenewed, fun k r hk hr => ?_⟩
  have hr : (s.mapAt j).get? k = some r := hrenewed.others j hne.symm ▸ hr
  exact hitems (k, r) (Dict.get?_eq_some.1 hr) (h.placed j k r hr) hk

theorem Sound.unshareAll (l : List ℕ) (h : s.Sound) (hl : ∀ i ∈ l, i < s.maps.length ∧ j ≠ i) :
    Alike s (l.foldl (Store.unshare · · j) s) ∧ ∀ i ∈ l, (l.foldl (Store.unshare · · j) s).Apart j i := by
  induction l generalizing s with
  | nil => exact ⟨⟨h, rfl, fun _ => rfl, fun _ _ _ => id⟩, fun i hi => (by cases hi)⟩
  | cons i l ih =>
    obtain ⟨hi, hne⟩ := hl i List.mem_cons_self
    obtain ⟨hfirst, hapart⟩ := h.unshare hi hne.symm
    obtain ⟨hrest, hall⟩ := ih hfirst.sound fun n hn => hfirst.length ▸ hl n (List.mem_cons_of_mem i hn)
    rw [List.foldl_cons]
    refine ⟨hfirst.toAlike.trans hrest, fun n hn => ?_⟩
    obtain rfl | hn := List.mem_cons.1 hn
    · exact hrest.apart j n hne hapart.symm
    · exact hall n hn

end Store

end HeteroSim
