/-
Insertion-ordered dictionaries: key–value pairs in the order the keys came,
each key once. `insert` replaces a present key where it stands and appends
an absent one, `erase` closes the gap; the order is part of the value.
-/
import Mathlib

namespace HeteroSim

/-- Pairs in insertion order, keys distinct. -/
structure Dict (κ ν : Type) where
  items : List (κ × ν)
  nodup : (items.map Prod.fst).Nodup
deriving DecidableEq

namespace Dict

variable {κ ν : Type}

theorem ext {d e : Dict κ ν} (h : d.items = e.items) : d = e := by
  cases d; cases e; simp only at h; subst h; rfl

def empty : Dict κ ν := ⟨[], by simp⟩

def keys (d : Dict κ ν) : List κ := d.items.map Prod.fst

def values (d : Dict κ ν) : List ν := d.items.map Prod.snd

theorem keys_nodup (d : Dict κ ν) : d.keys.Nodup := d.nodup

theorem mem_items_keys {d : Dict κ ν} {p : κ × ν} (h : p ∈ d.items) : p.1 ∈ d.keys :=
  List.mem_map_of_mem h

@[simp] theorem keys_empty : (empty : Dict κ ν).keys = [] := rfl
@[simp] theorem items_empty : (empty : Dict κ ν).items = [] := rfl

variable [DecidableEq κ]

/-- The value at a key. -/
def get? (d : Dict κ ν) (k : κ) : Option ν := (d.items.find? fun p => p.1 = k).map Prod.snd

def contains (d : Dict κ ν) (k : κ) : Bool := (d.get? k).isSome

theorem get?_eq_some {d : Dict κ ν} {k : κ} {v : ν} : d.get? k = some v ↔ (k, v) ∈ d.items := by
  obtain ⟨items, hn⟩ := d
  simp only [get?]
  induction items with
  | nil => simp
  | cons p l ih =>
    obtain ⟨k', v'⟩ := p
    simp only [List.map_cons, List.nodup_cons, List.mem_map, not_exists, not_and] at hn
    by_cases hk : k' = k
    · subst hk
      simp only [List.find?_cons, decide_true, Option.map_some, Option.some.injEq, List.mem_cons,
        Prod.mk.injEq, true_and]
      refine ⟨fun h => .inl h.symm, fun h => ?_⟩
      rcases h with h | h
      · exact h.symm
      · exact absurd rfl (hn.1 _ h)
    · have hk' : (k, v) ≠ (k', v') := fun h => hk (Prod.mk.inj h).1.symm
      simp only [List.find?_cons, hk, decide_false, List.mem_cons, hk', false_or]
      exact ih hn.2

theorem get?_eq_none {d : Dict κ ν} {k : κ} : d.get? k = none ↔ k ∉ d.keys := by
  simp only [get?, Option.map_eq_none_iff, List.find?_eq_none, decide_eq_true_eq, keys, List.mem_map,
    not_exists, not_and]

theorem mem_keys {d : Dict κ ν} {k : κ} : k ∈ d.keys ↔ ∃ v, d.get? k = some v := by
  rw [← Option.isSome_iff_exists, ← not_iff_not, ← get?_eq_none]
  simp

theorem contains_iff {d : Dict κ ν} {k : κ} : d.contains k = true ↔ k ∈ d.keys := by
  rw [contains, Option.isSome_iff_exists, mem_keys]

theorem mem_keys_of_get? {d : Dict κ ν} {k : κ} {v : ν} (h : d.get? k = some v) : k ∈ d.keys :=
  mem_keys.2 ⟨v, h⟩

@[simp] theorem get?_empty (k : κ) : (empty : Dict κ ν).get? k = none := rfl

/-- Assignment: in place for a present key, else at the end. -/
def insert (d : Dict κ ν) (k : κ) (v : ν) : Dict κ ν :=
  if h : k ∈ d.keys then
    ⟨d.items.map fun p => if p.1 = k then (k, v) else p, by
      have : (d.items.map fun p => if p.1 = k then (k, v) else p).map Prod.fst = d.items.map Prod.fst := by
        rw [List.map_map]
        refine List.map_congr_left fun p _ => ?_
        simp only [Function.comp]
        split
        · next hp => exact hp.symm
        · rfl
      rw [this]; exact d.nodup⟩
  else
    ⟨d.items ++ [(k, v)], by
      rw [List.map_append, List.nodup_append]
      refine ⟨d.nodup, by simp, ?_⟩
      rintro a ha b hb rfl
      simp only [List.map_cons, List.map_nil, List.mem_singleton] at hb
      subst hb
      exact h ha⟩

theorem items_insert_of_not_mem {d : Dict κ ν} {k : κ} {v : ν} (h : k ∉ d.keys) :
    (d.insert k v).items = d.items ++ [(k, v)] := by simp [insert, h]

theorem items_insert_of_mem {d : Dict κ ν} {k : κ} {v : ν} (h : k ∈ d.keys) :
    (d.insert k v).items = d.items.map fun p => if p.1 = k then (k, v) else p := by simp [insert, h]

theorem keys_insert_of_mem {d : Dict κ ν} {k : κ} {v : ν} (h : k ∈ d.keys) :
    (d.insert k v).keys = d.keys := by
  rw [keys, items_insert_of_mem h, List.map_map]
  refine List.map_congr_left fun p _ => ?_
  simp only [Function.comp]
  split
  · next hp => exact hp.symm
  · rfl

theorem keys_insert_of_not_mem {d : Dict κ ν} {k : κ} {v : ν} (h : k ∉ d.keys) :
    (d.insert k v).keys = d.keys ++ [k] := by
  rw [keys, items_insert_of_not_mem h, List.map_append]; rfl

@[simp] theorem mem_keys_insert {d : Dict κ ν} {k k' : κ} {v : ν} :
    k' ∈ (d.insert k v).keys ↔ k' = k ∨ k' ∈ d.keys := by
  by_cases h : k ∈ d.keys
  · rw [keys_insert_of_mem h]
    refine ⟨.inr, ?_⟩
    rintro (rfl | h')
    · exact h
    · exact h'
  · rw [keys_insert_of_not_mem h, List.mem_append, List.mem_singleton, or_comm]

theorem mem_items_insert {d : Dict κ ν} {k : κ} {v : ν} {p : κ × ν} :
    p ∈ (d.insert k v).items ↔ p = (k, v) ∨ p.1 ≠ k ∧ p ∈ d.items := by
  by_cases h : k ∈ d.keys
  · rw [items_insert_of_mem h, List.mem_map]
    constructor
    · rintro ⟨q, hq, rfl⟩
      by_cases hqk : q.1 = k
      · simp [hqk]
      · simp [hqk, hq]
    · rintro (rfl | ⟨hne, hp⟩)
      · obtain ⟨q, hq, hqk⟩ := List.mem_map.1 h
        exact ⟨q, hq, by simp [hqk]⟩
      · exact ⟨p, hp, by simp [hne]⟩
  · rw [items_insert_of_not_mem h, List.mem_append, List.mem_singleton, or_comm]
    refine or_congr_right ⟨fun hp => ⟨?_, hp⟩, fun hp => hp.2⟩
    rintro rfl
    exact h (mem_items_keys hp)

@[simp] theorem get?_insert_self (d : Dict κ ν) (k : κ) (v : ν) : (d.insert k v).get? k = some v :=
  get?_eq_some.2 (mem_items_insert.2 (.inl rfl))

theorem get?_insert_of_ne (d : Dict κ ν) {k k' : κ} (v : ν) (h : k' ≠ k) :
    (d.insert k v).get? k' = d.get? k' := by
  refine Option.ext fun w => ?_
  rw [get?_eq_some, get?_eq_some, mem_items_insert]
  simp [h]

theorem get?_insert (d : Dict κ ν) (k k' : κ) (v : ν) :
    (d.insert k v).get? k' = if k' = k then some v else d.get? k' := by
  split
  · next h => subst h; simp
  · next h => exact get?_insert_of_ne d v h

/-- Deletion; nothing happens at an absent key. -/
def erase (d : Dict κ ν) (k : κ) : Dict κ ν :=
  ⟨d.items.filter fun p => p.1 ≠ k, d.nodup.sublist (List.filter_sublist.map _)⟩

theorem mem_items_erase {d : Dict κ ν} {k : κ} {p : κ × ν} :
    p ∈ (d.erase k).items ↔ p ∈ d.items ∧ p.1 ≠ k := by simp [erase]

theorem keys_erase (d : Dict κ ν) (k : κ) : (d.erase k).keys = d.keys.filter (· ≠ k) := by
  simp only [keys, erase, List.filter_map]
  rfl

@[simp] theorem mem_keys_erase {d : Dict κ ν} {k k' : κ} :
    k' ∈ (d.erase k).keys ↔ k' ∈ d.keys ∧ k' ≠ k := by simp [keys_erase]

@[simp] theorem get?_erase_self (d : Dict κ ν) (k : κ) : (d.erase k).get? k = none := by
  rw [get?_eq_none]; simp

theorem get?_erase_of_ne (d : Dict κ ν) {k k' : κ} (h : k' ≠ k) : (d.erase k).get? k' = d.get? k' := by
  refine Option.ext fun w => ?_
  rw [get?_eq_some, get?_eq_some, mem_items_erase]
  simp [h]

theorem get?_erase (d : Dict κ ν) (k k' : κ) :
    (d.erase k).get? k' = if k' = k then none else d.get? k' := by
  split
  · next h => subst h; simp
  · next h => exact get?_erase_of_ne d h

theorem erase_of_not_mem {d : Dict κ ν} {k : κ} (h : k ∉ d.keys) : d.erase k = d := by
  refine ext (List.filter_eq_self.2 fun p hp => ?_)
  simp only [decide_eq_true_eq]
  rintro rfl
  exact h (mem_items_keys hp)

theorem get?_insert_eq (d : Dict κ ν) (k : κ) (v : ν) : (d.insert k v).get? = Function.update d.get? k (some v) :=
  funext fun j => by rw [get?_insert, Function.update_apply]

theorem get?_erase_eq (d : Dict κ ν) (k : κ) : (d.erase k).get? = Function.update d.get? k none :=
  funext fun j => by rw [get?_erase, Function.update_apply]

/-- Every value changed in place. -/
def mapValues {ω : Type} (d : Dict κ ν) (f : ν → ω) : Dict κ ω :=
  ⟨d.items.map fun p => (p.1, f p.2), by rw [List.map_map]; exact d.nodup⟩

omit [DecidableEq κ] in
@[simp] theorem keys_mapValues {ω : Type} (d : Dict κ ν) (f : ν → ω) : (d.mapValues f).keys = d.keys := by
  rw [keys, keys, mapValues, List.map_map]
  rfl

@[simp] theorem get?_mapValues {ω : Type} (d : Dict κ ν) (f : ν → ω) (k : κ) :
    (d.mapValues f).get? k = (d.get? k).map f := by
  simp only [get?, mapValues, List.find?_map, Option.map_map]
  rfl

/-- `setdefault`: an absent key gets the value, a present one keeps its own. -/
def setDefault (d : Dict κ ν) (k : κ) (v : ν) : Dict κ ν := if k ∈ d.keys then d else d.insert k v

theorem get?_setDefault (d : Dict κ ν) (k k' : κ) (v : ν) :
    (d.setDefault k v).get? k' = if k' = k then some ((d.get? k).getD v) else d.get? k' := by
  unfold setDefault
  by_cases h : k ∈ d.keys
  · obtain ⟨w, hw⟩ := mem_keys.1 h
    simp only [h, if_true, hw, Option.getD_some]
    split
    · next hk => subst hk; exact hw
    · rfl
  · simp only [h, if_false, get?_insert, get?_eq_none.2 h, Option.getD_none]

/-- A key gets a value, or loses its own. -/
def put (d : Dict κ ν) (k : κ) : Option ν → Dict κ ν
  | none => d.erase k
  | some v => d.insert k v

theorem get?_put (d : Dict κ ν) (k : κ) (x : Option ν) : (d.put k x).get? = Function.update d.get? k x := by
  cases x with
  | none => exact get?_erase_eq d k
  | some v => exact get?_insert_eq d k v

/-- Putting back the values a journal kept: its own where it has any. -/
theorem get?_foldl_put : ∀ (images : List (κ × Option ν)) (d : Dict κ ν) (k : κ), (images.map Prod.fst).Nodup →
    (images.foldl (fun d p => d.put p.1 p.2) d).get? k =
      ((images.find? fun p => p.1 = k).map Prod.snd).getD (d.get? k)
  | [], _, _, _ => rfl
  | (j, x) :: images, d, k, hn => by
    rw [List.map_cons, List.nodup_cons] at hn
    rw [List.foldl_cons, get?_foldl_put images _ k hn.2, get?_put, List.find?_cons]
    by_cases hj : j = k
    · subst hj
      have hnone : images.find? (fun p => decide (p.1 = j)) = none := by
        simp only [List.find?_eq_none, decide_eq_true_eq]
        exact fun p hp he => hn.1 (List.mem_map.2 ⟨p, hp, he⟩)
      simp [hnone]
    · simp [hj, Function.update_of_ne (Ne.symm hj)]

/-- The keys of a kind, all deleted. -/
def eraseWhere (d : Dict κ ν) (c : κ → Bool) : Dict κ ν :=
  ⟨d.items.filter fun p => !c p.1, d.nodup.sublist (List.filter_sublist.map _)⟩

omit [DecidableEq κ] in
theorem mem_items_eraseWhere {d : Dict κ ν} {c : κ → Bool} {p : κ × ν} :
    p ∈ (d.eraseWhere c).items ↔ p ∈ d.items ∧ c p.1 = false := by simp [eraseWhere]

omit [DecidableEq κ] in
theorem mem_keys_eraseWhere {d : Dict κ ν} {c : κ → Bool} {k : κ} :
    k ∈ (d.eraseWhere c).keys ↔ k ∈ d.keys ∧ c k = false := by
  simp only [keys, List.mem_map, mem_items_eraseWhere]
  constructor
  · intro ⟨p, ⟨hp, hc⟩, hk⟩
    exact ⟨⟨p, hp, hk⟩, hk ▸ hc⟩
  · intro ⟨⟨p, hp, hk⟩, hc⟩
    exact ⟨p, ⟨hp, hk ▸ hc⟩, hk⟩

/-- `move_to_end`: a present key goes behind the others. -/
def moveToEnd (d : Dict κ ν) (k : κ) : Dict κ ν :=
  match d.get? k with
  | none => d
  | some v => (d.erase k).insert k v

theorem mem_keys_moveToEnd {d : Dict κ ν} {k k' : κ} : k' ∈ (d.moveToEnd k).keys ↔ k' ∈ d.keys := by
  unfold moveToEnd
  cases h : d.get? k with
  | none => rfl
  | some v =>
    have hk := mem_keys_of_get? h
    simp only [mem_keys_insert, mem_keys_erase]
    by_cases he : k' = k
    · simp [he, hk]
    · simp [he]

omit [DecidableEq κ] in
/-- `popitem(last=False)` while there are more than `limit` pairs. -/
def keepLast (d : Dict κ ν) (limit : ℕ) : Dict κ ν :=
  ⟨d.items.drop (d.items.length - limit), d.nodup.sublist ((List.drop_sublist _ _).map _)⟩

omit [DecidableEq κ] in
theorem mem_keys_of_keepLast {d : Dict κ ν} {limit : ℕ} {k : κ} (h : k ∈ (d.keepLast limit).keys) : k ∈ d.keys := by
  obtain ⟨p, hp, hk⟩ := List.mem_map.1 h
  exact List.mem_map.2 ⟨p, List.mem_of_mem_drop hp, hk⟩

/-- The keys with their places in the order, counted from `base`. -/
def places (d : Dict κ ν) (base : ℕ) : Dict κ ℕ :=
  ⟨d.keys.zip (List.range' base d.keys.length), by
    rw [List.map_fst_zip (by simp)]
    exact d.keys_nodup⟩

omit [DecidableEq κ] in
theorem keys_places (d : Dict κ ν) (base : ℕ) : (d.places base).keys = d.keys := by
  rw [keys, places, List.map_fst_zip (by simp)]

theorem get?_places {d : Dict κ ν} {base r : ℕ} {k : κ} (h : (d.places base).get? k = some r) :
    ∃ i v, r = base + i ∧ d.values[i]? = some v ∧ d.get? k = some v := by
  obtain ⟨i, hi⟩ := List.mem_iff_getElem?.1 (get?_eq_some.1 h)
  rw [places, List.getElem?_zip_eq_some] at hi
  obtain ⟨hk, hr⟩ := hi
  rw [List.getElem?_range' (List.getElem?_eq_some_iff.1 hk).1] at hr
  rw [keys, List.getElem?_map, Option.map_eq_some_iff] at hk
  obtain ⟨p, hp, rfl⟩ := hk
  refine ⟨i, p.2, ?_, ?_, get?_eq_some.2 (List.mem_of_getElem? hp)⟩
  · rw [Nat.one_mul] at hr
    exact (Option.some.inj hr).symm
  · rw [values, List.getElem?_map, hp]
    rfl

/-! ## A key's place in the order -/

/-- A present key splits the order; it occurs on neither side. -/
theorem split {d : Dict κ ν} {k : κ} {v : ν} (h : d.get? k = some v) :
    ∃ pre post, d.items = pre ++ (k, v) :: post ∧ k ∉ pre.map Prod.fst ∧ k ∉ post.map Prod.fst := by
  obtain ⟨pre, post, hs⟩ := List.append_of_mem (get?_eq_some.1 h)
  have hn := d.nodup
  rw [hs, List.map_append, List.map_cons, List.nodup_append, List.nodup_cons] at hn
  exact ⟨pre, post, hs, fun hp => hn.2.2 _ hp _ (by simp) rfl, hn.2.1.1⟩

theorem filter_ne_of_not_mem {l : List (κ × ν)} {k : κ} (h : k ∉ l.map Prod.fst) :
    l.filter (fun p => p.1 ≠ k) = l := by
  refine List.filter_eq_self.2 fun p hp => ?_
  simp only [decide_eq_true_eq]
  rintro rfl
  exact h (List.mem_map_of_mem hp)

theorem items_erase_split {d : Dict κ ν} {k : κ} {v : ν} {pre post : List (κ × ν)}
    (hs : d.items = pre ++ (k, v) :: post) (hpre : k ∉ pre.map Prod.fst) (hpost : k ∉ post.map Prod.fst) :
    (d.erase k).items = pre ++ post := by
  simp only [erase, hs, List.filter_append, List.filter_cons, ne_eq, not_true, decide_false,
    Bool.false_eq_true, if_false]
  have h1 := filter_ne_of_not_mem hpre
  have h2 := filter_ne_of_not_mem hpost
  simp only [ne_eq] at h1 h2
  rw [h1, h2]

theorem map_set_of_not_mem {l : List (κ × ν)} {k : κ} {v : ν} (h : k ∉ l.map Prod.fst) :
    l.map (fun p => if p.1 = k then (k, v) else p) = l := by
  conv_rhs => rw [← List.map_id l]
  refine List.map_congr_left fun p hp => ?_
  have : p.1 ≠ k := by rintro rfl; exact h (List.mem_map_of_mem hp)
  simp [this]

theorem items_insert_split {d : Dict κ ν} {k : κ} {v w : ν} {pre post : List (κ × ν)}
    (hs : d.items = pre ++ (k, v) :: post) (hpre : k ∉ pre.map Prod.fst) (hpost : k ∉ post.map Prod.fst) :
    (d.insert k w).items = pre ++ (k, w) :: post := by
  have hk : k ∈ d.keys := by rw [keys, hs]; simp
  rw [items_insert_of_mem hk, hs, List.map_append, List.map_cons, map_set_of_not_mem hpre,
    map_set_of_not_mem hpost]
  simp

theorem erase_insert (d : Dict κ ν) (k : κ) (v : ν) : (d.insert k v).erase k = d.erase k := by
  refine ext ?_
  by_cases hk : k ∈ d.keys
  · obtain ⟨w, hg⟩ := mem_keys.1 hk
    obtain ⟨pre, post, hs, hpre, hpost⟩ := split hg
    rw [items_erase_split hs hpre hpost, items_erase_split (items_insert_split hs hpre hpost) hpre hpost]
  · simp only [erase, items_insert_of_not_mem hk, List.filter_append]
    simp

/-- The values are those of the rest, and the key's own. -/
theorem values_perm {d : Dict κ ν} {k : κ} {v : ν} (h : d.get? k = some v) :
    d.values.Perm (v :: (d.erase k).values) := by
  obtain ⟨pre, post, hs, hpre, hpost⟩ := split h
  rw [values, values, items_erase_split hs hpre hpost, hs, List.map_append, List.map_append, List.map_cons]
  exact List.perm_middle

theorem values_perm_of_get? {d e : Dict κ ν} (h : ∀ k, d.get? k = e.get? k) : d.values.Perm e.values := by
  refine ((List.perm_ext_iff_of_nodup d.nodup.of_map e.nodup.of_map).2 fun p => ?_).map _
  rw [← get?_eq_some, ← get?_eq_some, h]

theorem mem_values {d : Dict κ ν} {v : ν} : v ∈ d.values ↔ ∃ k, d.get? k = some v := by
  simp only [values, List.mem_map, get?_eq_some]
  exact ⟨fun ⟨p, hp, he⟩ => ⟨p.1, he ▸ hp⟩, fun ⟨k, hk⟩ => ⟨(k, v), hk, rfl⟩⟩

/-- Dictionaries sorted by the same ordinals are equal when their look-ups are. -/
theorem ext_of_sorted {d e : Dict κ ν} {f : κ → Nat} (hd : d.keys.Pairwise fun j k => f j < f k)
    (he : e.keys.Pairwise fun j k => f j < f k) (h : ∀ k, d.get? k = e.get? k) : d = e := by
  have hperm : d.items.Perm e.items :=
    (List.perm_ext_iff_of_nodup d.nodup.of_map e.nodup.of_map).2 fun p => by
      rw [← get?_eq_some, ← get?_eq_some, h]
  have hitems : ∀ {c : Dict κ ν}, c.keys.Pairwise (fun j k => f j < f k) →
      c.items.Pairwise fun p q => f p.1 < f q.1 := fun hc => by
    rwa [keys, List.pairwise_map] at hc
  exact ext (hperm.eq_of_pairwise (fun _ _ _ _ hpq hqp => absurd hpq (lt_asymm hqp)) (hitems hd) (hitems he))

end Dict

end HeteroSim
