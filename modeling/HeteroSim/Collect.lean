/-
Dictionaries made from lists: the pairs of a list put in one after the other,
as a comprehension or `dict` does, and a list of keys deleted.
-/
import HeteroSim.Dict

namespace HeteroSim.Dict

variable {κ ν : Type} [DecidableEq κ]

def collect (l : List (κ × ν)) : Dict κ ν := l.foldl (fun d p => d.insert p.1 p.2) empty

/-- Distinct keys keep their order. -/
theorem items_foldl_insert : ∀ (l : List (κ × ν)) (d : Dict κ ν), ((d.items ++ l).map Prod.fst).Nodup →
    (l.foldl (fun d p => d.insert p.1 p.2) d).items = d.items ++ l
  | [], d, _ => by rw [List.foldl_nil, List.append_nil]
  | (k, v) :: l, d, h => by
    have hnew : k ∉ d.keys := by
      intro hk
      rw [List.map_append, List.nodup_append] at h
      exact h.2.2 k hk k (by simp) rfl
    have hstep := items_foldl_insert l (d.insert k v) (by rw [items_insert_of_not_mem hnew]; simpa using h)
    rw [List.foldl_cons, hstep, items_insert_of_not_mem hnew, List.append_assoc]
    rfl

theorem items_collect {l : List (κ × ν)} (h : (l.map Prod.fst).Nodup) : (collect l).items = l :=
  items_foldl_insert l empty h

theorem mem_keys_foldl_insert {k : κ} : ∀ {l : List (κ × ν)} {d : Dict κ ν}, k ∈ d.keys →
    k ∈ (l.foldl (fun d p => d.insert p.1 p.2) d).keys
  | [], _, h => h
  | p :: l, d, h => by
    rw [List.foldl_cons]
    exact mem_keys_foldl_insert (mem_keys_insert.2 (.inr h))

theorem items_collect_eq_nil {l : List (κ × ν)} : (collect l).items = [] ↔ l = [] := by
  cases l with
  | nil => exact ⟨fun _ => rfl, fun _ => rfl⟩
  | cons p l =>
    refine ⟨fun hnil => ?_, fun h => (by cases h)⟩
    have hmem : p.1 ∈ (collect (p :: l)).keys := by
      rw [collect, List.foldl_cons]
      exact mem_keys_foldl_insert (mem_keys_insert.2 (.inl rfl))
    rw [keys, hnil] at hmem
    cases hmem

/-- Collecting a dictionary's own pairs gives it back. -/
theorem collect_items (d : Dict κ ν) : collect d.items = d := ext (items_collect d.nodup)

/-- The values of a dictionary, under keys that they name, collect to the dictionary. -/
theorem collect_values {d : Dict κ ν} {f : ν → κ} (h : ∀ p ∈ d.items, f p.2 = p.1) :
    collect (d.values.map fun v => (f v, v)) = d := by
  have hitems : (d.values.map fun v => (f v, v)) = d.items := by
    have hself : ∀ p ∈ d.items, ((fun v => (f v, v)) ∘ Prod.snd) p = id p := by
      intro p hp
      exact Prod.ext (h p hp) rfl
    rw [values, List.map_map, List.map_congr_left hself, List.map_id]
  rw [hitems, collect_items]

theorem get?_foldl_erase_of_not_mem {α : Type} {f : α → κ} {k : κ} : ∀ {l : List α} {d : Dict κ ν}, k ∉ l.map f →
    (l.foldl (fun d a => d.erase (f a)) d).get? k = d.get? k
  | [], _, _ => rfl
  | a :: l, d, h => by
    rw [List.map_cons, List.mem_cons, not_or] at h
    rw [List.foldl_cons, get?_foldl_erase_of_not_mem h.2, get?_erase_of_ne d h.1]

theorem get?_foldl_erase_of_mem {α : Type} {f : α → κ} {k : κ} : ∀ {l : List α} {d : Dict κ ν}, k ∈ l.map f →
    (l.foldl (fun d a => d.erase (f a)) d).get? k = none
  | a :: l, d, h => by
    rw [List.foldl_cons]
    by_cases hlater : k ∈ l.map f
    · exact get?_foldl_erase_of_mem hlater
    · rw [List.map_cons, List.mem_cons, or_iff_left hlater] at h
      rw [get?_foldl_erase_of_not_mem hlater, h, get?_erase_self]

/-- The pairs are those of the rest, and the key's own. -/
theorem items_perm {d : Dict κ ν} {k : κ} {v : ν} (h : d.get? k = some v) :
    d.items.Perm ((k, v) :: (d.erase k).items) := by
  obtain ⟨pre, post, hs, hpre, hpost⟩ := split h
  rw [items_erase_split hs hpre hpost, hs]
  exact List.perm_middle

theorem items_insert_perm (d : Dict κ ν) (k : κ) (v : ν) : (d.insert k v).items.Perm ((k, v) :: (d.erase k).items) := by
  have h := items_perm (get?_insert_self d k v)
  rwa [erase_insert] at h

/-- Assigning the present value changes nothing. -/
theorem insert_of_get? {d : Dict κ ν} {k : κ} {v : ν} (h : d.get? k = some v) : d.insert k v = d := by
  refine ext ?_
  rw [items_insert_of_mem (mem_keys_of_get? h)]
  conv_rhs => rw [← List.map_id d.items]
  refine List.map_congr_left fun p hp => ?_
  split
  · next hk =>
    subst hk
    have hv : d.get? p.1 = some p.2 := get?_eq_some.2 hp
    rw [h, Option.some.injEq] at hv
    rw [hv]
    rfl
  · rfl

end HeteroSim.Dict
