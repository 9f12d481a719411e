/-
Running totals over a finite partial map. A total is the sum of the entries'
weights; when one entry changes, the total moves by the difference of the
two weights, so a counter kept beside a map is checked one update at a time.
-/
import HeteroSim.Dict

namespace HeteroSim

variable {κ ν : Type} [DecidableEq κ]

/-- The weight of an optional entry. -/
def weight (w : ν → Int) (x : Option ν) : Int := x.elim 0 w

@[simp] theorem weight_none (w : ν → Int) : weight w none = 0 := rfl

@[simp] theorem weight_some (w : ν → Int) (a : ν) : weight w (some a) = w a := rfl

/-- The map is finite and its weights sum to `n`. -/
def Tally (w : ν → Int) (f : κ → Option ν) (n : Int) : Prop :=
  ∃ S : Finset κ, (∀ k, k ∉ S → f k = none) ∧ n = ∑ k ∈ S, weight w (f k)

omit [DecidableEq κ] in
theorem tally_none (w : ν → Int) : Tally w (fun _ : κ => none) 0 := ⟨∅, by simp, by simp⟩

/-- The support may be enlarged. -/
theorem Tally.on {w : ν → Int} {f : κ → Option ν} {n : Int} (h : Tally w f n) (T : Finset κ) :
    ∃ S : Finset κ, T ⊆ S ∧ (∀ k, k ∉ S → f k = none) ∧ n = ∑ k ∈ S, weight w (f k) := by
  obtain ⟨S, hS, hn⟩ := h
  refine ⟨S ∪ T, Finset.subset_union_right, fun k hk => hS k fun hm => hk (Finset.mem_union_left T hm), ?_⟩
  rw [hn]
  refine Finset.sum_subset Finset.subset_union_left fun k _ hk => ?_
  rw [hS k hk, weight_none]

theorem Tally.unique {w : ν → Int} {f : κ → Option ν} {n m : Int} (h : Tally w f n) (h' : Tally w f m) : n = m := by
  obtain ⟨S, hS, hn⟩ := h
  obtain ⟨T, hST, -, hm⟩ := h'.on S
  rw [hn, hm]
  refine Finset.sum_subset hST fun k _ hk => ?_
  rw [hS k hk, weight_none]

/-- **One entry changes: the total moves by the difference of the weights.** -/
theorem Tally.update {w : ν → Int} {f : κ → Option ν} {n : Int} (h : Tally w f n) (k : κ) (x : Option ν) :
    Tally w (Function.update f k x) (n - weight w (f k) + weight w x) := by
  obtain ⟨S, hk, hS, hn⟩ := h.on {k}
  have hkS : k ∈ S := hk (Finset.mem_singleton_self k)
  refine ⟨S, fun j hj => ?_, ?_⟩
  · have hne : j ≠ k := fun he => hj (he ▸ hkS)
    rw [Function.update_of_ne hne]
    exact hS j hj
  · rw [hn, ← Finset.add_sum_erase S _ hkS, ← Finset.add_sum_erase S _ hkS, Function.update_self]
    have hrest : ∑ j ∈ S.erase k, weight w (Function.update f k x j) = ∑ j ∈ S.erase k, weight w (f j) :=
      Finset.sum_congr rfl fun j hj => by rw [Function.update_of_ne (Finset.ne_of_mem_erase hj)]
    rw [hrest]
    omega

omit [DecidableEq κ] in
theorem Tally.nonneg {w : ν → Int} {f : κ → Option ν} {n : Int} (h : Tally w f n) (hw : ∀ k v, f k = some v → 0 ≤ w v) :
    0 ≤ n := by
  obtain ⟨S, -, rfl⟩ := h
  refine Finset.sum_nonneg fun k _ => ?_
  cases hk : f k with
  | none => exact le_rfl
  | some v => exact hw k v hk

/-- No entry weighs more than all of them. -/
theorem Tally.le {w : ν → Int} {f : κ → Option ν} {n : Int} (h : Tally w f n) (hw : ∀ k v, f k = some v → 0 ≤ w v) {k : κ} {v : ν}
    (hk : f k = some v) : w v ≤ n := by
  have hrest := (h.update k none).nonneg fun j u hj => by
    rw [Function.update_apply] at hj
    split at hj
    · cases hj
    · exact hw j u hj
  rw [hk, weight_some, weight_none] at hrest
  omega

/-- The total of a dictionary is the sum over its values. -/
theorem tally_dict (w : ν → Int) (d : Dict κ ν) : Tally w d.get? (d.values.map w).sum := by
  refine ⟨d.keys.toFinset, fun k hk => ?_, ?_⟩
  · rw [Dict.get?_eq_none]
    simpa using hk
  · rw [List.sum_toFinset _ d.keys_nodup, Dict.keys, Dict.values, List.map_map, List.map_map]
    refine congrArg List.sum (List.map_congr_left fun p hp => ?_)
    simp only [Function.comp, Dict.get?_eq_some.2 hp, weight_some]

end HeteroSim
