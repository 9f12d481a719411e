/-
The overlap index against the list of its updates (`_OverlapCompletionIndex`):
between declared endpoints a query answers what a scan over every earlier
update does, zero where none meets it.

An empty range at the first or the last endpoint is moved onto the segment
next to it, so there the index answers for that segment.
-/
import HeteroSim.Task.Execute

namespace HeteroSim.Task

/-! ## Byte ranges, empty ones too -/

/-- `_indices` -/
def rangeIndices (endpoints : List ℕ) (address byteCount : ℕ) : ℕ × ℕ :=
  (max 0 (min (segments endpoints - 1) (bisectLeft (before address) endpoints)),
    max 1 (min (segments endpoints) (bisectLeft (before (address + byteCount)) endpoints)))

namespace OverlapIndex

def updateRange (x : OverlapIndex) (address byteCount : ℕ) (completion : ℚ) : OverlapIndex :=
  let place := rangeIndices x.endpoints address byteCount
  let size := segments x.endpoints
  if place.1 < place.2 then { x with tree := RangeTree.store 0 true place.1 place.2 completion size 1 0 size x.tree }
  else x

def queryRange (x : OverlapIndex) (address byteCount : ℕ) : ℚ :=
  let place := rangeIndices x.endpoints address byteCount
  let size := segments x.endpoints
  if place.2 ≤ place.1 then 0 else RangeTree.largest 0 place.1 place.2 size 1 0 size x.tree

end OverlapIndex

/-! ## Calls -/

inductive IndexCall
  | update (address byteCount : ℕ) (completion : ℚ)
  | query (address byteCount : ℕ)

/-- What the queries answer, one after the other. -/
def OverlapIndex.answers : OverlapIndex → List IndexCall → List ℚ
  | _, [] => []
  | x, .update address byteCount completion :: calls => (x.updateRange address byteCount completion).answers calls
  | x, .query address byteCount :: calls => x.queryRange address byteCount :: x.answers calls

/-- An update as a scan would keep it. -/
structure Update where
  address : ℕ
  byteCount : ℕ
  completion : ℚ

/-- Half-open ranges that have a byte in common. -/
def Update.Intersects (u : Update) (address byteCount : ℕ) : Prop :=
  max u.address address < min (u.address + u.byteCount) (address + byteCount)

instance (u : Update) (address byteCount : ℕ) : Decidable (u.Intersects address byteCount) :=
  inferInstanceAs (Decidable (_ < _))

/-- The latest completion of the updates that the range intersects, or zero. -/
def latestOf (updates : List Update) (address byteCount : ℕ) : ℚ :=
  (updates.filter fun u => decide (u.Intersects address byteCount)).foldr (fun u latest => max u.completion latest) 0

/-- The answers of a scan over the updates so far. -/
def scanned : List Update → List IndexCall → List ℚ
  | _, [] => []
  | updates, .update address byteCount completion :: calls => scanned (⟨address, byteCount, completion⟩ :: updates) calls
  | updates, .query address byteCount :: calls => latestOf updates address byteCount :: scanned updates calls

theorem latestOf_le {updates : List Update} {address byteCount : ℕ} {c : ℚ} : latestOf updates address byteCount ≤ c ↔
    0 ≤ c ∧ ∀ u ∈ updates, u.Intersects address byteCount → u.completion ≤ c := by
  unfold latestOf
  induction updates with
  | nil => simp
  | cons u updates ih =>
    by_cases hu : u.Intersects address byteCount
    · rw [List.filter_cons, if_pos (decide_eq_true hu), List.foldr_cons, max_le_iff, ih, List.forall_mem_cons, imp_iff_right hu]
      exact and_left_comm
    · rw [List.filter_cons, if_neg (mt of_decide_eq_true hu), ih, List.forall_mem_cons]
      exact and_congr_right fun _ => (and_iff_right fun h => absurd h hu).symm

/-! ## Declared ranges -/

/-- Both bounds of the range were declared. -/
def Declared (endpoints : List ℕ) (address byteCount : ℕ) : Prop := address ∈ endpoints ∧ address + byteCount ∈ endpoints

instance (endpoints : List ℕ) (address byteCount : ℕ) : Decidable (Declared endpoints address byteCount) :=
  inferInstanceAs (Decidable (_ ∧ _))

/-- Declared, and empty only strictly between the first endpoint and the last. -/
structure Proper (endpoints : List ℕ) (address byteCount : ℕ) : Prop where
  declared : Declared endpoints address byteCount
  inner : byteCount = 0 → (∃ e ∈ endpoints, e < address) ∧ ∃ e ∈ endpoints, address < e

def IndexCall.On (P : ℕ → ℕ → Prop) : IndexCall → Prop
  | .update address byteCount _ => P address byteCount
  | .query address byteCount => P address byteCount

section

variable {endpoints : List ℕ} (sorted : endpoints.Pairwise (· < ·))

include sorted

theorem bisectLeft_lt_iff {a b : ℕ} (ha : a ∈ endpoints) (hb : b ∈ endpoints) :
    bisectLeft (before a) endpoints < bisectLeft (before b) endpoints ↔ a < b := by
  refine ⟨fun h => ?_, bisectLeft_lt sorted ha⟩
  by_contra hle
  rcases Nat.lt_or_eq_of_le (Nat.not_lt.1 hle) with hlt | rfl
  · have := bisectLeft_lt sorted hb hlt
    omega
  · omega

/-- The bounds stay inside the segments by themselves. -/
theorem Proper.indices {address byteCount : ℕ} (h : Proper endpoints address byteCount) :
    rangeIndices endpoints address byteCount =
      (bisectLeft (before address) endpoints, bisectLeft (before (address + byteCount)) endpoints) ∧
      bisectLeft (before (address + byteCount)) endpoints ≤ segments endpoints := by
  obtain ⟨⟨hstart, hstop⟩, hinner⟩ := h
  have hlen := bisectLeft_lt_length hstop
  unfold rangeIndices segments
  rcases Nat.eq_zero_or_pos byteCount with rfl | hpos
  · obtain ⟨⟨e, he, hlt⟩, f, hf, hlt'⟩ := hinner rfl
    have hbefore := bisectLeft_lt sorted he hlt
    have hafter := bisectLeft_lt sorted hstart hlt'
    have hlast := bisectLeft_lt_length hf
    rw [Nat.add_zero]
    exact ⟨Prod.ext (by dsimp only; omega) (by dsimp only; omega), by omega⟩
  · have hlt := bisectLeft_lt sorted hstart (Nat.lt_add_of_pos_right hpos)
    exact ⟨Prod.ext (by dsimp only; omega) (by dsimp only; omega), by omega⟩

/-- Proper ranges meet on the segments exactly where they have a byte in
common. -/
theorem Proper.meet {u : Update} {address byteCount : ℕ} (hu : Proper endpoints u.address u.byteCount)
    (h : Proper endpoints address byteCount) :
    u.Intersects address byteCount ↔
      max (rangeIndices endpoints u.address u.byteCount).1 (rangeIndices endpoints address byteCount).1 <
        min (rangeIndices endpoints u.address u.byteCount).2 (rangeIndices endpoints address byteCount).2 := by
  rw [(hu.indices sorted).1, (h.indices sorted).1]
  simp only [Update.Intersects, max_lt_iff, lt_min_iff]
  rw [bisectLeft_lt_iff sorted hu.declared.1 hu.declared.2, bisectLeft_lt_iff sorted hu.declared.1 h.declared.2,
    bisectLeft_lt_iff sorted h.declared.1 hu.declared.2, bisectLeft_lt_iff sorted h.declared.1 h.declared.2]

end

/-! ## What the index holds -/

/-- The segments an update is stored on, if there are any. -/
def Update.stored (endpoints : List ℕ) (u : Update) : Option (RangeTree.Stored ℚ) :=
  if h : (rangeIndices endpoints u.address u.byteCount).1 < (rangeIndices endpoints u.address u.byteCount).2 then
    some ⟨_, _, u.completion, h⟩
  else none

theorem Update.stored_eq_some {endpoints : List ℕ} {u : Update} {s : RangeTree.Stored ℚ} :
    u.stored endpoints = some s ↔ (rangeIndices endpoints u.address u.byteCount).1 = s.left ∧
      (rangeIndices endpoints u.address u.byteCount).2 = s.right ∧ u.completion = s.value := by
  obtain ⟨left, right, value, hlt⟩ := s
  unfold stored
  split
  · simp
  · next h =>
    refine ⟨fun hn => (Option.some_ne_none _ hn.symm).elim, ?_⟩
    rintro ⟨hl, hr, -⟩
    dsimp only at hl hr
    omega

namespace OverlapIndex

/-- The index holds the updates over its endpoints. -/
structure Holding (x : OverlapIndex) (endpoints : List ℕ) (updates : List Update) : Prop where
  endpoints_eq : x.endpoints = endpoints
  holds : x.tree.Holds 0 (segments endpoints) (updates.filterMap (Update.stored endpoints))

variable {x : OverlapIndex} {endpoints : List ℕ} {updates : List Update}

theorem holding_create (endpoints : List ℕ) : (create endpoints).Holding endpoints [] :=
  ⟨rfl, (RangeTree.blank_zeros 0).holds _⟩

theorem Holding.updateRange (h : x.Holding endpoints updates) (address byteCount : ℕ) (completion : ℚ) :
    (x.updateRange address byteCount completion).Holding endpoints (⟨address, byteCount, completion⟩ :: updates) := by
  obtain ⟨rfl, hholds⟩ := h
  unfold OverlapIndex.updateRange
  dsimp only
  split
  · next hlt =>
    have hstored : Update.stored x.endpoints ⟨address, byteCount, completion⟩ = some ⟨_, _, completion, hlt⟩ := dif_pos hlt
    refine ⟨rfl, ?_⟩
    rw [List.filterMap_cons_some hstored]
    exact hholds.store (by rw [segments]; omega) true _
  · next hge =>
    have hstored : Update.stored x.endpoints ⟨address, byteCount, completion⟩ = none := dif_neg hge
    refine ⟨rfl, ?_⟩
    rw [List.filterMap_cons_none hstored]
    exact hholds

/-- A proper query answers as the scan does. -/
theorem Holding.queryRange (h : x.Holding endpoints updates) (sorted : endpoints.Pairwise (· < ·))
    (hupdates : ∀ u ∈ updates, Proper endpoints u.address u.byteCount) {address byteCount : ℕ}
    (hq : Proper endpoints address byteCount) : x.queryRange address byteCount = latestOf updates address byteCount := by
  obtain ⟨rfl, hholds⟩ := h
  refine eq_of_forall_ge_iff fun c => ?_
  rw [latestOf_le]
  unfold OverlapIndex.queryRange
  dsimp only
  split
  · next hempty =>
    refine ⟨fun hc => ⟨hc, fun u hu hmeet => ?_⟩, fun hc => hc.1⟩
    -- nothing meets an empty range
    rw [(hupdates u hu).meet sorted hq] at hmeet
    omega
  · next hne =>
    have hright : (rangeIndices x.endpoints address byteCount).2 ≤ segments x.endpoints := by
      obtain ⟨hplace, hle⟩ := hq.indices sorted
      rw [hplace]
      exact hle
    rw [hholds.largest_le (Nat.not_le.1 hne) hright]
    refine and_congr_right fun _ => ⟨fun hall u hu hmeet => ?_, fun hall s hs hl hr => ?_⟩
    · rw [(hupdates u hu).meet sorted hq] at hmeet
      have hlt : (rangeIndices x.endpoints u.address u.byteCount).1 < (rangeIndices x.endpoints u.address u.byteCount).2 := by
        omega
      have hstored : u.stored x.endpoints = some ⟨_, _, u.completion, hlt⟩ := dif_pos hlt
      exact hall _ (List.mem_filterMap.2 ⟨u, hu, hstored⟩) (by dsimp only; omega) (by dsimp only; omega)
    · obtain ⟨u, hu, hstored⟩ := List.mem_filterMap.1 hs
      obtain ⟨hleft, hright, hvalue⟩ := Update.stored_eq_some.1 hstored
      rw [← hvalue]
      refine hall u hu (((hupdates u hu).meet sorted hq).2 ?_)
      have := s.nonempty
      omega

/-- From any index that holds the updates so far. -/
theorem Holding.answers (sorted : endpoints.Pairwise (· < ·)) : ∀ {calls : List IndexCall} {x : OverlapIndex}
    {updates : List Update}, x.Holding endpoints updates → (∀ u ∈ updates, Proper endpoints u.address u.byteCount) →
    (∀ call ∈ calls, call.On (Proper endpoints)) → x.answers calls = scanned updates calls
  | [], _, _, _, _, _ => rfl
  | .update address byteCount completion :: calls, _, _, h, hupdates, hcalls => by
    obtain ⟨hcall, hcalls⟩ := List.forall_mem_cons.1 hcalls
    exact (h.updateRange address byteCount completion).answers sorted (List.forall_mem_cons.2 ⟨hcall, hupdates⟩) hcalls
  | .query address byteCount :: calls, _, _, h, hupdates, hcalls => by
    obtain ⟨hcall, hcalls⟩ := List.forall_mem_cons.1 hcalls
    rw [OverlapIndex.answers, scanned, h.queryRange sorted hupdates hcall, h.answers sorted hupdates hcalls]

end OverlapIndex

/-- **Whatever updates and queries of proper ranges are made, in whatever
order, every query is answered as by a scan over the updates before it.** -/
theorem overlap_index_exact {endpoints : List ℕ} (sorted : endpoints.Pairwise (· < ·)) {calls : List IndexCall}
    (proper : ∀ call ∈ calls, call.On (Proper endpoints)) :
    (OverlapIndex.create endpoints).answers calls = scanned [] calls :=
  (OverlapIndex.holding_create endpoints).answers sorted (by simp) proper

theorem overlap_index_exact_three : (OverlapIndex.create [0, 4, 8]).answers
    [.update 0 8 5, .query 4 0, .update 4 4 7, .query 0 4, .query 4 4] = [0, 5, 7] := by
  rw [overlap_index_exact (by decide) (by
    simp only [List.forall_mem_cons, IndexCall.On, List.not_mem_nil, false_imp_iff, implies_true, and_true]
    exact ⟨⟨by decide, by decide⟩, ⟨by decide, by decide⟩, ⟨by decide, by decide⟩, ⟨by decide, by decide⟩,
      ⟨by decide, by decide⟩⟩)]
  decide +kernel

/-- With empty ranges at the first endpoint too, the index is not the scan:
the first segment's completion is answered. -/
theorem overlap_index_not_exact : ¬∀ endpoints : List ℕ, endpoints.Pairwise (· < ·) → ∀ calls : List IndexCall,
    (∀ call ∈ calls, call.On (Declared endpoints)) → (OverlapIndex.create endpoints).answers calls = scanned [] calls := by
  intro h
  have heq := h [0, 8] (by decide) [.update 0 8 5, .query 0 0] (by
    simp only [List.forall_mem_cons, IndexCall.On, List.not_mem_nil, false_imp_iff, implies_true, and_true]
    exact ⟨⟨by decide, by decide⟩, by decide, by decide⟩)
  exact absurd heq (by decide +kernel)

end HeteroSim.Task
