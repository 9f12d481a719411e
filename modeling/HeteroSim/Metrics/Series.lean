/-
A component's curve in a bounded number of points. Neighbours whose values
are nearly equal become one interval, and what is still too long is cut into
as many runs as there are points, each shown by its mean.
-/
import HeteroSim.Raising
import HeteroSim.StepFunctions

namespace HeteroSim.Metrics

open Piece (Tiles integral mean StandsFor)

/-- A half-open interval of a component's series. -/
@[ext] structure ChangePointInterval where
  startNs : ℚ
  endNs : ℚ
  value : ℚ
  nonneg : 0 ≤ startNs
  ordered : startNs ≤ endNs

theorem nonneg_of_not {s e : ℚ} (h : ¬(s < 0 ∨ e < s)) : 0 ≤ s := not_lt.1 fun hs => h (.inl hs)

theorem ordered_of_not {s e : ℚ} (h : ¬(s < 0 ∨ e < s)) : s ≤ e := not_lt.1 fun he => h (.inr he)

/-- `ChangePointInterval.__post_init__` -/
def ChangePointInterval.new (startNs endNs value : ℚ) : Except String ChangePointInterval :=
  if h : startNs < 0 ∨ endNs < startNs then .error "时序区间必须满足 0 <= start_ns <= end_ns"
  else .ok ⟨startNs, endNs, value, nonneg_of_not h, ordered_of_not h⟩

/-- A value, held between 0 and 1 when it is a ratio. -/
def clampValue (clampRatio : Bool) (value : ℚ) : ℚ := if clampRatio then min 1 (max 0 value) else value

/-- The intervals of some length. -/
def nonEmpty (intervals : List ChangePointInterval) : List ChangePointInterval :=
  intervals.filter fun i => ¬i.endNs ≤ i.startNs

def normalize (intervals : List ChangePointInterval) (clampRatio : Bool) : Except String (List ChangePointInterval) :=
  (nonEmpty intervals).mapM fun i => ChangePointInterval.new i.startNs i.endNs (clampValue clampRatio i.value)

/-- By start, then end, then value. -/
def precedes (a b : ChangePointInterval) : Bool :=
  decide (a.startNs < b.startNs ∨ a.startNs = b.startNs ∧ (a.endNs < b.endNs ∨ a.endNs = b.endNs ∧ a.value ≤ b.value))

/-- `abs_tol` -/
def tolerance : ℚ := 1 / 10 ^ 12

def ChangePointInterval.piece (i : ChangePointInterval) : Piece ℚ := ⟨i.startNs, i.endNs, i.value⟩

/-- The step function of a series. -/
def series (l : List ChangePointInterval) : List (Piece ℚ) := l.map ChangePointInterval.piece

/-- In some order the intervals tile the span. -/
def Covers (a b : ℚ) (l : List ChangePointInterval) : Prop := ∃ order, order.Perm l ∧ Tiles a b (series order)

/-- A run of intervals has its first one's value, and the others are near it. -/
def KeepsFirst (group : List (Piece ℚ)) (value : ℚ) : Prop :=
  group.head?.map Piece.value = some value ∧ ∀ q ∈ group, |q.value - value| ≤ tolerance

/-- The intervals in order, each run of near values one interval, and no two of these near. -/
def Coalesced (l merged : List ChangePointInterval) : Prop :=
  ∃ groups, groups.flatten.Perm (series l) ∧ List.Forall₂ (StandsFor KeepsFirst) groups (series merged) ∧
    merged.IsChain fun i j => tolerance < |j.value - i.value|

variable {clampRatio : Bool} {a b : ℚ} {l : List ChangePointInterval} {i j : ChangePointInterval}

theorem new_ok {s e v : ℚ} (hs : 0 ≤ s) (he : s ≤ e) : ChangePointInterval.new s e v = .ok ⟨s, e, v, hs, he⟩ :=
  dif_neg fun h => h.elim hs.not_gt he.not_gt

theorem precedes_total (i j : ChangePointInterval) : (precedes i j || precedes j i) = true := by
  simp only [precedes, Bool.or_eq_true, decide_eq_true_eq]
  rcases lt_trichotomy i.startNs j.startNs with h | h | h
  · exact .inl (.inl h)
  · rcases lt_trichotomy i.endNs j.endNs with h' | h' | h'
    · exact .inl (.inr ⟨h, .inl h'⟩)
    · exact (le_total i.value j.value).imp (fun hv => .inr ⟨h, .inr ⟨h', hv⟩⟩) fun hv => .inr ⟨h.symm, .inr ⟨h'.symm, hv⟩⟩
    · exact .inr (.inr ⟨h.symm, .inl h'⟩)
  · exact .inr (.inl h)

theorem precedes_trans (i j k : ChangePointInterval) (hij : precedes i j = true) (hjk : precedes j k = true) :
    precedes i k = true := by
  simp only [precedes, decide_eq_true_eq] at *
  grind

theorem precedes_antisymm (hij : precedes i j = true) (hji : precedes j i = true) : i = j := by
  simp only [precedes, decide_eq_true_eq] at *
  apply ChangePointInterval.ext <;> grind

theorem precedes_of_lt (h : i.startNs < j.startNs) : precedes i j = true := decide_eq_true (.inl h)

/-- The sort finds the order that tiles. -/
theorem Covers.sorted (h : Covers a b l) : Tiles a b (series (l.mergeSort precedes)) := by
  obtain ⟨order, hperm, htiles⟩ := h
  have horder : order.Pairwise (precedes · ·) := by
    have := htiles.increasing
    rw [series, List.pairwise_map] at this
    exact this.imp precedes_of_lt
  have heq : order = l.mergeSort precedes :=
    (hperm.trans (List.mergeSort_perm l precedes).symm).eq_of_pairwise (fun _ _ _ _ => precedes_antisymm) horder
      (List.pairwise_mergeSort precedes_trans precedes_total l)
  rwa [← heq]

/-! ## Near neighbours merged -/

/-- Values that a clamp leaves as they are. -/
def Ratios (clampRatio : Bool) (l : List ChangePointInterval) : Prop :=
  clampRatio = true → ∀ p ∈ series l, 0 ≤ p.value ∧ p.value ≤ 1

theorem Ratios.mean (h : Ratios clampRatio l) (htiles : Tiles a b (series l)) (hne : l ≠ []) :
    clampValue clampRatio (mean (series l)) = mean (series l) := by
  unfold clampValue
  split
  · next hclamp =>
    obtain ⟨hlower, hupper⟩ := htiles.mean_between (by simpa [series] using hne) (h hclamp)
    rw [max_eq_right hlower, min_eq_right hupper]
  · rfl

/-- The place at which a bucket starts. -/
def place (count pointLimit i : ℕ) : ℕ := i * count / pointLimit

end HeteroSim.Metrics
