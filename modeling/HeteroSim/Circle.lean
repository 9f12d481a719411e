/-
Distance round a circle of whole steps, and how many of a circle's places lie
near one: a window shorter than the circle meets each place once at most.
-/
import Mathlib

namespace HeteroSim

/-- The shorter way round from one place to another. -/
def roundDistance (length x y : ℤ) : ℤ := min ((x - y) % length) ((y - x) % length)

variable {length x y x' y' : ℤ}

theorem emod_neg_eq (hpos : 0 < length) (a : ℤ) : -a % length = if a % length = 0 then 0 else length - a % length := by
  have hlt := Int.emod_lt_of_pos a hpos
  have hnonneg := Int.emod_nonneg a hpos.ne'
  have hsplit : -a = -(a % length) + length * -(a / length) := by
    have := Int.emod_add_mul_ediv a length
    linarith
  rw [hsplit, Int.add_mul_emod_self_left]
  split
  · next hzero => rw [hzero]; rfl
  · next hne =>
    rw [← Int.add_emod_right, Int.emod_eq_of_lt (by omega) (by omega)]
    omega

/-- Only the difference matters, and of it only where it ends. -/
theorem roundDistance_congr (hpos : 0 < length) (h : (x - y) % length = (x' - y') % length) :
    roundDistance length x y = roundDistance length x' y' := by
  unfold roundDistance
  rw [← neg_sub x y, ← neg_sub x' y', emod_neg_eq hpos, emod_neg_eq hpos, h]

theorem roundDistance_comm : roundDistance length x y = roundDistance length y x := min_comm _ _

/-- **A place is near another when one of the steps round it leads there.** -/
theorem roundDistance_le_iff (hpos : 0 < length) {reach : ℤ} (hreach : 0 ≤ reach) (hshort : 2 * reach < length) :
    roundDistance length x y ≤ reach ↔ (x - y + reach) % length ≤ 2 * reach := by
  have hlt := Int.emod_lt_of_pos (x - y) hpos
  have hnonneg := Int.emod_nonneg (x - y) hpos.ne'
  have hstep : (x - y + reach) % length = ((x - y) % length + reach) % length := by rw [Int.emod_add_emod]
  unfold roundDistance
  rw [← neg_sub x y, emod_neg_eq hpos, hstep]
  generalize (x - y) % length = u at *
  by_cases hwrap : u + reach < length
  · rw [Int.emod_eq_of_lt (by omega) hwrap]
    split <;> omega
  · rw [← Int.sub_emod_right, Int.emod_eq_of_lt (by omega) (by omega)]
    split <;> omega

/-- Of the places in a window round one, a place is one or none. -/
theorem sum_window (hpos : 0 < length) {reach : ℕ} (hshort : 2 * (reach : ℤ) < length) (hx : 0 ≤ x) (hlt : x < length) :
    (∑ d ∈ Finset.range (2 * reach + 1), if x = (y - reach + d) % length then (1 : ℤ) else 0) =
      if roundDistance length x y ≤ reach then 1 else 0 := by
  have hplace : ∀ d ∈ Finset.range (2 * reach + 1), x = (y - reach + d) % length ↔ d = ((x - y + reach) % length).toNat := by
    intro d hd
    have hd := Finset.mem_range.1 hd
    have hmod := Int.emod_nonneg (x - y + reach) hpos.ne'
    have hself : x = x % length := (Int.emod_eq_of_lt hx hlt).symm
    have hdself : (d : ℤ) = d % length := (Int.emod_eq_of_lt (by omega) (by omega)).symm
    constructor
    · intro h
      have hmodeq : x ≡ y - reach + d [ZMOD length] := by rw [Int.ModEq, ← hself]; exact h
      have hd' : x - y + reach ≡ d [ZMOD length] := by
        have := (hmodeq.sub_right y).add_right (reach : ℤ)
        rwa [show y - (reach : ℤ) + d - y + reach = d by ring] at this
      rw [Int.ModEq, ← hdself] at hd'
      omega
    · intro h
      have hd' : x - y + reach ≡ d [ZMOD length] := by rw [Int.ModEq, ← hdself]; omega
      have hmodeq : x ≡ y - reach + d [ZMOD length] := by
        have := (hd'.add_right y).sub_right (reach : ℤ)
        rw [show x - y + (reach : ℤ) + y - reach = x by ring] at this
        exact this.trans (by rw [show (d : ℤ) + y - reach = y - reach + d by ring])
      rwa [Int.ModEq, ← hself] at hmodeq
  rw [Finset.sum_congr rfl fun d hd => if_congr (hplace d hd) rfl rfl, Finset.sum_ite_eq']
  refine if_congr ?_ rfl rfl
  rw [Finset.mem_range, roundDistance_le_iff hpos (Int.natCast_nonneg reach) hshort]
  have hmod := Int.emod_nonneg (x - y + reach) hpos.ne'
  omega

end HeteroSim
