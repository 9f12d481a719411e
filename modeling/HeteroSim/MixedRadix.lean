/-
Mixed-radix digits, the lowest first. A chain of `divmod`s reads off the
digits of a number; they determine it, each is below its radix, and the last
quotient is bounded exactly when the number is. The digits below the last
quotient take their turns: as many consecutive numbers as the radices
multiply to show every choice of them.
-/
import Mathlib

namespace HeteroSim

/-- The digits of `n` under the radices, and the last quotient. -/
def digits : List ℕ → ℕ → List ℕ
  | [], n => [n]
  | r :: rs, n => n % r :: digits rs (n / r)

/-- The last quotient. -/
def topDigit : List ℕ → ℕ → ℕ
  | [], n => n
  | r :: rs, n => topDigit rs (n / r)

/-- **The digits determine the number.** -/
theorem digits_inj : ∀ (rs : List ℕ) {m n : ℕ}, digits rs m = digits rs n → m = n
  | [], _, _, h => List.singleton_inj.1 h
  | r :: rs, m, n, h => by
    obtain ⟨hmod, hrest⟩ := List.cons.inj h
    have hdiv : m / r = n / r := digits_inj rs hrest
    rw [← Nat.mod_add_div m r, ← Nat.mod_add_div n r, hmod, hdiv]

theorem topDigit_lt : ∀ {rs : List ℕ} {n k : ℕ}, (∀ r ∈ rs, 0 < r) → (topDigit rs n < k ↔ n < rs.prod * k)
  | [], n, k, _ => by rw [topDigit, List.prod_nil, one_mul]
  | r :: rs, n, k, h => by
    have hr : 0 < r := h r (by simp)
    have hprod : (r :: rs).prod * k = rs.prod * k * r := by rw [List.prod_cons]; ring
    rw [topDigit, topDigit_lt fun q hq => h q (by simp [hq]), Nat.div_lt_iff_lt_mul hr, hprod]

example : digits [4, 3] 23 = [3, 2, 1] := by decide

/-! ## Turns -/

/-- The digits of `n` under the radices, without the last quotient. -/
def lowDigits : List ℕ → ℕ → List ℕ
  | [], _ => []
  | r :: rs, n => n % r :: lowDigits rs (n / r)

/-- The low digits take their turns. -/
theorem lowDigits_mod : ∀ (rs : List ℕ) (n : ℕ), lowDigits rs (n % rs.prod) = lowDigits rs n
  | [], _ => rfl
  | r :: rs, n => by
    rw [List.prod_cons, lowDigits, lowDigits, Nat.mod_mul_right_mod, Nat.mod_mul_right_div_self, lowDigits_mod rs]

theorem exists_lowDigits {ds rs : List ℕ} (h : List.Forall₂ (· < ·) ds rs) : ∃ n < rs.prod, lowDigits rs n = ds := by
  induction h with
  | nil => exact ⟨0, Nat.one_pos, rfl⟩
  | @cons d r ds rs hd _ ih =>
    obtain ⟨n, hn, hdigits⟩ := ih
    have hr : 0 < r := Nat.zero_lt_of_lt hd
    refine ⟨d + r * n, ?_, ?_⟩
    · rw [List.prod_cons]
      calc d + r * n < r + r * n := Nat.add_lt_add_right hd _
        _ = r * (n + 1) := by ring
        _ ≤ r * rs.prod := Nat.mul_le_mul_left r hn
    · rw [lowDigits, Nat.add_mul_mod_self_left, Nat.mod_eq_of_lt hd, Nat.add_mul_div_left _ _ hr, Nat.div_eq_of_lt hd, zero_add, hdigits]

/-- A remainder comes up in as many consecutive numbers as there are. -/
theorem exists_turn {n x start stop : ℕ} (hlong : n ≤ stop - start) (hx : x < n) : ∃ k, start ≤ k ∧ k < stop ∧ k % n = x := by
  have hn : 0 < n := Nat.zero_lt_of_lt hx
  refine ⟨start + (x + (n - start % n)) % n, Nat.le_add_right _ _, ?_, ?_⟩
  · have := Nat.mod_lt (x + (n - start % n)) hn
    omega
  · have hturn : start + (x + (n - start % n)) = x + n * (start / n + 1) := by
      have hsplit := Nat.mod_add_div start n
      have hlt := Nat.mod_lt start hn
      rw [Nat.mul_add_one]
      omega
    rw [Nat.add_mod_mod, hturn, Nat.add_mul_mod_self_left, Nat.mod_eq_of_lt hx]

/-- The quotients of a range are all that lie between its ends'. -/
theorem quotient_iff {n lo count q : ℕ} (hn : 0 < n) (hcount : 0 < count) :
    (lo / n ≤ q ∧ q ≤ (lo + count - 1) / n) ↔ ∃ j < count, (lo + j) / n = q := by
  constructor
  · rintro ⟨hlo, hhi⟩
    have hend : q * n ≤ lo + count - 1 := (Nat.mul_le_mul_right n hhi).trans (Nat.div_mul_le_self _ _)
    rcases le_total lo (q * n) with hle | hle
    · refine ⟨q * n - lo, by omega, ?_⟩
      rw [Nat.add_sub_cancel' hle, Nat.mul_div_cancel _ hn]
    · exact ⟨0, hcount, le_antisymm hlo ((Nat.le_div_iff_mul_le hn).2 hle)⟩
  · rintro ⟨j, hj, rfl⟩
    exact ⟨Nat.div_le_div_right (Nat.le_add_right _ _), Nat.div_le_div_right (by omega)⟩

/-- **A whole turn shows every choice of low digits.** -/
theorem turn_lowDigits {ds rs : List ℕ} (h : List.Forall₂ (· < ·) ds rs) {start stop : ℕ} (hlong : rs.prod ≤ stop - start) :
    ∃ k, start ≤ k ∧ k < stop ∧ lowDigits rs k = ds := by
  obtain ⟨n, hn, hdigits⟩ := exists_lowDigits h
  obtain ⟨k, hlo, hhi, hmod⟩ := exists_turn hlong hn
  exact ⟨k, hlo, hhi, by rw [← lowDigits_mod, hmod, hdigits]⟩

end HeteroSim
