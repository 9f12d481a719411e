/-
A range cut into consecutive pieces of at most a given size, from an offset
on. Every place of the range lies in exactly one piece.
-/
import Mathlib

namespace HeteroSim

/-- The pieces of `[offset, size)` as offset and amount, in order. -/
def pieces (chunk size offset : ℕ) : List (ℕ × ℕ) :=
  if 0 < chunk ∧ offset < size then
    (offset, min chunk (size - offset)) :: pieces chunk size (offset + min chunk (size - offset))
  else []
termination_by size - offset

variable {chunk size offset : ℕ}

theorem pieces_of_lt (hchunk : 0 < chunk) (h : offset < size) : pieces chunk size offset =
    (offset, min chunk (size - offset)) :: pieces chunk size (offset + min chunk (size - offset)) := by
  rw [pieces, if_pos ⟨hchunk, h⟩]

theorem pieces_of_le (h : size ≤ offset) : pieces chunk size offset = [] := by
  rw [pieces, if_neg (fun hlt => absurd hlt.2 (by omega))]

/-- A place in a piece. -/
def covers (place : ℕ) (piece : ℕ × ℕ) : Bool := decide (piece.1 ≤ place ∧ place < piece.1 + piece.2)

/-- **Each place lies in one piece**, and none before the offset or behind the size. -/
theorem countP_pieces (hchunk : 0 < chunk) (place : ℕ) :
    (pieces chunk size offset).countP (covers place) = if offset ≤ place ∧ place < size then 1 else 0 := by
  induction hn : size - offset using Nat.strong_induction_on generalizing offset with
  | _ n ih =>
    by_cases hlt : offset < size
    · have hamount : 0 < min chunk (size - offset) := by omega
      rw [pieces_of_lt hchunk hlt, List.countP_cons, ih (size - (offset + min chunk (size - offset))) (by omega) rfl]
      simp only [covers, decide_eq_true_eq]
      split_ifs <;> omega
    · rw [pieces_of_le (by omega), List.countP_nil, if_neg (by omega)]

end HeteroSim
