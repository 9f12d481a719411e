/-
Step functions by their pieces. Pieces tile a span when each starts where
the one before stops; pieces that tile a span may be replaced by one that
holds their mean, and the integral stays.
-/
import Mathlib

namespace HeteroSim

/-- A value held from a place up to another. -/
structure Piece (K : Type) where
  start : K
  stop : K
  value : K

namespace Piece

section Tiles

variable {K : Type} [LinearOrder K] {a b : K} {l m : List (Piece K)}

/-- Pieces one after another, each of some length, from a place to a place. -/
def Tiles : K → K → List (Piece K) → Prop
  | a, b, [] => a = b
  | a, b, p :: l => (p.start = a ∧ p.start < p.stop) ∧ Tiles p.stop b l

theorem Tiles.le : ∀ {l : List (Piece K)} {a : K}, Tiles a b l → a ≤ b
  | [], _, h => le_of_eq h
  | _ :: _, _, h => h.1.1 ▸ h.1.2.le.trans h.2.le

theorem Tiles.lt (h : Tiles a b l) (hne : l ≠ []) : a < b := by
  cases l with
  | nil => exact absurd rfl hne
  | cons p l => exact h.1.1 ▸ h.1.2.trans_le h.2.le

/-- What follows starts after. -/
theorem Tiles.after : ∀ {l : List (Piece K)} {a : K}, Tiles a b l → ∀ p ∈ l, a ≤ p.start ∧ p.start < p.stop
  | [], _, _, _, hp => (by cases hp)
  | q :: l, a, h, p, hp => by
    obtain rfl | hp := List.mem_cons.1 hp
    · exact ⟨h.1.1.ge, h.1.2⟩
    · exact ⟨h.1.1 ▸ h.1.2.le.trans (h.2.after p hp).1, (h.2.after p hp).2⟩

theorem Tiles.increasing : ∀ {l : List (Piece K)} {a : K}, Tiles a b l → l.Pairwise fun p q => p.start < q.start
  | [], _, _ => .nil
  | _ :: _, _, h => List.pairwise_cons.2 ⟨fun q hq => h.1.2.trans_le (h.2.after q hq).1, h.2.increasing⟩

theorem Tiles.first {p : Piece K} (h : Tiles a b (p :: l)) : p.start = a := h.1.1

theorem Tiles.last : ∀ {l : List (Piece K)} {p : Piece K} {a : K}, Tiles a b (p :: l) → (l.getLastD p).stop = b
  | [], _, _, h => h.2
  | q :: l, p, _, h => by
    rw [List.getLastD_cons]
    exact h.2.last

/-- A piece stands for others over the same span. -/
def StandsFor (f : List (Piece K) → K → Prop) (group : List (Piece K)) (p : Piece K) : Prop :=
  Tiles p.start p.stop group ∧ group ≠ [] ∧ f group p.value

end Tiles

section Means

variable {K : Type} [Field K]

def length (p : Piece K) : K := p.stop - p.start

def integral (l : List (Piece K)) : K := (l.map fun p => p.value * p.length).sum

/-- The pieces' mean, each weighted by its length. -/
def mean (l : List (Piece K)) : K := integral l / (l.map length).sum

@[simp] theorem integral_nil : integral ([] : List (Piece K)) = 0 := rfl

@[simp] theorem integral_cons (p : Piece K) (l : List (Piece K)) : integral (p :: l) = p.value * p.length + integral l := by
  simp [integral]

variable [LinearOrder K] [IsStrictOrderedRing K] {a b : K} {l : List (Piece K)}

omit [IsStrictOrderedRing K] in
theorem Tiles.length_sum : ∀ {l : List (Piece K)} {a : K}, Tiles a b l → (l.map length).sum = b - a
  | [], a, h => by rw [show a = b from h, sub_self]; rfl
  | p :: l, a, h => by
    rw [List.map_cons, List.sum_cons, h.2.length_sum, length, h.1.1]
    ring

/-- The mean over the span is the same area. -/
theorem Tiles.mean_eq (h : Tiles a b l) (hne : l ≠ []) : mean l * (b - a) = integral l := by
  rw [mean, h.length_sum, div_mul_cancel₀]
  exact (sub_pos.2 (h.lt hne)).ne'

theorem Tiles.integral_between {lo hi : K} : ∀ {l : List (Piece K)} {a : K}, Tiles a b l →
    (∀ p ∈ l, lo ≤ p.value ∧ p.value ≤ hi) → lo * (b - a) ≤ integral l ∧ integral l ≤ hi * (b - a)
  | [], a, h, _ => by
    rw [show a = b from h, sub_self]
    simp
  | p :: l, a, h, hvalues => by
    obtain ⟨hlo, hhi⟩ := hvalues p (by simp)
    obtain ⟨hlower, hupper⟩ := h.2.integral_between fun q hq => hvalues q (List.mem_cons_of_mem _ hq)
    have hlength : 0 ≤ p.length := sub_nonneg.2 h.1.2.le
    have hspan : b - a = p.length + (b - p.stop) := by rw [length, h.1.1]; ring
    rw [integral_cons, hspan, mul_add, mul_add]
    exact ⟨add_le_add (mul_le_mul_of_nonneg_right hlo hlength) hlower,
      add_le_add (mul_le_mul_of_nonneg_right hhi hlength) hupper⟩

/-- The mean lies where the values do. -/
theorem Tiles.mean_between {lo hi : K} (h : Tiles a b l) (hne : l ≠ []) (hvalues : ∀ p ∈ l, lo ≤ p.value ∧ p.value ≤ hi) :
    lo ≤ mean l ∧ mean l ≤ hi := by
  have hpos : 0 < b - a := sub_pos.2 (h.lt hne)
  obtain ⟨hlower, hupper⟩ := h.integral_between hvalues
  rw [← h.mean_eq hne] at hlower hupper
  exact ⟨le_of_mul_le_mul_right hlower hpos, le_of_mul_le_mul_right hupper hpos⟩

end Means

end Piece

end HeteroSim
