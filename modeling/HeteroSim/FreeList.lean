/-
A first-in first-out free list kept as an array with a moving head: elements
are taken from the head and returned at the end, and the cells before the
head are dropped only now and then. What is free is what `live` lists.
-/
import Mathlib

namespace HeteroSim

variable {α : Type}

structure FreeList (α : Type) where
  cells : List α
  head : ℕ
  head_le : head ≤ cells.length

namespace FreeList

/-- The free elements, the next to take first. -/
def live (f : FreeList α) : List α := f.cells.drop f.head

def ofList (l : List α) : FreeList α := ⟨l, 0, Nat.zero_le _⟩

/-- The list from a given head on. -/
def ofListAt (l : List α) (head : ℕ) : FreeList α := ⟨l, min head l.length, min_le_right _ _⟩

def available (f : FreeList α) : ℕ := f.cells.length - f.head

def push (f : FreeList α) (l : List α) : FreeList α :=
  ⟨f.cells ++ l, f.head, f.head_le.trans (by simp)⟩

/-- The next `count` elements, if there are as many. -/
def take (f : FreeList α) (count : ℕ) : Option (List α × FreeList α) :=
  if h : f.head + count ≤ f.cells.length then
    some ((f.cells.drop f.head).take count, ⟨f.cells, f.head + count, h⟩)
  else none

/-- The cells before the head dropped. -/
def compact (f : FreeList α) : FreeList α := ⟨f.cells.drop f.head, 0, Nat.zero_le _⟩

@[simp] theorem live_ofList (l : List α) : (ofList l).live = l := rfl

@[simp] theorem live_compact (f : FreeList α) : f.compact.live = f.live := rfl

theorem length_live (f : FreeList α) : f.live.length = f.available := List.length_drop

theorem live_push (f : FreeList α) (l : List α) : (f.push l).live = f.live ++ l :=
  List.drop_append_of_le_length f.head_le

theorem take_some {f g : FreeList α} {count : ℕ} {l : List α} (h : f.take count = some (l, g)) :
    f.live = l ++ g.live ∧ l.length = count := by
  unfold take at h
  split at h
  · next hle =>
    obtain ⟨rfl, rfl⟩ := Prod.mk.inj (Option.some.inj h)
    refine ⟨?_, ?_⟩
    · change f.live = f.live.take count ++ f.cells.drop (f.head + count)
      rw [← List.drop_drop]
      exact (List.take_append_drop count f.live).symm
    · change (f.live.take count).length = count
      rw [List.length_take, f.length_live, available]
      omega
  · cases h

theorem take_isSome {f : FreeList α} {count : ℕ} : (f.take count).isSome = true ↔ count ≤ f.available := by
  have hle := f.head_le
  unfold take available
  split <;> simp <;> omega

/-! ## An element out of turn -/

/-- The free element at `k` moved to the head. -/
def toFront (f : FreeList α) (k : ℕ) : FreeList α :=
  match h : f.live[k]? with
  | none => f
  | some x => ⟨f.cells.take f.head ++ x :: f.live.eraseIdx k, f.head, by simp [f.head_le]⟩

theorem live_toFront {f : FreeList α} {k : ℕ} {x : α} (h : f.live[k]? = some x) :
    (f.toFront k).live = x :: f.live.eraseIdx k := by
  have hlength : (f.cells.take f.head).length = f.head := by simp [f.head_le]
  unfold toFront
  split
  · next hnone => rw [hnone] at h; cases h
  · next y hy =>
    obtain rfl : y = x := Option.some.inj (hy.symm.trans h)
    exact List.drop_left' hlength

theorem live_toFront_perm (f : FreeList α) (k : ℕ) : (f.toFront k).live.Perm f.live := by
  cases hx : f.live[k]? with
  | none =>
    have heq : f.toFront k = f := by
      unfold toFront
      split
      · rfl
      · next hy => rw [hx] at hy; cases hy
    rw [heq]
  | some x =>
    obtain ⟨hk, rfl⟩ := List.getElem?_eq_some_iff.1 hx
    rw [live_toFront hx]
    exact List.getElem_cons_eraseIdx_perm hk

end FreeList

end HeteroSim
