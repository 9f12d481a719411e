/-
A heap of keys as the sorted list of what is in it. The first entry is the
smallest, a pop takes it away, and a push puts a key behind the smaller ones;
of equal keys a heap holds so many.
-/
import Mathlib

namespace HeteroSim

variable {α : Type} [LinearOrder α]

/-- `heapq.heappush` -/
def heappush (heap : List α) (x : α) : List α := heap.orderedInsert (· ≤ ·) x

/-- `heapq.heapify` -/
def heapify (entries : List α) : List α := entries.insertionSort (· ≤ ·)

/-- The entries stand in their order. -/
def IsHeap (heap : List α) : Prop := heap.Pairwise (· ≤ ·)

theorem IsHeap.nil : IsHeap ([] : List α) := List.Pairwise.nil

theorem IsHeap.tail {heap : List α} (h : IsHeap heap) : IsHeap heap.tail := List.Pairwise.tail h

theorem heappush_perm (heap : List α) (x : α) : (heappush heap x).Perm (x :: heap) := List.perm_orderedInsert _ x heap

theorem mem_heappush {heap : List α} {x y : α} : y ∈ heappush heap x ↔ y = x ∨ y ∈ heap := by
  rw [(heappush_perm heap x).mem_iff, List.mem_cons]

theorem IsHeap.push {heap : List α} (h : IsHeap heap) (x : α) : IsHeap (heappush heap x) :=
  List.Pairwise.orderedInsert x heap h

theorem heapify_perm (entries : List α) : (heapify entries).Perm entries := List.perm_insertionSort _ entries

theorem isHeap_heapify (entries : List α) : IsHeap (heapify entries) := List.pairwise_insertionSort _ entries

/-- A heap is known by what is in it. -/
theorem IsHeap.ext {heap other : List α} (h : IsHeap heap) (ho : IsHeap other) (hp : heap.Perm other) : heap = other :=
  hp.eq_of_pairwise (fun _ _ _ _ => le_antisymm) h ho

theorem foldl_heappush_perm (entries heap : List α) : (entries.foldl heappush heap).Perm (entries ++ heap) := by
  induction entries generalizing heap with
  | nil => exact .refl _
  | cons x entries ih =>
    refine (ih _).trans ?_
    exact ((heappush_perm heap x).append_left entries).trans List.perm_middle

theorem IsHeap.pushAll {heap : List α} (h : IsHeap heap) (entries : List α) : IsHeap (entries.foldl heappush heap) := by
  induction entries generalizing heap with
  | nil => exact h
  | cons x entries ih => exact ih (h.push x)

/-- What a heap is popped of while a condition holds that the entries before
one satisfy with it. -/
theorem IsHeap.dropWhile {heap : List α} (h : IsHeap heap) {c : α → Bool} (hc : ∀ x y, x ≤ y → c y = true → c x = true) :
    heap.dropWhile c = heap.filter fun x => !c x := by
  induction heap with
  | nil => rfl
  | cons x heap ih =>
    by_cases hx : c x = true
    · rw [List.dropWhile_cons_of_pos hx, ih h.tail, List.filter_cons_of_neg (by simp [hx])]
    · rw [List.dropWhile_cons_of_neg hx]
      refine (List.filter_eq_self.2 fun y hy => ?_).symm
      have hxy : x ≤ y := by
        rcases List.mem_cons.1 hy with rfl | hy
        · exact le_rfl
        · exact (List.pairwise_cons.1 h).1 y hy
      simpa using fun hy => hx (hc x y hxy hy)

/-- The first entry is the smallest. -/
theorem IsHeap.head_le {x y : α} {heap : List α} (h : IsHeap (x :: heap)) (hy : y ∈ x :: heap) : x ≤ y := by
  obtain rfl | hy := List.mem_cons.1 hy
  · exact le_rfl
  · exact (List.pairwise_cons.1 h).1 y hy

/-- A push of something later does not change what is popped next. -/
theorem heappush_cons {x y : α} (heap : List α) (h : x < y) : heappush (x :: heap) y = x :: heappush heap y :=
  List.orderedInsert_of_not_le _ heap h.not_ge

/-- The entry that is popped next. -/
theorem IsHeap.head?_iff {heap : List α} (h : IsHeap heap) {x : α} : heap.head? = some x ↔ x ∈ heap ∧ ∀ y ∈ heap, x ≤ y := by
  cases heap with
  | nil => simp
  | cons y heap =>
    rw [List.head?_cons, Option.some.injEq]
    constructor
    · rintro rfl
      exact ⟨List.mem_cons_self, fun z hz => h.head_le hz⟩
    · rintro ⟨hx, hle⟩
      exact le_antisymm (h.head_le hx) (hle y List.mem_cons_self)

end HeteroSim
