/-
A segment tree that keeps the largest value stored on a range of places. The
node `n` has the children `2n` and `2n + 1`; it holds the largest value stored
on the whole of its range, and the largest of its subtree. A query is the
largest value among the stored ranges that meet the queried one.
-/
import Mathlib

namespace HeteroSim

variable {α : Type}

/-- A node's own value and its subtree's; an absent node holds zeros. -/
abbrev RangeTree (α : Type) := ℕ → Option (α × α)

namespace RangeTree

section

variable (zero : α)

def own (t : RangeTree α) (node : ℕ) : α := ((t node).getD (zero, zero)).1

def total (t : RangeTree α) (node : ℕ) : α := ((t node).getD (zero, zero)).2

variable [LinearOrder α]

/-- The node's subtree is summed up again; a guarded tree reads no children of
a single place. -/
def pull (guarded : Bool) (node lo hi : ℕ) (own : α) (t : RangeTree α) : RangeTree α :=
  let children := if guarded ∧ hi - lo ≤ 1 then zero else max (t.total zero (2 * node)) (t.total zero (2 * node + 1))
  Function.update t node (some (own, max own children))

/-- The value is stored on `[left, right)`; the first number bounds the width. -/
def store (guarded : Bool) (left right : ℕ) (v : α) : ℕ → ℕ → ℕ → ℕ → RangeTree α → RangeTree α
  | 0, _, _, _, t => t
  | k + 1, node, lo, hi, t =>
    if right ≤ lo ∨ hi ≤ left then t
    else if left ≤ lo ∧ hi ≤ right then pull zero guarded node lo hi (max (t.own zero node) v) t
    else
      let mid := (lo + hi) / 2
      let t' := store guarded left right v k (2 * node + 1) mid hi (store guarded left right v k (2 * node) lo mid t)
      pull zero guarded node lo hi (t.own zero node) t'

/-- The largest value among the stored ranges that meet `[left, right)`. -/
def largest (left right : ℕ) : ℕ → ℕ → ℕ → ℕ → RangeTree α → α
  | 0, _, _, _, _ => zero
  | k + 1, node, lo, hi, t =>
    if right ≤ lo ∨ hi ≤ left ∨ t node = none then zero
    else if left ≤ lo ∧ hi ≤ right then t.total zero node
    else
      let mid := (lo + hi) / 2
      max (t.own zero node) (max (largest left right k (2 * node) lo mid t) (largest left right k (2 * node + 1) mid hi t))

/-! ## What a tree holds -/

/-- The largest value stored at a place. -/
def valueAt : ℕ → ℕ → ℕ → ℕ → RangeTree α → ℕ → α
  | 0, _, _, _, _, _ => zero
  | k + 1, node, lo, hi, t, x =>
    if hi - lo ≤ 1 then max (t.own zero node) zero
    else max (t.own zero node)
      (if x < (lo + hi) / 2 then valueAt k (2 * node) lo ((lo + hi) / 2) t x else valueAt k (2 * node + 1) ((lo + hi) / 2) hi t x)

/-- Every node's total is its subtree's, and single places have no children. -/
def Summed : ℕ → ℕ → ℕ → ℕ → RangeTree α → Prop
  | 0, _, _, _, _ => True
  | k + 1, node, lo, hi, t =>
    t.total zero node = max (t.own zero node) (max (t.total zero (2 * node)) (t.total zero (2 * node + 1))) ∧
      if hi - lo ≤ 1 then t.total zero (2 * node) = zero ∧ t.total zero (2 * node + 1) = zero
      else Summed k (2 * node) lo ((lo + hi) / 2) t ∧ Summed k (2 * node + 1) ((lo + hi) / 2) hi t

end

/-! ## Subtrees -/

/-- The node `m` is in the subtree of `n`. -/
def Under (n m : ℕ) : Prop := ∃ j, m / 2 ^ j = n

theorem under_self (n : ℕ) : Under n n := ⟨0, by simp⟩

theorem Under.parent {n m : ℕ} (h : Under (2 * n) m ∨ Under (2 * n + 1) m) : Under n m := by
  rcases h with ⟨j, hj⟩ | ⟨j, hj⟩
  · exact ⟨j + 1, by rw [pow_succ, ← Nat.div_div_eq_div_mul, hj]; omega⟩
  · exact ⟨j + 1, by rw [pow_succ, ← Nat.div_div_eq_div_mul, hj]; omega⟩

/-- A quotient further up is at most half. -/
theorem quotient_le {m i j : ℕ} (h : i < j) : m / 2 ^ j ≤ m / 2 ^ i / 2 := by
  rw [Nat.div_div_eq_div_mul, ← pow_succ]
  exact Nat.div_le_div_left (Nat.pow_le_pow_right (by decide) h) (by positivity)

theorem under_disjoint {n m : ℕ} (hn : 0 < n) (h : Under (2 * n) m) : ¬Under (2 * n + 1) m := by
  rintro ⟨j, hj⟩
  obtain ⟨i, hi⟩ := h
  rcases lt_trichotomy i j with hij | rfl | hij
  · have := quotient_le (m := m) hij
    omega
  · omega
  · have := quotient_le (m := m) hij
    omega

theorem not_under_child {n : ℕ} (hn : 0 < n) : ¬Under (2 * n) n ∧ ¬Under (2 * n + 1) n := by
  refine ⟨fun ⟨j, hj⟩ => ?_, fun ⟨j, hj⟩ => ?_⟩
  · have := Nat.div_le_self n (2 ^ j)
    omega
  · have := Nat.div_le_self n (2 ^ j)
    omega

/-! ## Only the subtree is read and written -/

theorem own_congr (zero : α) {t t' : RangeTree α} {n : ℕ} (h : t' n = t n) : t'.own zero n = t.own zero n := by
  rw [own, own, h]

theorem total_congr (zero : α) {t t' : RangeTree α} {n : ℕ} (h : t' n = t n) : t'.total zero n = t.total zero n := by
  rw [total, total, h]

variable [LinearOrder α] {zero : α}

theorem valueAt_congr : ∀ {k node lo hi : ℕ} {t t' : RangeTree α}, (∀ m, Under node m → t' m = t m) → ∀ x,
    valueAt zero k node lo hi t' x = valueAt zero k node lo hi t x
  | 0, _, _, _, _, _, _, _ => rfl
  | k + 1, node, lo, hi, t, t', h, x => by
    have hl : ∀ lo hi, valueAt zero k (2 * node) lo hi t' x = valueAt zero k (2 * node) lo hi t x := fun lo hi =>
      valueAt_congr (fun m hm => h m (Under.parent (.inl hm))) x
    have hr : ∀ lo hi, valueAt zero k (2 * node + 1) lo hi t' x = valueAt zero k (2 * node + 1) lo hi t x := fun lo hi =>
      valueAt_congr (fun m hm => h m (Under.parent (.inr hm))) x
    simp only [valueAt, own_congr zero (h node (under_self node)), hl, hr]

theorem summed_congr : ∀ {k node lo hi : ℕ} {t t' : RangeTree α}, (∀ m, Under node m → t' m = t m) →
    Summed zero k node lo hi t → Summed zero k node lo hi t'
  | 0, _, _, _, _, _, _, _ => trivial
  | k + 1, node, lo, hi, t, t', h, hs => by
    have hleft : ∀ m, Under (2 * node) m → t' m = t m := fun m hm => h m (Under.parent (.inl hm))
    have hright : ∀ m, Under (2 * node + 1) m → t' m = t m := fun m hm => h m (Under.parent (.inr hm))
    have hl := total_congr zero (hleft _ (under_self _))
    have hr := total_congr zero (hright _ (under_self _))
    obtain ⟨htotal, hrest⟩ := hs
    refine ⟨?_, ?_⟩
    · rw [total_congr zero (h node (under_self node)), own_congr zero (h node (under_self node)), hl, hr]
      exact htotal
    · split
      · next hleaf =>
        rw [if_pos hleaf] at hrest
        rw [hl, hr]
        exact hrest
      · next hleaf =>
        rw [if_neg hleaf] at hrest
        exact ⟨summed_congr hleft hrest.1, summed_congr hright hrest.2⟩

theorem store_outside {guarded : Bool} {left right : ℕ} {v : α} : ∀ {k node lo hi : ℕ} {t : RangeTree α} {m : ℕ},
    ¬Under node m → store zero guarded left right v k node lo hi t m = t m
  | 0, _, _, _, _, _, _ => rfl
  | k + 1, node, lo, hi, t, m, hm => by
    have hne : m ≠ node := by
      rintro rfl
      exact hm (under_self m)
    have hleft : ¬Under (2 * node) m := fun h => hm (Under.parent (.inl h))
    have hright : ¬Under (2 * node + 1) m := fun h => hm (Under.parent (.inr h))
    unfold store
    split
    · rfl
    · split
      · rw [pull, Function.update_of_ne hne]
      · rw [pull, Function.update_of_ne hne, store_outside hright, store_outside hleft]

/-! ## Storing -/

/-- Summing a node up again, its children being summed. -/
theorem summed_pull {guarded : Bool} {k node lo hi : ℕ} {own : α} {t : RangeTree α} (hn : 0 < node)
    (h : if hi - lo ≤ 1 then t.total zero (2 * node) = zero ∧ t.total zero (2 * node + 1) = zero
      else Summed zero k (2 * node) lo ((lo + hi) / 2) t ∧ Summed zero k (2 * node + 1) ((lo + hi) / 2) hi t) :
    Summed zero (k + 1) node lo hi (pull zero guarded node lo hi own t) := by
  have hnode := not_under_child hn
  have hchild : ∀ m, Under (2 * node) m ∨ Under (2 * node + 1) m → pull zero guarded node lo hi own t m = t m := by
    intro m hm
    refine Function.update_of_ne ?_ _ _
    rintro rfl
    exact hm.elim hnode.1 hnode.2
  have hl := total_congr zero (hchild _ (.inl (under_self _)))
  have hr := total_congr zero (hchild _ (.inr (under_self _)))
  refine ⟨?_, ?_⟩
  · rw [hl, hr, RangeTree.total, RangeTree.own, pull, Function.update_self]
    simp only [Option.getD_some]
    split
    · next hg =>
      rw [if_pos hg.2] at h
      rw [h.1, h.2, max_self]
    · rfl
  · split
    · next hleaf =>
      rw [if_pos hleaf] at h
      rw [hl, hr]
      exact h
    · next hleaf =>
      rw [if_neg hleaf] at h
      exact ⟨summed_congr (fun m hm => hchild m (.inl hm)) h.1, summed_congr (fun m hm => hchild m (.inr hm)) h.2⟩

theorem own_pull (guarded : Bool) (node lo hi : ℕ) (own : α) (t : RangeTree α) :
    (pull zero guarded node lo hi own t).own zero node = own := by
  rw [RangeTree.own, pull, Function.update_self, Option.getD_some]

/-- **Storing a value raises exactly the places of its range, and the tree
stays summed up.** -/
theorem store_spec (guarded : Bool) (left right : ℕ) (v : α) : ∀ {k node lo hi : ℕ} {t : RangeTree α}, 0 < node →
    lo < hi → hi - lo ≤ k → Summed zero k node lo hi t →
    Summed zero k node lo hi (store zero guarded left right v k node lo hi t) ∧ ∀ x, lo ≤ x → x < hi →
      valueAt zero k node lo hi (store zero guarded left right v k node lo hi t) x =
        if left ≤ x ∧ x < right then max (valueAt zero k node lo hi t x) v else valueAt zero k node lo hi t x
  | 0, _, _, _, _, _, hlt, hk, _ => by omega
  | k + 1, node, lo, hi, t, hn, hlt, hk, hs => by
    have hnode := not_under_child hn
    unfold store
    split
    · next hout =>
      refine ⟨hs, fun x hx hx' => ?_⟩
      rw [if_neg (by omega)]
    · next hmeet =>
      split
      · next hin =>
        -- the whole range is covered: only the node's own value changes
        refine ⟨summed_pull hn hs.2, fun x hx hx' => ?_⟩
        have hchild : ∀ m, Under (2 * node) m ∨ Under (2 * node + 1) m →
            pull zero guarded node lo hi (max (t.own zero node) v) t m = t m := by
          intro m hm
          refine Function.update_of_ne ?_ _ _
          rintro rfl
          exact hm.elim hnode.1 hnode.2
        rw [if_pos (by omega), valueAt, valueAt, own_pull]
        split
        · exact max_right_comm _ _ _
        · rw [valueAt_congr fun m hm => hchild m (.inl hm), valueAt_congr fun m hm => hchild m (.inr hm)]
          exact max_right_comm _ _ _
      · next hpart =>
        have hwide : ¬hi - lo ≤ 1 := by omega
        obtain ⟨-, hchildren⟩ := hs
        rw [if_neg hwide] at hchildren
        have hmid : lo < (lo + hi) / 2 ∧ (lo + hi) / 2 < hi := by omega
        set t' := store zero guarded left right v k (2 * node) lo ((lo + hi) / 2) t with ht'
        set t'' := store zero guarded left right v k (2 * node + 1) ((lo + hi) / 2) hi t' with ht''
        obtain ⟨hsl, hal⟩ := store_spec guarded left right v (t := t) (by omega : 0 < 2 * node) hmid.1
          (by omega) hchildren.1
        have hright : ∀ m, Under (2 * node + 1) m → t' m = t m := fun m hm =>
          store_outside fun hl => under_disjoint hn hl hm
        obtain ⟨hsr, har⟩ := store_spec guarded left right v (t := t') (by omega : 0 < 2 * node + 1)
          hmid.2 (by omega) (summed_congr hright hchildren.2)
        have hleft : ∀ m, Under (2 * node) m → t'' m = t' m := fun m hm =>
          store_outside fun hr => under_disjoint hn hm hr
        have hpull : ∀ m, Under (2 * node) m ∨ Under (2 * node + 1) m →
            pull zero guarded node lo hi (t.own zero node) t'' m = t'' m := by
          intro m hm
          refine Function.update_of_ne ?_ _ _
          rintro rfl
          exact hm.elim hnode.1 hnode.2
        refine ⟨summed_pull hn ?_, fun x hx hx' => ?_⟩
        · rw [if_neg hwide]
          exact ⟨summed_congr hleft hsl, hsr⟩
        · rw [valueAt, valueAt, own_pull, if_neg hwide, if_neg hwide]
          by_cases hxm : x < (lo + hi) / 2
          · rw [if_pos hxm, if_pos hxm, valueAt_congr fun m hm => hpull m (.inl hm), valueAt_congr hleft, hal x hx hxm]
            split
            · exact (max_assoc _ _ _).symm
            · rfl
          · rw [if_neg hxm, if_neg hxm, valueAt_congr fun m hm => hpull m (.inr hm), har x (by omega) hx', valueAt_congr hright]
            split
            · exact (max_assoc _ _ _).symm
            · rfl

/-! ## Querying -/

theorem total_le {c : α} : ∀ {k node lo hi : ℕ} {t : RangeTree α}, lo < hi → hi - lo ≤ k → Summed zero k node lo hi t →
    (t.total zero node ≤ c ↔ zero ≤ c ∧ ∀ x, lo ≤ x → x < hi → valueAt zero k node lo hi t x ≤ c)
  | 0, _, _, _, _, hlt, hk, _ => by omega
  | k + 1, node, lo, hi, t, hlt, hk, ⟨htotal, hchildren⟩ => by
    rw [htotal]
    by_cases hleaf : hi - lo ≤ 1
    · rw [if_pos hleaf] at hchildren
      rw [hchildren.1, hchildren.2, max_self, max_le_iff]
      simp only [valueAt, if_pos hleaf, max_le_iff]
      exact ⟨fun h => ⟨h.2, fun _ _ _ => h⟩, fun h => h.2 lo le_rfl hlt⟩
    · rw [if_neg hleaf] at hchildren
      have hmid : lo < (lo + hi) / 2 ∧ (lo + hi) / 2 < hi := by omega
      rw [max_le_iff, max_le_iff, total_le hmid.1 (by omega) hchildren.1, total_le hmid.2 (by omega) hchildren.2]
      simp only [valueAt, if_neg hleaf, max_le_iff]
      refine ⟨fun h => ⟨h.2.1.1, fun x hx hx' => ⟨h.1, ?_⟩⟩, fun h => ⟨(h.2 lo le_rfl hlt).1, ⟨h.1, ?_⟩, h.1, ?_⟩⟩
      · split
        · next hm => exact h.2.1.2 x hx hm
        · next hm => exact h.2.2.2 x (by omega) hx'
      · intro x hx hx'
        have := (h.2 x hx (by omega)).2
        rwa [if_pos hx'] at this
      · intro x hx hx'
        have := (h.2 x (by omega) hx').2
        rwa [if_neg (by omega)] at this

theorem largest_le {left right : ℕ} (hq : left < right) {c : α} : ∀ {k node lo hi : ℕ} {t : RangeTree α}, lo < hi →
    hi - lo ≤ k → Summed zero k node lo hi t → (largest zero left right k node lo hi t ≤ c ↔
      zero ≤ c ∧ ∀ x, lo ≤ x → x < hi → left ≤ x → x < right → valueAt zero k node lo hi t x ≤ c)
  | 0, _, _, _, _, hlt, hk, _ => by omega
  | k + 1, node, lo, hi, t, hlt, hk, hs => by
    have htotal := total_le (c := c) hlt hk hs
    unfold largest
    split
    · next hout =>
      refine ⟨fun h => ⟨h, fun x hx hx' hl hr => ?_⟩, fun h => h.1⟩
      rcases hout with hout | hout | hnone
      · omega
      · omega
      · have hzero : t.total zero node = zero := by rw [RangeTree.total, hnone]; rfl
        rw [hzero] at htotal
        exact (htotal.1 h).2 x hx hx'
    · next hmeet =>
      split
      · next hin =>
        rw [htotal]
        refine and_congr_right fun _ => ⟨fun h x hx hx' _ _ => h x hx hx', fun h x hx hx' => h x hx hx' ?_ ?_⟩
        · omega
        · omega
      · next hpart =>
        have hleaf : ¬hi - lo ≤ 1 := by omega
        have hmid : lo < (lo + hi) / 2 ∧ (lo + hi) / 2 < hi := by omega
        obtain ⟨-, hchildren⟩ := hs
        rw [if_neg hleaf] at hchildren
        rw [max_le_iff, max_le_iff, largest_le hq hmid.1 (by omega) hchildren.1,
          largest_le hq hmid.2 (by omega) hchildren.2]
        simp only [valueAt, if_neg hleaf, max_le_iff]
        refine ⟨fun h => ⟨h.2.1.1, fun x hx hx' hl hr => ⟨h.1, ?_⟩⟩, fun h => ⟨?_, ⟨h.1, ?_⟩, h.1, ?_⟩⟩
        · split
          · next hm => exact h.2.1.2 x hx hm hl hr
          · next hm => exact h.2.2.2 x (by omega) hx' hl hr
        · exact (h.2 (max left lo) (by omega) (by omega) (by omega) (by omega)).1
        · intro x hx hx' hl hr
          have := (h.2 x hx (by omega) hl hr).2
          rwa [if_pos hx'] at this
        · intro x hx hx' hl hr
          have := (h.2 x (by omega) hx' hl hr).2
          rwa [if_neg (by omega)] at this

/-! ## The tree and what was stored -/

/-- A value stored on a range of places. -/
structure Stored (α : Type) where
  left : ℕ
  right : ℕ
  value : α
  nonempty : left < right

/-- The tree over `size` places holds the stored values. -/
structure Holds (zero : α) (size : ℕ) (stored : List (Stored α)) (t : RangeTree α) : Prop where
  summed : Summed zero size 1 0 size t
  places : ∀ x < size, ∀ c, valueAt zero size 1 0 size t x ≤ c ↔
    zero ≤ c ∧ ∀ s ∈ stored, s.left ≤ x → x < s.right → s.value ≤ c

/-- A tree of zeros, there or absent. -/
def Blank (zero : α) (t : RangeTree α) : Prop := ∀ n, t.own zero n = zero ∧ t.total zero n = zero

omit [LinearOrder α] in
theorem blank_absent (zero : α) : Blank zero (fun _ => none) := fun _ => ⟨rfl, rfl⟩

omit [LinearOrder α] in
theorem blank_zeros (zero : α) : Blank zero (fun _ => some (zero, zero)) := fun _ => ⟨rfl, rfl⟩

theorem Blank.summed {t : RangeTree α} (h : Blank zero t) : ∀ k node lo hi, Summed zero k node lo hi t
  | 0, _, _, _ => trivial
  | k + 1, node, lo, hi => by
    refine ⟨by rw [(h node).2, (h node).1, (h _).2, (h _).2, max_self, max_self], ?_⟩
    split
    · exact ⟨(h _).2, (h _).2⟩
    · exact ⟨h.summed k _ _ _, h.summed k _ _ _⟩

theorem Blank.valueAt {t : RangeTree α} (h : Blank zero t) (x : ℕ) : ∀ k node lo hi, valueAt zero k node lo hi t x = zero
  | 0, _, _, _ => rfl
  | k + 1, node, lo, hi => by
    simp only [RangeTree.valueAt, (h node).1, h.valueAt x k, ite_self, max_self]

theorem Blank.holds {t : RangeTree α} (h : Blank zero t) (size : ℕ) : Holds zero size [] t where
  summed := h.summed size 1 0 size
  places x _ c := by
    rw [h.valueAt x]
    simp

/-- **Storing adds a value.** -/
theorem Holds.store {size : ℕ} {stored : List (Stored α)} {t : RangeTree α} (h : Holds zero size stored t)
    (hsize : 0 < size) (guarded : Bool) (s : Stored α) :
    Holds zero size (s :: stored) (store zero guarded s.left s.right s.value size 1 0 size t) := by
  obtain ⟨hsummed, hplaces⟩ := store_spec guarded s.left s.right s.value Nat.one_pos hsize (Nat.sub_le _ _) h.summed
  refine ⟨hsummed, fun x hx c => ?_⟩
  rw [hplaces x (Nat.zero_le x) hx]
  have hold := h.places x hx c
  simp only [List.mem_cons, forall_eq_or_imp]
  split
  · next hin =>
    rw [max_le_iff, hold]
    exact ⟨fun ⟨⟨hz, hall⟩, hv⟩ => ⟨hz, fun _ _ => hv, hall⟩, fun ⟨hz, hv, hall⟩ => ⟨⟨hz, hall⟩, hv hin.1 hin.2⟩⟩
  · next hout =>
    rw [hold]
    exact ⟨fun ⟨hz, hall⟩ => ⟨hz, fun hl hr => absurd ⟨hl, hr⟩ hout, hall⟩, fun ⟨hz, _, hall⟩ => ⟨hz, hall⟩⟩

/-- **A query is the largest value among the stored ranges that meet it, or
zero.** -/
theorem Holds.largest_le {size : ℕ} {stored : List (Stored α)} {t : RangeTree α} (h : Holds zero size stored t)
    {left right : ℕ} (hq : left < right) (hright : right ≤ size) (c : α) :
    largest zero left right size 1 0 size t ≤ c ↔
      zero ≤ c ∧ ∀ s ∈ stored, s.left < right → left < s.right → s.value ≤ c := by
  rw [RangeTree.largest_le hq (by omega) (Nat.sub_le _ _) h.summed]
  refine and_congr_right fun hz => ⟨fun hall s hs hl hr => ?_, fun hall x _ hx hl hr => ?_⟩
  · -- the ranges meet at the larger of their first places
    have hx : max left s.left < right := max_lt hq hl
    have hplace := (h.places (max left s.left) (hx.trans_le hright) c).1
      (hall _ (Nat.zero_le _) (hx.trans_le hright) (le_max_left _ _) hx)
    exact hplace.2 s hs (le_max_right _ _) (max_lt hr s.nonempty)
  · refine (h.places x hx c).2 ⟨hz, fun s hs hls hrs => hall s hs (by omega) (by omega)⟩

end RangeTree

end HeteroSim
