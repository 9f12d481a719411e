/-
Lists kept in order and edited where a bisection points. On a sorted list
the bisection finds the first element that does not come before the one
looked for, so an edit there inserts or removes in order.
-/
import Mathlib

namespace HeteroSim

variable {α : Type}

/-- `bisect_left`: how many elements come before; `p` holds of those. -/
def bisectLeft (p : α → Bool) (l : List α) : Nat := (l.takeWhile p).length

theorem takeWhile_append_of_all {p : α → Bool} {l m : List α} (hl : ∀ a ∈ l, p a = true)
    (hm : ∀ a ∈ m.head?, p a = false) : (l ++ m).takeWhile p = l := by
  rw [List.takeWhile_append_of_pos hl]
  cases m with
  | nil => simp
  | cons b m => simp [hm b (by simp)]

theorem bisectLeft_append {p : α → Bool} {l m : List α} (hl : ∀ a ∈ l, p a = true)
    (hm : ∀ a ∈ m.head?, p a = false) : bisectLeft p (l ++ m) = l.length := by
  rw [bisectLeft, takeWhile_append_of_all hl hm]

theorem eraseIdx_length_append (l : List α) (a : α) (m : List α) : (l ++ a :: m).eraseIdx l.length = l ++ m := by
  rw [List.eraseIdx_append_of_length_le le_rfl, Nat.sub_self, List.eraseIdx_cons_zero]

theorem insertIdx_length_append : ∀ (l : List α) (a : α) (m : List α), (l ++ m).insertIdx l.length a = l ++ a :: m
  | [], _, _ => rfl
  | b :: l, a, m => by
    rw [List.cons_append, List.length_cons, List.insertIdx_succ_cons, insertIdx_length_append l a m,
      List.cons_append]

/-! ## Slices -/

/-- Once `p` fails, it fails from there on. -/
def Falling (p : α → Bool) (l : List α) : Prop := l.Pairwise fun a b => p b = true → p a = true

theorem mem_takeWhile_falling {p : α → Bool} : ∀ {l : List α}, Falling p l → ∀ x,
    x ∈ l.takeWhile p ↔ x ∈ l ∧ p x = true
  | [], _, x => by simp
  | a :: l, h, x => by
    obtain ⟨ha, hl⟩ := List.pairwise_cons.1 h
    cases hpa : p a with
    | true => by_cases hx : x = a <;> simp [hpa, hx, mem_takeWhile_falling hl x]
    | false =>
      rw [List.takeWhile_cons_of_neg (by simp [hpa])]
      refine ⟨fun hx => absurd hx (by simp), fun hx => ?_⟩
      rcases List.mem_cons.1 hx.1 with rfl | hm
      · rw [hx.2] at hpa; cases hpa
      · rw [ha x hm hx.2] at hpa; cases hpa

theorem take_bisectLeft (p : α → Bool) (l : List α) : l.take (bisectLeft p l) = l.takeWhile p :=
  (List.prefix_iff_eq_take.1 (List.takeWhile_prefix p)).symm

/-- **The slice between two bisections holds what lies before one and not
before the other.** -/
theorem mem_slice {p q : α → Bool} : ∀ {l : List α}, Falling p l → Falling q l → ∀ x,
    x ∈ (l.take (bisectLeft p l)).drop (bisectLeft q l) ↔ x ∈ l ∧ p x = true ∧ q x = false
  | [], _, _, x => by simp
  | a :: l, hp, hq, x => by
    have hmem := mem_takeWhile_falling hp x
    rw [← take_bisectLeft] at hmem
    cases hqa : q a with
    | false =>
      have hzero : bisectLeft q (a :: l) = 0 := by simp [bisectLeft, hqa]
      have hnone : x ∈ a :: l → q x = false := fun hx => by
        rcases List.mem_cons.1 hx with rfl | hm
        · exact hqa
        · exact Bool.eq_false_iff.2 fun hqx => by rw [(List.pairwise_cons.1 hq).1 x hm hqx] at hqa; cases hqa
      rw [hzero, List.drop_zero, hmem]
      exact ⟨fun h => ⟨h.1, h.2, hnone h.1⟩, fun h => ⟨h.1, h.2.1⟩⟩
    | true =>
      have hsucc : bisectLeft q (a :: l) = bisectLeft q l + 1 := by simp [bisectLeft, hqa]
      have hne : ∀ {r : Prop}, (x = a ∨ r) ∧ p x = true ∧ q x = false ↔ r ∧ p x = true ∧ q x = false := by
        refine ⟨fun h => ⟨h.1.resolve_left fun he => ?_, h.2⟩, fun h => ⟨.inr h.1, h.2⟩⟩
        rw [he, hqa] at h
        cases h.2.2
      rw [hsucc, List.mem_cons, hne]
      cases hpa : p a with
      | true =>
        have hstep : bisectLeft p (a :: l) = bisectLeft p l + 1 := by simp [bisectLeft, hpa]
        rw [hstep, List.take_succ_cons, List.drop_succ_cons]
        exact mem_slice (List.pairwise_cons.1 hp).2 (List.pairwise_cons.1 hq).2 x
      | false =>
        have hzero : bisectLeft p (a :: l) = 0 := by simp [bisectLeft, hpa]
        rw [hzero, List.take_zero, List.drop_nil]
        refine ⟨fun h => absurd h List.not_mem_nil, fun h => ?_⟩
        rw [(List.pairwise_cons.1 hp).1 x h.1 h.2.1] at hpa
        cases hpa

/-! ## Editing at the bisection, in a linear order -/

variable [LinearOrder α]

/-- What comes strictly before `a`. -/
def before (a : α) : α → Bool := fun b => decide (b < a)

theorem bisectLeft_before {l m : List α} {a : α} (h : (l ++ a :: m).Pairwise (· < ·)) :
    bisectLeft (before a) (l ++ a :: m) = l.length := by
  rw [List.pairwise_append] at h
  exact bisectLeft_append (fun b hb => by simpa [before] using h.2.2 b hb a (by simp)) (by simp [before])

theorem bisectLeft_before_absent {l m : List α} {a : α} (h : (l ++ a :: m).Pairwise (· < ·)) :
    bisectLeft (before a) (l ++ m) = l.length := by
  rw [List.pairwise_append, List.pairwise_cons] at h
  refine bisectLeft_append (fun b hb => by simpa [before] using h.2.2 b hb a (by simp)) fun b hb => ?_
  simpa [before] using le_of_lt (h.2.1.1 b (List.mem_of_mem_head? hb))

/-- The element is removed where the bisection finds it. -/
theorem eraseIdx_bisect {l m : List α} {a : α} (h : (l ++ a :: m).Pairwise (· < ·)) :
    (l ++ a :: m).eraseIdx (bisectLeft (before a) (l ++ a :: m)) = l ++ m := by
  rw [bisectLeft_before h, eraseIdx_length_append]

/-- The element is inserted in its place. -/
theorem insertIdx_bisect {l m : List α} {a : α} (h : (l ++ a :: m).Pairwise (· < ·)) :
    (l ++ m).insertIdx (bisectLeft (before a) (l ++ m)) a = l ++ a :: m := by
  rw [bisectLeft_before_absent h, insertIdx_length_append]

/-- A sorted list splits at any place of the order. -/
theorem pairwise_split {l : List α} {a : α} (h : l.Pairwise (· < ·)) (ha : a ∉ l) :
    ∃ pre post, l = pre ++ post ∧ (pre ++ a :: post).Pairwise (· < ·) := by
  refine ⟨l.takeWhile (before a), l.dropWhile (before a), (List.takeWhile_append_dropWhile).symm, ?_⟩
  have hs : (l.takeWhile (before a) ++ l.dropWhile (before a)).Pairwise (· < ·) := by
    rw [List.takeWhile_append_dropWhile]; exact h
  rw [List.pairwise_append] at hs
  have hpre : ∀ b ∈ l.takeWhile (before a), b < a := fun b hb => by
    simpa [before] using List.mem_takeWhile_imp hb
  have hpost : ∀ b ∈ l.dropWhile (before a), a < b := by
    cases hd : l.dropWhile (before a) with
    | nil => simp
    | cons c m =>
      have hc : a < c := by
        have hn := List.head?_dropWhile_not (before a) l
        rw [hd] at hn
        have hle : a ≤ c := by simpa [before] using hn
        refine lt_of_le_of_ne hle fun he => ha ?_
        rw [he, ← List.takeWhile_append_dropWhile (p := before a) (l := l), hd]
        simp
      intro b hb
      rcases List.mem_cons.1 hb with rfl | hb
      · exact hc
      · rw [hd, List.pairwise_cons] at hs
        exact hc.trans (hs.2.1.1 b hb)
  rw [List.pairwise_append, List.pairwise_cons]
  refine ⟨hs.1, ⟨hpost, hs.2.1⟩, fun b hb c hc => ?_⟩
  rcases List.mem_cons.1 hc with rfl | hc
  · exact hpre b hb
  · exact hs.2.2 b hb c hc

/-- The bisection goes up at an element of the list. -/
theorem bisectLeft_lt : ∀ {l : List α} {a b : α}, l.Pairwise (· < ·) → a ∈ l → a < b →
    bisectLeft (before a) l < bisectLeft (before b) l
  | c :: l, a, b, h, ha, hab => by
    obtain ⟨hc, hl⟩ := List.pairwise_cons.1 h
    rcases List.mem_cons.1 ha with rfl | ha
    · simp [bisectLeft, before, hab]
    · have := bisectLeft_lt hl ha hab
      simpa [bisectLeft, before, hc a ha, (hc a ha).trans hab] using this

theorem bisectLeft_lt_length : ∀ {l : List α} {a : α}, a ∈ l → bisectLeft (before a) l < l.length
  | c :: l, a, ha => by
    by_cases hc : c < a
    · have hl : a ∈ l := (List.mem_cons.1 ha).resolve_left (ne_of_gt hc)
      have := bisectLeft_lt_length hl
      simpa [bisectLeft, before, hc] using this
    · simp [bisectLeft, before, hc]

theorem perm_insertIdx_bisect {l : List α} {a : α} (h : l.Pairwise (· < ·)) (ha : a ∉ l) :
    (l.insertIdx (bisectLeft (before a) l) a).Perm (a :: l) ∧
      (l.insertIdx (bisectLeft (before a) l) a).Pairwise (· < ·) := by
  obtain ⟨pre, post, rfl, hs⟩ := pairwise_split h ha
  rw [insertIdx_bisect hs]
  exact ⟨List.perm_middle, hs⟩

end HeteroSim
