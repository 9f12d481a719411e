/-
Why the ring is faithful: every live tail gains a token each step, so two
tails meet on a bank at some step when they stand near each other round the
ring, and the pick counts what it would meet.
-/
import HeteroSim.Circle
import HeteroSim.KvBlocks.Ring

namespace HeteroSim.KvBlocks

/-- A tail: the page its block starts at, and its rows. -/
structure Tail where
  page : ℤ
  rows : ℤ

namespace Geometry

variable (g : Geometry)

/-- The bank a tail is on after `t` steps. -/
def bankAt (a : Tail) (t : ℕ) : ℤ := (a.page + (a.rows + t) / g.perPage) % g.banks

/-- A step that fills the tail's page. -/
def Crosses (a : Tail) (t : ℕ) : Prop := (a.rows + t) / g.perPage ≠ (a.rows + t + 1) / g.perPage

/-- At some step the tails are on one bank. -/
def Meet (a b : Tail) : Prop := ∃ t, g.bankAt a t = g.bankAt b t

/-- At some step the tails fill a page, on one bank. -/
def Collide (a b : Tail) : Prop := ∃ t, g.Crosses a t ∧ g.Crosses b t ∧ g.bankAt a t = g.bankAt b t

/-- The token position on the ring. -/
def spot (a : Tail) : ℤ := (a.page * g.perPage + a.rows) % g.length

variable {g} {a b : Tail}

theorem perPage_cast_pos : (0 : ℤ) < g.perPage := Int.natCast_pos.2 g.perPage_pos

theorem banks_cast_pos : (0 : ℤ) < g.banks := Int.natCast_pos.2 g.banks_pos

theorem length_cast_pos : (0 : ℤ) < g.length := Int.natCast_pos.2 g.length_pos

theorem length_cast (g : Geometry) : (g.length : ℤ) = g.banks * g.perPage := by
  unfold length
  push_cast
  rfl

theorem perPage_le_length (g : Geometry) : (g.perPage : ℤ) ≤ g.length := by
  rw [length_cast]
  exact le_mul_of_one_le_left perPage_cast_pos.le banks_cast_pos

theorem bankAt_eq (a : Tail) (t : ℕ) : g.bankAt a t = (a.page * g.perPage + a.rows + t) / g.perPage % g.banks := by
  unfold bankAt
  congr 1
  rw [add_assoc, add_comm (a.page * _), Int.add_mul_ediv_right _ _ perPage_cast_pos.ne', add_comm]

theorem spot_sub : (g.spot a - g.spot b) % g.length =
    (a.page * g.perPage + a.rows - (b.page * g.perPage + b.rows)) % g.length := by
  unfold spot
  rw [← Int.sub_emod]

/-- A number of tokens ahead, less than a page, is the same bank at a page's first token. -/
theorem meet_of_ahead {x y k u : ℤ} (h : x = y + u + k * g.length) (hpos : 0 ≤ u) (hlt : u < g.perPage) :
    ∃ t : ℕ, (x + t) / g.perPage % g.banks = (y + t) / g.perPage % g.banks := by
  refine ⟨(-y % g.perPage).toNat, ?_⟩
  have hnonneg := Int.emod_nonneg (-y) perPage_cast_pos.ne' (b := (g.perPage : ℤ))
  rw [Int.toNat_of_nonneg hnonneg]
  obtain ⟨m, hm⟩ : (g.perPage : ℤ) ∣ y + -y % g.perPage := by
    have hsplit := Int.emod_add_mul_ediv (-y) g.perPage
    exact ⟨-(-y / g.perPage), by linarith⟩
  have hx : x + -y % g.perPage = u + (m + k * g.banks) * g.perPage := by
    rw [h, length_cast]
    linarith
  rw [hx, hm, Int.add_mul_ediv_right _ _ perPage_cast_pos.ne', Int.ediv_eq_zero_of_lt hpos hlt,
    Int.mul_ediv_cancel_left _ perPage_cast_pos.ne', zero_add, Int.add_mul_emod_self_right]

/-- **Tails meet when they stand less than a page apart round the ring.** -/
theorem meet_iff : g.Meet a b ↔ roundDistance g.length (g.spot a) (g.spot b) < g.perPage := by
  unfold Meet
  simp only [bankAt_eq, roundDistance]
  rw [spot_sub, spot_sub]
  generalize a.page * (g.perPage : ℤ) + a.rows = x
  generalize b.page * (g.perPage : ℤ) + b.rows = y
  constructor
  · rintro ⟨t, ht⟩
    have hx := Int.emod_add_mul_ediv (x + t) g.perPage
    have hy := Int.emod_add_mul_ediv (y + t) g.perPage
    have hxlt := Int.emod_lt_of_pos (x + t) (perPage_cast_pos (g := g))
    have hylt := Int.emod_lt_of_pos (y + t) (perPage_cast_pos (g := g))
    have hxpos := Int.emod_nonneg (x + t) (perPage_cast_pos (g := g)).ne'
    have hypos := Int.emod_nonneg (y + t) (perPage_cast_pos (g := g)).ne'
    obtain ⟨k, hk⟩ : (g.banks : ℤ) ∣ (x + t) / g.perPage - (y + t) / g.perPage := Int.ModEq.dvd (Int.ModEq.symm ht)
    have hdiff : x - y = (x + t) % g.perPage - (y + t) % g.perPage + g.length * k := by
      have hlength := g.length_cast
      linear_combination -hx + hy + (g.perPage : ℤ) * hk - k * hlength
    have hle := g.perPage_le_length
    rw [min_lt_iff]
    rcases le_total ((y + t) % g.perPage) ((x + t) % g.perPage) with h | h
    · left
      rw [hdiff, Int.add_mul_emod_self_left, Int.emod_eq_of_lt (by omega) (by omega)]
      omega
    · right
      have hback : y - x = (y + t) % g.perPage - (x + t) % g.perPage + g.length * -k := by linear_combination -hdiff
      rw [hback, Int.add_mul_emod_self_left, Int.emod_eq_of_lt (by omega) (by omega)]
      omega
  · intro h
    rcases min_lt_iff.1 h with h | h
    · have hsplit := Int.emod_add_mul_ediv (x - y) g.length
      exact meet_of_ahead (x := x) (y := y) (k := (x - y) / g.length) (by linarith)
        (Int.emod_nonneg _ length_cast_pos.ne') h
    · have hsplit := Int.emod_add_mul_ediv (y - x) g.length
      obtain ⟨t, ht⟩ := meet_of_ahead (x := y) (y := x) (k := (y - x) / g.length) (by linarith)
        (Int.emod_nonneg _ length_cast_pos.ne') h
      exact ⟨t, ht.symm⟩

theorem crosses_iff (a : Tail) (t : ℕ) : g.Crosses a t ↔ (a.page * g.perPage + a.rows + t + 1) % g.perPage = 0 := by
  have hpos := perPage_cast_pos (g := g)
  have hmod : (a.page * g.perPage + a.rows + t + 1) % (g.perPage : ℤ) = (a.rows + t + 1) % g.perPage := by
    rw [show a.page * (g.perPage : ℤ) + a.rows + t + 1 = a.rows + t + 1 + a.page * g.perPage by ring, Int.add_mul_emod_self_right]
  rw [hmod, Crosses]
  generalize a.rows + (t : ℤ) = n
  have hn := Int.emod_add_mul_ediv n g.perPage
  have hnext := Int.emod_add_mul_ediv (n + 1) g.perPage
  have hlt := Int.emod_lt_of_pos n hpos
  have hnonneg := Int.emod_nonneg n hpos.ne'
  have hlt' := Int.emod_lt_of_pos (n + 1) hpos
  have hnonneg' := Int.emod_nonneg (n + 1) hpos.ne'
  constructor
  · intro hne
    have hgrow : n / g.perPage < (n + 1) / g.perPage := lt_of_le_of_ne (Int.ediv_le_ediv hpos (by omega)) hne
    have hmul : (g.perPage : ℤ) * (n / g.perPage + 1) ≤ g.perPage * ((n + 1) / g.perPage) :=
      mul_le_mul_of_nonneg_left hgrow hpos.le
    rw [mul_add, mul_one] at hmul
    omega
  · intro hzero heq
    rw [← heq] at hnext
    omega

/-- **Tails collide when they stand at one place.** -/
theorem collide_iff : g.Collide a b ↔ g.spot a = g.spot b := by
  unfold Collide
  simp only [crosses_iff, bankAt_eq, spot]
  generalize a.page * (g.perPage : ℤ) + a.rows = x
  generalize b.page * (g.perPage : ℤ) + b.rows = y
  have hpos := perPage_cast_pos (g := g)
  constructor
  · rintro ⟨t, hx, hy, hbank⟩
    obtain ⟨m, hm⟩ := Int.dvd_of_emod_eq_zero hx
    obtain ⟨n, hn⟩ := Int.dvd_of_emod_eq_zero hy
    have hquot : ∀ z q : ℤ, z + t + 1 = g.perPage * q → (z + t) / g.perPage = q - 1 := by
      intro z q hz
      rw [show z + (t : ℤ) = (g.perPage - 1) + (q - 1) * g.perPage by linear_combination hz,
        Int.add_mul_ediv_right _ _ hpos.ne', Int.ediv_eq_zero_of_lt (by omega) (by omega), zero_add]
    rw [hquot x m hm, hquot y n hn] at hbank
    obtain ⟨k, hk⟩ := Int.ModEq.dvd (Int.ModEq.symm hbank)
    have hdiff : x = y + g.length * k := by
      have hlength := g.length_cast
      linear_combination hm - hn + (g.perPage : ℤ) * hk - k * hlength
    rw [hdiff, Int.add_mul_emod_self_left]
  · intro h
    obtain ⟨k, hk⟩ := Int.ModEq.dvd (Int.ModEq.symm h)
    have hx : x = y + k * g.banks * g.perPage := by
      have hlength := g.length_cast
      linear_combination hk + k * hlength
    have hnonneg := Int.emod_nonneg (-y - 1) hpos.ne'
    have hfull : (y + (-y - 1) % (g.perPage : ℤ) + 1) % g.perPage = 0 := by
      rw [show y + (-y - 1) % (g.perPage : ℤ) + 1 = y + 1 + (-y - 1) % (g.perPage : ℤ) by ring, Int.add_emod_emod,
        show y + 1 + (-y - 1) = 0 by ring, Int.zero_emod]
    refine ⟨((-y - 1) % g.perPage).toNat, ?_, ?_, ?_⟩ <;> rw [Int.toNat_of_nonneg hnonneg]
    · rw [hx, show y + k * g.banks * (g.perPage : ℤ) + (-y - 1) % (g.perPage : ℤ) + 1 =
        y + (-y - 1) % (g.perPage : ℤ) + 1 + k * g.banks * g.perPage by ring, Int.add_mul_emod_self_right]
      exact hfull
    · exact hfull
    · rw [hx, show y + k * g.banks * (g.perPage : ℤ) + (-y - 1) % (g.perPage : ℤ) =
        y + (-y - 1) % (g.perPage : ℤ) + k * g.banks * g.perPage by ring, Int.add_mul_ediv_right _ _ hpos.ne',
        Int.add_mul_emod_self_right]

/-! ## What a block would meet -/

variable (g)

/-- A block's K tail and its V tail, whose pool is `shift` pages after. -/
def keyTail (a : ℕ × ℤ) : Tail := ⟨a.1 * g.stride, a.2⟩

def valueTail (a : ℕ × ℤ) : Tail := ⟨a.1 * g.stride + g.shift, a.2⟩

def tailsOf (a : ℕ × ℤ) : List Tail := [g.keyTail a, g.valueTail a]

/-- Within so many tokens round the ring. -/
def Near (reach : ℕ) (a b : Tail) : Prop := roundDistance g.length (g.spot a) (g.spot b) ≤ reach

open Classical in
/-- Pairs of one tail of each list that the relation holds of. -/
noncomputable def conflicts (r : Tail → Tail → Prop) (l m : List Tail) : ℕ :=
  (l.map fun a => m.countP fun b => decide (r a b)).sum

/-- What a block's tails would collide with, and what they would meet, of the tails added. -/
noncomputable def load (added : List (ℕ × ℤ)) (a : ℕ × ℤ) : ℕ ×ₗ ℕ :=
  toLex (conflicts g.Collide (g.tailsOf a) (added.flatMap g.tailsOf), conflicts g.Meet (g.tailsOf a) (added.flatMap g.tailsOf))

variable {g}

theorem spot_nonneg (a : Tail) : 0 ≤ g.spot a := Int.emod_nonneg _ length_cast_pos.ne'

theorem spot_lt (a : Tail) : g.spot a < g.length := Int.emod_lt_of_pos _ length_cast_pos

theorem meet_eq_near : g.Meet = g.Near (g.perPage - 1) := by
  funext a b
  have hpos := g.perPage_pos
  have hcast : ((g.perPage - 1 : ℕ) : ℤ) = g.perPage - 1 := by omega
  rw [eq_iff_iff, meet_iff, Near, hcast, Int.le_sub_one_iff]

/-- Places on the ring no distance apart are one. -/
theorem eq_of_spot_sub {a b : Tail} (h : (g.spot a - g.spot b) % g.length ≤ 0) : g.spot a = g.spot b := by
  have hzero := le_antisymm h (Int.emod_nonneg _ length_cast_pos.ne')
  have heq := Int.emod_eq_emod_iff_emod_sub_eq_zero.2 hzero
  rwa [Int.emod_eq_of_lt (spot_nonneg a) (spot_lt a), Int.emod_eq_of_lt (spot_nonneg b) (spot_lt b)] at heq

theorem collide_eq_near : g.Collide = g.Near 0 := by
  funext a b
  rw [eq_iff_iff, collide_iff, Near, Nat.cast_zero, roundDistance]
  constructor
  · intro h
    rw [h, sub_self, Int.zero_emod]
    exact min_le_left _ _
  · intro h
    exact (min_le_iff.1 h).elim eq_of_spot_sub fun h => (eq_of_spot_sub h).symm

/-- V's pool is `shift` pages round. -/
def offset (g : Geometry) : ℤ := g.shift * g.perPage % g.length

/-- How far a tail added is from where a tail of a block looks for it. -/
def nearAt (g : Geometry) (reach : ℕ) (a : ℕ × ℤ) (place : ℤ) : ℤ :=
  if roundDistance g.length (g.spot (g.keyTail a)) place ≤ reach then 1 else 0

theorem conflicts_cons_left (r : Tail → Tail → Prop) (c : Tail) (l m : List Tail) :
    conflicts r (c :: l) m = conflicts r [c] m + conflicts r l m := by
  simp [conflicts]

theorem conflicts_append_right (r : Tail → Tail → Prop) (l m n : List Tail) :
    conflicts r l (m ++ n) = conflicts r l m + conflicts r l n := by
  simp only [conflicts, List.countP_append, List.sum_map_add]

/-- One pair, seen from where a block's tail looks for the tail added. -/
theorem conflicts_pair {reach : ℕ} {a : ℕ × ℤ} {place apart : ℤ} {c e : Tail}
    (hapart : e.page * g.perPage + e.rows - (c.page * g.perPage + c.rows) = apart)
    (h : apart ≡ g.spot (g.keyTail a) - place [ZMOD g.length]) :
    (conflicts (g.Near reach) [c] [e] : ℤ) = g.nearAt reach a place := by
  have hnear : g.Near reach c e ↔ roundDistance g.length (g.spot (g.keyTail a)) place ≤ reach := by
    unfold Near
    rw [roundDistance_comm, roundDistance_congr length_cast_pos (spot_sub.trans (hapart ▸ h))]
  unfold nearAt conflicts
  simp only [List.map_cons, List.map_nil, List.countP_singleton, List.sum_singleton, decide_eq_true_eq]
  by_cases hle : roundDistance g.length (g.spot (g.keyTail a)) place ≤ reach
  · simp [hle, hnear.2 hle]
  · simp [hle, mt hnear.1 hle]

theorem spot_modEq (a : Tail) : g.spot a ≡ a.page * g.perPage + a.rows [ZMOD g.length] := Int.mod_modEq _ _

theorem offset_modEq : g.offset ≡ g.shift * g.perPage [ZMOD g.length] := Int.mod_modEq _ _

/-- The pairs of a block's tails and those of one added: K's and V's own, and each with the other's. -/
theorem conflicts_one (reach : ℕ) (c a : ℕ × ℤ) : (conflicts (g.Near reach) (g.tailsOf c) (g.tailsOf a) : ℤ) =
    2 * g.nearAt reach a (g.spot (g.keyTail c)) + g.nearAt reach a (g.spot (g.keyTail c) + g.offset) +
      g.nearAt reach a (g.spot (g.keyTail c) - g.offset) := by
  have hc := spot_modEq (g := g) (g.keyTail c)
  have ha := spot_modEq (g := g) (g.keyTail a)
  have hoffset := offset_modEq (g := g)
  have hkk : (conflicts (g.Near reach) [g.keyTail c] [g.keyTail a] : ℤ) = g.nearAt reach a (g.spot (g.keyTail c)) :=
    conflicts_pair rfl (ha.sub hc).symm
  have hvv : (conflicts (g.Near reach) [g.valueTail c] [g.valueTail a] : ℤ) = g.nearAt reach a (g.spot (g.keyTail c)) := by
    refine conflicts_pair ?_ (ha.sub hc).symm
    simp only [valueTail, keyTail]
    ring
  have hkv : (conflicts (g.Near reach) [g.keyTail c] [g.valueTail a] : ℤ) =
      g.nearAt reach a (g.spot (g.keyTail c) - g.offset) := by
    refine conflicts_pair ?_ (ha.sub (hc.sub hoffset)).symm
    simp only [valueTail, keyTail]
    ring
  have hvk : (conflicts (g.Near reach) [g.valueTail c] [g.keyTail a] : ℤ) =
      g.nearAt reach a (g.spot (g.keyTail c) + g.offset) := by
    refine conflicts_pair ?_ (ha.sub (hc.add hoffset)).symm
    simp only [valueTail, keyTail]
    ring
  have hrow : ∀ e, conflicts (g.Near reach) [e] (g.tailsOf a) =
      conflicts (g.Near reach) [e] [g.keyTail a] + conflicts (g.Near reach) [e] [g.valueTail a] :=
    fun e => conflicts_append_right _ [e] [g.keyTail a] [g.valueTail a]
  rw [tailsOf, conflicts_cons_left, hrow, hrow]
  push_cast
  rw [hkk, hvv, hkv, hvk]
  ring

/-- **What a block's tails would be near of, tail by tail added.** -/
theorem conflicts_near (reach : ℕ) (c : ℕ × ℤ) : ∀ added : List (ℕ × ℤ),
    (conflicts (g.Near reach) (g.tailsOf c) (added.flatMap g.tailsOf) : ℤ) =
      (added.map fun a => 2 * g.nearAt reach a (g.spot (g.keyTail c)) + g.nearAt reach a (g.spot (g.keyTail c) + g.offset) +
        g.nearAt reach a (g.spot (g.keyTail c) - g.offset)).sum
  | [] => by simp [conflicts]
  | a :: added => by
    rw [List.flatMap_cons, conflicts_append_right, List.map_cons, List.sum_cons, ← conflicts_near reach c added, ← conflicts_one]
    push_cast
    rfl

end Geometry

/-! ## The tails a ring counts -/

/-- A ring of tails, each added once more than it was taken away. -/
inductive Placed (g : Geometry) : KVTailRing → List (ℕ × ℤ) → Prop
  | empty : Placed g (.empty g) []
  | add {ring : KVTailRing} {added : List (ℕ × ℤ)} (a : ℕ × ℤ) : Placed g ring added →
      Placed g (ring.add (ring.position a.1 a.2) 1) (a :: added)
  | remove {ring : KVTailRing} {added : List (ℕ × ℤ)} {a : ℕ × ℤ} : Placed g ring added → a ∈ added →
      Placed g (ring.add (ring.position a.1 a.2) (-1)) (added.erase a)

variable {g : Geometry} {ring : KVTailRing} {added : List (ℕ × ℤ)}

theorem Placed.geometry (h : Placed g ring added) : ring.geometry = g := by
  induction h with
  | empty => rfl
  | add _ _ ih => exact ih
  | remove _ _ ih => exact ih

theorem position_eq (hheld : ring.geometry.held = 0) (a : ℕ × ℤ) :
    (ring.position a.1 a.2 : ℤ) = ring.geometry.spot (ring.geometry.keyTail a) := by
  have hpos := ring.geometry.length_cast_pos
  unfold KVTailRing.position Geometry.spot Geometry.keyTail
  simp only [hheld, if_true]
  rw [Int.toNat_of_nonneg (Int.emod_nonneg _ hpos.ne'), Int.add_emod, Int.mul_emod, Int.emod_emod, ← Int.mul_emod, ← Int.add_emod,
    mul_assoc]

/-- How many of the tails added stand at a place. -/
def standing (g : Geometry) (added : List (ℕ × ℤ)) (place : ℤ) : ℤ :=
  (added.map fun a => if g.spot (g.keyTail a) = place then 1 else 0).sum

theorem standing_perm {m : List (ℕ × ℤ)} (h : added.Perm m) (place : ℤ) : standing g added place = standing g m place :=
  (h.map _).sum_eq

/-- **The ring counts the tails added.** -/
theorem Placed.tails (h : Placed g ring added) (hheld : g.held = 0) :
    ∀ place : ℕ, place < g.length → ring.tails.getD place 0 = standing g added place := by
  have hadd : ∀ {ring : KVTailRing} (a : ℕ × ℤ) (sign : ℤ) (place : ℕ), ring.geometry = g → place < g.length →
      (ring.add (ring.position a.1 a.2) sign).tails.getD place 0 =
        ring.tails.getD place 0 + if g.spot (g.keyTail a) = place then sign else 0 := by
    intro ring a sign place hg hlt
    have hposition := position_eq (hg.symm ▸ hheld) a
    rw [hg] at hposition
    have hlt' : place < ring.tails.length := by rw [ring.tails_length, hg]; exact hlt
    have hiff : place = ring.position a.1 a.2 ↔ g.spot (g.keyTail a) = place := by omega
    rw [List.getD_eq_getElem?_getD, List.getD_eq_getElem?_getD, ring.add_tails, List.getElem?_eq_getElem hlt']
    simp only [Option.map_some, Option.getD_some]
    rw [if_congr hiff rfl rfl]
    split
    · rfl
    · rw [add_zero]
  induction h with
  | empty =>
    intro place hlt
    simp [KVTailRing.empty, standing, hlt]
  | @add ring added a h ih =>
    intro place hlt
    rw [hadd a 1 place h.geometry hlt, ih place hlt, standing, standing, List.map_cons, List.sum_cons, add_comm]
  | @remove ring added a h ha ih =>
    intro place hlt
    rw [hadd a (-1) place h.geometry hlt, ih place hlt, standing_perm (List.perm_cons_erase ha), standing, standing, List.map_cons,
      List.sum_cons]
    split <;> ring

/-- The tails added that a place is near of. -/
def nearby (g : Geometry) (added : List (ℕ × ℤ)) (reach : ℕ) (place : ℤ) : ℤ := (added.map fun a => g.nearAt reach a place).sum

theorem nearby_congr {reach : ℕ} {x y : ℤ} (h : x ≡ y [ZMOD g.length]) : nearby g added reach x = nearby g added reach y := by
  have hat : ∀ a, g.nearAt reach a x = g.nearAt reach a y := by
    intro a
    unfold Geometry.nearAt
    rw [roundDistance_congr Geometry.length_cast_pos ((Int.ModEq.refl _).sub h)]
  unfold nearby
  simp only [hat]

/-- A window round a place counts the tails near it. -/
theorem sum_standing {reach : ℕ} (hshort : 2 * (reach : ℤ) < g.length) (place : ℤ) : ∀ added : List (ℕ × ℤ),
    (∑ d ∈ Finset.range (2 * reach + 1), standing g added ((place - reach + d) % g.length)) = nearby g added reach place
  | [] => Finset.sum_eq_zero fun _ _ => rfl
  | a :: added => by
    have ih := sum_standing hshort place added
    have hwindow := sum_window (y := place) (Geometry.length_cast_pos (g := g)) hshort (Geometry.spot_nonneg (g.keyTail a))
      (Geometry.spot_lt _)
    simp only [standing, nearby, List.map_cons, List.sum_cons, Finset.sum_add_distrib] at ih ⊢
    rw [ih, hwindow]
    rfl

theorem sum_take (l : List ℤ) (a : ℕ) : ∀ n : ℕ,
    (l.take (a + n)).sum - (l.take a).sum = ∑ d ∈ Finset.range n, l.getD (a + d) 0
  | 0 => by simp
  | n + 1 => by
    rw [Finset.sum_range_succ, ← sum_take l a n, ← Nat.add_assoc, List.take_add_one, List.sum_append, List.getD_eq_getElem?_getD]
    have hlast : (l[a + n]?.toList).sum = l[a + n]?.getD 0 := by
      cases l[a + n]? with
      | none => rfl
      | some z => exact List.sum_singleton
    rw [hlast]
    ring

/-- Three turns of the ring, place by place. -/
theorem getD_turns {l : List ℤ} {k : ℕ} (h : k < 3 * l.length) : (l ++ l ++ l).getD k 0 = l.getD (k % l.length) 0 := by
  simp only [List.getD_eq_getElem?_getD]
  congr 1
  by_cases h1 : k < l.length
  · rw [List.getElem?_append_left (by rw [List.length_append]; omega), List.getElem?_append_left h1, Nat.mod_eq_of_lt h1]
  · by_cases h2 : k < l.length + l.length
    · rw [List.getElem?_append_left (by rw [List.length_append]; omega), List.getElem?_append_right (by omega),
        Nat.mod_eq_sub_mod (by omega), Nat.mod_eq_of_lt (by omega)]
    · rw [List.getElem?_append_right (by rw [List.length_append]; omega), List.length_append, Nat.mod_eq_sub_mod (by omega),
        Nat.mod_eq_sub_mod (by omega), Nat.mod_eq_of_lt (by omega), Nat.sub_sub]

/-- **The difference of the running totals is the tails near the place.** -/
theorem Placed.total_sub (h : Placed g ring added) (hheld : g.held = 0) {reach : ℕ} (hshort : 2 * (reach : ℤ) < g.length)
    {place : ℤ} (hnonneg : 0 ≤ place) (hlt : place < g.length) :
    ring.total (place + g.length + reach + 1) - ring.total (place + g.length - reach) = nearby g added reach place := by
  have hlength : ring.tails.length = g.length := by rw [ring.tails_length, h.geometry]
  unfold KVTailRing.total
  obtain ⟨start, hstart⟩ : ∃ start : ℕ, place + g.length - reach = start := ⟨(place + g.length - reach).toNat, by omega⟩
  have hstop : (place + g.length + reach + 1).toNat = start + (2 * reach + 1) := by omega
  rw [hstop, hstart, Int.toNat_natCast, sum_take, ← sum_standing hshort]
  refine Finset.sum_congr rfl fun d hd => ?_
  have hd := Finset.mem_range.1 hd
  have hmod : ((start + d) % g.length : ℕ) = (place - reach + d) % (g.length : ℤ) := by
    push_cast
    rw [← hstart, show place + (g.length : ℤ) - reach + d = place - reach + d + g.length by ring, Int.add_emod_right]
  rw [getD_turns (by omega), hlength, h.tails hheld _ (Nat.mod_lt _ g.length_pos), hmod]

/-- **A block's score is what its tails would collide with, and what they would meet.** -/
theorem Placed.score (h : Placed g ring added) (hbanks : 2 ≤ g.banks) (hheld : g.held = 0) (rows : ℤ) (block : ℕ) :
    ring.score rows block = toLex (((ofLex (g.load added (block, rows))).1 : ℤ), ((ofLex (g.load added (block, rows))).2 : ℤ)) := by
  have hpage := g.perPage_pos
  have hlength := g.length_cast
  have hpos := g.length_cast_pos
  have hshort : 2 * ((g.perPage - 1 : ℕ) : ℤ) < g.length := by
    have : (2 : ℤ) * g.perPage ≤ g.banks * g.perPage := mul_le_mul_of_nonneg_right (by omega) (by omega)
    omega
  have hposition : (ring.position block rows : ℤ) = g.spot (g.keyTail (block, rows)) := by
    have := @position_eq ring (by rw [h.geometry]; exact hheld) (block, rows)
    rwa [h.geometry] at this
  have hcentres : ring.geometry.centres = [(0, 2), (g.offset, 1), (-g.offset, 1)] := by
    rw [h.geometry, Geometry.centres, if_pos hheld]
    rfl
  have hfacing : ∀ centre, ring.facing (ring.position block rows) centre = (g.spot (g.keyTail (block, rows)) + centre) % g.length := by
    intro centre
    rw [KVTailRing.facing, hposition, h.geometry]
  have hpairs : ∀ reach, (Geometry.conflicts (g.Near reach) (g.tailsOf (block, rows)) (added.flatMap g.tailsOf) : ℤ) =
      2 * nearby g added reach (g.spot (g.keyTail (block, rows))) +
        nearby g added reach (g.spot (g.keyTail (block, rows)) + g.offset) +
        nearby g added reach (g.spot (g.keyTail (block, rows)) - g.offset) := by
    intro reach
    rw [Geometry.conflicts_near, List.sum_map_add, List.sum_map_add, List.sum_map_mul_left]
    rfl
  have hat : ∀ centre, ring.tails.getD (ring.facing (ring.position block rows) centre).toNat 0 =
      nearby g added 0 (g.spot (g.keyTail (block, rows)) + centre) := by
    intro centre
    have hmod := Int.emod_nonneg (g.spot (g.keyTail (block, rows)) + centre) hpos.ne'
    have hlt := Int.emod_lt_of_pos (g.spot (g.keyTail (block, rows)) + centre) hpos
    have hnone : 2 * ((0 : ℕ) : ℤ) < g.length := by omega
    have hzero := sum_standing hnone (g.spot (g.keyTail (block, rows)) + centre) added
    simp only [Nat.mul_zero, Nat.zero_add, Finset.sum_range_one, Nat.cast_zero, sub_zero, add_zero] at hzero
    rw [hfacing, h.tails hheld _ (by omega), Int.toNat_of_nonneg hmod, hzero]
  have haround : ∀ centre, ring.total (ring.facing (ring.position block rows) centre + ring.geometry.length +
      (ring.geometry.perPage - 1) + 1) - ring.total (ring.facing (ring.position block rows) centre + ring.geometry.length -
        (ring.geometry.perPage - 1)) = nearby g added (g.perPage - 1) (g.spot (g.keyTail (block, rows)) + centre) := by
    intro centre
    have hcast : ((g.perPage : ℤ) - 1) = ((g.perPage - 1 : ℕ) : ℤ) := by omega
    rw [h.geometry, hcast, hfacing, h.total_sub hheld hshort (Int.emod_nonneg _ hpos.ne') (Int.emod_lt_of_pos _ hpos)]
    exact nearby_congr (Int.mod_modEq _ _)
  unfold KVTailRing.score Geometry.load
  rw [ofLex_toLex, Geometry.collide_eq_near, Geometry.meet_eq_near, hpairs, hpairs]
  congr 2
  · rw [KVTailRing.fills, hcentres]
    simp only [List.map_cons, List.map_nil, List.sum_cons, List.sum_nil, hat, add_zero, one_mul, ← sub_eq_add_neg]
    ring
  · rw [KVTailRing.shared, hcentres]
    simp only [List.map_cons, List.map_nil, List.sum_cons, List.sum_nil, haround, add_zero, one_mul, ← sub_eq_add_neg]
    ring

/-- The pick is the first of the best scores. -/
theorem pick_first (ring : KVTailRing) {options : List ℕ} (hne : options ≠ []) (rows : ℤ) :
    ∃ block, options[ring.pick options rows]? = some block ∧ (∀ other ∈ options, ring.score rows block ≤ ring.score rows other) ∧
      ∀ other ∈ options.take (ring.pick options rows), ring.score rows block < ring.score rows other := by
  have hlt := ring.pick_lt hne rows
  refine ⟨options[ring.pick options rows], List.getElem?_eq_getElem hlt, ?_⟩
  have hlt' : (options.map (ring.score rows)).findIdx (fun s => (options.map (ring.score rows)).all fun t => s ≤ t) <
      (options.map (ring.score rows)).length := by rw [List.length_map]; exact hlt
  have hleast : ∀ other ∈ options, ring.score rows options[ring.pick options rows] ≤ ring.score rows other := by
    intro other hother
    have := List.findIdx_getElem (w := hlt')
    rw [List.getElem_map, List.all_eq_true] at this
    exact of_decide_eq_true (this _ (List.mem_map_of_mem hother))
  refine ⟨hleast, fun other hother => lt_of_not_ge fun hge => ?_⟩
  obtain ⟨j, hj, rfl⟩ := List.mem_take_iff_getElem.1 hother
  have hbefore : j < ring.pick options rows := lt_of_lt_of_le hj (min_le_left _ _)
  have hnot := List.not_of_lt_findIdx hbefore
  rw [List.getElem_map, List.all_eq_false] at hnot
  obtain ⟨t, ht, hworse⟩ := hnot
  obtain ⟨another, hanother, rfl⟩ := List.mem_map.1 ht
  exact hworse (decide_eq_true (hge.trans (hleast another hanother)))

/-- One count of pairs goes before another as their scores do. -/
theorem toLex_cast_le {p q : ℕ ×ₗ ℕ} :
    toLex (((ofLex p).1 : ℤ), ((ofLex p).2 : ℤ)) ≤ toLex (((ofLex q).1 : ℤ), ((ofLex q).2 : ℤ)) ↔ p ≤ q := by
  rw [Prod.Lex.toLex_le_toLex, Prod.Lex.le_iff]
  simp only [Nat.cast_lt, Nat.cast_inj, Nat.cast_le]

/-- **The pick meets the least, and the first such block is picked.** -/
theorem Placed.pick (h : Placed g ring added) (hbanks : 2 ≤ g.banks) (hheld : g.held = 0) {options : List ℕ} (hne : options ≠ [])
    (rows : ℤ) : ∃ block, options[ring.pick options rows]? = some block ∧
      (∀ other ∈ options, g.load added (block, rows) ≤ g.load added (other, rows)) ∧
      ∀ other ∈ options.take (ring.pick options rows), g.load added (block, rows) < g.load added (other, rows) := by
  obtain ⟨block, hblock, hleast, hfirst⟩ := pick_first ring hne rows
  have hscore := h.score hbanks hheld rows
  refine ⟨block, hblock, fun other hother => ?_, fun other hother => lt_of_not_ge fun hge => ?_⟩
  · have := hleast other hother
    rwa [hscore, hscore, toLex_cast_le] at this
  · have := hfirst other hother
    rw [hscore, hscore] at this
    exact this.not_ge (toLex_cast_le.2 hge)

/-! ## The settled list -/

/-- So many slots, so many blocks free, and so many held. -/
structure Settling.Counts (s : Settling) (slots free held : ℕ) : Prop where
  slots : s.slots.length = slots
  free : s.free.length = free
  held : s.held.length = held

variable {s : Settling} {slots free held : ℕ} {output : ℤ}

theorem Settling.seed_ok {rows : ℤ} (h : s.Counts slots (free + 1) held) : ∃ t, s.seed rows = .ok t ∧ t.Counts slots free (held + 1) := by
  unfold Settling.seed
  cases hfree : s.free with
  | nil =>
    have := h.free
    rw [hfree] at this
    cases this
  | cons block rest =>
    have hrest := h.free
    rw [hfree, List.length_cons] at hrest
    refine ⟨_, rfl, h.slots, Nat.succ.inj hrest, ?_⟩
    simp [Settling.hold, h.held]

theorem Settling.admits_ok (h : s.Counts (slots + 1) (free + 1) held) :
    ∃ t, s.admits output = .ok t ∧ t.Counts (slots + 1) free (held + 1) := by
  have hfree : s.free ≠ [] := by
    intro hnil
    have := h.free
    rw [hnil] at this
    cases this
  unfold Settling.admits
  cases hslots : s.slots with
  | nil =>
    have := h.slots
    rw [hslots] at this
    cases this
  | cons first rest =>
    have hlt := s.ring.pick_lt hfree (first - output)
    have hrest := h.slots
    rw [hslots, List.length_cons] at hrest
    simp only [List.getElem?_eq_getElem hlt]
    refine ⟨_, rfl, ?_, ?_, ?_⟩
    · simpa [Settling.hold] using hrest
    · simp [Settling.hold, List.length_eraseIdx_of_lt hlt, h.free]
    · simp [Settling.hold, h.held]

theorem Settling.refill_ok (h : s.Counts (slots + 1) free (held + 1)) :
    ∃ t, s.refill output = .ok t ∧ t.Counts (slots + 1) free (held + 1) := by
  unfold Settling.refill
  cases hheld : s.held with
  | nil =>
    have := h.held
    rw [hheld] at this
    cases this
  | cons oldest rest =>
    have hrest := h.held
    rw [hheld, List.length_cons] at hrest
    refine Settling.admits_ok ⟨h.slots, ?_, Nat.succ.inj hrest⟩
    simp [h.free]

theorem repeated_ok {α : Type} {step : α → Except String α} {P : ℕ → α → Prop} (hstep : ∀ n a, P (n + 1) a → ∃ b, step a = .ok b ∧ P n b) :
    ∀ {n m : ℕ} {a : α}, P (n + m) a → ∃ b, repeated step n a = .ok b ∧ P m b
  | 0, m, a, h => ⟨a, rfl, (Nat.zero_add m) ▸ h⟩
  | n + 1, m, a, h => by
    obtain ⟨b, hb, hnext⟩ := hstep (n + m) a (by rwa [show n + m + 1 = n + 1 + m by omega])
    obtain ⟨c, hc, hlast⟩ := repeated_ok hstep hnext
    exact ⟨c, by rw [repeated, hb]; exact hc, hlast⟩

theorem seeds_ok : ∀ {l : List ℤ} {s : Settling} {free held : ℕ}, s.Counts slots (free + l.length) held →
    ∃ t, l.foldlM Settling.seed s = .ok t ∧ t.Counts slots free (held + l.length)
  | [], s, _, _, h => ⟨s, rfl, h⟩
  | rows :: l, s, free, held, h => by
    obtain ⟨t, ht, hnext⟩ := @Settling.seed_ok s slots (free + l.length) held rows (by rwa [List.length_cons, ← Nat.add_assoc] at h)
    obtain ⟨u, hu, hlast⟩ := seeds_ok hnext
    refine ⟨u, by rw [List.foldlM_cons, ht]; exact hu, ?_⟩
    rwa [List.length_cons, show held + (l.length + 1) = held + 1 + l.length by omega]

/-- The run after its seeds are in: the imports take their places, and every seed is still held. -/
theorem fills_ok {rest : ℕ} {n : ℕ} (h : s.Counts (slots + 1) (n + rest) (slots + 1)) :
    ∃ t, repeated (Settling.admits · output) n s = .ok t ∧ ∃ held, t.Counts (slots + 1) rest held ∧ slots + 1 ≤ held := by
  have hstep : ∀ n a, (∃ held, a.Counts (slots + 1) (n + 1 + rest) held ∧ slots + 1 ≤ held) →
      ∃ b, Settling.admits a output = .ok b ∧ ∃ held, b.Counts (slots + 1) (n + rest) held ∧ slots + 1 ≤ held := by
    rintro n a ⟨held, ha, hle⟩
    obtain ⟨b, hb, hnext⟩ := @Settling.admits_ok a slots (n + rest) held output (by rwa [show n + 1 + rest = n + rest + 1 by omega] at ha)
    exact ⟨b, hb, held + 1, hnext, by omega⟩
  obtain ⟨t, ht, held, hlast, hle⟩ := @repeated_ok _ (Settling.admits · output)
    (fun n a => ∃ held, a.Counts (slots + 1) (n + rest) held ∧ slots + 1 ≤ held) hstep n 0 s ⟨_, h, le_rfl⟩
  rw [Nat.zero_add] at hlast
  exact ⟨t, ht, held, hlast, hle⟩

theorem refills_ok (n : ℕ) (h : s.Counts (slots + 1) free held) (hle : slots + 1 ≤ held) :
    ∃ t, repeated (Settling.refill · output) n s = .ok t ∧ t.Counts (slots + 1) free held := by
  have hstep : ∀ n : ℕ, ∀ a : Settling, a.Counts (slots + 1) free held →
      ∃ b, Settling.refill a output = .ok b ∧ b.Counts (slots + 1) free held := by
    intro _ a ha
    obtain ⟨held, rfl⟩ : ∃ h, held = h + 1 := ⟨held - 1, by omega⟩
    exact Settling.refill_ok ha
  exact @repeated_ok _ (Settling.refill · output) (fun _ a => a.Counts (slots + 1) free held) hstep n 0 s h

/-- **The settling run returns, unless there are imports to place and no slot for them.** -/
theorem settledSeedBlocks_ok_iff (shuffle : Shuffle) {ages : List ℤ} (prompt output : ℤ) {blocks : ℕ} (geometry : Geometry)
    (prepared : ℕ) (hle : ages.length ≤ blocks) :
    (∃ l, settledSeedBlocks shuffle ages prompt output blocks geometry prepared = .ok l) ↔
      ages ≠ [] ∨ prepared = 0 ∨ blocks = 0 := by
  have hfree : (shuffle.1 (List.range blocks)).length = blocks := by rw [(shuffle.2 _).length_eq, List.length_range]
  unfold settledSeedBlocks
  cases ages with
  | nil =>
    simp only [List.reverse_nil, List.map_nil, List.length_nil, Nat.sub_zero, Nat.mul_zero, ne_eq, not_true_eq_false, false_or]
    cases hcount : min prepared blocks with
    | zero => exact ⟨fun _ => by omega, fun _ => ⟨_, rfl⟩⟩
    | succ n =>
      constructor
      · rintro ⟨l, hl⟩
        cases hl
      · omega
  | cons age ages =>
    refine ⟨fun _ => .inl (List.cons_ne_nil _ _), fun _ => ?_⟩
    generalize hslots : (age :: ages).reverse.map (fun age => prompt + age + settleGenerations * output) = rows
    have hrows : rows.length = ages.length + 1 := by
      rw [← hslots, List.length_map, List.length_reverse, List.length_cons]
    rw [List.length_cons] at hle ⊢
    obtain ⟨seeded, hseeded, hcounts⟩ := @seeds_ok (ages.length + 1) rows
      ⟨.empty geometry, shuffle.1 (List.range blocks), rows, []⟩ (blocks - (ages.length + 1)) 0
      ⟨hrows, by rw [hfree, hrows]; omega, rfl⟩
    generalize hn : min prepared (blocks - (ages.length + 1)) = n
    obtain ⟨filled, hfilled, held, hfull, henough⟩ := @fills_ok seeded ages.length output (blocks - (ages.length + 1) - n) n
      (by rwa [Nat.zero_add, hrows, show blocks - (ages.length + 1) = n + (blocks - (ages.length + 1) - n) by omega] at hcounts)
    obtain ⟨settled, hsettled, hlast⟩ := @refills_ok filled ages.length _ held output (settleGenerations * (ages.length + 1)) hfull henough
    have hseeds : ¬((settled.held.take (ages.length + 1)).map Prod.fst).length < ages.length + 1 := by
      rw [List.length_map, List.length_take, hlast.held]
      omega
    simp only [hseeded, hfilled, hsettled, bind, Except.bind]
    exact ⟨_, if_neg hseeds⟩

/-- **The ring is faithful to every step to come; and the settled list is the pool, just when the imports have slots.** -/
theorem tail_ring_faithful (g : Geometry) :
    (2 ≤ g.banks → g.held = 0 → ∀ ring : KVTailRing, ring.geometry = g → ∀ a b : ℕ × ℤ,
      (g.Meet (g.keyTail a) (g.keyTail b) ↔
        roundDistance g.length (ring.position a.1 a.2) (ring.position b.1 b.2) < g.perPage) ∧
      (g.Collide (g.keyTail a) (g.keyTail b) ↔ ring.position a.1 a.2 = ring.position b.1 b.2)) ∧
    (2 ≤ g.banks → g.held = 0 → ∀ ring added, Placed g ring added → ∀ options rows, options ≠ [] →
      ∃ block, options[ring.pick options rows]? = some block ∧
        (∀ other ∈ options, g.load added (block, rows) ≤ g.load added (other, rows)) ∧
        ∀ other ∈ options.take (ring.pick options rows), g.load added (block, rows) < g.load added (other, rows)) ∧
    ∀ (shuffle : Shuffle) (ages : List ℤ) (prompt output : ℤ) (blocks prepared : ℕ), ages.length ≤ blocks →
      ((∃ l, settledSeedBlocks shuffle ages prompt output blocks g prepared = .ok l ∧ l.Perm (List.range blocks)) ↔
        ages ≠ [] ∨ prepared = 0 ∨ blocks = 0) := by
  refine ⟨fun _ hheld ring hring a b => ?_, fun hbanks hheld ring added h options rows hne => h.pick hbanks hheld hne rows,
    fun shuffle ages prompt output blocks prepared hle => ?_⟩
  · subst hring
    rw [Geometry.meet_iff, Geometry.collide_iff, ← position_eq hheld, ← position_eq hheld, Int.ofNat_inj]
    exact ⟨Iff.rfl, Iff.rfl⟩
  · rw [← settledSeedBlocks_ok_iff shuffle prompt output g prepared hle]
    constructor
    · rintro ⟨l, hl, -⟩
      exact ⟨l, hl⟩
    · rintro ⟨l, hl⟩
      exact ⟨l, hl, settledSeedBlocks_perm hl⟩

def fourBanks : Geometry := ⟨4, 2, 1, 1, 0, Nat.succ_pos 3, Nat.succ_pos 1⟩

/-- Seven blocks, two of them seeds'. -/
theorem tail_ring_fourBanks : ∃ l, settledSeedBlocks ⟨id, fun _ => .refl _⟩ [0, 3] 10 5 7 fourBanks 2 = .ok l ∧
    l.Perm (List.range 7) :=
  ((tail_ring_faithful fourBanks).2.2 ⟨id, fun _ => .refl _⟩ [0, 3] 10 5 7 2 (by decide)).2 (.inl (by decide))

/-- A group with no seed and an import to place. -/
theorem tail_ring_unseeded : settledSeedBlocks ⟨id, fun _ => .refl _⟩ [] 10 5 4 fourBanks 1 = .error "pop from an empty deque" ∧
    ¬∀ (shuffle : Shuffle) (ages : List ℤ) (prompt output : ℤ) (blocks prepared : ℕ), ages.length ≤ blocks →
      ∃ l, settledSeedBlocks shuffle ages prompt output blocks fourBanks prepared = .ok l ∧ l.Perm (List.range blocks) := by
  have hrun : settledSeedBlocks ⟨id, fun _ => .refl _⟩ [] 10 5 4 fourBanks 1 = .error "pop from an empty deque" := rfl
  refine ⟨hrun, fun h => ?_⟩
  obtain ⟨l, hl, -⟩ := h ⟨id, fun _ => .refl _⟩ [] 10 5 4 1 (by decide)
  rw [hrun] at hl
  cases hl

end HeteroSim.KvBlocks
