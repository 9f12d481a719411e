/-
Things that hang on one another up to a root, each with a key: the way down
from the root to a thing spells its trail. Two trails agree as far as the
things share their way, and the first place at which they differ decides
which comes first.
-/
import Mathlib

namespace HeteroSim

/-! ## The order of two lists by places -/

section Lists

variable {κ : Type} [LinearOrder κ] {l r : List κ}

/-- The first place that differs decides. -/
theorem lt_iff_of_differ {a b : κ} (hne : a ≠ b) : ∀ {l r : List κ} {m : ℕ}, (∀ i < m, l[i]? = r[i]?) → l[m]? = some a →
    r[m]? = some b → (l < r ↔ a < b)
  | [], _, _, _, ha, _ => by simp at ha
  | _ :: _, [], _, _, _, hb => by simp at hb
  | x :: l, y :: r, 0, _, ha, hb => by
    obtain rfl : x = a := by simpa using ha
    obtain rfl : y = b := by simpa using hb
    rw [List.cons_lt_cons_iff]
    exact or_iff_left fun h => hne h.1
  | x :: l, y :: r, m + 1, hsame, ha, hb => by
    obtain rfl : x = y := by simpa using hsame 0 (Nat.succ_pos m)
    rw [List.cons_lt_cons_iff, lt_iff_of_differ hne (fun i hi => by simpa using hsame (i + 1) (Nat.succ_lt_succ hi))
      (by simpa using ha) (by simpa using hb)]
    simp

/-- Lists that agree as far as both go are in order of their lengths. -/
theorem lt_iff_length : ∀ {l r : List κ}, (∀ i, i < l.length → i < r.length → l[i]? = r[i]?) → (l < r ↔ l.length < r.length)
  | [], [], _ => by simp
  | [], _ :: _, _ => by simp
  | _ :: _, [], _ => by simp
  | x :: l, y :: r, hsame => by
    obtain rfl : x = y := by simpa using hsame 0 (by simp) (by simp)
    rw [List.cons_lt_cons_iff, lt_iff_length fun i hl hr => by
      simpa using hsame (i + 1) (by simpa using hl) (by simpa using hr)]
    simp

end Lists

/-! ## Ways up to a root -/

/-- What a thing hangs on, its key if it has one, and how deep it hangs. -/
structure Lineage (ν κ : Type) where
  root : ν
  up : ν → ν
  key : ν → Option κ
  depth : ν → ℕ

namespace Lineage

variable {ν κ : Type} (t : Lineage ν κ)

/-- A thing so many steps up. -/
def above (n : ℕ) (x : ν) : ν := t.up^[n] x

/-- The keys on the way down to a thing, over the last `n` steps. -/
def trailOf : ℕ → ν → List κ
  | 0, _ => []
  | n + 1, x => trailOf n (t.up x) ++ (t.key x).toList

/-- The keys from the root to a thing. -/
def trail (x : ν) : List κ := t.trailOf (t.depth x) x

/-- Every valid thing but the root has a key, and hangs on a valid one, a step less deep. -/
structure Rooted (valid : ν → Prop) : Prop where
  valid_root : valid t.root
  depth_root : t.depth t.root = 0
  valid_up : ∀ x, valid x → x ≠ t.root → valid (t.up x)
  depth_up : ∀ x, valid x → x ≠ t.root → t.depth x = t.depth (t.up x) + 1
  key_some : ∀ x, valid x → x ≠ t.root → (t.key x).isSome

variable {t} {valid : ν → Prop} {x y : ν}

theorem above_succ (n : ℕ) (x : ν) : t.above (n + 1) x = t.above n (t.up x) := Function.iterate_succ_apply _ _ _

theorem above_add (m n : ℕ) (x : ν) : t.above (m + n) x = t.above m (t.above n x) := Function.iterate_add_apply _ _ _ _

theorem above_up (n : ℕ) (x : ν) : t.up (t.above n x) = t.above (n + 1) x := (Function.iterate_succ_apply' _ _ _).symm

namespace Rooted

variable (h : t.Rooted valid)

include h

theorem eq_root (hx : valid x) (hzero : t.depth x = 0) : x = t.root := by
  by_contra hne
  have := h.depth_up x hx hne
  omega

theorem ne_root (hpos : 0 < t.depth x) : x ≠ t.root := by
  rintro rfl
  have := h.depth_root
  omega

theorem above : ∀ {n : ℕ} {x : ν}, valid x → n ≤ t.depth x → valid (t.above n x) ∧ t.depth (t.above n x) = t.depth x - n
  | 0, x, hx, _ => ⟨hx, rfl⟩
  | n + 1, x, hx, hn => by
    have hne := h.ne_root (x := x) (by omega)
    have hdepth := h.depth_up x hx hne
    have hrest := Rooted.above (h.valid_up x hx hne) (n := n) (by omega)
    rw [above_succ, hrest.2]
    exact ⟨hrest.1, by omega⟩

theorem above_depth (hx : valid x) : t.above (t.depth x) x = t.root := by
  have hroot := h.above hx le_rfl
  exact h.eq_root hroot.1 (by omega)

theorem length_trailOf : ∀ {n : ℕ} {x : ν}, valid x → n ≤ t.depth x → (t.trailOf n x).length = n
  | 0, _, _, _ => rfl
  | n + 1, x, hx, hn => by
    have hne := h.ne_root (x := x) (by omega)
    have hdepth := h.depth_up x hx hne
    obtain ⟨k, hk⟩ := Option.isSome_iff_exists.1 (h.key_some x hx hne)
    rw [trailOf, List.length_append, length_trailOf (h.valid_up x hx hne) (by omega), hk]
    rfl

theorem length_trail (hx : valid x) : (t.trail x).length = t.depth x := h.length_trailOf hx le_rfl

/-- A place of the trail is the key of the thing as far up as places follow. -/
theorem trailOf_getElem? : ∀ {n i : ℕ} {x : ν}, valid x → n ≤ t.depth x → i < n →
    (t.trailOf n x)[i]? = t.key (t.above (n - (i + 1)) x)
  | n + 1, i, x, hx, hn, hi => by
    have hne := h.ne_root (x := x) (by omega)
    have hdepth := h.depth_up x hx hne
    have hlength := h.length_trailOf (n := n) (h.valid_up x hx hne) (by omega)
    rw [trailOf]
    by_cases hlast : i < n
    · rw [List.getElem?_append_left (by omega), trailOf_getElem? (h.valid_up x hx hne) (by omega) hlast, ← above_succ,
        show n - (i + 1) + 1 = n + 1 - (i + 1) by omega]
    · obtain rfl : i = n := by omega
      obtain ⟨k, hk⟩ := Option.isSome_iff_exists.1 (h.key_some x hx hne)
      rw [List.getElem?_append_right (by omega), hlength, Nat.sub_self, Nat.sub_self, hk]
      exact hk.symm

theorem trail_getElem? {i : ℕ} (hx : valid x) (hi : i < t.depth x) :
    (t.trail x)[i]? = t.key (t.above (t.depth x - (i + 1)) x) :=
  h.trailOf_getElem? hx le_rfl hi

/-- Below where the ways meet, the trails agree. -/
theorem trail_same {d : ℕ} (hx : valid x) (hy : valid y) (hdx : d ≤ t.depth x) (hdy : d ≤ t.depth y)
    (hmeet : t.above (t.depth x - d) x = t.above (t.depth y - d) y) : ∀ i < d, (t.trail x)[i]? = (t.trail y)[i]? := by
  intro i hi
  rw [h.trail_getElem? hx (by omega), h.trail_getElem? hy (by omega),
    show t.depth x - (i + 1) = d - (i + 1) + (t.depth x - d) by omega,
    show t.depth y - (i + 1) = d - (i + 1) + (t.depth y - d) by omega, above_add, above_add, hmeet]

/-- What a thing hangs on comes before it. -/
theorem trail_lt [LinearOrder κ] {n : ℕ} (hx : valid x) (hpos : 0 < n) (hn : n ≤ t.depth x) : t.trail (t.above n x) < t.trail x := by
  obtain ⟨hvalid, hdepth⟩ := h.above hx hn
  have hsame := h.trail_same (d := t.depth x - n) hvalid hx (by omega) (by omega)
    (by rw [hdepth, Nat.sub_self, show t.depth x - (t.depth x - n) = n by omega]; rfl)
  have hlength := h.length_trail hvalid
  rw [lt_iff_length fun i hi _ => hsame i (by omega), hlength, h.length_trail hx]
  omega

end Rooted

/-! ## Skew jumps -/

/-- A thing jumps as far again as the one it hangs on, when that one's last two jumps were as long. -/
structure Skew [DecidableEq ν] (t : Lineage ν κ) (valid : ν → Prop) (jump : ν → ν) : Prop where
  jump_root : jump t.root = t.root
  jump_eq : ∀ x, valid x → x ≠ t.root → jump x =
    if jump (t.up x) ≠ t.root ∧
        (t.depth (t.up x) : ℤ) - t.depth (jump (t.up x)) = t.depth (jump (t.up x)) - t.depth (jump (jump (t.up x))) then
      jump (jump (t.up x))
    else t.up x

namespace Skew

variable [DecidableEq ν] {jump : ν → ν}

/-- A jump goes up, a step at least. -/
theorem above (hs : Skew t valid jump) (h : t.Rooted valid) : ∀ {n : ℕ} {x : ν}, t.depth x = n → valid x → x ≠ t.root →
    ∃ m, 1 ≤ m ∧ m ≤ t.depth x ∧ jump x = t.above m x := by
  intro n
  induction n using Nat.strong_induction_on with
  | _ n ih =>
    intro x hn hx hne
    have hdepth := h.depth_up x hx hne
    have hup := h.valid_up x hx hne
    rw [hs.jump_eq x hx hne]
    split
    · next hjump =>
      have hupne : t.up x ≠ t.root := fun heq => hjump.1 (heq ▸ hs.jump_root)
      obtain ⟨m, hm, hle, heq⟩ := ih _ (by omega) rfl hup hupne
      have hm' := h.above hup hle
      have hne' := hjump.1
      rw [heq] at hne' ⊢
      obtain ⟨k, hk, hle', heq'⟩ := ih _ (by omega) rfl hm'.1 hne'
      refine ⟨k + m + 1, by omega, by omega, ?_⟩
      rw [heq', above_succ, above_add]
    · exact ⟨1, le_rfl, by omega, rfl⟩

/-- **Things as deep jump as far.** -/
theorem depth_jump (hs : Skew t valid jump) (h : t.Rooted valid) : ∀ {n : ℕ} {x y : ν}, t.depth x = n → t.depth y = n →
    valid x → valid y → t.depth (jump x) = t.depth (jump y) := by
  intro n
  induction n using Nat.strong_induction_on with
  | _ n ih =>
    intro x y hxn hyn hx hy
    by_cases hzero : n = 0
    · rw [h.eq_root hx (by omega), h.eq_root hy (by omega)]
    · have hxne := h.ne_root (x := x) (by omega)
      have hyne := h.ne_root (x := y) (by omega)
      have hdx := h.depth_up x hx hxne
      have hdy := h.depth_up y hy hyne
      have hux := h.valid_up x hx hxne
      have huy := h.valid_up y hy hyne
      have hup : t.depth (t.up x) = t.depth (t.up y) := by omega
      have hjump := ih _ (by omega) rfl hup.symm hux huy
      -- what a thing's parent jumps to is valid, and less deep than the thing
      have hbelow : ∀ z, valid z → t.depth z < n → valid (jump z) ∧ t.depth (jump z) < n := by
        intro z hz hlt
        by_cases hroot : z = t.root
        · rw [hroot, hs.jump_root]
          exact ⟨h.valid_root, by rw [h.depth_root]; omega⟩
        · obtain ⟨m, hm, hle, heq⟩ := hs.above h rfl hz hroot
          have := h.above hz hle
          rw [heq]
          exact ⟨this.1, by omega⟩
      obtain ⟨hvx, hlx⟩ := hbelow _ hux (by omega)
      obtain ⟨hvy, hly⟩ := hbelow _ huy (by omega)
      have hjump2 := ih _ hlx rfl hjump.symm hvx hvy
      have hroots : jump (t.up x) ≠ t.root ↔ jump (t.up y) ≠ t.root := by
        constructor
        · intro hne heq
          rw [heq, h.depth_root] at hjump
          exact hne (h.eq_root hvx hjump)
        · intro hne heq
          rw [heq, h.depth_root] at hjump
          exact hne (h.eq_root hvy hjump.symm)
      rw [hs.jump_eq x hx hxne, hs.jump_eq y hy hyne, hup, hjump, hjump2]
      by_cases hfar : jump (t.up y) ≠ t.root ∧
          (t.depth (t.up y) : ℤ) - t.depth (jump (t.up y)) = t.depth (jump (t.up y)) - t.depth (jump (jump (t.up y)))
      · rw [if_pos ⟨hroots.2 hfar.1, hfar.2⟩, if_pos hfar]
        exact hjump2
      · rw [if_neg fun hx => hfar ⟨hroots.1 hx.1, hx.2⟩, if_neg hfar]
        exact hup

end Skew

end Lineage

end HeteroSim
