/-
Texts cut at a length, and the texts that begin with another. In a sorted
list these follow it in one block, so a walk from its place may stop at the
first that does not begin with it.
-/
import HeteroSim.Bisect

namespace HeteroSim

/-- `text[:n]` -/
def textTake (n : ℕ) (s : String) : String := String.ofList (s.toList.take n)

/-- `text[n:]` -/
def textDrop (n : ℕ) (s : String) : String := String.ofList (s.toList.drop n)

/-- `s.startswith(p)` -/
def Begins (p s : String) : Prop := p.toList <+: s.toList

instance (p s : String) : Decidable (Begins p s) := inferInstanceAs (Decidable (p.toList <+: s.toList))

theorem begins_iff {p s : String} : Begins p s ↔ ∃ u, s = p ++ u := by
  constructor
  · rintro ⟨u, hu⟩
    exact ⟨String.ofList u, String.toList_inj.1 (by rw [String.toList_append, String.toList_ofList, hu])⟩
  · rintro ⟨u, rfl⟩
    exact ⟨u.toList, by rw [String.toList_append]⟩

theorem text_length (s : String) : s.toList.length = s.length := String.length_toList

@[simp] theorem textTake_append (p u : String) : textTake p.length (p ++ u) = p := by
  rw [textTake, String.toList_append, List.take_left' (text_length p), String.ofList_toList]

@[simp] theorem textDrop_append (p u : String) : textDrop p.length (p ++ u) = u := by
  rw [textDrop, String.toList_append, List.drop_left' (text_length p), String.ofList_toList]

theorem textTake_drop (n : ℕ) (s : String) : textTake n s ++ textDrop n s = s := by
  rw [← String.toList_inj, String.toList_append, textTake, textDrop, String.toList_ofList, String.toList_ofList,
    List.take_append_drop]

theorem append_cancel {p u v : String} (h : p ++ u = p ++ v) : u = v := by
  rw [← textDrop_append p u, h, textDrop_append]

/-- Two ways of cutting a text in two: what is between the cuts goes to the
end of the shorter front. -/
theorem append_split {p b q c : String} (h : p ++ b = q ++ c) (hle : q.length ≤ p.length) :
    ∃ u, p = q ++ u ∧ c = u ++ b := by
  have hp : textTake q.length p = q := by
    have hcut : textTake q.length (p ++ b) = textTake q.length p := by
      rw [textTake, textTake, String.toList_append, List.take_append_of_le_length (by rwa [text_length])]
    rw [← hcut, h, textTake_append]
  refine ⟨textDrop q.length p, ?_, ?_⟩
  · conv_lhs => rw [← textTake_drop q.length p, hp]
  · refine append_cancel (p := q) ?_
    rw [← h, ← String.append_assoc]
    conv_lhs => rw [← textTake_drop q.length p, hp]

/-! ## The block of a sorted list -/

theorem prefix_between {α : Type} [LinearOrder α] : ∀ {p q r : List α}, ¬q < p → ¬r < q → p <+: r → p <+: q
  | [], _, _, _, _, _ => List.nil_prefix
  | _ :: _, [], _, hpq, _, _ => absurd (List.nil_lt_cons _ _) hpq
  | a :: p, b :: q, r, hpq, hqr, h => by
    obtain ⟨u, rfl⟩ := h
    rw [List.cons_append, List.cons_lt_cons_iff, not_or, not_and] at hqr
    rw [List.cons_lt_cons_iff, not_or, not_and] at hpq
    obtain rfl : a = b := le_antisymm (not_lt.1 hpq.1) (not_lt.1 hqr.1)
    rw [List.cons_prefix_cons]
    exact ⟨rfl, prefix_between (hpq.2 rfl) (hqr.2 rfl) (List.prefix_append p u)⟩

theorem begins_between {p q r : String} (hpq : p ≤ q) (hqr : q ≤ r) (h : Begins p r) : Begins p q :=
  prefix_between (fun hlt => not_lt.2 hpq (String.lt_iff_toList_lt.2 hlt))
    (fun hlt => not_lt.2 hqr (String.lt_iff_toList_lt.2 hlt)) h

theorem not_append_lt {α : Type} [LinearOrder α] : ∀ (p u : List α), ¬p ++ u < p
  | [], _ => List.not_lt_nil _
  | a :: p, u => by
    rw [List.cons_append, List.cons_lt_cons_iff, not_or, not_and]
    exact ⟨lt_irrefl a, fun _ => not_append_lt p u⟩

theorem le_append (p u : String) : p ≤ p ++ u := by
  rw [← not_lt, String.lt_iff_toList_lt, String.toList_append]
  exact not_append_lt _ _

/-- **From its place on, the texts that begin with `p` come first.** -/
theorem mem_block {l : List String} (h : l.Pairwise (· < ·)) {p q : String} :
    q ∈ (l.drop (bisectLeft (fun r => decide (r ≤ p)) l)).takeWhile (fun r => decide (Begins p r)) ↔
      q ∈ l ∧ Begins p q ∧ q ≠ p := by
  have hall : bisectLeft (fun _ => true) l = l.length := by
    rw [bisectLeft, List.takeWhile_eq_self_iff.2 fun _ _ => rfl]
  have hdrop : ∀ x, x ∈ l.drop (bisectLeft (fun r => decide (r ≤ p)) l) ↔ x ∈ l ∧ p < x := fun x => by
    have hslice := mem_slice (p := fun _ => true) (q := fun r => decide (r ≤ p)) (l := l)
      (h.imp fun _ _ => rfl) (h.imp fun hab hb => decide_eq_true (hab.le.trans (of_decide_eq_true hb))) x
    rw [hall, List.take_length] at hslice
    simpa using hslice
  have hfalling : Falling (fun r => decide (Begins p r)) (l.drop (bisectLeft (fun r => decide (r ≤ p)) l)) := by
    refine (h.sublist (List.drop_sublist _ _)).imp_of_mem fun {a b} ha _ hab hb => ?_
    exact decide_eq_true (begins_between ((hdrop a).1 ha).2.le hab.le (of_decide_eq_true hb))
  rw [mem_takeWhile_falling hfalling, hdrop, decide_eq_true_eq]
  constructor
  · rintro ⟨⟨hm, hlt⟩, hb⟩
    exact ⟨hm, hb, hlt.ne'⟩
  · rintro ⟨hm, hb, hne⟩
    obtain ⟨u, rfl⟩ := begins_iff.1 hb
    exact ⟨⟨hm, lt_of_le_of_ne (le_append p u) (Ne.symm hne)⟩, hb⟩

end HeteroSim
