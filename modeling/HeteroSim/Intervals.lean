/-
Sorted disjoint intervals edited in place: a bisection over the starts finds
what a range meets, and a range is merged with the intervals it touches.
-/
import HeteroSim.Gaps

namespace HeteroSim

/-- Whether `[left, right)` overlaps any of the intervals. -/
def intervalsOverlap (l : List Gap) (left right : Int) : Bool :=
  let index := bisectLeft (fun g => decide (g.lo ≤ left)) l
  (l.take index).getLast?.any (fun g => decide (left < g.hi)) || (l.drop index).head?.any fun g => decide (g.lo < right)

/-- The intervals that start by `right` move it to their ends. -/
def swallow : Int → List Gap → Int × List Gap
  | right, [] => (right, [])
  | right, g :: l => if g.lo ≤ right then swallow (max right g.hi) l else (right, g :: l)

/-- `[left, right)` merged into the intervals. -/
def intervalsAdd (l : List Gap) (left right : Int) : List Gap :=
  let index := bisectLeft (fun g => decide (g.lo < left)) l
  let touched := (l.take index).getLast?.filter fun g => decide (left ≤ g.hi)
  let index := if touched.isSome then index - 1 else index
  let swallowed := swallow right (l.drop index)
  l.take index ++ Gap.mk ((touched.map Gap.lo).getD left) swallowed.1 :: swallowed.2

theorem drop_bisectLeft {α : Type} (p : α → Bool) (l : List α) : l.drop (bisectLeft p l) = l.dropWhile p := by
  have h : l.takeWhile p ++ l.drop (bisectLeft p l) = l.takeWhile p ++ l.dropWhile p := by
    rw [← take_bisectLeft, List.take_append_drop, take_bisectLeft, List.takeWhile_append_dropWhile]
  exact List.append_cancel_left h

theorem Separated.last_hi {l : List Gap} {k : Gap} (h : Separated (l ++ [k])) : ∀ g ∈ l ++ [k], g.hi ≤ k.hi := by
  intro g hg
  obtain ⟨-, -, hcross⟩ := separated_append.1 h
  have hk := h.proper k (by simp)
  rcases List.mem_append.1 hg with hg | hg
  · have := hcross g hg k (by simp)
    omega
  · rw [List.mem_singleton.1 hg]

/-- **The bisection finds whether the range meets an interval.** -/
theorem intervalsOverlap_iff {l : List Gap} {left right : Int} (h : Separated l) (hlt : left < right) :
    intervalsOverlap l left right = true ↔ ∃ g ∈ l, g.lo < right ∧ left < g.hi := by
  have hpre := Separated.before_lo (l := l) (left + 1)
  have hpost := h.after_lo (left + 1)
  simp only [Int.lt_add_one_iff] at hpre hpost
  rw [intervalsOverlap, drop_bisectLeft, take_bisectLeft]
  have hall := List.takeWhile_append_dropWhile (p := fun g : Gap => decide (g.lo ≤ left)) (l := l)
  generalize l.takeWhile (fun g => decide (g.lo ≤ left)) = pre at hpre hall ⊢
  generalize l.dropWhile (fun g => decide (g.lo ≤ left)) = post at hpost hall ⊢
  subst hall
  obtain ⟨hs, hs', -⟩ := separated_append.1 h
  simp only [Bool.or_eq_true, List.mem_append, or_and_right, exists_or]
  refine or_congr ?_ ?_
  · -- before the bisection the last interval ends last
    rcases List.eq_nil_or_concat pre with rfl | ⟨init, k, rfl⟩
    · simp
    · rw [List.concat_eq_append] at hs hpre ⊢
      rw [List.getLast?_append]
      simp only [List.getLast?_singleton, Option.some_or, Option.any_some, decide_eq_true_eq]
      refine ⟨fun hk => ⟨k, by simp, ?_, hk⟩, fun ⟨g, hg, _, hhi⟩ => ?_⟩
      · have := hpre k (by simp)
        omega
      · have := hs.last_hi g hg
        omega
  · -- from the bisection on the first interval starts first
    cases post with
    | nil => simp
    | cons k m =>
      obtain ⟨hk, hkm, -⟩ := separated_cons.1 hs'
      simp only [List.head?_cons, Option.any_some, decide_eq_true_eq]
      refine ⟨fun hlo => ⟨k, by simp, hlo, ?_⟩, fun ⟨g, hg, hlo, _⟩ => ?_⟩
      · have := hpost k (by simp)
        omega
      · rcases List.mem_cons.1 hg with rfl | hg
        · exact hlo
        · have := hkm g hg
          omega

theorem swallow_spec {start : Int} : ∀ {l : List Gap} {right : Int}, Separated l → start < right →
    (∀ g ∈ l, start ≤ g.lo) → right ≤ (swallow right l).1 ∧ Separated (swallow right l).2 ∧
      (∀ g ∈ (swallow right l).2, (swallow right l).1 < g.lo) ∧
      ∀ x, (start ≤ x ∧ x < (swallow right l).1) ∨ Holds (swallow right l).2 x ↔ (start ≤ x ∧ x < right) ∨ Holds l x
  | [], right, _, _, _ => ⟨le_rfl, separated_nil, by simp [swallow], fun x => by simp [swallow]⟩
  | g :: l, right, h, hlt, hge => by
    obtain ⟨hg, hgl, hl⟩ := separated_cons.1 h
    have hstart := hge g (by simp)
    unfold swallow
    split
    · next hle =>
      obtain ⟨hright, hsep, hrest, hx⟩ := swallow_spec hl (lt_max_of_lt_left hlt) fun k hk => hge k (by simp [hk])
      refine ⟨(le_max_left _ _).trans hright, hsep, hrest, fun x => ?_⟩
      rw [hx x, holds_cons, ← or_assoc]
      refine or_congr_left ?_
      omega
    · next hgt =>
      refine ⟨le_rfl, h, fun k hk => ?_, fun x => Iff.rfl⟩
      rcases List.mem_cons.1 hk with rfl | hk
      · omega
      · have := hgl k hk
        omega

/-- **Adding a range keeps the intervals apart and adds its integers.** -/
theorem intervalsAdd_spec {l : List Gap} {left right : Int} (h : Separated l) (hlt : left < right) :
    Separated (intervalsAdd l left right) ∧
      ∀ x, Holds (intervalsAdd l left right) x ↔ Holds l x ∨ (left ≤ x ∧ x < right) := by
  have hpre := Separated.before_lo (l := l) left
  have hpost := h.after_lo left
  have hall := List.takeWhile_append_dropWhile (p := fun g : Gap => decide (g.lo < left)) (l := l)
  have htake := take_bisectLeft (fun g : Gap => decide (g.lo < left)) l
  have hdrop := drop_bisectLeft (fun g : Gap => decide (g.lo < left)) l
  have hlen : bisectLeft (fun g : Gap => decide (g.lo < left)) l = (l.takeWhile fun g => decide (g.lo < left)).length := rfl
  unfold intervalsAdd
  generalize bisectLeft (fun g : Gap => decide (g.lo < left)) l = index at htake hdrop hlen ⊢
  generalize l.takeWhile (fun g => decide (g.lo < left)) = pre at *
  generalize l.dropWhile (fun g => decide (g.lo < left)) = post at *
  subst hall hlen
  obtain ⟨hs, hs', hcross⟩ := separated_append.1 h
  have hfresh : (∀ g ∈ pre, g.hi < left) → Separated (pre ++ Gap.mk left (swallow right post).1 :: (swallow right post).2) ∧
      ∀ x, Holds (pre ++ Gap.mk left (swallow right post).1 :: (swallow right post).2) x ↔
        Holds (pre ++ post) x ∨ (left ≤ x ∧ x < right) := by
    intro hbefore
    obtain ⟨hright, hsep, hrest, hx⟩ := swallow_spec hs' hlt hpost
    refine ⟨separated_append.2 ⟨hs, separated_cons.2 ⟨?_, hrest, hsep⟩, fun g hg k hk => ?_⟩, fun x => ?_⟩
    · simp only [Gap.lo_mk, Gap.hi_mk]
      omega
    · have hg := hbefore g hg
      rcases List.mem_cons.1 hk with rfl | hk
      · exact hg
      · have := hrest k hk
        omega
    · rw [holds_append, holds_cons, Gap.lo_mk, Gap.hi_mk, hx x, holds_append]
      tauto
  dsimp only
  rw [htake]
  rcases List.eq_nil_or_concat pre with rfl | ⟨init, k, rfl⟩
  · simpa using hfresh (by simp)
  · rw [List.concat_eq_append] at *
    have hklast : (init ++ [k]).getLast? = some k := by simp
    have hklo := hpre k (by simp)
    have hk := hs.proper k (by simp)
    rw [hklast]
    by_cases htouch : left ≤ k.hi
    · -- the interval before it is reached: it is merged as well
      obtain ⟨hsi, -, hik⟩ := separated_append.1 hs
      have hsk : Separated (k :: post) := separated_cons.2 ⟨hk, hcross k (by simp), hs'⟩
      obtain ⟨hright, hsep, hrest, hx⟩ := swallow_spec hsk (hklo.trans hlt) fun g hg => by
        rcases List.mem_cons.1 hg with rfl | hg
        · exact le_rfl
        · have := hpost g hg
          omega
      have hdropk : (init ++ [k] ++ post).drop init.length = k :: post := by simp
      have htakek : (init ++ [k] ++ post).take init.length = init := by simp
      simp only [Option.filter_some, decide_eq_true htouch, if_true, Option.isSome_some, Option.map_some, Option.getD_some,
        List.length_append, List.length_singleton, Nat.add_sub_cancel, hdropk, htakek]
      refine ⟨separated_append.2 ⟨hsi, separated_cons.2 ⟨?_, hrest, hsep⟩, fun g hg m hm => ?_⟩, fun x => ?_⟩
      · simp only [Gap.lo_mk, Gap.hi_mk]
        omega
      · have hg := hik g hg k (by simp)
        rcases List.mem_cons.1 hm with rfl | hm
        · exact hg
        · have := hrest m hm
          omega
      · rw [holds_append, holds_cons, Gap.lo_mk, Gap.hi_mk, hx x, holds_append, holds_append, holds_cons, holds_cons]
        simp only [holds_nil, or_false]
        constructor
        · rintro (hi | hin | hin | hp)
          · exact .inl (.inl (.inl hi))
          · by_cases hleft : left ≤ x
            · exact .inr ⟨hleft, hin.2⟩
            · exact .inl (.inl (.inr ⟨hin.1, by omega⟩))
          · exact .inl (.inl (.inr hin))
          · exact .inl (.inr hp)
        · rintro (((hi | hin) | hp) | hin)
          · exact .inl hi
          · exact .inr (.inr (.inl hin))
          · exact .inr (.inr (.inr hp))
          · exact .inr (.inl ⟨by omega, hin.2⟩)
    · have hbefore : ∀ g ∈ init ++ [k], g.hi < left := fun g hg => by
        have := hs.last_hi g hg
        omega
      simp only [Option.filter_some, decide_eq_false htouch, Bool.false_eq_true, if_false, Option.isSome_none, Option.map_none,
        Option.getD_none, htake, hdrop]
      exact hfresh hbefore

end HeteroSim
