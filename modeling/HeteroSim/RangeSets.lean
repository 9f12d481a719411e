/-
Differences and intersections of half-open ranges, and how much ranges hold.
Separated ranges stay separated, every end of a result is an end of what it
was made of, and lengths count what is held, so they add up as sets do.
-/
import HeteroSim.Gaps

namespace HeteroSim

/-- `_merge_ranges`, of the ranges that are not empty. -/
def normalizeRanges (ranges : List Gap) : List Gap := mergeRanges (ranges.filter fun g => g.lo < g.hi)

/-- What is left of a range without another. -/
def cutRange (cut g : Gap) : List Gap :=
  if cut.hi ≤ g.lo ∨ g.hi ≤ cut.lo then [g] else
    (if g.lo < cut.lo then [Gap.mk g.lo cut.lo] else []) ++ if cut.hi < g.hi then [Gap.mk cut.hi g.hi] else []

/-- `_subtract_ranges` -/
def subtractRanges (base cuts : List Gap) : List Gap :=
  (normalizeRanges cuts).foldl (fun result cut => result.flatMap (cutRange cut)) base

/-- What a range has in common with others, and the others that reach past it. -/
def meetOne (l : Gap) : List Gap → List Gap × List Gap
  | [] => ([], [])
  | r :: rs =>
    let piece := if max l.lo r.lo < min l.hi r.hi then [Gap.mk (max l.lo r.lo) (min l.hi r.hi)] else []
    if l.hi ≤ r.hi then (piece, r :: rs) else (piece ++ (meetOne l rs).1, (meetOne l rs).2)

/-- Two ascending lists walked together. -/
def meet : List Gap → List Gap → List Gap
  | [], _ => []
  | l :: ls, rs => (meetOne l rs).1 ++ meet ls (meetOne l rs).2

/-- `_intersect_ranges` -/
def intersectRanges (left right : List Gap) : List Gap := meet (normalizeRanges left) (normalizeRanges right)

/-! ## What they hold -/

theorem normalizeRanges_separated (ranges : List Gap) : Separated (normalizeRanges ranges) :=
  (mergeRanges_spec _ (by simp)).1

@[simp] theorem holds_normalizeRanges (ranges : List Gap) (x : Int) : Holds (normalizeRanges ranges) x ↔ Holds ranges x := by
  rw [normalizeRanges, (mergeRanges_spec _ (by simp)).2]
  constructor
  · rintro ⟨g, hg, hx⟩
    exact ⟨g, (List.mem_filter.1 hg).1, hx⟩
  · rintro ⟨g, hg, hlo, hhi⟩
    exact ⟨g, List.mem_filter.2 ⟨hg, decide_eq_true (hlo.trans_lt hhi)⟩, hlo, hhi⟩

theorem Separated.normalize {l : List Gap} (h : Separated l) : normalizeRanges l = l :=
  (normalizeRanges_separated l).ext h (holds_normalizeRanges l)

theorem holds_flatMap {α : Type} (l : List α) (f : α → List Gap) (x : Int) : Holds (l.flatMap f) x ↔ ∃ g ∈ l, Holds (f g) x := by
  simp only [Holds, List.mem_flatMap]
  constructor
  · rintro ⟨k, ⟨g, hg, hk⟩, hx⟩
    exact ⟨g, hg, k, hk, hx⟩
  · rintro ⟨g, hg, k, hk, hx⟩
    exact ⟨k, ⟨g, hg, hk⟩, hx⟩

theorem holds_cutRange {cut g : Gap} (x : Int) :
    Holds (cutRange cut g) x ↔ (g.lo ≤ x ∧ x < g.hi) ∧ ¬(cut.lo ≤ x ∧ x < cut.hi) := by
  unfold cutRange
  split
  · simp
    omega
  · rw [holds_append]
    split <;> split <;> simp <;> omega

/-- The pieces lie within the range, and apart. -/
theorem mem_cutRange {cut g k : Gap} (hg : g.lo < g.hi) (h : k ∈ cutRange cut g) :
    k.lo < k.hi ∧ g.lo ≤ k.lo ∧ k.hi ≤ g.hi := by
  unfold cutRange at h
  split at h
  · obtain rfl := List.mem_singleton.1 h
    exact ⟨hg, le_rfl, le_rfl⟩
  · next hno =>
    rw [not_or, not_le, not_le] at hno
    obtain h | h := List.mem_append.1 h
    · split at h
      · obtain rfl := List.mem_singleton.1 h
        simp
        omega
      · cases h
    · split at h
      · obtain rfl := List.mem_singleton.1 h
        simp
        omega
      · cases h

theorem separated_cutRange {cut g : Gap} (hg : g.lo < g.hi) (hcut : cut.lo < cut.hi) : Separated (cutRange cut g) := by
  refine ⟨fun k hk => (mem_cutRange hg hk).1, ?_⟩
  unfold cutRange
  split
  · exact List.pairwise_singleton _ _
  · split <;> split <;> simp
    exact hcut

/-- Each range replaced by separated pieces of itself. -/
theorem Separated.flatMap {f : Gap → List Gap} : ∀ {l : List Gap}, Separated l → (∀ g ∈ l, Separated (f g)) →
    (∀ g ∈ l, ∀ k ∈ f g, g.lo ≤ k.lo ∧ k.hi ≤ g.hi) → Separated (l.flatMap f)
  | [], _, _, _ => separated_nil
  | g :: l, h, hf, hin => by
    obtain ⟨hg, hgl, hl⟩ := separated_cons.1 h
    rw [List.flatMap_cons]
    refine separated_append.2 ⟨hf g List.mem_cons_self, hl.flatMap (fun k hk => hf k (List.mem_cons_of_mem g hk))
      fun k hk => hin k (List.mem_cons_of_mem g hk), fun k hk m hm => ?_⟩
    obtain ⟨a, ha, hma⟩ := List.mem_flatMap.1 hm
    have h1 := (hin g List.mem_cons_self k hk).2
    have h2 := (hin a (List.mem_cons_of_mem g ha) m hma).1
    have h3 := hgl a ha
    omega

theorem foldl_cutRange : ∀ {cuts base : List Gap}, Separated base → (∀ c ∈ cuts, c.lo < c.hi) →
    Separated (cuts.foldl (fun result cut => result.flatMap (cutRange cut)) base) ∧
      ∀ x, Holds (cuts.foldl (fun result cut => result.flatMap (cutRange cut)) base) x ↔ Holds base x ∧ ¬Holds cuts x
  | [], base, h, _ => ⟨h, by simp⟩
  | c :: cuts, base, h, hc => by
    have hcut := hc c List.mem_cons_self
    have hsep : Separated (base.flatMap (cutRange c)) :=
      h.flatMap (fun g hg => separated_cutRange (h.proper g hg) hcut)
        fun g hg k hk => (mem_cutRange (h.proper g hg) hk).2
    obtain ⟨h1, h2⟩ := foldl_cutRange hsep fun k hk => hc k (List.mem_cons_of_mem c hk)
    refine ⟨h1, fun x => (h2 x).trans ?_⟩
    rw [holds_flatMap, holds_cons]
    simp only [holds_cutRange]
    constructor
    · rintro ⟨⟨g, hg, hx, hnot⟩, hrest⟩
      exact ⟨⟨g, hg, hx⟩, fun hor => hor.elim hnot hrest⟩
    · rintro ⟨⟨g, hg, hx⟩, hnot⟩
      exact ⟨⟨g, hg, hx, fun hin => hnot (.inl hin)⟩, fun hin => hnot (.inr hin)⟩

/-- **A difference holds what the base does and the cuts do not.** -/
theorem subtractRanges_spec {base : List Gap} (h : Separated base) (cuts : List Gap) :
    Separated (subtractRanges base cuts) ∧ ∀ x, Holds (subtractRanges base cuts) x ↔ Holds base x ∧ ¬Holds cuts x := by
  obtain ⟨h1, h2⟩ := foldl_cutRange h (normalizeRanges_separated cuts).proper
  exact ⟨h1, fun x => by rw [subtractRanges, h2, holds_normalizeRanges]⟩

/-! ## Intersections -/

theorem mem_meetOne {l k : Gap} : ∀ {rs : List Gap}, k ∈ (meetOne l rs).1 →
    k.lo < k.hi ∧ l.lo ≤ k.lo ∧ k.hi ≤ l.hi ∧ ∃ r ∈ rs, r.lo ≤ k.lo ∧ k.hi ≤ r.hi
  | [], h => by cases h
  | r :: rs, h => by
    have hpiece : ∀ k ∈ (if max l.lo r.lo < min l.hi r.hi then [Gap.mk (max l.lo r.lo) (min l.hi r.hi)] else []),
        k.lo < k.hi ∧ l.lo ≤ k.lo ∧ k.hi ≤ l.hi ∧ ∃ m ∈ r :: rs, m.lo ≤ k.lo ∧ k.hi ≤ m.hi := by
      intro k hk
      split at hk
      · next hlt =>
        obtain rfl := List.mem_singleton.1 hk
        exact ⟨hlt, le_max_left _ _, min_le_left _ _, r, List.mem_cons_self, le_max_right _ _, min_le_right _ _⟩
      · cases hk
    simp only [meetOne] at h
    split at h
    · exact hpiece k h
    · obtain h | h := List.mem_append.1 h
      · exact hpiece k h
      · obtain ⟨h1, h2, h3, m, hm, h4⟩ := mem_meetOne h
        exact ⟨h1, h2, h3, m, List.mem_cons_of_mem r hm, h4⟩

theorem meetOne_rest (l : Gap) : ∀ rs : List Gap, ∃ passed, rs = passed ++ (meetOne l rs).2 ∧ ∀ r ∈ passed, r.hi < l.hi
  | [] => ⟨[], rfl, by simp⟩
  | r :: rs => by
    simp only [meetOne]
    split
    · exact ⟨[], rfl, by simp⟩
    · next hlt =>
      obtain ⟨passed, hrs, hp⟩ := meetOne_rest l rs
      refine ⟨r :: passed, congrArg (r :: ·) hrs, fun k hk => ?_⟩
      obtain rfl | hk := List.mem_cons.1 hk
      · exact not_le.1 hlt
      · exact hp k hk

theorem meetOne_spec {l : Gap} : ∀ {rs : List Gap}, Separated rs →
    Separated (meetOne l rs).1 ∧ ∀ x, Holds (meetOne l rs).1 x ↔ (l.lo ≤ x ∧ x < l.hi) ∧ Holds rs x
  | [], _ => ⟨separated_nil, by simp [meetOne]⟩
  | r :: rs, h => by
    obtain ⟨hr, hrs, hsep⟩ := separated_cons.1 h
    have hpiece : Separated (if max l.lo r.lo < min l.hi r.hi then [Gap.mk (max l.lo r.lo) (min l.hi r.hi)] else []) := by
      split
      · next hlt => simp [separated_cons, separated_nil] at hlt ⊢; exact hlt
      · exact separated_nil
    have hholds : ∀ x, Holds (if max l.lo r.lo < min l.hi r.hi then [Gap.mk (max l.lo r.lo) (min l.hi r.hi)] else []) x ↔
        (l.lo ≤ x ∧ x < l.hi) ∧ r.lo ≤ x ∧ x < r.hi := by
      intro x
      split <;> simp <;> omega
    simp only [meetOne]
    split
    · next hle =>
      refine ⟨hpiece, fun x => ?_⟩
      rw [hholds, holds_cons]
      constructor
      · rintro ⟨hl, hx⟩
        exact ⟨hl, .inl hx⟩
      · rintro ⟨hl, hx | ⟨k, hk, hx⟩⟩
        · exact ⟨hl, hx⟩
        · have := hrs k hk
          omega
    · obtain ⟨h1, h2⟩ := meetOne_spec (l := l) hsep
      refine ⟨separated_append.2 ⟨hpiece, h1, fun k hk m hm => ?_⟩, fun x => ?_⟩
      · obtain ⟨-, -, -, a, ha, hle, -⟩ := mem_meetOne hm
        have := hrs a ha
        split at hk
        · obtain rfl := List.mem_singleton.1 hk
          simp
          omega
        · cases hk
      · rw [holds_append, hholds, h2, holds_cons, ← and_or_left]

theorem mem_meet {k : Gap} : ∀ {ls rs : List Gap}, k ∈ meet ls rs →
    k.lo < k.hi ∧ (∃ l ∈ ls, l.lo ≤ k.lo ∧ k.hi ≤ l.hi) ∧ ∃ r ∈ rs, r.lo ≤ k.lo ∧ k.hi ≤ r.hi
  | [], _, h => by cases h
  | l :: ls, rs, h => by
    obtain h | h := List.mem_append.1 h
    · obtain ⟨h1, h2, h3, h4⟩ := mem_meetOne h
      exact ⟨h1, ⟨l, List.mem_cons_self, h2, h3⟩, h4⟩
    · obtain ⟨h1, ⟨m, hm, h2⟩, r, hr, h3⟩ := mem_meet h
      obtain ⟨passed, hrs, -⟩ := meetOne_rest l rs
      exact ⟨h1, ⟨m, List.mem_cons_of_mem l hm, h2⟩, r, hrs ▸ List.mem_append_right passed hr, h3⟩

theorem meet_spec : ∀ {ls rs : List Gap}, Separated ls → Separated rs →
    Separated (meet ls rs) ∧ ∀ x, Holds (meet ls rs) x ↔ Holds ls x ∧ Holds rs x
  | [], _, _, _ => ⟨separated_nil, by simp [meet]⟩
  | l :: ls, rs, hl, hr => by
    obtain ⟨-, hls, hsep⟩ := separated_cons.1 hl
    obtain ⟨passed, hrs, hp⟩ := meetOne_rest l rs
    have hrest : Separated (meetOne l rs).2 := hr.sublist (List.IsSuffix.sublist ⟨passed, hrs.symm⟩)
    obtain ⟨h1, h2⟩ := meetOne_spec (l := l) hr
    obtain ⟨h3, h4⟩ := meet_spec hsep hrest
    refine ⟨separated_append.2 ⟨h1, h3, fun k hk m hm => ?_⟩, fun x => ?_⟩
    · obtain ⟨-, -, hkl, -⟩ := mem_meetOne hk
      obtain ⟨-, ⟨a, ha, hlo, -⟩, -⟩ := mem_meet hm
      have := hls a ha
      omega
    · rw [meet, holds_append, h2, h4, holds_cons]
      constructor
      · rintro (⟨hx, hr⟩ | ⟨hx, hr⟩)
        · exact ⟨.inl hx, hr⟩
        · rw [hrs, holds_append]
          exact ⟨.inr hx, .inr hr⟩
      · rintro ⟨hx | ⟨k, hk, hx⟩, hr⟩
        · exact .inl ⟨hx, hr⟩
        · rw [hrs, holds_append] at hr
          refine .inr ⟨⟨k, hk, hx⟩, hr.resolve_left ?_⟩
          rintro ⟨m, hm, hmx⟩
          have h5 := hls k hk
          have h6 := hp m hm
          omega

/-- **An intersection holds what both do.** -/
theorem intersectRanges_spec (left right : List Gap) : Separated (intersectRanges left right) ∧
    ∀ x, Holds (intersectRanges left right) x ↔ Holds left x ∧ Holds right x := by
  obtain ⟨h1, h2⟩ := meet_spec (normalizeRanges_separated left) (normalizeRanges_separated right)
  exact ⟨h1, fun x => by rw [intersectRanges, h2, holds_normalizeRanges, holds_normalizeRanges]⟩

/-- Ranges meet in themselves if they are held. -/
theorem intersectRanges_of_subset {l m : List Gap} (h : Separated l) (hsub : ∀ x, Holds l x → Holds m x) :
    intersectRanges l m = l := by
  obtain ⟨h1, h2⟩ := intersectRanges_spec l m
  exact h1.ext h fun x => (h2 x).trans ⟨fun hx => hx.1, fun hx => ⟨hx, hsub x hx⟩⟩

/-! ## Ends -/

/-- Both ends of every range satisfy a condition. -/
def Ends (P : Int → Prop) (l : List Gap) : Prop := ∀ g ∈ l, P g.lo ∧ P g.hi

section Ends

variable {P : Int → Prop}

theorem Ends.sublist {l m : List Gap} (h : Ends P m) (hs : l ⊆ m) : Ends P l := fun g hg => h g (hs hg)

theorem ends_extendLast {merged : List Gap} {g : Gap} (h : Ends P merged) (hg : P g.lo ∧ P g.hi) : Ends P (extendLast merged g) := by
  obtain rfl | ⟨front, last, rfl⟩ := List.eq_nil_or_concat merged
  · intro k hk
    obtain rfl := List.mem_singleton.1 hk
    exact hg
  · simp only [List.concat_eq_append] at h ⊢
    simp only [extendLast, List.getLast?_concat, List.dropLast_concat]
    have hlast := h last (List.mem_append_right _ List.mem_cons_self)
    split
    · split
      · intro k hk
        obtain hk | hk := List.mem_append.1 hk
        · exact h k (List.mem_append_left _ hk)
        · obtain rfl := List.mem_singleton.1 hk
          exact ⟨hlast.1, hg.2⟩
      · exact h
    · intro k hk
      obtain hk | hk := List.mem_append.1 hk
      · exact h k hk
      · obtain rfl := List.mem_singleton.1 hk
        exact hg

theorem ends_foldl_extendLast : ∀ {ranges merged : List Gap}, Ends P ranges → Ends P merged →
    Ends P (ranges.foldl extendLast merged)
  | [], _, _, hm => hm
  | g :: ranges, _, hr, hm => by
    rw [List.foldl_cons]
    exact ends_foldl_extendLast (fun k hk => hr k (List.mem_cons_of_mem g hk)) (ends_extendLast hm (hr g List.mem_cons_self))

theorem Ends.normalize {l : List Gap} (h : Ends P l) : Ends P (normalizeRanges l) :=
  ends_foldl_extendLast (h.sublist fun _ hg => (List.mem_filter.1 ((List.perm_insertionSort _ _).subset hg)).1)
    (fun _ hg => by cases hg)

theorem ends_cutRange {cut g : Gap} (hc : P cut.lo ∧ P cut.hi) (hg : P g.lo ∧ P g.hi) : Ends P (cutRange cut g) := by
  unfold cutRange
  split
  · intro k hk
    obtain rfl := List.mem_singleton.1 hk
    exact hg
  · intro k hk
    obtain hk | hk := List.mem_append.1 hk
    · split at hk
      · obtain rfl := List.mem_singleton.1 hk
        exact ⟨hg.1, hc.1⟩
      · cases hk
    · split at hk
      · obtain rfl := List.mem_singleton.1 hk
        exact ⟨hc.2, hg.2⟩
      · cases hk

theorem Ends.subtract {base cuts : List Gap} (h : Ends P base) (hc : Ends P cuts) : Ends P (subtractRanges base cuts) := by
  have hgo : ∀ {cuts base : List Gap}, Ends P base → Ends P cuts →
      Ends P (cuts.foldl (fun result cut => result.flatMap (cutRange cut)) base) := by
    intro cuts
    induction cuts with
    | nil => exact fun hb _ => hb
    | cons c cuts ih =>
      intro base hb hc
      refine ih (fun k hk => ?_) fun k hk => hc k (List.mem_cons_of_mem c hk)
      obtain ⟨g, hg, hk⟩ := List.mem_flatMap.1 hk
      exact ends_cutRange (hc c List.mem_cons_self) (hb g hg) k hk
  exact hgo h hc.normalize

end Ends

/-! ## Lengths -/

/-- The integers ranges hold. -/
noncomputable def heldBytes : List Gap → Finset Int
  | [] => ∅
  | g :: l => Finset.Ico g.lo g.hi ∪ heldBytes l

@[simp] theorem mem_heldBytes {x : Int} : ∀ {l : List Gap}, x ∈ heldBytes l ↔ Holds l x
  | [] => by simp [heldBytes]
  | g :: l => by rw [heldBytes, Finset.mem_union, Finset.mem_Ico, mem_heldBytes, holds_cons]

/-- **The length of disjoint ranges is the number of integers they hold.** -/
theorem totalLength_eq_card : ∀ {l : List Gap}, (∀ g ∈ l, g.lo ≤ g.hi) → l.Pairwise (fun g h => g.hi ≤ h.lo) →
    totalLength l = (heldBytes l).card
  | [], _, _ => rfl
  | g :: l, hp, hd => by
    obtain ⟨hg, hl⟩ := List.pairwise_cons.1 hd
    have hle := hp g List.mem_cons_self
    have hdisj : Disjoint (Finset.Ico g.lo g.hi) (heldBytes l) := by
      refine Finset.disjoint_left.2 fun x hx hin => ?_
      obtain ⟨k, hk, hlo, -⟩ := mem_heldBytes.1 hin
      have := hg k hk
      have := (Finset.mem_Ico.1 hx).2
      omega
    rw [heldBytes, Finset.card_union_of_disjoint hdisj, Int.card_Ico, Nat.cast_add,
      ← totalLength_eq_card (fun k hk => hp k (List.mem_cons_of_mem g hk)) hl, Int.toNat_of_nonneg (by omega)]
    simp [totalLength]

theorem Separated.length_eq {l : List Gap} (h : Separated l) : totalLength l = (heldBytes l).card :=
  totalLength_eq_card (fun g hg => (h.proper g hg).le) (h.apart.imp fun hlt => hlt.le)

theorem Separated.length_nonneg {l : List Gap} (h : Separated l) : 0 ≤ totalLength l := h.length_eq ▸ Int.natCast_nonneg _

theorem Separated.length_pos {l : List Gap} (h : Separated l) (hne : l ≠ []) : 0 < totalLength l := by
  obtain ⟨g, l, rfl⟩ := List.exists_cons_of_ne_nil hne
  rw [h.length_eq]
  have hg := h.proper g List.mem_cons_self
  exact_mod_cast Finset.card_pos.2 ⟨g.lo, mem_heldBytes.2 ⟨g, List.mem_cons_self, le_rfl, hg⟩⟩

/-- Taking away what is held takes away its length. -/
theorem totalLength_subtract {base cuts : List Gap} (h : Separated base) (hc : Separated cuts)
    (hsub : ∀ x, Holds cuts x → Holds base x) : totalLength (subtractRanges base cuts) = totalLength base - totalLength cuts := by
  obtain ⟨hs, hx⟩ := subtractRanges_spec h cuts
  have heq : heldBytes (subtractRanges base cuts) = heldBytes base \ heldBytes cuts := by
    ext x
    simp [hx]
  have hle : heldBytes cuts ⊆ heldBytes base := fun x hx => mem_heldBytes.2 (hsub x (mem_heldBytes.1 hx))
  rw [hs.length_eq, h.length_eq, hc.length_eq, heq, Finset.card_sdiff_of_subset hle, Nat.cast_sub (Finset.card_le_card hle)]

/-- Ranges with nothing in common add up. -/
theorem totalLength_union {l m u : List Gap} (hl : Separated l) (hm : Separated m) (hu : Separated u)
    (hdisj : ∀ x, Holds l x → ¬Holds m x) (hx : ∀ x, Holds u x ↔ Holds l x ∨ Holds m x) :
    totalLength u = totalLength l + totalLength m := by
  have heq : heldBytes u = heldBytes l ∪ heldBytes m := by
    ext x
    simp [hx]
  have hd : Disjoint (heldBytes l) (heldBytes m) :=
    Finset.disjoint_left.2 fun x h h' => hdisj x (mem_heldBytes.1 h) (mem_heldBytes.1 h')
  rw [hl.length_eq, hm.length_eq, hu.length_eq, heq, Finset.card_union_of_disjoint hd, Nat.cast_add]

/-- Ranges with nothing in common are as long in order as they were. -/
theorem totalLength_normalize : ∀ {l : List Gap}, (∀ g ∈ l, g.lo < g.hi) →
    l.Pairwise (fun g h => ∀ x, g.lo ≤ x → x < g.hi → ¬(h.lo ≤ x ∧ x < h.hi)) → totalLength (normalizeRanges l) = totalLength l
  | [], _, _ => rfl
  | g :: l, hp, hd => by
    obtain ⟨hg, hl⟩ := List.pairwise_cons.1 hd
    have hsingle : Separated [g] := ⟨fun k hk => List.mem_singleton.1 hk ▸ hp g List.mem_cons_self, List.pairwise_singleton _ _⟩
    rw [totalLength_union hsingle (normalizeRanges_separated l) (normalizeRanges_separated (g :: l)) ?_ ?_,
      totalLength_normalize (fun k hk => hp k (List.mem_cons_of_mem g hk)) hl]
    · simp [totalLength]
    · intro x hx hm
      obtain ⟨k, hk, hin⟩ := (holds_normalizeRanges l x).1 hm
      simp only [holds_cons, holds_nil, or_false] at hx
      exact hg k hk x hx.1 hx.2 hin
    · intro x
      simp only [holds_normalizeRanges, holds_cons, holds_nil, or_false]

theorem totalLength_mono {l m : List Gap} (hl : Separated l) (hm : Separated m) (hsub : ∀ x, Holds l x → Holds m x) :
    totalLength l ≤ totalLength m := by
  rw [hl.length_eq, hm.length_eq]
  exact_mod_cast Finset.card_le_card fun x hx => mem_heldBytes.2 (hsub x (mem_heldBytes.1 hx))

end HeteroSim
