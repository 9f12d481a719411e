/-
Sorted lists of half-open integer gaps, none empty and no two touching.
Such a list is determined by the integers it holds, so freeing and
occupying a range are specified by what they do to that set. An index of
the gaps that pass a test is kept beside the list.
-/
import HeteroSim.Bisect

namespace HeteroSim

/-- A half-open range, ordered by start, then end. -/
abbrev Gap := Int ×ₗ Int

namespace Gap

def lo (g : Gap) : Int := (ofLex g).1

def hi (g : Gap) : Int := (ofLex g).2

def mk (lo hi : Int) : Gap := toLex (lo, hi)

@[simp] theorem lo_mk (a b : Int) : (mk a b).lo = a := rfl

@[simp] theorem hi_mk (a b : Int) : (mk a b).hi = b := rfl

theorem ext {g h : Gap} (hlo : g.lo = h.lo) (hhi : g.hi = h.hi) : g = h := by
  obtain ⟨a, b⟩ := g
  obtain ⟨c, d⟩ := h
  simp only [lo, hi, ofLex] at hlo hhi
  subst hlo hhi
  rfl

theorem lt_of_lo {g h : Gap} (hl : g.lo < h.lo) : g < h := Prod.Lex.lt_iff.2 (.inl hl)

end Gap

/-- The integer lies in a gap of the list. -/
def Holds (l : List Gap) (x : Int) : Prop := ∃ g ∈ l, g.lo ≤ x ∧ x < g.hi

structure Separated (l : List Gap) : Prop where
  proper : ∀ g ∈ l, g.lo < g.hi
  apart : l.Pairwise fun g h => g.hi < h.lo

@[simp] theorem holds_nil (x : Int) : Holds [] x ↔ False := by simp [Holds]

@[simp] theorem holds_cons (g : Gap) (l : List Gap) (x : Int) :
    Holds (g :: l) x ↔ (g.lo ≤ x ∧ x < g.hi) ∨ Holds l x := by simp [Holds]

@[simp] theorem holds_append (l m : List Gap) (x : Int) : Holds (l ++ m) x ↔ Holds l x ∨ Holds m x := by
  simp [Holds, or_and_right, exists_or]

theorem separated_nil : Separated [] := ⟨by simp, .nil⟩

theorem separated_cons {g : Gap} {l : List Gap} :
    Separated (g :: l) ↔ g.lo < g.hi ∧ (∀ h ∈ l, g.hi < h.lo) ∧ Separated l := by
  constructor
  · rintro ⟨hp, ha⟩
    rw [List.pairwise_cons] at ha
    exact ⟨hp g (by simp), ha.1, fun h hm => hp h (by simp [hm]), ha.2⟩
  · rintro ⟨hg, hl, hp, ha⟩
    refine ⟨fun h hm => ?_, List.pairwise_cons.2 ⟨hl, ha⟩⟩
    rcases List.mem_cons.1 hm with rfl | hm
    · exact hg
    · exact hp h hm

theorem separated_append {l m : List Gap} :
    Separated (l ++ m) ↔ Separated l ∧ Separated m ∧ ∀ g ∈ l, ∀ h ∈ m, g.hi < h.lo := by
  constructor
  · rintro ⟨hp, ha⟩
    rw [List.pairwise_append] at ha
    exact ⟨⟨fun g hg => hp g (by simp [hg]), ha.1⟩, ⟨fun g hg => hp g (by simp [hg]), ha.2.1⟩, ha.2.2⟩
  · rintro ⟨⟨hp, ha⟩, ⟨hp', ha'⟩, hlm⟩
    refine ⟨fun g hg => ?_, List.pairwise_append.2 ⟨ha, ha', hlm⟩⟩
    rcases List.mem_append.1 hg with hg | hg
    · exact hp g hg
    · exact hp' g hg

theorem Separated.sublist {l m : List Gap} (h : Separated m) (hs : l.Sublist m) : Separated l :=
  ⟨fun g hg => h.proper g (hs.subset hg), h.apart.sublist hs⟩

theorem Separated.sorted {l : List Gap} (h : Separated l) : l.Pairwise (· < ·) := by
  refine h.apart.imp_of_mem fun {g k} hg _ hlt => Gap.lt_of_lo ?_
  exact (h.proper g hg).trans hlt

/-- **A separated list is the only one that holds what it holds.** -/
theorem Separated.ext : ∀ {l m : List Gap}, Separated l → Separated m → (∀ x, Holds l x ↔ Holds m x) → l = m
  | [], [], _, _, _ => rfl
  | [], h :: m, _, hm, hx => by
    have hh := (separated_cons.1 hm).1
    exact ((holds_nil h.lo).1 ((hx h.lo).2 (by simp [hh]))).elim
  | g :: l, [], hl, _, hx => by
    have hg := (separated_cons.1 hl).1
    exact ((holds_nil g.lo).1 ((hx g.lo).1 (by simp [hg]))).elim
  | g :: l, h :: m, hl, hm, hx => by
    obtain ⟨hg, hgl, hl'⟩ := separated_cons.1 hl
    obtain ⟨hh, hhm, hm'⟩ := separated_cons.1 hm
    -- the least integer held is the first start, the least above it not held the first end
    have hfirst : ∀ {g h : Gap} {l m : List Gap}, g.lo < g.hi → (∀ k ∈ m, h.hi < k.lo) → h.lo < h.hi →
        (∀ x, Holds (g :: l) x → Holds (h :: m) x) → h.lo ≤ g.lo := by
      intro g h l m hg hhm hh hx
      obtain ⟨k, hk, hle, -⟩ := hx g.lo (by simp [hg])
      rcases List.mem_cons.1 hk with rfl | hk
      · exact hle
      · have := hhm k hk; omega
    have hlo : g.lo = h.lo :=
      le_antisymm (hfirst hh hgl hg fun x => (hx x).2) (hfirst hg hhm hh fun x => (hx x).1)
    have hend : ∀ {g h : Gap} {l m : List Gap}, g.lo = h.lo → g.lo < g.hi → (∀ k ∈ l, g.hi < k.lo) →
        (∀ x, Holds (h :: m) x → Holds (g :: l) x) → h.hi ≤ g.hi := by
      intro g h l m hlo hg hgl hx
      by_contra hlt
      obtain ⟨k, hk, hle, hlt'⟩ := hx g.hi (by simp; omega)
      rcases List.mem_cons.1 hk with rfl | hk
      · omega
      · have := hgl k hk; omega
    have hhi : g.hi = h.hi :=
      le_antisymm (hend hlo.symm hh hhm fun x => (hx x).1) (hend hlo hg hgl fun x => (hx x).2)
    obtain rfl := Gap.ext hlo hhi
    refine congrArg _ (Separated.ext hl' hm' fun x => ?_)
    have hx := hx x
    simp only [holds_cons] at hx
    constructor
    · rintro ⟨k, hk, hkx⟩
      have := hgl k hk
      exact (hx.1 (.inr ⟨k, hk, hkx⟩)).resolve_left (by omega)
    · rintro ⟨k, hk, hkx⟩
      have := hhm k hk
      exact (hx.2 (.inr ⟨k, hk, hkx⟩)).resolve_left (by omega)

/-- A range all of which is held lies in one gap. -/
theorem Separated.contains : ∀ {l : List Gap} {lo hi : Int}, Separated l → lo < hi →
    (∀ x, lo ≤ x → x < hi → Holds l x) → ∃ g ∈ l, g.lo ≤ lo ∧ hi ≤ g.hi
  | [], lo, hi, _, hlt, hx => ((holds_nil lo).1 (hx lo le_rfl hlt)).elim
  | g :: l, lo, hi, hs, hlt, hx => by
    obtain ⟨hg, hgl, hl⟩ := separated_cons.1 hs
    rcases (holds_cons g l lo).1 (hx lo le_rfl hlt) with hin | ⟨k, hk, hin⟩
    · refine ⟨g, by simp, hin.1, ?_⟩
      by_contra hend
      rcases (holds_cons g l g.hi).1 (hx g.hi (by omega) (by omega)) with h | ⟨k, hk, h⟩
      · omega
      · have := hgl k hk; omega
    · have hkl := hgl k hk
      obtain ⟨m, hm, hle⟩ := Separated.contains hl hlt fun x hlo hhi =>
        ((holds_cons g l x).1 (hx x hlo hhi)).resolve_left (by omega)
      exact ⟨m, by simp [hm], hle⟩

/-! ## Splitting at a start -/

theorem Separated.before_lo {l : List Gap} (x : Int) : ∀ g ∈ l.takeWhile (fun g => decide (g.lo < x)), g.lo < x :=
  fun _ hg => by simpa using List.mem_takeWhile_imp hg

theorem Separated.after_lo {l : List Gap} (h : Separated l) (x : Int) :
    ∀ g ∈ l.dropWhile (fun g => decide (g.lo < x)), x ≤ g.lo := by
  cases hd : l.dropWhile (fun g => decide (g.lo < x)) with
  | nil => simp
  | cons k m =>
    have hk : x ≤ k.lo := by
      have hn := List.head?_dropWhile_not (fun g : Gap => decide (g.lo < x)) l
      rw [hd] at hn
      simpa using hn
    have hs := h.sublist (List.dropWhile_sublist (p := fun g : Gap => decide (g.lo < x)))
    rw [hd] at hs
    obtain ⟨hkk, hkm, -⟩ := separated_cons.1 hs
    intro g hg
    rcases List.mem_cons.1 hg with rfl | hg
    · exact hk
    · have := hkm g hg; omega

/-! ## The index of the gaps that pass a test -/

/-- Remove a gap from the index, where bisection finds it. -/
def unindex (fits : Gap → Bool) (g : Gap) (index : List Gap) : List Gap :=
  if fits g then index.eraseIdx (bisectLeft (before g) index) else index

/-- Insert a gap into the index, in its place. -/
def reindex (fits : Gap → Bool) (g : Gap) (index : List Gap) : List Gap :=
  if fits g then index.insertIdx (bisectLeft (before g) index) g else index

theorem unindex_filter {fits : Gap → Bool} {l m : List Gap} {g : Gap} (h : Separated (l ++ g :: m)) :
    unindex fits g ((l ++ g :: m).filter fits) = (l ++ m).filter fits := by
  unfold unindex
  by_cases hg : fits g
  · have hs : ((l ++ g :: m).filter fits).Pairwise (· < ·) := h.sorted.sublist List.filter_sublist
    simp only [hg, if_true, List.filter_append, List.filter_cons_of_pos] at hs ⊢
    exact eraseIdx_bisect hs
  · simp [hg]

theorem reindex_filter {fits : Gap → Bool} {l m : List Gap} {g : Gap} (h : Separated (l ++ g :: m)) :
    reindex fits g ((l ++ m).filter fits) = (l ++ g :: m).filter fits := by
  unfold reindex
  by_cases hg : fits g
  · have hs : ((l ++ g :: m).filter fits).Pairwise (· < ·) := h.sorted.sublist List.filter_sublist
    simp only [hg, if_true, List.filter_append, List.filter_cons_of_pos] at hs ⊢
    exact insertIdx_bisect hs
  · simp [hg]

end HeteroSim

/-!
The union of half-open ranges, ascending and coalesced: the ranges sorted,
then each one joined to the last when it reaches it. The result is the
separated list that holds what the ranges hold.
-/

namespace HeteroSim

/-- One range joins the last of the merged ones, or follows it. -/
def extendLast (merged : List Gap) (g : Gap) : List Gap :=
  match merged.getLast? with
  | none => [g]
  | some last =>
    if g.lo ≤ last.hi then
      if last.hi < g.hi then merged.dropLast ++ [Gap.mk last.lo g.hi] else merged
    else merged ++ [g]

/-- `_merge_ranges` -/
def mergeRanges (ranges : List Gap) : List Gap := (ranges.insertionSort (· ≤ ·)).foldl extendLast []

/-- `sum(right - left for left, right in ranges)` -/
def totalLength (ranges : List Gap) : Int := (ranges.map fun g => g.hi - g.lo).sum

/-- A range that starts no earlier than the merged ones is added to them. -/
theorem extendLast_spec {merged : List Gap} {g : Gap} (h : Separated merged) (hg : g.lo < g.hi)
    (hle : ∀ m ∈ merged, m.lo ≤ g.lo) : Separated (extendLast merged g) ∧
      (∀ m ∈ extendLast merged g, m.lo ≤ g.lo) ∧
      ∀ x, Holds (extendLast merged g) x ↔ Holds merged x ∨ (g.lo ≤ x ∧ x < g.hi) := by
  rcases List.eq_nil_or_concat merged with rfl | ⟨front, last, rfl⟩
  · refine ⟨?_, ?_, fun x => ?_⟩
    · simp [extendLast, separated_cons, separated_nil, hg]
    · simp [extendLast]
    · simp [extendLast]
  · simp only [List.concat_eq_append] at h hle ⊢
    have hlast := hle last (by simp)
    have hparts := separated_append.1 h
    have hlp := h.proper last (by simp)
    simp only [extendLast, List.getLast?_concat, List.dropLast_concat]
    split
    · split
      · refine ⟨separated_append.2 ⟨hparts.1, ?_, fun m hm k hk => ?_⟩, fun m hm => ?_, fun x => ?_⟩
        · simp [separated_cons, separated_nil]; omega
        · obtain rfl := List.mem_singleton.1 hk
          exact hparts.2.2 m hm last (by simp)
        · rcases List.mem_append.1 hm with hm | hm
          · exact hle m (by simp [hm])
          · obtain rfl := List.mem_singleton.1 hm
            exact hlast
        · simp only [holds_append, holds_cons, holds_nil, or_false, Gap.lo_mk, Gap.hi_mk]
          rw [or_assoc]
          refine or_congr_right ?_
          omega
      · refine ⟨h, hle, fun x => ?_⟩
        simp only [holds_append, holds_cons, holds_nil, or_false]
        rw [or_assoc]
        refine or_congr_right ?_
        omega
    · next hnot =>
      refine ⟨separated_append.2 ⟨h, ?_, fun m hm k hk => ?_⟩, fun m hm => ?_, fun x => ?_⟩
      · simp [separated_cons, separated_nil, hg]
      · obtain rfl := List.mem_singleton.1 hk
        rcases List.mem_append.1 hm with hm | hm
        · have := hparts.2.2 m hm last (by simp)
          omega
        · obtain rfl := List.mem_singleton.1 hm
          omega
      · rcases List.mem_append.1 hm with hm | hm
        · exact hle m hm
        · obtain rfl := List.mem_singleton.1 hm
          exact le_rfl
      · simp only [holds_append, holds_cons, holds_nil, or_false]

theorem foldl_extendLast : ∀ {ranges merged : List Gap}, ranges.Pairwise (fun g h => g.lo ≤ h.lo) →
    (∀ g ∈ ranges, g.lo < g.hi) → Separated merged → (∀ m ∈ merged, ∀ g ∈ ranges, m.lo ≤ g.lo) →
    Separated (ranges.foldl extendLast merged) ∧
      ∀ x, Holds (ranges.foldl extendLast merged) x ↔ Holds merged x ∨ Holds ranges x
  | [], merged, _, _, hm, _ => ⟨hm, by simp⟩
  | g :: ranges, merged, hs, hp, hm, hle => by
    obtain ⟨hg, hs'⟩ := List.pairwise_cons.1 hs
    obtain ⟨h1, h2, h3⟩ := extendLast_spec hm (hp g (by simp)) fun m hmm => hle m hmm g (by simp)
    obtain ⟨h4, h5⟩ := foldl_extendLast hs' (fun k hk => hp k (by simp [hk])) h1
      fun m hmm k hk => (h2 m hmm).trans (hg k hk)
    refine ⟨h4, fun x => (h5 x).trans ?_⟩
    rw [h3, holds_cons, or_assoc]

/-- **Merging keeps what the ranges hold, in separated ranges.** -/
theorem mergeRanges_spec (ranges : List Gap) (hp : ∀ g ∈ ranges, g.lo < g.hi) :
    Separated (mergeRanges ranges) ∧ ∀ x, Holds (mergeRanges ranges) x ↔ Holds ranges x := by
  have hperm := List.perm_insertionSort (· ≤ ·) ranges
  have hsorted : (ranges.insertionSort (· ≤ ·)).Pairwise fun g h => g.lo ≤ h.lo :=
    (List.pairwise_insertionSort (· ≤ ·) ranges).imp fun {g h} hle => by
      rcases Prod.Lex.le_iff.1 hle with hlt | heq
      · exact le_of_lt hlt
      · exact le_of_eq heq.1
  obtain ⟨h1, h2⟩ := foldl_extendLast hsorted (fun g hg => hp g (hperm.subset hg)) separated_nil (by simp)
  refine ⟨h1, fun x => (h2 x).trans ?_⟩
  rw [holds_nil, false_or]
  constructor
  · rintro ⟨g, hg, hx⟩
    exact ⟨g, hperm.subset hg, hx⟩
  · rintro ⟨g, hg, hx⟩
    exact ⟨g, hperm.symm.subset hg, hx⟩

/-- A range inside the only one adds nothing. -/
theorem mergeRanges_inside {g k : Gap} (hlo : g.lo ≤ k.lo) (hk : k.lo < k.hi) (hhi : k.hi ≤ g.hi) :
    mergeRanges [g, k] = [g] := by
  have hg : g.lo < g.hi := by omega
  obtain ⟨h1, h2⟩ := mergeRanges_spec [g, k] (by simp [hg, hk])
  refine h1.ext (by simp [separated_cons, separated_nil, hg]) fun x => ?_
  rw [h2]
  simp only [holds_cons, holds_nil, or_false]
  omega

example : mergeRanges [Gap.mk 4 9, Gap.mk 0 2, Gap.mk 2 5] = [Gap.mk 0 9] := by decide

end HeteroSim
