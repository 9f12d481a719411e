/-
The choice `_make_room` makes among its candidates: the first of them whole,
in their order, and of the last only as many units as are still needed.
-/
import HeteroSim.Residency.Sound

namespace HeteroSim.Residency

/-- What is selected of a candidate when so many bytes are still needed. -/
def Candidate.taken (c : Candidate) (n : Int) : Gap :=
  Gap.mk c.range.lo (min c.range.hi (c.range.lo + ceilDiv n c.granule * c.granule))

/-- The candidates selected from, with what is selected of each. -/
def picks : Int → List Candidate → List (Candidate × Gap)
  | _, [] => []
  | n, c :: cs => if n ≤ 0 then [] else (c, c.taken n) :: picks (n - ((c.taken n).hi - (c.taken n).lo)) cs

def bytesOf (ps : List (Candidate × Gap)) : Int := (ps.map fun p => p.2.hi - p.2.lo).sum

/-- A candidate is whole units of its owner's commitment. -/
structure Candidate.Whole (c : Candidate) (committed : Int) : Prop where
  proper : c.range.lo < c.range.hi
  lo : Boundary committed c.granule c.range.lo
  hi : Boundary committed c.granule c.range.hi
  granule : 1 ≤ c.granule

theorem ceilDiv_mul {n g : Int} (hn : 0 < n) (hg : 1 ≤ g) : n ≤ ceilDiv n g * g ∧ ceilDiv n g * g < n + g := by
  rw [ceilDiv, if_neg (not_le.2 hn), mul_comm]
  have hdiv := Int.mul_ediv_add_emod (n + g - 1) g
  have hlo := Int.emod_nonneg (n + g - 1) (by omega : g ≠ 0)
  have hhi := Int.emod_lt_of_pos (n + g - 1) (by omega : 0 < g)
  omega

theorem Candidate.Whole.aligned {c : Candidate} {committed : Int} (h : c.Whole committed) : c.range.lo % c.granule = 0 := by
  obtain ⟨-, heq | hmod⟩ := h.lo
  · have := h.proper
    have := h.hi.1.2
    omega
  · exact hmod

/-- Whole units are selected of a candidate: all of it, or as many bytes as are needed. -/
theorem Candidate.Whole.taken {c : Candidate} {committed n : Int} (h : c.Whole committed) (hn : 0 < n) :
    c.range.lo < (c.taken n).hi ∧ (c.taken n).hi ≤ c.range.hi ∧ Boundary committed c.granule (c.taken n).hi ∧
      (c.taken n = c.range ∨ n ≤ (c.taken n).hi - (c.taken n).lo) := by
  have hceil := (ceilDiv_mul hn h.granule).1
  have hproper := h.proper
  show c.range.lo < min _ _ ∧ min _ _ ≤ _ ∧ Boundary _ _ (min _ _) ∧ (Gap.mk _ (min _ _) = _ ∨ n ≤ min _ _ - c.range.lo)
  obtain hle | hlt := le_or_gt c.range.hi (c.range.lo + ceilDiv n c.granule * c.granule)
  · rw [min_eq_left hle]
    exact ⟨hproper, le_rfl, h.hi, .inl rfl⟩
  · rw [min_eq_right hlt.le]
    have := h.lo.1
    have := h.hi.1
    refine ⟨by omega, hlt.le, ⟨⟨by omega, by omega⟩, .inr ?_⟩, .inr (by omega)⟩
    rw [Int.add_mul_emod_self_right]
    exact h.aligned

/-- The last unit selected of a candidate was needed. -/
theorem Candidate.Whole.taken_last {c : Candidate} {committed n : Int} (h : c.Whole committed) (hn : 0 < n) :
    c.range.lo ≤ ((c.taken n).hi - 1) / c.granule * c.granule ∧ ((c.taken n).hi - 1) / c.granule * c.granule < (c.taken n).hi ∧
      ((c.taken n).hi - 1) / c.granule * c.granule - c.range.lo < n := by
  obtain ⟨hlo, -, -, -⟩ := h.taken hn
  have hg : 0 < c.granule := h.granule
  have hceil := (ceilDiv_mul hn h.granule).2
  have hle : (c.taken n).hi ≤ c.range.lo + ceilDiv n c.granule * c.granule := min_le_right _ _
  obtain ⟨k, hk⟩ := Int.dvd_of_emod_eq_zero h.aligned
  rw [mul_comm] at hk
  have hfloor := Int.ediv_mul_le ((c.taken n).hi - 1) hg.ne'
  have hfirst : k ≤ ((c.taken n).hi - 1) / c.granule := by
    rw [Int.le_ediv_iff_mul_le hg]
    omega
  have hunits : ((c.taken n).hi - 1) / c.granule - k < ceilDiv n c.granule := by
    refine lt_of_mul_lt_mul_right ?_ hg.le
    rw [Int.sub_mul]
    omega
  have hstart := Int.mul_le_mul_of_nonneg_right hfirst hg.le
  have hend := Int.mul_le_mul_of_nonneg_right (Int.add_one_le_of_lt hunits) hg.le
  rw [Int.add_mul, Int.sub_mul] at hend
  refine ⟨?_, ?_, ?_⟩ <;> omega

/-! ## What is picked -/

variable {c : Candidate} {p : Candidate × Gap} {n : Int}

/-- A pick is a start of its candidate, in whole units. -/
structure Picked (p : Candidate × Gap) : Prop where
  lo : p.2.lo = p.1.range.lo
  proper : p.2.lo < p.2.hi
  hi : p.2.hi ≤ p.1.range.hi
  unit : ∀ committed, p.1.Whole committed → Boundary committed p.1.granule p.2.hi

theorem picks_picked : ∀ {l : List Candidate} {n : Int}, (∀ c ∈ l, ∃ committed, c.Whole committed) → ∀ p ∈ picks n l,
    p.1 ∈ l ∧ Picked p
  | [], _, _, _, hp => by cases hp
  | c :: cs, n, h, p, hp => by
    rw [picks] at hp
    split at hp
    · cases hp
    · next hn =>
      obtain rfl | hp := List.mem_cons.1 hp
      · obtain ⟨committed, hc⟩ := h c List.mem_cons_self
        obtain ⟨h1, h2, -, -⟩ := hc.taken (not_le.1 hn)
        exact ⟨List.mem_cons_self, rfl, h1, h2, fun _ hw => (hw.taken (not_le.1 hn)).2.2.1⟩
      · obtain ⟨hmem, hpick⟩ := picks_picked (fun d hd => h d (List.mem_cons_of_mem c hd)) p hp
        exact ⟨List.mem_cons_of_mem c hmem, hpick⟩

theorem bytesOf_cons (c : Candidate) (g : Gap) (ps : List (Candidate × Gap)) :
    bytesOf ((c, g) :: ps) = g.hi - g.lo + bytesOf ps := rfl

theorem bytesOf_nonneg {ps : List (Candidate × Gap)} (h : ∀ p ∈ ps, p.2.lo < p.2.hi) : 0 ≤ bytesOf ps := by
  refine List.sum_nonneg fun n hn => ?_
  obtain ⟨p, hp, rfl⟩ := List.mem_map.1 hn
  have := h p hp
  omega

/-- A candidate not taken whole comes after every pick. -/
theorem picks_least : ∀ {l : List Candidate} {n : Int}, (∀ c ∈ l, ∃ committed, c.Whole committed) →
    l.Pairwise (fun c d => c.key ≤ d.key) → ∀ p ∈ picks n l, ∀ c ∈ l, p.1.key ≤ c.key ∨ (c, c.range) ∈ picks n l
  | [], _, _, _, _, hp => by cases hp
  | d :: cs, n, h, hsort, p, hp => by
    intro c hc
    rw [picks] at hp ⊢
    obtain ⟨hfirst, hrest⟩ := List.pairwise_cons.1 hsort
    split at hp
    · cases hp
    · next hn =>
      rw [if_neg hn]
      obtain rfl | hp := List.mem_cons.1 hp
      · obtain rfl | hc := List.mem_cons.1 hc
        · exact .inl le_rfl
        · exact .inl (hfirst c hc)
      · obtain rfl | hc := List.mem_cons.1 hc
        · -- more is picked after it, so it was not enough
          obtain ⟨committed, hw⟩ := h c List.mem_cons_self
          obtain ⟨-, -, -, hall | hmore⟩ := hw.taken (not_le.1 hn)
          · exact .inr (List.mem_cons.2 (.inl (by rw [hall])))
          · cases cs with
            | nil => cases hp
            | cons e es =>
              rw [picks, if_pos (by omega)] at hp
              cases hp
        · exact (picks_least (fun d hd => h d (List.mem_cons_of_mem _ hd)) hrest p hp c hc).imp_right (List.mem_cons_of_mem _)

/-- Either enough is picked, or all there is. -/
theorem picks_enough : ∀ {l : List Candidate} {n : Int}, (∀ c ∈ l, ∃ committed, c.Whole committed) →
    n ≤ bytesOf (picks n l) ∨ picks n l = l.map fun c => (c, c.range)
  | [], n, _ => .inr rfl
  | c :: cs, n, h => by
    rw [picks]
    split
    · next hn => exact .inl hn
    · next hn =>
      obtain ⟨committed, hw⟩ := h c List.mem_cons_self
      have hcs : ∀ d ∈ cs, ∃ committed, d.Whole committed := fun d hd => h d (List.mem_cons_of_mem c hd)
      obtain ⟨-, -, -, hall | hmore⟩ := hw.taken (not_le.1 hn)
      · obtain hle | heq := picks_enough hcs (n := n - ((c.taken n).hi - (c.taken n).lo))
        · left
          rw [bytesOf_cons]
          omega
        · right
          rw [heq, hall]
          rfl
      · left
        have := bytesOf_nonneg fun p hp => (picks_picked hcs (n := n - ((c.taken n).hi - (c.taken n).lo)) p hp).2.proper
        rw [bytesOf_cons]
        omega

theorem picks_le : ∀ {l : List Candidate} {n : Int}, (∀ c ∈ l, ∃ committed, c.Whole committed) →
    bytesOf (picks n l) ≤ bytesOf (l.map fun c => (c, c.range))
  | [], n, _ => le_rfl
  | c :: cs, n, h => by
    have hcs : ∀ d ∈ cs, ∃ committed, d.Whole committed := fun d hd => h d (List.mem_cons_of_mem c hd)
    obtain ⟨committed, hw⟩ := h c List.mem_cons_self
    have hproper := hw.proper
    rw [picks, List.map_cons, bytesOf_cons]
    split
    · have hrest : 0 ≤ bytesOf (cs.map fun c => (c, c.range)) := bytesOf_nonneg fun p hp => by
        obtain ⟨d, hd, rfl⟩ := List.mem_map.1 hp
        exact (hcs d hd).choose_spec.proper
      show (0 : Int) ≤ _
      omega
    · next hn =>
      have := (hw.taken (not_le.1 hn)).2.1
      have hlo : (c.taken n).lo = c.range.lo := rfl
      have := picks_le hcs (n := n - ((c.taken n).hi - (c.taken n).lo))
      rw [bytesOf_cons]
      omega

/-- **Enough is picked exactly when there is enough.** -/
theorem picks_enough_iff {l : List Candidate} (h : ∀ c ∈ l, ∃ committed, c.Whole committed) :
    n ≤ bytesOf (picks n l) ↔ n ≤ bytesOf (l.map fun c => (c, c.range)) := by
  constructor
  · intro hle
    exact hle.trans (picks_le h)
  · intro hle
    obtain henough | heq := picks_enough h (n := n)
    · exact henough
    · rwa [heq]

/-- **Without the last unit of the last pick there is too little.** -/
theorem picks_last : ∀ {l : List Candidate} {n : Int}, (∀ c ∈ l, ∃ committed, c.Whole committed) → 0 < n →
    n ≤ bytesOf (picks n l) → ∃ init p, picks n l = init ++ [p] ∧
      p.2.lo ≤ (p.2.hi - 1) / p.1.granule * p.1.granule ∧ (p.2.hi - 1) / p.1.granule * p.1.granule < p.2.hi ∧
        bytesOf (picks n l) - (p.2.hi - (p.2.hi - 1) / p.1.granule * p.1.granule) < n
  | [], n, _, hn, hle => by
    have : n ≤ 0 := hle
    omega
  | c :: cs, n, h, hn, hle => by
    have hcs : ∀ d ∈ cs, ∃ committed, d.Whole committed := fun d hd => h d (List.mem_cons_of_mem c hd)
    have hlo : (c.taken n).lo = c.range.lo := rfl
    obtain ⟨committed, hw⟩ := h c List.mem_cons_self
    rw [picks, if_neg (not_le.2 hn), bytesOf_cons] at hle
    rw [picks, if_neg (not_le.2 hn), bytesOf_cons]
    by_cases hmore : 0 < n - ((c.taken n).hi - (c.taken n).lo)
    · obtain ⟨init, p, heq, h1, h2, h3⟩ := picks_last hcs hmore (by omega)
      exact ⟨(c, c.taken n) :: init, p, by rw [heq]; rfl, h1, h2, by omega⟩
    · have hnil : picks (n - ((c.taken n).hi - (c.taken n).lo)) cs = [] := by
        cases cs with
        | nil => rfl
        | cons d ds => rw [picks, if_pos (not_lt.1 hmore)]
      obtain ⟨h1, h2, h3⟩ := hw.taken_last hn
      have hzero : bytesOf [] = 0 := rfl
      rw [hnil, hzero]
      refine ⟨[], (c, c.taken n), rfl, h1, h2, ?_⟩
      show (c.taken n).hi - (c.taken n).lo + 0 - ((c.taken n).hi - ((c.taken n).hi - 1) / c.granule * c.granule) < n
      omega

theorem picks_of_le (hn : n ≤ 0) : ∀ l : List Candidate, picks n l = []
  | [] => rfl
  | _ :: _ => if_pos hn

theorem picks_pairwise {R : Candidate → Candidate → Prop} : ∀ {l : List Candidate} {n : Int},
    (∀ c ∈ l, ∃ committed, c.Whole committed) → l.Pairwise R → (picks n l).Pairwise fun p q => R p.1 q.1
  | [], _, _, _ => .nil
  | c :: cs, n, hw, h => by
    have hcs : ∀ d ∈ cs, ∃ committed, d.Whole committed := fun d hd => hw d (List.mem_cons_of_mem c hd)
    obtain ⟨hc, h⟩ := List.pairwise_cons.1 h
    rw [picks]
    split
    · exact .nil
    · exact List.pairwise_cons.2 ⟨fun q hq => hc q.1 (picks_picked hcs q hq).1, picks_pairwise hcs h⟩

/-! ## By owner -/

def byOwner (planned : Dict String (List Gap)) (ps : List (Candidate × Gap)) : Dict String (List Gap) :=
  ps.foldl (fun d p => d.insert p.1.ownerId ((d.get? p.1.ownerId).getD [] ++ [p.2])) planned

/-- The loop of `_make_room` over its candidates. -/
theorem foldl_select : ∀ {l : List Candidate} {n : Int} {planned : Dict String (List Gap)}, (∀ c ∈ l, c.range.lo < c.range.hi) →
    l.foldl Plan.select ⟨n, planned⟩ = ⟨n - bytesOf (picks n l), byOwner planned (picks n l)⟩
  | [], n, planned, _ => by
    show Plan.mk n planned = ⟨n - 0, planned⟩
    rw [Int.sub_zero]
  | c :: cs, n, planned, h => by
    have hcs : ∀ d ∈ cs, d.range.lo < d.range.hi := fun d hd => h d (List.mem_cons_of_mem c hd)
    rw [List.foldl_cons, Plan.select, picks]
    by_cases hn : n ≤ 0
    · rw [if_pos hn, if_pos hn, foldl_select hcs, picks_of_le hn]
    · have hsome : backingUnitPrefixForBytes c.range c.granule n = some (c.taken n) :=
        if_neg (by have := h c List.mem_cons_self; omega)
      rw [if_neg hn, if_neg hn, hsome]
      refine (foldl_select hcs).trans ?_
      rw [bytesOf_cons, Int.sub_sub]
      rfl

def rangesOf (ps : List (Candidate × Gap)) (id : String) : List Gap := (ps.filter fun p => p.1.ownerId = id).map Prod.snd

theorem mem_rangesOf {ps : List (Candidate × Gap)} {id : String} {g : Gap} :
    g ∈ rangesOf ps id ↔ ∃ p ∈ ps, p.1.ownerId = id ∧ p.2 = g := by
  unfold rangesOf
  rw [List.mem_map]
  simp only [List.mem_filter, decide_eq_true_eq, and_assoc]

theorem get?_byOwner (id : String) : ∀ (ps : List (Candidate × Gap)) (planned : Dict String (List Gap)),
    (byOwner planned ps).get? id =
      if rangesOf ps id = [] then planned.get? id else some ((planned.get? id).getD [] ++ rangesOf ps id)
  | [], planned => rfl
  | p :: ps, planned => by
    refine (get?_byOwner id ps _).trans ?_
    rw [Dict.get?_insert]
    by_cases hid : p.1.ownerId = id
    · have hcons : rangesOf (p :: ps) id = p.2 :: rangesOf ps id := by
        unfold rangesOf
        rw [List.filter_cons_of_pos (by simpa using hid), List.map_cons]
      rw [hcons, if_pos hid.symm, if_neg (List.cons_ne_nil _ _), Option.getD_some, hid, List.append_assoc, List.singleton_append]
      split
      · next hnil => rw [hnil]
      · rfl
    · have hskip : rangesOf (p :: ps) id = rangesOf ps id := by
        unfold rangesOf
        rw [List.filter_cons_of_neg (by simpa using hid)]
      rw [hskip, if_neg (Ne.symm hid)]

/-- An owner's share of the picks is all that is picked of it. -/
theorem get?_byOwner_empty {ps : List (Candidate × Gap)} {id : String} {ranges : List Gap} :
    (byOwner .empty ps).get? id = some ranges ↔ ranges = rangesOf ps id ∧ ranges ≠ [] := by
  rw [get?_byOwner]
  split
  · next hnil =>
    refine ⟨fun h => (by cases h), fun h => absurd (h.1.trans hnil) h.2⟩
  · next hne =>
    rw [Option.some.injEq]
    constructor
    · rintro rfl
      exact ⟨rfl, hne⟩
    · intro h
      exact h.1.symm

theorem tally_byOwner : ∀ (ps : List (Candidate × Gap)) {planned : Dict String (List Gap)} {n : Int},
    Tally totalLength planned.get? n → Tally totalLength (byOwner planned ps).get? (n + bytesOf ps)
  | [], _, n, h => by
    show Tally _ _ (n + 0)
    rwa [Int.add_zero]
  | p :: ps, planned, n, h => by
    have hstep := h.update p.1.ownerId (some ((planned.get? p.1.ownerId).getD [] ++ [p.2]))
    have hweight : weight totalLength (planned.get? p.1.ownerId) = totalLength ((planned.get? p.1.ownerId).getD []) := by
      cases planned.get? p.1.ownerId <;> rfl
    have happend : totalLength ((planned.get? p.1.ownerId).getD [] ++ [p.2]) =
        totalLength ((planned.get? p.1.ownerId).getD []) + (p.2.hi - p.2.lo) := by simp [totalLength]
    rw [hweight, weight_some, happend, ← Dict.get?_insert_eq] at hstep
    have htotal : n - totalLength ((planned.get? p.1.ownerId).getD []) +
        (totalLength ((planned.get? p.1.ownerId).getD []) + (p.2.hi - p.2.lo)) + bytesOf ps = n + bytesOf (p :: ps) := by
      rw [show bytesOf (p :: ps) = p.2.hi - p.2.lo + bytesOf ps from rfl]
      omega
    rw [← htotal]
    exact tally_byOwner ps hstep

end HeteroSim.Residency
