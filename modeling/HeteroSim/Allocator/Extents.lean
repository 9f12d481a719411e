/-
The gap list through a free and an occupy. Freeing a range none of which is
held adds it to what the list holds; occupying a range inside one gap takes
it out, and a range no gap contains ends the list. Both keep the gaps apart
and the index of usable gaps beside them.
-/
import HeteroSim.Allocator.State

namespace HeteroSim.Allocator

/-! ## Freeing -/

/-- The gap in front is merged when it touches the range. -/
theorem mergeBefore_spec (fits : Gap → Bool) {pre post : List Gap} {base stop : Int} (h : Separated (pre ++ post))
    (hpre : ∀ g ∈ pre, g.hi ≤ base) (hlt : base < stop) : ∃ pre' base',
      mergeBefore fits pre base stop ((pre ++ post).filter fits) = (pre', base', stop, (pre' ++ post).filter fits) ∧
      Separated (pre' ++ post) ∧ base' < stop ∧ (∀ g ∈ pre', g.hi < base') ∧
      ∀ x, Holds pre' x ∨ (base' ≤ x ∧ x < stop) ↔ Holds pre x ∨ (base ≤ x ∧ x < stop) := by
  rcases List.eq_nil_or_concat pre with rfl | ⟨pre, g, rfl⟩
  · exact ⟨[], base, rfl, h, hlt, by simp, fun _ => Iff.rfl⟩
  · simp only [List.concat_eq_append] at h hpre ⊢
    have hg := hpre g (by simp)
    have hgap := h.proper g (by simp)
    have hfront : ∀ k ∈ pre, k.hi < g.lo := fun k hk =>
      (separated_append.1 (separated_append.1 h).1).2.2 k hk g (List.mem_singleton_self g)
    simp only [mergeBefore, List.getLast?_concat, List.dropLast_concat]
    rw [List.append_assoc, List.singleton_append] at h ⊢
    split
    · next hle =>
      have hb : base = g.hi := le_antisymm hle hg
      refine ⟨pre, g.lo, ?_, h.sublist (by simp), by omega, hfront, fun x => ?_⟩
      · rw [unindex_filter h, min_eq_right (by omega), max_eq_left (by omega)]
      · simp only [holds_append, holds_cons, holds_nil, or_false]
        rw [or_assoc]
        refine or_congr_right ?_
        omega
    · next hlt' =>
      refine ⟨pre ++ [g], base, by rw [List.append_assoc, List.singleton_append], by simpa using h, hlt, ?_,
        fun _ => Iff.rfl⟩
      intro k hk
      rcases List.mem_append.1 hk with hk | hk
      · have := hfront k hk; omega
      · obtain rfl := List.mem_singleton.1 hk; omega

/-- The loop merges the gaps that touch the range, and stops before the rest. -/
theorem mergeAfter_spec (fits : Gap → Bool) (base : Int) : ∀ {post pre : List Gap} {stop : Int},
    Separated (pre ++ post) → (∀ g ∈ post, stop ≤ g.lo) → base < stop → ∃ post' stop',
      mergeAfter fits post stop ((pre ++ post).filter fits) = (post', stop', (pre ++ post').filter fits) ∧
      Separated (pre ++ post') ∧ stop ≤ stop' ∧ (∀ g ∈ post', stop' < g.lo) ∧
      ∀ x, (base ≤ x ∧ x < stop') ∨ Holds post' x ↔ (base ≤ x ∧ x < stop) ∨ Holds post x
  | [], pre, stop, h, _, _ => ⟨[], stop, rfl, h, le_rfl, by simp, fun _ => Iff.rfl⟩
  | g :: post, pre, stop, h, hpost, hlt => by
    obtain ⟨hgap, hgpost, -⟩ := separated_cons.1 (separated_append.1 h).2.1
    have hg := hpost g (by simp)
    simp only [mergeAfter]
    split
    · next hle =>
      have hs : stop = g.lo := le_antisymm hg hle
      rw [unindex_filter h, max_eq_right (by omega)]
      obtain ⟨post', stop', heq, hsep, hle', hafter, hx⟩ := mergeAfter_spec fits base
        (h.sublist (show (pre ++ post).Sublist (pre ++ g :: post) by simp)) (fun k hk => le_of_lt (hgpost k hk))
        (show base < g.hi by omega)
      refine ⟨post', stop', heq, hsep, by omega, hafter, fun x => (hx x).trans ?_⟩
      simp only [holds_cons]
      rw [← or_assoc]
      refine or_congr_left ?_
      omega
    · next hlt' =>
      refine ⟨g :: post, stop, rfl, h, le_rfl, fun k hk => ?_, fun _ => Iff.rfl⟩
      rcases List.mem_cons.1 hk with rfl | hk
      · omega
      · have := hgpost k hk; omega

/-- What a gap list and its index must be. -/
structure GapsOk (cfg : AllocatorConfig) (gaps index : List Gap) : Prop where
  separated : Separated gaps
  index : index = gaps.filter (fitsAligned cfg)

/-- **Freeing a range none of which is held adds it to what the gaps hold.** -/
theorem freeExtent_spec {s : AllocatorState} {gaps : List Gap} (base stop : Int) (hf : s.freeExtents = some gaps)
    (h : GapsOk s.config gaps s.fitExtents) (hlt : base < stop) (hx : ∀ x, base ≤ x → x < stop → ¬Holds gaps x) :
    ∃ gaps', (freeExtent base stop s).freeExtents = some gaps' ∧
      GapsOk s.config gaps' (freeExtent base stop s).fitExtents ∧
      ∀ x, Holds gaps' x ↔ Holds gaps x ∨ (base ≤ x ∧ x < stop) := by
  have hcut : gaps.takeWhile (fun g => decide (g.lo < base)) ++ gaps.dropWhile (fun g => decide (g.lo < base)) =
      gaps := List.takeWhile_append_dropWhile
  have hbefore := Separated.before_lo (l := gaps) base
  have hafter := h.separated.after_lo base
  simp only [freeExtent, hf]
  generalize gaps.takeWhile (fun g => decide (g.lo < base)) = pre at hcut hbefore ⊢
  generalize gaps.dropWhile (fun g => decide (g.lo < base)) = post at hcut hafter ⊢
  subst hcut
  have hpre : ∀ g ∈ pre, g.hi ≤ base := fun g hg => by
    by_contra hlt'
    exact hx base le_rfl hlt ((holds_append _ _ _).2 (.inl ⟨g, hg, le_of_lt (hbefore g hg), by omega⟩))
  have hpost : ∀ g ∈ post, stop ≤ g.lo := fun g hg => by
    by_contra hlt'
    have hp := h.separated.proper g (by simp [hg])
    exact hx g.lo (hafter g hg) (by omega) ((holds_append _ _ _).2 (.inr ⟨g, hg, le_rfl, hp⟩))
  rw [h.index]
  obtain ⟨pre', base', heq, hsep, hlt1, hend, hx1⟩ := mergeBefore_spec (fitsAligned s.config) h.separated hpre hlt
  rw [heq]
  simp only
  obtain ⟨post', stop', heq', hsep', hle, hstart, hx2⟩ := mergeAfter_spec (fitsAligned s.config) base' hsep hpost hlt1
  rw [heq']
  simp only
  have hall : Separated (pre' ++ Gap.mk base' stop' :: post') := by
    refine separated_append.2 ⟨(separated_append.1 hsep').1, separated_cons.2 ⟨?_, hstart, ?_⟩, fun g hg k hk => ?_⟩
    · simp only [Gap.lo_mk, Gap.hi_mk]; omega
    · exact (separated_append.1 hsep').2.1
    · rcases List.mem_cons.1 hk with rfl | hk
      · exact hend g hg
      · exact (separated_append.1 hsep').2.2 g hg k hk
  refine ⟨_, rfl, ⟨hall, reindex_filter hall⟩, fun x => ?_⟩
  simp only [holds_append, holds_cons, Gap.lo_mk, Gap.hi_mk]
  rw [hx2 x, ← or_assoc, hx1 x]
  exact or_right_comm

/-! ## Occupying -/

theorem foldl_reindex (fits : Gap → Bool) : ∀ {new pre post : List Gap}, Separated (pre ++ (new ++ post)) →
    new.foldl (fun index r => reindex fits r index) ((pre ++ post).filter fits) = (pre ++ (new ++ post)).filter fits
  | [], _, _, _ => rfl
  | g :: new, pre, post, h => by
    have h' : Separated ((pre ++ [g]) ++ (new ++ post)) := by simpa using h
    have hg : Separated (pre ++ g :: post) := h.sublist (by simp)
    rw [List.foldl_cons, reindex_filter hg]
    have ih := foldl_reindex fits h'
    simp only [List.append_assoc, List.cons_append, List.nil_append] at ih ⊢
    exact ih

theorem remnants_spec {g : Gap} {base stop : Int} (hlo : g.lo ≤ base) (hlt : base < stop) (hhi : stop ≤ g.hi) :
    Separated (remnants g base stop) ∧ (∀ k ∈ remnants g base stop, g.lo ≤ k.lo ∧ k.hi ≤ g.hi) ∧
      ∀ x, Holds (remnants g base stop) x ↔ (g.lo ≤ x ∧ x < g.hi) ∧ ¬(base ≤ x ∧ x < stop) := by
  unfold remnants
  by_cases hl : g.lo < base <;> by_cases hh : stop < g.hi
  · simp only [hl, hh, if_true, List.singleton_append]
    refine ⟨?_, ?_, fun x => ?_⟩
    · simp [separated_cons, separated_nil, hl, hh, hlt]
    · simp only [List.mem_cons, List.not_mem_nil, or_false, forall_eq_or_imp, forall_eq, Gap.lo_mk, Gap.hi_mk]
      omega
    · simp; omega
  · simp only [hl, hh, if_true, if_false, List.append_nil]
    refine ⟨?_, ?_, fun x => ?_⟩
    · simp [separated_cons, separated_nil, hl]
    · simp only [List.mem_singleton, forall_eq, Gap.lo_mk, Gap.hi_mk]; omega
    · simp; omega
  · simp only [hl, hh, if_true, if_false, List.nil_append]
    refine ⟨?_, ?_, fun x => ?_⟩
    · simp [separated_cons, separated_nil, hh]
    · simp only [List.mem_singleton, forall_eq, Gap.lo_mk, Gap.hi_mk]; omega
    · simp; omega
  · simp only [hl, hh, if_false, List.append_nil]
    refine ⟨separated_nil, by simp, fun x => ?_⟩
    simp; omega

/-- **Occupying a root**: either its range was held and is taken out of what
the gaps hold, or no gap contains it and the list ends. -/
theorem occupyExtent_spec {s : AllocatorState} {gaps : List Gap} {a : PhysicalAllocation}
    (hf : s.freeExtents = some gaps) (h : GapsOk s.config gaps s.fitExtents) (ha : a.aliasOf = none) :
    (((occupyExtent a s).freeExtents = none) ∧
      ¬(0 < a.sizeBytes ∧ ∀ x, a.baseAddress ≤ x → x < a.endAddress → Holds gaps x)) ∨
    ∃ gaps', (occupyExtent a s).freeExtents = some gaps' ∧
      GapsOk s.config gaps' (occupyExtent a s).fitExtents ∧ 0 < a.sizeBytes ∧
      (∀ x, a.baseAddress ≤ x → x < a.endAddress → Holds gaps x) ∧
      ∀ x, Holds gaps' x ↔ Holds gaps x ∧ ¬(a.baseAddress ≤ x ∧ x < a.endAddress) := by
  have hcut : gaps.takeWhile (fun g => decide (g.lo < a.baseAddress + 1)) ++
      gaps.dropWhile (fun g => decide (g.lo < a.baseAddress + 1)) = gaps := List.takeWhile_append_dropWhile
  have hafter := h.separated.after_lo (a.baseAddress + 1)
  have hbefore := Separated.before_lo (l := gaps) (a.baseAddress + 1)
  simp only [occupyExtent, hf, ha, Option.isSome_none, Bool.false_eq_true, if_false]
  by_cases hsize : a.sizeBytes ≤ 0
  · rw [if_pos hsize]
    exact .inl ⟨rfl, fun hp => by omega⟩
  rw [if_neg hsize]
  generalize gaps.takeWhile (fun g => decide (g.lo < a.baseAddress + 1)) = pre at hcut hbefore ⊢
  generalize gaps.dropWhile (fun g => decide (g.lo < a.baseAddress + 1)) = post at hcut hafter ⊢
  subst hcut
  have hlt : a.baseAddress < a.endAddress := by rw [PhysicalAllocation.endAddress]; omega
  rcases List.eq_nil_or_concat pre with rfl | ⟨pre, g, rfl⟩
  · refine .inl ⟨rfl, fun hp => ?_⟩
    obtain ⟨k, hk, hle, -⟩ := hp.2 a.baseAddress le_rfl hlt
    have := hafter k (by simpa using hk)
    omega
  · simp only [List.concat_eq_append, List.getLast?_concat, List.dropLast_concat]
    have hsep := h.separated
    have hg := hbefore g (by simp)
    simp only [List.concat_eq_append, List.append_assoc, List.singleton_append] at h hsep ⊢
    have hparts := separated_append.1 hsep
    obtain ⟨hgap, hgpost, hpostsep⟩ := separated_cons.1 hparts.2.1
    by_cases hin : g.lo ≤ a.baseAddress ∧ a.baseAddress < a.endAddress ∧ a.endAddress ≤ g.hi
    · rw [if_pos hin]
      obtain ⟨hrs, hrin, hrx⟩ := remnants_spec hin.1 hin.2.1 hin.2.2
      have hall : Separated (pre ++ (remnants g a.baseAddress a.endAddress ++ post)) := by
        refine separated_append.2 ⟨hparts.1, separated_append.2 ⟨hrs, hpostsep, fun k hk m hm => ?_⟩, fun k hk m hm => ?_⟩
        · have := hrin k hk
          have := hgpost m hm
          omega
        · rcases List.mem_append.1 hm with hm | hm
          · have := hrin m hm
            have := hparts.2.2 k hk g (by simp)
            omega
          · exact hparts.2.2 k hk m (by simp [hm])
      refine .inr ⟨_, rfl, ⟨hall, ?_⟩, by omega, fun x hlo hhi => ?_, fun x => ?_⟩
      · rw [h.index, unindex_filter hsep]
        exact foldl_reindex _ hall
      · exact (holds_append _ _ _).2 (.inr ⟨g, by simp, by omega, by omega⟩)
      · -- the gaps around the range hold none of it
        have hfront : Holds pre x → ¬(a.baseAddress ≤ x ∧ x < a.endAddress) := fun ⟨k, hk, hkx⟩ => by
          have := hparts.2.2 k hk g (by simp)
          omega
        have hback : Holds post x → ¬(a.baseAddress ≤ x ∧ x < a.endAddress) := fun ⟨k, hk, hkx⟩ => by
          have := hgpost k hk
          omega
        simp only [holds_append, holds_cons, hrx]
        rw [or_and_right, or_and_right, and_iff_left_of_imp hfront, and_iff_left_of_imp hback]
    · rw [if_neg hin]
      refine .inl ⟨rfl, fun hp => hin ?_⟩
      obtain ⟨k, hk, hklo, hkhi⟩ := hsep.contains hlt hp.2
      rcases List.mem_append.1 hk with hk | hk
      · have := hparts.2.2 k hk g (by simp); omega
      · rcases List.mem_cons.1 hk with rfl | hk
        · exact ⟨hklo, hlt, hkhi⟩
        · have := hafter k hk; omega

end HeteroSim.Allocator
