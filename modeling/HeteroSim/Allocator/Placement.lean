/-
Where `allocate` puts an extent. A returning call stores one extent under
its own key; a root it stores is in its arena and meets no other root,
whether first fit found the place, the caller named it, or a live extent
grew into it.
-/
import HeteroSim.Allocator.Indexes

namespace HeteroSim.Allocator

/-! ## The checks -/

theorem keyOf_ok {bufferId : String} {generation : Int} {key : Key} (h : keyOf bufferId generation = .ok key) :
    key = (strip bufferId, generation) := by
  unfold keyOf at h
  split at h
  · cases h
  · split at h
    · cases h
    · exact (Except.ok.inj h).symm

theorem checkExtent_ok {cfg : AllocatorConfig} {base size : Int} {u : Unit} (h : checkExtent cfg base size = .ok u) :
    0 ≤ base ∧ 0 < size ∧ base + size ≤ cfg.capacityBytes := by
  unfold checkExtent at h
  split at h
  · cases h
  · split at h
    · cases h
    · split at h
      · cases h
      · omega

/-- The range lies in the capacity and in the arena. -/
structure Within (cfg : AllocatorConfig) (base size generation : Int) (arena : Option Arena) : Prop where
  pos : 0 < size
  lower : 0 ≤ base
  upper : base + size ≤ cfg.capacityBytes
  arenaLower : (arenaOf cfg generation arena).1 ≤ base
  arenaUpper : base + size ≤ (arenaOf cfg generation arena).2

theorem checkArenaExtent_ok {cfg : AllocatorConfig} {base size generation : Int} {arena : Option Arena} {u : Unit}
    (h : checkArenaExtent cfg base size generation arena = .ok u) : Within cfg base size generation arena := by
  simp only [checkArenaExtent, bind_ok, refuse_ok, not_or, not_lt] at h
  obtain ⟨_, he, hlo, hhi⟩ := h
  obtain ⟨h0, hs, hc⟩ := checkExtent_ok he
  exact ⟨hs, h0, hc, hlo, hhi⟩

theorem overlaps_nil {s : AllocatorState} {base size : Int} {ignore : Option Key}
    (h : overlaps s base size ignore = []) {k : Key} {b : PhysicalAllocation} (hk : s.allocations.get? k = some b)
    (hi : ignore ≠ some k) (hb : b.aliasOf = none) : base + size ≤ b.baseAddress ∨ b.endAddress ≤ base := by
  simp only [overlaps, List.map_eq_nil_iff, List.filter_eq_nil_iff, decide_eq_true_eq, not_and, not_lt] at h
  have := h (k, b) (Dict.get?_eq_some.1 hk) hi hb
  simp only at this
  omega

theorem le_align {alignment : Int} (h : 0 < alignment) (value : Int) : value ≤ align value alignment := by
  have hdiv := Int.mul_ediv_add_emod (value + alignment - 1) alignment
  have hmod := Int.emod_lt_of_pos (value + alignment - 1) h
  rw [align, mul_comm]
  omega

/-- The usable gaps are those with an aligned address. -/
theorem fitsAligned_iff {cfg : AllocatorConfig} {g : Gap} :
    fitsAligned cfg g = true ↔ ∃ x, g.lo ≤ x ∧ x < g.hi ∧ cfg.alignmentBytes ∣ x := by
  have hpos := cfg.alignment_pos
  rw [fitsAligned, decide_eq_true_eq]
  constructor
  · intro h
    exact ⟨align g.lo cfg.alignmentBytes, le_align hpos _, h, Dvd.intro_left _ rfl⟩
  · rintro ⟨x, hlo, hhi, m, rfl⟩
    -- the first aligned address is the least one
    have hq : (g.lo + cfg.alignmentBytes - 1) / cfg.alignmentBytes < m + 1 := by
      rw [Int.ediv_lt_iff_lt_mul hpos, add_mul, mul_comm m]
      omega
    have : align g.lo cfg.alignmentBytes ≤ cfg.alignmentBytes * m := by
      rw [align, mul_comm]
      exact Int.mul_le_mul_of_nonneg_left (by omega) (le_of_lt hpos)
    omega

/-- An arena is part of the capacity. -/
theorem arenaOf_mem (cfg : AllocatorConfig) (generation : Int) (arena : Option Arena) :
    0 ≤ (arenaOf cfg generation arena).1 ∧ (arenaOf cfg generation arena).2 ≤ cfg.capacityBytes := by
  have h1 := cfg.workspace_nonneg
  have h2 := cfg.workspace_lt
  unfold arenaOf
  split
  · exact ⟨le_rfl, le_rfl⟩
  · cases isResident generation arena
    · exact ⟨by simp; omega, le_rfl⟩
    · exact ⟨le_rfl, by simp; omega⟩

/-! ## First fit -/

theorem fitGaps_mem {cfg : AllocatorConfig} {size lower upper base : Int} : ∀ {gaps : List Gap},
    fitGaps cfg size lower upper gaps = some base →
      ∃ g ∈ gaps, g.lo ≤ base ∧ base + size ≤ g.hi ∧ lower ≤ base ∧ base + size ≤ upper
  | [], h => by cases h
  | g :: gaps, h => by
    unfold fitGaps at h
    split at h
    · cases h
    · simp only at h
      split at h
      · next hfit =>
        have hle := le_align cfg.alignment_pos (max g.lo lower)
        cases h
        exact ⟨g, by simp, by omega, by omega, by omega, by omega⟩
      · obtain ⟨k, hk, hin⟩ := fitGaps_mem h
        exact ⟨k, by simp [hk], hin⟩

/-- First fit finds bytes no root holds, in the arena. -/
theorem findFirstFit_ok {s : AllocatorState} {size generation base : Int} {arena : Option Arena} (hsize : 0 < size)
    (hg : Gapped s.allocations.get? s) (hs : s.freeExtents ≠ none)
    (h : findFirstFit s size generation arena = .ok base) : Within s.config base size generation arena ∧
      ∀ x, base ≤ x → x < base + size → ¬Occupied s.allocations.get? x := by
  obtain ⟨gaps, hgaps⟩ := Option.ne_none_iff_exists'.1 hs
  have hfor := hg gaps hgaps
  simp only [findFirstFit, hgaps] at h
  split at h
  · next found hfound =>
    obtain rfl : found = base := Except.ok.inj h
    obtain ⟨g, hmem, hlo, hhi, hal, hau⟩ := fitGaps_mem hfound
    have hin : g ∈ gaps := by
      have := List.mem_of_mem_drop hmem
      rw [hfor.ok.index] at this
      exact (List.mem_filter.1 this).1
    have hheld : ∀ x, found ≤ x → x < found + size → Holds gaps x := fun x hx hx' =>
      ⟨g, hin, by omega, by omega⟩
    obtain ⟨h0, h1⟩ := arenaOf_mem s.config generation arena
    exact ⟨⟨hsize, by omega, by omega, hal, hau⟩, fun x hx hx' => ((hfor.holds x).1 (hheld x hx hx')).2⟩
  · cases h

/-! ## What a call stores -/

/-- What a returning call went through. -/
theorem allocate_ok {r : Request} {ident : Nat} {s s' : AllocatorState} {a : PhysicalAllocation}
    (h : allocate r ident s = .ok (a, s')) : ∃ key argument alias_, key = (strip r.bufferId, r.generation) ∧
      0 < r.sizeBytes ∧ aliasArgument r key = .ok alias_ ∧ chosen r ident s key argument alias_ = .ok a ∧
      s' = storeAllocation key a s := by
  simp only [allocate, bind_ok, refuse_ok, not_le] at h
  obtain ⟨key, hk, _, hsize, argument, -, alias_, hal, _, -, b, hb, h⟩ := h
  obtain ⟨rfl, rfl⟩ := Prod.mk.inj (Except.ok.inj h)
  exact ⟨key, argument, alias_, keyOf_ok hk, hsize, hal, hb, rfl⟩

theorem aliasArgument_root {r : Request} {key : Key} {alias_ : Option String × Option Int}
    (h : aliasArgument r key = .ok alias_) (hn : ∀ target generation, alias_ ≠ (some target, some generation)) :
    alias_.1 = none := by
  unfold aliasArgument at h
  split at h
  · cases h
  · split at h
    · cases h; rfl
    · split at h
      · cases h
      · cases h; exact absurd rfl (hn _ _)

/-- The extent a re-registration leaves: where it was, and where it grew or
got an arena, checked for it. -/
structure Reregistered (s : AllocatorState) (generation : Int) (key : Key) (existing a : PhysicalAllocation) : Prop where
  own : a.key = existing.key
  root : a.aliasOf = existing.aliasOf
  target : a.target = existing.target
  offset : a.aliasOffsetBytes = existing.aliasOffsetBytes
  base : a.baseAddress = existing.baseAddress
  grown : existing.sizeBytes ≤ a.sizeBytes
  size : a.sizeBytes = existing.sizeBytes ∨ a.aliasOf = none ∧
    Within s.config a.baseAddress a.sizeBytes generation a.allocationArena ∧
    overlaps s a.baseAddress a.sizeBytes (some key) = []
  arena : a.allocationArena = existing.allocationArena ∨
    Within s.config existing.baseAddress existing.sizeBytes generation a.allocationArena

theorem grow_ok {s : AllocatorState} {r : Request} {key : Key} {existing a : PhysicalAllocation}
    {arena : Option Arena} {ident : Nat} (h : grow s r key existing arena ident = .ok a) :
    a = { existing with ident, sizeBytes := r.sizeBytes } ∧ existing.aliasOf = none ∧
      Within s.config existing.baseAddress r.sizeBytes r.generation arena ∧
      overlaps s existing.baseAddress r.sizeBytes (some key) = [] := by
  simp only [grow, bind_ok, refuse_ok, not_or, not_not] at h
  obtain ⟨_, ⟨hroot, -, -⟩, _, hcheck, _, hover, h⟩ := h
  exact ⟨(Except.ok.inj h).symm, by simpa using hroot, checkArenaExtent_ok hcheck, hover⟩

theorem reregister_ok {s : AllocatorState} {r : Request} {key : Key} {argument : Option Arena}
    {alias_ : Option String × Option Int} {existing a : PhysicalAllocation} {ident : Nat}
    (h : reregister s r key argument alias_ existing ident = .ok a) : Reregistered s r.generation key existing a := by
  simp only [reregister, bind_ok, refuse_ok] at h
  obtain ⟨_, -, _, hcheck, _, -, _, -, _, -, sized, hsized, h⟩ := h
  generalize harena : (if argument = none then existing.allocationArena else argument) = arena at hcheck hsized h
  have hchanged : arena = existing.allocationArena ∨
      Within s.config existing.baseAddress existing.sizeBytes r.generation arena := by
    cases argument with
    | none => rw [if_pos rfl] at harena; exact .inl harena.symm
    | some _ =>
      simp only [recheckArena, Option.isSome_some, if_true] at hcheck
      exact .inr (checkArenaExtent_ok hcheck)
  -- the arena is the chosen one, whether it was replaced or not
  have ha : a = sized ∧ arena = sized.allocationArena ∨ a = { sized with ident, allocationArena := arena } := by
    have := Except.ok.inj h
    split at this
    · exact .inr this.symm
    · next hsame => exact .inl ⟨this.symm, not_not.1 hsame⟩
  have harenaA : a.allocationArena = arena := by
    rcases ha with ⟨rfl, h⟩ | rfl
    · exact h.symm
    · rfl
  have hfields : a.key = sized.key ∧ a.aliasOf = sized.aliasOf ∧ a.target = sized.target ∧
      a.aliasOffsetBytes = sized.aliasOffsetBytes ∧ a.baseAddress = sized.baseAddress ∧ a.sizeBytes = sized.sizeBytes := by
    rcases ha with ⟨rfl, -⟩ | rfl <;> exact ⟨rfl, rfl, rfl, rfl, rfl, rfl⟩
  obtain ⟨hkey, hroot, htarget, hoffset, hbase, hsize⟩ := hfields
  unfold resized at hsized
  split at hsized
  · next hlarger =>
    obtain ⟨rfl, halias, hin, hover⟩ := grow_ok hsized
    have hgrown : existing.sizeBytes ≤ a.sizeBytes := by rw [hsize]; exact le_of_lt hlarger
    refine ⟨hkey, hroot, htarget, hoffset, hbase, hgrown, .inr ⟨hroot.trans halias, ?_, ?_⟩, harenaA ▸ hchanged⟩
    · rw [hbase, hsize, harenaA]; exact hin
    · rw [hbase, hsize]; exact hover
  · split at hsized
    · cases hsized
    · cases hsized
      exact ⟨hkey, hroot, htarget, hoffset, hbase, le_of_eq hsize.symm, .inl hsize, harenaA ▸ hchanged⟩

/-- The range a new root gets. -/
theorem place_ok {s : AllocatorState} {r : Request} {key : Key} {argument : Option Arena}
    {alias_ : Option String × Option Int} {at_ : Int × Option Arena} (hal : aliasArgument r key = .ok alias_)
    (hsize : 0 < r.sizeBytes) (hg : Gapped s.allocations.get? s) (hs : s.freeExtents ≠ none)
    (h : place s r argument alias_ = .ok at_) (hroot : alias_.1 = none) :
    Within s.config at_.1 r.sizeBytes r.generation at_.2 ∧ ∀ k b, s.allocations.get? k = some b → b.aliasOf = none →
      at_.1 + r.sizeBytes ≤ b.baseAddress ∨ b.endAddress ≤ at_.1 := by
  unfold place at h
  split at h
  · cases hroot
  · split at h
    · next address _ =>
      simp only [bind_ok, placeAt, refuse_ok] at h
      obtain ⟨base, ⟨_, -, _, hcheck, hover⟩, h⟩ := h
      cases h
      split at hover
      · next hnil =>
        cases hover
        exact ⟨checkArenaExtent_ok hcheck, fun k b hk hb => overlaps_nil hnil hk (by simp) hb⟩
      · cases hover
    · simp only [bind_ok] at h
      obtain ⟨base, hfit, h⟩ := h
      cases h
      obtain ⟨hin, hfree⟩ := findFirstFit_ok hsize hg hs hfit
      refine ⟨hin, fun k b hk hb => ?_⟩
      obtain ⟨gaps, hgaps⟩ := Option.ne_none_iff_exists'.1 hs
      have hpos := ((hg gaps hgaps).roots.inside k b hk hb).1
      have hend : b.endAddress = b.baseAddress + b.sizeBytes := rfl
      by_contra hno
      -- the two ranges would share their later start
      refine hfree (max base b.baseAddress) (le_max_left _ _) ?_ ⟨k, b, hk, hb, le_max_right _ _, ?_⟩
      · rw [max_lt_iff]; omega
      · rw [max_lt_iff]; omega

/-! ## What the map keeps -/

/-- Live roots are in their arenas. -/
def ArenaOk (cfg : AllocatorConfig) (f : Key → Option PhysicalAllocation) : Prop :=
  ∀ k a, f k = some a → a.aliasOf = none →
    (arenaOf cfg a.generation a.allocationArena).1 ≤ a.baseAddress ∧
      a.endAddress ≤ (arenaOf cfg a.generation a.allocationArena).2

theorem get?_store (k : Key) (a : PhysicalAllocation) (s : AllocatorState) :
    (storeAllocation k a s).allocations.get? = Function.update s.allocations.get? k (some a) := by
  rcases storeAllocation_cases k a s with ⟨hk, hs⟩ | hs
  · rw [hs, ← hk, Function.update_eq_self]
  · rw [hs.allocations, Dict.get?_insert_eq]
    rfl

/-- The stored extent is filed under its own key. -/
theorem Keyed.chosen {r : Request} {ident : Nat} {s : AllocatorState} {a : PhysicalAllocation} {key : Key}
    {argument : Option Arena} {alias_ : Option String × Option Int} (hk : Keyed s.allocations.get?)
    (h : chosen r ident s key argument alias_ = .ok a) : a.key = key := by
  unfold Allocator.chosen at h
  split at h
  · next existing he => rw [(reregister_ok h).own, hk key existing he]
  · simp only [bind_ok] at h
    obtain ⟨at_, -, h⟩ := h
    cases h
    rfl

theorem Keyed.update {f : Key → Option PhysicalAllocation} {k : Key} {a : PhysicalAllocation} (h : Keyed f)
    (ha : a.key = k) : Keyed (Function.update f k (some a)) := by
  intro j b hb
  rw [Function.update_apply] at hb
  split at hb
  · next hj => rw [hj, ← Option.some.inj hb, ha]
  · exact h j b hb

theorem Keyed.allocate {r : Request} {ident : Nat} {s s' : AllocatorState} {a : PhysicalAllocation}
    (hk : Keyed s.allocations.get?) (h : allocate r ident s = .ok (a, s')) : Keyed s'.allocations.get? := by
  obtain ⟨key, argument, alias_, -, -, -, hc, rfl⟩ := allocate_ok h
  rw [get?_store]
  exact hk.update (hk.chosen hc)

theorem RootsOk.replace {cfg : AllocatorConfig} {f : Key → Option PhysicalAllocation} {k : Key}
    {a : PhysicalAllocation} (h : RootsOk cfg f) (ha : a.aliasOf = none → Joins cfg (Function.update f k none) a) :
    RootsOk cfg (Function.update f k (some a)) := by
  have := (h.update_none k).update_some (Function.update_self k none f) ha
  rwa [Function.update_idem] at this

/-- A root may join the others where a re-registration leaves it. -/
theorem Reregistered.joins {s : AllocatorState} {generation : Int} {key : Key} {existing a : PhysicalAllocation}
    (h : Reregistered s generation key existing a) (hroots : RootsOk s.config s.allocations.get?)
    (he : s.allocations.get? key = some existing) (ha : a.aliasOf = none) :
    Joins s.config (Function.update s.allocations.get? key none) a := by
  have hget : ∀ {k b}, Function.update s.allocations.get? key none k = some b →
      k ≠ key ∧ s.allocations.get? k = some b := fun {k b} hk => by
    rw [Function.update_apply] at hk
    split at hk
    · cases hk
    · next hne => exact ⟨hne, hk⟩
  rcases h.size with hsame | ⟨-, hin, hover⟩
  · have hend : a.endAddress = existing.endAddress := by
      rw [PhysicalAllocation.endAddress, PhysicalAllocation.endAddress, h.base, hsame]
    obtain ⟨hpos, hlo, hhi⟩ := hroots.inside key existing he (h.root ▸ ha)
    refine ⟨by omega, by rw [h.base]; exact hlo, by omega, fun k b hk hb => ?_⟩
    rw [hend, h.base]
    exact hroots.disjoint key k existing b he (hget hk).2 (h.root ▸ ha) hb (hget hk).1.symm
  · refine ⟨hin.pos, hin.lower, hin.upper, fun k b hk hb => ?_⟩
    exact overlaps_nil hover (hget hk).2 (by simpa using (hget hk).1.symm) hb

/-- **A returning `allocate` keeps the roots in range and disjoint.** -/
theorem RootsOk.allocate {r : Request} {ident : Nat} {s s' : AllocatorState} {a : PhysicalAllocation}
    (hroots : RootsOk s.config s.allocations.get?) (hg : Gapped s.allocations.get? s) (hs : s.freeExtents ≠ none)
    (h : allocate r ident s = .ok (a, s')) : RootsOk s.config s'.allocations.get? := by
  obtain ⟨key, argument, alias_, rfl, hsize, hal, hc, rfl⟩ := allocate_ok h
  rw [get?_store]
  refine hroots.replace fun ha => ?_
  unfold chosen at hc
  split at hc
  · next existing he => exact (reregister_ok hc).joins hroots he ha
  · next hnone =>
    simp only [bind_ok] at hc
    obtain ⟨at_, hplace, hc⟩ := hc
    cases hc
    obtain ⟨hin, hapart⟩ := place_ok hal hsize hg hs hplace ha
    rw [← hnone, Function.update_eq_self]
    exact ⟨hin.pos, hin.lower, hin.upper, hapart⟩

/-- **A returning `allocate` keeps the roots in their arenas.** -/
theorem ArenaOk.allocate {r : Request} {ident : Nat} {s s' : AllocatorState} {a : PhysicalAllocation}
    (harena : ArenaOk s.config s.allocations.get?) (hk : Keyed s.allocations.get?)
    (hg : Gapped s.allocations.get? s) (hs : s.freeExtents ≠ none)
    (h : allocate r ident s = .ok (a, s')) : ArenaOk s.config s'.allocations.get? := by
  obtain ⟨key, argument, alias_, hkey, hsize, hal, hc, rfl⟩ := allocate_ok h
  rw [get?_store]
  intro k b hb hroot
  rw [Function.update_apply] at hb
  split at hb
  · obtain rfl := Option.some.inj hb
    have hgen : a.generation = r.generation := by
      have := hk.chosen hc
      rw [hkey] at this
      exact congrArg Prod.snd this
    rw [hgen]
    unfold chosen at hc
    split at hc
    · next existing he =>
      have hr := reregister_ok hc
      have hold := harena key existing he (hr.root ▸ hroot)
      have hgen' : existing.generation = r.generation := by
        have := hk key existing he
        rw [hkey] at this
        exact congrArg Prod.snd this
      rcases hr.size with hsame | ⟨-, hin, -⟩
      · have hend : a.endAddress = existing.endAddress := by
          rw [PhysicalAllocation.endAddress, PhysicalAllocation.endAddress, hr.base, hsame]
        rw [hend, hr.base]
        rcases hr.arena with ha | hin
        · rw [ha, ← hgen']; exact hold
        · exact ⟨hin.arenaLower, hin.arenaUpper⟩
      · exact ⟨hin.arenaLower, hin.arenaUpper⟩
    · simp only [bind_ok] at hc
      obtain ⟨at_, hplace, hc⟩ := hc
      cases hc
      obtain ⟨hin, -⟩ := place_ok hal hsize hg hs hplace hroot
      exact ⟨hin.arenaLower, hin.arenaUpper⟩
  · exact harena k b hb hroot

end HeteroSim.Allocator
