/-
The derived indexes say what the map says: the alias sets are the aliases
of each target, the gaps are what the live roots leave of the capacity, and
the rows are the extents by address. Retiring an extent and entering one
keep that, and a rebuild establishes it.
-/
import HeteroSim.Allocator.Extents
import HeteroSim.Allocator.Rollback

namespace HeteroSim.Allocator

/-! ## Aliases -/

/-- The live aliases that name the target directly. -/
def aliasesOf (d : Dict Key PhysicalAllocation) (t : Target) : Finset Key :=
  d.keys.toFinset.filter fun k => (d.get? k).bind (·.target) = some t

theorem mem_aliasesOf {d : Dict Key PhysicalAllocation} {t : Target} {k : Key} :
    k ∈ aliasesOf d t ↔ ∃ a, d.get? k = some a ∧ a.target = some t := by
  simp only [aliasesOf, Finset.mem_filter, List.mem_toFinset, Dict.mem_keys, Option.bind_eq_some_iff]
  constructor
  · intro h
    exact h.2
  · intro h
    obtain ⟨a, ha, ht⟩ := h
    exact ⟨⟨a, ha⟩, a, ha, ht⟩

theorem aliasesOf_congr {d e : Dict Key PhysicalAllocation} (h : ∀ k, d.get? k = e.get? k) :
    aliasesOf d = aliasesOf e := by
  funext t
  ext k
  rw [mem_aliasesOf, mem_aliasesOf, h]

theorem removeAlias_aliases {d : Dict Key PhysicalAllocation} {k : Key} {a : PhysicalAllocation}
    {s : AllocatorState} (h : d.get? k = some a) (hs : s.aliasesByTarget = GroupIndex.of (aliasesOf d)) :
    (removeAlias k a s).aliasesByTarget = GroupIndex.of (aliasesOf (d.erase k)) := by
  have hmem : ∀ t j, j ∈ aliasesOf (d.erase k) t ↔ j ≠ k ∧ j ∈ aliasesOf d t := fun t j => by
    rw [mem_aliasesOf, mem_aliasesOf, Dict.get?_erase]
    split <;> simp [*]
  have hother : ∀ {t j}, a.target ≠ some t → j ∈ aliasesOf d t → j ≠ k := by
    rintro t j ht hj rfl
    obtain ⟨b, hb, hbt⟩ := mem_aliasesOf.1 hj
    rw [h] at hb
    cases hb
    exact ht hbt
  unfold removeAlias
  cases ht : a.target with
  | none =>
    simp only [hs]
    refine congrArg _ (funext fun t => Finset.ext fun j => ?_)
    rw [hmem]
    exact ⟨fun hj => ⟨hother (by rw [ht]; simp) hj, hj⟩, fun hj => hj.2⟩
  | some u =>
    simp only [hs, GroupIndex.drop_of]
    refine congrArg _ (funext fun t => Finset.ext fun j => ?_)
    rw [hmem]
    by_cases hu : t = u
    · subst hu; simp
    · rw [Function.update_of_ne hu]
      exact ⟨fun hj => ⟨hother (by rw [ht]; simp [Ne.symm hu]) hj, hj⟩, fun hj => hj.2⟩

theorem addAlias_aliases {d : Dict Key PhysicalAllocation} {k : Key} {a : PhysicalAllocation}
    {s : AllocatorState} (h : d.get? k = none) (hs : s.aliasesByTarget = GroupIndex.of (aliasesOf d)) :
    (addAlias k a s).aliasesByTarget = GroupIndex.of (aliasesOf (d.insert k a)) := by
  have hmem : ∀ t j, j ∈ aliasesOf (d.insert k a) t ↔ (j = k ∧ a.target = some t) ∨ j ∈ aliasesOf d t := fun t j => by
    rw [mem_aliasesOf, mem_aliasesOf, Dict.get?_insert]
    by_cases hj : j = k
    · subst hj; simp [h]
    · simp [hj]
  unfold addAlias
  cases ht : a.target with
  | none =>
    simp only [hs]
    refine congrArg _ (funext fun t => Finset.ext fun j => ?_)
    rw [hmem, ht]
    simp
  | some u =>
    simp only [hs, GroupIndex.add_of]
    refine congrArg _ (funext fun t => Finset.ext fun j => ?_)
    rw [hmem, ht]
    by_cases hu : t = u
    · subst hu; simp
    · simp [Function.update_of_ne hu, Ne.symm hu]

/-! ## Gaps -/

/-- The address lies in a live root. -/
def Occupied (f : Key → Option PhysicalAllocation) (x : Int) : Prop :=
  ∃ k a, f k = some a ∧ a.aliasOf = none ∧ a.baseAddress ≤ x ∧ x < a.endAddress

/-- Live roots are in range and pairwise disjoint. -/
structure RootsOk (cfg : AllocatorConfig) (f : Key → Option PhysicalAllocation) : Prop where
  inside : ∀ k a, f k = some a → a.aliasOf = none →
    0 < a.sizeBytes ∧ 0 ≤ a.baseAddress ∧ a.endAddress ≤ cfg.capacityBytes
  disjoint : ∀ j k a b, f j = some a → f k = some b → a.aliasOf = none → b.aliasOf = none → j ≠ k →
    a.endAddress ≤ b.baseAddress ∨ b.endAddress ≤ a.baseAddress

/-- The gaps are the complement of the live roots. -/
structure GapsFor (cfg : AllocatorConfig) (f : Key → Option PhysicalAllocation) (gaps index : List Gap) : Prop where
  ok : GapsOk cfg gaps index
  roots : RootsOk cfg f
  holds : ∀ x, Holds gaps x ↔ (0 ≤ x ∧ x < cfg.capacityBytes) ∧ ¬Occupied f x

/-- A gap list, while there is one, is that of the map. -/
def Gapped (f : Key → Option PhysicalAllocation) (s : AllocatorState) : Prop :=
  ∀ gaps, s.freeExtents = some gaps → GapsFor s.config f gaps s.fitExtents

/-- A root may join: it is in range and meets no other. -/
structure Joins (cfg : AllocatorConfig) (f : Key → Option PhysicalAllocation) (a : PhysicalAllocation) : Prop where
  size : 0 < a.sizeBytes
  lower : 0 ≤ a.baseAddress
  upper : a.endAddress ≤ cfg.capacityBytes
  apart : ∀ k b, f k = some b → b.aliasOf = none → a.endAddress ≤ b.baseAddress ∨ b.endAddress ≤ a.baseAddress

theorem occupied_update_none {f : Key → Option PhysicalAllocation} {k : Key} {a : PhysicalAllocation} {x : Int}
    (h : f k = some a) : Occupied f x ↔
      Occupied (Function.update f k none) x ∨ (a.aliasOf = none ∧ a.baseAddress ≤ x ∧ x < a.endAddress) := by
  constructor
  · rintro ⟨j, b, hb, hr, hx⟩
    by_cases hj : j = k
    · subst hj
      rw [h] at hb
      cases hb
      exact .inr ⟨hr, hx⟩
    · exact .inl ⟨j, b, by rw [Function.update_of_ne hj]; exact hb, hr, hx⟩
  · rintro (⟨j, b, hb, hr, hx⟩ | ⟨hr, hx⟩)
    · rw [Function.update_apply] at hb
      split at hb
      · cases hb
      · exact ⟨j, b, hb, hr, hx⟩
    · exact ⟨k, a, h, hr, hx⟩

theorem RootsOk.update_none {cfg : AllocatorConfig} {f : Key → Option PhysicalAllocation} (h : RootsOk cfg f)
    (k : Key) : RootsOk cfg (Function.update f k none) := by
  have hget : ∀ {j a}, Function.update f k none j = some a → f j = some a := fun {j a} hj => by
    rw [Function.update_apply] at hj
    split at hj
    · cases hj
    · exact hj
  exact ⟨fun j a hj => h.inside j a (hget hj), fun i j a b hi hj => h.disjoint i j a b (hget hi) (hget hj)⟩

theorem RootsOk.update_some {cfg : AllocatorConfig} {f : Key → Option PhysicalAllocation} {k : Key}
    {a : PhysicalAllocation} (h : RootsOk cfg f) (hk : f k = none) (ha : a.aliasOf = none → Joins cfg f a) :
    RootsOk cfg (Function.update f k (some a)) := by
  have hget : ∀ {j b}, Function.update f k (some a) j = some b → (j = k ∧ b = a) ∨ (j ≠ k ∧ f j = some b) :=
    fun {j b} hj => by
      rw [Function.update_apply] at hj
      split at hj
      · next he => exact .inl ⟨he, (Option.some.inj hj).symm⟩
      · next he => exact .inr ⟨he, hj⟩
  refine ⟨fun j b hj hr => ?_, fun i j b c hi hj hb hc hne => ?_⟩
  · rcases hget hj with ⟨-, rfl⟩ | ⟨-, hf⟩
    · exact ⟨(ha hr).size, (ha hr).lower, (ha hr).upper⟩
    · exact h.inside j b hf hr
  · rcases hget hi with ⟨rfl, rfl⟩ | ⟨-, hfi⟩
    · rcases hget hj with ⟨rfl, rfl⟩ | ⟨-, hfj⟩
      · exact absurd rfl hne
      · exact (ha hb).apart j c hfj hc
    · rcases hget hj with ⟨rfl, rfl⟩ | ⟨-, hfj⟩
      · exact ((ha hc).apart i b hfi hb).symm
      · exact h.disjoint i j b c hfi hfj hb hc hne

/-- Retiring a root returns its bytes to the gaps. -/
theorem gapped_freeRoot {f : Key → Option PhysicalAllocation} {k : Key} {a : PhysicalAllocation} {s : AllocatorState}
    (h : Gapped f s) (hk : f k = some a) : Gapped (Function.update f k none) (freeRoot a s) := by
  intro gaps hgaps
  have hcfg := (freeRoot_edit a s).config
  cases hs : s.freeExtents with
  | none =>
    have : (freeRoot a s).freeExtents = none := by
      unfold freeRoot
      split
      · simp [freeExtent, hs]
      · exact hs
    rw [this] at hgaps
    cases hgaps
  | some gaps0 =>
    have h0 := h gaps0 hs
    by_cases ha : a.aliasOf = none
    · have hroot := h0.roots.inside k a hk ha
      obtain ⟨gaps', hf, hok, hx⟩ := freeExtent_spec a.baseAddress a.endAddress hs h0.ok
        (by rw [PhysicalAllocation.endAddress]; omega)
        fun x hlo hhi hx => ((h0.holds x).1 hx).2 ⟨k, a, hk, ha, hlo, hhi⟩
      rw [freeRoot, if_pos ha] at hgaps ⊢
      obtain rfl : gaps' = gaps := Option.some.inj (hf.symm.trans hgaps)
      rw [freeRoot, if_pos ha] at hcfg
      rw [hcfg]
      refine ⟨hok, h0.roots.update_none k, fun x => ?_⟩
      rw [hx, h0.holds, occupied_update_none hk]
      -- the root's own bytes were in range and are in no other root
      have hown : a.baseAddress ≤ x ∧ x < a.endAddress →
          (0 ≤ x ∧ x < s.config.capacityBytes) ∧ ¬Occupied (Function.update f k none) x := by
        intro hin
        refine ⟨by omega, ?_⟩
        rintro ⟨j, b, hb, hbr, hbx⟩
        by_cases hj : j = k
        · subst hj; simp at hb
        · rw [Function.update_of_ne hj] at hb
          have := h0.roots.disjoint j k b a hb hk hbr ha hj
          omega
      constructor
      · rintro (⟨hin, hno⟩ | hx)
        · exact ⟨hin, fun ho => hno (.inl ho)⟩
        · exact hown hx
      · rintro ⟨hin, hno⟩
        by_cases hx : a.baseAddress ≤ x ∧ x < a.endAddress
        · exact .inr hx
        · exact .inl ⟨hin, fun ho => ho.elim hno fun hr => hx hr.2⟩
    · rw [freeRoot, if_neg ha] at hgaps ⊢
      have h1 := h gaps hgaps
      refine ⟨h1.ok, h1.roots.update_none k, fun x => ?_⟩
      rw [h1.holds, occupied_update_none hk]
      simp [ha]

theorem occupied_update_some {f : Key → Option PhysicalAllocation} {k : Key} {a : PhysicalAllocation} {x : Int}
    (h : f k = none) : Occupied (Function.update f k (some a)) x ↔
      Occupied f x ∨ (a.aliasOf = none ∧ a.baseAddress ≤ x ∧ x < a.endAddress) := by
  have hf : Function.update (Function.update f k (some a)) k none = f := by
    rw [Function.update_idem, ← h, Function.update_eq_self]
  rw [occupied_update_none (Function.update_self k (some a) f), hf]

/-- Entering a root takes its bytes out of the gaps, or ends the list. -/
theorem gapped_occupy {f : Key → Option PhysicalAllocation} {k : Key} {a : PhysicalAllocation} {s : AllocatorState}
    (h : Gapped f s) (hk : f k = none) : Gapped (Function.update f k (some a)) (occupyExtent a s) := by
  intro gaps hgaps
  have hcfg := (occupyExtent_edit a s).config
  cases hs : s.freeExtents with
  | none =>
    have : (occupyExtent a s).freeExtents = none := by simp [occupyExtent, hs]
    rw [this] at hgaps
    cases hgaps
  | some gaps0 =>
    have h0 := h gaps0 hs
    by_cases ha : a.aliasOf = none
    · rcases occupyExtent_spec hs h0.ok ha with ⟨hn, -⟩ | ⟨gaps', hf, hok, hsize, hheld, hx⟩
      · rw [hn] at hgaps; cases hgaps
      · obtain rfl : gaps' = gaps := Option.some.inj (hf.symm.trans hgaps)
        rw [hcfg]
        have hlt : a.baseAddress < a.endAddress := by rw [PhysicalAllocation.endAddress]; omega
        have hjoin : Joins s.config f a := by
          have hfirst := (h0.holds _).1 (hheld a.baseAddress le_rfl hlt)
          have hlast := (h0.holds _).1 (hheld (a.endAddress - 1) (by omega) (by omega))
          refine ⟨hsize, hfirst.1.1, by omega, fun j b hb hbr => ?_⟩
          by_contra hno
          have hb' := h0.roots.inside j b hb hbr
          have hbe : b.endAddress = b.baseAddress + b.sizeBytes := rfl
          -- some byte would lie in both
          refine ((h0.holds (max a.baseAddress b.baseAddress)).1 (hheld _ (le_max_left _ _) ?_)).2
            ⟨j, b, hb, hbr, le_max_right _ _, ?_⟩
          · rw [max_lt_iff]; omega
          · rw [max_lt_iff]; omega
        refine ⟨hok, h0.roots.update_some hk fun _ => hjoin, fun x => ?_⟩
        rw [hx, h0.holds, occupied_update_some hk]
        simp only [ha, true_and, not_or, and_assoc]
    · have heq : occupyExtent a s = s := by
        have : a.aliasOf.isSome = true := Option.isSome_iff_ne_none.2 ha
        simp [occupyExtent, hs, this]
      rw [heq] at hgaps ⊢
      have h1 := h gaps hgaps
      refine ⟨h1.ok, h1.roots.update_some hk fun hn => absurd hn ha, fun x => ?_⟩
      rw [h1.holds, occupied_update_some hk]
      simp [ha]

/-- A root that may join leaves a gap list. -/
theorem occupy_some {f : Key → Option PhysicalAllocation} {a : PhysicalAllocation} {s : AllocatorState}
    (h : Gapped f s) (hs : s.freeExtents ≠ none) (ha : a.aliasOf = none → Joins s.config f a) :
    (occupyExtent a s).freeExtents ≠ none := by
  obtain ⟨gaps, hgaps⟩ := Option.ne_none_iff_exists'.1 hs
  by_cases hr : a.aliasOf = none
  · rcases occupyExtent_spec hgaps (h gaps hgaps).ok hr with ⟨-, hno⟩ | ⟨gaps', hf, -⟩
    · refine absurd ⟨(ha hr).size, fun x hlo hhi => ((h gaps hgaps).holds x).2 ⟨?_, ?_⟩⟩ hno
      · have := (ha hr).lower
        have := (ha hr).upper
        omega
      · rintro ⟨k, b, hb, hbr, hbx⟩
        have := (ha hr).apart k b hb hbr
        omega
    · rw [hf]; simp
  · have : a.aliasOf.isSome = true := Option.isSome_iff_ne_none.2 hr
    simp [occupyExtent, hgaps, this]

/-! ## Rows -/

/-- Every key is its extent's own name and generation. -/
def Keyed (f : Key → Option PhysicalAllocation) : Prop := ∀ k a, f k = some a → a.key = k

/-- The rows are the extents in strictly increasing address order. -/
structure RowsFor (d : Dict Key PhysicalAllocation) (s : AllocatorState) : Prop where
  keys : s.addressKeys = s.addressRows.map (·.addressKey)
  perm : s.addressRows.Perm d.values
  sorted : s.addressKeys.Pairwise (· < ·)

theorem key_eq_of_addressKey {a b : PhysicalAllocation} (h : a.addressKey = b.addressKey) : a.key = b.key := by
  have h2 := congrArg (fun k : AddressKey => ofLex (ofLex k).2) h
  exact h2

theorem RowsFor.drop {d : Dict Key PhysicalAllocation} {s : AllocatorState} {k : Key} {a : PhysicalAllocation}
    (h : RowsFor d s) (hk : d.get? k = some a) : RowsFor (d.erase k) (dropRow a s) := by
  have hmem : a ∈ s.addressRows := h.perm.symm.subset (Dict.mem_values.2 ⟨k, hk⟩)
  obtain ⟨pre, post, hrows⟩ := List.append_of_mem hmem
  have hkeys : s.addressKeys = pre.map (·.addressKey) ++ a.addressKey :: post.map (·.addressKey) := by
    rw [h.keys, hrows, List.map_append, List.map_cons]
  have hsorted := h.sorted
  rw [hkeys] at hsorted
  have hpos : bisectLeft (before a.addressKey) s.addressKeys = pre.length := by
    rw [hkeys, bisectLeft_before hsorted, List.length_map]
  have hdropped : (dropRow a s).addressRows = pre ++ post := by
    simp only [dropRow, hpos, hrows, eraseIdx_length_append]
  have hdroppedKeys : (dropRow a s).addressKeys = (pre ++ post).map (·.addressKey) := by
    show s.addressKeys.eraseIdx (bisectLeft (before a.addressKey) s.addressKeys) = _
    rw [hpos, h.keys, List.eraseIdx_map, hrows, eraseIdx_length_append]
  refine ⟨by rw [hdroppedKeys, hdropped], ?_, ?_⟩
  · rw [hdropped]
    have hp : (a :: (pre ++ post)).Perm (a :: (d.erase k).values) := by
      refine (List.perm_middle.symm.trans ?_).trans (Dict.values_perm hk)
      rw [← hrows]; exact h.perm
    exact hp.cons_inv
  · rw [hdroppedKeys, List.map_append]
    exact hsorted.sublist (by simp)

theorem RowsFor.insert {d : Dict Key PhysicalAllocation} {s : AllocatorState} {k : Key} {a : PhysicalAllocation}
    (h : RowsFor d s) (hkeyed : Keyed d.get?) (hk : d.get? k = none) (ha : a.key = k) :
    RowsFor (d.insert k a) (insertRow a s) := by
  have hnew : a.addressKey ∉ s.addressKeys := by
    rw [h.keys, List.mem_map]
    rintro ⟨b, hb, hba⟩
    obtain ⟨j, hj⟩ := Dict.mem_values.1 (h.perm.subset hb)
    have hjk : j = k := by rw [← hkeyed j b hj, key_eq_of_addressKey hba, ha]
    rw [hjk, hk] at hj
    cases hj
  have hle : bisectLeft (before a.addressKey) s.addressKeys ≤ s.addressRows.length := by
    have hlen : s.addressRows.length = s.addressKeys.length := by rw [h.keys, List.length_map]
    rw [hlen]
    exact (List.takeWhile_sublist _).length_le
  obtain ⟨-, hs⟩ := perm_insertIdx_bisect h.sorted hnew
  refine ⟨?_, ?_, hs⟩
  · simp only [insertRow, List.map_insertIdx, ← h.keys]
  · refine (List.perm_insertIdx a s.addressRows hle).trans ?_
    refine (h.perm.cons a).trans ((Dict.values_perm (Dict.get?_insert_self d k a)).trans ?_).symm
    rw [Dict.erase_insert, Dict.erase_of_not_mem (Dict.get?_eq_none.1 hk)]

/-! ## Retiring and entering -/

/-- The indexes that follow any map: the aliases and the gaps. -/
structure IndexOf (d : Dict Key PhysicalAllocation) (s : AllocatorState) : Prop where
  aliases : s.aliasesByTarget = GroupIndex.of (aliasesOf d)
  gaps : Gapped d.get? s

theorem IndexOf.congr {d e : Dict Key PhysicalAllocation} {s : AllocatorState} (h : IndexOf d s)
    (he : ∀ k, d.get? k = e.get? k) : IndexOf e s :=
  ⟨h.aliases.trans (congrArg _ (aliasesOf_congr he)), by rw [← funext he]; exact h.gaps⟩

theorem RowsFor.congr {d e : Dict Key PhysicalAllocation} {s : AllocatorState} (h : RowsFor d s)
    (he : ∀ k, d.get? k = e.get? k) : RowsFor e s :=
  ⟨h.keys, h.perm.trans (Dict.values_perm_of_get? he), h.sorted⟩

theorem freeRoot_fields (a : PhysicalAllocation) (s : AllocatorState) :
    (freeRoot a s).aliasesByTarget = s.aliasesByTarget ∧ (freeRoot a s).addressKeys = s.addressKeys ∧
      (freeRoot a s).addressRows = s.addressRows := by
  unfold freeRoot freeExtent
  split
  · split <;> exact ⟨rfl, rfl, rfl⟩
  · exact ⟨rfl, rfl, rfl⟩

theorem freeRoot_some (a : PhysicalAllocation) {s : AllocatorState} (h : s.freeExtents ≠ none) :
    (freeRoot a s).freeExtents ≠ none := by
  unfold freeRoot freeExtent
  split
  · split
    · exact h
    · simp
  · exact h

theorem occupyExtent_fields (a : PhysicalAllocation) (s : AllocatorState) :
    (occupyExtent a s).aliasesByTarget = s.aliasesByTarget ∧ (occupyExtent a s).addressKeys = s.addressKeys ∧
      (occupyExtent a s).addressRows = s.addressRows := by
  unfold occupyExtent
  split
  · exact ⟨rfl, rfl, rfl⟩
  · split
    · exact ⟨rfl, rfl, rfl⟩
    · split
      · exact ⟨rfl, rfl, rfl⟩
      · simp only
        split
        · exact ⟨rfl, rfl, rfl⟩
        · split <;> exact ⟨rfl, rfl, rfl⟩

theorem removeAlias_fields (k : Key) (a : PhysicalAllocation) (s : AllocatorState) :
    (removeAlias k a s).freeExtents = s.freeExtents ∧ (removeAlias k a s).fitExtents = s.fitExtents ∧
      (removeAlias k a s).addressKeys = s.addressKeys ∧ (removeAlias k a s).addressRows = s.addressRows := by
  unfold removeAlias; split <;> exact ⟨rfl, rfl, rfl, rfl⟩

theorem addAlias_fields (k : Key) (a : PhysicalAllocation) (s : AllocatorState) :
    (addAlias k a s).freeExtents = s.freeExtents ∧ (addAlias k a s).fitExtents = s.fitExtents ∧
      (addAlias k a s).addressKeys = s.addressKeys ∧ (addAlias k a s).addressRows = s.addressRows := by
  unfold addAlias; split <;> exact ⟨rfl, rfl, rfl, rfl⟩

theorem Gapped.of_fields {f : Key → Option PhysicalAllocation} {s s' : AllocatorState} (h : Gapped f s)
    (hc : s'.config = s.config) (hf : s'.freeExtents = s.freeExtents) (hi : s'.fitExtents = s.fitExtents) :
    Gapped f s' := by
  intro gaps hgaps
  rw [hc, hi]
  exact h gaps (hf ▸ hgaps)

/-- **Retiring an extent keeps the indexes those of the rest.** -/
theorem IndexOf.retire {d : Dict Key PhysicalAllocation} {s : AllocatorState} {k : Key} {a : PhysicalAllocation}
    (h : IndexOf d s) (hk : d.get? k = some a) : IndexOf (d.erase k) (retire k a s) := by
  refine ⟨?_, ?_⟩
  · show (removeAlias k a (freeRoot a s)).aliasesByTarget = _
    exact removeAlias_aliases hk ((freeRoot_fields a s).1.trans h.aliases)
  · rw [Dict.get?_erase_eq]
    obtain ⟨hf, hi, -, -⟩ := removeAlias_fields k a (freeRoot a s)
    exact (gapped_freeRoot h.gaps hk).of_fields (removeAlias_edit k a _).config hf hi

/-- **Entering an extent at an absent key keeps them those of the map.** -/
theorem IndexOf.enter {d : Dict Key PhysicalAllocation} {s : AllocatorState} {k : Key} {a : PhysicalAllocation}
    (h : IndexOf d s) (hk : d.get? k = none) : IndexOf (d.insert k a) (enter k a s) := by
  have ha : (assign k a (insertRow a s)).aliasesByTarget = GroupIndex.of (aliasesOf d) := h.aliases
  have hg : Gapped d.get? (assign k a (insertRow a s)) := h.gaps.of_fields rfl rfl rfl
  obtain ⟨hf, hi, -, -⟩ := addAlias_fields k a (occupyExtent a (assign k a (insertRow a s)))
  refine ⟨addAlias_aliases hk ((occupyExtent_fields a _).1.trans ha), ?_⟩
  rw [Dict.get?_insert_eq]
  exact (gapped_occupy hg hk).of_fields (addAlias_edit k a _).config hf hi

theorem RowsFor.retire {d : Dict Key PhysicalAllocation} {s : AllocatorState} {k : Key} {a : PhysicalAllocation}
    (h : RowsFor d s) (hk : d.get? k = some a) : RowsFor (d.erase k) (retire k a s) := by
  have hkeys : (removeAlias k a (freeRoot a s)).addressKeys = s.addressKeys :=
    (removeAlias_fields k a _).2.2.1.trans (freeRoot_fields a s).2.1
  have hrows : (removeAlias k a (freeRoot a s)).addressRows = s.addressRows :=
    (removeAlias_fields k a _).2.2.2.trans (freeRoot_fields a s).2.2
  have h' : RowsFor d (removeAlias k a (freeRoot a s)) := ⟨by rw [hkeys, hrows]; exact h.keys,
    by rw [hrows]; exact h.perm, by rw [hkeys]; exact h.sorted⟩
  exact h'.drop hk

theorem RowsFor.enter {d : Dict Key PhysicalAllocation} {s : AllocatorState} {k : Key} {a : PhysicalAllocation}
    (h : RowsFor d s) (hkeyed : Keyed d.get?) (hk : d.get? k = none) (ha : a.key = k) :
    RowsFor (d.insert k a) (enter k a s) := by
  have h' : RowsFor (d.insert k a) (insertRow a s) := h.insert hkeyed hk ha
  have hkeys : (Allocator.enter k a s).addressKeys = (insertRow a s).addressKeys :=
    (addAlias_fields k a _).2.2.1.trans (occupyExtent_fields a _).2.1
  have hrows : (Allocator.enter k a s).addressRows = (insertRow a s).addressRows :=
    (addAlias_fields k a _).2.2.2.trans (occupyExtent_fields a _).2.2
  exact ⟨by rw [hkeys, hrows]; exact h'.keys, by rw [hrows]; exact h'.perm, by rw [hkeys]; exact h'.sorted⟩

theorem get?_erase_insert (d : Dict Key PhysicalAllocation) (k : Key) (a : PhysicalAllocation) (j : Key) :
    ((d.erase k).insert k a).get? j = (d.insert k a).get? j := by
  rw [Dict.get?_insert, Dict.get?_insert, Dict.get?_erase]
  split <;> rfl

/-- Storing keeps the indexes those of the map. -/
theorem IndexOf.store {s : AllocatorState} {k : Key} {a : PhysicalAllocation} (h : IndexOf s.allocations s) :
    IndexOf (storeAllocation k a s).allocations (storeAllocation k a s) := by
  have hb : IndexOf s.allocations (beforeMutation k s) := ⟨h.aliases, h.gaps.of_fields rfl rfl rfl⟩
  rcases storeAllocation_cases k a s with ⟨-, hs⟩ | hs
  · rw [hs]; exact h
  · rw [hs.allocations]
    unfold storeAllocation
    cases hp : s.allocations.get? k with
    | none => exact hb.enter hp
    | some previous =>
      simp only
      split
      · next he =>
        subst he
        refine h.congr fun j => ?_
        show s.allocations.get? j = (s.allocations.insert k previous).get? j
        rw [Dict.get?_insert]
        split
        · next hj => rw [hj, hp]
        · rfl
      · exact ((hb.retire hp).enter (Dict.get?_erase_self _ k)).congr (get?_erase_insert _ k a)

theorem Keyed.erase {d : Dict Key PhysicalAllocation} (h : Keyed d.get?) (k : Key) : Keyed (d.erase k).get? := by
  intro j a hj
  rw [Dict.get?_erase] at hj
  split at hj
  · cases hj
  · exact h j a hj

theorem RowsFor.store {s : AllocatorState} {k : Key} {a : PhysicalAllocation} (h : RowsFor s.allocations s)
    (hkeyed : Keyed s.allocations.get?) (ha : a.key = k) :
    RowsFor (storeAllocation k a s).allocations (storeAllocation k a s) := by
  have hb : RowsFor s.allocations (beforeMutation k s) := ⟨h.keys, h.perm, h.sorted⟩
  rcases storeAllocation_cases k a s with ⟨-, hs⟩ | hs
  · rw [hs]; exact h
  · rw [hs.allocations]
    unfold storeAllocation
    cases hp : s.allocations.get? k with
    | none => exact hb.enter hkeyed hp ha
    | some previous =>
      simp only
      split
      · next he =>
        subst he
        refine h.congr fun j => ?_
        show s.allocations.get? j = (s.allocations.insert k previous).get? j
        rw [Dict.get?_insert]
        split
        · next hj => rw [hj, hp]
        · rfl
      · exact ((hb.retire hp).enter (hkeyed.erase k) (Dict.get?_erase_self _ k) ha).congr (get?_erase_insert _ k a)

/-! ## The rebuild -/

/-- The loop of `_rebuild_indexes`: what it entered so far is `d`. -/
theorem IndexOf.reenter : ∀ (items : List (Key × PhysicalAllocation)) {d : Dict Key PhysicalAllocation}
    {s : AllocatorState}, IndexOf d s → (items.map Prod.fst).Nodup → (∀ p ∈ items, d.get? p.1 = none) →
      IndexOf (items.foldl (fun e p => e.insert p.1 p.2) d) (Allocator.reenter items s)
  | [], _, _, h, _, _ => h
  | (k, a) :: items, d, s, h, hn, hd => by
    rw [List.map_cons, List.nodup_cons] at hn
    have hk : d.get? k = none := hd (k, a) (by simp)
    obtain ⟨hf, hi, -, -⟩ := addAlias_fields k a (occupyExtent a s)
    have hstep : IndexOf (d.insert k a) (addAlias k a (occupyExtent a s)) := by
      refine ⟨addAlias_aliases hk ((occupyExtent_fields a s).1.trans h.aliases), ?_⟩
      rw [Dict.get?_insert_eq]
      exact (gapped_occupy h.gaps hk).of_fields (addAlias_edit k a _).config hf hi
    refine IndexOf.reenter items hstep hn.2 fun p hp => ?_
    have hne : p.1 ≠ k := fun he => hn.1 (List.mem_map.2 ⟨p, hp, he⟩)
    rw [Dict.get?_insert_of_ne _ _ hne]
    exact hd p (by simp [hp])

theorem get?_foldl_insert : ∀ (items : List (Key × PhysicalAllocation)) (d : Dict Key PhysicalAllocation) (k : Key),
    (items.map Prod.fst).Nodup →
      (items.foldl (fun e p => e.insert p.1 p.2) d).get? k =
        ((items.find? fun p => p.1 = k).map Prod.snd).or (d.get? k)
  | [], _, _, _ => rfl
  | (j, a) :: items, d, k, hn => by
    rw [List.map_cons, List.nodup_cons] at hn
    rw [List.foldl_cons, get?_foldl_insert items _ k hn.2, List.find?_cons]
    by_cases hj : j = k
    · subst hj
      have hnone : items.find? (fun p => decide (p.1 = j)) = none := by
        simp only [List.find?_eq_none, decide_eq_true_eq]
        exact fun p hp he => hn.1 (List.mem_map.2 ⟨p, hp, he⟩)
      simp [hnone]
    · simp [hj, Dict.get?_insert_of_ne _ _ (Ne.symm hj)]

theorem gapsFor_whole (cfg : AllocatorConfig) :
    GapsFor cfg (fun _ => none) [Gap.mk 0 cfg.capacityBytes] [Gap.mk 0 cfg.capacityBytes] := by
  have hpos := cfg.capacity_pos
  refine ⟨⟨?_, ?_⟩, ⟨fun _ _ h => (by cases h), fun _ _ _ _ h => (by cases h)⟩, fun x => ?_⟩
  · simp [separated_cons, separated_nil, hpos]
  · have hfit : fitsAligned cfg (Gap.mk 0 cfg.capacityBytes) = true := by
      have halign : align 0 cfg.alignmentBytes = 0 := by
        have := cfg.alignment_pos
        rw [align, Int.ediv_eq_zero_of_lt (by omega) (by omega), zero_mul]
      simp [fitsAligned, halign, hpos]
    simp [hfit]
  · have hno : ¬Occupied (fun _ : Key => (none : Option PhysicalAllocation)) x := by
      rintro ⟨k, a, h, -⟩
      cases h
    simp [hno]

/-- Indexes without any entry are those of the empty map. -/
theorem indexOf_empty {s : AllocatorState} (ha : s.aliasesByTarget = fun _ => none)
    (hf : s.freeExtents = some [Gap.mk 0 s.config.capacityBytes])
    (hi : s.fitExtents = [Gap.mk 0 s.config.capacityBytes]) : IndexOf .empty s := by
  refine ⟨?_, fun gaps hgaps => ?_⟩
  · have : aliasesOf .empty = fun _ => ∅ := funext fun t => rfl
    rw [this, GroupIndex.of_empty, ha]
  · obtain rfl : [Gap.mk 0 s.config.capacityBytes] = gaps := Option.some.inj (hf.symm.trans hgaps)
    rw [hi]
    exact gapsFor_whole s.config

theorem foldl_insert_items (d : Dict Key PhysicalAllocation) :
    (d.items.foldl (fun e p => e.insert p.1 p.2) Dict.empty).get? = d.get? := funext fun k => by
  rw [get?_foldl_insert _ _ _ d.nodup]
  simp [Dict.get?]

/-- **A rebuild makes the indexes those of the map, whatever they were.** -/
theorem indexOf_rebuild (s : AllocatorState) : IndexOf s.allocations (rebuildIndexes s) := by
  have hstart : IndexOf .empty (resetIndexes s) := indexOf_empty rfl rfl rfl
  refine (IndexOf.reenter s.allocations.items hstart s.allocations.nodup fun p _ => rfl).congr fun k => ?_
  rw [foldl_insert_items]

theorem reenter_rows : ∀ (items : List (Key × PhysicalAllocation)) (s : AllocatorState),
    (reenter items s).addressKeys = s.addressKeys ∧ (reenter items s).addressRows = s.addressRows
  | [], _ => ⟨rfl, rfl⟩
  | (k, a) :: items, s => by
    obtain ⟨h1, h2⟩ := reenter_rows items (addAlias k a (occupyExtent a s))
    exact ⟨h1.trans ((addAlias_fields k a _).2.2.1.trans (occupyExtent_fields a s).2.1),
      h2.trans ((addAlias_fields k a _).2.2.2.trans (occupyExtent_fields a s).2.2)⟩

theorem rowsFor_rebuild {s : AllocatorState} (h : Keyed s.allocations.get?) :
    RowsFor s.allocations (rebuildIndexes s) := by
  obtain ⟨hkeys, hrows⟩ := reenter_rows s.allocations.items (resetIndexes s)
  have hperm := List.perm_insertionSort (fun a b : PhysicalAllocation => a.addressKey ≤ b.addressKey)
    s.allocations.values
  rw [← rebuildIndexes] at hkeys hrows
  refine ⟨by rw [hkeys, hrows]; rfl, by rw [hrows]; exact hperm, ?_⟩
  rw [hkeys]
  have htotal : Std.Total fun a b : PhysicalAllocation => a.addressKey ≤ b.addressKey := ⟨fun a b => le_total _ _⟩
  have htrans : IsTrans PhysicalAllocation fun a b => a.addressKey ≤ b.addressKey := ⟨fun _ _ _ => le_trans⟩
  have hle : ((s.allocations.values.insertionSort fun a b => a.addressKey ≤ b.addressKey).map
      (·.addressKey)).Pairwise (· ≤ ·) :=
    List.pairwise_map.2 (List.pairwise_insertionSort (fun a b : PhysicalAllocation => a.addressKey ≤ b.addressKey) _)
  have hnodup : (s.allocations.values.map (·.addressKey)).Nodup := by
    have hown : s.allocations.values.map (·.key) = s.allocations.keys := by
      rw [Dict.values, Dict.keys, List.map_map]
      exact List.map_congr_left fun p hp => h p.1 p.2 (Dict.get?_eq_some.2 hp)
    have hn : (s.allocations.values.map (·.key)).Nodup := hown ▸ s.allocations.keys_nodup
    have hfactor : s.allocations.values.map (·.key) =
        (s.allocations.values.map (·.addressKey)).map fun k : AddressKey => ofLex (ofLex k).2 := by
      rw [List.map_map]; rfl
    rw [hfactor] at hn
    exact hn.of_map
  exact (hle.and ((hperm.map _).nodup_iff.2 hnodup)).imp fun {j k} hjk => lt_of_le_of_ne hjk.1 hjk.2

/-- The rebuild of disjoint in-range roots keeps a gap list. -/
theorem reenter_some : ∀ (items : List (Key × PhysicalAllocation)) {d : Dict Key PhysicalAllocation}
    {s : AllocatorState}, IndexOf d s → s.freeExtents ≠ none → (items.map Prod.fst).Nodup →
      (∀ p ∈ items, d.get? p.1 = none) →
      RootsOk s.config (items.foldl (fun e p => e.insert p.1 p.2) d).get? → (reenter items s).freeExtents ≠ none
  | [], _, _, _, hs, _, _, _ => hs
  | (k, a) :: items, d, s, h, hs, hn, hd, hroots => by
    have hn' := hn
    rw [List.map_cons, List.nodup_cons] at hn'
    have hk : d.get? k = none := hd (k, a) (by simp)
    have hget : ∀ j b, d.get? j = some b → ((((k, a) :: items).foldl (fun e p => e.insert p.1 p.2) d).get? j) =
        some b := fun j b hj => by
      have hnone : ((k, a) :: items).find? (fun p => decide (p.1 = j)) = none := by
        simp only [List.find?_eq_none, decide_eq_true_eq]
        rintro p hp rfl
        rw [hd p hp] at hj
        cases hj
      rw [get?_foldl_insert _ _ _ hn, hnone]
      exact hj
    have hself : (((k, a) :: items).foldl (fun e p => e.insert p.1 p.2) d).get? k = some a := by
      rw [get?_foldl_insert _ _ _ hn]
      simp
    have hjoin : a.aliasOf = none → Joins s.config d.get? a := fun ha => by
      obtain ⟨hsz, hlo, hhi⟩ := hroots.inside k a hself ha
      refine ⟨hsz, hlo, hhi, fun j b hj hb => ?_⟩
      have hne : k ≠ j := fun he => by rw [← he, hk] at hj; cases hj
      exact hroots.disjoint k j a b hself (hget j b hj) ha hb hne
    obtain ⟨hf, hi, -, -⟩ := addAlias_fields k a (occupyExtent a s)
    have hstep : IndexOf (d.insert k a) (addAlias k a (occupyExtent a s)) := by
      refine ⟨addAlias_aliases hk ((occupyExtent_fields a s).1.trans h.aliases), ?_⟩
      rw [Dict.get?_insert_eq]
      exact (gapped_occupy h.gaps hk).of_fields (addAlias_edit k a _).config hf hi
    have hcfg : (addAlias k a (occupyExtent a s)).config = s.config :=
      ((occupyExtent_edit a s).trans (addAlias_edit k a _)).config
    refine reenter_some items hstep ?_ hn'.2 (fun p hp => ?_) (hcfg ▸ hroots)
    · rw [hf]; exact occupy_some h.gaps hs hjoin
    · have hne : p.1 ≠ k := fun he => hn'.1 (List.mem_map.2 ⟨p, hp, he⟩)
      rw [Dict.get?_insert_of_ne _ _ hne]
      exact hd p (by simp [hp])

/-- A rebuild of disjoint in-range roots has a gap list. -/
theorem rebuild_some {s : AllocatorState} (h : RootsOk s.config s.allocations.get?) :
    (rebuildIndexes s).freeExtents ≠ none := by
  have hstart : IndexOf .empty (resetIndexes s) := indexOf_empty rfl rfl rfl
  refine reenter_some s.allocations.items hstart (by simp [resetIndexes]) s.allocations.nodup (fun p _ => rfl) ?_
  rw [foldl_insert_items]
  exact h

/-- Entering a root that may join leaves a gap list. -/
theorem enter_some {d : Dict Key PhysicalAllocation} {s : AllocatorState} {k : Key} {a : PhysicalAllocation}
    (h : IndexOf d s) (hs : s.freeExtents ≠ none) (ha : a.aliasOf = none → Joins s.config d.get? a) :
    (enter k a s).freeExtents ≠ none := by
  have hg : Gapped d.get? (assign k a (insertRow a s)) := h.gaps.of_fields rfl rfl rfl
  show (addAlias k a (occupyExtent a (assign k a (insertRow a s)))).freeExtents ≠ none
  rw [(addAlias_fields k a _).1]
  exact occupy_some hg hs ha

theorem RootsOk.joins {cfg : AllocatorConfig} {f : Key → Option PhysicalAllocation} {k : Key} {a : PhysicalAllocation}
    (h : RootsOk cfg (Function.update f k (some a))) (ha : a.aliasOf = none) :
    Joins cfg (Function.update f k none) a := by
  have hself : Function.update f k (some a) k = some a := Function.update_self _ _ _
  obtain ⟨hsize, hlo, hhi⟩ := h.inside k a hself ha
  refine ⟨hsize, hlo, hhi, fun j b hj hb => ?_⟩
  rw [Function.update_apply] at hj
  split at hj
  · cases hj
  · next hne => exact h.disjoint k j a b hself (by rw [Function.update_of_ne hne]; exact hj) ha hb (Ne.symm hne)

/-- Storing an extent that keeps the roots disjoint leaves a gap list. -/
theorem store_some {s : AllocatorState} {k : Key} {a : PhysicalAllocation} (hi : IndexOf s.allocations s)
    (h : s.freeExtents ≠ none) (hroots : RootsOk s.config (Function.update s.allocations.get? k (some a))) :
    (storeAllocation k a s).freeExtents ≠ none := by
  have hb : IndexOf s.allocations (beforeMutation k s) := ⟨hi.aliases, hi.gaps.of_fields rfl rfl rfl⟩
  have hjoins : a.aliasOf = none → Joins s.config (s.allocations.erase k).get? a := fun ha => by
    rw [Dict.get?_erase_eq]
    exact hroots.joins ha
  unfold storeAllocation
  cases hp : s.allocations.get? k with
  | none =>
    refine enter_some hb h fun ha => ?_
    have := hjoins ha
    rwa [Dict.erase_of_not_mem (Dict.get?_eq_none.1 hp)] at this
  | some previous =>
    simp only
    split
    · exact h
    · refine enter_some (hb.retire hp) ?_ fun ha => ?_
      · show (removeAlias k previous (freeRoot previous (beforeMutation k s))).freeExtents ≠ none
        rw [(removeAlias_fields k previous _).1]
        exact freeRoot_some previous h
      · rw [(retire_edit k previous _).config]
        exact hjoins ha

end HeteroSim.Allocator
