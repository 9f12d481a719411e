/-
First fit is the first fit. The gaps and the address rows are two ways of
looking for the same address: the least aligned one of the arena whose
extent no live root meets. Each loop is followed with the set of addresses
it has left to find, so neither can return a later one, or none in error.
-/
import HeteroSim.Allocator.Exact

namespace HeteroSim.Allocator

/-! ## Searches for a least address -/

/-- The result of a search for the least of `S`. -/
structure LeastIn (S : Set Int) (found : Option Int) : Prop where
  least : ∀ base, found = some base → IsLeast S base
  empty : found = none → S = ∅

theorem leastIn_some {S : Set Int} {base : Int} (h : IsLeast S base) : LeastIn S (some base) :=
  ⟨fun _ hb => Option.some.inj hb ▸ h, nofun⟩

theorem leastIn_none {S : Set Int} (h : ∀ x, x ∉ S) : LeastIn S none :=
  ⟨nofun, fun _ => Set.eq_empty_of_forall_notMem h⟩

/-- Two searches of one set find the same. -/
theorem LeastIn.unique {S : Set Int} {found other : Option Int} (h : LeastIn S found) (h' : LeastIn S other) :
    found = other := by
  cases found with
  | none =>
    cases other with
    | none => rfl
    | some base =>
      have hmem := (h'.least base rfl).1
      rw [h.empty rfl] at hmem
      exact hmem.elim
  | some base =>
    cases other with
    | none =>
      have hmem := (h.least base rfl).1
      rw [h'.empty rfl] at hmem
      exact hmem.elim
    | some base' => rw [(h.least base rfl).unique (h'.least base' rfl)]

/-! ## Aligned addresses -/

theorem dvd_align (alignment value : Int) : alignment ∣ align value alignment := Dvd.intro_left _ rfl

/-- `_align` gives the least aligned address from `value` on. -/
theorem align_le {alignment value x : Int} (hpos : 0 < alignment) (h : value ≤ x) (hx : alignment ∣ x) :
    align value alignment ≤ x := by
  obtain ⟨m, rfl⟩ := hx
  have hq : (value + alignment - 1) / alignment < m + 1 := by
    rw [Int.ediv_lt_iff_lt_mul hpos, add_mul, mul_comm m]
    omega
  rw [align, mul_comm]
  exact Int.mul_le_mul_of_nonneg_left (by omega) (le_of_lt hpos)

/-- What first fit looks for: an aligned address whose extent lies in the
arena and meets no live root. -/
def Fits (s : AllocatorState) (size generation : Int) (arena : Option Arena) : Set Int :=
  {x | s.config.alignmentBytes ∣ x ∧ (arenaOf s.config generation arena).1 ≤ x ∧
    x + size ≤ (arenaOf s.config generation arena).2 ∧
    ∀ k a, s.allocations.get? k = some a → a.aliasOf = none → x + size ≤ a.baseAddress ∨ a.endAddress ≤ x}

/-! ## The gaps -/

/-- The addresses the gaps have for an extent. -/
def gapFits (cfg : AllocatorConfig) (size lower upper : Int) (gaps : List Gap) : Set Int :=
  {x | cfg.alignmentBytes ∣ x ∧ lower ≤ x ∧ x + size ≤ upper ∧ ∃ g ∈ gaps, g.lo ≤ x ∧ x + size ≤ g.hi}

/-- **The loop over sorted gaps finds the least address they have.** -/
theorem fitGaps_least {cfg : AllocatorConfig} {size lower upper : Int} (hsize : 0 < size) : ∀ {gaps : List Gap},
    Separated gaps → LeastIn (gapFits cfg size lower upper gaps) (fitGaps cfg size lower upper gaps)
  | [], _ => leastIn_none fun _ ⟨_, _, _, _, hg, _⟩ => nomatch hg
  | g :: gaps, h => by
    obtain ⟨hg, hafter, hgaps⟩ := separated_cons.1 h
    have hc := le_align cfg.alignment_pos (max g.lo lower)
    have hleast : ∀ {x}, cfg.alignmentBytes ∣ x → lower ≤ x → g.lo ≤ x →
        align (max g.lo lower) cfg.alignmentBytes ≤ x := fun hd hlo hx =>
      align_le cfg.alignment_pos (max_le hx hlo) hd
    rw [fitGaps]
    split
    · next hupper =>
      refine leastIn_none fun x ⟨_, _, hu, k, hk, hlo, _⟩ => ?_
      rcases List.mem_cons.1 hk with rfl | hk
      · omega
      · have := hafter k hk; omega
    · simp only
      split
      · next hfit =>
        refine leastIn_some ⟨⟨dvd_align _ _, by omega, by omega, g, by simp, by omega, by omega⟩, ?_⟩
        rintro x ⟨hd, hlo, -, k, hk, hklo, -⟩
        rcases List.mem_cons.1 hk with rfl | hk
        · exact hleast hd hlo hklo
        · have := hafter k hk; omega
      · next hfit =>
        -- no address of this gap will do, so the rest has them all
        have hrest : gapFits cfg size lower upper (g :: gaps) = gapFits cfg size lower upper gaps := by
          ext x
          refine and_congr_right fun hd => and_congr_right fun hlo => and_congr_right fun hu => ?_
          rw [List.exists_mem_cons_iff, or_iff_right]
          rintro ⟨hglo, hghi⟩
          have := hleast hd hlo hglo
          omega
        rw [hrest]
        exact fitGaps_least hsize hgaps

/-- The gaps before the one bisection starts at end below the arena. -/
theorem gapFits_drop {cfg : AllocatorConfig} {size lower upper : Int} {gaps : List Gap} (h : Separated gaps)
    (hsize : 0 < size) :
    gapFits cfg size lower upper (gaps.drop (bisectLeft (fun g => decide (g.lo < lower + 1)) gaps - 1)) =
      gapFits cfg size lower upper gaps := by
  have hcut : gaps.takeWhile (fun g => decide (g.lo < lower + 1)) ++
      gaps.dropWhile (fun g => decide (g.lo < lower + 1)) = gaps := List.takeWhile_append_dropWhile
  have hbefore := Separated.before_lo (l := gaps) (lower + 1)
  rw [bisectLeft]
  generalize gaps.takeWhile (fun g => decide (g.lo < lower + 1)) = pre at hcut hbefore ⊢
  generalize gaps.dropWhile (fun g => decide (g.lo < lower + 1)) = post at hcut ⊢
  subst hcut
  rcases List.eq_nil_or_concat pre with rfl | ⟨pre, g, rfl⟩
  · rfl
  · simp only [List.concat_eq_append, List.append_assoc, List.singleton_append, List.length_append,
      List.length_singleton, Nat.add_sub_cancel] at h hbefore ⊢
    rw [List.drop_left']
    · ext x
      refine and_congr_right fun _ => and_congr_right fun hlo => and_congr_right fun _ => ?_
      constructor
      · rintro ⟨k, hk, hin⟩
        exact ⟨k, List.mem_append_right _ hk, hin⟩
      · rintro ⟨k, hk, hklo, hkhi⟩
        rcases List.mem_append.1 hk with hk | hk
        · have := (separated_append.1 h).2.2 k hk g (by simp)
          have := hbefore g (by simp)
          omega
        · exact ⟨k, hk, hklo, hkhi⟩
    · rfl

/-- The usable gaps have the addresses that no root holds. -/
theorem gapFits_eq {s : AllocatorState} {gaps : List Gap} {size generation : Int} {arena : Option Arena}
    (hsize : 0 < size) (h : GapsFor s.config s.allocations.get? gaps s.fitExtents) :
    gapFits s.config size (arenaOf s.config generation arena).1 (arenaOf s.config generation arena).2 s.fitExtents =
      Fits s size generation arena := by
  obtain ⟨h0, hcap⟩ := arenaOf_mem s.config generation arena
  ext x
  refine and_congr_right fun hd => and_congr_right fun hlo => and_congr_right fun hu => ?_
  rw [h.ok.index]
  constructor
  · rintro ⟨g, hg, hglo, hghi⟩ k a hk hroot
    have hin := (h.roots.inside k a hk hroot).1
    have hend : a.endAddress = a.baseAddress + a.sizeBytes := rfl
    have hfree : ∀ y, x ≤ y → y < x + size → ¬Occupied s.allocations.get? y := fun y hy hy' =>
      ((h.holds y).1 ⟨g, (List.mem_filter.1 hg).1, by omega, by omega⟩).2
    by_contra hmeet
    -- the two ranges would share their later start
    refine hfree (max x a.baseAddress) (le_max_left _ _) ?_ ⟨k, a, hk, hroot, le_max_right _ _, ?_⟩
    · rw [max_lt_iff]; omega
    · rw [max_lt_iff]; omega
  · intro hapart
    have hheld : ∀ y, x ≤ y → y < x + size → Holds gaps y := fun y hy hy' => by
      refine (h.holds y).2 ⟨by omega, ?_⟩
      rintro ⟨k, a, hk, hroot, hay, hya⟩
      have := hapart k a hk hroot
      omega
    obtain ⟨g, hg, hglo, hghi⟩ := h.ok.separated.contains (by omega) hheld
    exact ⟨g, List.mem_filter.2 ⟨hg, fitsAligned_iff.2 ⟨x, hglo, by omega, hd⟩⟩, hglo, hghi⟩

/-! ## The address rows -/

/-- The addresses from `cursor` on that meet none of the rows' roots. -/
def rowFits (cfg : AllocatorConfig) (size cursor upper : Int) (rows : List PhysicalAllocation) : Set Int :=
  {x | cfg.alignmentBytes ∣ x ∧ cursor ≤ x ∧ x + size ≤ upper ∧
    ∀ a ∈ rows, a.aliasOf = none → x + size ≤ a.baseAddress ∨ a.endAddress ≤ x}

/-- With the rest out of reach, the cursor is aligned and compared with the end. -/
theorem rowFits_last {cfg : AllocatorConfig} {size cursor upper : Int} {rows : List PhysicalAllocation}
    (h : ∀ a ∈ rows, upper ≤ a.baseAddress) :
    LeastIn (rowFits cfg size cursor upper rows)
      (if upper < align cursor cfg.alignmentBytes + size then none else some (align cursor cfg.alignmentBytes)) := by
  have hc := le_align cfg.alignment_pos cursor
  split
  · next hlt =>
    refine leastIn_none fun x ⟨hd, hlo, hu, _⟩ => ?_
    have := align_le cfg.alignment_pos hlo hd
    omega
  · next hle =>
    refine leastIn_some ⟨⟨dvd_align _ _, hc, by omega, fun a ha _ => .inl ?_⟩, fun x hx => ?_⟩
    · have := h a ha; omega
    · exact align_le cfg.alignment_pos hx.2.1 hx.1

/-- **The loop over sorted rows finds the least address they leave.** -/
theorem fitRows_least {cfg : AllocatorConfig} {size lower upper : Int} :
    ∀ {rows : List PhysicalAllocation} {cursor : Int}, rows.Pairwise (fun a b => a.baseAddress ≤ b.baseAddress) →
      lower ≤ cursor → LeastIn (rowFits cfg size cursor upper rows) (fitRows cfg size lower upper rows cursor)
  | [], cursor, _, _ => rowFits_last (by simp)
  | item :: rows, cursor, h, hlo => by
    obtain ⟨hafter, hrows⟩ := List.pairwise_cons.1 h
    have hc := le_align cfg.alignment_pos cursor
    have hleast : ∀ {x}, cfg.alignmentBytes ∣ x → cursor ≤ x → align cursor cfg.alignmentBytes ≤ x :=
      fun hd hx => align_le cfg.alignment_pos hx hd
    rw [fitRows]
    split
    · next hupper =>
      refine rowFits_last fun a ha => ?_
      rcases List.mem_cons.1 ha with rfl | ha
      · exact hupper
      · exact hupper.trans (hafter a ha)
    · next hupper =>
      split
      · next hskip =>
        -- a view, or a root below the arena, is in no extent's way
        have hrest : rowFits cfg size cursor upper (item :: rows) = rowFits cfg size cursor upper rows := by
          ext x
          refine and_congr_right fun _ => and_congr_right fun hx => and_congr_right fun _ => ?_
          rw [List.forall_mem_cons, and_iff_right]
          intro hroot
          rcases hskip with halias | hend
          · rw [hroot] at halias; cases halias
          · exact .inr (by omega)
        rw [hrest]
        exact fitRows_least hrows hlo
      · next hskip =>
        obtain ⟨hroot, hend⟩ := not_or.1 hskip
        have hroot : item.aliasOf = none := by simpa using hroot
        simp only
        split
        · next hfit =>
          refine leastIn_some ⟨⟨dvd_align _ _, hc, by omega, fun a ha _ => .inl ?_⟩, fun x hx => hleast hx.1 hx.2.1⟩
          rcases List.mem_cons.1 ha with rfl | ha
          · exact hfit
          · exact hfit.trans (hafter a ha)
        · next hfit =>
          -- every address from the cursor on reaches into the root, or lies past it
          have hrest : rowFits cfg size cursor upper (item :: rows) =
              rowFits cfg size (max (align cursor cfg.alignmentBytes) item.endAddress) upper rows := by
            ext x
            constructor
            · rintro ⟨hd, hx, hu, hall⟩
              have hcx := hleast hd hx
              have := hall item (by simp) hroot
              exact ⟨hd, by omega, hu, fun a ha => hall a (by simp [ha])⟩
            · rintro ⟨hd, hx, hu, hall⟩
              refine ⟨hd, by omega, hu, fun a ha hr => ?_⟩
              rcases List.mem_cons.1 ha with rfl | ha
              · exact .inr (by omega)
              · exact hall a ha hr
          rw [hrest]
          exact fitRows_least hrows (by omega)

/-- The rows before the first in reach meet no extent of the arena. -/
theorem rowFits_eq {s : AllocatorState} {size generation : Int} {arena : Option Arena}
    (hr : RowsFor s.allocations s) (hb : Bounded s) :
    rowFits s.config size (arenaOf s.config generation arena).1 (arenaOf s.config generation arena).2
      (s.addressRows.drop (bisectLeft
        (fun k => decide ((ofLex k).1 < (arenaOf s.config generation arena).1 - s.largestAllocation)) s.addressKeys)) =
      Fits s size generation arena := by
  ext x
  refine and_congr_right fun _ => and_congr_right fun hlo => and_congr_right fun hu => ?_
  constructor
  · intro hall k a hk hroot
    have hmem : a ∈ s.addressRows := hr.perm.symm.subset (Dict.mem_values.2 ⟨k, hk⟩)
    rw [← List.take_append_drop (bisectLeft
      (fun k => decide ((ofLex k).1 < (arenaOf s.config generation arena).1 - s.largestAllocation)) s.addressKeys)
      s.addressRows] at hmem
    rcases List.mem_append.1 hmem with hmem | hmem
    · -- it starts too far below the arena to reach it
      have hkey := List.mem_map_of_mem (f := (·.addressKey)) hmem
      rw [List.map_take, ← hr.keys, take_bisectLeft] at hkey
      have hfar := List.mem_takeWhile_imp hkey
      have hle := hb k a hk
      have hend : a.endAddress = a.baseAddress + a.sizeBytes := rfl
      have hfar : a.baseAddress < (arenaOf s.config generation arena).1 - s.largestAllocation :=
        of_decide_eq_true hfar
      exact .inr (by omega)
    · exact hall a hmem hroot
  · intro hapart a ha hroot
    obtain ⟨k, hk⟩ := Dict.mem_values.1 (hr.perm.subset (List.mem_of_mem_drop ha))
    exact hapart k a hk hroot

theorem RowsFor.bases {d : Dict Key PhysicalAllocation} {s : AllocatorState} (h : RowsFor d s) :
    s.addressRows.Pairwise fun a b => a.baseAddress ≤ b.baseAddress := by
  have hs := h.sorted
  rw [h.keys, List.pairwise_map] at hs
  refine hs.imp fun hlt => ?_
  rcases Prod.Lex.lt_iff.1 hlt with hb | ⟨hb, -⟩
  · exact le_of_lt hb
  · exact le_of_eq hb

/-! ## The two paths -/

/-- The call returns what a search of `S` found, or raises. -/
def Searches (S : Set Int) (message : String) (result : Except String Int) : Prop :=
  ∃ found, LeastIn S found ∧ result = found.elim (.error message) .ok

theorem Searches.unique {S : Set Int} {message : String} {result other : Except String Int}
    (h : Searches S message result) (h' : Searches S message other) : result = other := by
  obtain ⟨found, hf, rfl⟩ := h
  obtain ⟨found', hf', rfl⟩ := h'
  rw [hf.unique hf']

/-- A search returns the least of the set, and raises when there is none. -/
theorem Searches.spec {S : Set Int} {message : String} {result : Except String Int} (h : Searches S message result) :
    (∀ base, result = .ok base ↔ IsLeast S base) ∧ ∀ text, result = .error text ↔ text = message ∧ S = ∅ := by
  obtain ⟨found, hfound, rfl⟩ := h
  cases found with
  | none =>
    have hS := hfound.empty rfl
    refine ⟨fun base => ⟨nofun, fun hb => ?_⟩, fun text => ?_⟩
    · have hmem := hb.1
      rw [hS] at hmem
      exact hmem.elim
    · rw [and_iff_left hS, Option.elim_none, Except.error.injEq, eq_comm]
  | some base =>
    have hleast := hfound.least base rfl
    refine ⟨fun other => ⟨fun h => ?_, fun h => ?_⟩, fun text => ⟨nofun, fun ⟨_, hS⟩ => ?_⟩⟩
    · rw [← Except.ok.inj h]; exact hleast
    · rw [Option.elim_some, hleast.unique h]
    · have hmem := hleast.1
      rw [hS] at hmem
      exact hmem.elim

theorem findFirstFit_gaps {s : AllocatorState} {gaps : List Gap} {size : Int} (generation : Int)
    (arena : Option Arena) (hsize : 0 < size) (hs : s.freeExtents = some gaps) (hg : Gapped s.allocations.get? s) :
    Searches (Fits s size generation arena) (exhaustedMessage s.config size generation arena)
      (findFirstFit s size generation arena) := by
  have hfor := hg gaps hs
  have hsep : Separated s.fitExtents := by
    rw [hfor.ok.index]
    exact hfor.ok.separated.sublist List.filter_sublist
  have hfound : LeastIn (gapFits s.config size (arenaOf s.config generation arena).1
      (arenaOf s.config generation arena).2 (s.fitExtents.drop
        (bisectLeft (fun g => decide (g.lo < (arenaOf s.config generation arena).1 + 1)) s.fitExtents - 1))) _ :=
    fitGaps_least hsize (hsep.sublist (List.drop_sublist _ _))
  rw [gapFits_drop hsep hsize, gapFits_eq hsize hfor] at hfound
  refine ⟨_, hfound, ?_⟩
  simp only [findFirstFit, hs]
  split
  · next base hbase => rw [hbase]; rfl
  · next hnone => rw [hnone]; rfl

theorem findFirstFit_rows {s : AllocatorState} (size generation : Int) (arena : Option Arena)
    (hs : s.freeExtents = none) (hr : RowsFor s.allocations s) (hb : Bounded s) :
    Searches (Fits s size generation arena) (exhaustedMessage s.config size generation arena)
      (findFirstFit s size generation arena) := by
  have hfound : LeastIn (rowFits s.config size (arenaOf s.config generation arena).1
      (arenaOf s.config generation arena).2 (s.addressRows.drop (bisectLeft
        (fun k => decide ((ofLex k).1 < (arenaOf s.config generation arena).1 - s.largestAllocation))
        s.addressKeys))) _ :=
    fitRows_least (hr.bases.sublist (List.drop_sublist _ _)) le_rfl
  rw [rowFits_eq hr hb] at hfound
  refine ⟨_, hfound, ?_⟩
  simp only [findFirstFit, hs]
  split
  · next base hbase => rw [hbase]; rfl
  · next hnone => rw [hnone]; rfl

/-- Either path searches the addresses that fit. -/
theorem findFirstFit_search {s : AllocatorState} {size : Int} (hsize : 0 < size) (generation : Int)
    (arena : Option Arena) (hg : Gapped s.allocations.get? s) (hr : RowsFor s.allocations s) (hb : Bounded s) :
    Searches (Fits s size generation arena) (exhaustedMessage s.config size generation arena)
      (findFirstFit s size generation arena) := by
  cases hf : s.freeExtents with
  | none => exact findFirstFit_rows size generation arena hf hr hb
  | some gaps => exact findFirstFit_gaps generation arena hsize hf hg

/-- **First fit.** In every reachable state, a map given to
`_restore_allocations` filing each extent under its own key, the address
found is the least aligned one whose extent lies in the arena and meets no
live root; the call raises exactly when there is none; and where the gap
list gives it, the scan of the rows gives the same. -/
theorem first_fit {cfg : AllocatorConfig} {s : AllocatorState} (h : Reachable (fun m => Keyed m.get?) cfg s)
    {size : Int} (hsize : 0 < size) (generation : Int) (arena : Option Arena) :
    (∀ base, findFirstFit s size generation arena = .ok base ↔ IsLeast (Fits s size generation arena) base) ∧
      (∀ text, findFirstFit s size generation arena = .error text ↔
        text = exhaustedMessage s.config size generation arena ∧ Fits s size generation arena = ∅) ∧
      findFirstFit { s with freeExtents := none } size generation arena = findFirstFit s size generation arena := by
  have hg := (reachable_sound h).1.index.gaps
  have hr := (reachable_rowed (fun _ hm => hm) h).rows
  have hb : Bounded s := bounded_run (sound_init cfg) (fun k a hk => by cases hk) h
  have hscan : Searches (Fits s size generation arena) (exhaustedMessage s.config size generation arena)
      (findFirstFit { s with freeExtents := none } size generation arena) :=
    findFirstFit_rows (s := { s with freeExtents := none }) size generation arena rfl ⟨hr.keys, hr.perm, hr.sorted⟩ hb
  have hsearch := findFirstFit_search hsize generation arena hg hr hb
  exact ⟨hsearch.spec.1, hsearch.spec.2, hscan.unique hsearch⟩

/-- An unaligned root below a workspace: the gap behind it starts between two
aligned addresses and ends at the capacity, past the end of the arena. -/
theorem first_fit_partition : ∃ s, Reachable (fun m => Keyed m.get?)
    ⟨256, 64, 128, by decide, by decide, by decide, by decide, by decide⟩ s ∧
    s.freeExtents = some [Gap.mk 10 256] ∧ IsLeast (Fits s 64 0 none) 64 ∧ Fits s 65 0 none = ∅ ∧
    IsLeast (Fits s 65 1 none) 128 := by
  have hr : Reachable (fun m => Keyed m.get?) ⟨256, 64, 128, by decide, by decide, by decide, by decide, by decide⟩ _ :=
    .tail .refl (.allocate { bufferId := "kv", sizeBytes := 10 } 0 _ rfl)
  exact ⟨_, hr, rfl, ((first_fit hr (by decide) 0 none).1 64).1 rfl,
    (((first_fit hr (by decide) 0 none).2.1 _).1 rfl).2, ((first_fit hr (by decide) 1 none).1 128).1 rfl⟩

end HeteroSim.Allocator
