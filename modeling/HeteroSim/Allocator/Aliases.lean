/-
Aliases. An alias is a part of a live extent, and what names it may be an
alias too; `canonical_range` follows the names to a root. No call leaves an
alias without its target, longer than it, or in a circle: an extent is hung
on one that is live already, is released only when none hangs on it, and
grows only in place.
-/
import HeteroSim.Allocator.Exact
import HeteroSim.Ranked

namespace HeteroSim.Allocator

/-! ## Lookups -/

/-- `PhysicalAllocation.address` -/
def PhysicalAllocation.address (a : PhysicalAllocation) (offset size : Int) : Except String Int :=
  if offset < 0 then .error "offset_bytes must be a non-negative integer"
  else if size ≤ 0 then .error "size_bytes must be a positive integer"
  else if a.sizeBytes < offset + size then
    .error s!"access exceeds allocation {a.bufferId} (offset {offset} + length {size} > {a.sizeBytes})"
  else .ok (a.baseAddress + offset)

/-- `lookup`; a missing generation is refused as a negative one is. -/
def lookup (s : AllocatorState) (bufferId : String) (generation : Option Int) : Except String PhysicalAllocation := do
  let key ← keyOf bufferId (generation.getD (-1))
  match s.allocations.get? key with
  | some a => pure a
  | none => .error s!"allocation {bufferId} generation {key.2} is not registered"

/-- `get_allocation` -/
def getAllocation (s : AllocatorState) (bufferId : String) (generation : Int) :
    Except String (Option PhysicalAllocation) := do
  let key ← keyOf bufferId generation
  pure (s.allocations.get? key)

/-- `address` -/
def addressOf (s : AllocatorState) (bufferId : String) (offset size generation : Int) : Except String Int := do
  let a ← lookup s bufferId (some generation)
  a.address offset size

/-- The loop of `canonical_range`, in at most `fuel` turns. -/
def followAliases (s : AllocatorState) : Nat → Finset Key → PhysicalAllocation → Int →
    Option (Except String (Key × Int))
  | 0, _, _, _ => none
  | fuel + 1, visited, a, offset =>
    match a.aliasOf with
    | none => some (.ok (a.key, offset))
    | some bufferId =>
      if a.key ∈ visited then some (.error "cyclic allocation alias")
      else
        match lookup s bufferId a.aliasGeneration with
        | .error message => some (.error message)
        | .ok target => followAliases s fuel (insert a.key visited) target (offset + (a.baseAddress - target.baseAddress))

/-- `canonical_range`; `none` stands for a loop longer than there are live
extents. -/
def canonicalRange (s : AllocatorState) (bufferId : String) (offset size generation : Int) :
    Option (Except String (Key × Int)) :=
  match lookup s bufferId (some generation) with
  | .error message => some (.error message)
  | .ok a =>
    match a.address offset size with
    | .error message => some (.error message)
    | .ok _ => followAliases s (s.allocations.keys.length + 1) ∅ a offset

/-! ## What holds of the live map -/

/-- `j` is an alias, and `k` the key it names. -/
def Names (f : Key → Option PhysicalAllocation) (j k : Key) : Prop :=
  ∃ a, f j = some a ∧ a.target = some (k.1, some k.2)

/-- `a` is a part of `b`. -/
structure PartOf (a b : PhysicalAllocation) : Prop where
  base : a.baseAddress = b.baseAddress + a.aliasOffsetBytes
  offset : 0 ≤ a.aliasOffsetBytes
  inside : a.endAddress ≤ b.endAddress

/-- Every alias is a part of a live extent, and none hangs on itself. -/
structure AliasesOk (f : Key → Option PhysicalAllocation) : Prop where
  keyed : Keyed f
  named : ∀ k a, f k = some a → strip k.1 = k.1 ∧ k.1 ≠ "" ∧ 0 ≤ k.2
  target : ∀ k a, f k = some a → a.aliasOf ≠ none → ∃ t b, a.target = some (t.1, some t.2) ∧ f t = some b ∧ PartOf a b
  acyclic : Acyclic (Names f)

theorem aliasesOk_empty : AliasesOk fun _ => none :=
  ⟨nofun, nofun, nofun, fun _ => 0, fun _ _ ⟨_, h, _⟩ => nomatch h⟩

theorem target_isSome {a : PhysicalAllocation} {t : Target} (h : a.target = some t) : a.aliasOf ≠ none := by
  intro hroot
  rw [PhysicalAllocation.target, hroot] at h
  cases h

/-! ## Releases -/

/-- What no alias names may go. -/
theorem AliasesOk.erase {f : Key → Option PhysicalAllocation} {k : Key} (h : AliasesOk f) (hfree : ∀ j, ¬Names f j k) :
    AliasesOk (Function.update f k none) := by
  have hget : ∀ {j a}, Function.update f k none j = some a → j ≠ k ∧ f j = some a := fun {j a} hj => by
    rw [Function.update_apply] at hj
    split at hj
    · cases hj
    · next hne => exact ⟨hne, hj⟩
  refine ⟨keyed_erase h.keyed, fun j a hj => h.named j a (hget hj).2, fun j a hj halias => ?_,
    h.acyclic.mono fun i j ⟨a, ha, hn⟩ => ⟨a, (hget ha).2, hn⟩⟩
  obtain ⟨t, b, hn, hb, hpart⟩ := h.target j a (hget hj).2 halias
  refine ⟨t, b, hn, ?_, hpart⟩
  rw [Function.update_of_ne]
  · exact hb
  · rintro rfl
    exact hfree j ⟨a, (hget hj).2, hn⟩

theorem names_iff_aliasesOf {d : Dict Key PhysicalAllocation} {j k : Key} :
    Names d.get? j k ↔ j ∈ aliasesOf d (k.1, some k.2) := mem_aliasesOf.symm

/-- The alias index tells whether an alias names the key. -/
theorem free_iff {s : AllocatorState} (hs : IndexOf s.allocations s) (k : Key) :
    s.aliasesByTarget (k.1, some k.2) = none ↔ ∀ j, ¬Names s.allocations.get? j k := by
  rw [hs.aliases, GroupIndex.of]
  simp only [names_iff_aliasesOf]
  split
  · next he => simp [he]
  · next hne =>
    obtain ⟨j, hj⟩ := Finset.nonempty_iff_ne_empty.2 hne
    exact ⟨fun hn => (by cases hn), fun hnone => absurd hj (hnone j)⟩

/-! ## Allocations -/

/-- A live extent that is re-registered stays where it is, as an alias of the
same target, and does not shrink. -/
structure Stays (a existing : PhysicalAllocation) : Prop where
  key : a.key = existing.key
  target : a.target = existing.target
  base : a.baseAddress = existing.baseAddress
  offset : a.aliasOffsetBytes = existing.aliasOffsetBytes
  grown : existing.endAddress ≤ a.endAddress
  same : a.aliasOf ≠ none → a.endAddress = existing.endAddress

theorem AliasesOk.replace {f : Key → Option PhysicalAllocation} {k : Key} {a existing : PhysicalAllocation}
    (h : AliasesOk f) (he : f k = some existing) (hs : Stays a existing) : AliasesOk (Function.update f k (some a)) := by
  have hget : ∀ {j b}, Function.update f k (some a) j = some b →
      ∃ b', f j = some b' ∧ Stays b b' := fun {j b} hj => by
    rw [Function.update_apply] at hj
    split at hj
    · next hjk => cases hj; exact ⟨existing, hjk ▸ he, hs⟩
    · exact ⟨b, hj, rfl, rfl, rfl, rfl, le_rfl, fun _ => rfl⟩
  have hput : ∀ {j b'}, f j = some b' → ∃ b, Function.update f k (some a) j = some b ∧ Stays b b' := fun {j b'} hj => by
    rw [Function.update_apply]
    split
    · next hjk =>
      subst hjk
      obtain rfl := Option.some.inj (he.symm.trans hj)
      exact ⟨a, rfl, hs⟩
    · exact ⟨b', hj, rfl, rfl, rfl, rfl, le_rfl, fun _ => rfl⟩
  refine ⟨fun j b hj => ?_, fun j b hj => ?_, fun j b hj halias => ?_, h.acyclic.mono fun i j ⟨b, hb, hn⟩ => ?_⟩
  · obtain ⟨b', hb', hst⟩ := hget hj
    rw [hst.key, h.keyed j b' hb']
  · obtain ⟨b', hb', -⟩ := hget hj
    exact h.named j b' hb'
  · obtain ⟨b', hb', hst⟩ := hget hj
    have halias' : b'.aliasOf ≠ none := by
      intro hroot
      refine halias ?_
      have := hst.target
      rw [PhysicalAllocation.target, PhysicalAllocation.target, hroot] at this
      simpa using this
    obtain ⟨t, c', hn, hc', hpart⟩ := h.target j b' hb' halias'
    obtain ⟨c, hc, hstc⟩ := hput hc'
    refine ⟨t, c, hst.target.trans hn, hc, ?_, ?_, ?_⟩
    · rw [hst.base, hst.offset, hstc.base]; exact hpart.base
    · rw [hst.offset]; exact hpart.offset
    · rw [hst.same halias]
      exact hpart.inside.trans hstc.grown
  · obtain ⟨b', hb', hst⟩ := hget hb
    exact ⟨b', hb', hst.target.symm.trans hn⟩

/-- A new key may hold a root, or an alias of what is live. -/
theorem AliasesOk.insert {f : Key → Option PhysicalAllocation} {k : Key} {a : PhysicalAllocation} (h : AliasesOk f)
    (hnew : f k = none) (hkey : a.key = k) (hnamed : strip k.1 = k.1 ∧ k.1 ≠ "" ∧ 0 ≤ k.2)
    (htarget : a.aliasOf ≠ none → ∃ t b, a.target = some (t.1, some t.2) ∧ f t = some b ∧ PartOf a b) :
    AliasesOk (Function.update f k (some a)) := by
  have hlive : ∀ {j b}, f j = some b → j ≠ k := fun {j b} hj hjk => by rw [hjk, hnew] at hj; cases hj
  have hcases : ∀ {j b}, Function.update f k (some a) j = some b → j = k ∧ b = a ∨ f j = some b := fun {j b} hj => by
    rw [Function.update_apply] at hj
    split at hj
    · next hjk => exact .inl ⟨hjk, (Option.some.inj hj).symm⟩
    · exact .inr hj
  have hkeep : ∀ {j b}, f j = some b → Function.update f k (some a) j = some b := fun {j b} hj => by
    rw [Function.update_of_ne (hlive hj), hj]
  refine ⟨h.keyed.update hkey, fun j b hj => ?_, fun j b hj halias => ?_, ?_⟩
  · rcases hcases hj with ⟨rfl, -⟩ | hj
    · exact hnamed
    · exact h.named j b hj
  · have : ∃ t c, b.target = some (t.1, some t.2) ∧ f t = some c ∧ PartOf b c := by
      rcases hcases hj with ⟨-, rfl⟩ | hj
      · exact htarget halias
      · exact h.target j b hj halias
    obtain ⟨t, c, hn, hc, hpart⟩ := this
    exact ⟨t, c, hn, hkeep hc, hpart⟩
  · have hends : ∀ i j, Names f i j → i ≠ k ∧ j ≠ k := by
      rintro i j ⟨b, hb, hn⟩
      obtain ⟨t, c, hn', hc, -⟩ := h.target i b hb (target_isSome hn)
      obtain rfl : t = j := by simpa [Prod.ext_iff] using hn'.symm.trans hn
      exact ⟨hlive hb, hlive hc⟩
    by_cases halias : a.aliasOf = none
    · refine h.acyclic.mono ?_
      rintro i j ⟨b, hb, hn⟩
      rcases hcases hb with ⟨-, rfl⟩ | hb
      · exact absurd halias (target_isSome hn)
      · exact ⟨b, hb, hn⟩
    · obtain ⟨t, c, hn, hc, -⟩ := htarget halias
      refine h.acyclic.hang hends (hlive hc) ?_
      rintro i j ⟨b, hb, hn'⟩
      rcases hcases hb with ⟨rfl, rfl⟩ | hb
      · refine .inr ⟨rfl, ?_⟩
        simpa [Prod.ext_iff] using hn'.symm.trans hn
      · exact .inl ⟨b, hb, hn'⟩

theorem keyOf_named {bufferId : String} {generation : Int} {key : Key} (h : keyOf bufferId generation = .ok key) :
    strip key.1 = key.1 ∧ key.1 ≠ "" ∧ 0 ≤ key.2 := by
  unfold keyOf at h
  split at h
  · cases h
  · next hname =>
    split at h
    · cases h
    · next hgen =>
      obtain rfl := Except.ok.inj h
      exact ⟨strip_strip _, hname, not_lt.1 hgen⟩

theorem Reregistered.stays {s : AllocatorState} {generation : Int} {key : Key} {existing a : PhysicalAllocation}
    (h : Reregistered s generation key existing a) : Stays a existing := by
  have hend : a.endAddress = existing.baseAddress + a.sizeBytes := by rw [PhysicalAllocation.endAddress, h.base]
  have hend' : existing.endAddress = existing.baseAddress + existing.sizeBytes := rfl
  have hgrown := h.grown
  refine ⟨h.own, h.target, h.base, h.offset, by omega, fun halias => ?_⟩
  rcases h.size with hsame | ⟨hroot, -⟩
  · rw [hend, hend', hsame]
  · exact absurd hroot halias

/-- A new alias is a part of what it names. -/
theorem placeAlias_ok {s : AllocatorState} {r : Request} {target : Key} {argument : Option Arena}
    {at_ : Int × Option Arena} (h : placeAlias s r target argument = .ok at_) : ∃ b,
      s.allocations.get? target = some b ∧ at_.1 = b.baseAddress + r.aliasOffsetBytes ∧
      r.aliasOffsetBytes + r.sizeBytes ≤ b.sizeBytes := by
  unfold placeAlias at h
  split at h
  · cases h
  · next b hb =>
    simp only [bind_ok, refuse_ok, not_lt] at h
    obtain ⟨_, -, _, hsize, _, -, _, -, h⟩ := h
    obtain rfl := Except.ok.inj h
    exact ⟨b, hb, rfl, hsize⟩

theorem AliasesOk.allocate {r : Request} {ident : Nat} {s s' : AllocatorState} {a : PhysicalAllocation}
    (h : AliasesOk s.allocations.get?) (ha : allocate r ident s = .ok (a, s')) : AliasesOk s'.allocations.get? := by
  simp only [Allocator.allocate, bind_ok, refuse_ok, not_lt] at ha
  obtain ⟨key, hkey, _, -, argument, -, alias_, halias, _, hoffset, b, hb, ha⟩ := ha
  obtain ⟨rfl, rfl⟩ := Prod.mk.inj (Except.ok.inj ha)
  rw [get?_store]
  unfold chosen at hb
  split at hb
  · next existing he => exact h.replace he (reregister_ok hb).stays
  · next hnone =>
    simp only [bind_ok] at hb
    obtain ⟨at_, hplace, hb⟩ := hb
    obtain rfl := Except.ok.inj hb
    refine h.insert hnone rfl (keyOf_named hkey) fun hne => ?_
    unfold place at hplace
    split at hplace
    · next target generation =>
      obtain ⟨b, hb, hbase, hsize⟩ := placeAlias_ok hplace
      refine ⟨(target, generation), b, rfl, hb, hbase, hoffset, ?_⟩
      simp only [PhysicalAllocation.endAddress, fresh, hbase]
      omega
    · next hn => exact absurd (aliasArgument_root halias hn) hne

/-! ## Runs -/

/-- **Every map is sound.** So is every map a save leads back to, when those
`_restore_allocations` is given are. -/
theorem reachable_aliases {cfg : AllocatorConfig} {s : AllocatorState}
    (h : Reachable (fun m => AliasesOk m.get?) cfg s) : Throughout AliasesOk s := by
  induction h with
  | refl => exact throughout_init aliasesOk_empty
  | tail hrun hstep ih =>
    have hs := (reachable_sound hrun).1
    exact throughout_step hs ih hstep (fun _ _ _ ha => ih.live.allocate ha)
      (fun k hfree => ih.live.erase ((free_iff hs.index k).1 hfree)) fun _ hm => hm

/-! ## The chain to the root -/

theorem AliasesOk.lookup {s : AllocatorState} (h : AliasesOk s.allocations.get?) {k : Key} {b : PhysicalAllocation}
    (hb : s.allocations.get? k = some b) : lookup s k.1 (some k.2) = .ok b := by
  obtain ⟨hstrip, hname, hgen⟩ := h.named k b hb
  have hkey : keyOf k.1 k.2 = .ok k := by
    unfold keyOf
    rw [hstrip, if_neg hname, if_neg (not_lt.2 hgen)]
  simp only [Allocator.lookup, Option.getD_some, hkey, bind, Except.bind, hb]
  rfl

/-- **The loop ends at a root that has the whole range.** The extents met are
distinct, for the rank falls, so there are no more turns than live extents. -/
theorem followAliases_ok {s : AllocatorState} (h : AliasesOk s.allocations.get?) {rank : Key → Nat}
    (hrank : Ranked (Names s.allocations.get?) rank) {address stop : Int} : ∀ {fuel : Nat} {visited : Finset Key}
    {a : PhysicalAllocation} {offset : Int}, s.allocations.get? a.key = some a →
      (∀ k ∈ visited, k ∈ s.allocations.keys ∧ rank a.key < rank k) →
      s.allocations.keys.length < fuel + visited.card → a.baseAddress + offset = address → a.baseAddress ≤ address →
      stop ≤ a.endAddress → ∃ root o, followAliases s fuel visited a offset = some (.ok (root.key, o)) ∧
        s.allocations.get? root.key = some root ∧ root.aliasOf = none ∧ root.baseAddress + o = address ∧
        root.baseAddress ≤ address ∧ stop ≤ root.endAddress
  | 0, visited, a, offset, _, hvisited, hfuel, _, _, _ => by
    have hsub : visited ⊆ s.allocations.keys.toFinset := fun k hk => List.mem_toFinset.2 (hvisited k hk).1
    have hle := (Finset.card_le_card hsub).trans (List.toFinset_card_le _)
    omega
  | fuel + 1, visited, a, offset, ha, hvisited, hfuel, haddress, hlo, hhi => by
    rw [followAliases]
    split
    · next hroot => exact ⟨a, offset, rfl, ha, hroot, haddress, hlo, hhi⟩
    · next bufferId halias =>
      have hnew : a.key ∉ visited := fun hm => lt_irrefl _ (hvisited _ hm).2
      rw [if_neg hnew]
      obtain ⟨t, b, hn, hb, hpart⟩ := h.target a.key a ha (by rw [halias]; exact Option.some_ne_none _)
      have hlink : rank t < rank a.key := hrank a.key t ⟨a, ha, hn⟩
      obtain ⟨rfl, hgen⟩ : bufferId = t.1 ∧ a.aliasGeneration = some t.2 := by
        simpa [PhysicalAllocation.target, halias] using hn
      have hbkey : b.key = t := h.keyed t b hb
      rw [hgen, h.lookup hb]
      have hbase := hpart.base
      have hoffset := hpart.offset
      refine followAliases_ok h hrank (hbkey ▸ hb) (fun k hk => ?_) ?_ ?_ ?_ (hhi.trans hpart.inside)
      · rw [hbkey]
        rcases Finset.mem_insert.1 hk with rfl | hk
        · exact ⟨Dict.mem_keys_of_get? ha, hlink⟩
        · exact ⟨(hvisited k hk).1, hlink.trans (hvisited k hk).2⟩
      · rw [Finset.card_insert_of_notMem hnew]; omega
      · omega
      · omega

theorem lookup_ok {s : AllocatorState} {bufferId : String} {generation : Option Int} {a : PhysicalAllocation}
    (h : lookup s bufferId generation = .ok a) : ∃ k, s.allocations.get? k = some a := by
  simp only [lookup, bind_ok] at h
  obtain ⟨key, -, h⟩ := h
  split at h
  · next b hb => exact ⟨key, Except.ok.inj h ▸ hb⟩
  · cases h

theorem address_ok {a : PhysicalAllocation} {offset size address : Int} (h : a.address offset size = .ok address) :
    0 ≤ offset ∧ 0 < size ∧ offset + size ≤ a.sizeBytes ∧ address = a.baseAddress + offset := by
  unfold PhysicalAllocation.address at h
  split at h
  · cases h
  · split at h
    · cases h
    · split at h
      · cases h
      · have := Except.ok.inj h
        omega

/-- The range of an extent, seen from its root. -/
def InRoot (s : AllocatorState) (key : Key) (offset size address : Int) : Prop :=
  ∃ root, s.allocations.get? key = some root ∧ root.aliasOf = none ∧ 0 ≤ offset ∧
    offset + size ≤ root.sizeBytes ∧ root.baseAddress + offset = address

theorem canonicalRange_ok {s : AllocatorState} (h : AliasesOk s.allocations.get?) {bufferId : String}
    {offset size generation address : Int} (ha : addressOf s bufferId offset size generation = .ok address) :
    ∃ key o, canonicalRange s bufferId offset size generation = some (.ok (key, o)) ∧ InRoot s key o size address := by
  simp only [addressOf, bind_ok] at ha
  obtain ⟨a, hlookup, haddress⟩ := ha
  obtain ⟨k, hk⟩ := lookup_ok hlookup
  obtain ⟨hlo, hpos, hhi, heq⟩ := address_ok haddress
  have hlive : s.allocations.get? a.key = some a := by rw [h.keyed k a hk, hk]
  have hend : a.endAddress = a.baseAddress + a.sizeBytes := rfl
  obtain ⟨rank, hrank⟩ := h.acyclic
  have hfuel : s.allocations.keys.length < (s.allocations.keys.length + 1) + (∅ : Finset Key).card := Nat.lt_succ_self _
  obtain ⟨root, o, hfollow, hroot, halias, hbase, hle, hstop⟩ := followAliases_ok h hrank hlive
    (fun _ hm => absurd hm (Finset.notMem_empty _)) hfuel heq.symm (by omega) (show address + size ≤ a.endAddress by omega)
  refine ⟨root.key, o, ?_, ⟨root, hroot, halias, by omega, ?_, hbase⟩⟩
  · simp only [canonicalRange, hlookup, haddress]
    exact hfollow
  · have : root.endAddress = root.baseAddress + root.sizeBytes := rfl
    omega

theorem canonicalRange_error {s : AllocatorState} {bufferId : String} {offset size generation : Int} {message : String}
    (h : addressOf s bufferId offset size generation = .error message) :
    canonicalRange s bufferId offset size generation = some (.error message) := by
  unfold addressOf at h
  unfold canonicalRange
  cases hl : lookup s bufferId (some generation) with
  | error e =>
    rw [hl] at h
    simpa [bind, Except.bind] using h
  | ok a =>
    rw [hl] at h
    have h : a.address offset size = .error message := h
    simp only [h]

/-- A release is refused for what is no key, and for what an alias names. -/
theorem release_error_iff {s : AllocatorState} (hs : IndexOf s.allocations s) (h : AliasesOk s.allocations.get?)
    (bufferId : String) (generation : Int) : (∃ e, release bufferId generation s = .error e) ↔
      (∃ e, keyOf bufferId generation = .error e) ∨ ∃ j, Names s.allocations.get? j (strip bufferId, generation) := by
  unfold release
  cases hkey : keyOf bufferId generation with
  | error e => simp [bind, Except.bind]
  | ok key =>
    obtain rfl := keyOf_ok hkey
    simp only [bind, Except.bind, reduceCtorEq, exists_false, false_or]
    have hfree := free_iff hs (strip bufferId, generation)
    cases hlive : s.allocations.get? (strip bufferId, generation) with
    | none =>
      -- what is not live has no aliases
      simp only [pure, Except.pure, reduceCtorEq, exists_false, false_iff, not_exists]
      rintro j ⟨a, ha, hn⟩
      obtain ⟨t, b, hn', hb, -⟩ := h.target j a ha (target_isSome hn)
      obtain rfl : t = (strip bufferId, generation) := by simpa [Prod.ext_iff] using hn'.symm.trans hn
      rw [hlive] at hb
      cases hb
    | some previous =>
      by_cases hnone : s.aliasesByTarget (strip bufferId, some generation) = none
      · simp only [refuse, hnone, ne_eq, not_true_eq_false, if_false, pure, Except.pure, reduceCtorEq, exists_false,
          false_iff, not_exists]
        exact hfree.1 hnone
      · simp only [refuse, hnone, ne_eq, not_false_eq_true, if_true, Except.error.injEq, exists_eq', true_iff]
        by_contra hno
        exact hnone (hfree.2 (not_exists.1 hno))

/-- **Aliases are sound.** In every reachable state each alias is a part of a
live extent and none hangs on itself; a release is refused exactly for what
an alias names, or what is no key; and `canonical_range` fails as `address`
does, and else ends at a live root with the whole range, where the offset it
returns gives the same address. -/
theorem alias_sound {cfg : AllocatorConfig} {s : AllocatorState} (h : Reachable (fun m => AliasesOk m.get?) cfg s) :
    (∀ k a, s.allocations.get? k = some a → a.aliasOf ≠ none →
      ∃ t b, a.target = some (t.1, some t.2) ∧ s.allocations.get? t = some b ∧ PartOf a b) ∧
    (∀ k, ¬Relation.TransGen (Names s.allocations.get?) k k) ∧
    (∀ bufferId generation, (∃ e, release bufferId generation s = .error e) ↔
      (∃ e, keyOf bufferId generation = .error e) ∨ ∃ j, Names s.allocations.get? j (strip bufferId, generation)) ∧
    ∀ bufferId offset size generation,
      (∀ message, addressOf s bufferId offset size generation = .error message →
        canonicalRange s bufferId offset size generation = some (.error message)) ∧
      ∀ address, addressOf s bufferId offset size generation = .ok address →
        ∃ key o, canonicalRange s bufferId offset size generation = some (.ok (key, o)) ∧ InRoot s key o size address := by
  have hlive := (reachable_aliases h).live
  exact ⟨hlive.target, hlive.acyclic.irrefl, release_error_iff (reachable_sound h).1.index hlive,
    fun _ _ _ _ => ⟨fun _ => canonicalRange_error, fun _ => canonicalRange_ok hlive⟩⟩

/-- A view of a view of an extent that then grew. -/
theorem alias_sound_nested : ∃ s, Reachable (fun m => AliasesOk m.get?)
    ⟨256, 64, 0, by decide, by decide, by decide, by decide, by decide⟩ s ∧
    (∃ e, release "view" 0 s = .error e) ∧ ∃ key o, canonicalRange s "part" 2 4 0 = some (.ok (key, o)) ∧
      InRoot s key o 4 14 := by
  have hr : Reachable (fun m => AliasesOk m.get?) ⟨256, 64, 0, by decide, by decide, by decide, by decide, by decide⟩ _ :=
    .tail (.tail (.tail (.tail .refl
      (.allocate { bufferId := "kv", sizeBytes := 32, inferred := true } 0 _ rfl))
      (.allocate { bufferId := "view", sizeBytes := 16, aliasOf := some "kv", aliasOffsetBytes := 8 } 1 _ rfl))
      (.allocate { bufferId := "part", sizeBytes := 8, aliasOf := some "view", aliasOffsetBytes := 4 } 2 _ rfl))
      (.allocate { bufferId := "kv", sizeBytes := 48, inferred := true } 3 _ rfl)
  obtain ⟨-, -, hrelease, hrange⟩ := alias_sound hr
  refine ⟨_, hr, (hrelease "view" 0).2 (.inr ⟨("part", 0), _, rfl, rfl⟩), (hrange "part" 2 4 0).2 14 rfl⟩

end HeteroSim.Allocator
