/-
Address mapping is sound. Below the capacity a burst has its coordinates, all
inside the geometry, and no other burst has them; only a SID-aware geometry
whose SIDs do not cover the banks refuses an address, and it says which.
-/
import HeteroSim.Address.Place

namespace HeteroSim.Address

/-! ## Die and stack -/

/-- The bytes of an address beyond its stack and die. -/
def DramConfig.local (c : DramConfig) (address : ℕ) : ℕ := address % c.perStack % c.perDie

section

variable {c : DramConfig} (h : Geometry c)

include h

theorem Geometry.perDie_pos : 0 < c.perDie := by
  rw [h.perDie]
  exact Nat.mul_pos h.burst (Nat.mul_pos (Nat.mul_pos (Nat.mul_pos h.laneCount h.bankCount) h.rows) h.row.1)

theorem Geometry.dies : 0 < c.addressableDieCount ∧ c.addressableDieCount ≤ c.diesPerStack := by
  unfold DramConfig.addressableDieCount
  split
  · exact ⟨by decide, h.diesPerStack⟩
  · exact ⟨h.diesPerStack, le_rfl⟩

theorem Geometry.below {address : ℕ} (ha : address < c.effectiveCapacityBytes) :
    address / c.perStack < c.addressableStackCount := by
  refine (Nat.div_lt_iff_lt_mul (Nat.mul_pos h.perDie_pos h.dies.1)).2 (ha.trans_le (h.capacity.trans_eq ?_))
  simp only [DramConfig.computedCapacityBytes, DramConfig.perDie]
  ring

/-- A burst's index from its stack, its die and its index in the die. -/
theorem Geometry.burstIndex (address : ℕ) :
    address / c.burstBytes = (address / c.perStack * c.addressableDieCount + address % c.perStack / c.perDie) *
      (c.laneCount * c.bankCount * c.rowsPerBank * c.burstsPerRow) + c.local address / c.burstBytes := by
  have hsplit : address = (address / c.perStack * c.addressableDieCount + address % c.perStack / c.perDie) * c.perDie +
      c.local address := by
    calc address = address / c.perStack * c.perStack + address % c.perStack := (Nat.div_add_mod' _ _).symm
      _ = address / c.perStack * c.perStack + (address % c.perStack / c.perDie * c.perDie + c.local address) := by
        rw [DramConfig.local, Nat.div_add_mod' (address % c.perStack), Nat.div_add_mod']
      _ = _ := by rw [DramConfig.perStack]; ring
  generalize address / c.perStack * c.addressableDieCount + address % c.perStack / c.perDie = die at hsplit
  conv_lhs => rw [hsplit, h.perDie, mul_left_comm, Nat.mul_add_div h.burst]

end

/-! ## The whole map -/

/-- Every coordinate is inside the declared geometry. -/
structure AddressMapping.Inside (c : DramConfig) (m : AddressMapping) : Prop where
  stack : m.stack < c.stackCount
  die : m.die < c.diesPerStack
  lane : m.lane < c.laneCount
  channel : m.channel < c.channels
  subchannel : m.subchannel < c.subchannelsPerChannel
  pseudoChannel : m.pseudoChannel < c.pseudoChannelsPerChannel
  rank : m.rank < c.ranksPerChannel
  bankGroup : m.bankGroup < c.bankGroupsPerRank
  bank : m.bank < c.banksPerGroup
  row : m.row < c.rowsPerBank
  column : m.column < c.burstsPerRow

/-- The coordinates of a burst. -/
def AddressMapping.burstCoordinates (m : AddressMapping) : List ℕ :=
  [m.stack, m.die, m.lane, m.rank, m.bankGroup, m.bank, m.row, m.column]

/-- The coordinates of a page. -/
def AddressMapping.pageCoordinates (m : AddressMapping) : List ℕ :=
  [m.channel, m.target, m.die, m.lun, m.plane, m.block, m.page]

/-- The addresses a SID-aware mapping refuses. -/
def DramConfig.beyondSids (c : DramConfig) (address : ℕ) : Prop :=
  c.addressMapping = .sidAware ∧ c.sidBytes ≤ address

instance (c : DramConfig) (address : ℕ) : Decidable (c.beyondSids address) := inferInstanceAs (Decidable (_ ∧ _))

/-- A place and what the mapping makes of it. -/
structure Maps (c : DramConfig) (address : ℕ) (p : Place) (m : AddressMapping) : Prop where
  place : m.lane = p.lane ∧ m.rank = p.rank ∧ m.bankGroup = p.bankGroup ∧ m.bank = p.bank ∧ m.row = p.row ∧
    m.column = p.column
  stack : m.stack = if c.independentStacks then p.lane / c.lanesPerStack else address / c.perStack
  die : m.die = address % c.perStack / c.perDie
  wires : m.channel = p.lane % c.lanesPerStack / c.pseudoChannelsPerChannel / c.subchannelsPerChannel % c.channels ∧
    m.subchannel = p.lane % c.lanesPerStack / c.pseudoChannelsPerChannel % c.subchannelsPerChannel ∧
    m.pseudoChannel = p.lane % c.lanesPerStack % c.pseudoChannelsPerChannel

theorem mapDramAddress_place {c : DramConfig} {address : ℕ} (ha : address < c.effectiveCapacityBytes) :
    (∀ e, c.place (c.local address) = .error e → mapDramAddress c address = .error e) ∧
    (∀ p, c.place (c.local address) = .ok p → ∃ m, mapDramAddress c address = .ok m ∧ Maps c address p m) := by
  have hcheck : checkAddress address c.effectiveCapacityBytes = .ok () := by
    rw [checkAddress, refuse_ok]
    exact Nat.not_le.2 ha
  refine ⟨fun e he => ?_, fun p hp => ?_⟩
  · simp only [mapDramAddress, hcheck]
    rw [DramConfig.local] at he
    simp only [he]
    rfl
  · rw [DramConfig.local] at hp
    simp only [mapDramAddress, hcheck, hp]
    exact ⟨_, rfl, ⟨rfl, rfl, rfl, rfl, rfl, rfl⟩, rfl, rfl, rfl, rfl, rfl⟩

/-- The radices a mapping reads a burst's index in. -/
def DramConfig.radices (c : DramConfig) : List ℕ :=
  match c.addressMapping with
  | .sidAware => [c.bankGroupsPerSid, c.laneCount, c.burstsPerRow, c.banksPerGroup, c.sidCount]
  | .rowLocal => [c.burstsPerRow, c.bankCount, c.laneCount]
  | .bankInterleaved => [c.interleaveBursts, c.laneCount, c.bankCount]

/-- The digits as a place gives them back. -/
def DramConfig.read (c : DramConfig) (p : Place) : List ℕ :=
  match c.addressMapping with
  | .sidAware =>
    [p.bankGroup % c.bankGroupsPerSid, p.lane, p.column, p.bank, p.bankGroup / c.bankGroupsPerSid, p.row]
  | .rowLocal => [p.column, p.flatBank c, p.lane, p.row]
  | .bankInterleaved =>
    [p.burst c % c.interleaveBursts, p.lane, rotatedBankStep (p.flatBank c) c.bankCount c.banksPerGroup,
      p.burst c / c.interleaveBursts]

/-- **What a mapping does with an offset in its die.** -/
theorem place_placed {c : DramConfig} (h : Geometry c) {offset : ℕ} (ho : offset < c.perDie) :
    (c.beyondSids offset → c.place offset = .error "sid_aware address exceeds the selected HBM SID geometry") ∧
    (¬c.beyondSids offset → ∃ p, c.place offset = .ok p ∧ Placed c c.read c.radices offset p) := by
  cases hmode : c.addressMapping with
  | sidAware =>
    obtain ⟨hover, hunder⟩ := sidAware_placed h (h.sid hmode).1 offset
    simp only [DramConfig.place, hmode]
    refine ⟨fun hb => hover hb.2, fun hb => ?_⟩
    obtain ⟨p, hp, hplaced⟩ := hunder (Nat.not_le.1 fun hle => hb ⟨hmode, hle⟩)
    refine ⟨p, hp, ?_, hplaced.inside⟩
    simp only [DramConfig.read, DramConfig.radices, hmode]
    exact hplaced.digits
  | rowLocal =>
    refine ⟨fun hb => absurd (hmode.symm.trans hb.1) (by decide), fun _ => ?_⟩
    have hplaced := rowLocal_placed h ho
    refine ⟨c.rowLocalPlace offset, by simp only [DramConfig.place, hmode], ?_, hplaced.inside⟩
    simp only [DramConfig.read, DramConfig.radices, hmode]
    exact hplaced.digits
  | bankInterleaved =>
    refine ⟨fun hb => absurd (hmode.symm.trans hb.1) (by decide), fun _ => ?_⟩
    have hplaced := interleaved_placed h ho
    refine ⟨c.interleavedPlace offset, by simp only [DramConfig.place, hmode], ?_, hplaced.inside⟩
    simp only [DramConfig.read, DramConfig.radices, hmode]
    exact hplaced.digits

/-- A SID-aware configuration has one die of one stack. -/
theorem Geometry.local_of_sid {c : DramConfig} (h : Geometry c) (hmode : c.addressMapping = .sidAware) {address : ℕ}
    (ha : address < c.effectiveCapacityBytes) : c.local address = address := by
  obtain ⟨-, hbanks, hstacks⟩ := h.sid hmode
  have hdie : c.perStack = c.perDie := by
    rw [DramConfig.perStack, DramConfig.addressableDieCount, if_pos hbanks, mul_one]
  have hstack : c.addressableStackCount = 1 := if_pos hstacks
  have hlt : address < c.perDie := by
    refine (Nat.div_lt_one_iff h.perDie_pos).1 ?_
    rw [← hdie, ← hstack]
    exact h.below ha
  rw [DramConfig.local, hdie, Nat.mod_mod, Nat.mod_eq_of_lt hlt]

theorem beyondSids_local {c : DramConfig} (h : Geometry c) {address : ℕ} (ha : address < c.effectiveCapacityBytes) :
    c.beyondSids (c.local address) ↔ c.beyondSids address :=
  and_congr_right fun hmode => by rw [h.local_of_sid hmode ha]

/-- **An address below the capacity has a placed burst, unless it lies beyond
the SIDs.** -/
theorem mapDramAddress_spec {c : DramConfig} (h : Geometry c) {address : ℕ} (ha : address < c.effectiveCapacityBytes) :
    (c.beyondSids address →
      mapDramAddress c address = .error "sid_aware address exceeds the selected HBM SID geometry") ∧
    (¬c.beyondSids address → ∃ p m, mapDramAddress c address = .ok m ∧ Maps c address p m ∧
      Placed c c.read c.radices (c.local address) p) := by
  obtain ⟨herror, hok⟩ := place_placed h (Nat.mod_lt (address % c.perStack) h.perDie_pos)
  obtain ⟨hfails, hmaps⟩ := mapDramAddress_place ha
  refine ⟨fun hb => hfails _ (herror ((beyondSids_local h ha).2 hb)), fun hb => ?_⟩
  obtain ⟨p, hp, hplaced⟩ := hok (mt (beyondSids_local h ha).1 hb)
  obtain ⟨m, hm, hmap⟩ := hmaps p hp
  exact ⟨p, m, hm, hmap, hplaced⟩

theorem Maps.inside {c : DramConfig} (h : Geometry c) {address : ℕ} {p : Place} {m : AddressMapping}
    (hm : Maps c address p m) (hp : p.Inside c) (ha : address < c.effectiveCapacityBytes) : m.Inside c := by
  obtain ⟨⟨hlane, hrank, hgroup, hbank, hrow, hcolumn⟩, hstack, hdie, hchannel, hsub, hpseudo⟩ := hm
  refine ⟨?_, ?_, hlane ▸ hp.lane, hchannel ▸ Nat.mod_lt _ h.wires.1, hsub ▸ Nat.mod_lt _ h.wires.2.1,
    hpseudo ▸ Nat.mod_lt _ h.wires.2.2, hrank ▸ hp.rank, hgroup ▸ hp.bankGroup, hbank ▸ hp.bank, hrow ▸ hp.row,
    hcolumn ▸ hp.column⟩
  · have hbelow := h.below ha
    rw [DramConfig.addressableStackCount] at hbelow
    rw [hstack]
    split
    · next hmode =>
      have hlane := hp.lane
      rw [DramConfig.laneCount, if_pos hmode, mul_comm] at hlane
      exact (Nat.div_lt_iff_lt_mul h.lanesPerStack).2 hlane
    · next hmode => rwa [if_neg hmode] at hbelow
  · rw [hdie]
    have hdies : address % c.perStack / c.perDie < c.addressableDieCount := by
      refine (Nat.div_lt_iff_lt_mul h.perDie_pos).2 ?_
      rw [mul_comm, ← DramConfig.perStack]
      exact Nat.mod_lt _ (Nat.mul_pos h.perDie_pos h.dies.1)
    exact hdies.trans_le h.dies.2

theorem Maps.read {c : DramConfig} {a b : ℕ} {p q : Place} {m n : AddressMapping} (hm : Maps c a p m)
    (hn : Maps c b q n) (heq : m.burstCoordinates = n.burstCoordinates) : p = q := by
  simp only [AddressMapping.burstCoordinates, List.cons.injEq] at heq
  obtain ⟨-, -, hlane, hrank, hgroup, hbank, hrow, hcolumn, -⟩ := heq
  obtain ⟨plane, prank, pgroup, pbank, prow, pcolumn⟩ := hm.place
  obtain ⟨qlane, qrank, qgroup, qbank, qrow, qcolumn⟩ := hn.place
  exact Place.ext (plane.symm.trans (hlane.trans qlane)) (prank.symm.trans (hrank.trans qrank))
    (pgroup.symm.trans (hgroup.trans qgroup)) (pbank.symm.trans (hbank.trans qbank))
    (prow.symm.trans (hrow.trans qrow)) (pcolumn.symm.trans (hcolumn.trans qcolumn))

/-- **Bursts with the same coordinates are one burst.** -/
theorem burst_unique {c : DramConfig} (h : Geometry c) {a b : ℕ} {p q : Place} {m n : AddressMapping}
    (ha : a < c.effectiveCapacityBytes) (hb : b < c.effectiveCapacityBytes) (hm : Maps c a p m) (hn : Maps c b q n)
    (hp : Placed c c.read c.radices (c.local a) p) (hq : Placed c c.read c.radices (c.local b) q)
    (heq : m.burstCoordinates = n.burstCoordinates) : a / c.burstBytes = b / c.burstBytes := by
  have hlocal : c.local a / c.burstBytes = c.local b / c.burstBytes := by
    refine digits_inj c.radices ?_
    rw [← hp.digits, ← hq.digits, hm.read hn heq]
  simp only [AddressMapping.burstCoordinates, List.cons.injEq] at heq
  have hstack : a / c.perStack = b / c.perStack := by
    have habelow := h.below ha
    have hbbelow := h.below hb
    rw [DramConfig.addressableStackCount] at habelow hbbelow
    by_cases hmode : c.independentStacks = true
    · rw [if_pos hmode, Nat.lt_one_iff] at habelow hbbelow
      rw [habelow, hbbelow]
    · have hsame := heq.1
      rw [hm.stack, hn.stack, if_neg hmode, if_neg hmode] at hsame
      exact hsame
  have hdie : a % c.perStack / c.perDie = b % c.perStack / c.perDie := by rw [← hm.die, ← hn.die, heq.2.1]
  rw [h.burstIndex a, h.burstIndex b, hstack, hdie, hlocal]

/-! ## NAND pages -/

theorem mapNandAddress_spec {c : NandConfig} {address : ℕ} (ha : address < c.effectiveCapacityBytes) :
    ∃ m, mapNandAddress c address = .ok m ∧
      [m.lun, m.die, m.target, m.channel] =
        digits [c.lunsPerDie, c.diesPerTarget, c.targetsPerChannel] (address / c.pageBytes % c.baseUnits) ∧
      [m.plane, m.page, m.block] =
        digits [c.planesPerLun, c.pagesPerBlock] (address / c.pageBytes / c.baseUnits) := by
  have hcheck : checkAddress address c.effectiveCapacityBytes = .ok () := by
    rw [checkAddress, refuse_ok]
    exact Nat.not_le.2 ha
  simp only [mapNandAddress, hcheck, ← Nat.div_div_eq_div_mul (address / c.pageBytes), ite_self]
  exact ⟨_, rfl, rfl, rfl⟩

/-- Every coordinate of a page is inside the declared geometry. -/
structure AddressMapping.PageInside (c : NandConfig) (m : AddressMapping) : Prop where
  channel : m.channel < c.channels
  target : m.target < c.targetsPerChannel
  die : m.die < c.diesPerTarget
  lun : m.lun < c.lunsPerDie
  plane : m.plane < c.planesPerLun
  block : m.block < c.blocksPerPlane
  page : m.page < c.pagesPerBlock

theorem page_inside {c : NandConfig} (h : c.validate = .ok ()) {address : ℕ} {m : AddressMapping}
    (ha : address < c.effectiveCapacityBytes) (hm : mapNandAddress c address = .ok m) : m.PageInside c := by
  simp only [NandConfig.validate, bind_ok, refuse_ok, positiveInt_ok, exists_and_left, exists_const] at h
  obtain ⟨hchannels, htargets, hdies, hluns, hplanes, hblocks, hpages, hbytes, -, -, hcapacity⟩ := h
  have hunits : 0 < c.baseUnits := Nat.mul_pos (Nat.mul_pos (Nat.mul_pos hchannels htargets) hdies) hluns
  have hphysical : address < c.computedCapacityBytes := by
    refine ha.trans_le ?_
    unfold NandConfig.effectiveCapacityBytes
    split
    · exact le_rfl
    · exact le_rfl
    · next n heq =>
      rw [heq, Option.getD_some] at hcapacity
      omega
  obtain ⟨m', hm', hunit, hpage⟩ := mapNandAddress_spec ha
  obtain rfl := Except.ok.inj (hm.symm.trans hm')
  simp only [digits, List.cons.injEq, and_true] at hunit hpage
  obtain ⟨hlun, hdie, htarget, hchannel⟩ := hunit
  obtain ⟨hplane, hpageOf, hblock⟩ := hpage
  refine ⟨?_, htarget ▸ Nat.mod_lt _ htargets, hdie ▸ Nat.mod_lt _ hdies, hlun ▸ Nat.mod_lt _ hluns,
    hplane ▸ Nat.mod_lt _ hplanes, ?_, hpageOf ▸ Nat.mod_lt _ hpages⟩
  · rw [hchannel]
    have hradix : ∀ r ∈ [c.lunsPerDie, c.diesPerTarget, c.targetsPerChannel], 0 < r := by simp [hluns, hdies, htargets]
    refine (topDigit_lt hradix).2 ((Nat.mod_lt _ hunits).trans_eq ?_)
    simp only [NandConfig.baseUnits, List.prod_cons, List.prod_nil]
    ring
  · rw [hblock]
    have hradix : ∀ r ∈ [c.pageBytes, c.baseUnits, c.planesPerLun, c.pagesPerBlock], 0 < r := by
      simp [hbytes, hunits, hplanes, hpages]
    refine (topDigit_lt hradix).2 (hphysical.trans_eq ?_)
    simp only [NandConfig.computedCapacityBytes, NandConfig.baseUnits, List.prod_cons, List.prod_nil]
    ring

/-- **Pages with the same coordinates are one page.** -/
theorem page_unique {c : NandConfig} {a b : ℕ} {m n : AddressMapping} (ha : a < c.effectiveCapacityBytes)
    (hb : b < c.effectiveCapacityBytes) (hm : mapNandAddress c a = .ok m) (hn : mapNandAddress c b = .ok n)
    (heq : m.pageCoordinates = n.pageCoordinates) : a / c.pageBytes = b / c.pageBytes := by
  obtain ⟨m', hm', hmunit, hmpage⟩ := mapNandAddress_spec ha
  obtain ⟨n', hn', hnunit, hnpage⟩ := mapNandAddress_spec hb
  obtain rfl := Except.ok.inj (hm.symm.trans hm')
  obtain rfl := Except.ok.inj (hn.symm.trans hn')
  simp only [AddressMapping.pageCoordinates, List.cons.injEq] at heq
  obtain ⟨hchannel, htarget, hdie, hlun, hplane, hblock, hpage, -⟩ := heq
  have hunit : a / c.pageBytes % c.baseUnits = b / c.pageBytes % c.baseUnits := by
    refine digits_inj [c.lunsPerDie, c.diesPerTarget, c.targetsPerChannel] ?_
    rw [← hmunit, ← hnunit, hchannel, htarget, hdie, hlun]
  have hphysical : a / c.pageBytes / c.baseUnits = b / c.pageBytes / c.baseUnits := by
    refine digits_inj [c.planesPerLun, c.pagesPerBlock] ?_
    rw [← hmpage, ← hnpage, hplane, hblock, hpage]
  rw [← Nat.mod_add_div (a / c.pageBytes) c.baseUnits, ← Nat.mod_add_div (b / c.pageBytes) c.baseUnits, hunit,
    hphysical]

/-! ## Soundness -/

/-- **Address mapping is sound.** Every address below the capacity of an
accepted geometry is mapped, inside the geometry, except that a SID-aware one
refuses exactly those beyond its SIDs; different bursts, and different pages,
have different coordinates. -/
theorem mapping_sound (c : DramConfig) (n : NandConfig) (hc : c.validate = .ok ()) (hn : n.validate = .ok ()) :
    (∀ a, a < c.effectiveCapacityBytes → ¬c.beyondSids a → ∃ m, mapDramAddress c a = .ok m) ∧
    (∀ a, a < c.effectiveCapacityBytes → c.beyondSids a →
      mapDramAddress c a = .error "sid_aware address exceeds the selected HBM SID geometry") ∧
    (∀ a m, a < c.effectiveCapacityBytes → mapDramAddress c a = .ok m → m.Inside c) ∧
    (∀ a b k l, a < c.effectiveCapacityBytes → b < c.effectiveCapacityBytes → mapDramAddress c a = .ok k →
      mapDramAddress c b = .ok l → a / c.burstBytes ≠ b / c.burstBytes → k.burstCoordinates ≠ l.burstCoordinates) ∧
    (∀ a, a < n.effectiveCapacityBytes → ∃ m, mapNandAddress n a = .ok m ∧ m.PageInside n) ∧
    (∀ a b k l, a < n.effectiveCapacityBytes → b < n.effectiveCapacityBytes → mapNandAddress n a = .ok k →
      mapNandAddress n b = .ok l → a / n.pageBytes ≠ b / n.pageBytes → k.pageCoordinates ≠ l.pageCoordinates) := by
  have h := geometry_of_validate hc
  -- a mapped address is not beyond the SIDs, so it has its place
  have hplaced : ∀ a m, a < c.effectiveCapacityBytes → mapDramAddress c a = .ok m →
      ∃ p, Maps c a p m ∧ Placed c c.read c.radices (c.local a) p := by
    intro a m ha hm
    obtain ⟨herror, hok⟩ := mapDramAddress_spec h ha
    by_cases hb : c.beyondSids a
    · exact absurd (hm.symm.trans (herror hb)) (by simp)
    · obtain ⟨p, m', hm', hmap, hplaced⟩ := hok hb
      obtain rfl := Except.ok.inj (hm.symm.trans hm')
      exact ⟨p, hmap, hplaced⟩
  refine ⟨?_, ?_, ?_, ?_, ?_, ?_⟩
  · intro a ha hb
    obtain ⟨-, m, hm, -⟩ := (mapDramAddress_spec h ha).2 hb
    exact ⟨m, hm⟩
  · intro a ha hb
    exact (mapDramAddress_spec h ha).1 hb
  · intro a m ha hm
    obtain ⟨p, hmap, hp⟩ := hplaced a m ha hm
    exact hmap.inside h hp.inside ha
  · intro a b k l ha hb hk hl hne heq
    obtain ⟨p, hmapa, hp⟩ := hplaced a k ha hk
    obtain ⟨q, hmapb, hq⟩ := hplaced b l hb hl
    exact hne (burst_unique h ha hb hmapa hmapb hp hq heq)
  · intro a ha
    obtain ⟨m, hm, -⟩ := mapNandAddress_spec ha
    exact ⟨m, hm, page_inside hn ha hm⟩
  · intro a b k l ha hb hk hl hne heq
    exact hne (page_unique ha hb hk hl heq)

/-- An HBM geometry of nine groups of four banks: two SIDs of four groups
leave the ninth group out. -/
def nineGroups : DramConfig where
  kind := .hbm
  jedecHbm := true
  addressMapping := .sidAware
  scheduler := .frFcfs
  queueScope := .pc
  perStackBanks := true
  independentStacks := true
  channels := 1
  subchannelsPerChannel := 1
  pseudoChannelsPerChannel := 2
  stackCount := 1
  diesPerStack := 1
  ranksPerChannel := 1
  bankGroupsPerRank := 9
  banksPerGroup := 4
  rowsPerBank := 2
  rowBytes := 1024
  burstBytes := 32
  dataLanes := none
  interleaveBytes := none
  capacityBytes := none

def smallNand : NandConfig := ⟨2, 1, 2, 1, 2, true, 2, 4, 4096, none⟩

theorem mapping_sound_nineGroups : nineGroups.validate = .ok () ∧ smallNand.validate = .ok () ∧
    nineGroups.effectiveCapacityBytes = 147456 ∧ ¬nineGroups.beyondSids 131071 ∧
    (∃ m, mapDramAddress nineGroups 131071 = .ok m) := by
  have hc : nineGroups.validate = .ok () := by decide +kernel
  have hn : smallNand.validate = .ok () := by decide +kernel
  exact ⟨hc, hn, by decide, by decide, (mapping_sound nineGroups smallNand hc hn).1 131071 (by decide) (by decide)⟩

/-- The first address beyond the SIDs is below the capacity, and is refused. -/
theorem mapping_refuses : nineGroups.validate = .ok () ∧ 131072 < nineGroups.effectiveCapacityBytes ∧
    ¬∃ m, mapDramAddress nineGroups 131072 = .ok m := by
  have hrefused : mapDramAddress nineGroups 131072 =
      .error "sid_aware address exceeds the selected HBM SID geometry" := by decide +kernel
  refine ⟨by decide +kernel, by decide, ?_⟩
  rintro ⟨m, hm⟩
  exact absurd (hm.symm.trans hrefused) (by simp)

end HeteroSim.Address
