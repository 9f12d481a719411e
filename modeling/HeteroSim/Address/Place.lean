/-
Placing a burst in its die. Under each mapping the coordinates are the digits
of the burst's index in some mixed radix, read back from the place; so they
determine the burst, and the row is in range exactly when the index is.
-/
import HeteroSim.Address.Mapping

namespace HeteroSim.Address

/-! ## Rotated banks -/

/-- The rotation goes over whole groups, and the banks are whole rotations. -/
theorem rotation_unit {bankCount banksPerGroup : ℕ} (hg : banksPerGroup ∣ bankCount) (hpos : 0 < bankCount) :
    rotationGroups bankCount banksPerGroup * banksPerGroup = rotationUnit bankCount banksPerGroup ∧
      rotationUnit bankCount banksPerGroup ∣ bankCount ∧ 0 < rotationUnit bankCount banksPerGroup := by
  have hunit : banksPerGroup ∣ rotationUnit bankCount banksPerGroup ∧
      rotationUnit bankCount banksPerGroup ∣ bankCount ∧ 0 < rotationUnit bankCount banksPerGroup := by
    unfold rotationUnit
    split
    · next h => exact ⟨Nat.dvd_of_mod_eq_zero h.2.2, Nat.dvd_of_mod_eq_zero h.1, by decide⟩
    · exact ⟨hg, dvd_rfl, hpos⟩
  refine ⟨?_, hunit.2⟩
  rw [rotationGroups, if_pos (Nat.mod_eq_zero_of_dvd hunit.1)]
  exact Nat.div_mul_cancel hunit.1

/-- A two-digit number below `a * b`. -/
theorem two_digits_lt {a b x y : ℕ} (hx : x < a) (hy : y < b) : x * b + y < a * b := by
  have h : (x + 1) * b ≤ a * b := Nat.mul_le_mul_right b hx
  rw [Nat.succ_mul] at h
  omega

theorem two_digits_div {b x y : ℕ} (hy : y < b) : (x * b + y) / b = x ∧ (x * b + y) % b = y := by
  have hb : 0 < b := Nat.zero_lt_of_lt hy
  rw [Nat.add_comm, Nat.add_mul_div_right _ _ hb, Nat.div_eq_of_lt hy, Nat.zero_add, Nat.add_mul_mod_self_right,
    Nat.mod_eq_of_lt hy]
  exact ⟨rfl, rfl⟩

/-- **A rotation stays within the banks, and is undone by the step it takes.** -/
theorem rotatedBank_spec {bankCount banksPerGroup step : ℕ} (hg : banksPerGroup ∣ bankCount)
    (hstep : step < bankCount) : rotatedBank step bankCount banksPerGroup < bankCount ∧
      rotatedBankStep (rotatedBank step bankCount banksPerGroup) bankCount banksPerGroup = step := by
  obtain ⟨hgroups, ⟨units, hunits⟩, hunit⟩ := rotation_unit hg (Nat.zero_lt_of_lt hstep)
  unfold rotatedBank rotatedBankStep
  generalize rotationUnit bankCount banksPerGroup = unit at hgroups hunits hunit
  generalize rotationGroups bankCount banksPerGroup = groups at hgroups
  simp only []
  by_cases hone : groups ≤ 1
  · rw [if_pos hone, if_pos hone]
    exact ⟨hstep, rfl⟩
  · rw [if_neg hone, if_neg hone]
    -- the offset is `index * groups + group`, and goes to `group * banksPerGroup + index`
    have hoff : step % unit < unit := Nat.mod_lt _ hunit
    have hgroup : step % unit % groups < groups := Nat.mod_lt _ (by omega)
    have hindex : step % unit / groups < banksPerGroup := by
      rw [Nat.div_lt_iff_lt_mul (by omega), mul_comm, hgroups]
      exact hoff
    have hswap := two_digits_lt hgroup hindex
    rw [hgroups] at hswap
    have hbase : step / unit < units := by
      rw [Nat.div_lt_iff_lt_mul hunit, mul_comm, ← hunits]
      exact hstep
    have hall := two_digits_lt hbase hswap
    obtain ⟨h1, h2⟩ := two_digits_div (x := step / unit) hswap
    obtain ⟨h3, h4⟩ := two_digits_div (x := step % unit % groups) hindex
    rw [Nat.add_assoc, h1, h2, h3, h4]
    refine ⟨by rw [hunits, mul_comm unit]; exact hall, ?_⟩
    rw [Nat.add_assoc, Nat.div_add_mod', Nat.div_add_mod']

/-! ## Accepted geometries -/

/-- What the checks of a configuration leave. -/
structure Geometry (c : DramConfig) : Prop where
  groups : 0 < c.bankGroupsPerRank
  banks : 0 < c.banksPerGroup
  ranks : 0 < c.ranksPerChannel
  rows : 0 < c.rowsPerBank
  burst : 0 < c.burstBytes
  row : 0 < c.burstsPerRow ∧ c.rowBytes = c.burstsPerRow * c.burstBytes
  lanesPerStack : 0 < c.lanesPerStack
  wires : 0 < c.channels ∧ 0 < c.subchannelsPerChannel ∧ 0 < c.pseudoChannelsPerChannel
  stackCount : 0 < c.stackCount
  diesPerStack : 0 < c.diesPerStack
  interleave : 0 < c.interleaveBursts ∧ c.interleaveBursts ∣ c.rowsPerBank * c.burstsPerRow
  sid : c.addressMapping = .sidAware → 0 < c.bankGroupsPerSid ∧ c.perStackBanks = true ∧ c.independentStacks = true
  capacity : c.effectiveCapacityBytes ≤ c.computedCapacityBytes

theorem positiveInt_ok {name : String} {value : ℕ} {u : Unit} : positiveInt name value = .ok u ↔ 0 < value := by
  rw [positiveInt, refuse_ok, Nat.pos_iff_ne_zero]

theorem geometry_of_validate {c : DramConfig} (h : c.validate = .ok ()) : Geometry c := by
  simp only [DramConfig.validate, bind_ok, refuse_ok, positiveInt_ok, exists_and_left, exists_const] at h
  obtain ⟨-, hfr, -, hsid, hjedec, hchannels, hsub, hpseudo, hstacks, hdies, hranks, hgroups, hbanks, hrows, hrowBytes,
    hburst, hlanes, hrow, -, hinter, hinterBurst, hinterBank, -, hcapacity⟩ := h
  have hrowBurst : c.rowBytes = c.burstsPerRow * c.burstBytes :=
    (Nat.div_mul_cancel (Nat.dvd_of_mod_eq_zero (not_not.1 hrow))).symm
  have hperRow : 0 < c.burstsPerRow := Nat.pos_of_mul_pos_right (hrowBurst ▸ hrowBytes)
  refine ⟨hgroups, hbanks, hranks, hrows, hburst, ⟨hperRow, hrowBurst⟩, ?_,
    ⟨hchannels, hsub, hpseudo⟩, hstacks, hdies, ?_, fun hmode => ?_, ?_⟩
  · have hwires := Nat.mul_pos (Nat.mul_pos hchannels hsub) hpseudo
    unfold DramConfig.lanesPerStack
    split
    · exact hwires
    · exact hwires
    · next lanes heq => rwa [heq] at hlanes
  · unfold DramConfig.interleaveBursts
    cases hn : c.interleaveBytes with
    | none =>
      rw [Option.getD_none, Nat.div_self hburst]
      exact ⟨by decide, one_dvd _⟩
    | some n =>
      rw [hn, Option.getD_some] at hinter hinterBurst
      rw [Option.getD_some]
      have hdvd : n / c.burstBytes * c.burstBytes = n := Nat.div_mul_cancel (Nat.dvd_of_mod_eq_zero (not_not.1 hinterBurst))
      refine ⟨Nat.pos_of_mul_pos_right (hdvd.symm ▸ hinter), ?_⟩
      have hbank : n ∣ c.rowsPerBank * c.rowBytes := by
        refine Nat.dvd_of_mod_eq_zero (by_contra fun hne => hinterBank ⟨n, hn, .inr hne⟩)
      rw [hrowBurst, ← mul_assoc, ← hdvd] at hbank
      exact Nat.dvd_of_mul_dvd_mul_right hburst hbank
  · have hcontrol : c.jedecHbm = true :=
      Bool.not_eq_false _ ▸ fun hf => hfr ⟨.inl hmode, .inr (.inr hf)⟩
    refine ⟨?_, ?_, ?_⟩
    · by_contra hz
      exact hsid ⟨hmode, .inr (.inr (.inl (by omega)))⟩
    · by_contra hs
      refine hjedec ⟨hcontrol, ?_⟩
      simp [Bool.eq_false_iff.2 hs]
    · by_contra hs
      refine hjedec ⟨hcontrol, ?_⟩
      simp [Bool.eq_false_iff.2 hs]
  · unfold DramConfig.effectiveCapacityBytes
    split
    · exact le_rfl
    · exact le_rfl
    · next n heq =>
      rw [heq, Option.getD_some] at hcapacity
      omega

/-- An interleaved block is a whole number of bursts. -/
theorem interleave_bytes {c : DramConfig} (h : c.validate = .ok ()) :
    c.interleaveBytes.getD c.burstBytes = c.burstBytes * c.interleaveBursts := by
  have hdvd : c.burstBytes ∣ c.interleaveBytes.getD c.burstBytes := by
    simp only [DramConfig.validate, bind_ok, refuse_ok, positiveInt_ok, exists_and_left, exists_const] at h
    have hinter := h.2.2.2.2.2.2.2.2.2.2.2.2.2.2.2.2.2.2.2.2.1
    cases hn : c.interleaveBytes with
    | none => exact dvd_refl _
    | some n =>
      rw [hn] at hinter
      exact Nat.dvd_of_mod_eq_zero (not_not.1 hinter)
  exact (Nat.mul_div_cancel' hdvd).symm

/-- The capacity is a whole number of bursts. -/
theorem effectiveCapacity_bursts {c : DramConfig} (h : c.validate = .ok ()) : c.burstBytes ∣ c.effectiveCapacityBytes := by
  have hg := geometry_of_validate h
  have hcapacity : c.capacityBytes.getD 0 % c.burstBytes = 0 := by
    simp only [DramConfig.validate, bind_ok, refuse_ok, positiveInt_ok, exists_and_left, exists_const] at h
    exact not_not.1 h.2.2.2.2.2.2.2.2.2.2.2.2.2.2.2.2.2.2.1
  have hcomputed : c.burstBytes ∣ c.computedCapacityBytes := by
    rw [DramConfig.computedCapacityBytes, hg.row.2]
    exact Dvd.dvd.mul_left (Dvd.intro_left _ rfl) _
  unfold DramConfig.effectiveCapacityBytes
  split
  · exact hcomputed
  · exact hcomputed
  · next n heq =>
    rw [heq, Option.getD_some] at hcapacity
    exact Nat.dvd_of_mod_eq_zero hcapacity

theorem Geometry.laneCount {c : DramConfig} (h : Geometry c) : 0 < c.laneCount := by
  unfold DramConfig.laneCount
  refine Nat.mul_pos h.lanesPerStack ?_
  split
  · exact h.stackCount
  · decide

theorem Geometry.bankCount {c : DramConfig} (h : Geometry c) : 0 < c.bankCount :=
  Nat.mul_pos (Nat.mul_pos h.ranks h.groups) h.banks

/-- A die holds whole bursts. -/
theorem Geometry.perDie {c : DramConfig} (h : Geometry c) :
    c.perDie = c.burstBytes * (c.laneCount * c.bankCount * c.rowsPerBank * c.burstsPerRow) := by
  rw [DramConfig.perDie, h.row.2]
  ring

/-! ## Places -/

/-- Every coordinate is inside the declared geometry. -/
structure Place.Inside (c : DramConfig) (p : Place) : Prop where
  lane : p.lane < c.laneCount
  rank : p.rank < c.ranksPerChannel
  bankGroup : p.bankGroup < c.bankGroupsPerRank
  bank : p.bank < c.banksPerGroup
  row : p.row < c.rowsPerBank
  column : p.column < c.burstsPerRow

/-- The flat bank of a place. -/
def Place.flatBank (c : DramConfig) (p : Place) : ℕ :=
  p.rank * (c.bankGroupsPerRank * c.banksPerGroup) + (p.bankGroup * c.banksPerGroup + p.bank)

theorem flatBank_placeBank (c : DramConfig) (lane bank row column : ℕ) :
    (c.placeBank lane bank row column).flatBank c = bank := by
  simp only [Place.flatBank, DramConfig.placeBank, Nat.div_add_mod']

theorem placeBank_inside {c : DramConfig} (h : Geometry c) {lane bank row column : ℕ} (hlane : lane < c.laneCount)
    (hbank : bank < c.bankCount) (hrow : row < c.rowsPerBank) (hcolumn : column < c.burstsPerRow) :
    (c.placeBank lane bank row column).Inside c := by
  have hgroup : 0 < c.bankGroupsPerRank * c.banksPerGroup := Nat.mul_pos h.groups h.banks
  refine ⟨hlane, ?_, ?_, Nat.mod_lt _ h.banks, hrow, hcolumn⟩
  · refine (Nat.div_lt_iff_lt_mul hgroup).2 ?_
    rwa [← mul_assoc]
  · exact (Nat.div_lt_iff_lt_mul h.banks).2 (Nat.mod_lt _ hgroup)

/-- What is known of a mapping's places: the coordinates are digits of the
burst's index in some radices, and inside the geometry. -/
structure Placed (c : DramConfig) (read : Place → List ℕ) (radices : List ℕ) (offset : ℕ) (p : Place) : Prop where
  digits : read p = digits radices (offset / c.burstBytes)
  inside : p.Inside c

theorem Geometry.offset {c : DramConfig} (h : Geometry c) {offset : ℕ} (ho : offset < c.perDie) :
    offset / c.burstBytes < c.laneCount * c.bankCount * c.rowsPerBank * c.burstsPerRow := by
  rw [Nat.div_lt_iff_lt_mul h.burst, mul_comm, ← h.perDie]
  exact ho

theorem rowLocal_placed {c : DramConfig} (h : Geometry c) {offset : ℕ} (ho : offset < c.perDie) :
    Placed c (fun p => [p.column, p.flatBank c, p.lane, p.row]) [c.burstsPerRow, c.bankCount, c.laneCount] offset
      (c.rowLocalPlace offset) := by
  refine ⟨?_, placeBank_inside h (Nat.mod_lt _ h.laneCount) (Nat.mod_lt _ h.bankCount) ?_ (Nat.mod_lt _ h.row.1)⟩
  · simp only [DramConfig.rowLocalPlace, flatBank_placeBank]
    rfl
  · have hradix : ∀ r ∈ [c.burstsPerRow, c.bankCount, c.laneCount], 0 < r := by
      simp [h.row.1, h.bankCount, h.laneCount]
    refine (topDigit_lt hradix).2 ((h.offset ho).trans_eq ?_)
    simp only [List.prod_cons, List.prod_nil]
    ring

/-- The burst of the bank that an interleaved place names. -/
def Place.burst (c : DramConfig) (p : Place) : ℕ := p.row * c.burstsPerRow + p.column

theorem burst_placeBank (c : DramConfig) (lane bank burst : ℕ) :
    (c.placeBank lane bank (burst / c.burstsPerRow) (burst % c.burstsPerRow)).burst c = burst :=
  Nat.div_add_mod' _ _

theorem interleaved_placed {c : DramConfig} (h : Geometry c) {offset : ℕ} (ho : offset < c.perDie) :
    Placed c (fun p => [p.burst c % c.interleaveBursts, p.lane, rotatedBankStep (p.flatBank c) c.bankCount c.banksPerGroup,
        p.burst c / c.interleaveBursts])
      [c.interleaveBursts, c.laneCount, c.bankCount] offset (c.interleavedPlace offset) := by
  obtain ⟨hinter, blocks, hblocks⟩ := h.interleave
  set cursor := offset / c.burstBytes with hcursor
  have hinner : cursor % c.interleaveBursts < c.interleaveBursts := Nat.mod_lt _ hinter
  have hstep : cursor / c.interleaveBursts / c.laneCount % c.bankCount < c.bankCount := Nat.mod_lt _ h.bankCount
  have hwhole : c.banksPerGroup ∣ c.bankCount := Nat.dvd_mul_left _ _
  obtain ⟨hbank, hback⟩ := rotatedBank_spec hwhole hstep
  obtain ⟨hdiv, hmod⟩ := two_digits_div (x := cursor / c.interleaveBursts / c.laneCount / c.bankCount) hinner
  refine ⟨?_, placeBank_inside h (Nat.mod_lt _ h.laneCount) hbank ?_ (Nat.mod_lt _ h.row.1)⟩
  · simp only [DramConfig.interleavedPlace, flatBank_placeBank, burst_placeBank, ← hcursor, hdiv, hmod, hback]
    rfl
  · -- the block of the bank is in range, so the burst of the bank is
    have hradix : ∀ r ∈ [c.interleaveBursts, c.laneCount, c.bankCount], 0 < r := by
      simp [hinter, h.bankCount, h.laneCount]
    have hblock : cursor / c.interleaveBursts / c.laneCount / c.bankCount < blocks := by
      refine (topDigit_lt hradix).2 ((h.offset ho).trans_eq ?_)
      simp only [List.prod_cons, List.prod_nil]
      calc c.laneCount * c.bankCount * c.rowsPerBank * c.burstsPerRow
          = c.laneCount * c.bankCount * (c.rowsPerBank * c.burstsPerRow) := by ring
        _ = c.interleaveBursts * (c.laneCount * (c.bankCount * 1)) * blocks := by rw [hblocks]; ring
    refine (Nat.div_lt_iff_lt_mul h.row.1).2 ?_
    rw [hblocks, mul_comm c.interleaveBursts]
    exact two_digits_lt hblock hinner

/-- The bytes of a die that the SIDs' banks hold. -/
def DramConfig.sidBytes (c : DramConfig) : ℕ :=
  c.laneCount * c.sidCount * c.bankGroupsPerSid * c.banksPerGroup * c.rowsPerBank * c.rowBytes

theorem sidCount_pos (c : DramConfig) : 0 < c.sidCount := Nat.lt_of_lt_of_le Nat.one_pos (le_max_left _ _)

/-- **SID-aware places exist below the SIDs' bytes, and nowhere above.** -/
theorem sidAware_placed {c : DramConfig} (h : Geometry c) (hsid : 0 < c.bankGroupsPerSid) (offset : ℕ) :
    (c.sidBytes ≤ offset → c.sidAwarePlace offset = .error "sid_aware address exceeds the selected HBM SID geometry") ∧
    (offset < c.sidBytes → ∃ p, c.sidAwarePlace offset = .ok p ∧
      Placed c (fun p => [p.bankGroup % c.bankGroupsPerSid, p.lane, p.column, p.bank, p.bankGroup / c.bankGroupsPerSid,
          p.row])
        [c.bankGroupsPerSid, c.laneCount, c.burstsPerRow, c.banksPerGroup, c.sidCount] offset p) := by
  have hradix : ∀ r ∈ [c.bankGroupsPerSid, c.laneCount, c.burstsPerRow, c.banksPerGroup, c.sidCount], 0 < r := by
    simp [hsid, h.laneCount, h.row.1, h.banks, sidCount_pos c]
  have hbytes : c.sidBytes = [c.bankGroupsPerSid, c.laneCount, c.burstsPerRow, c.banksPerGroup, c.sidCount].prod *
      c.rowsPerBank * c.burstBytes := by
    simp only [DramConfig.sidBytes, h.row.2, List.prod_cons, List.prod_nil]
    ring
  have hrow : topDigit [c.bankGroupsPerSid, c.laneCount, c.burstsPerRow, c.banksPerGroup, c.sidCount]
      (offset / c.burstBytes) < c.rowsPerBank ↔ offset < c.sidBytes := by
    rw [topDigit_lt hradix, Nat.div_lt_iff_lt_mul h.burst, hbytes]
  simp only [topDigit] at hrow
  set cursor := offset / c.burstBytes
  have hbg : cursor % c.bankGroupsPerSid < c.bankGroupsPerSid := Nat.mod_lt _ hsid
  have hs : cursor / c.bankGroupsPerSid / c.laneCount / c.burstsPerRow / c.banksPerGroup % c.sidCount < c.sidCount :=
    Nat.mod_lt _ (sidCount_pos c)
  refine ⟨fun hover => ?_, fun hlt => ?_⟩
  · have hnot := mt hrow.1 (Nat.not_lt.2 hover)
    simp only [DramConfig.sidAwarePlace, refuse]
    rw [if_pos (.inr (Nat.not_lt.1 hnot))]
    rfl
  · have hin := hrow.2 hlt
    obtain ⟨hsidOf, hgroupOf⟩ := two_digits_div
      (x := cursor / c.bankGroupsPerSid / c.laneCount / c.burstsPerRow / c.banksPerGroup % c.sidCount) hbg
    have hgroups : c.sidCount * c.bankGroupsPerSid ≤ c.bankGroupsPerRank := Nat.mul_div_le _ _
    have heq : c.sidAwarePlace offset = .ok {
        lane := cursor / c.bankGroupsPerSid % c.laneCount
        rank := 0
        bankGroup := cursor / c.bankGroupsPerSid / c.laneCount / c.burstsPerRow / c.banksPerGroup % c.sidCount *
          c.bankGroupsPerSid + cursor % c.bankGroupsPerSid
        bank := cursor / c.bankGroupsPerSid / c.laneCount / c.burstsPerRow % c.banksPerGroup
        row := cursor / c.bankGroupsPerSid / c.laneCount / c.burstsPerRow / c.banksPerGroup / c.sidCount
        column := cursor / c.bankGroupsPerSid / c.laneCount % c.burstsPerRow } := by
      simp only [DramConfig.sidAwarePlace, refuse]
      rw [if_neg fun hor => hor.elim (fun h => absurd h (Nat.not_le.2 hs)) fun h => absurd h (Nat.not_le.2 hin)]
      rfl
    refine ⟨_, heq, ?_, ?_⟩
    · simp only [hsidOf, hgroupOf]
      rfl
    · exact ⟨Nat.mod_lt _ h.laneCount, h.ranks, (two_digits_lt hs hbg).trans_le hgroups, Nat.mod_lt _ h.banks, hin,
        Nat.mod_lt _ h.row.1⟩

end HeteroSim.Address
