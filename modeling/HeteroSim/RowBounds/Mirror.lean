/-
The device mirrors the address map: a range's lanes and banks are those its
bytes are mapped to, whether they are listed or the range is a whole turn.
-/
import HeteroSim.RowBounds.Device

namespace HeteroSim.RowBounds

open Address

variable {c : DramConfig}

/-! ## Units and turns -/

/-- The bursts of a unit: as many as stay in one bank of a lane before the next. -/
def unitBursts (c : DramConfig) : ℕ :=
  match c.addressMapping with
  | .rowLocal => c.burstsPerRow
  | .sidAware => 1
  | .bankInterleaved => c.interleaveBursts

def unitBytes (c : DramConfig) : ℕ := c.burstBytes * unitBursts c

/-- The radices of a unit's number that name its lane and bank. -/
def turnRadices (c : DramConfig) : List ℕ :=
  match c.addressMapping with
  | .rowLocal => [c.bankCount, c.laneCount]
  | .sidAware => [c.bankGroupsPerSid, c.laneCount, c.burstsPerRow, c.banksPerGroup, c.sidCount]
  | .bankInterleaved => [c.laneCount, c.bankCount]

/-- The lane and the bank of a unit. -/
def cell (c : DramConfig) (unit : ℕ) : ℕ × ℕ :=
  match c.addressMapping with
  | .rowLocal => (unit / c.bankCount % c.laneCount, unit % c.bankCount)
  | .sidAware =>
    (unit / c.bankGroupsPerSid % c.laneCount,
      (unit / c.bankGroupsPerSid / c.laneCount / c.burstsPerRow / c.banksPerGroup % c.sidCount * c.bankGroupsPerSid +
        unit % c.bankGroupsPerSid) * c.banksPerGroup + unit / c.bankGroupsPerSid / c.laneCount / c.burstsPerRow % c.banksPerGroup)
  | .bankInterleaved => (unit % c.laneCount, rotatedBank (unit / c.laneCount % c.bankCount) c.bankCount c.banksPerGroup)

/-- The SIDs have all the bank groups. -/
def SidsCover (c : DramConfig) : Prop := c.addressMapping = .sidAware → c.sidCount * c.bankGroupsPerSid = c.bankGroupsPerRank

theorem unitBursts_pos (h : Geometry c) : 0 < unitBursts c := by
  unfold unitBursts
  split
  · exact h.row.1
  · exact Nat.one_pos
  · exact h.interleave.1

theorem unitBytes_pos (h : Geometry c) : 0 < unitBytes c := Nat.mul_pos h.burst (unitBursts_pos h)

theorem rotated_eq (steps : List ℕ) (bankCount banksPerGroup : ℕ) :
    rotated steps bankCount banksPerGroup = steps.map fun step => rotatedBank step bankCount banksPerGroup := by
  unfold rotated rotatedBank
  dsimp only
  split
  · exact (List.map_id' steps).symm
  · rfl

/-- The listed lanes and banks of a range are those of its units. -/
theorem lanesBanks_eq (hc : c.validate = .ok ()) (offset count : ℕ) :
    lanesBanks c offset count =
      if (turnRadices c).prod ≤ (offset + count - 1) / unitBytes c - offset / unitBytes c + 1 then .ok none
      else (arange (offset / unitBytes c) ((offset + count - 1) / unitBytes c)).map fun units => some (units.map (cell c)) := by
  have h := geometry_of_validate hc
  unfold lanesBanks turnRadices
  cases hmode : c.addressMapping with
  | rowLocal =>
    have hunit : unitBytes c = c.rowBytes := by
      rw [unitBytes, unitBursts, hmode, h.row.2, mul_comm]
    have hcell : cell c = fun unit => (unit / c.bankCount % c.laneCount, unit % c.bankCount) := by
      funext unit
      simp only [cell, hmode]
    simp only [hunit, List.prod_cons, List.prod_nil, mul_one, mul_comm c.bankCount]
    split
    · rfl
    · cases arange (offset / c.rowBytes) ((offset + count - 1) / c.rowBytes) with
      | error e => rfl
      | ok units => rw [hcell]; rfl
  | sidAware =>
    have hunit : unitBytes c = c.burstBytes := by rw [unitBytes, unitBursts, hmode, mul_one]
    have hcell : cell c = fun unit => (unit / c.bankGroupsPerSid % c.laneCount,
        (unit / c.bankGroupsPerSid / c.laneCount / c.burstsPerRow / c.banksPerGroup % c.sidCount * c.bankGroupsPerSid +
          unit % c.bankGroupsPerSid) * c.banksPerGroup + unit / c.bankGroupsPerSid / c.laneCount / c.burstsPerRow % c.banksPerGroup) := by
      funext unit
      simp only [cell, hmode]
    simp only [hunit, List.prod_cons, List.prod_nil, mul_one, mul_assoc]
    split
    · rfl
    · cases arange (offset / c.burstBytes) ((offset + count - 1) / c.burstBytes) with
      | error e => rfl
      | ok units => rw [hcell]; rfl
  | bankInterleaved =>
    have hunit : unitBytes c = c.interleaveBytes.getD c.burstBytes := by
      rw [unitBytes, unitBursts, hmode, interleave_bytes hc]
    have hcell : cell c = fun unit => (unit % c.laneCount, rotatedBank (unit / c.laneCount % c.bankCount) c.bankCount c.banksPerGroup) := by
      funext unit
      simp only [cell, hmode]
    simp only [hunit, List.prod_cons, List.prod_nil, mul_one]
    split
    · rfl
    · cases arange (offset / c.interleaveBytes.getD c.burstBytes) ((offset + count - 1) / c.interleaveBytes.getD c.burstBytes) with
      | error e => rfl
      | ok units =>
        rw [hcell]
        show Except.ok (some _) = Except.ok (some _)
        rw [rotated_eq, List.map_map, List.zip_map']
        rfl

theorem rotatedBank_onto {bankCount banksPerGroup bank : ℕ} (hg : banksPerGroup ∣ bankCount) (hbank : bank < bankCount) :
    ∃ step < bankCount, rotatedBank step bankCount banksPerGroup = bank := by
  have hspec := fun (step : Fin bankCount) => rotatedBank_spec hg step.isLt
  have hinj : Function.Injective fun step : Fin bankCount =>
      (⟨rotatedBank step bankCount banksPerGroup, (hspec step).1⟩ : Fin bankCount) := by
    intro a b hab
    have hsame : rotatedBank a bankCount banksPerGroup = rotatedBank b bankCount banksPerGroup := congrArg Fin.val hab
    exact Fin.ext (by rw [← (hspec a).2, hsame, (hspec b).2])
  obtain ⟨step, hstep⟩ := Finite.surjective_of_injective hinj ⟨bank, hbank⟩
  exact ⟨step, step.isLt, congrArg Fin.val hstep⟩

theorem ranks_of_sid (hc : c.validate = .ok ()) (hmode : c.addressMapping = .sidAware) : c.ranksPerChannel = 1 := by
  simp only [DramConfig.validate, bind_ok, refuse_ok, exists_and_left, exists_const] at hc
  obtain ⟨-, hfr, -, -, hjedec, -⟩ := hc
  have hcontrol : c.jedecHbm = true := by
    by_contra hne
    exact hfr ⟨.inl hmode, .inr (.inr (Bool.eq_false_iff.2 hne))⟩
  by_contra hne
  exact hjedec ⟨hcontrol, .inr (.inr (.inl hne))⟩

theorem groups_ge (c : DramConfig) : c.sidCount * c.bankGroupsPerSid ≤ c.bankGroupsPerRank := Nat.mul_div_le _ _

theorem cell_lt (h : Geometry c) (unit : ℕ) : (cell c unit).1 < c.laneCount ∧ (cell c unit).2 < c.bankCount := by
  unfold cell
  cases hmode : c.addressMapping with
  | rowLocal => exact ⟨Nat.mod_lt _ h.laneCount, Nat.mod_lt _ h.bankCount⟩
  | sidAware =>
    refine ⟨Nat.mod_lt _ h.laneCount, ?_⟩
    have hgroup := two_digits_lt (Nat.mod_lt (unit / c.bankGroupsPerSid / c.laneCount / c.burstsPerRow / c.banksPerGroup)
      (sidCount_pos c)) (Nat.mod_lt unit (h.sid hmode).1)
    have hbank := two_digits_lt (hgroup.trans_le (groups_ge c))
      (Nat.mod_lt (unit / c.bankGroupsPerSid / c.laneCount / c.burstsPerRow) h.banks)
    refine hbank.trans_le ?_
    rw [DramConfig.bankCount, mul_assoc]
    exact Nat.le_mul_of_pos_left _ h.ranks
  | bankInterleaved =>
    exact ⟨Nat.mod_lt _ h.laneCount, (rotatedBank_spec (Nat.dvd_mul_left _ _) (Nat.mod_lt _ h.bankCount)).1⟩

/-- **A whole turn reaches every lane's every bank**, where the SIDs have them all. -/
theorem cell_onto (hc : c.validate = .ok ()) (hcover : SidsCover c) {lane bank start stop : ℕ} (hlane : lane < c.laneCount)
    (hbank : bank < c.bankCount) (hlong : (turnRadices c).prod ≤ stop - start) :
    ∃ unit, start ≤ unit ∧ unit < stop ∧ cell c unit = (lane, bank) := by
  have h := geometry_of_validate hc
  unfold turnRadices at hlong
  cases hmode : c.addressMapping with
  | rowLocal =>
    rw [hmode] at hlong
    obtain ⟨unit, hlo, hhi, hdigits⟩ := @turn_lowDigits [bank, lane] _ (.cons hbank (.cons hlane .nil)) start stop hlong
    simp only [lowDigits, List.cons.injEq, and_true] at hdigits
    refine ⟨unit, hlo, hhi, ?_⟩
    simp only [cell, hmode, hdigits]
  | sidAware =>
    rw [hmode] at hlong
    have hper := (h.sid hmode).1
    have hgroup : bank / c.banksPerGroup < c.sidCount * c.bankGroupsPerSid := by
      rw [hcover hmode, Nat.div_lt_iff_lt_mul h.banks]
      rwa [DramConfig.bankCount, ranks_of_sid hc hmode, one_mul] at hbank
    obtain ⟨unit, hlo, hhi, hdigits⟩ := @turn_lowDigits
      [bank / c.banksPerGroup % c.bankGroupsPerSid, lane, 0, bank % c.banksPerGroup, bank / c.banksPerGroup / c.bankGroupsPerSid] _
      (.cons (Nat.mod_lt _ hper) (.cons hlane (.cons h.row.1 (.cons (Nat.mod_lt _ h.banks)
        (.cons ((Nat.div_lt_iff_lt_mul hper).2 hgroup) .nil))))) start stop hlong
    simp only [lowDigits, List.cons.injEq, and_true] at hdigits
    obtain ⟨hlow, hlaneOf, -, hinGroup, hsid⟩ := hdigits
    refine ⟨unit, hlo, hhi, ?_⟩
    simp only [cell, hmode, hlow, hlaneOf, hinGroup, hsid, Nat.div_add_mod']
  | bankInterleaved =>
    rw [hmode] at hlong
    obtain ⟨step, hstep, hrotated⟩ := @rotatedBank_onto c.bankCount c.banksPerGroup bank (Nat.dvd_mul_left _ _) hbank
    obtain ⟨unit, hlo, hhi, hdigits⟩ := @turn_lowDigits [lane, step] _ (.cons hlane (.cons hstep .nil)) start stop hlong
    simp only [lowDigits, List.cons.injEq, and_true] at hdigits
    refine ⟨unit, hlo, hhi, ?_⟩
    simp only [cell, hmode, hdigits, hrotated]

/-! ## What an address is mapped to -/

/-- A place is at the cell of its unit. -/
theorem place_cell {offset : ℕ} {p : Place} (hp : c.place offset = .ok p) :
    (p.lane, p.flatBank c) = cell c (offset / c.burstBytes / unitBursts c) := by
  unfold DramConfig.place at hp
  unfold cell unitBursts
  cases hmode : c.addressMapping with
  | rowLocal =>
    simp only [hmode, Except.ok.injEq] at hp
    subst hp
    simp only [DramConfig.rowLocalPlace, flatBank_placeBank]
    rfl
  | sidAware =>
    simp only [hmode, DramConfig.sidAwarePlace, bind_ok, refuse_ok] at hp
    obtain ⟨-, -, hp⟩ := hp
    obtain rfl := Except.ok.inj hp
    simp only [Place.flatBank, Nat.div_one, zero_mul, zero_add]
  | bankInterleaved =>
    simp only [hmode, Except.ok.injEq] at hp
    subst hp
    simp only [DramConfig.interleavedPlace, flatBank_placeBank]
    rfl

/-- A bank of a lane of a die of a stack. -/
abbrev Coordinate := ℕ × ℕ × ℕ × ℕ

/-- The bank an address is mapped to. -/
def coordinate (c : DramConfig) (m : AddressMapping) : Coordinate :=
  (m.stack, m.die, m.lane, m.rank * (c.bankGroupsPerRank * c.banksPerGroup) + (m.bankGroup * c.banksPerGroup + m.bank))

/-- The command path of a mapped address: its stack's channel under JEDEC HBM control, else its lane, unless all share one. -/
def commandPath (c : DramConfig) (sharedCommandResource : Bool) (m : AddressMapping) : ℕ :=
  if c.jedecHbm then m.stack * c.channels + m.channel else if sharedCommandResource then 0 else m.lane

/-- The cell of an address's unit. -/
def cellAt (c : DramConfig) (address : ℕ) : ℕ × ℕ := cell c (address % c.perDie / unitBytes c)

theorem local_eq (c : DramConfig) (address : ℕ) : c.local address = address % c.perDie := Nat.mod_mul_right_mod _ _ _

/-- What is known of the mapping of an address's burst. -/
structure AtCell (c : DramConfig) (address : ℕ) (m : AddressMapping) : Prop where
  cell : (m.lane, (coordinate c m).2.2.2) = cellAt c address
  stack : m.stack = if c.independentStacks then m.lane / c.lanesPerStack else address / c.perStack
  die : m.die = address % c.perStack / c.perDie
  channel : m.channel = m.lane % c.lanesPerStack / c.pseudoChannelsPerChannel / c.subchannelsPerChannel % c.channels

/-- **An address's burst is mapped to the address's cell**, of its die. -/
theorem burst_mapped (h : Geometry c) {address : ℕ} (ha : address < c.effectiveCapacityBytes) (hb : ¬c.beyondSids address) :
    ∃ m, mapDramAddress c (address / c.burstBytes * c.burstBytes) = .ok m ∧ AtCell c address m := by
  have hle : address / c.burstBytes * c.burstBytes ≤ address := Nat.div_mul_le_self _ _
  have hbelow := hle.trans_lt ha
  have hinside : ¬c.beyondSids (address / c.burstBytes * c.burstBytes) := fun hover => hb ⟨hover.1, hover.2.trans hle⟩
  obtain ⟨p, hp, -⟩ := (place_placed h (Nat.mod_lt _ h.perDie_pos)).2 (mt (beyondSids_local h hbelow).1 hinside)
  obtain ⟨m, hm, ⟨hlane, hrank, hgroup, hbank, -, -⟩, hstack, hdie, hchannel, -, -⟩ := (mapDramAddress_place hbelow).2 p hp
  -- the burst has the address's die, and its place in it
  have hwhole : ∀ n, address / c.burstBytes * c.burstBytes / (c.burstBytes * n) = address / (c.burstBytes * n) := fun n => by
    rw [← Nat.div_div_eq_div_mul, ← Nat.div_div_eq_div_mul, Nat.mul_div_cancel _ h.burst]
  have hpart : ∀ n, address / c.burstBytes * c.burstBytes % (c.burstBytes * n) / c.burstBytes = address % (c.burstBytes * n) / c.burstBytes :=
    fun n => by rw [Nat.mod_mul_right_div_self, Nat.mod_mul_right_div_self, Nat.mul_div_cancel _ h.burst]
  have hcell := place_cell hp
  rw [← DramConfig.local, local_eq, h.perDie, hpart, Nat.div_div_eq_div_mul, ← h.perDie, ← unitBytes] at hcell
  refine ⟨m, hm, ?_, ?_, ?_, ?_⟩
  · rw [cellAt, ← hcell]
    simp only [coordinate, Place.flatBank, hlane, hrank, hgroup, hbank]
  · rw [hstack, hlane, DramConfig.perStack, h.perDie, mul_assoc, hwhole]
  · rw [hdie, DramConfig.perStack, Nat.mod_mul_right_div_self, Nat.mod_mul_right_div_self, h.perDie, hwhole]
  · rw [hchannel, hlane]

/-! ## Keys -/

/-- The key of an address's bank. -/
def keyAt (c : DramConfig) (address : ℕ) : ℕ :=
  (address / c.perDie * c.laneCount + (cellAt c address).1) * c.bankCount + (cellAt c address).2

/-- The path a key is charged on. -/
def keyPath (c : DramConfig) (sharedCommandResource : Bool) (key : ℕ) : ℕ :=
  lanePath c sharedCommandResource (key / c.bankCount / c.laneCount / c.addressableDieCount) (key / c.bankCount % c.laneCount)

/-- The die of an address, from its stack and its die there. -/
theorem die_eq (c : DramConfig) (address : ℕ) :
    address / c.perStack * c.addressableDieCount + address % c.perStack / c.perDie = address / c.perDie := by
  rw [DramConfig.perStack, ← Nat.div_div_eq_div_mul, Nat.mod_mul_right_div_self, Nat.div_add_mod']

theorem cellAt_lt (h : Geometry c) (address : ℕ) : (cellAt c address).1 < c.laneCount ∧ (cellAt c address).2 < c.bankCount :=
  cell_lt h _

theorem keyAt_read (h : Geometry c) (address : ℕ) : keyAt c address / c.bankCount % c.laneCount = (cellAt c address).1 ∧
    keyAt c address % c.bankCount = (cellAt c address).2 ∧ keyAt c address / c.bankCount / c.laneCount = address / c.perDie := by
  obtain ⟨hlane, hbank⟩ := cellAt_lt h address
  obtain ⟨hdiv, hmod⟩ := two_digits_div (x := address / c.perDie * c.laneCount + (cellAt c address).1) hbank
  obtain ⟨hdiv', hmod'⟩ := two_digits_div (x := address / c.perDie) hlane
  refine ⟨?_, hmod, ?_⟩
  · rw [keyAt, hdiv]
    exact hmod'
  · rw [keyAt, hdiv]
    exact hdiv'

theorem keyAt_lt (h : Geometry c) {address : ℕ} (ha : address < c.effectiveCapacityBytes) : keyAt c address < totalBanks c := by
  obtain ⟨hlane, hbank⟩ := cellAt_lt h address
  have hdie : address / c.perDie < c.addressableStackCount * c.addressableDieCount := by
    have hstack := h.below ha
    rw [DramConfig.perStack, ← Nat.div_div_eq_div_mul, Nat.div_lt_iff_lt_mul h.dies.1] at hstack
    exact hstack
  exact two_digits_lt (two_digits_lt hdie hlane) hbank

theorem keyPath_keyAt (h : Geometry c) (sharedCommandResource : Bool) (address : ℕ) :
    keyPath c sharedCommandResource (keyAt c address) =
      lanePath c sharedCommandResource (address / c.perStack) (cellAt c address).1 := by
  obtain ⟨hlane, -, hdie⟩ := keyAt_read h address
  rw [keyPath, hlane, hdie, DramConfig.perStack, Nat.div_div_eq_div_mul]

/-! ## A die's part of a range -/

/-- The keys of a range. -/
def keysOf (c : DramConfig) (address stop : ℕ) : Finset ℕ := (Finset.Ico address stop).image (keyAt c)

/-- The range has as many units as a turn. -/
def WholeTurn (c : DramConfig) (offset count : ℕ) : Prop :=
  (turnRadices c).prod ≤ (offset + count - 1) / unitBytes c - offset / unitBytes c + 1

/-- A range in one die, whose units fit, and that reaches all banks where it is a whole turn. -/
structure Part (c : DramConfig) (address stop : ℕ) : Prop where
  lt : address < stop
  die : stop ≤ (address / c.perDie + 1) * c.perDie
  below : stop ≤ c.effectiveCapacityBytes
  fits : ¬WholeTurn c (address % c.perDie) (stop - address) → (address % c.perDie + (stop - address) - 1) / unitBytes c < 2 ^ 63
  covers : WholeTurn c (address % c.perDie) (stop - address) → SidsCover c

namespace Part

variable {address stop : ℕ} (part : Part c address stop)

include part

theorem same_die (h : Geometry c) {j : ℕ} (hj : j < stop - address) :
    (address + j) / c.perDie = address / c.perDie ∧ (address + j) % c.perDie = address % c.perDie + j := by
  have hpos := h.perDie_pos
  have hdie := part.die
  have hsplit := Nat.div_add_mod' address c.perDie
  rw [Nat.add_mul, one_mul] at hdie
  have hlt : address % c.perDie + j < c.perDie := by omega
  obtain ⟨hdiv, hmod⟩ := two_digits_div (x := address / c.perDie) hlt
  rw [← Nat.add_assoc, hsplit] at hdiv hmod
  exact ⟨hdiv, hmod⟩

/-- **The lanes and banks of a part are its addresses'.** -/
theorem lanesBanks (hc : c.validate = .ok ()) : ∃ mapped, lanesBanks c (address % c.perDie) (stop - address) = .ok mapped ∧
    ∀ pair, pair ∈ mapped.getD (everyBank c) ↔ ∃ j < stop - address, cellAt c (address + j) = pair := by
  have h := geometry_of_validate hc
  have hcount : 0 < stop - address := Nat.sub_pos_of_lt part.lt
  have hcell : ∀ j < stop - address, cellAt c (address + j) = cell c ((address % c.perDie + j) / unitBytes c) := by
    intro j hj
    rw [cellAt, (part.same_die h hj).2]
  rw [lanesBanks_eq hc]
  by_cases hturn : WholeTurn c (address % c.perDie) (stop - address)
  · rw [if_pos (show (turnRadices c).prod ≤ _ from hturn)]
    refine ⟨none, rfl, fun pair => ?_⟩
    rw [Option.getD_none, everyBank, List.mem_flatMap]
    constructor
    · rintro ⟨lane, hlane, hpair⟩
      obtain ⟨bank, hbank, rfl⟩ := List.mem_map.1 hpair
      have hlong : (turnRadices c).prod ≤
          (address % c.perDie + (stop - address) - 1) / unitBytes c + 1 - address % c.perDie / unitBytes c := by
        have hle : address % c.perDie / unitBytes c ≤ (address % c.perDie + (stop - address) - 1) / unitBytes c :=
          Nat.div_le_div_right (by omega)
        unfold WholeTurn at hturn
        omega
      obtain ⟨unit, hlo, hhi, hunit⟩ := cell_onto hc (part.covers hturn) (List.mem_range.1 hlane) (List.mem_range.1 hbank) hlong
      obtain ⟨j, hj, rfl⟩ := (quotient_iff (unitBytes_pos h) hcount).1 ⟨hlo, Nat.le_of_lt_succ hhi⟩
      exact ⟨j, hj, (hcell j hj).trans hunit⟩
    · rintro ⟨j, hj, rfl⟩
      obtain ⟨hlane, hbank⟩ := cellAt_lt h (address + j)
      exact ⟨_, List.mem_range.2 hlane, List.mem_map.2 ⟨_, List.mem_range.2 hbank, rfl⟩⟩
  · rw [if_neg (show ¬(turnRadices c).prod ≤ _ from hturn), arange, if_pos (part.fits hturn)]
    refine ⟨_, rfl, fun pair => ?_⟩
    rw [Option.getD_some, List.mem_map]
    constructor
    · rintro ⟨unit, hunit, rfl⟩
      rw [List.mem_range'_1] at hunit
      obtain ⟨j, hj, rfl⟩ := (quotient_iff (unitBytes_pos h) hcount).1 ⟨hunit.1, by omega⟩
      exact ⟨j, hj, hcell j hj⟩
    · rintro ⟨j, hj, rfl⟩
      obtain ⟨hlo, hhi⟩ := (quotient_iff (unitBytes_pos h) hcount).2 ⟨j, hj, rfl⟩
      exact ⟨_, List.mem_range'_1.2 ⟨hlo, by omega⟩, (hcell j hj).symm⟩

/-- The keys of a part. -/
theorem keys (hc : c.validate = .ok ()) {pairs : List (ℕ × ℕ)} (hpairs : ∀ pair, pair ∈ pairs ↔ ∃ j < stop - address, cellAt c (address + j) = pair)
    (key : ℕ) : key ∈ pairs.map (fun pair => ((address / c.perStack * c.addressableDieCount + address % c.perStack / c.perDie) *
      c.laneCount + pair.1) * c.bankCount + pair.2) ↔ key ∈ keysOf c address stop := by
  have h := geometry_of_validate hc
  rw [die_eq, List.mem_map, keysOf, Finset.mem_image]
  constructor
  · rintro ⟨pair, hpair, rfl⟩
    obtain ⟨j, hj, rfl⟩ := (hpairs pair).1 hpair
    refine ⟨address + j, Finset.mem_Ico.2 ⟨Nat.le_add_right _ _, by omega⟩, ?_⟩
    rw [keyAt, (part.same_die h hj).1]
  · rintro ⟨a, ha, rfl⟩
    obtain ⟨hlo, hhi⟩ := Finset.mem_Ico.1 ha
    obtain ⟨j, rfl⟩ := Nat.exists_eq_add_of_le hlo
    have hj : j < stop - address := by omega
    exact ⟨_, (hpairs _).2 ⟨j, hj, rfl⟩, by rw [keyAt, (part.same_die h hj).1]⟩

theorem keys_lt (h : Geometry c) {key : ℕ} (hkey : key ∈ keysOf c address stop) : key < totalBanks c := by
  obtain ⟨a, ha, rfl⟩ := Finset.mem_image.1 hkey
  exact keyAt_lt h ((Finset.mem_Ico.1 ha).2.trans_le part.below)

end Part

/-- The lane at a key's first place among the keys is the key's. -/
theorem lane_of_key {base : ℕ} {pairs : List (ℕ × ℕ)} (hpairs : ∀ pair ∈ pairs, pair.1 < c.laneCount ∧ pair.2 < c.bankCount) {key : ℕ}
    (hkey : key ∈ pairs.map fun pair => (base * c.laneCount + pair.1) * c.bankCount + pair.2) :
    (pairs.map Prod.fst).getD ((pairs.map fun pair => (base * c.laneCount + pair.1) * c.bankCount + pair.2).idxOf key) 0 =
      key / c.bankCount % c.laneCount ∧ key / c.bankCount / c.laneCount = base := by
  have hlt := List.idxOf_lt_length_iff.2 hkey
  have hget := List.getElem_idxOf hlt
  generalize List.idxOf key _ = i at hlt hget ⊢
  rw [List.length_map] at hlt
  rw [List.getElem_map] at hget
  obtain ⟨hlane, hbank⟩ := hpairs pairs[i] (List.getElem_mem hlt)
  obtain ⟨hdiv, -⟩ := two_digits_div (x := base * c.laneCount + pairs[i].1) hbank
  obtain ⟨hdiv', hmod'⟩ := two_digits_div (x := base) hlane
  rw [← hget, hdiv, hdiv', hmod', List.getD_eq_getElem?_getD, List.getElem?_map, List.getElem?_eq_getElem hlt]
  exact ⟨rfl, rfl⟩

/-! ## Ranges over dies -/

/-- Where an address's die starts in a range. -/
def partStart (c : DramConfig) (start address : ℕ) : ℕ := max start (address / c.perDie * c.perDie)

def partStop (c : DramConfig) (stop address : ℕ) : ℕ := min stop ((address / c.perDie + 1) * c.perDie)

/-- An address's die is reached by a whole turn. -/
def InTurn (c : DramConfig) (start stop address : ℕ) : Prop :=
  WholeTurn c (partStart c start address % c.perDie) (partStop c stop address - partStart c start address)

/-- What a range must be for the device to mirror the map: its addresses are mapped, in each die that a whole turn
reaches the SIDs have all the banks, and in each other die the units are numbers of an `np.int64`. -/
structure Mirrored (c : DramConfig) (start stop : ℕ) : Prop where
  mapped : ∀ a, start ≤ a → a < stop → ¬c.beyondSids a
  covered : ∀ a, start ≤ a → a < stop → InTurn c start stop a → SidsCover c
  fits : ∀ a, start ≤ a → a < stop → ¬InTurn c start stop a → a % c.perDie / unitBytes c < 2 ^ 63

namespace Mirrored

variable {start stop : ℕ} (hm : Mirrored c start stop)

include hm

/-- The first die's part of a range. -/
theorem part (h : Geometry c) (hlt : start < stop) (hbelow : stop ≤ c.effectiveCapacityBytes) : Part c start (partStop c stop start) := by
  have hpos := h.perDie_pos
  have hhere : start < (start / c.perDie + 1) * c.perDie := by
    have hsplit := Nat.div_add_mod' start c.perDie
    have hmod := Nat.mod_lt start hpos
    rw [Nat.add_mul, one_mul]
    omega
  have hnext : start < partStop c stop start := lt_min hlt hhere
  have hle : partStop c stop start ≤ stop := min_le_left _ _
  have hdie : partStop c stop start ≤ (start / c.perDie + 1) * c.perDie := min_le_right _ _
  have hfirst : partStart c start start = start := max_eq_left (Nat.div_mul_le_self _ _)
  refine ⟨hnext, hdie, hle.trans hbelow, fun hturn => ?_, fun hturn => ?_⟩
  · -- the last address of the part
    obtain ⟨j, hj⟩ : ∃ j, partStop c stop start - 1 = start + j := Nat.exists_eq_add_of_le (by omega)
    have hlast : start % c.perDie + j < c.perDie := by
      have hsplit := Nat.div_add_mod' start c.perDie
      rw [Nat.add_mul, one_mul] at hdie
      omega
    obtain ⟨hdiv, hmod⟩ := two_digits_div (x := start / c.perDie) hlast
    rw [← Nat.add_assoc, Nat.div_add_mod'] at hdiv hmod
    have hsame : InTurn c start stop (start + j) ↔ WholeTurn c (start % c.perDie) (partStop c stop start - start) := by
      have hstart : partStart c start (start + j) = start := by
        rw [partStart, hdiv]
        exact hfirst
      have hstop : partStop c stop (start + j) = partStop c stop start := by
        rw [partStop, hdiv]
        rfl
      rw [InTurn, hstart, hstop]
    have hfits := hm.fits (start + j) (Nat.le_add_right _ _) (by omega) (mt hsame.1 hturn)
    rw [hmod] at hfits
    rwa [show start % c.perDie + (partStop c stop start - start) - 1 = start % c.perDie + j by omega]
  · refine hm.covered start le_rfl hlt ?_
    rw [InTurn, hfirst]
    exact hturn

/-- The rest of a range. -/
theorem rest (h : Geometry c) : Mirrored c (partStop c stop start) stop := by
  by_cases hend : stop ≤ partStop c stop start
  · exact ⟨fun a hlo hhi => by omega, fun a hlo hhi => by omega, fun a hlo hhi => by omega⟩
  · have hnext : partStop c stop start = (start / c.perDie + 1) * c.perDie := by
      unfold partStop at hend ⊢
      omega
    have hle : start ≤ partStop c stop start := by
      have hsplit := Nat.div_add_mod' start c.perDie
      have hmod := Nat.mod_lt start h.perDie_pos
      rw [hnext, Nat.add_mul, one_mul]
      omega
    have hstart : ∀ a, partStop c stop start ≤ a → partStart c (partStop c stop start) a = partStart c start a := by
      intro a ha
      have hdie : start / c.perDie + 1 ≤ a / c.perDie := (Nat.le_div_iff_mul_le h.perDie_pos).2 (hnext ▸ ha)
      have hbound : partStop c stop start ≤ a / c.perDie * c.perDie := hnext ▸ Nat.mul_le_mul_right _ hdie
      rw [partStart, partStart, max_eq_right hbound, max_eq_right (hle.trans hbound)]
    have hturn : ∀ a, partStop c stop start ≤ a → (InTurn c (partStop c stop start) stop a ↔ InTurn c start stop a) := by
      intro a ha
      rw [InTurn, InTurn, hstart a ha]
    refine ⟨fun a hlo hhi => hm.mapped a (hle.trans hlo) hhi, fun a hlo hhi hin => ?_, fun a hlo hhi hout => ?_⟩
    · exact hm.covered a (hle.trans hlo) hhi ((hturn a hlo).1 hin)
    · exact hm.fits a (hle.trans hlo) hhi (mt (hturn a hlo).2 hout)

end Mirrored

theorem keysOf_union {a b n : ℕ} (ha : a ≤ n) (hb : n ≤ b) : keysOf c a n ∪ keysOf c n b = keysOf c a b := by
  rw [keysOf, keysOf, keysOf, ← Finset.image_union, Finset.Ico_union_Ico_eq_Ico ha hb]

end HeteroSim.RowBounds
