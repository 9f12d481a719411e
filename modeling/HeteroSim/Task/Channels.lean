/-
The channels a range touches, found from the lanes of its blocks: a lane holds
a block of consecutive addresses, the lanes take turns, and a range with as
many blocks as lanes touches them all. Stacks that share their lanes share
the lanes' credits, under stack zero.
-/
import HeteroSim.Address.Sound
import HeteroSim.Task.Requests

namespace HeteroSim.Task

open HeteroSim.Address

variable {c : DramConfig}

/-! ## The lane of an address -/

/-- The bursts of a lane's block. -/
def laneBlockBursts (c : DramConfig) : ℕ :=
  match c.addressMapping with
  | .rowLocal => c.burstsPerRow * c.bankCount
  | .sidAware => c.bankGroupsPerSid
  | .bankInterleaved => c.interleaveBursts

theorem laneBlockBytes_eq (hc : c.validate = .ok ()) : laneBlockBytes c = c.burstBytes * laneBlockBursts c := by
  have h := geometry_of_validate hc
  unfold laneBlockBytes laneBlockBursts
  cases c.addressMapping with
  | rowLocal =>
    show c.rowBytes * c.bankCount = c.burstBytes * (c.burstsPerRow * c.bankCount)
    rw [h.row.2]
    ring
  | sidAware => rfl
  | bankInterleaved => exact interleave_bytes hc

theorem laneBlockBursts_pos (h : Geometry c) : 0 < laneBlockBursts c := by
  unfold laneBlockBursts
  cases hmode : c.addressMapping with
  | rowLocal => exact Nat.mul_pos h.row.1 h.bankCount
  | sidAware => exact (h.sid hmode).1
  | bankInterleaved => exact h.interleave.1

theorem lane_of_digits (p : Place) {n : ℕ} (h : c.read p = digits c.radices n) :
    p.lane = n / laneBlockBursts c % c.laneCount := by
  unfold laneBlockBursts
  unfold DramConfig.read DramConfig.radices at h
  cases hmode : c.addressMapping with
  | rowLocal =>
    simp only [hmode, digits, List.cons.injEq] at h
    rw [h.2.2.1, Nat.div_div_eq_div_mul]
  | sidAware =>
    simp only [hmode, digits, List.cons.injEq] at h
    exact h.2.1
  | bankInterleaved =>
    simp only [hmode, digits, List.cons.injEq] at h
    exact h.2.1

/-- Where there are several dies, each holds whole turns of the lanes. -/
theorem whole_turns (h : Geometry c) (hmode : c.addressMapping ≠ .sidAware) : ∃ turns,
    c.laneCount * c.bankCount * c.rowsPerBank * c.burstsPerRow = laneBlockBursts c * (c.laneCount * turns) := by
  unfold laneBlockBursts
  cases hmap : c.addressMapping with
  | sidAware => exact absurd hmap hmode
  | rowLocal => exact ⟨c.rowsPerBank, by ring⟩
  | bankInterleaved =>
    obtain ⟨-, blocks, hblocks⟩ := h.interleave
    refine ⟨c.bankCount * blocks, ?_⟩
    calc c.laneCount * c.bankCount * c.rowsPerBank * c.burstsPerRow
        = c.laneCount * c.bankCount * (c.rowsPerBank * c.burstsPerRow) := by ring
      _ = c.interleaveBursts * (c.laneCount * (c.bankCount * blocks)) := by rw [hblocks]; ring

/-- The lanes' turns go on from one die to the next. -/
theorem local_lane (h : Geometry c) {address : ℕ} (ha : address < c.effectiveCapacityBytes) :
    c.local address / c.burstBytes / laneBlockBursts c % c.laneCount =
      address / c.burstBytes / laneBlockBursts c % c.laneCount := by
  by_cases hmode : c.addressMapping = .sidAware
  · rw [h.local_of_sid hmode ha]
  · obtain ⟨turns, hturns⟩ := whole_turns h hmode
    rw [h.burstIndex address, hturns]
    generalize address / c.perStack * c.addressableDieCount + address % c.perStack / c.perDie = die
    have hsplit : die * (laneBlockBursts c * (c.laneCount * turns)) + c.local address / c.burstBytes =
        laneBlockBursts c * (c.laneCount * (die * turns)) + c.local address / c.burstBytes := by ring
    rw [hsplit, Nat.mul_add_div (laneBlockBursts_pos h), Nat.mul_add_mod]

/-- **A mapped address is on the lane of its block.** -/
theorem lane_eq (hc : c.validate = .ok ()) {address : ℕ} (ha : address < c.effectiveCapacityBytes) {m : AddressMapping}
    (hm : mapDramAddress c address = .ok m) : ∃ p, Maps c address p m ∧
      p.lane = address / laneBlockBytes c % c.laneCount := by
  have h := geometry_of_validate hc
  obtain ⟨hrefused, hmaps⟩ := mapDramAddress_spec h ha
  by_cases hb : c.beyondSids address
  · cases hm.symm.trans (hrefused hb)
  obtain ⟨p, m', hm', hp, hplaced⟩ := hmaps hb
  obtain rfl := Except.ok.inj (hm'.symm.trans hm)
  refine ⟨p, hp, ?_⟩
  rw [lane_of_digits p hplaced.digits, local_lane h ha, laneBlockBytes_eq hc, Nat.div_div_eq_div_mul]

/-! ## The lanes of a range -/

theorem mem_turns {n start stop lane : ℕ} (hn : 0 < n) :
    lane ∈ (if n ≤ stop - start then List.range n else (List.range' start (stop - start)).map (· % n)) ↔
      ∃ k, start ≤ k ∧ k < stop ∧ k % n = lane := by
  split
  · next hlong =>
    rw [List.mem_range]
    constructor
    · exact exists_turn hlong
    · rintro ⟨k, -, -, rfl⟩
      exact Nat.mod_lt k hn
  · rw [List.mem_map]
    constructor
    · rintro ⟨k, hk, rfl⟩
      rw [List.mem_range'_1] at hk
      exact ⟨k, hk.1, by omega, rfl⟩
    · rintro ⟨k, hlo, hhi, rfl⟩
      exact ⟨k, List.mem_range'_1.2 ⟨hlo, by omega⟩, rfl⟩

/-- The request touches the burst. -/
def TouchesBurst (c : DramConfig) (r : AccessRequest) (burst : ℕ) : Prop :=
  r.address / c.burstBytes ≤ burst ∧ burst ≤ (r.stop - 1) / c.burstBytes

/-- The blocks of a range are those of the bursts it touches. -/
theorem block_iff (hc : c.validate = .ok ()) {r : AccessRequest} {k : ℕ} :
    (r.address / laneBlockBytes c ≤ k ∧ k < (r.stop - 1) / laneBlockBytes c + 1) ↔
      ∃ burst, TouchesBurst c r burst ∧ burst * c.burstBytes / laneBlockBytes c = k := by
  have h := geometry_of_validate hc
  have hburst := h.burst
  have hbursts := laneBlockBursts_pos h
  have hblock : ∀ burst, burst * c.burstBytes / laneBlockBytes c = burst / laneBlockBursts c := fun burst => by
    rw [laneBlockBytes_eq hc, ← Nat.div_div_eq_div_mul, Nat.mul_div_cancel _ hburst]
  have hdiv : ∀ x, x / laneBlockBytes c = x / c.burstBytes / laneBlockBursts c := fun x => by
    rw [laneBlockBytes_eq hc, Nat.div_div_eq_div_mul]
  have hle : r.address / c.burstBytes ≤ (r.stop - 1) / c.burstBytes := by
    have := r.address_lt_stop
    exact Nat.div_le_div_right (by omega)
  simp only [hblock, hdiv, Nat.lt_succ_iff, TouchesBurst]
  constructor
  · rintro ⟨hlo, hhi⟩
    -- the first burst of the block, unless the range begins inside it
    refine ⟨max (r.address / c.burstBytes) (k * laneBlockBursts c), ⟨le_max_left _ _, max_le hle ?_⟩, ?_⟩
    · exact (Nat.mul_le_mul_right _ hhi).trans (Nat.div_mul_le_self _ _)
    · rcases le_total (r.address / c.burstBytes) (k * laneBlockBursts c) with hm | hm
      · rw [max_eq_right hm, Nat.mul_div_cancel _ hbursts]
      · rw [max_eq_left hm]
        exact le_antisymm hlo ((Nat.le_div_iff_mul_le hbursts).2 hm)
  · rintro ⟨burst, ⟨hlo, hhi⟩, rfl⟩
    exact ⟨Nat.div_le_div_right hlo, Nat.div_le_div_right hhi⟩

/-! ## The channels -/

/-- The credits a lane uses. -/
def laneChannel (c : DramConfig) (lane : ℕ) : ℕ × ℕ :=
  (if c.independentStacks then lane / c.lanesPerStack else 0,
    lane % c.lanesPerStack / c.pseudoChannelsPerChannel / c.subchannelsPerChannel % c.channels)

/-- The credits of a mapped burst: its stack's, if stacks have lanes of their
own, and its channel's. -/
def creditChannel (c : DramConfig) (m : AddressMapping) : ℕ × ℕ := (if c.independentStacks then m.stack else 0, m.channel)

theorem mem_dramRequestChannels (hc : c.validate = .ok ()) {r : AccessRequest} {p : ℕ × ℕ} :
    p ∈ dramRequestChannels c r ↔ ∃ burst, TouchesBurst c r burst ∧
      p = laneChannel c (burst * c.burstBytes / laneBlockBytes c % c.laneCount) := by
  have h := geometry_of_validate hc
  unfold dramRequestChannels
  dsimp only
  rw [List.mem_insertionSort, List.mem_dedup, List.mem_map]
  simp only [mem_turns h.laneCount]
  constructor
  · rintro ⟨_, ⟨k, hlo, hhi, rfl⟩, rfl⟩
    obtain ⟨burst, htouch, rfl⟩ := (block_iff hc).1 ⟨hlo, hhi⟩
    exact ⟨burst, htouch, rfl⟩
  · rintro ⟨burst, htouch, rfl⟩
    obtain ⟨hlo, hhi⟩ := (block_iff hc).2 ⟨burst, htouch, rfl⟩
    exact ⟨_, ⟨_, hlo, hhi, rfl⟩, rfl⟩

/-- The channels in the order of stacks and channels. -/
def ChannelOrder (a b : ℕ × ℕ) : Prop := a.1 < b.1 ∨ a.1 = b.1 ∧ a.2 ≤ b.2

theorem sorted_dramRequestChannels (c : DramConfig) (r : AccessRequest) :
    (dramRequestChannels c r).Nodup ∧ (dramRequestChannels c r).Pairwise ChannelOrder := by
  have htotal : Std.Total fun a b : ℕ × ℕ => a.1 < b.1 ∨ a.1 = b.1 ∧ a.2 ≤ b.2 := ⟨fun a b => by omega⟩
  have htrans : IsTrans (ℕ × ℕ) fun a b => a.1 < b.1 ∨ a.1 = b.1 ∧ a.2 ≤ b.2 := ⟨fun a b d => by omega⟩
  have hsorted : (dramRequestChannels c r).Pairwise fun a b => a.1 < b.1 ∨ a.1 = b.1 ∧ a.2 ≤ b.2 :=
    List.pairwise_insertionSort _ _
  exact ⟨(List.perm_insertionSort _ _).nodup_iff.2 (List.nodup_dedup _), hsorted⟩

/-- **The channels of a range are those of its bursts.** Every burst that is
mapped has its channel listed, and where all are mapped nothing else is; a
SID-aware configuration may refuse a burst. -/
theorem channels_exact {c : DramConfig} {r : AccessRequest} (hc : c.validate = .ok ()) (hr : validateDramRequest r c = .ok ()) :
    ((dramRequestChannels c r).Nodup ∧ (dramRequestChannels c r).Pairwise ChannelOrder) ∧
    (∀ burst m, TouchesBurst c r burst → mapDramAddress c (burst * c.burstBytes) = .ok m →
      creditChannel c m ∈ dramRequestChannels c r) ∧
    ((∀ burst, TouchesBurst c r burst → ∃ m, mapDramAddress c (burst * c.burstBytes) = .ok m) →
      ∀ p, p ∈ dramRequestChannels c r ↔ ∃ burst m, TouchesBurst c r burst ∧
        mapDramAddress c (burst * c.burstBytes) = .ok m ∧ p = creditChannel c m) := by
  have hinside : ∀ burst, TouchesBurst c r burst → burst * c.burstBytes < c.effectiveCapacityBytes := by
    intro burst hburst
    simp only [validateDramRequest, bind_ok, refuse_ok] at hr
    obtain ⟨-, -, -, -, hstop⟩ := hr
    have hlt := r.address_lt_stop
    have hle : burst * c.burstBytes ≤ r.stop - 1 :=
      (Nat.mul_le_mul_right _ hburst.2).trans (Nat.div_mul_le_self _ _)
    omega
  have hcredit : ∀ burst m, TouchesBurst c r burst → mapDramAddress c (burst * c.burstBytes) = .ok m →
      creditChannel c m = laneChannel c (burst * c.burstBytes / laneBlockBytes c % c.laneCount) := by
    intro burst m hburst hm
    obtain ⟨p, hp, hlane⟩ := lane_eq hc (hinside burst hburst) hm
    rw [← hlane, creditChannel, laneChannel, hp.wires.1, hp.stack]
    by_cases hown : c.independentStacks = true
    · simp only [if_pos hown]
    · simp only [if_neg hown]
  have hlisted : ∀ burst m, TouchesBurst c r burst → mapDramAddress c (burst * c.burstBytes) = .ok m →
      creditChannel c m ∈ dramRequestChannels c r := by
    intro burst m hburst hm
    exact (mem_dramRequestChannels hc).2 ⟨burst, hburst, hcredit burst m hburst hm⟩
  refine ⟨sorted_dramRequestChannels c r, hlisted, fun hall p => ⟨fun hp => ?_, ?_⟩⟩
  · obtain ⟨burst, hburst, rfl⟩ := (mem_dramRequestChannels hc).1 hp
    obtain ⟨m, hm⟩ := hall burst hburst
    exact ⟨burst, m, hburst, hm, (hcredit burst m hburst hm).symm⟩
  · rintro ⟨burst, m, hburst, hm, rfl⟩
    exact hlisted burst m hburst hm

/-- Stacks of 16 rows of one 64-byte burst, sharing one lane or not. -/
def twoStacks (independent : Bool) : DramConfig where
  kind := .ddr
  jedecHbm := false
  addressMapping := .bankInterleaved
  scheduler := .fcfs
  queueScope := .channel
  perStackBanks := false
  independentStacks := independent
  channels := 1
  subchannelsPerChannel := 1
  pseudoChannelsPerChannel := 1
  stackCount := 2
  diesPerStack := 1
  ranksPerChannel := 1
  bankGroupsPerRank := 1
  banksPerGroup := 1
  rowsPerBank := 16
  rowBytes := 64
  burstBytes := 64
  dataLanes := none
  interleaveBytes := none
  capacityBytes := none

/-- The first burst of the second stack. -/
def secondStack : AccessRequest := ⟨"r", .read, 1024, 64, 0, Nat.succ_pos 63⟩

theorem channels_exact_secondStack : ∃ m, mapDramAddress (twoStacks false) (16 * 64) = .ok m ∧
    creditChannel (twoStacks false) m ∈ dramRequestChannels (twoStacks false) secondStack :=
  ⟨_, rfl, (channels_exact (c := twoStacks false) (r := secondStack) (by decide) (by decide)).2.1 16 _
    ⟨by decide, by decide⟩ rfl⟩

/-- A burst of the second of two stacks that share their lane: it is mapped to
stack one, and uses the credits of stack zero. -/
theorem channels_exact_shared : (twoStacks false).validate = .ok () ∧ validateDramRequest secondStack (twoStacks false) = .ok () ∧
    TouchesBurst (twoStacks false) secondStack 16 ∧
    (∃ m, mapDramAddress (twoStacks false) (16 * 64) = .ok m ∧ m.stack = 1 ∧
      (m.stack, m.channel) ∉ dramRequestChannels (twoStacks false) secondStack) ∧
    dramRequestChannels (twoStacks false) secondStack = [(0, 0)] := by
  refine ⟨by decide, by decide, ⟨by decide, by decide⟩, ⟨_, rfl, by decide, by decide⟩, by decide⟩

end HeteroSim.Task
