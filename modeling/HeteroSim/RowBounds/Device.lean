/-
Penalties for the banks an access reaches first (`native_row_bounds`). The
device maps a range to lanes and banks by vectors, a die at a time, and takes
a range of a whole turn to reach every bank.
-/
import HeteroSim.Address.Sound

namespace HeteroSim.RowBounds

open Address

inductive Raised
  /-- A number beyond `np.int64`. -/
  | overflow
  /-- An index beyond an array. -/
  | index
  /-- The loop has not ended. -/
  | outOfFuel
deriving DecidableEq

/-! ## The penalty -/

/-- The timings of a `DramConfig` that a penalty adds up. -/
structure Timings where
  columnSameGroupNs : ℚ
  columnDifferentGroupNs : ℚ
  activateSameGroupNs : ℚ
  activateDifferentGroupNs : ℚ
  fourActivateWindowNs : ℚ
  writeToReadSameGroupNs : ℚ
  writeToReadDifferentGroupNs : ℚ
  openNs : ℚ
  closeNs : ℚ
  readRecoveryNs : ℚ
  writeRecoveryNs : ℚ
  commandClockNs : ℚ
  activateCommandCycles : ℚ
  prechargeCommandCycles : ℚ
  activateToReadNs : ℚ
  activateToWriteNs : ℚ
  prechargeToActivateNs : ℚ
  minimumActiveNs : ℚ
  activateCycleNs : ℚ
  prechargeToPrechargeNs : ℚ

/-- `bank_group_timing_enabled` -/
def Timings.bankGroupTimingEnabled (t : Timings) : Bool :=
  [t.columnSameGroupNs, t.columnDifferentGroupNs, t.activateSameGroupNs, t.activateDifferentGroupNs, t.fourActivateWindowNs,
    t.writeToReadSameGroupNs, t.writeToReadDifferentGroupNs].any fun ns => 0 < ns

/-- `first_access_penalty_ns` -/
def firstAccessPenaltyNs (c : DramConfig) (t : Timings) : ℚ :=
  let spacing := max (max t.fourActivateWindowNs t.activateSameGroupNs) t.activateDifferentGroupNs
  if c.jedecHbm then
    let commands := (t.activateCommandCycles + t.prechargeCommandCycles + 2) * t.commandClockNs
    max (t.minimumActiveNs + t.prechargeToActivateNs) t.activateCycleNs + max t.activateToReadNs t.activateToWriteNs + spacing +
      t.prechargeToPrechargeNs + commands
  else
    let recovery := max t.readRecoveryNs t.writeRecoveryNs
    recovery + t.closeNs + t.openNs + if t.bankGroupTimingEnabled then spacing else 0

/-! ## Lanes and banks of a range -/

/-- `np.arange(first, last + 1, dtype=np.int64)` -/
def arange (first last : ℕ) : Except Raised (List ℕ) :=
  if last < 2 ^ 63 then .ok (List.range' first (last + 1 - first)) else .error .overflow

/-- `_rotated` -/
def rotated (steps : List ℕ) (bankCount banksPerGroup : ℕ) : List ℕ :=
  let unit := rotationUnit bankCount banksPerGroup
  let groups := rotationGroups bankCount banksPerGroup
  if groups ≤ 1 then steps
  else steps.map fun step => step / unit * unit + step % unit % groups * banksPerGroup + step % unit / groups

/-- `_lanes_banks`: none where the range reaches them all. -/
def lanesBanks (c : DramConfig) (offset count : ℕ) : Except Raised (Option (List (ℕ × ℕ))) :=
  match c.addressMapping with
  | .rowLocal =>
    let first := offset / c.rowBytes
    let last := (offset + count - 1) / c.rowBytes
    if c.laneCount * c.bankCount ≤ last - first + 1 then .ok none
    else do
      let stripes ← arange first last
      return some (stripes.map fun stripe => (stripe / c.bankCount % c.laneCount, stripe % c.bankCount))
  | .sidAware =>
    let first := offset / c.burstBytes
    let last := (offset + count - 1) / c.burstBytes
    if c.bankGroupsPerSid * c.laneCount * c.burstsPerRow * c.banksPerGroup * c.sidCount ≤ last - first + 1 then .ok none
    else do
      let cursors ← arange first last
      return some (cursors.map fun cursor =>
        let block := cursor / c.bankGroupsPerSid
        let stripe := block / c.laneCount / c.burstsPerRow
        let sid := stripe / c.banksPerGroup % c.sidCount
        (block % c.laneCount,
          (sid * c.bankGroupsPerSid + cursor % c.bankGroupsPerSid) * c.banksPerGroup + stripe % c.banksPerGroup))
  | .bankInterleaved =>
    let interleave := c.interleaveBytes.getD c.burstBytes
    let first := offset / interleave
    let last := (offset + count - 1) / interleave
    if c.laneCount * c.bankCount ≤ last - first + 1 then .ok none
    else do
      let blocks ← arange first last
      return some ((blocks.map fun block => block % c.laneCount).zip
        (rotated (blocks.map fun block => block / c.laneCount % c.bankCount) c.bankCount c.banksPerGroup))

/-- Every lane's every bank. -/
def everyBank (c : DramConfig) : List (ℕ × ℕ) :=
  (List.range c.laneCount).flatMap fun lane => (List.range c.bankCount).map fun bank => (lane, bank)

/-! ## Devices -/

structure Device where
  config : DramConfig
  penalty : ℚ
  /-- `metadata["shared_command_resource"]` -/
  sharedCommandResource : Bool
  seen : List Bool
  unseen : ℕ
deriving DecidableEq

/-- The lanes' banks of all the dies. -/
def totalBanks (c : DramConfig) : ℕ := c.addressableStackCount * c.addressableDieCount * c.laneCount * c.bankCount

/-- `_Device.__init__` -/
def Device.new (c : DramConfig) (t : Timings) (sharedCommandResource : Bool) : Device :=
  ⟨c, firstAccessPenaltyNs c t, sharedCommandResource, List.replicate (totalBanks c) false, totalBanks c⟩

/-- `_paths`, of a lane. -/
def lanePath (c : DramConfig) (sharedCommandResource : Bool) (stack lane : ℕ) : ℕ :=
  if c.jedecHbm = false then if sharedCommandResource then 0 else lane
  else
    let stack := if c.independentStacks then lane / c.lanesPerStack else stack
    let channel := lane % c.lanesPerStack / c.pseudoChannelsPerChannel / c.subchannelsPerChannel % c.channels
    stack * c.channels + channel

/-- `np.unique` -/
def unique (keys : List ℕ) : List ℕ := keys.dedup.insertionSort (· ≤ ·)

namespace Device

/-- One die's part of a range. -/
def segment (d : Device) (address stop : ℕ) : Except Raised (List (ℕ × ℚ) × Device) := do
  let c := d.config
  let stack := address / c.perStack
  let die := address % c.perStack / c.perDie
  let mapped ← lanesBanks c (address % c.perDie) (stop - address)
  let pairs := mapped.getD (everyBank c)
  let keys := pairs.map fun pair => ((stack * c.addressableDieCount + die) * c.laneCount + pair.1) * c.bankCount + pair.2
  refuse (∃ key ∈ keys, d.seen.length ≤ key) .index
  let fresh := (unique keys).filter fun key => !d.seen.getD key false
  if fresh = [] then return ([], d)
  else
    let lanes := fresh.map fun key => (pairs.map Prod.fst).getD (keys.idxOf key) 0
    let paths := lanes.map (lanePath c d.sharedCommandResource stack)
    return ((unique paths).map fun path => (path, paths.count path * d.penalty),
      { d with
        seen := fresh.foldl (fun seen key => seen.set key true) d.seen
        unseen := d.unseen - fresh.length })

/-- The loop over the dies of a range. -/
def walk (d : Device) (stop : ℕ) : ℕ → ℕ → Except Raised (List (ℕ × ℚ) × Device)
  | fuel, address =>
    if address < stop ∧ d.unseen ≠ 0 then
      match fuel with
      | 0 => .error .outOfFuel
      | fuel + 1 => do
        let next := min stop ((address / d.config.perDie + 1) * d.config.perDie)
        let charged ← d.segment address next
        let rest ← charged.2.walk stop fuel next
        return (charged.1 ++ rest.1, rest.2)
    else .ok ([], d)

/-- `first_accesses`, fully consumed. -/
def firstAccesses (d : Device) (address byteCount : ℕ) : Except Raised (List (ℕ × ℚ) × Device) :=
  d.walk (address + byteCount) byteCount address

/-- One access after another, each an address and a byte count. -/
def run (d : Device) : List (ℕ × ℕ) → Except Raised (List (List (ℕ × ℚ)) × Device)
  | [] => .ok ([], d)
  | access :: accesses => do
    let charged ← d.firstAccesses access.1 access.2
    let rest ← charged.2.run accesses
    return (charged.1 :: rest.1, rest.2)

end Device

/-- What is charged to a path. -/
def chargedTo (charges : List (ℕ × ℚ)) (path : ℕ) : ℚ := ((charges.filter fun charge => charge.1 = path).map Prod.snd).sum

end HeteroSim.RowBounds
