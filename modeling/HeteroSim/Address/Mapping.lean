/-
Address mapping (`memory_mapping.py`) over the DRAM and NAND geometries of
`memory_types.py`: the checks a configuration passes at construction, and the
chains of divisions that place a burst or a page.
-/
import HeteroSim.MixedRadix
import HeteroSim.Raising

namespace HeteroSim.Address

/-! ## DRAM configurations -/

inductive MemoryKind
  | ddr
  | lpddr
  | hbm
  | gddr
deriving DecidableEq

inductive AddressMappingMode
  | bankInterleaved
  | rowLocal
  | sidAware
deriving DecidableEq

inductive Scheduler
  | fcfs
  | rowHitFirst
  | readWriteBatch
  | frFcfs
deriving DecidableEq

inductive QueueScope
  | device
  | channel
  | pc
deriving DecidableEq

/-- What the mapping reads of `DramConfig`, and what its checks compare it
with. -/
structure DramConfig where
  kind : MemoryKind
  jedecHbm : Bool
  addressMapping : AddressMappingMode
  scheduler : Scheduler
  queueScope : QueueScope
  perStackBanks : Bool
  independentStacks : Bool
  channels : ℕ
  subchannelsPerChannel : ℕ
  pseudoChannelsPerChannel : ℕ
  stackCount : ℕ
  diesPerStack : ℕ
  ranksPerChannel : ℕ
  bankGroupsPerRank : ℕ
  banksPerGroup : ℕ
  rowsPerBank : ℕ
  rowBytes : ℕ
  burstBytes : ℕ
  dataLanes : Option ℕ
  interleaveBytes : Option ℕ
  capacityBytes : Option ℕ
deriving DecidableEq

namespace DramConfig

variable (c : DramConfig)

def sidCount : ℕ := max 1 (c.bankGroupsPerRank * c.banksPerGroup / 16)

def bankGroupsPerSid : ℕ := c.bankGroupsPerRank / c.sidCount

def bankCount : ℕ := c.ranksPerChannel * c.bankGroupsPerRank * c.banksPerGroup

def lanesPerStack : ℕ :=
  match c.dataLanes with
  | none | some 0 => c.channels * c.subchannelsPerChannel * c.pseudoChannelsPerChannel
  | some lanes => lanes

def laneCount : ℕ := c.lanesPerStack * (if c.independentStacks then c.stackCount else 1)

def addressableDieCount : ℕ := if c.perStackBanks then 1 else c.diesPerStack

def addressableStackCount : ℕ := if c.independentStacks then 1 else c.stackCount

def computedCapacityBytes : ℕ :=
  c.addressableStackCount * c.addressableDieCount * c.laneCount * c.bankCount * c.rowsPerBank * c.rowBytes

def effectiveCapacityBytes : ℕ :=
  match c.capacityBytes with
  | none | some 0 => c.computedCapacityBytes
  | some n => n

end DramConfig

/-- `_positive_int` -/
def positiveInt (name : String) (value : ℕ) : Except String Unit :=
  refuse (value = 0) (name ++ " must be a positive integer")

/-- The checks of `DramConfig.__post_init__` on these fields, in its order. -/
def DramConfig.validate (c : DramConfig) : Except String Unit := do
  refuse (c.addressMapping = .rowLocal ∧ c.interleaveBytes ≠ none)
    "row_local address_mapping requires interleave_bytes=None"
  let sid := c.addressMapping = .sidAware
  let frFcfs := c.scheduler = .frFcfs
  let pc := c.queueScope = .pc
  refuse ((sid ∨ frFcfs ∨ pc) ∧ (¬(sid ∧ frFcfs ∧ pc) ∨ c.kind ≠ .hbm ∨ c.jedecHbm = false))
    "sid_aware address_mapping, fr_fcfs scheduler and queue_scope=pc go together and require the jedec_hbm controller"
  refuse (c.jedecHbm = true ∧ ¬(sid ∧ frFcfs ∧ pc))
    "the jedec_hbm controller requires sid_aware address_mapping, fr_fcfs scheduler and queue_scope=pc"
  refuse (sid ∧ (c.interleaveBytes ≠ none ∨ 16 < c.banksPerGroup ∨ c.bankGroupsPerSid < 2 ∨
      c.bankGroupsPerSid &&& (c.bankGroupsPerSid - 1) ≠ 0))
    "sid_aware address_mapping requires interleave_bytes=None, at most 16 banks per group and a power of two, at least two, bank groups per SID"
  refuse (c.jedecHbm = true ∧ (c.pseudoChannelsPerChannel ≠ 2 ∨ c.subchannelsPerChannel ≠ 1 ∨ c.ranksPerChannel ≠ 1 ∨
      (c.dataLanes ≠ none ∧ c.dataLanes ≠ some (c.channels * 2)) ∨ c.burstBytes ≠ 32 ∨ c.rowBytes ≠ 1024 ∨
      c.perStackBanks = false ∨ c.independentStacks = false))
    "jedec_hbm control requires PC-mode HBM geometry and independent stack interfaces"
  positiveInt "channels" c.channels
  positiveInt "subchannels_per_channel" c.subchannelsPerChannel
  positiveInt "pseudo_channels_per_channel" c.pseudoChannelsPerChannel
  positiveInt "stacks" c.stackCount
  positiveInt "dies_per_stack" c.diesPerStack
  positiveInt "ranks_per_channel" c.ranksPerChannel
  positiveInt "bank_groups_per_rank" c.bankGroupsPerRank
  positiveInt "banks_per_group" c.banksPerGroup
  positiveInt "rows_per_bank" c.rowsPerBank
  positiveInt "row_bytes" c.rowBytes
  positiveInt "burst_bytes" c.burstBytes
  positiveInt "data_lanes" (c.dataLanes.getD 1)
  refuse (c.rowBytes % c.burstBytes ≠ 0) "row_bytes must be a multiple of burst_bytes"
  refuse (c.capacityBytes.getD 0 % c.burstBytes ≠ 0) "capacity_bytes must be a multiple of burst_bytes"
  positiveInt "interleave_bytes" (c.interleaveBytes.getD 1)
  refuse (c.interleaveBytes.getD 0 % c.burstBytes ≠ 0) "interleave_bytes must be a multiple of burst_bytes"
  refuse (∃ n ∈ c.interleaveBytes, c.rowsPerBank * c.rowBytes < n ∨ c.rowsPerBank * c.rowBytes % n ≠ 0)
    "interleave_bytes must divide the capacity of one bank"
  positiveInt "capacity_bytes" (c.capacityBytes.getD 1)
  refuse (c.computedCapacityBytes < c.capacityBytes.getD 0) "capacity_bytes cannot exceed the declared physical geometry"

/-! ## Mapping a burst -/

/-- The coordinates a mapping answers, DRAM's and NAND's. -/
structure AddressMapping where
  address : ℕ
  stack : ℕ := 0
  lane : ℕ := 0
  channel : ℕ := 0
  subchannel : ℕ := 0
  pseudoChannel : ℕ := 0
  rank : ℕ := 0
  bankGroup : ℕ := 0
  bank : ℕ := 0
  row : ℕ := 0
  column : ℕ := 0
  unit : ℕ := 0
  target : ℕ := 0
  die : ℕ := 0
  lun : ℕ := 0
  plane : ℕ := 0
  block : ℕ := 0
  page : ℕ := 0
  pageOffset : ℕ := 0
deriving DecidableEq

/-- `_check_address` -/
def checkAddress (address capacity : ℕ) : Except String Unit :=
  refuse (capacity ≤ address) s!"address {address} is outside modeled capacity {capacity}"

/-- The banks one rotation goes over. -/
def rotationUnit (bankCount banksPerGroup : ℕ) : ℕ :=
  if bankCount % 16 = 0 ∧ banksPerGroup < 16 ∧ 16 % banksPerGroup = 0 then 16 else bankCount

def rotationGroups (bankCount banksPerGroup : ℕ) : ℕ :=
  if rotationUnit bankCount banksPerGroup % banksPerGroup = 0 then rotationUnit bankCount banksPerGroup / banksPerGroup
  else 1

/-- `rotated_bank` -/
def rotatedBank (step bankCount banksPerGroup : ℕ) : ℕ :=
  let unit := rotationUnit bankCount banksPerGroup
  let groups := rotationGroups bankCount banksPerGroup
  if groups ≤ 1 then step
  else step / unit * unit + step % unit % groups * banksPerGroup + step % unit / groups

/-- `rotated_bank_step` -/
def rotatedBankStep (bank bankCount banksPerGroup : ℕ) : ℕ :=
  let unit := rotationUnit bankCount banksPerGroup
  let groups := rotationGroups bankCount banksPerGroup
  if groups ≤ 1 then bank
  else bank / unit * unit + bank % unit % banksPerGroup * groups + bank % unit / banksPerGroup

/-- Where a burst lies in its die. -/
@[ext] structure Place where
  lane : ℕ
  rank : ℕ
  bankGroup : ℕ
  bank : ℕ
  row : ℕ
  column : ℕ
deriving DecidableEq

namespace DramConfig

variable (c : DramConfig)

def burstsPerRow : ℕ := c.rowBytes / c.burstBytes

/-- Column, bank-in-group, SID and row above the bank groups and the lanes. -/
def sidAwarePlace (offset : ℕ) : Except String Place := do
  let cursor := offset / c.burstBytes
  let lane := cursor / c.bankGroupsPerSid % c.laneCount
  let sidBg := cursor / c.bankGroupsPerSid / c.laneCount
  let bgInSid := cursor % c.bankGroupsPerSid
  let column := sidBg % c.burstsPerRow
  let sidBg := sidBg / c.burstsPerRow
  let bank := sidBg % c.banksPerGroup
  let sidBg := sidBg / c.banksPerGroup
  let sid := sidBg % c.sidCount
  let row := sidBg / c.sidCount
  refuse (c.sidCount ≤ sid ∨ c.rowsPerBank ≤ row) "sid_aware address exceeds the selected HBM SID geometry"
  pure ⟨lane, 0, sid * c.bankGroupsPerSid + bgInSid, bank, row, column⟩

/-- A flat bank is decoded into rank, group and bank of the group. -/
def placeBank (lane bank row column : ℕ) : Place where
  lane := lane
  rank := bank / (c.bankGroupsPerRank * c.banksPerGroup)
  bankGroup := bank % (c.bankGroupsPerRank * c.banksPerGroup) / c.banksPerGroup
  bank := bank % (c.bankGroupsPerRank * c.banksPerGroup) % c.banksPerGroup
  row := row
  column := column

def rowLocalPlace (offset : ℕ) : Place :=
  let cursor := offset / c.burstBytes
  let column := cursor % c.burstsPerRow
  let stripe := cursor / c.burstsPerRow
  let bank := stripe % c.bankCount
  let stripe := stripe / c.bankCount
  let lane := stripe % c.laneCount
  let row := stripe / c.laneCount
  c.placeBank lane bank row column

def interleaveBursts : ℕ := c.interleaveBytes.getD c.burstBytes / c.burstBytes

def interleavedPlace (offset : ℕ) : Place :=
  let block := offset / c.burstBytes / c.interleaveBursts
  let innerBurst := offset / c.burstBytes % c.interleaveBursts
  let lane := block % c.laneCount
  let bankLinear := block / c.laneCount
  let bank := rotatedBank (bankLinear % c.bankCount) c.bankCount c.banksPerGroup
  let rowColumn := bankLinear / c.bankCount * c.interleaveBursts + innerBurst
  c.placeBank lane bank (rowColumn / c.burstsPerRow) (rowColumn % c.burstsPerRow)

def place (offset : ℕ) : Except String Place :=
  match c.addressMapping with
  | .sidAware => c.sidAwarePlace offset
  | .rowLocal => .ok (c.rowLocalPlace offset)
  | .bankInterleaved => .ok (c.interleavedPlace offset)

def perDie : ℕ := c.laneCount * c.bankCount * c.rowsPerBank * c.rowBytes

def perStack : ℕ := c.perDie * c.addressableDieCount

end DramConfig

/-- `map_dram_address` -/
def mapDramAddress (c : DramConfig) (address : ℕ) : Except String AddressMapping := do
  checkAddress address c.effectiveCapacityBytes
  let place ← c.place (address % c.perStack % c.perDie)
  let rem := place.lane % c.lanesPerStack
  let pseudo := rem % c.pseudoChannelsPerChannel
  let rem := rem / c.pseudoChannelsPerChannel
  let subchannel := rem % c.subchannelsPerChannel
  let rem := rem / c.subchannelsPerChannel
  pure {
    address := address
    stack := if c.independentStacks then place.lane / c.lanesPerStack else address / c.perStack
    die := address % c.perStack / c.perDie
    lane := place.lane
    channel := rem % c.channels
    subchannel := subchannel
    pseudoChannel := pseudo
    rank := place.rank
    bankGroup := place.bankGroup
    bank := place.bank
    row := place.row
    column := place.column }

/-! ## NAND -/

/-- The geometry of `NandConfig`. -/
structure NandConfig where
  channels : ℕ
  targetsPerChannel : ℕ
  diesPerTarget : ℕ
  lunsPerDie : ℕ
  planesPerLun : ℕ
  planesIndependent : Bool
  blocksPerPlane : ℕ
  pagesPerBlock : ℕ
  pageBytes : ℕ
  capacityBytes : Option ℕ
deriving DecidableEq

namespace NandConfig

variable (c : NandConfig)

def baseUnits : ℕ := c.channels * c.targetsPerChannel * c.diesPerTarget * c.lunsPerDie

def computedCapacityBytes : ℕ :=
  c.channels * c.targetsPerChannel * c.diesPerTarget * c.lunsPerDie * c.planesPerLun * c.blocksPerPlane *
    c.pagesPerBlock * c.pageBytes

def effectiveCapacityBytes : ℕ :=
  match c.capacityBytes with
  | none | some 0 => c.computedCapacityBytes
  | some n => n

/-- The checks of `NandConfig.__post_init__` on the geometry. -/
def validate : Except String Unit := do
  positiveInt "channels" c.channels
  positiveInt "targets_per_channel" c.targetsPerChannel
  positiveInt "dies_per_target" c.diesPerTarget
  positiveInt "luns_per_die" c.lunsPerDie
  positiveInt "planes_per_lun" c.planesPerLun
  positiveInt "blocks_per_plane" c.blocksPerPlane
  positiveInt "pages_per_block" c.pagesPerBlock
  positiveInt "page_bytes" c.pageBytes
  positiveInt "capacity_bytes" (c.capacityBytes.getD 1)
  refuse (c.capacityBytes.getD 0 % c.pageBytes ≠ 0) "capacity_bytes must be a multiple of page_bytes"
  refuse (c.computedCapacityBytes < c.capacityBytes.getD 0) "capacity_bytes cannot exceed the declared physical geometry"

end NandConfig

/-- `map_nand_address` -/
def mapNandAddress (c : NandConfig) (address : ℕ) : Except String AddressMapping := do
  checkAddress address c.effectiveCapacityBytes
  let pageIndex := address / c.pageBytes
  let baseUnit := pageIndex % c.baseUnits
  let physical := pageIndex / c.baseUnits
  let plane := physical % c.planesPerLun
  let physical := if c.planesIndependent then pageIndex / (c.baseUnits * c.planesPerLun) else physical / c.planesPerLun
  let base := baseUnit / c.lunsPerDie
  pure {
    address := address
    channel := base / c.diesPerTarget / c.targetsPerChannel
    target := base / c.diesPerTarget % c.targetsPerChannel
    die := base % c.diesPerTarget
    lun := baseUnit % c.lunsPerDie
    plane := plane
    block := physical / c.pagesPerBlock
    page := physical % c.pagesPerBlock
    pageOffset := address % c.pageBytes
    unit := if c.planesIndependent then baseUnit + plane * c.baseUnits else baseUnit }

end HeteroSim.Address
