/-
Activations and per-bank refreshes of the HBM controller (`_hbm_control.py`).
A scheduler plans a command and issues it later; which command comes next is
left open, and so is what the other commands do to the readiness of banks and
to the gates: they never touch the calendars of windows, and time on a row
command bus only moves on.
-/
import HeteroSim.Address.Sound
import HeteroSim.Dram.Activate

namespace HeteroSim.Dram

open HeteroSim.Address

/-- What these commands read of `DramConfig`. -/
structure HbmConfig extends ActivateTiming where
  geometry : DramConfig
  commandClockNs : ℚ
  activateCycleNs : ℚ
  activateCommandCycles : ℚ
  prechargeCommandCycles : ℚ
  refreshBankGapNs : ℚ
  refreshBankCycleNs : ℚ
  clock_pos : 0 < commandClockNs
  activate_cycles : 0 ≤ activateCommandCycles
  precharge_cycles : 0 ≤ prechargeCommandCycles

/-- Stack, channel and pseudo channel. -/
abbrev PcKey := ℕ × ℕ × ℕ

/-- `_pc_key` -/
def pcKey (m : AddressMapping) : PcKey := (m.stack, m.channel, m.pseudoChannel)

/-- A pseudo channel's activations, and the start of its planned REFpb. -/
structure PcCalendar where
  activate : Dict ℕ ℚ := .empty
  window : List ℚ := []
  planned : Option ℚ := none

structure PcGates where
  blockedUntil : ℚ := 0
  refreshGate : ℚ := 0
  refreshGroupGate : ℚ := 0

structure HbmBank where
  lastActivate : Option ℚ := none
  activateReady : ℚ := 0

/-- A command that went to a calendar; `time` is where it stands there. -/
structure Issued where
  isActivate : Bool
  mapping : AddressMapping
  time : ℚ

/-- The controller; `issued` are the commands of all its calendars, the last
first, kept for the statements only. -/
structure Controller where
  calendar : PcKey → PcCalendar := fun _ => {}
  gates : PcKey → PcGates := fun _ => {}
  bank : String → HbmBank := fun _ => {}
  /-- `available_ns` of a channel's row command bus -/
  rowBus : ℕ × ℕ → ℚ := fun _ => 0
  issued : List Issued := []

/-- A physical channel. -/
def channelOf (key : PcKey) : ℕ × ℕ := (key.1, key.2.1)

namespace Controller

variable (s : Controller)

def setCalendar (key : PcKey) (calendar : PcCalendar) : Controller :=
  { s with calendar := Function.update s.calendar key calendar }

def setBank (bankId : String) (bank : HbmBank) : Controller := { s with bank := Function.update s.bank bankId bank }

/-- The calendar as pruned by a plan. -/
def pruned (key : PcKey) (window : List ℚ) : Controller := s.setCalendar key { s.calendar key with window := window }

end Controller

section

variable (c : HbmConfig)

/-- `after` -/
def afterNs (value delay : ℚ) : ℚ := clockAfter value delay (c.commandClockNs / 2)

/-- `command` on a row bus at a rising edge: its start and its end. -/
def command (s : Controller) (key : PcKey) (earliest cycles : ℚ) : ℚ × ℚ :=
  let start := max (alignClock (max earliest (s.rowBus (channelOf key))) c.commandClockNs) (s.rowBus (channelOf key))
  (start, afterNs c start (cycles * c.commandClockNs))

/-- The bus is taken until the command ends. -/
def occupy (key : PcKey) (stop : ℚ) (s : Controller) : Controller :=
  { s with rowBus := Function.update s.rowBus (channelOf key) stop }

/-- The loop of `activate_start` and of `refresh_bank_start`: the anchor is
moved to the grid until the calendar allows it there. It answers the start and
the calendar left. -/
def gridLoop (toStart toAnchor : ℚ → ℚ) (activate : Dict ℕ ℚ) (group : ℕ) (frontier : ℚ) :
    ℕ → ℚ → List ℚ → Option (ℚ × List ℚ)
  | 0, _, _ => none
  | n + 1, anchor, window =>
    (bankGroupActivateReady c.toActivateTiming activate window group anchor frontier (some (c.commandClockNs / 2))).bind
      fun found =>
        let start := toStart found.1
        if c.fourActivateWindowNs ≤ 0 ∨ toAnchor start = found.1 then some (start, found.2)
        else gridLoop toStart toAnchor activate group frontier n (toAnchor start) found.2

/-! ## ACT -/

/-- The start of an ACT is the edge before its anchor's. -/
def startOfAnchor (anchor : ℚ) : ℚ := alignClock (afterNs c anchor (-c.commandClockNs)) c.commandClockNs

def anchorOfStart (start : ℚ) : ℚ := afterNs c start c.commandClockNs

/-- Where the loop of `activate_start` begins: an ACT is anchored at its
second rising edge. -/
def activateAnchor (s : Controller) (m : AddressMapping) (bankId : String) (earliest : ℚ) : ℚ :=
  let gates := s.gates (pcKey m)
  let bank := s.bank bankId
  let ready := max (max (max earliest bank.activateReady) gates.blockedUntil) (s.rowBus (channelOf (pcKey m)))
  let ready := match bank.lastActivate with
    | none => ready
    | some last => max ready (afterNs c (afterNs c last c.activateCycleNs) (-c.commandClockNs))
  max (anchorOfStart c (alignClock ready c.commandClockNs)) gates.refreshGate

/-- `activate_start`, in at most `rounds` rounds; `arrival` is the request's. -/
def activateStart (s : Controller) (m : AddressMapping) (bankId : String) (earliest arrival : ℚ) (rounds : ℕ) :
    Option (ℚ × List ℚ) :=
  gridLoop c (startOfAnchor c) (anchorOfStart c) (s.calendar (pcKey m)).activate m.bankGroup
    (max arrival (s.rowBus (channelOf (pcKey m)))) rounds (activateAnchor c s m bankId earliest) (s.calendar (pcKey m)).window

/-- `activate`, once `activate_start` found the start. -/
def activateAt (s : Controller) (m : AddressMapping) (bankId : String) (start : ℚ) : Controller :=
  let key := pcKey m
  let act := command c s key start c.activateCommandCycles
  let anchor := anchorOfStart c act.1
  let calendar := s.calendar key
  let window := if 0 < c.fourActivateWindowNs then insort calendar.window anchor else calendar.window
  let s := occupy key act.2 s
  let s := s.setCalendar key ⟨calendar.activate.insert m.bankGroup anchor, window, none⟩
  let s := s.setBank bankId { s.bank bankId with lastActivate := some anchor }
  { s with issued := ⟨true, m, anchor⟩ :: s.issued }

/-! ## REFpb -/

/-- `refresh_target` of a pseudo channel's bank. -/
def refreshTarget (key : PcKey) (within : ℕ) : Except String AddressMapping :=
  let g := c.geometry
  let lane := (key.1 * g.channels + key.2.1) * 2 + key.2.2
  let perSid := g.bankGroupsPerSid * g.banksPerGroup
  let sid := within / perSid
  let rest := within % perSid
  let cursor := ((sid * g.banksPerGroup + rest % g.banksPerGroup) * g.burstsPerRow * g.laneCount + lane) *
    g.bankGroupsPerSid + rest / g.banksPerGroup
  mapDramAddress g (cursor * g.burstBytes)

/-- `refresh_bank_start`; `lastOfGroup` is the readiness of the last bank of
its sixteen when this is the first. -/
def refreshBankStart (s : Controller) (m : AddressMapping) (bankId : String) (lastOfGroup : Option ℚ) (earliest : ℚ)
    (rounds : ℕ) : Option (ℚ × List ℚ) :=
  let key := pcKey m
  let gates := s.gates key
  let bank := s.bank bankId
  let ready := max (max (max (max (max earliest bank.activateReady) gates.blockedUntil) gates.refreshGate)
    gates.refreshGroupGate) (s.rowBus (channelOf key))
  let ready := max ready (lastOfGroup.getD ready)
  let ready := match bank.lastActivate with
    | none => ready
    | some last => max ready (afterNs c last c.activateCycleNs)
  gridLoop c (fun anchor => alignClock anchor c.commandClockNs) id (s.calendar key).activate m.bankGroup 0 rounds
    (alignClock ready c.commandClockNs) (s.calendar key).window

/-- `refresh_bank` of the `within`th bank at the start planned for it. -/
def refreshBank (s : Controller) (m : AddressMapping) (bankId : String) (within : ℕ) (start : ℚ) : Controller :=
  let key := pcKey m
  let ref := command c s key start c.prechargeCommandCycles
  let calendar := s.calendar key
  let ready := afterNs c ref.1 c.refreshBankCycleNs
  let gates := { s.gates key with
    refreshGate := afterNs c ref.1 c.refreshBankGapNs
    refreshGroupGate := if within % 16 = 15 then ready else (s.gates key).refreshGroupGate }
  let s := occupy key ref.2 s
  let window := if 0 < c.fourActivateWindowNs then
      let frontier := max 0 ref.2
      insort (calendar.window.dropWhile fun time => decide (afterNs c time c.fourActivateWindowNs ≤ frontier)) ref.1
    else calendar.window
  let s := s.setCalendar key { calendar with window := window, planned := none }
  let s := s.setBank bankId { s.bank bankId with activateReady := ready }
  { s with gates := Function.update s.gates key gates, issued := ⟨false, m, ref.1⟩ :: s.issued }

/-! ## Runs -/

/-- Any other command: no calendar is touched, and no row bus moves back. -/
structure Other (s s' : Controller) : Prop where
  calendar : s'.calendar = s.calendar
  issued : s'.issued = s.issued
  rowBus : ∀ channel, s.rowBus channel ≤ s'.rowBus channel

/-- One thing the controller does. A plan prunes the calendar; the plan of a
REFpb is kept until its pseudo channel issues a command, which is not before
the row bus is free. While it schedules, requests arrive at zero. -/
inductive Step : Controller → Controller → Prop
  | planActivate {s : Controller} {m : AddressMapping} {bankId : String} {earliest start : ℚ} {rounds : ℕ} {window : List ℚ}
      (found : activateStart c s m bankId earliest 0 rounds = some (start, window)) : Step s (s.pruned (pcKey m) window)
  | activate {s : Controller} {address : ℕ} {m : AddressMapping} {bankId : String} {earliest start : ℚ} {rounds : ℕ}
      {window : List ℚ} (mapped : mapDramAddress c.geometry address = .ok m)
      (found : activateStart c s m bankId earliest 0 rounds = some (start, window)) :
      Step s (activateAt c (s.pruned (pcKey m) window) m bankId start)
  | planRefresh {s : Controller} {key : PcKey} {m : AddressMapping} {bankId : String} {lastOfGroup : Option ℚ}
      {earliest start : ℚ} {rounds within : ℕ} {window : List ℚ} (target : refreshTarget c key within = .ok m)
      (found : refreshBankStart c s m bankId lastOfGroup earliest rounds = some (start, window)) :
      Step s (s.setCalendar (pcKey m) { s.calendar (pcKey m) with window := window, planned := some start })
  | refreshBank {s : Controller} {key : PcKey} {m : AddressMapping} {bankId : String} {start : ℚ} {within : ℕ}
      (target : refreshTarget c key within = .ok m) (planned : (s.calendar (pcKey m)).planned = some start)
      (free : s.rowBus (channelOf (pcKey m)) ≤ start) : Step s (refreshBank c s m bankId within start)
  | other {s s' : Controller} (h : Other s s') : Step s s'

/-- What a controller can come to. -/
inductive Reachable : Controller → Prop
  | start : Reachable {}
  | step {s s' : Controller} (reached : Reachable s) (h : Step c s s') : Reachable s'

end

end HeteroSim.Dram
