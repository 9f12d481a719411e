/-
The reservation calendar of physical resources (`ResourceTimeline`,
`memory_transfer.py`) and the transactions that undo it. Dictionaries of
lists share their list objects, and a request's recorder dictionaries are
replaced wholesale, so lists, recorders and touched sets have identities; the
others are changed in place. Times are rationals.
-/
import HeteroSim.BeforeImage
import HeteroSim.Raising

namespace HeteroSim.Timeline

/-! ## The calendar -/

/-- The maps of numbers and texts in `_TIMELINE_MAPS`. -/
inductive ValueMap
  | readyNs
  | directions
  | busyNs
  | bytesMoved
  | lastIntervals
deriving DecidableEq

/-- The maps of lists in `_TIMELINE_MAPS`, in its order. -/
inductive ListMap
  | laneAvailable
  | laneDirections
  | intervals
  | intervalPayloads
deriving DecidableEq

abbrev Value : ValueMap → Type
  | .readyNs | .busyNs => ℚ
  | .directions => String
  | .bytesMoved => ℕ
  | .lastIntervals => ℚ × ℚ

abbrev Item : ListMap → Type
  | .laneAvailable => ℚ
  | .laneDirections => Option String
  | .intervals => ℚ × ℚ
  | .intervalPayloads => ℚ × ℚ × ℕ

/-- `_OwnedTimelineTransaction` -/
structure Token where
  accounting : Bool
  discardable : Bool
  values : (n : ValueMap) → Dict String (Option (Value n))
  roots : ListMap → ℕ
  entries : ListMap → Dict String (Option ℕ)
  objects : (n : ListMap) → Dict ℕ (List (Item n))
  deletedOrder : Option (List String)
  touched : ℕ
  addedTouches : Finset String
  intervalLimit : ℕ
  intervalCount : ℕ
  intervalsTruncated : Bool

/-- `ResourceTimeline`. `root` says which dictionary an attribute names, and
`fresh` is the first unused identity; the newest transaction comes first. -/
structure ResourceTimeline where
  values : (n : ValueMap) → Dict String (Value n)
  root : ListMap → ℕ
  dicts : ListMap → ℕ → Dict String ℕ
  lists : (n : ListMap) → ℕ → List (Item n)
  touched : ℕ
  touchedSets : ℕ → Finset String
  fresh : ℕ
  intervalLimit : ℕ
  intervalCount : ℕ
  intervalsTruncated : Bool
  resourceAliases : Dict String String
  discardable : Bool
  discarded : Bool
  ownedTransactions : List Token

abbrev TimelineM := EStateM String ResourceTimeline

namespace ResourceTimeline

/-- The dictionary an attribute names. -/
def map (tl : ResourceTimeline) (n : ListMap) : Dict String ℕ := tl.dicts n (tl.root n)

/-- The list a resource has. -/
def list? (tl : ResourceTimeline) (n : ListMap) (rid : String) : Option (List (Item n)) :=
  ((tl.map n).get? rid).map (tl.lists n)

end ResourceTimeline

/-! ## Journaling -/

/-- The maps whose roots a transaction holds. -/
def Token.holdsValue (t : Token) (n : ValueMap) : Bool :=
  if t.accounting then n = .busyNs ∨ n = .bytesMoved ∨ n = .lastIntervals else !t.discardable

def Token.holdsList (t : Token) (n : ListMap) : Bool :=
  if t.accounting then false else if t.discardable then n = .laneAvailable else true

/-- The root is still the one the transaction holds. -/
def Token.tracks (t : Token) (tl : ResourceTimeline) (n : ListMap) : Prop := t.holdsList n = true ∧ tl.root n = t.roots n

instance (t : Token) (tl : ResourceTimeline) (n : ListMap) : Decidable (t.tracks tl n) := inferInstanceAs (Decidable (_ ∧ _))

/-- The list object of the resource is kept, with its items. -/
def Token.keepObject (t : Token) (tl : ResourceTimeline) (rid : String) (n : ListMap) : Dict ℕ (List (Item n)) :=
  match (tl.map n).get? rid with
  | none => t.objects n
  | some l => (t.objects n).setDefault l (tl.lists n l)

/-- The first deletable entry keeps the order of the lane directions. -/
def Token.keepOrder (t : Token) (tl : ResourceTimeline) (rid : String) : Option (List String) :=
  if t.tracks tl .laneDirections ∧ rid ∉ (t.entries .laneDirections).keys ∧ rid ∈ (tl.map .laneDirections).keys ∧
      t.deletedOrder = none then
    some (tl.map .laneDirections).keys
  else t.deletedOrder

/-- `_OwnedTimelineTransaction.remember` -/
def Token.remember (tl : ResourceTimeline) (rid : String) (t : Token) : Token :=
  { t with
    values := fun n => if t.holdsValue n then note (tl.values n) rid (t.values n) else t.values n
    entries := fun n => if t.tracks tl n then note (tl.map n) rid (t.entries n) else t.entries n
    objects := fun n => if t.tracks tl n ∧ rid ∉ (t.entries n).keys then t.keepObject tl rid n else t.objects n
    deletedOrder := t.keepOrder tl rid
    addedTouches :=
      if t.accounting = false ∧ tl.touched = t.touched ∧ rid ∉ tl.touchedSets t.touched then insert rid t.addedTouches
      else t.addedTouches }

/-- `_remember_resource` -/
def rememberResource (rid : String) (tl : ResourceTimeline) : ResourceTimeline :=
  { tl with ownedTransactions := tl.ownedTransactions.map (·.remember tl rid) }

/-! ## Edits of one resource -/

/-- `attribute[rid] = v` -/
def put (n : ValueMap) (rid : String) (v : Value n) (tl : ResourceTimeline) : ResourceTimeline :=
  { tl with values := Function.update tl.values n ((tl.values n).insert rid v) }

/-- The map's entry for the resource changes. -/
def putList (n : ListMap) (rid : String) (l : Option ℕ) (tl : ResourceTimeline) : ResourceTimeline :=
  { tl with dicts := Function.update tl.dicts n (Function.update (tl.dicts n) (tl.root n) ((tl.map n).put rid l)) }

/-- A list object gets the items. -/
def fill (n : ListMap) (l : ℕ) (items : List (Item n)) (tl : ResourceTimeline) : ResourceTimeline :=
  { tl with lists := Function.update tl.lists n (Function.update (tl.lists n) l items) }

/-- The resource gets a list of its own. -/
def newList (n : ListMap) (rid : String) (items : List (Item n)) (tl : ResourceTimeline) : ResourceTimeline :=
  putList n rid (some tl.fresh) (fill n tl.fresh items { tl with fresh := tl.fresh + 1 })

/-- The resource's list gets the items, in place when it has one. -/
def setList (n : ListMap) (rid : String) (items : List (Item n)) (tl : ResourceTimeline) : ResourceTimeline :=
  match (tl.map n).get? rid with
  | some l => fill n l items tl
  | none => newList n rid items tl

/-- `_touched.add` -/
def touch (rid : String) (tl : ResourceTimeline) : ResourceTimeline :=
  { tl with touchedSets := Function.update tl.touchedSets tl.touched (insert rid (tl.touchedSets tl.touched)) }

/-! ## Reservations -/

/-- `_number` -/
def number (name : String) (value : ℚ) : Except String Unit :=
  refuse (value < 0) (name ++ " must be a finite non-negative number")

/-- The `while` loop of `canonical_resource_id`, at most `n` names on. -/
def resolve (aliases : Dict String String) : ℕ → Finset String → String → Except String String
  | 0, _, _ => .error "physical resource aliases must not form a cycle"
  | n + 1, seen, rid =>
    match aliases.get? rid with
    | none => .ok rid
    | some target =>
      if target = "" then .error "physical resource alias must be a non-empty string"
      else if target = rid then .ok rid
      else if rid ∈ seen then .error "physical resource aliases must not form a cycle"
      else resolve aliases n (insert rid seen) target

/-- `canonical_resource_id`; a cycle is seen before the names run out. -/
def canonicalResourceId (tl : ResourceTimeline) (rid : String) : Except String String :=
  resolve tl.resourceAliases (tl.resourceAliases.keys.length + 2) ∅ rid

/-- A text that is there and not empty. -/
def truthy (text : Option String) : Bool := text.getD "" ≠ ""

/-- When a lane may start: after its turnaround, not before `earliest`. -/
def eligible (earliest : ℚ) (direction : Option String) (switch : ℚ) (lane : ℚ) (history : Option String) : ℚ :=
  max earliest (if truthy direction ∧ truthy history ∧ history ≠ direction then lane + switch else lane)

/-- The first lane of the least start and the least clock, among `0 .. n`. -/
def bestLane (start clock : ℕ → ℚ) : ℕ → ℕ
  | 0 => 0
  | n + 1 =>
    let best := bestLane start clock n
    if start (n + 1) < start best ∨ start (n + 1) = start best ∧ clock (n + 1) < clock best then n + 1 else best

/-- A reservation about to be made: the lane, its interval, and the lists it
is made in. -/
structure Booking where
  index : ℕ
  start : ℚ
  stop : ℚ
  busy : ℚ
  lanes : List ℚ
  histories : List (Option String)
  /-- The lane directions are the resource's own list. -/
  own : Bool

/-- The lanes a reservation chooses from. -/
def lanesOf (rid : String) (tl : ResourceTimeline) : List ℚ :=
  (tl.list? .laneAvailable rid).getD [((tl.values .readyNs).get? rid).getD 0]

/-- The resource's own history of its lanes, when there is one of that length. -/
def ownHistories (rid : String) (lanes : List ℚ) (tl : ResourceTimeline) : Option (List (Option String)) :=
  (tl.list? .laneDirections rid).filter fun histories => decide (lanes.length ≠ 1 ∧ histories.length = lanes.length)

/-- What `reserve` works out; `finite` is `math.isfinite`. -/
def planReserve (finite : ℚ → Bool) (rid : String) (earliest duration : ℚ) (direction : Option String) (switch : ℚ)
    (tl : ResourceTimeline) : Except String Booking := do
  number "earliest_ns" earliest
  number "duration_ns" duration
  number "switch_ns" switch
  let lanes := lanesOf rid tl
  refuse (lanes = []) "resource must have at least one execution lane"
  let own := ownHistories rid lanes tl
  let histories := own.getD (List.replicate lanes.length ((tl.values .directions).get? rid))
  refuse (∃ lane ∈ lanes, lane < 0) "lane readiness must be a finite non-negative number"
  let starts := List.zipWith (eligible earliest direction switch) lanes histories
  let index := bestLane (fun i => starts.getD i 0) (fun i => lanes.getD i 0) (lanes.length - 1)
  let start := starts.getD index 0
  let stop := start + duration
  let busy := ((tl.values .busyNs).get? rid).getD 0 + duration
  refuse (finite stop = false ∨ finite busy = false) "resource reservation exceeds finite timing range"
  pure ⟨index, start, stop, busy, lanes, histories, own.isSome⟩

/-- The interval is recorded while the recorder has room. -/
def recordInterval (rid : String) (interval : ℚ × ℚ) (tl : ResourceTimeline) : ResourceTimeline :=
  if tl.intervalCount < tl.intervalLimit then
    { setList .intervals rid ((tl.list? .intervals rid).getD [] ++ [interval]) tl with
      intervalCount := tl.intervalCount + 1 }
  else { tl with intervalsTruncated := true }

/-- The resource's last direction, and its lanes'. -/
def recordDirection (rid : String) (direction : Option String) (b : Booking) (tl : ResourceTimeline) :
    ResourceTimeline :=
  let tl := if truthy direction then put .directions rid (direction.getD "") tl else tl
  let histories := if truthy direction then b.histories.set b.index direction else b.histories
  if 1 < b.lanes.length then
    if b.own then setList .laneDirections rid histories tl else newList .laneDirections rid histories tl
  else putList .laneDirections rid none tl

/-- What `reserve` writes. -/
def book (rid : String) (direction : Option String) (b : Booking) (tl : ResourceTimeline) : ResourceTimeline :=
  let lanes := b.lanes.set b.index b.stop
  let tl := setList .laneAvailable rid lanes tl
  let tl := put .readyNs rid (if b.lanes.length = 1 then b.stop else lanes.foldl min (lanes.headD 0)) tl
  let tl := put .busyNs rid b.busy tl
  let tl := put .lastIntervals rid (b.start, b.stop) tl
  let tl := touch rid tl
  recordDirection rid direction b (recordInterval rid (b.start, b.stop) tl)

/-- A reservation as its caller sees it. -/
structure Transfer where
  resourceId : String
  bytes : ℕ
  start : ℚ
  stop : ℚ

/-- `reserve` -/
def reserve (finite : ℚ → Bool) (resourceId : String) (earliest duration : ℚ) (direction : Option String)
    (switch : ℚ) : TimelineM Transfer := do
  raise (refuse (resourceId = "") "resource_id must be a non-empty string")
  let rid ← raise (canonicalResourceId (← get) resourceId)
  modify (rememberResource rid)
  let b ← raise (planReserve finite rid earliest duration direction switch (← get))
  modify (book rid direction b)
  pure ⟨rid, 0, b.start, b.stop⟩

/-- The payload goes with the interval just recorded. -/
def recordPayload (rid : String) (bytes : ℕ) (start stop : ℚ) (tl : ResourceTimeline) : ResourceTimeline :=
  if ((tl.list? .intervals rid).getD []).getLast? = some (start, stop) then
    setList .intervalPayloads rid ((tl.list? .intervalPayloads rid).getD [] ++ [(start, stop, bytes)]) tl
  else tl

/-- What `transfer` writes beyond its reservation. -/
def countTransfer (rid : String) (bytes : ℕ) (start stop : ℚ) (tl : ResourceTimeline) : ResourceTimeline :=
  recordPayload rid bytes start stop (put .bytesMoved rid (((tl.values .bytesMoved).get? rid).getD 0 + bytes) tl)

/-- `transfer` -/
def transfer (finite : ℚ → Bool) (resourceId : String) (bytes : ℕ) (earliest bandwidth : ℚ)
    (direction : Option String) (switch : ℚ) : TimelineM Transfer := do
  let rid ← raise (canonicalResourceId (← get) resourceId)
  raise (refuse (bandwidth ≤ 0) "bandwidth_gb_s must be a finite positive number")
  let reservation ← reserve finite rid earliest (bytes / bandwidth) direction switch
  modify (countTransfer rid bytes reservation.start reservation.stop)
  pure ⟨rid, bytes, reservation.start, reservation.stop⟩

/-- A core's own write of a readiness, remembered first. -/
def publishReady (rid : String) (ready : ℚ) (tl : ResourceTimeline) : ResourceTimeline :=
  put .readyNs rid ready (rememberResource rid tl)

/-- A row of `publish_resource_columns`; a data wire's has its bytes and its
last direction. -/
structure Column where
  rid : String
  ready : ℚ
  busy : ℚ
  last : ℚ × ℚ
  data : Option (ℕ × String)

def publishData (rid : String) (data : Option (ℕ × String)) (tl : ResourceTimeline) : ResourceTimeline :=
  match data with
  | none => tl
  | some (bytes, direction) => put .directions rid direction (put .bytesMoved rid bytes tl)

def publishColumn (tl : ResourceTimeline) (c : Column) : ResourceTimeline :=
  let tl := setList .laneAvailable c.rid (((tl.list? .laneAvailable c.rid).getD [0]).set 0 c.ready) tl
  let tl := put .readyNs c.rid c.ready tl
  let tl := put .busyNs c.rid c.busy tl
  let tl := put .lastIntervals c.rid c.last tl
  publishData c.rid c.data (touch c.rid (putList .laneDirections c.rid none tl))

/-- `_remember_resources` -/
def rememberResources (rids : List String) (tl : ResourceTimeline) : ResourceTimeline :=
  rids.foldl (fun tl rid => rememberResource rid tl) tl

/-- `commit_timeline` of a compiled controller. -/
def commitTimeline (columns : List Column) (tl : ResourceTimeline) : ResourceTimeline :=
  { columns.foldl publishColumn (rememberResources (columns.map Column.rid) tl) with intervalsTruncated := true }

/-! ## Recorders -/

/-- `_reset_metric_recorder` -/
def resetMetricRecorder (maxIntervals : ℕ) (tl : ResourceTimeline) : ResourceTimeline :=
  { tl with
    root := Function.update (Function.update tl.root .intervals tl.fresh) .intervalPayloads tl.fresh
    dicts := Function.update
      (Function.update tl.dicts .intervals (Function.update (tl.dicts .intervals) tl.fresh .empty))
      .intervalPayloads (Function.update (tl.dicts .intervalPayloads) tl.fresh .empty)
    touched := tl.fresh
    touchedSets := Function.update tl.touchedSets tl.fresh ∅
    fresh := tl.fresh + 1
    intervalLimit := maxIntervals
    intervalCount := 0
    intervalsTruncated := false }

/-! ## Transactions -/

/-- `_OwnedTimelineTransaction.__init__` -/
def newToken (accounting : Bool) (tl : ResourceTimeline) : Token where
  accounting := accounting
  discardable := tl.discardable
  values := fun _ => .empty
  roots := tl.root
  entries := fun _ => .empty
  objects := fun _ => .empty
  deletedOrder := none
  touched := tl.touched
  addedTouches := ∅
  intervalLimit := tl.intervalLimit
  intervalCount := tl.intervalCount
  intervalsTruncated := tl.intervalsTruncated

/-- `_begin_owned_transaction` -/
def beginOwnedTransaction (accounting : Bool) : TimelineM Unit := do
  raise (refuse ((← get).discarded = true) "a discarded timeline copy was used after its rollback")
  modify fun tl => { tl with ownedTransactions := newToken accounting tl :: tl.ownedTransactions }

/-- `_core_metrics_snapshot` -/
def coreMetricsSnapshot (maxIntervals : ℕ) : TimelineM Unit := do
  if (← get).ownedTransactions ≠ [] then beginOwnedTransaction true
  modify (resetMetricRecorder maxIntervals)

/-- `_OwnedTimelineTransaction.finish` of the `i`th newest token. -/
def finish (i : ℕ) : TimelineM Unit := do
  raise (refuse (i ≠ 0 ∨ (← get).ownedTransactions = [])
    "timeline transactions must finish once in reverse begin order")
  modify fun tl => { tl with ownedTransactions := tl.ownedTransactions.tail }

/-- The loop of `_finish_core_accounting`. -/
def dropAccounting (depth : ℕ) : List Token → List Token
  | [] => []
  | t :: rest => if depth < rest.length + 1 ∧ t.accounting = true then dropAccounting depth rest else t :: rest

def finishCoreAccounting (depth : ℕ) (tl : ResourceTimeline) : ResourceTimeline :=
  { tl with ownedTransactions := dropAccounting depth tl.ownedTransactions }

/-- The transaction remembered something. -/
def Token.wrote (t : Token) : Bool :=
  t.values .readyNs ≠ .empty ∨ t.values .directions ≠ .empty ∨ t.values .busyNs ≠ .empty ∨
    t.values .bytesMoved ≠ .empty ∨ t.values .lastIntervals ≠ .empty ∨ t.entries .laneAvailable ≠ .empty ∨
    t.entries .laneDirections ≠ .empty ∨ t.entries .intervals ≠ .empty ∨ t.entries .intervalPayloads ≠ .empty

/-- The order a map is to have again: only the lane directions' was kept. -/
def Token.orderOf (t : Token) (n : ListMap) : Option (List String) :=
  if n = .laneDirections then t.deletedOrder else none

/-- The dictionary is read again in the order. -/
def rereadMap (t : Token) (n : ListMap) (order : List String) : TimelineM Unit := do
  match reread ((← get).dicts n (t.roots n)) order with
  | none => throw "KeyError"
  | some d => modify fun tl => { tl with
      dicts := Function.update tl.dicts n (Function.update (tl.dicts n) (t.roots n) d) }

def restoreOrder (t : Token) (n : ListMap) : TimelineM Unit :=
  match t.orderOf n with
  | none => pure ()
  | some order => rereadMap t n order

/-- One map of lists is put back. -/
def restoreMap (t : Token) (n : ListMap) : TimelineM Unit := do
  modify fun tl => { tl with
    dicts := Function.update tl.dicts n
      (Function.update (tl.dicts n) (t.roots n) (putBack (tl.dicts n (t.roots n)) (t.entries n))) }
  restoreOrder t n
  modify fun tl => { tl with root := Function.update tl.root n (t.roots n) }

/-- The list objects and the maps of values are put back. -/
def restoreValues (t : Token) (tl : ResourceTimeline) : ResourceTimeline :=
  { tl with
    lists := fun n => imageAt (tl.lists n) (t.objects n)
    values := fun n => putBack (tl.values n) (t.values n) }

/-- The touched set and the scalars are put back. -/
def restoreScalars (t : Token) (tl : ResourceTimeline) : ResourceTimeline :=
  { tl with
    touchedSets := Function.update tl.touchedSets t.touched (tl.touchedSets t.touched \ t.addedTouches)
    touched := t.touched
    intervalLimit := t.intervalLimit
    intervalCount := t.intervalCount
    intervalsTruncated := t.intervalsTruncated }

/-- The maps of lists a transaction holds, in the order of its roots. -/
def Token.listMaps (t : Token) : List ListMap :=
  [ListMap.laneAvailable, .laneDirections, .intervals, .intervalPayloads].filter t.holdsList

/-- `_OwnedTimelineTransaction.rollback` of the newest token. -/
def rollbackNewest (t : Token) : TimelineM Unit := do
  finish 0
  if (← get).discardable ∧ t.wrote then modify fun tl => { tl with discarded := true }
  else do
    modify (restoreValues t)
    forM t.listMaps (restoreMap t)
    modify (restoreScalars t)

/-- `_OwnedTimelineTransaction.rollback` of the `i`th newest token. -/
def rollback (i : ℕ) : TimelineM Unit := do
  match (← get).ownedTransactions[i]? with
  | none => throw "timeline transactions must finish once in reverse begin order"
  | some t =>
    raise (refuse (t.accounting = true) "Core accounting checkpoints do not own physical rollback")
    if i = 0 then rollbackNewest t else finish i

/-! ## Runs -/

inductive Op
  | begin
  | reserve (resourceId : String) (earliest duration : ℚ) (direction : Option String) (switch : ℚ)
  | transfer (resourceId : String) (bytes : ℕ) (earliest bandwidth : ℚ) (direction : Option String) (switch : ℚ)
  | publishReady (resourceId : String) (ready : ℚ)
  | commitTimeline (columns : List Column)
  | metricsSnapshot (maxIntervals : ℕ)
  | coreMetricsSnapshot (maxIntervals : ℕ)
  | finish (i : ℕ)
  | finishCoreAccounting (depth : ℕ)
  | rollback (i : ℕ)

/-- What a call leaves, returned or raised; `finish` is both a commit and the
end of a core's accounting. -/
def exec (finite : ℚ → Bool) (tl : ResourceTimeline) : Op → ResourceTimeline
  | .begin => after (beginOwnedTransaction false) tl
  | .reserve rid earliest duration direction switch => after (reserve finite rid earliest duration direction switch) tl
  | .transfer rid bytes earliest bandwidth direction switch =>
    after (transfer finite rid bytes earliest bandwidth direction switch) tl
  | .publishReady rid ready => publishReady rid ready tl
  | .commitTimeline columns => commitTimeline columns tl
  | .metricsSnapshot maxIntervals => resetMetricRecorder maxIntervals tl
  | .coreMetricsSnapshot maxIntervals => after (coreMetricsSnapshot maxIntervals) tl
  | .finish i => after (finish i) tl
  | .finishCoreAccounting depth => finishCoreAccounting depth tl
  | .rollback i => after (rollback i) tl

end HeteroSim.Timeline
