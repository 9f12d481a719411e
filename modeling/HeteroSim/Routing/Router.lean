/-
Routing over a hardware graph (`communication.py`): the links of the graph
give directed hops with a bandwidth and a latency, and a query searches the
route with the least transfer time, equal times ordered by the names along the
route. Answers are kept in a bounded table.
-/
import HeteroSim.Collect
import HeteroSim.Raising
import HeteroSim.Text

namespace HeteroSim.Routing

/-- `ValueError` and `KeyError` with their texts; the last stands for a search
that does not end. -/
inductive RouterError
  | value (message : String)
  | key (message : String)
  | unending
deriving DecidableEq

/-! ## Hardware -/

/-- What `resolve_service` answers of a storage component. -/
structure PhysicalService where
  resourceId : String
  readBandwidthGbS : ℚ
  writeBandwidthGbS : ℚ

/-- What routing reads of a component; `readGbps` and `writeGbps` are its
directional bandwidths, `ports` the bandwidth of each. -/
structure ComponentSpec where
  componentId : String
  isStorage : Bool
  service : Except String PhysicalService
  readGbps : ℚ
  writeGbps : ℚ
  ports : Dict String ℚ
  /-- `routing_transit` is not false. -/
  routingTransit : Bool
  routingTransitEndpoints : Option (List String)

/-- What routing reads of a link. -/
structure LinkSpec where
  linkId : String
  sourceComponent : String
  sourcePort : String
  targetComponent : String
  targetPort : String
  /-- `_is_local_memory_protocol` of its protocol. -/
  localMemory : Bool
  bandwidthGbps : ℚ
  latencyNs : ℚ
  bidirectional : Bool
  /-- An empty text counts as none. -/
  serviceRef : Option String
  /-- `bandwidth_source` names a component. -/
  componentBandwidth : Bool
  bandwidthResourceId : Option String
  sharedBidirectional : Option Bool
  queueDepth : Except String ℕ
  latency_nonneg : 0 ≤ latencyNs

structure HardwareSpec where
  components : List ComponentSpec
  links : List LinkSpec
  components_nodup : (components.map (·.componentId)).Nodup
  links_nodup : (links.map (·.linkId)).Nodup

/-- `component_map` -/
def HardwareSpec.componentMap (hw : HardwareSpec) : Dict String ComponentSpec :=
  .collect (hw.components.map fun component => (component.componentId, component))

/-! ## Hops -/

structure RouteHop where
  linkId : String
  sourceComponent : String
  targetComponent : String
  resourceId : String
  bandwidthGbps : ℚ
  latencyNs : ℚ
  serviceRef : Option String
  queueDepth : ℕ
deriving DecidableEq

/-- `transfer_ns` -/
def RouteHop.transferNs (hop : RouteHop) (byteCount : ℕ) : Except RouterError ℚ :=
  if hop.bandwidthGbps ≤ 0 then .error (.value "route hop bandwidth must be positive")
  else if byteCount = 0 then .ok 0
  else .ok (hop.latencyNs + 8 * byteCount / hop.bandwidthGbps)

namespace HardwareSpec

variable (hw : HardwareSpec)

/-- `components[ident]` -/
def component (ident : String) : Except RouterError ComponentSpec :=
  match hw.componentMap.get? ident with
  | some component => .ok component
  | none => .error (.key ident)

/-- `get_port`, of which the bandwidth is read. -/
def portBandwidth (componentId portId : String) : Except RouterError ℚ := do
  let component ← hw.component componentId
  match component.ports.get? portId with
  | some bandwidth => .ok bandwidth
  | none => .error (.key ("unknown port: " ++ componentId ++ "." ++ portId))

/-- The end points of a link that are storage. -/
def storageEndpoints (source target : String) : Except RouterError (List ComponentSpec) := do
  let first ← hw.component source
  let second ← hw.component target
  .ok ([first, second].filter (·.isStorage))

/-- The storage component whose service a link uses. -/
def memoryComponent (link : LinkSpec) (source target : String) : Except RouterError (Option ComponentSpec) :=
  match link.serviceRef with
  | none => do
    refuse (link.componentBandwidth = true)
      (.value ("link " ++ link.linkId ++ " service_ref is required for a memory-service link"))
    .ok none
  | some ref => do
    match (← hw.storageEndpoints source target).filter fun component => decide (ref = component.componentId ++ ".access") with
    | [memory] =>
      let owner ← memory.service.mapError .value
      refuse (∃ declared ∈ link.bandwidthResourceId, declared ≠ "" ∧ declared ≠ owner.resourceId)
        (.value ("link " ++ link.linkId ++ " bandwidth_resource_id conflicts with service_ref " ++ ref))
      .ok (some memory)
    | _ => .error (.value ("link " ++ link.linkId ++
        " service_ref must identify one storage endpoint as <component_id>.access"))

/-- The bandwidth of a direction, if the service does not tell it. -/
def linkBandwidth (link : LinkSpec) (source target : String) : Except RouterError ℚ := do
  let candidates ← if link.localMemory then hw.storageEndpoints source target else .ok []
  let bandwidth := match candidates with
    | [] => link.bandwidthGbps
    | memory :: _ =>
      let limit := if memory.componentId = source then memory.readGbps else memory.writeGbps
      if 0 < limit ∧ 0 < link.bandwidthGbps then min link.bandwidthGbps limit else link.bandwidthGbps
  if bandwidth ≤ 0 then do
    let sourcePort ← hw.portBandwidth source (if source = link.sourceComponent then link.sourcePort else link.targetPort)
    let targetPort ← hw.portBandwidth target (if target = link.targetComponent then link.targetPort else link.sourcePort)
    match [sourcePort, targetPort].filter fun value => decide (0 < value) with
    | [] => .ok 0
    | first :: rest => .ok (rest.foldl min first)
  else .ok bandwidth

/-- The bandwidth of a direction. -/
def directionBandwidth (link : LinkSpec) (memory : Option ComponentSpec) (source target : String) : Except RouterError ℚ :=
  match memory with
  | some memory => do
    let service ← memory.service.mapError .value
    .ok ((if memory.componentId = source then service.readBandwidthGbS else service.writeBandwidthGbS) * 8)
  | none => hw.linkBandwidth link source target

/-- The resource of a direction; the two of a shared link have one. -/
def directionResource (link : LinkSpec) (memory : Option ComponentSpec) (source target : String) : Except RouterError String :=
  match memory with
  | some memory => do
    let service ← memory.service.mapError .value
    .ok service.resourceId
  | none =>
    let declared := match link.bandwidthResourceId with
      | some declared => if declared = "" then "link." ++ link.linkId else declared
      | none => "link." ++ link.linkId
    .ok (if link.sharedBidirectional.getD (!link.bidirectional) then declared
      else declared ++ "." ++ source ++ "->" ++ target)

/-- `_add_link_direction`: the hop it appends, if any. -/
def addLinkDirection (link : LinkSpec) (source target : String) : Except RouterError (Option RouteHop) :=
  if source ∉ hw.componentMap.keys ∨ target ∉ hw.componentMap.keys then .ok none
  else do
    let memory ← hw.memoryComponent link source target
    let bandwidth ← hw.directionBandwidth link memory source target
    if bandwidth ≤ 0 then .ok none
    else do
      let resourceId ← directionResource link memory source target
      let queueDepth ← link.queueDepth.mapError .value
      .ok (some {
        linkId := link.linkId
        sourceComponent := source
        targetComponent := target
        resourceId := resourceId
        bandwidthGbps := bandwidth
        latencyNs := if link.serviceRef = none then link.latencyNs else 0
        serviceRef := link.serviceRef
        queueDepth := queueDepth })

/-- A hop goes to the hops of its source. -/
def appendHop (adjacency : Dict String (List RouteHop)) : Option RouteHop → Dict String (List RouteHop)
  | none => adjacency
  | some hop => adjacency.insert hop.sourceComponent ((adjacency.get? hop.sourceComponent).getD [] ++ [hop])

/-- The hops of a link, in both directions if it has them. -/
def addLink (adjacency : Dict String (List RouteHop)) (link : LinkSpec) : Except RouterError (Dict String (List RouteHop)) := do
  let forward ← hw.addLinkDirection link link.sourceComponent link.targetComponent
  if link.bidirectional then do
    let backward ← hw.addLinkDirection link link.targetComponent link.sourceComponent
    .ok (appendHop (appendHop adjacency forward) backward)
  else .ok (appendHop adjacency forward)

/-- The order of the hops out of a component. -/
def hopKey (hop : RouteHop) : String ×ₗ String ×ₗ String := toLex (hop.targetComponent, toLex (hop.linkId, hop.resourceId))

/-- The hops of all components, in their order. -/
def adjacency : Except RouterError (Dict String (List RouteHop)) := do
  let unsorted ← hw.links.foldlM hw.addLink (.collect (hw.components.map fun component => (component.componentId, [])))
  .ok (unsorted.mapValues fun hops => hops.insertionSort fun a b => hopKey a ≤ hopKey b)

end HardwareSpec

/-! ## The graph of a router -/

/-- What a router searches. Every hop is between known components, moves bytes
in finite time and is told by its link and target among the hops of its source. -/
structure TopologyRouter where
  components : Dict String ComponentSpec
  adjacency : Dict String (List RouteHop)
  source_eq : ∀ c hops, adjacency.get? c = some hops → ∀ hop ∈ hops, hop.sourceComponent = c
  known : ∀ c hops, adjacency.get? c = some hops → ∀ hop ∈ hops, hop.targetComponent ∈ components.keys
  bandwidth_pos : ∀ c hops, adjacency.get? c = some hops → ∀ hop ∈ hops, 0 < hop.bandwidthGbps
  latency_nonneg : ∀ c hops, adjacency.get? c = some hops → ∀ hop ∈ hops, 0 ≤ hop.latencyNs
  named : ∀ c hops, adjacency.get? c = some hops → ∀ hop ∈ hops, ∀ hop' ∈ hops, hop.linkId = hop'.linkId →
    hop.targetComponent = hop'.targetComponent → hop = hop'

namespace HardwareSpec

variable {hw : HardwareSpec} {link : LinkSpec} {source target : String} {hop : RouteHop}

/-- What is known of a hop that a link gives. -/
structure Gives (hw : HardwareSpec) (link : LinkSpec) (source target : String) (hop : RouteHop) : Prop where
  link_eq : hop.linkId = link.linkId
  source_eq : hop.sourceComponent = source
  target_eq : hop.targetComponent = target
  known : target ∈ hw.componentMap.keys
  bandwidth_pos : 0 < hop.bandwidthGbps
  latency_nonneg : 0 ≤ hop.latencyNs

theorem addLinkDirection_ok (h : hw.addLinkDirection link source target = .ok (some hop)) : Gives hw link source target hop := by
  unfold addLinkDirection at h
  split at h
  · cases h
  · next hknown =>
    obtain ⟨memory, -, h⟩ := bind_ok.1 h
    obtain ⟨bandwidth, -, h⟩ := bind_ok.1 h
    split at h
    · cases h
    · next hpos =>
      obtain ⟨resourceId, -, h⟩ := bind_ok.1 h
      obtain ⟨queueDepth, -, h⟩ := bind_ok.1 h
      obtain rfl := Option.some.inj (Except.ok.inj h)
      refine ⟨rfl, rfl, rfl, not_not.1 (not_or.1 hknown).2, not_le.1 hpos, ?_⟩
      show 0 ≤ if link.serviceRef = none then link.latencyNs else 0
      split
      · exact link.latency_nonneg
      · exact le_rfl

/-- Every hop is one that a link gives. -/
def Linked (hw : HardwareSpec) (adjacency : Dict String (List RouteHop)) : Prop :=
  ∀ c hops, adjacency.get? c = some hops → ∀ hop ∈ hops, hop.sourceComponent = c ∧
    ∃ link ∈ hw.links, hw.addLinkDirection link c hop.targetComponent = .ok (some hop)

theorem Linked.append {adjacency : Dict String (List RouteHop)} (h : Linked hw adjacency) (hlink : link ∈ hw.links)
    {appended : Option RouteHop} (ha : hw.addLinkDirection link source target = .ok appended) :
    Linked hw (appendHop adjacency appended) := by
  cases appended with
  | none => exact h
  | some hop =>
    have hgives := addLinkDirection_ok ha
    intro c hops hc x hx
    rw [appendHop, Dict.get?_insert] at hc
    split at hc
    · next hsource =>
      obtain rfl := Option.some.inj hc
      rcases List.mem_append.1 hx with hx | hx
      · cases hold : adjacency.get? hop.sourceComponent with
        | none =>
          rw [hold] at hx
          cases hx
        | some hops =>
          rw [hold] at hx
          exact hsource ▸ h _ hops hold x hx
      · rw [List.mem_singleton.1 hx]
        refine ⟨hsource.symm, link, hlink, ?_⟩
        rw [hsource, hgives.source_eq, hgives.target_eq]
        exact ha
    · exact h c hops hc x hx

theorem linked_adjacency {adjacency : Dict String (List RouteHop)} (h : hw.adjacency = .ok adjacency) : Linked hw adjacency := by
  obtain ⟨unsorted, hfold, hsorted⟩ := bind_ok.1 h
  have hlinks : ∀ (links : List LinkSpec) (start : Dict String (List RouteHop)), (∀ link ∈ links, link ∈ hw.links) →
      Linked hw start → ∀ result, links.foldlM hw.addLink start = .ok result → Linked hw result := by
    intro links
    induction links with
    | nil =>
      intro start _ hstart result hresult
      rw [← Except.ok.inj hresult]
      exact hstart
    | cons link links ih =>
      intro start hmem hstart result hresult
      rw [List.foldlM_cons] at hresult
      obtain ⟨next, hnext, hresult⟩ := bind_ok.1 hresult
      obtain ⟨hlink, hrest⟩ := List.forall_mem_cons.1 hmem
      refine ih next hrest ?_ result hresult
      obtain ⟨forward, hforward, hnext⟩ := bind_ok.1 hnext
      have hone := hstart.append hlink hforward
      split at hnext
      · obtain ⟨backward, hbackward, hnext⟩ := bind_ok.1 hnext
        rw [← Except.ok.inj hnext]
        exact hone.append hlink hbackward
      · rw [← Except.ok.inj hnext]
        exact hone
  have hempty : Linked hw (.collect (hw.components.map fun component => (component.componentId, []))) := by
    intro c hops hc hop hhop
    have hitems : (Dict.collect (hw.components.map fun component => (component.componentId, ([] : List RouteHop)))).items =
        hw.components.map fun component => (component.componentId, []) := by
      refine Dict.items_collect ?_
      rw [List.map_map]
      exact hw.components_nodup
    have hmem := Dict.get?_eq_some.1 hc
    rw [hitems] at hmem
    obtain ⟨component, -, hpair⟩ := List.mem_map.1 hmem
    rw [← (Prod.mk.inj hpair).2] at hhop
    cases hhop
  have hunsorted := hlinks hw.links _ (fun link hlink => hlink) hempty unsorted hfold
  rw [← Except.ok.inj hsorted]
  intro c hops hc hop hhop
  rw [Dict.get?_mapValues] at hc
  obtain ⟨old, hold, rfl⟩ := Option.map_eq_some_iff.1 hc
  exact hunsorted c old hold hop ((List.perm_insertionSort _ _).mem_iff.1 hhop)

/-- `__init__` of a router. -/
def router (hw : HardwareSpec) : Except RouterError TopologyRouter :=
  match h : hw.adjacency with
  | .error error => .error error
  | .ok adjacency => .ok {
      components := hw.componentMap
      adjacency := adjacency
      source_eq := fun c hops hc hop hhop => (linked_adjacency h c hops hc hop hhop).1
      known := fun c hops hc hop hhop =>
        let ⟨_, _, _, hgives⟩ := linked_adjacency h c hops hc hop hhop
        (addLinkDirection_ok hgives).known
      bandwidth_pos := fun c hops hc hop hhop =>
        let ⟨_, _, _, hgives⟩ := linked_adjacency h c hops hc hop hhop
        (addLinkDirection_ok hgives).bandwidth_pos
      latency_nonneg := fun c hops hc hop hhop =>
        let ⟨_, _, _, hgives⟩ := linked_adjacency h c hops hc hop hhop
        (addLinkDirection_ok hgives).latency_nonneg
      named := by
        intro c hops hc hop hhop hop' hhop' hlink htarget
        obtain ⟨-, link, hin, hgives⟩ := linked_adjacency h c hops hc hop hhop
        obtain ⟨-, link', hin', hgives'⟩ := linked_adjacency h c hops hc hop' hhop'
        have hsame : link = link' := List.inj_on_of_nodup_map hw.links_nodup hin hin' (by
          rw [← (addLinkDirection_ok hgives).link_eq, ← (addLinkDirection_ok hgives').link_eq, hlink])
        rw [hsame, htarget, hgives'] at hgives
        exact (Option.some.inj (Except.ok.inj hgives)).symm }

end HardwareSpec

/-! ## The search -/

/-- An entry of the queue. -/
structure RouteEntry where
  cost : ℚ
  signature : List String
  component : String
  hops : List RouteHop

/-- Entries are ordered by time, then by the names along the route. -/
def RouteEntry.key (e : RouteEntry) : ℚ ×ₗ List String := toLex (e.cost, e.signature)

/-- `heappush`. No two entries of the queue agree in the compared fields, so
hops are not compared. -/
def routePush (queue : List RouteEntry) (e : RouteEntry) : List RouteEntry :=
  queue.orderedInsert (fun a b => toLex (a.key, a.component) ≤ toLex (b.key, b.component)) e

namespace TopologyRouter

variable (r : TopologyRouter) (source target : String) (byteCount : ℕ)

/-- A route may go on from the component. -/
def transits (name : String) (component : ComponentSpec) : Bool :=
  decide (name = source) || component.routingTransit && match component.routingTransitEndpoints with
    | none => true
    | some endpoints => decide (source ∈ endpoints) || decide (target ∈ endpoints)

/-- A hop out of an entry's component: the route by it waits, if it is the
best known to where it leads. -/
def relax (e : RouteEntry) (state : Dict String (ℚ ×ₗ List String) × List RouteEntry) (hop : RouteHop) :
    Except RouterError (Dict String (ℚ ×ₗ List String) × List RouteEntry) := do
  let nextCost := e.cost + (← hop.transferNs byteCount)
  let next : RouteEntry := ⟨nextCost, e.signature ++ [hop.linkId, hop.targetComponent], hop.targetComponent, e.hops ++ [hop]⟩
  let better := match state.1.get? hop.targetComponent with
    | none => true
    | some previous => decide (next.key < previous)
  if better then .ok (state.1.insert hop.targetComponent next.key, routePush state.2 next)
  else .ok state

/-- The loop of `route`; `none` when the queue is empty. -/
def search : ℕ → Dict String (ℚ ×ₗ List String) → List RouteEntry → Except RouterError (Option (List RouteHop))
  | 0, _, _ => .error .unending
  | _ + 1, _, [] => .ok none
  | fuel + 1, best, e :: queue =>
    if best.get? e.component ≠ some e.key then search fuel best queue
    else if e.component = target then .ok (some e.hops)
    else
      match r.components.get? e.component with
      | none => .error (.key e.component)
      | some component =>
        if transits source target e.component component then do
          let (best, queue) ← ((r.adjacency.get? e.component).getD []).foldlM (relax byteCount e) (best, queue)
          search fuel best queue
        else search fuel best queue

/-- A bound on the passes of the loop: every hop is pushed at most once. -/
def passes : ℕ := (r.adjacency.values.map List.length).sum + 2

/-- The rest of `route`, without the table of answers. -/
def searchRoute : Except RouterError (List RouteHop) := do
  match ← r.search source target byteCount r.passes (Dict.empty.insert source (toLex (0, []))) [⟨0, [], source, []⟩] with
  | some hops => .ok hops
  | none => .error (.value ("no communication route from " ++ source ++ " to " ++ target))

/-- `_ROUTE_CACHE_MAX_ENTRIES` -/
def routeCacheMaxEntries : ℕ := 4096

/-- The table of answers: by source, target, byte count and policy. -/
abbrev RouteCache := Dict (String × String × ℕ × String) (List RouteHop)

/-- An answer is kept; beyond the bound the oldest one goes. -/
def storeRoute (cacheKey : String × String × ℕ × String) (hops : List RouteHop) (cache : RouteCache) : RouteCache :=
  let stored := (cache.insert cacheKey hops).moveToEnd cacheKey
  if routeCacheMaxEntries < stored.items.length then ⟨stored.items.tail, stored.nodup.sublist ((List.tail_sublist _).map _)⟩
  else stored

/-- `policy.strip().lower().replace("-", "_")` -/
def normalizedPolicy (policy : String) : String :=
  String.ofList ((strip policy).toList.map fun c => if c.toLower = '-' then '_' else c.toLower)

/-- `route` -/
def route (byteCount : ℤ) (policy : String) : EStateM RouterError RouteCache (List RouteHop) := do
  raise (refuse (byteCount < 0) (.value "byte_count must be a non-negative integer"))
  raise (refuse (source ∉ r.components.keys) (.value ("unknown route source component " ++ source)))
  raise (refuse (target ∉ r.components.keys) (.value ("unknown route target component " ++ target)))
  if source = target then pure []
  else do
    raise (refuse (normalizedPolicy policy ≠ "lowest_latency") (.value ("unsupported routing policy " ++ policy)))
    let cacheKey := (source, target, byteCount.toNat, normalizedPolicy policy)
    match (← get).get? cacheKey with
    | some cached =>
      modify fun cache => cache.moveToEnd cacheKey
      pure cached
    | none =>
      let hops ← raise (r.searchRoute source target byteCount.toNat)
      modify (storeRoute cacheKey hops)
      pure hops

end TopologyRouter

end HeteroSim.Routing
