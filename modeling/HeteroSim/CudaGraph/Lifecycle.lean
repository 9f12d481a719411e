/-
CUDA graph transitions: what one backend invocation does to the runtime's
graph entries. Preparing derives a transition and changes nothing; only
`commit` moves the runtime's state. Node properties are values of any type
with an equality, since they are only compared. A state carries its object
identity, which is what `commit` compares.
-/
import HeteroSim.Collect
import HeteroSim.Raising
import HeteroSim.Text
import HeteroSim.Transitions

namespace HeteroSim.CudaGraph

def sweepIntervalUs : ℕ := 5000000

def evictionAgeUs : ℕ := 10000000

inductive UpdateResult
  | success | constraintsFailure
deriving DecidableEq

/-- One backend graph computation; building one checks the texts and that there are nodes. -/
structure CudaGraphInvocation (V : Type) where
  contextId : String
  graphKey : String
  graphUid : ℕ
  nodeProperties : List V
  compatible : Bool
  compatibilityReason : String
  enabled : Bool
  updateResult : Option UpdateResult
  contextId_ne : contextId ≠ ""
  graphKey_ne : graphKey ≠ ""
  reason_ne : compatibilityReason ≠ ""
  nodes_ne : nodeProperties ≠ []

/-- A context and the graph's key in it. -/
abbrev Key := String × String

structure CudaGraphEntry (V : Type) where
  contextId : String
  graphKey : String
  graphUid : ℕ
  nodeProperties : List V
  warmupComplete : Bool
  graphExists : Bool
  executableGeneration : ℕ
  captureGeneration : ℕ
  lastUsedUs : ℕ

structure CudaGraphState (V : Type) where
  entries : List (CudaGraphEntry V)
  lastSweeps : List (String × ℕ)
  revision : ℕ
  known : Bool
  unresolvedUpdateCount : ℕ
  /-- The identity of the object. -/
  object : ℕ

inductive Event
  | destroyGraph | capture | instantiate | update | updateFailure | destroyExec
  | launchSubmitUnresolved | firstLaunchSubmit | replaySubmit | ordinarySubmit
deriving DecidableEq

inductive Reason
  | disabled
  | incompatible (why : String)
  | warmupPropertiesChanged | warmupStableCapture | propertiesChangedResetWarmup
  | stableCapture | stableReplay
deriving DecidableEq

structure CudaGraphTransition (V : Type) where
  revision : ℕ
  state : CudaGraphState V
  contextId : String
  graphKey : String
  useGraph : Bool
  reason : Reason
  propertiesChanged : Option Bool
  events : List Event
  replayId : Option String
  executableId : Option String
  evicted : List (CudaGraphEntry V)
  previousState : Option (CudaGraphState V)
  updateCompatibilityPending : Bool

variable {V : Type}

def CudaGraphInvocation.key (i : CudaGraphInvocation V) : Key := (i.contextId, i.graphKey)

def CudaGraphInvocation.runs (i : CudaGraphInvocation V) : Bool := i.enabled && i.compatible

namespace CudaGraphEntry

def key (e : CudaGraphEntry V) : Key := (e.contextId, e.graphKey)

/-- The entry a first lookup makes. -/
def new (key : Key) : CudaGraphEntry V := ⟨key.1, key.2, 0, [], false, false, 0, 0, 0⟩

def numbered (scope kind : String) (number : ℕ) : String :=
  String.ofList (scope.toList ++ kind.toList ++ zeroPad 1 number)

def executableId (e : CudaGraphEntry V) : Option String :=
  if e.executableGeneration = 0 then none
  else some (numbered (e.contextId ++ ":" ++ e.graphKey) ":exec:" e.executableGeneration)

end CudaGraphEntry

namespace CudaGraphState

def cold (object : ℕ) : CudaGraphState V := ⟨[], [], 0, true, 0, object⟩

/-- The entries under their keys, in their order. -/
def byKey (s : CudaGraphState V) : Dict Key (CudaGraphEntry V) :=
  Dict.collect (s.entries.map fun e => (e.key, e))

def sweeps (s : CudaGraphState V) : Dict String ℕ :=
  Dict.collect s.lastSweeps

/-- The latest time the state knows of. -/
def clock (s : CudaGraphState V) : ℕ :=
  (s.entries.map CudaGraphEntry.lastUsedUs ++ s.lastSweeps.map Prod.snd).foldl max 0

end CudaGraphState

/-! ## The sweep of a lookup -/

/-- Whether an entry of the swept context has been idle for too long. -/
def CudaGraphEntry.idle (context : String) (hostTimeUs : ℕ) (e : CudaGraphEntry V) : Bool :=
  e.contextId = context && evictionAgeUs ≤ hostTimeUs - e.lastUsedUs

structure Swept (V : Type) where
  entries : Dict Key (CudaGraphEntry V)
  sweeps : Dict String ℕ
  evicted : List (CudaGraphEntry V)

def sweep (s : CudaGraphState V) (context : String) (hostTimeUs : ℕ) : Swept V :=
  if sweepIntervalUs ≤ hostTimeUs - (s.sweeps.get? context).getD 0 then
    let evicted := s.byKey.values.filter (CudaGraphEntry.idle context hostTimeUs)
    ⟨evicted.foldl (fun d e => d.erase e.key) s.byKey, s.sweeps.insert context hostTimeUs, evicted⟩
  else ⟨s.byKey, s.sweeps, []⟩

/-! ## The entry's step -/

/-- An entry on its way through a transition. -/
structure Progress (V : Type) where
  entry : CudaGraphEntry V
  useGraph : Bool
  capture : Bool
  reason : Reason

variable [DecidableEq V]

/-- An equal nonzero uid vouches for the properties; else they are compared and kept. -/
def CudaGraphEntry.observe (e : CudaGraphEntry V) (i : CudaGraphInvocation V) :
    Except String (CudaGraphEntry V × Bool) :=
  if i.graphUid ≠ 0 ∧ i.graphUid = e.graphUid then do
    refuse (i.nodeProperties.length ≠ e.nodeProperties.length) "same nonzero GGML uid cannot change node count"
    return (e, false)
  else .ok ({ e with graphUid := i.graphUid, nodeProperties := i.nodeProperties },
    decide (i.nodeProperties ≠ e.nodeProperties))

omit [DecidableEq V] in
def CudaGraphEntry.warm (e : CudaGraphEntry V) (changed : Bool) : Progress V :=
  if !e.warmupComplete then
    if changed then ⟨e, false, false, .warmupPropertiesChanged⟩
    else ⟨{ e with warmupComplete := true }, true, true, .warmupStableCapture⟩
  else if changed then ⟨{ e with warmupComplete := false }, false, false, .propertiesChangedResetWarmup⟩
  else if e.executableGeneration = 0 then ⟨e, true, true, .stableCapture⟩
  else ⟨e, true, false, .stableReplay⟩

/-- What a graph launch submits. -/
structure Submitted (V : Type) where
  entry : CudaGraphEntry V
  events : List Event
  updatePending : Bool

/-- The update after a capture, whose executable is fresh or has to take the new graph. -/
def updateExecutable (revision : ℕ) (i : CudaGraphInvocation V) (allowUnknownUpdate fresh : Bool)
    (e : CudaGraphEntry V) (emitted : List Event) : Except String (Submitted V) :=
  if !fresh then
    match i.updateResult with
    | none => do
      refuse (!allowUnknownUpdate) "recapture requires source-derived executable update compatibility"
      return ⟨e, emitted ++ [.update, .launchSubmitUnresolved], true⟩
    | some .constraintsFailure =>
      return ⟨{ e with executableGeneration := revision + 1 },
        emitted ++ [.updateFailure, .destroyExec, .instantiate, .firstLaunchSubmit], false⟩
    | some .success => return ⟨e, emitted ++ [.update, .replaySubmit], false⟩
  else do
    refuse (i.updateResult = some .constraintsFailure) "fresh executable is instantiated from the identical captured graph"
    return ⟨e, emitted ++ [.update, .firstLaunchSubmit], false⟩

def submitGraph (revision : ℕ) (i : CudaGraphInvocation V) (allowUnknownUpdate capture : Bool)
    (e : CudaGraphEntry V) : Except String (Submitted V) :=
  let captured := if capture then { e with graphExists := true, captureGeneration := e.captureGeneration + 1 } else e
  let emitted := if capture then (if e.graphExists then [.destroyGraph] else []) ++ [Event.capture] else []
  let fresh := decide (e.executableGeneration = 0)
  let instantiated := if fresh then { captured with executableGeneration := revision + 1 } else captured
  let emitted := if fresh then emitted ++ [.instantiate] else emitted
  if capture then updateExecutable revision i allowUnknownUpdate fresh instantiated emitted
  else return ⟨instantiated, emitted ++ [if fresh then .firstLaunchSubmit else .replaySubmit], false⟩

/-- How an invocation takes its entry on. -/
structure Invoked (V : Type) where
  entry : CudaGraphEntry V
  useGraph : Bool
  reason : Reason
  changed : Option Bool
  events : List Event
  updatePending : Bool

def CudaGraphEntry.invoke (e : CudaGraphEntry V) (revision : ℕ) (i : CudaGraphInvocation V)
    (allowUnknownUpdate : Bool) : Except String (Invoked V) :=
  if i.runs then do
    let observed ← e.observe i
    let step := observed.1.warm observed.2
    if step.useGraph then do
      let submitted ← submitGraph revision i allowUnknownUpdate step.capture step.entry
      return ⟨submitted.entry, true, step.reason, some observed.2, submitted.events, submitted.updatePending⟩
    else return ⟨step.entry, false, step.reason, some observed.2, [.ordinarySubmit], false⟩
  else
    return ⟨e, false, if i.enabled then .incompatible i.compatibilityReason else .disabled, none,
      [.ordinarySubmit], false⟩

/-! ## The transition -/

def transitionOf (s : CudaGraphState V) (i : CudaGraphInvocation V) (object : ℕ) (swept : Swept V)
    (step : Invoked V) : CudaGraphTransition V where
  revision := s.revision
  state := ⟨(swept.entries.insert i.key step.entry).values, swept.sweeps.items, s.revision + 1, true,
    s.unresolvedUpdateCount + if step.updatePending then 1 else 0, object⟩
  contextId := i.contextId
  graphKey := i.graphKey
  useGraph := step.useGraph
  reason := step.reason
  propertiesChanged := step.changed
  events := step.events
  replayId := if step.useGraph then some (CudaGraphEntry.numbered i.contextId ":replay:" (s.revision + 1)) else none
  executableId := if step.useGraph then step.entry.executableId else none
  evicted := swept.evicted
  previousState := some s
  updateCompatibilityPending := step.updatePending

/-- The transition of one invocation; `object` is the identity of the state it makes. -/
def prepareCudaGraph (s : CudaGraphState V) (i : CudaGraphInvocation V) (hostTimeUs : ℕ) (allowUnknownUpdate : Bool)
    (object : ℕ) : Except String (CudaGraphTransition V) := do
  refuse (!s.known) "CUDA Graph lifecycle initialization is unknown; model warmup explicitly"
  refuse (hostTimeUs < s.clock) "CUDA Graph host clock must be monotonic"
  let swept := sweep s i.contextId hostTimeUs
  let entry := (swept.entries.get? i.key).getD (.new i.key)
  let step ← ({ entry with lastUsedUs := hostTimeUs }).invoke s.revision i allowUnknownUpdate
  return transitionOf s i object swept step

/-! ## The runtime -/

structure CudaGraphRuntime (V : Type) where
  state : CudaGraphState V

namespace CudaGraphRuntime

omit [DecidableEq V]

def commit (r : CudaGraphRuntime V) (t : CudaGraphTransition V) : Except String (CudaGraphRuntime V) :=
  if t.revision ≠ r.state.revision ∨ t.previousState.map CudaGraphState.object ≠ some r.state.object then
    .error "stale or already committed CUDA Graph transition"
  else .ok ⟨t.state⟩

/-- A failure is no evidence of what the backend kept: nothing is known from then on. -/
def failed (r : CudaGraphRuntime V) (object : ℕ) : CudaGraphRuntime V :=
  ⟨⟨[], [], r.state.revision + 1, false, 0, object⟩⟩

end CudaGraphRuntime

end HeteroSim.CudaGraph

/-!
A runtime among its callers: transitions are prepared from its state at any
time, kept, and committed in any order or never. The history is what has been
committed, the latest first; from it alone the life of a key is told: when it
was last looked up, with which properties it last ran and was last captured,
and which sweep ended it.
-/

namespace HeteroSim.CudaGraph

/-- A transition and the call that prepared it. -/
structure Prepared (V : Type) where
  invocation : CudaGraphInvocation V
  hostTimeUs : ℕ
  allowUnknownUpdate : Bool
  object : ℕ
  transition : CudaGraphTransition V

structure World (V : Type) where
  runtime : CudaGraphRuntime V
  /-- Every transition that was returned, whether or not anyone still holds it. -/
  prepared : List (Prepared V)
  /-- The committed transitions, the latest first. -/
  history : List (Prepared V)
  /-- The identity of the next object. -/
  objects : ℕ

inductive Call (V : Type)
  | prepare (invocation : CudaGraphInvocation V) (hostTimeUs : ℕ) (allowUnknownUpdate : Bool)
  | commit (index : ℕ)
  | failed

variable {V : Type}

def Prepared.key (p : Prepared V) : Key := p.invocation.key

namespace World

/-- A runtime that nothing was run on. -/
def start : World V := ⟨⟨.cold 0⟩, [], [], 1⟩

variable [DecidableEq V]

def prepare (w : World V) (i : CudaGraphInvocation V) (hostTimeUs : ℕ) (allowUnknownUpdate : Bool) :
    Except String (World V) := do
  let transition ← prepareCudaGraph w.runtime.state i hostTimeUs allowUnknownUpdate w.objects
  return { w with
    prepared := w.prepared ++ [⟨i, hostTimeUs, allowUnknownUpdate, w.objects, transition⟩]
    objects := w.objects + 1 }

omit [DecidableEq V] in
def commit (w : World V) (p : Prepared V) : Except String (World V) := do
  let runtime ← w.runtime.commit p.transition
  return { w with runtime, history := p :: w.history }

/-- A call that is accepted, and the world behind it. -/
inductive Step : World V → Call V → World V → Prop
  | prepare {w w' : World V} {i : CudaGraphInvocation V} {hostTimeUs : ℕ} {allowUnknownUpdate : Bool} :
    w.prepare i hostTimeUs allowUnknownUpdate = .ok w' → Step w (.prepare i hostTimeUs allowUnknownUpdate) w'
  | commit {w w' : World V} {index : ℕ} {p : Prepared V} :
    w.prepared[index]? = some p → w.commit p = .ok w' → Step w (.commit index) w'
  | failed (w : World V) :
    Step w .failed { w with runtime := w.runtime.failed w.objects, objects := w.objects + 1 }

/-- The worlds that accepted calls lead to; a refused call changes nothing. -/
def Reachable (w : World V) : Prop := Reached Step (· = start) w

end World

/-! ## The life of a key -/

/-- The time of a context's last sweep. -/
def lastSweep (context : String) : List (Prepared V) → ℕ
  | [] => 0
  | c :: earlier =>
    if c.invocation.contextId = context ∧ sweepIntervalUs ≤ c.hostTimeUs - lastSweep context earlier then c.hostTimeUs
    else lastSweep context earlier

structure Life (V : Type) where
  lastUse : ℕ
  /-- The properties of its last enabled and compatible invocation. -/
  ran : Option (List V)
  /-- The properties it was last captured from. -/
  captured : Option (List V)

/-- Whether a lookup ends the life of a key: it sweeps the key's context and finds it idle for too long. -/
def Ends (c : Prepared V) (earlier : List (Prepared V)) (key : Key) (l : Life V) : Prop :=
  key.1 = c.invocation.contextId ∧ sweepIntervalUs ≤ c.hostTimeUs - lastSweep c.invocation.contextId earlier ∧
    evictionAgeUs ≤ c.hostTimeUs - l.lastUse

instance (c : Prepared V) (earlier : List (Prepared V)) (key : Key) (l : Life V) : Decidable (Ends c earlier key l) :=
  inferInstanceAs (Decidable (_ ∧ _))

/-- What a lookup of a key makes of its life. -/
def Life.next (c : Prepared V) (l : Life V) : Life V where
  lastUse := c.hostTimeUs
  ran := if c.invocation.runs then some c.invocation.nodeProperties else l.ran
  captured := if Event.capture ∈ c.transition.events then some c.invocation.nodeProperties else l.captured

/-- The life that outlasts a lookup's sweep. -/
def outlasts (c : Prepared V) (earlier : List (Prepared V)) (key : Key) (l : Option (Life V)) : Option (Life V) :=
  l.filter fun l => ¬Ends c earlier key l

/-- A key's life since it was last created, if it has not ended. -/
def life (key : Key) : List (Prepared V) → Option (Life V)
  | [] => none
  | c :: earlier =>
    let before := outlasts c earlier key (life key earlier)
    if c.key = key then some ((before.getD ⟨0, none, none⟩).next c) else before

/-- What a commit finds: its key's life behind the sweep. -/
def found (c : Prepared V) (earlier : List (Prepared V)) : Option (Life V) :=
  outlasts c earlier c.key (life c.key earlier)

/-- Equal nonzero uids of one key stand for equal node properties. -/
def UidsAgree (history : List (Prepared V)) : Prop :=
  ∀ c ∈ history, ∀ d ∈ history, c.key = d.key → c.invocation.graphUid ≠ 0 →
    c.invocation.graphUid = d.invocation.graphUid → c.invocation.nodeProperties = d.invocation.nodeProperties

/-- What is promised of a committed transition, told from what was committed before it. -/
structure Commits (c : Prepared V) (earlier : List (Prepared V)) : Prop where
  launches : c.transition.useGraph = true ↔
    c.invocation.enabled = true ∧ c.invocation.compatible = true ∧
      (found c earlier).bind Life.ran = some c.invocation.nodeProperties
  replays : c.transition.useGraph = true → Event.capture ∉ c.transition.events →
    (found c earlier).bind Life.captured = some c.invocation.nodeProperties
  fresh : Event.instantiate ∈ c.transition.events → ∃ id, c.transition.executableId = some id ∧
    ∀ d ∈ earlier, d.transition.executableId ≠ some id ∧ ∀ e ∈ d.transition.state.entries, e.executableId ≠ some id
  evicts : ∀ key, key ∈ c.transition.evicted.map CudaGraphEntry.key ↔
    ∃ l, life key earlier = some l ∧ Ends c earlier key l

end HeteroSim.CudaGraph
