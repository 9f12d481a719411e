/-
The cache's operations: one access, a validated batch, the invalidation of
a freed buffer, and the flush of dirty lines.
-/
import HeteroSim.Cache.State

namespace HeteroSim.Cache

/-- One line an access touches: what the line holds, what is covered. -/
structure LineSpec where
  key : LineKey
  physicalSize : Nat
  coveredBytes : Nat
  fullLine : Bool
deriving DecidableEq

/-- What one access reports; the backing accesses in the order issued. -/
structure CacheAccessResult where
  touchedLines : Nat := 0
  hitLines : Nat := 0
  missLines : Nat := 0
  allocatedLines : Nat := 0
  readFillBytes : Nat := 0
  readForOwnershipBytes : Nat := 0
  writeThroughBytes : Nat := 0
  bypassWriteBytes : Nat := 0
  dirtyEvictionBytes : Nat := 0
  cleanEvictionBytes : Nat := 0
  dirtyEvictionLines : Nat := 0
  cleanEvictionLines : Nat := 0
  backingAccesses : List CacheAccess := []
deriving DecidableEq

structure CacheFlushResult where
  flushedLines : Nat
  writebackBytes : Nat
  backingAccesses : List CacheAccess
deriving DecidableEq

def fixedSizeMessage (a : CacheAccess) : String :=
  "buffer_size_bytes must be fixed at first access for buffer " ++ a.bufferId ++ " generation " ++
    toString a.allocationGeneration

/-- The end of `_buffer_size`: the access lies inside the known size. -/
def checkInside (a : CacheAccess) : Option Nat → Except CacheError (Option Nat)
  | some n =>
    if n < a.endBytes then .error (.state "access range exceeds remembered buffer_size_bytes") else .ok (some n)
  | none => .ok none

/-- `_buffer_size` -/
def bufferSize (c : CacheState) (a : CacheAccess) : Except CacheError (Option Nat) := do
  let known ← match c.bufferSizes a.bufferKey with
    | some known =>
      if a.bufferSizeBytes.isSome ∧ known ≠ a.bufferSizeBytes then .error (.state (fixedSizeMessage a))
      else .ok known
    | none => .ok a.bufferSizeBytes
  checkInside a known

/-- Where line `i` ends: at the buffer's end when that is known. -/
def lineEnd (cfg : CacheConfig) (size : Option Nat) (i : Nat) : Nat :=
  match size with
  | none => i * cfg.lineBytes + cfg.lineBytes
  | some s => min (i * cfg.lineBytes + cfg.lineBytes) s

/-- The loop body of `_line_specs`. -/
def lineSpec (cfg : CacheConfig) (size : Option Nat) (a : CacheAccess) (i : Nat) : Except CacheError LineSpec :=
  let lineStart := i * cfg.lineBytes
  let physicalSize := lineEnd cfg size i - lineStart
  let coveredStart := max a.offsetBytes lineStart
  let coveredEnd := min a.endBytes (lineEnd cfg size i)
  if ∃ s ∈ size, s ≤ lineStart then .error (.state "access resolved beyond declared buffer")
  else if physicalSize = 0 then .error (.state "access resolved to an empty cache line")
  else if coveredEnd ≤ coveredStart then .error (.state "access range does not cover cache line")
  else .ok
    { key := ⟨strip a.bufferId, a.allocationGeneration, i⟩
      physicalSize := physicalSize
      coveredBytes := coveredEnd - coveredStart
      fullLine := coveredStart = lineStart ∧ coveredEnd = lineEnd cfg size i }

/-- `_line_specs` -/
def lineSpecs (c : CacheState) (a : CacheAccess) : Except CacheError (List LineSpec) := do
  let size ← bufferSize c a
  let first := a.offsetBytes / c.config.lineBytes
  let last := (a.endBytes - 1) / c.config.lineBytes
  (List.range' first (last + 1 - first)).mapM (lineSpec c.config size a)

def count (f : CacheCounters → CacheCounters) : CacheM Unit :=
  modify fun c => { c with counters := f c.counters }

/-- `self._buffer_sizes[key]` -/
def rememberedSize (key : BufferKey) : CacheM (Option Nat) := do
  let c ← get
  match c.bufferSizes key with
  | some size => pure size
  | none => throw .keyError

/-- `_evict_one` -/
def evictOne : CacheM (CacheLine × Nat × Nat) := do
  let c ← get
  match c.lines.items with
  | [] => throw (.state "cache has no resident line to evict")
  | (key, victim) :: _ =>
    set (popLine key c).2
    let dirtyBytes := if victim.dirty then victim.sizeBytes else 0
    let cleanBytes := if victim.dirty then 0 else victim.sizeBytes
    count fun n => { n with
      evictionLines := n.evictionLines + 1, dirtyEvictionBytes := n.dirtyEvictionBytes + dirtyBytes }
    pure (victim, dirtyBytes, cleanBytes)

/-- `_ensure_slot`, the eviction added to the access's result. -/
def ensureSlot (r : CacheAccessResult) : CacheM CacheAccessResult := do
  let c ← get
  if c.lines.items.length < c.config.capacityLines then pure r
  else
    let (victim, dirty, clean) ← evictOne
    let r := { r with
      dirtyEvictionBytes := r.dirtyEvictionBytes + dirty, cleanEvictionBytes := r.cleanEvictionBytes + clean }
    if victim.dirty then
      let size ← rememberedSize ⟨victim.bufferId, victim.allocationGeneration⟩
      let b ← raise (CacheAccess.new victim.bufferId (victim.lineIndex * c.config.lineBytes) victim.sizeBytes
        .write size victim.allocationGeneration)
      pure { r with
        dirtyEvictionLines := r.dirtyEvictionLines + 1, backingAccesses := r.backingAccesses ++ [b] }
    else pure { r with cleanEvictionLines := r.cleanEvictionLines + 1 }

/-- The covered bytes written through to the backing store. -/
def writeThrough (a : CacheAccess) (spec : LineSpec) (coveredOffset : Nat) (size : Option Nat)
    (r : CacheAccessResult) : CacheM CacheAccessResult := do
  count fun n => { n with writeThroughBytes := n.writeThroughBytes + spec.coveredBytes }
  let b ← raise (CacheAccess.new a.bufferId coveredOffset spec.coveredBytes .write size a.allocationGeneration)
  pure { r with
    writeThroughBytes := r.writeThroughBytes + spec.coveredBytes, backingAccesses := r.backingAccesses ++ [b] }

/-- The access's loop body at a resident line, already popped. -/
def hitLine (a : CacheAccess) (spec : LineSpec) (coveredOffset : Nat) (size : Option Nat) (line : CacheLine)
    (r : CacheAccessResult) : CacheM CacheAccessResult := do
  let c ← get
  count fun n => { n with hitLines := n.hitLines + 1 }
  let r := { r with hitLines := r.hitLines + 1 }
  match a.operation, c.config.writeBack with
  | .write, true =>
    modify (setLine spec.key { line with dirty := true })
    pure r
  | .write, false =>
    let r ← writeThrough a spec coveredOffset size r
    modify (setLine spec.key line)
    pure r
  | .read, _ =>
    modify (setLine spec.key line)
    pure r

/-- A line's fill from the backing store, which a full-line write skips. -/
def fillLine (a : CacheAccess) (spec : LineSpec) (lineOffset : Nat) (size : Option Nat)
    (r : CacheAccessResult) : CacheM CacheAccessResult := do
  if a.operation = .read ∨ spec.fullLine = false then
    count fun n => { n with readFillBytes := n.readFillBytes + spec.physicalSize }
    let b ← raise (CacheAccess.new a.bufferId lineOffset spec.physicalSize .read size a.allocationGeneration)
    pure { r with
      readFillBytes := r.readFillBytes + spec.physicalSize
      readForOwnershipBytes := r.readForOwnershipBytes + (if a.operation = .write then spec.physicalSize else 0)
      backingAccesses := r.backingAccesses ++ [b] }
  else pure r

/-- The access's loop body at an absent line. -/
def missLine (a : CacheAccess) (spec : LineSpec) (lineOffset coveredOffset : Nat) (size : Option Nat)
    (r : CacheAccessResult) : CacheM CacheAccessResult := do
  let c ← get
  count fun n => { n with missLines := n.missLines + 1 }
  let r := { r with missLines := r.missLines + 1 }
  if a.operation = .write ∧ c.config.writeAllocate = false then
    count fun n => { n with bypassWriteBytes := n.bypassWriteBytes + spec.coveredBytes }
    let b ← raise (CacheAccess.new a.bufferId coveredOffset spec.coveredBytes .write size a.allocationGeneration)
    pure { r with
      bypassWriteBytes := r.bypassWriteBytes + spec.coveredBytes, backingAccesses := r.backingAccesses ++ [b] }
  else
    let r ← ensureSlot r
    let r ← fillLine a spec lineOffset size r
    let dirtyLine := a.operation = .write ∧ c.config.writeBack = true
    modify (setLine spec.key
      ⟨spec.key.bufferId, spec.key.lineIndex, spec.physicalSize, dirtyLine, spec.key.generation⟩)
    let r := { r with allocatedLines := r.allocatedLines + 1 }
    if a.operation = .write ∧ c.config.writeBack = false then writeThrough a spec coveredOffset size r else pure r

/-- The loop body of `access`. -/
def touchLine (a : CacheAccess) (spec : LineSpec) (r : CacheAccessResult) : CacheM CacheAccessResult := do
  let c ← get
  let lineOffset := spec.key.lineIndex * c.config.lineBytes
  let coveredOffset := max a.offsetBytes lineOffset
  let size ← rememberedSize a.bufferKey
  let (line?, c) := popLine spec.key c
  set c
  match line? with
  | some line => hitLine a spec coveredOffset size line r
  | none => missLine a spec lineOffset coveredOffset size r

def touchLines (a : CacheAccess) : List LineSpec → CacheAccessResult → CacheM CacheAccessResult
  | [], r => pure r
  | spec :: specs, r => do
    let r ← touchLine a spec r
    touchLines a specs r

/-- `_remember_buffer` and the `setdefault` after it. -/
def introduceBuffer (key : BufferKey) (size : Option Nat) (c : CacheState) : CacheState :=
  let c := rememberBuffer key c
  { c with bufferSizes := Function.update c.bufferSizes key (some ((c.bufferSizes key).getD size)) }

def access (a : CacheAccess) : CacheM CacheAccessResult := do
  let c ← get
  let specs ← raise (lineSpecs c a)
  modify (introduceBuffer a.bufferKey a.bufferSizeBytes)
  let r ← touchLines a specs {}
  count fun n => { n with accessCount := n.accessCount + 1 }
  pure { r with touchedLines := specs.length }

/-- The validation loop of `access_many`: the size each buffer has so far. -/
def checkMany (c : CacheState) : (BufferKey → Option (Option Nat)) → List CacheAccess → Except CacheError Unit
  | _, [] => .ok ()
  | sizes, a :: as =>
    let size := match sizes a.bufferKey with
      | some size => size
      | none => (c.bufferSizes a.bufferKey).getD a.bufferSizeBytes
    let sizes := Function.update sizes a.bufferKey (some size)
    if a.bufferSizeBytes.isSome ∧ size ≠ a.bufferSizeBytes then .error (.state (fixedSizeMessage a))
    else if ∃ s ∈ size, s < a.endBytes then
      .error (.state "access range exceeds remembered buffer_size_bytes")
    else checkMany c sizes as

def accessAll : List CacheAccess → CacheM (List CacheAccessResult)
  | [] => pure []
  | a :: as => do
    let r ← access a
    let rs ← accessAll as
    pure (r :: rs)

def accessMany (accesses : List CacheAccess) : CacheM (List CacheAccessResult) := do
  let c ← get
  raise (checkMany c (fun _ => none) accesses)
  accessAll accesses

def popLines (keys : List LineKey) (c : CacheState) : CacheState := keys.foldl (fun c k => (popLine k c).2) c

/-- `discard_buffer`; `order` lists the buffer's set of line keys in the
order its iteration yields them. -/
def discardBuffer (key : BufferKey) (order : List LineKey) (c : CacheState) : CacheState :=
  let c := rememberBuffer key (popLines order c)
  { c with bufferSizes := Function.update c.bufferSizes key none }

/-- The iteration orders of the buffer's set of line keys. -/
def DiscardOrder (key : BufferKey) (order : List LineKey) (c : CacheState) : Prop :=
  order.Nodup ∧ order.toFinset = (c.bufferLineKeys key).getD ∅

def flushSelects (bufferId : Option String) (generation : Option Nat) (key : LineKey) (line : CacheLine) : Bool :=
  (∀ b ∈ bufferId, key.bufferId = b) && (∀ g ∈ generation, line.allocationGeneration = g) && line.dirty

/-- The loop of `flush`, over the lines as they were at its start. -/
def flushLines (bufferId : Option String) (generation : Option Nat) :
    List (LineKey × CacheLine) → CacheFlushResult → CacheM CacheFlushResult
  | [], r => pure r
  | (key, line) :: rest, r => do
    if flushSelects bufferId generation key line then
      let c ← get
      let size ← rememberedSize ⟨line.bufferId, line.allocationGeneration⟩
      let b ← raise (CacheAccess.new line.bufferId (line.lineIndex * c.config.lineBytes) line.sizeBytes
        .write size line.allocationGeneration)
      modify (setLine key { line with dirty := false })
      flushLines bufferId generation rest
        ⟨r.flushedLines + 1, r.writebackBytes + line.sizeBytes, r.backingAccesses ++ [b]⟩
    else flushLines bufferId generation rest r

def flush (bufferId : Option String) (generation : Option Nat) : CacheM CacheFlushResult := do
  if bufferId.map strip = some "" then throw (.state "buffer_id must be non-empty text or None")
  else
    let c ← get
    let r ← flushLines (bufferId.map strip) generation c.lines.items ⟨0, 0, []⟩
    count fun n => { n with flushWritebackBytes := n.flushWritebackBytes + r.writebackBytes }
    pure r

end HeteroSim.Cache
