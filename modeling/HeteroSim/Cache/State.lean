/-
The stateful on-chip cache: line-granular, fully associative, LRU, with an
explicit write policy (`cache_state.py`). Lines are kept in LRU-to-MRU
order; two link tables and a per-buffer index repeat what that order says,
so that a transaction can journal a line with its successor.
-/
import HeteroSim.Dict
import HeteroSim.Raising
import HeteroSim.Text

namespace HeteroSim.Cache

inductive CacheError
  /-- `CacheStateError` and its text. -/
  | state (message : String)
  | keyError
deriving DecidableEq

inductive Operation
  | read
  | write
deriving DecidableEq

/-- A buffer generation, the key of the remembered sizes. -/
structure BufferKey where
  bufferId : String
  generation : Nat
deriving DecidableEq

structure LineKey where
  bufferId : String
  generation : Nat
  lineIndex : Nat
deriving DecidableEq

/-- `key[:2]` -/
def LineKey.bufferKey (k : LineKey) : BufferKey := ⟨k.bufferId, k.generation⟩

/-- One byte-range access, as its validation leaves it: trimmed name, at
least one byte, inside the declared buffer. -/
structure CacheAccess where
  bufferId : String
  offsetBytes : Nat
  sizeBytes : Nat
  operation : Operation
  bufferSizeBytes : Option Nat
  allocationGeneration : Nat
  bufferId_ne : bufferId ≠ ""
  bufferId_strip : strip bufferId = bufferId
  size_pos : 0 < sizeBytes
  inBuffer : ∀ s ∈ bufferSizeBytes, 0 < s ∧ offsetBytes + sizeBytes ≤ s
deriving DecidableEq

namespace CacheAccess

def bufferKey (a : CacheAccess) : BufferKey := ⟨a.bufferId, a.allocationGeneration⟩

def endBytes (a : CacheAccess) : Nat := a.offsetBytes + a.sizeBytes

/-- The constructor, with the checks of `__post_init__`. -/
def new (bufferId : String) (offsetBytes sizeBytes : Nat) (operation : Operation)
    (bufferSizeBytes : Option Nat) (allocationGeneration : Nat) : Except CacheError CacheAccess :=
  if hid : strip bufferId = "" then .error (.state "buffer_id must be non-empty text")
  else if hsize : sizeBytes = 0 then .error (.state "size_bytes must be a positive integer")
  else if hpos : bufferSizeBytes = some 0 then
    .error (.state "buffer_size_bytes must be a positive integer or None")
  else if hin : ∀ s ∈ bufferSizeBytes, offsetBytes + sizeBytes ≤ s then
    .ok { bufferId := strip bufferId, offsetBytes, sizeBytes, operation, bufferSizeBytes, allocationGeneration
          bufferId_ne := hid, bufferId_strip := strip_strip _, size_pos := by omega
          inBuffer := fun s hs => ⟨Nat.pos_of_ne_zero fun h0 => hpos (h0 ▸ hs), hin s hs⟩ }
  else .error (.state "access range exceeds declared buffer_size_bytes")

end CacheAccess

/-- A resident line. -/
structure CacheLine where
  bufferId : String
  lineIndex : Nat
  sizeBytes : Nat
  dirty : Bool
  allocationGeneration : Nat
deriving DecidableEq

/-- The nine running totals. -/
structure CacheCounters where
  accessCount : Nat := 0
  hitLines : Nat := 0
  missLines : Nat := 0
  evictionLines : Nat := 0
  dirtyEvictionBytes : Nat := 0
  flushWritebackBytes : Nat := 0
  writeThroughBytes : Nat := 0
  bypassWriteBytes : Nat := 0
  readFillBytes : Nat := 0
deriving DecidableEq

/-- One journal entry: a line as it was before a change, and the line after
it in the order. -/
structure LineRecord where
  key : LineKey
  existed : Bool
  oldLine : Option CacheLine
  successor : Option LineKey
deriving DecidableEq

structure BufferRecord where
  key : BufferKey
  existed : Bool
  oldValue : Option Nat
deriving DecidableEq

/-- The journal of the open transaction; `ident` is the object's identity. -/
structure CacheTransaction where
  ident : Nat
  lines : List LineRecord
  buffers : List BufferRecord
  bufferSeen : Finset BufferKey
  scalars : CacheCounters

/-- The checked constructor arguments. -/
structure CacheConfig where
  capacityBytes : Nat
  lineBytes : Nat
  writeBack : Bool
  writeAllocate : Bool
  line_pos : 0 < lineBytes
  fits_line : lineBytes ≤ capacityBytes
  multiple : capacityBytes % lineBytes = 0

namespace CacheConfig

def capacityLines (cfg : CacheConfig) : Nat := cfg.capacityBytes / cfg.lineBytes

theorem capacityLines_pos (cfg : CacheConfig) : 0 < cfg.capacityLines :=
  Nat.div_pos cfg.fits_line cfg.line_pos

/-- `ExplicitCacheState.__init__`'s checks. -/
def new (capacityBytes lineBytes : Int) (writeBack writeAllocate : Bool) : Except CacheError CacheConfig :=
  if hc : capacityBytes ≤ 0 then .error (.state "capacity_bytes must be a positive integer")
  else if hl : lineBytes ≤ 0 then .error (.state "line_bytes must be a positive integer")
  else if hf : capacityBytes < lineBytes then .error (.state "capacity_bytes must fit at least one line")
  else if hm : capacityBytes % lineBytes ≠ 0 then
    .error (.state "capacity_bytes must be an integer multiple of line_bytes")
  else .ok
    { capacityBytes := capacityBytes.toNat, lineBytes := lineBytes.toNat, writeBack, writeAllocate
      line_pos := by omega, fits_line := by omega
      multiple := by
        have h : ((capacityBytes.toNat % lineBytes.toNat : Nat) : Int) = 0 := by
          rw [Int.natCast_emod, Int.toNat_of_nonneg (by omega), Int.toNat_of_nonneg (by omega)]
          exact not_not.1 hm
        omega }

end CacheConfig

/-- The cache. Only `_lines` is ever walked in order, so the link tables,
the per-buffer index and the remembered sizes are maps. -/
structure CacheState where
  config : CacheConfig
  lines : Dict LineKey CacheLine
  lruPrev : LineKey → Option (Option LineKey)
  lruNext : LineKey → Option (Option LineKey)
  bufferLineKeys : BufferKey → Option (Finset LineKey)
  bufferSizes : BufferKey → Option (Option Nat)
  counters : CacheCounters
  transaction : Option CacheTransaction
  nextIdent : Nat

def CacheState.init (config : CacheConfig) : CacheState where
  config := config
  lines := .empty
  lruPrev := fun _ => none
  lruNext := fun _ => none
  bufferLineKeys := fun _ => none
  bufferSizes := fun _ => none
  counters := {}
  transaction := none
  nextIdent := 0

/-- A cache method: it may raise, and keeps what it changed when it does. -/
abbrev CacheM := EStateM CacheError CacheState

/-! ## The line table and its links -/

def recordLine (key : LineKey) (c : CacheState) : CacheState :=
  match c.transaction with
  | none => c
  | some t =>
    let record : LineRecord := ⟨key, c.lines.contains key, c.lines.get? key, (c.lruNext key).join⟩
    { c with transaction := some { t with lines := t.lines ++ [record] } }

/-- `table[key] = target`, when there is a key to write at. -/
def pointAt (key target : Option LineKey) (table : LineKey → Option (Option LineKey)) :
    LineKey → Option (Option LineKey) :=
  match key with
  | some k => Function.update table k (some target)
  | none => table

/-- The key leaves its buffer's set, and an emptied set the index. -/
def dropIndexed (key : LineKey) (index : BufferKey → Option (Finset LineKey)) : BufferKey → Option (Finset LineKey) :=
  match index key.bufferKey with
  | none => index
  | some ks => Function.update index key.bufferKey (if ks.erase key = ∅ then none else some (ks.erase key))

/-- `_pop_line` at a present key, the journal entry written. -/
def unlink (key : LineKey) (c : CacheState) : CacheState :=
  let previous := (c.lruPrev key).join
  let successor := (c.lruNext key).join
  { c with
    lines := c.lines.erase key
    lruPrev := pointAt successor previous (Function.update c.lruPrev key none)
    lruNext := pointAt previous successor (Function.update c.lruNext key none)
    bufferLineKeys := dropIndexed key c.bufferLineKeys }

def popLine (key : LineKey) (c : CacheState) : Option CacheLine × CacheState :=
  let c := recordLine key c
  match c.lines.get? key with
  | none => (none, c)
  | some line => (some line, unlink key c)

/-- The table entries of a key that comes right after `previous`. -/
def attach (previous : Option LineKey) (key : LineKey) (c : CacheState) : CacheState :=
  { c with
    bufferLineKeys := Function.update c.bufferLineKeys key.bufferKey
      (some (insert key ((c.bufferLineKeys key.bufferKey).getD ∅)))
    lruPrev := Function.update c.lruPrev key (some previous)
    lruNext := pointAt previous (some key) (Function.update c.lruNext key (some none)) }

/-- `_set_line` at an absent key: the line goes to the MRU end. -/
def link (key : LineKey) (value : CacheLine) (c : CacheState) : CacheState :=
  attach c.lines.keys.getLast? key { c with lines := c.lines.insert key value }

def setLine (key : LineKey) (value : CacheLine) (c : CacheState) : CacheState :=
  let c := recordLine key c
  if key ∈ c.lines.keys then { c with lines := c.lines.insert key value } else link key value c

/-- The loop of `_rebuild_lru_links`, `previous` the key before `keys`. -/
def relink (previous : Option LineKey) : List LineKey → CacheState → CacheState
  | [], c => c
  | key :: keys, c => relink (some key) keys (attach previous key c)

def rebuildLruLinks (c : CacheState) : CacheState :=
  relink none c.lines.keys
    { c with lruPrev := fun _ => none, lruNext := fun _ => none, bufferLineKeys := fun _ => none }

/-- `_remember_buffer`: the first change of a remembered size is journaled. -/
def rememberBuffer (key : BufferKey) (c : CacheState) : CacheState :=
  match c.transaction with
  | none => c
  | some t =>
    if key ∈ t.bufferSeen then c
    else
      let record : BufferRecord := ⟨key, (c.bufferSizes key).isSome, (c.bufferSizes key).join⟩
      let t := { t with bufferSeen := insert key t.bufferSeen, buffers := t.buffers ++ [record] }
      { c with transaction := some t }

/-! ## Transactions -/

def beginTransaction : CacheM Nat := do
  let c ← get
  match c.transaction with
  | some _ => throw (.state "cache transaction already active")
  | none =>
    set { c with
      transaction := some ⟨c.nextIdent, [], [], ∅, c.counters⟩
      nextIdent := c.nextIdent + 1 }
    pure c.nextIdent

def commitTransaction (ident : Nat) : CacheM Unit := do
  let c ← get
  if c.transaction.map (·.ident) = some ident then set { c with transaction := none }
  else throw (.state "invalid cache transaction")

/-- `restored`: the old line put back in front of its successor. -/
def insertBefore (successor key : LineKey) (line : CacheLine) : List (LineKey × CacheLine) → List (LineKey × CacheLine)
  | [] => []
  | (k, l) :: rest =>
    if k = successor then (key, line) :: (k, l) :: rest else (k, l) :: insertBefore successor key line rest

theorem mem_keys_insertBefore {s key : LineKey} {line : CacheLine} :
    ∀ {l : List (LineKey × CacheLine)} {k : LineKey},
      k ∈ (insertBefore s key line l).map Prod.fst → k = key ∨ k ∈ l.map Prod.fst
  | [], _, h => .inr h
  | (k', _) :: l, k, h => by
    simp only [insertBefore] at h
    split at h
    · simpa using h
    · simp only [List.map_cons, List.mem_cons] at h ⊢
      rcases h with h | h
      · exact .inr (.inl h)
      · exact (mem_keys_insertBefore h).imp id .inr

theorem nodup_insertBefore {s key : LineKey} {line : CacheLine} :
    ∀ {l : List (LineKey × CacheLine)}, (l.map Prod.fst).Nodup → key ∉ l.map Prod.fst →
      ((insertBefore s key line l).map Prod.fst).Nodup
  | [], h, _ => h
  | (k, _) :: l, h, hk => by
    simp only [List.map_cons, List.nodup_cons, List.mem_cons, not_or] at h hk
    simp only [insertBefore]
    split
    · simp only [List.map_cons, List.nodup_cons, List.mem_cons, not_or]
      exact ⟨hk, h⟩
    · simp only [List.map_cons, List.nodup_cons]
      exact ⟨fun hm => (mem_keys_insertBefore hm).elim (fun he => hk.1 he.symm) h.1, nodup_insertBefore h.2 hk.2⟩

/-- One step of the rollback's first loop. -/
def undoLine (lines : Dict LineKey CacheLine) (r : LineRecord) : Dict LineKey CacheLine :=
  let lines' := lines.erase r.key
  match r.existed, r.oldLine with
  | true, some old =>
    match r.successor with
    | none => lines'.insert r.key old
    | some s =>
      if s ∈ lines'.keys then
        ⟨insertBefore s r.key old lines'.items, nodup_insertBefore lines'.nodup (by simp [lines', Dict.erase])⟩
      else lines'.insert r.key old
  | _, _ => lines'

def undoBuffer (sizes : BufferKey → Option (Option Nat)) (r : BufferRecord) : BufferKey → Option (Option Nat) :=
  Function.update sizes r.key (if r.existed then some r.oldValue else none)

def rollbackTransaction (ident : Nat) : CacheM Unit := do
  let c ← get
  match c.transaction with
  | some t =>
    if t.ident = ident then
      let c := { c with
        lines := t.lines.reverse.foldl undoLine c.lines
        bufferSizes := t.buffers.reverse.foldl undoBuffer c.bufferSizes
        counters := t.scalars }
      set { rebuildLruLinks c with transaction := none }
    else throw (.state "invalid cache transaction")
  | none => throw (.state "invalid cache transaction")

end HeteroSim.Cache
