/-
Page staging of a NAND core (`nand_core.py`): a partly written page waits
in an intermediate store and is programmed once its bytes are all valid, or
when its attention scope flushes. The store counts valid bytes against each
host channel until the page's program ends. What the timeline answers (when
bytes arrive, when a program ends) is given to each call.
-/
import HeteroSim.Raising
import HeteroSim.Gaps
import HeteroSim.Tally

namespace HeteroSim.Nand

/-- Nanoseconds. -/
abbrev Time := ℚ

inductive PageStaging
  | none
  | logicDie
  | external
deriving DecidableEq

/-- What the page staging reads of `NandConfig`. -/
structure NandConfig where
  pageBytes : ℕ
  channels : ℕ
  targetsPerChannel : ℕ
  diesPerTarget : ℕ
  lunsPerDie : ℕ
  hostChannels : ℕ
  pageStaging : PageStaging
  pageStagingBytesPerHostChannel : ℕ
  pageBytes_pos : 0 < pageBytes

/-- `_tail_channel` -/
def tailChannel (cfg : NandConfig) (page : ℕ) : ℕ :=
  let baseUnits := cfg.channels * cfg.targetsPerChannel * cfg.diesPerTarget * cfg.lunsPerDie
  page % baseUnits / (baseUnits / cfg.channels) % cfg.hostChannels

/-- A staged page: its valid ranges and their bytes, when its data is in the
store, the end of its program (`none` while it fills), its host channel. -/
structure TailEntry where
  ranges : List Gap
  valid : Int
  ready : Time
  flush : Option Time
  channel : ℕ
deriving DecidableEq

/-- A quotient by 2^64 rounded to 53 bits, ties to even: the numerator. -/
def round53 (n : ℕ) : ℕ :=
  if n < 2 ^ 53 then n
  else
    let e := n.log2 - 52
    let q := n / 2 ^ e
    let r := n % 2 ^ e
    (if 2 ^ (e - 1) < r ∨ (r = 2 ^ (e - 1) ∧ q % 2 = 1) then q + 1 else q) * 2 ^ e

/-- `_page_share` -/
def pageShare (page : ℕ) : ℚ := round53 (page * 0x9E3779B97F4A7C15 % 2 ^ 64) / 2 ^ 64

/-- The counters a transaction copies at its begin. -/
structure TailCounters where
  valid : ℕ → Int
  peak : ℕ → Int
  flushing : List (Time × ℕ)
  fullPageFills : ℕ
  flushStartedPages : ℕ
  flushDiscardedPages : ℕ
  spilledPages : ℕ
  evictedPages : ℕ

/-- `_NandTransaction`: first images of what changes while it is open. -/
structure NandTransaction where
  tailPages : Dict ℕ (Option TailEntry)
  tailScopes : Option (Dict String (Finset ℕ))
  tailSpilled : Option (Finset ℕ)
  tailCounters : TailCounters

/-- The core. The heap of running programs is a sorted list; the newest open
transaction comes first. -/
structure NandState where
  config : NandConfig
  tailPages : Dict ℕ TailEntry
  tailFullScopes : Dict String (Finset ℕ)
  tailSpilled : Finset ℕ
  counters : TailCounters
  tailIndex : Option (List ℕ)
  tailDeferScope : Option String
  tailShared : ℕ
  tailFraction : ℚ
  transactions : List NandTransaction

def NandState.init (config : NandConfig) : NandState where
  config := config
  tailPages := .empty
  tailFullScopes := .empty
  tailSpilled := ∅
  counters := ⟨fun _ => 0, fun _ => 0, [], 0, 0, 0, 0, 0⟩
  tailIndex := none
  tailDeferScope := none
  tailShared := 0
  tailFraction := 1
  transactions := []

/-! ## Journaling -/

def NandTransaction.rememberTail (s : NandState) (page : ℕ) (t : NandTransaction) : NandTransaction :=
  { t with tailPages := t.tailPages.setDefault page (s.tailPages.get? page) }

def NandTransaction.rememberTailScopes (s : NandState) (t : NandTransaction) : NandTransaction :=
  { t with tailScopes := some (t.tailScopes.getD s.tailFullScopes) }

def NandTransaction.rememberTailSpilled (s : NandState) (t : NandTransaction) : NandTransaction :=
  { t with tailSpilled := some (t.tailSpilled.getD s.tailSpilled) }

/-- `_tail_remember` -/
def tailRemember (page : ℕ) (s : NandState) : NandState :=
  { s with transactions := s.transactions.map (·.rememberTail s page) }

/-- `_tail_scope_remember` -/
def tailScopeRemember (s : NandState) : NandState :=
  { s with transactions := s.transactions.map (·.rememberTailScopes s) }

def tailSpilledRemember (s : NandState) : NandState :=
  { s with transactions := s.transactions.map (·.rememberTailSpilled s) }

/-- `_tail_spill` -/
def tailSpill (page : ℕ) (s : NandState) : NandState :=
  let s := tailSpilledRemember s
  { s with
    tailSpilled := insert page s.tailSpilled
    counters := { s.counters with spilledPages := s.counters.spilledPages + 1 } }

/-! ## Running programs -/

/-- `heappush` -/
def pushProgram (p : Time × ℕ) (heap : List (Time × ℕ)) : List (Time × ℕ) :=
  heap.orderedInsert (fun a b => a.1 < b.1 ∨ a.1 = b.1 ∧ a.2 ≤ b.2) p

def setValid (channel : ℕ) (n : Int) (valid : ℕ → Int) : ℕ → Int := Function.update valid channel n

/-- The page's copy goes, and its bytes with it. -/
def dropCopy (page : ℕ) (entry : TailEntry) (s : NandState) : NandState :=
  let s := tailRemember page s
  { s with
    tailPages := s.tailPages.erase page
    counters := { s.counters with
      valid := setValid entry.channel (s.counters.valid entry.channel - entry.valid) s.counters.valid } }

/-- A popped program retires the copy it is the program of. -/
def retire (s : NandState) (p : Time × ℕ) : NandState :=
  match s.tailPages.get? p.2 with
  | none => s
  | some entry => if entry.flush = some p.1 then dropCopy p.2 entry s else s

def dropPrograms (now : Time) (s : NandState) : NandState :=
  { s with counters := { s.counters with flushing := s.counters.flushing.dropWhile fun p => decide (p.1 ≤ now) } }

/-- `_tail_release` -/
def tailRelease (now : Time) (s : NandState) : NandState :=
  match s.counters.flushing with
  | [] => s
  | (first, _) :: _ =>
    if now < first then s
    else
      { (s.counters.flushing.takeWhile fun p => decide (p.1 ≤ now)).foldl retire (dropPrograms now s) with
        tailIndex := none }

/-- The page's program is running: its copy stays until `stop`. -/
def startProgram (page : ℕ) (entry : TailEntry) (stop : Time) (s : NandState) : NandState :=
  let s := tailRemember page s
  { s with
    tailPages := s.tailPages.insert page { entry with flush := some stop }
    counters := { s.counters with flushing := pushProgram (stop, page) s.counters.flushing } }

/-- What `_tail_program` counts. -/
def countProgram (s : NandState) : NandState :=
  { s with counters := { s.counters with flushStartedPages := s.counters.flushStartedPages + 1 } }

/-- `_tail_evict` -/
def tailEvict (page : ℕ) (entry : TailEntry) (stop : Time) (s : NandState) : NandState :=
  let s := startProgram page entry stop (countProgram s)
  { s with counters := { s.counters with evictedPages := s.counters.evictedPages + 1 } }

/-! ## Staged pages in a span -/

/-- `_tail_staged`: by look-ups in a short span, else by a cached index. -/
def tailStaged (first last : Int) (s : NandState) : List ℕ × NandState :=
  if s.tailPages.keys = [] then ([], s)
  else if last - first < 32 then
    ((List.range (last + 1).toNat).filter fun page => decide (first ≤ page ∧ page ∈ s.tailPages.keys), s)
  else
    let index := s.tailIndex.getD (s.tailPages.keys.insertionSort (· ≤ ·))
    ((index.take (bisectLeft (fun page : ℕ => decide ((page : Int) ≤ last)) index)).drop
      (bisectLeft (fun page : ℕ => decide ((page : Int) < first)) index), { s with tailIndex := some index })

/-! ## Scopes -/

/-- `set_staging_scope` -/
def setStagingScope (scope : Option String) (s : NandState) : Except String NandState :=
  if scope = some "" then .error "staging scope must be a non-empty string or None"
  else .ok { s with tailDeferScope := scope }

/-- The full page waits for its scope's flush. -/
def deferPage (scope : String) (page : ℕ) (s : NandState) : NandState :=
  let s := tailScopeRemember s
  { s with tailFullScopes := s.tailFullScopes.insert scope (insert page ((s.tailFullScopes.get? scope).getD ∅)) }

/-- `scoped_pages.discard(page)` in every scope, and emptied scopes go. -/
def undefer (page : ℕ) (scopes : Dict String (Finset ℕ)) : Dict String (Finset ℕ) :=
  let discarded := scopes.mapValues fun pages => pages.erase page
  ⟨discarded.items.filter fun p => p.2 ≠ ∅, discarded.nodup.sublist (List.filter_sublist.map _)⟩

/-- The pages a flush of the scope takes up. -/
def selectedPages (scope : String) (pages : List ℕ) (s : NandState) : Finset ℕ :=
  let selected := (s.tailFullScopes.get? scope).getD ∅
  if pages = [] then selected else selected.filter (· ∈ pages)

/-- The selected pages whose program has not started, in ascending order. -/
def activePages (selected : Finset ℕ) (s : NandState) : List ℕ :=
  (selected.sort (· ≤ ·)).filter fun page => decide (∃ entry ∈ s.tailPages.get? page, entry.flush = none)

/-- One page of the flush. -/
def flushPage (stop : ℕ → Time) (s : NandState) (page : ℕ) : NandState :=
  match s.tailPages.get? page with
  | none => s
  | some entry => startProgram page entry (stop page) (countProgram s)

/-- `flush_staged_pages`, with the pages it programs. Every selected page is
discarded from the selection, so the scope goes. -/
def flushStagedPages (scope : String) (pages : List ℕ) (stop : ℕ → Time) (s : NandState) : List ℕ × NandState :=
  if s.config.pageStaging ≠ .logicDie then ([], s)
  else
    let s := tailScopeRemember s
    let selected := selectedPages scope pages s
    if selected = ∅ then ([], s)
    else
      let active := activePages selected s
      let s := active.foldl (flushPage stop) s
      (active, { s with tailFullScopes := s.tailFullScopes.erase scope })

/-! ## Discarding -/

/-- A page whose program has not started waits in no scope any more. -/
def dropDeferred (page : ℕ) (s : NandState) : NandState :=
  let s := tailScopeRemember s
  { s with
    tailFullScopes := undefer page s.tailFullScopes
    counters := { s.counters with flushDiscardedPages := s.counters.flushDiscardedPages + 1 } }

/-- One page of the discard. -/
def discardPage (s : NandState) (page : ℕ) : NandState :=
  match s.tailPages.get? page with
  | none => s
  | some entry => if entry.flush = none then dropDeferred page (dropCopy page entry s) else dropCopy page entry s

/-- `discard_tail_pages` -/
def discardTailPages (address byteCount : Int) (s : NandState) : NandState :=
  let first := address / s.config.pageBytes
  let last := (address + byteCount - 1) / s.config.pageBytes
  let s :=
    if s.tailSpilled = ∅ then s
    else
      let s := tailSpilledRemember s
      { s with tailSpilled := s.tailSpilled.filter fun page => ¬(first ≤ (page : Int) ∧ (page : Int) ≤ last) }
  let (staged, s) := tailStaged first last s
  if staged = [] then s
  else { staged.foldl discardPage s with tailIndex := none }

/-! ## Transactions -/

def beginTransaction (s : NandState) : NandState :=
  { s with transactions := ⟨.empty, none, none, s.counters⟩ :: s.transactions }

/-- `_finish_transaction` of the newest token; any other raises. -/
def commitTransaction (s : NandState) : NandState := { s with transactions := s.transactions.tail }

/-- `rollback_transaction` of the newest token. -/
def rollbackTransaction (s : NandState) : NandState :=
  match s.transactions with
  | [] => s
  | t :: rest =>
    let s := { s with transactions := rest, counters := t.tailCounters, tailSpilled := t.tailSpilled.getD s.tailSpilled }
    { s with
      tailPages := t.tailPages.items.foldl (fun pages p => pages.put p.1 p.2) s.tailPages
      tailIndex := if t.tailPages.items = [] then s.tailIndex else none
      tailFullScopes := t.tailScopes.getD s.tailFullScopes }

end HeteroSim.Nand
