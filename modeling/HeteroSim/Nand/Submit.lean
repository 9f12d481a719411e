/-
Writes through the page staging. `_submit_staged` picks the pages that have
a filling copy or are partly covered, admits those the store can hold, and
cuts the request into runs; a run of admitted pages is merged into the
store, any other goes to the array.
-/
import HeteroSim.Nand.State

namespace HeteroSim.Nand

/-- A validated write. -/
structure AccessRequest where
  address : ℕ
  byteCount : ℕ
  arrival : Time
  byteCount_pos : 0 < byteCount

def AccessRequest.stop (r : AccessRequest) : ℕ := r.address + r.byteCount

/-- What the controller and the timeline answer during one request. -/
structure Media where
  /-- When a part's bytes are admitted. -/
  arrive : ℕ → Time
  /-- When a page's bytes are in the store. -/
  data : ℕ → Time
  /-- When a page's program ends. -/
  stop : ℕ → Time
  /-- `_validate_request` raises. -/
  rejects : Bool
  /-- A part's array path raises. -/
  fails : ℕ → Bool

inductive NandError
  | rejected
  | allocation (text : String)
  | failed
  | nested

abbrev NandM := EStateM NandError NandState

/-- The page offsets `[lo, hi)` the request covers. -/
def pageSpan (cfg : NandConfig) (r : AccessRequest) (page : ℕ) : Int × Int :=
  let base : ℕ := page * cfg.pageBytes
  ((max r.address base : ℕ) - base, (min r.stop (base + cfg.pageBytes) : ℕ) - base)

/-! ## Admission -/

/-- The page has a copy that still fills. -/
def filling : Option TailEntry → Bool
  | some entry => entry.flush.isNone
  | none => false

/-- How far the page's valid bytes grow. -/
def growth (entry : Option TailEntry) (lo hi : Int) : Int :=
  match entry with
  | some entry =>
    if entry.flush = none then totalLength (mergeRanges (entry.ranges ++ [Gap.mk lo hi])) - entry.valid
    else hi - entry.valid
  | none => hi

/-- A filling page that would overflow is programmed now. -/
def evictFilling (page : ℕ) (stop : Time) (s : NandState) : NandState :=
  match s.tailPages.get? page with
  | some entry => if entry.flush = none then tailEvict page entry stop s else s
  | none => s

/-- One page of the admission; beside the state go the predicted counters and
the pages kept so far. -/
def admitPage (m : Media) (r : AccessRequest) (room : Int) (acc : NandState × (ℕ → Int) × List ℕ) (page : ℕ) :
    NandState × (ℕ → Int) × List ℕ :=
  let (s, valid, kept) := acc
  let (lo, hi) := pageSpan s.config r page
  let channel := tailChannel s.config page
  let entry := s.tailPages.get? page
  if filling entry = false ∧ s.tailFraction < 1 ∧ s.tailFraction ≤ pageShare page then
    (tailSpill page s, valid, kept)
  else
    let grow := growth entry lo hi
    if room < valid channel + grow then (tailSpill page (evictFilling page (m.stop page) s), valid, kept)
    else (s, setValid channel (valid channel + grow) valid, kept ++ [page])

/-- `_tail_admit` -/
def tailAdmit (m : Media) (pages : List ℕ) (r : AccessRequest) (s : NandState) : List ℕ × NandState :=
  let s := tailRelease r.arrival s
  let room : Int := s.config.pageStagingBytesPerHostChannel - s.tailShared
  let (s, _, kept) := pages.foldl (admitPage m r room) (s, s.counters.valid, [])
  (kept, s)

/-! ## Writing staged pages -/

/-- The ranges, held bytes and readiness a write starts from; a copy whose
program is running is superseded. -/
def staging (entry : Option TailEntry) (lo hi : Int) (valid : ℕ → Int) : List Gap × Int × Time × (ℕ → Int) :=
  match entry with
  | some entry =>
    if entry.flush = none then (mergeRanges (entry.ranges ++ [Gap.mk lo hi]), entry.valid, entry.ready, valid)
    else ([Gap.mk 0 hi], 0, 0, setValid entry.channel (valid entry.channel - entry.valid) valid)
  | none => ([Gap.mk 0 hi], 0, 0, valid)

/-- The scope a full page is deferred to. -/
def deferScope (s : NandState) : Option String :=
  if s.config.pageStaging = .logicDie then s.tailDeferScope else none

/-- A page that is full is deferred to the scope, or programmed. -/
def fillPage (page : ℕ) (stop : Time) (s : NandState) : Option Time × NandState :=
  let s := { s with counters := { s.counters with fullPageFills := s.counters.fullPageFills + 1 } }
  match deferScope s with
  | some scope => (none, deferPage scope page s)
  | none => (some stop, countProgram s)

/-- The page's entry is written, and its program joins the running ones. -/
def storePage (page : ℕ) (entry : TailEntry) (s : NandState) : NandState :=
  let s := tailRemember page s
  let s := { s with tailPages := s.tailPages.insert page entry }
  match entry.flush with
  | none => s
  | some stop => { s with counters := { s.counters with flushing := pushProgram (stop, page) s.counters.flushing } }

/-- The refusal's text. -/
def overflowMessage (staged shared : Int) (limit channel : ℕ) : String :=
  s!"unable to allocate {staged + shared} bytes in capacity {limit} of NAND page staging on host channel {channel} " ++
    s!"({staged} staged + {shared} shared)"

/-- One page of `_submit_tail_write`; `counts` are its valid and peak lists. -/
def writePage (m : Media) (r : AccessRequest) (counts : (ℕ → Int) × (ℕ → Int)) (page : ℕ) :
    NandM ((ℕ → Int) × (ℕ → Int)) := do
  let s ← get
  let (lo, hi) := pageSpan s.config r page
  let channel := tailChannel s.config page
  let limit := s.config.pageStagingBytesPerHostChannel
  let shared : Int := if limit = 0 then 0 else s.tailShared
  let (ranges, held, ready, valid) := staging (s.tailPages.get? page) lo hi counts.1
  let filled := totalLength ranges
  let staged := valid channel + filled - held
  raise (refuse (limit ≠ 0 ∧ (limit : Int) < staged + shared) (.allocation (overflowMessage staged shared limit channel)))
  let (flush, s) := if ranges = [Gap.mk 0 s.config.pageBytes] then fillPage page (m.stop page) s else (none, s)
  set (storePage page ⟨ranges, filled, max ready (m.data page), flush, channel⟩ s)
  pure (setValid channel staged valid, Function.update counts.2 channel (max (counts.2 channel) (staged + shared)))

/-- The pages of a span of bytes. -/
def pagesOf (cfg : NandConfig) (start stop : ℕ) : List ℕ :=
  let first := start / cfg.pageBytes
  List.range' first ((stop - 1) / cfg.pageBytes + 1 - first)

/-- The store's counters after the pages. -/
def commitCounts (counts : (ℕ → Int) × (ℕ → Int)) (s : NandState) : NandState :=
  { s with counters := { s.counters with valid := counts.1, peak := counts.2 }, tailIndex := none }

/-- `_submit_tail_write` of part `i` of the request. -/
def submitTailWrite (m : Media) (i : ℕ) (r : AccessRequest) : NandM Unit := do
  modify (tailRelease (m.arrive i))
  let s ← get
  let counts ← (pagesOf s.config r.address r.stop).foldlM (writePage m r) (s.counters.valid, s.counters.peak)
  modify (commitCounts counts)

/-! ## Splitting a request -/

/-- A run of bytes, of admitted pages or not. -/
structure Run where
  tail : Bool
  lo : ℕ
  hi : ℕ
deriving DecidableEq

/-- An admitted run that ends where the page starts is extended. -/
def joinRun (runs : List Run) (lo hi : ℕ) : List Run :=
  match runs.getLast? with
  | some run => if run.tail ∧ run.hi = lo then runs.dropLast ++ [⟨true, run.lo, hi⟩] else runs ++ [⟨true, lo, hi⟩]
  | none => [⟨true, lo, hi⟩]

/-- One admitted page of the split; beside the runs goes the cursor. -/
def addRun (cfg : NandConfig) (r : AccessRequest) (acc : List Run × ℕ) (page : ℕ) : List Run × ℕ :=
  let (runs, cursor) := acc
  let lo := max r.address (page * cfg.pageBytes)
  let hi := min r.stop ((page + 1) * cfg.pageBytes)
  (joinRun (if cursor < lo then runs ++ [⟨false, cursor, lo⟩] else runs) lo hi, hi)

/-- The runs of the request, its admitted pages given in ascending order. -/
def splitRuns (cfg : NandConfig) (r : AccessRequest) (staged : List ℕ) : List Run :=
  let (runs, cursor) := staged.foldl (addRun cfg r) ([], r.address)
  if cursor < r.stop then runs ++ [⟨false, cursor, r.stop⟩] else runs

/-- One part of the request; `live` is `_submit_live`. -/
def submitPart (live : ℕ → AccessRequest → NandM Unit) (m : Media) (r : AccessRequest) (part : Run × ℕ) : NandM Unit :=
  let (run, i) := part
  if h : 0 < run.hi - run.lo then
    let part : AccessRequest := { r with address := run.lo, byteCount := run.hi - run.lo, byteCount_pos := h }
    if run.tail then submitTailWrite m i part else live i part
  else throw .rejected

/-- The request's runs, one write when there is one. -/
def submitRuns (live : ℕ → AccessRequest → NandM Unit) (m : Media) (r : AccessRequest) : List Run → NandM Unit
  | [_] => submitTailWrite m 0 r
  | runs => runs.zipIdx.forM (submitPart live m r)

/-- The page is staged, or covered in part, and has not spilled. -/
def touches (cfg : NandConfig) (r : AccessRequest) (listed : List ℕ) (s : NandState) (page : ℕ) : Bool :=
  (page ∈ listed ∧ filling (s.tailPages.get? page) = true ∨
    r.address % cfg.pageBytes ≠ 0 ∧ page = r.address / cfg.pageBytes ∨
    r.stop % cfg.pageBytes ≠ 0 ∧ page = (r.stop - 1) / cfg.pageBytes) ∧ page ∉ s.tailSpilled

/-- The pages the request finds staged, in ascending order. -/
def stagedPages (r : AccessRequest) (listed : List ℕ) (s : NandState) : List ℕ :=
  (pagesOf s.config r.address r.stop).filter (touches s.config r listed s)

/-- The pages the store takes: all of them when it has no limit. -/
def admitted (m : Media) (r : AccessRequest) (staged : List ℕ) (s : NandState) : List ℕ × NandState :=
  if staged ≠ [] ∧ s.config.pageStagingBytesPerHostChannel ≠ 0 then tailAdmit m staged r s else (staged, s)

/-- `_submit_staged` of a write; it returns whether it took the request. -/
def submitStaged (live : ℕ → AccessRequest → NandM Unit) (m : Media) (r : AccessRequest) : NandM Bool := do
  let s ← get
  let (listed, s) := tailStaged (r.address / s.config.pageBytes : ℕ) ((r.stop - 1) / s.config.pageBytes : ℕ) s
  let (kept, s) := admitted m r (stagedPages r listed s) s
  set s
  if kept = [] then pure false
  else do
    raise (refuse (m.rejects = true) .rejected)
    submitRuns live m r (splitRuns s.config r kept)
    pure true

/-- `_submit_live` of part `i`, nested at most `n` deep. -/
def submitLive (m : Media) : ℕ → ℕ → AccessRequest → NandM Unit
  | 0, _, _ => throw .nested
  | n + 1, i, r => do
    let s ← get
    let handled ← if s.config.pageStaging = .none then pure false else submitStaged (submitLive m n) m r
    if handled then pure () else raise (refuse (m.fails i = true) .failed)

/-- `submit` of a write; its parts are never split again. -/
def submit (m : Media) (r : AccessRequest) : NandM Unit := submitLive m 2 0 r

/-! ## Runs -/

inductive Op
  | write (m : Media) (r : AccessRequest)
  | read (first last : Int)
  | setStagingScope (scope : Option String)
  | flushStagedPages (scope : String) (pages : List ℕ) (stop : ℕ → Time)
  | discardTailPages (address byteCount : Int)
  | share (shared : ℕ) (fraction : ℚ)
  | beginTransaction
  | commitTransaction
  | rollbackTransaction

/-- What a call leaves, returned or raised; a read only caches the index, and
the runtime refreshes the shared bytes and the stored share. -/
def exec (s : NandState) : Op → NandState
  | .write m r => after (submit m r) s
  | .read first last => (tailStaged first last s).2
  | .setStagingScope scope =>
    match setStagingScope scope s with
    | .ok s => s
    | .error _ => s
  | .flushStagedPages scope pages stop => (flushStagedPages scope pages stop s).2
  | .discardTailPages address byteCount => discardTailPages address byteCount s
  | .share shared fraction => { s with tailShared := shared, tailFraction := fraction }
  | .beginTransaction => beginTransaction s
  | .commitTransaction => commitTransaction s
  | .rollbackTransaction => rollbackTransaction s

def run (ops : List Op) (s : NandState) : NandState := ops.foldl exec s

end HeteroSim.Nand
