/-
The validation of a NAND request (`validate_nand_request`, `memory_mapping.py`,
and `_validate_request`, `nand_core.py`) and the ways a request takes to it.
Calendars, bank log, wear, read cache and timeline are one state `M`, which
`_tail_program` and the execution of an accepted request change; both are
given. Packed numeric calendars are another form of that state.
-/
import HeteroSim.Nand.Capacity
import HeteroSim.Task.Requests

namespace HeteroSim.Nand.Core

open HeteroSim.Task (Operation)

inductive ProtocolMode
  | genericNand
  | ocpHbf07
deriving DecidableEq

inductive PartialPagePolicy
  | hostMerge
  | reject
deriving DecidableEq

/-- What the validation reads of `NandConfig` beside the staging's part. -/
structure Limits where
  capacityBytes : ℕ
  hostGranularityBytes : ℕ
  writeBufferBytes : ℕ
  protocolMode : ProtocolMode
  partialPagePolicy : PartialPagePolicy
  hostGranularityBytes_pos : 0 < hostGranularityBytes

/-! ## Validation -/

/-- `_check_address` -/
def checkAddress (address capacity : ℕ) : Except String Unit :=
  refuse (capacity ≤ address) s!"address {address} is outside modeled capacity {capacity}"

/-- `validate_nand_request` -/
def validateNandRequest (cfg : NandConfig) (limits : Limits) (r : Task.AccessRequest) : Except String Unit := do
  checkAddress r.address limits.capacityBytes
  refuse (limits.capacityBytes < r.stop) "request extends beyond modeled NAND capacity"
  refuse (limits.protocolMode = .ocpHbf07 ∧ r.operation = .erase)
    "ocp_hbf_0_7 ordinary IO erases automatically on page-0 writes; explicit ERASE is unsupported"
  refuse (r.operation = .write ∧ limits.partialPagePolicy = .reject ∧
      (r.address % cfg.pageBytes ≠ 0 ∨ r.byteCount % cfg.pageBytes ≠ 0))
    "partial NAND page write rejected by configuration"

/-- `_round_up` -/
def roundUp (value quantum : ℕ) : ℕ := (value + quantum - 1) / quantum * quantum

/-- The host bytes of the request's segment in the page. -/
def hostTransferBytes (cfg : NandConfig) (limits : Limits) (r : Task.AccessRequest) (page : ℕ) : ℕ :=
  let logicalStart := max r.address (page * cfg.pageBytes)
  let logicalEnd := min r.stop (page * cfg.pageBytes + cfg.pageBytes)
  roundUp logicalEnd limits.hostGranularityBytes -
    logicalStart / limits.hostGranularityBytes * limits.hostGranularityBytes

/-- `_write_buffer_payload_bytes` -/
def writeBufferPayloadBytes (cfg : NandConfig) (limits : Limits) (r : Task.AccessRequest) : ℕ :=
  if r.operation ≠ .write ∨ limits.writeBufferBytes = 0 then 0
  else ((pagesOf cfg r.address r.stop).map (hostTransferBytes cfg limits r)).sum

/-- `_validate_request` -/
def validateRequest (cfg : NandConfig) (limits : Limits) (r : Task.AccessRequest) : Except String Unit := do
  validateNandRequest cfg limits r
  let payloadBytes := writeBufferPayloadBytes cfg limits r
  refuse (limits.writeBufferBytes < payloadBytes)
    s!"write request requires {payloadBytes} write-buffer bytes, exceeds configured capacity {limits.writeBufferBytes}"

/-! ## The core -/

variable {M : Type}

/-- A core with its page staging. A staged page lies in the device, so
`map_nand_address` maps it. -/
structure NandCore (M : Type) where
  limits : Limits
  staging : NandState
  media : M
  inCapacity : ∀ page ∈ staging.tailPages.keys, page * staging.config.pageBytes < limits.capacityBytes

abbrev CoreM (M : Type) := EStateM String (NandCore M)

/-- What a core does outside its page staging. -/
structure Backend (M : Type) where
  /-- `_tail_program` of a page whose data is ready, from a time on, with its
  end. -/
  tailProgram : ℕ → Time → Time → M → Time × M
  /-- An accepted request is executed, the pages the store takes given; it
  may decline. -/
  execute : Task.AccessRequest → List ℕ → CoreM M Bool

namespace NandCore

/-- The staging changes; no page joins it. -/
def restage (c : NandCore M) (s : NandState) (media : M) (hconfig : s.config = c.staging.config)
    (hkeys : ∀ page ∈ s.tailPages.keys, page ∈ c.staging.tailPages.keys) : NandCore M :=
  ⟨c.limits, s, media, fun page hp => hconfig ▸ c.inCapacity page (hkeys page hp)⟩

end NandCore

theorem tailRelease_keys {now : Time} {s : NandState} {page : ℕ}
    (h : page ∈ (tailRelease now s).tailPages.keys) : page ∈ s.tailPages.keys := by
  obtain ⟨entry, he⟩ := Dict.mem_keys.1 h
  have hkeep := (tailRelease_keeps now s).2.2.2 (fun i => ∀ e, i.pages page = some e → s.tailPages.get? page = some e)
    (fun i q dropped stop hi hq hf e hpage => hi e ?_) fun e hpage => hpage
  · exact Dict.mem_keys_of_get? (hkeep entry he)
  · by_cases hqp : page = q
    · simp [Image.drop, hqp] at hpage
    · simpa [Image.drop, hqp] using hpage

/-- `_tail_release` -/
def release (now : Time) (c : NandCore M) : NandCore M :=
  c.restage (tailRelease now c.staging) c.media (tailRelease_keeps now c.staging).1.config fun _ => tailRelease_keys

/-- `_tail_spill` -/
def spill (page : ℕ) (c : NandCore M) : NandCore M := c.restage (tailSpill page c.staging) c.media rfl fun _ h => h

/-- `_tail_staged`; it caches an index. -/
def staged (first last : Int) (c : NandCore M) : List ℕ × NandCore M :=
  ((tailStaged first last c.staging).1,
    c.restage (tailStaged first last c.staging).2 c.media (by rw [tailStaged_same]) fun _ h => by
      rw [tailStaged_same] at h; exact h)

theorem tailEvict_keys {page q : ℕ} {entry : TailEntry} {stop : Time} {s : NandState}
    (hp : s.tailPages.get? page = some entry) (h : q ∈ (tailEvict page entry stop s).tailPages.keys) :
    q ∈ s.tailPages.keys := (keys_insert_iff hp).1 h

/-- A filling page is programmed now (`_tail_evict`). -/
def evict (b : Backend M) (page : ℕ) (now : Time) (c : NandCore M) : NandCore M :=
  match hp : c.staging.tailPages.get? page with
  | none => c
  | some entry =>
    if entry.flush = none then
      let (stop, media) := b.tailProgram page entry.ready (max now entry.ready) c.media
      c.restage (tailEvict page entry stop c.staging) media rfl fun _ => tailEvict_keys hp
    else c

/-! ## Admission -/

/-- One page of the admission, as `Nand.admitPage` has it. -/
def admitPage (b : Backend M) (r : AccessRequest) (room : Int) (acc : NandCore M × (ℕ → Int) × List ℕ) (page : ℕ) :
    NandCore M × (ℕ → Int) × List ℕ :=
  let (c, valid, kept) := acc
  let s := c.staging
  let (lo, hi) := pageSpan s.config r page
  let channel := tailChannel s.config page
  let entry := s.tailPages.get? page
  if filling entry = false ∧ s.tailFraction < 1 ∧ s.tailFraction ≤ pageShare page then (spill page c, valid, kept)
  else
    let grow := growth entry lo hi
    if room < valid channel + grow then (spill page (evict b page r.arrival c), valid, kept)
    else (c, setValid channel (valid channel + grow) valid, kept ++ [page])

/-- What the shared bytes leave of a host channel's store. -/
def roomOf (s : NandState) : Int := s.config.pageStagingBytesPerHostChannel - s.tailShared

/-- `_tail_admit` -/
def tailAdmit (b : Backend M) (pages : List ℕ) (r : AccessRequest) (c : NandCore M) : List ℕ × NandCore M :=
  let c := release r.arrival c
  let (c, _, kept) := pages.foldl (admitPage b r (roomOf c.staging)) (c, c.staging.counters.valid, [])
  (kept, c)

/-- The pages the store takes: all of them when it has no limit. -/
def admitted (b : Backend M) (r : AccessRequest) (pages : List ℕ) (c : NandCore M) : List ℕ × NandCore M :=
  if pages ≠ [] ∧ c.staging.config.pageStagingBytesPerHostChannel ≠ 0 then tailAdmit b pages r c else (pages, c)

/-! ## Routes -/

/-- The bytes of a request. -/
def spanOf (r : Task.AccessRequest) : AccessRequest := ⟨r.address, r.byteCount, r.arrival, r.byteCount_pos⟩

def firstPage (c : NandCore M) (r : Task.AccessRequest) : ℕ := r.address / c.staging.config.pageBytes

def lastPage (c : NandCore M) (r : Task.AccessRequest) : ℕ := (r.stop - 1) / c.staging.config.pageBytes

/-- The copy serves a read at `arrival`: it fills, or its program runs. -/
def serves (arrival : Time) (entry : Option TailEntry) : Bool :=
  match entry with
  | some entry => decide (∀ stop ∈ entry.flush, arrival < stop)
  | none => false

/-- `_tail_readable` -/
def tailReadable (first last : Int) (arrival : Time) (c : NandCore M) : List ℕ × NandCore M :=
  let (listed, c) := staged first last c
  (listed.filter fun page => serves arrival (c.staging.tailPages.get? page) && decide (page ∉ c.staging.tailSpilled), c)

def validate (r : Task.AccessRequest) : CoreM M Unit := do
  let c ← get
  raise (validateRequest c.staging.config c.limits r)

/-- A read that meets staged pages or running programs. -/
def submitStagedRead (b : Backend M) (r : Task.AccessRequest) : CoreM M Bool := do
  let c ← get
  let readable := tailReadable (firstPage c r) (lastPage c r) r.arrival c
  set readable.2
  if readable.1 = [] ∧ c.staging.counters.flushing = [] then pure false
  else do
    validate r
    b.execute r []

/-- A write that meets staged pages or covers a page in part. -/
def submitStagedWrite (b : Backend M) (r : Task.AccessRequest) : CoreM M Bool := do
  let c ← get
  let listed := staged (firstPage c r) (lastPage c r) c
  let kept := admitted b (spanOf r) (stagedPages (spanOf r) listed.1 listed.2.staging) listed.2
  set kept.2
  if kept.1 = [] then pure false
  else do
    validate r
    let _ ← b.execute r kept.1
    pure true

/-- `_submit_staged`; `false` keeps the normal path. -/
def submitStaged (b : Backend M) (r : Task.AccessRequest) : CoreM M Bool :=
  match r.operation with
  | .read => submitStagedRead b r
  | .write => submitStagedWrite b r
  | .erase => pure false

/-- `_submit_live` -/
def submitLive (b : Backend M) (r : Task.AccessRequest) : CoreM M Unit := do
  let c ← get
  let answered ← if c.staging.config.pageStaging = .none then pure false else submitStaged b r
  if answered then pure ()
  else do
    validate r
    let _ ← b.execute r []
    pure ()

/-- `submit` -/
def submit (b : Backend M) (r : Task.AccessRequest) : CoreM M Unit := submitLive b r

end HeteroSim.Nand.Core
