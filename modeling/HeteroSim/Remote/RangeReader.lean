/-
A remote file read through ranges. What was downloaded and not yet read is a
window at the position, so reads one after another give the file's bytes in
order, each of them downloaded once.
-/
import HeteroSim.Raising

namespace HeteroSim.Remote

inductive Raised
  | gguf (message : String)
  /-- The loop of `read` has not ended. -/
  | outOfFuel
deriving DecidableEq

/-- What a server answers; the body is all that the connection would give. -/
structure Response where
  status : Int
  contentRange : Option String
  contentLength : Option String
  contentEncoding : Option String
  body : List UInt8

/-- The bytes a request is for, `length` of them from `start` on. -/
structure Span where
  start : Int
  length : Int
deriving DecidableEq

def Span.last (r : Span) : Int := r.start + r.length - 1

/-- The header the server is to answer with. -/
def Span.expected (r : Span) (size : Int) : String := s!"bytes {r.start}-{r.last}/{size}"

/-- A server answers a request, or fails, and may remember those before. -/
abbrev Server := List Span → Span → Except String Response

/-- `HTTPRangeReader`; `requests` are those it made, in order. -/
structure HTTPRangeReader where
  url : String
  size : Int
  readAhead : Int
  position : Int
  bufferStart : Int
  buffer : List UInt8
  downloadedBytes : Int
  requests : List Span

/-- `HTTPRangeReader.__init__` -/
def HTTPRangeReader.new (url : String) (size readAhead : Int) : Except Raised HTTPRangeReader :=
  if size < 24 then .error (.gguf "invalid remote GGUF file size")
  else if readAhead < 1 ∨ 256 * 1024 < readAhead then .error (.gguf "HTTP GGUF read-ahead must be between 1 and 256 KiB")
  else .ok ⟨url, size, min readAhead (max 1 (size / 4)), 0, 0, [], 0, []⟩

def HTTPRangeReader.tell (s : HTTPRangeReader) : Int := s.position

abbrev M := EStateM Raised HTTPRangeReader

/-- What `_range` checks of a response, and the data it then reads. -/
def Response.checked (response : Response) (r : Span) (size : Int) : Except Raised (List UInt8) := do
  refuse (response.status ≠ 206) (.gguf s!"HTTP GGUF requires 206 Partial Content; got {response.status}")
  refuse (response.contentRange ≠ some (r.expected size))
    (.gguf "HTTP GGUF Content-Range disagrees with request or publisher size")
  refuse (response.contentLength ≠ some (toString r.length))
    (.gguf "HTTP GGUF Content-Length disagrees with requested range")
  refuse ((response.contentEncoding.getD "identity").toLower ≠ "identity")
    (.gguf "HTTP GGUF range cannot use content encoding")
  let data := response.body.take (r.length + 1).toNat
  refuse ((data.length : Int) ≠ r.length) (.gguf "HTTP GGUF response body length disagrees with requested range")
  return data

/-- `_range` -/
def range (server : Server) (r : Span) : M (List UInt8) := do
  let s ← get
  raise (refuse (r.length < 1 ∨ r.start < 0 ∨ s.size ≤ r.last) (.gguf "HTTP GGUF range exceeds publisher file bounds"))
  set { s with requests := s.requests ++ [r] }
  let response ← raise ((server s.requests r).mapError fun e =>
    .gguf s!"HTTP GGUF range read failed at {r.start}-{r.last}: {e}")
  let data ← raise (response.checked r s.size)
  modify fun s => { s with downloadedBytes := s.downloadedBytes + data.length }
  return data

/-- The place an index of a slice is at; a negative one counts from the end. -/
def place (length : ℕ) (i : Int) : ℕ := if i < 0 then (i + length).toNat else min i.toNat length

/-- `l[start:stop]` -/
def slice (l : List UInt8) (start stop : Int) : List UInt8 :=
  (l.drop (place l.length start)).take (place l.length stop - place l.length start)

/-- One turn of the loop of `read`: how many bytes it takes, and the bytes. -/
def readChunk (server : Server) (remaining : Int) : M (Int × List UInt8) := do
  let s ← get
  if s.bufferStart + s.buffer.length - s.position ≤ 0 then
    let length := min s.readAhead (s.size - s.position)
    -- the first window is the header's at most
    let length := if s.position = 0 then min length 24 else length
    set { s with bufferStart := s.position }
    let data ← range server ⟨s.position, length⟩
    modify fun s => { s with buffer := data }
  let s ← get
  let take := min remaining (s.bufferStart + s.buffer.length - s.position)
  let start := s.position - s.bufferStart
  set { s with position := s.position + take }
  return (take, slice s.buffer start (start + take))

/-- The loop of `read`. -/
def readLoop (server : Server) : ℕ → Int → M (List UInt8)
  | 0, remaining => if remaining = 0 then pure [] else throw .outOfFuel
  | fuel + 1, remaining =>
    if remaining = 0 then pure [] else do
      let chunk ← readChunk server remaining
      let rest ← readLoop server fuel (remaining - chunk.1)
      return chunk.2 ++ rest

/-- `read`; each turn of its loop takes a byte at least. -/
def read (server : Server) (size : Int) : M (List UInt8) := do
  raise (refuse (size < 0) (.gguf "HTTP GGUF reader refuses unbounded/full-payload reads"))
  if size = 0 then return []
  let s ← get
  raise (refuse (s.size < s.position + size) (.gguf "truncated remote GGUF directory exceeds publisher file bounds"))
  readLoop server size.toNat size

/-- Reads one after another. -/
def reads (server : Server) (sizes : List Int) : M (List (List UInt8)) := sizes.mapM (read server)

/-! ## What a range gives -/

/-- The bytes of a file. -/
def bytesOf (file : List UInt8) (start length : Int) : List UInt8 := (file.drop start.toNat).take length.toNat

/-- A server whose accepted answers carry the bytes asked for of a file. -/
def Faithful (file : List UInt8) (server : Server) : Prop := ∀ requests r response, server requests r = .ok response →
  response.status = 206 → response.contentRange = some (r.expected file.length) → response.body = bytesOf file r.start r.length

variable {server : Server} {file : List UInt8} {s : HTTPRangeReader}

theorem checked_spec {response : Response} {r : Span} {size : Int} {data : List UInt8} (h : response.checked r size = .ok data) :
    response.status = 206 ∧ response.contentRange = some (r.expected size) ∧ data = response.body.take (r.length + 1).toNat ∧
      (data.length : Int) = r.length := by
  unfold Response.checked at h
  simp only [bind_ok, refuse_ok, not_not, exists_and_left, exists_const] at h
  obtain ⟨hstatus, hrange, -, -, hlength, h⟩ := h
  cases h
  exact ⟨hstatus, hrange, rfl, hlength⟩

theorem bind_error_iff {α β : Type} {x : Except Raised α} {f : α → Except Raised β} {e : Raised} :
    (x >>= f) = .error e ↔ x = .error e ∨ ∃ a, x = .ok a ∧ f a = .error e := by
  cases x with
  | error e' => simp [bind, Except.bind]
  | ok a => simp [bind, Except.bind]

theorem refuse_error_iff {c : Prop} [Decidable c] {e e' : Raised} : refuse c e = .error e' ↔ c ∧ e = e' := by
  unfold refuse
  split <;> simp [*]

theorem checked_error {response : Response} {r : Span} {size : Int} : response.checked r size ≠ .error .outOfFuel := by
  unfold Response.checked
  simp [bind_error_iff, refuse_error_iff, pure, Except.pure]

theorem range_wp (server : Server) (r : Span) (s : HTTPRangeReader) : wp (range server r)
    (fun data t => (1 ≤ r.length ∧ 0 ≤ r.start ∧ r.start + r.length ≤ s.size) ∧ (data.length : Int) = r.length ∧
      (∀ file : List UInt8, Faithful file server → s.size = file.length → data = bytesOf file r.start r.length) ∧
      t = { s with requests := s.requests ++ [r], downloadedBytes := s.downloadedBytes + r.length })
    (fun e _ => e ≠ .outOfFuel) s := by
  unfold range
  simp only [wp_bind, wp_get]
  rw [wp_refuse]
  simp only [wp_set, wp_raise, wp_modify, wp_pure]
  refine ⟨fun hbounds => ⟨fun response hresponse => ⟨fun data hdata => ?_, ?_⟩, ?_⟩, fun _ => (by simp)⟩
  · obtain ⟨hstatus, hrange, hread, hlength⟩ := checked_spec hdata
    have hanswer : server s.requests r = .ok response := by
      cases h : server s.requests r with
      | error e => rw [h] at hresponse; cases hresponse
      | ok a => rw [h] at hresponse; cases hresponse; rfl
    unfold Span.last at hbounds
    refine ⟨by omega, hlength, fun file hfile hsize => ?_, by rw [hlength]⟩
    rw [hread, hfile _ _ _ hanswer hstatus (hsize ▸ hrange), bytesOf, List.take_take]
    congr 1
    omega
  · intro e he hfuel
    exact checked_error (hfuel ▸ he)
  · intro e he
    cases h : server s.requests r with
    | error m => rw [h] at he; cases he; simp
    | ok a => rw [h] at he; cases he

/-! ## The window -/

/-- Requests that follow one another from a place to a place. -/
def Tiles : Int → List Span → Int → Prop
  | start, [], stop => start = stop
  | start, r :: rs, stop => (r.start = start ∧ 1 ≤ r.length) ∧ Tiles (start + r.length) rs stop

theorem Tiles.snoc : ∀ {rs : List Span} {start stop : Int} {r : Span}, Tiles start rs stop → r.start = stop → 1 ≤ r.length →
    Tiles start (rs ++ [r]) (stop + r.length)
  | [], _, _, _, h, hr, hlength => ⟨⟨hr.trans h.symm, hlength⟩, h ▸ rfl⟩
  | _ :: _, _, _, _, h, hr, hlength => ⟨h.1, h.2.snoc hr hlength⟩

theorem Tiles.inside : ∀ {rs : List Span} {start stop : Int}, Tiles start rs stop →
    start ≤ stop ∧ ∀ r ∈ rs, start ≤ r.start ∧ 1 ≤ r.length ∧ r.start + r.length ≤ stop
  | [], _, _, h => ⟨le_of_eq h, fun _ hr => (by cases hr)⟩
  | q :: rs, start, stop, h => by
    obtain ⟨⟨hstart, hlength⟩, hrest⟩ := h
    obtain ⟨hle, hin⟩ := hrest.inside
    refine ⟨by omega, fun r hr => ?_⟩
    obtain rfl | hr := List.mem_cons.1 hr
    · omega
    · have := hin r hr
      omega

theorem Tiles.apart : ∀ {rs : List Span} {start stop : Int}, Tiles start rs stop →
    rs.Pairwise fun r q => r.start + r.length ≤ q.start
  | [], _, _, _ => .nil
  | r :: rs, start, stop, h => by
    refine List.pairwise_cons.2 ⟨fun q hq => ?_, h.2.apart⟩
    have := h.1.1
    have := (h.2.inside.2 q hq).1
    omega

def HTTPRangeReader.stop (s : HTTPRangeReader) : Int := s.bufferStart + s.buffer.length

/-- What is downloaded and not yet read is at the position. -/
structure Window (file : List UInt8) (s : HTTPRangeReader) : Prop where
  size : s.size = file.length
  ahead : 1 ≤ s.readAhead
  start : 0 ≤ s.bufferStart
  position : s.bufferStart ≤ s.position
  window : s.position ≤ s.stop
  inside : s.stop ≤ s.size
  buffer : s.buffer = bytesOf file s.bufferStart s.buffer.length
  requests : Tiles 0 s.requests s.stop
  downloaded : s.downloadedBytes = s.stop
  fetched : s.stop - s.position ≤ s.readAhead

/-- Between turns it is less than a whole window. -/
structure Windowed (file : List UInt8) (s : HTTPRangeReader) : Prop extends Window file s where
  beyond : s.stop - s.position ≤ s.readAhead - 1

theorem slice_eq {l : List UInt8} {start stop : Int} (h : 0 ≤ start) (hle : start ≤ stop) (hstop : stop ≤ l.length) :
    slice l start stop = (l.drop start.toNat).take (stop - start).toNat := by
  unfold slice place
  rw [if_neg (by omega), if_neg (by omega), Nat.min_eq_left (by omega), Nat.min_eq_left (by omega)]
  congr 1
  omega

theorem bytesOf_add {start a b : Int} (hstart : 0 ≤ start) (ha : 0 ≤ a) (hb : 0 ≤ b) :
    bytesOf file start a ++ bytesOf file (start + a) b = bytesOf file start (a + b) := by
  unfold bytesOf
  rw [Int.toNat_add ha hb, List.take_add, List.drop_drop, Int.toNat_add hstart ha]

theorem bytesOf_slice {start length offset take : Int} (hstart : 0 ≤ start) (hoffset : 0 ≤ offset) (htake : 0 ≤ take)
    (hle : offset + take ≤ length) :
    ((bytesOf file start length).drop offset.toNat).take take.toNat = bytesOf file (start + offset) take := by
  unfold bytesOf
  rw [List.drop_take, List.take_take, List.drop_drop, Int.toNat_add hstart hoffset]
  congr 1
  omega

/-- A turn takes a byte at least, whatever the reader's state. -/
theorem readChunk_takes (server : Server) (s : HTTPRangeReader) {remaining : Int} (h : 0 < remaining) :
    wp (readChunk server remaining) (fun r _ => 1 ≤ r.1 ∧ r.1 ≤ remaining) (fun e _ => e ≠ .outOfFuel) s := by
  unfold readChunk
  simp only [wp_bind, wp_get]
  split
  · simp only [wp_bind, wp_set, wp_modify, wp_get, wp_pure]
    refine wp_mono (range_wp server _ _) (fun data t hrange => ?_) fun e _ he => he
    obtain ⟨⟨hpos, -⟩, hlength, -, rfl⟩ := hrange
    simp only at hpos hlength ⊢
    omega
  · simp only [wp_bind, wp_set, wp_get, wp_pure]
    omega

/-- The rest of a turn, once something is in the window. -/
theorem Window.take (h : Window file s) {remaining : Int} (hpos : 0 < remaining) (hsome : s.position < s.stop) :
    let take := min remaining (s.stop - s.position)
    Windowed file { s with position := s.position + take } ∧
      slice s.buffer (s.position - s.bufferStart) (s.position - s.bufferStart + take) = bytesOf file s.position take ∧
      1 ≤ take ∧ take ≤ remaining := by
  have hposition := h.position
  have hstart := h.start
  have hfetched := h.fetched
  have hstop : s.stop = s.bufferStart + s.buffer.length := rfl
  refine ⟨?_, ?_, by omega, by omega⟩
  · exact
      { h with
        position := show s.bufferStart ≤ s.position + _ by omega
        window := show s.position + _ ≤ s.stop by omega
        fetched := show s.stop - (s.position + _) ≤ s.readAhead by omega
        beyond := show s.stop - (s.position + _) ≤ s.readAhead - 1 by omega }
  · rw [slice_eq (by omega) (by omega) (by omega), add_sub_cancel_left, h.buffer,
      bytesOf_slice hstart (by omega) (by omega) (by omega)]
    congr 1
    omega

/-- The window at the position, filled by a request for what comes next. -/
theorem Window.refill (h : Window file s) (hempty : s.stop ≤ s.position) {length : Int}
    {data : List UInt8} (hlength : 1 ≤ length) (hahead : length ≤ s.readAhead) (hinside : s.position + length ≤ s.size)
    (hdata : (data.length : Int) = length) (hbytes : data = bytesOf file s.position length) :
    Window file { s with
      bufferStart := s.position
      buffer := data
      requests := s.requests ++ [⟨s.position, length⟩]
      downloadedBytes := s.downloadedBytes + length } := by
  have hposition := h.position
  have hstart := h.start
  have hwindow := h.window
  have hstop : s.stop = s.position := le_antisymm hempty hwindow
  have hnew : (s.position + data.length : Int) = s.stop + length := by omega
  refine
    { size := h.size
      ahead := h.ahead
      start := show 0 ≤ s.position by omega
      position := le_rfl
      window := show s.position ≤ s.position + data.length by omega
      inside := show s.position + data.length ≤ s.size by omega
      buffer := show data = bytesOf file s.position data.length by rw [hdata, ← hbytes]
      requests := ?_
      downloaded := show s.downloadedBytes + length = s.position + data.length by rw [h.downloaded]; omega
      fetched := show s.position + data.length - s.position ≤ s.readAhead by omega }
  show Tiles 0 _ (s.position + data.length)
  rw [hnew]
  exact h.requests.snoc hstop.symm hlength

/-- **A turn gives the bytes at the position, and keeps the window.** -/
theorem Windowed.readChunk (h : Windowed file s) (hfile : Faithful file server) {remaining : Int} (hpos : 0 < remaining) :
    wp (readChunk server remaining) (fun r t => Windowed file t ∧ t.readAhead = s.readAhead ∧ t.position = s.position + r.1 ∧
      r.2 = bytesOf file s.position r.1 ∧ 1 ≤ r.1 ∧ r.1 ≤ remaining) (fun e _ => e ≠ .outOfFuel) s := by
  have hwindow := h.window
  have hahead := h.ahead
  have hstop : s.stop = s.bufferStart + s.buffer.length := rfl
  unfold Remote.readChunk
  simp only [wp_bind, wp_get]
  split
  · next hempty =>
    simp only [wp_bind, wp_set, wp_modify, wp_get, wp_pure]
    refine wp_mono (range_wp server _ _) (fun data t hrange => ?_) fun e _ he => he
    obtain ⟨⟨hlength, -, -⟩, hdata, hbytes, rfl⟩ := hrange
    have hbounds : (if s.position = 0 then min (min s.readAhead (s.size - s.position)) 24 else min s.readAhead (s.size - s.position)) ≤
        min s.readAhead (s.size - s.position) := by split <;> omega
    have hrefill := h.toWindow.refill (by omega) hlength (hbounds.trans (min_le_left _ _))
      (by have := hbounds.trans (min_le_right _ _); simp only; omega) hdata (hbytes file hfile h.size)
    have hsome : s.position < s.position + (data.length : Int) := by
      simp only at hdata hlength
      omega
    obtain ⟨hnext, hslice, h1, h2⟩ := hrefill.take hpos hsome
    exact ⟨hnext, rfl, rfl, hslice, h1, h2⟩
  · next hsome =>
    simp only [wp_bind, wp_set, wp_get, wp_pure]
    obtain ⟨hnext, hslice, h1, h2⟩ := h.toWindow.take hpos (by omega)
    exact ⟨hnext, trivial, trivial, hslice, h1, h2⟩

/-! ## Reads -/

/-- The loop ends, from any state. -/
theorem readLoop_ends (server : Server) : ∀ {fuel : ℕ} {remaining : Int} (s : HTTPRangeReader), 0 ≤ remaining → remaining ≤ fuel →
    wp (readLoop server fuel remaining) (fun _ _ => True) (fun e _ => e ≠ .outOfFuel) s
  | 0, remaining, s, hpos, hfuel => by
    obtain rfl : remaining = 0 := by omega
    trivial
  | fuel + 1, remaining, s, hpos, hfuel => by
    rw [readLoop]
    split
    · trivial
    · next hne =>
      simp only [wp_bind, wp_pure]
      refine wp_mono (readChunk_takes server s (by omega)) (fun r t hr => ?_) fun e _ he => he
      exact wp_mono (readLoop_ends server t (by omega) (by omega)) (fun _ _ _ => trivial) fun e _ he => he

theorem Windowed.position_nonneg (h : Windowed file s) : 0 ≤ s.position := h.start.trans h.position

/-- **The loop gives what it was asked for.** -/
theorem Windowed.readLoop (hfile : Faithful file server) : ∀ {fuel : ℕ} {remaining : Int} {s : HTTPRangeReader}, Windowed file s →
    0 ≤ remaining → wp (readLoop server fuel remaining) (fun bytes t => Windowed file t ∧ t.readAhead = s.readAhead ∧
      t.position = s.position + remaining ∧ bytes = bytesOf file s.position remaining) (fun _ _ => True) s
  | 0, remaining, s, h, hpos => by
    rw [Remote.readLoop]
    split
    · next hzero =>
      subst hzero
      exact ⟨h, rfl, (Int.add_zero _).symm, rfl⟩
    · trivial
  | fuel + 1, remaining, s, h, hpos => by
    rw [Remote.readLoop]
    split
    · next hzero =>
      subst hzero
      exact ⟨h, rfl, (Int.add_zero _).symm, rfl⟩
    · next hne =>
      simp only [wp_bind, wp_pure]
      refine wp_mono (h.readChunk hfile (by omega)) (fun r t hr => ?_) fun e _ _ => trivial
      obtain ⟨ht, hahead, hnext, hbytes, h1, h2⟩ := hr
      refine wp_mono (Windowed.readLoop hfile ht (by omega)) (fun rest u hu => ?_) fun e _ he => he
      obtain ⟨hw, hahead', hlast, hrest⟩ := hu
      refine ⟨hw, hahead'.trans hahead, by omega, ?_⟩
      rw [hbytes, hrest, hnext, bytesOf_add h.position_nonneg (by omega) (by omega)]
      congr 1
      omega

theorem read_ends (server : Server) (size : Int) (s : HTTPRangeReader) :
    wp (read server size) (fun _ _ => True) (fun e _ => e ≠ .outOfFuel) s := by
  unfold read
  simp only [wp_bind]
  rw [wp_refuse]
  refine ⟨fun hsize => ?_, fun _ => (by simp)⟩
  split
  · trivial
  · simp only [wp_bind, wp_get]
    rw [wp_refuse]
    exact ⟨fun _ => readLoop_ends server s (by omega) (by omega), fun _ => (by simp)⟩

/-- A read that succeeds moves the position by its size and gives the bytes between. -/
theorem Windowed.read (h : Windowed file s) (hfile : Faithful file server) (size : Int) :
    wp (read server size) (fun bytes t => Windowed file t ∧ t.readAhead = s.readAhead ∧ 0 ≤ size ∧
      t.position = s.position + size ∧ bytes = bytesOf file s.position size) (fun _ _ => True) s := by
  unfold Remote.read
  simp only [wp_bind]
  rw [wp_refuse]
  refine ⟨fun hsize => ?_, fun _ => trivial⟩
  split
  · next hzero =>
    subst hzero
    exact ⟨h, rfl, le_rfl, (Int.add_zero _).symm, rfl⟩
  · simp only [wp_bind, wp_get]
    rw [wp_refuse]
    refine ⟨fun _ => ?_, fun _ => trivial⟩
    refine wp_mono (h.readLoop hfile (by omega)) (fun bytes t ht => ?_) fun _ _ _ => trivial
    exact ⟨ht.1, ht.2.1, by omega, ht.2.2⟩

/-- A read past the end asks the server nothing and moves nothing. -/
theorem read_past_end (server : Server) {size : Int} (hpos : 0 < size) (h : s.size < s.position + size) :
    read server size s = .error (.gguf "truncated remote GGUF directory exceeds publisher file bounds") s := by
  unfold read
  refine (pass_bind (by omega)).trans ?_
  rw [if_neg (by omega), get_then]
  exact error_bind (raise_error (if_pos h))

theorem Windowed.reads (hfile : Faithful file server) : ∀ {sizes : List Int} {s : HTTPRangeReader}, Windowed file s →
    wp (reads server sizes) (fun chunks t => Windowed file t ∧ t.readAhead = s.readAhead ∧ 0 ≤ sizes.sum ∧
      t.position = s.position + sizes.sum ∧ chunks.flatten = bytesOf file s.position sizes.sum) (fun _ _ => True) s
  | [], s, h => ⟨h, rfl, le_rfl, (Int.add_zero _).symm, rfl⟩
  | size :: sizes, s, h => by
    unfold Remote.reads
    rw [List.mapM_cons]
    simp only [wp_bind, wp_pure]
    refine wp_mono (h.read hfile size) (fun chunk t ht => ?_) fun _ _ _ => trivial
    obtain ⟨hw, hahead, hsize, hposition, hchunk⟩ := ht
    refine wp_mono (Windowed.reads hfile hw) (fun chunks u hu => ?_) fun _ _ he => he
    obtain ⟨hw', hahead', hrest, hlast, hchunks⟩ := hu
    rw [List.sum_cons]
    refine ⟨hw', hahead'.trans hahead, by omega, by omega, ?_⟩
    rw [List.flatten_cons, hchunk, hchunks, hposition, bytesOf_add h.position_nonneg hsize hrest]

theorem Windowed.new {url : String} {readAhead : Int} (h : HTTPRangeReader.new url file.length readAhead = .ok s) :
    Windowed file s ∧ s.position = 0 ∧ s.readAhead ≤ readAhead := by
  unfold HTTPRangeReader.new at h
  split at h
  · cases h
  · split at h
    · cases h
    · next hsize hahead =>
      cases h
      refine ⟨?_, rfl, min_le_left _ _⟩
      have hmin : 1 ≤ min readAhead (max 1 ((file.length : Int) / 4)) := by omega
      exact
        { size := rfl
          ahead := hmin
          start := le_rfl
          position := le_rfl
          window := le_rfl
          inside := show (0 : Int) ≤ file.length by omega
          buffer := rfl
          requests := rfl
          downloaded := rfl
          fetched := show (0 : Int) ≤ min readAhead (max 1 ((file.length : Int) / 4)) by omega
          beyond := show (0 : Int) ≤ min readAhead (max 1 ((file.length : Int) / 4)) - 1 by omega }

/-- **Reads that succeed give the file's bytes in order, and download each at most once and few ahead.** -/
theorem ranged_reads_exact (file : List UInt8) (server : Server) (url : String) (readAhead : Int) (sizes : List Int)
    (hfile : Faithful file server) {s₀ s : HTTPRangeReader} {chunks : List (List UInt8)}
    (hnew : HTTPRangeReader.new url file.length readAhead = .ok s₀) (hreads : reads server sizes s₀ = .ok chunks s) :
    (chunks.flatten = file.take sizes.sum.toNat ∧ s.tell = sizes.sum) ∧
      (∀ r ∈ s.requests, 0 ≤ r.start ∧ 1 ≤ r.length ∧ r.start + r.length ≤ file.length ∧
        r.start + r.length ≤ s.tell + (readAhead - 1)) ∧
      s.requests.Pairwise (fun r q => r.start + r.length ≤ q.start) ∧
      s.downloadedBytes ≤ s.tell + (readAhead - 1) ∧
      (∀ size t u, read server size t ≠ .error .outOfFuel u) ∧
      ∀ size t, 0 < size → t.size < t.position + size →
        read server size t = .error (.gguf "truncated remote GGUF directory exceeds publisher file bounds") t := by
  obtain ⟨hstart, hzero, hahead⟩ := Windowed.new hnew
  obtain ⟨h, hsame, hnonneg, hposition, hbytes⟩ := wp_ok (hstart.reads hfile) hreads
  rw [hzero, Int.zero_add] at hposition
  have htell : s.tell = s.position := rfl
  have hbeyond := h.beyond
  have hinside := h.inside
  have hsize := h.size
  have hdownloaded := h.downloaded
  refine ⟨⟨?_, hposition⟩, fun r hr => ?_, h.requests.apart, by omega, ?_, fun size t => read_past_end server⟩
  · rw [hbytes, hzero]
    rfl
  · have := h.requests.inside.2 r hr
    omega
  · intro size t u hfuel
    exact wp_error (read_ends server size t) hfuel rfl

/-- A server of a file. -/
def serving (file : List UInt8) : Server := fun _ r =>
  .ok ⟨206, some (r.expected file.length), some (toString r.length), none, bytesOf file r.start r.length⟩

theorem serving_faithful (file : List UInt8) : Faithful file (serving file) := by
  intro requests r response h _ _
  cases h
  rfl

/-- A hundred bytes. -/
def hundred : List UInt8 := (List.range 100).map UInt8.ofNat

/-- A header's window, then one of a quarter of the file. -/
theorem ranged_reads_served : ∃ chunks s, reads (serving hundred) [3, 30, 0, 5] ⟨"u", 100, 25, 0, 0, [], 0, []⟩ = .ok chunks s ∧
    chunks.map List.length = [3, 30, 0, 5] ∧ chunks.flatten = hundred.take 38 ∧ s.downloadedBytes ≤ s.tell + (30 - 1) := by
  have hrun : ((reads (serving hundred) [3, 30, 0, 5]).run' ⟨"u", 100, 25, 0, 0, [], 0, []⟩).map (·.map List.length) =
      some [3, 30, 0, 5] := by decide +kernel
  cases h : reads (serving hundred) [3, 30, 0, 5] ⟨"u", 100, 25, 0, 0, [], 0, []⟩ with
  | error e t =>
    unfold EStateM.run' EStateM.run at hrun
    rw [h] at hrun
    cases hrun
  | ok chunks s =>
    unfold EStateM.run' EStateM.run at hrun
    rw [h] at hrun
    obtain ⟨⟨hbytes, -⟩, -, -, hfew, -⟩ :=
      ranged_reads_exact hundred (serving hundred) "u" 30 [3, 30, 0, 5] (serving_faithful _) rfl h
    exact ⟨chunks, s, rfl, Option.some.inj hrun, hbytes, hfew⟩

end HeteroSim.Remote
