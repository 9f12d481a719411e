/-
No write is lost. A byte some write access covered stays in a dirty line
until a backing write covers it, under every write policy; and the byte
counters are the sizes of the backing accesses.
-/
import HeteroSim.Cache.Edits

namespace HeteroSim.Cache

/-! ## Bytes -/

/-- The range of `a` holds byte `pos` of the buffer generation `buf`. -/
def CacheAccess.Covers (a : CacheAccess) (buf : BufferKey) (pos : Nat) : Prop :=
  a.bufferKey = buf ∧ a.offsetBytes ≤ pos ∧ pos < a.endBytes

def CacheAccess.Writes (a : CacheAccess) (buf : BufferKey) (pos : Nat) : Prop := a.operation = .write ∧ a.Covers buf pos

/-- Some write of the list covers the byte. -/
def Saves (backing : List CacheAccess) (buf : BufferKey) (pos : Nat) : Prop := ∃ b ∈ backing, b.Writes buf pos

/-- The line a byte lies in. -/
def byteLine (cfg : CacheConfig) (buf : BufferKey) (pos : Nat) : LineKey :=
  ⟨buf.bufferId, buf.generation, pos / cfg.lineBytes⟩

/-- The line that holds the byte is resident and dirty. -/
def DirtyResident (c : CacheState) (buf : BufferKey) (pos : Nat) : Prop :=
  ∃ line, c.lines.get? (byteLine c.config buf pos) = some line ∧ line.dirty = true ∧
    pos < pos / c.config.lineBytes * c.config.lineBytes + line.sizeBytes

def bytesOf (op : Operation) (backing : List CacheAccess) : Nat :=
  ((backing.filter (·.operation = op)).map (·.sizeBytes)).sum

@[simp] theorem bytesOf_nil (op : Operation) : bytesOf op [] = 0 := rfl

@[simp] theorem bytesOf_snoc (op : Operation) (l : List CacheAccess) (b : CacheAccess) :
    bytesOf op (l ++ [b]) = bytesOf op l + if b.operation = op then b.sizeBytes else 0 := by
  simp only [bytesOf, List.filter_append, List.map_append, List.sum_append]
  by_cases h : b.operation = op <;> simp [h]

/-- `CacheStateSnapshot.backing_write_bytes` -/
def CacheCounters.backingWriteBytes (n : CacheCounters) : Nat :=
  n.dirtyEvictionBytes + n.flushWritebackBytes + n.writeThroughBytes + n.bypassWriteBytes

/-- `CacheAccessResult.backing_write_bytes` -/
def CacheAccessResult.backingWriteBytes (r : CacheAccessResult) : Nat :=
  r.writeThroughBytes + r.bypassWriteBytes + r.dirtyEvictionBytes

/-! ## What a constructed access holds -/

/-- The fields of an accepted constructor call. -/
structure Built (b : CacheAccess) (bufferId : String) (offset size : Nat) (op : Operation) (gen : Nat) : Prop where
  bufferId : b.bufferId = strip bufferId
  offset : b.offsetBytes = offset
  size : b.sizeBytes = size
  operation : b.operation = op
  generation : b.allocationGeneration = gen

theorem built_of_new {id : String} {off size gen : Nat} {op : Operation} {bs : Option Nat} {b : CacheAccess}
    (h : CacheAccess.new id off size op bs gen = .ok b) : Built b id off size op gen := by
  unfold CacheAccess.new at h
  split at h
  · cases h
  · split at h
    · cases h
    · split at h
      · cases h
      · split at h
        · cases h; exact ⟨rfl, rfl, rfl, rfl, rfl⟩
        · cases h

theorem Built.writes {b : CacheAccess} {buf : BufferKey} {id : String} {off size pos : Nat}
    (h : Built b id off size .write buf.generation) (hid : strip id = buf.bufferId) (hlo : off ≤ pos)
    (hhi : pos < off + size) : b.Writes buf pos := by
  refine ⟨h.operation, ?_, by rw [h.offset]; exact hlo, by rw [CacheAccess.endBytes, h.offset, h.size]; exact hhi⟩
  rw [CacheAccess.bufferKey, h.bufferId, h.generation, hid]

/-! ## Lines and their extents -/

/-- A resident line carries its key, and reaches to the end its buffer's
remembered size gives it. -/
structure LineOk (cfg : CacheConfig) (sizes : BufferKey → Option (Option Nat)) (k : LineKey) (line : CacheLine) :
    Prop where
  bufferId : line.bufferId = k.bufferId
  generation : line.allocationGeneration = k.generation
  lineIndex : line.lineIndex = k.lineIndex
  strip : strip k.bufferId = k.bufferId
  extent : ∃ size, sizes k.bufferKey = some size ∧
    line.sizeBytes = lineEnd cfg size k.lineIndex - k.lineIndex * cfg.lineBytes

def LinesOk (c : CacheState) : Prop := ∀ {k line}, c.lines.get? k = some line → LineOk c.config c.bufferSizes k line

/-- What `_line_specs` yields for the line it numbers. -/
structure SpecOk (cfg : CacheConfig) (size : Option Nat) (a : CacheAccess) (spec : LineSpec) : Prop where
  bufferId : spec.key.bufferId = a.bufferId
  generation : spec.key.generation = a.allocationGeneration
  physical : spec.physicalSize = lineEnd cfg size spec.key.lineIndex - spec.key.lineIndex * cfg.lineBytes
  covered : max a.offsetBytes (spec.key.lineIndex * cfg.lineBytes) + spec.coveredBytes =
    min a.endBytes (lineEnd cfg size spec.key.lineIndex)
  inside : ∀ s ∈ size, a.endBytes ≤ s

theorem SpecOk.bufferKey {cfg : CacheConfig} {size : Option Nat} {a : CacheAccess} {spec : LineSpec}
    (h : SpecOk cfg size a spec) : spec.key.bufferKey = a.bufferKey := by
  rw [LineKey.bufferKey, CacheAccess.bufferKey, h.bufferId, h.generation]

/-- A byte of the access in the spec's line lies in the covered range. -/
theorem SpecOk.covers {cfg : CacheConfig} {size : Option Nat} {a : CacheAccess} {spec : LineSpec} {buf : BufferKey}
    {pos : Nat} (h : SpecOk cfg size a spec) (hc : a.Covers buf pos) (hi : pos / cfg.lineBytes = spec.key.lineIndex) :
    max a.offsetBytes (spec.key.lineIndex * cfg.lineBytes) ≤ pos ∧
      pos < max a.offsetBytes (spec.key.lineIndex * cfg.lineBytes) + spec.coveredBytes ∧
      pos < spec.key.lineIndex * cfg.lineBytes + spec.physicalSize := by
  obtain ⟨-, hlo, hhi⟩ := hc
  have hstart : spec.key.lineIndex * cfg.lineBytes ≤ pos := hi ▸ Nat.div_mul_le_self pos cfg.lineBytes
  have hnext : pos < spec.key.lineIndex * cfg.lineBytes + cfg.lineBytes := by
    have := Nat.lt_div_mul_add (a := pos) cfg.line_pos
    rwa [hi] at this
  have hend : pos < lineEnd cfg size spec.key.lineIndex := by
    cases size with
    | none => exact hnext
    | some s =>
      have := h.inside s rfl
      simp only [lineEnd, lt_min_iff]
      omega
  have hcov := h.covered
  have hphys := h.physical
  refine ⟨max_le hlo hstart, ?_, by omega⟩
  rw [hcov]
  exact lt_min hhi hend

theorem lineSpec_ok {cfg : CacheConfig} {size : Option Nat} {a : CacheAccess} {i : Nat} {spec : LineSpec}
    (hin : ∀ s ∈ size, a.endBytes ≤ s) (h : lineSpec cfg size a i = .ok spec) :
    SpecOk cfg size a spec ∧ spec.key.lineIndex = i := by
  unfold lineSpec at h
  simp only at h
  split at h
  · cases h
  · split at h
    · cases h
    · split at h
      · cases h
      · next hlt =>
        cases h
        exact ⟨⟨a.bufferId_strip, rfl, rfl, by simp only; omega, hin⟩, rfl⟩

theorem mapM_ok {α β ε : Type} {f : α → Except ε β} : ∀ {l : List α} {out : List β},
    l.mapM f = .ok out → (∀ b ∈ out, ∃ a ∈ l, f a = .ok b) ∧ ∀ a ∈ l, ∃ b ∈ out, f a = .ok b
  | [], out, h => by
    simp only [List.mapM_nil] at h
    cases h
    simp
  | a :: l, out, h => by
    simp only [List.mapM_cons, bind, Except.bind] at h
    split at h
    · cases h
    · next b hb =>
      split at h
      · cases h
      · next bs hbs =>
        cases h
        obtain ⟨h1, h2⟩ := mapM_ok hbs
        simp only [List.mem_cons, forall_eq_or_imp, exists_eq_or_imp]
        exact ⟨⟨.inl hb, fun b hm => .inr (h1 b hm)⟩, .inl hb, fun a hm => .inr (h2 a hm)⟩

theorem checkInside_ok {a : CacheAccess} {known size : Option Nat} (h : checkInside a known = .ok size) :
    known = size ∧ ∀ s ∈ size, a.endBytes ≤ s := by
  cases known with
  | none => cases h; simp
  | some n =>
    simp only [checkInside] at h
    split at h
    · cases h
    · next hn => cases h; simpa using hn

/-- The size the specs were cut with: the remembered one, once introduced. -/
theorem bufferSize_ok {c : CacheState} {a : CacheAccess} {size : Option Nat} (h : bufferSize c a = .ok size) :
    (∀ s ∈ size, a.endBytes ≤ s) ∧
      (introduceBuffer a.bufferKey a.bufferSizeBytes c).bufferSizes a.bufferKey = some size := by
  have hr : (rememberBuffer a.bufferKey c).bufferSizes = c.bufferSizes := by
    unfold rememberBuffer
    split
    · rfl
    · split <;> rfl
  simp only [introduceBuffer, hr, Function.update_self]
  unfold bufferSize at h
  cases hs : c.bufferSizes a.bufferKey with
  | none =>
    simp only [hs, bind, Except.bind] at h
    obtain ⟨he, hle⟩ := checkInside_ok h
    exact ⟨hle, by rw [← he]; rfl⟩
  | some known =>
    simp only [hs, bind, Except.bind] at h
    split at h
    · cases h
    · obtain ⟨he, hle⟩ := checkInside_ok h
      exact ⟨hle, by rw [← he]; rfl⟩

/-- The specs describe the lines of the access, and every byte is in one. -/
theorem lineSpecs_ok {c : CacheState} {a : CacheAccess} {specs : List LineSpec} (h : lineSpecs c a = .ok specs) :
    ∃ size, (introduceBuffer a.bufferKey a.bufferSizeBytes c).bufferSizes a.bufferKey = some size ∧
      (∀ spec ∈ specs, SpecOk c.config size a spec) ∧
      ∀ {buf pos}, a.Covers buf pos → ∃ spec ∈ specs, spec.key.lineIndex = pos / c.config.lineBytes := by
  simp only [lineSpecs, bind, Except.bind] at h
  split at h
  · cases h
  · next size hsize =>
    obtain ⟨hin, hrem⟩ := bufferSize_ok hsize
    obtain ⟨h1, h2⟩ := mapM_ok h
    refine ⟨size, hrem, fun spec hm => ?_, fun hc => ?_⟩
    · obtain ⟨i, -, hi⟩ := h1 spec hm
      exact (lineSpec_ok hin hi).1
    · rename_i buf pos
      obtain ⟨-, hlo, hhi⟩ := hc
      have hfirst : a.offsetBytes / c.config.lineBytes ≤ pos / c.config.lineBytes := Nat.div_le_div_right hlo
      have hlast : pos / c.config.lineBytes ≤ (a.endBytes - 1) / c.config.lineBytes :=
        Nat.div_le_div_right (by omega)
      obtain ⟨spec, hm, hs⟩ := h2 (pos / c.config.lineBytes) (by rw [List.mem_range'_1]; omega)
      exact ⟨spec, hm, (lineSpec_ok hin hs).2⟩

/-! ## The loop of an access -/

/-- The byte is dirty in the cache, or a backing write covers it. -/
def Held (c : CacheState) (backing : List CacheAccess) (buf : BufferKey) (pos : Nat) : Prop :=
  DirtyResident c buf pos ∨ Saves backing buf pos

/-- The counters and the result grew by the same bytes, all of them issued. -/
structure Accounts (n : CacheCounters) (r : CacheAccessResult) (n' : CacheCounters) (r' : CacheAccessResult) :
    Prop where
  writes : n'.backingWriteBytes + r.backingWriteBytes = n.backingWriteBytes + r'.backingWriteBytes
  reads : n'.readFillBytes + r.readFillBytes = n.readFillBytes + r'.readFillBytes
  issuedWrites : r'.backingWriteBytes + bytesOf .write r.backingAccesses =
    r.backingWriteBytes + bytesOf .write r'.backingAccesses
  issuedReads : r'.readFillBytes + bytesOf .read r.backingAccesses =
    r.readFillBytes + bytesOf .read r'.backingAccesses

/-- What a part of the loop leaves: good lines, no byte lost, bytes counted. -/
structure Progress (c : CacheState) (r : CacheAccessResult) (c' : CacheState) (r' : CacheAccessResult) : Prop where
  config : c'.config = c.config
  sizes : c'.bufferSizes = c.bufferSizes
  lines : LinesOk c'
  held : ∀ {buf pos}, Held c r.backingAccesses buf pos → Held c' r'.backingAccesses buf pos
  accounts : Accounts c.counters r c'.counters r'

theorem Accounts.refl (n : CacheCounters) (r : CacheAccessResult) : Accounts n r n r := ⟨rfl, rfl, rfl, rfl⟩

theorem Accounts.trans {n n' n'' : CacheCounters} {r r' r'' : CacheAccessResult} (h : Accounts n r n' r')
    (h' : Accounts n' r' n'' r'') : Accounts n r n'' r'' := by
  obtain ⟨h1, h2, h3, h4⟩ := h
  obtain ⟨k1, k2, k3, k4⟩ := h'
  exact ⟨by omega, by omega, by omega, by omega⟩

theorem Progress.refl {c : CacheState} (h : LinesOk c) (r : CacheAccessResult) : Progress c r c r :=
  ⟨rfl, rfl, h, id, .refl _ _⟩

theorem Progress.trans {c c' c'' : CacheState} {r r' r'' : CacheAccessResult} (h : Progress c r c' r')
    (h' : Progress c' r' c'' r'') : Progress c r c'' r'' :=
  ⟨h'.config.trans h.config, h'.sizes.trans h.sizes, h'.lines, fun hh => h'.held (h.held hh),
    h.accounts.trans h'.accounts⟩

/-- A part that only counts and issues backing accesses. -/
structure Issued (c : CacheState) (r : CacheAccessResult) (c' : CacheState) (r' : CacheAccessResult) : Prop where
  config : c'.config = c.config
  sizes : c'.bufferSizes = c.bufferSizes
  lines : c'.lines = c.lines
  backing : ∀ b ∈ r.backingAccesses, b ∈ r'.backingAccesses
  accounts : Accounts c.counters r c'.counters r'

theorem Issued.refl (c : CacheState) (r : CacheAccessResult) : Issued c r c r :=
  ⟨rfl, rfl, rfl, fun _ h => h, .refl _ _⟩

theorem Issued.trans {c c' c'' : CacheState} {r r' r'' : CacheAccessResult} (h : Issued c r c' r')
    (h' : Issued c' r' c'' r'') : Issued c r c'' r'' :=
  ⟨h'.config.trans h.config, h'.sizes.trans h.sizes, h'.lines.trans h.lines,
    fun b hb => h'.backing b (h.backing b hb), h.accounts.trans h'.accounts⟩

theorem Issued.linesOk {c c' : CacheState} {r r' : CacheAccessResult} (h : Issued c r c' r') (hl : LinesOk c) :
    LinesOk c' := by
  intro k line hk
  rw [h.config, h.sizes]
  exact hl (h.lines ▸ hk)

theorem Issued.progress {c c' : CacheState} {r r' : CacheAccessResult} (h : Issued c r c' r') (hl : LinesOk c) :
    Progress c r c' r' := by
  refine ⟨h.config, h.sizes, h.linesOk hl, fun hh => ?_, h.accounts⟩
  rcases hh with hd | ⟨b, hm, hw⟩
  · exact .inl (by simpa only [DirtyResident, h.config, h.lines] using hd)
  · exact .inr ⟨b, h.backing b hm, hw⟩

/-! ## The line edits, by look-up -/

theorem popLine_get? (k k' : LineKey) (c : CacheState) :
    (popLine k c).2.lines.get? k' = if k' = k then none else c.lines.get? k' := by
  simp only [popLine, recordLine_lines]
  split
  · next hn =>
    split
    · next h => rw [recordLine_lines, h, hn]
    · rw [recordLine_lines]
  · simp only [unlink, recordLine_lines, Dict.get?_erase]

theorem popLine_fst (k : LineKey) (c : CacheState) : (popLine k c).1 = c.lines.get? k := by
  simp only [popLine, recordLine_lines]
  split
  · next h => rw [h]
  · next h => rw [h]

theorem setLine_get? (k k' : LineKey) (line : CacheLine) (c : CacheState) :
    (setLine k line c).lines.get? k' = if k' = k then some line else c.lines.get? k' := by
  simp only [setLine, recordLine_lines]
  split
  · simp only [Dict.get?_insert]
  · simp only [link, attach, recordLine_lines, Dict.get?_insert]

theorem popLine_rest (k : LineKey) (c : CacheState) : (popLine k c).2.config = c.config ∧
    (popLine k c).2.bufferSizes = c.bufferSizes ∧ (popLine k c).2.counters = c.counters := by
  simp only [popLine]
  split <;> simp [unlink]

theorem setLine_rest (k : LineKey) (line : CacheLine) (c : CacheState) : (setLine k line c).config = c.config ∧
    (setLine k line c).bufferSizes = c.bufferSizes ∧ (setLine k line c).counters = c.counters := by
  simp only [setLine]
  split <;> simp [link, attach]

/-- `c'` is `c` with the line at `k` replaced or removed. -/
structure EditsLine (c c' : CacheState) (k : LineKey) (v : Option CacheLine) : Prop where
  config : c'.config = c.config
  sizes : c'.bufferSizes = c.bufferSizes
  lines : ∀ k', c'.lines.get? k' = if k' = k then v else c.lines.get? k'

theorem EditsLine.linesOk {c c' : CacheState} {k : LineKey} {v : Option CacheLine} (h : EditsLine c c' k v)
    (hl : LinesOk c) (hv : ∀ line ∈ v, LineOk c.config c.bufferSizes k line) : LinesOk c' := by
  intro k' line hk
  rw [h.lines] at hk
  rw [h.config, h.sizes]
  split at hk
  · next he => subst he; exact hv line hk
  · exact hl hk

/-- A dirty byte stays one, unless it lies in the edited line. -/
theorem EditsLine.dirtyResident {c c' : CacheState} {k : LineKey} {v : Option CacheLine} (h : EditsLine c c' k v)
    {buf : BufferKey} {pos : Nat} (hd : DirtyResident c buf pos) :
    DirtyResident c' buf pos ∨ byteLine c.config buf pos = k ∧ ∃ line, c.lines.get? k = some line ∧
      line.dirty = true ∧ pos < pos / c.config.lineBytes * c.config.lineBytes + line.sizeBytes := by
  obtain ⟨line, hg, hdirty, hlt⟩ := hd
  by_cases hk : byteLine c.config buf pos = k
  · exact .inr ⟨hk, line, hk ▸ hg, hdirty, hlt⟩
  · refine .inl ⟨line, ?_, hdirty, h.config ▸ hlt⟩
    rw [h.config, h.lines, if_neg hk, hg]

theorem editsLine_pop (k : LineKey) (c : CacheState) : EditsLine c (popLine k c).2 k none :=
  ⟨(popLine_rest k c).1, (popLine_rest k c).2.1, fun k' => popLine_get? k k' c⟩

theorem editsLine_set (k : LineKey) (line : CacheLine) (c : CacheState) :
    EditsLine c (setLine k line c) k (some line) :=
  ⟨(setLine_rest k line c).1, (setLine_rest k line c).2.1, fun k' => setLine_get? k k' line c⟩

theorem EditsLine.count {c c' : CacheState} {k : LineKey} {v : Option CacheLine} (h : EditsLine c c' k v)
    (n : CacheCounters) : EditsLine c { c' with counters := n } k v := ⟨h.config, h.sizes, h.lines⟩

theorem EditsLine.trans {c c' c'' : CacheState} {k : LineKey} {v w : Option CacheLine} (h : EditsLine c c' k v)
    (h' : EditsLine c' c'' k w) : EditsLine c c'' k w := by
  refine ⟨h'.config.trans h.config, h'.sizes.trans h.sizes, fun k' => ?_⟩
  rw [h'.lines, h.lines]
  split <;> rfl

/-! ## The parts of the loop -/

/-- A dirty victim's bytes go out in the backing write its eviction issues. -/
theorem ensureSlot_wp {c : CacheState} (hl : LinesOk c) (r : CacheAccessResult) :
    wp (ensureSlot r) (fun r' c' => Progress c r c' r' ∧ ∀ k, c.lines.get? k = none → c'.lines.get? k = none)
      (fun _ _ => True) c := by
  simp only [ensureSlot, wp_bind, wp_get]
  split
  · exact ⟨.refl hl r, fun _ h => h⟩
  · simp only [evictOne, wp_bind, wp_get]
    split
    · trivial
    · next key victim rest hitems =>
      have hg : c.lines.get? key = some victim := Dict.get?_eq_some.2 (by rw [hitems]; simp)
      have hv := hl hg
      have hcount := (popLine_rest key c).2.2
      have habsent : ∀ k, c.lines.get? k = none → (popLine key c).2.lines.get? k = none := fun k hk => by
        rw [popLine_get?, hk, ite_self]
      simp only [wp_bind, wp_set, count, wp_modify, wp_pure]
      split
      · next hdirty =>
        simp only [rememberedSize, wp_bind, wp_get]
        split
        · next size hsize =>
          simp only [wp_pure, wp_raise]
          refine ⟨fun b hb => ?_, fun _ _ => trivial⟩
          have hbuilt := built_of_new hb
          have he := (editsLine_pop key c).count { (popLine key c).2.counters with
            evictionLines := (popLine key c).2.counters.evictionLines + 1
            dirtyEvictionBytes := (popLine key c).2.counters.dirtyEvictionBytes + victim.sizeBytes }
          refine ⟨⟨he.config, he.sizes, he.linesOk hl (by simp), fun {buf pos} hh => ?_, ?_⟩, habsent⟩
          · rcases hh with hd | ⟨b', hm, hw⟩
            · rcases he.dirtyResident hd with hd | ⟨hkey, line, hgl, -, hlt⟩
              · exact .inl hd
              · obtain rfl : victim = line := Option.some.inj (hg.symm.trans hgl)
                refine .inr ⟨b, by simp, ?_⟩
                have hbuf : victim.bufferId = buf.bufferId := by rw [hv.bufferId, ← hkey]; rfl
                have hgen : victim.allocationGeneration = buf.generation := by rw [hv.generation, ← hkey]; rfl
                have hidx : victim.lineIndex = pos / c.config.lineBytes := by rw [hv.lineIndex, ← hkey]; rfl
                rw [hgen] at hbuilt
                refine hbuilt.writes ?_ ?_ ?_
                · rw [hv.bufferId, hv.strip, ← hv.bufferId, hbuf]
                · rw [hidx]; exact Nat.div_mul_le_self _ _
                · rw [hidx]; exact hlt
            · exact .inr ⟨b', by simp [hm], hw⟩
          · constructor <;>
              simp [CacheCounters.backingWriteBytes, CacheAccessResult.backingWriteBytes, hcount, hbuilt.operation,
                hbuilt.size] <;> omega
        · trivial
      · next hclean =>
        have he := (editsLine_pop key c).count { (popLine key c).2.counters with
          evictionLines := (popLine key c).2.counters.evictionLines + 1 }
        simp only [wp_pure, Nat.add_zero]
        refine ⟨⟨he.config, he.sizes, he.linesOk hl (by simp), fun {buf pos} hh => ?_, ?_⟩, habsent⟩
        · rcases hh with hd | hs
          · rcases he.dirtyResident hd with hd | ⟨-, line, hgl, hdirty, -⟩
            · exact .inl hd
            · obtain rfl : victim = line := Option.some.inj (hg.symm.trans hgl)
              exact absurd hdirty hclean
          · exact .inr hs
        · constructor <;>
            simp [CacheCounters.backingWriteBytes, CacheAccessResult.backingWriteBytes, hcount]

/-- Writing through covers the bytes at once; the lines stay. -/
theorem writeThrough_wp (c : CacheState) (a : CacheAccess) (spec : LineSpec) (off : Nat) (size : Option Nat)
    (r : CacheAccessResult) :
    wp (writeThrough a spec off size r) (fun r' c' => Issued c r c' r' ∧
      ∀ {pos}, off ≤ pos → pos < off + spec.coveredBytes → Saves r'.backingAccesses a.bufferKey pos)
      (fun _ _ => True) c := by
  simp only [writeThrough, count, wp_bind, wp_modify, wp_raise, wp_pure, implies_true, and_true]
  intro b hb
  have hbuilt := built_of_new hb
  refine ⟨⟨rfl, rfl, rfl, fun b hm => by simp [hm], ?_⟩, fun hlo hhi => ?_⟩
  · constructor <;>
      simp [CacheCounters.backingWriteBytes, CacheAccessResult.backingWriteBytes, hbuilt.operation, hbuilt.size] <;>
      omega
  · exact ⟨b, by simp, hbuilt.writes a.bufferId_strip hlo hhi⟩

theorem fillLine_wp (c : CacheState) (a : CacheAccess) (spec : LineSpec) (off : Nat) (size : Option Nat)
    (r : CacheAccessResult) :
    wp (fillLine a spec off size r) (fun r' c' => Issued c r c' r') (fun _ _ => True) c := by
  unfold fillLine
  split
  · simp only [count, wp_bind, wp_modify, wp_raise, wp_pure, implies_true, and_true]
    intro b hb
    have hbuilt := built_of_new hb
    refine ⟨rfl, rfl, rfl, fun b hm => by simp [hm], ?_⟩
    constructor <;>
      simp [CacheCounters.backingWriteBytes, CacheAccessResult.backingWriteBytes, hbuilt.operation, hbuilt.size] <;>
      omega
  · exact .refl c r

/-- Counting hits and misses accounts for no bytes. -/
theorem issued_count (c : CacheState) (r r' : CacheAccessResult) (n : CacheCounters)
    (hb : r'.backingAccesses = r.backingAccesses) (hn : n.backingWriteBytes = c.counters.backingWriteBytes)
    (hn' : n.readFillBytes = c.counters.readFillBytes) (hr : r'.backingWriteBytes = r.backingWriteBytes)
    (hr' : r'.readFillBytes = r.readFillBytes) : Issued c r { c with counters := n } r' :=
  ⟨rfl, rfl, rfl, hb ▸ fun _ h => h, ⟨by rw [hn, hr], by rw [hn', hr'], by rw [hb, hr], by rw [hb, hr']⟩⟩

/-! ## The line put back -/

theorem SpecOk.byteLine {cfg : CacheConfig} {size : Option Nat} {a : CacheAccess} {spec : LineSpec}
    (hs : SpecOk cfg size a spec) {buf : BufferKey} {pos : Nat} (hc : a.Covers buf pos)
    (hi : pos / cfg.lineBytes = spec.key.lineIndex) : byteLine cfg buf pos = spec.key := by
  obtain ⟨rfl, -⟩ := hc
  show LineKey.mk a.bufferId a.allocationGeneration (pos / cfg.lineBytes) = spec.key
  rw [hi, ← hs.bufferId, ← hs.generation]

/-- A dirty line of the spec's size holds every byte the access covers in it. -/
theorem dirtyResident_of_line {c : CacheState} {size : Option Nat} {a : CacheAccess} {spec : LineSpec}
    {line : CacheLine} (hs : SpecOk c.config size a spec) (hg : c.lines.get? spec.key = some line)
    (hd : line.dirty = true) (hp : line.sizeBytes = spec.physicalSize) {buf : BufferKey} {pos : Nat}
    (hc : a.Covers buf pos) (hi : pos / c.config.lineBytes = spec.key.lineIndex) : DirtyResident c buf pos :=
  ⟨line, (hs.byteLine hc hi).symm ▸ hg, hd, by rw [hi, hp]; exact (hs.covers hc hi).2.2⟩

/-- A popped line put back, dirty if it was, loses no dirty byte. -/
theorem Progress.hit {c c1 : CacheState} {k : LineKey} {line : CacheLine} {r r1 : CacheAccessResult} (dirty : Bool)
    (hl : LinesOk c) (hk : c.lines.get? k = some line) (hi : Issued (popLine k c).2 r c1 r1)
    (hd : line.dirty = true → dirty = true) : Progress c r (setLine k { line with dirty } c1) r1 := by
  have hpop := popLine_rest k c
  have he : EditsLine c (setLine k { line with dirty } c1) k (some { line with dirty }) := by
    refine EditsLine.trans (v := none) ⟨hi.config.trans hpop.1, hi.sizes.trans hpop.2.1, fun k' => ?_⟩
      (editsLine_set k _ c1)
    rw [hi.lines]; exact popLine_get? k k' c
  have hok := hl hk
  refine ⟨he.config, he.sizes, he.linesOk hl ?_, fun {buf pos} hh => ?_, ?_⟩
  · rintro _ ⟨⟩
    exact ⟨hok.bufferId, hok.generation, hok.lineIndex, hok.strip, hok.extent⟩
  · rcases hh with hdr | ⟨b, hm, hw⟩
    · rcases he.dirtyResident hdr with hdr | ⟨hkey, old, hgl, hdl, hlt⟩
      · exact .inl hdr
      · obtain rfl : line = old := Option.some.inj (hk.symm.trans hgl)
        refine .inl ⟨{ line with dirty }, ?_, hd hdl, by rw [he.config]; exact hlt⟩
        rw [he.config, he.lines, hkey, if_pos rfl]
    · exact .inr ⟨b, hi.backing b hm, hw⟩
  · rw [(setLine_rest k _ c1).2.2, ← hpop.2.2]
    exact hi.accounts

/-- A line put in at an absent key touches no other. -/
theorem Progress.fill {c : CacheState} {k : LineKey} {line : CacheLine} {r : CacheAccessResult}
    (hl : LinesOk c) (hk : c.lines.get? k = none) (hok : LineOk c.config c.bufferSizes k line) :
    Progress c r (setLine k line c) r := by
  have he := editsLine_set k line c
  refine ⟨he.config, he.sizes, he.linesOk hl (by rintro _ ⟨⟩; exact hok), fun {buf pos} hh => ?_, ?_⟩
  · rcases hh with hdr | hs
    · rcases he.dirtyResident hdr with hdr | ⟨-, old, hgl, -⟩
      · exact .inl hdr
      · rw [hk] at hgl; cases hgl
    · exact .inr hs
  · rw [(setLine_rest k line c).2.2]
    exact .refl _ _

/-- After the spec's turn its bytes of the access, if a write, are held. -/
def Stored (a : CacheAccess) (spec : LineSpec) (c : CacheState) (r : CacheAccessResult) : Prop :=
  a.operation = .write → ∀ {buf pos}, a.Covers buf pos → pos / c.config.lineBytes = spec.key.lineIndex →
    Held c r.backingAccesses buf pos

theorem hitLine_wp {c : CacheState} (hl : LinesOk c) {a : CacheAccess} {spec : LineSpec} {size : Option Nat}
    (hsize : c.bufferSizes a.bufferKey = some size) (hs : SpecOk c.config size a spec) {line : CacheLine}
    (hk : c.lines.get? spec.key = some line) (r : CacheAccessResult) :
    wp (hitLine a spec (max a.offsetBytes (spec.key.lineIndex * c.config.lineBytes)) size line r)
      (fun r' c' => Progress c r c' r' ∧ Stored a spec c' r') (fun _ _ => True) (popLine spec.key c).2 := by
  have hcount := issued_count (popLine spec.key c).2 r { r with hitLines := r.hitLines + 1 }
    { (popLine spec.key c).2.counters with hitLines := (popLine spec.key c).2.counters.hitLines + 1 }
    rfl rfl rfl rfl rfl
  simp only [hitLine, count, wp_bind, wp_get, wp_modify]
  split
  · -- write back: the line goes dirty
    simp only [wp_bind, wp_modify, wp_pure]
    have hp := Progress.hit true hl hk hcount fun _ => rfl
    refine ⟨hp, fun _ buf pos hc hi => ?_⟩
    obtain ⟨size', hsz, hext⟩ := (hl hk).extent
    rw [hs.bufferKey, hsize] at hsz
    obtain rfl := Option.some.inj hsz
    refine .inl (dirtyResident_of_line (hp.config ▸ hs) (by rw [setLine_get?, if_pos rfl]) rfl ?_ hc hi)
    rw [hs.physical, ← hext]
  · -- write through: the bytes go out, the line stays as it was
    next hop _ =>
    rw [wp_bind]
    refine wp_mono (writeThrough_wp ..) (fun r' c1 h => ?_) fun _ _ _ => trivial
    obtain ⟨hi, hsave⟩ := h
    simp only [wp_bind, wp_modify, wp_pure]
    have hp := Progress.hit line.dirty hl hk (hcount.trans hi) id
    refine ⟨hp, fun _ buf pos hc hidx => .inr ?_⟩
    rw [hp.config] at hidx
    obtain ⟨hlo, hhi, -⟩ := hs.covers hc hidx
    exact hc.1 ▸ hsave hlo hhi
  · next hop =>
    simp only [wp_bind, wp_modify, wp_pure]
    exact ⟨.hit line.dirty hl hk hcount id, fun hw => by rw [hop] at hw; cases hw⟩

theorem missLine_wp {c : CacheState} (hl : LinesOk c) {a : CacheAccess} {spec : LineSpec} {size : Option Nat}
    (hsize : c.bufferSizes a.bufferKey = some size) (hs : SpecOk c.config size a spec)
    (hk : c.lines.get? spec.key = none) (off : Nat) (r : CacheAccessResult) :
    wp (missLine a spec off (max a.offsetBytes (spec.key.lineIndex * c.config.lineBytes)) size r)
      (fun r' c' => Progress c r c' r' ∧ Stored a spec c' r') (fun _ _ => True) c := by
  have hcount := issued_count c r { r with missLines := r.missLines + 1 }
    { c.counters with missLines := c.counters.missLines + 1 } rfl rfl rfl rfl rfl
  simp only [missLine, count, wp_bind, wp_get, wp_modify]
  split
  · -- no allocation: the covered bytes bypass the cache
    simp only [wp_bind, wp_modify, wp_raise, wp_pure, implies_true, and_true]
    intro b hb
    have hbuilt := built_of_new hb
    refine ⟨Issued.progress ⟨rfl, rfl, rfl, fun b hm => by simp [hm], ?_⟩ hl, fun _ buf pos hc hi => .inr ?_⟩
    · constructor <;>
        simp [CacheCounters.backingWriteBytes, CacheAccessResult.backingWriteBytes, hbuilt.operation,
          hbuilt.size] <;> omega
    · obtain ⟨hlo, hhi, -⟩ := hs.covers hc hi
      exact ⟨b, by simp, hc.1 ▸ hbuilt.writes a.bufferId_strip hlo hhi⟩
  · next halloc =>
    simp only [wp_bind]
    refine wp_mono (ensureSlot_wp (hcount.linesOk hl) _) (fun r1 c1 h1 => ?_) fun _ _ _ => trivial
    obtain ⟨hp1, habsent⟩ := h1
    refine wp_mono (fillLine_wp c1 a spec off size r1) (fun r2 c2 h2 => ?_) fun _ _ _ => trivial
    have hp2 := ((hcount.progress hl).trans hp1).trans (h2.progress hp1.lines)
    have hk2 : c2.lines.get? spec.key = none := by rw [h2.lines]; exact habsent _ hk
    generalize hline : (⟨spec.key.bufferId, spec.key.lineIndex, spec.physicalSize,
      decide (a.operation = .write ∧ c.config.writeBack = true), spec.key.generation⟩ : CacheLine) = line
    have hok : LineOk c2.config c2.bufferSizes spec.key line := by
      rw [hp2.config, hp2.sizes]
      subst hline
      refine ⟨rfl, rfl, rfl, by rw [hs.bufferId]; exact a.bufferId_strip, size, ?_, hs.physical⟩
      rw [hs.bufferKey]; exact hsize
    simp only [wp_modify]
    have hp3 := hp2.trans (.fill hp2.lines hk2 hok)
    have hcount3 := issued_count (setLine spec.key line c2) r2
      { r2 with allocatedLines := r2.allocatedLines + 1 } _ rfl rfl rfl rfl rfl
    have hp4 := hp3.trans (hcount3.progress hp3.lines)
    split
    · -- write through
      refine wp_mono (writeThrough_wp ..) (fun r5 c5 h5 => ?_) fun _ _ _ => trivial
      obtain ⟨h5, hsave⟩ := h5
      have hp5 := hp4.trans (h5.progress hp4.lines)
      refine ⟨hp5, fun _ buf pos hc hi => .inr ?_⟩
      rw [hp5.config] at hi
      obtain ⟨hlo, hhi, -⟩ := hs.covers hc hi
      exact hc.1 ▸ hsave hlo hhi
    · next hwb =>
      rw [wp_pure]
      refine ⟨hp4, fun hw buf pos hc hi => ?_⟩
      have hdirty : line.dirty = true := by
        subst hline
        simpa [hw] using hwb
      refine .inl (dirtyResident_of_line (hp4.config ▸ hs) (by rw [setLine_get?, if_pos rfl]) hdirty ?_ hc hi)
      subst hline
      rfl

/-- One line of an access: nothing is lost, and its own bytes are held. -/
theorem touchLine_wp {c : CacheState} (hl : LinesOk c) {a : CacheAccess} {spec : LineSpec} {size : Option Nat}
    (hsize : c.bufferSizes a.bufferKey = some size) (hs : SpecOk c.config size a spec) (r : CacheAccessResult) :
    wp (touchLine a spec r) (fun r' c' => Progress c r c' r' ∧ Stored a spec c' r') (fun _ _ => True) c := by
  simp only [touchLine, rememberedSize, wp_bind, wp_get, hsize, wp_pure, wp_set, popLine_fst]
  split
  · next line hk => exact hitLine_wp hl hsize hs hk r
  · next hk =>
    have hpop : (popLine spec.key c).2 = recordLine spec.key c := by simp [popLine, hk]
    have hi : Issued c r (recordLine spec.key c) r :=
      ⟨recordLine_config .., recordLine_sizes .., recordLine_lines .., fun _ h => h,
        by rw [recordLine_counters]; exact .refl _ _⟩
    have hm := missLine_wp (hi.linesOk hl) (by rw [recordLine_sizes]; exact hsize)
      (by rw [recordLine_config]; exact hs) (by rw [recordLine_lines]; exact hk)
      (spec.key.lineIndex * c.config.lineBytes) r
    rw [recordLine_config] at hm
    rw [hpop]
    exact wp_mono hm (fun r' c' h => ⟨(hi.progress hl).trans h.1, h.2⟩) fun _ _ _ => trivial

/-- The whole loop: every byte of a write ends held, and none is lost on the way. -/
theorem touchLines_wp {a : CacheAccess} {size : Option Nat} : ∀ (specs : List LineSpec) {c : CacheState}
    {r : CacheAccessResult}, LinesOk c → c.bufferSizes a.bufferKey = some size →
      (∀ spec ∈ specs, SpecOk c.config size a spec) →
      wp (touchLines a specs r) (fun r' c' => Progress c r c' r' ∧ ∀ spec ∈ specs, Stored a spec c' r')
        (fun _ _ => True) c
  | [], c, r, hl, _, _ => ⟨.refl hl r, by simp⟩
  | spec :: specs, c, r, hl, hsize, hs => by
    simp only [touchLines, wp_bind]
    refine wp_mono (touchLine_wp hl hsize (hs spec (by simp)) r) (fun r1 c1 h1 => ?_) fun _ _ _ => trivial
    obtain ⟨hp1, hst1⟩ := h1
    have ih := touchLines_wp specs (c := c1) (r := r1) hp1.lines (by rw [hp1.sizes]; exact hsize)
      (by rw [hp1.config]; exact fun spec hm => hs spec (by simp [hm]))
    refine wp_mono ih (fun r2 c2 h2 => ?_) fun _ _ _ => trivial
    obtain ⟨hp2, hst2⟩ := h2
    refine ⟨hp1.trans hp2, fun s hm => ?_⟩
    rcases List.mem_cons.1 hm with rfl | hm
    · exact fun hw buf pos hc hi => hp2.held (hst1 hw hc (hp2.config ▸ hi))
    · exact hst2 s hm

end HeteroSim.Cache
