/-
Runs of accepted accesses and flushes: the write-back guarantee and the
byte counters over a whole run.
-/
import HeteroSim.Cache.WriteBack

namespace HeteroSim.Cache

/-! ## The log of a run -/

/-- What an accepted call reports; a batch reports one entry an access. -/
inductive Entry
  | access (a : CacheAccess) (r : CacheAccessResult)
  | flush (r : CacheFlushResult)

namespace Entry

def backing : Entry → List CacheAccess
  | .access _ r => r.backingAccesses
  | .flush r => r.backingAccesses

/-- The entry is a write access covering the byte. -/
def Stores (e : Entry) (buf : BufferKey) (pos : Nat) : Prop :=
  match e with
  | .access a _ => a.Writes buf pos
  | .flush _ => False

/-- The `backing_write_bytes` of the entry's result. -/
def backingWriteBytes : Entry → Nat
  | .access _ r => r.backingWriteBytes
  | .flush r => r.writebackBytes

/-- The `backing_read_bytes` of the entry's result. -/
def backingReadBytes : Entry → Nat
  | .access _ r => r.readFillBytes
  | .flush _ => 0

end Entry

/-- The accepted calls from a new cache and what they reported. -/
inductive Runs (cfg : CacheConfig) : List Entry → CacheState → Prop
  | init : Runs cfg [] (.init cfg)
  | access {log : List Entry} {c c' : CacheState} {a : CacheAccess} {r : CacheAccessResult} (h : Runs cfg log c)
      (ha : access a c = .ok r c') : Runs cfg (log ++ [.access a r]) c'
  | accessMany {log : List Entry} {c c' : CacheState} {as : List CacheAccess} {rs : List CacheAccessResult}
      (h : Runs cfg log c) (ha : accessMany as c = .ok rs c') : Runs cfg (log ++ List.zipWith .access as rs) c'
  | flush {log : List Entry} {c c' : CacheState} (bufferId : Option String) (generation : Option Nat)
      {r : CacheFlushResult} (h : Runs cfg log c) (ha : flush bufferId generation c = .ok r c') :
      Runs cfg (log ++ [.flush r]) c'

/-! ## One call -/

/-- What one entry does to the bytes and the counters. -/
structure Advance (c : CacheState) (e : Entry) (c' : CacheState) : Prop where
  config : c'.config = c.config
  lines : LinesOk c'
  keeps : ∀ {buf pos}, DirtyResident c buf pos → Held c' e.backing buf pos
  stores : ∀ {buf pos}, e.Stores buf pos → Held c' e.backing buf pos
  writes : c'.counters.backingWriteBytes = c.counters.backingWriteBytes + bytesOf .write e.backing
  reads : c'.counters.readFillBytes = c.counters.readFillBytes + bytesOf .read e.backing
  reportedWrites : e.backingWriteBytes = bytesOf .write e.backing
  reportedReads : e.backingReadBytes = bytesOf .read e.backing

theorem introduceBuffer_rest (key : BufferKey) (size : Option Nat) (c : CacheState) :
    (introduceBuffer key size c).config = c.config ∧ (introduceBuffer key size c).lines = c.lines ∧
      (introduceBuffer key size c).counters = c.counters ∧
      ∀ {k s}, c.bufferSizes k = some s → (introduceBuffer key size c).bufferSizes k = some s := by
  have hr : (rememberBuffer key c).config = c.config ∧ (rememberBuffer key c).lines = c.lines ∧
      (rememberBuffer key c).counters = c.counters ∧ (rememberBuffer key c).bufferSizes = c.bufferSizes := by
    unfold rememberBuffer
    split
    · exact ⟨rfl, rfl, rfl, rfl⟩
    · split <;> exact ⟨rfl, rfl, rfl, rfl⟩
  obtain ⟨h1, h2, h3, h4⟩ := hr
  refine ⟨h1, h2, h3, fun {k s} hs => ?_⟩
  simp only [introduceBuffer, h4, Function.update_apply]
  split
  · next he => subst he; rw [hs]; rfl
  · exact hs

theorem introduceBuffer_linesOk {c : CacheState} (h : LinesOk c) (key : BufferKey) (size : Option Nat) :
    LinesOk (introduceBuffer key size c) := by
  obtain ⟨hcfg, hlines, -, hsizes⟩ := introduceBuffer_rest key size c
  intro k line hk
  rw [hlines] at hk
  obtain ⟨h1, h2, h3, h4, s, hs, hext⟩ := h hk
  exact ⟨h1, h2, h3, h4, s, hsizes hs, by rw [hcfg]; exact hext⟩

theorem access_wp {c : CacheState} (hl : LinesOk c) (a : CacheAccess) :
    wp (access a) (fun r c' => Advance c (.access a r) c') (fun _ _ => True) c := by
  simp only [access, wp_bind, wp_get, wp_raise, implies_true, and_true]
  intro specs hspecs
  obtain ⟨size, hsize, hok, hall⟩ := lineSpecs_ok hspecs
  obtain ⟨hcfg, hlines, hcount, -⟩ := introduceBuffer_rest a.bufferKey a.bufferSizeBytes c
  rw [wp_modify]
  have hloop := touchLines_wp specs (r := {}) (introduceBuffer_linesOk hl a.bufferKey a.bufferSizeBytes) hsize
    (by rw [hcfg]; exact hok)
  refine wp_mono hloop (fun r c' h => ?_) fun _ _ _ => trivial
  obtain ⟨hp, hst⟩ := h
  simp only [count, wp_modify, wp_pure]
  obtain ⟨hw, hrd, hiw, hir⟩ := hp.accounts
  rw [hcount] at hw hrd
  have hconfig : c'.config = c.config := hp.config.trans hcfg
  simp only [CacheAccessResult.backingWriteBytes, bytesOf_nil, Nat.add_zero, Nat.zero_add] at hw hrd hiw hir
  refine ⟨hconfig, hp.lines, fun {buf pos} hd => ?_, fun {buf pos} hs => ?_, ?_, ?_, hiw, hir⟩
  · refine hp.held (.inl ?_)
    simpa only [DirtyResident, hcfg, hlines] using hd
  · obtain ⟨spec, hm, hidx⟩ := hall hs.2
    exact hst spec hm hs.1 hs.2 (by rw [hconfig, hidx])
  · simp only [CacheCounters.backingWriteBytes, Entry.backing] at hw ⊢
    omega
  · simp only [Entry.backing]
    omega

/-- The flush's loop: each selected line is written whole, then marked clean. -/
theorem flushLines_wp {b : Option String} {g : Option Nat} : ∀ (items : List (LineKey × CacheLine)) {c : CacheState}
    {r : CacheFlushResult}, LinesOk c → (items.map Prod.fst).Nodup →
      (∀ p ∈ items, c.lines.get? p.1 = some p.2) →
      wp (flushLines b g items r) (fun r' c' => c'.config = c.config ∧ LinesOk c' ∧ c'.counters = c.counters ∧
        (∀ {buf pos}, Held c r.backingAccesses buf pos → Held c' r'.backingAccesses buf pos) ∧
        r'.writebackBytes + bytesOf .write r.backingAccesses =
          r.writebackBytes + bytesOf .write r'.backingAccesses ∧
        bytesOf .read r'.backingAccesses = bytesOf .read r.backingAccesses) (fun _ _ => True) c
  | [], c, r, hl, _, _ => ⟨rfl, hl, rfl, id, rfl, rfl⟩
  | (key, line) :: rest, c, r, hl, hn, hall => by
    simp only [List.map_cons, List.nodup_cons] at hn
    unfold flushLines
    split
    · have hk : c.lines.get? key = some line := hall (key, line) (by simp)
      have hok := hl hk
      simp only [rememberedSize, wp_bind, wp_get]
      split
      · next size hsize =>
        simp only [wp_pure, wp_raise, implies_true, and_true]
        intro w hw
        have hbuilt := built_of_new hw
        have he := editsLine_set key { line with dirty := false } c
        have hl' : LinesOk (setLine key { line with dirty := false } c) :=
          he.linesOk hl (by rintro _ ⟨⟩; exact ⟨hok.bufferId, hok.generation, hok.lineIndex, hok.strip, hok.extent⟩)
        rw [wp_modify]
        have ih := flushLines_wp (b := b) (g := g) rest (c := setLine key { line with dirty := false } c)
          (r := ⟨r.flushedLines + 1, r.writebackBytes + line.sizeBytes, r.backingAccesses ++ [w]⟩) hl' hn.2
          fun p hp => by
            have hne : p.1 ≠ key := fun heq => hn.1 (heq ▸ List.mem_map_of_mem hp)
            rw [setLine_get?, if_neg hne]
            exact hall p (by simp [hp])
        refine wp_mono ih (fun r' c' h => ?_) fun _ _ _ => trivial
        obtain ⟨h1, h2, h3, h4, h5, h6⟩ := h
        have hcount := (setLine_rest key { line with dirty := false } c).2.2
        simp only [bytesOf_snoc, hbuilt.operation, hbuilt.size, if_true, reduceCtorEq, if_false] at h5 h6
        refine ⟨h1.trans he.config, h2, h3.trans hcount, fun {buf pos} hh => h4 ?_, by omega, h6⟩
        rcases hh with hd | ⟨b', hm, hbw⟩
        · rcases he.dirtyResident hd with hd | ⟨hkey, old, hgl, -, hlt⟩
          · exact .inl hd
          · obtain rfl : line = old := Option.some.inj (hk.symm.trans hgl)
            have hgen : line.allocationGeneration = buf.generation := by rw [hok.generation, ← hkey]; rfl
            have hidx : line.lineIndex = pos / c.config.lineBytes := by rw [hok.lineIndex, ← hkey]; rfl
            rw [hgen] at hbuilt
            refine .inr ⟨w, by simp, hbuilt.writes ?_ ?_ ?_⟩
            · rw [hok.bufferId, hok.strip, ← hkey]; rfl
            · rw [hidx]; exact Nat.div_mul_le_self _ _
            · rw [hidx]; exact hlt
        · exact .inr ⟨b', by simp [hm], hbw⟩
      · trivial
    · exact flushLines_wp rest hl hn.2 fun p hp => hall p (by simp [hp])

theorem flush_wp {c : CacheState} (hl : LinesOk c) (bufferId : Option String) (generation : Option Nat) :
    wp (flush bufferId generation) (fun r c' => Advance c (.flush r) c') (fun _ _ => True) c := by
  unfold flush
  split
  · trivial
  · simp only [wp_bind, wp_get]
    have hloop := flushLines_wp (b := bufferId.map strip) (g := generation) c.lines.items
      (r := ⟨0, 0, []⟩) hl c.lines.nodup fun p hp => Dict.get?_eq_some.2 hp
    refine wp_mono hloop (fun r c' h => ?_) fun _ _ _ => trivial
    obtain ⟨hcfg, hlines, hcount, hheld, hw, hr⟩ := h
    simp only [count, wp_modify, wp_pure]
    simp only [bytesOf_nil, Nat.add_zero, Nat.zero_add] at hw hr
    refine ⟨hcfg, hlines, fun hd => hheld (.inl hd), fun hs => hs.elim, ?_, ?_, hw, hr.symm⟩
    · simp only [CacheCounters.backingWriteBytes, hcount, Entry.backing]
      omega
    · simp only [hcount, Entry.backing, hr, Nat.add_zero]

/-! ## Runs -/

/-- The entries from one state to another. -/
inductive Advances : CacheState → List Entry → CacheState → Prop
  | nil (c : CacheState) : Advances c [] c
  | cons {c c' d : CacheState} {e : Entry} {es : List Entry} (h : Advance c e c') (hs : Advances c' es d) :
      Advances c (e :: es) d

theorem Advances.append {c c' d : CacheState} {es fs : List Entry} (h : Advances c es c') (h' : Advances c' fs d) :
    Advances c (es ++ fs) d := by
  induction h with
  | nil c => exact h'
  | cons ha _ ih => exact .cons ha (ih h')

theorem Advances.lines {c d : CacheState} {es : List Entry} (h : Advances c es d) (hl : LinesOk c) : LinesOk d := by
  induction h with
  | nil c => exact hl
  | cons ha _ ih => exact ih ha.lines

theorem accessAll_wp : ∀ (as : List CacheAccess) {c : CacheState}, LinesOk c →
    wp (accessAll as) (fun rs c' => Advances c (List.zipWith .access as rs) c') (fun _ _ => True) c
  | [], c, _ => .nil c
  | a :: as, c, hl => by
    simp only [accessAll, wp_bind]
    refine wp_mono (access_wp hl a) (fun r c' h => ?_) fun _ _ _ => trivial
    refine wp_mono (accessAll_wp as h.lines) (fun rs d hs => ?_) fun _ _ _ => trivial
    exact .cons h hs

theorem accessMany_wp {c : CacheState} (hl : LinesOk c) (as : List CacheAccess) :
    wp (accessMany as) (fun rs c' => Advances c (List.zipWith .access as rs) c') (fun _ _ => True) c := by
  simp only [accessMany, wp_bind, wp_get, wp_raise, implies_true, and_true]
  exact fun _ _ => accessAll_wp as hl

theorem linesOk_init (cfg : CacheConfig) : LinesOk (.init cfg) := by
  intro k line hk
  cases hk

theorem advances_of_runs {cfg : CacheConfig} {log : List Entry} {c : CacheState} (h : Runs cfg log c) :
    Advances (.init cfg) log c := by
  induction h with
  | init => exact .nil _
  | access _ ha ih =>
    have hstep := wp_ok (access_wp (ih.lines (linesOk_init cfg)) _) ha
    exact ih.append (.cons hstep (.nil _))
  | accessMany _ ha ih =>
    have hsteps := wp_ok (accessMany_wp (ih.lines (linesOk_init cfg)) _) ha
    exact ih.append hsteps
  | flush _ _ _ ha ih =>
    have hstep := wp_ok (flush_wp (ih.lines (linesOk_init cfg)) _ _) ha
    exact ih.append (.cons hstep (.nil _))

/-- A dirty byte is still dirty at the end of a run, or the run saves it. -/
theorem Advances.keeps {c d : CacheState} {es : List Entry} (h : Advances c es d) {buf : BufferKey} {pos : Nat}
    (hd : DirtyResident c buf pos) : DirtyResident d buf pos ∨ ∃ e ∈ es, Saves e.backing buf pos := by
  induction h with
  | nil c => exact .inl hd
  | cons ha _ ih =>
    rcases ha.keeps hd with hd | hs
    · exact (ih hd).imp id fun ⟨e, hm, hs⟩ => ⟨e, by simp [hm], hs⟩
    · exact .inr ⟨_, by simp, hs⟩

theorem Advances.stores {before : List Entry} : ∀ {c d : CacheState} {e : Entry} {later : List Entry},
    Advances c (before ++ e :: later) d → ∀ {buf pos}, e.Stores buf pos →
      DirtyResident d buf pos ∨ ∃ x ∈ e :: later, Saves x.backing buf pos := by
  induction before with
  | nil =>
    intro c d e later h buf pos hs
    cases h with
    | cons ha hrest =>
      rcases ha.stores hs with hd | hsv
      · exact (hrest.keeps hd).imp id fun ⟨x, hm, hx⟩ => ⟨x, by simp [hm], hx⟩
      · exact .inr ⟨e, by simp, hsv⟩
  | cons _ _ ih =>
    intro c d e later h
    cases h with
    | cons _ hrest => exact ih hrest

theorem Advances.totals {c d : CacheState} {es : List Entry} (h : Advances c es d) :
    d.counters.backingWriteBytes = c.counters.backingWriteBytes + bytesOf .write (es.flatMap Entry.backing) ∧
      d.counters.readFillBytes = c.counters.readFillBytes + bytesOf .read (es.flatMap Entry.backing) := by
  have happ : ∀ op (l m : List CacheAccess), bytesOf op (l ++ m) = bytesOf op l + bytesOf op m := fun op l m => by
    simp only [bytesOf, List.filter_append, List.map_append, List.sum_append]
  induction h with
  | nil c => exact ⟨rfl, rfl⟩
  | cons ha _ ih =>
    rw [ih.1, ih.2, ha.writes, ha.reads, List.flatMap_cons, happ, happ]
    omega

theorem Advances.reported {c d : CacheState} {es : List Entry} (h : Advances c es d) :
    ∀ e ∈ es, e.backingWriteBytes = bytesOf .write e.backing ∧ e.backingReadBytes = bytesOf .read e.backing := by
  induction h with
  | nil c => simp
  | cons ha _ ih =>
    rintro x (_ | ⟨_, hm⟩)
    · exact ⟨ha.reportedWrites, ha.reportedReads⟩
    · exact ih x hm

/-- **No write is lost.** Over any run of accepted calls, a byte a write
access covered is in a dirty resident line, or a backing write issued at or
after that access covers it; and what the results and the running totals
report is what was issued. -/
theorem no_write_lost {cfg : CacheConfig} {log : List Entry} {c : CacheState} (h : Runs cfg log c) :
    (∀ before e later, log = before ++ e :: later → ∀ buf pos, e.Stores buf pos →
      DirtyResident c buf pos ∨ ∃ x ∈ e :: later, Saves x.backing buf pos) ∧
    (∀ e ∈ log, e.backingWriteBytes = bytesOf .write e.backing ∧ e.backingReadBytes = bytesOf .read e.backing) ∧
    c.counters.backingWriteBytes = bytesOf .write (log.flatMap Entry.backing) ∧
    c.counters.readFillBytes = bytesOf .read (log.flatMap Entry.backing) := by
  have ha := advances_of_runs h
  obtain ⟨hw, hr⟩ := ha.totals
  refine ⟨fun before e later hs buf pos he => ?_, ha.reported, ?_, ?_⟩
  · subst hs
    exact ha.stores he
  · rw [hw]; exact Nat.zero_add _
  · rw [hr]; exact Nat.zero_add _

/-- A six-byte buffer written across two lines of four, then flushed. -/
theorem no_write_lost_flushed : ∃ log c,
    Runs ⟨8, 4, true, true, by decide, by decide, by decide⟩ log c ∧ log.length = 2 ∧
      (∀ before e later, log = before ++ e :: later → ∀ buf pos, e.Stores buf pos →
        DirtyResident c buf pos ∨ ∃ x ∈ e :: later, Saves x.backing buf pos) ∧
      c.counters.backingWriteBytes = 6 ∧ c.counters.readFillBytes = 4 := by
  have hr : Runs ⟨8, 4, true, true, by decide, by decide, by decide⟩ _ _ :=
    .flush none none
      (.access (a := ⟨"kv", 2, 4, .write, some 6, 0, by decide, by decide, by decide, by decide⟩) .init rfl) rfl
  obtain ⟨hstores, -, -, -⟩ := no_write_lost hr
  exact ⟨_, _, hr, rfl, hstores, rfl, rfl⟩

end HeteroSim.Cache
