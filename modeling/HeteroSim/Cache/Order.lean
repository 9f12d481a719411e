/-
What an access does to the order of the lines, and that past its size check
it never raises: the lines it touches move to the MRU end one by one, as the
keys of a recency list bounded by the cache's capacity do.
-/
import HeteroSim.Cache.NoLostWrite
import HeteroSim.Recency

namespace HeteroSim.Cache

open Recency (use)

/-! ## Lines the accesses built -/

/-- A resident line of a named buffer, with a byte at least, inside what its buffer's size leaves of it. -/
structure LineSound (cfg : CacheConfig) (sizes : BufferKey → Option (Option Nat)) (k : LineKey) (line : CacheLine) :
    Prop extends LineOk cfg sizes k line where
  named : k.bufferId ≠ ""
  pos : 0 < line.sizeBytes

def LinesSound (c : CacheState) : Prop := ∀ k line, c.lines.get? k = some line → LineSound c.config c.bufferSizes k line

theorem new_ok {id : String} {off size gen : Nat} {op : Operation} {bs : Option Nat} (hid : strip id ≠ "")
    (hsize : 0 < size) (hin : ∀ s ∈ bs, off + size ≤ s) : ∃ b, CacheAccess.new id off size op bs gen = .ok b := by
  have hzero : bs ≠ some 0 := by
    rintro rfl
    have := hin 0 rfl
    omega
  unfold CacheAccess.new
  rw [dif_neg hid, dif_neg hsize.ne', dif_neg hzero, dif_pos hin]
  exact ⟨_, rfl⟩

theorem lineEnd_le {cfg : CacheConfig} {size : Option Nat} {i s : Nat} (hs : s ∈ size) : lineEnd cfg size i ≤ s := by
  cases hs
  exact min_le_right _ _

/-- A resident line's own bytes can always be written back. -/
theorem LineSound.write_ok {cfg : CacheConfig} {sizes : BufferKey → Option (Option Nat)} {k : LineKey} {line : CacheLine}
    (h : LineSound cfg sizes k line) : ∃ size b, sizes ⟨line.bufferId, line.allocationGeneration⟩ = some size ∧
      CacheAccess.new line.bufferId (line.lineIndex * cfg.lineBytes) line.sizeBytes .write size
        line.allocationGeneration = .ok b := by
  obtain ⟨size, hsize, hext⟩ := h.extent
  have hpos := h.pos
  have hkey : (⟨line.bufferId, line.allocationGeneration⟩ : BufferKey) = k.bufferKey := by
    rw [h.bufferId, h.generation]
    rfl
  have hin : ∀ s ∈ size, line.lineIndex * cfg.lineBytes + line.sizeBytes ≤ s := fun s hs => by
    have hle : lineEnd cfg size k.lineIndex ≤ s := lineEnd_le hs
    rw [h.lineIndex]
    omega
  have hid : strip line.bufferId ≠ "" := by
    rw [h.bufferId, h.strip]
    exact h.named
  obtain ⟨b, hb⟩ := new_ok hid hpos hin
  exact ⟨size, b, by rw [hkey]; exact hsize, hb⟩

theorem LineSound.cleaned {cfg : CacheConfig} {sizes : BufferKey → Option (Option Nat)} {k : LineKey} {line : CacheLine}
    (h : LineSound cfg sizes k line) (dirty : Bool) : LineSound cfg sizes k { line with dirty } :=
  ⟨⟨h.bufferId, h.generation, h.lineIndex, h.strip, h.extent⟩, h.named, h.pos⟩

theorem EditsLine.linesSound {c c' : CacheState} {k : LineKey} {v : Option CacheLine} (h : EditsLine c c' k v)
    (hl : LinesSound c) (hv : ∀ line ∈ v, LineSound c.config c.bufferSizes k line) : LinesSound c' := by
  intro k' line hk
  rw [h.lines] at hk
  rw [h.config, h.sizes]
  split at hk
  · next he => subst he; exact hv line hk
  · exact hl k' line hk

/-! ## The specs of an access -/

/-- The lines of an access, first to last. -/
def lineKeys (cfg : CacheConfig) (a : CacheAccess) : List LineKey :=
  let first := a.offsetBytes / cfg.lineBytes
  let last := (a.endBytes - 1) / cfg.lineBytes
  (List.range' first (last + 1 - first)).map fun i => ⟨a.bufferId, a.allocationGeneration, i⟩

/-- A spec inside its buffer, of a line the access covers in part. -/
structure SpecSound (cfg : CacheConfig) (size : Option Nat) (a : CacheAccess) (spec : LineSpec) : Prop
    extends SpecOk cfg size a spec where
  physical_pos : 0 < spec.physicalSize
  covered_pos : 0 < spec.coveredBytes

theorem lineSpec_sound {cfg : CacheConfig} {size : Option Nat} {a : CacheAccess} {i : Nat}
    (hin : ∀ s ∈ size, a.endBytes ≤ s) (hfirst : a.offsetBytes / cfg.lineBytes ≤ i)
    (hlast : i ≤ (a.endBytes - 1) / cfg.lineBytes) : ∃ spec, lineSpec cfg size a i = .ok spec ∧
      SpecSound cfg size a spec ∧ spec.key = ⟨a.bufferId, a.allocationGeneration, i⟩ := by
  have hpos := a.size_pos
  have hline := cfg.line_pos
  have hend : a.endBytes = a.offsetBytes + a.sizeBytes := rfl
  have hstart : i * cfg.lineBytes < a.endBytes := by
    have := (Nat.le_div_iff_mul_le hline).1 hlast
    omega
  have hoffset : a.offsetBytes < i * cfg.lineBytes + cfg.lineBytes := by
    have := (Nat.div_lt_iff_lt_mul hline).1 (Nat.lt_succ_of_le hfirst)
    rwa [Nat.succ_mul] at this
  have hlineEnd : i * cfg.lineBytes < lineEnd cfg size i ∧ a.offsetBytes < lineEnd cfg size i := by
    cases size with
    | none => exact ⟨by simp only [lineEnd]; omega, hoffset⟩
    | some s =>
      have := hin s rfl
      simp only [lineEnd, lt_min_iff]
      omega
  have hinside : ¬∃ s ∈ size, s ≤ i * cfg.lineBytes := by
    rintro ⟨s, hs, hle⟩
    have := hin s hs
    omega
  unfold lineSpec
  simp only
  rw [if_neg hinside, if_neg (by omega), if_neg (by omega)]
  refine ⟨_, rfl, ⟨⟨a.bufferId_strip, rfl, rfl, by simp only; omega, hin⟩, by simp only; omega, by simp only; omega⟩, ?_⟩
  rw [a.bufferId_strip]

theorem mapM_total {α β γ ε : Type} {f : α → Except ε β} {P : β → Prop} {g : β → γ} (name : α → γ) : ∀ {l : List α},
    (∀ a ∈ l, ∃ b, f a = .ok b ∧ P b ∧ g b = name a) →
      ∃ out, l.mapM f = .ok out ∧ (∀ b ∈ out, P b) ∧ out.map g = l.map name
  | [], _ => ⟨[], rfl, by simp, rfl⟩
  | a :: l, h => by
    obtain ⟨b, hb, hP, hg⟩ := h a List.mem_cons_self
    obtain ⟨out, hout, hall, hnames⟩ := mapM_total name fun a ha => h a (List.mem_cons_of_mem _ ha)
    refine ⟨b :: out, ?_, ?_, ?_⟩
    · rw [List.mapM_cons, hb]
      simp only [bind, Except.bind, hout]
      rfl
    · intro x hx
      rcases List.mem_cons.1 hx with rfl | hx
      · exact hP
      · exact hall x hx
    · rw [List.map_cons, List.map_cons, hg, hnames]

/-- Once the size is known the specs are those of the access's lines. -/
theorem lineSpecs_total {c : CacheState} {a : CacheAccess} {size : Option Nat} (h : bufferSize c a = .ok size) :
    ∃ specs, lineSpecs c a = .ok specs ∧ (∀ spec ∈ specs, SpecSound c.config size a spec) ∧
      specs.map LineSpec.key = lineKeys c.config a := by
  have hin := (bufferSize_ok h).1
  obtain ⟨specs, hspecs, hsound, hkeys⟩ := mapM_total (f := lineSpec c.config size a) (P := SpecSound c.config size a)
    (g := LineSpec.key) (fun i => ⟨a.bufferId, a.allocationGeneration, i⟩)
    (l := List.range' (a.offsetBytes / c.config.lineBytes)
      ((a.endBytes - 1) / c.config.lineBytes + 1 - a.offsetBytes / c.config.lineBytes)) fun i hi => by
    rw [List.mem_range'_1] at hi
    exact lineSpec_sound hin hi.1 (by omega)
  refine ⟨specs, ?_, hsound, hkeys⟩
  rw [lineSpecs, h]
  exact hspecs

/-! ## The order of the keys -/

theorem popLine_keys (k : LineKey) (c : CacheState) : (popLine k c).2.lines.keys = c.lines.keys.erase k := by
  have herase : (c.lines.erase k).keys = c.lines.keys.erase k := by
    rw [Dict.keys_erase, c.lines.keys_nodup.erase_eq_filter]
    refine List.filter_congr fun x _ => ?_
    simp [bne, beq_eq_decide]
  simp only [popLine, recordLine_lines]
  split
  · next h =>
    rw [recordLine_lines, List.erase_of_not_mem (Dict.get?_eq_none.1 h)]
  · simp only [unlink, recordLine_lines, herase]

theorem setLine_keys_of_mem {k : LineKey} {c : CacheState} (h : k ∈ c.lines.keys) (line : CacheLine) :
    (setLine k line c).lines.keys = c.lines.keys := by
  simp only [setLine, recordLine_lines, h, if_true, Dict.keys_insert_of_mem h]

theorem setLine_keys_of_not_mem {k : LineKey} {c : CacheState} (h : k ∉ c.lines.keys) (line : CacheLine) :
    (setLine k line c).lines.keys = c.lines.keys ++ [k] := by
  simp only [setLine, recordLine_lines, h, if_false, link, attach, Dict.keys_insert_of_not_mem h]

/-- What a step of an access leaves: sound lines, in the order `ks`. -/
structure Ordered (c c' : CacheState) (ks : List LineKey) : Prop where
  config : c'.config = c.config
  sizes : c'.bufferSizes = c.bufferSizes
  lines : LinesSound c'
  keys : c'.lines.keys = ks

/-- Only the counters move. -/
theorem Ordered.counted {c c' : CacheState} (hl : LinesSound c) (hconfig : c'.config = c.config)
    (hsizes : c'.bufferSizes = c.bufferSizes) (hlines : c'.lines = c.lines) : Ordered c c' c.lines.keys := by
  refine ⟨hconfig, hsizes, fun k line hk => ?_, by rw [hlines]⟩
  rw [hconfig, hsizes]
  exact hl k line (hlines ▸ hk)

theorem Ordered.trans {c c' c'' : CacheState} {ks ks' : List LineKey} (h : Ordered c c' ks) (h' : Ordered c' c'' ks') :
    Ordered c c'' ks' := ⟨h'.config.trans h.config, h'.sizes.trans h.sizes, h'.lines, h'.keys⟩

theorem Ordered.set {c c' : CacheState} {ks : List LineKey} (h : Ordered c c' ks) {k : LineKey} (hk : k ∉ ks)
    {line : CacheLine} (hline : LineSound c.config c.bufferSizes k line) : Ordered c (setLine k line c') (ks ++ [k]) := by
  have he := editsLine_set k line c'
  refine ⟨he.config.trans h.config, he.sizes.trans h.sizes, he.linesSound h.lines ?_, ?_⟩
  · rintro _ ⟨⟩
    rw [h.config, h.sizes]
    exact hline
  · rw [setLine_keys_of_not_mem (by rw [h.keys]; exact hk), h.keys]

theorem Ordered.pop {c : CacheState} (hl : LinesSound c) (k : LineKey) : Ordered c (popLine k c).2 (c.lines.keys.erase k) := by
  have he := editsLine_pop k c
  exact ⟨he.config, he.sizes, he.linesSound hl (by simp), popLine_keys k c⟩

theorem wp_rememberedSize {c : CacheState} {key : BufferKey} {size : Option Nat} (h : c.bufferSizes key = some size)
    (Q : Option Nat → CacheState → Prop) (R : CacheError → CacheState → Prop) : wp (rememberedSize key) Q R c ↔ Q size c := by
  simp only [rememberedSize, wp_bind, wp_get, h, wp_pure]

theorem wp_built {α : Type} {c : CacheState} {x : Except CacheError α} {b : α} (h : x = .ok b)
    (Q : α → CacheState → Prop) (R : CacheError → CacheState → Prop) : wp (raise x : CacheM α) Q R c ↔ Q b c := by
  subst h
  exact Iff.rfl

/-- Room for a line: a full cache drops its LRU line, its bytes written back. -/
theorem ensureSlot_order {c : CacheState} (hl : LinesSound c) (r : CacheAccessResult) :
    wp (ensureSlot r) (fun _ c' => Ordered c c'
      (if c.lines.keys.length < c.config.capacityLines then c.lines.keys else c.lines.keys.tail)) (fun _ _ => False) c := by
  have hlength : c.lines.keys.length = c.lines.items.length := List.length_map _
  rw [hlength]
  rw [ensureSlot, wp_bind, wp_get]
  split
  · exact .counted hl rfl rfl rfl
  · next hfull =>
    rw [wp_bind, evictOne, wp_bind, wp_get]
    split
    · next hnil =>
      rw [hnil] at hfull
      exact hfull c.config.capacityLines_pos
    · next key victim rest hitems =>
      have hg : c.lines.get? key = some victim := Dict.get?_eq_some.2 (by rw [hitems]; simp)
      obtain ⟨size, b, hsize, hb⟩ := (hl key victim hg).write_ok
      have hpop := Ordered.pop hl key
      have htail : c.lines.keys.erase key = c.lines.keys.tail := by
        rw [Dict.keys, hitems, List.map_cons, List.erase_cons_head, List.tail_cons]
      rw [htail] at hpop
      rw [wp_bind, wp_set, wp_bind, count, wp_modify, wp_pure]
      dsimp only
      have hcount : Ordered c { (popLine key c).2 with counters := { (popLine key c).2.counters with
          evictionLines := (popLine key c).2.counters.evictionLines + 1
          dirtyEvictionBytes := (popLine key c).2.counters.dirtyEvictionBytes + if victim.dirty then victim.sizeBytes else 0 } }
          c.lines.keys.tail := ⟨hpop.config, hpop.sizes, hpop.lines, hpop.keys⟩
      generalize ({ (popLine key c).2 with counters := _ } : CacheState) = c₁ at hcount ⊢
      split
      · rw [wp_bind, wp_rememberedSize ((congrFun hcount.sizes _).trans hsize), wp_bind, wp_built hb, wp_pure]
        exact hcount
      · rw [wp_pure]
        exact hcount

theorem SpecSound.covered_ok {cfg : CacheConfig} {size : Option Nat} {a : CacheAccess} {spec : LineSpec}
    (hs : SpecSound cfg size a spec) (op : Operation) : ∃ b, CacheAccess.new a.bufferId
      (max a.offsetBytes (spec.key.lineIndex * cfg.lineBytes)) spec.coveredBytes op size a.allocationGeneration = .ok b := by
  refine new_ok (by rw [a.bufferId_strip]; exact a.bufferId_ne) hs.covered_pos fun s hsize => ?_
  have := hs.inside s hsize
  rw [hs.covered]
  exact (min_le_left _ _).trans this

theorem SpecSound.line_ok {cfg : CacheConfig} {size : Option Nat} {a : CacheAccess} {spec : LineSpec}
    (hs : SpecSound cfg size a spec) (op : Operation) : ∃ b, CacheAccess.new a.bufferId
      (spec.key.lineIndex * cfg.lineBytes) spec.physicalSize op size a.allocationGeneration = .ok b := by
  refine new_ok (by rw [a.bufferId_strip]; exact a.bufferId_ne) hs.physical_pos fun s hsize => ?_
  have : lineEnd cfg size spec.key.lineIndex ≤ s := lineEnd_le hsize
  have := hs.physical
  have := hs.physical_pos
  omega

theorem SpecSound.lineSound {cfg : CacheConfig} {sizes : BufferKey → Option (Option Nat)} {size : Option Nat} {a : CacheAccess}
    {spec : LineSpec} (hs : SpecSound cfg size a spec) (hsize : sizes a.bufferKey = some size) (dirty : Bool) :
    LineSound cfg sizes spec.key ⟨spec.key.bufferId, spec.key.lineIndex, spec.physicalSize, dirty, spec.key.generation⟩ := by
  refine ⟨⟨rfl, rfl, rfl, by rw [hs.bufferId]; exact a.bufferId_strip, size, ?_, hs.physical⟩, ?_, hs.physical_pos⟩
  · rw [hs.bufferKey]; exact hsize
  · rw [hs.bufferId]; exact a.bufferId_ne

section Parts

variable {cfg : CacheConfig} {c : CacheState} {a : CacheAccess} {spec : LineSpec} {size : Option Nat}

theorem writeThrough_order (hl : LinesSound c) (hs : SpecSound cfg size a spec) (r : CacheAccessResult) :
    wp (writeThrough a spec (max a.offsetBytes (spec.key.lineIndex * cfg.lineBytes)) size r)
      (fun _ c' => Ordered c c' c.lines.keys) (fun _ _ => False) c := by
  obtain ⟨b, hb⟩ := hs.covered_ok .write
  simp only [writeThrough, count, wp_bind, wp_modify]
  rw [wp_built hb, wp_pure]
  exact .counted hl rfl rfl rfl

theorem fillLine_order (hl : LinesSound c) (hs : SpecSound cfg size a spec) (r : CacheAccessResult) :
    wp (fillLine a spec (spec.key.lineIndex * cfg.lineBytes) size r) (fun _ c' => Ordered c c' c.lines.keys)
      (fun _ _ => False) c := by
  obtain ⟨b, hb⟩ := hs.line_ok .read
  unfold fillLine
  split
  · simp only [count, wp_bind, wp_modify]
    rw [wp_built hb, wp_pure]
    exact .counted hl rfl rfl rfl
  · exact .counted hl rfl rfl rfl

theorem hitLine_order {c₀ : CacheState} {ks : List LineKey} (hs : SpecSound cfg size a spec) (h : Ordered c₀ c ks)
    (hk : spec.key ∉ ks) {line : CacheLine} (hline : LineSound c₀.config c₀.bufferSizes spec.key line)
    (r : CacheAccessResult) :
    wp (hitLine a spec (max a.offsetBytes (spec.key.lineIndex * cfg.lineBytes)) size line r)
      (fun _ c' => Ordered c₀ c' (ks ++ [spec.key])) (fun _ _ => False) c := by
  unfold hitLine
  rw [wp_bind, wp_get, wp_bind, count, wp_modify]
  have hcount : Ordered c₀ { c with counters := { c.counters with hitLines := c.counters.hitLines + 1 } } ks :=
    ⟨h.config, h.sizes, h.lines, h.keys⟩
  generalize ({ c with counters := { c.counters with hitLines := c.counters.hitLines + 1 } } : CacheState) = c₁ at hcount ⊢
  dsimp only
  split
  · rw [wp_bind, wp_modify, wp_pure]
    exact hcount.set hk (hline.cleaned true)
  · rw [wp_bind]
    refine wp_mono (writeThrough_order hcount.lines hs _) (fun r' c₂ h₂ => ?_) fun _ _ hf => hf
    rw [wp_bind, wp_modify, wp_pure]
    have hboth := hcount.trans h₂
    rw [hcount.keys] at hboth
    exact hboth.set hk hline
  · rw [wp_bind, wp_modify, wp_pure]
    exact hcount.set hk hline

/-- Whether a touch of the line is one: not a write miss that allocates nothing. -/
def Counts (cfg : CacheConfig) (op : Operation) (k : LineKey) (resident : List LineKey) : Prop :=
  k ∈ resident ∨ op = .read ∨ cfg.writeAllocate = true

instance (cfg : CacheConfig) (op : Operation) (k : LineKey) (resident : List LineKey) : Decidable (Counts cfg op k resident) :=
  inferInstanceAs (Decidable (_ ∨ _ ∨ _))

/-- The order after one line of an access. -/
def lruLine (cfg : CacheConfig) (op : Operation) (ks : List LineKey) (k : LineKey) : List LineKey :=
  if Counts cfg op k ks then use cfg.capacityLines ks (.touch k) else ks

theorem missLine_order (hl : LinesSound c) (hsize : c.bufferSizes a.bufferKey = some size)
    (hs : SpecSound c.config size a spec) (hk : spec.key ∉ c.lines.keys) (r : CacheAccessResult) :
    wp (missLine a spec (spec.key.lineIndex * c.config.lineBytes)
        (max a.offsetBytes (spec.key.lineIndex * c.config.lineBytes)) size r)
      (fun _ c' => Ordered c c' (lruLine c.config a.operation c.lines.keys spec.key)) (fun _ _ => False) c := by
  obtain ⟨b, hb⟩ := hs.covered_ok .write
  unfold missLine
  rw [wp_bind, wp_get, wp_bind, count, wp_modify]
  have hcount : Ordered c { c with counters := { c.counters with missLines := c.counters.missLines + 1 } } c.lines.keys :=
    .counted hl rfl rfl rfl
  have hsame : ({ c with counters := { c.counters with missLines := c.counters.missLines + 1 } } : CacheState).lines = c.lines := rfl
  generalize ({ c with counters := { c.counters with missLines := c.counters.missLines + 1 } } : CacheState) = c₁ at hcount hsame ⊢
  dsimp only
  split
  · next hbypass =>
    have hnot : ¬Counts c.config a.operation spec.key c.lines.keys := by
      rintro (hin | hread | halloc)
      · exact hk hin
      · rw [hbypass.1] at hread
        cases hread
      · rw [hbypass.2] at halloc
        cases halloc
    rw [count, wp_bind, wp_modify, wp_bind, wp_built hb, wp_pure, lruLine, if_neg hnot]
    exact ⟨hcount.config, hcount.sizes, hcount.lines, hcount.keys⟩
  · next hallocates =>
    have hcounts : Counts c.config a.operation spec.key c.lines.keys := by
      rcases hop : a.operation with _ | _
      · exact .inr (.inl rfl)
      · refine .inr (.inr ?_)
        rw [hop] at hallocates
        simpa using hallocates
    rw [lruLine, if_pos hcounts, Recency.use_touch, if_neg hk, wp_bind]
    refine wp_mono (ensureSlot_order hcount.lines _) (fun r₂ c₂ h₂ => ?_) fun _ _ hf => hf
    rw [hsame, hcount.config] at h₂
    have h₂ := hcount.trans h₂
    have hk₂ : spec.key ∉ if c.lines.keys.length < c.config.capacityLines then c.lines.keys else c.lines.keys.tail := by
      split
      · exact hk
      · exact fun hm => hk (List.mem_of_mem_tail hm)
    rw [wp_bind]
    refine wp_mono (fillLine_order h₂.lines hs _) (fun r₃ c₃ h₃ => ?_) fun _ _ hf => hf
    have h₃ := h₂.trans h₃
    rw [h₂.keys] at h₃
    rw [wp_bind, wp_modify]
    have h₄ := h₃.set hk₂ (hs.lineSound hsize (decide (a.operation = .write ∧ c.config.writeBack = true)))
    generalize setLine spec.key _ c₃ = c₄ at h₄ ⊢
    split
    · refine wp_mono (writeThrough_order h₄.lines hs _) (fun r₅ c₅ h₅ => ?_) fun _ _ hf => hf
      have h₅ := h₄.trans h₅
      rw [h₄.keys] at h₅
      exact h₅
    · rw [wp_pure]
      exact h₄

/-- One line of an access: it returns, and the order moves as the recency list's. -/
theorem touchLine_order (hl : LinesSound c) (hsize : c.bufferSizes a.bufferKey = some size)
    (hs : SpecSound c.config size a spec) (r : CacheAccessResult) :
    wp (touchLine a spec r) (fun _ c' => Ordered c c' (lruLine c.config a.operation c.lines.keys spec.key))
      (fun _ _ => False) c := by
  unfold touchLine
  rw [wp_bind, wp_get, wp_bind, wp_rememberedSize hsize]
  have hpop := Ordered.pop hl spec.key
  dsimp only
  rw [wp_bind, wp_set, popLine_fst]
  split
  · next line hline =>
    have hin := Dict.mem_keys_of_get? hline
    have hcounts : Counts c.config a.operation spec.key c.lines.keys := .inl hin
    rw [lruLine, if_pos hcounts, Recency.use_touch, if_pos hin]
    exact hitLine_order hs hpop (fun hm => (c.lines.keys_nodup.not_mem_erase) hm) (hl _ _ hline) r
  · next hnone =>
    have hnot : spec.key ∉ c.lines.keys := Dict.get?_eq_none.1 hnone
    have hrecord : (popLine spec.key c).2 = recordLine spec.key c := by simp [popLine, hnone]
    rw [hrecord] at hpop ⊢
    have hmiss := missLine_order hpop.lines (by rw [recordLine_sizes]; exact hsize) (by rw [recordLine_config]; exact hs)
      (by rw [recordLine_lines]; exact hnot) r
    rw [recordLine_config, recordLine_lines] at hmiss
    exact wp_mono hmiss (fun _ c' h => hpop.trans h) fun _ _ hf => hf

end Parts

/-! ## The calls -/

theorem touchLines_order {a : CacheAccess} {size : Option Nat} : ∀ (specs : List LineSpec) {c : CacheState}
    {r : CacheAccessResult}, LinesSound c → c.bufferSizes a.bufferKey = some size →
      (∀ spec ∈ specs, SpecSound c.config size a spec) → wp (touchLines a specs r)
        (fun _ c' => Ordered c c' ((specs.map LineSpec.key).foldl (lruLine c.config a.operation) c.lines.keys))
        (fun _ _ => False) c
  | [], _, _, hl, _, _ => .counted hl rfl rfl rfl
  | spec :: specs, c, r, hl, hsize, hs => by
    rw [touchLines, wp_bind, List.map_cons, List.foldl_cons]
    refine wp_mono (touchLine_order hl hsize (hs spec List.mem_cons_self) r) (fun r₁ c₁ h₁ => ?_) fun _ _ hf => hf
    have hrest := touchLines_order specs (r := r₁) h₁.lines ((congrFun h₁.sizes _).trans hsize)
      fun spec hm => h₁.config ▸ hs spec (List.mem_cons_of_mem _ hm)
    rw [h₁.config, h₁.keys] at hrest
    exact wp_mono hrest (fun _ c₂ h₂ => h₁.trans h₂) fun _ _ hf => hf

/-- The order after an access. -/
def lruAccess (cfg : CacheConfig) (ks : List LineKey) (a : CacheAccess) : List LineKey :=
  (lineKeys cfg a).foldl (lruLine cfg a.operation) ks

/-- The remembered sizes after an access. -/
def introduced (a : CacheAccess) (sizes : BufferKey → Option (Option Nat)) : BufferKey → Option (Option Nat) :=
  Function.update sizes a.bufferKey (some ((sizes a.bufferKey).getD a.bufferSizeBytes))

theorem introduceBuffer_sizes (a : CacheAccess) (c : CacheState) :
    (introduceBuffer a.bufferKey a.bufferSizeBytes c).bufferSizes = introduced a c.bufferSizes := by
  have hremember : (rememberBuffer a.bufferKey c).bufferSizes = c.bufferSizes := by
    unfold rememberBuffer
    split
    · rfl
    · split <;> rfl
  rw [introduceBuffer, hremember]
  rfl

theorem LinesSound.introduce {c : CacheState} (hl : LinesSound c) (key : BufferKey) (size : Option Nat) :
    LinesSound (introduceBuffer key size c) := by
  obtain ⟨hcfg, hlines, -, hsizes⟩ := introduceBuffer_rest key size c
  intro k line hk
  rw [hlines] at hk
  obtain ⟨⟨h1, h2, h3, h4, s, hs, hext⟩, hnamed, hpos⟩ := hl k line hk
  exact ⟨⟨h1, h2, h3, h4, s, hsizes hs, by rw [hcfg]; exact hext⟩, hnamed, hpos⟩

/-- What an accepted access leaves. -/
structure Accessed (a : CacheAccess) (c c' : CacheState) : Prop where
  config : c'.config = c.config
  sizes : c'.bufferSizes = introduced a c.bufferSizes
  lines : LinesSound c'
  keys : c'.lines.keys = lruAccess c.config c.lines.keys a

/-- **An access whose size is accepted returns.** -/
theorem access_order {c : CacheState} (hl : LinesSound c) {a : CacheAccess} {size : Option Nat}
    (h : bufferSize c a = .ok size) : wp (access a) (fun _ c' => Accessed a c c') (fun _ _ => False) c := by
  obtain ⟨specs, hspecs, hsound, hkeys⟩ := lineSpecs_total h
  obtain ⟨hcfg, hlines, -, -⟩ := introduceBuffer_rest a.bufferKey a.bufferSizeBytes c
  rw [access, wp_bind, wp_get, wp_bind, wp_built hspecs, wp_bind, wp_modify, wp_bind]
  have hloop := touchLines_order _ (r := {}) (hl.introduce a.bufferKey a.bufferSizeBytes) (bufferSize_ok h).2
    (hcfg.symm ▸ hsound)
  rw [hkeys, hcfg, hlines] at hloop
  refine wp_mono hloop (fun r c' hc' => ?_) fun _ _ hf => hf
  rw [wp_bind, count, wp_modify, wp_pure]
  exact ⟨hc'.config.trans hcfg, hc'.sizes.trans (introduceBuffer_sizes a c), hc'.lines, hc'.keys⟩

theorem access_refused {c : CacheState} {a : CacheAccess} {e : CacheError} (h : bufferSize c a = .error e) :
    access a c = .error e c := by
  have hspecs : lineSpecs c a = .error e := by
    rw [lineSpecs, h]
    rfl
  simp only [access, bind, EStateM.bind, get, getThe, MonadStateOf.get, EStateM.get, hspecs]
  rfl

/-- A flush cleans lines where they stand. -/
theorem flushLines_order {b : Option String} {g : Option Nat} : ∀ (items : List (LineKey × CacheLine)) {c : CacheState}
    {r : CacheFlushResult}, LinesSound c → (∀ p ∈ items, p.1 ∈ c.lines.keys) →
      (∀ p ∈ items, LineSound c.config c.bufferSizes p.1 p.2) →
      wp (flushLines b g items r) (fun _ c' => Ordered c c' c.lines.keys) (fun _ _ => False) c
  | [], c, r, hl, _, _ => .counted hl rfl rfl rfl
  | (key, line) :: rest, c, r, hl, hin, hs => by
    have hin' : ∀ p ∈ rest, p.1 ∈ c.lines.keys := fun p hp => hin p (List.mem_cons_of_mem _ hp)
    have hs' : ∀ p ∈ rest, LineSound c.config c.bufferSizes p.1 p.2 := fun p hp => hs p (List.mem_cons_of_mem _ hp)
    unfold flushLines
    split
    · have hline := hs _ List.mem_cons_self
      obtain ⟨size, w, hsize, hw⟩ := hline.write_ok
      rw [wp_bind, wp_get, wp_bind, wp_rememberedSize hsize, wp_bind, wp_built hw, wp_bind, wp_modify]
      have he := editsLine_set key { line with dirty := false } c
      have hkeys := setLine_keys_of_mem (hin _ List.mem_cons_self) { line with dirty := false }
      have hset : Ordered c (setLine key { line with dirty := false } c) c.lines.keys :=
        ⟨he.config, he.sizes, he.linesSound hl (by rintro _ ⟨⟩; exact hline.cleaned false), hkeys⟩
      have hrest := flushLines_order (b := b) (g := g) rest
        (r := ⟨r.flushedLines + 1, r.writebackBytes + line.sizeBytes, r.backingAccesses ++ [w]⟩) hset.lines
        (by rw [hkeys]; exact hin') (by rw [hset.config, hset.sizes]; exact hs')
      rw [hkeys] at hrest
      exact wp_mono hrest (fun _ c' h => hset.trans h) fun _ _ hf => hf
    · exact flushLines_order rest hl hin' hs'

theorem flush_order {c : CacheState} (hl : LinesSound c) (b : Option String) (g : Option Nat) :
    wp (flush b g) (fun _ c' => Ordered c c' c.lines.keys) (fun _ c' => c' = c) c := by
  unfold flush
  split
  · rfl
  · rw [wp_bind, wp_get, wp_bind]
    have hloop := flushLines_order (b := b.map strip) (g := g) _ (r := ⟨0, 0, []⟩) hl
      (fun p hp => Dict.mem_items_keys hp) fun p hp => hl p.1 p.2 (Dict.get?_eq_some.2 hp)
    refine wp_mono hloop (fun r c' h => ?_) fun _ _ hf => hf.elim
    rw [wp_bind, count, wp_modify, wp_pure]
    exact ⟨h.config, h.sizes, h.lines, h.keys⟩

theorem popLines_order : ∀ (ks : List LineKey) {c : CacheState}, LinesSound c →
    Ordered c (popLines ks c) (c.lines.keys.filter (· ∉ ks))
  | [], c, hl => by
    have h : Ordered c (popLines [] c) c.lines.keys := .counted hl rfl rfl rfl
    simpa using h
  | k :: ks, c, hl => by
    have hpop := Ordered.pop hl k
    have hrest := popLines_order ks hpop.lines
    rw [hpop.keys, c.lines.keys_nodup.erase_eq_filter, List.filter_filter] at hrest
    have hkeys : c.lines.keys.filter (fun x => decide (x ∉ ks) && (x != k)) = c.lines.keys.filter (· ∉ k :: ks) := by
      refine List.filter_congr fun x _ => ?_
      simp [bne, beq_eq_decide, Bool.and_comm]
    rw [hkeys] at hrest
    exact hpop.trans hrest

/-- A discard takes the buffer's lines out of the order. -/
theorem discardBuffer_order {c : CacheState} (hl : LinesSound c) (hlinked : Linked c) {key : BufferKey} {order : List LineKey}
    (h : DiscardOrder key order c) : (discardBuffer key order c).config = c.config ∧ LinesSound (discardBuffer key order c) ∧
      (discardBuffer key order c).lines.keys = c.lines.keys.filter (·.bufferKey ≠ key) := by
  have hpop := popLines_order order hl
  have horder : ∀ k, k ∈ order ↔ k ∈ c.lines.keys ∧ k.bufferKey = key := by
    intro k
    rw [← List.mem_toFinset, h.2, hlinked.index, getD_keyIndex, keysOf, Finset.mem_filter, List.mem_toFinset]
  have hkeys : c.lines.keys.filter (· ∉ order) = c.lines.keys.filter (·.bufferKey ≠ key) := by
    refine List.filter_congr fun k hk => ?_
    simp [horder, hk]
  rw [hkeys] at hpop
  have hremember := rememberBuffer_lines key (popLines order c)
  have hconfig : (rememberBuffer key (popLines order c)).config = (popLines order c).config := by
    unfold rememberBuffer
    split
    · rfl
    · split <;> rfl
  have hsizes : (rememberBuffer key (popLines order c)).bufferSizes = (popLines order c).bufferSizes := by
    unfold rememberBuffer
    split
    · rfl
    · split <;> rfl
  refine ⟨hconfig.trans hpop.config, fun k line hk => ?_, ?_⟩
  · change (rememberBuffer key (popLines order c)).lines.get? k = some line at hk
    change LineSound (rememberBuffer key (popLines order c)).config _ k line
    rw [hremember] at hk
    have hsound := hpop.lines k line hk
    have hne : k.bufferKey ≠ key := by
      have hmem := Dict.mem_keys_of_get? hk
      rw [hpop.keys, List.mem_filter] at hmem
      simpa using hmem.2
    obtain ⟨⟨h1, h2, h3, h4, s, hs, hext⟩, hnamed, hpos⟩ := hsound
    rw [hconfig]
    refine ⟨⟨h1, h2, h3, h4, s, ?_, hext⟩, hnamed, hpos⟩
    change Function.update (rememberBuffer key (popLines order c)).bufferSizes key none k.bufferKey = some s
    rw [Function.update_of_ne hne, hsizes]
    exact hs
  · change (rememberBuffer key (popLines order c)).lines.keys = _
    rw [hremember, hpop.keys]

end HeteroSim.Cache
