/-
What the staging does to its pages, one page at a time: a copy retires, a
filling copy starts its program, a write stores a page, a page is discarded,
a scope is taken up. Every operation is a sequence of these, so an invariant
of the store is checked on each of them once.
-/
import HeteroSim.Nand.Journal

namespace HeteroSim.Nand

/-- The page's copy goes, and its bytes with it. -/
def Image.drop (i : Image) (page : ℕ) (entry : TailEntry) : Image where
  pages := Function.update i.pages page none
  scopes := i.scopes
  valid := setValid entry.channel (i.valid entry.channel - entry.valid) i.valid

theorem drop_pages (i : Image) (page : ℕ) (entry : TailEntry) :
    (i.drop page entry).pages = Function.update i.pages page none := rfl

/-- What a write of `[lo, hi)` makes of a page: its entry, and the counters
after it. -/
structure Stored (cfg : NandConfig) (i : Image) (page : ℕ) (lo hi : Int) (entry : TailEntry) (valid : ℕ → Int) :
    Prop where
  span : 0 ≤ lo ∧ lo < hi ∧ hi ≤ cfg.pageBytes
  ranges : entry.ranges = (staging (i.pages page) lo hi i.valid).1
  bytes : entry.valid = totalLength entry.ranges
  channel : entry.channel = tailChannel cfg page
  counts : valid = setValid (tailChannel cfg page) ((staging (i.pages page) lo hi i.valid).2.2.2 (tailChannel cfg page) +
    entry.valid - (staging (i.pages page) lo hi i.valid).2.1) (staging (i.pages page) lo hi i.valid).2.2.2

/-- Where a written page goes: it still fills, it waits for the scope's
flush, or it is programmed. -/
inductive Landed (cfg : NandConfig) (defer : Option String) (page : ℕ) (entry : TailEntry)
    (scopes : String → Option (Finset ℕ)) : (String → Option (Finset ℕ)) → Prop
  | partly (hr : entry.ranges ≠ [Gap.mk 0 cfg.pageBytes]) (hf : entry.flush = none) :
    Landed cfg defer page entry scopes scopes
  | deferred (scope : String) (hr : entry.ranges = [Gap.mk 0 cfg.pageBytes]) (hf : entry.flush = none)
    (hd : defer = some scope) :
    Landed cfg defer page entry scopes
      (Function.update scopes scope (some (insert page ((scopes scope).getD ∅))))
  | programmed (stop : Time) (hr : entry.ranges = [Gap.mk 0 cfg.pageBytes]) (hf : entry.flush = some stop)
    (hd : defer = none) : Landed cfg defer page entry scopes scopes

/-- The scopes without one page. -/
def undeferred (page : ℕ) (scopes : String → Option (Finset ℕ)) (scope : String) : Option (Finset ℕ) :=
  ((scopes scope).map fun pages => pages.erase page).filter (· ≠ ∅)

/-- One edit; `E` may be programmed as they are, `W` may be written, and
`defer` is the scope that full pages wait for. -/
inductive Edit (cfg : NandConfig) (defer : Option String) (E W : ℕ → Prop) (i : Image) : Image → Prop
  | retire (page : ℕ) (entry : TailEntry) (stop : Time) (hp : i.pages page = some entry)
    (hf : entry.flush = some stop) : Edit cfg defer E W i (i.drop page entry)
  | start (page : ℕ) (entry : TailEntry) (stop : Time) (he : E page) (hp : i.pages page = some entry)
    (hf : entry.flush = none) :
    Edit cfg defer E W i ⟨Function.update i.pages page (some { entry with flush := some stop }), i.scopes, i.valid⟩
  | write (page : ℕ) (lo hi : Int) (entry : TailEntry) (valid : ℕ → Int) (scopes : String → Option (Finset ℕ))
    (hw : W page) (h : Stored cfg i page lo hi entry valid) (hl : Landed cfg defer page entry i.scopes scopes) :
    Edit cfg defer E W i ⟨Function.update i.pages page (some entry), scopes, valid⟩
  | discard (page : ℕ) (entry : TailEntry) (hp : i.pages page = some entry) :
    Edit cfg defer E W i { i.drop page entry with
      scopes := if entry.flush = none then undeferred page i.scopes else i.scopes }
  | take (scope : String) : Edit cfg defer E W i ⟨i.pages, Function.update i.scopes scope none, i.valid⟩

variable {cfg : NandConfig} {defer : Option String} {E E' W W' : ℕ → Prop}

theorem Edit.mono {i j : Image} (h : Edit cfg defer E W i j) (he : ∀ page, E page → E' page)
    (hw : ∀ page, W page → W' page) : Edit cfg defer E' W' i j := by
  cases h with
  | retire page entry stop hp hf => exact .retire page entry stop hp hf
  | start page entry stop h hp hf => exact .start page entry stop (he page h) hp hf
  | write page lo hi entry valid scopes h hs hl => exact .write page lo hi entry valid scopes (hw page h) hs hl
  | discard page entry hp => exact .discard page entry hp
  | take scope => exact .take scope

/-- Any number of edits. -/
abbrev Path (cfg : NandConfig) (defer : Option String) (E W : ℕ → Prop) : Image → Image → Prop :=
  Relation.ReflTransGen (Edit cfg defer E W)

theorem Path.mono {i j : Image} (h : Path cfg defer E W i j) (he : ∀ page, E page → E' page)
    (hw : ∀ page, W page → W' page) : Path cfg defer E' W' i j :=
  Relation.ReflTransGen.mono (fun _ _ hij => Edit.mono hij he hw) _ _ h

/-- What every edit keeps, any number of them keep. -/
theorem Path.keeps {I : Image → Prop} (h : ∀ {i j}, Edit cfg defer E W i j → I i → I j) {i j : Image}
    (hp : Path cfg defer E W i j) (hi : I i) : I j := by
  induction hp with
  | refl => exact hi
  | tail _ he ih => exact h he ih

/-- The cached index lists the staged pages. -/
def Indexed (s : NandState) : Prop := ∀ index ∈ s.tailIndex,
  index.Pairwise (· < ·) ∧ ∀ page, page ∈ index ↔ page ∈ s.tailPages.keys

theorem indexed_of_none {s : NandState} (h : s.tailIndex = none) : Indexed s := fun index hi => by
  rw [h] at hi
  cases hi

theorem Indexed.of_keys {s s' : NandState} (h : Indexed s) (hi : s'.tailIndex = s.tailIndex)
    (hk : ∀ page, page ∈ s'.tailPages.keys ↔ page ∈ s.tailPages.keys) : Indexed s' := fun index hm => by
  rw [hi] at hm
  exact ⟨(h index hm).1, fun page => ((h index hm).2 page).trans (hk page).symm⟩

/-- The journal and the index are kept, and the live image changes by edits. -/
structure Edits (E W : ℕ → Prop) (s s' : NandState) : Prop where
  frame : Frame s s'
  path : Path s.config (deferScope s) E W (imageOf s) (imageOf s')
  index : Indexed s → Indexed s'

theorem Edits.refl (s : NandState) : Edits E W s s := ⟨.refl s, .refl, fun h => h⟩

theorem Edits.trans {s s' s'' : NandState} (h : Edits E W s s') (h' : Edits E W s' s'') : Edits E W s s'' := by
  refine ⟨h.frame.trans h'.frame, h.path.trans ?_, fun hi => h'.index (h.index hi)⟩
  have := h'.path
  rwa [h.frame.config, h.frame.deferScope] at this

theorem Edits.mono {s s' : NandState} (h : Edits E W s s') (he : ∀ page, E page → E' page)
    (hw : ∀ page, W page → W' page) : Edits E' W' s s' := ⟨h.frame, h.path.mono he hw, h.index⟩

/-- Nothing the image holds changes. -/
theorem Edits.of_frame {s s' : NandState} (h : Frame s s') (hi : imageOf s' = imageOf s)
    (hx : Indexed s → Indexed s') : Edits E W s s' := ⟨h, by rw [hi], hx⟩

/-! ## Retiring -/

theorem dropCopy_frame (page : ℕ) (entry : TailEntry) (s : NandState) : Frame s (dropCopy page entry s) :=
  frame_page page rfl rfl rfl rfl rfl (fun _ hq => Dict.get?_erase_of_ne _ hq) rfl

theorem imageOf_dropCopy (page : ℕ) (entry : TailEntry) (s : NandState) :
    imageOf (dropCopy page entry s) = (imageOf s).drop page entry :=
  Image.ext (Dict.get?_erase_eq s.tailPages page) rfl rfl

/-- A popped program retires its copy, or does nothing. -/
theorem retire_cases (s : NandState) (p : Time × ℕ) : Frame s (retire s p) ∧
    (retire s p).tailSpilled = s.tailSpilled ∧ (imageOf (retire s p) = imageOf s ∨
      ∃ entry, s.tailPages.get? p.2 = some entry ∧ entry.flush = some p.1 ∧
        imageOf (retire s p) = (imageOf s).drop p.2 entry) := by
  unfold retire
  split
  · exact ⟨.refl s, rfl, .inl rfl⟩
  · next entry hp =>
    split
    · next hf =>
      exact ⟨dropCopy_frame _ _ _, rfl, .inr ⟨entry, hp, hf, imageOf_dropCopy _ _ _⟩⟩
    · exact ⟨.refl s, rfl, .inl rfl⟩

/-- What no retired copy breaks, a release keeps. -/
theorem tailRelease_keeps (now : Time) (s : NandState) : Frame s (tailRelease now s) ∧
    (tailRelease now s).tailSpilled = s.tailSpilled ∧
    (Indexed s → Indexed (tailRelease now s)) ∧
    ∀ I : Image → Prop, (∀ i page entry stop, I i → i.pages page = some entry → entry.flush = some stop →
      I (i.drop page entry)) → I (imageOf s) → I (imageOf (tailRelease now s)) := by
  have hloop : ∀ (heap : List (Time × ℕ)) (s : NandState), Frame s (heap.foldl retire s) ∧
      (heap.foldl retire s).tailSpilled = s.tailSpilled ∧
      ∀ I : Image → Prop, (∀ i page entry stop, I i → i.pages page = some entry → entry.flush = some stop →
        I (i.drop page entry)) → I (imageOf s) → I (imageOf (heap.foldl retire s)) := by
    intro heap
    induction heap with
    | nil => exact fun s => ⟨.refl s, rfl, fun I _ h => h⟩
    | cons p heap ih =>
      intro s
      obtain ⟨hf, hsp, himage⟩ := retire_cases s p
      obtain ⟨hf', hsp', hkeep⟩ := ih (retire s p)
      refine ⟨hf.trans hf', hsp'.trans hsp, fun I hI h => hkeep I hI ?_⟩
      rcases himage with he | ⟨entry, hp, hflush, he⟩
      · rw [he]; exact h
      · rw [he]; exact hI _ _ entry _ h hp hflush
  unfold tailRelease
  split
  · exact ⟨.refl s, rfl, fun h => h, fun I _ h => h⟩
  · split
    · exact ⟨.refl s, rfl, fun h => h, fun I _ h => h⟩
    · have hdrop : Frame s (dropPrograms now s) := frame_same rfl rfl rfl rfl rfl rfl rfl
      obtain ⟨hf, hsp, hkeep⟩ := hloop (s.counters.flushing.takeWhile fun p => decide (p.1 ≤ now)) (dropPrograms now s)
      exact ⟨(hdrop.trans hf).trans (frame_same rfl rfl rfl rfl rfl rfl rfl), hsp, fun _ => indexed_of_none rfl, hkeep⟩

theorem tailRelease_edits (now : Time) (s : NandState) : Edits E W s (tailRelease now s) := by
  obtain ⟨hf, -, hx, hkeep⟩ := tailRelease_keeps now s
  exact ⟨hf, hkeep (Path s.config (deferScope s) E W (imageOf s))
    (fun i page entry stop h hp hflush => h.tail (.retire page entry stop hp hflush)) .refl, hx⟩

/-! ## Starting programs -/

theorem keys_insert_iff {s : NandState} {page q : ℕ} {entry entry' : TailEntry}
    (hp : s.tailPages.get? page = some entry) :
    q ∈ (s.tailPages.insert page entry').keys ↔ q ∈ s.tailPages.keys := by
  rw [Dict.mem_keys_insert]
  refine ⟨fun h => h.elim (fun he => he ▸ Dict.mem_keys_of_get? hp) id, .inr⟩

theorem startProgram_edits {s : NandState} {page : ℕ} {entry : TailEntry} (stop : Time) (he : E page)
    (hp : s.tailPages.get? page = some entry) (hf : entry.flush = none) :
    Edits E W s (startProgram page entry stop s) := by
  refine ⟨frame_page page rfl rfl rfl rfl rfl (fun q hq => Dict.get?_insert_of_ne _ _ hq) rfl, .single ?_,
    fun h => h.of_keys rfl fun q => keys_insert_iff hp⟩
  have hedit : Edit s.config (deferScope s) E W (imageOf s) _ := .start page entry stop he hp hf
  simp only [imageOf, startProgram, tailRemember, Dict.get?_insert_eq] at hedit ⊢
  exact hedit

/-- Only counts change. -/
theorem edits_counts {s s' : NandState} (hp : s' = { s with counters := s'.counters })
    (hv : s'.counters.valid = s.counters.valid) : Edits E W s s' := by
  rw [hp]
  exact .of_frame (frame_same rfl rfl rfl rfl rfl rfl rfl) (Image.ext rfl rfl hv) fun h => h.of_keys rfl fun _ => Iff.rfl

theorem evictFilling_edits {s : NandState} {page : ℕ} (stop : Time)
    (he : filling (s.tailPages.get? page) = true → E page) : Edits E W s (evictFilling page stop s) := by
  unfold evictFilling
  split
  · next entry hp =>
    split
    · next hf =>
      have hE : E page := he (by rw [hp, filling, hf]; rfl)
      have hcount : Edits E W s (countProgram s) := edits_counts rfl rfl
      have hstart : Edits E W (countProgram s) (startProgram page entry stop (countProgram s)) :=
        startProgram_edits stop hE hp hf
      exact (hcount.trans hstart).trans (edits_counts rfl rfl)
    · exact .refl s
  · exact .refl s

theorem tailSpill_edits (page : ℕ) (s : NandState) : Edits E W s (tailSpill page s) :=
  .of_frame (frame_spilled rfl rfl rfl rfl rfl rfl rfl) rfl fun h => h.of_keys rfl fun _ => Iff.rfl

/-! ## The index -/

theorem sortedKeys {s : NandState} : (s.tailPages.keys.insertionSort (· ≤ ·)).Pairwise (· < ·) ∧
    ∀ page, page ∈ s.tailPages.keys.insertionSort (· ≤ ·) ↔ page ∈ s.tailPages.keys := by
  have hperm := List.perm_insertionSort (· ≤ ·) s.tailPages.keys
  refine ⟨?_, fun page => hperm.mem_iff⟩
  exact ((List.pairwise_insertionSort (· ≤ ·) s.tailPages.keys).and (hperm.nodup_iff.2 s.tailPages.keys_nodup)).imp
    fun h => lt_of_le_of_ne h.1 h.2

theorem tailStaged_edits (first last : Int) (s : NandState) : Edits E W s (tailStaged first last s).2 := by
  unfold tailStaged
  split
  · exact .refl s
  · split
    · exact .refl s
    · refine .of_frame (frame_same rfl rfl rfl rfl rfl rfl rfl) rfl fun h index hi => ?_
      obtain rfl := Option.some.inj hi
      cases hx : s.tailIndex with
      | none => exact sortedKeys
      | some index => exact h index hx

/-- **The pages found in a span are the staged ones.** -/
theorem mem_tailStaged {s : NandState} (h : Indexed s) (first last : Int) (page : ℕ) :
    page ∈ (tailStaged first last s).1 ↔ first ≤ (page : Int) ∧ (page : Int) ≤ last ∧ page ∈ s.tailPages.keys := by
  have hindex : (s.tailIndex.getD (s.tailPages.keys.insertionSort (· ≤ ·))).Pairwise (· < ·) ∧
      ∀ page, page ∈ s.tailIndex.getD (s.tailPages.keys.insertionSort (· ≤ ·)) ↔ page ∈ s.tailPages.keys := by
    cases hx : s.tailIndex with
    | none => exact sortedKeys
    | some index => exact h index hx
  unfold tailStaged
  split
  · next hk => simp [hk]
  · split
    · simp only [List.mem_filter, List.mem_range, decide_eq_true_eq]
      refine ⟨fun h => ⟨h.2.1, by omega, h.2.2⟩, fun h => ⟨by omega, h.1, h.2.2⟩⟩
    · have hlast : Falling (fun page : ℕ => decide ((page : Int) ≤ last)) _ :=
        hindex.1.imp fun {a b} hab hb => by simp at hb ⊢; omega
      have hfirst : Falling (fun page : ℕ => decide ((page : Int) < first)) _ :=
        hindex.1.imp fun {a b} hab hb => by simp at hb ⊢; omega
      simp only []
      rw [mem_slice hlast hfirst, hindex.2, decide_eq_true_eq, decide_eq_false_iff_not, Int.not_lt]
      exact ⟨fun h => ⟨h.2.2, h.2.1, h.1⟩, fun h => ⟨h.2.2, h.2.1, h.1⟩⟩

/-! ## Flushing a scope -/

theorem flushPage_edits {s : NandState} {page : ℕ} (stop : ℕ → Time) (he : E page)
    (hf : ∀ entry ∈ s.tailPages.get? page, entry.flush = none) : Edits E W s (flushPage stop s page) := by
  unfold flushPage
  split
  · exact .refl s
  · next entry hp =>
    have hcount : Edits E W s (countProgram s) := edits_counts rfl rfl
    exact hcount.trans (startProgram_edits (stop page) he hp (hf entry hp))

theorem flushPage_other {s : NandState} {page q : ℕ} {stop : ℕ → Time} (hq : q ≠ page) :
    (flushPage stop s page).tailPages.get? q = s.tailPages.get? q := by
  unfold flushPage
  split
  · rfl
  · exact Dict.get?_insert_of_ne _ _ hq

theorem foldl_flushPage_edits (stop : ℕ → Time) : ∀ {active : List ℕ} {s : NandState}, active.Nodup →
    (∀ page ∈ active, E page) → (∀ page ∈ active, ∀ entry ∈ s.tailPages.get? page, entry.flush = none) →
    Edits E W s (active.foldl (flushPage stop) s)
  | [], s, _, _, _ => .refl s
  | page :: active, s, hn, he, hf => by
    obtain ⟨hpage, hn⟩ := List.nodup_cons.1 hn
    refine (flushPage_edits stop (he page (by simp)) (hf page (by simp))).trans
      (foldl_flushPage_edits stop hn (fun q hq => he q (by simp [hq])) fun q hq => ?_)
    have hne : q ≠ page := fun h => hpage (h ▸ hq)
    rw [flushPage_other hne]
    exact hf q (by simp [hq])

/-- The pages' programs do not look at the scopes. -/
theorem foldl_flushPage_scopes (stop : ℕ → Time) (scopes : Dict String (Finset ℕ)) : ∀ (active : List ℕ) (s : NandState),
    active.foldl (flushPage stop) { s with tailFullScopes := scopes } =
      { active.foldl (flushPage stop) s with tailFullScopes := scopes }
  | [], _ => rfl
  | page :: active, s => by
    have hstep : flushPage stop { s with tailFullScopes := scopes } page =
        { flushPage stop s page with tailFullScopes := scopes } := by
      unfold flushPage
      cases hp : s.tailPages.get? page with
      | none => rfl
      | some entry => rfl
    rw [List.foldl_cons, List.foldl_cons, hstep, foldl_flushPage_scopes stop scopes active]

theorem activePages_nodup (selected : Finset ℕ) (s : NandState) : (activePages selected s).Nodup :=
  (Finset.sort_nodup selected _).filter _

theorem mem_activePages {selected : Finset ℕ} {s : NandState} {page : ℕ} : page ∈ activePages selected s ↔
    page ∈ selected ∧ ∃ entry, s.tailPages.get? page = some entry ∧ entry.flush = none := by
  simp [activePages]

/-- A flush takes its scope up, then starts the pages it answers. -/
theorem flushStagedPages_take (scope : String) (pages : List ℕ) (stop : ℕ → Time) (s : NandState) : ∃ mid,
    (∀ E, Edits E W s mid) ∧
    Edits (fun page => page ∈ (flushStagedPages scope pages stop s).1) W mid (flushStagedPages scope pages stop s).2 ∧
    ((flushStagedPages scope pages stop s).1 = [] ∨
      imageOf mid = ⟨(imageOf s).pages, Function.update (imageOf s).scopes scope none, (imageOf s).valid⟩) := by
  unfold flushStagedPages
  split
  · exact ⟨s, fun _ => .refl s, .refl s, .inl rfl⟩
  · simp only []
    have hremember : ∀ E, Edits E W s (tailScopeRemember s) := fun E =>
      .of_frame (frame_scopes rfl rfl rfl rfl rfl rfl) rfl fun h => h.of_keys rfl fun _ => Iff.rfl
    split
    · exact ⟨tailScopeRemember s, hremember, .refl _, .inl rfl⟩
    · set active := activePages (selectedPages scope pages (tailScopeRemember s)) (tailScopeRemember s)
      set taken : NandState := { tailScopeRemember s with tailFullScopes := s.tailFullScopes.erase scope }
      have himage : imageOf taken = ⟨(imageOf s).pages, Function.update (imageOf s).scopes scope none, (imageOf s).valid⟩ :=
        Image.ext rfl (Dict.get?_erase_eq s.tailFullScopes scope) rfl
      have htake : ∀ E, Edits E W s taken := fun E => by
        refine ⟨frame_scopes rfl rfl rfl rfl rfl rfl, .single ?_, fun h => h.of_keys rfl fun _ => Iff.rfl⟩
        rw [himage]
        exact .take scope
      have hstart : Edits (fun page => page ∈ active) W taken (active.foldl (flushPage stop) taken) := by
        refine foldl_flushPage_edits stop (activePages_nodup _ _) (fun _ h => h) fun page hp entry he => ?_
        obtain ⟨-, entry', he', hf⟩ := mem_activePages.1 hp
        obtain rfl := Option.some.inj (he'.symm.trans he)
        exact hf
      have hsame : (active.foldl (flushPage stop) (tailScopeRemember s)).tailFullScopes = s.tailFullScopes :=
        congrArg (·.tailFullScopes) (foldl_flushPage_scopes stop s.tailFullScopes active (tailScopeRemember s))
      rw [foldl_flushPage_scopes, ← hsame] at hstart
      refine ⟨taken, htake, hstart, .inr himage⟩

theorem flushStagedPages_edits (scope : String) (pages : List ℕ) (stop : ℕ → Time) (s : NandState) :
    Edits (fun page => page ∈ (flushStagedPages scope pages stop s).1) W s (flushStagedPages scope pages stop s).2 := by
  obtain ⟨mid, htake, hstart, -⟩ := flushStagedPages_take (W := W) scope pages stop s
  exact (htake _).trans hstart

/-- What a flush answers it selected, and no program of it ran. -/
theorem mem_flushStagedPages {scope : String} {pages : List ℕ} {stop : ℕ → Time} {s : NandState} {page : ℕ}
    (h : page ∈ (flushStagedPages scope pages stop s).1) : page ∈ selectedPages scope pages s ∧
      ∃ entry, s.tailPages.get? page = some entry ∧ entry.flush = none := by
  unfold flushStagedPages at h
  split at h
  · cases h
  · simp only [] at h
    split at h
    · cases h
    · exact mem_activePages.1 h

/-! ## Discarding -/

theorem get?_undefer (page : ℕ) (scopes : Dict String (Finset ℕ)) :
    (undefer page scopes).get? = undeferred page scopes.get? := by
  funext scope
  rw [Option.ext_iff]
  intro pages
  rw [Dict.get?_eq_some, undefer, List.mem_filter, ← Dict.get?_eq_some, Dict.get?_mapValues, undeferred,
    Option.filter_eq_some_iff]

/-- A discard keeps the journal, and drops the page's copy. -/
theorem discardPage_path (s : NandState) (page : ℕ) : Frame s (discardPage s page) ∧
    Path s.config (deferScope s) E W (imageOf s) (imageOf (discardPage s page)) := by
  unfold discardPage
  split
  · exact ⟨.refl s, .refl⟩
  · next entry hp =>
    have hedit : Edit s.config (deferScope s) E W (imageOf s) _ := .discard page entry hp
    split
    · next hf =>
      refine ⟨(dropCopy_frame page entry s).trans (frame_scopes rfl rfl rfl rfl rfl rfl), .single ?_⟩
      have himage : imageOf (dropDeferred page (dropCopy page entry s)) =
          { (imageOf s).drop page entry with scopes := undeferred page (imageOf s).scopes } := by
        rw [← imageOf_dropCopy]
        exact Image.ext rfl (get?_undefer page s.tailFullScopes) rfl
      rw [if_pos hf] at hedit
      rw [himage]
      exact hedit
    · next hf =>
      refine ⟨dropCopy_frame page entry s, .single ?_⟩
      rw [if_neg hf] at hedit
      rw [imageOf_dropCopy]
      exact hedit

theorem foldl_discardPage_path : ∀ (staged : List ℕ) (s : NandState), Frame s (staged.foldl discardPage s) ∧
    Path s.config (deferScope s) E W (imageOf s) (imageOf (staged.foldl discardPage s))
  | [], s => ⟨.refl s, .refl⟩
  | page :: staged, s => by
    have ⟨hf, hp⟩ : Frame s (discardPage s page) ∧
        Path s.config (deferScope s) E W (imageOf s) (imageOf (discardPage s page)) := discardPage_path s page
    obtain ⟨hf', hp'⟩ := foldl_discardPage_path staged (discardPage s page)
    rw [hf.config, hf.deferScope] at hp'
    exact ⟨hf.trans hf', hp.trans hp'⟩

theorem discardTailPages_edits (address byteCount : Int) (s : NandState) :
    Edits E W s (discardTailPages address byteCount s) := by
  have hspilled : ∀ left : Finset ℕ, Edits E W s
      (if s.tailSpilled = ∅ then s else { tailSpilledRemember s with tailSpilled := left }) := by
    intro left
    split
    · exact .refl s
    · exact .of_frame (frame_spilled rfl rfl rfl rfl rfl rfl rfl) rfl fun h => h.of_keys rfl fun _ => Iff.rfl
  have hrest : ∀ (first last : Int) (s : NandState), Edits E W s (if (tailStaged first last s).1 = [] then
      (tailStaged first last s).2
      else { (tailStaged first last s).1.foldl discardPage (tailStaged first last s).2 with tailIndex := none }) := by
    intro first last s
    refine (tailStaged_edits first last s).trans ?_
    split
    · exact .refl _
    · obtain ⟨hf, hp⟩ := foldl_discardPage_path (tailStaged first last s).1 (tailStaged first last s).2
      exact ⟨hf.trans (frame_same rfl rfl rfl rfl rfl rfl rfl), hp, fun _ => indexed_of_none rfl⟩
  exact (hspilled _).trans (hrest _ _ _)

end HeteroSim.Nand
