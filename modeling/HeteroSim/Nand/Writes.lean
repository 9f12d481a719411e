/-
A write of admitted pages. Each page of it takes the room that admission
foresaw, so no write is refused; the store changes by one edit a page.
-/
import HeteroSim.Nand.Admission

namespace HeteroSim.Nand

variable {cfg : NandConfig} {span : ℕ → Int × Int} {room : Int} {E W : ℕ → Prop}

/-! ## The pages of a request -/

theorem mem_pagesOf {cfg : NandConfig} {start stop page : ℕ} (h : start < stop) :
    page ∈ pagesOf cfg start stop ↔ start < (page + 1) * cfg.pageBytes ∧ page * cfg.pageBytes < stop := by
  have hpos := cfg.pageBytes_pos
  have hlo : start / cfg.pageBytes ≤ page ↔ start < (page + 1) * cfg.pageBytes := by
    rw [← Nat.lt_succ_iff, Nat.div_lt_iff_lt_mul hpos]
  have hhi : page ≤ (stop - 1) / cfg.pageBytes ↔ page * cfg.pageBytes < stop := by
    rw [Nat.le_div_iff_mul_le hpos]
    omega
  have hle : start / cfg.pageBytes ≤ (stop - 1) / cfg.pageBytes := Nat.div_le_div_right (by omega)
  simp only [pagesOf, List.mem_range'_1]
  rw [← hlo, ← hhi]
  omega

theorem pagesOf_sorted (cfg : NandConfig) (start stop : ℕ) : (pagesOf cfg start stop).Pairwise (· < ·) :=
  List.pairwise_lt_range'

theorem AccessRequest.lt_stop (r : AccessRequest) : r.address < r.stop := by
  have := r.byteCount_pos
  unfold AccessRequest.stop
  omega

/-- A page of the request is covered by at least a byte of it. -/
theorem pageSpan_bounds {r : AccessRequest} {page : ℕ} (h : page ∈ pagesOf cfg r.address r.stop) :
    0 ≤ (pageSpan cfg r page).1 ∧ (pageSpan cfg r page).1 < (pageSpan cfg r page).2 ∧
      (pageSpan cfg r page).2 ≤ cfg.pageBytes := by
  obtain ⟨h1, h2⟩ := (mem_pagesOf r.lt_stop).1 h
  have hpos := cfg.pageBytes_pos
  have hr := r.lt_stop
  rw [Nat.succ_mul] at h1
  simp only [pageSpan]
  omega

/-! ## One page -/

/-- The store with the counters a write has reached. -/
def imageWith (valid : ℕ → Int) (s : NandState) : Image := ⟨s.tailPages.get?, s.tailFullScopes.get?, valid⟩

/-- What the write of a page adds is the growth admission foresaw. -/
theorem staging_growth {i : Image} {page : ℕ} (hx : ∀ old ∈ i.pages page, old.channel = tailChannel cfg page)
    (lo hi : Int) :
    (staging (i.pages page) lo hi i.valid).2.2.2 (tailChannel cfg page) +
        totalLength (staging (i.pages page) lo hi i.valid).1 - (staging (i.pages page) lo hi i.valid).2.1 =
      i.valid (tailChannel cfg page) + growth (i.pages page) lo hi ∧
    ∀ n, setValid (tailChannel cfg page) n (staging (i.pages page) lo hi i.valid).2.2.2 =
      setValid (tailChannel cfg page) n i.valid := by
  have hone : totalLength [Gap.mk 0 hi] = hi := by simp [totalLength]
  cases hp : i.pages page with
  | none => exact ⟨by simp only [staging, growth, hone]; omega, fun n => rfl⟩
  | some old =>
    have hold : old.channel = tailChannel cfg page := hx old hp
    simp only [staging, growth, hold]
    split
    · dsimp only
      exact ⟨by omega, fun n => rfl⟩
    · simp only [setValid_apply, if_true, hone]
      exact ⟨by omega, fun n => Function.update_idem _ _ _⟩

/-- A page that is full lands in its scope, or its program is counted. -/
theorem fillPage_spec (page : ℕ) (stop : Time) (s : NandState) : Frame s (fillPage page stop s).2 ∧
    (fillPage page stop s).2.tailPages = s.tailPages ∧ (fillPage page stop s).2.tailSpilled = s.tailSpilled ∧
    ∀ entry : TailEntry, entry.ranges = [Gap.mk 0 s.config.pageBytes] → entry.flush = (fillPage page stop s).1 →
      Landed s.config (deferScope s) page entry s.tailFullScopes.get? (fillPage page stop s).2.tailFullScopes.get? := by
  have hdefer : deferScope { s with counters := { s.counters with fullPageFills := s.counters.fullPageFills + 1 } } =
      deferScope s := rfl
  unfold fillPage
  simp only [hdefer]
  cases hd : deferScope s with
  | none =>
    exact ⟨frame_same rfl rfl rfl rfl rfl rfl rfl, rfl, rfl, fun entry hr hf => .programmed stop hr hf rfl⟩
  | some scope =>
    refine ⟨frame_scopes rfl rfl rfl rfl rfl rfl, rfl, rfl, fun entry hr hf => ?_⟩
    have hland : Landed s.config (some scope) page entry s.tailFullScopes.get? _ := .deferred scope hr hf rfl
    rw [← Dict.get?_insert_eq] at hland
    exact hland

theorem storePage_spec (page : ℕ) (entry : TailEntry) (s : NandState) : Frame s (storePage page entry s) ∧
    (storePage page entry s).tailPages = s.tailPages.insert page entry ∧
    (storePage page entry s).tailFullScopes = s.tailFullScopes ∧
    (storePage page entry s).tailSpilled = s.tailSpilled := by
  unfold storePage
  cases entry.flush with
  | none => exact ⟨frame_page page rfl rfl rfl rfl rfl (fun q hq => Dict.get?_insert_of_ne _ _ hq) rfl, rfl, rfl, rfl⟩
  | some stop =>
    exact ⟨frame_page page rfl rfl rfl rfl rfl (fun q hq => Dict.get?_insert_of_ne _ _ hq) rfl, rfl, rfl, rfl⟩

/-- What a write has made of the store so far. -/
structure Written (W : ℕ → Prop) (s : NandState) (valid : ℕ → Int) (s' : NandState) (valid' : ℕ → Int) : Prop where
  frame : Frame s s'
  path : ∀ E, Path s.config (deferScope s) E W (imageWith valid s) (imageWith valid' s')
  spilled : s'.tailSpilled = s.tailSpilled
  same : ∀ page, ¬W page → s'.tailPages.get? page = s.tailPages.get? page

theorem Written.trans {s s' s'' : NandState} {valid valid' valid'' : ℕ → Int} (h : Written W s valid s' valid')
    (h' : Written W s' valid' s'' valid'') : Written W s valid s'' valid'' := by
  refine ⟨h.frame.trans h'.frame, fun E => (h.path E).trans ?_, h'.spilled.trans h.spilled,
    fun page hp => (h'.same page hp).trans (h.same page hp)⟩
  have := h'.path E
  rwa [h.frame.config, h.frame.deferScope] at this

theorem Written.mono {W' : ℕ → Prop} {s s' : NandState} {valid valid' : ℕ → Int} (h : Written W s valid s' valid')
    (hw : ∀ page, W page → W' page) : Written W' s valid s' valid' :=
  ⟨h.frame, fun E => (h.path E).mono (fun _ h => h) hw, h.spilled, fun page hp => h.same page fun h => hp (hw page h)⟩

/-- The page is stored where it lands. -/
theorem storePage_written {s : NandState} {valid valid' : ℕ → Int} {page : ℕ} {lo hi : Int} {entry : TailEntry}
    {landed : Option Time × NandState} (stop : Time) (h : Stored s.config (imageWith valid s) page lo hi entry valid')
    (hl : landed = if entry.ranges = [Gap.mk 0 s.config.pageBytes] then fillPage page stop s else (none, s))
    (hf : entry.flush = landed.1) :
    Written (fun q => q = page) s valid (storePage page entry landed.2) valid' := by
  have hland : Frame s landed.2 ∧ landed.2.tailPages = s.tailPages ∧ landed.2.tailSpilled = s.tailSpilled ∧
      Landed s.config (deferScope s) page entry s.tailFullScopes.get? landed.2.tailFullScopes.get? := by
    subst hl
    split at hf
    · next hr =>
      obtain ⟨hframe, hp, hsp, hland⟩ := fillPage_spec page stop s
      rw [if_pos hr]
      exact ⟨hframe, hp, hsp, hland entry hr hf⟩
    · next hr =>
      rw [if_neg hr]
      exact ⟨.refl s, rfl, rfl, .partly hr hf⟩
  obtain ⟨hframe, hp, hsp, hland⟩ := hland
  obtain ⟨hframe', hp', hs', hsp'⟩ := storePage_spec page entry landed.2
  rw [hp] at hp'
  refine ⟨hframe.trans hframe', fun E => .single ?_, hsp'.trans hsp, fun q hq => ?_⟩
  · have hedit : Edit s.config (deferScope s) E (fun q => q = page) (imageWith valid s) _ :=
      .write page lo hi entry valid' _ rfl h hland
    simp only [imageWith, hp', hs', Dict.get?_insert_eq] at hedit ⊢
    exact hedit
  · rw [hp']
    exact Dict.get?_insert_of_ne _ _ hq

/-- **A page that fits is written.** -/
theorem writePage_spec (m : Media) {r : AccessRequest} {counts : (ℕ → Int) × (ℕ → Int)} {page : ℕ} {s : NandState}
    (hb : Books s.config (imageWith counts.1 s)) (hpage : page ∈ pagesOf s.config r.address r.stop)
    (hroom : s.config.pageStagingBytesPerHostChannel ≠ 0 → counts.1 (tailChannel s.config page) +
      growth (s.tailPages.get? page) (pageSpan s.config r page).1 (pageSpan s.config r page).2 ≤
        s.config.pageStagingBytesPerHostChannel - s.tailShared) :
    wp (writePage m r counts page) (fun counts' s' => Written (fun q => q = page) s counts.1 s' counts'.1 ∧
      counts'.1 = setValid (tailChannel s.config page) (counts.1 (tailChannel s.config page) +
        growth (s.tailPages.get? page) (pageSpan s.config r page).1 (pageSpan s.config r page).2) counts.1)
      (fun _ _ => False) s := by
  have hx : ∀ old ∈ (imageWith counts.1 s).pages page, old.channel = tailChannel s.config page :=
    fun old ho => (hb.kept page old ho).channel
  obtain ⟨hgrow, hset⟩ := staging_growth hx (pageSpan s.config r page).1 (pageSpan s.config r page).2
  simp only [imageWith] at hgrow hset
  unfold writePage
  simp only [wp_bind, wp_get, wp_set, wp_pure, wp_refuse]
  refine ⟨fun _ => ?_, fun hover => ?_⟩
  · rw [hset, hgrow]
    refine ⟨storePage_written (m.stop page) ⟨pageSpan_bounds hpage, rfl, rfl, rfl, ?_⟩ rfl rfl, rfl⟩
    simp only [imageWith, hset]
    rw [hgrow]
  · have := hroom hover.1
    rw [if_neg hover.1, hgrow] at hover
    omega

/-! ## One run -/

/-- The room a request's pages have. -/
def HasRoom (span : ℕ → Int × Int) (s : NandState) (pages : List ℕ) (valid : ℕ → Int) : Prop :=
  s.config.pageStagingBytesPerHostChannel ≠ 0 → Fits s.config span
    (s.config.pageStagingBytesPerHostChannel - s.tailShared) s.tailPages.get? pages valid

/-- **Pages that fit are written, and those after them still fit.** -/
theorem writePages_spec (m : Media) {r : AccessRequest} (span : ℕ → Int × Int) (more : List ℕ) : ∀ {pages : List ℕ}
    {counts : (ℕ → Int) × (ℕ → Int)} {s : NandState}, Books s.config (imageWith counts.1 s) →
    (∀ page ∈ pages, page ∈ pagesOf s.config r.address r.stop ∧ span page = pageSpan s.config r page) →
    (pages ++ more).Nodup → HasRoom span s (pages ++ more) counts.1 →
    wp (pages.foldlM (writePage m r) counts) (fun counts' s' =>
      Written (fun page => page ∈ pages) s counts.1 s' counts'.1 ∧ HasRoom span s' more counts'.1)
      (fun _ _ => False) s
  | [], counts, s, _, _, _, hroom => by
    rw [List.foldlM_nil, wp_pure]
    exact ⟨⟨.refl s, fun _ => .refl, rfl, fun _ _ => rfl⟩, hroom⟩
  | page :: pages, counts, s, hb, hp, hd, hroom => by
    obtain ⟨hpage, hd⟩ := List.nodup_cons.1 hd
    obtain ⟨hin, hspan⟩ := hp page (by simp)
    rw [List.foldlM_cons, wp_bind]
    have hhead := writePage_spec m hb hin fun hlimit => by
      have := (hroom hlimit).1
      rwa [hspan] at this
    refine wp_mono hhead (fun counts' s' h => ?_) fun _ _ h => h.elim
    obtain ⟨hw, hcounts⟩ := h
    have hcfg := hw.frame.config
    have hb' : Books s'.config (imageWith counts'.1 s') := by
      rw [hcfg]
      exact (hw.path fun _ => False).books hb
    have hroom' : HasRoom span s' (pages ++ more) counts'.1 := fun hlimit => by
      rw [hcfg] at hlimit ⊢
      rw [hw.frame.shared, hcounts, ← hspan]
      exact (hroom hlimit).2.congr (fun _ _ => rfl) fun q hq => hw.same q fun he => hpage (he ▸ hq)
    refine wp_mono (writePages_spec m span more hb' (fun q hq => ?_) hd hroom') (fun counts'' s'' h => ?_) fun _ _ h => h.elim
    · rw [hcfg]
      exact hp q (by simp [hq])
    · exact ⟨(hw.mono fun q he => by simp [he]).trans (h.1.mono fun q hq => by simp [hq]), h.2⟩

/-- What a request keeps of the pages it has not written yet. -/
structure Ready (span : ℕ → Int × Int) (pages : List ℕ) (s : NandState) : Prop where
  books : Books s.config (imageOf s)
  nodup : pages.Nodup
  room : HasRoom span s pages s.counters.valid

theorem Ready.release {pages : List ℕ} {s : NandState} (h : Ready span pages s) (now : Time) :
    Ready span pages (tailRelease now s) := by
  obtain ⟨hframe, -, -, hkeep⟩ := tailRelease_keeps now s
  have hedits : Edits (fun _ => False) (fun _ => False) s (tailRelease now s) := tailRelease_edits now s
  refine ⟨hedits.books h.books, h.nodup, fun hlimit => ?_⟩
  rw [hframe.config] at hlimit ⊢
  rw [hframe.shared]
  refine (hkeep (fun i => Books s.config i ∧ Fits s.config span (s.config.pageStagingBytesPerHostChannel - s.tailShared)
    i.pages pages i.valid) (fun i page entry stop hi hp hf => ⟨hi.1.drop hp i.scopes, hi.2.drop hi.1 hp hf h.nodup⟩)
    ⟨h.books, h.room hlimit⟩).2

/-- What part of a request does to the store. -/
structure Part (W : ℕ → Prop) (s s' : NandState) : Prop where
  edits : ∀ E, Edits E W s s'
  spilled : s'.tailSpilled = s.tailSpilled
  filling : ∀ page, ¬W page → filling (s'.tailPages.get? page) = true → filling (s.tailPages.get? page) = true

/-- **A run of admitted pages is written.** -/
theorem submitTailWrite_spec (m : Media) (i : ℕ) {r : AccessRequest} (span : ℕ → Int × Int) (more : List ℕ)
    {s : NandState}
    (hspan : ∀ page ∈ pagesOf s.config r.address r.stop, span page = pageSpan s.config r page)
    (h : Ready span (pagesOf s.config r.address r.stop ++ more) s) :
    wp (submitTailWrite m i r) (fun _ s' => Part (fun page => page ∈ pagesOf s.config r.address r.stop) s s' ∧
      Ready span more s') (fun _ _ => False) s := by
  have hready := h.release (m.arrive i)
  obtain ⟨hframe, hsp, -, -⟩ := tailRelease_keeps (m.arrive i) s
  have hrelease : ∀ E W, Edits E W s (tailRelease (m.arrive i) s) := fun E W => tailRelease_edits (m.arrive i) s
  unfold submitTailWrite
  simp only [wp_bind, wp_modify, wp_get]
  rw [hframe.config]
  refine wp_mono (writePages_spec m span more hready.books (fun page hp => ?_) hready.nodup
    hready.room) (fun counts s' hw => ?_) fun _ _ h => h.elim
  · rw [hframe.config]
    exact ⟨hp, hspan page hp⟩
  · obtain ⟨hw, hroom⟩ := hw
    have hcommit : Frame s' (commitCounts counts s') := frame_same rfl rfl rfl rfl rfl rfl rfl
    have hedits : ∀ E, Edits E (fun page => page ∈ pagesOf s.config r.address r.stop) s (commitCounts counts s') :=
      fun E => (hrelease E _).trans ⟨hw.frame.trans hcommit, hw.path E, fun _ => indexed_of_none rfl⟩
    refine ⟨⟨hedits, hw.spilled.trans hsp, fun page hp hf => tailRelease_filling (m.arrive i) ?_⟩, ?_, ?_, ?_⟩
    · rw [← hw.same page hp]
      exact hf
    · exact (hedits fun _ => False).books h.books
    · exact (List.nodup_append.1 h.nodup).2.1
    · exact hroom

end HeteroSim.Nand
