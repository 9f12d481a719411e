/-
A whole request. Admission leaves no page that the parts of the request could
stage again, so a part that goes to the array is not split further, and each
part that goes to the store finds the room admission counted on.
-/
import HeteroSim.Nand.Runs

namespace HeteroSim.Nand

variable {cfg : NandConfig} {E W : ℕ → Prop}

/-- The page is covered in part. -/
def boundary (cfg : NandConfig) (r : AccessRequest) (page : ℕ) : Prop :=
  r.address % cfg.pageBytes ≠ 0 ∧ page = r.address / cfg.pageBytes ∨
    r.stop % cfg.pageBytes ≠ 0 ∧ page = (r.stop - 1) / cfg.pageBytes

/-- The pages a request that would stage again have spilled. -/
def Quiet (r : AccessRequest) (kept : List ℕ) (s : NandState) : Prop :=
  ∀ page ∈ pagesOf s.config r.address r.stop, page ∉ kept →
    filling (s.tailPages.get? page) = true ∨ boundary s.config r page → page ∈ s.tailSpilled

theorem Part.refl (s : NandState) : Part W s s := ⟨fun _ => .refl s, rfl, fun _ _ h => h⟩

theorem Part.trans {s s' s'' : NandState} (h : Part W s s') (h' : Part W s' s'') : Part W s s'' :=
  ⟨fun E => (h.edits E).trans (h'.edits E), h'.spilled.trans h.spilled,
    fun page hp hf => h.filling page hp (h'.filling page hp hf)⟩

theorem Part.mono {W' : ℕ → Prop} {s s' : NandState} (h : Part W s s') (hw : ∀ page, W page → W' page) :
    Part W' s s' :=
  ⟨fun E => (h.edits E).mono (fun _ h => h) hw, h.spilled, fun page hp => h.filling page fun h => hp (hw page h)⟩

theorem Part.quiet {r : AccessRequest} {kept : List ℕ} {s s' : NandState} (h : Part (fun page => page ∈ kept) s s')
    (hq : Quiet r kept s) : Quiet r kept s' := by
  have hcfg := (h.edits fun _ => False).frame.config
  intro page hp hk ht
  rw [hcfg] at hp ht
  rw [h.spilled]
  exact hq page hp hk (ht.imp_left (h.filling page hk))

/-! ## Parts that go to the array -/

theorem tailStaged_same (first last : Int) (s : NandState) :
    (tailStaged first last s).2 = { s with tailIndex := (tailStaged first last s).2.tailIndex } := by
  unfold tailStaged
  split
  · rfl
  · split
    · rfl
    · rfl

theorem tailStaged_part (first last : Int) (s : NandState) : Part W s (tailStaged first last s).2 := by
  refine ⟨fun E => tailStaged_edits first last s, ?_, fun page _ hf => ?_⟩
  · rw [tailStaged_same]
  · rw [tailStaged_same] at hf
    exact hf

theorem Ready.staged {span : ℕ → Int × Int} {pages : List ℕ} {s : NandState} (h : Ready span pages s)
    (first last : Int) : Ready span pages (tailStaged first last s).2 := by
  rw [tailStaged_same]
  exact ⟨h.books, h.nodup, h.room⟩

/-- A request that touches no page is not taken. -/
theorem submitStaged_quiet (live : ℕ → AccessRequest → NandM Unit) (m : Media) {r : AccessRequest} {s : NandState}
    (h : ∀ listed, stagedPages r listed s = []) :
    wp (submitStaged live m r) (fun handled s' => handled = false ∧ ∃ first last, s' = (tailStaged first last s).2)
      (fun _ _ => False) s := by
  have hnone : ∀ (first last : Int), stagedPages r (tailStaged first last s).1 (tailStaged first last s).2 = [] := by
    intro first last
    rw [tailStaged_same]
    exact h _
  unfold submitStaged
  simp only [wp_bind, wp_get, hnone]
  unfold admitted
  rw [if_neg (by simp)]
  simp only [wp_set, if_true, wp_pure]
  exact ⟨trivial, _, _, rfl⟩

theorem submitLive_quiet (m : Media) (i : ℕ) {r : AccessRequest} {s : NandState}
    (h : ∀ listed, stagedPages r listed s = []) :
    wp (submitLive m 1 i r) (fun _ s' => s' = s ∨ ∃ first last, s' = (tailStaged first last s).2)
      (fun e s' => e = .failed ∧ (s' = s ∨ ∃ first last, s' = (tailStaged first last s).2)) s := by
  have hend : ∀ s', (s' = s ∨ ∃ first last, s' = (tailStaged first last s).2) →
      wp (raise (refuse (m.fails i = true) .failed) : NandM Unit)
        (fun _ s' => s' = s ∨ ∃ first last, s' = (tailStaged first last s).2)
        (fun e s' => e = .failed ∧ (s' = s ∨ ∃ first last, s' = (tailStaged first last s).2)) s' := fun s' hs => by
    rw [wp_refuse]
    exact ⟨fun _ => hs, fun _ => ⟨rfl, hs⟩⟩
  unfold submitLive
  rw [wp_bind, wp_get]
  dsimp only
  split
  · rw [wp_bind, wp_pure]
    exact hend s (.inl rfl)
  · rw [wp_bind]
    refine wp_mono (submitStaged_quiet _ m h) (fun handled s' hh => ?_) fun _ _ h => h.elim
    obtain ⟨rfl, hs⟩ := hh
    exact hend s' (.inr hs)

/-- The pages of a run have the spans they have in the request. -/
theorem pageSpan_part {r part : AccessRequest} {run : Run} (hcut : Cut cfg r run) (hlo : part.address = run.lo)
    (hhi : part.stop = run.hi) {page : ℕ} (hp : page ∈ pagesOf cfg run.lo run.hi) :
    pageSpan cfg part page = pageSpan cfg r page ∧ page ∈ pagesOf cfg r.address r.stop := by
  obtain ⟨h1, h2⟩ := (mem_pagesOf hcut.lt).1 hp
  have ha := hcut.lo.1
  have hs := hcut.hi.1
  have hbase : max run.lo (page * cfg.pageBytes) = max r.address (page * cfg.pageBytes) := by
    rcases hcut.lo.2 with he | hd
    · rw [he]
    · have := le_of_dvd_lt hd h1
      omega
  have hend : min run.hi (page * cfg.pageBytes + cfg.pageBytes) = min r.stop (page * cfg.pageBytes + cfg.pageBytes) := by
    rcases hcut.hi.2 with he | hd
    · rw [he]
    · have := le_of_lt_dvd hd h2
      rw [Nat.succ_mul] at this
      omega
  refine ⟨by simp only [pageSpan, hlo, hhi, hbase, hend], (mem_pagesOf r.lt_stop).2 ⟨by omega, by omega⟩⟩

/-- A run that is not for the store finds no page to stage. -/
theorem Quiet.run {r part : AccessRequest} {run : Run} {kept : List ℕ} {s : NandState} (hq : Quiet r kept s)
    (hcut : Cut s.config r run) (hlo : part.address = run.lo) (hhi : part.stop = run.hi)
    (hfree : ∀ page ∈ pagesOf s.config run.lo run.hi, page ∉ kept) (listed : List ℕ) :
    stagedPages part listed s = [] := by
  unfold stagedPages
  rw [List.filter_eq_nil_iff]
  intro page hp htouch
  rw [hlo, hhi] at hp
  have hin := (pageSpan_part hcut hlo hhi hp).2
  simp only [touches, decide_eq_true_eq] at htouch
  refine htouch.2 (hq page hin (hfree page hp) ?_)
  rcases htouch.1 with hl | ⟨hmod, he⟩ | ⟨hmod, he⟩
  · exact .inl hl.2
  · rw [hlo] at hmod he
    refine .inr (.inl ?_)
    rcases hcut.lo.2 with ha | hd
    · rw [← ha]; exact ⟨hmod, he⟩
    · exact absurd (Nat.mod_eq_zero_of_dvd hd) hmod
  · rw [hhi] at hmod he
    refine .inr (.inr ?_)
    rcases hcut.hi.2 with ha | hd
    · rw [← ha]; exact ⟨hmod, he⟩
    · exact absurd (Nat.mod_eq_zero_of_dvd hd) hmod

/-! ## The parts in order -/

/-- What a part may raise. -/
def Refused (e : NandError) : Prop := e = .rejected ∨ e = .failed

/-- One part of the request. -/
theorem submitPart_spec (m : Media) (i : ℕ) {r : AccessRequest} {run : Run} {kept more : List ℕ} {s : NandState}
    (hcut : Cut s.config r run) (hkept : ∀ page ∈ run.pages s.config, page ∈ kept)
    (hfree : run.tail = false → ∀ page ∈ pagesOf s.config run.lo run.hi, page ∉ kept) (hq : Quiet r kept s)
    (h : Ready (pageSpan s.config r) (run.pages s.config ++ more) s) :
    wp (submitPart (submitLive m 1) m r (run, i))
      (fun _ s' => Part (fun page => page ∈ kept) s s' ∧ Ready (pageSpan s.config r) more s')
      (fun e s' => Refused e ∧ Part (fun page => page ∈ kept) s s') s := by
  have hpos : 0 < run.hi - run.lo := by have := hcut.lt; omega
  have hstop : run.lo + (run.hi - run.lo) = run.hi := by omega
  unfold submitPart
  simp only [dif_pos hpos]
  generalize hpart : AccessRequest.mk run.lo (run.hi - run.lo) r.arrival _ = part
  have hlo : part.address = run.lo := by rw [← hpart]
  have hhi : part.stop = run.hi := by rw [← hpart]; exact hstop
  split
  · next ht =>
    have hpages : run.pages s.config = pagesOf s.config part.address part.stop := by
      simp only [Run.pages, ht, if_true, hlo, hhi]
    rw [hpages] at h hkept
    refine wp_mono (submitTailWrite_spec m i (pageSpan s.config r) more (fun page hp => ?_) h) (fun _ s' hw => ?_)
      fun _ _ h => h.elim
    · rw [hlo, hhi] at hp
      exact (pageSpan_part hcut hlo hhi hp).1.symm
    · exact ⟨hw.1.mono hkept, hw.2⟩
  · next ht =>
    have hf : run.tail = false := Bool.eq_false_iff.2 ht
    have hpages : run.pages s.config = [] := by simp only [Run.pages, hf]; rfl
    rw [hpages, List.nil_append] at h
    have hsame : ∀ s', (s' = s ∨ ∃ first last, s' = (tailStaged first last s).2) →
        Part (fun page => page ∈ kept) s s' ∧ Ready (pageSpan s.config r) more s' := fun s' hs => by
      rcases hs with rfl | ⟨first, last, rfl⟩
      · exact ⟨.refl _, h⟩
      · exact ⟨tailStaged_part first last s, h.staged first last⟩
    refine wp_mono (submitLive_quiet m i fun listed => hq.run hcut hlo hhi (hfree hf) listed)
      (fun _ s' hs => hsame s' hs) fun e s' hs => ⟨.inr hs.1, (hsame s' hs.2).1⟩

/-- **The parts of a request, one after another.** -/
theorem submitParts_spec (m : Media) {r : AccessRequest} {cfg : NandConfig} {kept : List ℕ} : ∀ {runs : List Run} {n : ℕ}
    {s : NandState}, s.config = cfg → (∀ run ∈ runs, Cut cfg r run) →
    (∀ page ∈ runs.flatMap (Run.pages cfg), page ∈ kept) →
    (∀ run ∈ runs, run.tail = false → ∀ page ∈ pagesOf cfg run.lo run.hi, page ∉ kept) → Quiet r kept s →
    Ready (pageSpan cfg r) (runs.flatMap (Run.pages cfg)) s →
    wp ((runs.zipIdx n).forM (submitPart (submitLive m 1) m r)) (fun _ s' => Part (fun page => page ∈ kept) s s')
      (fun e s' => Refused e ∧ Part (fun page => page ∈ kept) s s') s
  | [], n, s, _, _, _, _, _, _ => Part.refl s
  | run :: runs, n, s, hcfg, hcut, hkept, hfree, hq, h => by
    subst hcfg
    rw [List.zipIdx_cons, List.forM_eq_forM, List.forM_cons, wp_bind]
    rw [List.flatMap_cons] at h hkept
    refine wp_mono (submitPart_spec m n (hcut run (by simp)) (fun page hp => hkept page (by simp [hp]))
      (hfree run (by simp)) hq h) (fun _ s' hs => ?_) fun _ _ h => h
    obtain ⟨hpart, hready⟩ := hs
    have hcfg' := (hpart.edits fun _ => False).frame.config
    refine wp_mono (submitParts_spec m hcfg' (fun q hq => hcut q (by simp [hq]))
      (fun page hp => hkept page (List.mem_append_right _ hp)) (fun q hq => hfree q (by simp [hq])) (hpart.quiet hq)
      hready) (fun _ s'' h => hpart.trans h) fun e s'' h => ⟨h.1, hpart.trans h.2⟩

/-! ## The request -/

/-- The staged pages in a request's span. -/
def foundBy (r : AccessRequest) (s : NandState) : List ℕ × NandState :=
  tailStaged (r.address / s.config.pageBytes : ℕ) ((r.stop - 1) / s.config.pageBytes : ℕ) s

/-- The pages a request takes up. -/
def stagedOf (r : AccessRequest) (s : NandState) : List ℕ := stagedPages r (foundBy r s).1 (foundBy r s).2

/-- Those of them that admission keeps. -/
def keptOf (m : Media) (r : AccessRequest) (s : NandState) : List ℕ :=
  (admitted m r (stagedOf r s) (foundBy r s).2).1

theorem stagedPages_sorted (r : AccessRequest) (listed : List ℕ) (s : NandState) :
    (stagedPages r listed s).Pairwise (· < ·) := (pagesOf_sorted _ _ _).filter _

theorem keptOf_sub (m : Media) (r : AccessRequest) (s : NandState) {page : ℕ} (h : page ∈ keptOf m r s) :
    page ∈ stagedOf r s :=
  (admitted_spec m r ((stagedPages_sorted r _ _).imp ne_of_lt)).sublist.subset h

/-- What the request would stage again after admission has spilled. -/
theorem admitted_quiet {m : Media} {r : AccessRequest} {listed : List ℕ} {s : NandState}
    (hl : ∀ page ∈ pagesOf s.config r.address r.stop, filling (s.tailPages.get? page) = true → page ∈ listed)
    (h : Admitted r (stagedPages r listed s) s (admitted m r (stagedPages r listed s) s).1
      (admitted m r (stagedPages r listed s) s).2) :
    Quiet r (admitted m r (stagedPages r listed s) s).1 (admitted m r (stagedPages r listed s) s).2 := by
  have hcfg := (h.edits fun _ => False).frame.config
  intro page hp hk ht
  rw [hcfg] at hp ht
  refine h.spilled page ?_
  by_cases hstaged : page ∈ stagedPages r listed s
  · exact .inr ⟨hstaged, hk⟩
  · refine .inl (by_contra fun hsp => hstaged ?_)
    rw [stagedPages, List.mem_filter]
    refine ⟨hp, ?_⟩
    simp only [touches, decide_eq_true_eq]
    refine ⟨?_, hsp⟩
    rcases ht with hf | hb
    · have hold := h.filling page hstaged hf
      exact .inl ⟨hl page hp hold, hold⟩
    · exact .inr hb

/-- The runs of what admission keeps. -/
theorem submitRuns_spec (m : Media) {r : AccessRequest} {kept : List ℕ} {s : NandState} (hne : kept ≠ [])
    (hsorted : kept.Pairwise (· < ·)) (hin : ∀ page ∈ kept, page ∈ pagesOf s.config r.address r.stop)
    (hq : Quiet r kept s) (h : Ready (pageSpan s.config r) kept s) :
    wp (submitRuns (submitLive m 1) m r (splitRuns s.config r kept))
      (fun _ s' => Part (fun page => page ∈ kept) s s')
      (fun e s' => Refused e ∧ Part (fun page => page ∈ kept) s s') s := by
  have hruns := splitRuns_spec hsorted hin
  generalize splitRuns s.config r kept = runs at hruns
  unfold submitRuns
  split
  · next run =>
    -- the only run is the whole request, and all of its pages are kept
    obtain ⟨hlo, hhi⟩ := hruns.whole run rfl
    have hpages : run.pages s.config = kept := by
      have := hruns.pages
      rwa [List.flatMap_singleton] at this
    have hall : pagesOf s.config r.address r.stop = kept := by
      rw [← hpages, ← hlo, ← hhi, Run.pages]
      split
      · rfl
      · next ht =>
        rw [Run.pages, if_neg ht] at hpages
        exact absurd hpages.symm hne
    rw [← hall] at h
    have hr : Ready (pageSpan s.config r) (pagesOf s.config r.address r.stop ++ []) s := by rwa [List.append_nil]
    refine wp_mono (submitTailWrite_spec m 0 (pageSpan s.config r) [] (fun _ _ => rfl) hr) (fun _ s' hw => ?_)
      fun _ _ h => h.elim
    rw [← hall]
    exact hw.1
  · refine submitParts_spec m rfl hruns.cut (fun page hp => ?_) hruns.free hq ?_
    · rwa [hruns.pages] at hp
    · rwa [hruns.pages]

/-- What a write does: it may program what it does not keep, and writes what
it keeps. -/
def Submitted (m : Media) (r : AccessRequest) (s s' : NandState) : Prop :=
  Edits (fun page => page ∈ stagedOf r s ∧ page ∉ keptOf m r s) (fun page => page ∈ keptOf m r s) s s'

theorem mem_foundBy {r : AccessRequest} {s : NandState} (hx : Indexed s) {page : ℕ}
    (hp : page ∈ pagesOf s.config r.address r.stop) (hf : filling (s.tailPages.get? page) = true) :
    page ∈ (foundBy r s).1 := by
  have hle := List.mem_range'_1.1 hp
  refine (mem_tailStaged hx _ _ page).2 ⟨by omega, by omega, ?_⟩
  by_contra hk
  rw [Dict.get?_eq_none.2 hk] at hf
  cases hf

/-- **A write keeps the staging's edits; what it raises is not a refusal of
the store.** -/
theorem submitStaged_spec (m : Media) {r : AccessRequest} {s : NandState} (hb : Books s.config (imageOf s))
    (hx : Indexed s) : wp (submitStaged (submitLive m 1) m r) (fun _ s' => Submitted m r s s')
      (fun e s' => Refused e ∧ Submitted m r s s') s := by
  have hfound : ∀ E W, Edits E W s (foundBy r s).2 := fun E W => tailStaged_edits _ _ s
  have hsame : (foundBy r s).2 = { s with tailIndex := (foundBy r s).2.tailIndex } := tailStaged_same _ _ s
  have hsorted : (stagedOf r s).Pairwise (· < ·) := stagedPages_sorted _ _ _
  have hadm := admitted_spec m r (s := (foundBy r s).2) (hsorted.imp ne_of_lt)
  have hquiet : Quiet r (keptOf m r s) (admitted m r (stagedOf r s) (foundBy r s).2).2 := by
    refine admitted_quiet (fun page hp hf => ?_) hadm
    rw [hsame] at hp hf
    exact mem_foundBy hx hp hf
  have hresult : admitted m r (stagedPages r (foundBy r s).1 (foundBy r s).2) (foundBy r s).2 =
      (keptOf m r s, (admitted m r (stagedOf r s) (foundBy r s).2).2) := rfl
  have hkept : (admitted m r (stagedOf r s) (foundBy r s).2).1 = keptOf m r s := rfl
  rw [hkept] at hadm
  generalize (admitted m r (stagedOf r s) (foundBy r s).2).2 = s2 at hadm hquiet hresult
  have hto : ∀ W, Edits (fun page => page ∈ stagedOf r s ∧ page ∉ keptOf m r s) W s s2 := fun W =>
    (hfound _ W).trans (hadm.edits W)
  have hcfg1 : (foundBy r s).2.config = s.config := by rw [hsame]
  have hcfg := (hto fun _ => False).frame.config
  have hready : Ready (pageSpan s2.config r) (keptOf m r s) s2 := by
    refine ⟨(hto fun _ => False).books hb, (hsorted.imp ne_of_lt).sublist hadm.sublist, fun hlimit => ?_⟩
    have hfits := hadm.fits
    rw [hcfg1, (hfound (fun _ => False) fun _ => False).frame.shared, ← hcfg] at hfits
    rw [(hto fun _ => False).frame.shared]
    exact hfits hlimit
  have hin : ∀ page ∈ keptOf m r s, page ∈ pagesOf s2.config r.address r.stop := fun page hp => by
    have := (List.mem_filter.1 (hadm.sublist.subset hp)).1
    rwa [hcfg1, ← hcfg] at this
  have hpart : ∀ s', Part (fun page => page ∈ keptOf m r s) s2 s' → Submitted m r s s' := fun s' hp =>
    (hto _).trans (hp.edits _)
  have hdef : tailStaged (r.address / s.config.pageBytes : ℕ) ((r.stop - 1) / s.config.pageBytes : ℕ) s = foundBy r s := rfl
  unfold submitStaged
  simp only [wp_bind, wp_get, hdef, hresult, wp_set]
  split
  · exact hpart s2 (.refl s2)
  · next hne =>
    simp only [wp_bind, wp_refuse, wp_pure]
    refine ⟨fun _ => ?_, fun _ => ⟨.inl rfl, hpart s2 (.refl s2)⟩⟩
    exact wp_mono (submitRuns_spec m hne (hsorted.sublist hadm.sublist) hin hquiet hready) (fun _ s' h => hpart s' h)
      fun e s' h => ⟨h.1, hpart s' h.2⟩

/-- **A write never meets a full store, and is never split twice.** -/
theorem submit_spec (m : Media) {r : AccessRequest} {s : NandState} (hb : Books s.config (imageOf s))
    (hx : Indexed s) : wp (submit m r) (fun _ s' => Submitted m r s s')
      (fun e s' => Refused e ∧ Submitted m r s s') s := by
  have hend : ∀ handled s', Submitted m r s s' →
      wp (if handled = true then pure () else raise (refuse (m.fails 0 = true) .failed) : NandM Unit)
        (fun _ s' => Submitted m r s s') (fun e s' => Refused e ∧ Submitted m r s s') s' := fun handled s' hs => by
    split
    · exact hs
    · rw [wp_refuse]
      exact ⟨fun _ => hs, fun _ => ⟨.inr rfl, hs⟩⟩
  unfold submit submitLive
  rw [wp_bind, wp_get]
  dsimp only
  split
  · rw [wp_bind, wp_pure]
    exact hend false s (.refl s)
  · rw [wp_bind]
    exact wp_mono (submitStaged_spec m hb hx) (fun handled s' hs => hend handled s' hs) fun _ _ h => h

/-! ## Runs -/

/-- What every operation keeps: the books of the live image and of every image
an open transaction leads back to, and the index. -/
structure Sound (cfg : NandConfig) (s : NandState) : Prop where
  config : s.config = cfg
  books : Throughout (Books cfg) s
  nested : Nested s
  index : Indexed s

theorem Sound.live {s : NandState} (h : Sound cfg s) : Books s.config (imageOf s) := h.config ▸ h.books.live

theorem Sound.edits {s s' : NandState} (h : Sound cfg s) (he : Edits E W s s') : Sound cfg s' := by
  refine ⟨he.frame.config.trans h.config, h.books.edits he.frame.views ?_, he.frame.nested h.nested,
    he.index h.index⟩
  have := he.path.books h.live
  rwa [h.config] at this

theorem sound_init (cfg : NandConfig) : Sound cfg (.init cfg) :=
  ⟨rfl, ⟨books_empty cfg _, fun _ hi => absurd hi (by simp [Nand.views, NandState.init])⟩, .nil, indexed_of_none rfl⟩

/-- The scope to defer to, the shared bytes and the stored share may change. -/
theorem Sound.retune {s : NandState} (h : Sound cfg s) (scope : Option String) (shared : ℕ) (fraction : ℚ) :
    Sound cfg { s with tailDeferScope := scope, tailShared := shared, tailFraction := fraction } :=
  ⟨h.config, ⟨h.books.live, h.books.views⟩, h.nested, h.index.of_keys rfl fun _ => Iff.rfl⟩

theorem exec_setStagingScope (scope : Option String) (s : NandState) : exec s (.setStagingScope scope) = s ∨
    exec s (.setStagingScope scope) = { s with tailDeferScope := scope } := by
  by_cases hs : scope = some ""
  · exact .inl (by simp only [exec, setStagingScope, if_pos hs])
  · exact .inr (by simp only [exec, setStagingScope, if_neg hs])

theorem Sound.rollback {s : NandState} (h : Sound cfg s) : Sound cfg (rollbackTransaction s) := by
  obtain ⟨-, -, hnested, hcfg⟩ := rollback_image h.nested
  refine ⟨hcfg.trans h.config, h.books.rollbackTransaction h.nested, hnested, ?_⟩
  unfold rollbackTransaction
  cases s.transactions with
  | nil => exact h.index
  | cons t rest =>
    -- the index is dropped with the first page that comes back
    by_cases hempty : t.tailPages.items = []
    · exact h.index.of_keys (by simp [hempty]) fun page => by simp [hempty]
    · exact indexed_of_none (by simp [hempty])

theorem exec_write (m : Media) (r : AccessRequest) {s : NandState} (h : Sound cfg s) :
    Submitted m r s (exec s (.write m r)) :=
  wp_after (wp_mono (submit_spec m h.live h.index) (fun _ _ hs => hs) fun _ _ hs => hs.2)

theorem Sound.exec {s : NandState} (h : Sound cfg s) (op : Op) : Sound cfg (exec s op) := by
  cases op with
  | write m r => exact h.edits (exec_write m r h)
  | read first last =>
    have hedits : Edits (fun _ => False) (fun _ => False) s (tailStaged first last s).2 := tailStaged_edits first last s
    exact h.edits hedits
  | setStagingScope scope =>
    rcases exec_setStagingScope scope s with he | he
    · rw [he]; exact h
    · rw [he]; exact h.retune scope s.tailShared s.tailFraction
  | flushStagedPages scope pages stop =>
    have hedits := flushStagedPages_edits (W := fun _ => False) scope pages stop s
    exact h.edits hedits
  | discardTailPages address byteCount =>
    have hedits : Edits (fun _ => False) (fun _ => False) s (discardTailPages address byteCount s) :=
      discardTailPages_edits address byteCount s
    exact h.edits hedits
  | share shared fraction => exact h.retune s.tailDeferScope shared fraction
  | beginTransaction => exact ⟨h.config, h.books.beginTransaction, nested_begin h.nested, h.index⟩
  | commitTransaction => exact ⟨h.config, h.books.commitTransaction, nested_commit h.nested, h.index⟩
  | rollbackTransaction => exact h.rollback

theorem sound_run (cfg : NandConfig) (ops : List Op) : Sound cfg (run ops (.init cfg)) := by
  have hall : ∀ (ops : List Op) (s : NandState), Sound cfg s → Sound cfg (run ops s) := by
    intro ops
    induction ops with
    | nil => exact fun s h => h
    | cons op ops ih => exact fun s h => ih (Nand.exec s op) (h.exec op)
  exact hall ops _ (sound_init cfg)

theorem sum_load (c : ℕ) : ∀ entries : List TailEntry,
    (entries.map (load c)).sum = ((entries.filter (·.channel = c)).map (·.valid)).sum
  | [] => rfl
  | entry :: entries => by
    rw [List.map_cons, List.sum_cons, sum_load c entries, List.filter_cons, load]
    by_cases hc : entry.channel = c
    · simp [hc]
    · simp [hc]

/-- **In every reached state each channel's counter is the sum of the bytes its
staged pages hold, each page's bytes are the length of its ranges, which are
apart, and no write is refused by the store.** -/
theorem staging_capacity (cfg : NandConfig) (ops : List Op) :
    (∀ c, (run ops (.init cfg)).counters.valid c =
      (((run ops (.init cfg)).tailPages.values.filter (·.channel = c)).map (·.valid)).sum) ∧
    (∀ page entry, (run ops (.init cfg)).tailPages.get? page = some entry →
      Separated entry.ranges ∧ entry.valid = totalLength entry.ranges) ∧
    ∀ m r e s', submit m r (run ops (.init cfg)) = .error e s' → e = .rejected ∨ e = .failed := by
  have h := sound_run cfg ops
  generalize run ops (.init cfg) = s at h
  refine ⟨fun c => ?_, fun page entry hp => ?_, fun m r e s' he => ?_⟩
  · rw [← sum_load]
    exact (h.books.live.counted c).unique (tally_dict (load c) s.tailPages)
  · have hk := h.books.live.kept page entry hp
    exact ⟨hk.apart, hk.bytes⟩
  · exact (wp_error (submit_spec m h.live h.index) he).1

end HeteroSim.Nand
